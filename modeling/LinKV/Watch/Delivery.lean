import LinKV.Mvcc.Events
import LinKV.Watch.Wired

namespace LinKV
set_option autoImplicit true

open Channel Consensus Versioned

/-- The events that `Watch` has promised. -/
def Watcher.wants (w : Watcher) (ev : MvccEvent) : Bool :=
  covers w.isPrefix w.key ev.key && w.startRev ≤ ev.rev.main

namespace Hub

/-- The events on their way to the watchers: with the dispatcher, in `eventCh` and with mutators. -/
def waiting (h : Hub) : List MvccEvent :=
  (h.turn.map Turn.ev).toList ++ h.eventCh ++ h.pending.flatten

/-- No mutator overtakes one that has left the lock before it. -/
def keepsLockOrder (h : Hub) : HubAction → Bool
  | .enqueue i => (h.pending.take i).flatten = []
  | _ => true

/-- The store is restored only when no event is on its way, and not under the watcher. -/
def restoresApart (id : Int) (h : Hub) : HubAction → Bool
  | .restore _ => h.waiting = [] && (h.made.lookup id).all fun w => w.ch.closed
  | _ => true

/-- The backlog goroutine of the watcher always finds room in the channel. -/
def pushesWithRoom (id : Int) (h : Hub) : HubAction → Bool
  | .push j => j ≠ id || (h.made.lookup id).all fun w => w.ch.buf.length < watchCapacity
  | _ => true

/-- The dispatcher comes to the watcher with a new event only when the backlog has been pushed. -/
def sendsAfterBacklog (id : Int) (h : Hub) : HubAction → Bool
  | .dispatch => h.turn.all fun t => t.todo.head? ≠ some id || (h.made.lookup id).all fun w =>
    t.ev.rev.main ≤ w.lastSentRev || w.backlog = []
  | _ => true

def orderly (id : Int) (h : Hub) (a : HubAction) : Prop :=
  h.keepsLockOrder a = true ∧ restoresApart id h a = true ∧ pushesWithRoom id h a = true ∧
    sendsAfterBacklog id h a = true

instance orderly.decidable (id : Int) (h : Hub) (a : HubAction) : Decidable (orderly id h a) :=
  inferInstanceAs (Decidable (_ ∧ _ ∧ _ ∧ _))

end Hub

/-- Whether the watcher has still to get its turn with the event. -/
def Turn.Awaits (t : Turn) (id : Int) (w : Watcher) : Prop :=
  match t.phase with
  | .received => True
  | .watchers => w.isPrefix = true ∨ id ∈ t.todo
  | .prefixWatchers => id ∈ t.todo

namespace Hub

/-- The event is still on its way to the watcher. -/
def Owes (h : Hub) (id : Int) (w : Watcher) (ev : MvccEvent) : Prop :=
  (∃ t, h.turn = some t ∧ t.ev = ev ∧ t.Awaits id w) ∨ ev ∈ h.eventCh ∨ ev ∈ h.pending.flatten

/-- What has been sent and what is left of the backlog are the wanted events up to `lastSentRev`,
and those after it are on their way. -/
structure Served (h : Hub) (id : Int) (w : Watcher) : Prop where
  sent : w.ch.sent ++ w.backlog =
    (h.produced.filter w.wants).filter fun ev => ev.rev.main ≤ w.lastSentRev
  owed : ∀ ev ∈ h.produced, w.wants ev = true → w.lastSentRev < ev.rev.main → h.Owes id w ev
  started : w.startRev - 1 ≤ w.lastSentRev
  last : w.lastSentRev < w.startRev ∨ ∃ ev ∈ h.produced, w.lastSentRev = ev.rev.main

structure InOrder (id : Int) (h : Hub) : Prop where
  recorded : Recorded h.produced h.store.backend
  waiting : h.waiting <:+ h.produced
  served : ∀ w, h.made.lookup id = some w → w.ch.closed = false → h.Served id w

section

variable {h h' : Hub} {a : HubAction} {id : Int} {w : Watcher} {t : Turn}

theorem Served.mono (hs : h.Served id w) (hprod : h'.produced = h.produced)
    (howes : ∀ ev, w.wants ev = true → w.lastSentRev < ev.rev.main → h.Owes id w ev →
      h'.Owes id w ev) : h'.Served id w where
  sent := by
    rw [hprod]
    exact hs.sent
  owed := fun ev hev hw hlt => howes ev hw hlt (hs.owed ev (hprod ▸ hev) hw hlt)
  started := hs.started
  last := by
    rw [hprod]
    exact hs.last

theorem Served.mutate (hs : h.Served id w) (evs : List MvccEvent)
    (hsorted : (h.produced ++ evs).Pairwise fun x y => x.rev.main < y.rev.main)
    (hprod : h'.produced = h.produced ++ evs) (hturn : h'.turn = h.turn)
    (hch : h'.eventCh = h.eventCh) (hpending : h'.pending = h.pending ++ [evs]) :
    h'.Served id w := by
  have hflat : h'.pending.flatten = h.pending.flatten ++ evs := by
    rw [hpending, List.flatten_append, List.flatten_singleton]
  have hnew (ev : MvccEvent) (hev : ev ∈ evs) (hw : w.wants ev = true) :
      w.lastSentRev < ev.rev.main := by
    rcases hs.last with hlt | ⟨old, hold, he⟩
    · have hle : w.startRev ≤ ev.rev.main := of_decide_eq_true (Bool.and_eq_true_iff.1 hw).2
      exact Int.lt_of_lt_of_le hlt hle
    · rw [he]
      exact (List.pairwise_append.1 hsorted).2.2 old hold ev hev
  refine ⟨?_, fun ev hev hw hlt => ?_, hs.started, ?_⟩
  · have hnil : (evs.filter w.wants).filter (fun ev => ev.rev.main ≤ w.lastSentRev) = [] := by
      refine List.filter_eq_nil_iff.2 fun ev hev => ?_
      obtain ⟨hev, hw⟩ := List.mem_filter.1 hev
      rw [decide_eq_true_eq]
      exact Int.not_le.2 (hnew ev hev hw)
    rw [hprod, List.filter_append, List.filter_append, hnil, List.append_nil]
    exact hs.sent
  · rw [hprod] at hev
    rw [Owes, hturn, hch, hflat]
    rcases List.mem_append.1 hev with hev | hev
    · rcases hs.owed ev hev hw hlt with ht | hq | hp
      · exact .inl ht
      · exact .inr (.inl hq)
      · exact .inr (.inr (List.mem_append_left _ hp))
    · exact .inr (.inr (List.mem_append_right _ hev))
  · rw [hprod]
    exact hs.last.imp_right fun ⟨ev, hev, he⟩ => ⟨ev, List.mem_append_left _ hev, he⟩

theorem lastSentRev_spec (events : List MvccEvent) (r : Int) :
    r ≤ events.foldl (fun r e => if r < e.rev.main then e.rev.main else r) r ∧
    (∀ ev ∈ events,
      ev.rev.main ≤ events.foldl (fun r e => if r < e.rev.main then e.rev.main else r) r) ∧
    (events.foldl (fun r e => if r < e.rev.main then e.rev.main else r) r = r ∨
      ∃ ev ∈ events,
        events.foldl (fun r e => if r < e.rev.main then e.rev.main else r) r = ev.rev.main) := by
  induction events generalizing r with
  | nil => exact ⟨Int.le_refl r, fun _ hev => absurd hev List.not_mem_nil, .inl rfl⟩
  | cons e events ih =>
    rw [List.foldl_cons]
    obtain ⟨hle, hall, hor⟩ := ih (if r < e.rev.main then e.rev.main else r)
    have hmax : r ≤ (if r < e.rev.main then e.rev.main else r) ∧
        e.rev.main ≤ (if r < e.rev.main then e.rev.main else r) ∧
        ((if r < e.rev.main then e.rev.main else r) = r ∨
          (if r < e.rev.main then e.rev.main else r) = e.rev.main) := by
      split
      · exact ⟨by omega, Int.le_refl _, .inr rfl⟩
      · exact ⟨Int.le_refl _, by omega, .inl rfl⟩
    refine ⟨Int.le_trans hmax.1 hle, fun ev hev => ?_, ?_⟩
    · rcases List.mem_cons.1 hev with rfl | hev
      · exact Int.le_trans hmax.2.1 hle
      · exact hall ev hev
    · rcases hor with heq | ⟨ev, hev, heq⟩
      · rcases hmax.2.2 with hr | he
        · exact .inl (heq.trans hr)
        · exact .inr ⟨e, List.mem_cons_self, heq.trans he⟩
      · exact .inr ⟨ev, List.mem_cons_of_mem e hev, heq⟩

/-- The backlog of a new watcher is all it wants so far. -/
theorem Served.watch (hr : Recorded h.produced h.store.backend)
    (hlt : h.store.backend.compactRev < fromRev) (hprod : h'.produced = h.produced)
    (key : Bytes) (isPrefix : Bool) (id : Int) :
    h'.Served id (.new h.store.backend.events key fromRev isPrefix) := by
  generalize hw : Watcher.new h.store.backend.events key fromRev isPrefix = w
  have hbacklog : w.backlog = h.produced.filter w.wants := by
    rw [← hw]
    change backlogOf h.store.backend.events key fromRev isPrefix = _
    rw [backlogOf, hr.events, List.filter_filter]
    refine List.filter_congr fun ev _ => ?_
    change (covers isPrefix key ev.key && decide (fromRev ≤ ev.rev.main) &&
      decide (h.store.backend.compactRev < ev.rev.main)) =
      (covers isPrefix key ev.key && decide (fromRev ≤ ev.rev.main))
    rw [Bool.and_eq_left_iff_imp, Bool.and_eq_true, decide_eq_true_eq, decide_eq_true_eq]
    omega
  obtain ⟨hle, hall, hor⟩ := lastSentRev_spec w.backlog (w.startRev - 1)
  have hlast : w.backlog.foldl (fun r e => if r < e.rev.main then e.rev.main else r)
      (w.startRev - 1) = w.lastSentRev := by
    rw [← hw]
    rfl
  rw [hlast] at hle hall hor
  have hcovered (ev : MvccEvent) (hev : ev ∈ h.produced) (hwants : w.wants ev = true) :
      ev.rev.main ≤ w.lastSentRev :=
    hall ev (hbacklog ▸ List.mem_filter.2 ⟨hev, hwants⟩)
  refine ⟨?_, fun ev hev hwants hgt => ?_, hle, ?_⟩
  · have hsent : w.ch.sent = [] := by
      rw [← hw]
      rfl
    rw [hsent, List.nil_append, hbacklog, hprod]
    refine (List.filter_eq_self.2 fun ev hev => decide_eq_true ?_).symm
    obtain ⟨hev, hwants⟩ := List.mem_filter.1 hev
    exact hcovered ev hev hwants
  · exact absurd (hcovered ev (hprod ▸ hev) hwants) (Int.not_le.2 hgt)
  · rcases hor with heq | ⟨ev, hev, heq⟩
    · left
      rw [heq]
      exact Int.sub_one_lt_of_le (Int.le_refl _)
    · right
      rw [hbacklog] at hev
      exact ⟨ev, hprod ▸ (List.mem_filter.1 hev).1, heq⟩

theorem flatten_set {l : List (List α)} (hi : l[i]? = some (x :: xs))
    (hnil : (l.take i).flatten = []) : l.flatten = x :: (l.set i xs).flatten := by
  obtain ⟨hlt, hget⟩ := List.getElem?_eq_some_iff.1 hi
  have hsplit : l = l.take i ++ (x :: xs) :: l.drop (i + 1) := by
    rw [← hget, ← List.drop_eq_getElem_cons hlt, List.take_append_drop]
  rw [List.set_eq_take_append_cons_drop, if_pos hlt, List.flatten_append, List.flatten_cons, hnil,
    List.nil_append]
  conv_lhs => rw [hsplit]
  rw [List.flatten_append, hnil, List.flatten_cons, List.nil_append, List.cons_append]

/-- The dispatcher sends the event after which the watcher has been served up to its revision. -/
theorem Served.sends (hs : h.Served id w) (ht : h.turn = some t)
    (hsorted : h.produced.Pairwise fun x y => x.rev.main < y.rev.main)
    (hwait : h.waiting <:+ h.produced) (hcovers : covers w.isPrefix w.key t.ev.key = true)
    (hlt : w.lastSentRev < t.ev.rev.main) (hb : w.backlog = [])
    (hprod : h'.produced = h.produced) (hch : h'.eventCh = h.eventCh)
    (hpending : h'.pending = h.pending) :
    h'.Served id { w with ch := w.ch.send t.ev, lastSentRev := t.ev.rev.main } := by
  have hwaiting : h.waiting = t.ev :: (h.eventCh ++ h.pending.flatten) := by
    rw [Hub.waiting, ht]
    rfl
  rw [hwaiting] at hwait
  have hev : t.ev ∈ h.produced := hwait.subset List.mem_cons_self
  have hafter (ev : MvccEvent) (hev : ev ∈ h.eventCh ∨ ev ∈ h.pending.flatten) :
      t.ev.rev.main < ev.rev.main :=
    (List.pairwise_cons.1 (hsorted.sublist hwait.sublist)).1 ev (List.mem_append.2 hev)
  have hstart : w.startRev ≤ t.ev.rev.main := by
    have := hs.started
    omega
  have hwants : w.wants t.ev = true := Bool.and_eq_true_iff.2 ⟨hcovers, decide_eq_true hstart⟩
  -- what is still on its way comes after the event in hand
  have howed (ev : MvccEvent) (hin : ev ∈ h.produced) (hw : w.wants ev = true)
      (hgt : w.lastSentRev < ev.rev.main) :
      ev = t.ev ∨ ev ∈ h.eventCh ∨ ev ∈ h.pending.flatten := by
    rcases hs.owed ev hin hw hgt with ⟨t', ht', hev', -⟩ | hrest
    · obtain rfl := Option.some.inj (ht.symm.trans ht')
      exact .inl hev'.symm
    · exact .inr hrest
  refine ⟨?_, fun ev hin hw hgt => ?_, ?_, .inr ⟨t.ev, hprod ▸ hev, rfl⟩⟩
  · have hnext := upTo_next (l := h.produced.filter w.wants) (r := w.lastSentRev)
      (hsorted.filter w.wants) (List.mem_filter.2 ⟨hev, hwants⟩) hlt fun ev hin hgt => by
        obtain ⟨hin, hw⟩ := List.mem_filter.1 hin
        rcases howed ev hin hw hgt with rfl | hrest
        · exact Int.le_refl _
        · exact Int.le_of_lt (hafter ev hrest)
    have hsent := hs.sent
    rw [hb, List.append_nil] at hsent
    change w.ch.sent ++ [t.ev] ++ w.backlog =
      (h'.produced.filter w.wants).filter fun ev => ev.rev.main ≤ t.ev.rev.main
    rw [hb, List.append_nil, hprod, hnext, hsent]
  · change t.ev.rev.main < ev.rev.main at hgt
    rw [Owes, hch, hpending]
    rcases howed ev (hprod ▸ hin) hw (Int.lt_trans hlt hgt) with rfl | hrest
    · exact absurd hgt (Int.lt_irrefl _)
    · exact .inr hrest
  · change w.startRev - 1 ≤ t.ev.rev.main
    omega

theorem awaits_rest (ha : t.Awaits id w) (htodo : t.todo = j :: rest) (hne : id ≠ j)
    (full : Bool) : Turn.Awaits { t with todo := rest, full := full } id w := by
  have hmem (hid : id ∈ t.todo) : id ∈ rest := by
    rw [htodo] at hid
    exact (List.mem_cons.1 hid).resolve_left hne
  unfold Turn.Awaits at ha ⊢
  dsimp only
  cases hph : t.phase with
  | received => trivial
  | watchers =>
    rw [hph] at ha
    exact ha.imp_right hmem
  | prefixWatchers =>
    rw [hph] at ha
    exact hmem ha

theorem Served.setTurn (hs : h.Served id w) (ht : h.turn = some t) (t' : Turn)
    (hev : t'.ev = t.ev) (hprod : h'.produced = h.produced) (hch : h'.eventCh = h.eventCh)
    (hpending : h'.pending = h.pending) (hturn : h'.turn = some t')
    (hawaits : w.wants t.ev = true → w.lastSentRev < t.ev.rev.main → t.Awaits id w →
      t'.Awaits id w) : h'.Served id w := by
  refine hs.mono hprod fun ev hw hlt howes => ?_
  rw [Owes, hch, hpending]
  rcases howes with ⟨t₀, ht₀, rfl, ha⟩ | hrest
  · obtain rfl := Option.some.inj (ht.symm.trans ht₀)
    exact .inl ⟨t', hturn, hev, hawaits hw hlt ha⟩
  · exact .inr hrest

theorem InOrder.frame (hio : h.InOrder id) (hprod : h'.produced = h.produced)
    (hstore : h'.store = h.store) (hwait : h'.waiting <:+ h.waiting)
    (hserved : ∀ w, h'.made.lookup id = some w → w.ch.closed = false → h'.Served id w) :
    h'.InOrder id := by
  refine ⟨?_, ?_, hserved⟩
  · rw [hprod, hstore]
    exact hio.recorded
  · rw [hprod]
    exact hwait.trans hio.waiting

theorem InOrder.setWatcher (hio : h.InOrder id) (hw : j = id → w.ch.closed = false →
    (h.setWatcher j w).Served id w) : (h.setWatcher j w).InOrder id := by
  refine hio.frame rfl rfl List.suffix_rfl fun x hx hopen => ?_
  rw [setWatcher_lookup] at hx
  split at hx
  · rename_i hid
    obtain rfl := Option.some.inj hx
    exact hw hid.symm hopen
  · exact (hio.served x hx hopen).mono rfl fun _ _ _ howes => howes

theorem InOrder.cancelWatcher (hio : h.InOrder id) (j : Int) : (h.cancelWatcher j).InOrder id := by
  rcases cancelWatcher_cases h j with ⟨-, he⟩ | ⟨w, -, -, he⟩
  · rw [he]
    exact hio
  · rw [he]
    refine hio.frame rfl rfl List.suffix_rfl fun x hx hopen => ?_
    rw [removeWatcher_lookup] at hx
    split at hx
    · obtain rfl := Option.some.inj hx
      cases hopen
    · exact (hio.served x hx hopen).mono rfl fun _ _ _ howes => howes

theorem InOrder.setTurn (hio : h.InOrder id) (ht : h.turn = some t) (t' : Turn)
    (hev : t'.ev = t.ev) (hawaits : ∀ w, h.made.lookup id = some w → w.ch.closed = false →
      w.wants t.ev = true → w.lastSentRev < t.ev.rev.main → t.Awaits id w → t'.Awaits id w) :
    { h with turn := some t' }.InOrder id := by
  refine hio.frame rfl rfl ?_ fun w hw hopen => ?_
  · simp only [Hub.waiting, ht, Option.map_some, hev]
    exact List.suffix_rfl
  · exact (hio.served w hw hopen).setTurn ht t' hev rfl rfl rfl rfl (hawaits w hw hopen)

theorem InOrder.panic (hio : h.InOrder id) : { h with panicked := true }.InOrder id := by
  refine hio.frame rfl rfl List.suffix_rfl fun w hw hopen => ?_
  exact (hio.served w hw hopen).mono rfl fun _ _ _ howes => howes

theorem InOrder.mutate {s : KVStore} (hio : h.InOrder id)
    (hs : { h.store with eventCh := [] }.apply op = some s) :
    { h with
      store := s
      pending := h.pending ++ [s.eventCh]
      produced := h.produced ++ s.eventCh }.InOrder id := by
  have hrec := hio.recorded.apply hs
  refine ⟨hrec, ?_, fun w hw hopen => ?_⟩
  · obtain ⟨pre, hpre⟩ := hio.waiting
    refine ⟨pre, ?_⟩
    rw [← hpre, Hub.waiting, Hub.waiting, List.flatten_append, List.flatten_singleton]
    simp only [List.append_assoc]
  · exact (hio.served w hw hopen).mutate s.eventCh hrec.sorted rfl rfl rfl rfl

/-- The next event to enter `eventCh` is the next one that is pending. -/
theorem InOrder.enqueue (hio : h.InOrder id) (hpend : h.pending[i]? = some (ev :: evs))
    (horder : (h.pending.take i).flatten = []) :
    { h with pending := h.pending.set i evs, eventCh := h.eventCh ++ [ev] }.InOrder id := by
  have hflat := flatten_set hpend horder
  refine hio.frame rfl rfl ?_ fun w hw hopen => ?_
  · simp only [Hub.waiting, hflat, List.append_assoc, List.cons_append, List.nil_append]
    exact List.suffix_rfl
  · refine (hio.served w hw hopen).mono rfl fun e _ _ howes => ?_
    rcases howes with ht | hq | hp
    · exact .inl ht
    · exact .inr (.inl (List.mem_append_left _ hq))
    · rw [hflat] at hp
      rcases List.mem_cons.1 hp with rfl | hp
      · exact .inr (.inl (List.mem_append_right _ List.mem_cons_self))
      · exact .inr (.inr hp)

theorem InOrder.restore (hio : h.InOrder id) (hnil : h.waiting = [])
    (hclosed : ∀ w, h.made.lookup id = some w → w.ch.closed = true) (snap : OwnSnapshot) :
    { h with
      store := h.store.restore snap.message
      produced :=
        if snap.message.accepted then snap.message.events else h.produced }.InOrder id := by
  obtain ⟨t, order, hreach, -, hmsg⟩ := snap.taken
  refine ⟨?_, ?_, fun w hw hopen => ?_⟩
  · rw [hmsg]
    exact hio.recorded.restore hreach order
  · change h.waiting <:+ _
    rw [hnil]
    exact List.nil_suffix
  · rw [hclosed w hw] at hopen
    cases hopen

theorem InOrder.watch (hio : h.InOrder id) (key : Bytes) (fromRev : Int) (isPrefix : Bool) :
    (h.watch key fromRev isPrefix).1.InOrder id := by
  rcases h.watch_cases key fromRev isPrefix with he | ⟨hlt, he⟩
  · rw [he]
    exact hio
  · rw [he]
    refine hio.frame rfl rfl List.suffix_rfl fun w hw hopen => ?_
    rw [addWatcher_lookup] at hw
    split at hw
    · obtain rfl := Option.some.inj hw
      have hprod (w : Watcher) : (h.addWatcher h.nextWatcherID w).produced = h.produced := rfl
      exact Served.watch hio.recorded hlt (hprod _) key isPrefix id
    · exact (hio.served w hw hopen).mono rfl fun _ _ _ howes => howes

theorem Served.push (hs : h.Served id w) (hb : w.backlog = e :: rest) :
    h.Served id { w with ch := w.ch.send e, backlog := rest } := by
  refine ⟨?_, hs.owed, hs.started, hs.last⟩
  have hsent := hs.sent
  rw [hb] at hsent
  change w.ch.sent ++ [e] ++ rest = _
  rw [List.append_assoc]
  exact hsent

theorem InOrder.receive (hio : h.InOrder id) (ht : h.turn = none) (hq : h.eventCh = ev :: evs) :
    { h with eventCh := evs, turn := some ⟨ev, .received, [], false⟩ }.InOrder id := by
  refine hio.frame rfl rfl ?_ fun w hw hopen => ?_
  · simp only [Hub.waiting, ht, hq, Option.map_none, Option.map_some, Option.toList_none,
      Option.toList_some, List.nil_append, List.cons_append]
    exact List.suffix_rfl
  · refine (hio.served w hw hopen).mono rfl fun e _ _ howes => ?_
    rcases howes with ⟨t, ht', -⟩ | hmem | hp
    · rw [ht] at ht'
      cases ht'
    · rw [hq] at hmem
      rcases List.mem_cons.1 hmem with rfl | hmem
      · exact .inl ⟨_, rfl, rfl, trivial⟩
      · exact .inr (.inl hmem)
    · exact .inr (.inr hp)

theorem Wired.awaits_listed (hi : h.Wired) (hw : h.made.lookup id = some w)
    (hopen : w.ch.closed = false) (hwants : w.wants t.ev = true) :
    Turn.Awaits { t with phase := .watchers, todo := h.listed false t.ev.key } id w := by
  change w.isPrefix = true ∨ id ∈ h.listed false t.ev.key
  cases hp : w.isPrefix with
  | true => exact .inl rfl
  | false =>
    have hkey : t.ev.key = w.key := by
      have hcov := (Bool.and_eq_true_iff.1 hwants).1
      rw [hp] at hcov
      exact of_decide_eq_true hcov
    exact .inr ((hi.listed false t.ev.key id).2 ⟨w, hw, hopen, hp, hkey.symm⟩)

theorem Wired.awaits_prefixed (hi : h.Wired) (ho : RangeOrder order h.prefixWatchers.keys)
    (hw : h.made.lookup id = some w) (hopen : w.ch.closed = false)
    (hwants : w.wants t.ev = true) (hp : w.isPrefix = true) :
    Turn.Awaits { t with
      phase := .prefixWatchers, todo := h.prefixed order t.ev.key } id w := by
  have hcov := (Bool.and_eq_true_iff.1 hwants).1
  rw [hp] at hcov
  exact (mem_prefixed ho).2 ⟨w.key, hcov, (hi.listed true w.key id).2 ⟨w, hw, hopen, hp, rfl⟩⟩

/-- The dispatcher sends to one watcher, which has to have its backlog, and goes on. -/
theorem InOrder.sends (hio : h.InOrder id) (hi : h.Wired) (ht : h.turn = some t)
    (htodo : t.todo = j :: rest) (hw : h.made.lookup j = some w)
    (hlt : w.lastSentRev < t.ev.rev.main) (hopen : w.ch.closed = false)
    (hb : j = id → w.backlog = []) :
    { h.setWatcher j { w with ch := w.ch.send t.ev, lastSentRev := t.ev.rev.main } with
      turn := some { t with todo := rest } }.InOrder id := by
  refine hio.frame rfl rfl ?_ fun x hx hopen' => ?_
  · simp only [Hub.waiting, ht, Option.map_some]
    exact List.suffix_rfl
  rw [setWatcher_lookup] at hx
  split at hx
  · rename_i hid
    subst hid
    obtain rfl := Option.some.inj hx
    obtain ⟨y, hy, hcov, -⟩ := hi.todo t ht id (htodo ▸ List.mem_cons_self)
    obtain rfl := Option.some.inj (hw.symm.trans hy)
    exact (hio.served w hw hopen).sends ht hio.recorded.sorted hio.waiting hcov hlt (hb rfl)
      rfl rfl rfl
  · rename_i hne
    refine (hio.served x hx hopen').setTurn ht { t with todo := rest } rfl rfl rfl rfl rfl ?_
    exact fun _ _ ha => awaits_rest ha htodo hne t.full

theorem InOrder.finish (hio : h.InOrder id) (ht : h.turn = some t)
    (hph : t.phase = .prefixWatchers) (htodo : t.todo = []) :
    { h with turn := none }.InOrder id := by
  refine hio.frame rfl rfl ?_ fun w hw hopen => ?_
  · simp only [Hub.waiting, List.append_assoc]
    exact List.suffix_append _ _
  · refine (hio.served w hw hopen).mono rfl fun e _ _ howes => ?_
    rcases howes with ⟨t', ht', -, ha⟩ | hrest
    · obtain rfl := Option.some.inj (ht.symm.trans ht')
      rw [Turn.Awaits, hph, htodo] at ha
      cases ha
    · exact .inr hrest

theorem InOrder.moved (hio : h.InOrder id) (hi : h.Wired) (hok : orderly id h a)
    (hm : Moved h a h') : h'.InOrder id := by
  obtain ⟨horder, hrestore, hroom, hbacklog⟩ := hok
  cases hm with
  | mutate hs => exact hio.mutate hs
  | enqueue hpend => exact hio.enqueue hpend (of_decide_eq_true horder)
  | restore =>
    obtain ⟨hnil, hclosed⟩ := Bool.and_eq_true_iff.1 hrestore
    refine hio.restore (of_decide_eq_true hnil) (fun w hw => ?_) _
    rw [hw, Option.all_some] at hclosed
    exact hclosed
  | watch => exact hio.watch _ _ _
  | pushPanics => exact hio.panic
  | @pushDone e rest j w hw hb hopen =>
    refine hio.setWatcher fun hj _ => ?_
    subst hj
    exact ((hio.served w hw hopen).push hb).mono rfl fun _ _ _ howes => howes
  | @pushDrops e rest j w hw hb hopen hfull =>
    refine hio.setWatcher fun hj _ => ?_
    subst hj
    -- the goroutine of this watcher finds room
    simp only [pushesWithRoom, ne_eq, not_true_eq_false, decide_false, Bool.false_or, hw,
      Option.all_some, decide_eq_true_eq] at hroom
    exact absurd hroom (Nat.not_lt.2 hfull)
  | @consume j w hw =>
    refine hio.setWatcher fun hj hopen => ?_
    subst hj
    have hs := hio.served w hw hopen
    exact ⟨hs.sent, hs.owed, hs.started, hs.last⟩
  | cancel => exact hio.cancelWatcher _
  | receive ht hq => exact hio.receive ht hq
  | copyWatchers ht =>
    exact hio.setTurn ht _ rfl fun w hw hopen hwants _ _ => hi.awaits_listed hw hopen hwants
  | copyPrefixWatchers ht hph htodo ho =>
    refine hio.setTurn ht _ rfl fun w hw hopen hwants _ ha => ?_
    rw [Turn.Awaits, hph, htodo] at ha
    exact hi.awaits_prefixed ho hw hopen hwants (ha.resolve_right List.not_mem_nil)
  | @cancels rest t j ht htodo hfull =>
    have hturn := (h.cancelWatcher_frame j).1.trans ht
    refine (hio.cancelWatcher j).setTurn hturn _ rfl fun w hw hopen _ _ ha => ?_
    refine awaits_rest ha htodo ?_ false
    rintro rfl
    rw [cancelWatcher_closes hi hw] at hopen
    cases hopen
  | @skips rest t j w ht htodo hfull hw hle =>
    refine hio.setTurn ht _ rfl fun x hx hopen _ hlt ha => ?_
    refine awaits_rest ha htodo ?_ t.full
    rintro rfl
    obtain rfl := Option.some.inj (hw.symm.trans hx)
    exact absurd hle (Int.not_le.2 hlt)
  | panics => exact hio.panic
  | full ht => exact hio.setTurn ht _ rfl fun _ _ _ _ _ ha => ha
  | @sends rest t j w ht htodo hfull hw hlt hopen hcap =>
    refine hio.sends hi ht htodo hw hlt hopen fun hj => ?_
    subst hj
    simp only [sendsAfterBacklog, ht, htodo, hw, Option.all_some, List.head?_cons, ne_eq,
      not_true_eq_false, decide_false, Bool.false_or, Bool.or_eq_true, decide_eq_true_eq]
      at hbacklog
    exact hbacklog.resolve_left (Int.not_le.2 hlt)
  | finish ht hph htodo => exact hio.finish ht hph htodo

theorem reachable_inOrder {s : KVStore} (hs : s.Reachable)
    (hr : ReachableBy step (orderly id) (start s) h) : h.InOrder id := by
  induction hr with
  | init =>
    obtain ⟨-, hist, hrep⟩ := hs.represents
    exact ⟨hrep.recorded, List.nil_suffix, fun w hw => absurd hw (start_made s)⟩
  | step hr hok hst ih => exact ih.moved (reachable_wired hr) hok (step_moved hst).2

/-- When nothing is on its way any more, everything has been sent. -/
theorem Served.complete (hs : h.Served id w) (hwait : h.waiting = []) (hb : w.backlog = []) :
    w.ch.sent = h.produced.filter w.wants := by
  have hnil : h.turn = none ∧ h.eventCh = [] ∧ h.pending.flatten = [] := by
    simpa [Hub.waiting, and_assoc] using hwait
  have hsent := hs.sent
  rw [hb, List.append_nil] at hsent
  rw [hsent]
  refine List.filter_eq_self.2 fun ev hev => decide_eq_true (Int.not_lt.1 fun hlt => ?_)
  obtain ⟨hev, hw⟩ := List.mem_filter.1 hev
  rcases hs.owed ev hev hw hlt with ⟨t, ht, -⟩ | hq | hp
  · rw [hnil.1] at ht
    cases ht
  · rw [hnil.2.1] at hq
    cases hq
  · rw [hnil.2.2] at hp
    cases hp

end

end Hub

/-- If mutators send their events in the order in which they held the lock, the store is not
restored under the watcher, and the watcher's backlog is pushed without finding the channel full
before the dispatcher comes with new events, then what has been sent to the watcher is the
beginning of what it was promised, and all of it once nothing is on its way. When the dispatcher
finds the channel full, its next step closes it. -/
theorem watch_delivery {s : KVStore} {h : Hub} {id : Int} (hs : s.Reachable)
    (hr : ReachableBy Hub.step (Hub.orderly id) (Hub.start s) h) :
    (h.produced.Pairwise fun x y => x.rev.main < y.rev.main) ∧
    (∀ w, h.made.lookup id = some w → w.ch.closed = false →
      w.ch.sent <+: h.produced.filter w.wants ∧
      (h.waiting = [] → w.backlog = [] → w.ch.sent = h.produced.filter w.wants)) ∧
    ∀ t rest h' w, h.turn = some t → t.full = true → t.todo = id :: rest →
      h.step .dispatch = some h' → h'.made.lookup id = some w → w.ch.closed = true := by
  have hio := Hub.reachable_inOrder hs hr
  have hi := Hub.reachable_wired hr
  refine ⟨hio.recorded.sorted, fun w hw hopen => ?_, fun t rest h' w ht hfull htodo hst hw => ?_⟩
  · have hserved := hio.served w hw hopen
    refine ⟨?_, hserved.complete⟩
    have hsent : w.ch.sent <+: w.ch.sent ++ w.backlog := List.prefix_append _ _
    rw [hserved.sent] at hsent
    exact hsent.trans (upTo_begins (hio.recorded.sorted.filter w.wants) w.lastSentRev)
  · obtain ⟨-, hm⟩ := Hub.step_moved hst
    cases hm with
    | @cancels rest' t' j ht' htodo' _ =>
      obtain rfl := Option.some.inj (ht.symm.trans ht')
      obtain ⟨rfl, -⟩ := List.cons.inj (htodo.symm.trans htodo')
      exact Hub.cancelWatcher_closes hi hw
    | skips ht' _ hfull' | panics ht' _ hfull' | full ht' _ hfull' | sends ht' _ hfull' =>
      obtain rfl := Option.some.inj (ht.symm.trans ht')
      rw [hfull] at hfull'
      cases hfull'

/-- A backlog event and a live one. -/
theorem watch_delivery_live : ∃ h w,
    ReachableBy Hub.step (Hub.orderly 0) (Hub.start .new) h ∧ h.made.lookup 0 = some w ∧
    w.ch.sent.length = 2 ∧ w.ch.sent <+: h.produced.filter w.wants := by
  have hrun : RunsTo Hub.step (Hub.orderly 0)
      (fun h => (h.made.lookup 0).any fun w => w.ch.closed = false ∧ w.ch.sent.length = 2)
      (Hub.start .new)
      [.mutate (.put 0 [1] [5] 0), .enqueue 0, .watch [1] 1 false, .push 0, .receive, .copyWatchers,
        .dispatch, .copyPrefixWatchers [], .finish, .mutate (.put 0 [1] [6] 0), .enqueue 1,
        .receive, .copyWatchers, .dispatch] := by
    decide +kernel
  obtain ⟨h, hr, hany⟩ := hrun.reachable
  obtain ⟨w, hw, hcond⟩ := (Option.any_eq_true _ _).1 hany
  obtain ⟨hopen, hlen⟩ := of_decide_eq_true hcond
  have hdel := (watch_delivery .new hr).2.1 w hw hopen
  exact ⟨h, w, hr, hw, hlen, hdel.1⟩

/-- What the watcher has been sent is not the beginning of what it was promised. -/
def Hub.Broken (h : Hub) (id : Int) : Prop :=
  ∃ w, h.made.lookup id = some w ∧ w.ch.closed = false ∧ ¬ w.ch.sent <+: h.produced.filter w.wants

instance Hub.Broken.decidable (h : Hub) (id : Int) : Decidable (h.Broken id) :=
  decidable_of_iff (((h.made.lookup id).any fun w =>
      w.ch.closed = false ∧ ¬ w.ch.sent <+: h.produced.filter w.wants) = true) <| by
    simp only [Option.any_eq_true, decide_eq_true_eq]
    rfl

/-- A key written once, and one written as often as a channel has room and once more. -/
def oncePut : KVStore := (KVStore.new.put 0 [1] [5] 0).1

def oftenPut : KVStore :=
  (KVStore.new.txn 0 ⟨[], List.replicate (watchCapacity + 1) ⟨.put, [1], [5], 0⟩, []⟩).1

theorem oncePut_reachable : oncePut.Reachable := .op (.put 0 [1] [5] 0) .new rfl

theorem oftenPut_reachable : oftenPut.Reachable :=
  .op (.txn 0 ⟨[], List.replicate (watchCapacity + 1) ⟨.put, [1], [5], 0⟩, []⟩) .new rfl

def oncePutSnapshot : OwnSnapshot :=
  ⟨oncePut.snapshot [], oncePut, [], oncePut_reachable, by decide +kernel, rfl⟩

/-- Each of the four conditions is needed: the second of two mutators is first to send its event;
the store is restored from a snapshot with an event of the key; the backlog is longer than the
channel; a live event comes before the backlog. -/
theorem watch_delivery_fails :
    (∃ h, ReachableBy Hub.step (fun h a => Hub.restoresApart 0 h a = true ∧
        Hub.pushesWithRoom 0 h a = true ∧ Hub.sendsAfterBacklog 0 h a = true) (Hub.start .new) h ∧
      h.Broken 0) ∧
    (∃ h, ReachableBy Hub.step (fun h a => h.keepsLockOrder a = true ∧
        Hub.pushesWithRoom 0 h a = true ∧ Hub.sendsAfterBacklog 0 h a = true) (Hub.start .new) h ∧
      h.Broken 0) ∧
    (oftenPut.Reachable ∧ ∃ h, ReachableBy Hub.step (fun h a => h.keepsLockOrder a = true ∧
        Hub.restoresApart 0 h a = true ∧ Hub.sendsAfterBacklog 0 h a = true)
        (Hub.start oftenPut) h ∧
      h.Broken 0) ∧
    ∃ h, ReachableBy Hub.step (fun h a => h.keepsLockOrder a = true ∧
        Hub.restoresApart 0 h a = true ∧ Hub.pushesWithRoom 0 h a = true) (Hub.start .new) h ∧
      h.Broken 0 := by
  have hlock : RunsTo Hub.step (fun h a => Hub.restoresApart 0 h a = true ∧
      Hub.pushesWithRoom 0 h a = true ∧ Hub.sendsAfterBacklog 0 h a = true)
      (fun h => h.Broken 0) (Hub.start .new)
      [.watch [1] 1 false, .mutate (.put 0 [1] [5] 0), .mutate (.put 0 [1] [6] 0), .enqueue 1,
        .receive, .copyWatchers, .dispatch] := by
    decide +kernel
  have hrestore : RunsTo Hub.step (fun h a => h.keepsLockOrder a = true ∧
      Hub.pushesWithRoom 0 h a = true ∧ Hub.sendsAfterBacklog 0 h a = true)
      (fun h => h.Broken 0) (Hub.start .new)
      [.watch [1] 1 false, .restore oncePutSnapshot, .mutate (.put 0 [1] [6] 0), .enqueue 0,
        .receive, .copyWatchers, .dispatch] := by
    decide +kernel
  have hroom : RunsTo Hub.step (fun h a => h.keepsLockOrder a = true ∧
      Hub.restoresApart 0 h a = true ∧ Hub.sendsAfterBacklog 0 h a = true)
      (fun h => h.Broken 0) (Hub.start oftenPut)
      (.watch [1] 1 false :: List.replicate (watchCapacity + 1) (.push 0) ++
        [.consume 0, .mutate (.put 0 [1] [6] 0), .enqueue 0, .receive, .copyWatchers,
          .dispatch]) := by
    decide +kernel
  have hbacklog : RunsTo Hub.step (fun h a => h.keepsLockOrder a = true ∧
      Hub.restoresApart 0 h a = true ∧ Hub.pushesWithRoom 0 h a = true)
      (fun h => h.Broken 0) (Hub.start .new)
      [.mutate (.put 0 [1] [5] 0), .watch [1] 1 false, .mutate (.put 0 [1] [6] 0), .enqueue 0,
        .receive, .copyWatchers, .dispatch, .copyPrefixWatchers [], .finish, .enqueue 1, .receive,
        .copyWatchers, .dispatch] := by
    decide +kernel
  exact ⟨hlock.reachable, hrestore.reachable, ⟨oftenPut_reachable, hroom.reachable⟩,
    hbacklog.reachable⟩

end LinKV

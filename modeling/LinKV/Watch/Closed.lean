import LinKV.Watch.Wired

namespace LinKV
set_option autoImplicit true

open Channel Consensus

namespace Hub

/-- Neither its backlog goroutine nor the dispatcher is going to send to the watcher. -/
def quiet (h : Hub) (id : Int) : Bool :=
  (h.made.lookup id).all fun w => w.backlog = [] &&
    h.turn.all fun t => id ∈ t.toSend → t.ev.rev.main ≤ w.lastSentRev

/-- The watcher whose channel an action closes. -/
def closing (h : Hub) : HubAction → Option Int
  | .cancel id => if id ∈ h.watchersByID then some id else none
  | .dispatch => h.turn.bind fun t =>
    if t.full then t.todo.head?.filter fun id => id ∈ h.watchersByID else none
  | _ => none

/-- The action closes no channel on which something may still be sent. -/
def closesQuietly (h : Hub) (a : HubAction) : Prop := (h.closing a).all h.quiet = true

instance closesQuietly.decidable (h : Hub) (a : HubAction) : Decidable (h.closesQuietly a) :=
  inferInstanceAs (Decidable ((h.closing a).all h.quiet = true))

section

variable {h h' : Hub} {a : HubAction} {id : Int} {w : Watcher} {t : Turn}

theorem quiet_iff (hw : h.made.lookup id = some w) : h.quiet id = true ↔
    w.backlog = [] ∧ ∀ t, h.turn = some t → id ∈ t.toSend → t.ev.rev.main ≤ w.lastSentRev := by
  rw [quiet, hw, Option.all_some, Bool.and_eq_true, decide_eq_true_eq]
  cases h.turn with
  | none => exact and_congr_right fun _ => iff_of_true rfl nofun
  | some t =>
    refine and_congr_right fun _ => ?_
    rw [Option.all_some, decide_eq_true_eq]
    constructor
    · intro hsend t' ht'
      obtain rfl := Option.some.inj ht'
      exact hsend
    · intro hsend
      exact hsend t rfl

theorem quiet_setTurn (t' : Turn) (ht : h.turn = some t) (hev : t'.ev = t.ev)
    (hsend : t'.toSend = t.toSend) : { h with turn := some t' }.quiet id = h.quiet id := by
  simp only [quiet, ht, Option.all_some, hev, hsend]

/-- Nobody is going to send on a channel that is closed. -/
def Sealed (h : Hub) : Prop :=
  ∀ id w, h.made.lookup id = some w → w.ch.closed = true →
    w.backlog = [] ∧ ∀ t, h.turn = some t → id ∈ t.toSend → t.ev.rev.main ≤ w.lastSentRev

theorem Sealed.setTurn (hs : h.Sealed) (next : Option Turn)
    (hturn : ∀ t', next = some t' → ∀ id ∈ t'.toSend,
      (∃ t, h.turn = some t ∧ t.ev = t'.ev ∧ id ∈ t.toSend) ∨
        ∃ isPrefix key, h.Registered isPrefix key id) : { h with turn := next }.Sealed := by
  intro id w hw hc
  obtain ⟨hb, hsend⟩ := hs id w hw hc
  refine ⟨hb, fun t' ht' hid => ?_⟩
  rcases hturn t' ht' id hid with ⟨t, ht, hev, hmem⟩ | ⟨isPrefix, key, x, hx, hopen, -⟩
  · rw [← hev]
    exact hsend t ht hmem
  · have hsame : some w = some x := hw.symm.trans hx
    obtain rfl := Option.some.inj hsame
    rw [hc] at hopen
    cases hopen

theorem Sealed.setWatcher (hs : h.Sealed) (hopen : w.ch.closed = false) :
    (h.setWatcher id w).Sealed := by
  intro j x hx hc
  rw [setWatcher_lookup] at hx
  split at hx
  · obtain rfl := Option.some.inj hx
    rw [hopen] at hc
    cases hc
  · exact hs j x hx hc

theorem Sealed.cancelWatcher (hs : h.Sealed)
    (hq : id ∈ h.watchersByID → h.quiet id = true) : (h.cancelWatcher id).Sealed := by
  rcases cancelWatcher_cases h id with ⟨-, he⟩ | ⟨w, hid, hw, he⟩
  · rw [he]
    exact hs
  · rw [he]
    intro j x hx hc
    rw [removeWatcher_lookup] at hx
    split at hx
    · rename_i hj
      obtain rfl := Option.some.inj hx
      rw [hj]
      exact (quiet_iff hw).1 (hq hid)
    · exact hs j x hx hc

theorem toSend_subset (t : Turn) : t.toSend ⊆ t.todo := by
  unfold Turn.toSend
  split
  · exact List.tail_subset t.todo
  · exact List.Subset.refl t.todo

theorem Sealed.goesOn (hs : h.Sealed) (ht : h.turn = some t) (hev : t'.ev = t.ev)
    (hsub : t'.todo ⊆ t.toSend) : { h with turn := some t' }.Sealed := by
  refine hs.setTurn _ fun next hnext id hid => ?_
  obtain rfl := Option.some.inj hnext
  exact .inl ⟨t, ht, hev.symm, hsub (toSend_subset t' hid)⟩

theorem toSend_of_full (hfull : t.full = true) (htodo : t.todo = id :: rest) :
    t.toSend = rest := by
  rw [Turn.toSend, if_pos hfull, htodo, List.tail_cons]

theorem toSend_of_not_full (hfull : t.full = false) (htodo : t.todo = ids) : t.toSend = ids := by
  rw [Turn.toSend, hfull, htodo]
  rfl

/-- No step that closes channels quietly panics, or unseals a closed channel. -/
theorem Sealed.moved (hs : h.Sealed) (hi : h.Wired) (hq : h.closesQuietly a)
    (hp : h.panicked = false) (hm : Moved h a h') : h'.Sealed ∧ h'.panicked = false := by
  cases hm with
  | mutate => exact ⟨hs, hp⟩
  | enqueue => exact ⟨hs, hp⟩
  | restore => exact ⟨hs, hp⟩
  | @watch key fromRev isPrefix =>
    rcases h.watch_cases key fromRev isPrefix with he | ⟨-, he⟩
    · rw [he]
      exact ⟨hs, hp⟩
    · rw [he]
      refine ⟨fun j x hx hc => ?_, hp⟩
      rw [addWatcher_lookup] at hx
      split at hx
      · obtain rfl := Option.some.inj hx
        cases hc
      · exact hs j x hx hc
  | @pushPanics _ _ id w hw hb hc =>
    rw [(hs id w hw hc).1] at hb
    cases hb
  | pushDone hw hb hopen => exact ⟨hs.setWatcher hopen, hp⟩
  | pushDrops hw hb hopen => exact ⟨hs.setWatcher hopen, hp⟩
  | @consume id w hw =>
    refine ⟨fun j x hx hc => ?_, hp⟩
    rw [setWatcher_lookup] at hx
    split at hx
    · rename_i hj
      obtain rfl := Option.some.inj hx
      rw [hj]
      exact hs id w hw hc
    · exact hs j x hx hc
  | @cancel id =>
    refine ⟨hs.cancelWatcher fun hid => ?_, (h.cancelWatcher_frame id).2.1.trans hp⟩
    rw [closesQuietly, closing, if_pos hid] at hq
    exact hq
  | receive =>
    refine ⟨hs.setTurn _ fun t' ht' id hid => ?_, hp⟩
    obtain rfl := Option.some.inj ht'
    cases hid
  | @copyWatchers t ht hph =>
    refine ⟨hs.setTurn _ fun t' ht' id hid => ?_, hp⟩
    obtain rfl := Option.some.inj ht'
    exact .inr ⟨false, t.ev.key, (hi.listed false t.ev.key id).1 (toSend_subset _ hid)⟩
  | @copyPrefixWatchers order t ht hph htodo ho =>
    refine ⟨hs.setTurn _ fun t' ht' id hid => ?_, hp⟩
    obtain rfl := Option.some.inj ht'
    obtain ⟨p, -, hmem⟩ := (mem_prefixed ho).1 (toSend_subset _ hid)
    exact .inr ⟨true, p, (hi.listed true p id).1 hmem⟩
  | @cancels rest t id ht htodo hfull =>
    have hfr := h.cancelWatcher_frame id
    have hs' : (h.cancelWatcher id).Sealed := hs.cancelWatcher fun hid => by
      have hclosing : h.closing .dispatch = some id := by
        rw [closing, ht, Option.bind_some, if_pos hfull, htodo]
        exact if_pos (decide_eq_true hid)
      rw [closesQuietly, hclosing] at hq
      exact hq
    refine ⟨hs'.goesOn (hfr.1.trans ht) rfl ?_, hfr.2.1.trans hp⟩
    rw [toSend_of_full hfull htodo]
    exact List.Subset.refl rest
  | @skips rest t id w ht htodo hfull hw hle =>
    refine ⟨hs.goesOn ht rfl ?_, hp⟩
    rw [toSend_of_not_full hfull htodo]
    exact List.subset_cons_self id rest
  | @panics rest t id w ht htodo hfull hw hlt hc =>
    have hle := (hs id w hw hc).2 t ht
    rw [toSend_of_not_full hfull htodo] at hle
    exact absurd (hle List.mem_cons_self) (Int.not_le.2 hlt)
  | @full rest t id w ht htodo hfull =>
    refine ⟨hs.goesOn ht rfl ?_, hp⟩
    rw [toSend_of_not_full hfull rfl]
    exact List.Subset.refl t.todo
  | @sends rest t id w ht htodo hfull hw hlt hopen =>
    have hs' : (h.setWatcher id { w with
        ch := w.ch.send t.ev, lastSentRev := t.ev.rev.main }).Sealed := hs.setWatcher hopen
    refine ⟨hs'.goesOn ht rfl ?_, hp⟩
    rw [toSend_of_not_full hfull htodo]
    exact List.subset_cons_self id rest
  | finish => exact ⟨hs.setTurn none nofun, hp⟩

theorem reachable_sealed {s : KVStore} (hr : ReachableBy step closesQuietly (start s) h) :
    h.Sealed ∧ h.panicked = false := by
  induction hr with
  | init => exact ⟨fun id w hw => absurd hw (start_made s), rfl⟩
  | step hr hq hs ih =>
    obtain ⟨hp, hm⟩ := step_moved hs
    exact ih.1.moved (reachable_wired hr) hq hp hm

theorem step_dispatch (hp : h.panicked = false) : h.step .dispatch = h.dispatch := by
  rw [step, hp]
  rfl

theorem dispatch_cases (hp : h.panicked = false) (ht : h.turn = some t) (hfull : t.full = false)
    (htodo : t.todo = id :: rest) (hw : h.made.lookup id = some w) :
    h.step .dispatch = some { h with turn := some { t with todo := rest } } ∨
    h.step .dispatch = some { h with panicked := true } ∨
    h.step .dispatch = some { h with turn := some { t with full := true } } ∨
    h.step .dispatch = some { h.setWatcher id { w with
        ch := w.ch.send t.ev, lastSentRev := t.ev.rev.main } with
      turn := some { t with todo := rest } } := by
  rw [step_dispatch hp, dispatch, ht]
  simp only [htodo, hfull, hw, Bool.false_eq_true, if_false]
  by_cases hle : t.ev.rev.main ≤ w.lastSentRev
  · exact .inl (if_pos hle)
  · rw [if_neg hle]
    cases hsend : w.ch.trySend watchCapacity t.ev with
    | panics => exact .inr (.inl rfl)
    | full => exact .inr (.inr (.inl rfl))
    | done ch =>
      obtain ⟨-, -, rfl⟩ := Chan.trySend_done hsend
      exact .inr (.inr (.inr rfl))

theorem dispatch_full (hp : h.panicked = false) (ht : h.turn = some t) (hfull : t.full = true)
    (htodo : t.todo = id :: rest) : h.step .dispatch =
      some { h.cancelWatcher id with turn := some { t with todo := rest, full := false } } := by
  rw [step_dispatch hp, dispatch, ht]
  simp only [htodo, hfull, if_true]

theorem dispatch_panics (hp : h.panicked = false) (ht : h.turn = some t) (hfull : t.full = false)
    (htodo : t.todo = id :: rest) (hw : h.made.lookup id = some w) (hc : w.ch.closed = true)
    (hlt : w.lastSentRev < t.ev.rev.main) :
    h.step .dispatch = some { h with panicked := true } := by
  rw [step_dispatch hp, dispatch, ht]
  simp only [htodo, hfull, hw, Bool.false_eq_true, if_false, Int.not_le.2 hlt,
    Chan.trySend_panics.2 hc]

theorem cancelWatcher_closed (hi : h.Wired) (hw : h.made.lookup id = some w)
    (hc : w.ch.closed = true) (j : Int) : (h.cancelWatcher j).made.lookup id = some w := by
  rcases cancelWatcher_cases h j with ⟨-, he⟩ | ⟨x, hj, hx, he⟩
  · rw [he]
    exact hw
  · rw [he, removeWatcher_lookup, if_neg]
    · exact hw
    · rintro rfl
      obtain ⟨y, hy, hopen⟩ := (hi.byID id).1 hj
      obtain rfl := Option.some.inj (hw.symm.trans hy)
      rw [hc] at hopen
      cases hopen

/-- A watcher whose channel is closed while the dispatcher holds it for its event: whatever comes
before it in the copy, the dispatcher panics in the end. -/
theorem dispatch_reaches_panic (hi : h.Wired) (hp : h.panicked = false) (ht : h.turn = some t)
    (hfull : t.full = false) (htodo : t.todo = ids) (hid : id ∈ ids)
    (hw : h.made.lookup id = some w) (hc : w.ch.closed = true)
    (hlt : w.lastSentRev < t.ev.rev.main) :
    ∃ h', ReachableBy step (fun _ _ => True) h h' ∧ h'.panicked = true := by
  induction ids generalizing h t with
  | nil => cases hid
  | cons j rest ih =>
    by_cases hj : id = j
    · subst hj
      exact ⟨_, .step .init trivial (dispatch_panics hp ht hfull htodo hw hc hlt), rfl⟩
    have hrest : id ∈ rest := (List.mem_cons.1 hid).resolve_left hj
    obtain ⟨x, hx, -⟩ := hi.todo t ht j (htodo ▸ List.mem_cons_self)
    rcases dispatch_cases hp ht hfull htodo hx with hs | hs | hs | hs
    · obtain ⟨h', hr, hpan⟩ := ih (hi.moved (step_moved hs).2) hp rfl hfull rfl hrest hw hlt
      exact ⟨h', .trans (.step .init trivial hs) hr, hpan⟩
    · exact ⟨_, .step .init trivial hs, rfl⟩
    · -- the watcher before it is cancelled first
      generalize hh : { h with turn := some { t with full := true } } = h₁ at hs
      have ht₁ : h₁.turn = some { t with full := true } := by rw [← hh]
      have hp₁ : h₁.panicked = false := by rw [← hh]; exact hp
      have hw₁ : h₁.made.lookup id = some w := by rw [← hh]; exact hw
      have hi₁ := hi.moved (step_moved hs).2
      have hs₁ := dispatch_full hp₁ ht₁ rfl htodo
      obtain ⟨h', hr, hpan⟩ := ih (hi₁.moved (step_moved hs₁).2)
        ((h₁.cancelWatcher_frame j).2.1.trans hp₁) rfl rfl rfl hrest
        (cancelWatcher_closed hi₁ hw₁ hc j) hlt
      exact ⟨h', .trans (.step (.step .init trivial hs) trivial hs₁) hr, hpan⟩
    · have hw' (y : Watcher) : (h.setWatcher j y).made.lookup id = some w := by
        rw [setWatcher_lookup, if_neg hj, hw]
      obtain ⟨h', hr, hpan⟩ := ih (hi.moved (step_moved hs).2) hp rfl hfull rfl hrest (hw' _) hlt
      exact ⟨h', .trans (.step .init trivial hs) hr, hpan⟩

theorem panics_of_not_quiet (hi : h.Wired) (hp : h.panicked = false)
    (hw : h.made.lookup id = some w) (hc : w.ch.closed = true) (hq : ¬ h.quiet id = true) :
    ∃ h', ReachableBy step (fun _ _ => True) h h' ∧ h'.panicked = true := by
  rw [quiet_iff hw, not_and_or] at hq
  rcases hq with hb | hsend
  · obtain ⟨e, rest, hb⟩ := List.exists_cons_of_ne_nil hb
    have hs : h.step (.push id) = some { h with panicked := true } := by
      rw [step, hp]
      simp only [act, push, hw, hb, Chan.trySend_panics.2 hc, Bool.false_eq_true, if_false]
    exact ⟨_, .step .init trivial hs, rfl⟩
  · simp only [not_forall, Int.not_le] at hsend
    obtain ⟨t, ht, hid, hlt⟩ := hsend
    cases hfull : t.full with
    | false =>
      rw [toSend_of_not_full hfull rfl] at hid
      exact dispatch_reaches_panic hi hp ht hfull rfl hid hw hc hlt
    | true =>
      cases htodo : t.todo with
      | nil =>
        rw [Turn.toSend, htodo, List.tail_nil, ite_self] at hid
        cases hid
      | cons j rest =>
        rw [toSend_of_full hfull htodo] at hid
        have hs := dispatch_full hp ht hfull htodo
        obtain ⟨h', hr, hpan⟩ := dispatch_reaches_panic (hi.moved (step_moved hs).2)
          ((h.cancelWatcher_frame j).2.1.trans hp) rfl rfl rfl hid
          (cancelWatcher_closed hi hw hc j) hc hlt
        exact ⟨h', .trans (.step .init trivial hs) hr, hpan⟩

/-- Closing a channel does not stop those who are going to send on it. -/
theorem cancelWatcher_not_quiet (hi : h.Wired) (hid : id ∈ h.watchersByID)
    (hq : ¬ h.quiet id = true) : ∃ w, (h.cancelWatcher id).made.lookup id = some w ∧
      w.ch.closed = true ∧ ¬ (h.cancelWatcher id).quiet id = true := by
  rcases cancelWatcher_cases h id with ⟨hnone, -⟩ | ⟨w, -, hw, he⟩
  · obtain ⟨w, hw, -⟩ := (hi.byID id).1 hid
    rcases hnone with hnot | hnone
    · exact absurd hid hnot
    · rw [hnone] at hw
      cases hw
  · have hw' : (h.cancelWatcher id).made.lookup id = some { w with ch := w.ch.close } := by
      rw [he, removeWatcher_lookup, if_pos rfl]
    refine ⟨_, hw', rfl, ?_⟩
    rw [quiet_iff hw', (h.cancelWatcher_frame id).1]
    rwa [quiet_iff hw] at hq

theorem closing_cases (hc : h.closing a = some id) : id ∈ h.watchersByID ∧ (a = .cancel id ∨
    a = .dispatch ∧ ∃ t rest, h.turn = some t ∧ t.full = true ∧ t.todo = id :: rest) := by
  cases a with
  | cancel j =>
    rw [closing] at hc
    split at hc
    · rename_i hj
      cases hc
      exact ⟨hj, .inl rfl⟩
    · cases hc
  | dispatch =>
    obtain ⟨t, ht, hc⟩ := Option.bind_eq_some_iff.1 hc
    split at hc
    · rename_i hfull
      obtain ⟨hhead, hid⟩ := Option.filter_eq_some_iff.1 hc
      obtain ⟨rest, htodo⟩ := List.head?_eq_some_iff.1 hhead
      exact ⟨of_decide_eq_true hid, .inr ⟨rfl, t, rest, ht, hfull, htodo⟩⟩
    · cases hc
  | mutate | enqueue | restore | watch | push | consume | receive | copyWatchers
    | copyPrefixWatchers | finish => cases hc

end

end Hub

/-- As long as channels are closed only when neither a backlog goroutine nor the dispatcher is
going to send on them, nothing is ever sent on a closed channel. Whenever a channel is closed
earlier, on the other hand, the store may go on to panic. -/
theorem no_send_on_closed (s : KVStore) :
    (∀ h, ReachableBy Hub.step Hub.closesQuietly (Hub.start s) h → h.panicked = false) ∧
    ∀ h a h', ReachableBy Hub.step (fun _ _ => True) (Hub.start s) h → h.step a = some h' →
      ¬ h.closesQuietly a →
      ∃ h'', ReachableBy Hub.step (fun _ _ => True) h' h'' ∧ h''.panicked = true := by
  refine ⟨fun h hr => (Hub.reachable_sealed hr).2, fun h a h' hr hs hq => ?_⟩
  have hi := Hub.reachable_wired hr
  obtain ⟨hp, hm⟩ := Hub.step_moved hs
  cases hc : h.closing a with
  | none =>
    rw [Hub.closesQuietly, hc] at hq
    exact absurd rfl hq
  | some id =>
    rw [Hub.closesQuietly, hc, Option.all_some] at hq
    obtain ⟨hid, hact⟩ := Hub.closing_cases hc
    obtain ⟨w, hw, hclosed, hq'⟩ := Hub.cancelWatcher_not_quiet hi hid hq
    have hfr := h.cancelWatcher_frame id
    rcases hact with rfl | ⟨rfl, t, rest, ht, hfull, htodo⟩
    · cases hm
      exact Hub.panics_of_not_quiet (hi.cancelWatcher id) (hfr.2.1.trans hp) hw hclosed hq'
    · obtain rfl := Option.some.inj (hs.symm.trans (Hub.dispatch_full hp ht hfull htodo))
      refine Hub.panics_of_not_quiet (hi.moved hm) (hfr.2.1.trans hp) hw hclosed ?_
      rwa [Hub.quiet_setTurn { t with todo := rest, full := false } (hfr.1.trans ht) rfl
        (Hub.toSend_of_full hfull htodo).symm]

/-- A watcher that is cancelled when its one backlog event has been pushed. -/
theorem no_send_on_closed_pushed : ∃ h,
    ReachableBy Hub.step Hub.closesQuietly (Hub.start .new) h ∧
    (h.made.lookup 0).any (fun w => w.ch.closed && w.ch.sent.length = 1) ∧ h.panicked = false := by
  have hrun : RunsTo Hub.step Hub.closesQuietly
      (fun h => (h.made.lookup 0).any fun w => w.ch.closed && w.ch.sent.length = 1)
      (Hub.start .new)
      [.mutate (.put 0 [1] [5] 0), .watch [1] 1 false, .push 0, .cancel 0] := by
    decide +kernel
  obtain ⟨h, hr, hsent⟩ := hrun.reachable
  exact ⟨h, hr, hsent, (no_send_on_closed .new).1 h hr⟩

/-- The client goes away before the backlog event has been pushed; or while the dispatcher, which
has copied the watchers, is about to send. -/
theorem no_send_on_closed_fails :
    (∃ h, Run Hub.step (fun _ _ => True) (Hub.start .new)
      [.mutate (.put 0 [1] [5] 0), .watch [1] 1 false, .cancel 0, .push 0] h ∧
      h.panicked = true) ∧
    ∃ h, Run Hub.step (fun _ _ => True) (Hub.start .new)
      [.watch [1] 1 false, .mutate (.put 0 [1] [5] 0), .enqueue 0, .receive, .copyWatchers,
        .cancel 0, .dispatch] h ∧ h.panicked = true := by
  constructor
  · exact RunsTo.run (by decide +kernel)
  · exact RunsTo.run (by decide +kernel)

end LinKV

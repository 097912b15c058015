import LinKV.Watch.Closed
import Mathlib.Data.List.Nodup

namespace LinKV
set_option autoImplicit true

open Channel Consensus

/-- What happens to a watcher: `Watch` has handed out its ID, its channel has been closed. -/
inductive WatchNote where
  | opened (id : Int)
  | closed (id : Int)
deriving DecidableEq, Repr

namespace Hub

def opening (h : Hub) : HubAction → Option Int
  | .watch key fromRev isPrefix => (h.watch key fromRev isPrefix).2.toOption
  | _ => none

def watchNotes (h : Hub) (a : HubAction) : List WatchNote :=
  (h.opening a).toList.map .opened ++ (h.closing a).toList.map .closed

structure SameRegistry (h' h : Hub) : Prop where
  watchers : h'.watchers = h.watchers
  prefixWatchers : h'.prefixWatchers = h.prefixWatchers
  watchersByID : h'.watchersByID = h.watchersByID
  nextWatcherID : h'.nextWatcherID = h.nextWatcherID

/-- What an action does to the registry: nothing, or it adds a watcher, or it removes one. -/
inductive Registers (h : Hub) (a : HubAction) (h' : Hub) : Prop
  | same : h.opening a = none → h.closing a = none → SameRegistry h' h → Registers h a h'
  | add (w : Watcher) : h.opening a = some h.nextWatcherID → h.closing a = none →
      SameRegistry h' (h.addWatcher h.nextWatcherID w) → Registers h a h'
  | remove (id : Int) (w : Watcher) : h.opening a = none → h.closing a = some id →
      id ∈ h.watchersByID → h.made.lookup id = some w → h'.made = (h.removeWatcher id w).made →
      SameRegistry h' (h.removeWatcher id w) → Registers h a h'

section

variable {h h' : Hub} {a : HubAction} {id : Int} {w : Watcher} {t : Turn}

theorem SameRegistry.refl (h : Hub) : SameRegistry h h := ⟨rfl, rfl, rfl, rfl⟩

theorem cancelWatcher_registers (hi : h.Wired) (hopen : h.opening a = none)
    (hclose : h.closing a = if id ∈ h.watchersByID then some id else none)
    (hmade : h'.made = (h.cancelWatcher id).made)
    (hsame : SameRegistry h' (h.cancelWatcher id)) : Registers h a h' := by
  rcases cancelWatcher_cases h id with ⟨hnone, he⟩ | ⟨w, hid, hw, he⟩
  · have hid : id ∉ h.watchersByID := by
      rcases hnone with hid | hnone
      · exact hid
      · rw [hi.byID]
        intro hw
        obtain ⟨w, hw, -⟩ := hw
        rw [hnone] at hw
        cases hw
    rw [if_neg hid] at hclose
    exact .same hopen hclose (he ▸ hsame)
  · rw [if_pos hid] at hclose
    exact .remove id w hopen hclose hid hw (he ▸ hmade) (he ▸ hsame)

theorem watch_registers (h : Hub) (key : Bytes) (fromRev : Int) (isPrefix : Bool) :
    Registers h (.watch key fromRev isPrefix) (h.watch key fromRev isPrefix).1 := by
  by_cases hrev : fromRev ≤ h.store.backend.compactRev
  · have he : h.watch key fromRev isPrefix = (h, .error .compacted) := if_pos hrev
    have hopen : h.opening (.watch key fromRev isPrefix) = none := by rw [opening, he]; rfl
    rw [he]
    exact .same hopen rfl (.refl h)
  · have he := show h.watch key fromRev isPrefix = _ from if_neg hrev
    have hopen : h.opening (.watch key fromRev isPrefix) = some h.nextWatcherID := by
      rw [opening, he]
      rfl
    rw [he]
    exact .add _ hopen rfl (.refl _)

theorem closing_of_not_full (ht : h.turn = some t) (hfull : t.full = false) :
    h.closing .dispatch = none := by
  rw [closing, ht, Option.bind_some, hfull]
  rfl

theorem Moved.registers (hi : h.Wired) (hm : Moved h a h') : Registers h a h' := by
  cases hm with
  | watch => exact h.watch_registers _ _ _
  | cancel => exact cancelWatcher_registers hi rfl rfl rfl (.refl _)
  | @cancels rest t id ht htodo hfull =>
    have hclose : h.closing .dispatch = if id ∈ h.watchersByID then some id else none := by
      rw [closing, ht, Option.bind_some, if_pos hfull, htodo, List.head?_cons, Option.filter_some]
      simp only [decide_eq_true_eq]
    exact cancelWatcher_registers hi rfl hclose rfl ⟨rfl, rfl, rfl, rfl⟩
  | skips ht _ hfull => exact .same rfl (closing_of_not_full ht hfull) ⟨rfl, rfl, rfl, rfl⟩
  | panics ht _ hfull => exact .same rfl (closing_of_not_full ht hfull) ⟨rfl, rfl, rfl, rfl⟩
  | full ht _ hfull => exact .same rfl (closing_of_not_full ht hfull) ⟨rfl, rfl, rfl, rfl⟩
  | sends ht _ hfull => exact .same rfl (closing_of_not_full ht hfull) ⟨rfl, rfl, rfl, rfl⟩
  | mutate | enqueue | restore | pushPanics | pushDone | pushDrops | consume | receive
    | copyWatchers | copyPrefixWatchers | finish => exact .same rfl rfl ⟨rfl, rfl, rfl, rfl⟩

end

/-- No key of the map has an empty list. -/
def Filled (m : GoMap Bytes (List Int)) : Prop := ∀ key ws, m.lookup key = some ws → ws ≠ []

/-- What the notes of a run have to do with the registry after it. -/
structure Recorded (h : Hub) (notes : List WatchNote) : Prop where
  watchers : Filled h.watchers
  prefixWatchers : Filled h.prefixWatchers
  issued : ∀ id ∈ h.watchersByID, 0 ≤ id ∧ id < h.nextWatcherID
  next : 0 ≤ h.nextWatcherID
  opened : ∀ id, notes.count (.opened id) = if 0 ≤ id ∧ id < h.nextWatcherID then 1 else 0
  closed : ∀ id, notes.count (.closed id) =
    if (0 ≤ id ∧ id < h.nextWatcherID) ∧ id ∉ h.watchersByID then 1 else 0

section

variable {h h' : Hub} {a : HubAction} {id : Int} {w : Watcher} {notes : List WatchNote}

theorem Filled.register (hf : Filled m) (key : Bytes) (id : Int) :
    Filled (register m key id) := by
  intro k ws hk
  unfold LinKV.register at hk
  rcases eq_or_ne k key with rfl | hne
  · rw [Finmap.lookup_insert] at hk
    obtain rfl := Option.some.inj hk
    exact List.append_ne_nil_of_right_ne_nil _ (List.cons_ne_nil id [])
  · rw [Finmap.lookup_insert_of_ne _ hne] at hk
    exact hf k ws hk

theorem Filled.unregister (hf : Filled m) (key : Bytes) (id : Int) :
    Filled (unregister m key id) := by
  intro k ws hk
  unfold LinKV.unregister at hk
  dsimp only at hk
  split at hk
  · rcases eq_or_ne k key with rfl | hne
    · rw [Finmap.lookup_erase] at hk
      cases hk
    · rw [Finmap.lookup_erase_ne hne] at hk
      exact hf k ws hk
  · rename_i hlen
    rcases eq_or_ne k key with rfl | hne
    · rw [Finmap.lookup_insert] at hk
      obtain rfl := Option.some.inj hk
      exact mt List.length_eq_zero_iff.2 hlen
    · rw [Finmap.lookup_insert_of_ne _ hne] at hk
      exact hf k ws hk

theorem Filled.ite {m m' : GoMap Bytes (List Int)} (c : Bool) (hm : Filled m) (hm' : Filled m') :
    Filled (if c then m else m') := by
  cases c with
  | false => exact hm'
  | true => exact hm

theorem Recorded.same (hrec : h.Recorded notes) (hs : SameRegistry h' h) : h'.Recorded notes where
  watchers := hs.watchers ▸ hrec.watchers
  prefixWatchers := hs.prefixWatchers ▸ hrec.prefixWatchers
  issued := by
    rw [hs.watchersByID, hs.nextWatcherID]
    exact hrec.issued
  next := hs.nextWatcherID ▸ hrec.next
  opened := by
    rw [hs.nextWatcherID]
    exact hrec.opened
  closed := by
    rw [hs.watchersByID, hs.nextWatcherID]
    exact hrec.closed

theorem count_append_note (notes : List WatchNote) (m n : WatchNote) :
    (notes ++ [n]).count m = notes.count m + if n = m then 1 else 0 := by
  simp only [List.count_append, List.count_singleton, beq_iff_eq]

theorem Recorded.addWatcher (hrec : h.Recorded notes) (w : Watcher) :
    (h.addWatcher h.nextWatcherID w).Recorded (notes ++ [.opened h.nextWatcherID]) := by
  have hnext := hrec.next
  refine ⟨.ite _ hrec.watchers (hrec.watchers.register _ _),
    .ite _ (hrec.prefixWatchers.register _ _) hrec.prefixWatchers, ?_, ?_, ?_, ?_⟩
  · intro id hid
    change 0 ≤ id ∧ id < h.nextWatcherID + 1
    obtain rfl | hid := Finset.mem_insert.1 hid
    · omega
    · have := hrec.issued id hid
      omega
  · exact Int.le_of_lt (Int.lt_add_one_of_le hnext)
  · intro id
    change _ = if 0 ≤ id ∧ id < h.nextWatcherID + 1 then 1 else 0
    rw [count_append_note, hrec.opened]
    simp only [WatchNote.opened.injEq]
    split_ifs <;> omega
  · intro id
    change _ = if (0 ≤ id ∧ id < h.nextWatcherID + 1) ∧
      id ∉ insert h.nextWatcherID h.watchersByID then 1 else 0
    rw [count_append_note, if_neg WatchNote.noConfusion, Nat.add_zero, hrec.closed]
    refine if_congr ?_ rfl rfl
    rw [Finset.mem_insert, not_or, ← and_assoc]
    exact and_congr_left fun _ => by omega

theorem Recorded.removeWatcher (hrec : h.Recorded notes) (hid : id ∈ h.watchersByID)
    (w : Watcher) : (h.removeWatcher id w).Recorded (notes ++ [.closed id]) := by
  refine ⟨.ite _ hrec.watchers (hrec.watchers.unregister _ _),
    .ite _ (hrec.prefixWatchers.unregister _ _) hrec.prefixWatchers, ?_, hrec.next, ?_, ?_⟩
  · intro j hj
    exact hrec.issued j (Finset.mem_of_mem_erase hj)
  · intro j
    rw [count_append_note, if_neg WatchNote.noConfusion]
    exact hrec.opened j
  · intro j
    change _ = if (0 ≤ j ∧ j < h.nextWatcherID) ∧ j ∉ h.watchersByID.erase id then 1 else 0
    rw [count_append_note, hrec.closed]
    rcases eq_or_ne j id with rfl | hne
    · rw [if_neg fun hn => hn.2 hid, if_pos rfl,
        if_pos ⟨hrec.issued j hid, Finset.notMem_erase j h.watchersByID⟩]
    · rw [if_neg fun he => hne (WatchNote.closed.inj he).symm, Nat.add_zero]
      refine if_congr (and_congr_right fun _ => not_congr ?_) rfl rfl
      rw [Finset.mem_erase, and_iff_right hne]

/-- A step keeps the notes in agreement with the registry. -/
theorem Recorded.step (hrec : h.Recorded notes) (hreg : Registers h a h') :
    h'.Recorded (notes ++ h.watchNotes a) := by
  unfold watchNotes
  cases hreg with
  | same hopen hclose hs =>
    rw [hopen, hclose]
    exact (List.append_nil notes).symm ▸ hrec.same hs
  | add w hopen hclose hs =>
    rw [hopen, hclose]
    exact (hrec.addWatcher w).same hs
  | remove id w hopen hclose hid _ _ hs =>
    rw [hopen, hclose]
    exact (hrec.removeWatcher hid w).same hs

theorem recorded_start (s : KVStore) : (start s).Recorded [] := by
  have hempty : Filled ∅ := fun key ws hk => by cases hk
  refine ⟨hempty, hempty, fun id hid => ?_, Int.le_refl 0, fun id => ?_, fun id => ?_⟩
  · cases hid
  · rw [List.count_nil, if_neg fun hn => Int.not_lt.2 hn.1 hn.2]
  · rw [List.count_nil, if_neg fun hn => Int.not_lt.2 hn.1.1 hn.1.2]

theorem reachable_recorded {s : KVStore} {x : Hub × List WatchNote}
    (hr : ReachableBy (noting step watchNotes) (fun _ _ => True) (start s, []) x) :
    x.1.Wired ∧ x.1.Recorded x.2 := by
  induction hr with
  | init => exact ⟨wired_start s, recorded_start s⟩
  | step _ _ hs ih =>
    obtain ⟨hstep, hnotes⟩ := noting_eq_some hs
    have hm := (step_moved hstep).2
    rw [hnotes]
    exact ⟨ih.1.moved hm, ih.2.step (hm.registers ih.1)⟩

theorem closed_mem_watchNotes : .closed id ∈ h.watchNotes a ↔ h.closing a = some id := by
  unfold watchNotes
  simp only [List.mem_append, List.mem_map, Option.mem_toList, reduceCtorEq, and_false,
    exists_false, false_or, WatchNote.closed.injEq, exists_eq_right]

theorem closing_iff (hreg : Registers h a h') :
    h.closing a = some id ↔ id ∈ h.watchersByID ∧ id ∉ h'.watchersByID := by
  cases hreg with
  | same _ hclose hs =>
    rw [hclose, hs.watchersByID]
    exact iff_of_false (fun he => by cases he) fun hn => hn.2 hn.1
  | add w _ hclose hs =>
    rw [hclose, hs.watchersByID]
    exact iff_of_false (fun he => by cases he) fun hn => hn.2 (Finset.mem_insert_of_mem hn.1)
  | remove j w _ hclose hj _ _ hs =>
    rw [hclose, hs.watchersByID]
    change some j = some id ↔ id ∈ h.watchersByID ∧ id ∉ h.watchersByID.erase j
    rw [Option.some.injEq, Finset.mem_erase]
    constructor
    · intro he
      subst he
      exact ⟨hj, fun hn => hn.1 rfl⟩
    · intro hn
      by_contra hne
      exact hn.2 ⟨fun he => hne he.symm, hn.1⟩

theorem closing_open (hi : h.Wired) (hreg : Registers h a h') (hc : h.closing a = some id) :
    ∃ w, h.made.lookup id = some w ∧ w.ch.closed = false ∧
      h'.made.lookup id = some { w with ch := w.ch.close } := by
  cases hreg with
  | same _ hclose => cases hclose.symm.trans hc
  | add _ _ hclose => cases hclose.symm.trans hc
  | remove j w _ hclose hj hw hmade =>
    cases hclose.symm.trans hc
    obtain ⟨x, hx, hopen⟩ := (hi.byID id).1 hj
    cases hw.symm.trans hx
    rw [hmade, removeWatcher_lookup, if_pos rfl]
    exact ⟨w, hw, hopen, rfl⟩

end

/-- The registry of watchers, after a run with these notes. -/
structure RegistryConsistent (h : Hub) (notes : List WatchNote) : Prop where
  /-- An ID is in the list of the kind and the key of its watcher, once, and in no other. -/
  listed : ∀ id ∈ h.watchersByID, ∃ w, h.made.lookup id = some w ∧
    (h.listed w.isPrefix w.key).count id = 1 ∧
    ∀ isPrefix key, id ∈ h.listed isPrefix key → isPrefix = w.isPrefix ∧ key = w.key
  byID : ∀ isPrefix key id, id ∈ h.listed isPrefix key → id ∈ h.watchersByID
  watchers : ∀ key ws, h.watchers.lookup key = some ws → ws ≠ []
  prefixWatchers : ∀ key ws, h.prefixWatchers.lookup key = some ws → ws ≠ []
  /-- No ID is handed out twice. -/
  opened : ∀ id, notes.count (.opened id) ≤ 1
  /-- The channels of the watchers that are gone have been closed once, and no other. -/
  closed : ∀ id, notes.count (.closed id) =
    if .opened id ∈ notes ∧ id ∉ h.watchersByID then 1 else 0

end Hub

/-- Whatever calls of `Watch` and `CancelWatcher` there are, the registry is consistent. An action
closes the channel of a watcher, which is open until then, exactly if it removes its ID. -/
theorem watcher_registry {s : KVStore} {h : Hub} {notes : List WatchNote}
    (hr : ReachableBy (noting Hub.step Hub.watchNotes) (fun _ _ => True) (.start s, [])
      (h, notes)) :
    h.RegistryConsistent notes ∧
    ∀ a h', h.step a = some h' → ∀ id,
      (.closed id ∈ h.watchNotes a ↔ id ∈ h.watchersByID ∧ id ∉ h'.watchersByID) ∧
      (.closed id ∈ h.watchNotes a → ∃ w, h.made.lookup id = some w ∧ w.ch.closed = false ∧
        h'.made.lookup id = some { w with ch := w.ch.close }) := by
  obtain ⟨hi, hrec⟩ : h.Wired ∧ h.Recorded notes := Hub.reachable_recorded hr
  refine ⟨⟨?_, ?_, hrec.watchers, hrec.prefixWatchers, ?_, ?_⟩, ?_⟩
  · intro id hid
    obtain ⟨w, hw, hopen⟩ := (hi.byID id).1 hid
    have hmem := (hi.listed w.isPrefix w.key id).2 ⟨w, hw, hopen, rfl, rfl⟩
    refine ⟨w, hw, List.count_eq_one_of_mem (hi.nodup _ _) hmem, ?_⟩
    intro isPrefix key hid'
    obtain ⟨x, hx, -, hp, hk⟩ := (hi.listed isPrefix key id).1 hid'
    cases hw.symm.trans hx
    exact ⟨hp.symm, hk.symm⟩
  · intro isPrefix key id hid
    obtain ⟨w, hw, hopen, -⟩ := (hi.listed isPrefix key id).1 hid
    exact (hi.byID id).2 ⟨w, hw, hopen⟩
  · intro id
    rw [hrec.opened]
    split <;> omega
  · intro id
    have hopened : .opened id ∈ notes ↔ 0 ≤ id ∧ id < h.nextWatcherID := by
      rw [← List.count_pos_iff, hrec.opened]
      split <;> omega
    rw [hrec.closed]
    exact if_congr (and_congr_left fun _ => hopened.symm) rfl rfl
  · intro a h' hs id
    have hreg := (Hub.step_moved hs).2.registers hi
    rw [Hub.closed_mem_watchNotes]
    exact ⟨Hub.closing_iff hreg, Hub.closing_open hi hreg⟩

/-- Two watchers of one key and one of its prefix; the first is cancelled twice, and an unknown ID
once. -/
theorem watcher_registry_cancelled : ∃ h notes,
    ReachableBy (noting Hub.step Hub.watchNotes) (fun _ _ => True) (.start .new, []) (h, notes) ∧
    h.listed false [1] = [1] ∧ notes.count (.closed 0) = 1 ∧ h.RegistryConsistent notes := by
  have hrun : RunsTo (noting Hub.step Hub.watchNotes) (fun _ _ => True)
      (fun x => x.1.listed false [1] = [1] ∧ x.2.count (.closed 0) = 1) (.start .new, [])
      [.watch [1] 1 false, .watch [1] 1 false, .watch [] 1 true, .cancel 0, .cancel 0,
        .cancel 7] := by
    decide +kernel
  obtain ⟨⟨h, notes⟩, hr, hlisted, hclosed⟩ := hrun.reachable
  exact ⟨h, notes, hr, hlisted, hclosed, (watcher_registry hr).1⟩

end LinKV

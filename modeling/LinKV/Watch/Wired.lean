import LinKV.Watch.Hub

namespace LinKV
set_option autoImplicit true

namespace Hub

section

variable {h h' : Hub} {a : HubAction} {id : Int} {w : Watcher}

theorem lookup_register (m : GoMap Bytes (List Int)) (key k : Bytes) (id : Int) :
    ((register m key id).lookup k).getD [] =
      if k = key then (m.lookup key).getD [] ++ [id] else (m.lookup k).getD [] := by
  unfold register
  split
  · rename_i he
    rw [he, Finmap.lookup_insert]
    rfl
  · rename_i he
    rw [Finmap.lookup_insert_of_ne _ he]

theorem lookup_unregister (m : GoMap Bytes (List Int)) (key k : Bytes) (id : Int) :
    ((unregister m key id).lookup k).getD [] =
      if k = key then ((m.lookup key).getD []).erase id else (m.lookup k).getD [] := by
  unfold unregister
  by_cases he : k = key
  · rw [if_pos he, he]
    dsimp only
    split
    · rename_i hnil
      rw [Finmap.lookup_erase, List.length_eq_zero_iff.1 hnil]
      rfl
    · rw [Finmap.lookup_insert]
      rfl
  · rw [if_neg he]
    dsimp only
    split
    · rw [Finmap.lookup_erase_ne he]
    · rw [Finmap.lookup_insert_of_ne _ he]

/-- A watcher of this kind and key whose channel is open. -/
def Registered (h : Hub) (isPrefix : Bool) (key : Bytes) (id : Int) : Prop :=
  ∃ w, h.made.lookup id = some w ∧ w.ch.closed = false ∧ w.isPrefix = isPrefix ∧ w.key = key

/-- The lists and the map of IDs hold the watchers whose channels are open, and a copy of the
dispatcher holds watchers of its event. -/
structure Wired (h : Hub) : Prop where
  made_lt : ∀ id w, h.made.lookup id = some w → id < h.nextWatcherID
  byID : ∀ id, id ∈ h.watchersByID ↔ ∃ w, h.made.lookup id = some w ∧ w.ch.closed = false
  listed : ∀ isPrefix key id, id ∈ h.listed isPrefix key ↔ h.Registered isPrefix key id
  nodup : ∀ isPrefix key, (h.listed isPrefix key).Nodup
  received : ∀ t, h.turn = some t → t.phase = .received → t.todo = []
  todo : ∀ t, h.turn = some t → ∀ id ∈ t.todo, ∃ w, h.made.lookup id = some w ∧
    covers w.isPrefix w.key t.ev.key = true ∧ (w.isPrefix = true ↔ t.phase = .prefixWatchers)

theorem start_made (s : KVStore) : ¬ (start s).made.lookup id = some w := nofun

theorem start_listed (s : KVStore) (isPrefix : Bool) (key : Bytes) :
    (start s).listed isPrefix key = [] := by
  cases isPrefix <;> rfl

theorem wired_start (s : KVStore) : (start s).Wired where
  made_lt := fun id w hw => absurd hw (start_made s)
  byID := fun id => iff_of_false (Finset.notMem_empty id) fun ⟨_, hw, _⟩ => start_made s hw
  listed := fun isPrefix key id => by
    rw [start_listed]
    exact iff_of_false List.not_mem_nil fun ⟨_, hw, _⟩ => start_made s hw
  nodup := fun isPrefix key => by
    rw [start_listed]
    exact List.nodup_nil
  received := fun t ht => by cases ht
  todo := fun t ht => by cases ht

theorem setWatcher_lookup (h : Hub) (id j : Int) (w : Watcher) :
    (h.setWatcher id w).made.lookup j = if j = id then some w else h.made.lookup j := by
  split
  · rename_i he
    rw [he]
    exact Finmap.lookup_insert _
  · rename_i he
    exact Finmap.lookup_insert_of_ne _ he

theorem setWatcher_exists {P : Watcher → Prop} (hw : h.made.lookup id = some w)
    (hP : P w' ↔ P w) (j : Int) :
    (∃ x, (h.setWatcher id w').made.lookup j = some x ∧ P x) ↔
      ∃ x, h.made.lookup j = some x ∧ P x := by
  simp only [setWatcher_lookup]
  by_cases he : j = id
  · subst he
    simp only [if_true, hw, Option.some.injEq, exists_eq_left']
    exact hP
  · simp only [if_neg he]

theorem Wired.setWatcher (hi : h.Wired) (hw : h.made.lookup id = some w)
    (hkey : w'.key = w.key) (hkind : w'.isPrefix = w.isPrefix)
    (hclosed : w'.ch.closed = w.ch.closed) : (h.setWatcher id w').Wired where
  made_lt := fun j x hx => by
    rw [setWatcher_lookup] at hx
    split at hx
    · rename_i he
      exact he ▸ hi.made_lt id w hw
    · exact hi.made_lt j x hx
  byID := fun j => by
    refine (hi.byID j).trans (setWatcher_exists hw ?_ j).symm
    rw [hclosed]
  listed := fun isPrefix key j => by
    refine (hi.listed isPrefix key j).trans (setWatcher_exists hw ?_ j).symm
    rw [hclosed, hkind, hkey]
  nodup := hi.nodup
  received := hi.received
  todo := fun t ht j hj => by
    refine (setWatcher_exists hw ?_ j).2 (hi.todo t ht j hj)
    rw [hkind, hkey]

theorem Wired.setTurn (hi : h.Wired) (hreceived : t.phase = .received → t.todo = [])
    (htodo : ∀ id ∈ t.todo, ∃ w, h.made.lookup id = some w ∧
      covers w.isPrefix w.key t.ev.key = true ∧
      (w.isPrefix = true ↔ t.phase = .prefixWatchers)) :
    { h with turn := some t }.Wired where
  made_lt := hi.made_lt
  byID := hi.byID
  listed := hi.listed
  nodup := hi.nodup
  received := fun t' ht' => by
    obtain rfl := Option.some.inj ht'
    exact hreceived
  todo := fun t' ht' => by
    obtain rfl := Option.some.inj ht'
    exact htodo

theorem Wired.setTodo (hi : h.Wired) (ht : h.turn = some t) (hsub : ids ⊆ t.todo)
    (full : Bool) : { h with turn := some { t with todo := ids, full := full } }.Wired := by
  apply hi.setTurn
  · intro hph
    rw [hi.received t ht hph] at hsub
    exact List.subset_nil.1 hsub
  · intro id hid
    exact hi.todo t ht id (hsub hid)

theorem cancelWatcher_cases (h : Hub) (id : Int) :
    (id ∉ h.watchersByID ∨ h.made.lookup id = none) ∧ h.cancelWatcher id = h ∨
    ∃ w, id ∈ h.watchersByID ∧ h.made.lookup id = some w ∧
      h.cancelWatcher id = h.removeWatcher id w := by
  unfold cancelWatcher
  by_cases hid : id ∈ h.watchersByID
  · rw [if_pos hid]
    cases hw : h.made.lookup id with
    | none => exact .inl ⟨.inr rfl, rfl⟩
    | some w => exact .inr ⟨w, hid, rfl, rfl⟩
  · rw [if_neg hid]
    exact .inl ⟨.inl hid, rfl⟩

theorem removeWatcher_lookup (h : Hub) (id j : Int) (w : Watcher) :
    (h.removeWatcher id w).made.lookup j =
      if j = id then some { w with ch := w.ch.close } else h.made.lookup j :=
  setWatcher_lookup h id j _

theorem removeWatcher_listed (h : Hub) (id : Int) (w : Watcher) (isPrefix : Bool) (key : Bytes) :
    (h.removeWatcher id w).listed isPrefix key =
      if isPrefix = w.isPrefix ∧ key = w.key then (h.listed isPrefix key).erase id
      else h.listed isPrefix key := by
  unfold listed removeWatcher
  cases w.isPrefix <;> cases isPrefix <;> simp only [if_true, if_false, Bool.false_eq_true,
    true_and, false_and, reduceCtorEq, lookup_unregister]
  all_goals
    split
    · rename_i he
      rw [he]
    · rfl

theorem removeWatcher_open (h : Hub) (id : Int) (w : Watcher) (P : Watcher → Prop) (j : Int) :
    (∃ x, (h.removeWatcher id w).made.lookup j = some x ∧ x.ch.closed = false ∧ P x) ↔
      j ≠ id ∧ ∃ x, h.made.lookup j = some x ∧ x.ch.closed = false ∧ P x := by
  rw [removeWatcher_lookup]
  by_cases hj : j = id
  · rw [if_pos hj]
    refine iff_of_false ?_ fun hne => hne.1 hj
    rintro ⟨x, hx, hopen, -⟩
    obtain rfl := Option.some.inj hx
    cases hopen
  · rw [if_neg hj]
    exact (and_iff_right hj).symm

theorem Wired.removeWatcher (hi : h.Wired) (hw : h.made.lookup id = some w) :
    (h.removeWatcher id w).Wired where
  made_lt := fun j x hx => by
    rw [removeWatcher_lookup] at hx
    split at hx
    · rename_i hj
      exact hj ▸ hi.made_lt id w hw
    · exact hi.made_lt j x hx
  byID := fun j => by
    have hopen := removeWatcher_open h id w (fun _ => True) j
    simp only [and_true] at hopen
    rw [hopen, ← hi.byID]
    exact Finset.mem_erase
  listed := fun isPrefix key j => by
    rw [removeWatcher_listed, Registered, removeWatcher_open]
    split
    · rw [(hi.nodup isPrefix key).mem_erase_iff, hi.listed]
      rfl
    · rename_i hne
      rw [hi.listed]
      refine ⟨fun hreg => ⟨fun hj => ?_, hreg⟩, And.right⟩
      obtain ⟨x, hx, -, hp, hk⟩ := hreg
      rw [hj, hw] at hx
      obtain rfl := Option.some.inj hx
      exact hne ⟨hp.symm, hk.symm⟩
  nodup := fun isPrefix key => by
    rw [removeWatcher_listed]
    split
    · exact (hi.nodup isPrefix key).erase id
    · exact hi.nodup isPrefix key
  received := hi.received
  todo := fun t ht j hj => by
    obtain ⟨x, hx, hcov⟩ := hi.todo t ht j hj
    rw [removeWatcher_lookup]
    split
    · rename_i hj
      rw [hj, hw] at hx
      obtain rfl := Option.some.inj hx
      exact ⟨_, rfl, hcov⟩
    · exact ⟨x, hx, hcov⟩

theorem cancelWatcher_frame (h : Hub) (id : Int) : (h.cancelWatcher id).turn = h.turn ∧
    (h.cancelWatcher id).panicked = h.panicked ∧ (h.cancelWatcher id).store = h.store ∧
    (h.cancelWatcher id).pending = h.pending ∧ (h.cancelWatcher id).eventCh = h.eventCh ∧
    (h.cancelWatcher id).produced = h.produced := by
  rcases cancelWatcher_cases h id with ⟨-, he⟩ | ⟨w, -, -, he⟩
  · rw [he]
    exact ⟨rfl, rfl, rfl, rfl, rfl, rfl⟩
  · rw [he]
    exact ⟨rfl, rfl, rfl, rfl, rfl, rfl⟩

theorem cancelWatcher_closes (hi : h.Wired)
    (hw : (h.cancelWatcher id).made.lookup id = some w) : w.ch.closed = true := by
  rcases cancelWatcher_cases h id with ⟨hnone, he⟩ | ⟨x, -, -, he⟩
  · rw [he] at hw
    rcases hnone with hid | hnone
    · rw [hi.byID] at hid
      exact eq_true_of_ne_false fun hopen => hid ⟨w, hw, hopen⟩
    · rw [hnone] at hw
      cases hw
  · rw [he, removeWatcher_lookup, if_pos rfl] at hw
    obtain rfl := Option.some.inj hw
    rfl

theorem Wired.cancelWatcher (hi : h.Wired) (id : Int) : (h.cancelWatcher id).Wired := by
  rcases cancelWatcher_cases h id with ⟨-, he⟩ | ⟨w, -, hw, he⟩
  · rw [he]
    exact hi
  · rw [he]
    exact hi.removeWatcher hw

theorem addWatcher_lookup (h : Hub) (id j : Int) (w : Watcher) :
    (h.addWatcher id w).made.lookup j = if j = id then some w else h.made.lookup j :=
  setWatcher_lookup h id j w

theorem addWatcher_listed (h : Hub) (id : Int) (w : Watcher) (isPrefix : Bool) (key : Bytes) :
    (h.addWatcher id w).listed isPrefix key =
      if isPrefix = w.isPrefix ∧ key = w.key then h.listed isPrefix key ++ [id]
      else h.listed isPrefix key := by
  unfold listed addWatcher
  cases w.isPrefix <;> cases isPrefix <;> simp only [if_true, if_false, Bool.false_eq_true,
    true_and, false_and, reduceCtorEq, lookup_register]
  all_goals
    split
    · rename_i he
      rw [he]
    · rfl

theorem Wired.made_next (hi : h.Wired) : h.made.lookup h.nextWatcherID = none := by
  cases hw : h.made.lookup h.nextWatcherID with
  | none => rfl
  | some w => exact absurd (hi.made_lt _ w hw) (Int.lt_irrefl _)

theorem addWatcher_open {P : Watcher → Prop} (hw : w.ch.closed = false)
    (hnone : h.made.lookup id = none) (j : Int) :
    (∃ x, (h.addWatcher id w).made.lookup j = some x ∧ x.ch.closed = false ∧ P x) ↔
      (j = id ∧ P w) ∨ ∃ x, h.made.lookup j = some x ∧ x.ch.closed = false ∧ P x := by
  rw [addWatcher_lookup]
  by_cases hj : j = id
  · rw [if_pos hj, hj, hnone]
    constructor
    · rintro ⟨x, hx, -, hp⟩
      obtain rfl := Option.some.inj hx
      exact .inl ⟨rfl, hp⟩
    · rintro (⟨-, hp⟩ | ⟨x, hx, -⟩)
      · exact ⟨w, rfl, hw, hp⟩
      · cases hx
  · rw [if_neg hj]
    exact (or_iff_right fun hor => hj hor.1).symm

theorem Wired.addWatcher (hi : h.Wired) (hw : w.ch.closed = false) :
    (h.addWatcher h.nextWatcherID w).Wired where
  made_lt := fun j x hx => by
    rw [addWatcher_lookup] at hx
    change j < h.nextWatcherID + 1
    split at hx
    · rename_i hj
      rw [hj]
      exact Int.lt_add_one_iff.2 (Int.le_refl _)
    · exact Int.lt_trans (hi.made_lt j x hx) (Int.lt_add_one_iff.2 (Int.le_refl _))
  byID := fun j => by
    have hopen := addWatcher_open (P := fun _ => True) hw hi.made_next j
    simp only [and_true] at hopen
    rw [hopen, ← hi.byID]
    exact Finset.mem_insert
  listed := fun isPrefix key j => by
    rw [addWatcher_listed, Registered, addWatcher_open hw hi.made_next]
    split
    · rename_i he
      rw [List.mem_append, List.mem_singleton, hi.listed, or_comm,
        and_iff_left ⟨he.1.symm, he.2.symm⟩]
      rfl
    · rename_i he
      rw [hi.listed]
      exact (or_iff_right fun hor => he ⟨hor.2.1.symm, hor.2.2.symm⟩).symm
  nodup := fun isPrefix key => by
    rw [addWatcher_listed]
    split
    · refine List.nodup_append.2 ⟨hi.nodup isPrefix key, List.nodup_singleton _, ?_⟩
      intro a ha b hb hab
      obtain rfl := List.mem_singleton.1 hb
      obtain ⟨x, hx, -⟩ := (hi.listed isPrefix key a).1 ha
      rw [hab, hi.made_next] at hx
      cases hx
    · exact hi.nodup isPrefix key
  received := hi.received
  todo := fun t ht j hj => by
    obtain ⟨x, hx, hcov⟩ := hi.todo t ht j hj
    rw [addWatcher_lookup, if_neg]
    · exact ⟨x, hx, hcov⟩
    · intro he
      rw [he, hi.made_next] at hx
      cases hx

theorem watch_cases (h : Hub) (key : Bytes) (fromRev : Int) (isPrefix : Bool) :
    (h.watch key fromRev isPrefix).1 = h ∨ h.store.backend.compactRev < fromRev ∧
      (h.watch key fromRev isPrefix).1 = h.addWatcher h.nextWatcherID
        (.new h.store.backend.events key fromRev isPrefix) := by
  unfold watch
  split
  · exact .inl rfl
  · rename_i hlt
    exact .inr ⟨Int.not_le.1 hlt, rfl⟩

theorem mem_prefixed (ho : RangeOrder order h.prefixWatchers.keys) :
    id ∈ h.prefixed order key ↔ ∃ p, p.isPrefixOf key = true ∧ id ∈ h.listed true p := by
  unfold prefixed
  simp only [List.mem_flatMap, List.mem_filter]
  constructor
  · rintro ⟨p, ⟨-, hp⟩, hid⟩
    exact ⟨p, hp, hid⟩
  · rintro ⟨p, hp, hid⟩
    refine ⟨p, ⟨ho.mem.2 (Finmap.mem_keys.2 ?_), hp⟩, hid⟩
    refine Finmap.lookup_isSome.1 ?_
    cases hl : h.prefixWatchers.lookup p with
    | none =>
      have hnil : h.listed true p = [] := by
        rw [listed, if_pos rfl, hl]
        rfl
      rw [hnil] at hid
      cases hid
    | some ws => rfl

theorem Wired.moved (hi : h.Wired) (hm : Moved h a h') : h'.Wired := by
  cases hm with
  | mutate => exact ⟨hi.made_lt, hi.byID, hi.listed, hi.nodup, hi.received, hi.todo⟩
  | enqueue => exact ⟨hi.made_lt, hi.byID, hi.listed, hi.nodup, hi.received, hi.todo⟩
  | restore => exact ⟨hi.made_lt, hi.byID, hi.listed, hi.nodup, hi.received, hi.todo⟩
  | @watch key fromRev isPrefix =>
    rcases h.watch_cases key fromRev isPrefix with he | ⟨-, he⟩
    · rw [he]
      exact hi
    · rw [he]
      exact hi.addWatcher rfl
  | pushPanics => exact ⟨hi.made_lt, hi.byID, hi.listed, hi.nodup, hi.received, hi.todo⟩
  | pushDone hw => exact hi.setWatcher hw rfl rfl rfl
  | pushDrops hw => exact hi.setWatcher hw rfl rfl rfl
  | consume hw => exact hi.setWatcher hw rfl rfl rfl
  | cancel => exact hi.cancelWatcher _
  | receive =>
    refine ⟨hi.made_lt, hi.byID, hi.listed, hi.nodup, fun t ht _ => ?_, fun t ht id hid => ?_⟩
    · obtain rfl := Option.some.inj ht
      rfl
    · obtain rfl := Option.some.inj ht
      cases hid
  | @copyWatchers t ht hph =>
    refine hi.setTurn (fun hph => by cases hph) fun id hid => ?_
    obtain ⟨w, hw, -, hp, hk⟩ := (hi.listed false t.ev.key id).1 hid
    refine ⟨w, hw, ?_, iff_of_false (by rw [hp]; exact Bool.false_ne_true) nofun⟩
    rw [hp, hk]
    exact decide_eq_true rfl
  | @copyPrefixWatchers order t ht hph htodo ho =>
    refine hi.setTurn (fun hph => by cases hph) fun id hid => ?_
    obtain ⟨p, hpre, hmem⟩ := (mem_prefixed ho).1 hid
    obtain ⟨w, hw, -, hp, hk⟩ := (hi.listed true p id).1 hmem
    refine ⟨w, hw, ?_, iff_of_true hp rfl⟩
    rw [hp, hk]
    exact hpre
  | @cancels rest t id ht htodo =>
    refine (hi.cancelWatcher id).setTodo ((h.cancelWatcher_frame id).1.trans ht) ?_ false
    rw [htodo]
    exact List.subset_cons_self id rest
  | @skips rest t id w ht htodo =>
    refine hi.setTodo ht ?_ t.full
    rw [htodo]
    exact List.subset_cons_self id rest
  | panics => exact ⟨hi.made_lt, hi.byID, hi.listed, hi.nodup, hi.received, hi.todo⟩
  | full ht => exact hi.setTodo ht (List.Subset.refl _) true
  | @sends rest t id w ht htodo hfull hw =>
    have hset : (h.setWatcher id { w with
        ch := w.ch.send t.ev, lastSentRev := t.ev.rev.main }).Wired :=
      hi.setWatcher hw rfl rfl rfl
    refine hset.setTodo ht ?_ t.full
    rw [htodo]
    exact List.subset_cons_self id rest
  | finish =>
    refine ⟨hi.made_lt, hi.byID, hi.listed, hi.nodup, fun t ht => ?_, fun t ht => ?_⟩
    · cases ht
    · cases ht

theorem reachable_wired {s : KVStore} (hr : Consensus.ReachableBy step ok (start s) h) :
    h.Wired := by
  induction hr with
  | init => exact wired_start s
  | step _ _ hs ih => exact ih.moved (step_moved hs).2

end

end Hub

end LinKV

import LinKV.Mvcc.Reachable

namespace LinKV
set_option autoImplicit true

open Versioned

/-- A put, with its value and the lease it carries (0 for none), or a deletion of one key. -/
abbrev LeasedMutation := Bytes × Option (Bytes × Int)

def leaseOf (m : Option (Bytes × Int)) : Int := (m.map Prod.snd).getD 0

/-- A history without its leases, and the leases alone. -/
def mutationsOf (w : List LeasedMutation) : List Mutation :=
  w.map fun x => (x.1, x.2.map Prod.fst)

def leasesOf (w : List LeasedMutation) : List (Bytes × Int) := w.map fun x => (x.1, leaseOf x.2)

def Operation.leasedMutation (op : Operation) : Option LeasedMutation :=
  match op.type with
  | .put => some (op.key, some (op.value, op.leaseID))
  | .delete => some (op.key, none)
  | .get | .other _ => none

/-- The mutations an operation performs on a store, with the leases they carry. -/
def KVStore.leasedMutations (s : KVStore) : StoreOp → List LeasedMutation
  | .put now key value leaseID =>
    if leaseID ≠ 0 then
      match s.lookupLease now leaseID with
      | .error _ => []
      | .ok _ => [(key, some (value, leaseID))]
    else [(key, some (value, leaseID))]
  | .delete key => [(key, none)]
  | .txn now t =>
    match s.checkLeases now (leaseIDs (s.txnOps t)) with
    | .error _ => []
    | .ok _ => (s.txnOps t).filterMap Operation.leasedMutation
  | .leaseRevoke leaseID keys =>
    match s.leases.lookup leaseID with
    | none => []
    | some _ => keys.map (·, none)
  | .leaseGrant .. | .leaseKeepAlive .. | .compact _ => []

theorem mutationsOf_ops (ops : List Operation) :
    mutationsOf (ops.filterMap Operation.leasedMutation) =
      ops.filterMap Operation.mutation := by
  rw [mutationsOf, List.map_filterMap]
  congr 1
  funext op
  unfold Operation.leasedMutation Operation.mutation
  cases op.type <;> rfl

theorem KVStore.mutationsOf_leasedMutations (s : KVStore) (op : StoreOp) :
    mutationsOf (s.leasedMutations op) = s.mutations op := by
  cases op with
  | put now key value leaseID =>
    unfold leasedMutations mutations
    dsimp only
    split
    · cases s.lookupLease now leaseID <;> rfl
    · rfl
  | txn now t =>
    unfold leasedMutations mutations
    dsimp only
    cases s.checkLeases now (leaseIDs (s.txnOps t)) with
    | error e => rfl
    | ok u => exact mutationsOf_ops _
  | leaseRevoke leaseID keys =>
    unfold leasedMutations mutations
    dsimp only
    cases s.leases.lookup leaseID with
    | none => rfl
    | some lease => exact List.map_map
  | delete | leaseGrant | leaseKeepAlive | compact => rfl

/-- A store with the mutations performed on it so far and their leases. -/
def KVStore.trackLeases (x : KVStore × List LeasedMutation) (op : StoreOp) :
    Option (KVStore × List LeasedMutation) :=
  (x.1.apply op).map fun s => (s, x.2 ++ x.1.leasedMutations op)

/-- The store, after the mutations, as operations on a fresh one leave it. Every operation comes
with the time at which it reads the clock. -/
abbrev KVStore.LeaseTracked : KVStore × List LeasedMutation → Prop :=
  Consensus.ReachableBy KVStore.trackLeases (fun _ _ => True) (.new, [])

namespace KVStore

section

variable {s s' : KVStore} {key k value : Bytes} {keys : List Bytes} {leaseID id : Int}
  {o : Option Int} {w : List LeasedMutation} {gone : Bytes → Int → Prop}

theorem trackLeases_eq_some {x x' : KVStore × List LeasedMutation}
    (h : trackLeases x op = some x') :
    x.1.apply op = some x'.1 ∧ x'.2 = x.2 ++ x.1.leasedMutations op := by
  obtain ⟨s, hs, rfl⟩ := Option.map_eq_some_iff.mp h
  exact ⟨hs, rfl⟩

theorem LeaseTracked.represents {x : KVStore × List LeasedMutation} (h : LeaseTracked x) :
    Represents (mutationsOf x.2) x.1.backend := by
  induction h with
  | init => exact represents_new
  | step _ _ hs ih =>
    obtain ⟨happ, hm⟩ := trackLeases_eq_some hs
    rw [hm, mutationsOf, List.map_append, ← mutationsOf, ← mutationsOf,
      mutationsOf_leasedMutations]
    exact ih.apply happ

theorem leaseKeys_removeLeaseKey : (s.removeLeaseKey leaseID key).leaseKeys id =
    if id = leaseID then (s.leaseKeys leaseID).erase key else s.leaseKeys id := by
  rw [leaseKeys, removeLeaseKey, GoMap.lookup_modify]
  split
  · rw [leaseKeys]
    cases s.leases.lookup leaseID <;> rfl
  · rfl

theorem leaseKeys_addLeaseKey (hl : s.leases.lookup leaseID = some lease) :
    (s.addLeaseKey leaseID key).leaseKeys id =
      if id = leaseID then insert key (s.leaseKeys leaseID) else s.leaseKeys id := by
  rw [leaseKeys, addLeaseKey, GoMap.lookup_modify]
  split
  · rw [leaseKeys, hl]
    rfl
  · rfl

theorem mem_modify (m : GoMap Int Lease) (f : Lease → Lease) :
    id ∈ m.modify leaseID f ↔ id ∈ m := by
  rw [← Finmap.lookup_isSome, ← Finmap.lookup_isSome, GoMap.lookup_modify]
  split
  · rename_i he
    rw [he, Option.isSome_map]
  · rfl

/-- `key` is moved to the lease `o`, or to none, and nothing else is. -/
structure Moves (key : Bytes) (o : Option Int) (s s' : KVStore) : Prop where
  keyLease : ∀ k, s'.keyLease.lookup k = if k = key then o else s.keyLease.lookup k
  leaseKeys : ∀ k id, k ∈ s'.leaseKeys id ↔ if k = key then o = some id else k ∈ s.leaseKeys id
  leases : ∀ id, id ∈ s'.leases ↔ id ∈ s.leases
  nextLeaseID : s'.nextLeaseID = s.nextLeaseID

theorem detachKey_of_none (hl : s.keyLease.lookup key = none) : s.detachKey key = s := by
  rw [detachKey, hl]

theorem detachKey_of_some (hl : s.keyLease.lookup key = some leaseID) : s.detachKey key =
    KVStore.removeLeaseKey { s with keyLease := s.keyLease.erase key } leaseID key := by
  rw [detachKey, hl]

theorem detachKey_lookup (s : KVStore) (key k : Bytes) : (s.detachKey key).keyLease.lookup k =
    if k = key then none else s.keyLease.lookup k := by
  cases hl : s.keyLease.lookup key with
  | none =>
    rw [detachKey_of_none hl]
    by_cases hk : k = key
    · rw [if_pos hk, hk]
      exact hl
    · rw [if_neg hk]
  | some leaseID =>
    rw [detachKey_of_some hl]
    by_cases hk : k = key
    · rw [if_pos hk, hk]
      exact Finmap.lookup_erase key s.keyLease
    · rw [if_neg hk]
      exact Finmap.lookup_erase_ne hk

theorem detachKey_moves (hk : ∀ id, key ∈ s.leaseKeys id → s.keyLease.lookup key = some id) :
    Moves key none s (s.detachKey key) := by
  have hlook := s.detachKey_lookup key
  cases hl : s.keyLease.lookup key with
  | none =>
    rw [detachKey_of_none hl] at hlook ⊢
    refine ⟨hlook, fun k id => ?_, fun _ => Iff.rfl, rfl⟩
    by_cases he : k = key
    · rw [if_pos he, he]
      refine iff_of_false (fun hmem => ?_) (Option.some_ne_none id).symm
      rw [hk id hmem] at hl
      cases hl
    · rw [if_neg he]
  | some leaseID =>
    rw [detachKey_of_some hl] at hlook ⊢
    refine ⟨hlook, fun k id => ?_, fun id => mem_modify _ _, rfl⟩
    change k ∈ (s.removeLeaseKey leaseID key).leaseKeys id ↔ _
    rw [leaseKeys_removeLeaseKey]
    by_cases he : k = key
    · rw [if_pos he, he]
      refine iff_of_false (fun hmem => ?_) (Option.some_ne_none id).symm
      split at hmem
      · exact Finset.notMem_erase key _ hmem
      · rename_i hne
        have hin := hk id hmem
        rw [hl] at hin
        exact hne (Option.some.inj hin).symm
    · rw [if_neg he]
      split
      · rename_i hid
        rw [hid, Finset.mem_erase]
        exact and_iff_right he
      · exact Iff.rfl

theorem addLeaseKey_moves (hl : s.leases.lookup leaseID = some lease)
    (hk : ∀ id, key ∈ s.leaseKeys id → id = leaseID) :
    Moves key (some leaseID) s { s.addLeaseKey leaseID key with
      keyLease := s.keyLease.insert key leaseID } := by
  refine ⟨fun k => ?_, fun k id => ?_, fun id => mem_modify _ _, rfl⟩
  · by_cases he : k = key
    · rw [if_pos he, he]
      exact Finmap.lookup_insert s.keyLease
    · rw [if_neg he]
      exact Finmap.lookup_insert_of_ne s.keyLease he
  · change k ∈ (s.addLeaseKey leaseID key).leaseKeys id ↔ _
    rw [leaseKeys_addLeaseKey hl]
    by_cases he : k = key
    · rw [if_pos he, he, Option.some.injEq]
      split
      · rename_i hid
        exact iff_of_true (Finset.mem_insert_self key _) hid.symm
      · rename_i hid
        exact iff_of_false (fun hmem => hid (hk id hmem)) (Ne.symm hid)
    · rw [if_neg he]
      split
      · rename_i hid
        rw [hid, Finset.mem_insert]
        exact or_iff_right he
      · exact Iff.rfl

/-- What `bindKeyToLeaseLocked` does is to detach the key from an older lease first. -/
theorem bindKeyToLease_moves (hl : s.leases.lookup leaseID = some lease)
    (hk : ∀ id, key ∈ s.leaseKeys id → s.keyLease.lookup key = some id) :
    Moves key (some leaseID) s (s.bindKeyToLease key leaseID) := by
  unfold bindKeyToLease
  cases hold : s.keyLease.lookup key with
  | none =>
    refine addLeaseKey_moves hl fun id hmem => ?_
    rw [hk id hmem] at hold
    cases hold
  | some old =>
    have hid (id : Int) (hmem : key ∈ s.leaseKeys id) : id = old := by
      rw [hk id hmem] at hold
      exact Option.some.inj hold
    dsimp only
    by_cases hne : old = leaseID
    · rw [if_neg (not_not.2 hne)]
      exact addLeaseKey_moves hl fun id hmem => (hid id hmem).trans hne
    · rw [if_pos hne]
      have hl' : (s.removeLeaseKey old key).leases.lookup leaseID = some lease := by
        rw [removeLeaseKey, GoMap.lookup_modify, if_neg (Ne.symm hne), hl]
      have honly (id : Int) (hmem : key ∈ (s.removeLeaseKey old key).leaseKeys id) :
          id = leaseID := by
        rw [leaseKeys_removeLeaseKey] at hmem
        split at hmem
        · exact absurd hmem (Finset.notMem_erase key _)
        · exact absurd (hid id hmem) ‹_›
      have hadd := addLeaseKey_moves hl' honly
      refine ⟨hadd.keyLease, fun k id => (hadd.leaseKeys k id).trans ?_,
        fun id => (hadd.leases id).trans (mem_modify _ _), rfl⟩
      · rw [leaseKeys_removeLeaseKey]
        by_cases he : k = key
        · rw [if_pos he, if_pos he]
        · rw [if_neg he, if_neg he]
          split
          · rename_i hio
            rw [hio, Finset.mem_erase]
            exact and_iff_right he
          · exact Iff.rfl

/-- The two maps agree with each other, but for bindings to a lease that is `gone` from the map
of leases, and with the leases that the mutations so far carried. -/
structure Bound (gone : Bytes → Int → Prop) (w : List LeasedMutation) (s : KVStore) : Prop where
  held : ∀ k id, s.keyLease.lookup k = some id ↔ k ∈ s.leaseKeys id ∨ gone k id
  carried : ∀ k id, s.keyLease.lookup k = some id ↔ replay 0 (leasesOf w) k = id ∧ id ≠ 0
  nonneg : 0 ≤ s.nextLeaseID
  issued : ∀ id ∈ s.leases, 0 < id ∧ id ≤ s.nextLeaseID

theorem Bound.lookup (h : s.Bound gone w) (id : Int) (hk : key ∈ s.leaseKeys id) :
    s.keyLease.lookup key = some id := (h.held key id).2 (.inl hk)

theorem Bound.moves (h : s.Bound gone w) (hm : Moves key o s s')
    (ho : ∀ id, o = some id ↔ leaseOf m = id ∧ id ≠ 0) :
    s'.Bound (fun k id => k ≠ key ∧ gone k id) (w ++ [(key, m)]) := by
  have hreplay (k : Bytes) : replay 0 (leasesOf (w ++ [(key, m)])) k =
      if k = key then leaseOf m else replay 0 (leasesOf w) k := by
    rw [leasesOf, List.map_append]
    exact replay_concat ..
  refine ⟨fun k id => ?_, fun k id => ?_, ?_, fun id hid => ?_⟩
  · rw [hm.keyLease, hm.leaseKeys]
    by_cases he : k = key
    · rw [if_pos he, if_pos he]
      exact ⟨.inl, fun hor => hor.resolve_right fun hg => hg.1 he⟩
    · rw [if_neg he, if_neg he, h.held, and_iff_right he]
  · rw [hm.keyLease, hreplay]
    by_cases he : k = key
    · rw [if_pos he, if_pos he]
      exact ho id
    · rw [if_neg he, if_neg he]
      exact h.carried k id
  · rw [hm.nextLeaseID]
    exact h.nonneg
  · rw [hm.nextLeaseID]
    exact h.issued id ((hm.leases id).1 hid)

abbrev AllBound (w : List LeasedMutation) (s : KVStore) : Prop := s.Bound (fun _ _ => False) w

theorem Bound.mono (h : s.Bound gone w) (hg : ∀ k id, gone k id ↔ gone' k id) :
    s.Bound gone' w :=
  ⟨fun k id => (h.held k id).trans (or_congr_right (hg k id)), h.carried, h.nonneg, h.issued⟩

theorem AllBound.moves (h : s.AllBound w) (hm : Moves key o s s')
    (ho : ∀ id, o = some id ↔ leaseOf m = id ∧ id ≠ 0) : s'.AllBound (w ++ [(key, m)]) :=
  (Bound.moves h hm ho).mono fun _ _ => iff_of_false And.right id

theorem Bound.write (h : s.Bound gone w) : (s.write type key value deleted).1.Bound gone w :=
  ⟨h.held, h.carried, h.nonneg, h.issued⟩

theorem Bound.send (h : s.Bound gone w) (evs : List MvccEvent) : (s.send evs).Bound gone w :=
  ⟨h.held, h.carried, h.nonneg, h.issued⟩

theorem Bound.deleteLocked (h : s.Bound gone w) (key : Bytes) :
    (s.deleteLocked key).1.Bound (fun k id => k ≠ key ∧ gone k id) (w ++ [(key, none)]) := by
  apply Bound.moves h.write (detachKey_moves h.write.lookup)
  intro id
  exact iff_of_false (Option.some_ne_none id).symm fun h => h.2 h.1.symm

theorem AllBound.detachKey (h : s.AllBound w) (key value : Bytes) :
    (s.detachKey key).AllBound (w ++ [(key, some (value, 0))]) := by
  apply AllBound.moves h (detachKey_moves (Bound.lookup h))
  intro id
  exact iff_of_false (Option.some_ne_none id).symm fun h => h.2 h.1.symm

theorem AllBound.bindKeyToLease (h : s.AllBound w) (hl : leaseID ∈ s.leases)
    (key value : Bytes) :
    (s.bindKeyToLease key leaseID).AllBound (w ++ [(key, some (value, leaseID))]) := by
  obtain ⟨lease, hlease⟩ := Finmap.mem_iff.1 hl
  have hpos := (h.issued leaseID hl).1
  apply AllBound.moves h (bindKeyToLease_moves hlease (Bound.lookup h))
  intro id
  rw [Option.some.injEq]
  constructor
  · rintro rfl
    exact ⟨rfl, Int.ne_of_gt hpos⟩
  · exact And.left

theorem Bound.deleteAll (h : s.Bound (fun k id => id = leaseID ∧ k ∈ keys) w) (hd : keys.Nodup) :
    (s.deleteAll keys).1.AllBound (w ++ keys.map (·, none)) := by
  induction keys generalizing s w with
  | nil =>
    rw [List.map_nil, List.append_nil]
    exact h.mono fun _ _ => iff_of_false (fun hk => List.not_mem_nil hk.2) id
  | cons key keys ih =>
    obtain ⟨hkey, hd⟩ := List.nodup_cons.1 hd
    have hrest := ih ((h.deleteLocked key).mono fun k id => ?_) hd
    · rwa [List.append_assoc] at hrest
    · rw [List.mem_cons]
      constructor
      · rintro ⟨hne, hid, hk⟩
        exact ⟨hid, hk.resolve_left hne⟩
      · rintro ⟨hid, hk⟩
        exact ⟨fun he => hkey (he ▸ hk), hid, .inr hk⟩

theorem checkLeases_ok (h : s.checkLeases now ids = .ok u) : ∀ id ∈ ids, id ∈ s.leases := by
  induction ids with
  | nil => exact fun _ hid => absurd hid List.not_mem_nil
  | cons i ids ih =>
    unfold checkLeases at h
    split at h
    · cases h
    · rename_i lease hl
      intro id hid
      rcases List.mem_cons.1 hid with rfl | hid
      · exact Finmap.mem_iff.2 ⟨lease, lookupLease_of_ok hl⟩
      · exact ih h id hid

theorem Edit.mem_leases (h : Edit P s s') : id ∈ s'.leases ↔ id ∈ s.leases := by
  cases h with
  | write | keyLease => exact Iff.rfl
  | removeLeaseKey | addLeaseKey => exact mem_modify _ _

theorem Edits.mem_leases (h : Edits P s s') : id ∈ s'.leases ↔ id ∈ s.leases :=
  Iff.of_eq (h.keeps fun hedit => propext hedit.mem_leases)

/-- The leases `Txn` has checked are still there when it binds keys to them. -/
theorem AllBound.txnOp (h : s.AllBound w) (op : Operation)
    (hl : op.type = .put → op.leaseID ≠ 0 → op.leaseID ∈ s.leases) :
    (s.txnOp op).1.AllBound (w ++ op.leasedMutation.toList) := by
  unfold KVStore.txnOp Operation.leasedMutation
  cases htype : op.type with
  | get =>
    dsimp only
    rw [Option.toList_none, List.append_nil]
    split <;> exact h
  | put =>
    dsimp only
    split
    · rename_i hne
      exact AllBound.bindKeyToLease (Bound.write h) (hl htype hne) op.key op.value
    · rename_i hz
      rw [not_not.1 hz]
      exact AllBound.detachKey (Bound.write h) op.key op.value
  | delete => exact (Bound.deleteLocked h op.key).mono fun _ _ => iff_of_false And.right id
  | other type =>
    rw [Option.toList_none, List.append_nil]
    exact h

theorem leases_cons (hl : ∀ id ∈ leaseIDs (op :: ops), id ∈ s.leases) :
    (op.type = .put → op.leaseID ≠ 0 → op.leaseID ∈ s.leases) ∧
      ∀ id ∈ leaseIDs ops, id ∈ (s.txnOp op).1.leases := by
  refine ⟨fun hput hne => hl _ (List.mem_map.2 ⟨op, ?_, rfl⟩), fun id hid => ?_⟩
  · exact List.mem_filter.2 ⟨List.mem_cons_self, decide_eq_true ⟨hput, hne⟩⟩
  · obtain ⟨op', hop, rfl⟩ := List.mem_map.1 hid
    obtain ⟨hmem, hcond⟩ := List.mem_filter.1 hop
    rw [(txnOp_edits (P := fun _ => True) trivial).mem_leases]
    exact hl _ (List.mem_map.2
      ⟨op', List.mem_filter.2 ⟨List.mem_cons_of_mem op hmem, hcond⟩, rfl⟩)

theorem AllBound.runOps (h : s.AllBound w) (ops : List Operation)
    (hl : ∀ id ∈ leaseIDs ops, id ∈ s.leases) :
    (s.runOps ops).1.AllBound (w ++ ops.filterMap Operation.leasedMutation) := by
  induction ops generalizing s w with
  | nil =>
    rw [List.filterMap_nil, List.append_nil]
    exact h
  | cons op ops ih =>
    have hcons : (op :: ops).filterMap Operation.leasedMutation =
        op.leasedMutation.toList ++ ops.filterMap Operation.leasedMutation := by
      rw [List.filterMap_cons]
      cases op.leasedMutation <;> rfl
    obtain ⟨hop, hops⟩ := leases_cons hl
    rw [hcons, ← List.append_assoc]
    exact ih (h.txnOp op hop) hops

theorem leaseKeys_insert (s : KVStore) (lease : Lease) (next : Int) :
    leaseKeys { s with nextLeaseID := next, leases := s.leases.insert leaseID lease } id =
      if id = leaseID then lease.keys else s.leaseKeys id := by
  rw [leaseKeys]
  by_cases he : id = leaseID
  · rw [if_pos he, he, Finmap.lookup_insert]
    rfl
  · rw [if_neg he, Finmap.lookup_insert_of_ne _ he]
    rfl

theorem leaseKeys_erase (s : KVStore) :
    leaseKeys { s with leases := s.leases.erase leaseID } id =
      if id = leaseID then ∅ else s.leaseKeys id := by
  rw [leaseKeys]
  by_cases he : id = leaseID
  · rw [if_pos he, he, Finmap.lookup_erase]
    rfl
  · rw [if_neg he, Finmap.lookup_erase_ne he]
    rfl

theorem AllBound.insert (h : s.AllBound w) {lease : Lease} (hk : lease.keys = s.leaseKeys leaseID)
    (hpos : 0 < leaseID) (hle : leaseID ≤ next) (hnext : s.nextLeaseID ≤ next) :
    AllBound w { s with nextLeaseID := next, leases := s.leases.insert leaseID lease } := by
  refine ⟨fun k id => ?_, h.carried, Int.le_trans h.nonneg hnext, fun id hid => ?_⟩
  · rw [leaseKeys_insert, hk]
    have hsame : (if id = leaseID then s.leaseKeys leaseID else s.leaseKeys id) =
        s.leaseKeys id := by
      split
      · rename_i he
        rw [he]
      · rfl
    rw [hsame]
    exact h.held k id
  · rcases (Finmap.mem_insert ..).1 hid with rfl | hid
    · exact ⟨hpos, hle⟩
    · obtain ⟨hlo, hhi⟩ := h.issued id hid
      exact ⟨hlo, Int.le_trans hhi hnext⟩

theorem AllBound.erase (h : s.AllBound w) (hk : ∀ k, k ∈ keys ↔ k ∈ s.leaseKeys leaseID) :
    Bound (fun k id => id = leaseID ∧ k ∈ keys) w { s with leases := s.leases.erase leaseID } := by
  refine ⟨fun k id => ?_, h.carried, h.nonneg, fun id hid => ?_⟩
  · have hheld : s.keyLease.lookup k = some id ↔ k ∈ s.leaseKeys id :=
      (h.held k id).trans (or_iff_left not_false)
    rw [hheld, hk, leaseKeys_erase]
    by_cases he : id = leaseID
    · rw [if_pos he, he]
      exact ⟨fun hmem => .inr ⟨rfl, hmem⟩,
        fun hor => (hor.resolve_left (Finset.notMem_empty k)).2⟩
    · rw [if_neg he]
      exact ⟨.inl, fun hor => hor.resolve_right fun hg => he hg.1⟩
  · exact h.issued id ((Finmap.mem_erase ..).1 hid).2

theorem AllBound.apply (h : s.AllBound w) (hs : s.apply op = some s') :
    s'.AllBound (w ++ s.leasedMutations op) := by
  cases op with
  | put now key value leaseID =>
    obtain rfl := Option.some.inj hs
    unfold leasedMutations KVStore.put
    dsimp only
    split
    · cases hl : s.lookupLease now leaseID with
      | error e =>
        rw [List.append_nil]
        exact h
      | ok lease =>
        have hmem := Finmap.mem_iff.2 ⟨lease, lookupLease_of_ok hl⟩
        exact (AllBound.bindKeyToLease (Bound.write h) hmem key value).send _
    · rename_i hz
      rw [not_not.1 hz]
      exact (AllBound.detachKey (Bound.write h) key value).send _
  | delete key =>
    obtain rfl := Option.some.inj hs
    have hdel := Bound.deleteLocked h key
    exact (hdel.mono fun _ _ => iff_of_false And.right id).send _
  | txn now t =>
    obtain rfl := Option.some.inj hs
    unfold leasedMutations KVStore.txn
    dsimp only
    cases hc : s.checkLeases now (leaseIDs (s.txnOps t)) with
    | error e =>
      rw [List.append_nil]
      exact h
    | ok u => exact (h.runOps (s.txnOps t) (checkLeases_ok hc)).send _
  | leaseGrant now ttl =>
    obtain rfl := Option.some.inj hs
    rw [leasedMutations, List.append_nil]
    have hnone : s.leaseKeys (s.nextLeaseID + 1) = ∅ := by
      rw [leaseKeys, Finmap.lookup_eq_none.2]
      · rfl
      · intro hmem
        have hle := (h.issued _ hmem).2
        omega
    have hnext := h.nonneg
    exact h.insert hnone.symm (by omega) (Int.le_refl _) (by omega)
  | leaseKeepAlive now leaseID =>
    obtain rfl := Option.some.inj hs
    rw [leasedMutations, List.append_nil, KVStore.leaseKeepAlive]
    cases hl : s.lookupLease now leaseID with
    | error e => exact h
    | ok lease =>
      have hlook := lookupLease_of_ok hl
      obtain ⟨hlo, hhi⟩ := h.issued leaseID (Finmap.mem_iff.2 ⟨lease, hlook⟩)
      refine h.insert ?_ hlo hhi (Int.le_refl _)
      rw [leaseKeys, hlook]
      rfl
  | leaseRevoke leaseID keys =>
    rw [KVStore.apply] at hs
    split at hs
    · rename_i hkeys
      obtain rfl := Option.some.inj hs
      unfold leasedMutations KVStore.leaseRevoke
      dsimp only
      cases s.leases.lookup leaseID with
      | none =>
        rw [List.append_nil]
        exact h
      | some lease =>
        exact (Bound.deleteAll (h.erase fun _ => hkeys.mem) hkeys.1).send _
    · cases hs
  | compact rev =>
    obtain rfl := Option.some.inj hs
    rw [leasedMutations, List.append_nil, KVStore.compact]
    split
    · exact h
    · exact ⟨h.held, h.carried, h.nonneg, h.issued⟩

theorem allBound_new : KVStore.new.AllBound [] := by
  have hnone (k : Bytes) : KVStore.new.keyLease.lookup k = none := Finmap.lookup_empty k
  refine ⟨fun k id => ?_, fun k id => ?_, Int.le_refl 0, fun id hid => ?_⟩
  · rw [hnone]
    exact iff_of_false (Option.some_ne_none id).symm
      fun hor => hor.elim (Finset.notMem_empty k) False.elim
  · rw [hnone]
    exact iff_of_false (Option.some_ne_none id).symm fun h => h.2 h.1.symm
  · exact absurd hid Finmap.notMem_empty

theorem LeaseTracked.allBound {x : KVStore × List LeasedMutation} (h : LeaseTracked x) :
    x.1.AllBound x.2 := by
  induction h with
  | init => exact allBound_new
  | step _ _ hs ih =>
    obtain ⟨happ, hm⟩ := trackLeases_eq_some hs
    rw [hm]
    exact ih.apply happ

theorem AllBound.restored {t : KVStore} (h : t.AllBound w) (hn : t.LeasesNamed)
    (ho : RangeOrder order t.leases.keys) (s : KVStore) (b : MemoryBackend) :
    AllBound w { s with
      backend := b
      keyLease := t.keyLease
      nextLeaseID := t.nextLeaseID
      leases := restoreLeases (t.snapshot order).leases } := by
  have hlook := restoreLeases_lookup_eq hn ho
  refine ⟨fun k id => ?_, h.carried, h.nonneg, fun id hid => h.issued id ?_⟩
  · rw [h.held, leaseKeys, leaseKeys, hlook]
    cases t.leases.lookup id <;> exact Iff.rfl
  · rw [← Finmap.lookup_isSome] at hid ⊢
    rwa [hlook, Option.isSome_map] at hid

/-- The two maps agree in every store that can be reached, restored ones included. -/
theorem Reachable.allBound (hs : s.Reachable) : ∃ w, s.AllBound w := by
  induction hs with
  | new => exact ⟨[], allBound_new⟩
  | op op _ happ ih =>
    obtain ⟨w, hb⟩ := ih
    exact ⟨_, hb.apply happ⟩
  | restore _ ht ho ihs iht =>
    obtain ⟨hn, h, hr⟩ := ht.represents
    rcases restore_cases hr _ _ with ⟨-, he⟩ | ⟨-, he⟩
    · rw [he]
      exact ihs
    · obtain ⟨w, hb⟩ := iht
      rw [he]
      exact ⟨w, hb.restored hn ho _ _⟩

/-- The newest version of a key is that of its last mutation, whatever is compacted. -/
theorem newest_version (hr : Represents (mutationsOf w) s.backend) (key : Bytes) :
    (s.versions key).getLast? = (Versioned.versions w key).getLast?.map
      fun x => stampVersion (x.1, x.2.map Prod.fst) := by
  have hv : s.versions key = _ := hr.versions key
  rw [hv, List.getLast?_map, getLast?_retain, mutationsOf, versions_map, List.getLast?_map,
    Option.map_map]
  rfl

theorem replay_leasesOf (hr : Represents (mutationsOf w) s.backend) :
    (replay 0 (leasesOf w) k = id ∧ id ≠ 0) ↔
      ∃ v, (s.versions k).getLast? = some v ∧ v.deleted = false ∧
        w[(v.rev.main - 1).toNat]? = some (k, some (v.value, id)) ∧ id ≠ 0 := by
  rw [newest_version hr, replay_eq, leasesOf, versions_map, List.getLast?_map]
  cases hlast : (Versioned.versions w k).getLast? with
  | none =>
    refine iff_of_false (fun h => h.2 h.1.symm) fun h => ?_
    obtain ⟨v, hv, -⟩ := h
    cases hv
  | some x =>
    obtain ⟨r, m⟩ := x
    obtain ⟨j, rfl, hj⟩ := Versioned.mem_versions.1 (List.mem_of_getLast? hlast)
    have hpos : ((j : Int) + 1 - 1).toNat = j := by omega
    constructor
    · rintro ⟨hm, hne⟩
      cases m with
      | none => exact absurd hm.symm hne
      | some p =>
        obtain rfl : p.2 = id := hm
        refine ⟨_, rfl, rfl, ?_, hne⟩
        change w[((j : Int) + 1 - 1).toNat]? = _
        rw [hpos, hj]
        rfl
    · rintro ⟨v, hv, -, hw, hne⟩
      obtain rfl := Option.some.inj hv
      change w[((j : Int) + 1 - 1).toNat]? = _ at hw
      rw [hpos, hj] at hw
      have hm := (Prod.mk.inj (Option.some.inj hw)).2
      dsimp only at hm
      refine ⟨?_, hne⟩
      dsimp only [Option.map_some, Option.getD_some]
      rw [hm]
      rfl

end

end KVStore

/-- Whatever operations have been performed, a key is bound to a lease in one map exactly when it
is in the other, and exactly when the newest version of the key is a put that carried the lease.
`LeaseGrant` returns an ID that no lease has. -/
theorem lease_bindings {s : KVStore} {w : List LeasedMutation}
    (h : KVStore.LeaseTracked (s, w)) :
    (∀ k id, (s.keyLease.lookup k = some id ↔
        ∃ lease, s.leases.lookup id = some lease ∧ k ∈ lease.keys) ∧
      (s.keyLease.lookup k = some id ↔
        ∃ v, (s.versions k).getLast? = some v ∧ v.deleted = false ∧
          w[(v.rev.main - 1).toNat]? = some (k, some (v.value, id)) ∧ id ≠ 0)) ∧
    (∀ id lease, s.leases.lookup id = some lease → 0 < id ∧ id ≤ s.nextLeaseID) ∧
    ∀ now ttl, s.leases.lookup (s.leaseGrant now ttl).2 = none := by
  have hb : s.AllBound w := h.allBound
  have hr : Represents (mutationsOf w) s.backend := h.represents
  refine ⟨fun k id => ⟨?_, ?_⟩, fun id lease hl => ?_, fun now ttl => ?_⟩
  · rw [(hb.held k id).trans (or_iff_left not_false), KVStore.leaseKeys]
    cases s.leases.lookup id with
    | none =>
      refine iff_of_false (Finset.notMem_empty k) fun hex => ?_
      obtain ⟨lease, hl, -⟩ := hex
      cases hl
    | some lease =>
      refine ⟨fun hk => ⟨lease, rfl, hk⟩, fun hex => ?_⟩
      obtain ⟨lease', hl, hk⟩ := hex
      obtain rfl := Option.some.inj hl
      exact hk
  · rw [hb.carried, KVStore.replay_leasesOf hr]
  · exact hb.issued id (Finmap.mem_iff.2 ⟨lease, hl⟩)
  · refine Finmap.lookup_eq_none.2 fun hmem => ?_
    have hle := (hb.issued _ hmem).2
    exact absurd (Int.lt_add_one_iff.2 (Int.le_refl s.nextLeaseID)) (Int.not_lt.2 hle)

/-- A key put under a first lease and moved to a second one by a transaction, and another key put
under the first lease, which is then revoked. -/
theorem lease_bindings_moved : ∃ (s : KVStore) (w : List LeasedMutation),
    KVStore.LeaseTracked (s, w) ∧ s.backend.compactRev = 2 ∧ s.keyLease.lookup [1] = some 2 ∧
    (∃ lease, s.leases.lookup 2 = some lease ∧ [1] ∈ lease.keys) ∧
    s.keyLease.lookup [2] = none ∧
    ¬ ∃ lease, s.leases.lookup 1 = some lease ∧ [2] ∈ lease.keys := by
  have hrun : Consensus.RunsTo KVStore.trackLeases (fun _ _ => True)
      (fun x => x.1.backend.compactRev = 2 ∧ x.1.keyLease.lookup [1] = some 2 ∧
        x.1.keyLease.lookup [2] = none) (.new, [])
      [.leaseGrant 0 60, .leaseGrant 1 60, .put 2 [1] [5] 1, .put 3 [2] [6] 1,
        .txn 4 ⟨[], [⟨.put, [1], [7], 2⟩], []⟩, .leaseRevoke 1 [[2]], .compact 2] := by
    decide +kernel
  obtain ⟨⟨s, w⟩, ht, hc, h1, h2⟩ := hrun.reachable
  have hb := (lease_bindings ht).1
  refine ⟨s, w, ht, hc, h1, (hb [1] 2).1.1 h1, h2, fun hex => ?_⟩
  have hsome := (hb [2] 1).1.2 hex
  rw [h2] at hsome
  cases hsome

end LinKV

import LinKV.Mvcc.Index
import LinKV.Consensus.Transition
import Mathlib.Data.List.Induction

namespace LinKV
set_option autoImplicit true

open Versioned

/-- A put (with its value) or a deletion of one key. -/
abbrev Mutation := Bytes × Option Bytes

/-- The version a mutation leaves at revision `x.1`. -/
def stampVersion (x : Int × Option Bytes) : ValueRevision := ⟨⟨x.1, 0⟩, x.2.getD [], x.2.isNone⟩

def stampEvent (rev : Int) (m : Mutation) : MvccEvent :=
  ⟨if m.2.isSome then .put else .delete, m.1, m.2.getD [], ⟨rev, 0⟩⟩

def eventsOf (h : List Mutation) : List MvccEvent :=
  h.mapIdx fun i m => stampEvent ((i : Int) + 1) m

/-- The backend holds what compaction at `compactRev` leaves of the history. -/
structure Represents (h : List Mutation) (b : MemoryBackend) : Prop extends b.Indexed where
  currentRev : b.currentRev = h.length
  compact_nonneg : 0 ≤ b.compactRev
  compact_le : b.compactRev ≤ b.currentRev
  versions : ∀ key, b.versions key =
    (retain Prod.fst b.compactRev (Versioned.versions h key)).map stampVersion
  events : b.events = (eventsOf h).filter fun ev => b.compactRev < ev.rev.main

section

variable {h : List Mutation} {b : MemoryBackend} {s s' : KVStore} {key k : Bytes} {rev : Int}
  {m : Mutation}

theorem represents_new : Represents [] .new where
  sorted := List.Pairwise.nil
  mem := fun k => iff_of_false List.not_mem_nil Finmap.notMem_empty
  currentRev := rfl
  compact_nonneg := Int.le_refl 0
  compact_le := Int.le_refl 0
  versions := fun key => by simp [MemoryBackend.versions, MemoryBackend.getRevisions,
    MemoryBackend.new, Versioned.versions, versionsFrom, retain]
  events := rfl

theorem eventsOf_concat (h : List Mutation) (m : Mutation) :
    eventsOf (h ++ [m]) = eventsOf h ++ [stampEvent ((h.length : Int) + 1) m] :=
  List.mapIdx_concat

theorem increasing_stamped (h : List Mutation) (key : Bytes) :
    Increasing ((Versioned.versions h key).map stampVersion) :=
  List.pairwise_map.mpr (versions_pairwise h key)

theorem Represents.versions_eq (hr : Represents h b) (key : Bytes) : b.versions key =
    retain (fun v => v.rev.main) b.compactRev ((Versioned.versions h key).map stampVersion) := by
  rw [hr.versions, retain_map]
  rfl

theorem Represents.increasing (hr : Represents h b) (key : Bytes) :
    Increasing (b.versions key) := by
  rw [hr.versions_eq]
  exact (increasing_stamped h key).sublist (retain_suffix _ _).sublist

theorem Represents.later (hr : Represents h b) {h' : List Mutation} (hr' : Represents (h ++ h') b')
    (hc : b'.compactRev = b.compactRev) (key : Bytes) :
    ∃ later, b'.versions key = b.versions key ++ later ∧
      ∀ v ∈ later, b.currentRev < v.rev.main := by
  have hafter : ∀ v ∈ (versionsFrom key (1 + (h.length : Int)) h').map stampVersion,
      b.currentRev < v.rev.main := by
    intro v hv
    obtain ⟨x, hx, rfl⟩ := List.mem_map.1 hv
    obtain ⟨j, hj, -⟩ := mem_versionsFrom.1 hx
    rw [hr.currentRev]
    change (h.length : Int) < x.1
    omega
  refine ⟨_, ?_, hafter⟩
  rw [hr'.versions_eq, hr.versions_eq, hc, Versioned.versions, versionsFrom_append, List.map_append,
    retain_append _ fun v hv => Int.lt_of_le_of_lt hr.compact_le (hafter v hv)]
  rfl

theorem Represents.mem_versions (hr : Represents h b) {v : ValueRevision}
    (hv : v ∈ b.versions key) : ∃ i : Nat, v.rev = ⟨(i : Int) + 1, 0⟩ ∧
      ∃ m, h[i]? = some (key, m) ∧ v = stampVersion ((i : Int) + 1, m) := by
  rw [hr.versions] at hv
  obtain ⟨⟨r, m⟩, hx, rfl⟩ := List.mem_map.mp hv
  obtain ⟨i, rfl, hi⟩ := Versioned.mem_versions.mp ((retain_suffix _ _).subset hx)
  exact ⟨i, rfl, m, hi, rfl⟩

theorem Represents.version_of (hr : Represents h b) {i : Nat} {v : Option Bytes}
    (hi : h[i]? = some (key, v)) (hlo : b.compactRev < (i : Int) + 1) :
    stampVersion ((i : Int) + 1, v) ∈ b.versions key := by
  rw [hr.versions]
  exact List.mem_map_of_mem
    (mem_retain (versions_pairwise h key) (Versioned.mem_versions.mpr ⟨i, rfl, hi⟩) hlo)

theorem Represents.last_version (hr : Represents h b) (hpos : 0 < b.currentRev) :
    ∃ key, ∃ v ∈ b.versions key, v.rev.main = b.currentRev := by
  have hcur := hr.currentRev
  cases h using List.reverseRecOn with
  | nil =>
    rw [hcur] at hpos
    cases hpos
  | append_singleton h w =>
    have hlast : (retain Prod.fst b.compactRev (Versioned.versions (h ++ [w]) w.1)).getLast? =
        some ((h.length : Int) + 1, w.2) := by
      rw [getLast?_retain, versions_concat, if_pos rfl, List.getLast?_concat]
    refine ⟨w.1, stampVersion ((h.length : Int) + 1, w.2), ?_, ?_⟩
    · rw [hr.versions]
      exact List.mem_map_of_mem (List.mem_of_getLast? hlast)
    · rw [hcur, List.length_append]
      rfl

theorem Represents.bounds (hr : Represents h b) {v : ValueRevision} (hv : v ∈ b.versions key) :
    1 ≤ v.rev.main ∧ v.rev.main ≤ b.currentRev := by
  obtain ⟨i, hi, m, hm, -⟩ := hr.mem_versions hv
  have hlt := (List.getElem?_eq_some_iff.mp hm).1
  rw [hi, hr.currentRev]
  constructor <;> dsimp only <;> omega

theorem Represents.present (hr : Represents h b) (hlo : b.compactRev < r)
    (hhi : r ≤ b.currentRev) : ∃ key, ∃ v ∈ b.versions key, v.rev.main = r := by
  have hpos := hr.compact_nonneg
  have hcur := hr.currentRev
  obtain ⟨i, rfl⟩ : ∃ i : Nat, r = (i : Int) + 1 := ⟨(r - 1).toNat, by omega⟩
  have hi : i < h.length := by omega
  exact ⟨h[i].1, _, hr.version_of (v := h[i].2) (List.getElem?_eq_getElem hi) hlo, rfl⟩

theorem write_indexed (hi : s.backend.Indexed) :
    (s.write type key value deleted).1.backend.Indexed := by
  have hi' : MemoryBackend.Indexed { s.backend with currentRev := s.backend.currentRev + 1 } :=
    ⟨hi.sorted, hi.mem⟩
  have hne : s.versions key ++ [⟨⟨s.backend.currentRev + 1, 0⟩, value, deleted⟩] ≠ [] :=
    List.append_ne_nil_of_right_ne_nil _ (List.cons_ne_nil _ _)
  exact ⟨(hi'.setRevisions hne).sorted, (hi'.setRevisions hne).mem⟩

theorem write_compactRev :
    (s.write type key value deleted).1.backend.compactRev = s.backend.compactRev :=
  (MemoryBackend.setRevisions_frame _ key _
    (List.append_ne_nil_of_right_ne_nil _ (List.cons_ne_nil _ _))).2.2

theorem Represents.write (hr : Represents h s.backend) (key : Bytes) (v : Option Bytes)
    (hv : ∀ r, stampVersion (r, v) = ⟨⟨r, 0⟩, value, deleted⟩)
    (he : ∀ r, stampEvent r (key, v) = ⟨type, key, value, ⟨r, 0⟩⟩) :
    Represents (h ++ [(key, v)]) (s.write type key value deleted).1.backend := by
  have hcur : (s.write type key value deleted).1.backend.currentRev = h.length + 1 := by
    rw [KVStore.write_frame.1, hr.currentRev]
  have hlt : s.backend.compactRev < (h.length : Int) + 1 := by
    have := hr.compact_le
    have := hr.currentRev
    omega
  refine ⟨write_indexed hr.toIndexed, ?_, ?_, ?_, ?_, ?_⟩
  · rw [hcur, List.length_append]
    rfl
  · rw [write_compactRev]
    exact hr.compact_nonneg
  · rw [write_compactRev, hcur]
    exact Int.le_of_lt hlt
  · intro k
    have hk : (s.write type key value deleted).1.backend.versions k = if k = key then
        s.backend.versions key ++ [⟨⟨s.backend.currentRev + 1, 0⟩, value, deleted⟩]
      else s.backend.versions k := KVStore.write_versions
    rw [hk, write_compactRev, versions_concat]
    split
    · rename_i hkk
      subst hkk
      have hkeep : retain Prod.fst s.backend.compactRev
          (Versioned.versions h k ++ [((h.length : Int) + 1, v)]) =
          retain Prod.fst s.backend.compactRev (Versioned.versions h k) ++
            [((h.length : Int) + 1, v)] :=
        retain_concat _ hlt
      rw [hkeep, List.map_append, ← hr.versions, List.map_singleton, hv, hr.currentRev]
    · exact hr.versions k
  · rw [KVStore.write_frame.2, write_compactRev, eventsOf_concat, List.filter_append, hr.events,
      hr.currentRev, he]
    simp only [List.filter_cons, hlt, decide_true, if_true, List.filter_nil]

theorem Represents.compact (hr : Represents h s.backend) (rev : Int) :
    Represents h (s.compact rev).1.backend := by
  unfold KVStore.compact
  split
  · exact hr
  · rename_i hrev
    rw [MemoryBackend.rangeKeys_nil hr.sorted]
    have hc := MemoryBackend.compactKeys_spec hr.increasing rev s.backend.sortedKeys
    generalize s.backend.sortedKeys.foldl (fun b key => b.compactKey rev key) s.backend = b at hc
    have hlo : s.backend.compactRev ≤ rev := by omega
    have hversions (key : Bytes) : b.versions key =
        retain (fun v => v.rev.main) rev (s.backend.versions key) := by
      rw [hc.versions]
      split
      · rfl
      · -- a key that is not in the index has no versions
        rename_i hk
        have hnil : s.backend.versions key = [] := by
          by_contra hne
          exact hk ((hr.mem key).mpr (MemoryBackend.mem_data_iff.mpr hne))
        rw [hnil]
        rfl
    refine ⟨⟨hc.sortedKeys ▸ hr.sorted, fun k => ?_⟩, hc.currentRev.trans hr.currentRev, ?_, ?_,
      fun k => ?_, ?_⟩
    · rw [hc.sortedKeys, hr.mem, MemoryBackend.mem_data_iff]
      have hk : b.versions k ≠ [] ↔ k ∈ b.data := MemoryBackend.mem_data_iff.symm
      rw [hversions, ne_eq, retain_eq_nil] at hk
      exact hk
    · exact Int.le_trans hr.compact_nonneg hlo
    · rw [hc.currentRev]
      exact Int.not_lt.mp (not_or.mp hrev).2
    · change b.versions k = _
      rw [hversions, hr.versions_eq, retain_retain hlo, retain_map]
      rfl
    · change b.events.filter _ = _
      rw [hc.events, hr.events, List.filter_filter]
      congr 1
      funext ev
      simp only [Bool.and_eq_left_iff_imp, decide_eq_true_eq]
      omega

theorem bindKeyToLease_backend : (s.bindKeyToLease key leaseID).backend = s.backend := by
  unfold KVStore.bindKeyToLease
  cases s.keyLease.lookup key with
  | none => rfl
  | some oldLeaseID =>
    dsimp only
    split <;> rfl

theorem Represents.putLocked (hr : Represents h s.backend) (key value : Bytes) :
    Represents (h ++ [(key, some value)]) (s.putLocked key value).1.backend :=
  hr.write key (some value) (fun _ => rfl) fun _ => rfl

theorem Represents.deleteLocked (hr : Represents h s.backend) (key : Bytes) :
    Represents (h ++ [(key, none)]) (s.deleteLocked key).1.backend := by
  unfold KVStore.deleteLocked
  rw [KVStore.detachKey_backend]
  exact hr.write key none (fun _ => rfl) fun _ => rfl

theorem Represents.deleteAll (hr : Represents h s.backend) (keys : List Bytes) :
    Represents (h ++ keys.map (·, none)) (s.deleteAll keys).1.backend := by
  induction keys generalizing s h with
  | nil => rwa [List.map_nil, List.append_nil]
  | cons key keys ih =>
    have hstep := ih (hr.deleteLocked key)
    rwa [List.append_assoc] at hstep

end

def Operation.mutation (op : Operation) : Option Mutation :=
  match op.type with
  | .put => some (op.key, some op.value)
  | .delete => some (op.key, none)
  | .get | .other _ => none

/-- The mutations an operation performs on a store, in their order. -/
def KVStore.mutations (s : KVStore) : StoreOp → List Mutation
  | .put now key value leaseID =>
    if leaseID ≠ 0 then
      match s.lookupLease now leaseID with
      | .error _ => []
      | .ok _ => [(key, some value)]
    else [(key, some value)]
  | .delete key => [(key, none)]
  | .txn now t =>
    match s.checkLeases now (leaseIDs (s.txnOps t)) with
    | .error _ => []
    | .ok _ => (s.txnOps t).filterMap Operation.mutation
  | .leaseRevoke leaseID keys =>
    match s.leases.lookup leaseID with
    | none => []
    | some _ => keys.map (·, none)
  | .leaseGrant .. | .leaseKeepAlive .. | .compact _ => []

section

variable {h : List Mutation} {s s' : KVStore}

theorem Represents.txnOp (hr : Represents h s.backend) (op : Operation) :
    Represents (h ++ op.mutation.toList) (s.txnOp op).1.backend := by
  unfold KVStore.txnOp Operation.mutation
  cases op.type with
  | get =>
    dsimp only
    rw [Option.toList_none, List.append_nil]
    split <;> exact hr
  | put =>
    dsimp only
    split
    · rw [bindKeyToLease_backend]
      exact hr.putLocked op.key op.value
    · rw [KVStore.detachKey_backend]
      exact hr.putLocked op.key op.value
  | delete => exact hr.deleteLocked op.key
  | other type => rwa [Option.toList_none, List.append_nil]

theorem Represents.runOps (hr : Represents h s.backend) (ops : List Operation) :
    Represents (h ++ ops.filterMap Operation.mutation) (s.runOps ops).1.backend := by
  induction ops generalizing s h with
  | nil => rwa [List.filterMap_nil, List.append_nil]
  | cons op ops ih =>
    have hstep := ih (hr.txnOp op)
    have hcons : (op :: ops).filterMap Operation.mutation =
        op.mutation.toList ++ ops.filterMap Operation.mutation := by
      rw [List.filterMap_cons]
      cases op.mutation <;> rfl
    rwa [hcons, ← List.append_assoc]

/-- Every operation extends the history by its mutations. -/
theorem Represents.apply (hr : Represents h s.backend) (hs : s.apply op = some s') :
    Represents (h ++ s.mutations op) s'.backend := by
  cases op with
  | put now key value leaseID =>
    obtain rfl := Option.some.inj hs
    unfold KVStore.mutations KVStore.put
    dsimp only
    split
    · cases s.lookupLease now leaseID with
      | error e => rwa [List.append_nil]
      | ok lease =>
        dsimp only [KVStore.send]
        rw [bindKeyToLease_backend]
        exact hr.putLocked key value
    · dsimp only [KVStore.send]
      rw [KVStore.detachKey_backend]
      exact hr.putLocked key value
  | delete key =>
    obtain rfl := Option.some.inj hs
    exact hr.deleteLocked key
  | txn now t =>
    obtain rfl := Option.some.inj hs
    unfold KVStore.mutations KVStore.txn
    dsimp only
    cases s.checkLeases now (KVStore.leaseIDs (s.txnOps t)) with
    | error e => rwa [List.append_nil]
    | ok u => exact hr.runOps (s.txnOps t)
  | leaseGrant now ttl =>
    obtain rfl := Option.some.inj hs
    rwa [KVStore.mutations, List.append_nil]
  | leaseKeepAlive now leaseID =>
    obtain rfl := Option.some.inj hs
    rw [KVStore.mutations, List.append_nil, KVStore.leaseKeepAlive]
    split <;> exact hr
  | leaseRevoke leaseID keys =>
    rw [KVStore.apply] at hs
    split at hs
    · obtain rfl := Option.some.inj hs
      unfold KVStore.mutations KVStore.leaseRevoke
      dsimp only
      cases s.leases.lookup leaseID with
      | none => rwa [List.append_nil]
      | some lease =>
        have hr' : Represents h { s with leases := s.leases.erase leaseID }.backend := hr
        exact hr'.deleteAll keys
    · cases hs
  | compact rev =>
    obtain rfl := Option.some.inj hs
    rw [KVStore.mutations, List.append_nil]
    exact hr.compact rev

/-- A store with the mutations performed on it so far. -/
def KVStore.track (x : KVStore × List Mutation) (op : StoreOp) : Option (KVStore × List Mutation) :=
  (x.1.apply op).map fun s => (s, x.2 ++ x.1.mutations op)

/-- The store, after the mutations, as operations on a fresh one leave it. -/
abbrev KVStore.Tracked : KVStore × List Mutation → Prop :=
  Consensus.ReachableBy KVStore.track (fun _ _ => True) (.new, [])

theorem KVStore.track_eq_some {x x' : KVStore × List Mutation} (h : track x op = some x') :
    x.1.apply op = some x'.1 ∧ x'.2 = x.2 ++ x.1.mutations op := by
  obtain ⟨s, hs, rfl⟩ := Option.map_eq_some_iff.mp h
  exact ⟨hs, rfl⟩

theorem KVStore.Tracked.represents {x : KVStore × List Mutation} (h : Tracked x) :
    Represents x.2 x.1.backend := by
  induction h with
  | init => exact represents_new
  | step _ _ hs ih =>
    obtain ⟨happ, hm⟩ := track_eq_some hs
    rw [hm]
    exact ih.apply happ

/-- What `Get` says: the value of the key, or that there is none. -/
def KVStore.value (s : KVStore) (key : Bytes) (rev : Int) : Option Bytes :=
  let out := s.get key rev
  if out.2.2 then some out.1 else none

end

end LinKV

import LinKV.Mvcc.Snapshot
import LinKV.Mvcc.Refinement

namespace LinKV
set_option autoImplicit true

open Versioned

section

variable {K V : Type} [DecidableEq K] {m acc : GoMap K V} {f : α → K} {g : α → V} {l : List α}

theorem GoMap.lookup_foldl_insert (hl : ∀ x ∈ l, m.lookup (f x) = some (g x)) (k : K) :
    (l.foldl (fun m x => m.insert (f x) (g x)) acc).lookup k =
      if ∃ x ∈ l, f x = k then m.lookup k else acc.lookup k := by
  induction l generalizing acc with
  | nil => simp only [List.foldl_nil, List.not_mem_nil, false_and, exists_false, if_false]
  | cons x l ih =>
    rw [List.foldl_cons, ih fun y hy => hl y (List.mem_cons_of_mem x hy)]
    by_cases hk : k = f x
    · subst hk
      have hx := hl x List.mem_cons_self
      have hpos : ∃ y ∈ x :: l, f y = f x := ⟨x, List.mem_cons_self, rfl⟩
      simp only [if_pos hpos, Finmap.lookup_insert, hx, ite_self]
    · have hcons : (∃ y ∈ x :: l, f y = k) ↔ ∃ y ∈ l, f y = k := by
        simp only [List.mem_cons, exists_eq_or_imp, Ne.symm hk, false_or]
      rw [Finmap.lookup_insert_of_ne _ hk]
      simp only [hcons]

theorem GoMap.foldl_insert_eq (hl : ∀ x ∈ l, m.lookup (f x) = some (g x))
    (hall : ∀ k ∈ m, ∃ x ∈ l, f x = k) : l.foldl (fun m x => m.insert (f x) (g x)) ∅ = m := by
  apply Finmap.ext_lookup
  intro k
  rw [lookup_foldl_insert hl]
  split
  · rfl
  · rename_i hk
    rw [Finmap.lookup_empty, Finmap.lookup_eq_none.mpr (mt (hall k) hk)]

end

theorem foldl_max_le_iff {l : List Int} {a m : Int} :
    l.foldl max a ≤ m ↔ a ≤ m ∧ ∀ x ∈ l, x ≤ m := by
  induction l generalizing a with
  | nil => simp only [List.foldl_nil, List.not_mem_nil, false_imp_iff, implies_true, and_true]
  | cons x l ih => simp only [List.foldl_cons, ih, Int.max_le, List.forall_mem_cons, and_assoc]

theorem foldl_max_eq {l : List Int} {a m : Int} (ha : a ≤ m) (hm : m ∈ l)
    (hle : ∀ x ∈ l, x ≤ m) : l.foldl max a = m :=
  Int.le_antisymm (foldl_max_le_iff.mpr ⟨ha, hle⟩) ((foldl_max_le_iff.mp (Int.le_refl _)).2 m hm)

@[simp] theorem mem_sortStrings {keys : Finset Bytes} : k ∈ sortStrings keys ↔ k ∈ keys :=
  Finset.mem_sort _

theorem sortStrings_sorted (keys : Finset Bytes) : (sortStrings keys).Pairwise (· < ·) := by
  have hle : (sortStrings keys).Pairwise (· ≤ ·) := Finset.pairwise_sort keys _
  have hne : (sortStrings keys).Pairwise (· ≠ ·) := Finset.sort_nodup keys _
  refine (hle.and hne).imp fun {a b} h => ?_
  by_contra hc
  exact h.2 (List.le_antisymm h.1 (List.not_lt.mp hc))

theorem Revision.le_of_lt {a b : Revision} (h : a.main < b.main) : a.le b := by
  rw [Revision.le, if_pos (by omega)]
  exact h

theorem Versions.sorted_eq {versions : Versions} (h : Increasing versions.list) :
    versions.sorted = versions := by
  obtain ⟨l, hl⟩ := versions
  have he : l.insertionSort (fun v w => v.rev.le w.rev) = l :=
    (h.imp Revision.le_of_lt).insertionSort_eq
  simp only [Versions.sorted, he]

/-- Two stores with the same contents; the key index and what has been sent to the dispatcher
aside. -/
structure KVStore.SameContents (s t : KVStore) : Prop where
  versions : ∀ key, s.versions key = t.versions key
  events : s.backend.events = t.backend.events
  currentRev : s.backend.currentRev = t.backend.currentRev
  compactRev : s.backend.compactRev = t.backend.compactRev
  leases : s.leases = t.leases
  keyLease : s.keyLease = t.keyLease
  nextLeaseID : s.nextLeaseID = t.nextLeaseID

/-- Every lease is under its own ID, and IDs are positive. -/
structure KVStore.LeasesNamed (s : KVStore) : Prop where
  nonneg : 0 ≤ s.nextLeaseID
  id : ∀ leaseID lease, s.leases.lookup leaseID = some lease → lease.id = leaseID ∧ 0 < leaseID

/-- The expiry times that fit an `int64`. -/
def KVStore.InRange (s : KVStore) : Prop :=
  ∀ leaseID lease, s.leases.lookup leaseID = some lease →
    -2 ^ 63 ≤ lease.expireAt ∧ lease.expireAt < 2 ^ 63

/-- Something has been written, and compaction has not dropped a version. -/
structure KVStore.Complete (s : KVStore) : Prop where
  written : 0 < s.backend.currentRev
  kept : ∀ r, 1 ≤ r → r ≤ s.backend.compactRev → ∃ key, ∃ v ∈ s.versions key, v.rev.main = r

section

variable {h : List Mutation} {s t : KVStore} {order : List Int} {key : Bytes} {r : Int}

theorem restoreLeases_concat {lease : Lease} (hpos : 0 < lease.id) (leases : List LeaseMessage) :
    restoreLeases (leases ++ [lease.message]) = (restoreLeases leases).insert lease.id
      { lease with expireAt := wrap64 lease.expireAt } := by
  have hkeys : (sortStrings lease.keys).toFinset = lease.keys := Finset.sort_toFinset _ _
  rw [restoreLeases, List.foldl_append, ← restoreLeases, List.foldl_cons, List.foldl_nil]
  change (if lease.id ≤ 0 then _ else _) = _
  rw [if_neg (Int.not_le.mpr hpos), Lease.message, hkeys]

/-- A restored lease is the old one but for what `UnixNano` makes of its expiry. -/
theorem restoreLeases_lookup (hn : s.LeasesNamed) (order : List Int) (leaseID : Int) :
    (restoreLeases (s.snapshot order).leases).lookup leaseID =
      if leaseID ∈ order then (s.leases.lookup leaseID).map fun lease =>
        { lease with expireAt := wrap64 lease.expireAt } else none := by
  dsimp only [KVStore.snapshot]
  induction order using List.reverseRecOn with
  | nil =>
    rw [if_neg List.not_mem_nil]
    exact Finmap.lookup_empty leaseID
  | append_singleton order i ih =>
    rw [List.filterMap_append]
    cases hl : s.leases.lookup i with
    | none =>
      rw [List.filterMap_cons_none (by rw [hl]; rfl), List.filterMap_nil, List.append_nil, ih]
      by_cases hi : leaseID = i
      · rw [hi, hl, Option.map_none, ite_self, ite_self]
      · simp only [List.mem_append, List.mem_singleton, hi, or_false]
    | some lease =>
      obtain ⟨rfl, hpos⟩ := hn.id i lease hl
      rw [List.filterMap_cons_some (by rw [hl]; rfl), List.filterMap_nil,
        restoreLeases_concat hpos]
      by_cases hi : leaseID = lease.id
      · rw [if_pos (List.mem_append_right order (List.mem_singleton.mpr hi)), hi,
          Finmap.lookup_insert, hl]
        rfl
      · rw [Finmap.lookup_insert_of_ne _ hi, ih]
        simp only [List.mem_append, List.mem_singleton, hi, or_false]

theorem restoreLeases_lookup_eq (hn : s.LeasesNamed) (ho : RangeOrder order s.leases.keys)
    (leaseID : Int) : (restoreLeases (s.snapshot order).leases).lookup leaseID =
      (s.leases.lookup leaseID).map fun lease =>
        { lease with expireAt := wrap64 lease.expireAt } := by
  rw [restoreLeases_lookup hn]
  split
  · rfl
  · rename_i hid
    have hout : leaseID ∉ s.leases := fun hmem => hid (ho.mem.2 (Finmap.mem_keys.2 hmem))
    rw [Finmap.lookup_eq_none.2 hout, Option.map_none]

theorem restoreLeases_snapshot (hn : s.LeasesNamed) (hr : s.InRange)
    (ho : RangeOrder order s.leases.keys) :
    restoreLeases (s.snapshot order).leases = s.leases := by
  apply Finmap.ext_lookup
  intro leaseID
  rw [restoreLeases_lookup_eq hn ho]
  cases hl : s.leases.lookup leaseID with
  | none => rfl
  | some lease =>
    obtain ⟨hlo, hhi⟩ := hr leaseID lease hl
    rw [Option.map_some, wrap64_of_range hlo hhi]

theorem restoreData_snapshot (hs : ∀ key, Increasing (s.versions key)) (order : List Int) :
    restoreData (s.snapshot order).entries = s.backend.data := by
  have hmem (e : KeyEntry) (he : e ∈ (s.snapshot order).entries) :
      s.backend.data.lookup e.key = some e.revisions := by
    obtain ⟨key, -, he⟩ := List.mem_filterMap.mp he
    obtain ⟨versions, hlook, rfl⟩ := Option.map_eq_some_iff.mp he
    have hv : s.versions key = versions.list := MemoryBackend.getRevisions_eq_some hlook
    rw [Versions.sorted_eq (hv ▸ hs key)]
    exact hlook
  apply GoMap.foldl_insert_eq hmem
  intro key hin
  obtain ⟨versions, hlook⟩ := Option.isSome_iff_exists.mp (Finmap.lookup_isSome.mpr hin)
  refine ⟨⟨key, versions.sorted⟩, List.mem_filterMap.mpr ⟨key, ?_, ?_⟩, rfl⟩
  · exact mem_sortStrings.mpr (Finmap.mem_keys.mpr hin)
  · rw [hlook, Option.map_some]

theorem mem_mains (order : List Int) : r ∈ (s.snapshot order).mains ↔
    ∃ key, ∃ v ∈ s.versions key, v.rev.main = r := by
  constructor
  · intro hr
    obtain ⟨e, he, hr⟩ := List.mem_flatMap.mp hr
    obtain ⟨v, hv, rfl⟩ := List.mem_map.mp hr
    obtain ⟨key, -, he⟩ := List.mem_filterMap.mp he
    obtain ⟨versions, hlook, rfl⟩ := Option.map_eq_some_iff.mp he
    have hkey : s.versions key = versions.list := MemoryBackend.getRevisions_eq_some hlook
    exact ⟨key, v, hkey ▸ (List.mem_insertionSort _).mp hv, rfl⟩
  · rintro ⟨key, v, hv, rfl⟩
    have hin : key ∈ s.backend.data :=
      MemoryBackend.mem_data_iff.mpr (List.ne_nil_of_mem hv)
    obtain ⟨versions, hlook⟩ := Option.isSome_iff_exists.mp (Finmap.lookup_isSome.mpr hin)
    have hkey : s.versions key = versions.list := MemoryBackend.getRevisions_eq_some hlook
    refine List.mem_flatMap.mpr ⟨⟨key, versions.sorted⟩, List.mem_filterMap.mpr ⟨key, ?_, ?_⟩, ?_⟩
    · exact mem_sortStrings.mpr (Finmap.mem_keys.mpr hin)
    · rw [hlook, Option.map_some]
    · exact List.mem_map_of_mem ((List.mem_insertionSort _).mpr (hkey ▸ hv))

theorem accepted_iff (hr : Represents h s.backend) (order : List Int) :
    (s.snapshot order).accepted = true ↔ s.Complete := by
  have hcur : (s.snapshot order).currentRev = s.backend.currentRev := rfl
  have hpos : 0 ≤ s.backend.currentRev := Int.le_trans hr.compact_nonneg hr.compact_le
  have hle : ∀ x ∈ (s.snapshot order).mains, 1 ≤ x ∧ x ≤ s.backend.currentRev := by
    intro x hx
    obtain ⟨key, v, hv, rfl⟩ := (mem_mains order).mp hx
    exact hr.bounds hv
  have hentries : (s.snapshot order).entries ≠ [] ↔ 0 < s.backend.currentRev := by
    constructor
    · intro hne
      obtain ⟨e, he⟩ := List.exists_mem_of_ne_nil _ hne
      obtain ⟨v, hv⟩ := List.exists_mem_of_ne_nil _ e.revisions.ne_nil
      have := hle v.rev.main (List.mem_flatMap.mpr ⟨e, he, List.mem_map_of_mem hv⟩)
      omega
    · intro hpos hnil
      have hlast := (mem_mains order).mpr (hr.last_version hpos)
      rw [SnapshotMessage.mains, hnil] at hlast
      cases hlast
  by_cases hw : 0 < s.backend.currentRev
  · have hmax : (s.snapshot order).mains.foldl max 0 = s.backend.currentRev :=
      foldl_max_eq hpos ((mem_mains order).mpr (hr.last_version hw)) fun x hx => (hle x hx).2
    simp only [SnapshotMessage.accepted, hmax, hcur, hentries, hw, decide_true, Bool.and_true,
      Bool.and_eq_true, decide_eq_true_eq, Int.not_lt.mpr hpos, not_false_eq_true, List.all_eq_true,
      List.mem_range, mem_mains, true_and]
    constructor
    · intro hall
      refine ⟨hw, fun r hlo hhi => ?_⟩
      have hle' := hr.compact_le
      obtain ⟨key, v, hv, hmain⟩ := hall (r - 1).toNat (by omega)
      exact ⟨key, v, hv, by omega⟩
    · intro hc i hi
      by_cases hcomp : (i : Int) + 1 ≤ s.backend.compactRev
      · exact hc.kept _ (by omega) hcomp
      · exact hr.present (by omega) (by omega)
  · constructor
    · intro hacc
      simp only [SnapshotMessage.accepted, hentries, hw, decide_false, Bool.and_false,
        Bool.false_and, Bool.false_eq_true] at hacc
    · exact fun hc => absurd hc.written hw

theorem eventsOf_pairwise (h : List Mutation) :
    (eventsOf h).Pairwise fun v w => v.rev.main < w.rev.main := by
  rw [List.pairwise_iff_getElem]
  intro i j hi hj hij
  simp only [eventsOf, List.getElem_mapIdx, stampEvent]
  omega

theorem Represents.events_sorted (hr : Represents h s.backend) :
    s.backend.events.Pairwise fun v w => v.rev.le w.rev := by
  rw [hr.events]
  exact ((eventsOf_pairwise h).filter _).imp Revision.le_of_lt

/-- What `Restore` does with the snapshot of a store. -/
theorem restore_cases (hr : Represents h s.backend) (t : KVStore) (order : List Int) :
    (¬ s.Complete ∧ t.restore (s.snapshot order) = t) ∨
    (s.Complete ∧ t.restore (s.snapshot order) = { t with
      backend := { s.backend with sortedKeys := sortStrings s.backend.data.keys }
      keyLease := s.keyLease
      nextLeaseID := s.nextLeaseID
      leases := restoreLeases (s.snapshot order).leases }) := by
  have hev : (s.snapshot order).events = s.backend.events := hr.events_sorted.insertionSort_eq
  by_cases hc : s.Complete
  · right
    rw [KVStore.restore, if_pos ((accepted_iff hr order).mpr hc),
      restoreData_snapshot hr.increasing, hev]
    exact ⟨hc, rfl⟩
  · left
    rw [KVStore.restore, if_neg (mt (accepted_iff hr order).mp hc)]
    exact ⟨hc, rfl⟩

end

end LinKV

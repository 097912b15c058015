import LinKV.Mvcc.Reachable

namespace LinKV
set_option autoImplicit true

/-- How the parts of a store fit together. -/
structure KVStore.Consistent (s : KVStore) : Prop where
  compact_le : s.backend.compactRev ≤ s.backend.currentRev
  versions : ∀ key versions, s.backend.data.lookup key = some versions →
    versions.list ≠ [] ∧ versions.list.Pairwise (fun v w => v.rev.main < w.rev.main) ∧
    ∀ v ∈ versions.list, 1 ≤ v.rev.main ∧ v.rev.main ≤ s.backend.currentRev
  one_key : ∀ r, s.backend.compactRev < r → r ≤ s.backend.currentRev →
    ∃! key, ∃ v ∈ s.versions key, v.rev.main = r
  event_revs : s.backend.events.map (fun ev => ev.rev.main) =
    (List.range (s.backend.currentRev - s.backend.compactRev).toNat).map
      fun i : Nat => s.backend.compactRev + 1 + i
  events_agree : ∀ ev ∈ s.backend.events, ∃ v ∈ s.versions ev.key,
    v.rev = ev.rev ∧ v.value = ev.value ∧ (v.deleted = true ↔ ev.type = .delete)
  keys_sorted : s.backend.sortedKeys.Pairwise (· < ·)
  keys_mem : ∀ key, key ∈ s.backend.sortedKeys ↔ key ∈ s.backend.data

section

variable {h : List Mutation} {s : KVStore} {ev : MvccEvent}

theorem mem_eventsOf (hev : ev ∈ eventsOf h) :
    ∃ (i : Nat) (m : Mutation), h[i]? = some m ∧ ev = stampEvent ((i : Int) + 1) m := by
  obtain ⟨i, hi, rfl⟩ := List.getElem_of_mem hev
  rw [eventsOf, List.length_mapIdx] at hi
  exact ⟨i, h[i], List.getElem?_eq_getElem hi, List.getElem_mapIdx⟩

theorem filter_eventsOf (h : List Mutation) (c : Nat) :
    (eventsOf h).filter (fun ev => (c : Int) < ev.rev.main) = (eventsOf h).drop c := by
  have hget (i : Nat) (hi : i < (eventsOf h).length) :
      (eventsOf h)[i].rev.main = (i : Int) + 1 := by
    simp only [eventsOf, List.getElem_mapIdx, stampEvent]
  have hlo : ((eventsOf h).take c).filter (fun ev => (c : Int) < ev.rev.main) = [] := by
    refine List.filter_eq_nil_iff.mpr fun ev hev => ?_
    obtain ⟨i, hi, rfl⟩ := List.mem_take_iff_getElem.mp hev
    rw [hget i (by omega), decide_eq_true_eq]
    omega
  have hhi : ((eventsOf h).drop c).filter (fun ev => (c : Int) < ev.rev.main) =
      (eventsOf h).drop c := by
    refine List.filter_eq_self.mpr fun ev hev => ?_
    obtain ⟨i, hi, rfl⟩ := List.mem_drop_iff_getElem.mp hev
    rw [hget _ (by omega), decide_eq_true_eq]
    omega
  conv_lhs => rw [← List.take_append_drop c (eventsOf h)]
  rw [List.filter_append, hlo, hhi, List.nil_append]

theorem Represents.event_revs (hr : Represents h s.backend) :
    s.backend.events.map (fun ev => ev.rev.main) =
      (List.range (s.backend.currentRev - s.backend.compactRev).toNat).map
        fun i : Nat => s.backend.compactRev + 1 + i := by
  have hcur := hr.currentRev
  have hle := hr.compact_le
  obtain ⟨c, hc⟩ := Int.eq_ofNat_of_zero_le hr.compact_nonneg
  have hev : s.backend.events = (eventsOf h).drop c := by
    rw [hr.events, hc]
    exact filter_eventsOf h c
  rw [hev, hc]
  apply List.ext_getElem
  · simp only [List.length_map, List.length_drop, eventsOf, List.length_mapIdx, List.length_range]
    omega
  · intro i hi hi'
    simp only [List.getElem_map, List.getElem_drop, List.getElem_range, eventsOf,
      List.getElem_mapIdx, stampEvent]
    omega

theorem Represents.one_key (hr : Represents h s.backend) (hlo : s.backend.compactRev < r)
    (hhi : r ≤ s.backend.currentRev) : ∃! key, ∃ v ∈ s.versions key, v.rev.main = r := by
  obtain ⟨key, v, hv, hmain⟩ := hr.present hlo hhi
  refine ⟨key, ⟨v, hv, hmain⟩, fun key' ⟨v', hv', hmain'⟩ => ?_⟩
  obtain ⟨i, hi, m, hm, -⟩ := hr.mem_versions hv
  obtain ⟨i', hi', m', hm', -⟩ := hr.mem_versions hv'
  have hii : i' = i := by
    rw [hi] at hmain
    rw [hi'] at hmain'
    dsimp only at hmain hmain'
    omega
  rw [hii, hm] at hm'
  exact (congrArg Prod.fst (Option.some.inj hm')).symm

theorem Represents.events_agree (hr : Represents h s.backend) (hev : ev ∈ s.backend.events) :
    ∃ v ∈ s.versions ev.key,
      v.rev = ev.rev ∧ v.value = ev.value ∧ (v.deleted = true ↔ ev.type = .delete) := by
  rw [hr.events] at hev
  obtain ⟨hmem, hlo⟩ := List.mem_filter.mp hev
  obtain ⟨i, m, hi, rfl⟩ := mem_eventsOf hmem
  refine ⟨_, hr.version_of hi (of_decide_eq_true hlo), rfl, rfl, ?_⟩
  obtain ⟨key, _ | v⟩ := m
  · exact ⟨fun _ => rfl, fun _ => rfl⟩
  · exact ⟨fun hd => (nomatch hd), fun hd => (nomatch hd)⟩

theorem store_consistent (hs : s.Reachable) : s.Consistent := by
  obtain ⟨-, h, hr⟩ := hs.represents
  refine ⟨hr.compact_le, fun key versions hlook => ?_, fun r => hr.one_key, hr.event_revs,
    fun ev => hr.events_agree, hr.sorted, hr.mem⟩
  have hv : s.backend.versions key = versions.list := MemoryBackend.getRevisions_eq_some hlook
  exact ⟨versions.ne_nil, hv ▸ hr.increasing key, fun v hmem => hr.bounds (hv ▸ hmem)⟩

/-- The store of the round trip, restored over the one that has lost a version. -/
theorem store_consistent_restored :
    (rewritten.restore (leasedKey.snapshot [1])).Consistent ∧
      (rewritten.restore (leasedKey.snapshot [1])).backend.currentRev = 1 := by
  refine ⟨store_consistent ?_, by decide +kernel⟩
  exact .restore rewritten_reachable leasedKey_reachable (by decide +kernel)

end

end LinKV

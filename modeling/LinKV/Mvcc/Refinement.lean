import LinKV.Mvcc.History

namespace LinKV
set_option autoImplicit true

open Versioned

section

variable {h : List Mutation} {s : KVStore} {key : Bytes} {rev : Int}

theorem stampVersion_value (o : Option (Int × Option Bytes)) :
    ((o.map stampVersion).filter fun v => ¬ v.deleted).map ValueRevision.value =
      (o.map Prod.snd).getD none := by
  rcases o with _ | ⟨i, _ | v⟩ <;> rfl

theorem KVStore.value_eq (hs : Increasing (s.versions key))
    (hrev : rev = 0 ∨ s.backend.compactRev < rev) :
    s.value key rev = ((latest (fun v => v.rev.main)
      (if rev = 0 then s.backend.currentRev else rev) (s.versions key)).filter
        fun v => ¬ v.deleted).map ValueRevision.value := by
  unfold KVStore.value KVStore.get
  cases hg : s.backend.getRevisions key with
  | none =>
    have hnil : s.versions key = [] := by
      rw [versions, hg]
      rfl
    rw [hnil]
    rfl
  | some versions =>
    have hv : s.versions key = versions.list := MemoryBackend.getRevisions_eq_some hg
    have hok : ¬ (rev ≠ 0 ∧ rev ≤ s.backend.compactRev) := by omega
    rw [hv] at hs ⊢
    dsimp only
    rw [if_neg hok, latestVisibleRevision_eq hs]
    cases (latest (fun v => v.rev.main) (if rev = 0 then s.backend.currentRev else rev)
      versions.list).filter fun v => ¬ v.deleted <;> rfl

/-- At a revision that is not compacted, `Get` returns what the mutations up to it left. -/
theorem Represents.value_eq (hr : Represents h s.backend)
    (hrev : rev = 0 ∨ s.backend.compactRev < rev) : s.value key rev =
      replay none (h.take (if rev = 0 then s.backend.currentRev else rev).toNat) key := by
  have hpos : 0 ≤ (if rev = 0 then s.backend.currentRev else rev) ∧
      s.backend.compactRev ≤ (if rev = 0 then s.backend.currentRev else rev) := by
    have := hr.compact_nonneg
    have := hr.compact_le
    split <;> omega
  rw [KVStore.value_eq (hr.increasing key) hrev]
  generalize (if rev = 0 then s.backend.currentRev else rev) = r at hpos
  obtain ⟨n, rfl⟩ := Int.eq_ofNat_of_zero_le hpos.1
  have hv : s.versions key = _ := hr.versions key
  rw [hv, latest_map, stampVersion_value, Int.toNat_natCast]
  exact latest_retain_versions none h key hpos.2

theorem Represents.value_zero (hr : Represents h s.backend) (key : Bytes) : s.value key 0 =
    ((s.versions key).getLast?.filter fun v => ¬ v.deleted).map ValueRevision.value := by
  have hall : (s.versions key).filter (fun v => v.rev.main ≤ s.backend.currentRev) =
      s.versions key :=
    List.filter_eq_self.mpr fun v hv => decide_eq_true (hr.bounds hv).2
  rw [KVStore.value_eq (hr.increasing key) (.inl rfl), if_pos rfl, latest, hall]

theorem KVStore.track_extends {x y : KVStore × List Mutation}
    (hy : Consensus.ReachableBy track (fun _ _ => True) x y) : x.2 <+: y.2 := by
  induction hy with
  | init => exact List.prefix_rfl
  | step _ _ hs ih =>
    obtain ⟨-, hm⟩ := track_eq_some hs
    rw [hm]
    exact ih.trans (List.prefix_append _ _)

/-- A store reads like the plain maps its mutations go through: at every revision that is not
compacted the map after that many mutations, at 0 the last one. No later operation changes what
is read at a revision it does not compact. -/
theorem get_refines_replay (ht : KVStore.Tracked (s, h)) (key : Bytes) :
    (∀ r, s.backend.compactRev < r → r ≤ s.backend.currentRev →
      s.value key r = replay none (h.take r.toNat) key) ∧
    s.value key 0 = replay none h key ∧
    ∀ s' h', Consensus.ReachableBy KVStore.track (fun _ _ => True) (s, h) (s', h') →
      ∀ r, s.backend.compactRev < r → r ≤ s.backend.currentRev → s'.backend.compactRev < r →
        s'.value key r = s.value key r := by
  have hr : Represents h s.backend := ht.represents
  have hread (r : Int) (hlo : s.backend.compactRev < r) :
      s.value key r = replay none (h.take r.toNat) key := by
    have hpos := hr.compact_nonneg
    rw [Represents.value_eq hr (.inr hlo), if_neg (by omega)]
  refine ⟨fun r hlo _ => hread r hlo, ?_, ?_⟩
  · have hlen : s.backend.currentRev.toNat = h.length := by
      have hcur : s.backend.currentRev = h.length := hr.currentRev
      omega
    rw [Represents.value_eq hr (.inl rfl), if_pos rfl, hlen, List.take_length]
  · intro s' h' hlater r hlo hhi hlo'
    have hr' : Represents h' s'.backend :=
      KVStore.Tracked.represents (Consensus.ReachableBy.trans ht hlater)
    have hpos := hr'.compact_nonneg
    obtain ⟨t, rfl⟩ : h <+: h' := KVStore.track_extends hlater
    have hcur : s.backend.currentRev = h.length := hr.currentRev
    rw [Represents.value_eq hr' (.inr hlo'), if_neg (by omega), hread r hlo,
      List.take_append_of_le_length (by omega)]

/-- A key written, deleted and written again, with a compaction in between: revision 3 is read
after the compaction at 2 as before. -/
theorem get_refines_replay_compacted : ∃ (s : KVStore) (h : List Mutation),
    KVStore.Tracked (s, h) ∧ s.backend.compactRev = 2 ∧ s.backend.currentRev = 4 ∧
    s.value [1] 3 = replay none (h.take 3) [1] ∧ replay none (h.take 3) [1] = none := by
  have hrun : Consensus.RunsTo KVStore.track (fun _ _ => True)
      (fun x => x.1.backend.compactRev = 2 ∧ x.1.backend.currentRev = 4 ∧
        replay none (x.2.take 3) [1] = none) (.new, [])
      [.put 0 [1] [5] 0, .put 0 [2] [6] 0, .delete [1], .put 0 [1] [7] 0, .compact 2] := by
    decide +kernel
  obtain ⟨⟨s, h⟩, ht, hc, hcur, hnone⟩ := hrun.reachable
  have hread := (get_refines_replay ht [1]).1 3 (by rw [hc]; decide) (by rw [hcur]; decide)
  exact ⟨s, h, ht, hc, hcur, hread, hnone⟩

end

end LinKV

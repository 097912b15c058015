import LinKV.Mvcc.RoundTrip
import LinKV.Mvcc.Changes

namespace LinKV
set_option autoImplicit true

open Versioned

/-- The stores that operations and restored snapshots of such stores lead to. -/
inductive KVStore.Reachable : KVStore → Prop
  | new : Reachable .new
  | op (op : StoreOp) : Reachable s → s.apply op = some s' → Reachable s'
  | restore : Reachable s → Reachable t → RangeOrder order t.leases.keys →
      Reachable (s.restore (t.snapshot order))

namespace KVStore

section

variable {s s' t : KVStore} {h : List Mutation} {key value : Bytes} {leaseID : Int}

theorem LeasesNamed.modify (hn : s.LeasesNamed) (leaseID : Int) (f : Lease → Lease)
    (hf : ∀ lease, (f lease).id = lease.id) :
    LeasesNamed { s with leases := s.leases.modify leaseID f } := by
  refine ⟨hn.nonneg, fun j lease hj => ?_⟩
  have hlook := GoMap.lookup_modify s.leases leaseID j f
  dsimp only at hj
  rw [hlook] at hj
  split at hj
  · rename_i hjl
    subst hjl
    obtain ⟨old, hold, rfl⟩ := Option.map_eq_some_iff.mp hj
    rw [hf]
    exact hn.id _ _ hold
  · exact hn.id _ _ hj

theorem LeasesNamed.insert (hn : s.LeasesNamed) (hpos : 0 < leaseID) {lease : Lease}
    (hid : lease.id = leaseID) (hnext : 0 ≤ next) :
    LeasesNamed { s with nextLeaseID := next, leases := s.leases.insert leaseID lease } := by
  refine ⟨hnext, fun j l hj => ?_⟩
  dsimp only at hj
  rcases eq_or_ne j leaseID with rfl | hne
  · rw [Finmap.lookup_insert] at hj
    obtain rfl := Option.some.inj hj
    exact ⟨hid, hpos⟩
  · rw [Finmap.lookup_insert_of_ne _ hne] at hj
    exact hn.id _ _ hj

theorem LeasesNamed.erase (hn : s.LeasesNamed) (leaseID : Int) :
    LeasesNamed { s with leases := s.leases.erase leaseID } := by
  refine ⟨hn.nonneg, fun j l hj => ?_⟩
  dsimp only at hj
  rcases eq_or_ne j leaseID with rfl | hne
  · rw [Finmap.lookup_erase] at hj
    cases hj
  · rw [Finmap.lookup_erase_ne hne] at hj
    exact hn.id _ _ hj

theorem LeasesNamed.change (hc : Change P s s') (hn : s.LeasesNamed) : s'.LeasesNamed := by
  cases hc with
  | edit hedit =>
    cases hedit with
    | write => exact ⟨hn.nonneg, hn.id⟩
    | removeLeaseKey => exact hn.modify _ _ fun _ => rfl
    | addLeaseKey hk => exact hn.modify _ _ fun _ => rfl
    | keyLease m => exact ⟨hn.nonneg, hn.id⟩
  | send evs => exact ⟨hn.nonneg, hn.id⟩
  | grant now ttl =>
    have hpos : 0 < s.nextLeaseID + 1 := Int.lt_add_one_of_le hn.nonneg
    exact hn.insert hpos rfl (Int.le_of_lt hpos)
  | renew t hl =>
    obtain ⟨hid, hpos⟩ := hn.id _ _ hl
    exact hn.insert hpos hid hn.nonneg
  | revoke leaseID => exact hn.erase leaseID
  | compact rev =>
    unfold KVStore.compact
    split
    · exact hn
    · exact ⟨hn.nonneg, hn.id⟩

theorem LeasesNamed.apply (hn : s.LeasesNamed) (hs : s.apply op = some s') :
    s'.LeasesNamed := (apply_changes op.keysIn_all hs).keeps LeasesNamed.change hn

theorem restoreLeases_id (leases : List LeaseMessage) (leaseID : Int) (lease : Lease)
    (hl : (restoreLeases leases).lookup leaseID = some lease) :
    lease.id = leaseID ∧ 0 < leaseID := by
  induction leases using List.reverseRecOn with
  | nil => cases hl
  | append_singleton leases l ih =>
    rw [restoreLeases, List.foldl_append] at hl
    dsimp only [List.foldl_cons, List.foldl_nil] at hl
    split at hl
    · exact ih hl
    · rename_i hpos
      rcases eq_or_ne leaseID l.id with rfl | hne
      · rw [Finmap.lookup_insert] at hl
        obtain rfl := Option.some.inj hl
        exact ⟨rfl, Int.not_le.mp hpos⟩
      · rw [Finmap.lookup_insert_of_ne _ hne] at hl
        exact ih hl

/-- The key index that `ReplaceState` rebuilds is the one of the data. -/
theorem represents_restored {b : MemoryBackend} (hr : Represents h b) :
    Represents h { b with sortedKeys := sortStrings b.data.keys } := by
  refine ⟨⟨sortStrings_sorted _, fun k => ?_⟩, hr.currentRev, hr.compact_nonneg, hr.compact_le,
    hr.versions, hr.events⟩
  rw [mem_sortStrings, Finmap.mem_keys]

theorem Reachable.represents (hs : s.Reachable) :
    s.LeasesNamed ∧ ∃ h, Represents h s.backend := by
  induction hs with
  | new => exact ⟨⟨Int.le_refl 0, fun _ _ hl => nomatch hl⟩, [], represents_new⟩
  | op _ _ happ ih =>
    obtain ⟨hn, h, hr⟩ := ih
    exact ⟨hn.apply happ, _, hr.apply happ⟩
  | restore _ _ ho ihs iht =>
    obtain ⟨hn, h, hr⟩ := iht
    rcases restore_cases hr _ _ with ⟨-, he⟩ | ⟨-, he⟩
    · exact he ▸ ihs
    · rw [he]
      exact ⟨⟨hn.nonneg, restoreLeases_id _⟩, h, represents_restored hr⟩

/-- What `Restore` makes of the snapshot of a store: its contents, if it accepts it. -/
theorem restore_contents (hr : Represents h s.backend) (hn : s.LeasesNamed) (hin : s.InRange)
    (ho : RangeOrder order s.leases.keys) (hc : s.Complete) (t : KVStore) :
    (t.restore (s.snapshot order)).SameContents s := by
  rcases restore_cases hr t order with ⟨hnot, -⟩ | ⟨-, he⟩
  · exact absurd hc hnot
  · rw [he, restoreLeases_snapshot hn hin ho]
    exact ⟨fun _ => rfl, rfl, rfl, rfl, rfl, rfl, rfl⟩

end

end KVStore

/-- A snapshot brings its store back exactly when something has been written to the store and
compaction has dropped no version of it; otherwise the other store stays as it was. -/
theorem snapshot_round_trip {s : KVStore} {order : List Int} (hs : s.Reachable) (hin : s.InRange)
    (ho : RangeOrder order s.leases.keys) (t : KVStore) :
    (t.restore (s.snapshot order)).SameContents s ↔ s.Complete ∨ t.SameContents s := by
  obtain ⟨hn, h, hr⟩ := hs.represents
  constructor
  · intro hsame
    rcases restore_cases hr t order with ⟨-, he⟩ | ⟨hc, -⟩
    · exact .inr (he ▸ hsame)
    · exact .inl hc
  · rintro (hc | ht)
    · exact KVStore.restore_contents hr hn hin ho hc t
    · rcases restore_cases hr t order with ⟨-, he⟩ | ⟨hc, -⟩
      · exact he.symm ▸ ht
      · exact KVStore.restore_contents hr hn hin ho hc t

/-- A lease of a minute, and nothing else. -/
def leaseOnly : KVStore := (KVStore.new.leaseGrant 0 60).1

theorem KVStore.inRange_of_one {s : KVStore} {lease : Lease}
    (he : s.leases = Finmap.insert i lease ∅) (hlo : -2 ^ 63 ≤ lease.expireAt)
    (hhi : lease.expireAt < 2 ^ 63) : s.InRange := by
  intro leaseID lease' hl
  rw [he] at hl
  rcases eq_or_ne leaseID i with rfl | hne
  · rw [Finmap.lookup_insert] at hl
    obtain rfl := Option.some.inj hl
    exact ⟨hlo, hhi⟩
  · rw [Finmap.lookup_insert_of_ne _ hne] at hl
    cases hl

theorem leaseOnly_reachable : leaseOnly.Reachable := .op (.leaseGrant 0 60) .new rfl

/-- A key written under the lease, and compacted at its only version. -/
def leasedKey : KVStore := ((leaseOnly.put 0 [1] [5] 1).1.compact 1).1

theorem leasedKey_reachable : leasedKey.Reachable :=
  .op (.compact 1) (.op (.put 0 [1] [5] 1) leaseOnly_reachable rfl) rfl

theorem snapshot_round_trip_leased : leasedKey.Reachable ∧ leasedKey.Complete ∧
    ∀ t : KVStore, (t.restore (leasedKey.snapshot [1])).SameContents leasedKey := by
  have hc : leasedKey.Complete := by
    refine ⟨by decide +kernel, fun r hlo hhi => ⟨[1], ⟨⟨1, 0⟩, [5], false⟩, by decide +kernel, ?_⟩⟩
    have hcomp : leasedKey.backend.compactRev = 1 := by decide +kernel
    rw [hcomp] at hhi
    exact Int.le_antisymm hlo hhi
  have hleases : leasedKey.leases = Finmap.insert 1 ⟨1, 60, 60000000000, {[1]}⟩ ∅ := by
    decide +kernel
  have hin : leasedKey.InRange := KVStore.inRange_of_one hleases (by decide) (by decide)
  refine ⟨leasedKey_reachable, hc, fun t => ?_⟩
  exact (snapshot_round_trip leasedKey_reachable hin (by decide +kernel) t).mpr (.inl hc)

/-- A key written twice, and compacted at the second version. -/
def rewritten : KVStore :=
  (((KVStore.new.put 0 [1] [5] 0).1.put 0 [1] [6] 0).1.compact 2).1

theorem rewritten_reachable : rewritten.Reachable :=
  .op (.compact 2) (.op (.put 0 [1] [6] 0) (.op (.put 0 [1] [5] 0) .new rfl) rfl) rfl

/-- A fresh store refuses the snapshot of a store that has only a lease, and of one that has lost
a version to compaction. -/
theorem snapshot_round_trip_fails :
    (leaseOnly.Reachable ∧ leaseOnly.InRange ∧ RangeOrder [1] leaseOnly.leases.keys ∧
      ¬ (KVStore.new.restore (leaseOnly.snapshot [1])).SameContents leaseOnly) ∧
    (rewritten.Reachable ∧ rewritten.InRange ∧ RangeOrder [] rewritten.leases.keys ∧
      ¬ (KVStore.new.restore (rewritten.snapshot [])).SameContents rewritten) := by
  have hleases : rewritten.leases = ∅ := by decide +kernel
  constructor
  · have hin : leaseOnly.InRange := KVStore.inRange_of_one rfl (by decide) (by decide)
    refine ⟨leaseOnly_reachable, hin, by decide +kernel, fun hsame => ?_⟩
    have hne : (KVStore.new.restore (leaseOnly.snapshot [1])).nextLeaseID ≠
        leaseOnly.nextLeaseID := by
      decide +kernel
    exact hne hsame.nextLeaseID
  · refine ⟨rewritten_reachable, fun leaseID lease hl => ?_, by decide +kernel, fun hsame => ?_⟩
    · rw [hleases] at hl
      cases hl
    · have hne : (KVStore.new.restore (rewritten.snapshot [])).backend.currentRev ≠
          rewritten.backend.currentRev := by
        decide +kernel
      exact hne hsame.currentRev

end LinKV

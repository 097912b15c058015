import LinKV.Mvcc.Bindings
import LinKV.Mvcc.Events
import LinKV.Mvcc.Ranges

namespace LinKV
set_option autoImplicit true

namespace KVStore

/-- `delete(lm.leases, leaseID)`. -/
def dropLease (s : KVStore) (leaseID : Int) : KVStore :=
  { s with leases := s.leases.erase leaseID }

/-- The delete events of keys at the revisions after `rev`, in their order. -/
def deleteEvents (rev : Int) (keys : List Bytes) : List MvccEvent :=
  keys.mapIdx fun i key => ⟨.delete, key, [], ⟨rev + 1 + i, 0⟩⟩

/-- The store `s'` is the store `s` without the lease `id` and its keys, which were met in the
order of the list. -/
structure Revoked (id : Int) (keys : List Bytes) (s s' : KVStore) : Prop where
  lease : id ∉ s'.leases
  exactly : keys.Nodup ∧ ∀ k, k ∈ keys ↔ s.keyLease.lookup k = some id
  bound : ∀ k ∈ keys, s'.value k 0 = none ∧ s'.keyLease.lookup k = none ∧
    ∀ id', k ∉ s'.leaseKeys id'
  others : ∀ k ∉ keys, s'.value k 0 = s.value k 0 ∧ s'.versions k = s.versions k ∧
    s'.keyLease.lookup k = s.keyLease.lookup k
  leases : ∀ id', id' ≠ id → s'.leases.lookup id' = s.leases.lookup id'
  currentRev : s'.backend.currentRev = s.backend.currentRev + keys.length
  events : s'.backend.events = s.backend.events ++ deleteEvents s.backend.currentRev keys ∧
    s'.eventCh = s.eventCh ++ deleteEvents s.backend.currentRev keys
  earlier : ∀ rev, rev ≠ 0 → rev ≤ s.backend.currentRev →
    (∀ k, s'.get k rev = s.get k rev) ∧
      ∀ startKey endKey, s'.range startKey endKey rev = s.range startKey endKey rev

section

variable {s s' : KVStore} {key k : Bytes} {keys : List Bytes} {id rev : Int}

theorem detachKey_leases (h : ∀ id, s.keyLease.lookup key = some id → id ∉ s.leases) :
    (s.detachKey key).leases = s.leases := by
  cases hl : s.keyLease.lookup key with
  | none => rw [detachKey_of_none hl]
  | some leaseID =>
    have hout : s.leases.lookup leaseID = none := Finmap.lookup_eq_none.2 (h leaseID hl)
    rw [detachKey_of_some hl]
    dsimp only [removeLeaseKey, GoMap.modify]
    rw [hout]

theorem deleteAll_keyLease (keys : List Bytes) (s : KVStore) (k : Bytes) :
    (s.deleteAll keys).1.keyLease.lookup k =
      if k ∈ keys then none else s.keyLease.lookup k := by
  induction keys generalizing s with
  | nil => rfl
  | cons key keys ih =>
    have hdel : (s.deleteLocked key).1.keyLease.lookup k =
        if k = key then none else s.keyLease.lookup k := detachKey_lookup _ key k
    dsimp only [deleteAll]
    rw [ih, hdel]
    by_cases hk : k = key
    · rw [if_pos hk, ite_self, if_pos (List.mem_cons.2 (.inl hk))]
    · simp only [List.mem_cons, hk, if_false, false_or]

theorem deleteAll_leases
    (h : ∀ k ∈ keys, ∀ id, s.keyLease.lookup k = some id → id ∉ s.leases) :
    (s.deleteAll keys).1.leases = s.leases := by
  induction keys generalizing s with
  | nil => rfl
  | cons key keys ih =>
    have hlook (k : Bytes) : (s.deleteLocked key).1.keyLease.lookup k =
        if k = key then none else s.keyLease.lookup k := detachKey_lookup _ key k
    have hdel : (s.deleteLocked key).1.leases = s.leases :=
      detachKey_leases (s := (s.write .delete key [] true).1) (h key List.mem_cons_self)
    dsimp only [deleteAll]
    rw [ih, hdel]
    intro k hk id hid
    rw [hlook] at hid
    rw [hdel]
    split at hid
    · cases hid
    · exact h k (List.mem_cons_of_mem key hk) id hid

theorem deleteAll_currentRev (keys : List Bytes) (s : KVStore) :
    (s.deleteAll keys).1.backend.currentRev = s.backend.currentRev + keys.length := by
  induction keys generalizing s with
  | nil => exact (Int.add_zero _).symm
  | cons key keys ih =>
    dsimp only [deleteAll]
    rw [ih, deleteLocked_currentRev, List.length_cons]
    omega

theorem deleteAll_snd (keys : List Bytes) (s : KVStore) :
    (s.deleteAll keys).2 = deleteEvents s.backend.currentRev keys := by
  induction keys generalizing s with
  | nil => rfl
  | cons key keys ih =>
    have hev : (s.deleteLocked key).2 = ⟨.delete, key, [], ⟨s.backend.currentRev + 1, 0⟩⟩ := rfl
    dsimp only [deleteAll]
    rw [ih, deleteLocked_currentRev, hev, deleteEvents, deleteEvents, List.mapIdx_cons]
    refine congrArg₂ List.cons ?_ (congrArg (List.mapIdx · keys) ?_)
    · rw [Int.natCast_zero, Int.add_zero]
    · funext i k
      have hrev : s.backend.currentRev + 1 + 1 + (i : Int) =
          s.backend.currentRev + 1 + ((i + 1 : Nat) : Int) := by
        omega
      rw [hrev]

theorem deleteAll_events (keys : List Bytes) (s : KVStore) :
    (s.deleteAll keys).1.backend.events = s.backend.events ++ (s.deleteAll keys).2 := by
  induction keys generalizing s with
  | nil => exact (List.append_nil _).symm
  | cons key keys ih =>
    have hdel : (s.deleteLocked key).1.backend.events =
        s.backend.events ++ [(s.deleteLocked key).2] := by
      rw [deleteLocked, detachKey_backend]
      exact write_frame.2
    dsimp only [deleteAll]
    rw [ih, hdel, List.append_assoc, List.singleton_append]

theorem leaseRevoke_some (hl : s.leases.lookup id = some lease) : s.leaseRevoke id keys =
    (((s.dropLease id).deleteAll keys).1.send ((s.dropLease id).deleteAll keys).2, .ok ()) := by
  rw [leaseRevoke, hl]
  rfl

theorem dropLease_leases (hk : ∀ k ∈ keys, s.keyLease.lookup k = some id) :
    ((s.dropLease id).deleteAll keys).1.leases = s.leases.erase id := by
  apply deleteAll_leases
  intro k hkey id' hid'
  obtain rfl : id' = id := Option.some.inj (hid'.symm.trans (hk k hkey))
  exact Finmap.notMem_erase_self

theorem dropLease_leaseKeys (hheld : ∀ id', k ∈ s.leaseKeys id' → id' = id) (id' : Int) :
    k ∉ (s.dropLease id).leaseKeys id' := by
  intro hk
  rw [dropLease, leaseKeys_erase] at hk
  split at hk
  · exact Finset.notMem_empty k hk
  · exact absurd (hheld id' hk) ‹_›

theorem Reachable.revoked (hs : s.Reachable) (hk : Enumerates keys (s.leaseKeys id))
    (hl : s.leases.lookup id = some lease) :
    Revoked id keys s (s.leaseRevoke id keys).1 := by
  obtain ⟨w, hb⟩ := hs.allBound
  obtain ⟨-, h, hr⟩ := hs.represents
  have hmem (k : Bytes) : k ∈ keys ↔ s.keyLease.lookup k = some id := by
    rw [hk.mem, hb.held, or_iff_left not_false]
  have hr' : Represents _ ((s.dropLease id).deleteAll keys).1.backend :=
    Represents.deleteAll (s := s.dropLease id) hr keys
  have hleases := dropLease_leases fun k => (hmem k).1
  have hedits : Edits (fun _ => True) (s.dropLease id) ((s.dropLease id).deleteAll keys).1 :=
    deleteAll_edits keys
  rw [leaseRevoke_some hl]
  refine ⟨?_, ⟨hk.1, hmem⟩, fun k hkey => ⟨?_, ?_, fun id' hid' => ?_⟩,
    fun k hkey => ⟨?_, ?_, ?_⟩, fun id' hne => ?_, deleteAll_currentRev keys _, ⟨?_, ?_⟩, ?_⟩
  · intro hid
    change id ∈ ((s.dropLease id).deleteAll keys).1.leases at hid
    rw [hleases] at hid
    exact Finmap.notMem_erase_self hid
  · have hv := deleteAll_versions (s := s.dropLease id) hk.1 hkey
    change ((s.dropLease id).deleteAll keys).1.value k 0 = none
    rw [hr'.value_zero, hv, List.getLast?_concat]
    rfl
  · change ((s.dropLease id).deleteAll keys).1.keyLease.lookup k = none
    rw [deleteAll_keyLease, if_pos hkey]
  · have hin : k ∈ (s.dropLease id).leaseKeys id' := by
      change k ∈ ((((s.dropLease id).deleteAll keys).1.leases.lookup id').map Lease.keys).getD ∅
        at hid'
      rwa [hleases] at hid'
    refine dropLease_leaseKeys (fun id'' hk'' => ?_) id' hin
    exact Option.some.inj ((hb.lookup id'' hk'').symm.trans ((hmem k).1 hkey))
  · change ((s.dropLease id).deleteAll keys).1.value k 0 = s.value k 0
    rw [hr'.value_zero, hr.value_zero, deleteAll_versions_of_notMem hkey]
    rfl
  · exact deleteAll_versions_of_notMem hkey
  · change ((s.dropLease id).deleteAll keys).1.keyLease.lookup k = _
    rw [deleteAll_keyLease, if_neg hkey]
    rfl
  · change ((s.dropLease id).deleteAll keys).1.leases.lookup id' = _
    rw [hleases, Finmap.lookup_erase_ne hne]
  · change ((s.dropLease id).deleteAll keys).1.backend.events = _
    rw [deleteAll_events, deleteAll_snd]
    rfl
  · rw [send, hedits.eventCh, deleteAll_snd]
    rfl
  · intro rev hne hle
    refine ⟨fun k => ?_, hr.range_later hr' hedits.compactRev hne hle⟩
    change ((s.dropLease id).deleteAll keys).1.get k rev = _
    rw [get_eq_value hne, get_eq_value hne, hr.value_later hr' hedits.compactRev hne hle]

end

end KVStore

/-- `LeaseRevoke` of a lease that exists removes it, deletes its keys and nothing else: they are
absent from the latest revision on and bound to no lease, every other key keeps its versions, its
value and its lease, the other leases stay as they are, and nothing read at an earlier revision
changes. There is one revision and one delete event for each of the keys. A `LeaseRevoke` that
fails leaves the store as it was. -/
theorem lease_revoke_exact {s : KVStore} (hs : s.Reachable) {id : Int} {keys : List Bytes}
    (hk : Enumerates keys (s.leaseKeys id)) :
    ((s.leaseRevoke id keys).2 = .ok () →
      KVStore.Revoked id keys s (s.leaseRevoke id keys).1) ∧
    ∀ e, (s.leaseRevoke id keys).2 = .error e → (s.leaseRevoke id keys).1 = s := by
  cases hl : s.leases.lookup id with
  | none =>
    have hrev : s.leaseRevoke id keys = (s, .error (.notFound id)) := by
      rw [KVStore.leaseRevoke, hl]
    rw [hrev]
    refine ⟨fun h => ?_, fun _ _ => rfl⟩
    cases h
  | some lease =>
    refine ⟨fun _ => hs.revoked hk hl, fun e he => ?_⟩
    rw [KVStore.leaseRevoke_some hl] at he
    cases he

/-- Of three keys two are under the lease that is revoked, in the order the loop meets them. -/
theorem lease_revoke_exact_two :
    let s := ((((KVStore.new.leaseGrant 0 60).1.put 0 [1] [5] 1).1.put 0 [2] [6] 0).1.put 0 [3] [7]
      1).1
    s.Reachable ∧ Enumerates [[3], [1]] (s.leaseKeys 1) ∧
    (s.leaseRevoke 1 [[3], [1]]).2 = .ok () ∧
    KVStore.Revoked 1 [[3], [1]] s (s.leaseRevoke 1 [[3], [1]]).1 := by
  intro s
  have hs : s.Reachable :=
    .op (.put 0 [3] [7] 1) (.op (.put 0 [2] [6] 0) (.op (.put 0 [1] [5] 1)
      (.op (.leaseGrant 0 60) .new rfl) rfl) rfl) rfl
  have hk : Enumerates [[3], [1]] (s.leaseKeys 1) := by decide +kernel
  have hok : (s.leaseRevoke 1 [[3], [1]]).2 = .ok () := by decide +kernel
  exact ⟨hs, hk, hok, (lease_revoke_exact hs hk).1 hok⟩

end LinKV

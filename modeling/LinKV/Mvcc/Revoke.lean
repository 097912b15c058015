import LinKV.Mvcc.Store
import Mathlib.Data.Finset.Dedup

namespace LinKV
set_option autoImplicit true

namespace KVStore

def versions (s : KVStore) (key : Bytes) : List ValueRevision :=
  ((s.backend.getRevisions key).map Versions.list).getD []

def tombstone (rev : Int) : ValueRevision := ⟨⟨rev, 0⟩, [], true⟩

section

variable {s t : KVStore} {key k value : Bytes} {keys : List Bytes}

theorem detachKey_backend : (s.detachKey key).backend = s.backend := by
  unfold detachKey
  split <;> rfl

theorem write_versions : (s.write type key value deleted).1.versions k =
    if k = key then s.versions key ++ [⟨⟨s.backend.currentRev + 1, 0⟩, value, deleted⟩]
    else s.versions k := by
  simp only [write, versions, MemoryBackend.appendEvent, MemoryBackend.getRevisions]
  rw [← MemoryBackend.getRevisions,
    MemoryBackend.getRevisions_setRevisions (List.append_ne_nil_of_right_ne_nil _ (by simp))]
  split <;> rfl

theorem write_frame : (s.write type key value deleted).1.backend.currentRev =
      s.backend.currentRev + 1 ∧
    (s.write type key value deleted).1.backend.events =
      s.backend.events ++ [⟨type, key, value, ⟨s.backend.currentRev + 1, 0⟩⟩] := by
  obtain ⟨he, hc, _⟩ := MemoryBackend.setRevisions_frame
    { s.backend with currentRev := s.backend.currentRev + 1 } key
    (s.versions key ++ [⟨⟨s.backend.currentRev + 1, 0⟩, value, deleted⟩])
    (List.append_ne_nil_of_right_ne_nil _ (by simp))
  exact ⟨hc, congrArg (· ++ _) he⟩

theorem deleteLocked_versions : (s.deleteLocked key).1.versions k =
    if k = key then s.versions key ++ [tombstone (s.backend.currentRev + 1)]
    else s.versions k := by
  rw [versions, deleteLocked, detachKey_backend]
  exact write_versions

theorem deleteLocked_currentRev :
    (s.deleteLocked key).1.backend.currentRev = s.backend.currentRev + 1 := by
  rw [deleteLocked, detachKey_backend]
  exact write_frame.1

theorem deleteAll_versions_of_notMem (h : k ∉ keys) :
    (s.deleteAll keys).1.versions k = s.versions k := by
  induction keys generalizing s with
  | nil => rfl
  | cons key keys ih =>
    rw [List.mem_cons, not_or] at h
    obtain ⟨hne, hk⟩ := h
    simp only [deleteAll]
    rw [ih hk, deleteLocked_versions, if_neg hne]

theorem deleteAll_versions (hd : keys.Nodup) (h : k ∈ keys) :
    (s.deleteAll keys).1.versions k =
      s.versions k ++ [tombstone (s.backend.currentRev + 1 + keys.idxOf k)] := by
  induction keys generalizing s with
  | nil => cases h
  | cons key keys ih =>
    obtain ⟨hkey, hd⟩ := List.nodup_cons.1 hd
    simp only [deleteAll]
    by_cases hk : k = key
    · subst hk
      rw [deleteAll_versions_of_notMem hkey, deleteLocked_versions, if_pos rfl,
        List.idxOf_cons_self, Int.natCast_zero, Int.add_zero]
    · have hin := (List.mem_cons.1 h).resolve_left hk
      rw [ih hd hin, deleteLocked_versions, if_neg hk, deleteLocked_currentRev,
        List.idxOf_cons_ne _ (Ne.symm hk)]
      congr 3
      omega

end

def leaseKeys (s : KVStore) (leaseID : Int) : Finset Bytes :=
  ((s.leases.lookup leaseID).map Lease.keys).getD ∅

/-- The same versions of every key, events and current revision. -/
structure SameHistory (s t : KVStore) : Prop where
  versions : ∀ key, s.versions key = t.versions key
  events : s.backend.events = t.backend.events
  currentRev : s.backend.currentRev = t.backend.currentRev

end KVStore

/-- A list a `range` over the set may produce. -/
def Enumerates (keys : List Bytes) (ks : Finset Bytes) : Prop := keys.Nodup ∧ keys.toFinset = ks

instance (keys : List Bytes) (ks : Finset Bytes) : Decidable (Enumerates keys ks) :=
  inferInstanceAs (Decidable (keys.Nodup ∧ keys.toFinset = ks))

section

variable {s : KVStore} {leaseID : Int} {keys keys' : List Bytes} {ks : Finset Bytes} {a : Bytes}

theorem Enumerates.mem (h : Enumerates keys ks) : a ∈ keys ↔ a ∈ ks := by
  rw [← h.2, List.mem_toFinset]

theorem Enumerates.eq_of_card (h : Enumerates keys ks) (h' : Enumerates keys' ks)
    (hc : ks.card ≤ 1) : keys = keys' := by
  have hp : keys.Perm keys' := List.perm_of_nodup_nodup_toFinset_eq h.1 h'.1 (h.2.trans h'.2.symm)
  have hlen : keys'.length ≤ 1 := by rwa [← List.toFinset_card_of_nodup h'.1, h'.2]
  match keys', hlen with
  | [], _ => exact List.perm_nil.1 hp
  | [a], _ => exact List.perm_singleton.1 hp

theorem exists_enumerates (h : a ∈ ks) : ∃ keys, Enumerates (a :: keys) ks := by
  refine ⟨(ks.erase a).toList, List.nodup_cons.2 ⟨?_, Finset.nodup_toList _⟩, ?_⟩
  · rw [Finset.mem_toList]
    exact Finset.notMem_erase a ks
  · rw [List.toFinset_cons, Finset.toList_toFinset, Finset.insert_erase h]

theorem KVStore.leaseRevoke_versions (hk : Enumerates keys (s.leaseKeys leaseID))
    (ha : a ∈ s.leaseKeys leaseID) :
    (s.leaseRevoke leaseID keys).1.versions a =
      s.versions a ++ [tombstone (s.backend.currentRev + 1 + keys.idxOf a)] := by
  have hin := hk.mem.2 ha
  unfold leaseRevoke
  cases hl : s.leases.lookup leaseID with
  | none =>
    rw [leaseKeys, hl] at ha
    cases ha
  | some lease => exact deleteAll_versions hk.1 hin

/-- The history `LeaseRevoke` leaves is the same for every order in which the loop may meet the
keys of the lease exactly when the lease has at most one key. -/
theorem lease_revoke_deterministic (s : KVStore) (leaseID : Int) :
    (∀ keys keys', Enumerates keys (s.leaseKeys leaseID) →
      Enumerates keys' (s.leaseKeys leaseID) →
      (s.leaseRevoke leaseID keys).1.SameHistory (s.leaseRevoke leaseID keys').1) ↔
    (s.leaseKeys leaseID).card ≤ 1 := by
  constructor
  · intro h
    by_contra hc
    obtain ⟨a, ha, b, hb, hab⟩ := Finset.one_lt_card.1 (Nat.lt_of_not_le hc)
    obtain ⟨keys, hk⟩ := exists_enumerates ha
    obtain ⟨keys', hk'⟩ := exists_enumerates hb
    -- `a` gets the first revision if it comes first, and a later one if `b` does
    have hv := (h _ _ hk hk').versions a
    rw [KVStore.leaseRevoke_versions hk ha, KVStore.leaseRevoke_versions hk' ha] at hv
    have ht := List.append_cancel_left hv
    simp only [List.cons.injEq, KVStore.tombstone, ValueRevision.mk.injEq, Revision.mk.injEq,
      and_true, List.idxOf_cons_self, List.idxOf_cons_ne _ (Ne.symm hab)] at ht
    omega
  · intro hc keys keys' hk hk'
    rw [hk.eq_of_card hk' hc]
    exact ⟨fun _ => rfl, rfl, rfl⟩

end

def twoKeys : KVStore :=
  (((KVStore.new.leaseGrant 0 60).1.put 0 [1] [] 1).1.put 0 [2] [] 1).1

/-- Revoking the lease of two keys in two orders gives the keys' tombstones different
revisions. -/
theorem lease_revoke_deterministic_fails :
    Enumerates [[1], [2]] (twoKeys.leaseKeys 1) ∧ Enumerates [[2], [1]] (twoKeys.leaseKeys 1) ∧
    ¬ (twoKeys.leaseRevoke 1 [[1], [2]]).1.SameHistory (twoKeys.leaseRevoke 1 [[2], [1]]).1 := by
  refine ⟨by decide +kernel, by decide +kernel, fun h => ?_⟩
  have hne : (twoKeys.leaseRevoke 1 [[1], [2]]).1.versions [1] ≠
      (twoKeys.leaseRevoke 1 [[2], [1]]).1.versions [1] := by
    decide +kernel
  exact hne (h.versions [1])

end LinKV

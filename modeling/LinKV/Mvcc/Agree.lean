import LinKV.Mvcc.Store

namespace LinKV
set_option autoImplicit true

def Lease.untimed (lease : Lease) : Lease := { lease with expireAt := 0 }

namespace KVStore

/-- Two stores that differ at most in the times at which their leases expire. -/
structure Agree (s t : KVStore) : Prop where
  backend : s.backend = t.backend
  keyLease : s.keyLease = t.keyLease
  leases : ∀ leaseID, (s.leases.lookup leaseID).map Lease.untimed =
    (t.leases.lookup leaseID).map Lease.untimed
  nextLeaseID : s.nextLeaseID = t.nextLeaseID
  eventCh : s.eventCh = t.eventCh

def Alike (x y : KVStore × α) : Prop := x.1.Agree y.1 ∧ x.2 = y.2

theorem Agree.refl (s : KVStore) : s.Agree s := ⟨rfl, rfl, fun _ => rfl, rfl, rfl⟩

theorem Alike.eq {x y : KVStore × α} (h : Alike x y) :
    ∃ s t r, x = (s, r) ∧ y = (t, r) ∧ s.Agree t :=
  ⟨x.1, y.1, x.2, rfl, Prod.ext rfl h.2.symm, h.1⟩

section

variable {s t : KVStore} {key value : Bytes} {leaseID now now' : Int}

theorem Agree.modifyLease {f : Lease → Lease} (h : s.Agree t)
    (hf : ∀ lease, (f lease).untimed = f lease.untimed) :
    Agree { s with leases := s.leases.modify leaseID f }
      { t with leases := t.leases.modify leaseID f } := by
  have hcomm : ∀ o : Option Lease, (o.map f).map Lease.untimed = (o.map Lease.untimed).map f := by
    intro o
    cases o with
    | none => rfl
    | some lease => exact congrArg some (hf lease)
  refine { h with leases := fun j => ?_ }
  simp only [GoMap.lookup_modify]
  split
  · rw [hcomm, hcomm, h.leases]
  · exact h.leases j

theorem Agree.insertLease {lease lease' : Lease} (h : s.Agree t)
    (hl : lease.untimed = lease'.untimed) :
    Agree { s with leases := s.leases.insert leaseID lease }
      { t with leases := t.leases.insert leaseID lease' } := by
  refine { h with leases := fun j => ?_ }
  rcases eq_or_ne j leaseID with rfl | hj
  · simp only [Finmap.lookup_insert, Option.map_some, hl]
  · simp only [Finmap.lookup_insert_of_ne _ hj, h.leases]

theorem Agree.eraseLease (h : s.Agree t) (leaseID : Int) :
    Agree { s with leases := s.leases.erase leaseID }
      { t with leases := t.leases.erase leaseID } := by
  refine { h with leases := fun j => ?_ }
  rcases eq_or_ne j leaseID with rfl | hj
  · simp only [Finmap.lookup_erase]
  · simp only [Finmap.lookup_erase_ne hj, h.leases]

theorem Agree.removeLeaseKey (h : s.Agree t) :
    (s.removeLeaseKey leaseID key).Agree (t.removeLeaseKey leaseID key) :=
  h.modifyLease fun _ => rfl

theorem Agree.addLeaseKey (h : s.Agree t) :
    (s.addLeaseKey leaseID key).Agree (t.addLeaseKey leaseID key) :=
  h.modifyLease fun _ => rfl

theorem Agree.bindKeyToLease (h : s.Agree t) :
    (s.bindKeyToLease key leaseID).Agree (t.bindKeyToLease key leaseID) := by
  have hset {s t : KVStore} (h : s.Agree t) :
      Agree { s with keyLease := s.keyLease.insert key leaseID }
        { t with keyLease := t.keyLease.insert key leaseID } :=
    { h with keyLease := congrArg (·.insert key leaseID) h.keyLease }
  unfold KVStore.bindKeyToLease
  rw [h.keyLease]
  cases t.keyLease.lookup key with
  | none => exact hset h.addLeaseKey
  | some oldLeaseID =>
    by_cases hne : oldLeaseID ≠ leaseID
    · simp only [if_pos hne]
      exact hset h.removeLeaseKey.addLeaseKey
    · simp only [if_neg hne]
      exact hset h.addLeaseKey

theorem Agree.detachKey (h : s.Agree t) : (s.detachKey key).Agree (t.detachKey key) := by
  have herase : Agree { s with keyLease := s.keyLease.erase key }
      { t with keyLease := t.keyLease.erase key } :=
    { h with keyLease := congrArg (·.erase key) h.keyLease }
  unfold KVStore.detachKey
  rw [h.keyLease] at herase ⊢
  cases t.keyLease.lookup key with
  | none => exact h
  | some leaseID => exact herase.removeLeaseKey

theorem Agree.send (h : s.Agree t) (evs : List MvccEvent) : (s.send evs).Agree (t.send evs) :=
  { h with eventCh := congrArg (· ++ evs) h.eventCh }

theorem Agree.write (h : s.Agree t) :
    Alike (s.write type key value deleted) (t.write type key value deleted) := by
  unfold KVStore.write
  rw [h.backend]
  exact ⟨{ h with backend := rfl }, rfl⟩

theorem Agree.deleteLocked (h : s.Agree t) (key : Bytes) :
    Alike (s.deleteLocked key) (t.deleteLocked key) :=
  have hw : Alike (s.write .delete key [] true) (t.write .delete key [] true) := h.write
  ⟨hw.1.detachKey, hw.2⟩

theorem Agree.lookupLease (h : s.Agree t)
    (hx : s.expired now leaseID = t.expired now' leaseID) :
    (∃ e, s.lookupLease now leaseID = .error e ∧ t.lookupLease now' leaseID = .error e) ∨
    ∃ lease lease', s.lookupLease now leaseID = .ok lease ∧
      t.lookupLease now' leaseID = .ok lease' ∧ lease.untimed = lease'.untimed := by
  have hl := h.leases leaseID
  unfold KVStore.lookupLease
  unfold expired at hx
  cases hs : s.leases.lookup leaseID with
  | none =>
    rw [hs, Option.map_none, eq_comm, Option.map_eq_none_iff] at hl
    rw [hl]
    exact .inl ⟨_, rfl, rfl⟩
  | some lease =>
    rw [hs, Option.map_some, eq_comm, Option.map_eq_some_iff] at hl
    obtain ⟨lease', ht, hl⟩ := hl
    rw [hs, ht, Option.any_some, Option.any_some, decide_eq_decide] at hx
    simp only [ht, hx]
    split
    · exact .inl ⟨_, rfl, rfl⟩
    · exact .inr ⟨lease, lease', rfl, rfl, hl.symm⟩

theorem Agree.checkLeases (h : s.Agree t)
    (hx : ∀ leaseID ∈ ids, s.expired now leaseID = t.expired now' leaseID) :
    s.checkLeases now ids = t.checkLeases now' ids := by
  induction ids with
  | nil => rfl
  | cons leaseID ids ih =>
    unfold KVStore.checkLeases
    rcases h.lookupLease (hx leaseID List.mem_cons_self) with ⟨e, hs, ht⟩ | ⟨_, _, hs, ht, -⟩
    · rw [hs, ht]
    · rw [hs, ht]
      exact ih fun j hj => hx j (List.mem_cons_of_mem _ hj)

theorem Agree.put (h : s.Agree t)
    (hx : leaseID ≠ 0 → s.expired now leaseID = t.expired now' leaseID) :
    Alike (s.put now key value leaseID) (t.put now' key value leaseID) := by
  obtain ⟨hw, hev⟩ : Alike (s.putLocked key value) (t.putLocked key value) := h.write
  simp only [KVStore.put, hev]
  split
  · next hne =>
    rcases h.lookupLease (hx hne) with ⟨e, hs, ht⟩ | ⟨_, _, hs, ht, -⟩
    · rw [hs, ht]
      exact ⟨h, rfl⟩
    · rw [hs, ht]
      exact ⟨hw.bindKeyToLease.send _, rfl⟩
  · exact ⟨hw.detachKey.send _, rfl⟩

theorem Agree.delete (h : s.Agree t) : Alike (s.delete key) (t.delete key) := by
  obtain ⟨hd, hev⟩ := h.deleteLocked key
  simp only [KVStore.delete, hev]
  exact ⟨hd.send _, rfl⟩

theorem Agree.compareHolds (h : s.Agree t) : s.compareHolds = t.compareHolds := by
  funext c
  unfold KVStore.compareHolds latestRev
  rw [h.backend]

theorem Agree.txnOp (h : s.Agree t) (op : Operation) : Alike (s.txnOp op) (t.txnOp op) := by
  unfold KVStore.txnOp
  cases op.type with
  | get =>
    rw [h.backend]
    cases t.backend.getRevisions op.key with
    | none => exact ⟨h, rfl⟩
    | some versions => exact ⟨h, rfl⟩
  | put =>
    obtain ⟨hw, hev⟩ : Alike (s.putLocked op.key op.value) (t.putLocked op.key op.value) := h.write
    refine ⟨?_, by simp only [hev]⟩
    dsimp only
    split
    · exact hw.bindKeyToLease
    · exact hw.detachKey
  | delete =>
    obtain ⟨hd, hev⟩ := h.deleteLocked op.key
    exact ⟨hd, by simp only [hev]⟩
  | other => exact ⟨h, rfl⟩

theorem Agree.runOps (h : s.Agree t) (ops : List Operation) :
    Alike (s.runOps ops) (t.runOps ops) := by
  induction ops generalizing s t with
  | nil => exact ⟨h, rfl⟩
  | cons op ops ih =>
    obtain ⟨hop, hout⟩ := h.txnOp op
    obtain ⟨hrest, houts⟩ := ih hop
    exact ⟨hrest, by simp only [KVStore.runOps, hout, houts]⟩

theorem Agree.txn {txn : Txn} (h : s.Agree t)
    (hx : ∀ leaseID ∈ leaseIDs (s.txnOps txn), s.expired now leaseID = t.expired now' leaseID) :
    Alike (s.txn now txn) (t.txn now' txn) := by
  have hops : s.txnOps txn = t.txnOps txn := by unfold txnOps; rw [h.compareHolds]
  obtain ⟨hr, hout⟩ := h.runOps (t.txnOps txn)
  unfold KVStore.txn
  rw [h.checkLeases hx, h.compareHolds, hops]
  cases t.checkLeases now' (leaseIDs (t.txnOps txn)) with
  | error e => exact ⟨h, rfl⟩
  | ok =>
    simp only [hout]
    exact ⟨hr.send _, rfl⟩

theorem Agree.leaseGrant (h : s.Agree t) :
    Alike (s.leaseGrant now ttl) (t.leaseGrant now' ttl) := by
  simp only [KVStore.leaseGrant, h.nextLeaseID]
  refine ⟨{ h with leases := ?_, nextLeaseID := rfl }, rfl⟩
  exact (h.insertLease (by rfl)).leases

theorem Agree.leaseKeepAlive (h : s.Agree t)
    (hx : s.expired now leaseID = t.expired now' leaseID) :
    Alike (s.leaseKeepAlive now leaseID) (t.leaseKeepAlive now' leaseID) := by
  unfold KVStore.leaseKeepAlive
  rcases h.lookupLease hx with ⟨e, hs, ht⟩ | ⟨lease, lease', hs, ht, hl⟩
  · rw [hs, ht]
    exact ⟨h, rfl⟩
  · have httl : lease.ttl = lease'.ttl := (Lease.mk.inj hl).2.1
    rw [hs, ht]
    refine ⟨h.insertLease hl, ?_⟩
    simp only [httl]

theorem Agree.deleteAll (h : s.Agree t) (keys : List Bytes) :
    Alike (s.deleteAll keys) (t.deleteAll keys) := by
  induction keys generalizing s t with
  | nil => exact ⟨h, rfl⟩
  | cons key keys ih =>
    obtain ⟨hd, hev⟩ := h.deleteLocked key
    obtain ⟨hrest, hevs⟩ := ih hd
    exact ⟨hrest, by simp only [KVStore.deleteAll, hev, hevs]⟩

theorem Agree.leaseRevoke (h : s.Agree t) (keys : List Bytes) :
    Alike (s.leaseRevoke leaseID keys) (t.leaseRevoke leaseID keys) := by
  have hl := congrArg Option.isSome (h.leases leaseID)
  rw [Option.isSome_map, Option.isSome_map] at hl
  obtain ⟨hd, hevs⟩ := (h.eraseLease leaseID).deleteAll keys
  unfold KVStore.leaseRevoke
  cases hs : s.leases.lookup leaseID <;> cases ht : t.leases.lookup leaseID <;>
    rw [hs, ht] at hl
  case none.none => exact ⟨h, rfl⟩
  case none.some | some.none => cases hl
  case some.some =>
    simp only [hevs]
    exact ⟨hd.send _, rfl⟩

end

end KVStore

end LinKV

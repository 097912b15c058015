import LinKV.Mvcc.Refinement

namespace LinKV
set_option autoImplicit true

open Versioned

section

variable {h : List Mutation} {b b' : MemoryBackend}

theorem MemoryBackend.Indexed.sortedKeys_eq (hb : b.Indexed) (hb' : b'.Indexed)
    (hd : b.data = b'.data) : b.sortedKeys = b'.sortedKeys := by
  have hnodup {b : MemoryBackend} (hb : b.Indexed) : b.sortedKeys.Nodup := by
    apply hb.sorted.imp
    rintro x _ hlt rfl
    exact List.lt_irrefl x hlt
  have hperm : b.sortedKeys.Perm b'.sortedKeys := by
    rw [List.perm_ext_iff_of_nodup (hnodup hb) (hnodup hb')]
    intro k
    rw [hb.mem, hb'.mem, hd]
  exact hperm.eq_of_pairwise (fun x y _ _ hxy hyx => absurd hxy (List.lt_asymm hyx))
    hb.sorted hb'.sorted

theorem MemoryBackend.data_eq (hv : ∀ key, b.versions key = b'.versions key) :
    b.data = b'.data := by
  apply Finmap.ext_lookup
  intro key
  have hk := hv key
  unfold MemoryBackend.versions MemoryBackend.getRevisions at hk
  cases hl : b.data.lookup key with
  | none =>
    cases hl' : b'.data.lookup key with
    | none => rfl
    | some v' =>
      rw [hl, hl'] at hk
      exact absurd hk.symm v'.ne_nil
  | some v =>
    cases hl' : b'.data.lookup key with
    | none =>
      rw [hl, hl'] at hk
      exact absurd hk v.ne_nil
    | some v' =>
      rw [hl, hl'] at hk
      cases v
      cases v'
      cases hk
      rfl

/-- A backend is determined by its history and the revision up to which it is compacted. -/
theorem Represents.unique (hr : Represents h b) (hr' : Represents h b')
    (hc : b.compactRev = b'.compactRev) : b = b' := by
  have hdata : b.data = b'.data := by
    apply MemoryBackend.data_eq
    intro key
    rw [hr.versions, hr'.versions, hc]
  have hkeys := hr.toIndexed.sortedKeys_eq hr'.toIndexed hdata
  have hcur : b.currentRev = b'.currentRev := by rw [hr.currentRev, hr'.currentRev]
  have hevents : b.events = b'.events := by rw [hr.events, hr'.events, hc]
  cases b
  cases b'
  cases hdata
  cases hkeys
  cases hcur
  cases hevents
  cases hc
  rfl

theorem Represents.getLast_versions (hr : Represents h b) (hr' : Represents h b') (key : Bytes) :
    (b.versions key).getLast? = (b'.versions key).getLast? := by
  rw [hr.versions_eq, hr'.versions_eq, getLast?_retain, getLast?_retain]

theorem MemoryBackend.map_latest (b : MemoryBackend) (key : Bytes) :
    (b.getRevisions key).map Versions.latest = (b.versions key).getLast? := by
  unfold MemoryBackend.versions
  cases b.getRevisions key with
  | none => rfl
  | some v => exact (List.getLast?_eq_some_getLast v.ne_nil).symm

theorem Represents.latest_eq (hr : Represents h b) (hr' : Represents h b') (key : Bytes) :
    (b.getRevisions key).map Versions.latest = (b'.getRevisions key).map Versions.latest := by
  rw [b.map_latest, b'.map_latest, hr.getLast_versions hr']

end

namespace KVStore

/-- Two stores with the same history, of which compaction may have left more in one of them, and
with the same leases. They have sent the same events since their queues were `q` and `r`. -/
structure Akin (q r : List MvccEvent) (s t : KVStore) : Prop where
  history : ∃ h, Represents h s.backend ∧ Represents h t.backend
  keyLease : s.keyLease = t.keyLease
  leases : s.leases = t.leases
  nextLeaseID : s.nextLeaseID = t.nextLeaseID
  sent : ∃ evs, s.eventCh = q ++ evs ∧ t.eventCh = r ++ evs

section

variable {s t s' : KVStore} {q r : List MvccEvent} {key value : Bytes} {leaseID now : Int}

theorem Akin.refl (hr : Represents h s.backend) : s.Akin s.eventCh s.eventCh s :=
  ⟨⟨h, hr, hr⟩, rfl, rfl, rfl, [], (List.append_nil _).symm, (List.append_nil _).symm⟩

theorem Akin.currentRev (h : s.Akin q r t) : s.backend.currentRev = t.backend.currentRev := by
  obtain ⟨hist, hs, ht⟩ := h.history
  rw [hs.currentRev, ht.currentRev]

theorem Akin.backend (h : s.Akin q r t) (hc : s.backend.compactRev = t.backend.compactRev) :
    s.backend = t.backend := by
  obtain ⟨hist, hs, ht⟩ := h.history
  exact hs.unique ht hc

theorem Akin.eq (h : s.Akin q q t) (hc : s.backend.compactRev = t.backend.compactRev) : s = t := by
  have hb := h.backend hc
  obtain ⟨-, hk, hl, hn, evs, hs, ht⟩ := h
  rw [← ht] at hs
  cases s
  cases t
  cases hb
  cases hk
  cases hl
  cases hn
  cases hs
  rfl

/-- Compaction of one of them goes unnoticed. -/
theorem Akin.compact (h : s.Akin q r t) (rev : Int) : (s.compact rev).1.Akin q r t := by
  obtain ⟨hist, hs, ht⟩ := h.history
  have hc := hs.compact rev
  unfold KVStore.compact at hc ⊢
  split
  · exact h
  · rename_i hrev
    rw [if_neg hrev] at hc
    exact ⟨⟨hist, hc, ht⟩, h.keyLease, h.leases, h.nextLeaseID, h.sent⟩

theorem Akin.symm (h : s.Akin q r t) : t.Akin r q s := by
  obtain ⟨hist, hs, ht⟩ := h.history
  obtain ⟨evs, hq, hr⟩ := h.sent
  exact ⟨⟨hist, ht, hs⟩, h.keyLease.symm, h.leases.symm, h.nextLeaseID.symm, evs, hr, hq⟩

theorem Akin.write (h : s.Akin q r t) (v : Option Bytes)
    (hv : ∀ r, stampVersion (r, v) = ⟨⟨r, 0⟩, value, deleted⟩)
    (he : ∀ r, stampEvent r (key, v) = ⟨type, key, value, ⟨r, 0⟩⟩) :
    (s.write type key value deleted).1.Akin q r (t.write type key value deleted).1 ∧
      (s.write type key value deleted).2 = (t.write type key value deleted).2 := by
  obtain ⟨hist, hs, ht⟩ := h.history
  have hcur := h.currentRev
  refine ⟨⟨⟨_, hs.write key v hv he, ht.write key v hv he⟩, h.keyLease, h.leases, h.nextLeaseID,
    h.sent⟩, ?_⟩
  simp only [KVStore.write, hcur]

theorem Akin.putLocked (h : s.Akin q r t) (key value : Bytes) :
    (s.putLocked key value).1.Akin q r (t.putLocked key value).1 ∧
      (s.putLocked key value).2 = (t.putLocked key value).2 :=
  h.write (some value) (fun _ => rfl) fun _ => rfl

theorem Akin.modifyLease (h : s.Akin q r t) (leaseID : Int) (f : Lease → Lease) :
    Akin q r { s with leases := s.leases.modify leaseID f }
      { t with leases := t.leases.modify leaseID f } :=
  { h with leases := congrArg (GoMap.modify · leaseID f) h.leases }

theorem Akin.detachKey (h : s.Akin q r t) (key : Bytes) :
    (s.detachKey key).Akin q r (t.detachKey key) := by
  unfold KVStore.detachKey
  rw [h.keyLease]
  cases t.keyLease.lookup key with
  | none => exact h
  | some leaseID =>
    have herase : Akin q r { s with keyLease := t.keyLease.erase key }
        { t with keyLease := t.keyLease.erase key } := { h with keyLease := rfl }
    exact herase.modifyLease leaseID _

theorem Akin.bindKeyToLease (h : s.Akin q r t) (key : Bytes) (leaseID : Int) :
    (s.bindKeyToLease key leaseID).Akin q r (t.bindKeyToLease key leaseID) := by
  have hbind {s t : KVStore} (h : s.Akin q r t) :
      Akin q r { s.addLeaseKey leaseID key with keyLease := s.keyLease.insert key leaseID }
        { t.addLeaseKey leaseID key with keyLease := t.keyLease.insert key leaseID } :=
    { h.modifyLease leaseID _ with keyLease := congrArg (·.insert key leaseID) h.keyLease }
  unfold KVStore.bindKeyToLease
  rw [h.keyLease]
  cases t.keyLease.lookup key with
  | none => exact hbind h
  | some oldLeaseID =>
    dsimp only
    split
    · exact hbind (h.modifyLease oldLeaseID _)
    · exact hbind h

theorem Akin.deleteLocked (h : s.Akin q r t) (key : Bytes) :
    (s.deleteLocked key).1.Akin q r (t.deleteLocked key).1 ∧
      (s.deleteLocked key).2 = (t.deleteLocked key).2 := by
  obtain ⟨hw, he⟩ : (s.write .delete key [] true).1.Akin q r (t.write .delete key [] true).1 ∧ _ :=
    h.write none (fun _ => rfl) fun _ => rfl
  exact ⟨hw.detachKey key, he⟩

theorem Akin.send (h : s.Akin q r t) (evs : List MvccEvent) :
    (s.send evs).Akin q r (t.send evs) := by
  obtain ⟨before, hq, hr⟩ := h.sent
  refine { h with sent := ⟨before ++ evs, ?_, ?_⟩ }
  · rw [← List.append_assoc, ← hq]
    rfl
  · rw [← List.append_assoc, ← hr]
    rfl

theorem Akin.lookupLease (h : s.Akin q r t) (now leaseID : Int) :
    s.lookupLease now leaseID = t.lookupLease now leaseID := by
  rw [KVStore.lookupLease, KVStore.lookupLease, h.leases]

theorem Akin.checkLeases (h : s.Akin q r t) (now : Int) (ids : List Int) :
    s.checkLeases now ids = t.checkLeases now ids := by
  induction ids with
  | nil => rfl
  | cons id ids ih => rw [KVStore.checkLeases, KVStore.checkLeases, h.lookupLease, ih]

theorem Akin.latestRev (h : s.Akin q r t) (key : Bytes) : s.latestRev key = t.latestRev key := by
  obtain ⟨hist, hs, ht⟩ := h.history
  have hl := congrArg (Option.map fun v : ValueRevision => v.rev.main) (hs.latest_eq ht key)
  rw [Option.map_map, Option.map_map] at hl
  exact congrArg (Option.getD · 0) hl

theorem Akin.txnOps (h : s.Akin q r t) (txn : Txn) :
    txn.compares.all s.compareHolds = txn.compares.all t.compareHolds ∧
      s.txnOps txn = t.txnOps txn := by
  have hall : s.compareHolds = t.compareHolds := by
    funext c
    rw [KVStore.compareHolds, KVStore.compareHolds, h.latestRev]
  rw [KVStore.txnOps, KVStore.txnOps, hall]
  exact ⟨rfl, rfl⟩

def AkinOut (q r : List MvccEvent) (x y : KVStore × α) : Prop := x.1.Akin q r y.1 ∧ x.2 = y.2

theorem Akin.txnOp (h : s.Akin q r t) (op : Operation) : AkinOut q r (s.txnOp op) (t.txnOp op) := by
  unfold KVStore.txnOp
  cases op.type with
  | get =>
    obtain ⟨hist, hs, ht⟩ := h.history
    have hl := hs.latest_eq ht op.key
    dsimp only
    cases hv : s.backend.getRevisions op.key with
    | none =>
      cases hw : t.backend.getRevisions op.key with
      | none => exact ⟨h, rfl⟩
      | some w =>
        rw [hv, hw] at hl
        cases hl
    | some v =>
      cases hw : t.backend.getRevisions op.key with
      | none =>
        rw [hv, hw] at hl
        cases hl
      | some w =>
        rw [hv, hw] at hl
        dsimp only
        rw [Option.some.inj hl]
        exact ⟨h, rfl⟩
  | put =>
    obtain ⟨hp, he⟩ := h.putLocked op.key op.value
    dsimp only
    rw [he]
    split
    · exact ⟨hp.bindKeyToLease op.key op.leaseID, rfl⟩
    · exact ⟨hp.detachKey op.key, rfl⟩
  | delete =>
    obtain ⟨hd, he⟩ := h.deleteLocked op.key
    dsimp only
    rw [he]
    exact ⟨hd, rfl⟩
  | other type => exact ⟨h, rfl⟩

theorem Akin.runOps (h : s.Akin q r t) (ops : List Operation) :
    AkinOut q r (s.runOps ops) (t.runOps ops) := by
  induction ops generalizing s t with
  | nil => exact ⟨h, rfl⟩
  | cons op ops ih =>
    obtain ⟨hop, ho⟩ := h.txnOp op
    obtain ⟨hrest, hr⟩ := ih hop
    refine ⟨hrest, ?_⟩
    simp only [KVStore.runOps, ho, hr]

theorem Akin.deleteAll (h : s.Akin q r t) (keys : List Bytes) :
    AkinOut q r (s.deleteAll keys) (t.deleteAll keys) := by
  induction keys generalizing s t with
  | nil => exact ⟨h, rfl⟩
  | cons key keys ih =>
    obtain ⟨hd, he⟩ := h.deleteLocked key
    obtain ⟨hrest, hr⟩ := ih hd
    refine ⟨hrest, ?_⟩
    simp only [KVStore.deleteAll, he, hr]

theorem Akin.put (h : s.Akin q r t) (now : Int) (key value : Bytes) (leaseID : Int) :
    AkinOut q r (s.put now key value leaseID) (t.put now key value leaseID) := by
  obtain ⟨hp, he⟩ := h.putLocked key value
  unfold KVStore.put
  dsimp only
  rw [h.lookupLease, he]
  split
  · cases t.lookupLease now leaseID with
    | error e => exact ⟨h, rfl⟩
    | ok lease => exact ⟨(hp.bindKeyToLease key leaseID).send _, rfl⟩
  · exact ⟨(hp.detachKey key).send _, rfl⟩

theorem Akin.delete (h : s.Akin q r t) (key : Bytes) :
    AkinOut q r (s.delete key) (t.delete key) := by
  obtain ⟨hd, he⟩ := h.deleteLocked key
  unfold KVStore.delete
  dsimp only
  rw [he]
  exact ⟨hd.send _, rfl⟩

theorem Akin.txn (h : s.Akin q r t) (now : Int) (txn : Txn) :
    AkinOut q r (s.txn now txn) (t.txn now txn) := by
  obtain ⟨hall, hops⟩ := h.txnOps txn
  unfold KVStore.txn
  rw [hall, hops, h.checkLeases]
  cases t.checkLeases now (KVStore.leaseIDs (t.txnOps txn)) with
  | error e => exact ⟨h, rfl⟩
  | ok u =>
    obtain ⟨hrun, hout⟩ := h.runOps (t.txnOps txn)
    dsimp only
    rw [hout]
    exact ⟨hrun.send _, rfl⟩

theorem Akin.leaseGrant (h : s.Akin q r t) (now ttl : Int) :
    AkinOut q r (s.leaseGrant now ttl) (t.leaseGrant now ttl) := by
  unfold KVStore.leaseGrant
  rw [h.nextLeaseID, h.leases]
  exact ⟨{ h with nextLeaseID := rfl, leases := rfl }, rfl⟩

theorem Akin.leaseKeepAlive (h : s.Akin q r t) (now leaseID : Int) :
    AkinOut q r (s.leaseKeepAlive now leaseID) (t.leaseKeepAlive now leaseID) := by
  unfold KVStore.leaseKeepAlive
  rw [h.lookupLease]
  cases t.lookupLease now leaseID with
  | error e => exact ⟨h, rfl⟩
  | ok lease =>
    dsimp only
    rw [h.leases]
    exact ⟨{ h with leases := rfl }, rfl⟩

theorem Akin.leaseRevoke (h : s.Akin q r t) (leaseID : Int) (keys : List Bytes) :
    AkinOut q r (s.leaseRevoke leaseID keys) (t.leaseRevoke leaseID keys) := by
  unfold KVStore.leaseRevoke
  rw [h.leases]
  cases t.leases.lookup leaseID with
  | none => exact ⟨h, rfl⟩
  | some lease =>
    have herase : Akin q r { s with leases := t.leases.erase leaseID }
        { t with leases := t.leases.erase leaseID } := { h with leases := rfl }
    obtain ⟨hd, he⟩ := herase.deleteAll keys
    dsimp only
    rw [he]
    exact ⟨hd.send _, rfl⟩

end

end KVStore

end LinKV

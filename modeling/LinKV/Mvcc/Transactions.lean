import LinKV.Mvcc.Bindings
import LinKV.Mvcc.Events

namespace LinKV
set_option autoImplicit true

/-- What a comparison says of the latest revision of its key. -/
def Compare.HoldsFor (c : Compare) (latest : Int) : Prop :=
  match c.op with
  | .equal => latest = c.rev
  | .greater => c.rev < latest
  | .less => latest < c.rev
  | .other _ => True

def Txn.branch (t : Txn) (succeeded : Bool) : List Operation :=
  if succeeded then t.thenOps else t.elseOps

namespace KVStore

/-- The validation loop of `Txn` while the clock runs: the `n`-th lookup reads it as `clock n`. -/
def checkLeasesAt (s : KVStore) (clock : Nat → Int) : List Int → Except LeaseError Unit
  | [] => .ok ()
  | id :: ids =>
    match s.lookupLease (clock 0) id with
    | .error e => .error e
    | .ok _ => s.checkLeasesAt (fun n => clock (n + 1)) ids

def txnAt (s : KVStore) (clock : Nat → Int) (t : Txn) :
    KVStore × Except LeaseError (Bool × List KeyValue) :=
  match s.checkLeasesAt clock (leaseIDs (s.txnOps t)) with
  | .error e => (s, .error e)
  | .ok _ =>
    let out := s.runOps (s.txnOps t)
    (out.1.send out.2.2, .ok (t.compares.all s.compareHolds, out.2.1))

/-- What an operation is to do to the store. There is no store to go on with where a key would be
added to a nil lease. -/
def perform (s : KVStore) (op : Operation) : Option KVStore :=
  match op.type with
  | .put =>
    let s := (s.putLocked op.key op.value).1
    if op.leaseID = 0 then some (s.detachKey op.key)
    else if op.leaseID ∈ s.leases then some (s.bindKeyToLease op.key op.leaseID)
    else none
  | .delete => some (s.deleteLocked op.key).1
  | .get | .other _ => some s

section

variable {s s' : KVStore} {now now' leaseID : Int} {clock : Nat → Int} {t : Txn}

theorem lookupLease_mono (h : s.lookupLease now leaseID = .ok lease) (hle : now' ≤ now) :
    s.lookupLease now' leaseID = .ok lease := by
  unfold lookupLease at h ⊢
  split at h
  · cases h
  · split at h
    · cases h
    · rename_i hexp
      rw [if_neg (by omega)]
      exact h

theorem checkLeases_mono (h : s.checkLeases now ids = .ok u) (hle : now' ≤ now) :
    s.checkLeases now' ids = .ok () := by
  induction ids with
  | nil => rfl
  | cons id ids ih =>
    rw [checkLeases] at h ⊢
    split at h
    · cases h
    · rename_i hl
      rw [lookupLease_mono hl hle]
      exact ih h

/-- Leases that pass as the clock runs would all have passed at its earliest reading. -/
theorem checkLeasesAt_ok (h : s.checkLeasesAt clock ids = .ok u) :
    ∃ now, s.checkLeases now ids = .ok () := by
  induction ids generalizing clock with
  | nil => exact ⟨0, rfl⟩
  | cons id ids ih =>
    rw [checkLeasesAt] at h
    split at h
    · cases h
    · rename_i hl
      obtain ⟨now, hnow⟩ := ih h
      refine ⟨min now (clock 0), ?_⟩
      rw [checkLeases, lookupLease_mono hl (Int.min_le_right _ _)]
      exact checkLeases_mono hnow (Int.min_le_left _ _)

/-- A `Txn` fails and leaves the store alone, or all of its leases exist and its branch is run. -/
theorem txn_cases (s : KVStore) (now : Int) (t : Txn) :
    (∃ e, s.txn now t = (s, .error e)) ∨
    ((∀ id ∈ leaseIDs (s.txnOps t), id ∈ s.leases) ∧
      s.txn now t = ((s.runOps (s.txnOps t)).1.send (s.runOps (s.txnOps t)).2.2,
        .ok (t.compares.all s.compareHolds, (s.runOps (s.txnOps t)).2.1))) := by
  unfold txn
  cases hc : s.checkLeases now (leaseIDs (s.txnOps t)) with
  | error e => exact .inl ⟨e, rfl⟩
  | ok u => exact .inr ⟨checkLeases_ok hc, rfl⟩

/-- The clock running during a `Txn` makes no difference that a standing one could not make. -/
theorem txnAt_cases (s : KVStore) (clock : Nat → Int) (t : Txn) :
    (∃ e, s.txnAt clock t = (s, .error e)) ∨ ∃ now, s.txnAt clock t = s.txn now t := by
  unfold txnAt
  cases hc : s.checkLeasesAt clock (leaseIDs (s.txnOps t)) with
  | error e => exact .inl ⟨e, rfl⟩
  | ok u =>
    obtain ⟨now, hnow⟩ := checkLeasesAt_ok hc
    refine .inr ⟨now, ?_⟩
    rw [txn, hnow]

theorem latestRev_eq (s : KVStore) (key : Bytes) :
    s.latestRev key = ((s.versions key).getLast?.map fun v => v.rev.main).getD 0 := by
  unfold latestRev versions
  cases s.backend.getRevisions key with
  | none => rfl
  | some versions =>
    dsimp only [Option.map_some, Option.getD_some, Versions.latest]
    rw [List.getLast?_eq_some_getLast versions.ne_nil]
    rfl

theorem compareHolds_iff (c : Compare) : s.compareHolds c = true ↔
    c.HoldsFor (((s.versions c.key).getLast?.map fun v => v.rev.main).getD 0) := by
  rw [← latestRev_eq]
  unfold compareHolds Compare.HoldsFor
  cases c.op with
  | equal | greater | less => exact decide_eq_true_iff
  | other op => exact iff_of_true rfl trivial

theorem txnOp_perform {op : Operation}
    (hl : op.type = .put → op.leaseID ≠ 0 → op.leaseID ∈ s.leases) :
    s.perform op = some (s.txnOp op).1 := by
  unfold perform txnOp
  cases htype : op.type with
  | get =>
    dsimp only
    split <;> rfl
  | put =>
    dsimp only
    by_cases hz : op.leaseID = 0
    · rw [if_pos hz, if_neg (not_not.2 hz)]
    · have hmem : op.leaseID ∈ (s.putLocked op.key op.value).1.leases := hl htype hz
      rw [if_neg hz, if_pos hmem, if_pos hz]
  | delete => rfl
  | other type => rfl

theorem runOps_perform (ops : List Operation) (hl : ∀ id ∈ leaseIDs ops, id ∈ s.leases) :
    ops.foldlM perform s = some (s.runOps ops).1 := by
  induction ops generalizing s with
  | nil => rfl
  | cons op ops ih =>
    obtain ⟨hop, hops⟩ := leases_cons hl
    rw [List.foldlM_cons, txnOp_perform hop]
    exact ih hops

theorem txnOp_events (s : KVStore) (op : Operation) :
    (s.txnOp op).1.backend.events = s.backend.events ++ (s.txnOp op).2.2 := by
  unfold txnOp
  cases op.type with
  | get =>
    dsimp only
    split <;> exact (List.append_nil _).symm
  | put =>
    dsimp only
    split
    · rw [bindKeyToLease_backend]
      exact write_frame.2
    · rw [detachKey_backend]
      exact write_frame.2
  | delete =>
    dsimp only [deleteLocked]
    rw [detachKey_backend]
    exact write_frame.2
  | other type => exact (List.append_nil _).symm

theorem runOps_events (s : KVStore) (ops : List Operation) :
    (s.runOps ops).1.backend.events = s.backend.events ++ (s.runOps ops).2.2 := by
  induction ops generalizing s with
  | nil => exact (List.append_nil _).symm
  | cons op ops ih =>
    dsimp only [runOps]
    rw [ih, txnOp_events, List.append_assoc]

theorem txn_ok (h : (s.txn now t).2 = .ok (b, kvs)) :
    (∀ id ∈ leaseIDs (s.txnOps t), id ∈ s.leases) ∧ b = t.compares.all s.compareHolds ∧
      kvs = (s.runOps (s.txnOps t)).2.1 ∧
      (s.txn now t).1 = (s.runOps (s.txnOps t)).1.send (s.runOps (s.txnOps t)).2.2 := by
  rcases txn_cases s now t with ⟨e, he⟩ | ⟨hl, he⟩
  · rw [he] at h
    cases h
  · rw [he] at h ⊢
    cases h
    exact ⟨hl, rfl, rfl, rfl⟩

theorem put_error {value : Bytes} (h : (s.put now key value leaseID).2 = .error e) :
    (s.put now key value leaseID).1 = s := by
  revert h
  unfold put
  split
  · cases s.lookupLease now leaseID with
    | error e' =>
      intro _
      rfl
    | ok lease =>
      intro h
      cases h
  · intro h
    cases h

end

end KVStore

/-- A `Txn` that returns an error leaves the store as it was, whatever the clock shows at each of
its readings, and so does a `Put`. Otherwise the first result says whether every comparison holds
for the latest revision of its key, 0 for a key without versions, and the operations of the branch
it selects have been performed one after the other, none of them on a lease that is not there;
their events are in the backend and have been sent. -/
theorem txn_atomic (s : KVStore) (clock : Nat → Int) (t : Txn) :
    (∀ e, (s.txnAt clock t).2 = .error e → (s.txnAt clock t).1 = s) ∧
    (∀ b kvs, (s.txnAt clock t).2 = .ok (b, kvs) →
      (b = true ↔ ∀ c ∈ t.compares,
        c.HoldsFor (((s.versions c.key).getLast?.map fun v => v.rev.main).getD 0)) ∧
      ∃ s' evs, (t.branch b).foldlM KVStore.perform s = some s' ∧
        s'.backend.events = s.backend.events ++ evs ∧
        (s.txnAt clock t).1 = { s' with eventCh := s.eventCh ++ evs }) ∧
    ∀ now key value leaseID e, (s.put now key value leaseID).2 = .error e →
      (s.put now key value leaseID).1 = s := by
  refine ⟨fun e he => ?_, fun b kvs hok => ?_, fun _ _ _ _ _ => KVStore.put_error⟩
  · rcases KVStore.txnAt_cases s clock t with ⟨e', he'⟩ | ⟨now, hnow⟩
    · rw [he']
    · rw [hnow] at he ⊢
      rcases KVStore.txn_cases s now t with ⟨e', he'⟩ | ⟨-, he'⟩
      · rw [he']
      · rw [he'] at he
        cases he
  · rcases KVStore.txnAt_cases s clock t with ⟨e', he'⟩ | ⟨now, hnow⟩
    · rw [he'] at hok
      cases hok
    · rw [hnow] at hok ⊢
      obtain ⟨hl, rfl, -, hst⟩ := KVStore.txn_ok hok
      refine ⟨?_, (s.runOps (s.txnOps t)).1, (s.runOps (s.txnOps t)).2.2,
        KVStore.runOps_perform _ hl, KVStore.runOps_events s _, ?_⟩
      · rw [List.all_eq_true]
        exact forall₂_congr fun c _ => KVStore.compareHolds_iff c
      · have hch : (s.runOps (s.txnOps t)).1.eventCh = s.eventCh :=
          (KVStore.runOps_edits (P := fun _ => True) fun _ _ => trivial).eventCh
        rw [hst, KVStore.send, hch]

/-- A transaction that moves a key to a lease, reads it and deletes another key; and one that
fails because a later operation names a lease that is not there. -/
theorem txn_atomic_mixed :
    let s := (KVStore.new.leaseGrant 0 60).1
    let good : Txn := ⟨[⟨[1], .equal, 0⟩], [⟨.put, [1], [5], 1⟩, ⟨.get, [1], [], 0⟩,
      ⟨.delete, [2], [], 0⟩], []⟩
    let bad : Txn := ⟨[⟨[1], .greater, 0⟩], [], [⟨.put, [1], [5], 1⟩, ⟨.put, [2], [6], 7⟩]⟩
    let clock : Nat → Int := fun n => n
    (s.txnAt clock good).2 = .ok (true, [⟨[1], [5], ⟨1, 0⟩⟩]) ∧
    (∃ s' evs, good.thenOps.foldlM KVStore.perform s = some s' ∧
      s'.backend.events = s.backend.events ++ evs ∧
      (s.txnAt clock good).1 = { s' with eventCh := s.eventCh ++ evs }) ∧
    (s.txnAt clock bad).2 = .error (.notFound 7) ∧ (s.txnAt clock bad).1 = s := by
  refine ⟨by decide +kernel, ?_, by decide +kernel, ?_⟩
  · exact ((txn_atomic _ _ _).2.1 true [⟨[1], [5], ⟨1, 0⟩⟩] (by decide +kernel)).2
  · exact (txn_atomic _ _ _).1 (.notFound 7) (by decide +kernel)

end LinKV

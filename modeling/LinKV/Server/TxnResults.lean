import LinKV.Mvcc.Transactions
import LinKV.Server.Command

namespace LinKV
set_option autoImplicit true

structure TxnResult where
  succeeded : Bool
  results : List ApiKeyValue
deriving DecidableEq, Repr

/-- `Get`: the value at a position, nil where there is none. -/
def TxnResult.get (r : TxnResult) (i : Int) : Bytes :=
  if i < 0 ∨ r.results.length ≤ i then []
  else (r.results[i.toNat]?.map ApiKeyValue.value).getD []

/-- The operations that are to have an entry in the results. -/
def Operation.isGet (op : Operation) : Bool := op.type = .get

/-- `kv` tells the value of the key and the revision that gave it. A deleted key is not named. -/
def KVStore.Describes (s : KVStore) (key : Bytes) (kv : KeyValue) : Prop :=
  (s.versions key).getLast?.map ValueRevision.rev = some kv.rev ∧
    kv.value = (s.value key 0).getD [] ∧ kv.key = if (s.value key 0).isSome then key else []

namespace KVStore

section

variable {s : KVStore} {op : Operation} {ops : List Operation}

theorem txnOp_results (h : op.type ≠ .get) : (s.txnOp op).2.1 = [] := by
  unfold txnOp
  cases htype : op.type with
  | get => exact absurd htype h
  | put | delete | other => rfl

theorem txnOp_get (hr : Represents h s.backend) (htype : op.type = .get)
    (hw : s.versions op.key ≠ []) :
    ∃ kv, (s.txnOp op).2.1 = [kv] ∧ s.Describes op.key kv := by
  obtain ⟨versions, hg⟩ : ∃ versions, s.backend.getRevisions op.key = some versions := by
    cases hg : s.backend.getRevisions op.key with
    | none =>
      refine absurd ?_ hw
      rw [versions, hg]
      rfl
    | some versions => exact ⟨versions, rfl⟩
  have hv : s.versions op.key = versions.list := MemoryBackend.getRevisions_eq_some hg
  have hlast : (s.versions op.key).getLast? = some versions.latest := by
    rw [hv]
    exact List.getLast?_eq_some_getLast versions.ne_nil
  obtain ⟨i, -, m, -, hstamp⟩ := hr.mem_versions (List.mem_of_getLast? hlast)
  unfold txnOp Describes
  simp only [htype, hg]
  refine ⟨_, rfl, ?_, ?_⟩
  · rw [hlast]
    rfl
  · -- a tombstone has no value
    rw [hr.value_zero, hlast, hstamp]
    cases m with
    | none => exact ⟨rfl, rfl⟩
    | some v => exact ⟨rfl, rfl⟩

theorem txnOp_length (s : KVStore) (op : Operation) :
    (s.txnOp op).2.1.length ≤ [op].countP Operation.isGet ∧
      ((s.txnOp op).2.1.length = [op].countP Operation.isGet → op.type = .get →
        s.versions op.key ≠ []) := by
  rw [List.countP_singleton, Operation.isGet]
  by_cases htype : op.type = .get
  · rw [if_pos (decide_eq_true htype)]
    unfold txnOp
    rw [htype]
    dsimp only
    cases hg : s.backend.getRevisions op.key with
    | none => exact ⟨Nat.zero_le 1, fun hlen _ => absurd hlen Nat.zero_ne_one⟩
    | some versions =>
      have hv : s.versions op.key = versions.list := MemoryBackend.getRevisions_eq_some hg
      exact ⟨Nat.le_refl 1, fun _ _ => hv ▸ versions.ne_nil⟩
  · rw [txnOp_results htype]
    exact ⟨Nat.zero_le _, fun _ h => absurd h htype⟩

theorem runOps_append (s : KVStore) (pre post : List Operation) :
    (s.runOps (pre ++ post)).2.1 = (s.runOps pre).2.1 ++ ((s.runOps pre).1.runOps post).2.1 := by
  induction pre generalizing s with
  | nil => rfl
  | cons op pre ih =>
    dsimp only [List.cons_append, runOps]
    rw [ih, List.append_assoc]

/-- Every operation that reads finds its key with versions. -/
def ReadsWritten (s : KVStore) (ops : List Operation) : Prop :=
  ∀ pre op post, ops = pre ++ op :: post → op.type = .get →
    (s.runOps pre).1.versions op.key ≠ []

theorem readsWritten_cons : s.ReadsWritten (op :: ops) ↔
    (op.type = .get → s.versions op.key ≠ []) ∧ (s.txnOp op).1.ReadsWritten ops := by
  constructor
  · intro h
    refine ⟨h [] op ops rfl, fun pre op' post he => ?_⟩
    exact h (op :: pre) op' post (congrArg (op :: ·) he)
  · rintro ⟨hop, hops⟩ pre op' post he
    cases pre with
    | nil =>
      obtain ⟨rfl, rfl⟩ := List.cons.inj he
      exact hop
    | cons op₀ pre =>
      obtain ⟨rfl, rfl⟩ := List.cons.inj he
      exact hops pre op' post rfl

instance ReadsWritten.decidable : (s : KVStore) → (ops : List Operation) →
    Decidable (s.ReadsWritten ops)
  | _, [] => isTrue fun pre _ _ he =>
    absurd he.symm (List.append_ne_nil_of_right_ne_nil pre (List.cons_ne_nil _ _))
  | s, op :: ops =>
    have : Decidable ((s.txnOp op).1.ReadsWritten ops) := ReadsWritten.decidable _ ops
    decidable_of_iff _ readsWritten_cons.symm

theorem ReadsWritten.left (h : s.ReadsWritten (pre ++ post)) : s.ReadsWritten pre := by
  intro l op l' he
  apply h l op (l' ++ post)
  rw [he, List.append_assoc, List.cons_append]

theorem ReadsWritten.length (hr : Represents h s.backend) (hw : s.ReadsWritten ops) :
    (s.runOps ops).2.1.length = ops.countP Operation.isGet := by
  induction ops using List.reverseRecOn with
  | nil => rfl
  | append_singleton ops op ih =>
    rw [runOps_append, List.length_append, ih hw.left, List.countP_append]
    congr 1
    dsimp only [runOps]
    rw [List.append_nil]
    by_cases htype : op.type = .get
    · obtain ⟨kv, hkv, -⟩ := txnOp_get (hr.runOps ops) htype (hw ops op [] rfl htype)
      rw [hkv, List.countP_singleton, Operation.isGet, if_pos (decide_eq_true htype)]
      rfl
    · rw [txnOp_results htype, List.countP_singleton, Operation.isGet,
        if_neg (mt of_decide_eq_true htype)]
      rfl

theorem runOps_length_le (s : KVStore) (ops : List Operation) :
    (s.runOps ops).2.1.length ≤ ops.countP Operation.isGet := by
  induction ops generalizing s with
  | nil => exact Nat.le_refl 0
  | cons op ops ih =>
    rw [← List.singleton_append, List.countP_append]
    dsimp only [List.singleton_append, runOps]
    rw [List.length_append]
    exact Nat.add_le_add (txnOp_length s op).1 (ih _)

theorem ReadsWritten.of_length (h : (s.runOps ops).2.1.length = ops.countP Operation.isGet) :
    s.ReadsWritten ops := by
  induction ops generalizing s with
  | nil =>
    intro pre op post he
    exact absurd he.symm (List.append_ne_nil_of_right_ne_nil pre (List.cons_ne_nil op post))
  | cons op ops ih =>
    rw [← List.singleton_append, List.countP_append] at h
    dsimp only [List.singleton_append, runOps] at h
    rw [List.length_append] at h
    obtain ⟨hop, hwritten⟩ := txnOp_length s op
    have hops := runOps_length_le (s.txnOp op).1 ops
    exact readsWritten_cons.2 ⟨hwritten (by omega), ih (by omega)⟩

theorem ReadsWritten.entry (hr : Represents h s.backend)
    (hw : s.ReadsWritten (pre ++ op :: post)) (htype : op.type = .get) :
    ∃ kv, (s.runOps (pre ++ op :: post)).2.1[pre.countP Operation.isGet]? = some kv ∧
      (s.runOps pre).1.Describes op.key kv := by
  obtain ⟨kv, hkv, hd⟩ := txnOp_get (hr.runOps pre) htype (hw pre op post rfl htype)
  refine ⟨kv, ?_, hd⟩
  rw [runOps_append, ← hw.left.length hr, List.getElem?_append_right (Nat.le_refl _), Nat.sub_self]
  dsimp only [runOps]
  rw [hkv]
  rfl

end

end KVStore

theorem TxnResult.get_fromMVCC {kvs : List KeyValue} {i : Nat} (h : kvs[i]? = some kv) (b : Bool) :
    TxnResult.get ⟨b, fromMVCCKeyValues kvs⟩ i = kv.value := by
  have hlt := (List.getElem?_eq_some_iff.1 h).1
  unfold TxnResult.get fromMVCCKeyValues
  rw [List.length_map, if_neg (by omega), Int.toNat_natCast, List.getElem?_map, h]
  rfl

/-- The results of a transaction have one entry for each operation that reads exactly when each
of these finds its key with versions. The entries then come in the order of the operations, each
describes the key as the operations before have left it, and `TxnResult.Get` gives the client its
value. -/
theorem txn_results_positional {s : KVStore} {clock : Nat → Int} {t : Txn} {b : Bool}
    {kvs : List KeyValue} (hs : s.Reachable) (hok : (s.txnAt clock t).2 = .ok (b, kvs)) :
    (kvs.length = (t.branch b).countP Operation.isGet ↔ s.ReadsWritten (t.branch b)) ∧
    (s.ReadsWritten (t.branch b) →
      ∀ pre op post, t.branch b = pre ++ op :: post → op.type = .get →
        ∃ kv, kvs[pre.countP Operation.isGet]? = some kv ∧
          (s.runOps pre).1.Describes op.key kv ∧
          TxnResult.get ⟨b, fromMVCCKeyValues kvs⟩ (pre.countP Operation.isGet) =
            ((s.runOps pre).1.value op.key 0).getD []) := by
  obtain ⟨-, h, hr⟩ := hs.represents
  rcases KVStore.txnAt_cases s clock t with ⟨e, he⟩ | ⟨now, hnow⟩
  · rw [he] at hok
    cases hok
  · rw [hnow] at hok
    obtain ⟨-, rfl, rfl, -⟩ := KVStore.txn_ok hok
    refine ⟨⟨.of_length, fun hw => hw.length hr⟩, fun hw pre op post hops htype => ?_⟩
    have hbranch : s.txnOps t = pre ++ op :: post := hops
    rw [hops] at hw
    obtain ⟨kv, hkv, hd⟩ := hw.entry hr htype
    rw [hbranch]
    refine ⟨kv, hkv, hd, ?_⟩
    rw [TxnResult.get_fromMVCC hkv, hd.2.1]

/-- One key has been deleted before it is read, and the other one is written before. -/
theorem txn_results_positional_deleted :
    let s := ((KVStore.new.put 0 [1] [5] 0).1.delete [1]).1
    let t : Txn := ⟨[], [⟨.get, [1], [], 0⟩, ⟨.put, [2], [6], 0⟩, ⟨.get, [2], [], 0⟩], []⟩
    let kvs : List KeyValue := [⟨[], [], ⟨2, 0⟩⟩, ⟨[2], [6], ⟨3, 0⟩⟩]
    s.Reachable ∧ (s.txnAt (fun _ => 0) t).2 = .ok (true, kvs) ∧
    TxnResult.get ⟨true, fromMVCCKeyValues kvs⟩ 1 = [6] := by
  intro s t kvs
  have hs : s.Reachable := .op (.delete [1]) (.op (.put 0 [1] [5] 0) .new rfl) rfl
  have hok : (s.txnAt (fun _ => 0) t).2 = .ok (true, kvs) := by decide +kernel
  have hw : s.ReadsWritten (t.branch true) := by decide +kernel
  obtain ⟨kv, -, -, hget⟩ := (txn_results_positional hs hok).2 hw
    [⟨.get, [1], [], 0⟩, ⟨.put, [2], [6], 0⟩] ⟨.get, [2], [], 0⟩ [] rfl rfl
  exact ⟨hs, hok, hget.trans (by decide +kernel)⟩

/-- A key that was never written has no entry: the first entry is that of the second key, and the
client reads its value in the place of the first one. -/
theorem txn_results_positional_fails :
    let s := (KVStore.new.put 0 [2] [7] 0).1
    let t : Txn := ⟨[], [⟨.get, [1], [], 0⟩, ⟨.get, [2], [], 0⟩], []⟩
    let kvs : List KeyValue := [⟨[2], [7], ⟨1, 0⟩⟩]
    s.Reachable ∧ (s.txnAt (fun _ => 0) t).2 = .ok (true, kvs) ∧
    (t.branch true).countP Operation.isGet = 2 ∧
    TxnResult.get ⟨true, fromMVCCKeyValues kvs⟩ 0 = [7] ∧ s.value [1] 0 = none ∧
    TxnResult.get ⟨true, fromMVCCKeyValues kvs⟩ 1 = [] ∧ s.value [2] 0 = some [7] := by
  refine ⟨.op (.put 0 [2] [7] 0) .new rfl, ?_⟩
  decide +kernel

end LinKV

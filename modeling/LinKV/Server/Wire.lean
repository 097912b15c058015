import LinKV.Server.Command
import Mathlib.Data.List.Forall2

namespace LinKV
set_option autoImplicit true

def uint8 (x : Int) : Int := x % 2 ^ 8

def OpType.code : OpType → Int
  | .get => 0
  | .put => 1
  | .delete => 2
  | .other type => type

def OpType.ofCode (type : Int) : OpType :=
  if type = 0 then .get else if type = 1 then .put else if type = 2 then .delete else .other type

def CompareOp.code : CompareOp → Int
  | .equal => 0
  | .greater => 1
  | .less => 2
  | .other op => op

def CompareOp.ofCode (op : Int) : CompareOp :=
  if op = 0 then .equal else if op = 1 then .greater else if op = 2 then .less else .other op

def CmdType.ofCode (type : Int) : CmdType :=
  if type = 0 then .put else if type = 1 then .get else if type = 2 then .delete
  else .other type.toNat

def Kind.code : Kind → Nat
  | .kv => 0
  | .txn => 1
  | .leaseGrant => 2
  | .leaseRevoke => 3
  | .leaseKeepAlive => 4
  | .other kind => kind

def Kind.ofCode (kind : Int) : Kind :=
  if kind = 0 then .kv else if kind = 1 then .txn else if kind = 2 then .leaseGrant
  else if kind = 3 then .leaseRevoke else if kind = 4 then .leaseKeepAlive
  else .other kind.toNat

/-- The conversions `command.TxnOpType(t)` and `command.TxnCompareOp(op)`: both are `uint8`. -/
def OpType.toTxnOpType (t : OpType) : OpType := .ofCode (uint8 t.code)

def CompareOp.toTxnCompareOp (op : CompareOp) : CompareOp := .ofCode (uint8 op.code)

/-- `pb.Compare` of the API and `commandpb.TxnCompare`. The enums of proto3 are open. -/
structure PbCompare where
  key : Bytes
  op : Int32
  rev : Int
deriving DecidableEq, Repr

structure PbOp where
  type : Int32
  key : Bytes
  value : Bytes
  leaseId : Int
deriving DecidableEq, Repr

/-- `pb.TxnRequest` of the API and `commandpb.TxnCommand`; an item of a list may be nil. -/
structure PbTxn where
  compares : List (Option PbCompare)
  thenOps : List (Option PbOp)
  elseOps : List (Option PbOp)
  clientId : Int
  seq : Int
deriving DecidableEq, Repr

structure PbKVCommand where
  type : Int32
  key : Bytes
  value : Bytes
  clientId : Int
  seq : Int
  leaseId : Int
deriving DecidableEq, Repr

structure PbLeaseGrantCommand where
  ttl : Int
  clientId : Int
  seq : Int
deriving DecidableEq, Repr

/-- `commandpb.LeaseRevokeCommand` and `commandpb.LeaseKeepAliveCommand`. -/
structure PbLeaseCommand where
  id : Int
  clientId : Int
  seq : Int
deriving DecidableEq, Repr

/-- The `oneof` of a command; the message in it may be nil. -/
inductive PbBody where
  | kv (m : Option PbKVCommand)
  | txn (m : Option PbTxn)
  | leaseGrant (m : Option PbLeaseGrantCommand)
  | leaseRevoke (m : Option PbLeaseCommand)
  | leaseKeepAlive (m : Option PbLeaseCommand)
deriving DecidableEq, Repr

structure PbCommand where
  kind : Int32
  body : Option PbBody
deriving DecidableEq, Repr

namespace Pb

def compareEqual : Int32 := 0
def compareGreater : Int32 := 1
def compareLess : Int32 := 2
def opGet : Int32 := 0
def opPut : Int32 := 1
def opDelete : Int32 := 2

end Pb

def fromPBCompareOp (op : Int32) : CompareOp :=
  if op = Pb.compareEqual then .equal else if op = Pb.compareGreater then .greater else .less

def fromPBOpType (op : Int32) : OpType :=
  if op = Pb.opPut then .put else if op = Pb.opGet then .get else .delete

/-- The loop of every conversion of a list: it passes over nil and appends what it makes of the
other items. -/
def convertItems (f : α → β) (items : List (Option α)) : List (Option β) :=
  items.filterMap fun item => item.map fun x => some (f x)

abbrev TxnRequest := TxnCommand

def fromPBTxnRequest (req : PbTxn) : TxnRequest where
  compares := convertItems (fun item => ⟨item.key, fromPBCompareOp item.op, item.rev⟩) req.compares
  thenOps := convertItems
    (fun item => ⟨fromPBOpType item.type, item.key, item.value, item.leaseId⟩) req.thenOps
  elseOps := convertItems
    (fun item => ⟨fromPBOpType item.type, item.key, item.value, item.leaseId⟩) req.elseOps
  clientID := req.clientId
  seq := req.seq

def toTxnCommand (req : TxnRequest) : TxnCommand where
  compares := convertItems
    (fun item => ⟨item.key, item.op.toTxnCompareOp, item.rev⟩) req.compares
  thenOps := convertItems
    (fun item => ⟨item.type.toTxnOpType, item.key, item.value, item.leaseID⟩) req.thenOps
  elseOps := convertItems
    (fun item => ⟨item.type.toTxnOpType, item.key, item.value, item.leaseID⟩) req.elseOps
  clientID := req.clientID
  seq := req.seq

def toPBKVCommand (cmd : KVCommand) : PbKVCommand :=
  ⟨.ofInt cmd.type.code, cmd.key, cmd.value, cmd.clientID, cmd.seq, cmd.leaseID⟩

def fromPBKVCommand (m : PbKVCommand) : KVCommand :=
  ⟨.ofCode (uint8 m.type.toInt), m.key, m.value, m.clientId, m.seq, m.leaseId⟩

def toPBTxnCommand (cmd : TxnCommand) : PbTxn where
  compares := convertItems (fun item => ⟨item.key, .ofInt item.op.code, item.rev⟩) cmd.compares
  thenOps := convertItems
    (fun item => ⟨.ofInt item.type.code, item.key, item.value, item.leaseID⟩) cmd.thenOps
  elseOps := convertItems
    (fun item => ⟨.ofInt item.type.code, item.key, item.value, item.leaseID⟩) cmd.elseOps
  clientId := cmd.clientID
  seq := cmd.seq

def fromPBTxnCommand (m : PbTxn) : TxnCommand where
  compares := convertItems
    (fun item => ⟨item.key, .ofCode (uint8 item.op.toInt), item.rev⟩) m.compares
  thenOps := convertItems
    (fun item => ⟨.ofCode (uint8 item.type.toInt), item.key, item.value, item.leaseId⟩) m.thenOps
  elseOps := convertItems
    (fun item => ⟨.ofCode (uint8 item.type.toInt), item.key, item.value, item.leaseId⟩) m.elseOps
  clientID := m.clientId
  seq := m.seq

def toPBLeaseGrantCommand (cmd : LeaseGrantCommand) : PbLeaseGrantCommand :=
  ⟨cmd.ttl, cmd.clientID, cmd.seq⟩

def fromPBLeaseGrantCommand (m : PbLeaseGrantCommand) : LeaseGrantCommand :=
  ⟨m.ttl, m.clientId, m.seq⟩

def toPBLeaseCommand (cmd : LeaseCommand) : PbLeaseCommand := ⟨cmd.id, cmd.clientID, cmd.seq⟩

def fromPBLeaseCommand (m : PbLeaseCommand) : LeaseCommand := ⟨m.id, m.clientId, m.seq⟩

def toPBCommand (cmd : Command) : PbCommand where
  kind := .ofInt cmd.kind.code
  body :=
    match cmd.kind with
    | .kv => some (.kv (cmd.kv.map toPBKVCommand))
    | .txn => some (.txn (cmd.txn.map toPBTxnCommand))
    | .leaseGrant => some (.leaseGrant (cmd.leaseGrant.map toPBLeaseGrantCommand))
    | .leaseRevoke => some (.leaseRevoke (cmd.leaseRevoke.map toPBLeaseCommand))
    | .leaseKeepAlive => some (.leaseKeepAlive (cmd.leaseKeepAlive.map toPBLeaseCommand))
    | .other _ => none

def fromPBCommand (m : PbCommand) : Command :=
  let kind := .ofCode (uint8 m.kind.toInt)
  match m.body with
  | some (.kv body) => { kind := kind, kv := body.map fromPBKVCommand }
  | some (.txn body) => { kind := kind, txn := body.map fromPBTxnCommand }
  | some (.leaseGrant body) => { kind := kind, leaseGrant := body.map fromPBLeaseGrantCommand }
  | some (.leaseRevoke body) => { kind := kind, leaseRevoke := body.map fromPBLeaseCommand }
  | some (.leaseKeepAlive body) =>
    { kind := kind, leaseKeepAlive := body.map fromPBLeaseCommand }
  | none => { kind := kind }

def PbTxn.Proper (m : PbTxn) : Prop :=
  none ∉ m.compares ∧ none ∉ m.thenOps ∧ none ∉ m.elseOps

/-- There is no nil in the message, for which the encoding has nothing. -/
def PbCommand.Proper (m : PbCommand) : Prop :=
  match m.body with
  | some (.kv body) => body ≠ none
  | some (.txn body) => ∃ t, body = some t ∧ t.Proper
  | some (.leaseGrant body) => body ≠ none
  | some (.leaseRevoke body) | some (.leaseKeepAlive body) => body ≠ none
  | none => True

/-- `proto.Marshal` and `proto.Unmarshal` of commands, which keep every message without nil. -/
structure Protobuf (β : Type) where
  marshal : PbCommand → β
  unmarshal : β → Option PbCommand
  faithful : ∀ m : PbCommand, m.Proper → unmarshal (marshal m) = some m

namespace Protobuf

variable (proto : Protobuf β)

def encode (cmd : Command) : β := proto.marshal (toPBCommand cmd)

def decode (data : β) : Option Command := (proto.unmarshal data).map fromPBCommand

def txnCommand (req : TxnRequest) : Command := { kind := .txn, txn := some (toTxnCommand req) }

/-- What the store is to do for a transaction that comes in as `req`, when its command is taken
from the log. -/
def arrivingTxn (req : PbTxn) : Option Txn :=
  (proto.decode (proto.encode (txnCommand (fromPBTxnRequest req)))).bind fun cmd =>
    cmd.txn.map toMVCCTxn

end Protobuf

section

theorem convertItems_convertItems (f : α → β) (g : β → γ) (items : List (Option α)) :
    convertItems g (convertItems f items) = convertItems (fun x => g (f x)) items := by
  unfold convertItems
  rw [List.filterMap_filterMap]
  congr 1
  funext item
  cases item <;> rfl

theorem filterMap_convertItems (f : α → β) (items : List (Option α)) :
    (convertItems f items).filterMap id = (items.filterMap id).map f := by
  unfold convertItems
  rw [List.filterMap_filterMap, List.map_filterMap]
  congr 1
  funext item
  cases item <;> rfl

theorem none_notMem_convertItems (f : α → β) (items : List (Option α)) :
    none ∉ convertItems f items := by
  intro h
  obtain ⟨item, -, hitem⟩ := List.mem_filterMap.1 h
  cases item <;> cases hitem

theorem convertItems_eq_self {f : α → α} {items : List (Option α)} (hn : none ∉ items)
    (hf : ∀ x, some x ∈ items → f x = x) : convertItems f items = items := by
  induction items with
  | nil => rfl
  | cons item items ih =>
    rw [List.mem_cons, not_or] at hn
    cases item with
    | none => exact absurd rfl hn.1
    | some x =>
      have hrest := ih hn.2 fun y hy => hf y (List.mem_cons_of_mem _ hy)
      have hx := hf x List.mem_cons_self
      change some (f x) :: convertItems f items = _
      rw [hx, hrest]

theorem uint8_uint8 (x : Int) : uint8 (uint8 x) = uint8 x := Int.emod_emod_of_dvd x (by decide)

theorem uint8_toInt_ofInt (x : Int) : uint8 (Int32.ofInt x).toInt = uint8 x := by
  have hdvd : (2 ^ 8 : Int) ∣ (Int32.size : Int) := by decide
  rw [uint8, uint8, Int32.toInt_ofInt, ← Int.emod_emod_of_dvd _ hdvd, Int.bmod_emod,
    Int.emod_emod_of_dvd _ hdvd]

theorem OpType.code_ofCode (x : Int) : (OpType.ofCode x).code = x := by
  unfold ofCode
  grind [OpType.code]

theorem CompareOp.code_ofCode (x : Int) : (CompareOp.ofCode x).code = x := by
  unfold ofCode
  grind [CompareOp.code]

theorem toTxnOpType_toTxnOpType (t : OpType) : t.toTxnOpType.toTxnOpType = t.toTxnOpType := by
  rw [OpType.toTxnOpType, OpType.toTxnOpType, OpType.code_ofCode, uint8_uint8]

theorem toTxnCompareOp_toTxnCompareOp (op : CompareOp) :
    op.toTxnCompareOp.toTxnCompareOp = op.toTxnCompareOp := by
  rw [CompareOp.toTxnCompareOp, CompareOp.toTxnCompareOp, CompareOp.code_ofCode, uint8_uint8]

end

/-- A transaction as `toTxnCommand` makes it: without nil, and with `uint8` codes. -/
structure TxnCommand.Fits (cmd : TxnCommand) : Prop where
  compares : none ∉ cmd.compares
  thenOps : none ∉ cmd.thenOps
  elseOps : none ∉ cmd.elseOps
  compareOp : ∀ x, some x ∈ cmd.compares → x.op.toTxnCompareOp = x.op
  thenType : ∀ x, some x ∈ cmd.thenOps → x.type.toTxnOpType = x.type
  elseType : ∀ x, some x ∈ cmd.elseOps → x.type.toTxnOpType = x.type

/-- The commands that come out of the log as they went in: with the body of their kind only. -/
inductive Command.Encodable : Command → Prop
  | kv (body : KVCommand) : .ofCode (uint8 body.type.code) = body.type →
      Encodable { kind := .kv, kv := some body }
  | txn (body : TxnCommand) : body.Fits → Encodable { kind := .txn, txn := some body }
  | leaseGrant (body : LeaseGrantCommand) :
      Encodable { kind := .leaseGrant, leaseGrant := some body }
  | leaseRevoke (body : LeaseCommand) : Encodable { kind := .leaseRevoke, leaseRevoke := some body }
  | leaseKeepAlive (body : LeaseCommand) :
      Encodable { kind := .leaseKeepAlive, leaseKeepAlive := some body }

theorem toTxnCommand_fits (req : TxnRequest) : (toTxnCommand req).Fits := by
  have hmem {α β : Type} {f : α → β} {items : List (Option α)} {y : β}
      (h : some y ∈ convertItems f items) : ∃ x, f x = y := by
    obtain ⟨item, -, hitem⟩ := List.mem_filterMap.1 h
    obtain ⟨x, -, hx⟩ := Option.map_eq_some_iff.1 hitem
    exact ⟨x, Option.some.inj hx⟩
  refine ⟨none_notMem_convertItems _ _, none_notMem_convertItems _ _,
    none_notMem_convertItems _ _, ?_, ?_, ?_⟩
  · intro x hx
    obtain ⟨item, rfl⟩ := hmem hx
    exact toTxnCompareOp_toTxnCompareOp item.op
  · intro x hx
    obtain ⟨item, rfl⟩ := hmem hx
    exact toTxnOpType_toTxnOpType item.type
  · intro x hx
    obtain ⟨item, rfl⟩ := hmem hx
    exact toTxnOpType_toTxnOpType item.type

theorem fromPBTxnCommand_toPBTxnCommand {cmd : TxnCommand} (h : cmd.Fits) :
    fromPBTxnCommand (toPBTxnCommand cmd) = cmd := by
  have hop {ops : List (Option Operation)} (hn : none ∉ ops)
      (ht : ∀ x, some x ∈ ops → x.type.toTxnOpType = x.type) :
      convertItems (fun x : Operation => (⟨.ofCode (uint8 (Int32.ofInt x.type.code).toInt), x.key,
        x.value, x.leaseID⟩ : Operation)) ops = ops := by
    apply convertItems_eq_self hn
    intro x hx
    rw [uint8_toInt_ofInt]
    exact congrArg (fun type => { x with type := type }) (ht x hx)
  have hcompare : convertItems (fun x : Compare => (⟨x.key,
      .ofCode (uint8 (Int32.ofInt x.op.code).toInt), x.rev⟩ : Compare)) cmd.compares =
      cmd.compares := by
    apply convertItems_eq_self h.compares
    intro x hx
    rw [uint8_toInt_ofInt]
    exact congrArg (fun op => { x with op := op }) (h.compareOp x hx)
  rw [fromPBTxnCommand, toPBTxnCommand]
  dsimp only
  rw [convertItems_convertItems, convertItems_convertItems, convertItems_convertItems]
  dsimp only
  rw [hcompare, hop h.thenOps h.thenType, hop h.elseOps h.elseType]

/-- Commands survive the log. -/
theorem Protobuf.decode_encode (proto : Protobuf β) {cmd : Command} (h : cmd.Encodable) :
    proto.decode (proto.encode cmd) = some cmd := by
  have hproper : (toPBCommand cmd).Proper := by
    cases h with
    | txn body hfits =>
      refine ⟨_, rfl, none_notMem_convertItems _ _, none_notMem_convertItems _ _, ?_⟩
      exact none_notMem_convertItems _ _
    | kv | leaseGrant | leaseRevoke | leaseKeepAlive => exact Option.some_ne_none _
  rw [decode, encode, proto.faithful _ hproper, Option.map_some]
  congr 1
  cases h with
  | kv body hcode =>
    have htype : CmdType.ofCode (uint8 (Int32.ofInt body.type.code).toInt) = body.type := by
      rw [uint8_toInt_ofInt, hcode]
    change ({ kind := .kv, kv := some ⟨_, _, _, _, _, _⟩ } : Command) = _
    rw [toPBKVCommand, htype]
  | txn body hfits =>
    change ({ kind := .txn, txn := some (fromPBTxnCommand (toPBTxnCommand body)) } : Command) = _
    rw [fromPBTxnCommand_toPBTxnCommand hfits]
  | leaseGrant | leaseRevoke | leaseKeepAlive => rfl

/-- The compare has the key and the revision of the message. -/
def PbCompare.Carried (m : PbCompare) (c : Compare) : Prop := c.key = m.key ∧ c.rev = m.rev

/-- The operator is the one of the message. -/
def PbCompare.Means (m : PbCompare) (c : Compare) : Prop :=
  (c.op = .equal ↔ m.op = Pb.compareEqual) ∧ (c.op = .greater ↔ m.op = Pb.compareGreater) ∧
  (c.op = .less ↔ m.op = Pb.compareLess)

def PbCompare.Known (m : PbCompare) : Prop :=
  m.op = Pb.compareEqual ∨ m.op = Pb.compareGreater ∨ m.op = Pb.compareLess

/-- The operation has the key, the value and the lease of the message, and it is a put or a get
exactly if the message says so. -/
def PbOp.Carried (m : PbOp) (op : Operation) : Prop :=
  op.key = m.key ∧ op.value = m.value ∧ op.leaseID = m.leaseId ∧
  (op.type = .put ↔ m.type = Pb.opPut) ∧ (op.type = .get ↔ m.type = Pb.opGet)

def PbOp.Known (m : PbOp) : Prop := m.type = Pb.opGet ∨ m.type = Pb.opPut ∨ m.type = Pb.opDelete

/-- The operation is a delete exactly if the message says so, and a type without a name does not
write. -/
def PbOp.Means (m : PbOp) (op : Operation) : Prop :=
  (op.type = .delete ↔ m.type = Pb.opDelete) ∧
  (¬ m.Known → op.type ≠ .put ∧ op.type ≠ .delete)

/-- All types and operators have a name. -/
structure PbTxn.Known (req : PbTxn) : Prop where
  compares : ∀ m, some m ∈ req.compares → m.Known
  thenOps : ∀ m, some m ∈ req.thenOps → m.Known
  elseOps : ∀ m, some m ∈ req.elseOps → m.Known

section

theorem fromPBOpType_cases (x : Int32) :
    (x = Pb.opPut ∧ fromPBOpType x = .put) ∨ (x = Pb.opGet ∧ fromPBOpType x = .get) ∨
    (x ≠ Pb.opPut ∧ x ≠ Pb.opGet ∧ fromPBOpType x = .delete) := by
  unfold fromPBOpType
  grind

theorem fromPBCompareOp_cases (x : Int32) :
    (x = Pb.compareEqual ∧ fromPBCompareOp x = .equal) ∨
    (x = Pb.compareGreater ∧ fromPBCompareOp x = .greater) ∨
    (x ≠ Pb.compareEqual ∧ x ≠ Pb.compareGreater ∧ fromPBCompareOp x = .less) := by
  unfold fromPBCompareOp
  grind

theorem toTxnOpType_fromPBOpType (x : Int32) : (fromPBOpType x).toTxnOpType = fromPBOpType x := by
  obtain ⟨-, h⟩ | ⟨-, h⟩ | ⟨-, -, h⟩ := fromPBOpType_cases x
  all_goals rw [h]; rfl

theorem toTxnCompareOp_fromPBCompareOp (x : Int32) :
    (fromPBCompareOp x).toTxnCompareOp = fromPBCompareOp x := by
  obtain ⟨-, h⟩ | ⟨-, h⟩ | ⟨-, -, h⟩ := fromPBCompareOp_cases x
  all_goals rw [h]; rfl

/-- What becomes of the items of a request. -/
def PbCompare.compare (m : PbCompare) : Compare := ⟨m.key, fromPBCompareOp m.op, m.rev⟩

def PbOp.operation (m : PbOp) : Operation := ⟨fromPBOpType m.type, m.key, m.value, m.leaseId⟩

theorem PbOp.carried_operation (m : PbOp) : m.Carried m.operation := by
  refine ⟨rfl, rfl, rfl, ?_⟩
  change (fromPBOpType m.type = .put ↔ _) ∧ (fromPBOpType m.type = .get ↔ _)
  obtain ⟨hm, h⟩ | ⟨hm, h⟩ | ⟨hp, hg, h⟩ := fromPBOpType_cases m.type
  · rw [h, hm]
    decide
  · rw [h, hm]
    decide
  · rw [h]
    exact ⟨iff_of_false OpType.noConfusion hp, iff_of_false OpType.noConfusion hg⟩

/-- Only a type with a name keeps its meaning: any other arrives as a delete. -/
theorem PbOp.means_operation_iff (m : PbOp) : m.Means m.operation ↔ m.Known := by
  change ((fromPBOpType m.type = .delete ↔ _) ∧ (_ → fromPBOpType m.type ≠ _ ∧
    fromPBOpType m.type ≠ _)) ↔ _
  unfold PbOp.Known
  obtain ⟨hm, h⟩ | ⟨hm, h⟩ | ⟨hp, hg, h⟩ := fromPBOpType_cases m.type
  · rw [h, hm]
    decide
  · rw [h, hm]
    decide
  · rw [h]
    constructor
    · intro hmeans
      exact .inr (.inr (hmeans.1.1 rfl))
    · intro hknown
      obtain hm | hm | hm := hknown
      · exact absurd hm hg
      · exact absurd hm hp
      · exact ⟨iff_of_true rfl hm, fun hn => absurd (.inr (.inr hm)) hn⟩

theorem PbCompare.means_compare_iff (m : PbCompare) : m.Means m.compare ↔ m.Known := by
  change ((fromPBCompareOp m.op = .equal ↔ _) ∧ (fromPBCompareOp m.op = .greater ↔ _) ∧
    (fromPBCompareOp m.op = .less ↔ _)) ↔ _
  unfold PbCompare.Known
  obtain ⟨hm, h⟩ | ⟨hm, h⟩ | ⟨he, hg, h⟩ := fromPBCompareOp_cases m.op
  · rw [h, hm]
    decide
  · rw [h, hm]
    decide
  · rw [h]
    constructor
    · intro hmeans
      exact .inr (.inr (hmeans.2.2.1 rfl))
    · intro hknown
      obtain hm | hm | hm := hknown
      · exact absurd hm he
      · exact absurd hm hg
      · exact ⟨iff_of_false CompareOp.noConfusion he, iff_of_false CompareOp.noConfusion hg,
          iff_of_true rfl hm⟩

theorem Protobuf.arrivingTxn_eq (proto : Protobuf β) (req : PbTxn) :
    proto.arrivingTxn req = some ⟨(req.compares.filterMap id).map PbCompare.compare,
      (req.thenOps.filterMap id).map PbOp.operation,
      (req.elseOps.filterMap id).map PbOp.operation⟩ := by
  rw [arrivingTxn, txnCommand, proto.decode_encode (.txn _ (toTxnCommand_fits _)), Option.bind_some]
  change some (toMVCCTxn (toTxnCommand (fromPBTxnRequest req))) = _
  simp only [toMVCCTxn, toTxnCommand, fromPBTxnRequest, filterMap_convertItems, List.map_map,
    Function.comp_def, toTxnOpType_fromPBOpType, toTxnCompareOp_fromPBCompareOp]
  rfl

theorem forall₂_map_iff {R : α → β → Prop} {f : α → β} {items : List (Option α)} :
    List.Forall₂ R (items.filterMap id) ((items.filterMap id).map f) ↔
      ∀ x, some x ∈ items → R x (f x) := by
  rw [List.forall₂_map_right_iff, List.forall₂_same]
  simp only [List.mem_filterMap, id, exists_eq_right]

end

/-- A transaction arrives with its items in order and their data, and with the meaning that its
types and operators have on the wire exactly if all of them have a name there. -/
theorem txn_on_the_wire (proto : Protobuf β) (req : PbTxn) :
    ∃ txn, proto.arrivingTxn req = some txn ∧
    List.Forall₂ PbCompare.Carried (req.compares.filterMap id) txn.compares ∧
    List.Forall₂ PbOp.Carried (req.thenOps.filterMap id) txn.thenOps ∧
    List.Forall₂ PbOp.Carried (req.elseOps.filterMap id) txn.elseOps ∧
    ((List.Forall₂ PbCompare.Means (req.compares.filterMap id) txn.compares ∧
      List.Forall₂ PbOp.Means (req.thenOps.filterMap id) txn.thenOps ∧
      List.Forall₂ PbOp.Means (req.elseOps.filterMap id) txn.elseOps) ↔ req.Known) := by
  refine ⟨_, proto.arrivingTxn_eq req, ?_, ?_, ?_, ?_⟩
  · exact forall₂_map_iff.2 fun m _ => ⟨rfl, rfl⟩
  · exact forall₂_map_iff.2 fun m _ => m.carried_operation
  · exact forall₂_map_iff.2 fun m _ => m.carried_operation
  · simp only [forall₂_map_iff, PbCompare.means_compare_iff, PbOp.means_operation_iff]
    constructor
    · intro h
      exact ⟨h.1, h.2.1, h.2.2⟩
    · intro h
      exact ⟨h.compares, h.thenOps, h.elseOps⟩

/-- Protobuf without bytes. -/
def Protobuf.plain : Protobuf PbCommand := ⟨id, some, fun _ _ => rfl⟩

/-- An operation of type 3 deletes its key, and a compare with operator 3 is a `CompareLess`. -/
theorem txn_on_the_wire_unknown :
    Protobuf.plain.arrivingTxn ⟨[some ⟨[1], 3, 5⟩], [some ⟨3, [1], [7], 0⟩], [], 1, 1⟩ =
      some ⟨[⟨[1], .less, 5⟩], [⟨.delete, [1], [7], 0⟩], []⟩ ∧
    ¬ PbOp.Known ⟨3, [1], [7], 0⟩ ∧ (3 : Int32) ≠ Pb.opDelete ∧ (3 : Int32) ≠ Pb.compareLess := by
  refine ⟨by decide +kernel, ?_, by decide, by decide⟩
  unfold PbOp.Known
  decide

end LinKV

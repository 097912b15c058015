import LinKV.Mvcc.Store

namespace LinKV
set_option autoImplicit true

/-- `command.Kind`; a decoded command may carry a value without a name. -/
inductive Kind where
  | kv
  | txn
  | leaseGrant
  | leaseRevoke
  | leaseKeepAlive
  | other (kind : Nat)
deriving DecidableEq, Repr

/-- `command.Type` of a `KVCommand`. -/
inductive CmdType where
  | put
  | get
  | delete
  | other (type : Nat)
deriving DecidableEq, Repr

def CmdType.code : CmdType → Nat
  | .put => 0
  | .get => 1
  | .delete => 2
  | .other type => type

structure KVCommand where
  type : CmdType
  key : Bytes
  value : Bytes
  clientID : Int
  seq : Int
  leaseID : Int
deriving DecidableEq, Repr

/-- `TxnCommand`; an item of a list may be nil. -/
structure TxnCommand where
  compares : List (Option Compare)
  thenOps : List (Option Operation)
  elseOps : List (Option Operation)
  clientID : Int
  seq : Int
deriving DecidableEq, Repr

structure LeaseGrantCommand where
  ttl : Int
  clientID : Int
  seq : Int
deriving DecidableEq, Repr

structure LeaseCommand where
  id : Int
  clientID : Int
  seq : Int
deriving DecidableEq, Repr

/-- A command of the log: its kind and the bodies, which may be nil. -/
structure Command where
  kind : Kind
  kv : Option KVCommand := none
  txn : Option TxnCommand := none
  leaseGrant : Option LeaseGrantCommand := none
  leaseRevoke : Option LeaseCommand := none
  leaseKeepAlive : Option LeaseCommand := none
deriving DecidableEq, Repr

namespace Command

def clientID (c : Command) : Int :=
  match c.kind with
  | .kv => (c.kv.map KVCommand.clientID).getD 0
  | .txn => (c.txn.map TxnCommand.clientID).getD 0
  | .leaseGrant => (c.leaseGrant.map LeaseGrantCommand.clientID).getD 0
  | .leaseRevoke => (c.leaseRevoke.map LeaseCommand.clientID).getD 0
  | .leaseKeepAlive => (c.leaseKeepAlive.map LeaseCommand.clientID).getD 0
  | .other _ => 0

def seq (c : Command) : Int :=
  match c.kind with
  | .kv => (c.kv.map KVCommand.seq).getD 0
  | .txn => (c.txn.map TxnCommand.seq).getD 0
  | .leaseGrant => (c.leaseGrant.map LeaseGrantCommand.seq).getD 0
  | .leaseRevoke => (c.leaseRevoke.map LeaseCommand.seq).getD 0
  | .leaseKeepAlive => (c.leaseKeepAlive.map LeaseCommand.seq).getD 0
  | .other _ => 0

end Command

/-- The errors a command can be applied with. One that went through a snapshot is only a text. -/
inductive ApplyError where
  | lease (e : LeaseError)
  | unknownKind (kind : Nat)
  | nilBody (name : String)
  | unsupportedType (type : Nat)
  | text (message : {t : String // t ≠ ""})
deriving DecidableEq, Repr

def ApplyError.message : ApplyError → String
  | .lease e => e.message
  | .unknownKind kind => s!"Unknown command kind: {kind}"
  | .nilBody name => s!"nil {name} command"
  | .unsupportedType type => s!"unsupported kv command type {type}"
  | .text message => message.1

structure ApiKeyValue where
  key : Bytes
  value : Bytes
  revision : Int
deriving DecidableEq, Repr

/-- `kvserver.Result`, with Go's zero values. -/
structure Result where
  kind : Kind := .kv
  clientID : Int := 0
  seq : Int := 0
  err : Option ApplyError := none
  rev : Option Revision := none
  value : Bytes := []
  found : Bool := false
  txnSucceeded : Bool := false
  txnResults : List ApiKeyValue := []
  leaseID : Int := 0
  leaseTTL : Int := 0
  rangeResults : List ApiKeyValue := []
deriving DecidableEq, Repr

def toMVCCTxn (cmd : TxnCommand) : Txn where
  compares := cmd.compares.filterMap id
  thenOps := cmd.thenOps.filterMap id
  elseOps := cmd.elseOps.filterMap id

def fromMVCCKeyValues (items : List KeyValue) : List ApiKeyValue :=
  items.map fun item => ⟨item.key, item.value, item.rev.main⟩

/-- What the process adds to a command when it applies it: a reading of the clock, and the order
in which a loop over the keys of the lease it revokes meets them. -/
structure Ambient where
  now : Int
  keys : List Bytes
deriving DecidableEq, Repr

namespace KVStore

def applyKV (s : KVStore) (e : Ambient) (cmd : KVCommand) : KVStore × Result :=
  match cmd.type with
  | .put =>
    match s.put e.now cmd.key cmd.value cmd.leaseID with
    | (s, .error err) => (s, { err := some (.lease err) })
    | (s, .ok rev) => (s, { rev := some rev })
  | .delete => ((s.delete cmd.key).1, { rev := some (s.delete cmd.key).2 })
  | type => (s, { err := some (.unsupportedType type.code) })

def applyTxn (s : KVStore) (e : Ambient) (cmd : TxnCommand) : KVStore × Result :=
  match s.txn e.now (toMVCCTxn cmd) with
  | (s, .error err) => (s, { err := some (.lease err) })
  | (s, .ok (succeeded, kvs)) =>
    (s, { txnSucceeded := succeeded, txnResults := fromMVCCKeyValues kvs })

def applyLeaseGrant (s : KVStore) (e : Ambient) (cmd : LeaseGrantCommand) : KVStore × Result :=
  ((s.leaseGrant e.now cmd.ttl).1,
    { leaseID := (s.leaseGrant e.now cmd.ttl).2, leaseTTL := cmd.ttl })

def applyLeaseRevoke (s : KVStore) (e : Ambient) (cmd : LeaseCommand) : KVStore × Result :=
  match s.leaseRevoke cmd.id e.keys with
  | (s, .error err) => (s, { err := some (.lease err) })
  | (s, .ok _) => (s, {})

def applyLeaseKeepAlive (s : KVStore) (e : Ambient) (cmd : LeaseCommand) : KVStore × Result :=
  match s.leaseKeepAlive e.now cmd.id with
  | (s, .error err) => (s, { err := some (.lease err) })
  | (s, .ok ttl) => (s, { leaseTTL := ttl, leaseID := cmd.id })

theorem applyKV_put_fst (h : cmd.type = .put) :
    (applyKV s e cmd).1 = (s.put e.now cmd.key cmd.value cmd.leaseID).1 := by
  unfold applyKV
  rw [h]
  rcases s.put e.now cmd.key cmd.value cmd.leaseID with ⟨s', _ | _⟩ <;> rfl

theorem applyTxn_fst : (applyTxn s e cmd).1 = (s.txn e.now (toMVCCTxn cmd)).1 := by
  unfold applyTxn
  rcases s.txn e.now (toMVCCTxn cmd) with ⟨s', _ | _⟩ <;> rfl

theorem applyLeaseRevoke_fst :
    (applyLeaseRevoke s e cmd).1 = (s.leaseRevoke cmd.id e.keys).1 := by
  unfold applyLeaseRevoke
  rcases s.leaseRevoke cmd.id e.keys with ⟨s', _ | _⟩ <;> rfl

theorem applyLeaseKeepAlive_fst :
    (applyLeaseKeepAlive s e cmd).1 = (s.leaseKeepAlive e.now cmd.id).1 := by
  unfold applyLeaseKeepAlive
  rcases s.leaseKeepAlive e.now cmd.id with ⟨s', _ | _⟩ <;> rfl

/-- Every `apply` function refuses a nil body under its own name. -/
def applyBody (s : KVStore) (name : String) (body : Option α)
    (f : KVStore → α → KVStore × Result) : KVStore × Result :=
  match body with
  | none => (s, { err := some (.nilBody name) })
  | some cmd => f s cmd

def applyCommand (s : KVStore) (e : Ambient) (env : Command) : KVStore × Result :=
  match env.kind with
  | .kv => s.applyBody "kv" env.kv (applyKV · e)
  | .txn => s.applyBody "txn" env.txn (applyTxn · e)
  | .leaseGrant => s.applyBody "lease grant" env.leaseGrant (applyLeaseGrant · e)
  | .leaseRevoke => s.applyBody "lease revoke" env.leaseRevoke (applyLeaseRevoke · e)
  | .leaseKeepAlive =>
    s.applyBody "lease keepalive" env.leaseKeepAlive (applyLeaseKeepAlive · e)
  | .other kind => (s, { err := some (.unknownKind kind) })

theorem applyKV_rev (s : KVStore) (e : Ambient) (cmd : KVCommand) :
    (s.applyKV e cmd).2.rev = none ↔ (s.applyKV e cmd).2.err ≠ none := by
  unfold applyKV
  cases cmd.type with
  | put =>
    dsimp only
    rcases s.put e.now cmd.key cmd.value cmd.leaseID with ⟨s', err | rev⟩
    · exact iff_of_true rfl (Option.some_ne_none _)
    · exact iff_of_false (Option.some_ne_none _) (not_not.2 rfl)
  | delete => exact iff_of_false (Option.some_ne_none _) (not_not.2 rfl)
  | get | other => exact iff_of_true rfl (Option.some_ne_none _)

theorem applyCommand_rev (s : KVStore) (e : Ambient) (env : Command) :
    (s.applyCommand e env).2.rev = none ↔
      env.kind ≠ .kv ∨ (s.applyCommand e env).2.err ≠ none := by
  have hbody {α : Type} {name : String} {body : Option α} {f : KVStore → α → KVStore × Result}
      (hb : ∀ cmd, (f s cmd).2.rev = none) : (s.applyBody name body f).2.rev = none := by
    cases body with
    | none => rfl
    | some cmd => exact hb cmd
  unfold applyCommand
  cases env.kind with
  | kv =>
    rw [or_iff_right (not_not.2 rfl)]
    cases env.kv with
    | none => exact iff_of_true rfl (Option.some_ne_none _)
    | some cmd => exact s.applyKV_rev e cmd
  | txn =>
    refine iff_of_true (hbody fun cmd => ?_) (.inl nofun)
    unfold applyTxn
    rcases s.txn e.now (toMVCCTxn cmd) with ⟨s', _ | ⟨_, _⟩⟩ <;> rfl
  | leaseGrant => exact iff_of_true (hbody fun cmd => rfl) (.inl nofun)
  | leaseRevoke =>
    refine iff_of_true (hbody fun cmd => ?_) (.inl nofun)
    unfold applyLeaseRevoke
    rcases s.leaseRevoke cmd.id e.keys with ⟨s', _ | _⟩ <;> rfl
  | leaseKeepAlive =>
    refine iff_of_true (hbody fun cmd => ?_) (.inl nofun)
    unfold applyLeaseKeepAlive
    rcases s.leaseKeepAlive e.now cmd.id with ⟨s', _ | _⟩ <;> rfl
  | other kind => exact iff_of_true rfl (.inl nofun)

end KVStore

end LinKV

import LinKV.Mvcc.Interface
import LinKV.Watch.Hub

namespace LinKV
set_option autoImplicit true

open Calls

abbrev BackendProgram := Program BackendCall.Answer

abbrev call (c : BackendCall) : BackendProgram c.Answer := ask c

/-- A store without its backend: the lease manager, what has been sent to the dispatcher, and the
next ID of a watcher. -/
structure StoreFront where
  keyLease : GoMap Bytes Int
  leases : GoMap Int Lease
  nextLeaseID : Int
  eventCh : List MvccEvent
  nextWatcherID : Int

/-- An order in which `range` meets the keys of each map. -/
structure Ranging (α : Type) [DecidableEq α] where
  order : Finset α → List α
  fair : ∀ keys, RangeOrder (order keys) keys

/-- What a store can be asked for. -/
inductive StoreRequest where
  | put (now : Int) (key value : Bytes) (leaseID : Int)
  | delete (key : Bytes)
  | txn (now : Int) (t : Txn)
  | leaseGrant (now ttl : Int)
  | leaseKeepAlive (now leaseID : Int)
  | leaseRevoke (leaseID : Int) (ranging : Ranging Bytes)
  | compact (rev : Int)
  | get (key : Bytes) (rev : Int)
  | range (startKey endKey : Bytes) (rev : Int)
  | prefixRange (p : Bytes) (rev : Int)
  | watch (key : Bytes) (fromRev : Int) (isPrefix : Bool)
  | snapshot (ranging : Ranging Int)
  | restore (snap : OwnSnapshot)

inductive StoreResponse where
  | put (result : Except LeaseError Revision)
  | delete (rev : Revision)
  | txn (result : Except LeaseError (Bool × List KeyValue))
  | leaseGrant (leaseID : Int)
  | leaseKeepAlive (result : Except LeaseError Int)
  | leaseRevoke (result : Except LeaseError Unit)
  | compact (result : Except CompactError Unit)
  | get (result : Bytes × Int × Bool)
  | range (result : List KeyValue)
  | watch (result : Except CompactError (Int × Watcher))
  | snapshot (message : SnapshotMessage)
  | restore

/-- What a store of the model does with a request. -/
def KVStore.handle (s : KVStore) (nextWatcherID : Int) : StoreRequest → KVStore × StoreResponse
  | .put now key value leaseID =>
    ((s.put now key value leaseID).1, .put (s.put now key value leaseID).2)
  | .delete key => ((s.delete key).1, .delete (s.delete key).2)
  | .txn now t => ((s.txn now t).1, .txn (s.txn now t).2)
  | .leaseGrant now ttl => ((s.leaseGrant now ttl).1, .leaseGrant (s.leaseGrant now ttl).2)
  | .leaseKeepAlive now leaseID =>
    ((s.leaseKeepAlive now leaseID).1, .leaseKeepAlive (s.leaseKeepAlive now leaseID).2)
  | .leaseRevoke leaseID ranging =>
    let out := s.leaseRevoke leaseID (ranging.order (s.leaseKeys leaseID))
    (out.1, .leaseRevoke out.2)
  | .compact rev => ((s.compact rev).1, .compact (s.compact rev).2)
  | .get key rev => (s, .get (s.get key rev))
  | .range startKey endKey rev => (s, .range (s.range startKey endKey rev))
  | .prefixRange p rev => (s, .range (s.prefixRange p rev))
  | .watch key fromRev isPrefix =>
    (s, .watch (if fromRev ≤ s.backend.compactRev then .error .compacted
      else .ok (nextWatcherID, .new s.backend.events key fromRev isPrefix)))
  | .snapshot ranging => (s, .snapshot (s.snapshot (ranging.order s.leases.keys)))
  | .restore snap => (s.restore snap.message, .restore)

/-- Whether the comparison holds for the latest revision of its key. -/
def Compare.holds (t : Compare) (latestRev : Int) : Bool :=
  match t.op with
  | .equal => latestRev = t.rev
  | .greater => t.rev < latestRev
  | .less => latestRev < t.rev
  | .other _ => true

namespace StoreFront

def new : StoreFront := ⟨∅, ∅, 0, [], 0⟩

def on (f : StoreFront) (b : MemoryBackend) : KVStore :=
  ⟨b, f.keyLease, f.leases, f.nextLeaseID, f.eventCh⟩

/-- The front of a store that `f` has become. -/
def after (f : StoreFront) (s : KVStore) : StoreFront :=
  ⟨s.keyLease, s.leases, s.nextLeaseID, s.eventCh, f.nextWatcherID⟩

/-- The lease manager does not look at the backend. -/
def detachKey (f : StoreFront) (key : Bytes) : StoreFront := f.after ((f.on .new).detachKey key)

def bindKeyToLease (f : StoreFront) (key : Bytes) (leaseID : Int) : StoreFront :=
  f.after ((f.on .new).bindKeyToLease key leaseID)

def send (f : StoreFront) (evs : List MvccEvent) : StoreFront :=
  { f with eventCh := f.eventCh ++ evs }

/-- What `putLocked` and `deleteLocked` ask of the backend. -/
def write (type : EventType) (key value : Bytes) (deleted : Bool) : BackendProgram MvccEvent := do
  let currentRev ← call .currentRev
  call (.setCurrentRev (currentRev + 1))
  let rev : Revision := ⟨currentRev + 1, 0⟩
  let versions ← call (.getRevisions key)
  call (.setRevisions key ((versions.map Versions.list).getD [] ++ [⟨rev, value, deleted⟩]))
  let ev : MvccEvent := ⟨type, key, value, rev⟩
  call (.appendEvent ev)
  return ev

def putLocked (key value : Bytes) : BackendProgram MvccEvent := write .put key value false

def deleteLocked (f : StoreFront) (key : Bytes) : BackendProgram (MvccEvent × StoreFront) := do
  let ev ← write .delete key [] true
  return (ev, f.detachKey key)

def put (f : StoreFront) (now : Int) (key value : Bytes) (leaseID : Int) :
    BackendProgram (Except LeaseError Revision × StoreFront) :=
  if leaseID ≠ 0 then
    match (f.on .new).lookupLease now leaseID with
    | .error e => return (.error e, f)
    | .ok _ => do
      let ev ← putLocked key value
      return (.ok ev.rev, (f.bindKeyToLease key leaseID).send [ev])
  else do
    let ev ← putLocked key value
    return (.ok ev.rev, (f.detachKey key).send [ev])

def delete (f : StoreFront) (key : Bytes) : BackendProgram (Revision × StoreFront) := do
  let out ← f.deleteLocked key
  return (out.1.rev, out.2.send [out.1])

/-- The loop of `Txn` over the comparisons, up to the first that fails. -/
def compare : List Compare → BackendProgram Bool
  | [] => return true
  | t :: ts => do
    let versions ← call (.getRevisions t.key)
    if t.holds ((versions.map fun versions => versions.latest.rev.main).getD 0) then compare ts
    else return false

def txnOp (f : StoreFront) (op : Operation) :
    BackendProgram ((List KeyValue × List MvccEvent) × StoreFront) :=
  match op.type with
  | .get => do
    match ← call (.getRevisions op.key) with
    | none => return (([], []), f)
    | some versions =>
      let latest := versions.latest
      -- a tombstone is returned without its key
      return (([⟨if latest.deleted then [] else op.key, latest.value, latest.rev⟩], []), f)
  | .put => do
    let ev ← putLocked op.key op.value
    return (([], [ev]),
      if op.leaseID ≠ 0 then f.bindKeyToLease op.key op.leaseID else f.detachKey op.key)
  | .delete => do
    let out ← f.deleteLocked op.key
    return (([], [out.1]), out.2)
  | .other _ => return (([], []), f)

def runOps (f : StoreFront) :
    List Operation → BackendProgram ((List KeyValue × List MvccEvent) × StoreFront)
  | [] => return (([], []), f)
  | op :: ops => do
    let out ← f.txnOp op
    let rest ← out.2.runOps ops
    return ((out.1.1 ++ rest.1.1, out.1.2 ++ rest.1.2), rest.2)

def txn (f : StoreFront) (now : Int) (t : Txn) :
    BackendProgram (Except LeaseError (Bool × List KeyValue) × StoreFront) := do
  let compareResult ← compare t.compares
  let ops := if compareResult then t.thenOps else t.elseOps
  match (f.on .new).checkLeases now (KVStore.leaseIDs ops) with
  | .error e => return (.error e, f)
  | .ok _ =>
    let out ← f.runOps ops
    return (.ok (compareResult, out.1.1), out.2.send out.1.2)

def deleteAll (f : StoreFront) : List Bytes → BackendProgram (List MvccEvent × StoreFront)
  | [] => return ([], f)
  | key :: keys => do
    let out ← f.deleteLocked key
    let rest ← out.2.deleteAll keys
    return (out.1 :: rest.1, rest.2)

def leaseRevoke (f : StoreFront) (leaseID : Int) (ranging : Ranging Bytes) :
    BackendProgram (Except LeaseError Unit × StoreFront) :=
  match f.leases.lookup leaseID with
  | none => return (.error (.notFound leaseID), f)
  | some lease => do
    let out ← { f with leases := f.leases.erase leaseID }.deleteAll (ranging.order lease.keys)
    return (.ok (), out.2.send out.1)

def rewriteCompactedHistory (key : Bytes) (versions : List ValueRevision) (firstAfter : Int) :
    BackendProgram Unit :=
  if firstAfter = 0 then return ()
  else
    let keepFrom := if 0 < firstAfter then firstAfter - 1 else (versions.length : Int) - 1
    call (.setRevisions key (versions.drop keepFrom.toNat))

def compactKeys (rev : Int) : List Bytes → BackendProgram Unit
  | [] => return ()
  | key :: keys => do
    match ← call (.getRevisions key) with
    | none => compactKeys rev keys
    | some versions =>
      if versions.list.length ≤ 1 then compactKeys rev keys
      else do
        rewriteCompactedHistory key versions.list (firstRevisionAfter versions.list rev)
        compactKeys rev keys

def compact (rev : Int) : BackendProgram (Except CompactError Unit) := do
  let compactRev ← call .compactRev
  let currentRev ← call .currentRev
  if rev ≤ compactRev ∨ currentRev < rev then return .error .compacted
  else
    let keys ← call (.rangeKeys [] [])
    compactKeys rev keys
    let events ← call .events
    call (.setEvents (events.filter fun ev => rev < ev.rev.main))
    call (.setCompactRev rev)
    return .ok ()

/-- The revision to read at: 0 stands for the current one. -/
def atRev (rev : Int) : BackendProgram Int := if rev = 0 then call .currentRev else return rev

def get (key : Bytes) (rev : Int) : BackendProgram (Bytes × Int × Bool) := do
  match ← call (.getRevisions key) with
  | none => return ([], rev, false)
  | some versions =>
    let compactRev ← call .compactRev
    if rev ≠ 0 ∧ rev ≤ compactRev then return ([], rev, false)
    else
      let rev ← atRev rev
      match visibleFrom versions.list rev versions.list.length 0 versions.list.length none with
      | none =>
        -- for the warning
        let _ ← call .currentRev
        return ([], rev, false)
      | some v => if v.deleted then return ([], rev, false) else return (v.value, rev, true)

def visibleKeys (startKey endKey : Bytes) (rev : Int) :
    List Bytes → BackendProgram (List KeyValue)
  | [] => return []
  | key :: keys =>
    if ¬ key < startKey ∧ key < endKey then do
      match ← call (.getRevisions key) with
      | none => visibleKeys startKey endKey rev keys
      | some versions =>
        let rest ← visibleKeys startKey endKey rev keys
        match latestVisibleRevision versions.list rev with
        | none => return rest
        | some v => return ⟨key, v.value, v.rev⟩ :: rest
    else visibleKeys startKey endKey rev keys

def range (startKey endKey : Bytes) (rev : Int) : BackendProgram (List KeyValue) := do
  let rev ← atRev rev
  let compactRev ← call .compactRev
  if rev ≤ compactRev then return []
  else
    let keys ← call (.rangeKeys startKey endKey)
    visibleKeys startKey endKey rev keys

def watch (f : StoreFront) (key : Bytes) (fromRev : Int) (isPrefix : Bool) :
    BackendProgram (Except CompactError (Int × Watcher) × StoreFront) := do
  let compactRev ← call .compactRev
  if fromRev ≤ compactRev then return (.error .compacted, f)
  else
    let events ← call .events
    return (.ok (f.nextWatcherID, .new events key fromRev isPrefix),
      { f with nextWatcherID := f.nextWatcherID + 1 })

/-- `Snapshot`, which looks at nothing of the backend but its state. -/
def snapshot (f : StoreFront) (ranging : Ranging Int) : BackendProgram SnapshotMessage := do
  let state ← call .snapshotState
  let b : MemoryBackend := ⟨state.data, [], state.events, state.currentRev, state.compactRev⟩
  return (f.on b).snapshot (ranging.order f.leases.keys)

def restore (f : StoreFront) (snap : SnapshotMessage) : BackendProgram StoreFront :=
  if snap.accepted then do
    call (.replaceState ⟨restoreData snap.entries, snap.events, snap.currentRev, snap.compactRev⟩)
    return { f with
      keyLease := snap.keyLease
      nextLeaseID := snap.nextLeaseId
      leases := restoreLeases snap.leases }
  else return f

def handle (f : StoreFront) : StoreRequest → BackendProgram (StoreResponse × StoreFront)
  | .put now key value leaseID => do
    let out ← f.put now key value leaseID
    return (.put out.1, out.2)
  | .delete key => do
    let out ← f.delete key
    return (.delete out.1, out.2)
  | .txn now t => do
    let out ← f.txn now t
    return (.txn out.1, out.2)
  | .leaseGrant now ttl =>
    let out := (f.on .new).leaseGrant now ttl
    return (.leaseGrant out.2, f.after out.1)
  | .leaseKeepAlive now leaseID =>
    let out := (f.on .new).leaseKeepAlive now leaseID
    return (.leaseKeepAlive out.2, f.after out.1)
  | .leaseRevoke leaseID ranging => do
    let out ← f.leaseRevoke leaseID ranging
    return (.leaseRevoke out.1, out.2)
  | .compact rev => do
    let out ← compact rev
    return (.compact out, f)
  | .get key rev => do
    let out ← get key rev
    return (.get out, f)
  | .range startKey endKey rev => do
    let out ← range startKey endKey rev
    return (.range out, f)
  | .prefixRange p rev => do
    let out ← range p (prefixEnd p) rev
    return (.range out, f)
  | .watch key fromRev isPrefix => do
    let out ← f.watch key fromRev isPrefix
    return (.watch out.1, out.2)
  | .snapshot ranging => do
    let out ← f.snapshot ranging
    return (.snapshot out, f)
  | .restore snap => do
    let out ← f.restore snap.message
    return (.restore, out)

end StoreFront

end LinKV

import LinKV.Mvcc.Revoke

namespace LinKV
set_option autoImplicit true

/-- `ErrCompacted`, also the answer for a revision that does not exist yet. -/
inductive CompactError where
  | compacted
deriving DecidableEq, Repr

/-- The first version after `rev`; -1 if there is none. -/
def firstRevisionAfter (versions : List ValueRevision) (rev : Int) : Int :=
  let idx := search versions.length fun i => versions[i]?.any fun v => rev < v.rev.main
  if idx = versions.length then -1 else idx

namespace MemoryBackend

def rewriteCompactedHistory (b : MemoryBackend) (key : Bytes) (versions : List ValueRevision)
    (firstAfter : Int) : MemoryBackend :=
  if firstAfter = 0 then b
  else
    let keepFrom := if 0 < firstAfter then firstAfter - 1 else (versions.length : Int) - 1
    b.setRevisions key (versions.drop keepFrom.toNat)

def compactKey (b : MemoryBackend) (rev : Int) (key : Bytes) : MemoryBackend :=
  match b.getRevisions key with
  | none => b
  | some versions =>
    if versions.list.length ≤ 1 then b
    else b.rewriteCompactedHistory key versions.list (firstRevisionAfter versions.list rev)

end MemoryBackend

def KVStore.compact (s : KVStore) (rev : Int) : KVStore × Except CompactError Unit :=
  if rev ≤ s.backend.compactRev ∨ s.backend.currentRev < rev then (s, .error .compacted)
  else
    let b := (s.backend.rangeKeys [] []).foldl (fun b key => b.compactKey rev key) s.backend
    ({ s with backend := { b with
        events := b.events.filter fun ev => rev < ev.rev.main
        compactRev := rev } }, .ok ())

/-- The operations of a store. The keys of `leaseRevoke` are those of the lease, in the order in
which the loop over them meets them. -/
inductive StoreOp where
  | put (now : Int) (key value : Bytes) (leaseID : Int)
  | delete (key : Bytes)
  | txn (now : Int) (t : Txn)
  | leaseGrant (now ttl : Int)
  | leaseKeepAlive (now leaseID : Int)
  | leaseRevoke (leaseID : Int) (keys : List Bytes)
  | compact (rev : Int)
deriving DecidableEq, Repr

def KVStore.apply (s : KVStore) : StoreOp → Option KVStore
  | .put now key value leaseID => some (s.put now key value leaseID).1
  | .delete key => some (s.delete key).1
  | .txn now t => some (s.txn now t).1
  | .leaseGrant now ttl => some (s.leaseGrant now ttl).1
  | .leaseKeepAlive now leaseID => some (s.leaseKeepAlive now leaseID).1
  | .leaseRevoke leaseID keys =>
    if Enumerates keys (s.leaseKeys leaseID) then some (s.leaseRevoke leaseID keys).1 else none
  | .compact rev => some (s.compact rev).1

end LinKV

import LinKV.Basic
import Mathlib.Data.Finmap

namespace LinKV
set_option autoImplicit true

/-- A Go map. What depends on the order of a `range` over one takes that order as an argument. -/
abbrev GoMap (K V : Type) := Finmap fun _ : K => V

/-- `m[k]` for a value type whose zero value is `d`. -/
def GoMap.get [DecidableEq K] (m : GoMap K V) (k : K) (d : V) : V := (m.lookup k).getD d

structure Revision where
  main : Int
  sub : Int
deriving DecidableEq, Repr

structure ValueRevision where
  rev : Revision
  value : Bytes
  deleted : Bool
deriving DecidableEq, Repr

/-- The versions of a key. The backend drops a key rather than keep it with none. -/
structure Versions where
  list : List ValueRevision
  ne_nil : list ≠ []
deriving DecidableEq

def Versions.latest (v : Versions) : ValueRevision := v.list.getLast v.ne_nil

inductive EventType where
  | put
  | delete
deriving DecidableEq, Repr

structure MvccEvent where
  type : EventType
  key : Bytes
  value : Bytes
  rev : Revision
deriving DecidableEq, Repr

structure KeyValue where
  key : Bytes
  value : Bytes
  rev : Revision
deriving DecidableEq, Repr

/-- `CompareOp`; no case of a switch names the values above `CompareLess`. -/
inductive CompareOp where
  | equal
  | greater
  | less
  | other (op : Int)
deriving DecidableEq, Repr

structure Compare where
  key : Bytes
  op : CompareOp
  rev : Int
deriving DecidableEq, Repr

inductive OpType where
  | get
  | put
  | delete
  | other (type : Int)
deriving DecidableEq, Repr

structure Operation where
  type : OpType
  key : Bytes
  value : Bytes
  leaseID : Int
deriving DecidableEq, Repr

structure Txn where
  compares : List Compare
  thenOps : List Operation
  elseOps : List Operation
deriving DecidableEq, Repr

/-- A lease. `expireAt` is in nanoseconds, like every reading of the clock. -/
structure Lease where
  id : Int
  ttl : Int
  expireAt : Int
  keys : Finset Bytes
deriving DecidableEq

inductive LeaseError where
  | notFound (leaseID : Int)
  | alreadyExpired (leaseID : Int)
deriving DecidableEq, Repr

def LeaseError.message : LeaseError → String
  | .notFound leaseID => s!"Lease {leaseID} not found"
  | .alreadyExpired leaseID => s!"Lease {leaseID} already expired"

structure MemoryBackend where
  data : GoMap Bytes Versions
  sortedKeys : List Bytes
  events : List MvccEvent
  currentRev : Int
  compactRev : Int

/-- The store with its lease manager. `eventCh` holds what has been sent to the dispatcher. -/
structure KVStore where
  backend : MemoryBackend
  keyLease : GoMap Bytes Int
  leases : GoMap Int Lease
  nextLeaseID : Int
  eventCh : List MvccEvent

def MemoryBackend.new : MemoryBackend := ⟨∅, [], [], 0, 0⟩

def KVStore.new : KVStore := ⟨.new, ∅, ∅, 0, []⟩

end LinKV

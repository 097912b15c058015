import LinKV.Mvcc.Snapshot
import LinKV.Server.Server

namespace LinKV
set_option autoImplicit true

/-- A copy of the map with every value converted. -/
def GoMap.mapValues (f : V → W) (m : GoMap K V) : GoMap K W where
  entries := m.entries.map (.map id fun _ => f)
  nodupKeys := by
    rw [← Multiset.nodup_keys, Multiset.keys, Multiset.map_map]
    exact Multiset.nodup_keys.2 m.nodupKeys

@[simp] theorem GoMap.lookup_mapValues [DecidableEq K] (f : V → W) (m : GoMap K V) (k : K) :
    (m.mapValues f).lookup k = (m.lookup k).map f := by
  induction m using Finmap.induction_on with
  | H a => exact List.dlookup_map₂ k

structure ResultMessage where
  kind : Kind
  clientId : Int
  seq : Int
  err : String
  rev : Option Revision
  value : Bytes
  found : Bool
  txnSucceeded : Bool
  txnResults : List ApiKeyValue
  leaseId : Int
  leaseTtl : Int
  rangeResults : List ApiKeyValue
deriving DecidableEq, Repr

/-- `kvserverpb.ServerSnapshot`, which is also what the bytes of a snapshot decode to. -/
structure ServerSnapshotMessage where
  kvSnapshot : SnapshotMessage
  clientLastSeq : GoMap Int Int
  clientLastResult : GoMap Int ResultMessage

def toPBResult (result : Result) : ResultMessage where
  kind := result.kind
  clientId := result.clientID
  seq := result.seq
  err := (result.err.map ApplyError.message).getD ""
  rev := result.rev
  value := result.value
  found := result.found
  txnSucceeded := result.txnSucceeded
  txnResults := result.txnResults
  leaseId := result.leaseID
  leaseTtl := result.leaseTTL
  rangeResults := result.rangeResults

def fromPBResult (m : ResultMessage) : Result where
  kind := m.kind
  clientID := m.clientId
  seq := m.seq
  err := if h : m.err ≠ "" then some (.text ⟨m.err, h⟩) else none
  rev := m.rev
  value := m.value
  found := m.found
  txnSucceeded := m.txnSucceeded
  txnResults := m.txnResults
  leaseID := m.leaseId
  leaseTTL := m.leaseTtl
  rangeResults := m.rangeResults

theorem append_ne_empty {a b : String} (h : a ≠ "") : a ++ b ≠ "" :=
  fun hab => h (String.append_eq_empty_iff.1 hab).1

theorem LeaseError.message_ne (e : LeaseError) : e.message ≠ "" := by
  cases e with
  | notFound => exact append_ne_empty (append_ne_empty (by decide))
  | alreadyExpired => exact append_ne_empty (append_ne_empty (by decide))

theorem ApplyError.message_ne (e : ApplyError) : e.message ≠ "" := by
  cases e with
  | lease e => exact e.message_ne
  | text message => exact message.2
  | nilBody => exact append_ne_empty (append_ne_empty (by decide))
  | unknownKind => exact append_ne_empty (by decide)
  | unsupportedType => exact append_ne_empty (by decide)

/-- Only the error of a result suffers on the way through a snapshot, and it does not get
lost. -/
theorem fromPBResult_toPBResult {r : Result} (h : (fromPBResult (toPBResult r)).err = none) :
    fromPBResult (toPBResult r) = r := by
  have herr : r.err = none := by
    cases he : r.err with
    | none => rfl
    | some e =>
      have hne : (toPBResult r).err ≠ "" := by
        simp only [toPBResult, he, Option.map_some, Option.getD_some]
        exact e.message_ne
      rw [fromPBResult, dif_pos hne] at h
      cases h
  cases r
  cases herr
  rfl

namespace Server

/-- `makeSnapshot`; the store's part goes over the leases in the given order. -/
def makeSnapshot (s : Server) (order : List Int) : ServerSnapshotMessage where
  kvSnapshot := s.store.snapshot order
  clientLastSeq := s.clientLastSeq
  clientLastResult := s.clientLastResult.mapValues toPBResult

/-- The second locked section of `restoreSnapshot`. The store may refuse its part and says
nothing about it. -/
def replace (s : Server) (snap : ServerSnapshotMessage) : Server where
  store := s.store.restore snap.kvSnapshot
  waitCh := ∅
  lastResult := ∅
  clientLastSeq := snap.clientLastSeq
  clientLastResult := snap.clientLastResult.mapValues fromPBResult

def restoreSnapshot (s : Server) (snap : ServerSnapshotMessage) : Server :=
  s.clearWaitCh.1.replace snap

end Server

end LinKV

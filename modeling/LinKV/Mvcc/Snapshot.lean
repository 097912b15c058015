import LinKV.Mvcc.Compact
import Mathlib.Data.Finset.Sort
import Mathlib.Data.List.Sort

namespace LinKV
set_option autoImplicit true

/-- An order in which a `range` over a map with these keys may meet them. -/
def RangeOrder [DecidableEq α] (order : List α) (keys : Finset α) : Prop :=
  order.Nodup ∧ order.toFinset = keys

instance [DecidableEq α] (order : List α) (keys : Finset α) : Decidable (RangeOrder order keys) :=
  inferInstanceAs (Decidable (order.Nodup ∧ order.toFinset = keys))

theorem RangeOrder.mem [DecidableEq α] {order : List α} {keys : Finset α}
    (h : RangeOrder order keys) : a ∈ order ↔ a ∈ keys := by
  rw [← h.2, List.mem_toFinset]

def sortStrings (keys : Finset Bytes) : List Bytes := keys.sort (· ≤ ·)

/-- The order of the `sort.Slice` calls of `Snapshot`. -/
def Revision.le (a b : Revision) : Prop :=
  if a.main ≠ b.main then a.main < b.main else a.sub ≤ b.sub

instance (a b : Revision) : Decidable (a.le b) :=
  inferInstanceAs (Decidable (if a.main ≠ b.main then a.main < b.main else a.sub ≤ b.sub))

/-- A key with its versions, of which there is always one. -/
structure KeyEntry where
  key : Bytes
  revisions : Versions

structure LeaseMessage where
  id : Int
  ttl : Int
  expireAtUnixNano : Int
  keys : List Bytes
deriving DecidableEq, Repr

/-- The `mvcc.Snapshot` message. -/
structure SnapshotMessage where
  currentRev : Int
  compactRev : Int
  entries : List KeyEntry
  events : List MvccEvent
  leases : List LeaseMessage
  keyLease : GoMap Bytes Int
  nextLeaseId : Int

/-- `UnixNano` overflows outside the range of an `int64`. -/
def Lease.message (lease : Lease) : LeaseMessage :=
  ⟨lease.id, lease.ttl, wrap64 lease.expireAt, sortStrings lease.keys⟩

theorem insertionSort_ne_nil {r : α → α → Prop} [DecidableRel r] {l : List α} (h : l ≠ []) :
    l.insertionSort r ≠ [] := by
  rw [← List.length_pos_iff] at h ⊢
  rwa [List.length_insertionSort]

/-- The versions of a key as `Snapshot` sorts them. -/
def Versions.sorted (versions : Versions) : Versions :=
  ⟨versions.list.insertionSort fun v w => v.rev.le w.rev, insertionSort_ne_nil versions.ne_nil⟩

/-- `Snapshot`; the lease manager's part goes over the leases in the given order. -/
def KVStore.snapshot (s : KVStore) (order : List Int) : SnapshotMessage where
  currentRev := s.backend.currentRev
  compactRev := s.backend.compactRev
  entries := (sortStrings s.backend.data.keys).filterMap fun key =>
    (s.backend.data.lookup key).map fun versions => ⟨key, versions.sorted⟩
  events := s.backend.events.insertionSort fun v w => v.rev.le w.rev
  leases := order.filterMap fun leaseID => (s.leases.lookup leaseID).map Lease.message
  keyLease := s.keyLease
  nextLeaseId := s.nextLeaseID

def SnapshotMessage.mains (snap : SnapshotMessage) : List Int :=
  snap.entries.flatMap fun e => e.revisions.list.map fun v => v.rev.main

/-- The checks of `Restore`: it returns at the first that fails. A repeated field without items
is nil. -/
def SnapshotMessage.accepted (snap : SnapshotMessage) : Bool :=
  let maxRev := snap.mains.foldl max 0
  ¬ snap.currentRev < 0 && snap.entries ≠ [] && maxRev = snap.currentRev &&
    (List.range maxRev.toNat).all fun i => (i : Int) + 1 ∈ snap.mains

def restoreLeases (leases : List LeaseMessage) : GoMap Int Lease :=
  leases.foldl (fun m l =>
    if l.id ≤ 0 then m
    else m.insert l.id ⟨l.id, l.ttl, l.expireAtUnixNano, l.keys.toFinset⟩) ∅

def restoreData (entries : List KeyEntry) : GoMap Bytes Versions :=
  entries.foldl (fun m e => m.insert e.key e.revisions) ∅

/-- `ReplaceState`, which rebuilds the key index. -/
def MemoryBackend.replaceState (data : GoMap Bytes Versions) (events : List MvccEvent)
    (currentRev compactRev : Int) : MemoryBackend :=
  ⟨data, sortStrings data.keys, events, currentRev, compactRev⟩

/-- `Restore`. A message it does not accept changes nothing. -/
def KVStore.restore (s : KVStore) (snap : SnapshotMessage) : KVStore :=
  if snap.accepted then
    { s with
      backend := .replaceState (restoreData snap.entries) snap.events snap.currentRev
        snap.compactRev
      keyLease := snap.keyLease
      nextLeaseID := snap.nextLeaseId
      leases := restoreLeases snap.leases }
  else s

end LinKV

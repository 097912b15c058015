import LinKV.Mvcc.Backend

namespace LinKV
set_option autoImplicit true

/-- The value an `int64` holds after an operation with result `x`. -/
def wrap64 (x : Int) : Int := (x + 2 ^ 63) % 2 ^ 64 - 2 ^ 63

theorem wrap64_of_range {r : Int} (hlo : -2 ^ 63 ≤ r) (hhi : r < 2 ^ 63) : wrap64 r = r := by
  unfold wrap64
  omega

theorem wrap64_eq_self_iff {r : Int} : wrap64 r = r ↔ -2 ^ 63 ≤ r ∧ r < 2 ^ 63 := by
  unfold wrap64
  omega

theorem wrap64_add_wrap64 (x y : Int) : wrap64 (x + wrap64 y) = wrap64 (x + y) := by
  unfold wrap64
  omega

/-- `time.Duration(ttl) * time.Second`, in nanoseconds. -/
def ttlDuration (ttl : Int) : Int := wrap64 (ttl * 1000000000)

/-- The `float64` nearest to a fraction below `2 ^ 53`: 53 significant bits, ties to even. -/
def float64 (x : Rat) : Rat :=
  let m := x.abs
  if m = 0 then 0 else
    -- the bits after the point
    let bits := if 1 ≤ m then 52 - m.floor.toNat.log2 else 53 + (m.inv.ceil.toNat - 1).log2
    let below := (m * 2 ^ bits).floor
    let rest := m * 2 ^ bits - below
    let nearest := if rest < 1 / 2 ∨ rest = 1 / 2 ∧ below % 2 = 0 then below else below + 1
    (if x < 0 then -nearest else nearest) / 2 ^ bits

/-- `int64(d.Seconds())`, where `Seconds` adds the whole seconds and the rest as `float64`s. Just
below a large whole number of seconds the sum is rounded up to it. -/
def wholeSeconds (d : Int) : Int :=
  let sec := d.tdiv 1000000000
  let nsec := d.tmod 1000000000
  let seconds := float64 (sec + float64 (nsec / 1000000000))
  if seconds < 0 then seconds.ceil else seconds.floor

/-- `m[k] = f(m[k])` where `k` is present. -/
def GoMap.modify [DecidableEq K] (m : GoMap K V) (k : K) (f : V → V) : GoMap K V :=
  match m.lookup k with
  | none => m
  | some v => m.insert k (f v)

theorem GoMap.lookup_modify [DecidableEq K] (m : GoMap K V) (k j : K) (f : V → V) :
    (m.modify k f).lookup j = if j = k then (m.lookup k).map f else m.lookup j := by
  unfold GoMap.modify
  split
  · next h =>
    split
    · next he => rw [he, h, Option.map_none]
    · rfl
  · next v h =>
    split
    · next he => rw [he, h, Option.map_some, Finmap.lookup_insert]
    · next he => rw [Finmap.lookup_insert_of_ne _ he]

/-- The loop of `prefixEnd`, over the bytes from the last one on. -/
def prefixEndFrom : List UInt8 → Bytes
  | [] => []
  | b :: rest => if b < 0xff then ((b + 1) :: rest).reverse else prefixEndFrom rest

def prefixEnd (p : Bytes) : Bytes := prefixEndFrom p.reverse

namespace KVStore

/-- `now.After(lease.ExpireAt)` for a lease that exists. -/
def expired (s : KVStore) (now leaseID : Int) : Bool :=
  (s.leases.lookup leaseID).any fun lease => lease.expireAt < now

def lookupLease (s : KVStore) (now leaseID : Int) : Except LeaseError Lease :=
  match s.leases.lookup leaseID with
  | none => .error (.notFound leaseID)
  | some lease =>
    if lease.expireAt < now then .error (.alreadyExpired leaseID) else .ok lease

/-- `delete(lease.Keys, key)` and `lease.Keys[key] = struct{}{}` for a lease of the map. -/
def removeLeaseKey (s : KVStore) (leaseID : Int) (key : Bytes) : KVStore :=
  { s with leases := s.leases.modify leaseID fun l => { l with keys := l.keys.erase key } }

def addLeaseKey (s : KVStore) (leaseID : Int) (key : Bytes) : KVStore :=
  { s with leases := s.leases.modify leaseID fun l => { l with keys := insert key l.keys } }

def bindKeyToLease (s : KVStore) (key : Bytes) (leaseID : Int) : KVStore :=
  let s := match s.keyLease.lookup key with
    | none => s
    | some oldLeaseID => if oldLeaseID ≠ leaseID then s.removeLeaseKey oldLeaseID key else s
  let s := s.addLeaseKey leaseID key
  { s with keyLease := s.keyLease.insert key leaseID }

def detachKey (s : KVStore) (key : Bytes) : KVStore :=
  match s.keyLease.lookup key with
  | none => s
  | some leaseID => { s with keyLease := s.keyLease.erase key }.removeLeaseKey leaseID key

/-- What `putLocked` and `deleteLocked` share: a version of `key` at the next revision, and its
event. -/
def write (s : KVStore) (type : EventType) (key value : Bytes) (deleted : Bool) :
    KVStore × MvccEvent :=
  let rev : Revision := ⟨s.backend.currentRev + 1, 0⟩
  let versions := ((s.backend.getRevisions key).map Versions.list).getD []
  let ev : MvccEvent := ⟨type, key, value, rev⟩
  let b := { s.backend with currentRev := s.backend.currentRev + 1 }
  let b := b.setRevisions key (versions ++ [⟨rev, value, deleted⟩])
  ({ s with backend := b.appendEvent ev }, ev)

def putLocked (s : KVStore) (key value : Bytes) : KVStore × MvccEvent :=
  s.write .put key value false

def deleteLocked (s : KVStore) (key : Bytes) : KVStore × MvccEvent :=
  let out := s.write .delete key [] true
  (out.1.detachKey key, out.2)

/-- `s.eventCh <- ev` for each of the events. -/
def send (s : KVStore) (evs : List MvccEvent) : KVStore := { s with eventCh := s.eventCh ++ evs }

def put (s : KVStore) (now : Int) (key value : Bytes) (leaseID : Int) :
    KVStore × Except LeaseError Revision :=
  if leaseID ≠ 0 then
    match s.lookupLease now leaseID with
    | .error e => (s, .error e)
    | .ok _ =>
      let out := s.putLocked key value
      ((out.1.bindKeyToLease key leaseID).send [out.2], .ok out.2.rev)
  else
    let out := s.putLocked key value
    ((out.1.detachKey key).send [out.2], .ok out.2.rev)

def delete (s : KVStore) (key : Bytes) : KVStore × Revision :=
  let out := s.deleteLocked key
  (out.1.send [out.2], out.2.rev)

/-- `Get`: the value, the revision read and whether there is one. -/
def get (s : KVStore) (key : Bytes) (rev : Int) : Bytes × Int × Bool :=
  match s.backend.getRevisions key with
  | none => ([], rev, false)
  | some versions =>
    if rev ≠ 0 ∧ rev ≤ s.backend.compactRev then ([], rev, false)
    else
      let rev := if rev = 0 then s.backend.currentRev else rev
      match latestVisibleRevision versions.list rev with
      | none => ([], rev, false)
      | some v => (v.value, rev, true)

def range (s : KVStore) (startKey endKey : Bytes) (rev : Int) : List KeyValue :=
  let rev := if rev = 0 then s.backend.currentRev else rev
  if rev ≤ s.backend.compactRev then []
  else
    (s.backend.rangeKeys startKey endKey).filterMap fun key =>
      if ¬ key < startKey ∧ key < endKey then
        match s.backend.getRevisions key with
        | none => none
        | some versions =>
          (latestVisibleRevision versions.list rev).map fun v => ⟨key, v.value, v.rev⟩
      else none

def prefixRange (s : KVStore) (p : Bytes) (rev : Int) : List KeyValue :=
  s.range p (prefixEnd p) rev

/-- The latest revision `Txn` compares with; 0 for a key never written. -/
def latestRev (s : KVStore) (key : Bytes) : Int :=
  ((s.backend.getRevisions key).map fun versions => versions.latest.rev.main).getD 0

def compareHolds (s : KVStore) (t : Compare) : Bool :=
  match t.op with
  | .equal => s.latestRev t.key = t.rev
  | .greater => t.rev < s.latestRev t.key
  | .less => s.latestRev t.key < t.rev
  | .other _ => true

def txnOps (s : KVStore) (txn : Txn) : List Operation :=
  if txn.compares.all s.compareHolds then txn.thenOps else txn.elseOps

def leaseIDs (ops : List Operation) : List Int :=
  (ops.filter fun op => op.type = .put ∧ op.leaseID ≠ 0).map Operation.leaseID

/-- The validation loop of `Txn`: the first lease that cannot be bound. -/
def checkLeases (s : KVStore) (now : Int) : List Int → Except LeaseError Unit
  | [] => .ok ()
  | id :: ids =>
    match s.lookupLease now id with
    | .error e => .error e
    | .ok _ => s.checkLeases now ids

/-- One operation of `Txn`, with what it adds to the results and to the events. -/
def txnOp (s : KVStore) (op : Operation) : KVStore × List KeyValue × List MvccEvent :=
  match op.type with
  | .get =>
    match s.backend.getRevisions op.key with
    | none => (s, [], [])
    | some versions =>
      let latest := versions.latest
      -- a tombstone is returned without its key
      (s, [⟨if latest.deleted then [] else op.key, latest.value, latest.rev⟩], [])
  | .put =>
    let out := s.putLocked op.key op.value
    let s := if op.leaseID ≠ 0 then out.1.bindKeyToLease op.key op.leaseID
      else out.1.detachKey op.key
    (s, [], [out.2])
  | .delete =>
    let out := s.deleteLocked op.key
    (out.1, [], [out.2])
  | .other _ => (s, [], [])

def runOps (s : KVStore) : List Operation → KVStore × List KeyValue × List MvccEvent
  | [] => (s, [], [])
  | op :: ops =>
    let out := s.txnOp op
    let rest := out.1.runOps ops
    (rest.1, out.2.1 ++ rest.2.1, out.2.2 ++ rest.2.2)

def txn (s : KVStore) (now : Int) (t : Txn) :
    KVStore × Except LeaseError (Bool × List KeyValue) :=
  match s.checkLeases now (leaseIDs (s.txnOps t)) with
  | .error e => (s, .error e)
  | .ok _ =>
    let out := s.runOps (s.txnOps t)
    (out.1.send out.2.2, .ok (t.compares.all s.compareHolds, out.2.1))

def leaseGrant (s : KVStore) (now ttl : Int) : KVStore × Int :=
  let leaseID := s.nextLeaseID + 1
  let lease : Lease := ⟨leaseID, ttl, now + ttlDuration ttl, ∅⟩
  ({ s with nextLeaseID := leaseID, leases := s.leases.insert leaseID lease }, leaseID)

/-- `LeaseKeepAlive`; it returns `int64(lease.ExpireAt.Sub(now).Seconds())`. -/
def leaseKeepAlive (s : KVStore) (now leaseID : Int) : KVStore × Except LeaseError Int :=
  match s.lookupLease now leaseID with
  | .error e => (s, .error e)
  | .ok lease =>
    let lease' : Lease := { lease with expireAt := now + ttlDuration lease.ttl }
    ({ s with leases := s.leases.insert leaseID lease' },
      .ok (wholeSeconds (ttlDuration lease.ttl)))

/-- The deletions of `LeaseRevoke`, with their events. -/
def deleteAll (s : KVStore) : List Bytes → KVStore × List MvccEvent
  | [] => (s, [])
  | key :: keys =>
    let out := s.deleteLocked key
    let rest := out.1.deleteAll keys
    (rest.1, out.2 :: rest.2)

/-- `LeaseRevoke`; `keys` are the keys of the lease in the order in which the loop over
`lease.Keys` meets them. -/
def leaseRevoke (s : KVStore) (leaseID : Int) (keys : List Bytes) :
    KVStore × Except LeaseError Unit :=
  match s.leases.lookup leaseID with
  | none => (s, .error (.notFound leaseID))
  | some _ =>
    let out := { s with leases := s.leases.erase leaseID }.deleteAll keys
    (out.1.send out.2, .ok ())

end KVStore

end LinKV

import LinKV.LinDB.Keys
import LinKV.Mvcc.Interface

namespace LinKV
set_option autoImplicit true

/-- What follows the first byte of a character that takes more than one: the range of the second
byte and the number of bytes after that. -/
def utf8Tail (b : UInt8) : Option (UInt8 × UInt8 × Nat) :=
  if 0xC2 ≤ b ∧ b ≤ 0xDF then some (0x80, 0xBF, 0)
  else if b = 0xE0 then some (0xA0, 0xBF, 1)
  else if b = 0xED then some (0x80, 0x9F, 1)
  else if 0xE1 ≤ b ∧ b ≤ 0xEF then some (0x80, 0xBF, 1)
  else if b = 0xF0 then some (0x90, 0xBF, 2)
  else if b = 0xF4 then some (0x80, 0x8F, 2)
  else if 0xF1 ≤ b ∧ b ≤ 0xF3 then some (0x80, 0xBF, 2)
  else none

/-- `utf8.Valid`, on what is left of a string. Before a character `next` is empty; within one it
is the range of the next byte and the number of bytes after it. -/
def validFrom : Option (UInt8 × UInt8 × Nat) → Bytes → Bool
  | none, [] => true
  | some _, [] => false
  | none, b :: rest =>
    if b < 0x80 then validFrom none rest
    else
      match utf8Tail b with
      | none => false
      | some next => validFrom (some next) rest
  | some (lo, hi, 0), b :: rest => (lo ≤ b && b ≤ hi) && validFrom none rest
  | some (lo, hi, n + 1), b :: rest =>
    (lo ≤ b && b ≤ hi) && validFrom (some (0x80, 0xBF, n)) rest

def validUTF8 (s : Bytes) : Bool := validFrom none s

/-- A value in the database: plain bytes, or a message in its wire format. -/
inductive Stored where
  | raw (bytes : Bytes)
  | keyEntry (entry : KeyEntry)
  | event (event : MvccEvent)

/-- Lin-DB: a map whose iterators go through the keys in order. -/
abbrev DB := GoMap Bytes Stored

inductive BatchOp where
  | put (key : Bytes) (value : Stored)
  | delete (key : Bytes)

/-- `proto.Marshal` refuses a string that is not valid UTF-8. -/
def encodeKeyEntry (key : Bytes) (revisions : Versions) : Option Stored :=
  if validUTF8 key then some (.keyEntry ⟨key, revisions.sorted⟩) else none

def decodeKeyEntry : Stored → Option Versions
  | .keyEntry entry => some entry.revisions
  | .raw _ | .event _ => none

def encodeEvent (event : MvccEvent) : Option Stored :=
  if validUTF8 event.key then some (.event event) else none

def decodeEvent : Stored → Option MvccEvent
  | .event event => some event
  | .raw _ | .keyEntry _ => none

def sortEvents (events : List MvccEvent) : List MvccEvent :=
  events.insertionSort fun v w => v.rev.le w.rev

namespace DB

/-- The keys an iterator meets after a seek. -/
def seek (d : DB) (key : Bytes) : List Bytes := (sortStrings d.keys).filter fun k => ¬ k < key

/-- The keys a loop meets that seeks `p` and ends at the first key without it. -/
def scan (d : DB) (p : Bytes) : List Bytes := (d.seek p).takeWhile fun k => p.isPrefixOf k

def writeBatch (d : DB) (batch : List BatchOp) : DB :=
  batch.foldl (fun d op =>
    match op with
    | .put key value => d.insert key value
    | .delete key => d.erase key) d

def deletePrefix (d : DB) (p : Bytes) : List BatchOp := (d.scan p).map .delete

def batchPutEvents (events : List MvccEvent) : Option (List BatchOp) :=
  (sortEvents events).mapM fun event => (encodeEvent event).map (.put (eventStorageKey event))

/-- `none` where the method panics, here and below. -/
def getInt64 (d : DB) (key : Bytes) : Option Int :=
  match d.lookup key with
  | none => some 0
  | some (.raw encoded) => if encoded.length ≠ 8 then none else some (decodeInt64 encoded)
  | some (.keyEntry _) | some (.event _) => none

def getRevisions (d : DB) (key : Bytes) : Option (Option Versions) :=
  match d.lookup (dataStorageKey key) with
  | none => some none
  | some encoded => (decodeKeyEntry encoded).map some

def setRevisions (d : DB) (key : Bytes) (revisions : List ValueRevision) : Option DB :=
  if h : revisions = [] then some (d.erase (dataStorageKey key))
  else (encodeKeyEntry key ⟨revisions, h⟩).map (d.insert (dataStorageKey key))

def rangeKeys (d : DB) (startKey endKey : Bytes) : Option (List Bytes) :=
  let seekKey := if startKey ≠ [] then dataStorageKey startKey else dataPrefix
  let limitKey := if endKey ≠ [] then dataStorageKey endKey else []
  ((d.seek seekKey).takeWhile fun k =>
    dataPrefix.isPrefixOf k && ¬ (limitKey ≠ [] ∧ ¬ k < limitKey)).mapM fun k =>
      hexDecode (k.drop dataPrefix.length)

def events (d : DB) : Option (List MvccEvent) :=
  ((d.scan eventPrefix).mapM fun k => (d.lookup k).bind decodeEvent).map sortEvents

def setEvents (d : DB) (events : List MvccEvent) : Option DB :=
  (batchPutEvents events).map fun puts => d.writeBatch (d.deletePrefix eventPrefix ++ puts)

def appendEvent (d : DB) (event : MvccEvent) : Option DB :=
  (encodeEvent event).map (d.insert (eventStorageKey event))

def snapshotData (d : DB) : List Bytes → Option (GoMap Bytes Versions)
  | [] => some ∅
  | key :: keys =>
    match d.getRevisions key, d.snapshotData keys with
    | some (some revisions), some data => some (data.insert key revisions)
    | some none, some data => some data
    | _, _ => none

def snapshotState (d : DB) : Option BackendState := do
  let keys ← d.rangeKeys [] []
  let data ← d.snapshotData keys
  let events ← d.events
  let currentRev ← d.getInt64 metaCurrentRev
  let compactRev ← d.getInt64 metaCompactRev
  return ⟨data, events, currentRev, compactRev⟩

/-- The entries that `ReplaceState` puts, in the order of the keys. -/
def batchPutData (data : GoMap Bytes Versions) : Option (List BatchOp) :=
  ((sortStrings data.keys).filterMap fun key => (data.lookup key).map (key, ·)).mapM fun e =>
    (encodeKeyEntry e.1 e.2).map (.put (dataStorageKey e.1))

def replaceState (d : DB) (state : BackendState) : Option DB := do
  let data ← batchPutData state.data
  let events ← batchPutEvents state.events
  return d.writeBatch (d.deletePrefix dataPrefix ++ d.deletePrefix eventPrefix ++ data ++ events ++
    [.put metaCurrentRev (.raw (encodeInt64 state.currentRev)),
      .put metaCompactRev (.raw (encodeInt64 state.compactRev))])

/-- The Lin-DB backend as an implementation of the interface. -/
def answer : Calls.Service BackendCall.Answer DB
  | .currentRev, d => (d.getInt64 metaCurrentRev).map (·, d)
  | .setCurrentRev rev, d => some ((), d.insert metaCurrentRev (.raw (encodeInt64 rev)))
  | .compactRev, d => (d.getInt64 metaCompactRev).map (·, d)
  | .setCompactRev rev, d => some ((), d.insert metaCompactRev (.raw (encodeInt64 rev)))
  | .getRevisions key, d => (d.getRevisions key).map (·, d)
  | .setRevisions key revisions, d => (d.setRevisions key revisions).map ((), ·)
  | .rangeKeys startKey endKey, d => (d.rangeKeys startKey endKey).map (·, d)
  | .events, d => d.events.map (·, d)
  | .setEvents events, d => (d.setEvents events).map ((), ·)
  | .appendEvent event, d => (d.appendEvent event).map ((), ·)
  | .snapshotState, d => d.snapshotState.map (·, d)
  | .replaceState state, d => (d.replaceState state).map ((), ·)

end DB

/-- One character of each length, a surrogate, an overlong form and a cut-off character. -/
example : validUTF8 [0x61, 0xC3, 0xA9, 0xE2, 0x82, 0xAC, 0xF0, 0x9F, 0x98, 0x80] = true ∧
    validUTF8 [0xED, 0xA0, 0x80] = false ∧ validUTF8 [0xC0, 0x80] = false ∧
    validUTF8 [0xE2, 0x82] = false := by
  decide

end LinKV

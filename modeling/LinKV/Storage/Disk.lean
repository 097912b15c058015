import LinKV.Storage.Segment
import LinKV.Durable.Writes
import LinKV.Consensus.Transition

namespace LinKV
set_option autoImplicit true

open Durable

/-- The files of a persister's directory: `current.json`, `raft.persist`, and the slot files
under `wal/` and `snapshot/`. -/
inductive Path where
  | manifest
  | legacy
  | wal (slot : Int)
  | snapshot (slot : Int)
deriving DecidableEq, Repr

abbrev Disk := Files Path Bytes

structure SlotManifest where
  raftSlot : Int
  snapshotSlot : Int
deriving DecidableEq, Repr

def noSnapshotSlot : Int := -1

/-- What `MakeDiskPersister` can return instead of a persister. -/
inductive DiskError where
  | invalidRaftSlot (slot : Int)
  | invalidSnapshotSlot (slot : Int)
  | invalidJson
  | wal (e : FormatError)
  | snapshot (e : FormatError)
  | legacy (e : FormatError)
deriving DecidableEq, Repr

/-- `validateManifest`; the message about the raft slot shows the snapshot slot. -/
def validateManifest (m : SlotManifest) : Except DiskError Unit :=
  if m.raftSlot < 0 ∨ m.raftSlot ≥ 2 then .error (.invalidRaftSlot m.snapshotSlot)
  else if m.snapshotSlot ≠ noSnapshotSlot ∧ (m.snapshotSlot < 0 ∨ m.snapshotSlot ≥ 2) then
    .error (.invalidSnapshotSlot m.snapshotSlot)
  else .ok ()

/-- `encoding/json` on the manifest, which reads back what it wrote. -/
structure ManifestJson where
  marshal : SlotManifest → Bytes
  unmarshal : Bytes → Option SlotManifest
  unmarshal_marshal : ∀ m, validateManifest m = .ok () → unmarshal (marshal m) = some m

structure DiskPersister where
  raftSlot : Int
  snapshotSlot : Int
  raftstate : Bytes
  snapshot : Bytes
deriving DecidableEq, Repr

def DiskPersister.readRaftState (ps : DiskPersister) : Bytes := ps.raftstate

def DiskPersister.readSnapshot (ps : DiskPersister) : Bytes := ps.snapshot

def DiskPersister.manifest (ps : DiskPersister) : SlotManifest := ⟨ps.raftSlot, ps.snapshotSlot⟩

/-- The files a call replaces, each by write, fsync and rename of a temporary file, in order, and
what it returns when all of them are in place. -/
structure Plan where
  writes : List (Write Path Bytes)
  result : Except DiskError DiskPersister

def loadManifest (json : ManifestJson) (d : Disk) : Except DiskError (Option SlotManifest) :=
  match d .manifest with
  | none => .ok none
  | some data =>
    match json.unmarshal data with
    | none => .error .invalidJson
    | some m => (validateManifest m).map fun _ => some m

def saveManifest (json : ManifestJson) (m : SlotManifest) :
    Except DiskError (Write Path Bytes) :=
  (validateManifest m).map fun _ => (.manifest, json.marshal m)

namespace WAL

def saveSlot (slot : Int) (state : Bytes) : Write Path Bytes := (.wal slot, encodeSegment state)

def loadSlot (d : Disk) (slot : Int) : Except DiskError Bytes :=
  match d (.wal slot) with
  | none => .ok []
  | some data => (decodeSegment data).mapError .wal

end WAL

namespace SnapshotStore

def saveSlot (slot : Int) (snapshot : Bytes) : Write Path Bytes :=
  (.snapshot slot, encodeFile snapshot)

def loadSlot (d : Disk) (slot : Int) : Except DiskError Bytes :=
  match d (.snapshot slot) with
  | none => .ok []
  | some data => (decodeFile data).mapError .snapshot

end SnapshotStore

/-- The snapshot half of `loadSlots`. -/
def loadSnapshot (d : Disk) (slot : Int) : Except DiskError Bytes :=
  if slot ≠ noSnapshotSlot then SnapshotStore.loadSlot d slot else .ok []

def loadSlots (d : Disk) (m : SlotManifest) : Except DiskError DiskPersister := do
  let raftstate ← WAL.loadSlot d m.raftSlot
  let snapshot ← loadSnapshot d m.snapshotSlot
  return ⟨m.raftSlot, m.snapshotSlot, raftstate, snapshot⟩

def diskMagic : Bytes := [0x52, 0x50, 0x53, 0x31]

def decodePersistFile (data : Bytes) : Except FormatError (Bytes × Bytes) :=
  if data = [] then .ok ([], [])
  else if data.length < 20 then .error (.tooShort data.length)
  else if data.take 4 ≠ diskMagic then .error (.invalidMagic (data.take 4))
  else
    let raftLen := uint64At data 4
    let snapLen := uint64At data 12
    let payloadLen := (data.length - 20) % 2 ^ 64
    if payloadLen < raftLen then .error (.sizeMismatch raftLen payloadLen)
    else if snapLen ≠ payloadLen - raftLen then
      .error (.sizeMismatch snapLen (payloadLen - raftLen))
    else .ok ((data.drop 20).take raftLen, (data.drop (20 + raftLen)).take snapLen)

/-- What `migrateLegacyFile` and `Save` end with: the WAL slot, then the manifest. -/
def publish (json : ManifestJson) (snapshotWrites : List (Write Path Bytes))
    (ps : DiskPersister) : Plan :=
  let slots := snapshotWrites ++ [WAL.saveSlot ps.raftSlot ps.raftstate]
  match saveManifest json ps.manifest with
  | .error e => ⟨slots, .error e⟩
  | .ok w => ⟨slots ++ [w], .ok ps⟩

def migrateLegacyFile (json : ManifestJson) (d : Disk) : Plan :=
  match d .legacy with
  | none => ⟨[], .ok ⟨0, noSnapshotSlot, [], []⟩⟩
  | some data =>
    match decodePersistFile data with
    | .error e => ⟨[], .error (.legacy e)⟩
    | .ok (raftstate, snapshot) =>
      if snapshot = [] then publish json [] ⟨0, noSnapshotSlot, raftstate, snapshot⟩
      else publish json [SnapshotStore.saveSlot 0 snapshot] ⟨0, 0, raftstate, snapshot⟩

def makeDiskPersister (json : ManifestJson) (d : Disk) : Plan :=
  match loadManifest json d with
  | .error e => ⟨[], .error e⟩
  | .ok (some m) => ⟨[], loadSlots d m⟩
  | .ok none => migrateLegacyFile json d

def nextSlot (current : Int) : Int := if current = 0 then 1 else 0

/-- `Save`. An unchanged snapshot stays in its slot. -/
def DiskPersister.save (json : ManifestJson) (ps : DiskPersister) (raftstate snapshot : Bytes) :
    Plan :=
  let newRaftSlot := nextSlot ps.raftSlot
  if snapshot = [] then publish json [] ⟨newRaftSlot, noSnapshotSlot, raftstate, snapshot⟩
  else if ps.snapshotSlot = noSnapshotSlot ∨ snapshot ≠ ps.snapshot then
    let newSnapshotSlot := nextSlot ps.snapshotSlot
    publish json [SnapshotStore.saveSlot newSnapshotSlot snapshot]
      ⟨newRaftSlot, newSnapshotSlot, raftstate, snapshot⟩
  else publish json [] ⟨newRaftSlot, ps.snapshotSlot, raftstate, snapshot⟩

end LinKV

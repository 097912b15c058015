import LinKV.Calls.Program
import LinKV.Mvcc.Snapshot

namespace LinKV
set_option autoImplicit true

structure BackendState where
  data : GoMap Bytes Versions
  events : List MvccEvent
  currentRev : Int
  compactRev : Int

/-- The calls of the `Backend` interface. -/
inductive BackendCall where
  | currentRev
  | setCurrentRev (rev : Int)
  | compactRev
  | setCompactRev (rev : Int)
  | getRevisions (key : Bytes)
  | setRevisions (key : Bytes) (revisions : List ValueRevision)
  | rangeKeys (startKey endKey : Bytes)
  | events
  | setEvents (events : List MvccEvent)
  | appendEvent (event : MvccEvent)
  | snapshotState
  | replaceState (state : BackendState)

@[reducible] def BackendCall.Answer : BackendCall → Type
  | .currentRev | .compactRev => Int
  | .getRevisions _ => Option Versions
  | .rangeKeys _ _ => List Bytes
  | .events => List MvccEvent
  | .snapshotState => BackendState
  | .setCurrentRev _ | .setCompactRev _ | .setRevisions _ _ | .setEvents _ | .appendEvent _
    | .replaceState _ => Unit

/-- The memory backend as an implementation of the interface; no call panics. -/
def MemoryBackend.answer : Calls.Service BackendCall.Answer MemoryBackend
  | .currentRev, b => some (b.currentRev, b)
  | .setCurrentRev rev, b => some ((), { b with currentRev := rev })
  | .compactRev, b => some (b.compactRev, b)
  | .setCompactRev rev, b => some ((), { b with compactRev := rev })
  | .getRevisions key, b => some (b.getRevisions key, b)
  | .setRevisions key revisions, b => some ((), b.setRevisions key revisions)
  | .rangeKeys startKey endKey, b => some (b.rangeKeys startKey endKey, b)
  | .events, b => some (b.events, b)
  | .setEvents events, b => some ((), { b with events := events })
  | .appendEvent event, b => some ((), b.appendEvent event)
  | .snapshotState, b => some (⟨b.data, b.events, b.currentRev, b.compactRev⟩, b)
  | .replaceState state, _ =>
    some ((), .replaceState state.data state.events state.currentRev state.compactRev)

end LinKV

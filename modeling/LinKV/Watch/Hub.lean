import LinKV.Channel.Bounded
import LinKV.Mvcc.Reachable

namespace LinKV
set_option autoImplicit true

open Channel

/-- A watcher. `backlog` is what the goroutine that `Watch` starts has still to push. -/
structure Watcher where
  key : Bytes
  startRev : Int
  isPrefix : Bool
  ch : Chan MvccEvent
  lastSentRev : Int
  backlog : List MvccEvent

/-- The capacities of a watcher's channel and of `eventCh`. -/
def watchCapacity : Nat := 16

def eventCapacity : Nat := 1024

/-- Whether a watch of `key` is about changes of `k`. -/
def covers (isPrefix : Bool) (key k : Bytes) : Bool :=
  if isPrefix then key.isPrefixOf k else k = key

/-- The events `Watch` finds for a new watcher. -/
def backlogOf (events : List MvccEvent) (key : Bytes) (fromRev : Int) (isPrefix : Bool) :
    List MvccEvent :=
  events.filter fun e => covers isPrefix key e.key && fromRev ≤ e.rev.main

def Watcher.new (events : List MvccEvent) (key : Bytes) (fromRev : Int) (isPrefix : Bool) :
    Watcher where
  key := key
  startRev := fromRev
  isPrefix := isPrefix
  ch := .make
  -- set before anything is sent
  lastSentRev := (backlogOf events key fromRev isPrefix).foldl
    (fun r e => if r < e.rev.main then e.rev.main else r) (fromRev - 1)
  backlog := backlogOf events key fromRev isPrefix

/-- How far the dispatcher has come with an event: it has taken it from `eventCh`, it has copied
the watchers of the event's key, it has copied the watchers of prefixes. -/
inductive Phase where
  | received
  | watchers
  | prefixWatchers
deriving DecidableEq, Repr

/-- One round of `dispatcherLoop`. The watchers of the copy that have not had their turn are in
`todo`; `full` says that the channel of the first was full, so that `CancelWatcher` comes next. -/
structure Turn where
  ev : MvccEvent
  phase : Phase
  todo : List Int
  full : Bool

/-- The watchers the dispatcher may still try to send the event to. -/
def Turn.toSend (t : Turn) : List Int := if t.full then t.todo.tail else t.todo

/-- A snapshot that a store has taken. -/
structure OwnSnapshot where
  message : SnapshotMessage
  taken : ∃ t order, KVStore.Reachable t ∧ RangeOrder order t.leases.keys ∧
    message = t.snapshot order

/-- A store with everything that goes on around its watchers. A watcher is known by its ID: `made`
holds all there have been, and `watchersByID` the IDs of those that are registered. -/
structure Hub where
  store : KVStore
  /-- For each mutator that has left the lock, in their order, the events it has still to send. -/
  pending : List (List MvccEvent)
  eventCh : List MvccEvent
  turn : Option Turn
  watchers : GoMap Bytes (List Int)
  prefixWatchers : GoMap Bytes (List Int)
  watchersByID : Finset Int
  nextWatcherID : Int
  made : GoMap Int Watcher
  panicked : Bool
  /-- All events of the store, also those that compaction has dropped. -/
  produced : List MvccEvent

inductive HubAction where
  /-- A mutator does its part under the lock. -/
  | mutate (op : StoreOp)
  /-- The mutator at this place sends its next event on `eventCh`. -/
  | enqueue (i : Nat)
  | restore (snap : OwnSnapshot)
  | watch (key : Bytes) (fromRev : Int) (isPrefix : Bool)
  /-- The backlog goroutine of a watcher pushes its next event. -/
  | push (id : Int)
  | consume (id : Int)
  /-- `CancelWatcher`, called from outside. -/
  | cancel (id : Int)
  /-- The dispatcher takes an event, copies the two kinds of watchers, comes to the next watcher
  of a copy, and is done with the event. -/
  | receive
  | copyWatchers
  | copyPrefixWatchers (order : List Bytes)
  | dispatch
  | finish

def register (m : GoMap Bytes (List Int)) (key : Bytes) (id : Int) : GoMap Bytes (List Int) :=
  m.insert key ((m.lookup key).getD [] ++ [id])

/-- The first entry with the ID is cut out, and an empty list deleted. -/
def unregister (m : GoMap Bytes (List Int)) (key : Bytes) (id : Int) : GoMap Bytes (List Int) :=
  let ws := ((m.lookup key).getD []).erase id
  if ws.length = 0 then m.erase key else m.insert key ws

namespace Hub

/-- A store that starts with these contents. -/
def start (s : KVStore) : Hub where
  store := s
  pending := []
  eventCh := []
  turn := none
  watchers := ∅
  prefixWatchers := ∅
  watchersByID := ∅
  nextWatcherID := 0
  made := ∅
  panicked := false
  produced := s.backend.events

/-- A new watcher is filed in its list and under its ID. -/
def addWatcher (h : Hub) (id : Int) (w : Watcher) : Hub := { h with
  watchers := if w.isPrefix then h.watchers else register h.watchers w.key id
  prefixWatchers := if w.isPrefix then register h.prefixWatchers w.key id else h.prefixWatchers
  watchersByID := insert id h.watchersByID
  nextWatcherID := id + 1
  made := h.made.insert id w }

def watch (h : Hub) (key : Bytes) (fromRev : Int) (isPrefix : Bool) :
    Hub × Except CompactError Int :=
  if fromRev ≤ h.store.backend.compactRev then (h, .error .compacted)
  else
    let id := h.nextWatcherID
    (h.addWatcher id (.new h.store.backend.events key fromRev isPrefix), .ok id)

/-- A watcher is taken out of its list and its channel is closed. -/
def removeWatcher (h : Hub) (id : Int) (w : Watcher) : Hub := { h with
  watchers := if w.isPrefix then h.watchers else unregister h.watchers w.key id
  prefixWatchers := if w.isPrefix then unregister h.prefixWatchers w.key id else h.prefixWatchers
  watchersByID := h.watchersByID.erase id
  made := h.made.insert id { w with ch := w.ch.close } }

def cancelWatcher (h : Hub) (id : Int) : Hub :=
  if id ∈ h.watchersByID then
    match h.made.lookup id with
    | none => h
    | some w => h.removeWatcher id w
  else h

/-- The body of the two loops of `dispatcherLoop`. -/
def dispatch (h : Hub) : Option Hub :=
  match h.turn with
  | none => none
  | some t =>
    match t.todo with
    | [] => none
    | id :: rest =>
      if t.full then
        some { h.cancelWatcher id with turn := some { t with todo := rest, full := false } }
      else
        match h.made.lookup id with
        | none => none
        | some w =>
          if t.ev.rev.main ≤ w.lastSentRev then
            some { h with turn := some { t with todo := rest } }
          else
            match w.ch.trySend watchCapacity t.ev with
            | .panics => some { h with panicked := true }
            | .full => some { h with turn := some { t with full := true } }
            | .done ch => some { h with
              made := h.made.insert id { w with ch := ch, lastSentRev := t.ev.rev.main }
              turn := some { t with todo := rest } }

def push (h : Hub) (id : Int) : Option Hub :=
  match h.made.lookup id with
  | none => none
  | some w =>
    match w.backlog with
    | [] => none
    | e :: rest =>
      match w.ch.trySend watchCapacity e with
      | .panics => some { h with panicked := true }
      | .full => some { h with made := h.made.insert id { w with backlog := rest } }
      | .done ch => some { h with made := h.made.insert id { w with ch := ch, backlog := rest } }

/-- The watchers of all prefixes of the event's key. -/
def prefixed (h : Hub) (order : List Bytes) (key : Bytes) : List Int :=
  (order.filter fun p => p.isPrefixOf key).flatMap fun p => (h.prefixWatchers.lookup p).getD []

def act (h : Hub) : HubAction → Option Hub
  | .mutate op =>
    ({ h.store with eventCh := [] }.apply op).map fun s => { h with
      store := s
      pending := h.pending ++ [s.eventCh]
      produced := h.produced ++ s.eventCh }
  | .enqueue i =>
    match h.pending[i]? with
    | some (ev :: evs) =>
      if h.eventCh.length < eventCapacity then
        some { h with pending := h.pending.set i evs, eventCh := h.eventCh ++ [ev] }
      else none
    | _ => none
  | .restore snap => some { h with
      store := h.store.restore snap.message
      produced := if snap.message.accepted then snap.message.events else h.produced }
  | .watch key fromRev isPrefix => some (h.watch key fromRev isPrefix).1
  | .push id => h.push id
  | .consume id =>
    match h.made.lookup id with
    | none => none
    | some w =>
      if w.ch.buf = [] then none
      else some { h with made := h.made.insert id { w with ch := w.ch.receive } }
  | .cancel id => some (h.cancelWatcher id)
  | .receive =>
    match h.turn, h.eventCh with
    | none, ev :: evs => some { h with eventCh := evs, turn := some ⟨ev, .received, [], false⟩ }
    | _, _ => none
  | .copyWatchers =>
    match h.turn with
    | some t =>
      if t.phase = .received then
        let copy := (h.watchers.lookup t.ev.key).getD []
        some { h with turn := some { t with phase := .watchers, todo := copy } }
      else none
    | none => none
  | .copyPrefixWatchers order =>
    match h.turn with
    | some t =>
      if t.phase = .watchers ∧ t.todo = [] ∧ RangeOrder order h.prefixWatchers.keys then
        let copy := h.prefixed order t.ev.key
        some { h with turn := some { t with phase := .prefixWatchers, todo := copy } }
      else none
    | none => none
  | .dispatch => h.dispatch
  | .finish =>
    match h.turn with
    | some t =>
      if t.phase = .prefixWatchers ∧ t.todo = [] then some { h with turn := none } else none
    | none => none

/-- Nothing happens after a panic. -/
def step (h : Hub) (a : HubAction) : Option Hub := if h.panicked then none else h.act a

/-- The watchers of a key, or of a prefix, in the order in which they were registered. -/
def listed (h : Hub) (isPrefix : Bool) (key : Bytes) : List Int :=
  ((if isPrefix then h.prefixWatchers else h.watchers).lookup key).getD []

def setWatcher (h : Hub) (id : Int) (w : Watcher) : Hub := { h with made := h.made.insert id w }

inductive Moved (h : Hub) : HubAction → Hub → Prop
  | mutate : { h.store with eventCh := [] }.apply op = some s →
      Moved h (.mutate op) { h with
        store := s
        pending := h.pending ++ [s.eventCh]
        produced := h.produced ++ s.eventCh }
  | enqueue : h.pending[i]? = some (ev :: evs) →
      Moved h (.enqueue i) { h with pending := h.pending.set i evs, eventCh := h.eventCh ++ [ev] }
  | restore : Moved h (.restore snap) { h with
      store := h.store.restore snap.message
      produced := if snap.message.accepted then snap.message.events else h.produced }
  | watch : Moved h (.watch key fromRev isPrefix) (h.watch key fromRev isPrefix).1
  | pushPanics {id : Int} {w : Watcher} : h.made.lookup id = some w → w.backlog = e :: rest →
      w.ch.closed = true →
      Moved h (.push id) { h with panicked := true }
  | pushDone {id : Int} {w : Watcher} : h.made.lookup id = some w → w.backlog = e :: rest →
      w.ch.closed = false → w.ch.buf.length < watchCapacity →
      Moved h (.push id) (h.setWatcher id { w with ch := w.ch.send e, backlog := rest })
  | pushDrops {id : Int} {w : Watcher} : h.made.lookup id = some w → w.backlog = e :: rest →
      w.ch.closed = false → watchCapacity ≤ w.ch.buf.length →
      Moved h (.push id) (h.setWatcher id { w with backlog := rest })
  | consume {id : Int} {w : Watcher} : h.made.lookup id = some w →
      Moved h (.consume id) (h.setWatcher id { w with ch := w.ch.receive })
  | cancel {id : Int} : Moved h (.cancel id) (h.cancelWatcher id)
  | receive : h.turn = none → h.eventCh = ev :: evs →
      Moved h .receive { h with eventCh := evs, turn := some ⟨ev, .received, [], false⟩ }
  | copyWatchers {t : Turn} : h.turn = some t → t.phase = .received →
      Moved h .copyWatchers { h with
        turn := some { t with phase := .watchers, todo := h.listed false t.ev.key } }
  | copyPrefixWatchers {t : Turn} : h.turn = some t → t.phase = .watchers → t.todo = [] →
      RangeOrder order h.prefixWatchers.keys →
      Moved h (.copyPrefixWatchers order) { h with
        turn := some { t with phase := .prefixWatchers, todo := h.prefixed order t.ev.key } }
  | cancels {t : Turn} {id : Int} : h.turn = some t → t.todo = id :: rest → t.full = true →
      Moved h .dispatch { h.cancelWatcher id with
        turn := some { t with todo := rest, full := false } }
  | skips {t : Turn} {id : Int} {w : Watcher} : h.turn = some t → t.todo = id :: rest →
      t.full = false → h.made.lookup id = some w → t.ev.rev.main ≤ w.lastSentRev →
      Moved h .dispatch { h with turn := some { t with todo := rest } }
  | panics {t : Turn} {id : Int} {w : Watcher} : h.turn = some t → t.todo = id :: rest →
      t.full = false → h.made.lookup id = some w → w.lastSentRev < t.ev.rev.main →
      w.ch.closed = true →
      Moved h .dispatch { h with panicked := true }
  | full {t : Turn} {id : Int} {w : Watcher} : h.turn = some t → t.todo = id :: rest →
      t.full = false → h.made.lookup id = some w → w.lastSentRev < t.ev.rev.main →
      w.ch.closed = false → watchCapacity ≤ w.ch.buf.length →
      Moved h .dispatch { h with turn := some { t with full := true } }
  | sends {t : Turn} {id : Int} {w : Watcher} : h.turn = some t → t.todo = id :: rest →
      t.full = false → h.made.lookup id = some w → w.lastSentRev < t.ev.rev.main →
      w.ch.closed = false → w.ch.buf.length < watchCapacity →
      Moved h .dispatch { h.setWatcher id { w with
          ch := w.ch.send t.ev, lastSentRev := t.ev.rev.main } with
        turn := some { t with todo := rest } }
  | finish {t : Turn} : h.turn = some t → t.phase = .prefixWatchers → t.todo = [] →
      Moved h .finish { h with turn := none }

section

variable {h h' : Hub} {a : HubAction} {id : Int} {w : Watcher}

theorem push_moved (hs : h.push id = some h') : Moved h (.push id) h' := by
  unfold push at hs
  split at hs
  · cases hs
  · rename_i w hw
    split at hs
    · cases hs
    · rename_i e rest hb
      split at hs
      · rename_i hp
        cases hs
        exact .pushPanics hw hb (Chan.trySend_panics.1 hp)
      · rename_i hf
        cases hs
        obtain ⟨ho, hle⟩ := Chan.trySend_full hf
        exact .pushDrops hw hb ho hle
      · rename_i ch hd
        cases hs
        obtain ⟨ho, hlt, rfl⟩ := Chan.trySend_done hd
        exact .pushDone hw hb ho hlt

theorem dispatch_moved (hs : h.dispatch = some h') : Moved h .dispatch h' := by
  unfold dispatch at hs
  split at hs
  · cases hs
  · rename_i t ht
    split at hs
    · cases hs
    · rename_i id rest htodo
      split at hs
      · rename_i hfull
        cases hs
        exact .cancels ht htodo hfull
      · rename_i hfull
        have hfull := Bool.eq_false_iff.2 hfull
        split at hs
        · cases hs
        · rename_i w hw
          split at hs
          · rename_i hle
            cases hs
            exact .skips ht htodo hfull hw hle
          · rename_i hle
            have hlt := Int.not_le.1 hle
            split at hs
            · rename_i hp
              cases hs
              exact .panics ht htodo hfull hw hlt (Chan.trySend_panics.1 hp)
            · rename_i hf
              cases hs
              obtain ⟨ho, hcap⟩ := Chan.trySend_full hf
              exact .full ht htodo hfull hw hlt ho hcap
            · rename_i ch hd
              cases hs
              obtain ⟨ho, hroom, rfl⟩ := Chan.trySend_done hd
              exact .sends ht htodo hfull hw hlt ho hroom

theorem step_moved (hs : h.step a = some h') : h.panicked = false ∧ Moved h a h' := by
  unfold step at hs
  split at hs
  · cases hs
  · rename_i hp
    refine ⟨Bool.eq_false_iff.2 hp, ?_⟩
    cases a with
    | mutate op =>
      obtain ⟨s, happ, rfl⟩ := Option.map_eq_some_iff.1 hs
      exact .mutate happ
    | enqueue i =>
      simp only [act] at hs
      split at hs
      · rename_i ev evs hi
        split at hs
        · cases hs
          exact .enqueue hi
        · cases hs
      · cases hs
    | restore snap =>
      cases hs
      exact .restore
    | watch key fromRev isPrefix =>
      cases hs
      exact .watch
    | push id => exact push_moved hs
    | consume id =>
      simp only [act] at hs
      split at hs
      · cases hs
      · rename_i w hw
        split at hs
        · cases hs
        · cases hs
          exact .consume hw
    | cancel id =>
      cases hs
      exact .cancel
    | receive =>
      simp only [act] at hs
      split at hs
      · rename_i ev evs ht hq
        cases hs
        exact .receive ht hq
      · cases hs
    | copyWatchers =>
      simp only [act] at hs
      split at hs
      · rename_i t ht
        split at hs
        · rename_i hph
          cases hs
          exact .copyWatchers ht hph
        · cases hs
      · cases hs
    | copyPrefixWatchers order =>
      simp only [act] at hs
      split at hs
      · rename_i t ht
        split at hs
        · rename_i hc
          obtain ⟨hph, htodo, ho⟩ := hc
          cases hs
          exact .copyPrefixWatchers ht hph htodo ho
        · cases hs
      · cases hs
    | dispatch => exact dispatch_moved hs
    | finish =>
      simp only [act] at hs
      split at hs
      · rename_i t ht
        split at hs
        · rename_i hc
          cases hs
          exact .finish ht hc.1 hc.2
        · cases hs
      · cases hs

end

end Hub

end LinKV

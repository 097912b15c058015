import LinKV.Raft.Types

namespace LinKV
set_option autoImplicit true

namespace Raft

/-- What `persist` saves. -/
def image (rf : Raft n) : RaftState n where
  currentTerm := rf.currentTerm
  votedFor := rf.votedFor
  lastIncludeIndex := rf.lastIncludeIndex
  lastIncludeTerm := rf.lastIncludeTerm
  log := rf.log
  snapshot := rf.snapshot

def persist (rf : Raft n) : Raft n := { rf with persister := some rf.image }

/-- `readPersist`, reading back what `persist` saved. -/
def readPersist (rf : Raft n) : Raft n :=
  match rf.persister with
  | none => rf
  | some e => { rf with
      currentTerm := e.currentTerm
      votedFor := e.votedFor
      log := if e.log = [] then [⟨rf.lastIncludeTerm, [], rf.lastIncludeIndex⟩] else e.log
      lastIncludeIndex := e.lastIncludeIndex
      lastIncludeTerm := e.lastIncludeTerm
      commitIndex := e.lastIncludeIndex
      lastApplied := e.lastIncludeIndex
      snapshot := e.snapshot }

def initLeaderProgressLocked (rf : Raft n) : Raft n :=
  { rf with
    nextIndex := fun _ => rf.lastLogIndex + 1
    matchIndex := fun _ => rf.lastIncludeIndex }

/-- `Make`: a peer of a one-node cluster is leader from the start. -/
def make (me : Fin n) (persister : Option (RaftState n)) : Raft n :=
  let rf : Raft n := {
    me := me
    currentTerm := 0
    votedFor := none
    state := .follower
    log := [⟨0, [], 0⟩]
    commitIndex := 0
    lastApplied := 0
    nextIndex := fun _ => 0
    matchIndex := fun _ => 0
    lastIncludeIndex := 0
    lastIncludeTerm := 0
    snapshot := []
    pendingReadCh := none
    pendingReadCount := 0
    persister := persister }
  let rf := rf.readPersist
  if n ≤ 1 then { rf with state := .leader }.initLeaderProgressLocked else rf

/-- The term change most paths share: a higher term makes a fresh follower of the node. -/
def stepDown (rf : Raft n) (term : Nat) : Raft n :=
  { rf with state := .follower, currentTerm := term, votedFor := none }.persist

/-- The term check at the head of the RPC handlers, for a request that is not stale. -/
def catchUp (rf : Raft n) (term : Nat) : Raft n :=
  if rf.currentTerm < term then rf.stepDown term else rf

/-- The candidate's log is at least as new as the voter's. -/
def upToDate (rf : Raft n) (args : RequestVoteArgs n) : Bool :=
  rf.lastLogTerm < args.lastLogTerm ||
    (rf.lastLogIndex ≤ args.lastLogIndex && args.lastLogTerm = rf.lastLogTerm)

def requestVote (rf : Raft n) (args : RequestVoteArgs n) : Raft n × RequestVoteReply :=
  if args.term < rf.currentTerm then (rf, ⟨rf.currentTerm, false⟩)
  else
    let rf := rf.catchUp args.term
    if (rf.votedFor = none ∨ rf.votedFor = some args.candidateId) ∧ rf.upToDate args then
      ({ rf with votedFor := some args.candidateId }.persist, ⟨rf.currentTerm, true⟩)
    else (rf, ⟨rf.currentTerm, false⟩)

/-- The first slot of the run of slots with term `t` that ends in slot `k`. -/
def conflictStart (log : List LogEntry) (t : Nat) : Nat → Nat
  | 0 => 0
  | k + 1 => if termOf log k = t then conflictStart log t k else k + 1

/-- A request of a leader also ends a candidacy in the same term. -/
def follow (rf : Raft n) (term : Nat) : Raft n := { rf.catchUp term with state := .follower }

/-- The part of `AppendEntries` after the log check: the suffix is cut off at the first new
entry whether or not it conflicts. -/
def overwrite (rf : Raft n) (args : AppendEntriesArgs n) : Raft n :=
  let rf := if args.entries = [] then rf else
    { rf with log := rf.log.take (args.prevLogIndex + 1 - rf.lastIncludeIndex) ++ args.entries }
  let rf := if rf.commitIndex < args.leaderCommit then
    { rf with commitIndex := min args.leaderCommit rf.lastLogIndex } else rf
  rf.persist

/-- `AppendEntries`. The reply carries the term from before the request. -/
def appendEntries (rf : Raft n) (args : AppendEntriesArgs n) : Raft n × AppendEntriesReply :=
  let reply : AppendEntriesReply := { term := rf.currentTerm }
  if args.term < rf.currentTerm then (rf, reply)
  else
    let rf := rf.follow args.term
    if args.prevLogIndex < rf.lastIncludeIndex then
      (rf, { reply with conflictIndex := rf.lastIncludeIndex + 1 })
    else
      let sliceIdx := args.prevLogIndex - rf.lastIncludeIndex
      if rf.log.length ≤ sliceIdx then
        (rf, { reply with
          conflictTerm := -1, conflictIndex := rf.log.length + rf.lastIncludeIndex })
      else if termOf rf.log sliceIdx ≠ args.prevLogTerm then
        let conflictTerm := termOf rf.log sliceIdx
        (rf, { reply with
          conflictTerm := conflictTerm
          conflictIndex := rf.lastIncludeIndex + conflictStart rf.log conflictTerm sliceIdx })
      else (rf.overwrite args, { reply with success := true })

/-- The log `Snapshot` and `InstallSnapshot` leave: a new boundary and every entry with a
higher `Index`. -/
def compacted (log : List LogEntry) (index term : Nat) : List LogEntry :=
  ⟨term, [], index⟩ :: log.filter (fun e => index < e.index)

/-- `Snapshot`; `none` is the out-of-range panic of `rf.log[abs_index]`. -/
def snapshotAt (rf : Raft n) (index : Nat) (data : Bytes) : Option (Raft n) :=
  if index ≤ rf.lastIncludeIndex then some rf
  else if rf.log.length ≤ index - rf.lastIncludeIndex then none
  else
    let newTerm := termOf rf.log (index - rf.lastIncludeIndex)
    let rf' : Raft n := { rf with
      lastIncludeIndex := index
      lastIncludeTerm := newTerm
      log := compacted rf.log index newTerm
      snapshot := data
      commitIndex := max rf.commitIndex index
      lastApplied := max rf.lastApplied index
      nextIndex := fun i =>
        if rf.state = .leader then max (rf.nextIndex i) (index + 1) else rf.nextIndex i
      matchIndex := fun i =>
        if rf.state = .leader then max (rf.matchIndex i) index else rf.matchIndex i }
    some rf'.persist

/-- The part of `InstallSnapshot` that replaces the log. -/
def install (rf : Raft n) (args : InstallSnapshotArgs n) : Raft n :=
  { rf with
    log := compacted rf.log args.lastIncludeIndex args.lastIncludeTerm
    lastIncludeIndex := args.lastIncludeIndex
    lastIncludeTerm := args.lastIncludeTerm
    snapshot := args.data
    commitIndex := max rf.commitIndex args.lastIncludeIndex
    lastApplied := max rf.lastApplied args.lastIncludeIndex }.persist

/-- `InstallSnapshot`. The last component is the message left to the detached goroutine. -/
def installSnapshot (rf : Raft n) (args : InstallSnapshotArgs n) :
    Raft n × InstallSnapshotReply × Option ApplyMsg :=
  let reply : InstallSnapshotReply := ⟨rf.currentTerm⟩
  if args.term < rf.currentTerm then (rf, reply, none)
  else
    let rf := rf.follow args.term
    if args.lastIncludeIndex ≤ rf.lastIncludeIndex then (rf, reply, none)
    else (rf.install args, reply,
      some (.snapshot args.lastIncludeIndex args.lastIncludeTerm args.data))

/-- `Start` on a leader; a node that is not leader refuses. -/
def start (rf : Raft n) (command : Bytes) : Raft n :=
  if rf.state ≠ .leader then rf
  else
    let newIndex := rf.lastLogIndex + 1
    let rf' : Raft n := { rf with
      log := rf.log ++ [⟨rf.currentTerm, command, newIndex⟩]
      commitIndex := if n ≤ 1 then newIndex else rf.commitIndex }
    rf'.persist

end Raft

end LinKV

import LinKV.Raft.Leader

namespace LinKV
set_option autoImplicit true

def applyBufferSize : Nat := 1000

/-- A `ReadIndex` call that has installed `pendingReadCh`. `startedAt` and `counted` (the peers
whose replies were counted for it) are bookkeeping that no step reads. -/
structure ReadCall (n : Nat) where
  index : Nat
  term : Nat
  signalled : Bool
  startedAt : Nat
  counted : List (Fin n)
deriving DecidableEq, Repr

/-- A `logUpdate` goroutine on its way from the unlock to the wire. Its entries are a slice of the
log array, of which `toPBLogEntries` has copied the first `copied`, one after the other. -/
structure Send (n : Nat) where
  server : Fin n
  args : AppendEntriesArgs n
  copied : Nat := 0
deriving DecidableEq, Repr

namespace Send

/-- The slice when the log in its array has become that of `rf`: past the end of the log it keeps
what was there before. -/
def reread (rf : Raft n) (m : Send n) : Send n :=
  { m with args.entries := m.args.entries.mapIdx fun k e =>
      if k < m.copied then e
      else (rf.log[m.args.prevLogIndex + 1 + k - rf.lastIncludeIndex]?).getD e }

/-- The slice when nothing writes to its array any more. -/
def settle (m : Send n) : Send n := { m with copied := m.args.entries.length }

end Send

/-- One server process: the `Raft` value and where its goroutines stand.

* `sends`: `logUpdate` goroutines that have a request to marshal;
* `elections`: `startElection` goroutines started by the ticker that have not run yet;
* `solo`: one-node `startElection` goroutines between their two critical sections;
* `votes`: the counter of the newest election (older ones are never counted again);
* `batch`: messages the applier has collected and not yet sent;
* `snapSends`: the detached goroutines of `InstallSnapshot`;
* `inHand`, `processed`: the message `applyLoop` works on, and those it is done with;
* `base`: the `lastIncludeIndex` the process was started with;
* `reads`: `Get` and `Range` calls in their wait loop, with the index they wait for. -/
structure Proc (n : Nat) where
  rf : Raft n
  sends : List (Send n) := []
  elections : Nat := 0
  solo : Nat := 0
  votes : Nat := 0
  batch : List ApplyMsg := []
  snapSends : List ApplyMsg := []
  applyCh : List ApplyMsg := []
  inHand : Option ApplyMsg := none
  processed : List ApplyMsg := []
  base : Nat := 0
  readCall : Option (ReadCall n) := none
  reads : List Nat := []

/-- What can happen to one process between restarts. -/
inductive Event (n : Nat) where
  | tick
  | startElection
  | soloLeader
  | logUpdate
  | replicate (server : Fin n)
  | copy (k : Nat)
  | send (k : Nat)
  | start (command : Bytes)
  | collect
  | emit
  | emitSnap (k : Nat)
  | receive
  | finish (snapshot : Option Bytes)
  | readIndex
  | readSignal
  | readReturn
  | readTimeout
  | readExit (k : Nat)
  | requestVote (args : RequestVoteArgs n)
  | appendEntries (args : AppendEntriesArgs n)
  | installSnapshot (args : InstallSnapshotArgs n)
  | requestVoteReply (args : RequestVoteArgs n) (reply : RequestVoteReply)
  | appendEntriesReply (server : Fin n) (args : AppendEntriesArgs n) (reply : AppendEntriesReply)
  | installSnapshotReply (server : Fin n) (args : InstallSnapshotArgs n)
      (reply : InstallSnapshotReply)
deriving DecidableEq, Repr

namespace Raft

/-- The locked prefix of `startElection`. -/
def campaign (rf : Raft n) : Raft n :=
  { rf with
    state := .candidate
    currentTerm := rf.currentTerm + 1
    votedFor := some rf.me }.persist

def lead (rf : Raft n) : Raft n := { rf with state := .leader }.initLeaderProgressLocked

/-- The applier's loop over committed entries; `fuel` bounds the distance to `commitIndex`. -/
def collectFrom (rf : Raft n) : Nat → Nat → Nat × List ApplyMsg
  | 0, applied => (applied, [])
  | fuel + 1, applied =>
    if applied < rf.commitIndex then
      if applied + 1 ≤ rf.lastIncludeIndex then rf.collectFrom fuel rf.lastIncludeIndex
      else
        match rf.log[applied + 1 - rf.lastIncludeIndex]? with
        | none => (applied, [])
        | some entry =>
          let rest := rf.collectFrom fuel (applied + 1)
          (rest.1, .command (applied + 1) entry.command :: rest.2)
    else (applied, [])

/-- The critical section of `applier`, with the messages it then sends. -/
def applier (rf : Raft n) : Raft n × List ApplyMsg :=
  if rf.lastApplied < rf.lastIncludeIndex then
    ({ rf with lastApplied := rf.lastIncludeIndex },
      [.snapshot rf.lastIncludeIndex rf.lastIncludeTerm rf.snapshot])
  else
    let out := rf.collectFrom (rf.commitIndex - rf.lastApplied) rf.lastApplied
    ({ rf with lastApplied := out.1 }, out.2)

/-- Does `appendEntriesReply` count this reply for a pending read? -/
def countsRead (rf : Raft n) (args : AppendEntriesArgs n) (reply : AppendEntriesReply) : Bool :=
  rf.state = .leader && args.term = rf.currentTerm && reply.term ≤ rf.currentTerm &&
    reply.success && rf.pendingReadCh.isSome

end Raft

namespace Proc

/-- A process started on what its persister holds. -/
def boot (me : Fin n) (persister : Option (RaftState n)) : Proc n :=
  { rf := .make me persister, base := (Raft.make me persister).lastIncludeIndex }

/-- The requests still to be marshalled when `Start` or `AppendEntries` has written the array the
log is in. When `append` has to grow the array, the slices keep the old one: that is a run in which
the goroutines have copied their entries before. -/
def sendsOn (p : Proc n) (rf : Raft n) : List (Send n) :=
  if rf.log = p.rf.log then p.sends else p.sends.map (·.reread rf)

/-- The same when `Snapshot` or `InstallSnapshot` has built a new array for the log. -/
def sendsOff (p : Proc n) (rf : Raft n) : List (Send n) :=
  if rf.lastIncludeIndex = p.rf.lastIncludeIndex then p.sends else p.sends.map (·.settle)

/-- The request of a `replicate` step, if it shares entries with the log. -/
def shared (p : Proc n) (server : Fin n) : List (Send n) :=
  match (p.rf.replicate server).2 with
  | some (.appendEntries args _) => [{ server := server, args := args }]
  | _ => []

/-- A vote reply reaching its `startElection` goroutine. -/
def requestVoteReply (p : Proc n) (args : RequestVoteArgs n) (reply : RequestVoteReply) :
    Proc n :=
  if p.rf.state ≠ .candidate ∨ p.rf.currentTerm ≠ args.term then p
  else if args.term < reply.term then { p with rf := p.rf.stepDown reply.term }
  else if reply.voteGranted ∧ reply.term = args.term then
    let p := { p with votes := p.votes + 1 }
    if n / 2 < p.votes then { p with rf := p.rf.lead } else p
  else p

def appendEntriesReply (p : Proc n) (server : Fin n) (args : AppendEntriesArgs n)
    (reply : AppendEntriesReply) : Proc n :=
  { p with
    rf := p.rf.appendEntriesReply server args reply
    readCall := p.readCall.map fun c =>
      if p.rf.countsRead args reply then { c with counted := server :: c.counted } else c }

/-- `ReadIndex` up to its select. A call that cannot install its channel returns `false`. -/
def readIndex (now : Nat) (p : Proc n) : Option (Proc n) :=
  if p.rf.state ≠ .leader ∨ p.rf.pendingReadCh ≠ none then none
  else some { p with
    rf := { p.rf with pendingReadCh := some (n / 2 < 1 : Bool), pendingReadCount := 1 }
    readCall := some {
      index := p.rf.commitIndex
      term := p.rf.currentTerm
      signalled := false
      startedAt := now
      counted := [] } }

/-- What a signalled `ReadIndex` returns. -/
def readResult (p : Proc n) (c : ReadCall n) : Nat × Bool :=
  if p.rf.state ≠ .leader ∨ p.rf.currentTerm ≠ c.term then (0, false) else (c.index, true)

/-- The locked suffix of a signalled `ReadIndex`; the failing exit keeps `pendingReadCh`. -/
def readReturn (p : Proc n) (c : ReadCall n) : Proc n :=
  if (p.readResult c).2 then
    { p with
      rf := { p.rf with pendingReadCh := none, pendingReadCount := 0 }
      readCall := none
      reads := p.reads ++ [c.index] }
  else { p with readCall := none }

/-- `applyLoop` is done with the message in hand; after a command it may call `Snapshot`. -/
def finish (p : Proc n) (snapshot : Option Bytes) : Option (Proc n) :=
  match p.inHand, snapshot with
  | none, _ => none
  | some m, none => some { p with inHand := none, processed := p.processed ++ [m] }
  | some (.command i c), some data =>
    (p.rf.snapshotAt i data).map fun rf =>
      { p with
        rf := rf, sends := p.sendsOff rf, inHand := none,
        processed := p.processed ++ [.command i c] }
  | some (.snapshot _ _ _), some _ => none

def step (now : Nat) (p : Proc n) : Event n → Option (Proc n)
  | .tick =>
    if p.rf.state = .leader then none else some { p with elections := p.elections + 1 }
  | .startElection =>
    if p.elections = 0 then none
    else some { p with
      rf := p.rf.campaign
      elections := p.elections - 1
      votes := 1
      solo := if n ≤ 1 then p.solo + 1 else p.solo }
  | .soloLeader =>
    if p.solo = 0 then none else some { p with rf := p.rf.lead, solo := p.solo - 1 }
  | .logUpdate => some { p with rf := p.rf.logUpdate }
  | .replicate server =>
    if server = p.rf.me then none
    else some { p with rf := (p.rf.replicate server).1, sends := p.sends ++ p.shared server }
  | .copy k =>
    match p.sends[k]? with
    | none => none
    | some m =>
      if m.copied < m.args.entries.length then
        some { p with sends := p.sends.set k { m with copied := m.copied + 1 } }
      else none
  | .send k => if k < p.sends.length then some { p with sends := p.sends.eraseIdx k } else none
  | .start command => some { p with
      rf := p.rf.start command, sends := p.sendsOn (p.rf.start command) }
  | .collect =>
    if p.batch = [] then some { p with rf := p.rf.applier.1, batch := p.rf.applier.2 } else none
  | .emit =>
    match p.batch with
    | [] => none
    | m :: rest =>
      if p.applyCh.length < applyBufferSize then
        some { p with batch := rest, applyCh := p.applyCh ++ [m] }
      else none
  | .emitSnap k =>
    match p.snapSends[k]? with
    | none => none
    | some m =>
      if p.applyCh.length < applyBufferSize then
        some { p with snapSends := p.snapSends.eraseIdx k, applyCh := p.applyCh ++ [m] }
      else none
  | .receive =>
    match p.inHand, p.applyCh with
    | none, m :: rest => some { p with inHand := some m, applyCh := rest }
    | _, _ => none
  | .finish snapshot => p.finish snapshot
  | .readIndex => p.readIndex now
  | .readSignal =>
    match p.readCall with
    | none => none
    | some c =>
      if c.signalled = false ∧ p.rf.pendingReadCh = some true then
        some { p with
          rf := { p.rf with pendingReadCh := some false }
          readCall := some { c with signalled := true } }
      else none
  | .readReturn =>
    match p.readCall with
    | none => none
    | some c => if c.signalled then some (p.readReturn c) else none
  | .readTimeout =>
    match p.readCall with
    | none => none
    | some c =>
      if c.signalled then none
      else some { p with
        rf := { p.rf with pendingReadCh := none, pendingReadCount := 0 }
        readCall := none }
  | .readExit k =>
    match p.reads[k]? with
    | none => none
    | some index =>
      if index ≤ p.rf.lastApplied then some { p with reads := p.reads.eraseIdx k } else none
  | .requestVote args => some { p with rf := (p.rf.requestVote args).1 }
  | .appendEntries args => some { p with
      rf := (p.rf.appendEntries args).1, sends := p.sendsOn (p.rf.appendEntries args).1 }
  | .installSnapshot args => some { p with
      rf := (p.rf.installSnapshot args).1
      sends := p.sendsOff (p.rf.installSnapshot args).1
      snapSends := p.snapSends ++ (p.rf.installSnapshot args).2.2.toList }
  | .requestVoteReply args reply => some (p.requestVoteReply args reply)
  | .appendEntriesReply server args reply => some (p.appendEntriesReply server args reply)
  | .installSnapshotReply server args reply =>
    some { p with rf := p.rf.installSnapshotReply server args reply }

/-- What a process can do, one event at a time. -/
inductive Takes (now : Nat) (p : Proc n) : Event n → Proc n → Prop
  | tick : p.rf.state ≠ .leader → Takes now p .tick { p with elections := p.elections + 1 }
  | startElection : p.elections ≠ 0 → Takes now p .startElection { p with
      rf := p.rf.campaign
      elections := p.elections - 1
      votes := 1
      solo := if n ≤ 1 then p.solo + 1 else p.solo }
  | soloLeader : p.solo ≠ 0 → Takes now p .soloLeader { p with
      rf := p.rf.lead, solo := p.solo - 1 }
  | logUpdate : Takes now p .logUpdate { p with rf := p.rf.logUpdate }
  | replicate server : server ≠ p.rf.me →
      Takes now p (.replicate server) { p with
        rf := (p.rf.replicate server).1, sends := p.sends ++ p.shared server }
  | copy k m : p.sends[k]? = some m → m.copied < m.args.entries.length →
      Takes now p (.copy k) { p with sends := p.sends.set k { m with copied := m.copied + 1 } }
  | send k : k < p.sends.length → Takes now p (.send k) { p with sends := p.sends.eraseIdx k }
  | start command : Takes now p (.start command) { p with
      rf := p.rf.start command, sends := p.sendsOn (p.rf.start command) }
  | collect : p.batch = [] → Takes now p .collect { p with
      rf := p.rf.applier.1, batch := p.rf.applier.2 }
  | emit m rest : p.batch = m :: rest → p.applyCh.length < applyBufferSize →
      Takes now p .emit { p with batch := rest, applyCh := p.applyCh ++ [m] }
  | emitSnap k m : p.snapSends[k]? = some m → p.applyCh.length < applyBufferSize →
      Takes now p (.emitSnap k) { p with
        snapSends := p.snapSends.eraseIdx k, applyCh := p.applyCh ++ [m] }
  | receive m rest : p.inHand = none → p.applyCh = m :: rest →
      Takes now p .receive { p with inHand := some m, applyCh := rest }
  | finish m : p.inHand = some m →
      Takes now p (.finish none) { p with inHand := none, processed := p.processed ++ [m] }
  | snapshot index c data rf : p.inHand = some (.command index c) →
      p.rf.snapshotAt index data = some rf →
      Takes now p (.finish (some data)) { p with
        rf := rf, sends := p.sendsOff rf, inHand := none,
        processed := p.processed ++ [.command index c] }
  | readIndex : p.rf.state = .leader → p.rf.pendingReadCh = none →
      Takes now p .readIndex { p with
        rf := { p.rf with pendingReadCh := some (n / 2 < 1 : Bool), pendingReadCount := 1 }
        readCall := some {
          index := p.rf.commitIndex
          term := p.rf.currentTerm
          signalled := false
          startedAt := now
          counted := [] } }
  | readSignal c : p.readCall = some c → c.signalled = false →
      p.rf.pendingReadCh = some true → Takes now p .readSignal { p with
        rf := { p.rf with pendingReadCh := some false }
        readCall := some { c with signalled := true } }
  | readReturn c : p.readCall = some c → c.signalled = true →
      Takes now p .readReturn (p.readReturn c)
  | readTimeout c : p.readCall = some c → c.signalled = false → Takes now p .readTimeout { p with
      rf := { p.rf with pendingReadCh := none, pendingReadCount := 0 }
      readCall := none }
  | readExit k index : p.reads[k]? = some index → index ≤ p.rf.lastApplied →
      Takes now p (.readExit k) { p with reads := p.reads.eraseIdx k }
  | requestVote args : Takes now p (.requestVote args) { p with rf := (p.rf.requestVote args).1 }
  | appendEntries args : Takes now p (.appendEntries args) { p with
      rf := (p.rf.appendEntries args).1, sends := p.sendsOn (p.rf.appendEntries args).1 }
  | installSnapshot args : Takes now p (.installSnapshot args) { p with
      rf := (p.rf.installSnapshot args).1
      sends := p.sendsOff (p.rf.installSnapshot args).1
      snapSends := p.snapSends ++ (p.rf.installSnapshot args).2.2.toList }
  | requestVoteReply args reply :
      Takes now p (.requestVoteReply args reply) (p.requestVoteReply args reply)
  | appendEntriesReply server args reply :
      Takes now p (.appendEntriesReply server args reply) (p.appendEntriesReply server args reply)
  | installSnapshotReply server args reply : Takes now p (.installSnapshotReply server args reply)
      { p with rf := p.rf.installSnapshotReply server args reply }

theorem step_takes {p p' : Proc n} (hs : p.step now ev = some p') : p.Takes now ev p' := by
  cases ev with
  | tick =>
    obtain ⟨h, ⟨⟩⟩ := Option.ite_none_left_eq_some.1 hs
    exact .tick h
  | startElection =>
    obtain ⟨h, ⟨⟩⟩ := Option.ite_none_left_eq_some.1 hs
    exact .startElection h
  | soloLeader =>
    obtain ⟨h, ⟨⟩⟩ := Option.ite_none_left_eq_some.1 hs
    exact .soloLeader h
  | logUpdate => cases hs; exact .logUpdate
  | replicate server =>
    obtain ⟨h, ⟨⟩⟩ := Option.ite_none_left_eq_some.1 hs
    exact .replicate server h
  | copy k =>
    simp only [step] at hs
    split at hs
    · cases hs
    · next hk =>
      obtain ⟨h, ⟨⟩⟩ := Option.ite_none_right_eq_some.1 hs
      exact .copy k _ hk h
  | send k =>
    obtain ⟨h, ⟨⟩⟩ := Option.ite_none_right_eq_some.1 hs
    exact .send k h
  | start command => cases hs; exact .start command
  | collect =>
    obtain ⟨h, ⟨⟩⟩ := Option.ite_none_right_eq_some.1 hs
    exact .collect h
  | emit =>
    simp only [step] at hs
    split at hs
    · cases hs
    · next hb =>
      obtain ⟨h, ⟨⟩⟩ := Option.ite_none_right_eq_some.1 hs
      exact .emit _ _ hb h
  | emitSnap k =>
    simp only [step] at hs
    split at hs
    · cases hs
    · next hk =>
      obtain ⟨h, ⟨⟩⟩ := Option.ite_none_right_eq_some.1 hs
      exact .emitSnap k _ hk h
  | receive =>
    simp only [step] at hs
    split at hs
    · next hi hc =>
      cases hs
      exact .receive _ _ hi hc
    · cases hs
  | finish snapshot =>
    simp only [step, Proc.finish] at hs
    split at hs
    · cases hs
    · next hin =>
      cases hs
      exact .finish _ hin
    · next hin =>
      obtain ⟨rf, hrf, rfl⟩ := Option.map_eq_some_iff.1 hs
      exact .snapshot _ _ _ rf hin hrf
    · cases hs
  | readIndex =>
    obtain ⟨h, ⟨⟩⟩ := Option.ite_none_left_eq_some.1 hs
    rw [not_or, not_not, not_not] at h
    exact .readIndex h.1 h.2
  | readSignal =>
    simp only [step] at hs
    split at hs
    · cases hs
    · next hc =>
      obtain ⟨h, ⟨⟩⟩ := Option.ite_none_right_eq_some.1 hs
      exact .readSignal _ hc h.1 h.2
  | readReturn =>
    simp only [step] at hs
    split at hs
    · cases hs
    · next hc =>
      obtain ⟨h, ⟨⟩⟩ := Option.ite_none_right_eq_some.1 hs
      exact .readReturn _ hc h
  | readTimeout =>
    simp only [step] at hs
    split at hs
    · cases hs
    · next hc =>
      obtain ⟨h, ⟨⟩⟩ := Option.ite_none_left_eq_some.1 hs
      exact .readTimeout _ hc (Bool.eq_false_iff.2 h)
  | readExit k =>
    simp only [step] at hs
    split at hs
    · cases hs
    · next hk =>
      obtain ⟨h, ⟨⟩⟩ := Option.ite_none_right_eq_some.1 hs
      exact .readExit k _ hk h
  | requestVote args => cases hs; exact .requestVote args
  | appendEntries args => cases hs; exact .appendEntries args
  | installSnapshot args => cases hs; exact .installSnapshot args
  | requestVoteReply args reply => cases hs; exact .requestVoteReply args reply
  | appendEntriesReply server args reply => cases hs; exact .appendEntriesReply server args reply
  | installSnapshotReply server args reply =>
    cases hs; exact .installSnapshotReply server args reply

end Proc

end LinKV

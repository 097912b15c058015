import LinKV.Raft.Handlers

namespace LinKV
set_option autoImplicit true

/-- `f` with the value at `i` replaced. -/
def assign (f : Fin n → α) (i : Fin n) (x : α) : Fin n → α := fun j => if j = i then x else f j

@[simp] theorem assign_self (f : Fin n → α) (i : Fin n) (x : α) : assign f i x i = x := by
  simp only [assign, ↓reduceIte]

theorem assign_ne (f : Fin n → α) (x : α) (h : j ≠ i) : assign f i x j = f j := by
  simp only [assign, if_neg h]

theorem assign_forall {P : Fin n → α → Prop} (hi : P i x) (hj : ∀ j, j ≠ i → P j (f j))
    (j : Fin n) : P j (assign f i x j) := by
  by_cases h : j = i
  · subst h
    rwa [assign_self]
  · rw [assign_ne f x h]
    exact hj j h

/-- An RPC in flight, with its reply once the server has handled it. -/
inductive Call (n : Nat) where
  | requestVote (args : RequestVoteArgs n) (reply : Option RequestVoteReply)
  | appendEntries (args : AppendEntriesArgs n) (reply : Option AppendEntriesReply)
  | installSnapshot (args : InstallSnapshotArgs n) (reply : Option InstallSnapshotReply)
deriving DecidableEq, Repr

namespace Raft

/-- The peers `updateCommiIndex` counts for index `N`, the leader aside. -/
def holders (rf : Raft n) (N : Nat) : Finset (Fin n) :=
  Finset.univ.filter fun i => i ≠ rf.me ∧ N ≤ rf.matchIndex i

/-- The downward search of `updateCommiIndex`, started at the last log index. -/
def commitSearch (rf : Raft n) : Nat → Nat
  | 0 => rf.commitIndex
  | N + 1 =>
    if N + 1 ≤ rf.commitIndex ∨ N + 1 ≤ rf.lastIncludeIndex then rf.commitIndex
    else if n / 2 < (rf.holders (N + 1)).card + 1 ∧
        termOf rf.log (N + 1 - rf.lastIncludeIndex) = rf.currentTerm then N + 1
    else rf.commitSearch N

def updateCommiIndex (rf : Raft n) : Raft n :=
  { rf with commitIndex := rf.commitSearch rf.lastLogIndex }

/-- One round of the `logUpdate` loop, up to the goroutines it starts for the other peers. -/
def logUpdate (rf : Raft n) : Raft n :=
  if rf.state ≠ .leader then rf
  else
    let rf := if n ≤ 1 then rf.updateCommiIndex else rf
    { rf with
      nextIndex := assign rf.nextIndex rf.me (rf.lastLogIndex + 1)
      matchIndex := assign rf.matchIndex rf.me rf.lastLogIndex }

/-- The locked prefix of a `logUpdate` goroutine for `server`, with the request it goes on to send.
The entries are those the log has now: the slice is copied later (`Send`). -/
def replicate (rf : Raft n) (server : Fin n) : Raft n × Option (Call n) :=
  if rf.state ≠ .leader then (rf, none)
  else
    let rf := rf.updateCommiIndex
    let index := rf.nextIndex server
    if index ≤ rf.lastIncludeIndex then
      (rf, some (.installSnapshot {
        term := rf.currentTerm
        leaderId := rf.me
        lastIncludeIndex := rf.lastIncludeIndex
        lastIncludeTerm := rf.lastIncludeTerm
        data := rf.snapshot } none))
    else
      let sliceIdx := index - 1 - rf.lastIncludeIndex
      if rf.log.length ≤ sliceIdx then
        ({ rf with nextIndex := assign rf.nextIndex server (rf.lastIncludeIndex + 1) }, none)
      else
        (rf, some (.appendEntries {
          term := rf.currentTerm
          leaderId := rf.me
          prevLogIndex := index - 1
          prevLogTerm := termOf rf.log sliceIdx
          entries :=
            if rf.lastLogIndex < index then [] else rf.log.drop (index - rf.lastIncludeIndex)
          leaderCommit := rf.commitIndex } none))

/-- The `logUpdate` goroutine after `InstallSnapshot` returned. -/
def installSnapshotReply (rf : Raft n) (server : Fin n) (args : InstallSnapshotArgs n)
    (reply : InstallSnapshotReply) : Raft n :=
  if rf.state ≠ .leader ∨ rf.currentTerm ≠ args.term then rf
  else if rf.currentTerm < reply.term then rf.stepDown reply.term
  else { rf with
    nextIndex := assign rf.nextIndex server (rf.lastIncludeIndex + 1)
    matchIndex := assign rf.matchIndex server rf.lastIncludeIndex }

/-- `pendingReadCount++`, waking the reader once the count passes half of the peers. -/
def countRead (rf : Raft n) : Raft n :=
  match rf.pendingReadCh with
  | none => rf
  | some filled => { rf with
      pendingReadCount := rf.pendingReadCount + 1
      pendingReadCh := some (filled || n / 2 < rf.pendingReadCount + 1) }

/-- The last statement on both reply paths: `matchIndex` stays below `nextIndex`. -/
def clampMatch (rf : Raft n) (server : Fin n) : Raft n :=
  if rf.nextIndex server < rf.matchIndex server then
    { rf with matchIndex := assign rf.matchIndex server (rf.nextIndex server - 1) }
  else rf

/-- The `logUpdate` goroutine after `AppendEntries` returned. Unlike every other step-down this
one keeps `votedFor`. -/
def appendEntriesReply (rf : Raft n) (server : Fin n) (args : AppendEntriesArgs n)
    (reply : AppendEntriesReply) : Raft n :=
  if rf.state ≠ .leader ∨ args.term ≠ rf.currentTerm then rf
  else if rf.currentTerm < reply.term then
    { rf with currentTerm := reply.term, state := .follower }.persist
  else if reply.success then
    let matched := args.prevLogIndex + args.entries.length
    ({ rf with
      matchIndex := assign rf.matchIndex server matched
      nextIndex := assign rf.nextIndex server (matched + 1) }.countRead).clampMatch server
  else
    { rf with nextIndex := assign rf.nextIndex server reply.conflictIndex }.clampMatch server

end Raft

end LinKV

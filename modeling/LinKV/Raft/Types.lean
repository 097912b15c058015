import LinKV.Basic
import Mathlib.Data.Fintype.Card

namespace LinKV
set_option autoImplicit true

/-- One slot of the replicated log. Slot 0 of a node's log is the snapshot boundary. -/
structure LogEntry where
  term : Nat
  command : Bytes
  index : Nat
deriving DecidableEq, Repr

inductive State where
  | follower
  | candidate
  | leader
deriving DecidableEq, Repr

/-- `ApplyMsg`: `CommandValid` and `SnapshotValid` are never set together. -/
inductive ApplyMsg where
  | command (index : Nat) (command : Bytes)
  | snapshot (index term : Nat) (data : Bytes)
deriving DecidableEq, Repr

def ApplyMsg.index : ApplyMsg → Nat
  | .command i _ => i
  | .snapshot i _ _ => i

structure RequestVoteArgs (n : Nat) where
  term : Nat
  candidateId : Fin n
  lastLogIndex : Nat
  lastLogTerm : Nat
deriving DecidableEq, Repr

structure RequestVoteReply where
  term : Nat
  voteGranted : Bool
deriving DecidableEq, Repr

structure AppendEntriesArgs (n : Nat) where
  term : Nat
  leaderId : Fin n
  prevLogIndex : Nat
  prevLogTerm : Nat
  entries : List LogEntry
  leaderCommit : Nat
deriving DecidableEq, Repr

structure AppendEntriesReply where
  term : Nat
  success : Bool := false
  conflictTerm : Int := 0
  conflictIndex : Nat := 0
deriving DecidableEq, Repr

structure InstallSnapshotArgs (n : Nat) where
  term : Nat
  leaderId : Fin n
  lastIncludeIndex : Nat
  lastIncludeTerm : Nat
  data : Bytes
deriving DecidableEq, Repr

structure InstallSnapshotReply where
  term : Nat
deriving DecidableEq, Repr

/-- What `persist` hands to the persister: the `raftpb.RaftState` message and the snapshot. -/
structure RaftState (n : Nat) where
  currentTerm : Nat
  votedFor : Option (Fin n)
  lastIncludeIndex : Nat
  lastIncludeTerm : Nat
  log : List LogEntry
  snapshot : Bytes
deriving DecidableEq, Repr

/-- The `Raft` struct of one peer in a cluster of `n`. `votedFor = none` is `-1`, and
`pendingReadCh` is `none` when nil, otherwise it says whether its one slot is filled. -/
structure Raft (n : Nat) where
  me : Fin n
  currentTerm : Nat
  votedFor : Option (Fin n)
  state : State
  log : List LogEntry
  commitIndex : Nat
  lastApplied : Nat
  nextIndex : Fin n → Nat
  matchIndex : Fin n → Nat
  lastIncludeIndex : Nat
  lastIncludeTerm : Nat
  snapshot : Bytes
  pendingReadCh : Option Bool
  pendingReadCount : Nat
  persister : Option (RaftState n)

def termOf (log : List LogEntry) (k : Nat) : Nat :=
  (log[k]?.map LogEntry.term).getD 0

namespace Raft

def lastLogIndex (rf : Raft n) : Nat := rf.lastIncludeIndex + rf.log.length - 1

def lastLogTerm (rf : Raft n) : Nat := termOf rf.log (rf.log.length - 1)

end Raft

end LinKV

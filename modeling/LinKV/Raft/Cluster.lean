import LinKV.Raft.Process
import LinKV.Consensus.Transition
import Mathlib.Algebra.GroupWithZero.Nat

namespace LinKV
set_option autoImplicit true

/-- A call in flight. `alive` is false once the calling process has crashed: the request can
still be delivered, its reply has nobody to go to. -/
structure Rpc (n : Nat) where
  caller : Fin n
  server : Fin n
  call : Call n
  alive : Bool
  sentAt : Nat
deriving DecidableEq, Repr

/-- A successful `AppendEntries` reply, kept for the statements about reads. -/
structure Answer (n : Nat) where
  server : Fin n
  caller : Fin n
  term : Nat
  sentAt : Nat
deriving DecidableEq, Repr

/-- The processes, the calls in flight, and the history the statements speak of: the number of
steps taken, everything sent on an `applyCh`, and every successful `AppendEntries` reply. -/
structure Cluster (n : Nat) where
  procs : Fin n → Proc n
  rpcs : List (Rpc n)
  now : Nat
  emitted : List (Fin n × ApplyMsg)
  answers : List (Answer n)

/-- The clusters of the concrete runs have three nodes. -/
instance neZeroThree : NeZero 3 := ⟨Nat.succ_ne_zero 2⟩

/-- One step of the cluster. `act` is a step of one process by itself; the others deliver the
request or the reply of the `k`-th call, lose it, or crash a process. `crashIn` and `crashStart` do
so inside a handler and inside `Start`, right before the last `persist`. -/
inductive Action (n : Nat) where
  | act (i : Fin n) (ev : Event n)
  | handle (k : Nat)
  | crashIn (k : Nat)
  | crashStart (i : Fin n) (command : Bytes)
  | reply (k : Nat)
  | drop (k : Nat)
  | crash (i : Fin n)
deriving DecidableEq, Repr

def Event.isLocal : Event n → Bool
  | .requestVote _ | .appendEntries _ | .installSnapshot _ => false
  | .requestVoteReply _ _ | .appendEntriesReply _ _ _ | .installSnapshotReply _ _ _ => false
  | _ => true

/-- The calls a process makes in a step. -/
def Proc.calls (p : Proc n) : Event n → List (Fin n × Call n)
  | .startElection =>
    if n ≤ 1 then []
    else ((List.finRange n).filter (· ≠ p.rf.me)).map fun server => (server, .requestVote {
      term := p.rf.currentTerm + 1
      candidateId := p.rf.me
      lastLogIndex := p.rf.lastLogIndex
      lastLogTerm := p.rf.lastLogTerm } none)
  | .replicate server =>
    match (p.rf.replicate server).2 with
    | some (.installSnapshot args reply) => [(server, .installSnapshot args reply)]
    | _ => []
  | .send k => (p.sends[k]?.map fun m => (m.server, .appendEntries m.args none)).toList
  | _ => []

theorem Raft.replicate_unanswered {rf : Raft n} (h : (rf.replicate server).2 = some call) :
    (∃ args, call = .installSnapshot args none) ∨ ∃ args, call = .appendEntries args none := by
  unfold replicate at h
  split at h
  · cases h
  · simp only at h
    split at h
    · cases h
      exact .inl ⟨_, rfl⟩
    · split at h
      · cases h
      · cases h
        exact .inr ⟨_, rfl⟩

theorem Proc.mem_calls {p : Proc n} (h : (j, call) ∈ p.calls ev) :
    (ev = .startElection ∧ j ≠ p.rf.me ∧ call = .requestVote ⟨p.rf.currentTerm + 1, p.rf.me,
      p.rf.lastLogIndex, p.rf.lastLogTerm⟩ none) ∨
    (ev = .replicate j ∧ ∃ args, call = .installSnapshot args none ∧
      (p.rf.replicate j).2 = some call) ∨
    ∃ k m, ev = .send k ∧ m ∈ p.sends ∧ m.server = j ∧ call = .appendEntries m.args none := by
  cases ev with
  | startElection =>
    simp only [calls] at h
    split at h
    · cases h
    · obtain ⟨server, hserver, he⟩ := List.mem_map.1 h
      cases he
      exact .inl ⟨rfl, of_decide_eq_true (List.mem_filter.1 hserver).2, rfl⟩
  | replicate server =>
    simp only [calls] at h
    split at h
    · next args reply hcall =>
      obtain ⟨rfl, rfl⟩ := Prod.mk.inj (List.mem_singleton.1 h)
      obtain ⟨_, ⟨⟩⟩ | ⟨_, ⟨⟩⟩ := Raft.replicate_unanswered hcall
      exact .inr (.inl ⟨rfl, args, rfl, hcall⟩)
    · cases h
  | send k =>
    simp only [calls, Option.mem_toList, Option.map_eq_some_iff] at h
    obtain ⟨m, hm, hcall⟩ := h
    obtain ⟨rfl, rfl⟩ := Prod.mk.inj hcall
    exact .inr (.inr ⟨k, m, rfl, List.mem_of_getElem? hm, rfl, rfl⟩)
  | _ => cases h

/-- What the two critical sections that write the log where it is make of the node. -/
def Proc.writes (p : Proc n) : Event n → Option (Raft n)
  | .start command => some (p.rf.start command)
  | .appendEntries args => some (p.rf.appendEntries args).1
  | _ => none

/-- The requests that may go out, with what has been written of them, while the section that wrote
the log has not saved it yet. -/
def Proc.torn (p : Proc n) (ev : Event n) : List (Send n) :=
  match p.writes ev with
  | none => []
  | some rf => if rf.log = p.rf.log then [] else p.sendsOn rf

/-- The message a step puts on `applyCh`. -/
def Proc.emits (p : Proc n) : Event n → Option ApplyMsg
  | .emit => p.batch.head?
  | .emitSnap k => p.snapSends[k]?
  | _ => none

/-- A call to `Snapshot` that indexes past the end of the log. -/
def Proc.panics (p : Proc n) : Event n → Bool
  | .finish (some data) =>
    match p.inHand with
    | some (.command i _) => (p.rf.snapshotAt i data).isNone
    | _ => false
  | _ => false

/-- The call of the goroutine in flight. -/
def Send.rpc (i : Fin n) (now : Nat) (m : Send n) : Rpc n where
  caller := i
  server := m.server
  call := .appendEntries m.args none
  alive := true
  sentAt := now

/-- The event a call is for the server that handles it. -/
def Call.request : Call n → Option (Event n)
  | .requestVote args none => some (.requestVote args)
  | .appendEntries args none => some (.appendEntries args)
  | .installSnapshot args none => some (.installSnapshot args)
  | _ => none

/-- The call with the reply of a server in state `p`. -/
def Call.answered (p : Proc n) : Call n → Call n
  | .requestVote args _ => .requestVote args (some (p.rf.requestVote args).2)
  | .appendEntries args _ => .appendEntries args (some (p.rf.appendEntries args).2)
  | .installSnapshot args _ => .installSnapshot args (some (p.rf.installSnapshot args).2.1)

/-- The event a reply is for the caller. -/
def Call.replied (server : Fin n) : Call n → Option (Event n)
  | .requestVote args (some reply) => some (.requestVoteReply args reply)
  | .appendEntries args (some reply) => some (.appendEntriesReply server args reply)
  | .installSnapshot args (some reply) => some (.installSnapshotReply server args reply)
  | _ => none

def Call.term : Call n → Nat
  | .requestVote args _ => args.term
  | .appendEntries args _ => args.term
  | .installSnapshot args _ => args.term

/-- The successful reply to an `AppendEntries` request, if it is one. -/
def Rpc.answer (r : Rpc n) (p : Proc n) : List (Answer n) :=
  match r.call with
  | .appendEntries args _ =>
    if (p.rf.appendEntries args).2.success then [⟨r.server, r.caller, args.term, r.sentAt⟩] else []
  | _ => []

/-- The call after its caller has crashed. -/
def Rpc.orphan (i : Fin n) (r : Rpc n) : Option (Rpc n) :=
  if r.caller ≠ i then some r
  else if r.call.request.isSome then some { r with alive := false } else none

namespace Cluster

def init (n : Nat) : Cluster n where
  procs := fun i => .boot i none
  rpcs := []
  now := 0
  emitted := []
  answers := []

def crash (s : Cluster n) (i : Fin n) (persister : Option (RaftState n)) : Cluster n :=
  { s with
    procs := assign s.procs i (.boot i persister)
    rpcs := s.rpcs.filterMap (Rpc.orphan i)
    now := s.now + 1 }

/-- Process `i` dies in the critical section of `ev` before its last `persist`, when the persister
holds `e`. -/
def crashAmid (s : Cluster n) (i : Fin n) (ev : Event n) (e : Option (RaftState n)) : Cluster n :=
  { s with rpcs := s.rpcs ++ ((s.procs i).torn ev).map (Send.rpc i s.now) : Cluster n }.crash i e

def act (s : Cluster n) (i : Fin n) (ev : Event n) : Option (Cluster n) :=
  if ev.isLocal = false then none
  else if (s.procs i).panics ev then some (s.crash i (s.procs i).rf.persister)
  else
    ((s.procs i).step s.now ev).map fun p => { s with
      procs := assign s.procs i p
      rpcs := s.rpcs ++ ((s.procs i).calls ev).map fun c =>
        { caller := i, server := c.1, call := c.2, alive := true, sentAt := s.now }
      now := s.now + 1
      emitted := s.emitted ++ (((s.procs i).emits ev).map (i, ·)).toList }

def handle (s : Cluster n) (k : Nat) : Option (Cluster n) :=
  match s.rpcs[k]? with
  | none => none
  | some r =>
    match r.call.request with
    | none => none
    | some ev =>
      let p := s.procs r.server
      (p.step s.now ev).map fun p' => { s with
        procs := assign s.procs r.server p'
        rpcs := if r.alive then s.rpcs.set k { r with call := r.call.answered p }
          else s.rpcs.eraseIdx k
        now := s.now + 1
        answers := s.answers ++ r.answer p }

def crashIn (s : Cluster n) (k : Nat) : Option (Cluster n) :=
  match s.rpcs[k]? with
  | none => none
  | some r => r.call.request.map fun ev =>
    s.crashAmid r.server ev ((s.procs r.server).rf.catchUp r.call.term).persister

def reply (s : Cluster n) (k : Nat) : Option (Cluster n) :=
  match s.rpcs[k]? with
  | none => none
  | some r =>
    match r.call.replied r.server with
    | none => none
    | some ev =>
      ((s.procs r.caller).step s.now ev).map fun p => { s with
        procs := assign s.procs r.caller p
        rpcs := s.rpcs.eraseIdx k
        now := s.now + 1 }

def step (s : Cluster n) : Action n → Option (Cluster n)
  | .act i ev => s.act i ev
  | .handle k => s.handle k
  | .crashIn k => s.crashIn k
  | .crashStart i command =>
    some (s.crashAmid i (.start command) (s.procs i).rf.persister)
  | .reply k => s.reply k
  | .drop k => if k < s.rpcs.length then
      some { s with rpcs := s.rpcs.eraseIdx k, now := s.now + 1 } else none
  | .crash i => some (s.crash i (s.procs i).rf.persister)

abbrev ReachableBy (ok : Cluster n → Action n → Prop) : Cluster n → Prop :=
  Consensus.ReachableBy step ok (init n)

abbrev Reachable : Cluster n → Prop := ReachableBy fun _ _ => True

end Cluster

end LinKV

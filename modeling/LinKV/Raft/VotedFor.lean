import LinKV.Raft.Persistence

namespace LinKV
set_option autoImplicit true

/-- A vote a node casts: it grants a request, or starts an election and votes for itself. -/
inductive Vote (n : Nat) where
  | granted (voter : Fin n) (args : RequestVoteArgs n)
  | started (node : Fin n) (term : Nat)
deriving DecidableEq, Repr

/-- The vote is one of node `i` for `c` in term `t`. -/
def Vote.By (i c : Fin n) (t : Nat) : Vote n → Prop
  | .granted voter args => voter = i ∧ args.candidateId = c ∧ args.term = t
  | .started node term => node = i ∧ c = i ∧ term = t

instance Vote.decidableBy (i c : Fin n) (t : Nat) : (v : Vote n) → Decidable (v.By i c t)
  | .granted voter args =>
    inferInstanceAs (Decidable (voter = i ∧ args.candidateId = c ∧ args.term = t))
  | .started node term => inferInstanceAs (Decidable (node = i ∧ c = i ∧ term = t))

abbrev VotedIn (votes : List (Vote n)) (i c : Fin n) (t : Nat) : Prop :=
  ∃ v ∈ votes, v.By i c t

namespace Proc

/-- The vote that process `i` casts in a step. -/
def casts (i : Fin n) (p : Proc n) : Event n → List (Vote n)
  | .startElection => [.started i (p.rf.currentTerm + 1)]
  | .requestVote args =>
    if (p.rf.requestVote args).2.voteGranted then [.granted i args] else []
  | _ => []

/-- A reply to an `AppendEntries` request of the current term tells the leader of a later one. -/
def deposedByAppend (p : Proc n) : Event n → Bool
  | .appendEntriesReply _ args reply =>
    p.rf.state = .leader && args.term = p.rf.currentTerm && p.rf.currentTerm < reply.term
  | _ => false

end Proc

namespace Cluster

def casts (s : Cluster n) (a : Action n) : List (Vote n) :=
  (s.event a).elim [] fun e => (s.procs e.1).casts e.1 e.2

def trackVotes : Cluster n × List (Vote n) → Action n → Option (Cluster n × List (Vote n)) :=
  Consensus.noting Cluster.step casts

/-- The states of runs whose steps all satisfy `ok`, with the votes of the run. -/
abbrev Voting (ok : Cluster n → Action n → Prop) : Cluster n × List (Vote n) → Prop :=
  Consensus.ReachableBy trackVotes (fun x a => ok x.1 a) (init n, [])

end Cluster

section

variable {p p' : Proc n} {i c : Fin n} {votes votes' : List (Vote n)}

theorem VotedIn.left (h : VotedIn votes i c t) : VotedIn (votes ++ votes') i c t := by
  obtain ⟨v, hin, hv⟩ := h
  exact ⟨v, List.mem_append_left _ hin, hv⟩

theorem VotedIn.right (h : VotedIn votes' i c t) : VotedIn (votes ++ votes') i c t := by
  obtain ⟨v, hin, hv⟩ := h
  exact ⟨v, List.mem_append_right _ hin, hv⟩

namespace Raft

theorem catchUp_vote (rf : Raft n) (t : Nat) :
    ((rf.catchUp t).votedFor = rf.votedFor ∧ (rf.catchUp t).currentTerm = rf.currentTerm) ∨
      (rf.catchUp t).votedFor = none := by
  unfold catchUp
  split
  · exact .inr rfl
  · exact .inl ⟨rfl, rfl⟩

theorem installSnapshotReply_vote (rf : Raft n) (server : Fin n) (args : InstallSnapshotArgs n)
    (reply : InstallSnapshotReply) :
    ((rf.installSnapshotReply server args reply).votedFor = rf.votedFor ∧
      (rf.installSnapshotReply server args reply).currentTerm = rf.currentTerm) ∨
      (rf.installSnapshotReply server args reply).votedFor = none := by
  unfold installSnapshotReply
  split
  · exact .inl ⟨rfl, rfl⟩
  · split
    · exact .inr rfl
    · exact .inl ⟨rfl, rfl⟩

end Raft

namespace Proc

theorem appendEntriesReply_same {args : AppendEntriesArgs n} {reply : AppendEntriesReply}
    (h : p.deposedByAppend (.appendEntriesReply server args reply) = false) :
    p.rf.Same (p.rf.appendEntriesReply server args reply) := by
  rcases p.rf.appendEntriesReply_cases server args reply with hd | hs
  · have hterm : args.term = p.rf.currentTerm := by
      by_contra hne
      have ht := hd.currentTerm
      rw [Raft.appendEntriesReply_stale (.inr hne)] at ht
      exact Nat.ne_of_lt hd.lt ht
    simp only [deposedByAppend, hd.leader, hterm, hd.lt, decide_true, Bool.and_true,
      Bool.true_eq_false] at h
  · exact hs

/-- A step keeps vote and term, takes the vote away, or casts a vote in the term it leaves the
process in. -/
theorem step_vote (hme : p.rf.me = i) (hs : p.step now ev = some p')
    (hd : p.deposedByAppend ev = false) :
    (p'.rf.votedFor = p.rf.votedFor ∧ p'.rf.currentTerm = p.rf.currentTerm) ∨
    p'.rf.votedFor = none ∨
    ∃ c, p'.rf.votedFor = some c ∧ VotedIn (p.casts i ev) i c p'.rf.currentTerm := by
  by_cases hidle : ev.isIdle = true
  · obtain ⟨h, -⟩ := step_idle hs hidle
    exact .inl ⟨h.votedFor, h.currentTerm⟩
  cases step_takes hs with
  | startElection =>
    exact .inr (.inr ⟨i, congrArg some hme, _, List.mem_singleton_self _, rfl, rfl, rfl⟩)
  | soloLeader => exact .inl ⟨rfl, rfl⟩
  | logUpdate => exact .inl ⟨p.rf.logUpdate_same.votedFor, p.rf.logUpdate_same.currentTerm⟩
  | replicate server =>
    have h := p.rf.replicate_same server
    exact .inl ⟨h.votedFor, h.currentTerm⟩
  | start command =>
    unfold Raft.start
    split <;> exact .inl ⟨rfl, rfl⟩
  | snapshot _ _ _ _ _ hrf =>
    rcases Raft.snapshotAt_cases hrf with ⟨_, rfl⟩ | ⟨_, _, _, _, ht, hv, _⟩
    · exact .inl ⟨rfl, rfl⟩
    · exact .inl ⟨hv, ht⟩
  | requestVote args =>
    rcases p.rf.requestVote_cases args with ⟨_, he⟩ | ⟨hlt, he | ⟨_, _, he⟩⟩
    · rw [he]
      exact .inl ⟨rfl, rfl⟩
    · rw [he]
      exact (p.rf.catchUp_vote args.term).imp_right .inl
    · refine .inr (.inr ⟨args.candidateId, ?_, .granted i args, ?_, rfl, rfl, ?_⟩)
      · rw [he]
        rfl
      · rw [casts, he]
        exact List.mem_singleton_self _
      · rw [he]
        exact (Raft.catchUp_term hlt).symm
  | appendEntries args =>
    rcases p.rf.appendEntries_cases args with ⟨_, he, _⟩ | ⟨_, ⟨he, _⟩ | ⟨_, _, _, he, _⟩⟩
    · rw [he]
      exact .inl ⟨rfl, rfl⟩
    · rw [he]
      exact (p.rf.catchUp_vote args.term).imp_right .inl
    · have ho := (p.rf.follow args.term).overwrite_spec args
      rw [he, ho.votedFor, ho.currentTerm]
      exact (p.rf.catchUp_vote args.term).imp_right .inl
  | installSnapshot args =>
    rcases p.rf.installSnapshot_cases args with ⟨_, he, _⟩ | ⟨_, ⟨_, he, _⟩ | ⟨_, he, _⟩⟩
    · rw [he]
      exact .inl ⟨rfl, rfl⟩
    · rw [he]
      exact (p.rf.catchUp_vote args.term).imp_right .inl
    · rw [he]
      exact (p.rf.catchUp_vote args.term).imp_right .inl
  | requestVoteReply args reply =>
    rcases p.requestVoteReply_cases args reply with
      he | ⟨_, _, ⟨_, he⟩ | ⟨_, _, ⟨_, he⟩ | he⟩⟩
    · rw [he]
      exact .inl ⟨rfl, rfl⟩
    · rw [he]
      exact .inr (.inl rfl)
    · rw [he]
      exact .inl ⟨rfl, rfl⟩
    · rw [he]
      exact .inl ⟨rfl, rfl⟩
  | appendEntriesReply server args reply =>
    have h := appendEntriesReply_same hd
    exact .inl ⟨h.votedFor, h.currentTerm⟩
  | installSnapshotReply server args reply =>
    exact (p.rf.installSnapshotReply_vote server args reply).imp_right .inl
  | _ => exact (hidle rfl).elim

theorem started_mem_casts (h : .started i t ∈ p.casts j ev) : i = j ∧ ev = .startElection := by
  cases ev with
  | startElection =>
    cases List.mem_singleton.1 h
    exact ⟨rfl, rfl⟩
  | requestVote args =>
    rw [casts] at h
    split at h
    · cases List.mem_singleton.1 h
    · cases h
  | _ => cases h

end Proc

namespace Cluster

variable {s s' : Cluster n} {a : Action n}

theorem casts_eq (h : s.event a = some (i, ev)) : s.casts a = (s.procs i).casts i ev := by
  rw [casts, h]
  rfl

theorem event_startElection (h : s.event a = some (i, .startElection)) :
    a = .act i .startElection := by
  cases a with
  | act j ev =>
    cases h
    rfl
  | handle k =>
    obtain ⟨r, -, hr⟩ := Option.bind_eq_some_iff.1 h
    obtain ⟨ev, he, hev⟩ := Option.map_eq_some_iff.1 hr
    exact absurd (Prod.mk.inj hev).2 (request_ne he).1
  | reply k =>
    obtain ⟨r, -, hr⟩ := Option.bind_eq_some_iff.1 h
    obtain ⟨ev, he, hev⟩ := Option.map_eq_some_iff.1 hr
    rcases replied_eq he with ⟨_, _, _, rfl⟩ | ⟨_, _, _, rfl⟩ | ⟨_, _, _, rfl⟩ <;> cases hev
  | crashIn | crashStart | drop | crash => cases h

theorem eq_startElection (h : .started i t ∈ s.casts a) : a = .act i .startElection := by
  cases he : s.event a with
  | none =>
    rw [casts, he] at h
    cases h
  | some e =>
    obtain ⟨j, ev⟩ := e
    rw [casts_eq he] at h
    obtain ⟨rfl, rfl⟩ := Proc.started_mem_casts h
    exact event_startElection he

theorem restart_vote (hs : (s.procs i).rf.Stored) :
    (Proc.boot i (s.procs i).rf.persister).rf.votedFor = (s.procs i).rf.votedFor ∧
      (Proc.boot i (s.procs i).rf.persister).rf.currentTerm = (s.procs i).rf.currentTerm :=
  ⟨congrArg RaftState.votedFor (hs.make_image i), congrArg RaftState.currentTerm (hs.make_image i)⟩

theorem crashIn_vote {rf : Raft n} (hs : rf.Stored) :
    (Proc.boot i (rf.stepDown t).persister).rf.votedFor = none :=
  congrArg RaftState.votedFor ((Raft.stepDown_stored hs).make_image i)

theorem step_vote (hr : s.Reachable)
    (hd : s.Meets (fun p ev => p.deposedByAppend ev = false) a) (hs : s.step a = some s')
    (i : Fin n) :
    ((s'.procs i).rf.votedFor = (s.procs i).rf.votedFor ∧
      (s'.procs i).rf.currentTerm = (s.procs i).rf.currentTerm) ∨
    (s'.procs i).rf.votedFor = none ∨
    ∃ c, (s'.procs i).rf.votedFor = some c ∧
      VotedIn (s.casts a) i c (s'.procs i).rf.currentTerm := by
  have hstored := Cluster.ReachableBy.stored hr
  obtain ⟨g, hg⟩ := Cluster.ReachableBy.traced hr
  cases (step_move hs).turn with
  | event j ev p _ ha hst _ hp =>
    rw [hp, casts_eq ha]
    by_cases hij : i = j
    · subst hij
      rw [assign_self]
      exact Proc.step_vote (hg.elects.node i).me hst (hd.apply ha)
    · rw [assign_ne _ _ hij]
      exact .inl ⟨rfl, rfl⟩
  | restart j _ hp =>
    rw [hp]
    by_cases hij : i = j
    · subst hij
      rw [assign_self]
      exact .inl (restart_vote (hstored i))
    · rw [assign_ne _ _ hij]
      exact .inl ⟨rfl, rfl⟩
  | crashIn r _ _ _ hp =>
    rw [hp]
    by_cases hij : i = r.server
    · subst hij
      rw [assign_self]
      exact .inr (.inl (crashIn_vote (hstored _)))
    · rw [assign_ne _ _ hij]
      exact .inl ⟨rfl, rfl⟩
  | idle _ hp =>
    rw [hp]
    exact .inl ⟨rfl, rfl⟩

theorem Voting.reachable {x : Cluster n × List (Vote n)} (h : Voting ok x) : x.1.Reachable :=
  h.of_noting.mono fun _ _ _ => trivial

theorem Voting.votedIn {x : Cluster n × List (Vote n)}
    (h : Voting (Meets fun p ev => p.deposedByAppend ev = false) x) (i c : Fin n)
    (hv : (x.1.procs i).rf.votedFor = some c) :
    VotedIn x.2 i c (x.1.procs i).rf.currentTerm := by
  induction h generalizing i c with
  | init =>
    have himg : (Raft.make i none).image = .fresh := Raft.make_none i
    have hnone : (Raft.make i none).votedFor = none := congrArg RaftState.votedFor himg
    exact absurd (hv.symm.trans hnone) (Option.some_ne_none c)
  | step hx hok hs ih =>
    obtain ⟨hstep, hvotes⟩ := Consensus.noting_eq_some hs
    rw [hvotes]
    rcases step_vote (Voting.reachable hx) hok hstep i with ⟨hsame, hterm⟩ | hnone | ⟨c', hc, hin⟩
    · rw [hterm]
      exact (ih i c (hsame.symm.trans hv)).left
    · exact absurd (hv.symm.trans hnone) (Option.some_ne_none c)
    · obtain rfl : c = c' := Option.some.inj (hv.symm.trans hc)
      exact hin.right

end Cluster

end

/-- In every run in which no leader is deposed by a reply to `AppendEntries`, a vote a node holds
is one it has cast in exactly its current term: it has granted a request of that candidate, or has
started an election. A step of such a run that takes a node to a later term without starting an
election leaves it without a vote, or with the one it gives in the new term in the same step. -/
theorem voted_for_current_term {s : Cluster n} {votes : List (Vote n)}
    (h : Cluster.Voting (Cluster.Meets fun p ev => p.deposedByAppend ev = false) (s, votes)) :
    (∀ i c, (s.procs i).rf.votedFor = some c → VotedIn votes i c (s.procs i).rf.currentTerm) ∧
    ∀ a s', s.Meets (fun p ev => p.deposedByAppend ev = false) a → s.step a = some s' →
      ∀ i, (s.procs i).rf.currentTerm < (s'.procs i).rf.currentTerm →
        a ≠ .act i .startElection →
        (s'.procs i).rf.votedFor = none ∨
        ∃ args, .granted i args ∈ s.casts a ∧ args.term = (s'.procs i).rf.currentTerm ∧
          (s'.procs i).rf.votedFor = some args.candidateId := by
  refine ⟨fun i c => h.votedIn i c, fun a s' hok hs i hlt hne => ?_⟩
  rcases Cluster.step_vote h.reachable hok hs i with ⟨-, hterm⟩ | hnone | ⟨c, hc, hin⟩
  · exact absurd hterm (Nat.ne_of_gt hlt)
  · exact .inl hnone
  · obtain ⟨v, hin, hv⟩ := hin
    cases v with
    | granted voter args =>
      obtain ⟨rfl, rfl, ht⟩ := hv
      exact .inr ⟨args, hin, ht, hc⟩
    | started node term =>
      obtain ⟨rfl, -, -⟩ := hv
      exact absurd (Cluster.eq_startElection hin) hne

/-- Node 0 leads term 1 and node 1 has started an election of term 2 which node 0 does not hear
of. -/
def unheardElection : List (Action 3) :=
  [.act 0 .tick, .act 0 .startElection, .handle 0, .reply 0, .drop 0, .act 1 .tick,
    .act 1 .startElection]

/-- Node 0 grants the request of the new candidate, which takes it to term 2. -/
theorem voted_for_current_term_granted : ∃ s : Cluster 3, ∃ votes,
    Cluster.Voting (Cluster.Meets fun p ev => p.deposedByAppend ev = false) (s, votes) ∧
    (s.procs 0).rf.votedFor = some 1 ∧ (s.procs 0).rf.currentTerm = 2 ∧ VotedIn votes 0 1 2 := by
  have hrun : Consensus.RunsTo Cluster.trackVotes
      (fun x a => x.1.Meets (fun p ev => p.deposedByAppend ev = false) a)
      (fun x => (x.1.procs 0).rf.votedFor = some 1 ∧ (x.1.procs 0).rf.currentTerm = 2)
      (.init 3, []) (unheardElection ++ [.handle 0]) := by
    decide +kernel
  obtain ⟨x, hx, hv, ht⟩ := hrun.reachable
  exact ⟨x.1, x.2, hx, hv, ht, ht ▸ (voted_for_current_term hx).1 0 1 hv⟩

/-- A heartbeat is answered first: node 0 goes to term 2 with its vote of term 1. -/
theorem voted_for_current_term_fails : ∃ s : Cluster 3, ∃ votes,
    Cluster.Voting (fun _ _ => True) (s, votes) ∧
    (s.procs 0).rf.votedFor = some 0 ∧ (s.procs 0).rf.currentTerm = 2 ∧
    ¬ VotedIn votes 0 0 (s.procs 0).rf.currentTerm := by
  have hrun : Consensus.RunsTo Cluster.trackVotes (fun _ _ => True)
      (fun x => (x.1.procs 0).rf.votedFor = some 0 ∧ (x.1.procs 0).rf.currentTerm = 2 ∧
        ¬ VotedIn x.2 0 0 (x.1.procs 0).rf.currentTerm)
      (.init 3, []) (unheardElection ++ [.act 0 (.replicate 1), .act 0 (.send 0), .handle 2,
        .reply 2]) := by
    decide +kernel
  obtain ⟨x, hx, hv, ht, hnot⟩ := hrun.reachable
  exact ⟨x.1, x.2, hx, hv, ht, hnot⟩

end LinKV

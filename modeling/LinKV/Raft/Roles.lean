import LinKV.Raft.Steps

namespace LinKV
set_option autoImplicit true

def Event.isIdle : Event n → Bool
  | .tick | .copy _ | .send _ | .collect | .emit | .emitSnap _ | .receive | .finish none => true
  | .readIndex | .readSignal | .readReturn | .readTimeout | .readExit _ => true
  | _ => false

def Event.isElection : Event n → Bool
  | .startElection | .soloLeader | .requestVoteReply _ _ => true
  | _ => false

namespace Proc

theorem labels_idle {p : Proc n} (h : ev.isIdle = true) : p.labels i ev = [] := by
  cases ev with
  | finish snapshot =>
    cases snapshot with
    | none => rfl
    | some _ => cases h
  | _ => first | rfl | cases h

/-- Idle events leave the replicated part of a process alone. -/
theorem step_idle {p p' : Proc n} (hs : p.step now ev = some p') (h : ev.isIdle = true) :
    p.rf.Idle p'.rf ∧ p'.votes = p.votes ∧ p'.solo = p.solo ∧
      (p.rf.state = .leader → p'.elections = p.elections) := by
  have hidle : p.rf.Idle p.rf := ⟨.refl _, rfl, rfl⟩
  cases step_takes hs with
  | tick hl => exact ⟨hidle, rfl, rfl, fun h => absurd h hl⟩
  | collect => exact ⟨p.rf.applier_idle, rfl, rfl, fun _ => rfl⟩
  | copy | send | emit | emitSnap | receive | finish | readExit =>
    exact ⟨hidle, rfl, rfl, fun _ => rfl⟩
  | readIndex | readSignal | readTimeout =>
    exact ⟨⟨⟨rfl, rfl, rfl, rfl⟩, rfl, rfl⟩, rfl, rfl, fun _ => rfl⟩
  | readReturn c =>
    unfold readReturn
    split
    · exact ⟨⟨⟨rfl, rfl, rfl, rfl⟩, rfl, rfl⟩, rfl, rfl, fun _ => rfl⟩
    · exact ⟨hidle, rfl, rfl, fun _ => rfl⟩
  | _ => cases h

theorem requestVoteReply_cases (p : Proc n) (args : RequestVoteArgs n) (reply : RequestVoteReply) :
    p.requestVoteReply args reply = p ∨
    (p.rf.state = .candidate ∧ p.rf.currentTerm = args.term ∧
      ((args.term < reply.term ∧
        p.requestVoteReply args reply = { p with rf := p.rf.stepDown reply.term }) ∨
      (reply.voteGranted = true ∧ reply.term = args.term ∧
        ((n / 2 < p.votes + 1 ∧
          p.requestVoteReply args reply = { p with rf := p.rf.lead, votes := p.votes + 1 }) ∨
        p.requestVoteReply args reply = { p with votes := p.votes + 1 })))) := by
  unfold requestVoteReply
  split
  · exact .inl rfl
  · next hg =>
    simp only [not_or, not_not] at hg
    split
    · exact .inr ⟨hg.1, hg.2, .inl ⟨‹_›, rfl⟩⟩
    · split
      · next hv =>
        refine .inr ⟨hg.1, hg.2, .inr ⟨hv.1, hv.2, ?_⟩⟩
        simp only
        split
        · exact .inl ⟨‹_›, rfl⟩
        · exact .inr rfl
      · exact .inl rfl

/-- A step keeps the role, the term and the count of votes, or takes a message that makes the
process a follower, or belongs to an election. -/
theorem step_role {p p' : Proc n} (hs : p.step now ev = some p') :
    (p'.rf.state = p.rf.state ∧ p'.rf.currentTerm = p.rf.currentTerm ∧ p'.votes = p.votes) ∨
    (ev.isLocal = false ∧ p'.rf.state = .follower) ∨ ev.isElection = true := by
  by_cases hidle : ev.isIdle = true
  · obtain ⟨h, hv, _⟩ := step_idle hs hidle
    exact .inl ⟨h.state, h.currentTerm, hv⟩
  cases step_takes hs with
  | startElection | soloLeader | requestVoteReply => exact .inr (.inr rfl)
  | logUpdate => exact .inl ⟨p.rf.logUpdate_same.state, p.rf.logUpdate_same.currentTerm, rfl⟩
  | replicate server =>
    have h := p.rf.replicate_same server
    exact .inl ⟨h.state, h.currentTerm, rfl⟩
  | start command =>
    unfold Raft.start
    split
    · exact .inl ⟨rfl, rfl, rfl⟩
    · exact .inl ⟨rfl, rfl, rfl⟩
  | snapshot _ _ _ _ _ hrf =>
    rcases Raft.snapshotAt_cases hrf with ⟨_, rfl⟩ | ⟨_, _, _, hst, ht, _⟩
    · exact .inl ⟨rfl, rfl, rfl⟩
    · exact .inl ⟨hst, ht, rfl⟩
  | requestVote args =>
    rcases p.rf.requestVote_cases args with ⟨_, he⟩ | ⟨_, he | ⟨_, _, he⟩⟩
    · rw [he]
      exact .inl ⟨rfl, rfl, rfl⟩
    · rw [he]
      exact (p.rf.catchUp_role args.term).imp (fun h => ⟨h.1, h.2, rfl⟩) fun h => .inl ⟨rfl, h⟩
    · rw [he]
      exact (p.rf.catchUp_role args.term).imp (fun h => ⟨h.1, h.2, rfl⟩) fun h => .inl ⟨rfl, h⟩
  | appendEntries args =>
    rcases p.rf.appendEntries_cases args with ⟨_, he, _⟩ | ⟨_, ⟨he, _⟩ | ⟨_, _, _, he, _⟩⟩
    · rw [he]
      exact .inl ⟨rfl, rfl, rfl⟩
    · rw [he]
      exact .inr (.inl ⟨rfl, rfl⟩)
    · rw [he]
      exact .inr (.inl ⟨rfl, ((p.rf.follow args.term).overwrite_spec args).state⟩)
  | installSnapshot args =>
    rcases p.rf.installSnapshot_cases args with ⟨_, he, _⟩ | ⟨_, ⟨_, he, _⟩ | ⟨_, he, _⟩⟩
    · rw [he]
      exact .inl ⟨rfl, rfl, rfl⟩
    · rw [he]
      exact .inr (.inl ⟨rfl, rfl⟩)
    · rw [he]
      exact .inr (.inl ⟨rfl, rfl⟩)
  | appendEntriesReply server args reply =>
    rcases p.rf.appendEntriesReply_cases server args reply with hd | h
    · exact .inr (.inl ⟨rfl, hd.state⟩)
    · exact .inl ⟨h.state, h.currentTerm, rfl⟩
  | installSnapshotReply server args reply =>
    rcases p.rf.installSnapshotReply_cases server args reply with hd | h
    · exact .inr (.inl ⟨rfl, hd.state⟩)
    · exact .inl ⟨h.state, h.currentTerm, rfl⟩
  | _ => exact (hidle rfl).elim

theorem step_candidate {p p' : Proc n} (hs : p.step now ev = some p')
    (hc : p'.rf.state = .candidate) (hne : ev ≠ .startElection)
    (hnr : ∀ args reply, ev ≠ .requestVoteReply args reply) :
    p.rf.state = .candidate ∧ p'.rf.currentTerm = p.rf.currentTerm ∧ p'.votes = p.votes := by
  rcases step_role hs with ⟨hst, ht, hv⟩ | ⟨-, hf⟩ | he
  · exact ⟨hst.symm.trans hc, ht, hv⟩
  · exact nomatch hf.symm.trans hc
  · cases step_takes hs with
    | startElection => exact (hne rfl).elim
    | soloLeader => cases hc
    | requestVoteReply args reply => exact (hnr args reply rfl).elim
    | _ => cases he

theorem step_leader {p p' : Proc n} (hs : p.step now ev = some p') (hl : p'.rf.state = .leader)
    (hsolo : p.solo = 0) :
    (p.rf.state = .leader ∧ p'.rf.currentTerm = p.rf.currentTerm) ∨
    (p.rf.state = .candidate ∧ p'.rf.currentTerm = p.rf.currentTerm ∧
      ∃ args reply, ev = .requestVoteReply args reply) := by
  rcases step_role hs with ⟨hst, ht, -⟩ | ⟨-, hf⟩ | he
  · exact .inl ⟨hst.symm.trans hl, ht⟩
  · exact nomatch hf.symm.trans hl
  · cases step_takes hs with
    | startElection => cases hl
    | soloLeader h => exact absurd hsolo h
    | requestVoteReply args reply =>
      rcases p.requestVoteReply_cases args reply with
        he | ⟨hc, _, ⟨_, he⟩ | ⟨_, _, ⟨_, he⟩ | he⟩⟩
      · rw [he] at hl ⊢
        exact .inl ⟨hl, rfl⟩
      · rw [he] at hl
        cases hl
      · rw [he]
        exact .inr ⟨hc, rfl, _, _, rfl⟩
      · rw [he] at hl
        exact nomatch hc.symm.trans hl
    | _ => cases he

theorem step_alone {p p' : Proc n} (hs : p.step now ev = some p') (hl : ev.isLocal = true)
    (hst : p.rf.state = .leader) (he : p.elections = 0) :
    p'.rf.state = .leader ∧ p'.elections = 0 := by
  constructor
  · rcases step_role hs with ⟨hst', -⟩ | ⟨hf, -⟩ | hel
    · exact hst'.trans hst
    · exact nomatch hl.symm.trans hf
    · cases step_takes hs with
      | startElection h => exact absurd he h
      | soloLeader => rfl
      | requestVoteReply => cases hl
      | _ => cases hel
  · by_cases hidle : ev.isIdle = true
    · exact ((step_idle hs hidle).2.2.2 hst).trans he
    cases step_takes hs with
    | startElection h => exact absurd he h
    | soloLeader | logUpdate | replicate | start | snapshot => exact he
    | requestVote | appendEntries | installSnapshot => cases hl
    | requestVoteReply | appendEntriesReply | installSnapshotReply => cases hl
    | _ => exact (hidle rfl).elim

theorem step_solo {p p' : Proc n} (hs : p.step now ev = some p') (h : p.solo = 0)
    (hn : n ≤ 1 → p.elections = 0) : p'.solo = 0 := by
  by_cases hidle : ev.isIdle = true
  · rw [(step_idle hs hidle).2.2.1, h]
  cases step_takes hs with
  | startElection hel => exact if_neg (fun hle => hel (hn hle)) ▸ h
  | soloLeader hsolo => exact absurd h hsolo
  | requestVoteReply args reply =>
    rcases p.requestVoteReply_cases args reply with
      he | ⟨_, _, ⟨_, he⟩ | ⟨_, _, ⟨_, he⟩ | he⟩⟩ <;> rw [he] <;> exact h
  | logUpdate | replicate | start | snapshot => exact h
  | requestVote | appendEntries | installSnapshot => exact h
  | appendEntriesReply | installSnapshotReply => exact h
  | _ => exact (hidle rfl).elim

end Proc

end LinKV

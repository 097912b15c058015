import LinKV.Raft.Roles

namespace LinKV
set_option autoImplicit true

open Consensus Ledger

/-- A node as the voting record sees it. A recorded vote may be forgotten only together with its
term; the record of a one-node cluster starts with a vote the node never cast. -/
structure NodeSim (g : Record n) (i : Fin n) (rf : Raft n) : Prop where
  me : rf.me = i
  term : g.term i = rf.currentTerm
  voted : ¬ n ≤ 1 → ∀ c, g.vote i rf.currentTerm = some c → rf.votedFor = some c
  candidate : rf.state = .candidate → g.vote i rf.currentTerm = some i
  leader : rf.state = .leader → g.leads i rf.currentTerm
  stored : rf.Stored

section

variable {g g' : Record n} {rf rf' : Raft n} {p p' : Proc n} {i j : Fin n}

theorem NodeSim.quiet (h : NodeSim g i rf) (hl : ∀ l ∈ ls, l.Quiet) (hme : rf'.me = rf.me)
    (ht : rf'.currentTerm = rf.currentTerm) (hv : rf'.votedFor = rf.votedFor)
    (hst : rf'.state = rf.state ∨ rf'.state = .follower) (hs : rf'.Stored) :
    NodeSim (g.effects ls) i rf' := by
  obtain ⟨het, hev, hel⟩ := effects_quiet (g := g) hl
  have hst' (r : State) (hr : r ≠ .follower) (he : rf'.state = r) : rf.state = r := by
    rcases hst with hst | hst
    · exact hst.symm.trans he
    · exact (hr (he.symm.trans hst)).elim
  constructor
  · exact hme.trans h.me
  · rw [het, ht, h.term]
  · rw [hev, ht, hv]
    exact h.voted
  · rw [hev, ht]
    exact fun he => h.candidate (hst' _ (by decide) he)
  · rw [hel, ht]
    exact fun he => h.leader (hst' _ (by decide) he)
  · exact hs

theorem NodeSim.same (h : NodeSim g i rf) (hl : ∀ l ∈ ls, l.Quiet) (hs : rf.Same rf') :
    NodeSim (g.effects ls) i rf' :=
  h.quiet hl hs.me hs.currentTerm hs.votedFor (.inl hs.state) (hs.stored h.stored)

theorem NodeSim.not_voted (h : NodeSim g i rf) (hb : Ballot g) (ht : rf.currentTerm < t) :
    g.vote i t = none := by
  cases hv : g.vote i t with
  | none => rfl
  | some c =>
    have hle := hb.vote_le hv
    rw [h.term] at hle
    omega

theorem NodeSim.raise (h : NodeSim g i rf) (hb : Ballot g)
    (ht : rf.currentTerm < rf'.currentTerm) (hme : rf'.me = rf.me)
    (hst : rf'.state = .follower) (hs : rf'.Stored) :
    BallotOk g (.raise i rf'.currentTerm) ∧
      NodeSim (g.effect (.raise i rf'.currentTerm)) i rf' := by
  refine ⟨?_, ?_⟩
  · rw [← h.term] at ht
    exact ht
  · constructor
    · exact hme.trans h.me
    · simp only [Ledger.effect, Function.update_self]
    · intro _ c hv
      rw [Ledger.effect, h.not_voted hb ht] at hv
      cases hv
    · intro he
      rw [hst] at he
      cases he
    · intro he
      rw [hst] at he
      cases he
    · exact hs

theorem NodeSim.stepDown (h : NodeSim g i rf) (hb : Ballot g) (ht : rf.currentTerm < t) :
    BallotOk g (.raise i t) ∧ NodeSim (g.effect (.raise i t)) i (rf.stepDown t) := by
  have hme : (rf.stepDown t).me = rf.me := rfl
  exact h.raise hb ht hme rfl (Raft.stepDown_stored h.stored)

theorem NodeSim.raised (h : NodeSim g i rf) (hb : Ballot g) (hme : rf'.me = rf.me)
    (hc : (rf.currentTerm < rf'.currentTerm ∧ rf'.state = .follower) ∨
      (rf'.currentTerm = rf.currentTerm ∧ rf'.votedFor = rf.votedFor ∧ rf'.state = rf.state))
    (hs : rf'.Stored) :
    Along BallotOk g (rf.raised i rf') ∧ NodeSim (g.effects (rf.raised i rf')) i rf' := by
  rcases hc with ⟨ht, hst⟩ | ⟨ht, hv, hst⟩
  · obtain ⟨hok, hsim⟩ := h.raise hb ht hme hst hs
    rw [Raft.raised, if_pos ht]
    exact ⟨⟨hok, trivial⟩, hsim⟩
  · rw [Raft.raised, if_neg (by omega)]
    exact ⟨trivial, h.quiet (fun _ hl => nomatch hl) hme ht hv (.inl hst) hs⟩

theorem NodeSim.catchUp (h : NodeSim g i rf) (hb : Ballot g) (t : Nat) :
    Along BallotOk g (rf.raised i (rf.catchUp t)) ∧
      NodeSim (g.effects (rf.raised i (rf.catchUp t))) i (rf.catchUp t) := by
  apply h.raised hb Raft.catchUp_me _ (Raft.catchUp_stored h.stored)
  by_cases ht : rf.currentTerm < t
  · rw [Raft.catchUp, if_pos ht]
    exact .inl ⟨ht, rfl⟩
  · rw [Raft.catchUp, if_neg ht]
    exact .inr ⟨rfl, rfl, rfl⟩

theorem NodeSim.campaign (h : NodeSim g i rf) (hb : Ballot g) :
    BallotOk g (.campaign i (rf.currentTerm + 1)) ∧
      NodeSim (g.effect (.campaign i (rf.currentTerm + 1))) i rf.campaign := by
  have hvote : (g.effect (.campaign i (rf.currentTerm + 1))).vote i (rf.currentTerm + 1) =
      some i := by simp only [Ledger.effect, Function.update_self]
  refine ⟨⟨?_, h.not_voted hb (Nat.lt_succ_self _)⟩, ?_⟩
  · rw [h.term]
    exact Nat.le_succ _
  · constructor
    · exact h.me
    · simp only [Ledger.effect, Function.update_self, Raft.campaign, Raft.persist]
    · intro _ c hc
      rw [show rf.campaign.currentTerm = rf.currentTerm + 1 from rfl, hvote] at hc
      rw [← hc, ← h.me]
      rfl
    · exact fun _ => hvote
    · intro hl
      cases hl
    · exact Raft.stored_persist h.stored.log

theorem NodeSim.grant (h : NodeSim g i rf) (hc : rf.votedFor = none ∨ rf.votedFor = some c)
    (ht : rf.currentTerm = t) (hn : ¬ n ≤ 1) :
    BallotOk g (.grant i c t) ∧
      NodeSim (g.effect (.grant i c t)) i { rf with votedFor := some c }.persist := by
  subst ht
  have hok : BallotOk g (.grant i c rf.currentTerm) := by
    refine ⟨h.term, ?_⟩
    cases hv : g.vote i rf.currentTerm with
    | none => exact .inl rfl
    | some d =>
      have hd := h.voted hn d hv
      rcases hc with hc | hc
      · rw [hc] at hd
        cases hd
      · exact .inr (hd.symm.trans hc)
  refine ⟨hok, ?_⟩
  constructor
  · exact h.me
  · exact h.term
  · intro _ d hd
    simp only [Ledger.effect, Raft.persist, Function.update_self] at hd
    exact hd
  · exact fun hst => vote_effect hok (h.candidate hst)
  · exact h.leader
  · exact Raft.stored_persist h.stored.log

theorem NodeSim.lead (h : NodeSim g i rf) :
    NodeSim (g.effect (.win i rf.currentTerm)) i rf.lead where
  me := h.me
  term := h.term
  voted := h.voted
  candidate := fun hc => nomatch hc
  leader := fun _ => .inl ⟨rfl, rfl⟩
  stored := ⟨h.stored.log, h.stored.image⟩

theorem NodeSim.restart (h : NodeSim g i rf) (hn : n ≤ 1 → rf.state = .leader) :
    NodeSim g i (.make i rf.persister) := by
  have himg := h.stored.make_image i
  have ht : (Raft.make i rf.persister).currentTerm = rf.currentTerm :=
    congrArg RaftState.currentTerm himg
  have hv : (Raft.make i rf.persister).votedFor = rf.votedFor :=
    congrArg RaftState.votedFor himg
  constructor
  · exact Raft.make_me i _
  · rw [ht]
    exact h.term
  · rw [ht, hv]
    exact h.voted
  · rw [Raft.make_state]
    split <;> exact fun hc => nomatch hc
  · rw [Raft.make_state, ht]
    split
    · exact fun _ => h.leader (hn ‹_›)
    · exact fun hc => nomatch hc
  · exact h.stored.make i

theorem NodeSim.frame (h : NodeSim g j rf) (hl : ∀ l ∈ ls, l.Of i) (hj : j ≠ i) :
    NodeSim (g.effects ls) j rf := by
  obtain ⟨ht, hv, _, _, hc⟩ := effects_frame (g := g) hl hj
  constructor
  · exact h.me
  · rw [ht]
    exact h.term
  · rw [hv]
    exact h.voted
  · rw [hv]
    exact h.candidate
  · rw [hc]
    exact h.leader
  · exact h.stored

theorem committed_quiet (hl : l ∈ rf.committed i rf') : l.Quiet := by
  unfold Raft.committed at hl
  split at hl
  · simp only [List.mem_cons, List.not_mem_nil, or_false] at hl
    rcases hl with rfl | rfl <;> trivial
  · cases hl

theorem appended_quiet (hl : l ∈ Raft.appended i args) : l.Quiet := by
  simp only [Raft.appended, List.mem_append, List.mem_singleton] at hl
  rcases hl with hl | rfl
  · split at hl
    · cases hl
    · cases List.mem_singleton.1 hl
      trivial
  · trivial

theorem NodeSim.start (h : NodeSim g i p.rf) (command : Bytes) :
    Along BallotOk g (p.labels i (.start command)) ∧
      NodeSim (g.effects (p.labels i (.start command))) i (p.rf.start command) := by
  have hquiet : ∀ l ∈ p.labels i (.start command), l.Quiet := by
    intro l hl
    simp only [Proc.labels] at hl
    split at hl
    · rcases List.mem_cons.1 hl with rfl | hl
      · trivial
      · exact committed_quiet hl
    · cases hl
  refine ⟨along_quiet hquiet, ?_⟩
  unfold Raft.start
  split
  · exact h.same hquiet (.refl _)
  · exact h.quiet hquiet rfl rfl rfl (.inl rfl)
      (Raft.stored_persist (List.append_ne_nil_of_right_ne_nil _ (List.cons_ne_nil _ _)))

theorem NodeSim.requestVote (h : NodeSim g i p.rf) (hb : Ballot g) (hn : ¬ n ≤ 1)
    (args : RequestVoteArgs n) :
    Along BallotOk g (p.labels i (.requestVote args)) ∧
      NodeSim (g.effects (p.labels i (.requestVote args))) i (p.rf.requestVote args).1 := by
  obtain ⟨hok, hsim⟩ := h.catchUp hb args.term
  simp only [Proc.labels]
  rw [along_append, effects_append]
  rcases p.rf.requestVote_cases args with ⟨hlt, he⟩ | ⟨hlt, he | ⟨hc, _, he⟩⟩
  · simp only [he, Bool.false_eq_true, ↓reduceIte, effects_nil]
    rw [Raft.catchUp_stale (Nat.le_of_lt hlt)] at hok hsim ⊢
    exact ⟨⟨hok, trivial⟩, hsim⟩
  · simp only [he, Bool.false_eq_true, ↓reduceIte, effects_nil]
    exact ⟨⟨hok, trivial⟩, hsim⟩
  · simp only [he, ↓reduceIte]
    obtain ⟨hok', hsim'⟩ := hsim.grant hc (Raft.catchUp_term hlt) hn
    exact ⟨⟨hok, hok', trivial⟩, hsim'⟩

theorem NodeSim.appendEntries (h : NodeSim g i p.rf) (hb : Ballot g)
    (args : AppendEntriesArgs n) :
    Along BallotOk g (p.labels i (.appendEntries args)) ∧
      NodeSim (g.effects (p.labels i (.appendEntries args))) i (p.rf.appendEntries args).1 := by
  obtain ⟨hok, hsim⟩ := h.catchUp hb args.term
  have hquiet : ∀ l ∈ if (p.rf.appendEntries args).2.success = true then
      Raft.appended i args else [], l.Quiet := by
    intro l hl
    split at hl
    · exact appended_quiet hl
    · cases hl
  simp only [Proc.labels]
  rw [along_append, effects_append]
  refine ⟨⟨hok, along_quiet hquiet⟩, ?_⟩
  rcases p.rf.appendEntries_cases args with ⟨hlt, he, _⟩ | ⟨_, ⟨he, _⟩ | ⟨hp, _, _, he, _⟩⟩
  · rw [he]
    rw [Raft.catchUp_stale (Nat.le_of_lt hlt)] at hsim ⊢
    exact hsim.quiet hquiet rfl rfl rfl (.inl rfl) h.stored
  · rw [he]
    exact hsim.quiet hquiet rfl rfl rfl (.inr rfl) (Raft.follow_stored h.stored)
  · rw [he]
    have hli : (p.rf.follow args.term).lastIncludeIndex ≤ args.prevLogIndex := by
      rwa [Raft.follow, Raft.catchUp_lastIncludeIndex]
    have hsd := Raft.overwrite_stored (Raft.follow_stored h.stored).log hli
    have how := (p.rf.follow args.term).overwrite_spec args
    exact hsim.quiet hquiet how.me how.currentTerm how.votedFor (.inr how.state) hsd

theorem NodeSim.installSnapshot (h : NodeSim g i p.rf) (hb : Ballot g)
    (args : InstallSnapshotArgs n) :
    Along BallotOk g (p.labels i (.installSnapshot args)) ∧
      NodeSim (g.effects (p.labels i (.installSnapshot args))) i (p.rf.installSnapshot args).1 := by
  obtain ⟨hok, hsim⟩ := h.catchUp hb args.term
  have hquiet : ∀ l ∈ if (p.rf.installSnapshot args).2.2.isSome = true ∧
      p.rf.lastLogIndex ≤ args.lastIncludeIndex then
      [Label.write (α := Bytes) i args.term args.lastIncludeIndex] else [], l.Quiet := by
    intro l hl
    split at hl
    · cases List.mem_singleton.1 hl
      trivial
    · cases hl
  simp only [Proc.labels]
  rw [along_append, effects_append]
  refine ⟨⟨hok, along_quiet hquiet⟩, ?_⟩
  rcases p.rf.installSnapshot_cases args with ⟨hlt, he, _⟩ | ⟨_, ⟨_, he, _⟩ | ⟨_, he, _⟩⟩
  · rw [he]
    rw [Raft.catchUp_stale (Nat.le_of_lt hlt)] at hsim ⊢
    exact hsim.quiet hquiet rfl rfl rfl (.inl rfl) h.stored
  · rw [he]
    exact hsim.quiet hquiet rfl rfl rfl (.inr rfl) (Raft.follow_stored h.stored)
  · rw [he]
    exact hsim.quiet hquiet rfl rfl rfl (.inr rfl) Raft.install_stored

theorem NodeSim.requestVoteReply (h : NodeSim g i p.rf) (hb : Ballot g)
    (hq : p.rf.state = .candidate → (p.requestVoteReply args reply).rf.state = .leader →
      ∃ Q, Majority Q ∧ ∀ u ∈ Q, g.vote u p.rf.currentTerm = some i) :
    Along BallotOk g (p.labels i (.requestVoteReply args reply)) ∧
      NodeSim (g.effects (p.labels i (.requestVoteReply args reply))) i
        (p.requestVoteReply args reply).rf := by
  simp only [Proc.labels]
  rcases p.requestVoteReply_cases args reply with
    he | ⟨hc, ht, ⟨hlt, he⟩ | ⟨_, _, ⟨_, he⟩ | he⟩⟩
  · rw [he, if_neg (by rintro ⟨hc, hl⟩; rw [hc] at hl; cases hl), List.append_nil]
    exact h.raised hb rfl (.inr ⟨rfl, rfl, rfl⟩) h.stored
  · rw [he, if_neg (by rintro ⟨_, hl⟩; cases hl), List.append_nil]
    exact h.raised hb rfl (.inl ⟨by rw [ht]; exact hlt, rfl⟩) (Raft.stepDown_stored h.stored)
  · rw [he] at hq
    have hr : p.rf.raised i p.rf.lead = [] := raised_eq_nil (Nat.le_refl _)
    rw [he, if_pos ⟨hc, rfl⟩]
    simp only [hr, List.nil_append]
    exact ⟨⟨hq hc rfl, trivial⟩, h.lead⟩
  · rw [he, if_neg (by rintro ⟨_, hl⟩; rw [hc] at hl; cases hl), List.append_nil]
    exact h.raised hb rfl (.inr ⟨rfl, rfl, rfl⟩) h.stored

theorem NodeSim.heard (h : NodeSim g i rf) (hb : Ballot g) (hr : rf.Deposed rf' t ∨ rf.Same rf') :
    Along BallotOk g (rf.raised i rf') ∧ NodeSim (g.effects (rf.raised i rf')) i rf' := by
  rcases hr with hd | hsame
  · exact h.raised hb hd.me (.inl ⟨hd.currentTerm ▸ hd.lt, hd.state⟩) (hd.stored h.stored)
  · exact h.raised hb hsame.me (.inr ⟨hsame.currentTerm, hsame.votedFor, hsame.state⟩)
      (hsame.stored h.stored)

/-- One step of a process follows the voting rules and stays in step with the record. -/
theorem NodeSim.step (h : NodeSim g i p.rf) (hb : Ballot g) (hsolo : p.solo = 0)
    (hq : ∀ args reply, ev = .requestVoteReply args reply → p.rf.state = .candidate →
      (p.requestVoteReply args reply).rf.state = .leader →
      ∃ Q, Majority Q ∧ ∀ u ∈ Q, g.vote u p.rf.currentTerm = some i)
    (hn : ev.isLocal = false → ¬ n ≤ 1) (hs : p.step now ev = some p') :
    Along BallotOk g (p.labels i ev) ∧ NodeSim (g.effects (p.labels i ev)) i p'.rf := by
  by_cases hidle : ev.isIdle = true
  · rw [Proc.labels_idle hidle]
    exact ⟨trivial, h.same (fun _ hl => nomatch hl) (Proc.step_idle hs hidle).1.toSame⟩
  cases Proc.step_takes hs with
  | startElection =>
    obtain ⟨hok, hsim⟩ := h.campaign hb
    exact ⟨⟨hok, trivial⟩, hsim⟩
  | soloLeader hne => exact absurd hsolo hne
  | logUpdate =>
    exact ⟨along_quiet fun _ => committed_quiet,
      h.same (fun _ => committed_quiet) p.rf.logUpdate_same⟩
  | replicate server =>
    exact ⟨along_quiet fun _ => committed_quiet,
      h.same (fun _ => committed_quiet) (p.rf.replicate_same server)⟩
  | start command =>
    exact h.start command
  | snapshot _ _ _ _ _ hrf =>
    refine ⟨trivial, ?_⟩
    rcases Raft.snapshotAt_cases hrf with ⟨_, rfl⟩ | ⟨_, _, hme, hst, ht, hv, hsd, _⟩
    · exact h.same (fun _ hl => nomatch hl) (.refl _)
    · exact h.quiet (fun _ hl => nomatch hl) hme ht hv (.inl hst) hsd
  | requestVote args =>
    exact h.requestVote hb (hn rfl) args
  | appendEntries args =>
    exact h.appendEntries hb args
  | installSnapshot args =>
    exact h.installSnapshot hb args
  | requestVoteReply args reply =>
    exact h.requestVoteReply hb (hq args reply rfl)
  | appendEntriesReply server args reply =>
    exact h.heard hb (p.rf.appendEntriesReply_cases server args reply)
  | installSnapshotReply server args reply =>
    exact h.heard hb (p.rf.installSnapshotReply_cases server args reply)
  | _ => exact (hidle rfl).elim

end

end LinKV

import LinKV.Raft.Trace

namespace LinKV
set_option autoImplicit true

/-- What a process that has never persisted anything starts from. -/
def RaftState.fresh : RaftState n where
  currentTerm := 0
  votedFor := none
  lastIncludeIndex := 0
  lastIncludeTerm := 0
  log := [⟨0, [], 0⟩]
  snapshot := []

namespace Raft

/-- The persister holds the state a restart would go back to. -/
structure Stored (rf : Raft n) : Prop where
  log : rf.log ≠ []
  image : rf.persister.getD .fresh = rf.image

theorem stored_persist {rf : Raft n} (h : rf.log ≠ []) : rf.persist.Stored := ⟨h, rfl⟩

/-- The two nodes differ at most in what is neither persisted nor the role. -/
structure Same (rf rf' : Raft n) : Prop where
  me : rf'.me = rf.me
  state : rf'.state = rf.state
  image : rf'.image = rf.image
  persister : rf'.persister = rf.persister

theorem Same.refl (rf : Raft n) : Same rf rf := ⟨rfl, rfl, rfl, rfl⟩

section

variable {rf rf' : Raft n}

theorem Same.currentTerm (h : Same rf rf') : rf'.currentTerm = rf.currentTerm :=
  congrArg RaftState.currentTerm h.image

theorem Same.votedFor (h : Same rf rf') : rf'.votedFor = rf.votedFor :=
  congrArg RaftState.votedFor h.image

theorem Same.log (h : Same rf rf') : rf'.log = rf.log := congrArg RaftState.log h.image

theorem Same.lastIncludeIndex (h : Same rf rf') : rf'.lastIncludeIndex = rf.lastIncludeIndex :=
  congrArg RaftState.lastIncludeIndex h.image

theorem Same.lastIncludeTerm (h : Same rf rf') : rf'.lastIncludeTerm = rf.lastIncludeTerm :=
  congrArg RaftState.lastIncludeTerm h.image

theorem Same.stored (h : Same rf rf') (hs : rf.Stored) : rf'.Stored where
  log := h.log ▸ hs.log
  image := by rw [h.persister, h.image, hs.image]

/-- A restart brings back exactly what was stored. -/
theorem Stored.make_image (hs : rf.Stored) (i : Fin n) :
    (make i rf.persister).image = rf.image := by
  have hi := hs.image
  unfold make
  cases hp : rf.persister with
  | none =>
    rw [hp] at hi
    rw [← hi]
    split <;> rfl
  | some e =>
    rw [hp] at hi
    cases hi
    simp only [readPersist, if_neg hs.log]
    split <;> rfl

theorem make_persister (i : Fin n) (e : Option (RaftState n)) : (make i e).persister = e := by
  unfold make
  cases e <;> simp only [readPersist] <;> split <;> rfl

theorem make_me (i : Fin n) (e : Option (RaftState n)) : (make i e).me = i := by
  unfold make
  cases e <;> simp only [readPersist] <;> split <;> rfl

theorem make_commitIndex (i : Fin n) (e : Option (RaftState n)) :
    (make i e).commitIndex = (make i e).lastIncludeIndex ∧
      (make i e).lastApplied = (make i e).lastIncludeIndex := by
  unfold make
  cases e <;> simp only [readPersist] <;> split <;> exact ⟨rfl, rfl⟩

theorem make_state (i : Fin n) (e : Option (RaftState n)) :
    (make i e).state = if n ≤ 1 then .leader else .follower := by
  unfold make
  cases e <;> simp only [readPersist] <;> split <;> rfl

theorem make_none (i : Fin n) : (make i none).image = .fresh := by
  unfold make
  split <;> rfl

theorem make_stored (i : Fin n) : (make i none).Stored where
  log := by
    have he : (make i none).log = [⟨0, [], 0⟩] := congrArg RaftState.log (make_none i)
    rw [he]
    exact List.cons_ne_nil _ _
  image := by rw [make_persister, make_none, Option.getD_none]

theorem Stored.make (hs : rf.Stored) (i : Fin n) : (make i rf.persister).Stored where
  log := by
    have he : (Raft.make i rf.persister).log = rf.log :=
      congrArg RaftState.log (hs.make_image i)
    rw [he]
    exact hs.log
  image := by rw [make_persister, hs.make_image, hs.image]

theorem stepDown_stored (hs : rf.Stored) : (rf.stepDown t).Stored := stored_persist hs.log

@[simp] theorem catchUp_me : (rf.catchUp t).me = rf.me := by
  unfold catchUp
  split <;> rfl

@[simp] theorem catchUp_log : (rf.catchUp t).log = rf.log := by
  unfold catchUp
  split <;> rfl

@[simp] theorem catchUp_lastIncludeIndex :
    (rf.catchUp t).lastIncludeIndex = rf.lastIncludeIndex := by
  unfold catchUp
  split <;> rfl

@[simp] theorem catchUp_lastIncludeTerm :
    (rf.catchUp t).lastIncludeTerm = rf.lastIncludeTerm := by
  unfold catchUp
  split <;> rfl

@[simp] theorem catchUp_commitIndex : (rf.catchUp t).commitIndex = rf.commitIndex := by
  unfold catchUp
  split <;> rfl

@[simp] theorem catchUp_lastApplied : (rf.catchUp t).lastApplied = rf.lastApplied := by
  unfold catchUp
  split <;> rfl

theorem catchUp_term (ht : ¬ t < rf.currentTerm) : (rf.catchUp t).currentTerm = t := by
  unfold catchUp
  split
  · rfl
  · omega

theorem catchUp_stale (ht : t ≤ rf.currentTerm) : rf.catchUp t = rf :=
  if_neg (Nat.not_lt.2 ht)

theorem catchUp_stored (hs : rf.Stored) : (rf.catchUp t).Stored := by
  unfold catchUp
  split
  · exact stepDown_stored hs
  · exact hs

theorem catchUp_role (rf : Raft n) (t : Nat) :
    ((rf.catchUp t).state = rf.state ∧ (rf.catchUp t).currentTerm = rf.currentTerm) ∨
      (rf.catchUp t).state = .follower := by
  unfold catchUp
  split
  · exact .inr rfl
  · exact .inl ⟨rfl, rfl⟩

theorem follow_stored (hs : rf.Stored) : (rf.follow t).Stored :=
  ⟨(catchUp_stored hs).log, (catchUp_stored hs).image⟩

/-- What `RequestVote` does. -/
theorem requestVote_cases (rf : Raft n) (args : RequestVoteArgs n) :
    (args.term < rf.currentTerm ∧ rf.requestVote args = (rf, ⟨rf.currentTerm, false⟩)) ∨
    (¬ args.term < rf.currentTerm ∧
      ((rf.requestVote args = (rf.catchUp args.term, ⟨args.term, false⟩)) ∨
      (((rf.catchUp args.term).votedFor = none ∨
          (rf.catchUp args.term).votedFor = some args.candidateId) ∧
        rf.upToDate args = true ∧
        rf.requestVote args =
          ({ rf.catchUp args.term with votedFor := some args.candidateId }.persist,
            ⟨args.term, true⟩)))) := by
  unfold requestVote
  split
  · exact .inl ⟨‹_›, rfl⟩
  · next hlt =>
    refine .inr ⟨hlt, ?_⟩
    have hu : (rf.catchUp args.term).upToDate args = rf.upToDate args := by
      unfold upToDate lastLogTerm lastLogIndex
      rw [catchUp_log, catchUp_lastIncludeIndex]
    simp only [catchUp_term hlt, hu]
    split
    · next hg => exact .inr ⟨hg.1, hg.2, rfl⟩
    · exact .inl rfl

/-- What `AppendEntries` does. -/
theorem appendEntries_cases (rf : Raft n) (args : AppendEntriesArgs n) :
    (args.term < rf.currentTerm ∧ (rf.appendEntries args).1 = rf ∧
      (rf.appendEntries args).2.success = false) ∨
    (¬ args.term < rf.currentTerm ∧
      (((rf.appendEntries args).1 = rf.follow args.term ∧
        (rf.appendEntries args).2.success = false) ∨
      (rf.lastIncludeIndex ≤ args.prevLogIndex ∧
        args.prevLogIndex - rf.lastIncludeIndex < rf.log.length ∧
        termOf rf.log (args.prevLogIndex - rf.lastIncludeIndex) = args.prevLogTerm ∧
        (rf.appendEntries args).1 = (rf.follow args.term).overwrite args ∧
        (rf.appendEntries args).2.success = true))) := by
  have hlog : (rf.follow args.term).log = rf.log := catchUp_log
  have hli : (rf.follow args.term).lastIncludeIndex = rf.lastIncludeIndex :=
    catchUp_lastIncludeIndex
  unfold appendEntries
  split
  · exact .inl ⟨‹_›, rfl, rfl⟩
  · refine .inr ⟨‹_›, ?_⟩
    simp only [hlog, hli]
    split
    · exact .inl ⟨rfl, rfl⟩
    · split
      · exact .inl ⟨rfl, rfl⟩
      · split
        · exact .inl ⟨rfl, rfl⟩
        · exact .inr ⟨by omega, by omega, not_not.1 ‹_›, rfl, rfl⟩

/-- What `InstallSnapshot` does. -/
theorem installSnapshot_cases (rf : Raft n) (args : InstallSnapshotArgs n) :
    (args.term < rf.currentTerm ∧ (rf.installSnapshot args).1 = rf ∧
      (rf.installSnapshot args).2.2 = none) ∨
    (¬ args.term < rf.currentTerm ∧
      ((args.lastIncludeIndex ≤ rf.lastIncludeIndex ∧
        (rf.installSnapshot args).1 = rf.follow args.term ∧
        (rf.installSnapshot args).2.2 = none) ∨
      (rf.lastIncludeIndex < args.lastIncludeIndex ∧
        (rf.installSnapshot args).1 = (rf.follow args.term).install args ∧
        (rf.installSnapshot args).2.2 =
          some (.snapshot args.lastIncludeIndex args.lastIncludeTerm args.data)))) := by
  have hli : (rf.follow args.term).lastIncludeIndex = rf.lastIncludeIndex :=
    catchUp_lastIncludeIndex
  unfold installSnapshot
  split
  · exact .inl ⟨‹_›, rfl, rfl⟩
  · refine .inr ⟨‹_›, ?_⟩
    simp only [hli]
    split
    · exact .inl ⟨‹_›, rfl, rfl⟩
    · exact .inr ⟨by omega, rfl, rfl⟩

/-- What an accepted `AppendEntries` leaves of the node. -/
structure Overwritten (rf : Raft n) (args : AppendEntriesArgs n) (rf' : Raft n) : Prop where
  me : rf'.me = rf.me
  state : rf'.state = rf.state
  currentTerm : rf'.currentTerm = rf.currentTerm
  votedFor : rf'.votedFor = rf.votedFor
  lastIncludeIndex : rf'.lastIncludeIndex = rf.lastIncludeIndex
  lastIncludeTerm : rf'.lastIncludeTerm = rf.lastIncludeTerm
  lastApplied : rf'.lastApplied = rf.lastApplied
  log : rf'.log = if args.entries = [] then rf.log else
    rf.log.take (args.prevLogIndex + 1 - rf.lastIncludeIndex) ++ args.entries
  commitIndex : rf'.commitIndex = if rf.commitIndex < args.leaderCommit then
    min args.leaderCommit rf'.lastLogIndex else rf.commitIndex

theorem overwrite_spec (rf : Raft n) (args : AppendEntriesArgs n) :
    rf.Overwritten args (rf.overwrite args) := by
  unfold overwrite
  by_cases he : args.entries = [] <;> by_cases hc : rf.commitIndex < args.leaderCommit <;>
    simp only [he, hc, ↓reduceIte] <;>
    constructor <;> first | rfl | simp only [he, hc, ↓reduceIte]; rfl

theorem overwrite_stored (hs : rf.log ≠ []) (hp : rf.lastIncludeIndex ≤ args.prevLogIndex) :
    (rf.overwrite args).Stored := by
  apply stored_persist
  have htake : rf.log.take (args.prevLogIndex + 1 - rf.lastIncludeIndex) ++ args.entries ≠ [] := by
    intro hn
    have hlen := congrArg List.length hn
    have hpos := List.length_pos_iff.2 hs
    simp only [List.length_append, List.length_take, List.length_nil] at hlen
    omega
  split <;> split <;> assumption

theorem install_stored : (rf.install args).Stored := stored_persist (List.cons_ne_nil _ _)

/-- What `Snapshot` does. -/
theorem snapshotAt_cases (h : rf.snapshotAt index data = some rf') :
    (index ≤ rf.lastIncludeIndex ∧ rf' = rf) ∨
    (rf.lastIncludeIndex < index ∧ index - rf.lastIncludeIndex < rf.log.length ∧
      rf'.me = rf.me ∧ rf'.state = rf.state ∧ rf'.currentTerm = rf.currentTerm ∧
      rf'.votedFor = rf.votedFor ∧ rf'.Stored ∧
      rf'.lastIncludeIndex = index ∧
      rf'.lastIncludeTerm = termOf rf.log (index - rf.lastIncludeIndex) ∧
      rf'.log = compacted rf.log index (termOf rf.log (index - rf.lastIncludeIndex)) ∧
      rf'.commitIndex = max rf.commitIndex index ∧ rf'.lastApplied = max rf.lastApplied index ∧
      (rf.state = .leader → ∀ j, rf'.matchIndex j = max (rf.matchIndex j) index)) := by
  unfold snapshotAt at h
  split at h
  · cases h
    exact .inl ⟨‹_›, rfl⟩
  · split at h
    · cases h
    · cases h
      refine .inr ⟨by omega, by omega, rfl, rfl, rfl, rfl, stored_persist (List.cons_ne_nil _ _),
        rfl, rfl, rfl, rfl, rfl, fun hl j => if_pos hl⟩

theorem logUpdate_same (rf : Raft n) : Same rf rf.logUpdate := by
  unfold logUpdate
  split
  · exact .refl rf
  · split <;> exact ⟨rfl, rfl, rfl, rfl⟩

theorem replicate_same (rf : Raft n) (server : Fin n) : Same rf (rf.replicate server).1 := by
  unfold replicate
  split
  · exact .refl rf
  · simp only
    split
    · exact ⟨rfl, rfl, rfl, rfl⟩
    · split <;> exact ⟨rfl, rfl, rfl, rfl⟩

theorem logUpdate_spec (rf : Raft n) :
    (rf.logUpdate.commitIndex = rf.commitIndex ∨ (rf.state = .leader ∧
      rf.logUpdate.commitIndex = rf.commitSearch rf.lastLogIndex)) ∧
    ∀ j, j ≠ rf.me → rf.logUpdate.matchIndex j = rf.matchIndex j := by
  unfold logUpdate
  split
  · exact ⟨.inl rfl, fun _ _ => rfl⟩
  · next hl =>
    split
    · exact ⟨.inr ⟨not_not.1 hl, rfl⟩, fun j hj => assign_ne _ _ hj⟩
    · exact ⟨.inl rfl, fun j hj => assign_ne _ _ hj⟩

theorem replicate_spec (rf : Raft n) (server : Fin n) :
    ((rf.replicate server).1.commitIndex = rf.commitIndex ∨ (rf.state = .leader ∧
      (rf.replicate server).1.commitIndex = rf.commitSearch rf.lastLogIndex)) ∧
    (rf.replicate server).1.matchIndex = rf.matchIndex := by
  unfold replicate
  split
  · exact ⟨.inl rfl, rfl⟩
  · next hl =>
    have hc : rf.updateCommiIndex.commitIndex = rf.commitSearch rf.lastLogIndex := rfl
    simp only
    split
    · exact ⟨.inr ⟨not_not.1 hl, hc⟩, rfl⟩
    · split <;> exact ⟨.inr ⟨not_not.1 hl, hc⟩, rfl⟩

/-- The requests of a leader: its snapshot, or its log from some index on. -/
theorem replicate_call (h : (rf.replicate server).2 = some call) :
    rf.state = .leader ∧
    ((call = .installSnapshot {
        term := rf.currentTerm
        leaderId := rf.me
        lastIncludeIndex := rf.lastIncludeIndex
        lastIncludeTerm := rf.lastIncludeTerm
        data := rf.snapshot } none) ∨
    (∃ prev, rf.lastIncludeIndex ≤ prev ∧ prev - rf.lastIncludeIndex < rf.log.length ∧
      call = .appendEntries {
        term := rf.currentTerm
        leaderId := rf.me
        prevLogIndex := prev
        prevLogTerm := termOf rf.log (prev - rf.lastIncludeIndex)
        entries :=
          if rf.lastLogIndex < prev + 1 then [] else rf.log.drop (prev + 1 - rf.lastIncludeIndex)
        leaderCommit := rf.commitSearch rf.lastLogIndex } none)) := by
  unfold replicate at h
  split at h
  · cases h
  · next hl =>
    refine ⟨not_not.1 hl, ?_⟩
    simp only at h
    split at h
    · cases h
      exact .inl rfl
    · next hidx =>
      split at h
      · cases h
      · next hlen =>
        cases h
        obtain ⟨prev, hp⟩ : ∃ prev, rf.updateCommiIndex.nextIndex server = prev + 1 :=
          ⟨rf.updateCommiIndex.nextIndex server - 1, by omega⟩
        have hli : rf.updateCommiIndex.lastIncludeIndex = rf.lastIncludeIndex := rfl
        have hlog : rf.updateCommiIndex.log = rf.log := rfl
        rw [hp, hli] at hidx hlen
        rw [hlog] at hlen
        refine .inr ⟨prev, by omega, by omega, ?_⟩
        simp only [hp, Nat.add_sub_cancel]
        rfl

theorem replicate_commit (h : (rf.replicate server).2 = some call) :
    (rf.replicate server).1.commitIndex = rf.commitSearch rf.lastLogIndex := by
  unfold replicate at h ⊢
  split at h
  · cases h
  · next hl =>
    rw [if_neg hl]
    simp only at h ⊢
    split at h
    · rw [if_pos ‹_›]
      rfl
    · rw [if_neg ‹_›]
      split at h
      · cases h
      · rw [if_neg ‹_›]
        rfl

theorem clampMatch_same (rf : Raft n) (server : Fin n) : Same rf (rf.clampMatch server) := by
  unfold clampMatch
  split <;> exact ⟨rfl, rfl, rfl, rfl⟩

theorem countRead_same (rf : Raft n) : Same rf rf.countRead := by
  unfold countRead
  split <;> exact ⟨rfl, rfl, rfl, rfl⟩

theorem Same.symm (h : Same rf rf') : Same rf' rf :=
  ⟨h.me.symm, h.state.symm, h.image.symm, h.persister.symm⟩

theorem Same.trans (h : Same rf rf') (h' : Same rf' rf'') : Same rf rf'' :=
  ⟨h'.me.trans h.me, h'.state.trans h.state, h'.image.trans h.image,
    h'.persister.trans h.persister⟩

/-- The reply is from a later term and ends the leadership. -/
structure Deposed (rf rf' : Raft n) (t : Nat) : Prop where
  lt : rf.currentTerm < t
  leader : rf.state = .leader
  me : rf'.me = rf.me
  state : rf'.state = .follower
  currentTerm : rf'.currentTerm = t
  log : rf'.log = rf.log
  lastIncludeIndex : rf'.lastIncludeIndex = rf.lastIncludeIndex
  lastIncludeTerm : rf'.lastIncludeTerm = rf.lastIncludeTerm
  commitIndex : rf'.commitIndex = rf.commitIndex
  lastApplied : rf'.lastApplied = rf.lastApplied
  image : rf'.persister = some rf'.image

theorem Deposed.stored (h : Deposed rf rf' t) (hs : rf.Stored) : rf'.Stored where
  log := h.log ▸ hs.log
  image := by rw [h.image, Option.getD_some]

theorem appendEntriesReply_cases (rf : Raft n) (server : Fin n) (args : AppendEntriesArgs n)
    (reply : AppendEntriesReply) :
    Deposed rf (rf.appendEntriesReply server args reply) reply.term ∨
      Same rf (rf.appendEntriesReply server args reply) := by
  unfold appendEntriesReply
  split
  · exact .inr (.refl rf)
  · next hg =>
    split
    · next hlt =>
      refine .inl ⟨hlt, ?_, rfl, rfl, rfl, rfl, rfl, rfl, rfl, rfl, rfl⟩
      by_contra hn
      exact hg (.inl hn)
    · split
      · refine .inr (Same.trans (Same.trans ?_ (countRead_same _)) (clampMatch_same _ _))
        exact ⟨rfl, rfl, rfl, rfl⟩
      · refine .inr (Same.trans ?_ (clampMatch_same _ _))
        exact ⟨rfl, rfl, rfl, rfl⟩

theorem installSnapshotReply_cases (rf : Raft n) (server : Fin n) (args : InstallSnapshotArgs n)
    (reply : InstallSnapshotReply) :
    Deposed rf (rf.installSnapshotReply server args reply) reply.term ∨
      Same rf (rf.installSnapshotReply server args reply) := by
  unfold installSnapshotReply
  split
  · exact .inr (.refl rf)
  · next hg =>
    split
    · next hlt =>
      refine .inl ⟨hlt, ?_, rfl, rfl, rfl, rfl, rfl, rfl, rfl, rfl, rfl⟩
      by_contra hn
      exact hg (.inl hn)
    · exact .inr ⟨rfl, rfl, rfl, rfl⟩

theorem clampMatch_le (rf : Raft n) (server j : Fin n) :
    (rf.clampMatch server).matchIndex j ≤ rf.matchIndex j := by
  unfold clampMatch
  split
  · next hlt =>
    by_cases hj : j = server
    · subst hj
      simp only [assign_self]
      omega
    · simp only [assign_ne _ _ hj, Nat.le_refl]
  · exact Nat.le_refl _

theorem countRead_matchIndex (rf : Raft n) : rf.countRead.matchIndex = rf.matchIndex := by
  unfold countRead
  split <;> rfl

theorem countRead_nextIndex (rf : Raft n) : rf.countRead.nextIndex = rf.nextIndex := by
  unfold countRead
  split <;> rfl

theorem clampMatch_of_le (h : rf.matchIndex server ≤ rf.nextIndex server) :
    rf.clampMatch server = rf := if_neg (Nat.not_lt.2 h)

theorem appendEntriesReply_stale (h : rf.state ≠ .leader ∨ args.term ≠ rf.currentTerm) :
    rf.appendEntriesReply server args reply = rf := if_pos h

theorem appendEntriesReply_deposed (hl : rf.state = .leader) (ht : args.term = rf.currentTerm)
    (hr : rf.currentTerm < reply.term) : rf.appendEntriesReply server args reply =
      { rf with currentTerm := reply.term, state := .follower }.persist :=
  (if_neg (not_or.2 ⟨not_not.2 hl, not_not.2 ht⟩)).trans (if_pos hr)

theorem appendEntriesReply_accepted (hl : rf.state = .leader) (ht : args.term = rf.currentTerm)
    (hr : reply.term ≤ rf.currentTerm) (hs : reply.success = true) :
    (rf.appendEntriesReply server args reply).matchIndex =
      assign rf.matchIndex server (args.prevLogIndex + args.entries.length) := by
  unfold appendEntriesReply
  rw [if_neg (not_or.2 ⟨not_not.2 hl, not_not.2 ht⟩), if_neg (Nat.not_lt.2 hr), if_pos hs]
  simp only
  rw [clampMatch_of_le, countRead_matchIndex]
  rw [countRead_nextIndex, countRead_matchIndex]
  simp only [assign_self]
  exact Nat.le_succ _

theorem appendEntriesReply_rejected (hl : rf.state = .leader) (ht : args.term = rf.currentTerm)
    (hr : reply.term ≤ rf.currentTerm) (hs : reply.success = false) :
    rf.appendEntriesReply server args reply = Raft.clampMatch
      { rf with nextIndex := assign rf.nextIndex server reply.conflictIndex } server := by
  unfold appendEntriesReply
  rw [if_neg (not_or.2 ⟨not_not.2 hl, not_not.2 ht⟩), if_neg (Nat.not_lt.2 hr),
    if_neg (Bool.eq_false_iff.1 hs)]

theorem appendEntriesReply_match (rf : Raft n) (server : Fin n) (args : AppendEntriesArgs n)
    (reply : AppendEntriesReply) (j : Fin n) :
    (rf.appendEntriesReply server args reply).matchIndex j ≤ rf.matchIndex j ∨
      (j = server ∧ args.term = rf.currentTerm ∧ reply.success = true ∧
        (rf.appendEntriesReply server args reply).matchIndex j ≤
          args.prevLogIndex + args.entries.length) := by
  by_cases hg : rf.state ≠ .leader ∨ args.term ≠ rf.currentTerm
  · rw [appendEntriesReply_stale hg]
    exact .inl (Nat.le_refl _)
  have hl := not_not.1 (not_or.1 hg).1
  have ht := not_not.1 (not_or.1 hg).2
  by_cases hr : rf.currentTerm < reply.term
  · rw [appendEntriesReply_deposed hl ht hr]
    exact .inl (Nat.le_refl _)
  by_cases hs : reply.success = true
  · rw [appendEntriesReply_accepted hl ht (Nat.not_lt.1 hr) hs]
    by_cases hj : j = server
    · subst hj
      rw [assign_self]
      exact .inr ⟨rfl, ht, hs, Nat.le_refl _⟩
    · rw [assign_ne _ _ hj]
      exact .inl (Nat.le_refl _)
  · rw [appendEntriesReply_rejected hl ht (Nat.not_lt.1 hr) (Bool.eq_false_iff.2 hs)]
    exact .inl (clampMatch_le _ _ _)

theorem installSnapshotReply_stale (h : rf.state ≠ .leader ∨ rf.currentTerm ≠ args.term) :
    rf.installSnapshotReply server args reply = rf := if_pos h

theorem installSnapshotReply_deposed (hl : rf.state = .leader) (ht : args.term = rf.currentTerm)
    (hr : rf.currentTerm < reply.term) :
    rf.installSnapshotReply server args reply = rf.stepDown reply.term :=
  (if_neg (not_or.2 ⟨not_not.2 hl, not_not.2 ht.symm⟩)).trans (if_pos hr)

theorem installSnapshotReply_match (rf : Raft n) (server : Fin n) (args : InstallSnapshotArgs n)
    (reply : InstallSnapshotReply) (j : Fin n) :
    (rf.installSnapshotReply server args reply).matchIndex j ≤ rf.matchIndex j ∨
      (rf.installSnapshotReply server args reply).matchIndex j ≤ rf.lastIncludeIndex := by
  unfold installSnapshotReply
  split
  · exact .inl (Nat.le_refl _)
  · split
    · exact .inl (Nat.le_refl _)
    · by_cases hj : j = server
      · subst hj
        simp only [assign_self]
        exact .inr (Nat.le_refl _)
      · simp only [assign_ne _ _ hj]
        exact .inl (Nat.le_refl _)

/-- Only what the applier and the readers keep has changed. -/
structure Idle (rf rf' : Raft n) : Prop extends Same rf rf' where
  commitIndex : rf'.commitIndex = rf.commitIndex
  matchIndex : rf'.matchIndex = rf.matchIndex

theorem applier_idle (rf : Raft n) : Idle rf rf.applier.1 := by
  unfold applier
  split <;> exact ⟨⟨rfl, rfl, rfl, rfl⟩, rfl, rfl⟩

end

end Raft

end LinKV

import LinKV.Raft.Steps

namespace LinKV
set_option autoImplicit true

namespace Raft

/-- What the term check of the handlers saves. -/
def catchUpSaves (rf : Raft n) (term : Nat) : List (RaftState n) :=
  if rf.currentTerm < term then [(rf.stepDown term).image] else []

/-- The calls to `persist` of `RequestVote`, in order. -/
def requestVoteSaves (rf : Raft n) (args : RequestVoteArgs n) : List (RaftState n) :=
  if args.term < rf.currentTerm then []
  else rf.catchUpSaves args.term ++
    if (rf.requestVote args).2.voteGranted then [(rf.requestVote args).1.image] else []

/-- The calls to `persist` of `AppendEntries`: the last is on the way of success only. -/
def appendEntriesSaves (rf : Raft n) (args : AppendEntriesArgs n) : List (RaftState n) :=
  if args.term < rf.currentTerm then []
  else rf.catchUpSaves args.term ++
    if (rf.appendEntries args).2.success then [(rf.appendEntries args).1.image] else []

def installSnapshotSaves (rf : Raft n) (args : InstallSnapshotArgs n) : List (RaftState n) :=
  if args.term < rf.currentTerm then []
  else rf.catchUpSaves args.term ++
    if rf.lastIncludeIndex < args.lastIncludeIndex then [(rf.installSnapshot args).1.image] else []

def snapshotSaves (rf : Raft n) (index : Nat) (data : Bytes) : List (RaftState n) :=
  if index ≤ rf.lastIncludeIndex then [] else ((rf.snapshotAt index data).map image).toList

end Raft

/-- The images the critical section of an event hands to the persister, one after the other. -/
def Proc.saves (p : Proc n) : Event n → List (RaftState n)
  | .startElection => [p.rf.campaign.image]
  | .start command => if p.rf.state = .leader then [(p.rf.start command).image] else []
  | .finish (some data) =>
    match p.inHand with
    | some (.command index _) => p.rf.snapshotSaves index data
    | _ => []
  | .requestVote args => p.rf.requestVoteSaves args
  | .appendEntries args => p.rf.appendEntriesSaves args
  | .installSnapshot args => p.rf.installSnapshotSaves args
  | .requestVoteReply args reply =>
    if p.rf.state = .candidate ∧ p.rf.currentTerm = args.term ∧ args.term < reply.term then
      [(p.rf.stepDown reply.term).image]
    else []
  | .appendEntriesReply server args reply =>
    if p.rf.state = .leader ∧ args.term = p.rf.currentTerm ∧ p.rf.currentTerm < reply.term then
      [(p.rf.appendEntriesReply server args reply).image]
    else []
  | .installSnapshotReply _ args reply =>
    if p.rf.state = .leader ∧ p.rf.currentTerm = args.term ∧ p.rf.currentTerm < reply.term then
      [(p.rf.stepDown reply.term).image]
    else []
  | _ => []

namespace Raft

variable {rf rf' : Raft n}

/-- What the persister holds after images were saved one after the other. -/
def held (images : List (RaftState n)) (e : Option (RaftState n)) : Option (RaftState n) :=
  images.getLast?.or e

@[simp] theorem held_nil (e : Option (RaftState n)) : held [] e = e := rfl

@[simp] theorem held_concat (l : List (RaftState n)) (x : RaftState n) (e : Option (RaftState n)) :
    held (l ++ [x]) e = some x := by
  simp only [held, List.getLast?_concat, Option.some_or]

theorem held_cons (x : RaftState n) (l : List (RaftState n)) (e : Option (RaftState n)) :
    held (x :: l) e = held l (some x) := by
  cases l with
  | nil => rfl
  | cons y l => simp only [held, List.getLast?_cons, Option.getD_some, Option.some_or]

theorem catchUp_held (rf : Raft n) (t : Nat) :
    (rf.catchUp t).persister = held (rf.catchUpSaves t) rf.persister := by
  unfold catchUp catchUpSaves
  split <;> rfl

theorem requestVote_held (rf : Raft n) (args : RequestVoteArgs n) :
    (rf.requestVote args).1.persister = held (rf.requestVoteSaves args) rf.persister := by
  by_cases ht : args.term < rf.currentTerm
  · simp only [requestVote, requestVoteSaves, if_pos ht, held_nil]
  · simp only [requestVoteSaves, if_neg ht, requestVote]
    split
    · simp only [↓reduceIte, held_concat]
      rfl
    · simp only [Bool.false_eq_true, ↓reduceIte, List.append_nil, catchUp_held]

theorem appendEntries_held (rf : Raft n) (args : AppendEntriesArgs n) :
    (rf.appendEntries args).1.persister = held (rf.appendEntriesSaves args) rf.persister := by
  by_cases ht : args.term < rf.currentTerm
  · simp only [appendEntries, appendEntriesSaves, if_pos ht, held_nil]
  · have hf : (rf.follow args.term).persister = held (rf.catchUpSaves args.term) rf.persister :=
      catchUp_held rf args.term
    simp only [appendEntriesSaves, if_neg ht, appendEntries]
    split
    · simpa using hf
    · split
      · simpa using hf
      · split
        · simpa using hf
        · simp only [↓reduceIte, held_concat]
          rfl

theorem installSnapshot_held (rf : Raft n) (args : InstallSnapshotArgs n) :
    (rf.installSnapshot args).1.persister = held (rf.installSnapshotSaves args) rf.persister := by
  by_cases ht : args.term < rf.currentTerm
  · simp only [installSnapshot, installSnapshotSaves, if_pos ht, held_nil]
  · have hf : (rf.follow args.term).persister = held (rf.catchUpSaves args.term) rf.persister :=
      catchUp_held rf args.term
    have hli : (rf.follow args.term).lastIncludeIndex = rf.lastIncludeIndex := by
      unfold follow catchUp
      split <;> rfl
    simp only [installSnapshotSaves, if_neg ht, installSnapshot, hli]
    by_cases hle : args.lastIncludeIndex ≤ rf.lastIncludeIndex
    · rw [if_pos hle, if_neg (Nat.not_lt.2 hle), List.append_nil]
      exact hf
    · rw [if_neg hle, if_pos (Nat.not_le.1 hle), held_concat]
      rfl

theorem start_held (rf : Raft n) (command : Bytes) : (rf.start command).persister =
    held (if rf.state = .leader then [(rf.start command).image] else []) rf.persister := by
  by_cases hl : rf.state = .leader
  · simp only [start, hl, ne_eq, not_true_eq_false, ↓reduceIte]
    rfl
  · simp only [start, hl, ne_eq, not_false_eq_true, ↓reduceIte, held_nil]

theorem snapshotAt_held (h : rf.snapshotAt index data = some rf') :
    rf'.persister = held (rf.snapshotSaves index data) rf.persister := by
  unfold snapshotSaves
  by_cases hle : index ≤ rf.lastIncludeIndex
  · rw [if_pos hle]
    simp only [snapshotAt, if_pos hle, Option.some.injEq] at h
    rw [h, held_nil]
  · rw [if_neg hle, h]
    simp only [snapshotAt, if_neg hle] at h
    obtain ⟨-, ⟨⟩⟩ := Option.ite_none_left_eq_some.1 h
    rfl

theorem appendEntriesReply_held (rf : Raft n) (server : Fin n) (args : AppendEntriesArgs n)
    (reply : AppendEntriesReply) : (rf.appendEntriesReply server args reply).persister =
      held (if rf.state = .leader ∧ args.term = rf.currentTerm ∧ rf.currentTerm < reply.term then
        [(rf.appendEntriesReply server args reply).image] else []) rf.persister := by
  split
  · next h =>
    rw [appendEntriesReply_deposed h.1 h.2.1 h.2.2]
    rfl
  · next h =>
    rw [held_nil]
    by_cases hst : rf.state ≠ .leader ∨ args.term ≠ rf.currentTerm
    · rw [appendEntriesReply_stale hst]
    · obtain ⟨hl, ht⟩ := not_or.1 hst
      obtain hd | hs := rf.appendEntriesReply_cases server args reply
      · exact absurd ⟨not_not.1 hl, not_not.1 ht, hd.lt⟩ h
      · exact hs.persister

theorem installSnapshotReply_held (rf : Raft n) (server : Fin n) (args : InstallSnapshotArgs n)
    (reply : InstallSnapshotReply) : (rf.installSnapshotReply server args reply).persister =
      held (if rf.state = .leader ∧ rf.currentTerm = args.term ∧ rf.currentTerm < reply.term then
        [(rf.stepDown reply.term).image] else []) rf.persister := by
  split
  · next h =>
    rw [installSnapshotReply_deposed h.1 h.2.1.symm h.2.2]
    rfl
  · next h =>
    rw [held_nil]
    by_cases hst : rf.state ≠ .leader ∨ rf.currentTerm ≠ args.term
    · rw [installSnapshotReply_stale hst]
    · obtain ⟨hl, ht⟩ := not_or.1 hst
      obtain hd | hs := rf.installSnapshotReply_cases server args reply
      · exact absurd ⟨not_not.1 hl, not_not.1 ht, hd.lt⟩ h
      · exact hs.persister

end Raft

namespace Proc

variable {p p' : Proc n}

theorem requestVoteReply_held (p : Proc n) (args : RequestVoteArgs n) (reply : RequestVoteReply) :
    (p.requestVoteReply args reply).rf.persister =
      Raft.held (p.saves (.requestVoteReply args reply)) p.rf.persister := by
  simp only [requestVoteReply, saves]
  by_cases hst : p.rf.state ≠ .candidate ∨ p.rf.currentTerm ≠ args.term
  · rw [if_pos hst, if_neg fun h => hst.elim (· h.1) (· h.2.1), Raft.held_nil]
  · obtain ⟨hl, ht⟩ := not_or.1 hst
    rw [if_neg hst]
    by_cases hlt : args.term < reply.term
    · rw [if_pos hlt, if_pos ⟨not_not.1 hl, not_not.1 ht, hlt⟩]
      rfl
    · have hno : ¬ (p.rf.state = .candidate ∧ p.rf.currentTerm = args.term ∧
          args.term < reply.term) := fun h => hlt h.2.2
      rw [if_neg hlt, if_neg hno, Raft.held_nil]
      split
      · split <;> rfl
      · rfl

theorem step_held (hs : p.step now ev = some p') :
    p'.rf.persister = Raft.held (p.saves ev) p.rf.persister := by
  cases step_takes hs with
  | logUpdate => exact p.rf.logUpdate_same.persister
  | replicate server => exact (p.rf.replicate_same server).persister
  | collect => exact p.rf.applier_idle.persister
  | start command => exact p.rf.start_held command
  | snapshot index c data rf hin hrf =>
    simp only [saves, hin]
    exact Raft.snapshotAt_held hrf
  | readReturn c =>
    simp only [readReturn]
    split <;> rfl
  | requestVote args => exact p.rf.requestVote_held args
  | appendEntries args => exact p.rf.appendEntries_held args
  | installSnapshot args => exact p.rf.installSnapshot_held args
  | requestVoteReply args reply => exact p.requestVoteReply_held args reply
  | appendEntriesReply server args reply => exact p.rf.appendEntriesReply_held server args reply
  | installSnapshotReply server args reply =>
    exact p.rf.installSnapshotReply_held server args reply
  | _ => rfl

theorem length_ite_singleton_le {c : Prop} [Decidable c] (x : α) :
    (if c then [x] else []).length ≤ 1 := by
  split
  · exact Nat.le_refl 1
  · exact Nat.zero_le 1

/-- A handler saves the new term first, and then at most once more. -/
theorem request_saves {c : Call n} (he : c.request = some ev) : p.saves ev = [] ∨
    ∃ l, l.length ≤ 1 ∧ p.saves ev = p.rf.catchUpSaves c.term ++ l := by
  obtain ⟨args, rfl, rfl⟩ | ⟨args, rfl, rfl⟩ | ⟨args, rfl, rfl⟩ := Cluster.request_eq he
  · simp only [saves, Raft.requestVoteSaves]
    split
    · exact .inl rfl
    · exact .inr ⟨_, length_ite_singleton_le _, rfl⟩
  · simp only [saves, Raft.appendEntriesSaves]
    split
    · exact .inl rfl
    · exact .inr ⟨_, length_ite_singleton_le _, rfl⟩
  · simp only [saves, Raft.installSnapshotSaves]
    split
    · exact .inl rfl
    · exact .inr ⟨_, length_ite_singleton_le _, rfl⟩

theorem saves_length (hne : ∀ c : Call n, c.request ≠ some ev) : (p.saves ev).length ≤ 1 := by
  cases ev with
  | requestVote args => exact (hne (.requestVote args none) rfl).elim
  | appendEntries args => exact (hne (.appendEntries args none) rfl).elim
  | installSnapshot args => exact (hne (.installSnapshot args none) rfl).elim
  | start command => exact length_ite_singleton_le _
  | requestVoteReply args reply => exact length_ite_singleton_le _
  | appendEntriesReply server args reply => exact length_ite_singleton_le _
  | installSnapshotReply server args reply => exact length_ite_singleton_le _
  | startElection => exact Nat.le_refl 1
  | finish snapshot =>
    cases snapshot with
    | none => exact Nat.zero_le 1
    | some data =>
      simp only [saves]
      split
      · unfold Raft.snapshotSaves
        split
        · exact Nat.zero_le 1
        · exact Option.length_toList_le
      · exact Nat.zero_le 1
  | _ => exact Nat.zero_le 1

/-- What a crash after some of the saves of a critical section leaves: what was there before, what
is there after the whole of it, or the new term of a request alone. -/
theorem saves_take (hs : p.step now ev = some p') (k : Nat) :
    Raft.held ((p.saves ev).take k) p.rf.persister = p.rf.persister ∨
    (p.saves ev ≠ [] ∧
      Raft.held ((p.saves ev).take k) p.rf.persister = p'.rf.persister) ∨
    ∃ c : Call n, c.request = some ev ∧ p.rf.currentTerm < c.term ∧
      Raft.held ((p.saves ev).take k) p.rf.persister = (p.rf.stepDown c.term).persister := by
  by_cases hnil : p.saves ev = []
  · rw [hnil, List.take_nil]
    exact .inl rfl
  by_cases hk : (p.saves ev).length ≤ k
  · rw [List.take_of_length_le hk]
    exact .inr (.inl ⟨hnil, (step_held hs).symm⟩)
  cases k with
  | zero => exact .inl rfl
  | succ k =>
    by_cases hreq : ∃ c : Call n, c.request = some ev
    · obtain ⟨c, hc⟩ := hreq
      obtain he | ⟨l, hl, he⟩ := p.request_saves hc
      · exact (hnil he).elim
      · unfold Raft.catchUpSaves at he
        split at he
        · next hlt =>
          rw [he, List.length_append, List.length_singleton] at hk
          obtain rfl : k = 0 := by omega
          exact .inr (.inr ⟨c, hc, hlt, by rw [he]; rfl⟩)
        · rw [he, List.nil_append] at hk
          omega
    · have := p.saves_length fun c hc => hreq ⟨c, hc⟩
      omega

/-- A section that has written the log saves it last, after at most the term of the request. -/
theorem torn_saves (h : p.torn ev ≠ []) :
    (∃ command, ev = .start command ∧ (p.saves ev).dropLast = [] ∧ p.saves ev ≠ []) ∨
    ∃ args, ev = .appendEntries args ∧ (p.saves ev).dropLast = p.rf.catchUpSaves args.term ∧
      p.saves ev ≠ [] := by
  cases ev with
  | start command =>
    refine .inl ⟨command, rfl, ?_⟩
    by_cases hl : p.rf.state = .leader
    · simp only [saves, hl, ↓reduceIte]
      exact ⟨rfl, List.cons_ne_nil _ _⟩
    · have hrf : p.rf.start command = p.rf := if_pos hl
      simp only [torn, writes, hrf, ↓reduceIte] at h
      exact absurd rfl h
  | appendEntries args =>
    refine .inr ⟨args, rfl, ?_⟩
    have hlog : (p.rf.appendEntries args).1.log ≠ p.rf.log := by
      intro he
      simp only [torn, writes, he, ↓reduceIte] at h
      exact h rfl
    rcases p.rf.appendEntries_cases args with ⟨_, he, _⟩ | ⟨ht, ⟨he, _⟩ | ⟨_, _, _, he, hs⟩⟩
    · rw [he] at hlog
      exact absurd rfl hlog
    · rw [he] at hlog
      exact absurd Raft.catchUp_log hlog
    · simp only [saves, Raft.appendEntriesSaves, if_neg ht, hs, ↓reduceIte, List.dropLast_concat]
      exact ⟨trivial, List.concat_ne_nil _ _⟩
  | _ => exact absurd rfl h

theorem saves_quiet (h : p.saves ev ≠ []) : p.emits ev = none := by
  cases ev with
  | emit => exact (h rfl).elim
  | emitSnap k => exact (h rfl).elim
  | _ => rfl

end Proc

end LinKV

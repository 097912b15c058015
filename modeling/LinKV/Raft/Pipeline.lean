import LinKV.Raft.Roles

namespace LinKV
set_option autoImplicit true

/-- The way of messages from the log to the state machine. -/
structure Pipeline where
  batch : List ApplyMsg
  snapSends : List ApplyMsg
  applyCh : List ApplyMsg
  inHand : Option ApplyMsg
  processed : List ApplyMsg
  base : Nat
  lastApplied : Nat

def Proc.pipe (p : Proc n) : Pipeline where
  batch := p.batch
  snapSends := p.snapSends
  applyCh := p.applyCh
  inHand := p.inHand
  processed := p.processed
  base := p.base
  lastApplied := p.rf.lastApplied

def Pipeline.queue (x : Pipeline) : List ApplyMsg := x.batch ++ x.applyCh ++ x.inHand.toList

/-- What the events of a process do to its pipeline. -/
inductive PipeStep (rf : Raft n) : Event n → Pipeline → Pipeline → Prop
  | same (ev : Event n) (x : Pipeline) : PipeStep rf ev x x
  | collect (x : Pipeline) (hb : x.batch = []) :
      PipeStep rf .collect x
        { x with batch := rf.applier.2, lastApplied := rf.applier.1.lastApplied }
  | emit (x : Pipeline) (m : ApplyMsg) (rest : List ApplyMsg) (hb : x.batch = m :: rest) :
      PipeStep rf .emit x { x with batch := rest, applyCh := x.applyCh ++ [m] }
  | emitSnap (x : Pipeline) (k : Nat) (m : ApplyMsg) (hk : x.snapSends[k]? = some m) :
      PipeStep rf (.emitSnap k) x
        { x with snapSends := x.snapSends.eraseIdx k, applyCh := x.applyCh ++ [m] }
  | receive (x : Pipeline) (m : ApplyMsg) (rest : List ApplyMsg) (hi : x.inHand = none)
      (hc : x.applyCh = m :: rest) :
      PipeStep rf .receive x { x with inHand := some m, applyCh := rest }
  | finish (x : Pipeline) (m : ApplyMsg) (data : Option Bytes) (lastApplied : Nat)
      (hi : x.inHand = some m)
      (hl : lastApplied = x.lastApplied ∨
        ∃ j c, m = .command j c ∧ lastApplied = max x.lastApplied j) :
      PipeStep rf (.finish data) x { x with
        inHand := none, processed := x.processed ++ [m], lastApplied := lastApplied }
  | install (x : Pipeline) (args : InstallSnapshotArgs n) (ht : ¬ args.term < rf.currentTerm)
      (hi : rf.lastIncludeIndex < args.lastIncludeIndex) :
      PipeStep rf (.installSnapshot args) x { x with
        snapSends := x.snapSends ++
          [.snapshot args.lastIncludeIndex args.lastIncludeTerm args.data]
        lastApplied := max x.lastApplied args.lastIncludeIndex }

namespace Raft

/-- The messages for the entries from `a + 1` to `b`. -/
inductive Collected (rf : Raft n) : Nat → List ApplyMsg → Nat → Prop
  | nil : Collected rf a [] a
  | cons (hc : a < rf.commitIndex) (hl : rf.log[a + 1 - rf.lastIncludeIndex]? = some e)
      (h : Collected rf (a + 1) ms b) : Collected rf a (.command (a + 1) e.command :: ms) b

theorem collectFrom_collected (rf : Raft n) (hi : rf.lastIncludeIndex ≤ a) (fuel : Nat) :
    Collected rf a (rf.collectFrom fuel a).2 (rf.collectFrom fuel a).1 := by
  induction fuel generalizing a with
  | zero => exact .nil
  | succ fuel ih =>
    unfold collectFrom
    split
    · next hc =>
      rw [if_neg (by omega)]
      split
      · exact .nil
      · next e he => exact .cons hc he (ih (by omega))
    · exact .nil

theorem applier_cases (rf : Raft n) :
    (rf.lastApplied < rf.lastIncludeIndex ∧ rf.applier.1.lastApplied = rf.lastIncludeIndex ∧
      rf.applier.2 = [.snapshot rf.lastIncludeIndex rf.lastIncludeTerm rf.snapshot]) ∨
    (rf.lastIncludeIndex ≤ rf.lastApplied ∧
      Collected rf rf.lastApplied rf.applier.2 rf.applier.1.lastApplied) := by
  unfold applier
  split
  · next h => exact .inl ⟨h, rfl, rfl⟩
  · exact .inr ⟨by omega, collectFrom_collected rf (by omega) _⟩

theorem Collected.mem {rf : Raft n} (h : Collected rf a ms b) (hm : m ∈ ms) :
    ∃ j e, m = .command j e.command ∧ a < j ∧ j ≤ rf.commitIndex ∧
      rf.log[j - rf.lastIncludeIndex]? = some e := by
  induction h with
  | nil => cases hm
  | @cons a e ms b hc hl _ ih =>
    rcases List.mem_cons.1 hm with rfl | hm
    · exact ⟨_, _, rfl, Nat.lt_succ_self _, hc, hl⟩
    · obtain ⟨j, e, he, hlt, hle, hlog⟩ := ih hm
      exact ⟨j, e, he, by omega, hle, hlog⟩

structure SameIndices (rf rf' : Raft n) : Prop where
  commitIndex : rf'.commitIndex = rf.commitIndex
  lastApplied : rf'.lastApplied = rf.lastApplied
  lastIncludeIndex : rf'.lastIncludeIndex = rf.lastIncludeIndex

theorem SameIndices.trans {rf rf' rf'' : Raft n} (h : SameIndices rf rf')
    (h' : SameIndices rf' rf'') : SameIndices rf rf'' :=
  ⟨h'.commitIndex.trans h.commitIndex, h'.lastApplied.trans h.lastApplied,
    h'.lastIncludeIndex.trans h.lastIncludeIndex⟩

theorem requestVote_indices (rf : Raft n) (args : RequestVoteArgs n) :
    rf.SameIndices (rf.requestVote args).1 := by
  rcases rf.requestVote_cases args with ⟨_, he⟩ | ⟨_, he | ⟨_, _, he⟩⟩ <;> rw [he]
  · exact ⟨rfl, rfl, rfl⟩
  · exact ⟨catchUp_commitIndex, catchUp_lastApplied, catchUp_lastIncludeIndex⟩
  · exact ⟨catchUp_commitIndex, catchUp_lastApplied, catchUp_lastIncludeIndex⟩

theorem appendEntries_lastApplied (rf : Raft n) (args : AppendEntriesArgs n) :
    (rf.appendEntries args).1.lastApplied = rf.lastApplied := by
  rcases rf.appendEntries_cases args with ⟨_, he, _⟩ | ⟨_, ⟨he, _⟩ | ⟨_, _, _, he, _⟩⟩ <;> rw [he]
  · exact catchUp_lastApplied
  · rw [((rf.follow args.term).overwrite_spec args).lastApplied]
    exact catchUp_lastApplied

theorem logUpdate_lastApplied (rf : Raft n) : rf.logUpdate.lastApplied = rf.lastApplied := by
  unfold logUpdate
  split
  · rfl
  · split <;> rfl

theorem replicate_lastApplied (rf : Raft n) (server : Fin n) :
    (rf.replicate server).1.lastApplied = rf.lastApplied := by
  unfold replicate
  split
  · rfl
  · simp only
    split
    · rfl
    · split <;> rfl

theorem start_lastApplied (rf : Raft n) (command : Bytes) :
    (rf.start command).lastApplied = rf.lastApplied := by
  unfold start
  split <;> rfl

theorem appendEntriesReply_indices (rf : Raft n) (server : Fin n)
    (args : AppendEntriesArgs n) (reply : AppendEntriesReply) :
    rf.SameIndices (rf.appendEntriesReply server args reply) := by
  have hclamp (rf : Raft n) : rf.SameIndices (rf.clampMatch server) := by
    unfold clampMatch
    split <;> exact ⟨rfl, rfl, rfl⟩
  have hcount (rf : Raft n) : rf.SameIndices rf.countRead := by
    unfold countRead
    split <;> exact ⟨rfl, rfl, rfl⟩
  unfold appendEntriesReply
  split
  · exact ⟨rfl, rfl, rfl⟩
  · split
    · exact ⟨rfl, rfl, rfl⟩
    · split
      · refine SameIndices.trans (SameIndices.trans ?_ (hcount _)) (hclamp _)
        exact ⟨rfl, rfl, rfl⟩
      · refine SameIndices.trans ?_ (hclamp _)
        exact ⟨rfl, rfl, rfl⟩

theorem installSnapshotReply_indices (rf : Raft n) (server : Fin n)
    (args : InstallSnapshotArgs n) (reply : InstallSnapshotReply) :
    rf.SameIndices (rf.installSnapshotReply server args reply) := by
  unfold installSnapshotReply
  split
  · exact ⟨rfl, rfl, rfl⟩
  · split <;> exact ⟨rfl, rfl, rfl⟩

/-- A request does not move the commit index back, unless the log got shorter than it. -/
theorem appendEntries_commit (rf : Raft n) (args : AppendEntriesArgs n)
    (hle : rf.commitIndex ≤ (rf.appendEntries args).1.lastLogIndex) :
    rf.commitIndex ≤ (rf.appendEntries args).1.commitIndex := by
  have hfol : (rf.follow args.term).commitIndex = rf.commitIndex := catchUp_commitIndex
  rcases rf.appendEntries_cases args with ⟨_, he, _⟩ | ⟨_, ⟨he, _⟩ | ⟨_, _, _, he, _⟩⟩
  · rw [he]
  · rw [he, hfol]
  · have hc := ((rf.follow args.term).overwrite_spec args).commitIndex
    rw [← he, hfol] at hc
    rw [hc]
    split
    · omega
    · exact Nat.le_refl _

theorem installSnapshot_commit (rf : Raft n) (args : InstallSnapshotArgs n) :
    rf.commitIndex ≤ (rf.installSnapshot args).1.commitIndex := by
  have hfol : (rf.follow args.term).commitIndex = rf.commitIndex := catchUp_commitIndex
  rcases rf.installSnapshot_cases args with ⟨_, he, _⟩ | ⟨_, ⟨_, he, _⟩ | ⟨_, he, _⟩⟩
  · rw [he]
  · rw [he, hfol]
  · rw [he, ← hfol]
    exact Nat.le_max_left _ _

end Raft

namespace Proc

theorem requestVoteReply_indices (p : Proc n) (args : RequestVoteArgs n)
    (reply : RequestVoteReply) : p.rf.SameIndices (p.requestVoteReply args reply).rf := by
  rcases p.requestVoteReply_cases args reply with
    he | ⟨_, _, ⟨_, he⟩ | ⟨_, _, ⟨_, he⟩ | he⟩⟩ <;> rw [he] <;> exact ⟨rfl, rfl, rfl⟩

theorem pipe_of_lastApplied (p : Proc n) (rf : Raft n) (h : rf.lastApplied = p.rf.lastApplied) :
    { p with rf := rf }.pipe = p.pipe := by
  simp only [pipe, h]

theorem install_pipe (p : Proc n) (args : InstallSnapshotArgs n) :
    PipeStep p.rf (.installSnapshot args) p.pipe { p with
      rf := (p.rf.installSnapshot args).1
      snapSends := p.snapSends ++ (p.rf.installSnapshot args).2.2.toList }.pipe := by
  have hfol : (p.rf.follow args.term).lastApplied = p.rf.lastApplied := Raft.catchUp_lastApplied
  rcases p.rf.installSnapshot_cases args with ⟨_, he, hs⟩ | ⟨ht, ⟨_, he, hs⟩ | ⟨hi, he, hs⟩⟩
  · rw [he, hs, Option.toList_none, List.append_nil]
    exact .same _ _
  · rw [he, hs, Option.toList_none, List.append_nil]
    exact pipe_of_lastApplied p _ hfol ▸ .same _ _
  · rw [he, hs]
    have hstep := PipeStep.install p.pipe args ht hi
    simp only [pipe, Raft.install, Raft.persist, hfol] at hstep ⊢
    exact hstep

theorem step_pipe {p p' : Proc n} (hs : p.step now ev = some p') :
    PipeStep p.rf ev p.pipe p'.pipe := by
  cases step_takes hs with
  | tick | copy | send | startElection | soloLeader => exact .same _ _
  | logUpdate => exact pipe_of_lastApplied p _ p.rf.logUpdate_lastApplied ▸ .same _ _
  | replicate server =>
    exact pipe_of_lastApplied p _ (p.rf.replicate_lastApplied server) ▸ .same _ _
  | start command => exact pipe_of_lastApplied p _ (p.rf.start_lastApplied command) ▸ .same _ _
  | collect hb => exact .collect p.pipe hb
  | emit m rest hb => exact .emit p.pipe m rest hb
  | emitSnap k m hk => exact .emitSnap p.pipe k m hk
  | receive m rest hi hc => exact .receive p.pipe m rest hi hc
  | finish m hi => exact .finish p.pipe _ _ _ hi (.inl rfl)
  | snapshot index c data rf hi hrf =>
    refine .finish p.pipe _ _ rf.lastApplied hi ?_
    rcases Raft.snapshotAt_cases hrf with ⟨_, rfl⟩ | ⟨_, _, _, _, _, _, _, _, _, _, _, hla, _⟩
    · exact .inl rfl
    · exact .inr ⟨_, _, rfl, hla⟩
  | readIndex | readSignal | readTimeout | readExit => exact .same _ _
  | readReturn c =>
    unfold readReturn
    split <;> exact .same _ _
  | requestVote args =>
    exact pipe_of_lastApplied p _ (p.rf.requestVote_indices args).lastApplied ▸ .same _ _
  | appendEntries args =>
    exact pipe_of_lastApplied p _ (p.rf.appendEntries_lastApplied args) ▸ .same _ _
  | installSnapshot args => exact p.install_pipe args
  | requestVoteReply args reply =>
    rcases p.requestVoteReply_cases args reply with
      he | ⟨_, _, ⟨_, he⟩ | ⟨_, _, ⟨_, he⟩ | he⟩⟩ <;> rw [he] <;> exact .same _ _
  | appendEntriesReply server args reply =>
    have hla := (p.rf.appendEntriesReply_indices server args reply).lastApplied
    simp only [appendEntriesReply, pipe, hla]
    exact .same _ _
  | installSnapshotReply server args reply =>
    have hla := (p.rf.installSnapshotReply_indices server args reply).lastApplied
    exact pipe_of_lastApplied p _ hla ▸ .same _ _

end Proc

end LinKV

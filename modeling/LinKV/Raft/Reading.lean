import LinKV.Raft.Roles

namespace LinKV
set_option autoImplicit true

/-- The state of a node's `ReadIndex` call: the call itself and the two fields of `Raft` it
shares with the reply handlers. -/
structure Reading (n : Nat) where
  call : Option (ReadCall n)
  ch : Option Bool
  count : Nat

def Proc.reading (p : Proc n) : Reading n where
  call := p.readCall
  ch := p.rf.pendingReadCh
  count := p.rf.pendingReadCount

/-- What an event does to a node's read. -/
inductive ReadStep (now : Nat) (p : Proc n) : Event n → Reading n → Prop
  | same (ev : Event n) : ReadStep now p ev p.reading
  | start (hl : p.rf.state = .leader) :
      ReadStep now p .readIndex {
        call := some {
          index := p.rf.commitIndex
          term := p.rf.currentTerm
          signalled := false
          startedAt := now
          counted := [] }
        ch := some (n / 2 < 1 : Bool)
        count := 1 }
  | signal (c : ReadCall n) (hc : p.readCall = some c) (hch : p.rf.pendingReadCh = some true) :
      ReadStep now p .readSignal {
        call := some { c with signalled := true }
        ch := some false
        count := p.rf.pendingReadCount }
  | stop (ev : Event n) (x : Reading n) (hx : x.call = none) : ReadStep now p ev x
  | count (server : Fin n) (args : AppendEntriesArgs n) (reply : AppendEntriesReply)
      (filled : Bool) (hch : p.rf.pendingReadCh = some filled)
      (hc : p.rf.countsRead args reply = true) :
      ReadStep now p (.appendEntriesReply server args reply) {
        call := p.readCall.map fun c => { c with counted := server :: c.counted }
        ch := some (filled || n / 2 < p.rf.pendingReadCount + 1)
        count := p.rf.pendingReadCount + 1 }

namespace Raft

def SameReads (rf rf' : Raft n) : Prop :=
  rf'.pendingReadCh = rf.pendingReadCh ∧ rf'.pendingReadCount = rf.pendingReadCount

theorem SameReads.trans {rf rf' rf'' : Raft n} (h : SameReads rf rf')
    (h' : SameReads rf' rf'') : SameReads rf rf'' :=
  ⟨h'.1.trans h.1, h'.2.trans h.2⟩

theorem catchUp_reads (rf : Raft n) (term : Nat) : rf.SameReads (rf.catchUp term) := by
  unfold catchUp
  split <;> exact ⟨rfl, rfl⟩

theorem requestVote_reads (rf : Raft n) (args : RequestVoteArgs n) :
    rf.SameReads (rf.requestVote args).1 := by
  rcases rf.requestVote_cases args with ⟨_, he⟩ | ⟨_, he | ⟨_, _, he⟩⟩ <;> rw [he]
  · exact ⟨rfl, rfl⟩
  · exact rf.catchUp_reads args.term
  · exact rf.catchUp_reads args.term

theorem overwrite_reads (rf : Raft n) (args : AppendEntriesArgs n) :
    rf.SameReads (rf.overwrite args) := by
  unfold overwrite
  simp only
  split <;> split <;> exact ⟨rfl, rfl⟩

theorem appendEntries_reads (rf : Raft n) (args : AppendEntriesArgs n) :
    rf.SameReads (rf.appendEntries args).1 := by
  have hfol : rf.SameReads (rf.follow args.term) := rf.catchUp_reads args.term
  rcases rf.appendEntries_cases args with ⟨_, he, _⟩ | ⟨_, ⟨he, _⟩ | ⟨_, _, _, he, _⟩⟩ <;> rw [he]
  · exact ⟨rfl, rfl⟩
  · exact hfol
  · exact hfol.trans (overwrite_reads _ args)

theorem installSnapshot_reads (rf : Raft n) (args : InstallSnapshotArgs n) :
    rf.SameReads (rf.installSnapshot args).1 := by
  rcases rf.installSnapshot_cases args with ⟨_, he, _⟩ | ⟨_, ⟨_, he, _⟩ | ⟨_, he, _⟩⟩ <;> rw [he]
  · exact ⟨rfl, rfl⟩
  · exact rf.catchUp_reads args.term
  · exact rf.catchUp_reads args.term

theorem snapshotAt_reads {rf rf' : Raft n} (h : rf.snapshotAt index data = some rf') :
    rf.SameReads rf' := by
  unfold snapshotAt at h
  split at h
  · cases h
    exact ⟨rfl, rfl⟩
  · split at h
    · cases h
    · cases h
      exact ⟨rfl, rfl⟩

theorem start_reads (rf : Raft n) (command : Bytes) : rf.SameReads (rf.start command) := by
  unfold start
  split <;> exact ⟨rfl, rfl⟩

theorem logUpdate_reads (rf : Raft n) : rf.SameReads rf.logUpdate := by
  unfold logUpdate
  split
  · exact ⟨rfl, rfl⟩
  · split <;> exact ⟨rfl, rfl⟩

theorem replicate_reads (rf : Raft n) (server : Fin n) :
    rf.SameReads (rf.replicate server).1 := by
  unfold replicate
  split
  · exact ⟨rfl, rfl⟩
  · simp only
    split
    · exact ⟨rfl, rfl⟩
    · split <;> exact ⟨rfl, rfl⟩

theorem applier_reads (rf : Raft n) : rf.SameReads rf.applier.1 := by
  unfold applier
  split <;> exact ⟨rfl, rfl⟩

theorem installSnapshotReply_reads (rf : Raft n) (server : Fin n)
    (args : InstallSnapshotArgs n) (reply : InstallSnapshotReply) :
    rf.SameReads (rf.installSnapshotReply server args reply) := by
  unfold installSnapshotReply
  split
  · exact ⟨rfl, rfl⟩
  · split <;> exact ⟨rfl, rfl⟩

theorem clampMatch_reads (rf : Raft n) (server : Fin n) : rf.SameReads (rf.clampMatch server) := by
  unfold clampMatch
  split <;> exact ⟨rfl, rfl⟩

theorem countRead_none {rf : Raft n} (h : rf.pendingReadCh = none) :
    rf.SameReads rf.countRead := by
  simp only [countRead, h, SameReads, and_self]

theorem countRead_some {rf : Raft n} (server : Fin n) (h : rf.pendingReadCh = some filled) :
    (rf.countRead.clampMatch server).pendingReadCh =
        some (filled || n / 2 < rf.pendingReadCount + 1) ∧
      (rf.countRead.clampMatch server).pendingReadCount = rf.pendingReadCount + 1 := by
  rw [(clampMatch_reads _ server).1, (clampMatch_reads _ server).2]
  simp only [countRead, h, and_self]

theorem appendEntriesReply_reads (rf : Raft n) (server : Fin n) (args : AppendEntriesArgs n)
    (reply : AppendEntriesReply) :
    rf.countsRead args reply = false ∧ rf.SameReads (rf.appendEntriesReply server args reply) ∨
    rf.countsRead args reply = true ∧ ∃ filled, rf.pendingReadCh = some filled ∧
      (rf.appendEntriesReply server args reply).pendingReadCh =
        some (filled || n / 2 < rf.pendingReadCount + 1) ∧
      (rf.appendEntriesReply server args reply).pendingReadCount = rf.pendingReadCount + 1 := by
  unfold appendEntriesReply countsRead
  split
  · next h =>
    refine .inl ⟨?_, rfl, rfl⟩
    simp only [Bool.and_eq_false_iff, decide_eq_false_iff_not]
    tauto
  · next h =>
    split
    · next ht =>
      refine .inl ⟨?_, rfl, rfl⟩
      simp only [Bool.and_eq_false_iff, decide_eq_false_iff_not]
      exact .inl (.inl (.inr (by omega)))
    · next ht =>
      split
      · next hs =>
        rcases Option.eq_none_or_eq_some rf.pendingReadCh with hch | ⟨filled, hch⟩
        · refine .inl ⟨by rw [hch, Option.isSome_none, Bool.and_false], ?_⟩
          refine SameReads.trans (SameReads.trans ?_ (countRead_none ?_))
            (clampMatch_reads _ server)
          · exact ⟨rfl, rfl⟩
          · exact hch
        · refine .inr ⟨?_, filled, hch, ?_⟩
          · simp only [not_or, not_not] at h
            simp only [h.1, h.2, hs, hch, Option.isSome_some, decide_true, Bool.and_true,
              Bool.true_and, decide_eq_true_eq]
            omega
          · apply countRead_some server
            exact hch
      · next hs =>
        refine .inl ⟨by simp [hs], ?_⟩
        refine SameReads.trans ?_ (clampMatch_reads _ server)
        exact ⟨rfl, rfl⟩

end Raft

namespace Proc

theorem reading_same {p : Proc n} {rf : Raft n} (h : p.rf.SameReads rf) :
    ReadStep now p ev ⟨p.readCall, rf.pendingReadCh, rf.pendingReadCount⟩ := by
  rw [h.1, h.2]
  exact .same ev

theorem step_reading {p p' : Proc n} (hs : p.step now ev = some p') :
    ReadStep now p ev p'.reading := by
  cases step_takes hs with
  | tick | startElection | soloLeader | copy | send => exact .same _
  | logUpdate => exact reading_same p.rf.logUpdate_reads
  | replicate server => exact reading_same (p.rf.replicate_reads server)
  | start command => exact reading_same (p.rf.start_reads command)
  | collect => exact reading_same p.rf.applier_reads
  | emit | emitSnap | receive | finish | readExit => exact .same _
  | snapshot _ _ _ _ _ hrf => exact reading_same (Raft.snapshotAt_reads hrf)
  | readIndex hl => exact .start hl
  | readSignal c hc _ hch => exact .signal c hc hch
  | readReturn c =>
    refine .stop _ _ ?_
    unfold readReturn
    split <;> rfl
  | readTimeout => exact .stop _ _ rfl
  | requestVote args => exact reading_same (p.rf.requestVote_reads args)
  | appendEntries args => exact reading_same (p.rf.appendEntries_reads args)
  | installSnapshot args => exact reading_same (p.rf.installSnapshot_reads args)
  | requestVoteReply args reply =>
    rcases p.requestVoteReply_cases args reply with
      he | ⟨_, _, ⟨_, he⟩ | ⟨_, _, ⟨_, he⟩ | he⟩⟩ <;> rw [he] <;> exact .same _
  | appendEntriesReply server args reply =>
    rcases p.rf.appendEntriesReply_reads server args reply with
      ⟨hc, hsame⟩ | ⟨hc, filled, hch, hch', hcount⟩
    · simp only [reading, appendEntriesReply, hc, Bool.false_eq_true, ↓reduceIte,
        Option.map_id_fun', id_eq]
      exact reading_same hsame
    · simp only [reading, appendEntriesReply, hc, ↓reduceIte, hch', hcount]
      exact .count _ _ _ _ hch hc
  | installSnapshotReply server args reply =>
    exact reading_same (p.rf.installSnapshotReply_reads server args reply)

end Proc

end LinKV

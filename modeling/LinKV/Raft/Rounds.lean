import LinKV.Raft.CatchUp
import LinKV.Raft.CommitRule

namespace LinKV
set_option autoImplicit true

namespace Raft

/-- The progress of the other peers is left alone. -/
structure Frame (server : Fin n) (l l' : Raft n) : Prop where
  next : ∀ k, k ≠ server → k ≠ l.me → l'.nextIndex k = l.nextIndex k
  matched : ∀ k, k ≠ server → k ≠ l.me → l'.matchIndex k = l.matchIndex k

/-- The leader will count its whole log as committed in the next round. -/
def Settled (l : Raft n) : Prop := l.logUpdate.updateCommiIndex.commitIndex = l.lastLogIndex

/-- The leader knows that the peer has its last entry. -/
structure Caught (server : Fin n) (l f : Raft n) : Prop where
  matched : l.matchIndex server = l.lastLogIndex
  has : f.Has l.lastLogIndex
  term : f.entryTerm l.lastLogIndex = l.entryTerm l.lastLogIndex

/-- The peer has not applied the leader's last entry, has compacted no more than it has applied,
and an entry of the same term that it has in its place is the same. -/
structure Ready (l f : Raft n) : Prop where
  applied : f.lastApplied < l.lastLogIndex
  compacted : f.lastIncludeIndex ≤ f.lastApplied
  agrees : ∀ e, f.log[l.lastLogIndex - f.lastIncludeIndex]? = some e →
    e.term = l.entryTerm l.lastLogIndex → l.entryCommand l.lastLogIndex = some e.command

/-- Up to an index the two logs hold the same entries, as far as both of them hold any. -/
def AgreeTo (index : Nat) (l f : Raft n) : Prop :=
  ∀ k, k ≤ index → l.Has k → f.Has k → f.entryTerm k = l.entryTerm k ∧
    (l.lastIncludeIndex < k → f.lastIncludeIndex < k → f.entryCommand k = l.entryCommand k)

/-- What `Cluster.LogMatching` says of two nodes. -/
def Matches (l f : Raft n) : Prop :=
  ∀ i, l.Has i → f.Has i → f.entryTerm i = l.entryTerm i → AgreeTo i l f

/-- What rounds with one peer do to the leader and to the peer. -/
structure Round (server : Fin n) (l f l' f' : Raft n) : Prop where
  same : l.Same l'
  applied : l'.lastApplied = l.lastApplied
  behind : Behind server l' f'
  frame : Frame server l l'
  bound : l.commitIndex ≤ l.lastLogIndex → l'.commitIndex ≤ l.lastLogIndex
  settled : l.Settled → l'.commitIndex = l.lastLogIndex
  ready : l.lastIncludeIndex < l.lastLogIndex → Ready l f → Ready l' f'
  logs : Matches l f → Matches l' f'

section

variable {l l' l'' f f' f'' rf : Raft n} {server : Fin n}

theorem Frame.refl (l : Raft n) : Frame server l l := ⟨fun _ _ _ => rfl, fun _ _ _ => rfl⟩

theorem Frame.trans (h : Frame server l l') (h' : Frame server l' l'') (hme : l'.me = l.me) :
    Frame server l l'' where
  next := by
    intro k hk hkm
    rw [h'.next k hk (hme ▸ hkm), h.next k hk hkm]
  matched := by
    intro k hk hkm
    rw [h'.matched k hk (hme ▸ hkm), h.matched k hk hkm]

theorem logUpdate_frame (l : Raft n) : Frame server l l.logUpdate.updateCommiIndex := by
  constructor
  · intro k _ hk
    exact logUpdate_nextIndex hk
  · intro k _ hk
    change l.logUpdate.matchIndex k = l.matchIndex k
    unfold logUpdate
    split
    · rfl
    · split <;> exact assign_ne _ _ hk

theorem clampMatch_frame (rf : Raft n) (server : Fin n) :
    Frame server rf (rf.clampMatch server) := by
  constructor
  · intro k _ _
    rw [clampMatch_nextIndex]
  · intro k hk _
    unfold clampMatch
    split
    · exact assign_ne _ _ hk
    · rfl

theorem appendEntriesReply_frame (rf : Raft n) (server : Fin n) (args : AppendEntriesArgs n)
    (reply : AppendEntriesReply) : Frame server rf (rf.appendEntriesReply server args reply) := by
  unfold appendEntriesReply
  split
  · exact .refl rf
  · split
    · exact ⟨fun _ _ _ => rfl, fun _ _ _ => rfl⟩
    · split
      · dsimp only
        refine Frame.trans ?_ (clampMatch_frame _ server) ?_
        · constructor
          · intro k hk _
            rw [countRead_nextIndex]
            exact assign_ne _ _ hk
          · intro k hk _
            rw [countRead_matchIndex]
            exact assign_ne _ _ hk
        · unfold countRead
          split <;> rfl
      · refine Frame.trans ?_ (clampMatch_frame _ server) rfl
        exact ⟨fun k hk _ => assign_ne _ _ hk, fun _ _ _ => rfl⟩

theorem installSnapshotReply_frame (rf : Raft n) (server : Fin n) (args : InstallSnapshotArgs n)
    (reply : InstallSnapshotReply) :
    Frame server rf (rf.installSnapshotReply server args reply) := by
  unfold installSnapshotReply
  split
  · exact .refl rf
  · split
    · exact ⟨fun _ _ _ => rfl, fun _ _ _ => rfl⟩
    · exact ⟨fun k hk _ => assign_ne _ _ hk, fun k hk _ => assign_ne _ _ hk⟩

theorem appendEntriesReply_commitIndex (rf : Raft n) (server : Fin n)
    (args : AppendEntriesArgs n) (reply : AppendEntriesReply) :
    (rf.appendEntriesReply server args reply).commitIndex = rf.commitIndex := by
  have hclamp (rf : Raft n) : (rf.clampMatch server).commitIndex = rf.commitIndex := by
    unfold clampMatch
    split <;> rfl
  unfold appendEntriesReply
  split
  · rfl
  · split
    · rfl
    · split
      · dsimp only
        rw [hclamp]
        unfold countRead
        split <;> rfl
      · exact hclamp _

theorem installSnapshotReply_commitIndex (rf : Raft n) (server : Fin n)
    (args : InstallSnapshotArgs n) (reply : InstallSnapshotReply) :
    (rf.installSnapshotReply server args reply).commitIndex = rf.commitIndex := by
  unfold installSnapshotReply
  split
  · rfl
  · split <;> rfl

theorem updateCommiIndex_le (h : rf.commitIndex ≤ rf.lastLogIndex) :
    rf.updateCommiIndex.commitIndex ≤ rf.lastLogIndex := by
  rcases commitSearch_spec rf rf.lastLogIndex with he | ⟨-, -, hle, -⟩
  · exact Nat.le_trans (Nat.le_of_eq he) h
  · exact hle

theorem logUpdate_le (h : l.commitIndex ≤ l.lastLogIndex) :
    l.logUpdate.updateCommiIndex.commitIndex ≤ l.lastLogIndex := by
  rw [← l.logUpdate_same.lastLogIndex]
  apply updateCommiIndex_le
  rw [l.logUpdate_same.lastLogIndex]
  rcases l.logUpdate_spec.1 with he | ⟨-, he⟩
  · exact Nat.le_trans (Nat.le_of_eq he) h
  · exact Nat.le_trans (Nat.le_of_eq he) (updateCommiIndex_le h)

theorem commitSearch_done (h : rf.commitIndex = rf.lastLogIndex) :
    rf.commitSearch rf.lastLogIndex = rf.lastLogIndex := by
  rcases commitSearch_spec rf rf.lastLogIndex with he | ⟨hlt, -, hle, -⟩
  · exact he.trans h
  · omega

theorem settled_of_eq (h : l.commitIndex = l.lastLogIndex) : l.Settled := by
  have hlog : l.logUpdate.commitIndex = l.logUpdate.lastLogIndex := by
    rw [l.logUpdate_same.lastLogIndex]
    rcases l.logUpdate_spec.1 with he | ⟨-, he⟩
    · exact he.trans h
    · exact he.trans (commitSearch_done h)
  exact (commitSearch_done hlog).trans l.logUpdate_same.lastLogIndex

theorem Ready.lt (h : Ready l f) : f.lastIncludeIndex < l.lastLogIndex :=
  Nat.lt_of_le_of_lt h.compacted h.applied

theorem Ready.of_same (h : Ready l f) (hs : l.Same l') : Ready l' f where
  applied := hs.lastLogIndex ▸ h.applied
  compacted := h.compacted
  agrees := by
    rw [hs.lastLogIndex, hs.entryTerm, hs.entryCommand]
    exact h.agrees

theorem Ready.of_log (h : Ready l f) (hla : f'.lastApplied = f.lastApplied)
    (hli : f'.lastIncludeIndex = f.lastIncludeIndex) (hlog : f'.log = f.log) : Ready l f' where
  applied := hla ▸ h.applied
  compacted := by
    rw [hla, hli]
    exact h.compacted
  agrees := by
    rw [hli, hlog]
    exact h.agrees

theorem Ready.appendEntries (h : Ready l f) (ha : Asks server l args) :
    Ready l (f.appendEntries args).1 := by
  have hfli : (f.follow args.term).lastIncludeIndex = f.lastIncludeIndex := catchUp_lastIncludeIndex
  have hflog : (f.follow args.term).log = f.log := catchUp_log
  rcases f.appendEntries_cases args with
    ⟨-, he, -⟩ | ⟨-, ⟨he, -⟩ | ⟨hli, hlen, hterm, he, -⟩⟩ <;> rw [he]
  · exact h
  · exact h.of_log catchUp_lastApplied hfli hflog
  · have how := (f.follow args.term).overwrite_spec args
    have hla := how.lastApplied.trans catchUp_lastApplied
    have hli' := how.lastIncludeIndex.trans hfli
    rcases Nat.eq_or_lt_of_le ha.has.2 with heq | hlt
    · have hnil : args.entries = [] := by
        have hlen := ha.length
        exact List.length_eq_zero_iff.1 (by omega)
      have hlog := how.log
      rw [if_pos hnil] at hlog
      exact h.of_log hla hli' (hlog.trans hflog)
    · rw [← hfli] at hli
      rw [← hfli, ← hflog] at hlen hterm
      obtain ⟨-, -, hcmd⟩ := (ha.overwrite hli hlen hterm).2 _ hlt (Nat.le_refl _)
      refine ⟨hla ▸ h.applied, ?_, fun e he _ => ?_⟩
      · rw [hla, hli']
        exact h.compacted
      · rw [← hcmd, Raft.entryCommand, he]
        rfl

theorem getElem?_install (hn : Numbered f.lastIncludeIndex f.log)
    (hlt : f.lastIncludeIndex < args.lastIncludeIndex) (hk : args.lastIncludeIndex < k) :
    ((f.follow args.term).install args).log[k - args.lastIncludeIndex]? =
      f.log[k - f.lastIncludeIndex]? := by
  rw [← getElem?_compacted hn (Nat.le_of_lt hlt) hk]
  exact congrArg (fun log => (Raft.compacted log _ _)[_]?) catchUp_log

theorem entryTerm_install (hn : Numbered f.lastIncludeIndex f.log)
    (hlt : f.lastIncludeIndex < args.lastIncludeIndex) (hk : args.lastIncludeIndex < k) :
    ((f.follow args.term).install args).entryTerm k = f.entryTerm k :=
  congrArg (fun o => (o.map LogEntry.term).getD 0) (getElem?_install hn hlt hk)

theorem entryCommand_install (hn : Numbered f.lastIncludeIndex f.log)
    (hlt : f.lastIncludeIndex < args.lastIncludeIndex) (hk : args.lastIncludeIndex < k) :
    ((f.follow args.term).install args).entryCommand k = f.entryCommand k :=
  congrArg (Option.map LogEntry.command) (getElem?_install hn hlt hk)

theorem lastLogIndex_install (h : f.Contiguous)
    (hlt : f.lastIncludeIndex < args.lastIncludeIndex) :
    ((f.follow args.term).install args).lastLogIndex = max f.lastLogIndex args.lastIncludeIndex :=
  lastLogIndex_compact h.numbered h.log (Nat.le_of_lt hlt) rfl
    (congrArg (Raft.compacted · _ args.lastIncludeTerm) catchUp_log)

theorem Ready.installSnapshot (h : Ready l f) (hn : Numbered f.lastIncludeIndex f.log)
    (hlt : args.lastIncludeIndex < l.lastLogIndex) : Ready l (f.installSnapshot args).1 := by
  rcases f.installSnapshot_cases args with ⟨-, he, -⟩ | ⟨-, ⟨-, he, -⟩ | ⟨hli, he, -⟩⟩ <;> rw [he]
  · exact h
  · exact h.of_log catchUp_lastApplied catchUp_lastIncludeIndex catchUp_log
  · have hla : ((f.follow args.term).install args).lastApplied =
        max f.lastApplied args.lastIncludeIndex :=
      congrArg (max · args.lastIncludeIndex) catchUp_lastApplied
    have hslot := getElem?_install hn hli hlt
    refine ⟨?_, ?_, fun e he => h.agrees e (hslot.symm.trans he)⟩
    · rw [hla]
      exact Nat.max_lt.2 ⟨h.applied, hlt⟩
    · rw [hla]
      exact Nat.le_max_right _ _

theorem AgreeTo.mono (h : AgreeTo index l f) (hle : i ≤ index) : AgreeTo i l f :=
  fun k hk => h k (Nat.le_trans hk hle)

theorem AgreeTo.matches (h : AgreeTo l.lastLogIndex l f) : Matches l f :=
  fun _ hl _ _ => h.mono hl.2

theorem AgreeTo.of_same (h : AgreeTo index l f) (hs : l.Same l') : AgreeTo index l' f := by
  unfold AgreeTo Has
  rw [hs.lastIncludeIndex, hs.lastLogIndex, hs.entryTerm, hs.entryCommand]
  exact h

theorem Matches.of_same (h : Matches l f) (hs : l.Same l') : Matches l' f := by
  intro i hi hf ht
  rw [Has, hs.lastIncludeIndex, hs.lastLogIndex] at hi
  rw [hs.entryTerm] at ht
  exact (h i hi hf ht).of_same hs

theorem Matches.of_log (h : Matches l f) (hli : f'.lastIncludeIndex = f.lastIncludeIndex)
    (hlog : f'.log = f.log) : Matches l f' := by
  unfold Matches AgreeTo Has Raft.entryTerm Raft.entryCommand Raft.lastLogIndex
  rw [hli, hlog]
  exact h

/-- The entries up to `PrevLogIndex` stay, and those above are the leader's. -/
theorem Asks.agreeTo (ha : Asks server l args) (h : Matches l f)
    (hli : f.lastIncludeIndex ≤ args.prevLogIndex)
    (hlen : args.prevLogIndex - f.lastIncludeIndex < f.log.length)
    (hterm : f.entryTerm args.prevLogIndex = args.prevLogTerm) :
    AgreeTo l.lastLogIndex l (f.overwrite args) := by
  have hboundary := (f.overwrite_spec args).lastIncludeIndex
  have hprev : f.Has args.prevLogIndex := by
    refine ⟨hli, ?_⟩
    unfold Raft.lastLogIndex
    omega
  intro k hk hl hf
  rcases Nat.lt_or_ge args.prevLogIndex k with hlt | hge
  · obtain ⟨-, ht, hc⟩ := (ha.overwrite hli hlen hterm).2 k hlt hk
    exact ⟨ht, fun _ _ => hc⟩
  · have hslot := getElem?_overwrite hli hlen k
    rw [if_pos (.inr hge)] at hslot
    have hold := h _ ha.has hprev (hterm.trans ha.prevLogTerm) k hge hl
      ⟨hboundary ▸ hf.1, Nat.le_trans hge hprev.2⟩
    rw [Raft.entryTerm, Raft.entryCommand, termOf, hboundary, hslot]
    exact hold

theorem Matches.appendEntries (h : Matches l f) (ha : Asks server l args) :
    Matches l (f.appendEntries args).1 := by
  have hfli : (f.follow args.term).lastIncludeIndex = f.lastIncludeIndex := catchUp_lastIncludeIndex
  have hflog : (f.follow args.term).log = f.log := catchUp_log
  rcases f.appendEntries_cases args with
    ⟨-, he, -⟩ | ⟨-, ⟨he, -⟩ | ⟨hli, hlen, hterm, he, -⟩⟩ <;> rw [he]
  · exact h
  · exact h.of_log hfli hflog
  · rw [← hfli] at hli
    rw [← hfli, ← hflog] at hlen hterm
    exact (ha.agreeTo (h.of_log hfli hflog) hli hlen hterm).matches

theorem Matches.installSnapshot (h : Matches l f) (hl : l.WellFormed) (hf : f.WellFormed)
    (hli : args.lastIncludeIndex = l.lastIncludeIndex)
    (hlt : args.lastIncludeTerm = l.lastIncludeTerm) : Matches l (f.installSnapshot args).1 := by
  rcases f.installSnapshot_cases args with ⟨-, he, -⟩ | ⟨-, ⟨-, he, -⟩ | ⟨hgt, he, -⟩⟩ <;> rw [he]
  · exact h
  · exact h.of_log catchUp_lastIncludeIndex catchUp_log
  · have hhas {k : Nat} (hk : args.lastIncludeIndex < k)
        (hin : ((f.follow args.term).install args).Has k) : f.Has k := by
      have hlast := hin.2
      rw [lastLogIndex_install hf.toContiguous hgt] at hlast
      exact ⟨by omega, by omega⟩
    intro i hi hin ht k hk hlk hfk
    rcases Nat.eq_or_lt_of_le hfk.1 with heq | hgt'
    · have hk : k = l.lastIncludeIndex := heq.symm.trans hli
      refine ⟨?_, fun hlt' => absurd hlt' (by omega)⟩
      rw [Raft.entryTerm, Raft.entryTerm, heq, hk, Nat.sub_self, hl.termOf_zero, ← hlt]
      rfl
    · have hi' := Nat.lt_of_lt_of_le hgt' hk
      rw [entryTerm_install hf.numbered hgt hi'] at ht
      obtain ⟨htk, hck⟩ := h i hi (hhas hi' hin) ht k hk hlk (hhas hgt' hfk)
      rw [entryTerm_install hf.numbered hgt hgt', entryCommand_install hf.numbered hgt hgt']
      exact ⟨htk, fun hlk' _ => hck hlk' (Nat.lt_trans hgt hgt')⟩

theorem Round.of_commit (hs : l.Same l') (hb : Behind server l' f') (hf : Frame server l l')
    (hc : l'.commitIndex = l.logUpdate.updateCommiIndex.commitIndex)
    (hla : l'.lastApplied = l.lastApplied)
    (hr : l.lastIncludeIndex < l.lastLogIndex → Ready l f → Ready l f')
    (hm : Matches l f → Matches l f') : Round server l f l' f' where
  same := hs
  applied := hla
  behind := hb
  frame := hf
  bound := fun h => hc ▸ logUpdate_le h
  settled := fun h => hc.trans h
  ready := fun hlt h => (hr hlt h).of_same hs
  logs := fun h => (hm h).of_same hs

theorem Round.trans (h : Round server l f l' f') (h' : Round server l' f' l'' f'') :
    Round server l f l'' f'' where
  same := h.same.trans h'.same
  applied := h'.applied.trans h.applied
  behind := h'.behind
  frame := h.frame.trans h'.frame h.same.me
  bound := by
    intro hle
    rw [← h.same.lastLogIndex]
    apply h'.bound
    rw [h.same.lastLogIndex]
    exact h.bound hle
  settled := by
    intro hset
    rw [← h.same.lastLogIndex]
    apply h'.settled
    apply settled_of_eq
    rw [h.same.lastLogIndex]
    exact h.settled hset
  ready := by
    intro hlt hr
    apply h'.ready _ (h.ready hlt hr)
    rw [h.same.lastIncludeIndex, h.same.lastLogIndex]
    exact hlt
  logs := fun hm => h'.logs (h.logs hm)

theorem CaughtUp.caught (h : CaughtUp server l l' f' args) (hs : l.Same l') :
    Caught server l' f' := by
  have hlast : f'.Has l.lastLogIndex ∧
      f'.entryTerm l.lastLogIndex = l.entryTerm l.lastLogIndex := by
    obtain ⟨⟨-, hle⟩, hhas, hterm⟩ := h.prev
    rcases Nat.eq_or_lt_of_le hle with heq | hlt
    · rw [← heq]
      exact ⟨hhas, hterm⟩
    · obtain ⟨hhas, hterm, -⟩ := h.above _ hlt (Nat.le_refl _)
      exact ⟨hhas, hterm⟩
  refine ⟨?_, ?_, ?_⟩
  · rw [h.matchIndex, hs.lastLogIndex]
  · rw [hs.lastLogIndex]
    exact hlast.1
  · rw [hs.lastLogIndex, hs.entryTerm]
    exact hlast.2

theorem appendEntriesReply_next (hl : rf.state = .leader) (ht : args.term = rf.currentTerm)
    (hr : reply.term ≤ rf.currentTerm) (hs : reply.success = true) :
    (rf.appendEntriesReply server args reply).nextIndex server =
      args.prevLogIndex + args.entries.length + 1 := by
  unfold appendEntriesReply
  rw [if_neg (not_or.2 ⟨not_not.2 hl, not_not.2 ht⟩), if_neg (Nat.not_lt.2 hr), if_pos hs]
  dsimp only
  rw [clampMatch_nextIndex, countRead_nextIndex]
  exact assign_self _ _ _

theorem Behind.exchange_append (h : Behind server l f)
    (hi : l.lastIncludeIndex < l.nextIndex server) (hx : exchange server l f = (l', f', o)) :
    let args := l.logUpdate.appendRequest server
    l' = l.logUpdate.updateCommiIndex.appendEntriesReply server args (f.appendEntries args).2 ∧
      f' = (f.appendEntries args).1 ∧ o = if (f.appendEntries args).2.success then some args
        else none := by
  have hl := h.logUpdate
  have hi' : l.logUpdate.lastIncludeIndex < l.logUpdate.nextIndex server := by
    rw [l.logUpdate_same.lastIncludeIndex, logUpdate_nextIndex h.other]
    exact hi
  unfold Raft.exchange at hx
  rw [replicate_append hl.leader hi' hl.next hl.leaderLog.log] at hx
  cases hx
  exact ⟨rfl, rfl, rfl⟩

theorem Behind.after (h : Behind server l f) (ha : Asks server l args) (hargs : args.WellFormed)
    (hs : l.Same l') (hok : (f.appendEntries args).2.success = true)
    (hnext : l'.nextIndex server ≤ l.lastLogIndex + 1)
    (hhas : (f.appendEntries args).1.Has l.lastLogIndex) :
    Behind server l' (f.appendEntries args).1 ∧
      (args.leaderCommit ≤ l.lastLogIndex →
        args.leaderCommit ≤ (f.appendEntries args).1.commitIndex) := by
  have hwell := h.followerLog.appendEntries hargs
  rcases f.appendEntries_cases args with ⟨hlt, -⟩ | ⟨-, ⟨-, hno⟩ | ⟨-, -, -, he, -⟩⟩
  · exact absurd hlt (h.current ha)
  · rw [hno] at hok
    cases hok
  · rw [he] at hwell hhas ⊢
    have hover := (f.follow args.term).overwrite_spec args
    have hct : (f.follow args.term).currentTerm = f.currentTerm :=
      (catchUp_term (h.current ha)).trans (ha.term.trans h.term.symm)
    have hli : ((f.follow args.term).overwrite args).lastIncludeIndex = f.lastIncludeIndex :=
      hover.lastIncludeIndex.trans catchUp_lastIncludeIndex
    have hlt : ((f.follow args.term).overwrite args).lastIncludeTerm = f.lastIncludeTerm :=
      hover.lastIncludeTerm.trans catchUp_lastIncludeTerm
    refine ⟨⟨hs.state.trans h.leader, hs.me ▸ h.other, ?_, h.leaderLog.of_image hs.image, hwell,
      ?_, ?_, hs.lastLogIndex ▸ hnext⟩, fun hle => ?_⟩
    · rw [hover.currentTerm, hct, h.term, hs.currentTerm]
    · rw [hli, hs.lastLogIndex]
      exact h.reach
    · rw [hli, hlt, hs.lastIncludeIndex, hs.entryTerm]
      exact h.boundary
    · rw [hover.commitIndex]
      have hlast := hhas.2
      split <;> omega

theorem Behind.exchange_install (h : Behind server l f)
    (hi : l.nextIndex server ≤ l.lastIncludeIndex) (hx : exchange server l f = (l', f', o)) :
    let args := l.logUpdate.snapshotRequest
    l' = l.logUpdate.updateCommiIndex.installSnapshotReply server args
        (f.installSnapshot args).2.1 ∧
      f' = (f.installSnapshot args).1 ∧ o = none := by
  have hi' : l.logUpdate.nextIndex server ≤ l.logUpdate.lastIncludeIndex := by
    rw [l.logUpdate_same.lastIncludeIndex, logUpdate_nextIndex h.other]
    exact hi
  unfold Raft.exchange at hx
  rw [replicate_install h.logUpdate.leader hi'] at hx
  cases hx
  exact ⟨rfl, rfl, rfl⟩

theorem Behind.appendRequest_wellFormed (h : Behind server l f)
    (hi : l.lastIncludeIndex < l.nextIndex server) :
    (l.logUpdate.appendRequest server).WellFormed := by
  have hl := h.logUpdate
  have hi' : l.logUpdate.lastIncludeIndex < l.logUpdate.nextIndex server := by
    rw [l.logUpdate_same.lastIncludeIndex, logUpdate_nextIndex h.other]
    exact hi
  have hcall := congrArg Prod.snd (replicate_append hl.leader hi' hl.next hl.leaderLog.log)
  exact ⟨hl.leaderLog.toContiguous.replicate hcall, hl.leaderLog.replicate hcall⟩

theorem Behind.round_append (h : Behind server l f)
    (hi : l.lastIncludeIndex < l.nextIndex server) (hx : exchange server l f = (l', f', o)) :
    Round server l f l' f' ∧ ∀ args, o = some args → CaughtUp server l l' f' args ∧
      (l'.commitIndex ≤ l.lastLogIndex → l'.commitIndex ≤ f'.commitIndex) := by
  have hup := l.logUpdate_same.trans l.logUpdate.updateCommiIndex_same
  have ha := h.asks hi
  obtain ⟨hl', hf', ho⟩ := h.exchange_append hi hx
  have hcommit : l'.commitIndex = l.logUpdate.updateCommiIndex.commitIndex :=
    hl' ▸ appendEntriesReply_commitIndex _ _ _ _
  have hround (hs : l.Same l') (hb : Behind server l' f') : Round server l f l' f' := by
    refine .of_commit hs hb ?_ hcommit ?_ (fun _ hr => ?_) fun hm => ?_
    · exact hl' ▸ l.logUpdate_frame.trans (appendEntriesReply_frame _ _ _ _) hup.me
    · rw [hl', (appendEntriesReply_indices _ _ _ _).lastApplied]
      exact l.logUpdate_lastApplied
    · exact hf' ▸ hr.appendEntries ha
    · exact hf' ▸ hm.appendEntries ha
  cases o with
  | none =>
    obtain ⟨hb, hs, -⟩ := h.refused hi hx
    refine ⟨hround hs hb, fun args ho => ?_⟩
    cases ho
  | some args =>
    have hcaught := h.accepted hi hx
    have hs : l.Same l' := hl' ▸ h.same (l.logUpdate.appendRequest server)
    have hok : (f.appendEntries (l.logUpdate.appendRequest server)).2.success = true := by
      by_contra hno
      rw [if_neg hno] at ho
      cases ho
    have hnext : l'.nextIndex server ≤ l.lastLogIndex + 1 := by
      rw [hl', appendEntriesReply_next (hup.state.trans h.leader) _ _ hok, ha.length]
      · rw [ha.term, hup.currentTerm]
      · rw [appendEntries_term, hup.currentTerm, h.term]
    have hhas := (hcaught.caught hs).has
    rw [hs.lastLogIndex, hf'] at hhas
    obtain ⟨hb, htold⟩ := h.after ha (h.appendRequest_wellFormed hi) hs hok hnext hhas
    rw [← hf'] at hb htold
    refine ⟨hround hs hb, fun args' ho' => ?_⟩
    cases ho'
    rw [hcommit]
    exact ⟨hcaught, htold⟩

theorem Behind.round_install (h : Behind server l f)
    (hi : l.nextIndex server ≤ l.lastIncludeIndex) (hx : exchange server l f = (l', f', o)) :
    Round server l f l' f' := by
  have hup := l.logUpdate_same.trans l.logUpdate.updateCommiIndex_same
  obtain ⟨-, hb, hs, -⟩ := h.install hi hx
  obtain ⟨hl', hf', -⟩ := h.exchange_install hi hx
  refine .of_commit hs hb ?_ ?_ ?_ (fun hlt hr => ?_) fun hm => ?_
  · exact hl' ▸ l.logUpdate_frame.trans (installSnapshotReply_frame _ _ _ _) hup.me
  · exact hl' ▸ installSnapshotReply_commitIndex _ _ _ _
  · rw [hl', (installSnapshotReply_indices _ _ _ _).lastApplied]
    exact l.logUpdate_lastApplied
  · rw [hf']
    apply hr.installSnapshot h.followerLog.numbered
    exact Nat.lt_of_le_of_lt (Nat.le_of_eq l.logUpdate_same.lastIncludeIndex) hlt
  · rw [hf']
    exact hm.installSnapshot h.leaderLog h.followerLog l.logUpdate_same.lastIncludeIndex
      l.logUpdate_same.lastIncludeTerm

/-- One round. The peer that accepts a request hears what is committed. -/
theorem Behind.exchange (h : Behind server l f) (hx : exchange server l f = (l', f', o)) :
    Round server l f l' f' ∧ ∀ args, o = some args → CaughtUp server l l' f' args ∧
      (l'.commitIndex ≤ l.lastLogIndex → l'.commitIndex ≤ f'.commitIndex) := by
  rcases Nat.lt_or_ge l.lastIncludeIndex (l.nextIndex server) with hi | hi
  · exact h.round_append hi hx
  · refine ⟨h.round_install hi hx, fun args ho => ?_⟩
    rw [(h.exchange_install hi hx).2.2] at ho
    cases ho

theorem Behind.exchanges (h : Behind server l f)
    (hx : exchanges server m l f = some (l', f', args)) :
    Round server l f l' f' ∧ CaughtUp server l l' f' args ∧
      (l'.commitIndex ≤ l.lastLogIndex → l'.commitIndex ≤ f'.commitIndex) := by
  induction m generalizing l f with
  | zero => cases hx
  | succ m ih =>
    obtain ⟨l₁, f₁, o, h₁⟩ : ∃ l₁ f₁ o, Raft.exchange server l f = (l₁, f₁, o) := ⟨_, _, _, rfl⟩
    obtain ⟨hround, hsome⟩ := h.exchange h₁
    rw [Raft.exchanges, h₁] at hx
    cases o with
    | some args₁ =>
      cases hx
      exact ⟨hround, hsome _ rfl⟩
    | none =>
      obtain ⟨hrest, hcaught, htold⟩ := ih hround.behind hx
      rw [hround.same.lastLogIndex] at htold
      exact ⟨hround.trans hrest, hcaught.of_same hround.same, htold⟩

/-- The peers of the list, each of them once, have accepted the leader's log, and the others are
where they were. -/
structure Reached (js : List (Fin n)) (l : Raft n) (fs : Fin n → Raft n) (l' : Raft n)
    (fs' : Fin n → Raft n) : Prop where
  same : l.Same l'
  applied : l'.lastApplied = l.lastApplied
  next : ∀ k, k ∉ js → k ≠ l.me → l'.nextIndex k = l.nextIndex k
  matched : ∀ k, k ∉ js → k ≠ l.me → l'.matchIndex k = l.matchIndex k
  others : ∀ k, k ∉ js → fs' k = fs k
  peers : ∀ j ∈ js, Behind j l' (fs' j) ∧ Caught j l' (fs' j)
  bound : l.commitIndex ≤ l.lastLogIndex → l'.commitIndex ≤ l.lastLogIndex
  kept : l.commitIndex = l.lastLogIndex → l'.commitIndex = l.lastLogIndex
  settled : l.Settled → js ≠ [] → l'.commitIndex = l.lastLogIndex
  heard : l.Settled → ∀ j ∈ js, l.lastLogIndex ≤ (fs' j).commitIndex
  ready : l.lastIncludeIndex < l.lastLogIndex → ∀ j ∈ js, Ready l (fs j) → Ready l' (fs' j)
  logs : ∀ j ∈ js, Matches l (fs j) → Matches l' (fs' j)

variable {js : List (Fin n)} {fs fs' : Fin n → Raft n}

theorem Behind.other_peer (h : Behind server l f) (hs : l.Same l')
    (hn : l'.nextIndex server = l.nextIndex server) : Behind server l' f :=
  h.keep hs rfl rfl rfl rfl (hn ▸ h.next)

theorem Caught.other_peer (h : Caught server l f) (hs : l.Same l')
    (hm : l'.matchIndex server = l.matchIndex server) : Caught server l' f where
  matched := by rw [hm, h.matched, hs.lastLogIndex]
  has := hs.lastLogIndex ▸ h.has
  term := by
    rw [hs.lastLogIndex, hs.entryTerm]
    exact h.term

theorem Reached.cons (hj : j ∉ js) (hr : Round j l (fs j) l₁ f₁) (hc : Caught j l₁ f₁)
    (hh : l₁.commitIndex ≤ l.lastLogIndex → l₁.commitIndex ≤ f₁.commitIndex)
    (h : Reached js l₁ (assign fs j f₁) l' fs') : Reached (j :: js) l fs l' fs' := by
  have hlast := hr.same.lastLogIndex
  have hself : fs' j = f₁ := (h.others j hj).trans (assign_self _ _ _)
  have hme : j ≠ l₁.me := hr.behind.other
  have hdone (hset : l.Settled) : l₁.commitIndex = l₁.lastLogIndex := by
    rw [hlast]
    exact hr.settled hset
  constructor
  · exact hr.same.trans h.same
  · exact h.applied.trans hr.applied
  · intro k hk hkm
    obtain ⟨hkj, hk⟩ := not_or.1 (mt List.mem_cons.2 hk)
    rw [h.next k hk (hr.same.me ▸ hkm), hr.frame.next k hkj hkm]
  · intro k hk hkm
    obtain ⟨hkj, hk⟩ := not_or.1 (mt List.mem_cons.2 hk)
    rw [h.matched k hk (hr.same.me ▸ hkm), hr.frame.matched k hkj hkm]
  · intro k hk
    obtain ⟨hkj, hk⟩ := not_or.1 (mt List.mem_cons.2 hk)
    rw [h.others k hk, assign_ne _ _ hkj]
  · intro k hk
    rcases List.mem_cons.1 hk with rfl | hk
    · rw [hself]
      exact ⟨hr.behind.other_peer h.same (h.next k hj hme),
        hc.other_peer h.same (h.matched k hj hme)⟩
    · exact h.peers k hk
  · intro hle
    rw [← hlast]
    apply h.bound
    rw [hlast]
    exact hr.bound hle
  · intro heq
    rw [← hlast]
    exact h.kept (hdone (settled_of_eq heq))
  · intro hset _
    rw [← hlast]
    exact h.kept (hdone hset)
  · intro hset k hk
    rcases List.mem_cons.1 hk with rfl | hk
    · rw [hself, ← hr.settled hset]
      exact hh (Nat.le_of_eq (hr.settled hset))
    · rw [← hlast]
      exact h.heard (settled_of_eq (hdone hset)) k hk
  · intro hlt k hk hready
    have hlt₁ : l₁.lastIncludeIndex < l₁.lastLogIndex := by
      rw [hlast, hr.same.lastIncludeIndex]
      exact hlt
    rcases List.mem_cons.1 hk with rfl | hks
    · rw [hself]
      exact (hr.ready hlt hready).of_same h.same
    · apply h.ready hlt₁ k hks
      rw [assign_ne _ _ (ne_of_mem_of_not_mem hks hj)]
      exact hready.of_same hr.same
  · intro k hk hm
    rcases List.mem_cons.1 hk with rfl | hks
    · rw [hself]
      exact (hr.logs hm).of_same h.same
    · apply h.logs k hks
      rw [assign_ne _ _ (ne_of_mem_of_not_mem hks hj)]
      exact hm.of_same hr.same

theorem Round.others (hr : Round j l (fs j) l₁ f₁) (hj : j ∉ js)
    (hb : ∀ k ∈ js, Behind k l (fs k)) : ∀ k ∈ js, Behind k l₁ (assign fs j f₁ k) := by
  intro k hk
  have hkj := ne_of_mem_of_not_mem hk hj
  rw [assign_ne _ _ hkj]
  exact (hb k hk).other_peer hr.same (hr.frame.next k hkj (hb k hk).other)

end

end Raft

end LinKV

import LinKV.Raft.Compaction

namespace LinKV
set_option autoImplicit true

namespace Raft

/-- One round of `logUpdate` for one peer, with the request answered at once: the leader sends a
snapshot or entries, the follower handles them and the leader takes the reply. The last component
is the request if the follower accepted it. -/
def exchange (server : Fin n) (leader follower : Raft n) :
    Raft n × Raft n × Option (AppendEntriesArgs n) :=
  match leader.logUpdate.replicate server with
  | (leader, some (.appendEntries args _)) =>
    let handled := follower.appendEntries args
    (leader.appendEntriesReply server args handled.2, handled.1,
      if handled.2.success then some args else none)
  | (leader, some (.installSnapshot args _)) =>
    let handled := follower.installSnapshot args
    (leader.installSnapshotReply server args handled.2.1, handled.1, none)
  | (leader, _) => (leader, follower, none)

/-- Rounds until the follower accepts a request, at most `m` of them. -/
def exchanges (server : Fin n) : Nat → Raft n → Raft n →
    Option (Raft n × Raft n × AppendEntriesArgs n)
  | 0, _, _ => none
  | m + 1, leader, follower =>
    match exchange server leader follower with
    | (leader, follower, some args) => some (leader, follower, args)
    | (leader, follower, none) => exchanges server m leader follower

/-- A leader and a follower of one term. What the follower has compacted is in the leader's log,
with the same term unless the leader has compacted it as well. -/
structure Behind (server : Fin n) (l f : Raft n) : Prop where
  leader : l.state = .leader
  other : server ≠ l.me
  term : f.currentTerm = l.currentTerm
  leaderLog : l.WellFormed
  followerLog : f.WellFormed
  reach : f.lastIncludeIndex ≤ l.lastLogIndex
  boundary : l.lastIncludeIndex ≤ f.lastIncludeIndex →
    l.entryTerm f.lastIncludeIndex = f.lastIncludeTerm
  next : l.nextIndex server ≤ l.lastLogIndex + 1

/-- The leader `l` has become `l'` and knows that the follower holds its log, from the entry the
accepted request was checked at to the last one. -/
structure CaughtUp (server : Fin n) (l l' f' : Raft n) (args : AppendEntriesArgs n) : Prop where
  image : l'.image = l.image
  matchIndex : l'.matchIndex server = l.lastLogIndex
  prev : l.Has args.prevLogIndex ∧ f'.Has args.prevLogIndex ∧
    f'.entryTerm args.prevLogIndex = l.entryTerm args.prevLogIndex
  above : ∀ k, args.prevLogIndex < k → k ≤ l.lastLogIndex → f'.Has k ∧
    f'.entryTerm k = l.entryTerm k ∧ f'.entryCommand k = l.entryCommand k

section

variable {l l' f f' rf : Raft n} {server : Fin n}

theorem conflictStart_le (log : List LogEntry) (t k : Nat) : conflictStart log t k ≤ k := by
  induction k with
  | zero => exact Nat.le_refl 0
  | succ k ih =>
    unfold conflictStart
    split
    · exact Nat.le_succ_of_le ih
    · exact Nat.le_refl _

theorem appendEntries_conflict (ht : ¬ args.term < rf.currentTerm) (hne : rf.log ≠ [])
    (hs : (rf.appendEntries args).2.success = false) :
    (args.prevLogIndex < rf.lastIncludeIndex ∧
      (rf.appendEntries args).2.conflictIndex = rf.lastIncludeIndex + 1) ∨
    (rf.lastLogIndex < args.prevLogIndex ∧
      (rf.appendEntries args).2.conflictIndex = rf.lastLogIndex + 1) ∨
    (rf.lastIncludeIndex ≤ args.prevLogIndex ∧ args.prevLogIndex ≤ rf.lastLogIndex ∧
      rf.entryTerm args.prevLogIndex ≠ args.prevLogTerm ∧
      (rf.appendEntries args).2.conflictIndex ≤ args.prevLogIndex) := by
  have hlog : (rf.follow args.term).log = rf.log := catchUp_log
  have hli : (rf.follow args.term).lastIncludeIndex = rf.lastIncludeIndex :=
    catchUp_lastIncludeIndex
  have hpos := List.length_pos_iff.2 hne
  unfold appendEntries at hs ⊢
  rw [if_neg ht] at hs ⊢
  simp only [hlog, hli] at hs ⊢
  split
  · exact .inl ⟨‹_›, rfl⟩
  · next hge =>
    rw [if_neg hge] at hs
    have hlast : rf.lastLogIndex + 1 = rf.log.length + rf.lastIncludeIndex := by
      unfold Raft.lastLogIndex
      omega
    split
    · exact .inr (.inl ⟨by omega, hlast.symm⟩)
    · next hlen =>
      rw [if_neg hlen] at hs
      split
      · next hne' =>
        have hle := conflictStart_le rf.log
          (termOf rf.log (args.prevLogIndex - rf.lastIncludeIndex))
          (args.prevLogIndex - rf.lastIncludeIndex)
        refine .inr (.inr ⟨by omega, by omega, hne', ?_⟩)
        simp only
        omega
      · next heq =>
        rw [if_neg heq] at hs
        cases hs

theorem updateCommiIndex_same (rf : Raft n) : rf.Same rf.updateCommiIndex := ⟨rfl, rfl, rfl, rfl⟩

theorem logUpdate_nextIndex (h : server ≠ rf.me) :
    rf.logUpdate.nextIndex server = rf.nextIndex server := by
  unfold logUpdate
  split
  · rfl
  · split <;> exact assign_ne _ _ h

def snapshotRequest (rf : Raft n) : InstallSnapshotArgs n where
  term := rf.currentTerm
  leaderId := rf.me
  lastIncludeIndex := rf.lastIncludeIndex
  lastIncludeTerm := rf.lastIncludeTerm
  data := rf.snapshot

theorem replicate_install (hl : rf.state = .leader)
    (hi : rf.nextIndex server ≤ rf.lastIncludeIndex) :
    rf.replicate server =
      (rf.updateCommiIndex, some (.installSnapshot rf.snapshotRequest none)) := by
  unfold replicate
  rw [if_neg (not_not.2 hl)]
  exact if_pos hi

def appendRequest (rf : Raft n) (server : Fin n) : AppendEntriesArgs n where
  term := rf.currentTerm
  leaderId := rf.me
  prevLogIndex := rf.nextIndex server - 1
  prevLogTerm := rf.entryTerm (rf.nextIndex server - 1)
  entries := if rf.lastLogIndex < rf.nextIndex server then []
    else rf.log.drop (rf.nextIndex server - rf.lastIncludeIndex)
  leaderCommit := rf.updateCommiIndex.commitIndex

theorem replicate_append (hl : rf.state = .leader) (hi : rf.lastIncludeIndex < rf.nextIndex server)
    (hle : rf.nextIndex server ≤ rf.lastLogIndex + 1) (hne : rf.log ≠ []) :
    rf.replicate server =
      (rf.updateCommiIndex, some (.appendEntries (rf.appendRequest server) none)) := by
  have hpos := List.length_pos_iff.2 hne
  have hlen : ¬ rf.log.length ≤ rf.nextIndex server - 1 - rf.lastIncludeIndex := by
    unfold Raft.lastLogIndex at hle
    omega
  unfold replicate
  rw [if_neg (not_not.2 hl)]
  exact (if_neg (Nat.not_le.2 hi)).trans (if_neg hlen)

theorem clampMatch_nextIndex (rf : Raft n) (server : Fin n) :
    (rf.clampMatch server).nextIndex = rf.nextIndex := by
  unfold clampMatch
  split <;> rfl

theorem appendEntriesReply_refused (hl : rf.state = .leader) (ht : args.term = rf.currentTerm)
    (hr : reply.term ≤ rf.currentTerm) (hs : reply.success = false) :
    (rf.appendEntriesReply server args reply).nextIndex server = reply.conflictIndex := by
  rw [appendEntriesReply_rejected hl ht hr hs, clampMatch_nextIndex]
  exact assign_self _ _ _

theorem Same.entryTerm (h : Same l l') : l'.entryTerm = l.entryTerm := by
  funext k
  unfold Raft.entryTerm
  rw [h.log, h.lastIncludeIndex]

theorem Same.entryCommand (h : Same l l') : l'.entryCommand = l.entryCommand := by
  funext k
  unfold Raft.entryCommand
  rw [h.log, h.lastIncludeIndex]

theorem Behind.keep (h : Behind server l f) (hl : l.Same l') (hct : f'.currentTerm = f.currentTerm)
    (hlog : f'.log = f.log) (hli : f'.lastIncludeIndex = f.lastIncludeIndex)
    (hlt : f'.lastIncludeTerm = f.lastIncludeTerm)
    (hnext : l'.nextIndex server ≤ l.lastLogIndex + 1) : Behind server l' f' where
  leader := hl.state.trans h.leader
  other := hl.me ▸ h.other
  term := by rw [hct, h.term, hl.currentTerm]
  leaderLog := h.leaderLog.of_image hl.image
  followerLog := h.followerLog.raise hlog hli hlt (Nat.le_of_eq hct.symm)
  reach := by
    rw [hli, hl.lastLogIndex]
    exact h.reach
  boundary := by
    rw [hli, hlt, hl.lastIncludeIndex, hl.entryTerm]
    exact h.boundary
  next := hl.lastLogIndex ▸ hnext

theorem Behind.logUpdate (h : Behind server l f) : Behind server l.logUpdate f :=
  h.keep l.logUpdate_same rfl rfl rfl rfl (logUpdate_nextIndex h.other ▸ h.next)

theorem installSnapshot_term (rf : Raft n) (args : InstallSnapshotArgs n) :
    (rf.installSnapshot args).2.1.term = rf.currentTerm := by
  unfold installSnapshot
  split
  · rfl
  · simp only
    split <;> rfl

theorem installSnapshotReply_moves (server : Fin n) (hl : rf.state = .leader)
    (ht : args.term = rf.currentTerm) (hr : reply.term = rf.currentTerm) :
    rf.Same (rf.installSnapshotReply server args reply) ∧
      (rf.installSnapshotReply server args reply).nextIndex server = rf.lastIncludeIndex + 1 := by
  unfold installSnapshotReply
  rw [if_neg (not_or.2 ⟨not_not.2 hl, not_not.2 ht.symm⟩), if_neg (by omega)]
  exact ⟨⟨rfl, rfl, rfl, rfl⟩, assign_self _ _ _⟩

theorem Behind.installSnapshot (h : Behind server l f) (hl : l.Same l')
    (ht : args.term = l.currentTerm) (hli : args.lastIncludeIndex = l.lastIncludeIndex)
    (hlt : args.lastIncludeTerm = l.lastIncludeTerm)
    (hnext : l'.nextIndex server = l.lastIncludeIndex + 1) :
    Behind server l' (f.installSnapshot args).1 ∧
      l.lastIncludeIndex ≤ (f.installSnapshot args).1.lastIncludeIndex := by
  have hle := h.leaderLog.le
  have hcur : ¬ args.term < f.currentTerm := by
    rw [ht, h.term]
    exact Nat.lt_irrefl _
  have hct : (f.follow args.term).currentTerm = f.currentTerm :=
    (catchUp_term hcur).trans (ht.trans h.term.symm)
  have hfli : (f.follow args.term).lastIncludeIndex = f.lastIncludeIndex := catchUp_lastIncludeIndex
  have hwell : (f.installSnapshot args).1.WellFormed := by
    apply h.followerLog.installSnapshot
    rw [hlt, ht, ← h.leaderLog.termOf_zero]
    exact h.leaderLog.terms.termOf_le 0
  rcases f.installSnapshot_cases args with ⟨hstale, _⟩ | ⟨_, ⟨hge, he, _⟩ | ⟨_, he, _⟩⟩
  · exact absurd hstale hcur
  · rw [he]
    refine ⟨h.keep hl hct catchUp_log hfli catchUp_lastIncludeTerm (by omega), ?_⟩
    rw [hfli, ← hli]
    exact hge
  · rw [he] at hwell ⊢
    have hbound : ((f.follow args.term).install args).lastIncludeIndex = l.lastIncludeIndex := hli
    have hboundTerm : ((f.follow args.term).install args).lastIncludeTerm = l.lastIncludeTerm := hlt
    refine ⟨?_, Nat.le_of_eq hbound.symm⟩
    constructor
    · exact hl.state.trans h.leader
    · exact hl.me ▸ h.other
    · exact hct.trans (h.term.trans hl.currentTerm.symm)
    · exact h.leaderLog.of_image hl.image
    · exact hwell
    · rw [hbound, hl.lastLogIndex]
      exact hle
    · intro _
      rw [hbound, hboundTerm, hl.entryTerm, entryTerm, Nat.sub_self, h.leaderLog.termOf_zero]
    · rw [hnext, hl.lastLogIndex]
      omega

theorem Behind.install (h : Behind server l f) (hi : l.nextIndex server ≤ l.lastIncludeIndex)
    (hx : exchange server l f = (l', f', o)) :
    o = none ∧ Behind server l' f' ∧ l.Same l' ∧
      l'.nextIndex server = l.lastIncludeIndex + 1 ∧ l.lastIncludeIndex ≤ f'.lastIncludeIndex := by
  have hl := h.logUpdate
  have hs := l.logUpdate_same.trans l.logUpdate.updateCommiIndex_same
  have hi' : l.logUpdate.nextIndex server ≤ l.logUpdate.lastIncludeIndex := by
    rw [l.logUpdate_same.lastIncludeIndex, logUpdate_nextIndex h.other]
    exact hi
  unfold exchange at hx
  rw [replicate_install hl.leader hi'] at hx
  cases hx
  have hr := f.installSnapshot_term l.logUpdate.snapshotRequest
  have ht : l.logUpdate.snapshotRequest.term = l.logUpdate.updateCommiIndex.currentTerm := rfl
  obtain ⟨hsame, hnext⟩ := installSnapshotReply_moves server
    (hs.state.trans h.leader) ht (hr.trans (h.term.trans hs.currentTerm.symm))
  rw [hs.lastIncludeIndex] at hnext
  have hterm : l.logUpdate.snapshotRequest.term = l.currentTerm := l.logUpdate_same.currentTerm
  obtain ⟨hb, hle⟩ := h.installSnapshot (hs.trans hsame) hterm l.logUpdate_same.lastIncludeIndex
    l.logUpdate_same.lastIncludeTerm hnext
  exact ⟨rfl, hb, hs.trans hsame, hnext, hle⟩

/-- What the leader of a round asks for. -/
structure Asks (server : Fin n) (l : Raft n) (args : AppendEntriesArgs n) : Prop where
  term : args.term = l.currentTerm
  next : args.prevLogIndex + 1 = l.nextIndex server
  prevLogTerm : args.prevLogTerm = l.entryTerm args.prevLogIndex
  has : l.Has args.prevLogIndex
  length : args.prevLogIndex + args.entries.length = l.lastLogIndex
  entries : ∀ k, args.prevLogIndex < k → k ≤ l.lastLogIndex → args.entries ≠ [] ∧
    args.entries[k - (args.prevLogIndex + 1)]? = l.log[k - l.lastIncludeIndex]?

theorem Behind.asks (h : Behind server l f) (hi : l.lastIncludeIndex < l.nextIndex server) :
    Asks server l (l.logUpdate.appendRequest server) := by
  have hs := l.logUpdate_same
  have hnext := logUpdate_nextIndex h.other
  have hle := h.next
  have hlen := h.leaderLog.length
  have hprev : (l.logUpdate.appendRequest server).prevLogIndex + 1 = l.nextIndex server := by
    simp only [appendRequest, hnext]
    omega
  have hent : (l.logUpdate.appendRequest server).entries = if l.lastLogIndex < l.nextIndex server
      then [] else l.log.drop (l.nextIndex server - l.lastIncludeIndex) := by
    simp only [appendRequest, hnext, hs.lastLogIndex, hs.log, hs.lastIncludeIndex]
  refine ⟨hs.currentTerm, hprev, ?_, ⟨by omega, by omega⟩, ?_, fun k hk hk' => ?_⟩
  · simp only [appendRequest, hs.entryTerm]
  · rw [hent]
    split
    · rw [List.length_nil]
      omega
    · rw [List.length_drop]
      omega
  · have hsum : l.nextIndex server - l.lastIncludeIndex + (k - l.nextIndex server) =
        k - l.lastIncludeIndex := by omega
    rw [hent, if_neg (by omega), hprev, List.getElem?_drop, hsum]
    refine ⟨fun hnil => ?_, rfl⟩
    have hzero := congrArg List.length hnil
    rw [List.length_drop, List.length_nil] at hzero
    omega

theorem Behind.append (h : Behind server l f) (hi : l.lastIncludeIndex < l.nextIndex server)
    (hx : exchange server l f = (l', f', o)) : ∃ args, Asks server l args ∧
      l' = l.logUpdate.updateCommiIndex.appendEntriesReply server args (f.appendEntries args).2 ∧
      f' = (f.appendEntries args).1 ∧
      (if (f.appendEntries args).2.success then some args else none) = o := by
  have hl := h.logUpdate
  have hi' : l.logUpdate.lastIncludeIndex < l.logUpdate.nextIndex server := by
    rw [l.logUpdate_same.lastIncludeIndex, logUpdate_nextIndex h.other]
    exact hi
  unfold exchange at hx
  rw [replicate_append hl.leader hi' hl.next hl.leaderLog.log] at hx
  cases hx
  exact ⟨_, h.asks hi, rfl, rfl, rfl⟩

theorem Behind.current (h : Behind server l f) (ha : Asks server l args) :
    ¬ args.term < f.currentTerm := by
  rw [ha.term, h.term]
  exact Nat.lt_irrefl _

theorem Behind.same (h : Behind server l f) (args : AppendEntriesArgs n) :
    l.Same (l.logUpdate.updateCommiIndex.appendEntriesReply server args
      (f.appendEntries args).2) := by
  have hs := l.logUpdate_same.trans l.logUpdate.updateCommiIndex_same
  rcases l.logUpdate.updateCommiIndex.appendEntriesReply_cases server args
    (f.appendEntries args).2 with hd | hsame
  · have hlt := hd.lt
    rw [appendEntries_term, hs.currentTerm, h.term] at hlt
    omega
  · exact hs.trans hsame

theorem Behind.boundary_term (h : Behind server l f)
    (hli : l.lastIncludeIndex ≤ f.lastIncludeIndex) :
    f.entryTerm f.lastIncludeIndex = l.entryTerm f.lastIncludeIndex := by
  rw [h.boundary hli, entryTerm, Nat.sub_self, h.followerLog.termOf_zero]

/-- What the leader asks for next is further down, unless it asked below the follower's snapshot. -/
theorem Behind.conflict (h : Behind server l f) (ha : Asks server l args)
    (hfail : (f.appendEntries args).2.success = false) :
    (l.nextIndex server ≤ f.lastIncludeIndex ∧
        (f.appendEntries args).2.conflictIndex = f.lastIncludeIndex + 1) ∨
      (f.lastIncludeIndex + 1 < l.nextIndex server ∧
        (f.appendEntries args).2.conflictIndex < l.nextIndex server) := by
  have hnext := ha.next
  have hlast := h.followerLog.le
  rcases appendEntries_conflict (h.current ha) h.followerLog.log hfail with
    ⟨hlt, hc⟩ | ⟨hlt, hc⟩ | ⟨hle, _, hne, hc⟩
  · exact .inl ⟨by omega, hc⟩
  · exact .inr ⟨by omega, by omega⟩
  · refine .inr ⟨?_, by omega⟩
    -- at the boundary of its snapshot the follower would have accepted
    rcases Nat.eq_or_lt_of_le hle with heq | hlt
    · refine absurd ?_ hne
      rw [ha.prevLogTerm, ← heq]
      exact h.boundary_term (heq ▸ ha.has.1)
    · omega

theorem Behind.refused (h : Behind server l f) (hi : l.lastIncludeIndex < l.nextIndex server)
    (hx : exchange server l f = (l', f', none)) :
    Behind server l' f' ∧ l.Same l' ∧ f'.lastIncludeIndex = f.lastIncludeIndex ∧
      (l.nextIndex server ≤ f.lastIncludeIndex ∧
          l'.nextIndex server = f.lastIncludeIndex + 1 ∨
        f.lastIncludeIndex + 1 < l.nextIndex server ∧
          l'.nextIndex server < l.nextIndex server) := by
  obtain ⟨args, ha, rfl, rfl, hif⟩ := h.append hi hx
  have hs := l.logUpdate_same.trans l.logUpdate.updateCommiIndex_same
  have hfail : (f.appendEntries args).2.success = false := by
    cases hc : (f.appendEntries args).2.success with
    | false => rfl
    | true => cases hif.symm.trans (if_pos hc)
  have hf : (f.appendEntries args).1 = f.follow args.term := by
    rcases f.appendEntries_cases args with ⟨hlt, _⟩ | ⟨_, ⟨he, _⟩ | ⟨_, _, _, _, hok⟩⟩
    · exact absurd hlt (h.current ha)
    · exact he
    · cases hfail.symm.trans hok
  have hnext : (l.logUpdate.updateCommiIndex.appendEntriesReply server args
      (f.appendEntries args).2).nextIndex server = (f.appendEntries args).2.conflictIndex := by
    apply appendEntriesReply_refused (hs.state.trans h.leader) _ _ hfail
    · rw [ha.term, hs.currentTerm]
    · rw [appendEntries_term, hs.currentTerm, h.term]
  have hfli : (f.follow args.term).lastIncludeIndex = f.lastIncludeIndex := catchUp_lastIncludeIndex
  have hcases := h.conflict ha hfail
  refine ⟨?_, h.same args, hf ▸ hfli, hnext ▸ hcases⟩
  have hle : (f.appendEntries args).2.conflictIndex ≤ l.lastLogIndex + 1 := by
    have hreach := h.reach
    have hmax := h.next
    omega
  rw [hf]
  refine h.keep (h.same args) ?_ catchUp_log hfli catchUp_lastIncludeTerm (hnext ▸ hle)
  exact (catchUp_term (h.current ha)).trans (ha.term.trans h.term.symm)

/-- An accepted request leaves the follower with the leader's log from `PrevLogIndex` on. -/
theorem Asks.overwrite (ha : Asks server l args) (hli : f.lastIncludeIndex ≤ args.prevLogIndex)
    (hlen : args.prevLogIndex - f.lastIncludeIndex < f.log.length)
    (hterm : f.entryTerm args.prevLogIndex = args.prevLogTerm) :
    ((f.overwrite args).Has args.prevLogIndex ∧
      (f.overwrite args).entryTerm args.prevLogIndex = l.entryTerm args.prevLogIndex) ∧
    ∀ k, args.prevLogIndex < k → k ≤ l.lastLogIndex → (f.overwrite args).Has k ∧
      (f.overwrite args).entryTerm k = l.entryTerm k ∧
      (f.overwrite args).entryCommand k = l.entryCommand k := by
  have hslot := getElem?_overwrite hli hlen
  have hlast := lastLogIndex_overwrite hli hlen
  have hboundary := (f.overwrite_spec args).lastIncludeIndex
  have hlength := ha.length
  refine ⟨⟨⟨hboundary ▸ hli, ?_⟩, ?_⟩, fun k hk hk' => ?_⟩
  · rw [hlast]
    split
    · unfold Raft.lastLogIndex
      omega
    · exact Nat.le_add_right _ _
  · rw [← ha.prevLogTerm, ← hterm, entryTerm, hboundary, termOf, hslot,
      if_pos (.inr (Nat.le_refl _))]
    rfl
  · obtain ⟨hne, hent⟩ := ha.entries k hk hk'
    have hnew : (f.overwrite args).log[k - f.lastIncludeIndex]? =
        l.log[k - l.lastIncludeIndex]? := by
      rw [hslot, if_neg (not_or.2 ⟨hne, Nat.not_le.2 hk⟩), hent]
    refine ⟨⟨?_, ?_⟩, ?_, ?_⟩
    · rw [hboundary]
      omega
    · rw [hlast, if_neg hne, hlength]
      exact hk'
    · rw [entryTerm, hboundary, termOf, hnew]
      rfl
    · rw [entryCommand, hboundary, hnew]
      rfl

theorem Behind.accepted (h : Behind server l f) (hi : l.lastIncludeIndex < l.nextIndex server)
    (hx : exchange server l f = (l', f', some args)) : CaughtUp server l l' f' args := by
  obtain ⟨req, ha, rfl, rfl, hif⟩ := h.append hi hx
  have hs := l.logUpdate_same.trans l.logUpdate.updateCommiIndex_same
  have hfli : (f.follow req.term).lastIncludeIndex = f.lastIncludeIndex := catchUp_lastIncludeIndex
  have hflog : (f.follow req.term).log = f.log := catchUp_log
  rcases f.appendEntries_cases req with
    ⟨_, _, hno⟩ | ⟨_, ⟨_, hno⟩ | ⟨hli, hlen, hterm, he, hok⟩⟩
  · rw [hno] at hif
    cases hif
  · rw [hno] at hif
    cases hif
  · rw [if_pos hok] at hif
    obtain rfl := Option.some.inj hif
    rw [← hfli] at hli
    rw [← hfli, ← hflog] at hlen hterm
    obtain ⟨⟨hhas, hprev⟩, habove⟩ := ha.overwrite hli hlen hterm
    rw [he]
    refine ⟨(h.same req).image, ?_, ⟨ha.has, hhas, hprev⟩, habove⟩
    rw [← ha.length]
    rw [appendEntriesReply_accepted (hs.state.trans h.leader) _ _ hok]
    · exact assign_self _ _ _
    · rw [ha.term, hs.currentTerm]
    · rw [appendEntries_term, hs.currentTerm, h.term]

theorem CaughtUp.of_same (h : CaughtUp server l₁ l' f' args) (hs : l.Same l₁) :
    CaughtUp server l l' f' args := by
  obtain ⟨himg, hmatch, ⟨⟨hle, hle'⟩, hprev⟩, habove⟩ := h
  rw [hs.lastIncludeIndex] at hle
  rw [hs.lastLogIndex] at hmatch hle' habove
  rw [hs.entryTerm] at hprev habove
  rw [hs.entryCommand] at habove
  exact ⟨himg.trans hs.image, hmatch, ⟨⟨hle, hle'⟩, hprev⟩, habove⟩

def Succeeds (server : Fin n) (m : Nat) (l f : Raft n) : Prop :=
  ∃ l' f' args, exchanges server m l f = some (l', f', args) ∧ CaughtUp server l l' f' args

theorem Succeeds.cons (hx : exchange server l f = (l₁, f₁, none)) (hs : l.Same l₁)
    (h : Succeeds server m l₁ f₁) : Succeeds server (m + 1) l f := by
  obtain ⟨l', f', args, hrun, hc⟩ := h
  refine ⟨l', f', args, ?_, hc.of_same hs⟩
  rw [exchanges, hx]
  exact hrun

/-- A round from an index the leader has not compacted succeeds, or leads on. -/
theorem Behind.round (h : Behind server l f) (hi : l.lastIncludeIndex < l.nextIndex server)
    (hnext : ∀ l' f', Behind server l' f' → l.Same l' →
      f'.lastIncludeIndex = f.lastIncludeIndex →
      (l.nextIndex server ≤ f.lastIncludeIndex ∧
          l'.nextIndex server = f.lastIncludeIndex + 1 ∨
        f.lastIncludeIndex + 1 < l.nextIndex server ∧
          l'.nextIndex server < l.nextIndex server) → Succeeds server m l' f') :
    Succeeds server (m + 1) l f := by
  obtain ⟨l', f', o, hx⟩ : ∃ l' f' o, exchange server l f = (l', f', o) := ⟨_, _, _, rfl⟩
  cases o with
  | some args =>
    refine ⟨l', f', args, ?_, h.accepted hi hx⟩
    rw [exchanges, hx]
  | none =>
    obtain ⟨hb, hs, hli, hcases⟩ := h.refused hi hx
    exact .cons hx hs (hnext l' f' hb hs hli hcases)

theorem Behind.at_boundary (h : Behind server l f)
    (hi : l.lastIncludeIndex ≤ f.lastIncludeIndex)
    (hn : l.nextIndex server = f.lastIncludeIndex + 1) : Succeeds server (m + 1) l f := by
  apply h.round (by omega)
  intro l' f' _ _ _ hcases
  omega

theorem Behind.above_snapshot (h : Behind server l f)
    (hi : l.lastIncludeIndex ≤ f.lastIncludeIndex)
    (hn : l.nextIndex server = l.lastIncludeIndex + 1) : Succeeds server (m + 2) l f := by
  apply h.round (by omega)
  intro l' f' hb hs hli hcases
  have hle : l'.lastIncludeIndex ≤ f'.lastIncludeIndex := by
    rw [hs.lastIncludeIndex, hli]
    exact hi
  exact hb.at_boundary hle (by omega)

theorem Behind.from_snapshot (h : Behind server l f)
    (hi : l.nextIndex server ≤ l.lastIncludeIndex) : Succeeds server (m + 3) l f := by
  obtain ⟨l', f', o, hx⟩ : ∃ l' f' o, exchange server l f = (l', f', o) := ⟨_, _, _, rfl⟩
  obtain ⟨rfl, hb, hs, hn, hle⟩ := h.install hi hx
  apply Succeeds.cons hx hs
  apply hb.above_snapshot
  · rw [hs.lastIncludeIndex]
    exact hle
  · rw [hs.lastIncludeIndex]
    exact hn

/-- Each refusal moves the leader's question down, until it is at or below one of the two
snapshots. From there the follower names its own snapshot or takes the leader's, and accepts. -/
theorem Behind.succeeds (h : Behind server l f) (hm : l.nextIndex server ≤ m) :
    Succeeds server (m + 3) l f := by
  induction m generalizing l f with
  | zero => exact h.from_snapshot (by omega)
  | succ m ih =>
    rcases Nat.lt_or_ge l.lastIncludeIndex (l.nextIndex server) with hlt | hge
    · apply h.round hlt
      rintro l' f' hb hs hli (⟨hle, hn⟩ | ⟨_, hn⟩)
      · apply hb.at_boundary
        · rw [hs.lastIncludeIndex, hli]
          omega
        · omega
      · exact ih hb (by omega)
    · exact h.from_snapshot hge

/-- A leader and a follower of one term that exchange nothing but the rounds of `logUpdate` reach
a request the follower accepts after at most `nextIndex + 3` rounds, and then share the leader's
log from `PrevLogIndex` on. -/
theorem catch_up_terminates (h : Behind server l f) :
    ∃ l' f' args, exchanges server (l.nextIndex server + 3) l f = some (l', f', args) ∧
      CaughtUp server l l' f' args :=
  h.succeeds (Nat.le_refl _)

end

def aheadLeader : Raft 3 where
  me := 0
  currentTerm := 3
  votedFor := some 0
  state := .leader
  log := [⟨1, [], 1⟩, ⟨2, [2], 2⟩, ⟨3, [3], 3⟩]
  commitIndex := 1
  lastApplied := 1
  nextIndex := fun _ => 4
  matchIndex := fun _ => 1
  lastIncludeIndex := 1
  lastIncludeTerm := 1
  snapshot := [7]
  pendingReadCh := none
  pendingReadCount := 0
  persister := none

def behindFollower : Raft 3 where
  me := 1
  currentTerm := 3
  votedFor := some 0
  state := .follower
  log := [⟨0, [], 0⟩, ⟨1, [4], 1⟩, ⟨1, [5], 2⟩, ⟨1, [6], 3⟩, ⟨1, [7], 4⟩]
  commitIndex := 0
  lastApplied := 0
  nextIndex := fun _ => 0
  matchIndex := fun _ => 0
  lastIncludeIndex := 0
  lastIncludeTerm := 0
  snapshot := []
  pendingReadCh := none
  pendingReadCount := 0
  persister := none

/-- The follower refuses, is sent the snapshot and then accepts. -/
theorem catch_up_terminates_snapshot :
    (exchanges 1 2 aheadLeader behindFollower).isNone = true ∧
    ∃ l' f' args, exchanges 1 (aheadLeader.nextIndex 1 + 3) aheadLeader behindFollower =
      some (l', f', args) ∧ CaughtUp 1 aheadLeader l' f' args := by
  have h : Behind 1 aheadLeader behindFollower :=
    ⟨rfl, by decide, rfl, by decide, by decide, by decide, by decide, by decide⟩
  exact ⟨by decide +kernel, catch_up_terminates h⟩

end Raft

end LinKV

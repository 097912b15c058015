import LinKV.Raft.Election

namespace LinKV
set_option autoImplicit true

namespace Proc

/-- A reply of follower `j` is about less of the log than it is already known to hold. -/
def overtaken (p : Proc n) (j : Fin n) : Event n → Bool
  | .appendEntriesReply server args reply =>
    server = j && args.term = p.rf.currentTerm && reply.term ≤ p.rf.currentTerm &&
      (if reply.success then args.prevLogIndex + args.entries.length
        else reply.conflictIndex) < p.rf.matchIndex j
  | .installSnapshotReply server args reply =>
    server = j && args.term = p.rf.currentTerm && reply.term ≤ p.rf.currentTerm &&
      p.rf.lastIncludeIndex < p.rf.matchIndex j
  | _ => false

end Proc

namespace Cluster

def Leads (s : Cluster n) (i : Fin n) (t : Nat) : Prop :=
  (s.procs i).rf.state = .leader ∧ (s.procs i).rf.currentTerm = t

instance decidableLeads (s : Cluster n) (i : Fin n) (t : Nat) : Decidable (s.Leads i t) :=
  inferInstanceAs (Decidable (_ ∧ _))

/-- Node `i` processes a reply of `j` that later ones have overtaken. -/
def setsBack (s : Cluster n) (i j : Fin n) (a : Action n) : Bool :=
  (s.event a).any fun e => e.1 = i && (s.procs i).overtaken j e.2

end Cluster

section

variable {rf rf' : Raft n} {p p' : Proc n} {s s' : Cluster n} {i j server : Fin n}

namespace Raft

theorem clampMatch_lt (rf : Raft n) (server j : Fin n) :
    (rf.clampMatch server).matchIndex j < rf.matchIndex j ↔
      server = j ∧ rf.nextIndex j < rf.matchIndex j := by
  unfold clampMatch
  by_cases hj : j = server
  · subst hj
    split
    · next hlt =>
      simp only [assign_self, true_and]
      omega
    · next hge => exact iff_of_false (Nat.lt_irrefl _) fun h => hge h.2
  · have hne : ¬ (server = j ∧ rf.nextIndex j < rf.matchIndex j) := fun h => hj h.1.symm
    split
    · simp only [assign_ne _ _ hj]
      exact iff_of_false (Nat.lt_irrefl _) hne
    · exact iff_of_false (Nat.lt_irrefl _) hne

theorem appendEntriesReply_lt (hl : rf.state = .leader) (ht : args.term = rf.currentTerm)
    (hr : reply.term ≤ rf.currentTerm) :
    (rf.appendEntriesReply server args reply).matchIndex j < rf.matchIndex j ↔
      server = j ∧ (if reply.success then args.prevLogIndex + args.entries.length
        else reply.conflictIndex) < rf.matchIndex j := by
  by_cases hs : reply.success = true
  · rw [appendEntriesReply_accepted hl ht hr hs, if_pos hs]
    by_cases hj : j = server
    · subst hj
      rw [assign_self]
      exact (and_iff_right rfl).symm
    · rw [assign_ne _ _ hj]
      exact iff_of_false (Nat.lt_irrefl _) fun h => hj h.1.symm
  · rw [appendEntriesReply_rejected hl ht hr (Bool.eq_false_iff.2 hs), if_neg hs]
    refine (clampMatch_lt _ server j).trans (and_congr_right fun hj => ?_)
    subst hj
    simp only [assign_self]

theorem installSnapshotReply_lt (hl : rf.state = .leader) (ht : args.term = rf.currentTerm)
    (hr : reply.term ≤ rf.currentTerm) :
    (rf.installSnapshotReply server args reply).matchIndex j < rf.matchIndex j ↔
      server = j ∧ rf.lastIncludeIndex < rf.matchIndex j := by
  unfold installSnapshotReply
  rw [if_neg (not_or.2 ⟨not_not.2 hl, not_not.2 ht.symm⟩), if_neg (Nat.not_lt.2 hr)]
  by_cases hj : j = server
  · subst hj
    simp only [assign_self, true_and]
  · simp only [assign_ne _ _ hj]
    exact iff_of_false (Nat.lt_irrefl _) fun h => hj h.1.symm

theorem appendEntriesReply_current (hl : rf.state = .leader) (ht : args.term = rf.currentTerm)
    (hl' : (rf.appendEntriesReply server args reply).state = .leader) :
    reply.term ≤ rf.currentTerm := by
  by_contra hlt
  rw [appendEntriesReply_deposed hl ht (Nat.not_le.1 hlt)] at hl'
  cases hl'

theorem installSnapshotReply_current (hl : rf.state = .leader) (ht : args.term = rf.currentTerm)
    (hl' : (rf.installSnapshotReply server args reply).state = .leader) :
    reply.term ≤ rf.currentTerm := by
  by_contra hlt
  rw [installSnapshotReply_deposed hl ht (Nat.not_le.1 hlt)] at hl'
  cases hl'

theorem requestVote_matchIndex (rf : Raft n) (args : RequestVoteArgs n) :
    (rf.requestVote args).1.matchIndex = rf.matchIndex := by
  have hc : (rf.catchUp args.term).matchIndex = rf.matchIndex := by
    unfold catchUp
    split <;> rfl
  rcases rf.requestVote_cases args with ⟨_, he⟩ | ⟨_, he | ⟨_, _, he⟩⟩
  · rw [he]
  · rw [he]
    exact hc
  · rw [he]
    exact hc

end Raft

namespace Proc

/-- What a process that stays leader has recorded for a follower goes back exactly when a reply
arrives that is about less. -/
theorem step_match_lt (hs : p.step now ev = some p') (hl : p.rf.state = .leader)
    (hl' : p'.rf.state = .leader) (hsolo : p.solo = 0) (hj : j ≠ p.rf.me) :
    p'.rf.matchIndex j < p.rf.matchIndex j ↔ p.overtaken j ev = true := by
  have hkeep : p.rf.matchIndex j ≤ p'.rf.matchIndex j → p.overtaken j ev = false →
      (p'.rf.matchIndex j < p.rf.matchIndex j ↔ p.overtaken j ev = true) := fun hle hf =>
    iff_of_false (Nat.not_lt.2 hle) (Bool.eq_false_iff.1 hf)
  have hsame : p'.rf.matchIndex = p.rf.matchIndex → p.overtaken j ev = false →
      (p'.rf.matchIndex j < p.rf.matchIndex j ↔ p.overtaken j ev = true) := fun he =>
    hkeep (Nat.le_of_eq (congrFun he j).symm)
  by_cases hidle : ev.isIdle = true
  · refine hsame (step_idle hs hidle).1.matchIndex ?_
    cases ev <;> first | rfl | cases hidle
  cases step_takes hs with
  | startElection => cases hl'
  | soloLeader h => exact absurd hsolo h
  | logUpdate => exact hkeep (Nat.le_of_eq (p.rf.logUpdate_spec.2 j hj).symm) rfl
  | replicate server => exact hsame (p.rf.replicate_spec server).2 rfl
  | start command =>
    refine hsame ?_ rfl
    unfold Raft.start
    split <;> rfl
  | snapshot _ _ _ _ _ hrf =>
    refine hkeep ?_ rfl
    rcases Raft.snapshotAt_cases hrf with ⟨_, rfl⟩ | ⟨_, _, _, _, _, _, _, _, _, _, _, _, hm⟩
    · exact Nat.le_refl _
    · exact (hm hl j).symm ▸ Nat.le_max_left _ _
  | requestVote args => exact hsame (p.rf.requestVote_matchIndex args) rfl
  | appendEntries args =>
    rcases p.rf.appendEntries_cases args with ⟨_, he, _⟩ | ⟨_, ⟨he, _⟩ | ⟨_, _, _, he, _⟩⟩
    · exact hsame (congrArg Raft.matchIndex he) rfl
    · cases (congrArg Raft.state he).symm.trans hl'
    · have hf := ((p.rf.follow args.term).overwrite_spec args).state
      rw [← he] at hf
      cases hf.symm.trans hl'
  | installSnapshot args =>
    rcases p.rf.installSnapshot_cases args with ⟨_, he, _⟩ | ⟨_, ⟨_, he, _⟩ | ⟨_, he, _⟩⟩
    · exact hsame (congrArg Raft.matchIndex he) rfl
    · cases (congrArg Raft.state he).symm.trans hl'
    · cases (congrArg Raft.state he).symm.trans hl'
  | requestVoteReply args reply =>
    refine hsame ?_ rfl
    rcases p.requestVoteReply_cases args reply with he | ⟨hc, _⟩
    · rw [he]
    · cases hl.symm.trans hc
  | appendEntriesReply server args reply =>
    by_cases ht : args.term = p.rf.currentTerm
    · have hr := Raft.appendEntriesReply_current hl ht hl'
      refine (Raft.appendEntriesReply_lt hl ht hr).trans ?_
      simp only [overtaken, ht, hr, decide_true, Bool.and_true, Bool.and_eq_true, decide_eq_true_eq]
    · have he : p.rf.appendEntriesReply server args reply = p.rf :=
        Raft.appendEntriesReply_stale (.inr ht)
      refine hsame (congrArg Raft.matchIndex he) ?_
      simp only [overtaken, ht, decide_false, Bool.and_false, Bool.false_and]
  | installSnapshotReply server args reply =>
    by_cases ht : args.term = p.rf.currentTerm
    · have hr := Raft.installSnapshotReply_current hl ht hl'
      refine (Raft.installSnapshotReply_lt hl ht hr).trans ?_
      simp only [overtaken, ht, hr, decide_true, Bool.and_true, Bool.and_eq_true, decide_eq_true_eq]
    · have he : p.rf.installSnapshotReply server args reply = p.rf :=
        Raft.installSnapshotReply_stale (.inr (Ne.symm ht))
      refine hsame (congrArg Raft.matchIndex he) ?_
      simp only [overtaken, ht, decide_false, Bool.and_false, Bool.false_and]
  | _ => exact (hidle rfl).elim

end Proc

namespace Cluster

theorem setsBack_event (h : s.event a = some (i, ev)) (j : Fin n) :
    s.setsBack i j a = (s.procs i).overtaken j ev := by
  rw [setsBack, h]
  simp

theorem setsBack_other (h : s.event a = some (k, ev)) (hk : i ≠ k) (j : Fin n) :
    s.setsBack i j a = false := by
  rw [setsBack, h]
  simp [hk.symm]

theorem crash_leads (hj : j ≠ i) (hl : (s.crash k data).Leads i t) : i ≠ k := by
  rintro rfl
  have hn : ¬ n ≤ 1 := by
    intro hn
    exact hj (Fin.ext (by omega))
  have hp : (s.crash i data).procs i = .boot i data := assign_self _ _ _
  have hf := hl.1
  rw [hp, Proc.boot, Raft.make_state, if_neg hn] at hf
  cases hf

theorem step_match_lt (hr : s.Reachable) (hj : j ≠ i) (hl : s.Leads i t) (hs : s.step a = some s')
    (hl' : s'.Leads i t) :
    (s'.procs i).rf.matchIndex j < (s.procs i).rf.matchIndex j ↔ s.setsBack i j a = true := by
  obtain ⟨g, hg⟩ := Cluster.ReachableBy.traced hr
  have hevent : ∀ {k ev p}, s.event a = some (k, ev) → (s.procs k).step s.now ev = some p →
      s'.procs = assign s.procs k p →
      ((s'.procs i).rf.matchIndex j < (s.procs i).rf.matchIndex j ↔ s.setsBack i j a = true) := by
    intro k ev p ha hst hp
    by_cases hik : i = k
    · subst hik
      have hl'' := hl'.1
      rw [hp, assign_self] at hl'' ⊢
      rw [setsBack_event ha]
      exact Proc.step_match_lt hst hl.1 hl'' (hg.elects.solo i) ((hg.elects.node i).me.symm ▸ hj)
    · rw [hp, assign_ne _ _ hik, setsBack_other ha hik]
      exact iff_of_false (Nat.lt_irrefl _) Bool.false_ne_true
  have hcrash : ∀ {k data}, (s.crash k data).Leads i t → ((s.crash k data).procs i) = s.procs i :=
    fun hc => assign_ne _ _ (crash_leads hj hc)
  cases step_move hs with
  | act k ev p _ _ hst => exact hevent rfl hst rfl
  | panic k ev hp =>
    rw [hcrash hl', setsBack_other rfl (crash_leads hj hl')]
    exact iff_of_false (Nat.lt_irrefl _) Bool.false_ne_true
  | handle k r ev p hk he hst =>
    refine hevent ?_ hst rfl
    simp only [event, hk, he, Option.bind_some, Option.map_some]
  | reply k r ev p hk he hst =>
    refine hevent ?_ hst rfl
    simp only [event, hk, he, Option.bind_some, Option.map_some]
  | drop => exact iff_of_false (Nat.lt_irrefl _) Bool.false_ne_true
  | crash =>
    rw [hcrash hl']
    exact iff_of_false (Nat.lt_irrefl _) Bool.false_ne_true
  | crashIn k r ev =>
    have hp : (s.crashAmid r.server ev _).procs i = s.procs i := hcrash hl'
    rw [hp]
    exact iff_of_false (Nat.lt_irrefl _) Bool.false_ne_true
  | crashStart k command =>
    have hp : (s.crashAmid k (.start command) _).procs i = s.procs i := hcrash hl'
    rw [hp]
    exact iff_of_false (Nat.lt_irrefl _) Bool.false_ne_true

end Cluster

end

/-- Within one leadership a step lowers what the leader has recorded for a follower exactly when
the leader processes a reply of it that is about less, so without such replies it never goes
back. -/
theorem match_index_monotone {s s' : Cluster n} {i j : Fin n} {t : Nat} (h : s.Reachable)
    (hj : j ≠ i)
    (hr : Consensus.ReachableBy Cluster.step
      (fun u a => u.Leads i t ∧ u.setsBack i j a = false) s s')
    (hl : s'.Leads i t) :
    (s.procs i).rf.matchIndex j ≤ (s'.procs i).rf.matchIndex j ∧
    ∀ a s'', s'.step a = some s'' → s''.Leads i t →
      ((s''.procs i).rf.matchIndex j < (s'.procs i).rf.matchIndex j ↔
        s'.setsBack i j a = true) := by
  have hreach : ∀ {u}, Consensus.ReachableBy Cluster.step
      (fun u a => u.Leads i t ∧ u.setsBack i j a = false) s u → u.Reachable := fun hu =>
    Consensus.ReachableBy.trans h (hu.mono fun _ _ _ => trivial)
  refine ⟨?_, fun a s'' hs hl' => Cluster.step_match_lt (hreach hr) hj hl hs hl'⟩
  induction hr with
  | init => exact Nat.le_refl _
  | step hu hok hs ih =>
    have hback := (Cluster.step_match_lt (hreach hu) hj hok.1 hs hl).not
    rw [hok.2] at hback
    exact Nat.le_trans (ih hok.1) (Nat.not_lt.1 (hback.2 Bool.false_ne_true))

/-- Node 0 leads term 1 and has sent node 1 its first command, and then both of its commands. -/
def twoInFlight : List (Action 3) :=
  [.act 0 .tick, .act 0 .startElection, .handle 0, .reply 0, .drop 0, .act 0 (.start [1]),
    .act 0 (.replicate 1), .act 0 (.send 0), .act 0 (.start [2]), .act 0 (.replicate 1),
    .act 0 (.send 0), .handle 0, .handle 1]

/-- The replies are processed in the order of the requests. -/
theorem match_index_monotone_ordered : ∃ s s' : Cluster 3, s.Reachable ∧
    Consensus.ReachableBy Cluster.step
      (fun u a => u.Leads 0 1 ∧ u.setsBack 0 1 a = false) s s' ∧ s'.Leads 0 1 ∧
    (s'.procs 0).rf.matchIndex 1 = 2 ∧
    (s.procs 0).rf.matchIndex 1 ≤ (s'.procs 0).rf.matchIndex 1 := by
  have hrun : Consensus.RunsTo Cluster.step (fun _ _ => True)
      (Consensus.RunsTo Cluster.step (fun u a => u.Leads 0 1 ∧ u.setsBack 0 1 a = false)
        (fun s' => s'.Leads 0 1 ∧ (s'.procs 0).rf.matchIndex 1 = 2) · [.reply 0, .reply 0])
      (.init 3) twoInFlight := by
    decide +kernel
  obtain ⟨s, hs, hr⟩ := hrun.reachable
  obtain ⟨s', hs', hl, hm⟩ := hr.reachable
  exact ⟨s, s', hs, hs', hl, hm, (match_index_monotone hs (by decide) hs' hl).1⟩

/-- The reply to the first request is processed last: node 1 holds both commands and is recorded
as holding one. -/
theorem match_index_monotone_fails : ∃ s s' : Cluster 3, s.Reachable ∧ s.Leads 0 1 ∧
    s'.Leads 0 1 ∧ (∃ k, s.step (.reply k) = some s') ∧
    (s'.procs 0).rf.matchIndex 1 < (s.procs 0).rf.matchIndex 1 := by
  have hrun : Consensus.RunsTo Cluster.step (fun _ _ => True)
      (fun s => s.Leads 0 1 ∧ (s.step (.reply 0)).elim False fun s' =>
        s'.Leads 0 1 ∧ (s'.procs 0).rf.matchIndex 1 < (s.procs 0).rf.matchIndex 1)
      (.init 3) (twoInFlight ++ [.reply 1]) := by
    decide +kernel
  obtain ⟨s, hs, hl, hr⟩ := hrun.reachable
  obtain ⟨s', hs', hl', hlt⟩ := Consensus.exists_of_elim hr
  exact ⟨s, s', hs, hl, hl', ⟨0, hs'⟩, hlt⟩

end LinKV

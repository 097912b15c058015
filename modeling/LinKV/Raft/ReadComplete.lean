import LinKV.Raft.ReadIndex
import LinKV.Raft.Safety

namespace LinKV
open Consensus Ledger
set_option autoImplicit true

/-- The last entry the leader counts as committed is one of its own term. -/
def Raft.ownCommit (rf : Raft n) : Bool :=
  n ≤ 1 || termOf rf.log (rf.commitIndex - rf.lastIncludeIndex) = rf.currentTerm

/-- What is known later of the moment `s₀` at which node `i` began a read: terms have not gone
back, requests sent since were answered by nodes that had not gone past their term, and the
call is still the one that began then. -/
structure Since (s₀ : Cluster n) (i : Fin n) (s : Cluster n) : Prop where
  now : s₀.now < s.now
  term : ∀ u, (s₀.procs u).rf.currentTerm ≤ (s.procs u).rf.currentTerm
  fresh : ∀ a ∈ s.answers, s₀.now < a.sentAt → (s₀.procs a.server).rf.currentTerm ≤ a.term
  call : ∀ c, (s.procs i).readCall = some c → c.startedAt = s₀.now →
    c.index = (s₀.procs i).rf.commitIndex ∧ c.term = (s₀.procs i).rf.currentTerm

section

variable {s₀ s₁ s s' : Cluster n} {i : Fin n}

theorem Raft.appendEntries_current {rf : Raft n} (h : (rf.appendEntries args).2.success = true) :
    rf.currentTerm ≤ args.term := by
  rcases rf.appendEntries_cases args with ⟨_, _, hs⟩ | ⟨ht, _⟩
  · rw [h] at hs
    cases hs
  · exact Nat.le_of_not_lt ht

theorem Cluster.readIndex_step (h : s₀.step (.act i .readIndex) = some s₁) :
    (s₀.procs i).rf.state = .leader ∧ s₁.answers = s₀.answers ∧ s₁.now = s₀.now + 1 ∧
      (∀ u, (s₁.procs u).rf.currentTerm = (s₀.procs u).rf.currentTerm) ∧
      (s₁.procs i).reading = {
        call := some {
          index := (s₀.procs i).rf.commitIndex
          term := (s₀.procs i).rf.currentTerm
          signalled := false
          startedAt := s₀.now
          counted := [] }
        ch := some (n / 2 < 1 : Bool)
        count := 1 } := by
  cases step_move h with
  | act _ _ p _ _ hst =>
    simp only [Proc.step, Proc.readIndex] at hst
    split at hst
    · cases hst
    · next hn =>
      cases hst
      refine ⟨not_not.1 (not_or.1 hn).1, rfl, rfl, ?_, ?_⟩
      · exact assign_forall (P := fun u (p : Proc n) =>
          p.rf.currentTerm = (s₀.procs u).rf.currentTerm) rfl fun _ _ => rfl
      · exact congrArg Proc.reading (assign_self ..)
  | panic _ _ hp => cases hp

theorem Since.start (ha : Answered s₀) (h : s₀.step (.act i .readIndex) = some s₁) :
    Since s₀ i s₁ := by
  obtain ⟨_, hans, hnow, hterm, hread⟩ := Cluster.readIndex_step h
  refine ⟨hnow ▸ Nat.lt_succ_self _, fun u => Nat.le_of_eq (hterm u).symm, fun a hin hlt => ?_,
    fun c hc _ => ?_⟩
  · exact (Nat.lt_asymm hlt (ha.past a (hans ▸ hin))).elim
  · have hcall := congrArg Reading.call hread
    cases hc.symm.trans hcall
    exact ⟨rfl, rfl⟩

theorem Since.step (h : Since s₀ i s) (he : Elects s g) (hm : Cluster.Move s a s') :
    Since s₀ i s' where
  now := hm.now_eq ▸ Nat.lt_succ_of_lt h.now
  term u := Nat.le_trans (h.term u) (he.term_le hm u)
  fresh x hx hlt := by
    rcases hm.answers with heq | ⟨k, r, _, hk, heq⟩
    · exact h.fresh x (heq ▸ hx) hlt
    · rcases List.mem_append.1 (heq ▸ hx) with hx | hx
      · exact h.fresh x hx hlt
      · obtain ⟨args, _, _, hsucc, rfl⟩ := Rpc.mem_answer hx
        exact Nat.le_trans (h.term r.server) (Raft.appendEntries_current hsucc)
  call c hc hat := by
    obtain ⟨ev, hread, _⟩ := hm.reading i
    have hcall : (s'.procs i).reading.call = some c := hc
    generalize (s'.procs i).reading = x at hread hcall
    cases hread with
    | same => exact h.call c hcall hat
    | start _ =>
      cases hcall
      exact (Nat.ne_of_gt h.now hat).elim
    | signal c₀ hc₀ _ =>
      cases hcall
      exact h.call c₀ hc₀ hat
    | stop _ _ hx =>
      rw [hx] at hcall
      cases hcall
    | count _ _ _ _ _ _ =>
      obtain ⟨c₀, hc₀, rfl⟩ := Option.map_eq_some_iff.1 hcall
      exact h.call c₀ hc₀ hat

theorem Since.run (h₀ : s₀.Reachable) (hcall : s₀.step (.act i .readIndex) = some s₁)
    (h₁ : Consensus.ReachableBy Cluster.step (fun s a => s.countsFresh a = true) s₁ s) :
    s.Reachable ∧ Since s₀ i s ∧
      Confirmed s.answers i (s.procs i).rf.currentTerm (s.procs i).reading := by
  induction h₁ with
  | init =>
    refine ⟨.step h₀ trivial hcall, .start (Cluster.ReachableBy.answered h₀) hcall, ?_⟩
    obtain ⟨_, _, _, hterm, hread⟩ := Cluster.readIndex_step hcall
    rw [hterm i, hread]
    exact confirmed_start
  | step _ ha hs ih =>
    obtain ⟨hr, hsince, hconf⟩ := ih
    obtain ⟨g, hg⟩ := Cluster.ReachableBy.traced hr
    have hm := Cluster.step_move hs
    exact ⟨.step hr trivial hs, hsince.step hg.elects hm,
      hconf.step (Cluster.ReachableBy.answered hr) hg.elects hm ha⟩

/-- A read returns an index that covers everything any node counted as committed when it began,
if the run so far has lost nothing committed, the leader has committed an entry of its own term
by then, and the read counts only fresh replies of distinct peers. -/
theorem read_index_complete (h₀ : s₀.ReachableBy Cluster.Fits)
    (hcall : s₀.step (.act i .readIndex) = some s₁) (hown : (s₀.procs i).rf.ownCommit = true)
    (h₁ : Consensus.ReachableBy Cluster.step (fun s a => s.countsFresh a = true) s₁ s)
    (hc : (s.procs i).readCall = some c) (hat : c.startedAt = s₀.now)
    (hret : s.step (.act i .readReturn) = some s')
    (hr : (s.procs i).readResult c = (idx, true)) (j : Fin n) :
    (s₀.procs j).rf.commitIndex ≤ idx := by
  obtain ⟨_, hsince, hconf⟩ := Since.run (h₀.mono fun _ _ _ => trivial) hcall h₁
  have hsig := Cluster.readReturn_signalled hret hc
  obtain ⟨rfl, hterm, Q, hQ, _, hans⟩ := (hconf c hc).majority hsig hr
  obtain ⟨hidx, hterm₀⟩ := hsince.call c hc hat
  rw [hidx]
  by_cases hn : n ≤ 1
  · have hij : j = i := Fin.ext (by omega)
    rw [hij]
  · obtain ⟨g, hg⟩ := Cluster.ReachableBy.traced h₀
    have he := hg.elects
    have hl := hg.fit_logs
    have hcommit := hg.commits
    have hlead := (Cluster.readIndex_step hcall).1
    have hleads := (he.node i).leader hlead
    have hlog := hl.matching.leader_log i _ hleads (he.node i).term
    -- the nodes that confirmed the read had not gone past the leader's term when it began
    have hQterm : ∀ u ∈ Q, g.term u ≤ (s₀.procs i).rf.currentTerm := by
      intro u hu
      rw [(he.node u).term]
      by_cases hui : u = i
      · rw [hui]
      · obtain ⟨a, ha, rfl, _, hat', hlt⟩ := hans u hu hui
        rw [← hterm₀, hterm, ← hat']
        exact hsince.fresh a ha (hat ▸ hlt)
    have hdec := ((hcommit.node j).decided).current hcommit.complete hl.matching he.ballot hQ hQterm
    have hlast : termAt (g.glog (s₀.procs i).rf.currentTerm) (s₀.procs i).rf.commitIndex =
        (s₀.procs i).rf.currentTerm := by
      rw [← hlog, ← (hl.node i).rep.termOf (hcommit.node i).li_le]
      simpa only [Raft.ownCommit, hn, decide_false, Bool.false_or, decide_eq_true_eq] using hown
    have hle := hdec.length_le hcommit.complete hl.matching hleads hlast
      ((hcommit.node i).own hn hlead)
    rwa [List.length_take, Nat.min_eq_left (hcommit.node j).le] at hle

end

/-- Node 0 reads after it has committed an entry of its term. -/
theorem read_index_complete_own : ∃ s₀ : Cluster 3,
    s₀.ReachableBy Cluster.Fits ∧
    (s₀.procs 0).rf.ownCommit = true ∧ (s₀.procs 1).rf.commitIndex = 1 ∧
    ∀ j, (s₀.procs j).rf.commitIndex ≤ 1 := by
  have hrun : RunsTo Cluster.step Cluster.Fits
      (fun s₀ => (s₀.procs 0).rf.ownCommit = true ∧ (s₀.procs 1).rf.commitIndex = 1 ∧
        (s₀.step (.act 0 .readIndex)).elim False fun s₁ =>
          RunsTo Cluster.step (fun s a => s.countsFresh a = true)
            (fun s => (s.procs 0).readCall = some ⟨1, 1, true, s₀.now, [1]⟩ ∧
              (s.step (.act 0 .readReturn)).isSome ∧
              (s.procs 0).readResult ⟨1, 1, true, s₀.now, [1]⟩ = (1, true)) s₁
            [.act 0 (.replicate 1), .act 0 (.send 0), .handle 0, .reply 0,
              .act 0 .readSignal]) (.init 3)
      [.act 0 .tick, .act 0 .startElection, .handle 0, .reply 0, .drop 0, .act 0 (.start [1]),
        .act 0 (.replicate 1), .act 0 (.send 0), .handle 0, .reply 0, .act 0 (.replicate 1),
        .act 0 (.send 0), .handle 0, .reply 0] := by
    decide +kernel
  obtain ⟨s₀, h₀, hown, hci, hread⟩ := hrun.reachable
  obtain ⟨s₁, hcall, hread⟩ := exists_of_elim hread
  obtain ⟨s, h₁, hc, hret, hr⟩ := RunsTo.reachable hread
  obtain ⟨s', hs'⟩ := Option.isSome_iff_exists.1 hret
  exact ⟨s₀, h₀, hown, hci, read_index_complete h₀ hcall hown h₁ hc rfl hs' hr⟩

/-- Node 1 is elected with the entry node 0 has committed, does not count it as committed, and
confirms a read at index 0. -/
theorem read_index_complete_fails : ∃ s₀ s₁ s : Cluster 3, ∃ c, s₀.Reachable ∧
    s₀.step (.act 1 .readIndex) = some s₁ ∧
    Consensus.ReachableBy Cluster.step (fun _ _ => True) s₁ s ∧
    (s.procs 1).readCall = some c ∧ c.startedAt = s₀.now ∧
    (s.step (.act 1 .readReturn)).isSome ∧ (s.procs 1).readResult c = (0, true) ∧
    (s₀.procs 0).rf.commitIndex = 1 := by
  have hrun : RunsTo Cluster.step (fun _ _ => True)
      (fun s₀ => (s₀.procs 0).rf.commitIndex = 1 ∧
        (s₀.step (.act 1 .readIndex)).elim False fun s₁ =>
          RunsTo Cluster.step (fun _ _ => True)
            (fun s => (s.procs 1).readCall = some ⟨0, 2, true, s₀.now, [0]⟩ ∧
              (s.step (.act 1 .readReturn)).isSome ∧
              (s.procs 1).readResult ⟨0, 2, true, s₀.now, [0]⟩ = (0, true)) s₁
            [.act 1 (.replicate 0), .act 1 (.send 0), .handle 0, .reply 0,
              .act 1 .readSignal]) (.init 3)
      [.act 0 .tick, .act 0 .startElection, .handle 0, .reply 0, .drop 0, .act 0 (.start [1]),
        .act 0 (.replicate 1), .act 0 (.send 0), .handle 0, .reply 0, .act 0 (.replicate 2),
        .act 0 (.send 0), .drop 0, .act 1 .tick, .act 1 .startElection, .handle 1, .reply 1,
        .drop 0] := by
    decide +kernel
  obtain ⟨s₀, h₀, hci, hread⟩ := hrun.reachable
  obtain ⟨s₁, hcall, hread⟩ := exists_of_elim hread
  obtain ⟨s, h₁, hc, hret, hr⟩ := RunsTo.reachable hread
  exact ⟨s₀, s₁, s, _, h₀, hcall, h₁, hc, rfl, hret, hr, hci⟩

end LinKV

import LinKV.Raft.Commits

namespace LinKV
set_option autoImplicit true

open Consensus Ledger

structure Commits (s : Cluster n) (g : Record n) : Prop where
  complete : Complete g
  node : ∀ i, NodeCommit g i (s.procs i)
  call : ∀ i j c, s.Carries i j c → CallCommit g c
  emitted : ∀ i k c, (i, .command k c) ∈ s.emitted → Chosen g k c

section

variable {g g' : Record n} {s s' : Cluster n} {p p' : Proc n} {i j : Fin n}

theorem CallCommit.extends (h : CallCommit g call) (he : Extends g g') : CallCommit g' call := by
  cases call with
  | requestVote args reply => trivial
  | appendEntries args reply =>
    obtain ⟨hle, hd, hempty⟩ := h
    rw [← he.take hle] at hd
    exact ⟨Nat.le_trans hle (he.glog _).length_le, hd.extends he, hempty⟩
  | installSnapshot args reply =>
    obtain ⟨hle, hd⟩ := h
    rw [← he.take hle] at hd
    exact ⟨Nat.le_trans hle (he.glog _).length_le, hd.extends he⟩

theorem CallCommit.answered (h : CallCommit g call) : CallCommit g (call.answered p) := by
  cases call <;> exact h

theorem Taken.calls (h : Taken g i p ev p')
    (hc' : Counted (g.effects (p.labels i ev)) i p'.rf) (hc : p.Makes ev j call) :
    CallCommit (g.effects (p.labels i ev)) call := by
  obtain ⟨now, hs⟩ := h.step
  obtain ⟨rfl, -, rfl⟩ | ⟨rfl, hcall⟩ := hc
  · trivial
  · cases Proc.step_takes hs with
    | replicate =>
      have hsame := p.rf.replicate_same j
      have hci := Raft.replicate_commit hcall
      have hlast' : (p.rf.replicate j).1.lastLogIndex = p.rf.lastLogIndex := by
        rw [Raft.lastLogIndex, Raft.lastLogIndex, hsame.log, hsame.lastIncludeIndex]
      have hlast := hlast'.symm.trans h.log'.rep.lastLogIndex
      obtain ⟨hst, hcases⟩ := Raft.replicate_call hcall
      have hlog := h.matching'.leader_log i _ (h.node'.leader (hsame.state.trans hst)) h.node'.term
      have hterm := h.node'.term
      rw [hsame.currentTerm] at hlog hterm
      obtain ⟨hli, hle, hd⟩ := hc'
      rw [hci, hterm] at hd
      rw [hsame.lastIncludeIndex] at hli
      rw [hci] at hli hle
      rcases hcases with rfl | ⟨prev, _, _, rfl⟩
      · refine ⟨?_, ?_⟩
        · rw [← hlog]
          exact Nat.le_trans hli hle
        · rw [← hlog]
          exact hd.of_isPrefix (List.take_prefix_take_left hli)
      · refine ⟨?_, ?_, ?_⟩
        · rw [← hlog]
          exact hle
        · rw [← hlog]
          exact hd
        · intro he
          simp only at he ⊢
          have hlt : p.rf.lastLogIndex < prev + 1 := by
            by_contra hge
            rw [if_neg hge, List.drop_eq_nil_iff] at he
            unfold Raft.lastLogIndex at hge
            omega
          omega

theorem NodeCommit.frame (h : NodeCommit g j p) (hn : NodeSim g j p.rf) (hb : Ballot g)
    (hl : ∀ l ∈ ls, l.Of i) (hj : j ≠ i) (he : Extends g (g.effects ls))
    (hlead : ∀ t k, .commit t k ∈ ls → g.leads i t) : NodeCommit (g.effects ls) j p := by
  obtain ⟨ht, _, hlog, _, _⟩ := effects_frame (g := g) hl hj
  refine {
    li_le := h.li_le
    le := by rw [hlog]; exact h.le
    decided := by rw [hlog, ht]; exact h.decided.extends he
    own := fun h2 hst k hd => ?_
    pending := h.pending
    batch := fun k c hm => (h.batch k c hm).extends he
    snaps := h.snaps }
  rcases decl_effects_inv hd with hd | hlab
  · exact h.own h2 hst k hd
  · exact (hj (hb.leads_unique (hn.leader hst) (hlead _ _ hlab))).elim

theorem NodeCommit.restart (h : Counted g i rf) (hs : rf.Stored) :
    NodeCommit g i (.boot i rf.persister) where
  toCounted := h.restart hs
  own := by
    intro hn hst
    rw [Proc.boot, Raft.make_state, if_neg hn] at hst
    cases hst
  pending := fun _ _ hm => nomatch hm
  batch := fun _ _ hm => nomatch hm
  snaps := fun _ _ hm => nomatch hm

theorem Commits.event (h : Commits s g) (hin : s.Inbox i ev) : EventCommit g ev := by
  cases ev with
  | appendEntries args =>
    obtain ⟨r, hr, _, hcall⟩ := hin.appendEntries
    exact h.call r.caller r.server _ (.rpc r hr rfl rfl hcall)
  | installSnapshot args =>
    obtain ⟨r, hr, _, hcall⟩ := hin.installSnapshot
    exact h.call r.caller r.server _ (.rpc r hr rfl rfl hcall)
  | _ => trivial

theorem Logs.taken (h : Logs s g) (he : Elects s g) (hc : Complete g) (hin : s.Inbox i ev)
    (hs : (s.procs i).step s.now ev = some p) (hfit : (s.procs i).fits ev = true) :
    Taken g i (s.procs i) ev p := by
  obtain ⟨hok, hsim⟩ := (he.node i).step he.ballot (he.solo i)
    (fun args reply heq hcand hlead => he.quorum (heq ▸ hin) hcand hlead) (he.two_le_of hin) hs
  obtain ⟨hlog, hnode⟩ := (h.node i).step (he.node i) he.ballot h.matching (h.event he hin)
    (Proc.fits_snapshot hfit) (he.solo i) hok hs
  exact {
    node := he.node i
    log := h.node i
    ballot := he.ballot
    matching := h.matching
    complete := hc
    solo := he.solo i
    event := h.event he hin
    fits := hfit
    ok := along_and hok hlog
    step := ⟨_, hs⟩
    node' := hsim
    log' := hnode }

theorem Commits.turn (h : Commits s g) (he : Elects s g) (hl : Logs s g)
    (ht : Cluster.Turn s a s') (hfit : s.Meets (fun p ev => p.fits ev = true) a) :
    Along Keeps g (s.labels a) ∧
      ∀ j, NodeCommit (g.effects (s.labels a)) j (s'.procs j) := by
  cases ht with
  | event i ev p hin ha hs hlab hp =>
    have htaken := hl.taken he h.complete hin hs (hfit.apply ha)
    rw [hlab, hp]
    refine ⟨htaken.keeps, assign_forall (P := fun j p => NodeCommit _ j p)
      ((h.node i).step htaken (h.event hin)) fun j hj => ?_⟩
    apply (h.node j).frame (he.node j) he.ballot (fun _ => Proc.labels_of) hj htaken.extends
    intro t k hm
    obtain ⟨rfl, hst, _⟩ := Proc.labels_commit hs hm
    exact (he.node i).leader hst
  | restart i hlab hp =>
    rw [hlab, hp]
    exact ⟨trivial, assign_forall (P := fun j p => NodeCommit _ j p)
      (NodeCommit.restart (h.node i).toCounted (he.node i).stored) fun j _ => h.node j⟩
  | crashIn r hr hlt hlab hp =>
    rw [hlab, hp]
    have hok : Ok g (.raise r.server r.call.term) :=
      ⟨((he.node r.server).stepDown he.ballot hlt).1, trivial⟩
    have hext := hl.matching.extends hok
    have hdown : Counted (g.effect (.raise r.server r.call.term)) r.server
        ((s.procs r.server).rf.stepDown r.call.term) :=
      (h.node r.server).toCounted.kept hext (List.take_prefix _ _) rfl rfl
    refine ⟨⟨trivial, trivial⟩, assign_forall (P := fun j p => NodeCommit _ j p)
      (NodeCommit.restart hdown (Raft.stepDown_stored (he.node r.server).stored)) fun j hj => ?_⟩
    have hof : ∀ l ∈ [Label.raise r.server r.call.term], l.Of (α := Bytes) r.server :=
      fun l hl => List.mem_singleton.1 hl ▸ rfl
    exact (h.node j).frame (he.node j) he.ballot hof hj hext fun t k hm => by simp at hm
  | idle hlab hp =>
    rw [hlab, hp]
    exact ⟨trivial, h.node⟩

theorem Commits.emitted_step (h : Commits s g) (hm : Cluster.Move s a s')
    (hk : (i, .command k c) ∈ s'.emitted) : Chosen g k c := by
  cases hm with
  | act j ev p hl hp hs =>
    rcases List.mem_append.1 hk with hk | hk
    · exact h.emitted i k c hk
    · simp only [Option.mem_toList, Option.map_eq_some_iff, Prod.mk.injEq] at hk
      obtain ⟨m, hm, rfl, rfl⟩ := hk
      cases ev with
      | emit => exact (h.node j).batch k c (List.mem_of_mem_head? hm)
      | emitSnap d => exact ((h.node j).snaps k c (List.mem_of_getElem? hm)).elim
      | _ => cases hm
  | _ => exact h.emitted i k c hk

theorem Commits.call_step (h : Commits s g) (he : Elects s g) (hl : Logs s g)
    (hm : Cluster.Move s a s') (hfit : s.Fits a) (hext : Extends g (g.effects (s.labels a)))
    (hc : s'.Carries i j c) : CallCommit (g.effects (s.labels a)) c := by
  cases hm.source hc with
  | old hc => exact (h.call i j c hc).extends hext
  | reread m ev rf hmem hj _ hd hw hlog heq =>
    rw [heq, Proc.settled_reread (Cluster.Within.apply hfit.2 hd) hw hlog hmem]
    exact (h.call i j _ (.send m hmem hj rfl)).extends hext
  | new ev p hin hev hs hlab hmakes =>
    have htaken := hl.taken he h.complete hin hs (hfit.1.apply hev)
    have hcount := ((h.node i).step htaken (h.event hin)).toCounted
    rw [hlab]
    exact htaken.calls hcount hmakes
  | answered r ev p hr _ _ _ _ _ heq =>
    rw [heq]
    exact ((h.call _ _ _ (.rpc r hr rfl rfl rfl)).extends hext).answered

/-- Every step of the cluster in which requests fit the receiver's log loses nothing committed. -/
theorem Commits.step (h : Commits s g) (he : Elects s g) (hl : Logs s g)
    (hm : Cluster.Move s a s') (hfit : s.Fits a)
    (hok : Along Ok g (s.labels a)) : Commits s' (g.effects (s.labels a)) := by
  obtain ⟨hkeeps, hnode⟩ := h.turn he hl hm.turn hfit.1
  have hext := hl.matching.extends_effects he.ballot hok
  exact ⟨h.complete.effects hl.matching he.ballot hok hkeeps, hnode,
    fun i j c hc => h.call_step he hl hm hfit hext hc,
    fun i k c hk => (h.emitted_step hm hk).extends hext⟩

theorem start_complete (n : Nat) : Complete (Record.start n) := by
  unfold Record.start
  split
  · refine complete_empty.effects matching_empty ballot_empty (start_ok ‹_›) (along_keeps ?_)
    rintro l hl v t m rfl
    simp at hl
  · exact complete_empty

theorem commits_init (n : Nat) : Commits (.init n) (.start n) := by
  refine ⟨start_complete n, fun i => ?_, fun i j c hc => (Cluster.not_carries_init hc).elim, nofun⟩
  have himg := Raft.make_none i
  have hli : (Raft.make i none).lastIncludeIndex = 0 := congrArg RaftState.lastIncludeIndex himg
  have hci := (Raft.make_commitIndex i none).1
  have hcount : Counted (.start n) i (.make i none) := by
    refine ⟨Nat.le_of_eq hci.symm, ?_, ?_⟩
    · rw [hci, hli]
      exact Nat.zero_le _
    · rw [hci, hli]
      exact .inl rfl
  have hboot := NodeCommit.restart hcount (Raft.make_stored i)
  rw [Raft.make_persister] at hboot
  exact hboot

theorem Cluster.Traced.mono (h : Traced ok s g) (hok : ∀ s a, ok s a → ok' s a) :
    Traced ok' s g := by
  induction h with
  | init => exact .init
  | step _ ha hs ih => exact .step ih (hok _ _ ha) hs

theorem Cluster.Meets.mono {Q R : Proc n → Event n → Prop} (h : s.Meets Q a)
    (hQR : ∀ p ev, Q p ev → R p ev) : s.Meets R a := by
  unfold Meets at h ⊢
  cases he : s.event a with
  | none => trivial
  | some e =>
    rw [he] at h
    exact hQR _ _ h

theorem Cluster.Traced.fit_logs (h : Traced Fits s g) : Logs s g :=
  (h.mono fun _ _ ha => ⟨ha.1.mono fun _ _ => Proc.fits_snapshot, ha.2⟩).logs

theorem Cluster.Traced.commits (h : Traced Fits s g) : Commits s g := by
  induction h with
  | init => exact commits_init n
  | step ht ha hs ih =>
    have hl := ht.fit_logs
    have hok :=
      (hl.step ht.elects (step_move hs) (ha.1.mono fun _ _ => Proc.fits_snapshot) ha.2).1
    exact ih.step ht.elects hl (step_move hs) ha hok

/-- No two nodes apply different commands at one index, in every run in which no request takes
back a part of the receiver's log that the sender's log has as well and none carries what its
sender's log had after it was made. -/
theorem state_machine_safety (h : s.ReachableBy Cluster.Fits)
    (hi : (i, .command k c) ∈ s.emitted) (hj : (j, .command k c') ∈ s.emitted) : c = c' := by
  obtain ⟨g, hg⟩ := Cluster.ReachableBy.traced h
  have hc := hg.commits
  exact (hc.emitted i k c hi).unique (hc.emitted j k c' hj) hc.complete hg.fit_logs.matching

/-- Nodes 0 and 1 both apply the entry node 0 has committed. -/
theorem state_machine_safety_replicated : ∃ s : Cluster 3,
    s.ReachableBy Cluster.Fits ∧
    (0, .command 1 [1]) ∈ s.emitted ∧ (1, .command 1 [1]) ∈ s.emitted ∧
    ∀ j c, (j, .command 1 c) ∈ s.emitted → c = [1] := by
  have hrun : RunsTo Cluster.step Cluster.Fits
      (fun s => (0, .command 1 [1]) ∈ s.emitted ∧ (1, .command 1 [1]) ∈ s.emitted) (.init 3)
      [.act 0 .tick, .act 0 .startElection, .handle 0, .reply 0, .drop 0, .act 0 (.start [1]),
        .act 0 (.replicate 1), .act 0 (.send 0), .handle 0, .reply 0, .act 0 (.replicate 1),
        .act 0 (.send 0), .handle 0, .act 0 .collect, .act 0 .emit, .act 1 .collect,
        .act 1 .emit] := by
    decide +kernel
  obtain ⟨s, hs, h0, h1⟩ := hrun.reachable
  exact ⟨s, hs, h0, h1, fun j c hj => state_machine_safety hs hj h0⟩

/-- A delayed shorter request makes node 1 drop an acknowledged entry that node 0 has applied;
node 1 then wins the next election and commits another command in its place. -/
theorem state_machine_safety_fails : ∃ s : Cluster 3, s.Reachable ∧
    (0, .command 2 [2]) ∈ s.emitted ∧ (1, .command 2 [3]) ∈ s.emitted := by
  have hrun : RunsTo Cluster.step (fun _ _ => True)
      (fun s => (0, .command 2 [2]) ∈ s.emitted ∧ (1, .command 2 [3]) ∈ s.emitted) (.init 3)
      [.act 0 .tick, .act 0 .startElection, .handle 0, .reply 0, .drop 0, .act 0 (.start [1]),
        .act 0 (.replicate 1), .act 0 (.send 0), .act 0 (.start [2]), .act 0 (.replicate 1),
        .act 0 (.send 0), .handle 1, .reply 1, .act 0 (.replicate 2), .act 0 (.send 0), .drop 1,
        .act 0 .collect, .act 0 .emit, .act 0 .emit, .handle 0, .act 1 .tick, .act 1 .startElection,
        .handle 2, .reply 2, .act 1 (.start [3]), .act 1 (.replicate 2), .act 1 (.send 0),
        .handle 2, .reply 2, .act 1 (.replicate 2), .act 1 (.send 0), .handle 2, .reply 2,
        .act 1 (.replicate 2), .act 1 (.send 0), .act 1 .collect, .act 1 .emit, .act 1 .emit] := by
    decide +kernel
  obtain ⟨s, hs, h0, h1⟩ := hrun.reachable
  exact ⟨s, hs, h0, h1⟩

end

end LinKV

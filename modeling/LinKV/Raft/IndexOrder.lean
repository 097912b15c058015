import LinKV.Raft.Commits
import LinKV.Raft.Numbering
import LinKV.Raft.ReadWait

namespace LinKV
open Consensus
set_option autoImplicit true

namespace Raft

/-- What is compacted has been applied, what is applied has been committed, and what is committed
is in the log. -/
structure IndexOrder (rf : Raft n) : Prop where
  compacted : rf.lastIncludeIndex ≤ rf.lastApplied
  applied : rf.lastApplied ≤ rf.commitIndex
  committed : rf.commitIndex ≤ rf.lastLogIndex

instance IndexOrder.decidable (rf : Raft n) : Decidable rf.IndexOrder :=
  decidable_of_iff (rf.lastIncludeIndex ≤ rf.lastApplied ∧ rf.lastApplied ≤ rf.commitIndex ∧
      rf.commitIndex ≤ rf.lastLogIndex)
    ⟨fun h => ⟨h.1, h.2.1, h.2.2⟩, fun h => ⟨h.compacted, h.applied, h.committed⟩⟩

/-- The node is in order and has not taken back what was committed in `rf`. -/
def Advances (rf rf' : Raft n) : Prop := rf'.IndexOrder ∧ rf.commitIndex ≤ rf'.commitIndex

end Raft

/-- A request that replaces a part of the log reaches what the node has committed. -/
def Proc.keepsCommitted (p : Proc n) : Event n → Bool
  | .appendEntries args =>
    !p.rf.accepts args || args.entries = [] ||
      p.rf.commitIndex ≤ args.prevLogIndex + args.entries.length
  | _ => true

/-- The process a step restarts. -/
def Cluster.restarts (s : Cluster n) : Action n → Option (Fin n)
  | .act i ev => if (s.procs i).panics ev then some i else none
  | .crashIn k => s.rpcs[k]?.map Rpc.server
  | .crashStart i _ => some i
  | .crash i => some i
  | _ => none

/-- After the step every node is in order, and no commit index has gone back without a restart. -/
def Cluster.Advances (s : Cluster n) (a : Action n) (s' : Cluster n) : Prop :=
  ∀ i, (s'.procs i).rf.IndexOrder ∧ (s.restarts a ≠ some i →
    (s.procs i).rf.commitIndex ≤ (s'.procs i).rf.commitIndex)

namespace Raft

section

variable {rf rf' : Raft n}

theorem lastLogIndex_congr (hlog : rf'.log = rf.log)
    (hli : rf'.lastIncludeIndex = rf.lastIncludeIndex) : rf'.lastLogIndex = rf.lastLogIndex := by
  rw [lastLogIndex, lastLogIndex, hlog, hli]

theorem Same.lastLogIndex (h : Same rf rf') : rf'.lastLogIndex = rf.lastLogIndex :=
  lastLogIndex_congr h.log h.lastIncludeIndex

theorem IndexOrder.same (h : rf.IndexOrder) (hi : rf.SameIndices rf') (hlog : rf'.log = rf.log) :
    rf.Advances rf' := by
  refine ⟨⟨?_, ?_, ?_⟩, Nat.le_of_eq hi.commitIndex.symm⟩
  · rw [hi.lastIncludeIndex, hi.lastApplied]
    exact h.compacted
  · rw [hi.lastApplied, hi.commitIndex]
    exact h.applied
  · rw [hi.commitIndex, lastLogIndex_congr hlog hi.lastIncludeIndex]
    exact h.committed

theorem IndexOrder.commit (h : rf.IndexOrder)
    (hli : rf'.lastIncludeIndex = rf.lastIncludeIndex)
    (hla : rf'.lastApplied = rf.lastApplied) (hle : rf.commitIndex ≤ rf'.commitIndex)
    (hlast : rf'.commitIndex ≤ rf'.lastLogIndex) : rf.Advances rf' := by
  refine ⟨⟨?_, ?_, hlast⟩, hle⟩
  · rw [hli, hla]
    exact h.compacted
  · rw [hla]
    exact Nat.le_trans h.applied hle

theorem IndexOrder.search (h : rf.IndexOrder) (hs : rf.Same rf')
    (hla : rf'.lastApplied = rf.lastApplied)
    (hc : rf'.commitIndex = rf.commitIndex ∨
      (rf.state = .leader ∧ rf'.commitIndex = rf.commitSearch rf.lastLogIndex)) :
    rf.Advances rf' := by
  have hcom := h.committed
  rcases hc with hc | ⟨_, hc⟩
  · apply h.commit hs.lastIncludeIndex hla (Nat.le_of_eq hc.symm)
    rw [hc, hs.lastLogIndex]
    exact hcom
  · rcases commitSearch_spec rf rf.lastLogIndex with he | ⟨hlt, _, hle, _⟩
    · rw [he] at hc
      apply h.commit hs.lastIncludeIndex hla (Nat.le_of_eq hc.symm)
      rw [hc, hs.lastLogIndex]
      exact hcom
    · apply h.commit hs.lastIncludeIndex hla
      · rw [hc]
        exact Nat.le_of_lt hlt
      · rw [hc, hs.lastLogIndex]
        exact hle

theorem IndexOrder.start (h : rf.IndexOrder) (hw : rf.Contiguous) (command : Bytes) :
    rf.Advances (rf.start command) := by
  have hcom := h.committed
  unfold Raft.start
  split
  · exact ⟨h, Nat.le_refl _⟩
  · have hlen := hw.length
    refine h.commit rfl rfl ?_ ?_
    · simp only [persist]
      split <;> omega
    · simp only [persist, lastLogIndex, List.length_append, List.length_singleton]
      split <;> omega

theorem Collected.le (h : Collected rf a ms b) (ha : a ≤ rf.commitIndex) :
    a ≤ b ∧ b ≤ rf.commitIndex := by
  induction h with
  | nil => exact ⟨Nat.le_refl _, ha⟩
  | cons hc _ _ ih =>
    obtain ⟨hle, hle'⟩ := ih hc
    exact ⟨by omega, hle'⟩

theorem IndexOrder.applier (h : rf.IndexOrder) : rf.Advances rf.applier.1 := by
  have hidle := rf.applier_idle
  have hcom := h.compacted
  rcases rf.applier_cases with ⟨hlt, _⟩ | ⟨_, hcol⟩
  · omega
  · obtain ⟨hle, hle'⟩ := hcol.le h.applied
    refine ⟨⟨?_, ?_, ?_⟩, Nat.le_of_eq hidle.commitIndex.symm⟩
    · rw [hidle.lastIncludeIndex]
      omega
    · rw [hidle.commitIndex]
      exact hle'
    · rw [hidle.commitIndex, hidle.lastLogIndex]
      exact h.committed

theorem lastLogIndex_compact (hn : Numbered rf.lastIncludeIndex rf.log) (hne : rf.log ≠ [])
    (hi : rf.lastIncludeIndex ≤ index) (hli : rf'.lastIncludeIndex = index)
    (hlog : rf'.log = Raft.compacted rf.log index t) :
    rf'.lastLogIndex = max rf.lastLogIndex index := by
  have hpos := List.length_pos_iff.2 hne
  rw [lastLogIndex, lastLogIndex, hli, hlog, Raft.compacted, hn.filter (by omega),
    List.length_cons, List.length_drop]
  omega

theorem IndexOrder.snapshotAt (h : rf.IndexOrder) (hw : rf.Contiguous) (hi : index ≤ rf.lastApplied)
    (hs : rf.snapshotAt index data = some rf') : rf.Advances rf' := by
  have hcom := h.applied
  have hlast := h.committed
  rcases snapshotAt_cases hs with ⟨_, rfl⟩ | ⟨hlt, _, _, _, _, _, _, hli, _, hlog, hci, hla, _⟩
  · exact ⟨h, Nat.le_refl _⟩
  · have hmax := lastLogIndex_compact hw.numbered hw.log (Nat.le_of_lt hlt) hli hlog
    exact ⟨⟨by omega, by omega, by omega⟩, by omega⟩

theorem IndexOrder.snapshotAt_isSome (h : rf.IndexOrder) (hw : rf.Contiguous)
    (hi : index ≤ rf.lastApplied) (data : Bytes) : (rf.snapshotAt index data).isSome = true := by
  have happ := h.applied
  have hcom := h.committed
  have hlen := hw.length
  unfold Raft.snapshotAt
  split
  · rfl
  · rw [if_neg (by omega)]
    rfl

theorem IndexOrder.installSnapshot (h : rf.IndexOrder) (hw : rf.Contiguous)
    (args : InstallSnapshotArgs n) : rf.Advances (rf.installSnapshot args).1 := by
  have hfol : rf.SameIndices (rf.follow args.term) :=
    ⟨catchUp_commitIndex, catchUp_lastApplied, catchUp_lastIncludeIndex⟩
  have hadv := h.same hfol catchUp_log
  rcases rf.installSnapshot_cases args with ⟨_, he, _⟩ | ⟨_, ⟨_, he, _⟩ | ⟨hi, he, _⟩⟩ <;> rw [he]
  · exact ⟨h, Nat.le_refl _⟩
  · exact hadv
  · have hli : (rf.follow args.term).lastIncludeIndex ≤ args.lastIncludeIndex :=
      hfol.lastIncludeIndex ▸ Nat.le_of_lt hi
    have hf := hw.follow args.term
    have hmax : ((rf.follow args.term).install args).lastLogIndex =
        max (rf.follow args.term).lastLogIndex args.lastIncludeIndex :=
      lastLogIndex_compact hf.numbered hf.log hli rfl rfl
    have hci : ((rf.follow args.term).install args).commitIndex =
        max (rf.follow args.term).commitIndex args.lastIncludeIndex := rfl
    have hla : ((rf.follow args.term).install args).lastApplied =
        max (rf.follow args.term).lastApplied args.lastIncludeIndex := rfl
    have hli' : ((rf.follow args.term).install args).lastIncludeIndex =
        args.lastIncludeIndex := rfl
    obtain ⟨⟨_, happ, hcom⟩, hle⟩ := hadv
    exact ⟨⟨by omega, by omega, by omega⟩, by omega⟩

theorem appendEntries_success (rf : Raft n) (args : AppendEntriesArgs n) :
    (rf.appendEntries args).2.success = rf.accepts args := by
  have hlog : (rf.follow args.term).log = rf.log := catchUp_log
  have hli : (rf.follow args.term).lastIncludeIndex = rf.lastIncludeIndex :=
    catchUp_lastIncludeIndex
  rw [Bool.eq_iff_iff]
  simp only [accepts, Bool.and_eq_true, decide_eq_true_eq]
  unfold appendEntries
  simp only [hlog, hli]
  grind

/-- `AppendEntries` leaves the node in order and its commit index where it was or higher exactly
when it cuts off nothing that is committed. -/
theorem IndexOrder.appendEntries (h : rf.IndexOrder) (hw : rf.Contiguous)
    (args : AppendEntriesArgs n) : rf.Advances (rf.appendEntries args).1 ↔
      (rf.accepts args = true → args.entries ≠ [] →
        rf.commitIndex ≤ args.prevLogIndex + args.entries.length) := by
  have hfol : rf.SameIndices (rf.follow args.term) :=
    ⟨catchUp_commitIndex, catchUp_lastApplied, catchUp_lastIncludeIndex⟩
  have hflog : (rf.follow args.term).log = rf.log := catchUp_log
  have hadv := h.same hfol hflog
  have hsucc := rf.appendEntries_success args
  rcases rf.appendEntries_cases args with
    ⟨_, he, hs⟩ | ⟨_, ⟨he, hs⟩ | ⟨hli, hlen, _, he, hs⟩⟩ <;> rw [he] <;> rw [hs] at hsucc
  · exact iff_of_true ⟨h, Nat.le_refl _⟩ fun ha => absurd (hsucc.trans ha) Bool.false_ne_true
  · exact iff_of_true hadv fun ha => absurd (hsucc.trans ha) Bool.false_ne_true
  · have hspec := (rf.follow args.term).overwrite_spec args
    have hci := hspec.commitIndex
    have hfc := hfol.commitIndex
    have hlen' := hw.length
    have hcom := h.committed
    rw [hfc] at hci
    by_cases hent : args.entries = []
    · refine iff_of_true ?_ fun _ hne => absurd hent hne
      have hlog := hspec.log
      rw [if_pos hent, hflog] at hlog
      have hlast := lastLogIndex_congr hlog (hspec.lastIncludeIndex.trans hfol.lastIncludeIndex)
      rw [hlast] at hci
      apply h.commit (hspec.lastIncludeIndex.trans hfol.lastIncludeIndex)
        (hspec.lastApplied.trans hfol.lastApplied) <;> rw [hci] <;> split <;> omega
    · have hlast : ((rf.follow args.term).overwrite args).lastLogIndex =
          args.prevLogIndex + args.entries.length := by
        have hlog := hspec.log
        rw [if_neg hent, hflog, hfol.lastIncludeIndex] at hlog
        rw [Raft.lastLogIndex, hspec.lastIncludeIndex, hfol.lastIncludeIndex, hlog,
          List.length_append, List.length_take]
        omega
      rw [hlast] at hci
      constructor
      · rintro ⟨ho, hle⟩ _ _
        exact hlast ▸ Nat.le_trans hle ho.committed
      · intro hle
        have hle := hle hsucc.symm hent
        apply h.commit (hspec.lastIncludeIndex.trans hfol.lastIncludeIndex)
          (hspec.lastApplied.trans hfol.lastApplied) <;> rw [hci] <;> split <;> omega

end

end Raft

section

variable {p p' : Proc n} {s s' : Cluster n}

theorem Raft.requestVote_log (rf : Raft n) (args : RequestVoteArgs n) :
    (rf.requestVote args).1.log = rf.log := by
  rcases rf.requestVote_cases args with ⟨_, he⟩ | ⟨_, he | ⟨_, _, he⟩⟩ <;> rw [he]
  · exact Raft.catchUp_log
  · exact Raft.catchUp_log

/-- Every event but a request that cuts off committed entries keeps the node in order. -/
theorem Proc.order_step (h : p.rf.IndexOrder) (hw : p.rf.Contiguous) (hc : p.pipe.Covers)
    (hs : p.step now ev = some p') :
    p.rf.Advances p'.rf ↔ p.keepsCommitted ev = true := by
  by_cases hev : ∃ args, ev = .appendEntries args
  · obtain ⟨args, rfl⟩ := hev
    cases hs
    rw [h.appendEntries hw args]
    simp only [keepsCommitted, Bool.or_eq_true, Bool.not_eq_true', decide_eq_true_eq, ne_eq]
    grind
  · have hok : p.keepsCommitted ev = true := by
      cases ev <;> first | rfl | exact absurd ⟨_, rfl⟩ hev
    refine iff_of_true ?_ hok
    cases step_takes hs with
    | tick | emit | emitSnap | receive | finish | readExit | copy | send =>
      exact ⟨h, Nat.le_refl _⟩
    | startElection | soloLeader | readIndex | readSignal | readTimeout =>
      exact h.same ⟨rfl, rfl, rfl⟩ rfl
    | readReturn c =>
      unfold readReturn
      split
      · exact h.same ⟨rfl, rfl, rfl⟩ rfl
      · exact ⟨h, Nat.le_refl _⟩
    | logUpdate =>
      exact h.search p.rf.logUpdate_same p.rf.logUpdate_lastApplied p.rf.logUpdate_spec.1
    | replicate server =>
      exact h.search (p.rf.replicate_same server) (p.rf.replicate_lastApplied server)
        (p.rf.replicate_spec server).1
    | start command => exact h.start hw command
    | collect => exact h.applier
    | snapshot index c data rf hi hrf =>
      have hle := hc.le _ (Pipeline.mem_all.2 (.inr (.inl hi)))
      exact h.snapshotAt hw hle hrf
    | requestVote args =>
      exact h.same (p.rf.requestVote_indices args) (p.rf.requestVote_log args)
    | appendEntries args => exact absurd ⟨args, rfl⟩ hev
    | installSnapshot args => exact h.installSnapshot hw args
    | requestVoteReply args reply =>
      apply h.same (p.requestVoteReply_indices args reply)
      rcases p.requestVoteReply_cases args reply with
        he | ⟨_, _, ⟨_, he⟩ | ⟨_, _, ⟨_, he⟩ | he⟩⟩ <;> rw [he] <;> rfl
    | appendEntriesReply server args reply =>
      apply h.same (p.rf.appendEntriesReply_indices server args reply)
      rcases p.rf.appendEntriesReply_cases server args reply with hd | hsame
      · exact hd.log
      · exact hsame.log
    | installSnapshotReply server args reply =>
      apply h.same (p.rf.installSnapshotReply_indices server args reply)
      rcases p.rf.installSnapshotReply_cases server args reply with hd | hsame
      · exact hd.log
      · exact hsame.log

theorem Proc.order_boot (hw : (boot i e).rf.Contiguous) : (boot i e).rf.IndexOrder := by
  obtain ⟨hci, hla⟩ := Raft.make_commitIndex i e
  exact ⟨Nat.le_of_eq hla.symm, Nat.le_of_eq (hla.trans hci.symm),
    Nat.le_trans (Nat.le_of_eq hci) hw.le⟩

theorem Cluster.ReachableBy.any (h : s.ReachableBy ok) : s.Reachable := h.mono fun _ _ _ => trivial

theorem Cluster.ReachableBy.indexOrder
    (h : s.ReachableBy (Meets fun p ev => p.keepsCommitted ev = true)) (i : Fin n) :
    (s.procs i).rf.IndexOrder := by
  induction h generalizing i with
  | init => exact Proc.order_boot (Raft.contiguous_make i)
  | @step s a s' hr ha hs ih =>
    have hw := (ReachableBy.contiguous (.step hr ha hs)).node
    have hset {j : Fin n} {p : Proc n} (hp' : s'.procs = assign s.procs j p)
        (hp : (s'.procs j).rf.Contiguous → p.rf.IndexOrder) : (s'.procs i).rf.IndexOrder := by
      have hp := hp (hw j)
      rw [hp']
      exact assign_forall (P := fun _ (p : Proc n) => p.rf.IndexOrder) hp (fun k _ => ih k) i
    cases (step_move hs).turn with
    | event j ev p _ hev hst _ hp =>
      refine hset hp fun _ => ?_
      have hcov := (ReachableBy.any hr).covers j
      have hwell := (ReachableBy.contiguous hr).node j
      exact ((Proc.order_step (ih j) hwell hcov hst).2 (ha.apply hev)).1
    | restart j _ hp =>
      refine hset hp fun hw => Proc.order_boot ?_
      rwa [hp, assign_self] at hw
    | crashIn r _ _ _ hp =>
      refine hset hp fun hw => Proc.order_boot ?_
      rwa [hp, assign_self] at hw
    | idle _ hp => exact hp ▸ ih i

theorem Proc.order_panics (h : p.rf.IndexOrder) (hw : p.rf.Contiguous) (hc : p.pipe.Covers)
    (ev : Event n) : p.panics ev = false := by
  cases ev with
  | finish snapshot =>
    cases snapshot with
    | none => rfl
    | some data =>
      simp only [panics]
      split
      · next i _ hi =>
        have hle : i ≤ p.rf.lastApplied := hc.le _ (Pipeline.mem_all.2 (.inr (.inl hi)))
        rw [← Option.not_isSome, h.snapshotAt_isSome hw hle data]
        rfl
      · rfl
  | _ => rfl

theorem Cluster.meets_iff {Q : Proc n → Event n → Prop} (ha : s.event a = some (i, ev)) :
    s.Meets Q a ↔ Q (s.procs i) ev := by
  rw [Meets, ha]
  exact Iff.rfl

theorem Cluster.advances_assign {p : Proc n} (h : ∀ j, (s.procs j).rf.IndexOrder)
    (hp : s'.procs = assign s.procs i p) (hr : s.restarts a = none) :
    s.Advances a s' ↔ (s.procs i).rf.Advances p.rf := by
  unfold Advances
  rw [hp]
  constructor
  · intro hall
    have hi := hall i
    rw [assign_self] at hi
    exact ⟨hi.1, hi.2 (hr ▸ nofun)⟩
  · intro ha
    exact assign_forall (P := fun j (p : Proc n) => p.rf.IndexOrder ∧ (s.restarts a ≠ some j →
        (s.procs j).rf.commitIndex ≤ p.rf.commitIndex))
      ⟨ha.1, fun _ => ha.2⟩ fun j _ => ⟨h j, fun _ => Nat.le_refl _⟩

theorem Cluster.ReachableBy.advances
    (h : s.ReachableBy (Meets fun p ev => p.keepsCommitted ev = true)) (hm : Move s a s')
    (hs : s.step a = some s') :
    s.Advances a s' ↔ s.Meets (fun p ev => p.keepsCommitted ev = true) a := by
  have hw := h.contiguous.node
  have hcov := (ReachableBy.any h).covers
  have hord := h.indexOrder
  have htaken {i : Fin n} {ev : Event n} {p : Proc n} (ha : s.event a = some (i, ev))
      (hst : (s.procs i).step s.now ev = some p) (hp : s'.procs = assign s.procs i p)
      (hr : s.restarts a = none) :
      s.Advances a s' ↔ s.Meets (fun p ev => p.keepsCommitted ev = true) a := by
    rw [meets_iff ha, ← Proc.order_step (hord i) (hw i) (hcov i) hst]
    exact advances_assign hord hp hr
  have hcrash {i : Fin n} {p : Proc n} (hp : s'.procs = assign s.procs i p)
      (hr : s.restarts a = some i) (hok : s.Meets (fun p ev => p.keepsCommitted ev = true) a) :
      s.Advances a s' ↔ s.Meets (fun p ev => p.keepsCommitted ev = true) a := by
    refine iff_of_true (fun j => ⟨ReachableBy.indexOrder (.step h hok hs) j, fun hj => ?_⟩) hok
    have hne : j ≠ i := fun he => hj (he.symm ▸ hr)
    rw [hp, assign_ne _ _ hne]
  cases hm with
  | act i ev p _ hp hst => exact htaken rfl hst rfl (if_neg (Bool.eq_false_iff.1 hp))
  | panic i ev hp => cases (Proc.order_panics (hord i) (hw i) (hcov i) ev).symm.trans hp
  | handle k r ev p hr he hst =>
    refine htaken ?_ hst rfl rfl
    simp only [event, hr, he, Option.bind_some, Option.map_some]
  | reply k r ev p hr he hst =>
    refine htaken ?_ hst rfl rfl
    simp only [event, hr, he, Option.bind_some, Option.map_some]
  | drop => exact iff_of_true (fun j => ⟨hord j, fun _ => Nat.le_refl _⟩) trivial
  | crash i => exact hcrash (i := i) rfl rfl trivial
  | crashStart i => exact hcrash (i := i) rfl rfl trivial
  | crashIn k r _ hr _ =>
    refine hcrash (i := r.server) rfl ?_ trivial
    simp only [restarts, hr, Option.map_some]

/-- What is compacted, applied, committed and in the log stays in this order at every node, and
`Snapshot` never runs past the end of the log, in every run in which each request that replaces a
part of a log reaches what the receiver has committed. From such a state a step breaks the order
or takes a commit index back exactly when it takes a request that does not. -/
theorem index_order
    (h : s.ReachableBy (Cluster.Meets fun p ev => p.keepsCommitted ev = true)) :
    (∀ i, (s.procs i).rf.IndexOrder ∧ ∀ ev, (s.procs i).panics ev = false) ∧
    ∀ a s', s.step a = some s' →
      (s.Advances a s' ↔ s.Meets (fun p ev => p.keepsCommitted ev = true) a) := by
  have hcov := (Cluster.ReachableBy.any h).covers
  refine ⟨fun i => ⟨h.indexOrder i, ?_⟩, fun a s' hs => h.advances (Cluster.step_move hs) hs⟩
  exact Proc.order_panics (h.indexOrder i) (h.contiguous.node i) (hcov i)

end

/-- Node 0 leads and sends node 1 one entry and then two; the longer request overtakes the shorter
one. Node 1 learns that both entries are committed. -/
def overtakingRequest : List (Action 3) :=
  [.act 0 .tick, .act 0 .startElection, .handle 0, .reply 0, .drop 0, .act 0 (.start [1]),
    .act 0 (.replicate 1), .act 0 (.send 0), .act 0 (.start [2]), .act 0 (.replicate 1),
    .act 0 (.send 0), .handle 1, .reply 1, .act 0 (.replicate 1), .act 0 (.send 0), .handle 1,
    .reply 1, .act 1 .collect, .act 1 .emit, .act 1 .emit, .act 1 .receive, .act 1 (.finish none),
    .act 1 .receive]

/-- Node 1 compacts what it has applied. -/
theorem index_order_compacted : ∃ s : Cluster 3,
    s.ReachableBy (Cluster.Meets fun p ev => p.keepsCommitted ev = true) ∧
    (s.procs 1).rf.lastIncludeIndex = 2 ∧ ∀ i, (s.procs i).rf.IndexOrder := by
  have hrun : RunsTo Cluster.step (Cluster.Meets fun p ev => p.keepsCommitted ev = true)
      (fun s => (s.procs 1).rf.lastIncludeIndex = 2) (.init 3)
      (overtakingRequest ++ [.drop 0, .act 1 (.finish (some [7]))]) := by
    decide +kernel
  obtain ⟨s, hs, hli⟩ := hrun.reachable
  exact ⟨s, hs, hli, fun i => ((index_order hs).1 i).1⟩

/-- The delayed shorter request cuts off the second entry, which node 1 has committed and applied:
its log ends before its commit index, and `Snapshot` at the entry in hand panics. -/
theorem index_order_fails : ∃ s : Cluster 3, s.Reachable ∧
    (s.procs 1).rf.commitIndex = 2 ∧ (s.procs 1).rf.lastLogIndex = 1 ∧
    ¬ (s.procs 1).rf.IndexOrder ∧ (s.procs 1).panics (.finish (some [7])) = true := by
  have hrun : RunsTo Cluster.step (fun _ _ => True)
      (fun s => (s.procs 1).rf.commitIndex = 2 ∧ (s.procs 1).rf.lastLogIndex = 1 ∧
        ¬ (s.procs 1).rf.IndexOrder ∧ (s.procs 1).panics (.finish (some [7])) = true) (.init 3)
      (overtakingRequest ++ [.handle 0]) := by
    decide +kernel
  exact hrun.reachable

end LinKV

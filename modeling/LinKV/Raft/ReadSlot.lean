import LinKV.Raft.Apply
import LinKV.Raft.Reading

namespace LinKV
open Consensus
set_option autoImplicit true

/-- The channel and the count of `ReadIndex` belong to the call that is under way, and are clear
when there is none. -/
structure Reading.Owned (x : Reading n) : Prop where
  free : x.call = none → x.ch = none ∧ x.count = 0
  held : x.call ≠ none → x.ch ≠ none

namespace Proc

/-- `pendingReadCh` is nil and `pendingReadCount` is 0. -/
def slotFree (p : Proc n) : Bool := p.rf.pendingReadCh = none && p.rf.pendingReadCount = 0

/-- A signalled `ReadIndex` finds the node still leader in the term the call began in. -/
def returnsLeading (p : Proc n) : Event n → Bool
  | .readReturn => p.readCall.all fun c => (p.readResult c).2
  | _ => true

section

variable {p p' : Proc n}

theorem slotFree_iff :
    p.slotFree = true ↔ p.rf.pendingReadCh = none ∧ p.rf.pendingReadCount = 0 := by
  simp only [slotFree, Bool.and_eq_true, decide_eq_true_eq]

theorem owned_boot (i : Fin n) (e : Option (RaftState n)) : (boot i e).reading.Owned where
  free _ := by
    simp only [reading, boot, Raft.make]
    cases e <;> simp only [Raft.readPersist] <;> split <;> exact ⟨rfl, rfl⟩
  held h := absurd rfl h

theorem owned_same (h : p.reading.Owned) (hc : p'.readCall = p.readCall)
    (hr : p.rf.SameReads p'.rf) : p'.reading.Owned := by
  have he : p'.reading = p.reading := by simp only [reading, hc, hr.1, hr.2]
  exact he ▸ h

theorem appendEntriesReply_owned (h : p.reading.Owned) (server : Fin n)
    (args : AppendEntriesArgs n) (reply : AppendEntriesReply) :
    (p.appendEntriesReply server args reply).reading.Owned := by
  rcases p.rf.appendEntriesReply_reads server args reply with
    ⟨hc, hsame⟩ | ⟨_, filled, hch, hch', _⟩
  · refine owned_same h ?_ hsame
    simp only [appendEntriesReply, hc, Bool.false_eq_true, ↓reduceIte, Option.map_id_fun', id_eq]
  · refine ⟨fun hn => ?_, fun _ => ?_⟩
    · have hfree := (h.free (Option.map_eq_none_iff.1 hn)).1
      cases hch.symm.trans hfree
    · simp only [reading, appendEntriesReply, hch', ne_eq, reduceCtorEq, not_false_eq_true]

theorem readReturn_owned (h : p.reading.Owned) (hc : p.readCall = some c) :
    (p.readReturn c).reading.Owned ↔ (p.readResult c).2 = true := by
  have hheld : p.rf.pendingReadCh ≠ none := by
    apply h.held
    simp only [reading, hc, ne_eq, reduceCtorEq, not_false_eq_true]
  unfold readReturn
  split
  · next hr => exact ⟨fun _ => hr, fun _ => ⟨fun _ => ⟨rfl, rfl⟩, fun hn => absurd rfl hn⟩⟩
  · next hr => exact ⟨fun ho => absurd (ho.free rfl).1 hheld, fun ho => absurd ho hr⟩

theorem readReturn_none (hs : p.step now .readReturn = some p') : p'.readCall = none := by
  cases step_takes hs with
  | readReturn c =>
    unfold readReturn
    split <;> rfl

theorem owned_iff (hn : p.readCall = none) : p.reading.Owned ↔ p.slotFree = true := by
  rw [slotFree_iff]
  exact ⟨fun h => h.free hn, fun h => ⟨fun _ => h, fun hc => absurd hn hc⟩⟩

theorem owned_step (h : p.reading.Owned) (hs : p.step now ev = some p') :
    p'.reading.Owned ↔ p.returnsLeading ev = true := by
  by_cases hev : ev = .readReturn
  · subst hev
    cases step_takes hs with
    | readReturn c hc =>
      rw [readReturn_owned h hc, returnsLeading, hc, Option.all_some]
  · have hok : p.returnsLeading ev = true := by
      cases ev <;> first | rfl | exact absurd rfl hev
    refine iff_of_true ?_ hok
    cases step_takes hs with
    | tick | startElection | soloLeader | emit | emitSnap | receive | finish | readExit | copy
    | send => exact h
    | logUpdate => exact owned_same h rfl p.rf.logUpdate_reads
    | replicate server => exact owned_same h rfl (p.rf.replicate_reads server)
    | start command => exact owned_same h rfl (p.rf.start_reads command)
    | collect => exact owned_same h rfl p.rf.applier_reads
    | snapshot _ _ _ _ _ hrf => exact owned_same h rfl (Raft.snapshotAt_reads hrf)
    | readIndex => exact ⟨nofun, nofun⟩
    | readSignal => exact ⟨nofun, nofun⟩
    | readReturn => exact absurd rfl hev
    | readTimeout => exact ⟨fun _ => ⟨rfl, rfl⟩, fun hn => absurd rfl hn⟩
    | requestVote args => exact owned_same h rfl (p.rf.requestVote_reads args)
    | appendEntries args => exact owned_same h rfl (p.rf.appendEntries_reads args)
    | installSnapshot args => exact owned_same h rfl (p.rf.installSnapshot_reads args)
    | requestVoteReply args reply =>
      rcases p.requestVoteReply_cases args reply with
        he | ⟨_, _, ⟨_, he⟩ | ⟨_, _, ⟨_, he⟩ | he⟩⟩ <;> rw [he] <;> exact h
    | appendEntriesReply server args reply => exact appendEntriesReply_owned h server args reply
    | installSnapshotReply server args reply =>
      exact owned_same h rfl (p.rf.installSnapshotReply_reads server args reply)

end

end Proc

section

variable {s : Cluster n}

theorem Cluster.ReachableBy.owned
    (h : s.ReachableBy (Meets fun p ev => p.returnsLeading ev = true)) (i : Fin n) :
    (s.procs i).reading.Owned :=
  h.procs (fun _ _ _ _ ha hev => ha.apply hev) Proc.owned_boot
    (fun _ _ _ _ hp hev hs => (Proc.owned_step hp hs).2 hev) i

theorem Cluster.act_step (hs : s.step (.act i ev) = some s')
    (hp : (s.procs i).panics ev = false) : (s.procs i).step s.now ev = some (s'.procs i) := by
  cases step_move hs with
  | act _ _ p _ _ hst =>
    simp only [assign_self]
    exact hst
  | panic _ _ hp' => cases hp.symm.trans hp'

/-- A node without a `ReadIndex` under way has the slot free and refuses no call while it leads,
in every run in which each signalled call finds its node still leader in the call's term. The
exit of a signalled call frees the slot in this case only. -/
theorem read_index_releases
    (h : s.ReachableBy (Cluster.Meets fun p ev => p.returnsLeading ev = true)) (i : Fin n) :
    ((s.procs i).readCall = none → (s.procs i).slotFree = true ∧
      ((s.procs i).rf.state = .leader → ∀ now, ((s.procs i).readIndex now).isSome = true)) ∧
    ∀ c s', (s.procs i).readCall = some c → s.step (.act i .readReturn) = some s' →
      ((s'.procs i).slotFree = true ↔ ((s.procs i).readResult c).2 = true) := by
  have ho := h.owned i
  refine ⟨fun hn => ⟨Proc.slotFree_iff.2 (ho.free hn), fun hl now => ?_⟩, fun c s' hc hs => ?_⟩
  · have hfree := (ho.free hn).1
    simp only [Proc.reading] at hfree
    simp only [Proc.readIndex, hl, hfree, ne_eq, not_true_eq_false, or_self, ↓reduceIte,
      Option.isSome_some]
  · have hst := Cluster.act_step hs rfl
    rw [← Proc.owned_iff (Proc.readReturn_none hst), Proc.owned_step ho hst, Proc.returnsLeading,
      hc, Option.all_some]

end

/-- Node 0 serves a read and has the slot free again. -/
theorem read_index_releases_served : ∃ s : Cluster 3,
    s.ReachableBy (Cluster.Meets fun p ev => p.returnsLeading ev = true) ∧
    (s.procs 0).reads = [0] ∧ (s.procs 0).readCall = none ∧ (s.procs 0).slotFree = true ∧
    ∀ now, ((s.procs 0).readIndex now).isSome = true := by
  have hrun : RunsTo Cluster.step (Cluster.Meets fun p ev => p.returnsLeading ev = true)
      (fun s => (s.procs 0).reads = [0] ∧ (s.procs 0).readCall = none ∧
        (s.procs 0).rf.state = .leader) (.init 3)
      [.act 0 .tick, .act 0 .startElection, .handle 0, .reply 0, .drop 0, .act 0 .readIndex,
        .act 0 (.replicate 1), .act 0 (.send 0), .handle 0, .reply 0, .act 0 .readSignal,
        .act 0 .readReturn] := by
    decide +kernel
  obtain ⟨s, hs, hr, hc, hl⟩ := hrun.reachable
  obtain ⟨hfree, hcalls⟩ := (read_index_releases hs 0).1 hc
  exact ⟨s, hs, hr, hc, hfree, hcalls hl⟩

/-- Node 0 loses its leadership between the signal and the exit of a read. It leads again later
and refuses every read, although none is under way. -/
theorem read_index_releases_fails : ∃ s : Cluster 3, s.Reachable ∧
    (s.procs 0).readCall = none ∧ (s.procs 0).slotFree = false ∧
    (s.procs 0).rf.state = .leader ∧ ∀ now, (s.procs 0).readIndex now = none := by
  have hrun : RunsTo Cluster.step (fun _ _ => True)
      (fun s => (s.procs 0).readCall = none ∧ (s.procs 0).slotFree = false ∧
        (s.procs 0).rf.state = .leader ∧ (s.procs 0).rf.pendingReadCh ≠ none) (.init 3)
      [.act 0 .tick, .act 0 .startElection, .handle 0, .reply 0, .drop 0, .act 0 .readIndex,
        .act 0 (.replicate 1), .act 0 (.send 0), .handle 0, .reply 0, .act 0 .readSignal,
        .act 1 .tick, .act 1 .startElection, .handle 0, .drop 0, .drop 0, .act 0 .readReturn,
        .act 0 .tick, .act 0 .startElection, .handle 0, .reply 0] := by
    decide +kernel
  obtain ⟨s, hs, hc, hfree, hl, hch⟩ := hrun.reachable
  exact ⟨s, hs, hc, hfree, hl, fun now => if_pos (.inr hch)⟩

end LinKV

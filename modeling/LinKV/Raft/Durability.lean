import LinKV.Raft.Replication
import LinKV.Raft.LogMatching

namespace LinKV
set_option autoImplicit true

open Consensus Ledger

/-- The log goes up to the index, and has the command there unless the entry is compacted. -/
def Raft.Holds (rf : Raft n) (k : Nat) (c : Bytes) : Prop :=
  k ≤ rf.lastLogIndex ∧ (rf.lastIncludeIndex < k → rf.entryCommand k = some c)

section

variable {g g' : Record n} {s s' : Cluster n} {rf : Raft n} {L P : Log Bytes}

theorem Raft.Rep.holds (hr : rf.Rep L) (hp : P <+: L) (hk : 0 < k) (hc : P[k - 1]? = some (t, c)) :
    rf.Holds k c := by
  obtain ⟨hlt, -⟩ := List.getElem?_eq_some_iff.1 hc
  have hle := hp.length_le
  refine ⟨by rw [hr.lastLogIndex]; omega, fun hli => ?_⟩
  obtain ⟨rest, rfl⟩ := hp
  rw [hr.entryCommand hli, List.getElem?_append_left hlt, hc]
  rfl

theorem Cluster.Traced.onward (h : s.Traced Fits g)
    (hrun : Consensus.ReachableBy Cluster.step Fits s s') :
    ∃ g', s'.Traced Fits g' ∧ Extends g g' := by
  induction hrun with
  | init => exact ⟨g, h, .refl g⟩
  | step _ ha hs ih =>
    obtain ⟨g', hg', he⟩ := ih
    exact ⟨_, .step hg' ha hs, he.trans (hg'.extends ha hs)⟩

/-- An entry that a node has counted as committed is never lost. At any later time a majority of
the nodes holds it, every leader of a term no older than that node's was holds it, and every node
that counts its index as committed holds it, also after crashes and restarts. -/
theorem committed_entries_last (h : s.ReachableBy Cluster.Fits)
    (hrun : Consensus.ReachableBy Cluster.step Cluster.Fits s s')
    (hk : (s.procs i).rf.lastIncludeIndex < k) (hle : k ≤ (s.procs i).rf.commitIndex)
    (hc : (s.procs i).rf.entryCommand k = some c) :
    (∃ Q : Finset (Fin n), Majority Q ∧ ∀ j ∈ Q, (s'.procs j).rf.Holds k c) ∧
    (∀ j, (s'.procs j).rf.state = .leader →
      (s.procs i).rf.currentTerm ≤ (s'.procs j).rf.currentTerm → (s'.procs j).rf.Holds k c) ∧
    ∀ j, k ≤ (s'.procs j).rf.commitIndex → (s'.procs j).rf.Holds k c := by
  obtain ⟨g, hg⟩ := Cluster.ReachableBy.traced h
  obtain ⟨g', hg', hext⟩ := hg.onward hrun
  have hcomplete := hg'.commits.complete
  have hmatch := hg'.fit_logs.matching
  have hrep (j : Fin n) := (hg'.fit_logs.node j).rep
  -- the entry stands in the prefix that the node has counted as committed
  have hnode := hg.commits.node i
  obtain ⟨t, hP⟩ : ∃ t, ((g.log i).take (s.procs i).rf.commitIndex)[k - 1]? = some (t, c) := by
    rw [(hg.fit_logs.node i).rep.entryCommand hk] at hc
    obtain ⟨⟨t, c'⟩, he, rfl⟩ := Option.map_eq_some_iff.1 hc
    exact ⟨t, by rw [List.getElem?_take_of_lt (by omega), he]⟩
  have hd := hnode.decided.extends hext
  have hpos : 0 < k := by omega
  refine ⟨?_, fun j hlead hterm => ?_, fun j hcj => ?_⟩
  · have hne : (g.log i).take (s.procs i).rf.commitIndex ≠ [] := by
      intro hnil
      rw [hnil] at hP
      cases hP
    obtain ⟨Q, hQ, hall⟩ := hd.majority hne hcomplete
    exact ⟨Q, hQ, fun j hj => (hrep j).holds (hall j hj) hpos hP⟩
  · have hsim := hg'.elects.node j
    have hleads := hsim.leader hlead
    have hlog := hmatch.leader_log j _ hleads hsim.term
    have hpre := hd.prefix_glog hcomplete hleads (by rwa [(hg.elects.node i).term])
    exact (hrep j).holds (hlog ▸ hpre) hpos hP
  · have hj := hg'.commits.node j
    have hlt := (List.getElem?_eq_some_iff.1 hP).1
    rcases hd.comparable hj.decided hcomplete hmatch with hpre | hpre
    · exact (hrep j).holds (hpre.trans (List.take_prefix _ _)) hpos hP
    · refine (hrep j).holds (List.take_prefix (s'.procs j).rf.commitIndex _) hpos (t := t) ?_
      have hlen := List.length_take_of_le hj.le
      obtain ⟨rest, hrest⟩ := hpre
      rw [← hrest, List.getElem?_append_left (by omega)] at hP
      exact hP

end

/-- Node 0 commits an entry and crashes, and node 1 is elected. -/
theorem committed_entries_last_elected : ∃ s s' : Cluster 3,
    (s.procs 0).rf.commitIndex = 1 ∧ (s.procs 0).rf.entryCommand 1 = some [1] ∧
    (s'.procs 0).rf.commitIndex = 0 ∧ (s'.procs 1).rf.state = .leader ∧
    (s'.procs 1).rf.currentTerm = 2 ∧ (s'.procs 1).rf.Holds 1 [1] ∧
    ∃ Q : Finset (Fin 3), Majority Q ∧ ∀ j ∈ Q, (s'.procs j).rf.Holds 1 [1] := by
  have hrun : RunsTo Cluster.step Cluster.Fits
      (fun s => (s.procs 0).rf.lastIncludeIndex = 0 ∧ (s.procs 0).rf.currentTerm = 1 ∧
        (s.procs 0).rf.commitIndex = 1 ∧ (s.procs 0).rf.entryCommand 1 = some [1] ∧
        RunsTo Cluster.step Cluster.Fits
          (fun s' => (s'.procs 0).rf.commitIndex = 0 ∧ (s'.procs 1).rf.state = .leader ∧
            (s'.procs 1).rf.currentTerm = 2) s
          [.crash 0, .act 1 .tick, .act 1 .startElection, .handle 1, .reply 1, .drop 0])
      (.init 3)
      [.act 0 .tick, .act 0 .startElection, .handle 0, .reply 0, .drop 0, .act 0 (.start [1]),
        .act 0 (.replicate 1), .act 0 (.send 0), .handle 0, .reply 0, .act 0 (.replicate 1),
        .act 0 (.send 0), .drop 0] := by
    decide +kernel
  obtain ⟨s, hs, hli, hterm, hci, hcmd, hthen⟩ := hrun.reachable
  obtain ⟨s', hs', hci', hlead, hterm'⟩ := RunsTo.reachable hthen
  obtain ⟨hQ, hleader, -⟩ :=
    committed_entries_last (k := 1) hs hs' (by omega) (Nat.le_of_eq hci.symm) hcmd
  exact ⟨s, s', hci, hcmd, hci', hlead, hterm', hleader 1 hlead (by omega), hQ⟩

end LinKV

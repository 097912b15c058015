import LinKV.Raft.Logs

namespace LinKV
set_option autoImplicit true

open Consensus Ledger

namespace Raft

def Has (rf : Raft n) (i : Nat) : Prop := rf.lastIncludeIndex ≤ i ∧ i ≤ rf.lastLogIndex

instance (rf : Raft n) (i : Nat) : Decidable (rf.Has i) := inferInstanceAs (Decidable (_ ∧ _))

def entryTerm (rf : Raft n) (i : Nat) : Nat := termOf rf.log (i - rf.lastIncludeIndex)

def entryCommand (rf : Raft n) (i : Nat) : Option Bytes :=
  rf.log[i - rf.lastIncludeIndex]?.map LogEntry.command

theorem Rep.entryCommand {rf : Raft n} (h : Rep rf L) (hk : rf.lastIncludeIndex < k) :
    rf.entryCommand k = L[k - 1]?.map Prod.snd := by
  obtain ⟨d, rfl⟩ := Nat.exists_eq_add_of_lt hk
  have hd : rf.lastIncludeIndex + d + 1 - rf.lastIncludeIndex = d + 1 := by omega
  rw [Raft.entryCommand, hd, h.log, List.getElem?_cons_succ, getElem?_stamp, List.getElem?_drop,
    Nat.add_sub_cancel, Option.map_map]
  rfl

end Raft

/-- Equal terms at one index mean equal logs up to it, and terms never decrease along a log. -/
structure Cluster.LogMatching (s : Cluster n) : Prop where
  head : ∀ a, (s.procs a).rf.log.head? =
    some ⟨(s.procs a).rf.lastIncludeTerm, [], (s.procs a).rf.lastIncludeIndex⟩
  agree : ∀ a b i, (s.procs a).rf.Has i → (s.procs b).rf.Has i →
    (s.procs a).rf.entryTerm i = (s.procs b).rf.entryTerm i →
    ∀ j, j ≤ i → (s.procs a).rf.Has j → (s.procs b).rf.Has j →
      (s.procs a).rf.entryTerm j = (s.procs b).rf.entryTerm j ∧
      ((s.procs a).rf.lastIncludeIndex < j → (s.procs b).rf.lastIncludeIndex < j →
        (s.procs a).rf.entryCommand j = (s.procs b).rf.entryCommand j)
  sorted : ∀ a i j, (s.procs a).rf.Has i → (s.procs a).rf.Has j → i ≤ j →
    (s.procs a).rf.entryTerm i ≤ (s.procs a).rf.entryTerm j

theorem Logs.logMatching {s : Cluster n} (h : Logs s g) : s.LogMatching where
  head := by
    intro a
    have hrep := (h.node a).rep
    rw [hrep.log, List.head?_cons, hrep.lastTerm]
  agree := by
    intro a b i ha hb ht j hj ha' hb'
    have hra := (h.node a).rep
    have hrb := (h.node b).rep
    have hla := hra.lastLogIndex ▸ ha.2
    have hlb := hrb.lastLogIndex ▸ hb.2
    rw [Raft.entryTerm, Raft.entryTerm, hra.termOf ha.1, hrb.termOf hb.1] at ht
    have htake := (h.matching.log_coh a).take_eq (h.matching.log_coh b) hla hlb ht
    refine ⟨?_, fun hja hjb => ?_⟩
    · rw [Raft.entryTerm, Raft.entryTerm, hra.termOf ha'.1, hrb.termOf hb'.1,
        ← termAt_take hj hla, htake, termAt_take hj hlb]
    · have hlt : j - 1 < i := by omega
      rw [hra.entryCommand hja, hrb.entryCommand hjb, ← List.getElem?_take_of_lt hlt, htake,
        List.getElem?_take_of_lt hlt]
  sorted := by
    intro a i j hi hj hij
    have hrep := (h.node a).rep
    rw [Raft.entryTerm, Raft.entryTerm, hrep.termOf hi.1, hrep.termOf hj.1]
    exact (h.matching.log_sorted a).termAt_le hij (hrep.lastLogIndex ▸ hj.2)

/-- Logs match in every run that installs only snapshots that fit the receiver's log and
overwrites no entry that a request has still to copy. -/
theorem log_matching {s : Cluster n}
    (h : s.ReachableBy fun s a => s.Meets (fun p ev => p.snapshotFits ev = true) a ∧ s.Settled a) :
    s.LogMatching := by
  obtain ⟨g, hg⟩ := Cluster.ReachableBy.traced h
  exact hg.logs.logMatching

/-- Node 0 leads term 1 and keeps its own entries, one for each given command; node 1 leads
term 2, commits and compacts one entry, and sends node 0 its snapshot. -/
def overtaken (commands : List Bytes) : List (Action 3) :=
  [.act 0 .tick, .act 0 .startElection, .handle 0, .reply 0, .drop 0] ++
  commands.map (fun c => .act 0 (.start c)) ++
  [.act 1 .tick, .act 1 .startElection, .handle 1, .reply 1, .drop 0, .act 1 (.start [9]),
    .act 1 (.replicate 2), .act 1 (.send 0), .handle 0, .reply 0, .act 1 (.replicate 2),
    .act 1 (.send 0), .drop 0, .act 1 .collect, .act 1 .emit, .act 1 .receive,
    .act 1 (.finish (some [7])), .act 1 (.replicate 0), .act 1 (.send 0), .handle 0, .reply 0,
    .act 1 (.replicate 0), .handle 0]

theorem log_matching_overtaken : ∃ s : Cluster 3,
    (s.ReachableBy fun s a => s.Meets (fun p ev => p.snapshotFits ev = true) a ∧ s.Settled a) ∧
    (s.procs 0).rf.lastIncludeIndex = 1 ∧ (s.procs 0).rf.lastIncludeTerm = 2 ∧
    s.LogMatching := by
  have hrun : RunsTo Cluster.step
      (fun s a => s.Meets (fun p ev => p.snapshotFits ev = true) a ∧ s.Settled a)
      (fun s => (s.procs 0).rf.lastIncludeIndex = 1 ∧ (s.procs 0).rf.lastIncludeTerm = 2)
      (.init 3) (overtaken [[1]]) := by
    decide +kernel
  obtain ⟨s, hs, hi, ht⟩ := hrun.reachable
  exact ⟨s, hs, hi, ht, log_matching hs⟩

/-- A snapshot of term 2 is put in front of entries of term 1. -/
theorem log_matching_fails : ∃ s : Cluster 3, s.Reachable ∧ ¬ s.LogMatching := by
  have hrun : RunsTo Cluster.step (fun _ _ => True)
      (fun s => (s.procs 0).rf.Has 1 ∧ (s.procs 0).rf.Has 2 ∧
        ¬ (s.procs 0).rf.entryTerm 1 ≤ (s.procs 0).rf.entryTerm 2)
      (.init 3) (overtaken [[1], [2], [3]]) := by
    decide +kernel
  obtain ⟨s, hs, h1, h2, hlt⟩ := hrun.reachable
  exact ⟨s, hs, fun hm => hlt (hm.sorted 0 1 2 h1 h2 (by decide))⟩

end LinKV

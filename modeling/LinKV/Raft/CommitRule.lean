import LinKV.Raft.Numbering
import LinKV.Raft.NodeLogs
import Mathlib.Order.Bounds.Defs

namespace LinKV
set_option autoImplicit true

namespace Raft

/-- The commit rule: `N` is above what is committed and compacted, its entry is of the current
term, and the leader together with the peers known to have it are more than half. -/
structure Committable (rf : Raft n) (N : Nat) : Prop where
  lt : max rf.commitIndex rf.lastIncludeIndex < N
  le : N ≤ rf.lastLogIndex
  entry : ∃ e ∈ rf.log, e.index = N ∧ e.term = rf.currentTerm
  majority : n / 2 < (Finset.univ.filter fun i => i = rf.me ∨ N ≤ rf.matchIndex i).card

section

variable {rf : Raft n}

theorem card_holders (rf : Raft n) (N : Nat) :
    (Finset.univ.filter fun i => i = rf.me ∨ N ≤ rf.matchIndex i).card =
      (rf.holders N).card + 1 := by
  have hme : rf.me ∉ rf.holders N := by simp [holders]
  have heq : (Finset.univ.filter fun i => i = rf.me ∨ N ≤ rf.matchIndex i) =
      insert rf.me (rf.holders N) := by
    ext i
    by_cases hi : i = rf.me <;> simp [holders, hi]
  rw [heq, Finset.card_insert_of_notMem hme]

theorem WellFormed.exists_entry (h : rf.WellFormed) (hlt : rf.lastIncludeIndex < N)
    (hle : N ≤ rf.lastLogIndex) :
    (∃ e ∈ rf.log, e.index = N ∧ e.term = t) ↔
      termOf rf.log (N - rf.lastIncludeIndex) = t := by
  have hlen := h.length
  have hN : N - rf.lastIncludeIndex < rf.log.length := by omega
  have hidx := h.numbered (N - rf.lastIncludeIndex) hN
  have hterm : termOf rf.log (N - rf.lastIncludeIndex) = rf.log[N - rf.lastIncludeIndex].term := by
    rw [termOf, List.getElem?_eq_getElem hN]
    rfl
  rw [hterm]
  constructor
  · rintro ⟨e, he, hi, rfl⟩
    obtain ⟨k, hk, rfl⟩ := List.getElem_of_mem he
    have hk' := h.numbered k hk
    have heq : N - rf.lastIncludeIndex = k := by omega
    simp only [heq]
  · intro ht
    exact ⟨_, List.getElem_mem hN, by omega, ht⟩

theorem WellFormed.committable_iff (h : rf.WellFormed) :
    rf.Committable N ↔ (rf.commitIndex < N ∧ rf.lastIncludeIndex < N ∧ N ≤ rf.lastLogIndex ∧
      n / 2 < (rf.holders N).card + 1 ∧
      termOf rf.log (N - rf.lastIncludeIndex) = rf.currentTerm) := by
  constructor
  · intro hc
    obtain ⟨hci, hli⟩ := Nat.max_lt.1 hc.lt
    exact ⟨hci, hli, hc.le, card_holders rf N ▸ hc.majority, (h.exists_entry hli hc.le).1 hc.entry⟩
  · rintro ⟨hci, hli, hle, hmaj, hterm⟩
    exact ⟨Nat.max_lt.2 ⟨hci, hli⟩, hle, (h.exists_entry hli hle).2 hterm,
      card_holders rf N ▸ hmaj⟩

/-- The search passes over no index that could be committed. -/
theorem WellFormed.le_commitSearch (h : rf.WellFormed) (hc : rf.Committable N) (hN : N ≤ m) :
    N ≤ rf.commitSearch m := by
  obtain ⟨hci, hli, _, hmaj, hterm⟩ := h.committable_iff.1 hc
  induction m with
  | zero => omega
  | succ m ih =>
    unfold commitSearch
    split
    · omega
    · split
      · exact hN
      · next hno =>
        -- the index just tried does not qualify, so it is not `N`
        rcases Nat.eq_or_lt_of_le hN with rfl | hlt
        · exact absurd ⟨hmaj, hterm⟩ hno
        · exact ih (Nat.le_of_lt_succ hlt)

/-- `updateCommiIndex` commits the largest index the commit rule allows, and nothing if there is
none. -/
theorem updateCommiIndex_greatest (h : rf.WellFormed) :
    ((∃ N, rf.Committable N) →
      IsGreatest {N | rf.Committable N} rf.updateCommiIndex.commitIndex) ∧
    ((¬ ∃ N, rf.Committable N) → rf.updateCommiIndex.commitIndex = rf.commitIndex) ∧
    rf.updateCommiIndex = { rf with commitIndex := rf.updateCommiIndex.commitIndex } := by
  have hgreatest : ∀ N, rf.Committable N → N ≤ rf.updateCommiIndex.commitIndex := fun N hN =>
    h.le_commitSearch hN hN.le
  rcases commitSearch_spec rf rf.lastLogIndex with he | ⟨hci, hli, hle, hmaj, hterm⟩
  · refine ⟨fun ⟨N, hN⟩ => ?_, fun _ => he, rfl⟩
    have hlt := (h.committable_iff.1 hN).1
    have hge : N ≤ rf.commitIndex := he ▸ hgreatest N hN
    omega
  · have hmem : rf.Committable rf.updateCommiIndex.commitIndex :=
      h.committable_iff.2 ⟨hci, hli, hle, hmaj, hterm⟩
    exact ⟨fun _ => ⟨hmem, hgreatest⟩, fun hno => absurd ⟨_, hmem⟩ hno, rfl⟩

end

/-- A leader of term 2 with one entry of term 1 above its snapshot and two of its own, the first
of which node 1 has as well. -/
def midTerm : Raft 3 where
  me := 0
  currentTerm := 2
  votedFor := some 0
  state := .leader
  log := [⟨1, [], 1⟩, ⟨1, [1], 2⟩, ⟨2, [2], 3⟩, ⟨2, [3], 4⟩]
  commitIndex := 1
  lastApplied := 1
  nextIndex := fun _ => 5
  matchIndex := fun i => 4 - i.val
  lastIncludeIndex := 1
  lastIncludeTerm := 1
  snapshot := []
  pendingReadCh := none
  pendingReadCount := 0
  persister := none

theorem updateCommiIndex_greatest_midTerm :
    IsGreatest {N | midTerm.Committable N} midTerm.updateCommiIndex.commitIndex ∧
      midTerm.updateCommiIndex.commitIndex = 3 := by
  have hc : midTerm.Committable 3 :=
    ⟨by decide, by decide, ⟨⟨2, [2], 3⟩, by decide, rfl, rfl⟩, by decide⟩
  exact ⟨(updateCommiIndex_greatest (by decide)).1 ⟨3, hc⟩, by decide⟩

end Raft

end LinKV

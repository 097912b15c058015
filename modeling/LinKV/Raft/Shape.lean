import LinKV.Raft.Steps

namespace LinKV
set_option autoImplicit true

open Consensus

def stamp (k : Nat) : Log Bytes → List LogEntry
  | [] => []
  | e :: L => ⟨e.1, e.2, k⟩ :: stamp (k + 1) L

section

variable {L L' : Log Bytes}

@[simp] theorem length_stamp : (stamp k L).length = L.length := by
  induction L generalizing k with
  | nil => rfl
  | cons e L ih => simp only [stamp, List.length_cons, ih]

theorem stamp_append : stamp k (L ++ L') = stamp k L ++ stamp (k + L.length) L' := by
  induction L generalizing k with
  | nil => rfl
  | cons e L ih =>
    simp only [stamp, List.cons_append, List.length_cons, ih]
    rw [Nat.add_assoc, Nat.add_comm 1]

theorem take_stamp : (stamp k L).take m = stamp k (L.take m) := by
  induction L generalizing k m with
  | nil => simp only [stamp, List.take_nil]
  | cons e L ih =>
    cases m with
    | zero => rfl
    | succ m => simp only [stamp, List.take_succ_cons, ih]

theorem drop_stamp : (stamp k L).drop m = stamp (k + m) (L.drop m) := by
  induction L generalizing k m with
  | nil => simp only [stamp, List.drop_nil]
  | cons e L ih =>
    cases m with
    | zero => rfl
    | succ m =>
      simp only [stamp, List.drop_succ_cons, ih]
      rw [Nat.add_assoc, Nat.add_comm 1]

theorem getElem?_stamp {k j : Nat} :
    (stamp k L)[j]? = L[j]?.map fun e => (⟨e.1, e.2, k + j⟩ : LogEntry) := by
  induction L generalizing k j with
  | nil => rfl
  | cons e L ih =>
    cases j with
    | zero => rfl
    | succ j =>
      simp only [stamp, List.getElem?_cons_succ, ih]
      rw [Nat.add_assoc, Nat.add_comm 1]

theorem filter_stamp (hk : k ≤ index + 1) :
    (stamp k L).filter (fun e => index < e.index) =
      stamp (index + 1) (L.drop (index + 1 - k)) := by
  induction L generalizing k with
  | nil => simp only [stamp, List.filter_nil, List.drop_nil]
  | cons e L ih =>
    rcases Nat.eq_or_lt_of_le hk with rfl | hlt
    · rw [Nat.sub_self, List.drop_zero, List.filter_eq_self.2]
      intro a ha
      obtain ⟨j, hj⟩ := List.getElem?_of_mem ha
      rw [getElem?_stamp] at hj
      obtain ⟨b, _, rfl⟩ := Option.map_eq_some_iff.1 hj
      simp only [decide_eq_true_eq]
      omega
    · have hm : index + 1 - k = (index + 1 - (k + 1)) + 1 := by omega
      rw [stamp, List.filter_cons_of_neg (by simp only [decide_eq_true_eq]; omega), ih hlt, hm,
        List.drop_succ_cons]

end

namespace Raft

/-- The node's log with its boundary is the part of the full log `L` above `lastIncludeIndex`. -/
structure Rep (rf : Raft n) (L : Log Bytes) : Prop where
  le : rf.lastIncludeIndex ≤ L.length
  lastTerm : rf.lastIncludeTerm = termAt L rf.lastIncludeIndex
  log : rf.log = ⟨termAt L rf.lastIncludeIndex, [], rf.lastIncludeIndex⟩ ::
    stamp (rf.lastIncludeIndex + 1) (L.drop rf.lastIncludeIndex)

section

variable {rf rf' : Raft n} {L L' : Log Bytes}

theorem Rep.congr (h : Rep rf L) (hlog : rf'.log = rf.log)
    (hli : rf'.lastIncludeIndex = rf.lastIncludeIndex)
    (hlt : rf'.lastIncludeTerm = rf.lastIncludeTerm) : Rep rf' L where
  le := hli ▸ h.le
  lastTerm := by rw [hlt, hli, h.lastTerm]
  log := by rw [hlog, hli, h.log]

theorem Rep.length (h : Rep rf L) : rf.lastIncludeIndex + rf.log.length = L.length + 1 := by
  have hle := h.le
  rw [h.log, List.length_cons, length_stamp, List.length_drop]
  omega

theorem Rep.lastLogIndex (h : Rep rf L) : rf.lastLogIndex = L.length := by
  have hlen := h.length
  unfold Raft.lastLogIndex
  omega

theorem Rep.termOf (h : Rep rf L) (hk : rf.lastIncludeIndex ≤ k) :
    termOf rf.log (k - rf.lastIncludeIndex) = termAt L k := by
  obtain ⟨d, rfl⟩ := Nat.exists_eq_add_of_le hk
  rw [Nat.add_sub_cancel_left, h.log]
  cases d with
  | zero => rfl
  | succ d =>
    simp only [LinKV.termOf, List.getElem?_cons_succ, getElem?_stamp, List.getElem?_drop,
      Option.map_map, termAt]
    rfl

theorem Rep.entry (h : Rep rf L) (hk : rf.lastIncludeIndex < k)
    (he : rf.log[k - rf.lastIncludeIndex]? = some e) : L[k - 1]? = some (e.term, e.command) := by
  obtain ⟨d, rfl⟩ := Nat.exists_eq_add_of_lt hk
  have hd : rf.lastIncludeIndex + d + 1 - rf.lastIncludeIndex = d + 1 := by omega
  rw [hd, h.log, List.getElem?_cons_succ, getElem?_stamp, List.getElem?_drop] at he
  obtain ⟨a, ha, rfl⟩ := Option.map_eq_some_iff.1 he
  exact ha

theorem Rep.lastLogTerm (h : Rep rf L) : rf.lastLogTerm = Consensus.lastTerm L := by
  have hlen := h.length
  have hle := h.le
  have he : rf.log.length - 1 = L.length - rf.lastIncludeIndex := by omega
  rw [Raft.lastLogTerm, he, h.termOf h.le, termAt_length]

theorem Rep.replace (h : Rep rf L) (hli : rf'.lastIncludeIndex = rf.lastIncludeIndex)
    (hlt : rf'.lastIncludeTerm = rf.lastIncludeTerm) (hle : rf.lastIncludeIndex ≤ k)
    (hk : k ≤ L.length) (hk' : k ≤ L'.length) (htake : L'.take k = L.take k)
    (hlog : rf'.log = rf.log.take (k + 1 - rf.lastIncludeIndex) ++ stamp (k + 1) (L'.drop k)) :
    Rep rf' L' := by
  have hterm : termAt L' rf.lastIncludeIndex = termAt L rf.lastIncludeIndex := by
    rw [← termAt_take hle hk', htake, termAt_take hle hk]
  constructor
  · rw [hli]
    exact Nat.le_trans hle hk'
  · rw [hlt, hli, hterm, h.lastTerm]
  · have hd : k + 1 - rf.lastIncludeIndex = (k - rf.lastIncludeIndex) + 1 := by omega
    have hsplit : L'.drop rf.lastIncludeIndex =
        (L.drop rf.lastIncludeIndex).take (k - rf.lastIncludeIndex) ++ L'.drop k := by
      rw [List.take_drop, show rf.lastIncludeIndex + (k - rf.lastIncludeIndex) = k by omega,
        ← htake, ← List.drop_append_of_le_length, List.take_append_drop]
      rw [List.length_take]
      omega
    have hlen : rf.lastIncludeIndex + 1 +
        ((L.drop rf.lastIncludeIndex).take (k - rf.lastIncludeIndex)).length = k + 1 := by
      rw [List.length_take, List.length_drop]
      omega
    rw [hlog, hli, hterm, hsplit, stamp_append, hlen, h.log, hd, List.take_succ_cons, take_stamp,
      List.cons_append]

theorem Rep.extend (h : Rep rf L) (hli : rf'.lastIncludeIndex = rf.lastIncludeIndex)
    (hlt : rf'.lastIncludeTerm = rf.lastIncludeTerm)
    (hlog : rf'.log = rf.log ++ [⟨t, c, rf.lastLogIndex + 1⟩]) : Rep rf' (L ++ [(t, c)]) := by
  have hlen := h.length
  apply h.replace hli hlt h.le (Nat.le_refl _)
  · rw [List.length_append]
    omega
  · rw [List.take_append_of_le_length (Nat.le_refl _)]
  · rw [hlog, List.drop_append_of_le_length (Nat.le_refl _), List.drop_length, h.lastLogIndex,
      List.take_of_length_le (by omega)]
    rfl

theorem Rep.filter (h : Rep rf L) (hi : rf.lastIncludeIndex ≤ index) :
    rf.log.filter (fun e => index < e.index) = stamp (index + 1) (L.drop index) := by
  have hsum : rf.lastIncludeIndex + (index + 1 - (rf.lastIncludeIndex + 1)) = index := by omega
  rw [h.log, List.filter_cons_of_neg (by simpa using hi), filter_stamp (by omega),
    List.drop_drop, hsum]

theorem Rep.compact (h : Rep rf L) (hlt : rf.lastIncludeIndex ≤ index) (hle : index ≤ L.length)
    (hli : rf'.lastIncludeIndex = index) (hterm : rf'.lastIncludeTerm = termAt L index)
    (hlog : rf'.log = compacted rf.log index (termAt L index)) : Rep rf' L where
  le := hli ▸ hle
  lastTerm := by rw [hterm, hli]
  log := by rw [hlog, hli, compacted, h.filter hlt]

theorem Rep.reset (h : Rep rf L) (hlt : L.length ≤ L'.length)
    (hli : rf'.lastIncludeIndex = L'.length) (hterm : rf'.lastIncludeTerm = termAt L' L'.length)
    (hlog : rf'.log = compacted rf.log L'.length (termAt L' L'.length)) : Rep rf' L' where
  le := Nat.le_of_eq hli
  lastTerm := by rw [hterm, hli]
  log := by
    rw [hlog, hli, compacted, h.filter (Nat.le_trans h.le hlt), List.drop_eq_nil_of_le hlt,
      List.drop_length]

theorem Rep.drop (h : Rep rf L) (hk : rf.lastIncludeIndex ≤ k) :
    rf.log.drop (k + 1 - rf.lastIncludeIndex) = stamp (k + 1) (L.drop k) := by
  have hd : k + 1 - rf.lastIncludeIndex = (k - rf.lastIncludeIndex) + 1 := by omega
  have hsum : rf.lastIncludeIndex + (k - rf.lastIncludeIndex) = k := by omega
  have hsum' : rf.lastIncludeIndex + 1 + (k - rf.lastIncludeIndex) = k + 1 := by omega
  rw [hd, h.log, List.drop_succ_cons, drop_stamp, List.drop_drop, hsum, hsum']

end

end Raft

end LinKV

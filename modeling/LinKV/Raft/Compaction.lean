import LinKV.Raft.Commits
import LinKV.Raft.IndexOrder
import LinKV.Raft.LogMatching

namespace LinKV
set_option autoImplicit true

namespace Raft

/-- The two nodes differ at most in what they keep up to `index`. -/
structure AgreeFrom (index : Nat) (rf rf' : Raft n) : Prop where
  currentTerm : rf'.currentTerm = rf.currentTerm
  votedFor : rf'.votedFor = rf.votedFor
  commitIndex : rf'.commitIndex = rf.commitIndex
  lastApplied : rf'.lastApplied = rf.lastApplied
  lastLogIndex : rf'.lastLogIndex = rf.lastLogIndex
  lastLogTerm : rf'.lastLogTerm = rf.lastLogTerm
  term : ∀ k, index ≤ k → rf'.entryTerm k = rf.entryTerm k
  command : ∀ k, index < k → rf'.entryCommand k = rf.entryCommand k

section

variable {rf rf' rf'' : Raft n}

theorem AgreeFrom.symm (h : AgreeFrom index rf rf') : AgreeFrom index rf' rf where
  currentTerm := h.currentTerm.symm
  votedFor := h.votedFor.symm
  commitIndex := h.commitIndex.symm
  lastApplied := h.lastApplied.symm
  lastLogIndex := h.lastLogIndex.symm
  lastLogTerm := h.lastLogTerm.symm
  term k hk := (h.term k hk).symm
  command k hk := (h.command k hk).symm

theorem AgreeFrom.trans (h : AgreeFrom index rf rf') (h' : AgreeFrom index rf' rf'') :
    AgreeFrom index rf rf'' where
  currentTerm := h'.currentTerm.trans h.currentTerm
  votedFor := h'.votedFor.trans h.votedFor
  commitIndex := h'.commitIndex.trans h.commitIndex
  lastApplied := h'.lastApplied.trans h.lastApplied
  lastLogIndex := h'.lastLogIndex.trans h.lastLogIndex
  lastLogTerm := h'.lastLogTerm.trans h.lastLogTerm
  term k hk := (h'.term k hk).trans (h.term k hk)
  command k hk := (h'.command k hk).trans (h.command k hk)

theorem lastLogTerm_eq (h : rf.log ≠ []) : rf.lastLogTerm = rf.entryTerm rf.lastLogIndex := by
  have hpos := List.length_pos_iff.2 h
  have hsub : rf.lastLogIndex - rf.lastIncludeIndex = rf.log.length - 1 := by
    unfold Raft.lastLogIndex
    omega
  rw [entryTerm, hsub, Raft.lastLogTerm]

theorem AgreeFrom.of_slots (hct : rf'.currentTerm = rf.currentTerm)
    (hv : rf'.votedFor = rf.votedFor) (hci : rf'.commitIndex = rf.commitIndex)
    (hla : rf'.lastApplied = rf.lastApplied) (hlast : rf'.lastLogIndex = rf.lastLogIndex)
    (hne : rf.log ≠ []) (hne' : rf'.log ≠ []) (hle : index ≤ rf.lastLogIndex)
    (hterm : ∀ k, index ≤ k → rf'.entryTerm k = rf.entryTerm k)
    (hcmd : ∀ k, index < k → rf'.entryCommand k = rf.entryCommand k) : AgreeFrom index rf rf' where
  currentTerm := hct
  votedFor := hv
  commitIndex := hci
  lastApplied := hla
  lastLogIndex := hlast
  lastLogTerm := by rw [lastLogTerm_eq hne', lastLogTerm_eq hne, hlast, hterm _ hle]
  term := hterm
  command := hcmd

theorem getElem?_compacted (hn : Numbered rf.lastIncludeIndex rf.log)
    (hi : rf.lastIncludeIndex ≤ index) (hk : index < k) :
    (Raft.compacted rf.log index t)[k - index]? = rf.log[k - rf.lastIncludeIndex]? := by
  obtain ⟨d, rfl⟩ := Nat.exists_eq_add_of_lt hk
  have hsub : index + d + 1 - index = d + 1 := by omega
  have hsum : index + 1 - rf.lastIncludeIndex + d = index + d + 1 - rf.lastIncludeIndex := by omega
  rw [Raft.compacted, hn.filter (by omega), hsub, List.getElem?_cons_succ, List.getElem?_drop, hsum]

theorem exists_snapshotAt (hlt : rf.lastIncludeIndex < index) (hla : index ≤ rf.lastApplied)
    (hci : index ≤ rf.commitIndex) (hle : index ≤ rf.lastLogIndex) (data : Bytes) :
    ∃ rf', rf.snapshotAt index data = some rf' ∧ rf'.currentTerm = rf.currentTerm ∧
      rf'.votedFor = rf.votedFor ∧ rf'.commitIndex = rf.commitIndex ∧
      rf'.lastApplied = rf.lastApplied ∧ rf'.lastIncludeIndex = index ∧
      rf'.log = Raft.compacted rf.log index (rf.entryTerm index) := by
  have hlen : index - rf.lastIncludeIndex < rf.log.length := by
    unfold Raft.lastLogIndex at hle
    omega
  have hsome : (rf.snapshotAt index data).isSome = true := by
    rw [snapshotAt, if_neg (Nat.not_le.2 hlt), if_neg (Nat.not_le.2 hlen)]
    rfl
  obtain ⟨rf', hs⟩ := Option.isSome_iff_exists.1 hsome
  rcases snapshotAt_cases hs with ⟨hge, _⟩ | ⟨_, _, _, _, ht, hv, _, hli, _, hlog, hc, ha, _⟩
  · omega
  · exact ⟨rf', hs, ht, hv, hc.trans (Nat.max_eq_left hci), ha.trans (Nat.max_eq_left hla), hli,
      hlog⟩

theorem snapshotAt_agree (hn : Numbered rf.lastIncludeIndex rf.log)
    (hlt : rf.lastIncludeIndex < index) (hla : index ≤ rf.lastApplied)
    (hci : index ≤ rf.commitIndex) (hle : index ≤ rf.lastLogIndex)
    (hs : rf.snapshotAt index data = some rf') : AgreeFrom index rf rf' := by
  obtain ⟨_, hs', hct, hv, hci', hla', hli, hlog⟩ := exists_snapshotAt hlt hla hci hle data
  cases hs.symm.trans hs'
  have hne : rf.log ≠ [] := by
    rintro hnil
    rw [Raft.lastLogIndex, hnil, List.length_nil] at hle
    omega
  have hlast := lastLogIndex_compact hn hne (Nat.le_of_lt hlt) hli hlog
  rw [Nat.max_eq_left hle] at hlast
  apply AgreeFrom.of_slots hct hv hci' hla' hlast hne (hlog ▸ List.cons_ne_nil _ _) hle
  · intro k hk
    rw [entryTerm, hli, hlog]
    rcases Nat.eq_or_lt_of_le hk with rfl | hlt'
    · rw [Nat.sub_self]
      rfl
    · rw [termOf, getElem?_compacted hn (Nat.le_of_lt hlt) hlt']
      rfl
  · intro k hk
    rw [entryCommand, hli, hlog, getElem?_compacted hn (Nat.le_of_lt hlt) hk]
    rfl

theorem AgreeFrom.catchUp (h : AgreeFrom index rf rf') (t : Nat) :
    AgreeFrom index (rf.catchUp t) (rf'.catchUp t) := by
  unfold Raft.catchUp
  rw [h.currentTerm]
  split
  · exact { h with currentTerm := rfl, votedFor := rfl }
  · exact h

theorem AgreeFrom.follow (h : AgreeFrom index rf rf') (t : Nat) :
    AgreeFrom index (rf.follow t) (rf'.follow t) :=
  { h.catchUp t with }

theorem AgreeFrom.requestVote (h : AgreeFrom index rf rf') (args : RequestVoteArgs n) :
    (rf'.requestVote args).2 = (rf.requestVote args).2 ∧
      AgreeFrom index (rf.requestVote args).1 (rf'.requestVote args).1 := by
  have hc := h.catchUp args.term
  have hup : (rf'.catchUp args.term).upToDate args = (rf.catchUp args.term).upToDate args := by
    unfold upToDate
    rw [hc.lastLogTerm, hc.lastLogIndex]
  unfold Raft.requestVote
  simp only [h.currentTerm, hc.votedFor, hc.currentTerm, hup]
  split
  · exact ⟨rfl, h⟩
  · split
    · exact ⟨rfl, { hc with votedFor := rfl, currentTerm := rfl }⟩
    · exact ⟨rfl, hc⟩

theorem appendEntries_fst (rf : Raft n) (args : AppendEntriesArgs n) :
    (rf.appendEntries args).1 = if args.term < rf.currentTerm then rf
      else if rf.accepts args then (rf.follow args.term).overwrite args
      else rf.follow args.term := by
  have hsucc := rf.appendEntries_success args
  rcases rf.appendEntries_cases args with
    ⟨ht, he, _⟩ | ⟨ht, ⟨he, hs⟩ | ⟨_, _, _, he, hs⟩⟩ <;> rw [he]
  · rw [if_pos ht]
  · rw [if_neg ht, if_neg (by rw [← hsucc, hs]; exact Bool.false_ne_true)]
  · rw [if_neg ht, if_pos (by rw [← hsucc, hs])]

theorem appendEntries_term (rf : Raft n) (args : AppendEntriesArgs n) :
    (rf.appendEntries args).2.term = rf.currentTerm := by
  unfold appendEntries
  split
  · rfl
  · simp only
    split
    · rfl
    · split
      · rfl
      · split <;> rfl

theorem getElem?_overwrite (hp : rf.lastIncludeIndex ≤ args.prevLogIndex)
    (hlen : args.prevLogIndex - rf.lastIncludeIndex < rf.log.length) (k : Nat) :
    (rf.overwrite args).log[k - rf.lastIncludeIndex]? =
      if args.entries = [] ∨ k ≤ args.prevLogIndex then rf.log[k - rf.lastIncludeIndex]?
      else args.entries[k - (args.prevLogIndex + 1)]? := by
  rw [(rf.overwrite_spec args).log]
  by_cases he : args.entries = []
  · rw [if_pos he, if_pos (.inl he)]
  · rw [if_neg he]
    have htake : (rf.log.take (args.prevLogIndex + 1 - rf.lastIncludeIndex)).length =
        args.prevLogIndex + 1 - rf.lastIncludeIndex := by
      rw [List.length_take]
      omega
    rcases Nat.lt_or_ge args.prevLogIndex k with hlt | hge
    · have hsub : k - rf.lastIncludeIndex - (args.prevLogIndex + 1 - rf.lastIncludeIndex) =
          k - (args.prevLogIndex + 1) := by omega
      rw [if_neg (not_or.2 ⟨he, Nat.not_le.2 hlt⟩), List.getElem?_append_right (by omega), htake,
        hsub]
    · rw [if_pos (.inr hge), List.getElem?_append_left (by omega),
        List.getElem?_take_of_lt (by omega)]

theorem lastLogIndex_overwrite (hp : rf.lastIncludeIndex ≤ args.prevLogIndex)
    (hlen : args.prevLogIndex - rf.lastIncludeIndex < rf.log.length) :
    (rf.overwrite args).lastLogIndex = if args.entries = [] then rf.lastLogIndex
      else args.prevLogIndex + args.entries.length := by
  have hspec := rf.overwrite_spec args
  rw [Raft.lastLogIndex, hspec.log, hspec.lastIncludeIndex]
  split
  · rfl
  · rw [List.length_append, List.length_take]
    omega

theorem overwrite_ne_nil (hp : rf.lastIncludeIndex ≤ args.prevLogIndex) (hne : rf.log ≠ []) :
    (rf.overwrite args).log ≠ [] := (overwrite_stored hne hp).log

theorem AgreeFrom.overwrite (h : AgreeFrom index rf rf') (hne : rf.log ≠ []) (hne' : rf'.log ≠ [])
    (hi : rf.lastIncludeIndex ≤ index) (hi' : rf'.lastIncludeIndex ≤ index)
    (hp : index ≤ args.prevLogIndex)
    (hlen : args.prevLogIndex - rf.lastIncludeIndex < rf.log.length)
    (hlen' : args.prevLogIndex - rf'.lastIncludeIndex < rf'.log.length) :
    AgreeFrom index (rf.overwrite args) (rf'.overwrite args) := by
  have hs := rf.overwrite_spec args
  have hs' := rf'.overwrite_spec args
  have hle := Nat.le_trans hi hp
  have hle' := Nat.le_trans hi' hp
  have hlast : (rf'.overwrite args).lastLogIndex = (rf.overwrite args).lastLogIndex := by
    rw [lastLogIndex_overwrite hle' hlen', lastLogIndex_overwrite hle hlen, h.lastLogIndex]
  apply AgreeFrom.of_slots
  · rw [hs'.currentTerm, hs.currentTerm, h.currentTerm]
  · rw [hs'.votedFor, hs.votedFor, h.votedFor]
  · rw [hs'.commitIndex, hs.commitIndex, hlast, h.commitIndex]
  · rw [hs'.lastApplied, hs.lastApplied, h.lastApplied]
  · exact hlast
  · exact overwrite_ne_nil hle hne
  · exact overwrite_ne_nil hle' hne'
  · rw [lastLogIndex_overwrite hle hlen]
    split
    · unfold Raft.lastLogIndex
      omega
    · omega
  · intro k hk
    rw [entryTerm, entryTerm, hs'.lastIncludeIndex, hs.lastIncludeIndex, termOf, termOf,
      getElem?_overwrite hle' hlen', getElem?_overwrite hle hlen]
    split
    · exact h.term k hk
    · rfl
  · intro k hk
    rw [entryCommand, entryCommand, hs'.lastIncludeIndex, hs.lastIncludeIndex,
      getElem?_overwrite hle' hlen', getElem?_overwrite hle hlen]
    split
    · exact h.command k hk
    · rfl

theorem length_iff (hne : rf.log ≠ []) (hk : rf.lastIncludeIndex ≤ k) :
    k - rf.lastIncludeIndex < rf.log.length ↔ k ≤ rf.lastLogIndex := by
  have hpos := List.length_pos_iff.2 hne
  unfold Raft.lastLogIndex
  omega

theorem AgreeFrom.accepts (h : AgreeFrom index rf rf') (hne : rf.log ≠ []) (hne' : rf'.log ≠ [])
    (hi : rf.lastIncludeIndex ≤ index) (hi' : rf'.lastIncludeIndex ≤ index)
    (hp : index ≤ args.prevLogIndex) : rf'.accepts args = rf.accepts args := by
  have hle := Nat.le_trans hi hp
  have hle' := Nat.le_trans hi' hp
  have hterm := h.term _ hp
  unfold entryTerm at hterm
  unfold Raft.accepts
  simp only [h.currentTerm, hle, hle', length_iff hne hle, length_iff hne' hle', h.lastLogIndex,
    hterm]

theorem AgreeFrom.appendEntries (h : AgreeFrom index rf rf') (hne : rf.log ≠ [])
    (hne' : rf'.log ≠ []) (hi : rf.lastIncludeIndex ≤ index) (hi' : rf'.lastIncludeIndex ≤ index)
    (hp : index ≤ args.prevLogIndex) :
    (rf'.appendEntries args).2.term = (rf.appendEntries args).2.term ∧
      (rf'.appendEntries args).2.success = (rf.appendEntries args).2.success ∧
      AgreeFrom index (rf.appendEntries args).1 (rf'.appendEntries args).1 := by
  have hacc := h.accepts hne hne' hi hi' hp
  refine ⟨?_, ?_, ?_⟩
  · rw [appendEntries_term, appendEntries_term, h.currentTerm]
  · rw [appendEntries_success, appendEntries_success, hacc]
  · rw [appendEntries_fst, appendEntries_fst, h.currentTerm, hacc]
    have hf := h.follow args.term
    split
    · exact h
    · split
      · next ha =>
        have hlen := ha
        have hlen' := hacc.trans ha
        simp only [Raft.accepts, Bool.and_eq_true, decide_eq_true_eq] at hlen hlen'
        have hlog : ∀ rf : Raft n, (rf.follow args.term).log = rf.log := fun _ => catchUp_log
        have hli : ∀ rf : Raft n, (rf.follow args.term).lastIncludeIndex = rf.lastIncludeIndex :=
          fun _ => catchUp_lastIncludeIndex
        apply hf.overwrite _ _ _ _ hp <;> simp only [hlog, hli] <;> first | assumption | omega
      · exact hf

theorem overwrite_reaches (hci : index ≤ rf.commitIndex) (hle : index ≤ rf.lastLogIndex)
    (hp : index ≤ args.prevLogIndex) (hli : rf.lastIncludeIndex ≤ args.prevLogIndex)
    (hlen : args.prevLogIndex - rf.lastIncludeIndex < rf.log.length) :
    index ≤ (rf.overwrite args).commitIndex ∧ index ≤ (rf.overwrite args).lastLogIndex := by
  have hlast : index ≤ (rf.overwrite args).lastLogIndex := by
    rw [lastLogIndex_overwrite hli hlen]
    split <;> omega
  refine ⟨?_, hlast⟩
  rw [(rf.overwrite_spec args).commitIndex]
  split <;> omega

theorem overwrite_numbered (hn : Numbered rf.lastIncludeIndex rf.log)
    (hli : rf.lastIncludeIndex ≤ args.prevLogIndex)
    (hlen : args.prevLogIndex - rf.lastIncludeIndex < rf.log.length)
    (hargs : Numbered (args.prevLogIndex + 1) args.entries) :
    Numbered (rf.overwrite args).lastIncludeIndex (rf.overwrite args).log := by
  have hspec := rf.overwrite_spec args
  rw [hspec.log, hspec.lastIncludeIndex]
  split
  · exact hn
  · have hsum : rf.lastIncludeIndex +
        (rf.log.take (args.prevLogIndex + 1 - rf.lastIncludeIndex)).length =
        args.prevLogIndex + 1 := by
      rw [List.length_take]
      omega
    refine (hn.take _).append ?_
    rw [hsum]
    exact hargs

theorem WellFormed.appendEntries_reaches (hw : rf.WellFormed) (hci : index ≤ rf.commitIndex)
    (hle : index ≤ rf.lastLogIndex) (hp : index ≤ args.prevLogIndex) :
    (rf.appendEntries args).1.lastIncludeIndex = rf.lastIncludeIndex ∧
    index ≤ (rf.appendEntries args).1.commitIndex ∧
    index ≤ (rf.appendEntries args).1.lastLogIndex ∧
    (Numbered (args.prevLogIndex + 1) args.entries →
      Numbered (rf.appendEntries args).1.lastIncludeIndex (rf.appendEntries args).1.log) := by
  have hf := hw.follow args.term
  have hfli : (rf.follow args.term).lastIncludeIndex = rf.lastIncludeIndex :=
    catchUp_lastIncludeIndex
  have hflog : (rf.follow args.term).log = rf.log := catchUp_log
  have hfci : index ≤ (rf.follow args.term).commitIndex :=
    Nat.le_trans hci (Nat.le_of_eq catchUp_commitIndex.symm)
  have hfle : index ≤ (rf.follow args.term).lastLogIndex :=
    Nat.le_trans hle (Nat.le_of_eq (lastLogIndex_congr hflog hfli).symm)
  rcases rf.appendEntries_cases args with
    ⟨_, he, _⟩ | ⟨_, ⟨he, _⟩ | ⟨hli, hlen, _, he, _⟩⟩ <;> rw [he]
  · exact ⟨rfl, hci, hle, fun _ => hw.numbered⟩
  · exact ⟨hfli, hfci, hfle, fun _ => hf.numbered⟩
  · rw [← hfli] at hli
    rw [← hfli, ← hflog] at hlen
    obtain ⟨hc, hl⟩ := overwrite_reaches hfci hfle hp hli hlen
    exact ⟨((rf.follow args.term).overwrite_spec args).lastIncludeIndex.trans hfli, hc, hl,
      overwrite_numbered hf.numbered hli hlen⟩

/-- `Snapshot` at an applied index changes nothing above that index, and a request that does not
look below it is answered alike and leaves the same node whether it is handled before or after.
The entries of a request are numbered in every message a node sends. -/
theorem snapshot_transparent (hw : rf.WellFormed) (hlt : rf.lastIncludeIndex < index)
    (hla : index ≤ rf.lastApplied) (hci : rf.lastApplied ≤ rf.commitIndex)
    (hlast : rf.commitIndex ≤ rf.lastLogIndex) (data : Bytes) :
    ∃ rf₁, rf.snapshotAt index data = some rf₁ ∧ AgreeFrom index rf rf₁ ∧
    (∀ args : RequestVoteArgs n, ∃ rf₂,
      (rf.requestVote args).1.snapshotAt index data = some rf₂ ∧
      (rf₁.requestVote args).2 = (rf.requestVote args).2 ∧
      AgreeFrom index rf₂ (rf₁.requestVote args).1) ∧
    ∀ args : AppendEntriesArgs n, index ≤ args.prevLogIndex → ∃ rf₂,
      (rf.appendEntries args).1.snapshotAt index data = some rf₂ ∧
      (rf₁.appendEntries args).2.term = (rf.appendEntries args).2.term ∧
      (rf₁.appendEntries args).2.success = (rf.appendEntries args).2.success ∧
      (rf₁.appendEntries args).1.commitIndex = rf₂.commitIndex ∧
      (rf₁.appendEntries args).1.votedFor = rf₂.votedFor ∧
      (Numbered (args.prevLogIndex + 1) args.entries →
        AgreeFrom index rf₂ (rf₁.appendEntries args).1) := by
  have hci' : index ≤ rf.commitIndex := Nat.le_trans hla hci
  have hle : index ≤ rf.lastLogIndex := Nat.le_trans hci' hlast
  obtain ⟨rf₁, hs, -, -, -, -, hli₁, hlog₁⟩ := exists_snapshotAt hlt hla hci' hle data
  have hne₁ : rf₁.log ≠ [] := hlog₁ ▸ List.cons_ne_nil _ _
  have hagree := snapshotAt_agree hw.numbered hlt hla hci' hle hs
  refine ⟨rf₁, hs, hagree, fun args => ?_, fun args hp => ?_⟩
  · obtain ⟨hreply, hafter⟩ := hagree.requestVote args
    have hidx := rf.requestVote_indices args
    have hlog := rf.requestVote_log args
    have hn : Numbered (rf.requestVote args).1.lastIncludeIndex (rf.requestVote args).1.log := by
      rw [hidx.lastIncludeIndex, hlog]
      exact hw.numbered
    have hlt' : (rf.requestVote args).1.lastIncludeIndex < index := hidx.lastIncludeIndex ▸ hlt
    have hla' : index ≤ (rf.requestVote args).1.lastApplied := hidx.lastApplied ▸ hla
    have hci'' : index ≤ (rf.requestVote args).1.commitIndex := hidx.commitIndex ▸ hci'
    have hle' : index ≤ (rf.requestVote args).1.lastLogIndex :=
      lastLogIndex_congr hlog hidx.lastIncludeIndex ▸ hle
    obtain ⟨rf₂, hs₂, -⟩ := exists_snapshotAt hlt' hla' hci'' hle' data
    exact ⟨rf₂, hs₂, hreply, (snapshotAt_agree hn hlt' hla' hci'' hle' hs₂).symm.trans hafter⟩
  · obtain ⟨hterm, hsucc, hafter⟩ := hagree.appendEntries hw.log hne₁ (Nat.le_of_lt hlt)
      (Nat.le_of_eq hli₁) hp
    obtain ⟨hli, hci'', hle', hn⟩ := hw.appendEntries_reaches hci' hle hp
    have hlt' : (rf.appendEntries args).1.lastIncludeIndex < index := hli ▸ hlt
    have hla' : index ≤ (rf.appendEntries args).1.lastApplied :=
      (rf.appendEntries_lastApplied args).symm ▸ hla
    obtain ⟨rf₂, hs₂, -, hv, hc, -⟩ := exists_snapshotAt hlt' hla' hci'' hle' data
    refine ⟨rf₂, hs₂, hterm, hsucc, hafter.commitIndex.trans hc.symm,
      hafter.votedFor.trans hv.symm, fun hargs => ?_⟩
    exact (snapshotAt_agree (hn hargs) hlt' hla' hci'' hle' hs₂).symm.trans hafter

end

def partlyApplied : Raft 3 where
  me := 1
  currentTerm := 2
  votedFor := none
  state := .follower
  log := [⟨0, [], 0⟩, ⟨1, [1], 1⟩, ⟨1, [2], 2⟩, ⟨2, [3], 3⟩]
  commitIndex := 2
  lastApplied := 2
  nextIndex := fun _ => 0
  matchIndex := fun _ => 0
  lastIncludeIndex := 0
  lastIncludeTerm := 0
  snapshot := []
  pendingReadCh := none
  pendingReadCount := 0
  persister := none

/-- The request replaces the last entry, right above the new boundary. -/
theorem snapshot_transparent_partlyApplied :
    let args : AppendEntriesArgs 3 := ⟨3, 0, 2, 1, [⟨3, [4], 3⟩], 2⟩
    ∃ rf₁ rf₂, partlyApplied.snapshotAt 2 [7] = some rf₁ ∧ AgreeFrom 2 partlyApplied rf₁ ∧
      (partlyApplied.appendEntries args).1.snapshotAt 2 [7] = some rf₂ ∧
      AgreeFrom 2 rf₂ (rf₁.appendEntries args).1 := by
  have hw : partlyApplied.WellFormed := by decide
  have hlt : partlyApplied.lastIncludeIndex < 2 := by decide
  obtain ⟨rf₁, hs, hagree, _, hae⟩ :=
    snapshot_transparent hw hlt (by decide) (by decide) (by decide) [7]
  obtain ⟨rf₂, hs₂, _, _, _, _, hafter⟩ := hae ⟨3, 0, 2, 1, [⟨3, [4], 3⟩], 2⟩ (by decide)
  exact ⟨rf₁, rf₂, hs, hagree, hs₂, hafter (by decide)⟩

end Raft

end LinKV

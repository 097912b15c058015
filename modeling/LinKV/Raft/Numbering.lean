import LinKV.Raft.Shape
import LinKV.Raft.Persistence

namespace LinKV
set_option autoImplicit true

open Consensus

/-- The entries carry the indices `k`, `k + 1`, and so on. -/
def Numbered (k : Nat) (es : List LogEntry) : Prop :=
  ∀ j (hj : j < es.length), es[j].index = k + j

instance Numbered.decidable (k : Nat) (es : List LogEntry) : Decidable (Numbered k es) :=
  inferInstanceAs (Decidable (∀ j (hj : j < es.length), es[j].index = k + j))

section

variable {es es' : List LogEntry}

theorem Numbered.append (h : Numbered k es) (h' : Numbered (k + es.length) es') :
    Numbered k (es ++ es') := by
  intro j hj
  rw [List.getElem_append]
  split
  · exact h j _
  · next hge =>
    rw [h' (j - es.length)]
    omega

theorem Numbered.take (h : Numbered k es) (m : Nat) : Numbered k (es.take m) := by
  intro j hj
  rw [List.getElem_take]
  exact h j _

theorem Numbered.drop (h : Numbered k es) (m : Nat) : Numbered (k + m) (es.drop m) := by
  intro j hj
  rw [List.getElem_drop, h (m + j), Nat.add_assoc]

theorem Numbered.singleton (e : LogEntry) : Numbered e.index [e] := by
  intro j hj
  cases j with
  | zero => rfl
  | succ j => exact absurd hj (by simp)

theorem Numbered.eq_stamp (h : Numbered k es) :
    es = stamp k (es.map fun e => (e.term, e.command)) := by
  apply List.ext_getElem?
  intro j
  rw [getElem?_stamp, List.getElem?_map, Option.map_map]
  cases hj : es[j]? with
  | none => rfl
  | some e =>
    obtain ⟨hlt, rfl⟩ := List.getElem?_eq_some_iff.1 hj
    rw [Option.map_some, Function.comp_apply, ← h j hlt]

theorem Numbered.filter (h : Numbered k es) (hk : k ≤ index + 1) :
    es.filter (fun e => index < e.index) = es.drop (index + 1 - k) := by
  have hsum : k + (index + 1 - k) = index + 1 := by omega
  rw [h.eq_stamp, filter_stamp hk, drop_stamp, hsum]

end

namespace Raft

/-- The log of a node begins with the boundary of its snapshot and goes on without gaps. -/
structure Contiguous (rf : Raft n) : Prop where
  log : rf.log ≠ []
  headIndex : (rf.log.head log).index = rf.lastIncludeIndex
  headTerm : (rf.log.head log).term = rf.lastIncludeTerm
  numbered : Numbered rf.lastIncludeIndex rf.log

/-- No entry of the log is of a later term. -/
def Dated (rf : Raft n) : Prop := ∀ e ∈ rf.log, e.term ≤ rf.currentTerm

/-- The representation of a log. -/
structure WellFormed (rf : Raft n) : Prop extends rf.Contiguous where
  terms : rf.Dated

end Raft

/-- The entries of a request follow `PrevLogIndex`, and none is of a later term. -/
structure AppendEntriesArgs.WellFormed (args : AppendEntriesArgs n) : Prop where
  numbered : Numbered (args.prevLogIndex + 1) args.entries
  terms : ∀ e ∈ args.entries, e.term ≤ args.term

def Call.Contiguous : Call n → Prop
  | .appendEntries args _ => Numbered (args.prevLogIndex + 1) args.entries
  | _ => True

def Call.Dated : Call n → Prop
  | .requestVote _ _ => True
  | .appendEntries args _ => ∀ e ∈ args.entries, e.term ≤ args.term
  | .installSnapshot args _ => args.lastIncludeTerm ≤ args.term

def Event.Contiguous : Event n → Prop
  | .appendEntries args => Numbered (args.prevLogIndex + 1) args.entries
  | _ => True

def Event.Dated : Event n → Prop
  | .appendEntries args => ∀ e ∈ args.entries, e.term ≤ args.term
  | .installSnapshot args => args.lastIncludeTerm ≤ args.term
  | _ => True

namespace Raft

section

variable {rf rf' : Raft n}

instance WellFormed.decidable (rf : Raft n) : Decidable rf.WellFormed :=
  if hlog : rf.log = [] then .isFalse fun h => h.log hlog
  else decidable_of_iff ((rf.log.head hlog).index = rf.lastIncludeIndex ∧
      (rf.log.head hlog).term = rf.lastIncludeTerm ∧ Numbered rf.lastIncludeIndex rf.log ∧
      ∀ e ∈ rf.log, e.term ≤ rf.currentTerm)
    ⟨fun h => ⟨⟨hlog, h.1, h.2.1, h.2.2.1⟩, h.2.2.2⟩,
      fun h => ⟨h.headIndex, h.headTerm, h.numbered, h.terms⟩⟩

theorem Contiguous.termOf_zero (h : rf.Contiguous) : termOf rf.log 0 = rf.lastIncludeTerm := by
  rw [← h.headTerm, termOf, ← List.head?_eq_getElem?, List.head?_eq_some_head h.log]
  rfl

theorem Contiguous.length (h : rf.Contiguous) :
    rf.lastIncludeIndex + rf.log.length = rf.lastLogIndex + 1 := by
  have hpos := List.length_pos_iff.2 h.log
  unfold lastLogIndex
  omega

theorem Contiguous.le (h : rf.Contiguous) : rf.lastIncludeIndex ≤ rf.lastLogIndex := by
  have hpos := List.length_pos_iff.2 h.log
  have hlen := h.length
  omega

theorem contiguous_cons (c : Bytes) (es : List LogEntry)
    (hlog : rf.log = ⟨rf.lastIncludeTerm, c, rf.lastIncludeIndex⟩ :: es)
    (hes : Numbered (rf.lastIncludeIndex + 1) es) : rf.Contiguous := by
  have hne : rf.log ≠ [] := hlog ▸ List.cons_ne_nil _ _
  refine ⟨hne, by simp only [hlog, List.head_cons], by simp only [hlog, List.head_cons], ?_⟩
  rw [hlog, ← List.singleton_append]
  exact (Numbered.singleton _).append hes

theorem Contiguous.keep (h : rf.Contiguous) (hlog : rf'.log = rf.log)
    (hli : rf'.lastIncludeIndex = rf.lastIncludeIndex)
    (hlt : rf'.lastIncludeTerm = rf.lastIncludeTerm) : rf'.Contiguous where
  log := hlog ▸ h.log
  headIndex := by simp only [hlog, hli, h.headIndex]
  headTerm := by simp only [hlog, hlt, h.headTerm]
  numbered := by rw [hlog, hli]; exact h.numbered

theorem Contiguous.of_image (h : rf.Contiguous) (he : rf'.image = rf.image) : rf'.Contiguous :=
  h.keep (congrArg RaftState.log he) (congrArg RaftState.lastIncludeIndex he)
    (congrArg RaftState.lastIncludeTerm he)

theorem Contiguous.stepDown (h : rf.Contiguous) (t : Nat) : (rf.stepDown t).Contiguous :=
  h.keep rfl rfl rfl

theorem Contiguous.catchUp (h : rf.Contiguous) (t : Nat) : (rf.catchUp t).Contiguous :=
  h.keep catchUp_log catchUp_lastIncludeIndex catchUp_lastIncludeTerm

theorem Contiguous.follow (h : rf.Contiguous) (t : Nat) : (rf.follow t).Contiguous :=
  (h.catchUp t).of_image rfl

theorem Contiguous.replace (h : rf.Contiguous)
    (hli : rf'.lastIncludeIndex = rf.lastIncludeIndex)
    (hlt : rf'.lastIncludeTerm = rf.lastIncludeTerm)
    (hk : rf.lastIncludeIndex ≤ k) (hle : k ≤ rf.lastLogIndex)
    (hlog : rf'.log = rf.log.take (k + 1 - rf.lastIncludeIndex) ++ es)
    (hes : Numbered (k + 1) es) : rf'.Contiguous := by
  obtain ⟨e, rest, hcons⟩ := List.exists_cons_of_ne_nil h.log
  have hlen := h.length
  have hsucc : k + 1 - rf.lastIncludeIndex = (k - rf.lastIncludeIndex) + 1 := by omega
  have hhead := h.headIndex
  have hheadTerm := h.headTerm
  simp only [hcons, List.head_cons] at hhead hheadTerm
  have htake : rf.lastIncludeIndex + 1 + (rest.take (k - rf.lastIncludeIndex)).length = k + 1 := by
    rw [hcons, List.length_cons] at hlen
    rw [List.length_take]
    omega
  have hrest : Numbered (rf.lastIncludeIndex + 1) rest := by
    have hdrop := h.numbered.drop 1
    rwa [hcons, List.drop_succ_cons, List.drop_zero] at hdrop
  apply contiguous_cons e.command (rest.take (k - rf.lastIncludeIndex) ++ es)
  · rw [hlog, hli, hlt, hsucc, hcons, List.take_succ_cons, List.cons_append, ← hhead, ← hheadTerm]
  · rw [hli]
    exact (hrest.take _).append (htake ▸ hes)

theorem Contiguous.appendEntries (h : rf.Contiguous)
    (hargs : Numbered (args.prevLogIndex + 1) args.entries) :
    (rf.appendEntries args).1.Contiguous := by
  rcases rf.appendEntries_cases args with
    ⟨_, he, _⟩ | ⟨_, ⟨he, _⟩ | ⟨hli, hlen, _, he, _⟩⟩ <;> rw [he]
  · exact h
  · exact h.follow args.term
  · have hf := h.follow args.term
    have hspec := (rf.follow args.term).overwrite_spec args
    have hfli : (rf.follow args.term).lastIncludeIndex = rf.lastIncludeIndex :=
      catchUp_lastIncludeIndex
    have hflog : (rf.follow args.term).log = rf.log := catchUp_log
    have hlog := hspec.log
    by_cases hent : args.entries = []
    · rw [if_pos hent] at hlog
      exact hf.keep hlog hspec.lastIncludeIndex hspec.lastIncludeTerm
    · rw [if_neg hent] at hlog
      have hlast := hf.length
      rw [hfli, hflog] at hlast
      exact hf.replace hspec.lastIncludeIndex hspec.lastIncludeTerm (hfli ▸ hli) (by omega) hlog
        hargs

theorem Contiguous.compact (h : rf.Contiguous) (hi : rf.lastIncludeIndex ≤ index)
    (hli : rf'.lastIncludeIndex = index) (hlt : rf'.lastIncludeTerm = t)
    (hlog : rf'.log = compacted rf.log index t) : rf'.Contiguous := by
  have hsum : rf.lastIncludeIndex + (index + 1 - rf.lastIncludeIndex) = index + 1 := by omega
  apply contiguous_cons [] (rf.log.drop (index + 1 - rf.lastIncludeIndex))
  · rw [hlog, compacted, h.numbered.filter (by omega), hli, hlt]
  · rw [hli, ← hsum, Nat.add_sub_cancel_left]
    exact h.numbered.drop _

theorem Contiguous.installSnapshot (h : rf.Contiguous) (args : InstallSnapshotArgs n) :
    (rf.installSnapshot args).1.Contiguous := by
  rcases rf.installSnapshot_cases args with
    ⟨_, he, _⟩ | ⟨_, ⟨_, he, _⟩ | ⟨hi, he, _⟩⟩ <;> rw [he]
  · exact h
  · exact h.follow args.term
  · have hfli : (rf.follow args.term).lastIncludeIndex = rf.lastIncludeIndex :=
      catchUp_lastIncludeIndex
    exact (h.follow args.term).compact (hfli ▸ Nat.le_of_lt hi) rfl rfl rfl

theorem Contiguous.snapshotAt (h : rf.Contiguous) (hs : rf.snapshotAt index data = some rf') :
    rf'.Contiguous := by
  rcases snapshotAt_cases hs with ⟨_, rfl⟩ | ⟨hi, _, _, _, _, _, _, hli, hlt, hlog, _⟩
  · exact h
  · exact h.compact (Nat.le_of_lt hi) hli hlt hlog

theorem Contiguous.start (h : rf.Contiguous) (command : Bytes) : (rf.start command).Contiguous := by
  have hlen := h.length
  have htake : rf.lastLogIndex + 1 - rf.lastIncludeIndex = rf.log.length := by omega
  unfold Raft.start
  split
  · exact h
  · refine h.replace rfl rfl h.le (Nat.le_refl _) ?_
      (Numbered.singleton ⟨rf.currentTerm, command, rf.lastLogIndex + 1⟩)
    rw [htake, List.take_length]
    rfl

theorem contiguous_make (i : Fin n) : (make i none).Contiguous := by
  have himg := make_none i
  apply contiguous_cons [] []
  · have hlog : (make i none).log = [⟨0, [], 0⟩] := congrArg RaftState.log himg
    have hli : (make i none).lastIncludeIndex = 0 := congrArg RaftState.lastIncludeIndex himg
    have hlt : (make i none).lastIncludeTerm = 0 := congrArg RaftState.lastIncludeTerm himg
    rw [hlog, hli, hlt]
  · exact fun j hj => absurd hj (Nat.not_lt_zero j)

theorem Dated.termOf_le (h : rf.Dated) (k : Nat) : termOf rf.log k ≤ rf.currentTerm := by
  unfold termOf
  cases hk : rf.log[k]? with
  | none => exact Nat.zero_le _
  | some e => exact h e (List.mem_of_getElem? hk)

theorem Dated.raise (h : rf.Dated) (hlog : rf'.log = rf.log)
    (ht : rf.currentTerm ≤ rf'.currentTerm) : rf'.Dated := by
  intro e he
  rw [hlog] at he
  exact Nat.le_trans (h e he) ht

theorem Dated.of_image (h : rf.Dated) (he : rf'.image = rf.image) : rf'.Dated :=
  h.raise (congrArg RaftState.log he) (Nat.le_of_eq (congrArg RaftState.currentTerm he).symm)

theorem Dated.stepDown (h : rf.Dated) (ht : rf.currentTerm ≤ t) : (rf.stepDown t).Dated :=
  h.raise rfl ht

theorem Dated.catchUp (h : rf.Dated) (t : Nat) : (rf.catchUp t).Dated := by
  unfold Raft.catchUp
  split
  · next hlt => exact h.stepDown (Nat.le_of_lt hlt)
  · exact h

theorem Dated.follow (h : rf.Dated) (t : Nat) : (rf.follow t).Dated := (h.catchUp t).of_image rfl

theorem Dated.appendEntries (h : rf.Dated) (hargs : ∀ e ∈ args.entries, e.term ≤ args.term) :
    (rf.appendEntries args).1.Dated := by
  rcases rf.appendEntries_cases args with
    ⟨_, he, _⟩ | ⟨ht, ⟨he, _⟩ | ⟨_, _, _, he, _⟩⟩ <;> rw [he]
  · exact h
  · exact h.follow args.term
  · have hf := h.follow args.term
    have hspec := (rf.follow args.term).overwrite_spec args
    have hfterm : (rf.follow args.term).currentTerm = args.term := catchUp_term ht
    intro e hmem
    rw [hspec.log] at hmem
    rw [hspec.currentTerm]
    split at hmem
    · exact hf e hmem
    · rcases List.mem_append.1 hmem with hmem | hmem
      · exact hf e (List.mem_of_mem_take hmem)
      · rw [hfterm]
        exact hargs e hmem

theorem Dated.compact (h : rf.Dated) (ht : t ≤ rf.currentTerm)
    (hct : rf'.currentTerm = rf.currentTerm) (hlog : rf'.log = compacted rf.log index t) :
    rf'.Dated := by
  intro e he
  rw [hlog, compacted] at he
  rw [hct]
  rcases List.mem_cons.1 he with rfl | he
  · exact ht
  · exact h e (List.mem_of_mem_filter he)

theorem Dated.installSnapshot (h : rf.Dated) (hargs : args.lastIncludeTerm ≤ args.term) :
    (rf.installSnapshot args).1.Dated := by
  rcases rf.installSnapshot_cases args with
    ⟨_, he, _⟩ | ⟨ht, ⟨_, he, _⟩ | ⟨_, he, _⟩⟩ <;> rw [he]
  · exact h
  · exact h.follow args.term
  · have hfterm : (rf.follow args.term).currentTerm = args.term := catchUp_term ht
    exact (h.follow args.term).compact (hargs.trans (Nat.le_of_eq hfterm.symm)) rfl rfl

theorem Dated.snapshotAt (h : rf.Dated) (hs : rf.snapshotAt index data = some rf') :
    rf'.Dated := by
  rcases snapshotAt_cases hs with ⟨_, rfl⟩ | ⟨_, _, _, _, ht, _, _, _, _, hlog, _⟩
  · exact h
  · exact h.compact (h.termOf_le _) ht hlog

theorem Dated.start (h : rf.Dated) (command : Bytes) : (rf.start command).Dated := by
  unfold Raft.start
  split
  · exact h
  · intro e he
    rcases List.mem_append.1 he with he | he
    · exact h e he
    · rw [List.mem_singleton.1 he]
      exact Nat.le_refl _

theorem dated_make (i : Fin n) : (make i none).Dated := by
  have hlog : (make i none).log = [⟨0, [], 0⟩] := congrArg RaftState.log (make_none i)
  intro e he
  rw [hlog] at he
  rw [List.mem_singleton.1 he]
  exact Nat.zero_le _

theorem WellFormed.raise (h : rf.WellFormed) (hlog : rf'.log = rf.log)
    (hli : rf'.lastIncludeIndex = rf.lastIncludeIndex)
    (hlt : rf'.lastIncludeTerm = rf.lastIncludeTerm) (ht : rf.currentTerm ≤ rf'.currentTerm) :
    rf'.WellFormed :=
  ⟨h.keep hlog hli hlt, h.terms.raise hlog ht⟩

theorem WellFormed.of_image (h : rf.WellFormed) (he : rf'.image = rf.image) : rf'.WellFormed :=
  ⟨h.toContiguous.of_image he, h.terms.of_image he⟩

theorem WellFormed.appendEntries (h : rf.WellFormed) (hargs : args.WellFormed) :
    (rf.appendEntries args).1.WellFormed :=
  ⟨h.toContiguous.appendEntries hargs.numbered, h.terms.appendEntries hargs.terms⟩

theorem WellFormed.installSnapshot (h : rf.WellFormed) (hargs : args.lastIncludeTerm ≤ args.term) :
    (rf.installSnapshot args).1.WellFormed :=
  ⟨h.toContiguous.installSnapshot args, h.terms.installSnapshot hargs⟩

theorem start_boundary (rf : Raft n) (command : Bytes) :
    (rf.start command).lastIncludeIndex = rf.lastIncludeIndex := by
  unfold Raft.start
  split <;> rfl

theorem appendEntries_boundary (rf : Raft n) (args : AppendEntriesArgs n) :
    (rf.appendEntries args).1.lastIncludeIndex = rf.lastIncludeIndex := by
  have hf : (rf.follow args.term).lastIncludeIndex = rf.lastIncludeIndex :=
    catchUp_lastIncludeIndex
  rcases rf.appendEntries_cases args with
    ⟨_, he, _⟩ | ⟨_, ⟨he, _⟩ | ⟨_, _, _, he, _⟩⟩ <;> rw [he]
  · exact hf
  · exact ((rf.follow args.term).overwrite_spec args).lastIncludeIndex.trans hf

theorem Contiguous.replicate (h : rf.Contiguous) (hc : (rf.replicate server).2 = some call) :
    call.Contiguous := by
  obtain ⟨_, rfl | ⟨prev, hle, hlen, rfl⟩⟩ := Raft.replicate_call hc
  · trivial
  · simp only [Call.Contiguous]
    split
    · exact fun j hj => absurd hj (Nat.not_lt_zero j)
    · have hsum : rf.lastIncludeIndex + (prev + 1 - rf.lastIncludeIndex) = prev + 1 := by omega
      have hdrop := h.numbered.drop (prev + 1 - rf.lastIncludeIndex)
      rwa [hsum] at hdrop

theorem WellFormed.replicate (h : rf.WellFormed) (hc : (rf.replicate server).2 = some call) :
    call.Dated := by
  obtain ⟨_, rfl | ⟨prev, hle, hlen, rfl⟩⟩ := Raft.replicate_call hc
  · have hterm := h.terms.termOf_le 0
    rwa [h.termOf_zero] at hterm
  · simp only [Call.Dated]
    split
    · exact fun e he => absurd he List.not_mem_nil
    · exact fun e he => h.terms e (List.mem_of_mem_drop he)

end

end Raft

section

variable {p p' : Proc n} {s s' : Cluster n}

/-- What a step does to the log of a process. -/
inductive Proc.LogStep (p : Proc n) (ev : Event n) (p' : Proc n) : Prop
  | keep (hlog : p'.rf.log = p.rf.log) (hli : p'.rf.lastIncludeIndex = p.rf.lastIncludeIndex)
      (hlt : p'.rf.lastIncludeTerm = p.rf.lastIncludeTerm)
      (ht : p.rf.currentTerm ≤ p'.rf.currentTerm)
  | start (command : Bytes) (hrf : p'.rf = p.rf.start command)
  | snapshot (index : Nat) (data : Bytes) (hrf : p.rf.snapshotAt index data = some p'.rf)
      (hsends : p'.sends = p.sendsOff p'.rf)
  | appendEntries (args : AppendEntriesArgs n) (hev : ev = .appendEntries args)
      (hrf : p'.rf = (p.rf.appendEntries args).1)
  | installSnapshot (args : InstallSnapshotArgs n) (hev : ev = .installSnapshot args)
      (hrf : p'.rf = (p.rf.installSnapshot args).1) (hsends : p'.sends = p.sendsOff p'.rf)

theorem Proc.step_log (hs : p.step now ev = some p') : p.LogStep ev p' := by
  have himage (h : p'.rf.image = p.rf.image) : p.LogStep ev p' :=
    .keep (congrArg RaftState.log h) (congrArg RaftState.lastIncludeIndex h)
      (congrArg RaftState.lastIncludeTerm h) (Nat.le_of_eq (congrArg RaftState.currentTerm h).symm)
  have hdeposed {t : Nat} (hd : p.rf.Deposed p'.rf t) : p.LogStep ev p' :=
    .keep hd.log hd.lastIncludeIndex hd.lastIncludeTerm (hd.currentTerm ▸ Nat.le_of_lt hd.lt)
  by_cases hidle : ev.isIdle = true
  · exact himage (step_idle hs hidle).1.image
  cases step_takes hs with
  | startElection => exact .keep rfl rfl rfl (Nat.le_succ _)
  | soloLeader => exact himage rfl
  | logUpdate => exact himage p.rf.logUpdate_same.image
  | replicate server => exact himage (p.rf.replicate_same server).image
  | start command => exact .start command rfl
  | snapshot index _ data _ _ hrf => exact .snapshot index data hrf rfl
  | requestVote args =>
    rcases p.rf.requestVote_cases args with ⟨_, he⟩ | ⟨ht, he | ⟨_, _, he⟩⟩
    · exact himage (congrArg (·.1.image) he)
    all_goals
      rw [he]
      exact .keep Raft.catchUp_log Raft.catchUp_lastIncludeIndex Raft.catchUp_lastIncludeTerm
        ((Nat.not_lt.1 ht).trans (Nat.le_of_eq (Raft.catchUp_term ht).symm))
  | appendEntries args => exact .appendEntries args rfl rfl
  | installSnapshot args => exact .installSnapshot args rfl rfl rfl
  | requestVoteReply args reply =>
    rcases p.requestVoteReply_cases args reply with
      he | ⟨_, ht, ⟨hlt, he⟩ | ⟨_, _, ⟨_, he⟩ | he⟩⟩ <;> rw [he]
    · exact .keep rfl rfl rfl (Nat.le_refl _)
    · exact .keep rfl rfl rfl (ht ▸ Nat.le_of_lt hlt)
    · exact .keep rfl rfl rfl (Nat.le_refl _)
    · exact .keep rfl rfl rfl (Nat.le_refl _)
  | appendEntriesReply server args reply =>
    rcases p.rf.appendEntriesReply_cases server args reply with hd | hsame
    · exact hdeposed hd
    · exact himage hsame.image
  | installSnapshotReply server args reply =>
    rcases p.rf.installSnapshotReply_cases server args reply with hd | hsame
    · exact hdeposed hd
    · exact himage hsame.image
  | _ => exact absurd rfl hidle

theorem Proc.contiguous_step (h : p.rf.Contiguous) (hev : ev.Contiguous)
    (hs : p.step now ev = some p') : p'.rf.Contiguous := by
  cases step_log hs with
  | keep hlog hli hlt _ => exact h.keep hlog hli hlt
  | start command hrf => exact hrf ▸ h.start command
  | snapshot index data hrf => exact h.snapshotAt hrf
  | appendEntries args he hrf =>
    subst he
    exact hrf ▸ h.appendEntries hev
  | installSnapshot args _ hrf => exact hrf ▸ h.installSnapshot args

theorem Proc.dated_step (h : p.rf.Dated) (hev : ev.Dated) (hs : p.step now ev = some p') :
    p'.rf.Dated := by
  cases step_log hs with
  | keep hlog _ _ ht => exact h.raise hlog ht
  | start command hrf => exact hrf ▸ h.start command
  | snapshot index data hrf => exact h.snapshotAt hrf
  | appendEntries args he hrf =>
    subst he
    exact hrf ▸ h.appendEntries hev
  | installSnapshot args he hrf =>
    subst he
    exact hrf ▸ h.installSnapshot hev

/-- What a request has still to copy is in the log of the node, above the boundary. -/
def Proc.Attached (p : Proc n) : Prop :=
  ∀ m ∈ p.sends, m.copied < m.args.entries.length → p.rf.lastIncludeIndex ≤ m.args.prevLogIndex

/-- A new array for the log leaves no request with entries to copy from it. -/
theorem Proc.step_boundary (hs : p.step now ev = some p') (hm : m ∈ p'.sends)
    (hc : m.copied < m.args.entries.length) :
    p'.rf.lastIncludeIndex = p.rf.lastIncludeIndex := by
  have hoff (hsends : p'.sends = p.sendsOff p'.rf) :
      p'.rf.lastIncludeIndex = p.rf.lastIncludeIndex := by
    rcases mem_sendsOff (hsends ▸ hm) with ⟨_, hli⟩ | ⟨m₀, _, rfl⟩
    · exact hli
    · exact absurd hc (Nat.lt_irrefl _)
  cases step_log hs with
  | keep _ hli => exact hli
  | start command hrf => rw [hrf, Raft.start_boundary]
  | snapshot _ _ _ hsends => exact hoff hsends
  | appendEntries args _ hrf => rw [hrf, Raft.appendEntries_boundary]
  | installSnapshot _ _ _ hsends => exact hoff hsends

theorem Proc.attached_step (h : p.Attached) (hs : p.step now ev = some p') : p'.Attached := by
  intro m hm hc
  rw [step_boundary hs hm hc]
  cases step_sends hs hm with
  | kept m₀ hm₀ _ ha hc₀ => exact ha ▸ h m₀ hm₀ (hc₀ hc)
  | reread m₀ hm₀ _ _ he =>
    subst he
    rw [Send.reread_copied, Send.reread_length] at hc
    exact h m₀ hm₀ hc
  | new _ _ hcall =>
    obtain ⟨_, he | ⟨prev, hle, _, he⟩⟩ := Raft.replicate_call hcall
    · cases he
    · injection he with hargs
      rw [hargs]
      exact hle

theorem Send.numbered_reread {m : Send n} {rf : Raft n}
    (h : Numbered (m.args.prevLogIndex + 1) m.args.entries) (hrf : rf.Contiguous)
    (hli : m.copied < m.args.entries.length → rf.lastIncludeIndex ≤ m.args.prevLogIndex) :
    Numbered (m.args.prevLogIndex + 1) (m.reread rf).args.entries := by
  intro k hk
  have hk' : k < m.args.entries.length := reread_length ▸ hk
  have hold := h k hk'
  have hread := m.reread_getElem? rf k
  rw [List.getElem?_eq_getElem hk, List.getElem?_eq_getElem hk', Option.map_some,
    Option.some.injEq] at hread
  rw [hread]
  split
  · exact hold
  · have hle := hli (by omega)
    cases he : rf.log[m.args.prevLogIndex + 1 + k - rf.lastIncludeIndex]? with
    | none => exact hold
    | some e =>
      obtain ⟨hlt, rfl⟩ := List.getElem?_eq_some_iff.1 he
      rw [Option.getD_some, hrf.numbered _ hlt]
      omega

theorem Proc.writes_boundary {rf : Raft n} (hw : p.writes ev = some rf) :
    rf.lastIncludeIndex = p.rf.lastIncludeIndex := by
  unfold writes at hw
  split at hw
  · cases hw
    exact Raft.start_boundary _ _
  · cases hw
    exact Raft.appendEntries_boundary _ _
  · cases hw

theorem Proc.writes_contiguous {rf : Raft n} (h : p.rf.Contiguous) (hev : ev.Contiguous)
    (hw : p.writes ev = some rf) : rf.Contiguous := by
  unfold writes at hw
  split at hw
  · cases hw
    exact h.start _
  · cases hw
    exact h.appendEntries hev
  · cases hw

theorem Proc.Makes.contiguous (hc : p.Makes ev j call) (h : p.rf.Contiguous) :
    call.Contiguous := by
  obtain ⟨-, -, rfl⟩ | ⟨-, hcall⟩ := hc
  · trivial
  · exact h.replicate hcall

theorem Proc.Makes.dated (hc : p.Makes ev j call) (h : p.rf.WellFormed) : call.Dated := by
  obtain ⟨-, -, rfl⟩ | ⟨-, hcall⟩ := hc
  · trivial
  · exact h.replicate hcall

theorem Call.Contiguous.answered {call : Call n} (h : call.Contiguous) (p : Proc n) :
    (call.answered p).Contiguous := by
  cases call <;> exact h

theorem Call.Dated.answered {call : Call n} (h : call.Dated) (p : Proc n) :
    (call.answered p).Dated := by
  cases call <;> exact h

namespace Cluster

/-- The logs of the nodes and the entries on their way are numbered without gaps. -/
structure Contiguous (s : Cluster n) : Prop where
  node : ∀ i, (s.procs i).rf.Contiguous
  attached : ∀ i, (s.procs i).Attached
  call : ∀ i j c, s.Carries i j c → c.Contiguous

/-- No entry is of a later term than the node or the request it is in. -/
structure Dated (s : Cluster n) : Prop where
  node : ∀ i, (s.procs i).rf.Dated
  call : ∀ i j c, s.Carries i j c → c.Dated

theorem Contiguous.event (h : s.Contiguous) (hin : s.Inbox i ev) : ev.Contiguous := by
  cases ev with
  | appendEntries args =>
    obtain ⟨r, hr, _, hc⟩ := hin.appendEntries
    exact h.call r.caller r.server _ (.rpc r hr rfl rfl hc)
  | _ => trivial

theorem Dated.event (h : s.Dated) (hin : s.Inbox i ev) : ev.Dated := by
  cases ev with
  | appendEntries args =>
    obtain ⟨r, hr, _, hc⟩ := hin.appendEntries
    exact h.call r.caller r.server _ (.rpc r hr rfl rfl hc)
  | installSnapshot args =>
    obtain ⟨r, hr, _, hc⟩ := hin.installSnapshot
    exact h.call r.caller r.server _ (.rpc r hr rfl rfl hc)
  | _ => trivial

/-- What a step of a process keeps, and a restart on what it has stored, a step of the cluster
keeps. -/
theorem Turn.forall_proc {P : Proc n → Prop} (ht : Turn s a s') (h : ∀ i, P (s.procs i))
    (hstep : ∀ i ev p, s.Inbox i ev → (s.procs i).step s.now ev = some p → P p)
    (hboot : ∀ i t, (s.procs i).rf.currentTerm ≤ t →
      P (.boot i (s.procs i).rf.persister) ∧ P (.boot i ((s.procs i).rf.stepDown t).persister))
    (i : Fin n) : P (s'.procs i) := by
  have hset {j : Fin n} {p : Proc n} (hp : P p) : ∀ i, P (assign s.procs j p i) :=
    assign_forall (P := fun _ p => P p) hp fun k _ => h k
  cases ht with
  | event j ev p hin _ hs _ hp => exact hp ▸ hset (hstep j ev p hin hs) i
  | restart j _ hp => exact hp ▸ hset (hboot j _ (Nat.le_refl _)).1 i
  | crashIn r _ hlt _ hp => exact hp ▸ hset (hboot r.server _ (Nat.le_of_lt hlt)).2 i
  | idle _ hp => exact hp ▸ h i

theorem Contiguous.step (h : s.Contiguous) (hst : ∀ i, (s.procs i).rf.Stored) (hm : Move s a s') :
    s'.Contiguous where
  node := hm.turn.forall_proc (P := fun p => p.rf.Contiguous) h.node
    (fun i _ _ hin hs => Proc.contiguous_step (h.node i) (h.event hin) hs)
    fun i t _ => ⟨(h.node i).of_image ((hst i).make_image i),
      ((h.node i).stepDown t).of_image ((Raft.stepDown_stored (hst i)).make_image i)⟩
  attached := hm.turn.forall_proc (P := Proc.Attached) h.attached
    (fun i _ _ _ hs => Proc.attached_step (h.attached i) hs) fun _ _ _ => ⟨nofun, nofun⟩
  call i j c hc := by
    cases hm.source hc with
    | old hold => exact h.call i j c hold
    | reread m ev rf hmem hj hin _ hw _ hc =>
      subst hc
      have hli := Proc.writes_boundary hw
      exact Send.numbered_reread (h.call i j _ (.send m hmem hj rfl))
        (Proc.writes_contiguous (h.node i) (h.event hin) hw)
        fun hcopied => hli ▸ h.attached i m hmem hcopied
    | new ev p _ _ _ _ hmakes => exact hmakes.contiguous (h.node i)
    | answered r ev p hr _ _ _ _ _ hc =>
      exact hc ▸ (h.call _ _ _ (.rpc r hr rfl rfl rfl)).answered _

theorem ReachableBy.contiguous (h : s.ReachableBy ok) : s.Contiguous := by
  induction h with
  | init =>
    exact ⟨fun i => Raft.contiguous_make i, fun i => nofun,
      fun i j c hc => (not_carries_init hc).elim⟩
  | step hr _ hs ih => exact ih.step (ReachableBy.stored hr) (step_move hs)

theorem Dated.step (h : s.Dated) (hcon : s.Contiguous) (hst : ∀ i, (s.procs i).rf.Stored)
    (hm : Move s a s') (ha : s.Settled a) : s'.Dated where
  node := hm.turn.forall_proc (P := fun p => p.rf.Dated) h.node
    (fun i _ _ hin hs => Proc.dated_step (h.node i) (h.event hin) hs)
    fun i t ht => ⟨(h.node i).of_image ((hst i).make_image i),
      ((h.node i).stepDown ht).of_image ((Raft.stepDown_stored (hst i)).make_image i)⟩
  call i j c hc := by
    cases hm.source hc with
    | old hold => exact h.call i j c hold
    | reread m ev rf hmem hj _ hd hw hlog hc =>
      rw [hc, Proc.settled_reread (Within.apply ha hd) hw hlog hmem]
      exact h.call i j _ (.send m hmem hj rfl)
    | new ev p _ _ _ _ hmakes => exact hmakes.dated ⟨hcon.node i, h.node i⟩
    | answered r ev p hr _ _ _ _ _ hc =>
      exact hc ▸ (h.call _ _ _ (.rpc r hr rfl rfl rfl)).answered _

theorem ReachableBy.dated (h : s.ReachableBy Settled) : s.Dated := by
  induction h with
  | init =>
    exact ⟨fun i => Raft.dated_make i, fun i j c hc => (not_carries_init hc).elim⟩
  | step hr ha hs ih =>
    exact ih.step (ReachableBy.contiguous hr) (ReachableBy.stored hr) (step_move hs) ha

theorem ReachableBy.wellFormed (h : s.ReachableBy Settled) (i : Fin n) :
    (s.procs i).rf.WellFormed :=
  ⟨h.contiguous.node i, h.dated.node i⟩

end Cluster

/-- In every reachable state the log of a node begins with the boundary of its snapshot, and its
entries and those of every request in flight are numbered without gaps. -/
theorem log_numbering (h : s.ReachableBy ok) :
    (∀ i, (s.procs i).rf.Contiguous) ∧
    ∀ r ∈ s.rpcs, ∀ args reply, r.call = .appendEntries args reply →
      Numbered (args.prevLogIndex + 1) args.entries := by
  have hc := h.contiguous
  exact ⟨hc.node, fun r hr args reply he => hc.call _ _ _ (.rpc r hr rfl rfl he)⟩

/-- The logs and the requests are well formed, and no entry is of a later term than the node, in
every run in which no entry is overwritten that a request has still to copy. -/
theorem log_representation (h : s.ReachableBy Cluster.Settled) :
    (∀ i, (s.procs i).rf.WellFormed) ∧
    ∀ r ∈ s.rpcs, ∀ args reply, r.call = .appendEntries args reply →
      Numbered (args.prevLogIndex + 1) args.entries :=
  ⟨h.wellFormed, (log_numbering h).2⟩

end

/-- Node 0 has compacted one of its two entries and sends the other to node 1, and node 2 has
been restarted from what it had stored. -/
theorem log_representation_restarted : ∃ s : Cluster 3,
    s.ReachableBy Cluster.Settled ∧
    (s.procs 0).rf.log = [⟨1, [], 1⟩, ⟨1, [2], 2⟩] ∧
    (s.procs 2).rf.log = [⟨0, [], 0⟩, ⟨1, [1], 1⟩, ⟨1, [2], 2⟩] ∧
    (∃ r ∈ s.rpcs, ∃ args, r.call = .appendEntries args none ∧ args.entries = [⟨1, [2], 2⟩]) ∧
    ((∀ i, (s.procs i).rf.WellFormed) ∧
      ∀ r ∈ s.rpcs, ∀ args reply, r.call = .appendEntries args reply →
        Numbered (args.prevLogIndex + 1) args.entries) := by
  have hrun : RunsTo Cluster.step Cluster.Settled (fun s =>
      (s.procs 0).rf.log = [⟨1, [], 1⟩, ⟨1, [2], 2⟩] ∧
      (s.procs 2).rf.log = [⟨0, [], 0⟩, ⟨1, [1], 1⟩, ⟨1, [2], 2⟩] ∧
      s.rpcs.map Rpc.call = [.appendEntries ⟨1, 0, 1, 1, [⟨1, [2], 2⟩], 2⟩ none]) (.init 3)
      [.act 0 .tick, .act 0 .startElection, .handle 0, .reply 0, .drop 0, .act 0 (.start [1]),
        .act 0 (.start [2]), .act 0 (.replicate 2), .act 0 (.send 0), .handle 0, .reply 0, .crash 2,
        .act 0 (.replicate 2), .act 0 (.send 0), .drop 0, .act 0 .collect, .act 0 .emit,
        .act 0 .receive, .act 0 (.finish (some [7])), .act 0 (.replicate 1), .act 0 (.send 0),
        .handle 0, .reply 0, .act 0 (.replicate 1), .handle 0, .reply 0, .act 0 (.replicate 1),
        .act 0 (.send 0)] := by
    decide +kernel
  obtain ⟨s, hs, h0, h2, hr⟩ := hrun.reachable
  have hmem : Call.appendEntries ⟨1, 0, 1, 1, [⟨1, [2], 2⟩], 2⟩ none ∈ s.rpcs.map Rpc.call :=
    hr ▸ List.mem_cons_self
  obtain ⟨r, hrin, hcall⟩ := List.mem_map.1 hmem
  exact ⟨s, hs, h0, h2, ⟨r, hrin, _, hcall, rfl⟩, log_representation hs⟩

/-- Node 0 leads in term 1 and is to send its entry to node 2. Before that the leader of term 2
overwrites the entry, and the request of term 1 carries the entry of term 2. -/
theorem log_representation_fails : ∃ s : Cluster 5, s.Reachable ∧
    (s.procs 2).rf.currentTerm = 1 ∧ (s.procs 2).rf.log = [⟨0, [], 0⟩, ⟨2, [9], 1⟩] ∧
    ¬ (s.procs 2).rf.WellFormed := by
  have hrun : RunsTo Cluster.step (fun _ _ => True)
      (fun s => (s.procs 2).rf.currentTerm = 1 ∧
        (s.procs 2).rf.log = [⟨0, [], 0⟩, ⟨2, [9], 1⟩]) (.init 5)
      [.act 0 .tick, .act 0 .startElection, .handle 0, .handle 1, .reply 0, .reply 0, .drop 0,
        .drop 0, .act 0 (.start [1]), .act 0 (.replicate 2), .act 1 .tick, .act 1 .startElection,
        .handle 2, .handle 3, .reply 2, .reply 2, .drop 0, .drop 0, .act 1 (.start [9]),
        .act 1 (.replicate 0), .act 1 (.send 0), .handle 0, .act 0 (.send 0), .handle 1] := by
    decide +kernel
  obtain ⟨s, hs, ht, hlog⟩ := hrun.reachable
  refine ⟨s, hs, ht, hlog, fun hw => ?_⟩
  have hterm := hw.terms ⟨2, [9], 1⟩ (hlog ▸ List.mem_cons_of_mem _ List.mem_cons_self)
  rw [ht] at hterm
  exact absurd hterm (by decide)

end LinKV

import LinKV.Raft.Logs
import LinKV.Raft.Pipeline

namespace LinKV
set_option autoImplicit true

open Consensus Ledger

namespace Raft

/-- The log check of `AppendEntries`. -/
def accepts (rf : Raft n) (args : AppendEntriesArgs n) : Bool :=
  rf.currentTerm ≤ args.term && rf.lastIncludeIndex ≤ args.prevLogIndex &&
    args.prevLogIndex - rf.lastIncludeIndex < rf.log.length &&
    termOf rf.log (args.prevLogIndex - rf.lastIncludeIndex) = args.prevLogTerm

/-- An accepted request reaches the end of the log, or one of its entries conflicts with it. -/
def appendFits (rf : Raft n) (args : AppendEntriesArgs n) : Bool :=
  !rf.accepts args || args.entries = [] ||
    rf.lastLogIndex ≤ args.prevLogIndex + args.entries.length ||
    (List.range args.entries.length).any fun d =>
      termOf rf.log (args.prevLogIndex + 1 + d - rf.lastIncludeIndex) ≠ termOf args.entries d

end Raft

/-- A request takes nothing away that the sender's log has as well. -/
def Proc.fits (p : Proc n) : Event n → Bool
  | .appendEntries args => p.rf.appendFits args
  | .installSnapshot args => p.rf.snapshotFits args
  | _ => true

/-- The requests fit, and no entry is overwritten that one has still to copy. -/
def Cluster.Fits (s : Cluster n) (a : Action n) : Prop :=
  s.Meets (fun p ev => p.fits ev = true) a ∧ s.Settled a

instance Cluster.decidableFits (s : Cluster n) (a : Action n) : Decidable (s.Fits a) :=
  inferInstanceAs (Decidable (s.Meets (fun p ev => p.fits ev = true) a ∧ s.Settled a))

theorem Proc.fits_snapshot {p : Proc n} (h : p.fits ev = true) : p.snapshotFits ev = true := by
  cases ev with
  | installSnapshot args => exact h
  | _ => rfl

section

variable {g g' : Record n} {rf rf' : Raft n} {p p' : Proc n} {i j : Fin n}

theorem along_keeps (h : ∀ l ∈ ls, ∀ v t m, l ≠ .write v t m) : Along Keeps g ls := by
  induction ls generalizing g with
  | nil => trivial
  | cons l ls ih =>
    refine ⟨?_, ih fun l' hl' => h l' (.tail _ hl')⟩
    cases l with
    | write v t m => exact (h _ (.head _) v t m rfl).elim
    | _ => trivial

theorem raised_keeps : Along Keeps g (rf.raised i rf') := by
  apply along_keeps
  intro l hl v t m he
  unfold Raft.raised at hl
  split at hl
  · rw [he, List.mem_singleton] at hl
    cases hl
  · cases hl

theorem termOf_stamp (k d : Nat) (L : Log Bytes) : termOf (stamp k L) d = termAt L (d + 1) := by
  simp only [termOf, getElem?_stamp, Option.map_map, termAt]
  rfl

theorem AppendWf.termOf (hw : AppendWf g args) (hd : d < args.entries.length) :
    termOf args.entries d = termAt (g.glog args.term) (args.prevLogIndex + 1 + d) := by
  have hsum : args.prevLogIndex + 1 + d = (args.prevLogIndex + d) + 1 := by omega
  rw [hw.entries, termOf_stamp, hsum, termAt, termAt, List.getElem?_take_of_lt hd,
    List.getElem?_drop]

theorem Raft.appendFits_cases (h : rf.appendFits args = true) (hacc : rf.accepts args = true)
    (he : args.entries ≠ []) :
    rf.lastLogIndex ≤ args.prevLogIndex + args.entries.length ∨
      ∃ d, d < args.entries.length ∧
        termOf rf.log (args.prevLogIndex + 1 + d - rf.lastIncludeIndex) ≠
          termOf args.entries d := by
  simpa only [Raft.appendFits, hacc, Bool.not_true, he, decide_false, Bool.or_self, Bool.or_eq_true,
    Bool.false_eq_true, decide_eq_true_eq, false_or, List.any_eq_true, List.mem_range] using h

theorem NodeLog.append_keeps (h : NodeLog g i rf) (hw : AppendWf g args)
    (hacc : rf.accepts args = true) (hfit : rf.appendFits args = true) (he : args.entries ≠ []) :
    Keeps g (.write i args.term (args.prevLogIndex + args.entries.length)) := by
  intro k hk hp
  have hlen := hp.length_le
  have htake : ((g.glog args.term).take k).length = k := by
    rw [List.length_take, Nat.min_eq_left hk]
  rcases Raft.appendFits_cases hfit hacc he with hle | ⟨d, hd, hne⟩
  · rw [h.rep.lastLogIndex] at hle
    omega
  · by_contra hgt
    simp only [Raft.accepts, Bool.and_eq_true, decide_eq_true_eq] at hacc
    apply hne
    rw [h.rep.termOf (by omega), hw.termOf hd, termAt_of_isPrefix hp (by omega),
      termAt_take (by omega) hk]

theorem NodeLog.keeps (h : NodeLog g i p.rf) (hev : EventLog g i ev) (hfit : p.fits ev = true) :
    Along Keeps g (p.labels i ev) := by
  have hraised (t : Nat) : (g.effects (p.rf.raised i (p.rf.catchUp t))).log = g.log ∧
      (g.effects (p.rf.raised i (p.rf.catchUp t))).glog = g.glog :=
    ⟨(raised_glog g i p.rf (p.rf.catchUp t)).2.2.2.2, (raised_glog g i p.rf (p.rf.catchUp t)).1⟩
  have hcommitted (rf' : Raft n) : Along Keeps g (p.rf.committed i rf') := by
    apply along_keeps
    rintro l hl v t m rfl
    unfold Raft.committed at hl
    split at hl <;> simp at hl
  cases ev with
  | appendEntries args =>
    simp only [Proc.labels]
    rw [along_append]
    refine ⟨raised_keeps, ?_⟩
    rcases p.rf.appendEntries_cases args with
      ⟨_, _, hs⟩ | ⟨_, ⟨_, hs⟩ | ⟨hli, hlen, hpt, _, hs⟩⟩
    · rw [if_neg (by rw [hs]; exact Bool.false_ne_true)]
      trivial
    · rw [if_neg (by rw [hs]; exact Bool.false_ne_true)]
      trivial
    · rw [if_pos hs]
      by_cases he : args.entries = []
      · simp only [Raft.appended, he, ↓reduceIte, List.nil_append]
        exact ⟨trivial, trivial⟩
      · simp only [Raft.appended, he, ↓reduceIte, List.cons_append, List.nil_append]
        refine ⟨?_, trivial, trivial⟩
        have hacc : p.rf.accepts args = true := by
          simp only [Raft.accepts, Bool.and_eq_true, decide_eq_true_eq]
          exact ⟨⟨⟨by omega, hli⟩, hlen⟩, hpt⟩
        have hk := h.append_keeps hev.2 hacc hfit he
        simp only [Keeps, (hraised args.term).1, (hraised args.term).2] at hk ⊢
        exact hk
  | installSnapshot args =>
    simp only [Proc.labels]
    rw [along_append]
    refine ⟨raised_keeps, ?_⟩
    split
    · next hc =>
      refine ⟨?_, trivial⟩
      simp only [Keeps, (hraised args.term).1, (hraised args.term).2]
      intro k hk hp
      have hlen := hp.length_le
      have hle := hc.2
      rw [List.length_take, Nat.min_eq_left hk] at hlen
      rw [h.rep.lastLogIndex] at hle
      omega
    · trivial
  | startElection => exact ⟨trivial, trivial⟩
  | soloLeader => exact ⟨trivial, trivial⟩
  | logUpdate => exact hcommitted _
  | replicate server => exact hcommitted _
  | start command =>
    apply along_keeps
    rintro l hl v t m rfl
    simp only [Proc.labels] at hl
    split at hl
    · rcases List.mem_cons.1 hl with he | hl
      · cases he
      · unfold Raft.committed at hl
        split at hl <;> simp at hl
    · cases hl
  | requestVote args =>
    simp only [Proc.labels]
    rw [along_append]
    refine ⟨raised_keeps, ?_⟩
    split
    · exact ⟨trivial, trivial⟩
    · trivial
  | requestVoteReply args reply =>
    simp only [Proc.labels]
    rw [along_append]
    refine ⟨raised_keeps, ?_⟩
    split
    · exact ⟨trivial, trivial⟩
    · trivial
  | appendEntriesReply server args reply => exact raised_keeps
  | installSnapshotReply server args reply => exact raised_keeps
  | _ => trivial

end

/-- Everything a node counts as committed is committed. -/
structure Counted (g : Record n) (i : Fin n) (rf : Raft n) : Prop where
  li_le : rf.lastIncludeIndex ≤ rf.commitIndex
  le : rf.commitIndex ≤ (g.log i).length
  decided : DecidedBy g (g.term i) ((g.log i).take rf.commitIndex)

/-- A process as the commit record sees it. -/
structure NodeCommit (g : Record n) (i : Fin n) (p : Proc n) : Prop extends
    Counted g i p.rf where
  own : ¬ n ≤ 1 → p.rf.state = .leader → ∀ k, g.decl p.rf.currentTerm k → k ≤ p.rf.commitIndex
  pending : ∀ j c, .command j c ∈ p.pipe.queue → j ≤ p.rf.commitIndex
  batch : ∀ j c, .command j c ∈ p.batch → Chosen g j c
  snaps : ∀ j c, .command j c ∉ p.snapSends

def CallCommit (g : Record n) : Call n → Prop
  | .appendEntries args _ => args.leaderCommit ≤ (g.glog args.term).length ∧
      DecidedBy g args.term ((g.glog args.term).take args.leaderCommit) ∧
      (args.entries = [] → args.leaderCommit ≤ args.prevLogIndex)
  | .installSnapshot args _ => args.lastIncludeIndex ≤ (g.glog args.term).length ∧
      DecidedBy g args.term ((g.glog args.term).take args.lastIncludeIndex)
  | _ => True

def EventCommit (g : Record n) : Event n → Prop
  | .appendEntries args => CallCommit g (.appendEntries args none)
  | .installSnapshot args => CallCommit g (.installSnapshot args none)
  | _ => True

section

variable {g g' : Record n} {rf rf' : Raft n} {p p' : Proc n} {i j : Fin n}

theorem Proc.labels_commit (hs : p.step now ev = some p') (hl : .commit t k ∈ p.labels i ev) :
    t = p.rf.currentTerm ∧ p.rf.state = .leader ∧ k = p'.rf.commitIndex := by
  have hraised (rf' : Raft n) (hl : .commit t k ∈ p.rf.raised i rf') : False := by
    unfold Raft.raised at hl
    split at hl <;> simp at hl
  have hcommitted (rf' : Raft n) (hl : .commit t k ∈ p.rf.committed i rf') :
      t = p.rf.currentTerm ∧ k = rf'.commitIndex ∧ p.rf.commitIndex < rf'.commitIndex := by
    unfold Raft.committed at hl
    split at hl
    · simp only [List.mem_cons, reduceCtorEq, Label.commit.injEq, List.not_mem_nil, or_false,
        false_or] at hl
      exact ⟨hl.1, hl.2, ‹_›⟩
    · cases hl
  cases step_takes hs with
  | logUpdate =>
    obtain ⟨rfl, rfl, hlt⟩ := hcommitted _ hl
    rcases p.rf.logUpdate_spec.1 with hc | ⟨hst, _⟩
    · omega
    · exact ⟨rfl, hst, rfl⟩
  | replicate server =>
    obtain ⟨rfl, rfl, hlt⟩ := hcommitted _ hl
    rcases (p.rf.replicate_spec server).1 with hc | ⟨hst, _⟩
    · omega
    · exact ⟨rfl, hst, rfl⟩
  | start command =>
    simp only [labels] at hl
    split at hl
    · next hst =>
      rcases List.mem_cons.1 hl with he | hl
      · cases he
      · exact ⟨(hcommitted _ hl).1, hst, (hcommitted _ hl).2.1⟩
    · cases hl
  | requestVote args =>
    rcases List.mem_append.1 hl with hl | hl
    · exact (hraised _ hl).elim
    · split at hl <;> simp at hl
  | appendEntries args =>
    rcases List.mem_append.1 hl with hl | hl
    · exact (hraised _ hl).elim
    · split at hl
      · simp only [Raft.appended, List.mem_append] at hl
        split at hl <;> simp at hl
      · cases hl
  | installSnapshot args =>
    rcases List.mem_append.1 hl with hl | hl
    · exact (hraised _ hl).elim
    · split at hl <;> simp at hl
  | requestVoteReply args reply =>
    rcases List.mem_append.1 hl with hl | hl
    · exact (hraised _ hl).elim
    · split at hl <;> simp at hl
  | appendEntriesReply server args reply => exact (hraised _ hl).elim
  | installSnapshotReply server args reply => exact (hraised _ hl).elim
  | startElection => simp [labels] at hl
  | soloLeader => simp [labels] at hl
  | _ => cases hl

theorem Counted.base (h : Counted g i rf) (he : Extends g g')
    (hp : (g.log i).take rf.commitIndex <+: g'.log i) :
    rf.commitIndex ≤ (g'.log i).length ∧
      DecidedBy g' (g'.term i) ((g'.log i).take rf.commitIndex) := by
  have hlen : ((g.log i).take rf.commitIndex).length = rf.commitIndex := by
    rw [List.length_take, Nat.min_eq_left h.le]
  have heq := List.prefix_iff_eq_take.1 hp
  rw [hlen] at heq
  refine ⟨hlen ▸ hp.length_le, ?_⟩
  rw [← heq]
  exact (h.decided.extends he).le (he.term i)

theorem Counted.kept (h : Counted g i rf) (he : Extends g g')
    (hp : (g.log i).take rf.commitIndex <+: g'.log i)
    (hci : rf'.commitIndex = rf.commitIndex)
    (hli : rf'.lastIncludeIndex = rf.lastIncludeIndex) : Counted g' i rf' := by
  obtain ⟨hle, hd⟩ := h.base he hp
  rw [← hci] at hle hd
  exact ⟨by rw [hli, hci]; exact h.li_le, hle, hd⟩

theorem Counted.advance (h : Counted g i rf) (he : Extends g g')
    (hp : (g.log i).take rf.commitIndex <+: g'.log i)
    (hli : rf'.lastIncludeIndex = rf.lastIncludeIndex) (hn : NodeSim g' i rf')
    (hm : Matching g') (hc : Complete g')
    (hci : rf'.commitIndex = rf.commitIndex ∨ (rf.commitIndex < rf'.commitIndex ∧
      rf'.state = .leader ∧ g'.decl rf'.currentTerm rf'.commitIndex)) : Counted g' i rf' := by
  rcases hci with hci | ⟨hlt, hst, hd⟩
  · exact h.kept he hp hci hli
  · have hlog := hm.leader_log i _ (hn.leader hst) hn.term
    have hli' := h.li_le
    refine ⟨by omega, ?_, ?_⟩
    · rw [hlog]
      exact hc.decl_le hd
    · rw [hlog]
      exact DecidedBy.of_decl hd (Nat.le_of_eq hn.term.symm)

theorem Counted.snapshotAt (h : Counted g i rf) (hs : rf.snapshotAt index data = some rf')
    (hidx : index ≤ rf.commitIndex) : Counted g i rf' := by
  rcases Raft.snapshotAt_cases hs with ⟨_, rfl⟩ | ⟨_, _, _, _, _, _, _, hli, _, _, hci, _, _⟩
  · exact h
  · rw [Nat.max_eq_left hidx] at hci
    refine ⟨by rw [hli, hci]; exact hidx, ?_, ?_⟩
    · rw [hci]
      exact h.le
    · rw [hci]
      exact h.decided

theorem Counted.restart (h : Counted g i rf) (hs : rf.Stored) :
    Counted g i (.make i rf.persister) := by
  have hli : (Raft.make i rf.persister).lastIncludeIndex = rf.lastIncludeIndex :=
    congrArg RaftState.lastIncludeIndex (hs.make_image i)
  have hci := (Raft.make_commitIndex i rf.persister).1
  refine ⟨Nat.le_of_eq hci.symm, ?_, ?_⟩
  · rw [hci, hli]
    exact Nat.le_trans h.li_le h.le
  · rw [hci, hli]
    exact h.decided.of_isPrefix (List.take_prefix_take_left h.li_le)

theorem appended_log : (g.effects (Raft.appended i args)).log i =
    if args.entries = [] then g.log i else
      (g.glog args.term).take (args.prevLogIndex + args.entries.length) := by
  unfold Raft.appended
  split
  · rfl
  · simp only [List.cons_append, List.nil_append, effects_cons, effects_nil, Ledger.effect,
      Function.update_self]

/-- As far as a follower follows the leader's commit index its log is the leader's. -/
theorem follow_commit (hc : CallCommit g (.appendEntries args none))
    (hlog : L = if args.entries = [] then g.log i else
      (g.glog args.term).take (args.prevLogIndex + args.entries.length))
    (hpl : args.prevLogIndex ≤ (g.log i).length)
    (htake : (g.log i).take args.prevLogIndex = (g.glog args.term).take args.prevLogIndex) :
    DecidedBy g args.term (L.take (min args.leaderCommit L.length)) := by
  apply hc.2.1.of_isPrefix
  split at hlog
  · next he =>
    have hle := hc.2.2 he
    subst hlog
    have heq : (g.log i).take args.leaderCommit = (g.glog args.term).take args.leaderCommit := by
      have htt := congrArg (List.take args.leaderCommit) htake
      rwa [List.take_take, List.take_take, Nat.min_eq_left hle] at htt
    rw [Nat.min_eq_left (Nat.le_trans hle hpl), heq]
  · subst hlog
    rw [List.take_take]
    exact List.take_prefix_take_left (by omega)

theorem Counted.appendEntries (h : Counted g i p.rf) (hl : NodeLog g i p.rf)
    (hl' : NodeLog (g.effects (p.labels i (.appendEntries args))) i (p.rf.appendEntries args).1)
    (hn' : NodeSim (g.effects (p.labels i (.appendEntries args))) i (p.rf.appendEntries args).1)
    (hm : Matching g) (he : Extends g (g.effects (p.labels i (.appendEntries args))))
    (hp : (g.log i).take p.rf.commitIndex <+:
      (g.effects (p.labels i (.appendEntries args))).log i)
    (hev : EventLog g i (.appendEntries args)) (hec : EventCommit g (.appendEntries args)) :
    Counted (g.effects (p.labels i (.appendEntries args))) i (p.rf.appendEntries args).1 := by
  rcases p.rf.appendEntries_cases args with
    ⟨_, heq, _⟩ | ⟨hge, ⟨heq, _⟩ | ⟨hli, hlen, hpt, heq, hs⟩⟩
  · exact h.kept he hp (by rw [heq]) (by rw [heq])
  · exact h.kept he hp (by rw [heq]; exact Raft.catchUp_commitIndex)
      (by rw [heq]; exact Raft.catchUp_lastIncludeIndex)
  · have how := (p.rf.follow args.term).overwrite_spec args
    rw [← heq] at how
    have hci : (p.rf.follow args.term).commitIndex = p.rf.commitIndex := Raft.catchUp_commitIndex
    have hlif : (p.rf.appendEntries args).1.lastIncludeIndex = p.rf.lastIncludeIndex :=
      how.lastIncludeIndex.trans Raft.catchUp_lastIncludeIndex
    have hcommit := how.commitIndex
    rw [hci] at hcommit
    split at hcommit
    · next hlt =>
      obtain ⟨hpl, htake⟩ := hl.agrees hm hev.2 hli hlen hpt
      have hlog : (g.effects (p.labels i (.appendEntries args))).log i =
          if args.entries = [] then g.log i else
            (g.glog args.term).take (args.prevLogIndex + args.entries.length) := by
        simp only [Proc.labels, hs, ↓reduceIte]
        rw [effects_append, appended_log]
        obtain ⟨hg, _, _, _, hlg⟩ := raised_glog g i p.rf (p.rf.catchUp args.term)
        rw [hg, hlg]
      have hterm : (g.effects (p.labels i (.appendEntries args))).term i = args.term := by
        rw [hn'.term, how.currentTerm]
        exact Raft.catchUp_term hge
      have hd := follow_commit hec hlog hpl htake
      rw [hl'.rep.lastLogIndex] at hcommit
      refine ⟨?_, ?_, ?_⟩
      · have hle := hl'.rep.le
        have hle' := h.li_le
        rw [hlif] at hle ⊢
        omega
      · omega
      · rw [hcommit, hterm]
        exact hd.extends he
    · exact h.kept he hp hcommit hlif

theorem Counted.installSnapshot (h : Counted g i p.rf) (hl : NodeLog g i p.rf)
    (hn' : NodeSim (g.effects (p.labels i (.installSnapshot args))) i
      (p.rf.installSnapshot args).1)
    (hm : Matching g) (he : Extends g (g.effects (p.labels i (.installSnapshot args))))
    (hp : (g.log i).take p.rf.commitIndex <+:
      (g.effects (p.labels i (.installSnapshot args))).log i)
    (hev : EventLog g i (.installSnapshot args)) (hec : EventCommit g (.installSnapshot args))
    (hfit : p.rf.snapshotFits args = true) :
    Counted (g.effects (p.labels i (.installSnapshot args))) i
      (p.rf.installSnapshot args).1 := by
  rcases p.rf.installSnapshot_cases args with
    ⟨_, heq, _⟩ | ⟨hge, ⟨_, heq, _⟩ | ⟨hli, heq, hs⟩⟩
  · exact h.kept he hp (by rw [heq]) (by rw [heq])
  · exact h.kept he hp (by rw [heq]; exact Raft.catchUp_commitIndex)
      (by rw [heq]; exact Raft.catchUp_lastIncludeIndex)
  · have hterm : (g.effects (p.labels i (.installSnapshot args))).term i = args.term := by
      rw [hn'.term, heq]
      exact Raft.catchUp_term hge
    have hci : (p.rf.installSnapshot args).1.commitIndex =
        max p.rf.commitIndex args.lastIncludeIndex := by
      have hfol : (p.rf.follow args.term).commitIndex = p.rf.commitIndex :=
        Raft.catchUp_commitIndex
      rw [heq, ← hfol]
      rfl
    have hlif : (p.rf.installSnapshot args).1.lastIncludeIndex = args.lastIncludeIndex := by
      rw [heq]
      rfl
    obtain ⟨hg, _, _, _, hlg⟩ := raised_glog g i p.rf (p.rf.catchUp args.term)
    have hlast := hl.rep.lastLogIndex
    have hcl := h.le
    have hd : DecidedBy g args.term ((g.glog args.term).take args.lastIncludeIndex) := hec.2
    by_cases hle : p.rf.lastLogIndex ≤ args.lastIncludeIndex
    · have hlog : (g.effects (p.labels i (.installSnapshot args))).log i =
          (g.glog args.term).take args.lastIncludeIndex := by
        simp only [Proc.labels, hs, Option.isSome_some, hle, and_self, ↓reduceIte]
        rw [effects_append]
        simp only [effects_cons, effects_nil, Ledger.effect, Function.update_self, hg]
      have hmax : max p.rf.commitIndex args.lastIncludeIndex = args.lastIncludeIndex := by omega
      rw [hmax] at hci
      refine ⟨by omega, ?_, ?_⟩
      · rw [hlog, hci, List.length_take]
        exact Nat.le_min.2 ⟨Nat.le_refl _, hev.2.le⟩
      · rw [hlog, hci, hterm, List.take_take, Nat.min_self]
        exact hd.extends he
    · have hlog : (g.effects (p.labels i (.installSnapshot args))).log i = g.log i := by
        simp only [Proc.labels, hle, and_false, ↓reduceIte, List.append_nil, hlg]
      have htake : (g.log i).take args.lastIncludeIndex =
          (g.glog args.term).take args.lastIncludeIndex := by
        refine (hm.log_coh i).take_eq (hm.glog_coh _) (by omega) hev.2.le ?_
        rw [← hl.rep.termOf (Nat.le_of_lt hli), ← hev.2.term]
        simp only [Raft.snapshotFits, Bool.or_eq_true, decide_eq_true_eq] at hfit
        omega
      rcases Nat.le_total args.lastIncludeIndex p.rf.commitIndex with hmax | hmax
      · rw [Nat.max_eq_left hmax] at hci
        obtain ⟨hle', hd'⟩ := h.base he hp
        exact ⟨by omega, hci ▸ hle', hci ▸ hd'⟩
      · rw [Nat.max_eq_right hmax] at hci
        refine ⟨by omega, ?_, ?_⟩
        · rw [hlog]
          omega
        · rw [hlog, hci, hterm, htake]
          exact hd.extends he

/-- A step of process `i`, with what the voting and the log layer say about it. -/
structure Taken (g : Record n) (i : Fin n) (p : Proc n) (ev : Event n) (p' : Proc n) : Prop where
  node : NodeSim g i p.rf
  log : NodeLog g i p.rf
  ballot : Ballot g
  matching : Matching g
  complete : Complete g
  solo : p.solo = 0
  event : EventLog g i ev
  fits : p.fits ev = true
  ok : Along Ok g (p.labels i ev)
  step : ∃ now, p.step now ev = some p'
  node' : NodeSim (g.effects (p.labels i ev)) i p'.rf
  log' : NodeLog (g.effects (p.labels i ev)) i p'.rf

theorem Taken.keeps (h : Taken g i p ev p') : Along Keeps g (p.labels i ev) :=
  h.log.keeps h.event h.fits

theorem Taken.extends (h : Taken g i p ev p') : Extends g (g.effects (p.labels i ev)) :=
  h.matching.extends_effects h.ballot h.ok

theorem Taken.complete' (h : Taken g i p ev p') : Complete (g.effects (p.labels i ev)) :=
  h.complete.effects h.matching h.ballot h.ok h.keeps

theorem Taken.matching' (h : Taken g i p ev p') : Matching (g.effects (p.labels i ev)) :=
  h.matching.effects h.ballot h.ok

theorem Taken.prefix_log (h : Taken g i p ev p') (hc : Counted g i p.rf) :
    (g.log i).take p.rf.commitIndex <+: (g.effects (p.labels i ev)).log i :=
  hc.decided.keeps h.complete h.matching h.ballot h.ok h.keeps (List.take_prefix _ _)

theorem Taken.kept (h : Taken g i p ev p') (hc : Counted g i p.rf)
    (hci : p'.rf.commitIndex = p.rf.commitIndex)
    (hli : p'.rf.lastIncludeIndex = p.rf.lastIncludeIndex) :
    Counted (g.effects (p.labels i ev)) i p'.rf ∧ p.rf.commitIndex ≤ p'.rf.commitIndex :=
  ⟨hc.kept h.extends (h.prefix_log hc) hci hli, Nat.le_of_eq hci.symm⟩

theorem Taken.advance (h : Taken g i p ev p') (hc : Counted g i p.rf)
    (hli : p'.rf.lastIncludeIndex = p.rf.lastIncludeIndex)
    (hci : p'.rf.commitIndex = p.rf.commitIndex ∨ (p.rf.commitIndex < p'.rf.commitIndex ∧
      p'.rf.state = .leader ∧ p'.rf.currentTerm = p.rf.currentTerm ∧
      .commit p.rf.currentTerm p'.rf.commitIndex ∈ p.labels i ev)) :
    Counted (g.effects (p.labels i ev)) i p'.rf ∧ p.rf.commitIndex ≤ p'.rf.commitIndex := by
  rcases hci with hci | ⟨hlt, hst, ht, hlab⟩
  · exact h.kept hc hci hli
  · refine ⟨?_, Nat.le_of_lt hlt⟩
    exact hc.advance h.extends (h.prefix_log hc) hli h.node' h.matching' h.complete'
      (.inr ⟨hlt, hst, ht ▸ decl_effects (.inr hlab)⟩)

theorem committed_mem (h : rf.commitIndex < rf'.commitIndex) :
    .commit rf.currentTerm rf'.commitIndex ∈ rf.committed i rf' := by
  rw [Raft.committed, if_pos h]
  exact .tail _ (.head _)

theorem commitSearch_advance (hsame : rf.Same rf')
    (hc : rf'.commitIndex = rf.commitIndex ∨
      (rf.state = .leader ∧ rf'.commitIndex = rf.commitSearch rf.lastLogIndex)) :
    rf'.commitIndex = rf.commitIndex ∨ (rf.commitIndex < rf'.commitIndex ∧
      rf'.state = .leader ∧ rf'.currentTerm = rf.currentTerm ∧
      .commit rf.currentTerm rf'.commitIndex ∈ rf.committed i rf') := by
  rcases hc with hc | ⟨hst, hc⟩
  · exact .inl hc
  · rcases commitSearch_spec rf rf.lastLogIndex with he | ⟨hlt, _⟩
    · exact .inl (hc.trans he)
    · rw [← hc] at hlt
      exact .inr ⟨hlt, hsame.state.trans hst, hsame.currentTerm, committed_mem hlt⟩

theorem Taken.start (h : Taken g i p (.start command) p') (hc : Counted g i p.rf)
    (he : p'.rf = p.rf.start command) :
    Counted (g.effects (p.labels i (.start command))) i p'.rf ∧
      p.rf.commitIndex ≤ p'.rf.commitIndex := by
  by_cases hl : p.rf.state = .leader
  · have hstart : p'.rf = Raft.persist { p.rf with
        log := p.rf.log ++ [⟨p.rf.currentTerm, command, p.rf.lastLogIndex + 1⟩]
        commitIndex := if n ≤ 1 then p.rf.lastLogIndex + 1 else p.rf.commitIndex } := by
      rw [he]
      exact if_neg (not_not.2 hl)
    have hst : p'.rf.state = .leader := by
      rw [hstart]
      exact hl
    have ht : p'.rf.currentTerm = p.rf.currentTerm := by rw [hstart]; rfl
    have hci : p'.rf.commitIndex = if n ≤ 1 then p.rf.lastLogIndex + 1 else p.rf.commitIndex := by
      rw [hstart]
      rfl
    apply h.advance hc (by rw [hstart]; rfl)
    split at hci
    · have hle := hc.le
      rw [← h.log.rep.lastLogIndex] at hle
      have hlt : p.rf.commitIndex < p'.rf.commitIndex := by omega
      refine .inr ⟨hlt, hst, ht, ?_⟩
      simp only [Proc.labels, if_pos hl]
      rw [he] at hlt ⊢
      exact .tail _ (committed_mem hlt)
    · exact .inl hci
  · rw [Raft.start, if_pos hl] at he
    exact h.kept hc (by rw [he]) (by rw [he])

theorem Taken.counted (h : Taken g i p ev p') (hc : Counted g i p.rf)
    (hpend : ∀ j c, .command j c ∈ p.pipe.queue → j ≤ p.rf.commitIndex)
    (hec : EventCommit g ev) :
    Counted (g.effects (p.labels i ev)) i p'.rf ∧ p.rf.commitIndex ≤ p'.rf.commitIndex := by
  obtain ⟨now, hs⟩ := h.step
  by_cases hidle : ev.isIdle = true
  · obtain ⟨hi, _⟩ := Proc.step_idle hs hidle
    exact h.kept hc hi.commitIndex hi.lastIncludeIndex
  cases Proc.step_takes hs with
  | startElection =>
    exact h.kept hc rfl rfl
  | soloLeader hne => exact absurd h.solo hne
  | logUpdate =>
    exact h.advance hc p.rf.logUpdate_same.lastIncludeIndex
      (commitSearch_advance p.rf.logUpdate_same p.rf.logUpdate_spec.1)
  | replicate server =>
    exact h.advance hc (p.rf.replicate_same server).lastIncludeIndex
      (commitSearch_advance (p.rf.replicate_same server) (p.rf.replicate_spec server).1)
  | start command =>
    exact h.start hc rfl
  | snapshot index c _ rf' hin hrf =>
    have hidx : index ≤ p.rf.commitIndex := by
      apply hpend index c
      simp only [Pipeline.queue, Proc.pipe, hin, Option.toList_some, List.mem_append,
        List.mem_singleton, or_true]
    refine ⟨hc.snapshotAt hrf hidx, ?_⟩
    rcases Raft.snapshotAt_cases hrf with ⟨_, rfl⟩ | ⟨_, _, _, _, _, _, _, _, _, _, hci, _⟩
    · exact Nat.le_refl _
    · have hle : p.rf.commitIndex ≤ rf'.commitIndex := by omega
      exact hle
  | requestVote args =>
    have hi := p.rf.requestVote_indices args
    exact h.kept hc hi.commitIndex hi.lastIncludeIndex
  | appendEntries args =>
    refine ⟨hc.appendEntries h.log h.log' h.node' h.matching h.extends (h.prefix_log hc) h.event
      hec, ?_⟩
    have hle := (hc.base h.extends (h.prefix_log hc)).1
    rw [← h.log'.rep.lastLogIndex] at hle
    exact Raft.appendEntries_commit p.rf args hle
  | installSnapshot args =>
    refine ⟨hc.installSnapshot h.log h.node' h.matching h.extends (h.prefix_log hc) h.event hec
      h.fits, ?_⟩
    exact Raft.installSnapshot_commit p.rf args
  | requestVoteReply args reply =>
    have hi := p.requestVoteReply_indices args reply
    exact h.kept hc hi.commitIndex hi.lastIncludeIndex
  | appendEntriesReply server args reply =>
    have hi := p.rf.appendEntriesReply_indices server args reply
    exact h.kept hc hi.commitIndex hi.lastIncludeIndex
  | installSnapshotReply server args reply =>
    have hi := p.rf.installSnapshotReply_indices server args reply
    exact h.kept hc hi.commitIndex hi.lastIncludeIndex
  | _ => exact (hidle rfl).elim

theorem Taken.own (h : Taken g i p ev p') (hc : NodeCommit g i p)
    (hle : p.rf.commitIndex ≤ p'.rf.commitIndex) (hn : ¬ n ≤ 1) (hst : p'.rf.state = .leader)
    (hd : (g.effects (p.labels i ev)).decl p'.rf.currentTerm k) : k ≤ p'.rf.commitIndex := by
  obtain ⟨now, hs⟩ := h.step
  have hbal := h.ballot.effects (h.ok.mono fun _ _ hok => hok.1)
  rcases Proc.step_leader hs hst h.solo with ⟨hst', ht⟩ | ⟨hcand, ht, _⟩
  · rw [ht] at hd
    rcases decl_effects_inv hd with hd | hlab
    · exact Nat.le_trans (hc.own hn hst' k hd) hle
    · exact Nat.le_of_eq (Proc.labels_commit hs hlab).2.2
  · rw [ht] at hd
    rcases decl_effects_inv hd with hd | hlab
    · -- Nobody led the term before this node won it.
      obtain ⟨c, hlead⟩ := h.complete.declared_led h.matching hd
      have hwon := h.node'.leader hst
      rw [ht] at hwon
      have he := hbal.leads_unique (h.extends.leads c _ hlead) hwon
      exact ((h.log.camp hcand).2 (he ▸ hlead)).elim
    · exact nomatch hcand.symm.trans (Proc.labels_commit hs hlab).2.1

/-- What the applier collects is committed. -/
theorem NodeCommit.collected (hc : NodeCommit g i p) (hl : NodeLog g i p.rf)
    (hm : .command k c ∈ p.rf.applier.2) : k ≤ p.rf.commitIndex ∧ Chosen g k c := by
  rcases p.rf.applier_cases with ⟨_, _, he⟩ | ⟨hli, hcol⟩
  · rw [he] at hm
    simp at hm
  · obtain ⟨_, e, he, hlt, hle, hlog⟩ := hcol.mem hm
    cases he
    have hx := hl.rep.entry (Nat.lt_of_le_of_lt hli hlt) hlog
    refine ⟨hle, _, _, e.term, hc.decided, by omega, ?_⟩
    rw [List.getElem?_take_of_lt (by omega), hx]

theorem Taken.pending (h : Taken g i p ev p') (hc : NodeCommit g i p)
    (hm : .command k c ∈ p'.pipe.queue) : k ≤ p.rf.commitIndex := by
  obtain ⟨now, hs⟩ := h.step
  have hpipe := Proc.step_pipe hs
  have hsn := hc.snaps k c
  generalize p'.pipe = x at hpipe hm
  cases hpipe with
  | same => exact hc.pending k c hm
  | collect _ hb =>
    simp only [Pipeline.queue, List.mem_append] at hm
    rcases hm with (hm | hm) | hm
    · exact (hc.collected h.log hm).1
    · exact hc.pending k c (by simp only [Pipeline.queue, List.mem_append, hm, or_true, true_or])
    · exact hc.pending k c (by simp only [Pipeline.queue, List.mem_append, hm, or_true])
  | emit _ m rest hb =>
    apply hc.pending k c
    simp only [Pipeline.queue, List.mem_append, hb, List.mem_cons, List.not_mem_nil,
      or_false] at hm ⊢
    tauto
  | emitSnap _ d m hk =>
    simp only [Pipeline.queue, List.mem_append, List.mem_singleton] at hm
    rcases hm with (hm | hm | hm) | hm
    · exact hc.pending k c (by simp only [Pipeline.queue, List.mem_append, hm, true_or])
    · exact hc.pending k c (by simp only [Pipeline.queue, List.mem_append, hm, or_true, true_or])
    · exact (hsn (hm ▸ List.mem_of_getElem? hk)).elim
    · exact hc.pending k c (by simp only [Pipeline.queue, List.mem_append, hm, or_true])
  | receive _ m rest hi hch =>
    apply hc.pending k c
    simp only [Pipeline.queue, List.mem_append, hch, hi, Option.toList_some, Option.toList_none,
      List.mem_cons, List.not_mem_nil, or_false] at hm ⊢
    tauto
  | finish _ m data la hi hla =>
    apply hc.pending k c
    simp only [Pipeline.queue, List.mem_append, Option.toList_none, List.not_mem_nil,
      or_false] at hm ⊢
    tauto
  | install _ args ht hi => exact hc.pending k c hm

theorem Taken.batch (h : Taken g i p ev p') (hc : NodeCommit g i p)
    (hm : .command k c ∈ p'.batch) : Chosen g k c := by
  obtain ⟨now, hs⟩ := h.step
  have hpipe := Proc.step_pipe hs
  have hm' : .command k c ∈ p'.pipe.batch := hm
  generalize p'.pipe = x at hpipe hm'
  cases hpipe with
  | collect _ hb => exact (hc.collected h.log hm').2
  | emit _ m rest hb =>
    have hb' : p.batch = m :: rest := hb
    exact hc.batch k c (hb' ▸ .tail _ hm')
  | _ => exact hc.batch k c hm'

theorem Taken.snaps (h : Taken g i p ev p') (hc : NodeCommit g i p) :
    .command k c ∉ p'.snapSends := by
  obtain ⟨now, hs⟩ := h.step
  have hpipe := Proc.step_pipe hs
  intro hm
  have hm' : .command k c ∈ p'.pipe.snapSends := hm
  generalize p'.pipe = x at hpipe hm'
  cases hpipe with
  | emitSnap _ d m hk => exact hc.snaps k c (List.mem_of_mem_eraseIdx hm')
  | install _ args ht hi =>
    rcases List.mem_append.1 hm' with hm' | hm'
    · exact hc.snaps k c hm'
    · simp at hm'
  | _ => exact hc.snaps k c hm'

/-- One step of a process keeps what it counts as committed, collects and sends committed. -/
theorem NodeCommit.step (hc : NodeCommit g i p) (h : Taken g i p ev p') (hec : EventCommit g ev) :
    NodeCommit (g.effects (p.labels i ev)) i p' := by
  obtain ⟨hcount, hle⟩ := h.counted hc.toCounted hc.pending hec
  exact {
    toCounted := hcount
    own := fun hn hst _ hd => h.own hc hle hn hst hd
    pending := fun _ _ hm => Nat.le_trans (h.pending hc hm) hle
    batch := fun _ _ hm => (h.batch hc hm).extends h.extends
    snaps := fun _ _ => h.snaps hc }

end

end LinKV

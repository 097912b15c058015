import LinKV.Raft.Apply

namespace LinKV
open Consensus
set_option autoImplicit true

/-- The message brings the state machine past entry `j`. -/
def ApplyMsg.covers (j : Nat) : ApplyMsg → Prop
  | .command i _ => i = j
  | .snapshot i _ _ => j ≤ i

instance (j : Nat) : (m : ApplyMsg) → Decidable (m.covers j)
  | .command i _ => inferInstanceAs (Decidable (i = j))
  | .snapshot i _ _ => inferInstanceAs (Decidable (j ≤ i))

theorem InOrder.covers (h : InOrder a ms) (ha : a < j) (hj : j ≤ lastIndex a ms) :
    ∃ m ∈ ms, m.covers j := by
  induction ms generalizing a with
  | nil => exact (Nat.not_le_of_lt ha hj).elim
  | cons m ms ih =>
    obtain ⟨hm, hms⟩ := inOrder_cons.1 h
    rcases Nat.lt_or_ge m.index j with hlt | hge
    · obtain ⟨m', hin, hc⟩ := ih hms hlt hj
      exact ⟨m', List.mem_cons_of_mem _ hin, hc⟩
    · refine ⟨m, List.mem_cons_self, ?_⟩
      cases m with
      | command i c =>
        have hi := hm.1
        simp only [ApplyMsg.index] at hge
        exact Nat.le_antisymm (by omega) hge
      | snapshot i t d => exact hge

namespace Pipeline

def all (x : Pipeline) : List ApplyMsg := x.sent ++ x.pending

theorem mem_all {x : Pipeline} :
    m ∈ x.all ↔ m ∈ x.processed ∨ m ∈ x.inHand ∨ m ∈ x.applyCh ∨ m ∈ x.batch ∨
      m ∈ x.snapSends := by
  simp only [all, sent, pending, List.mem_append, Option.mem_toList, Option.mem_def, or_assoc]

/-- `lastApplied` speaks of messages in the pipeline: there is one for every entry up to it. -/
structure Covers (x : Pipeline) : Prop where
  le : ∀ m ∈ x.all, m.index ≤ x.lastApplied
  cover : ∀ j, x.base < j → j ≤ x.lastApplied → ∃ m ∈ x.all, m.covers j

theorem Covers.extend {x y : Pipeline} {ms : List ApplyMsg} (h : x.Covers)
    (hall : ∀ m, m ∈ y.all ↔ m ∈ x.all ∨ m ∈ ms) (hb : y.base = x.base)
    (hl : x.lastApplied ≤ y.lastApplied) (hle : ∀ m ∈ ms, m.index ≤ y.lastApplied)
    (hcov : ∀ j, x.lastApplied < j → j ≤ y.lastApplied → ∃ m ∈ ms, m.covers j) : y.Covers where
  le m hm := by
    rcases (hall m).1 hm with hm | hm
    · exact Nat.le_trans (h.le m hm) hl
    · exact hle m hm
  cover j hj hle := by
    rcases Nat.lt_or_ge x.lastApplied j with hlt | hge
    · obtain ⟨m, hm, hc⟩ := hcov j hlt hle
      exact ⟨m, (hall m).2 (.inr hm), hc⟩
    · obtain ⟨m, hm, hc⟩ := h.cover j (hb ▸ hj) hge
      exact ⟨m, (hall m).2 (.inl hm), hc⟩

theorem Covers.shift {x y : Pipeline} (h : x.Covers) (hall : ∀ m, m ∈ y.all ↔ m ∈ x.all)
    (hb : y.base = x.base) (hl : y.lastApplied = x.lastApplied) : y.Covers where
  le m hm := hl ▸ h.le m ((hall m).1 hm)
  cover j hj hle := by
    obtain ⟨m, hm, hc⟩ := h.cover j (hb ▸ hj) (hl ▸ hle)
    exact ⟨m, (hall m).2 hm, hc⟩

end Pipeline

namespace Proc

theorem covers_step {p p' : Proc n} (h : p.pipe.Covers) (hs : p.step now ev = some p') :
    p'.pipe.Covers := by
  have hpipe := step_pipe hs
  generalize hx : p.pipe = x at hpipe h
  generalize p'.pipe = y at hpipe
  cases hpipe with
  | same => exact h
  | collect _ hb =>
    subst hx
    obtain ⟨ho, hl⟩ := p.rf.applier_inOrder
    refine h.extend (fun m => ?_) rfl (hl ▸ ho.le_lastIndex) (fun m hm => hl ▸ (ho.mem hm).2)
      (fun j hj hle => ho.covers hj (hl.symm ▸ hle))
    simp only [Pipeline.mem_all, hb]
    grind
  | emit _ m rest hb =>
    refine h.shift (fun m => ?_) rfl rfl
    simp only [Pipeline.mem_all, hb, List.mem_append, List.mem_cons]
    grind
  | emitSnap _ k m hk =>
    refine h.shift (fun m => ?_) rfl rfl
    simp only [Pipeline.mem_all, List.mem_append, (perm_eraseIdx hk).mem_iff, List.mem_cons]
    grind
  | receive _ m rest hi hc =>
    refine h.shift (fun m => ?_) rfl rfl
    simp only [Pipeline.mem_all, hi, hc, List.mem_cons, Option.mem_def]
    grind
  | finish _ m data lastApplied hi hl =>
    have hin : m ∈ x.all := Pipeline.mem_all.2 (.inr (.inl hi))
    have hle := h.le m hin
    refine h.shift (fun m => ?_) rfl ?_
    · simp only [Pipeline.mem_all, hi, Option.mem_def]
      grind
    · rcases hl with hl | ⟨j, c, rfl, hl⟩
      · exact hl
      · exact hl.trans (Nat.max_eq_left hle)
  | install _ args ht hi =>
    let m₀ := ApplyMsg.snapshot args.lastIncludeIndex args.lastIncludeTerm args.data
    have hle : ∀ m ∈ [m₀], m.index ≤ max x.lastApplied args.lastIncludeIndex := by
      rintro m (_ | ⟨_, ⟨⟩⟩)
      exact Nat.le_max_right _ _
    refine h.extend (fun m => ?_) rfl (Nat.le_max_left _ _) hle fun j hj hle =>
      ⟨m₀, List.mem_cons_self, ?_⟩
    · simp only [Pipeline.mem_all]
      grind
    · simp only at hle
      exact (le_max_iff.1 hle).resolve_left (Nat.not_le_of_lt hj)

theorem covers_boot (i : Fin n) (e : Option (RaftState n)) : (boot i e).pipe.Covers where
  le := nofun
  cover j hj hle := by
    have hla := (Raft.make_commitIndex i e).2
    simp only [pipe, boot] at hj hle
    omega

/-- What still stands between the applier and the state machine. -/
def unprocessed (p : Proc n) : List ApplyMsg :=
  p.batch ++ p.snapSends ++ p.applyCh ++ p.inHand.toList

/-- No snapshot and no command up to `index` is on its way to the state machine. -/
def caughtUp (p : Proc n) (index : Nat) : Bool :=
  p.unprocessed.all fun
    | .command j _ => index < j
    | .snapshot _ _ _ => false

/-- `applyLoop` is done with entry `j`, or started from or restored a snapshot that has it. -/
def Executed (p : Proc n) (j : Nat) : Prop := j ≤ p.base ∨ ∃ m ∈ p.processed, m.covers j

instance (p : Proc n) (j : Nat) : Decidable (p.Executed j) :=
  inferInstanceAs (Decidable (j ≤ p.base ∨ ∃ m ∈ p.processed, m.covers j))

theorem caughtUp_mem {p : Proc n} (h : p.caughtUp index = true) (hm : m ∈ p.unprocessed) :
    ∃ j c, m = .command j c ∧ index < j := by
  have hall := List.all_eq_true.1 h m hm
  cases m with
  | command j c => exact ⟨j, c, rfl, of_decide_eq_true hall⟩
  | snapshot j t d => cases hall

end Proc

theorem Pipeline.Covers.executed {p : Proc n} (h : p.pipe.Covers) (hd : p.caughtUp index = true)
    (hle : index ≤ p.rf.lastApplied) (hj : j ≤ index) : p.Executed j := by
  rcases Nat.lt_or_ge p.base j with hlt | hge
  · obtain ⟨m, hm, hc⟩ := h.cover j hlt (Nat.le_trans hj hle)
    by_cases hu : m ∈ p.unprocessed
    · -- a message on its way is a command above the index
      obtain ⟨j', c, rfl, hlt'⟩ := Proc.caughtUp_mem hd hu
      have : j' = j := hc
      omega
    · refine .inr ⟨m, ?_, hc⟩
      simp only [Pipeline.mem_all, Proc.pipe, Proc.unprocessed, List.mem_append,
        Option.mem_toList, Option.mem_def] at hm hu
      grind
  · exact .inl hge

theorem Pipeline.Ordered.caughtUp {p : Proc n} (h : p.pipe.Ordered)
    (hd : p.caughtUp index = true) (hle : index ≤ p.rf.lastApplied) :
    InOrder p.base p.processed ∧ index ≤ lastIndex p.base p.processed := by
  obtain ⟨ms, hms, hord, hlast⟩ := h
  simp only [Pipeline.sent, Proc.pipe, List.append_assoc] at hord hlast
  obtain ⟨hp, hrest⟩ := inOrder_append.1 hord
  refine ⟨hp, ?_⟩
  rw [lastIndex_append] at hlast
  generalize hr : p.inHand.toList ++ (p.applyCh ++ ms) = rest at hrest hlast
  cases rest with
  | nil => exact hlast.symm ▸ hle
  | cons m rest =>
    have hu : m ∈ p.unprocessed := by
      have hin : m ∈ p.inHand.toList ++ (p.applyCh ++ ms) := hr ▸ List.mem_cons_self
      have hpend : m ∈ ms ↔ m ∈ p.batch ++ p.snapSends := hms.mem_iff
      simp only [Proc.unprocessed, List.mem_append] at hin hpend ⊢
      grind
    obtain ⟨j, c, rfl, hlt⟩ := Proc.caughtUp_mem hd hu
    have hj : j = _ := hrest.1
    omega

section

variable {s : Cluster n}

theorem Cluster.Reachable.covers (h : s.Reachable) (i : Fin n) : (s.procs i).pipe.Covers :=
  ReachableBy.procs (Q := fun _ _ => True) h (fun _ _ _ _ _ _ => trivial) Proc.covers_boot
    (fun _ _ _ _ hp _ hs => Proc.covers_step hp hs) i

theorem Cluster.readExit_le (hs : s.step (.act i (.readExit k)) = some s')
    (hr : (s.procs i).reads[k]? = some index) : index ≤ (s.procs i).rf.lastApplied := by
  cases step_move hs with
  | act _ _ p _ _ hst =>
    simp only [Proc.step, hr] at hst
    split at hst
    · assumption
    · cases hst
  | panic _ _ hp => cases hp

/-- When a read leaves its wait loop, every entry up to its index has been executed, if nothing
that matters to it is still between the applier and the state machine. Where moreover the
messages were sent in order, the store it reads folds the log at least up to that index. -/
theorem read_after_apply (h : s.Reachable) (hr : (s.procs i).reads[k]? = some index)
    (hs : s.step (.act i (.readExit k)) = some s') (hd : (s.procs i).caughtUp index = true) :
    (∀ j, 0 < j → j ≤ index → (s.procs i).Executed j) ∧
    (s.ReachableBy (Cluster.Meets fun p ev => p.sendsInOrder ev = true) →
      FoldsPrefix (s.procs i).base (s.procs i).processed ∧
        index ≤ lastIndex (s.procs i).base (s.procs i).processed) := by
  have hle := Cluster.readExit_le hs hr
  refine ⟨fun j _ hj => (h.covers i).executed hd hle hj, fun hord => ?_⟩
  obtain ⟨hin, hidx⟩ := (hord.ordered i).caughtUp hd hle
  exact ⟨hin.foldsPrefix, hidx⟩

end

/-- Node 0 commits `[1]` on nodes 0 and 1 and collects it for the state machine; then a read
passes `ReadIndex`. -/
def earlyRead : List (Action 3) :=
  [.act 0 .tick, .act 0 .startElection, .handle 0, .reply 0, .drop 0, .act 0 (.start [1]),
    .act 0 (.replicate 1), .act 0 (.send 0), .handle 0, .reply 0, .act 0 (.replicate 1),
    .act 0 (.send 0), .act 0 .collect, .act 0 .readIndex, .handle 0, .reply 0, .act 0 .readSignal,
    .act 0 .readReturn]

/-- The command is executed before the read leaves its loop. -/
theorem read_after_apply_executed : ∃ s : Cluster 3, s.Reachable ∧
    (s.procs 0).reads = [1] ∧ (s.procs 0).processed = [.command 1 [1]] ∧
    (s.procs 0).Executed 1 := by
  have hrun : RunsTo Cluster.step (fun _ _ => True)
      (fun s => (s.procs 0).reads = [1] ∧ (s.procs 0).processed = [.command 1 [1]] ∧
        (s.procs 0).caughtUp 1 = true ∧ (s.step (.act 0 (.readExit 0))).isSome) (.init 3)
      (earlyRead ++ [.act 0 .emit, .act 0 .receive, .act 0 (.finish none)]) := by
    decide +kernel
  obtain ⟨s, hs, hr, hp, hd, hex⟩ := hrun.reachable
  obtain ⟨s', hs'⟩ := Option.isSome_iff_exists.1 hex
  have hk : (s.procs 0).reads[0]? = some 1 := by rw [hr]; rfl
  exact ⟨s, hs, hr, hp, (read_after_apply hs hk hs' hd).1 1 Nat.one_pos (Nat.le_refl 1)⟩

/-- The read leaves its loop while command 1 is still with the applier. -/
theorem read_after_apply_fails : ∃ s : Cluster 3, s.Reachable ∧
    (s.procs 0).reads[0]? = some 1 ∧ (s.step (.act 0 (.readExit 0))).isSome ∧
    ¬ (s.procs 0).Executed 1 := by
  have hrun : RunsTo Cluster.step (fun _ _ => True)
      (fun s => (s.procs 0).reads[0]? = some 1 ∧ (s.step (.act 0 (.readExit 0))).isSome ∧
        ¬ (s.procs 0).Executed 1) (.init 3) earlyRead := by
    decide +kernel
  exact hrun.reachable

end LinKV

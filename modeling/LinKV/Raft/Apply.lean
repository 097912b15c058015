import LinKV.Raft.Pipeline
import LinKV.Raft.Trace
import Mathlib.Data.List.Perm.Basic

namespace LinKV
open Consensus
set_option autoImplicit true

/-- Every command is the one after the message before it, every snapshot goes forward. -/
def InOrder : Nat → List ApplyMsg → Prop
  | _, [] => True
  | prev, .command i _ :: ms => i = prev + 1 ∧ InOrder i ms
  | prev, .snapshot i _ _ :: ms => prev < i ∧ InOrder i ms

instance InOrder.decidable : (prev : Nat) → (ms : List ApplyMsg) → Decidable (InOrder prev ms)
  | _, [] => .isTrue trivial
  | prev, .command i _ :: ms =>
    have := InOrder.decidable i ms
    inferInstanceAs (Decidable (i = prev + 1 ∧ InOrder i ms))
  | prev, .snapshot i _ _ :: ms =>
    have := InOrder.decidable i ms
    inferInstanceAs (Decidable (prev < i ∧ InOrder i ms))

def lastIndex : Nat → List ApplyMsg → Nat
  | prev, [] => prev
  | _, m :: ms => lastIndex m.index ms

/-- What `applyLoop` makes of a message, whatever its index: the index of the snapshot it has
restored last, and the commands it has executed since. -/
def applyMsg : Nat × List Bytes → ApplyMsg → Nat × List Bytes
  | (restored, cs), .command _ c => (restored, cs ++ [c])
  | _, .snapshot i _ _ => (i, [])

/-- The state machine is what the log makes of it up to the last message: the commands executed
since the last snapshot are those of the indices that follow it. -/
def FoldsPrefix (base : Nat) (ms : List ApplyMsg) : Prop :=
  (ms.foldl applyMsg (base, [])).1 + (ms.foldl applyMsg (base, [])).2.length = lastIndex base ms ∧
    ∀ k c, (ms.foldl applyMsg (base, [])).2[k]? = some c →
      .command ((ms.foldl applyMsg (base, [])).1 + k + 1) c ∈ ms

theorem lastIndex_append : lastIndex a (xs ++ ys) = lastIndex (lastIndex a xs) ys := by
  induction xs generalizing a with
  | nil => rfl
  | cons m xs ih => exact ih

theorem inOrder_cons : InOrder a (m :: ms) ↔ InOrder a [m] ∧ InOrder m.index ms := by
  cases m <;> simp only [InOrder, ApplyMsg.index, and_true]

theorem inOrder_append : InOrder a (xs ++ ys) ↔ InOrder a xs ∧ InOrder (lastIndex a xs) ys := by
  induction xs generalizing a with
  | nil => exact (iff_of_eq (true_and _)).symm
  | cons m xs ih =>
    rw [List.cons_append, inOrder_cons, ih, ← and_assoc, ← inOrder_cons]
    rfl

theorem InOrder.lt_index (h : InOrder a [m]) : a < m.index := by
  cases m with
  | command i c => exact h.1 ▸ Nat.lt_succ_self a
  | snapshot i t d => exact h.1

theorem InOrder.le_lastIndex (h : InOrder a ms) : a ≤ lastIndex a ms := by
  induction ms generalizing a with
  | nil => exact Nat.le_refl a
  | cons m ms ih =>
    obtain ⟨hm, hms⟩ := inOrder_cons.1 h
    exact Nat.le_trans (Nat.le_of_lt hm.lt_index) (ih hms)

theorem InOrder.mem (h : InOrder a ms) (hm : m ∈ ms) : a < m.index ∧ m.index ≤ lastIndex a ms := by
  induction ms generalizing a with
  | nil => cases hm
  | cons x ms ih =>
    obtain ⟨hx, hms⟩ := inOrder_cons.1 h
    have hlt := hx.lt_index
    rcases List.mem_cons.1 hm with rfl | hm
    · exact ⟨hlt, hms.le_lastIndex⟩
    · have hm := ih hms hm
      exact ⟨Nat.lt_trans hlt hm.1, hm.2⟩

theorem InOrder.head (h : InOrder a ms) (hm : m ∈ ms) (hmin : ∀ x ∈ ms, m.index ≤ x.index) :
    ∃ rest, ms = m :: rest := by
  cases ms with
  | nil => cases hm
  | cons x ms =>
    rcases List.mem_cons.1 hm with rfl | hm
    · exact ⟨ms, rfl⟩
    · have hx := ((inOrder_cons.1 h).2.mem hm).1
      have := hmin x List.mem_cons_self
      omega

theorem InOrder.fold (h : InOrder a ms) (ha : a = r + cs.length) :
    (ms.foldl applyMsg (r, cs)).1 + (ms.foldl applyMsg (r, cs)).2.length = lastIndex a ms ∧
    ∀ k c, (ms.foldl applyMsg (r, cs)).2[k]? = some c →
      (ms.foldl applyMsg (r, cs)).1 = r ∧ cs[k]? = some c ∨
        .command ((ms.foldl applyMsg (r, cs)).1 + k + 1) c ∈ ms := by
  induction ms generalizing a r cs with
  | nil => exact ⟨ha.symm, fun k c hk => .inl ⟨rfl, hk⟩⟩
  | cons m ms ih =>
    cases m with
    | command i c₀ =>
      obtain ⟨hi, hms⟩ := h
      have hlen : i = r + (cs ++ [c₀]).length := by
        rw [List.length_append, List.length_singleton]
        omega
      obtain ⟨hsum, hmem⟩ := ih hms hlen
      refine ⟨hsum, fun k c hk => ?_⟩
      rcases hmem k c hk with ⟨hr, hc⟩ | hin
      · rcases Nat.lt_or_ge k cs.length with hlt | hge
        · exact .inl ⟨hr, by rwa [List.getElem?_append_left hlt] at hc⟩
        · -- past the commands already there is only the one just executed
          rw [List.getElem?_append_right hge, List.getElem?_singleton] at hc
          split at hc
          case isFalse => cases hc
          obtain rfl := Option.some.inj hc
          have hidx : i = (List.foldl applyMsg (r, cs ++ [c₀]) ms).1 + k + 1 := by omega
          right
          simp only [List.foldl_cons, applyMsg]
          rw [← hidx]
          exact List.mem_cons_self
      · exact .inr (List.mem_cons_of_mem _ hin)
    | snapshot i t d =>
      have hlen : i = i + ([] : List Bytes).length := rfl
      obtain ⟨hsum, hmem⟩ := ih h.2 hlen
      refine ⟨hsum, fun k c hk => ?_⟩
      rcases hmem k c hk with ⟨_, hc⟩ | hin
      · cases hc
      · exact .inr (List.mem_cons_of_mem _ hin)

theorem InOrder.foldsPrefix (h : InOrder base ms) : FoldsPrefix base ms := by
  have hlen : base = base + ([] : List Bytes).length := rfl
  obtain ⟨hsum, hmem⟩ := h.fold hlen
  refine ⟨hsum, fun k c hk => ?_⟩
  rcases hmem k c hk with ⟨_, hc⟩ | hin
  · cases hc
  · exact hin

theorem Raft.Collected.inOrder {rf : Raft n} (h : rf.Collected a ms b) :
    InOrder a ms ∧ lastIndex a ms = b := by
  induction h with
  | nil => exact ⟨trivial, rfl⟩
  | cons _ _ _ ih => exact ⟨⟨rfl, ih.1⟩, ih.2⟩

theorem Raft.applier_inOrder (rf : Raft n) :
    InOrder rf.lastApplied rf.applier.2 ∧
      lastIndex rf.lastApplied rf.applier.2 = rf.applier.1.lastApplied := by
  rcases rf.applier_cases with ⟨hlt, hla, hms⟩ | ⟨_, hc⟩
  · rw [hms, hla]
    exact ⟨⟨hlt, trivial⟩, rfl⟩
  · exact hc.inOrder

namespace Pipeline

def sent (x : Pipeline) : List ApplyMsg := x.processed ++ x.inHand.toList ++ x.applyCh

def pending (x : Pipeline) : List ApplyMsg := x.batch ++ x.snapSends

/-- Sent and pending messages are in order up to `lastApplied`, the pending ones in some order
that the two kinds of senders do not know of. -/
def Ordered (x : Pipeline) : Prop :=
  ∃ ms, ms.Perm x.pending ∧ InOrder x.base (x.sent ++ ms) ∧
    lastIndex x.base (x.sent ++ ms) = x.lastApplied

theorem Ordered.send {x y : Pipeline} (h : x.Ordered) (hp : x.pending.Perm (m :: y.pending))
    (hmin : ∀ x' ∈ x.pending, m.index ≤ x'.index) (hs : y.sent = x.sent ++ [m])
    (hb : y.base = x.base) (hl : y.lastApplied = x.lastApplied) : y.Ordered := by
  obtain ⟨ms, hms, hord, hlast⟩ := h
  have hmem : m ∈ ms := hms.mem_iff.2 (hp.mem_iff.2 List.mem_cons_self)
  have hmin' : ∀ x' ∈ ms, m.index ≤ x'.index := fun x' hx => hmin x' (hms.mem_iff.1 hx)
  obtain ⟨rest, rfl⟩ := (inOrder_append.1 hord).2.head hmem hmin'
  refine ⟨rest, (hms.trans hp).cons_inv, ?_, ?_⟩ <;>
    rw [hs, hb, List.append_assoc, List.singleton_append]
  · exact hord
  · rw [hl, hlast]

theorem Ordered.enqueue {x y : Pipeline} (h : x.Ordered)
    (hp : (x.pending ++ ms).Perm y.pending) (ho : InOrder x.lastApplied ms)
    (hs : y.sent = x.sent) (hb : y.base = x.base)
    (hl : y.lastApplied = lastIndex x.lastApplied ms) : y.Ordered := by
  obtain ⟨ms₀, hms, hord, hlast⟩ := h
  refine ⟨ms₀ ++ ms, (hms.append_right ms).trans hp, ?_, ?_⟩ <;>
    rw [hs, hb, ← List.append_assoc]
  · exact inOrder_append.2 ⟨hord, hlast.symm ▸ ho⟩
  · rw [lastIndex_append, hlast, hl]

theorem Ordered.shift {x y : Pipeline} (h : x.Ordered) (hp : y.pending = x.pending)
    (hs : y.sent = x.sent) (hb : y.base = x.base) (hl : y.lastApplied = x.lastApplied) :
    y.Ordered := by
  rwa [Ordered, hp, hs, hb, hl]

theorem Ordered.sent_inOrder {x : Pipeline} (h : x.Ordered) : InOrder x.base x.sent := by
  obtain ⟨ms, _, hord, _⟩ := h
  exact (inOrder_append.1 hord).1

theorem Ordered.sent_le {x : Pipeline} (h : x.Ordered) (hm : m ∈ x.sent) :
    m.index ≤ x.lastApplied := by
  obtain ⟨ms, _, hord, hlast⟩ := h
  exact hlast ▸ (hord.mem (List.mem_append_left _ hm)).2

end Pipeline

namespace Proc

def received (p : Proc n) : List ApplyMsg := p.processed ++ p.inHand.toList

/-- A message is sent only when no waiting one has a lower index, and a snapshot that is
installed is ahead of `lastApplied`. -/
def sendsInOrder (p : Proc n) (ev : Event n) : Bool :=
  (p.emits ev).all (fun m => (p.batch ++ p.snapSends).all fun x => m.index ≤ x.index) &&
    match ev with
    | .installSnapshot args =>
      args.term < p.rf.currentTerm || args.lastIncludeIndex ≤ p.rf.lastIncludeIndex ||
        p.rf.lastApplied < args.lastIncludeIndex
    | _ => true

theorem emits_lowest {p : Proc n} (h : p.sendsInOrder ev = true) (he : p.emits ev = some m) :
    ∀ x ∈ p.batch ++ p.snapSends, m.index ≤ x.index := by
  have hall := (Bool.and_eq_true_iff.1 h).1
  rw [he, Option.all_some] at hall
  exact fun x hx => of_decide_eq_true (List.all_eq_true.1 hall x hx)

theorem install_ahead {p : Proc n} (h : p.sendsInOrder (.installSnapshot args) = true)
    (ht : ¬ args.term < p.rf.currentTerm)
    (hi : p.rf.lastIncludeIndex < args.lastIncludeIndex) :
    p.rf.lastApplied < args.lastIncludeIndex := by
  have hor := (Bool.and_eq_true_iff.1 h).2
  simp only [Bool.or_eq_true, decide_eq_true_eq] at hor
  omega

theorem perm_eraseIdx {xs : List ApplyMsg} (h : xs[k]? = some m) :
    xs.Perm (m :: xs.eraseIdx k) := by
  obtain ⟨hk, rfl⟩ := List.getElem?_eq_some_iff.1 h
  exact (List.getElem_cons_eraseIdx_perm hk).symm

theorem ordered_step {p p' : Proc n} (h : p.pipe.Ordered) (hev : p.sendsInOrder ev = true)
    (hs : p.step now ev = some p') : p'.pipe.Ordered := by
  have hpipe := step_pipe hs
  generalize hx : p.pipe = x at hpipe h
  generalize p'.pipe = y at hpipe
  cases hpipe with
  | same => exact h
  | collect _ hb =>
    subst hx
    obtain ⟨ho, hl⟩ := p.rf.applier_inOrder
    refine h.enqueue ?_ ho rfl rfl hl.symm
    rw [Pipeline.pending, hb, List.nil_append]
    exact List.perm_append_comm
  | emit _ m rest hb =>
    subst hx
    have hem : p.emits .emit = some m := congrArg List.head? hb
    refine h.send ?_ (emits_lowest hev hem) (List.append_assoc ..).symm rfl rfl
    rw [Pipeline.pending, hb]
    exact .refl _
  | emitSnap _ k m hk =>
    subst hx
    refine h.send ?_ (emits_lowest hev hk) (List.append_assoc ..).symm rfl rfl
    refine ((perm_eraseIdx hk).append_left _).trans ?_
    exact List.perm_middle
  | receive _ m rest hi hc =>
    subst hx
    refine h.shift rfl ?_ rfl rfl
    simp only [Pipeline.sent, hi, hc, Option.toList_none, Option.toList_some, List.append_nil,
      List.append_assoc, List.singleton_append]
  | finish _ m data lastApplied hi hl =>
    subst hx
    have hin : m ∈ p.pipe.sent := by simp [Pipeline.sent, hi]
    have hle := h.sent_le hin
    refine h.shift rfl ?_ rfl ?_
    · simp only [Pipeline.sent, hi, Option.toList_none, Option.toList_some, List.append_nil]
    · rcases hl with hl | ⟨j, c, rfl, hl⟩
      · exact hl
      · exact hl.trans (Nat.max_eq_left hle)
  | install _ args ht hi =>
    subst hx
    have hlt := install_ahead hev ht hi
    refine h.enqueue (.of_eq (List.append_assoc ..)) ⟨hlt, trivial⟩ rfl rfl ?_
    exact Nat.max_eq_right (Nat.le_of_lt hlt)

theorem ordered_boot (i : Fin n) (e : Option (RaftState n)) : (boot i e).pipe.Ordered :=
  ⟨[], .refl _, trivial, (Raft.make_commitIndex i e).2.symm⟩

end Proc

section

variable {s : Cluster n}

theorem Cluster.ReachableBy.procs {P : Proc n → Prop} {Q : Proc n → Event n → Prop}
    (h : s.ReachableBy ok)
    (hok : ∀ s a i ev, ok s a → s.event a = some (i, ev) → Q (s.procs i) ev)
    (hboot : ∀ i e, P (.boot i e))
    (hstep : ∀ now p ev p', P p → Q p ev → p.step now ev = some p' → P p') (i : Fin n) :
    P (s.procs i) := by
  induction h generalizing i with
  | init => exact hboot i none
  | step _ ha hs ih =>
    have hset {j : Fin n} {p : Proc n} (hp : P p) : ∀ i, P (assign _ j p i) :=
      assign_forall (P := fun _ p => P p) hp fun i _ => ih i
    cases (step_move hs).turn with
    | event j ev p _ hev hst _ hp =>
      exact hp ▸ hset (hstep _ _ _ _ (ih j) (hok _ _ _ _ ha hev) hst) i
    | restart j _ hp => exact hp ▸ hset (hboot j _) i
    | crashIn r _ _ _ hp => exact hp ▸ hset (hboot _ _) i
    | idle _ hp => exact hp ▸ ih i

theorem Cluster.ReachableBy.ordered
    (h : s.ReachableBy (Meets fun p ev => p.sendsInOrder ev = true)) (i : Fin n) :
    (s.procs i).pipe.Ordered :=
  h.procs (fun _ _ _ _ ha hev => ha.apply hev) Proc.ordered_boot
    (fun _ _ _ _ hp hev hs => Proc.ordered_step hp hev hs) i

/-- What a node's state machine receives between restarts is gap-free and in order, so that the
state machine folds a prefix of the log, in every run in which the applier and the goroutines of
`InstallSnapshot` happen to send in the order of the indices and no snapshot is installed at or
below `lastApplied`. -/
theorem apply_stream_in_order
    (h : s.ReachableBy (Cluster.Meets fun p ev => p.sendsInOrder ev = true)) (i : Fin n) :
    InOrder (s.procs i).base (s.procs i).received ∧
      FoldsPrefix (s.procs i).base (s.procs i).received := by
  have hin : InOrder (s.procs i).base (s.procs i).received :=
    (inOrder_append.1 (h.ordered i).sent_inOrder).1
  exact ⟨hin, hin.foldsPrefix⟩

end

/-- Node 0 commits two entries and compacts both; node 1 has the first one in its applier when
the snapshot of both arrives. -/
def lateFollower : List (Action 3) :=
  [.act 0 .tick, .act 0 .startElection, .handle 0, .reply 0, .drop 0, .act 0 (.start [1]),
    .act 0 (.replicate 1), .act 0 (.send 0), .act 0 (.replicate 2), .act 0 (.send 0), .handle 0,
    .reply 0, .handle 0, .reply 0, .act 0 (.replicate 1), .act 0 (.send 0), .handle 0, .reply 0,
    .act 0 (.start [2]), .act 0 (.replicate 2), .act 0 (.send 0), .handle 0, .reply 0,
    .act 0 (.replicate 2), .act 0 (.send 0), .drop 0, .act 0 .collect, .act 0 .emit,
    .act 0 .receive, .act 0 (.finish none), .act 0 .emit, .act 0 .receive,
    .act 0 (.finish (some [7])), .act 0 (.replicate 1), .act 0 (.send 0), .handle 0, .reply 0,
    .act 0 (.replicate 1), .act 1 .collect, .handle 0]

/-- The snapshot is sent after the command collected before it, and the stream goes on. -/
theorem apply_stream_in_order_snapshot : ∃ s : Cluster 3,
    s.ReachableBy (Cluster.Meets fun p ev => p.sendsInOrder ev = true) ∧
    (s.procs 1).received = [.command 1 [1], .snapshot 2 1 [7]] ∧
    InOrder (s.procs 1).base (s.procs 1).received ∧
    FoldsPrefix (s.procs 1).base (s.procs 1).received := by
  have hrun : RunsTo Cluster.step (Cluster.Meets fun p ev => p.sendsInOrder ev = true)
      (fun s => (s.procs 1).received = [.command 1 [1], .snapshot 2 1 [7]]) (.init 3)
      (lateFollower ++ [.act 1 .emit, .act 1 (.emitSnap 0), .act 1 .receive, .act 1 (.finish none),
        .act 1 .receive]) := by
    decide +kernel
  obtain ⟨s, hs, hr⟩ := hrun.reachable
  exact ⟨s, hs, hr, apply_stream_in_order hs 1⟩

/-- The detached goroutine sends first: command 1 is executed again on top of the snapshot that
holds it. -/
theorem apply_stream_in_order_fails : ∃ s : Cluster 3, s.Reachable ∧
    (s.procs 1).received = [.snapshot 2 1 [7], .command 1 [1]] ∧
    ¬ InOrder (s.procs 1).base (s.procs 1).received := by
  have hrun : RunsTo Cluster.step (fun _ _ => True)
      (fun s => (s.procs 1).received = [.snapshot 2 1 [7], .command 1 [1]] ∧
        ¬ InOrder (s.procs 1).base (s.procs 1).received) (.init 3)
      (lateFollower ++ [.act 1 (.emitSnap 0), .act 1 .emit, .act 1 .receive, .act 1 (.finish none),
        .act 1 .receive]) := by
    decide +kernel
  obtain ⟨s, hs, hr⟩ := hrun.reachable
  exact ⟨s, hs, hr⟩

end LinKV

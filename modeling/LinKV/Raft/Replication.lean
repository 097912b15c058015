import LinKV.Machine.Replica
import LinKV.Raft.IndexOrder
import LinKV.Raft.Snapshots
import Mathlib.Data.Fintype.EquivFin

namespace LinKV
set_option autoImplicit true

open Consensus Ledger

/-- A cluster whose processes run a state machine each. -/
structure System (n : Nat) (σ : Type) where
  cluster : Cluster n
  machines : Fin n → σ

/-- A step of the cluster, with what the state machine adds to it, or one of a state machine
alone. -/
inductive SystemAction (n : Nat) (ε : Type) where
  | raft (a : Action n) (e : ε)
  | work (i : Fin n) (e : ε)
deriving DecidableEq, Repr

namespace System

variable (M : Machine.Replica σ ε Bytes Bytes)

/-- `applyLoop` takes a message. -/
def take (e : ε) (x : σ) : ApplyMsg → Option σ
  | .command i c => M.command e i c x
  | .snapshot _ _ data => M.snapshot e data x

/-- The part of the state machine in an event of its process: it takes the next message from
`applyCh`, and it is done with it before it hands over a snapshot of itself. -/
def feed (e : ε) (p : Proc n) (x : σ) : Event n → Option σ
  | .receive => if M.idle x then p.applyCh.head?.bind (take M e x) else none
  | .finish none => if M.idle x then some x else none
  | .finish (some data) => if M.idle x ∧ M.save e x = some data then some x else none
  | _ => some x

def init (n : Nat) : System n σ := ⟨.init n, fun _ => M.start []⟩

/-- A restarted process builds its state machine from the snapshot it finds. -/
def step (s : System n σ) : SystemAction n ε → Option (System n σ)
  | .raft a e => (s.cluster.step a).bind fun c =>
    match s.cluster.restarts a, a with
    | some i, _ => some ⟨c, assign s.machines i (M.start (c.procs i).rf.snapshot)⟩
    | none, .act i ev =>
      (feed M e (s.cluster.procs i) (s.machines i) ev).map fun x => ⟨c, assign s.machines i x⟩
    | none, _ => some ⟨c, s.machines⟩
  | .work i e => (M.work e (s.machines i)).map fun x => { s with machines := assign s.machines i x }

/-- The log is read to the same index by the state machine, the one in hand included. -/
def applied (s : System n σ) (i : Fin n) : Nat :=
  lastIndex (s.cluster.procs i).base (s.cluster.procs i).received

/-- Requests fit the logs they meet and carry what they were made with, messages are sent in order,
and the state machines are asked only what they allow. -/
def Allowed (ok : ε → σ → Prop) (s : System n σ) : SystemAction n ε → Prop
  | .raft a _ => s.cluster.Fits a ∧ s.cluster.Meets (fun p ev => p.sendsInOrder ev = true) a
  | .work i e => ok e (s.machines i)

instance Allowed.decidable {ok : ε → σ → Prop} [∀ e x, Decidable (ok e x)] (s : System n σ) :
    (a : SystemAction n ε) → Decidable (s.Allowed ok a)
  | .raft a _ => inferInstanceAs (Decidable
      (s.cluster.Fits a ∧ s.cluster.Meets (fun p ev => p.sendsInOrder ev = true) a))
  | .work i e => inferInstanceAs (Decidable (ok e (s.machines i)))

abbrev ReachableBy (ok : ε → σ → Prop) : System n σ → Prop :=
  Consensus.ReachableBy (step M) (Allowed ok) (init M n)

/-- What a step of the system does. -/
inductive Moves (s : System n σ) : SystemAction n ε → System n σ → Prop
  | restart (i : Fin n) (c : Cluster n) (hi : s.cluster.restarts a = some i)
      (hc : s.cluster.step a = some c) :
      Moves s (.raft a e) ⟨c, assign s.machines i (M.start (c.procs i).rf.snapshot)⟩
  | act (i : Fin n) (ev : Event n) (c : Cluster n) (x : σ)
      (hn : s.cluster.restarts (.act i ev) = none)
      (hc : s.cluster.step (.act i ev) = some c)
      (hx : feed M e (s.cluster.procs i) (s.machines i) ev = some x) :
      Moves s (.raft (.act i ev) e) ⟨c, assign s.machines i x⟩
  | other (c : Cluster n) (hn : s.cluster.restarts a = none) (ha : ∀ i ev, a ≠ .act i ev)
      (hc : s.cluster.step a = some c) : Moves s (.raft a e) ⟨c, s.machines⟩
  | work (i : Fin n) (x : σ) (hx : M.work e (s.machines i) = some x) :
      Moves s (.work i e) { s with machines := assign s.machines i x }

/-- The record of a run of the system is the one of its cluster. -/
inductive Traced (ok : ε → σ → Prop) : System n σ → Record n → Prop
  | init : Traced ok (init M n) (.start n)
  | raft : Traced ok s g → s.Allowed ok (.raft a e) → s.step M (.raft a e) = some s' →
      Traced ok s' (g.effects (s.cluster.labels a))
  | work : Traced ok s g → s.Allowed ok (.work i e) → s.step M (.work i e) = some s' →
      Traced ok s' g

variable {M} {s s' : System n σ}

theorem step_moves (h : s.step M a = some s') : s.Moves M a s' := by
  cases a with
  | raft a e =>
    obtain ⟨c, hc, h⟩ := Option.bind_eq_some_iff.1 h
    cases hr : s.cluster.restarts a with
    | some i =>
      rw [hr] at h
      cases h
      exact .restart i c hr hc
    | none =>
      rw [hr] at h
      cases a with
      | act i ev =>
        obtain ⟨x, hx, rfl⟩ := Option.map_eq_some_iff.1 h
        exact .act i ev c x hr hc hx
      | _ =>
        cases h
        exact .other c hr (by intro i ev ha; cases ha) hc
  | work i e =>
    obtain ⟨x, hx, rfl⟩ := Option.map_eq_some_iff.1 h
    exact .work i x hx

theorem ReachableBy.traced (h : s.ReachableBy M ok) : ∃ g, Traced M ok s g := by
  induction h with
  | init => exact ⟨_, .init⟩
  | @step s a s' _ ha hs ih =>
    obtain ⟨g, hg⟩ := ih
    cases a with
    | raft a e => exact ⟨_, .raft hg ha hs⟩
    | work i e => exact ⟨_, .work hg ha hs⟩

theorem step_raft (h : s.step M (.raft a e) = some s') : s.cluster.step a = some s'.cluster := by
  cases step_moves h with
  | restart i c _ hc | act i ev c x _ hc | other c _ _ hc => exact hc

theorem step_work (h : s.step M (.work i e) = some s') : s'.cluster = s.cluster := by
  cases step_moves h with
  | work => rfl

theorem Traced.cluster (h : Traced M ok s g) : s.cluster.Traced
    (fun s a => s.Fits a ∧ s.Meets (fun p ev => p.sendsInOrder ev = true) a) g := by
  induction h with
  | init => exact .init
  | raft _ ha hs ih => exact .step ih ha (step_raft hs)
  | work _ _ hs ih =>
    rw [step_work hs]
    exact ih

end System

theorem Cluster.Traced.extends {s s' : Cluster n} (h : s.Traced Fits g) (ha : s.Fits a)
    (hs : s.step a = some s') : Extends g (g.effects (s.labels a)) := by
  have hl := h.fit_logs
  have hok := (hl.step h.elects (step_move hs) (ha.1.mono fun _ _ => Proc.fits_snapshot) ha.2).1
  exact hl.matching.extends_effects h.elects.ballot hok

theorem Cluster.Traced.reachable {s : Cluster n} (h : s.Traced ok g) : s.ReachableBy ok := by
  induction h with
  | init => exact .init
  | step _ ha hs ih => exact .step ih ha hs

namespace System

variable {M : Machine.Replica σ ε Bytes Bytes} {Means : σ → List Bytes → Prop}
  {ok : ε → σ → Prop} {s s' : System n σ} {g g' : Record n}

/-- The state machine of process `i` stands for the commands agreed on up to the last message it
has taken. -/
def Follows (Means : σ → List Bytes → Prop) (g : Record n) (p : Proc n) (x : σ) : Prop :=
  ∃ cs, Means x cs ∧ Agreed g cs ∧ cs.length = lastIndex p.base p.received

theorem Follows.extends (h : Follows Means g p x) (he : Extends g g') : Follows Means g' p x := by
  obtain ⟨cs, hm, ha, hlen⟩ := h
  exact ⟨cs, hm, ha.extends he, hlen⟩

theorem Follows.congr {p p' : Proc n} (h : Follows Means g p x) (hb : p'.base = p.base)
    (hr : p'.received = p.received) : Follows Means g p' x := by
  rwa [Follows, hb, hr]

theorem Follows.boot (hM : M.Faithful Means ok) (i : Fin n) (persister : Option (RaftState n))
    (h : StoredAt (M.Holds Means) g (Raft.make i persister).snapshotPoint) :
    Follows Means g (.boot i persister) (M.start (Raft.make i persister).snapshot) := by
  rcases h with h | ⟨cs, hcs, hlen, hh⟩
  · obtain ⟨hi, hd⟩ := Prod.mk.inj h
    rw [hd]
    exact ⟨[], hM.start_default, agreed_nil, hi.symm⟩
  · exact ⟨cs, hM.start hh, hcs, hlen⟩

theorem Follows.take {p : Proc n} (h : Follows Means g p x) (hM : M.Faithful Means ok)
    (hidle : M.idle x = true) (hm : Genuine (M.Holds Means) g m)
    (hord : InOrder (lastIndex p.base p.received) [m]) (hx : take M e x m = some y)
    (hc : Complete g) (hmat : Matching g) :
    ∃ cs, Means y cs ∧ Agreed g cs ∧ cs.length = m.index := by
  obtain ⟨cs, hmeans, ha, hlen⟩ := h
  cases m with
  | command k c =>
    obtain ⟨rfl, _⟩ := hord
    rw [← hlen] at hm
    refine ⟨cs ++ [c], hM.command hmeans hidle hx, ha.snoc hm hc hmat, ?_⟩
    rw [List.length_append, hlen]
    rfl
  | snapshot k t data =>
    obtain ⟨ds, hds, hdlen, hh⟩ := hm
    have hle : cs.length ≤ ds.length := by
      rw [hlen, hdlen]
      exact Nat.le_of_lt hord.1
    obtain ⟨cs', rfl⟩ := ha.isPrefix hds hle hc hmat
    exact ⟨cs ++ cs', hM.snapshot hmeans hidle hh hx, hds, hdlen⟩

end System

namespace Cluster

variable {s s' : Cluster n}

theorem Move.restarted (h : Move s a s') (hr : s.restarts a = some i) :
    ∃ persister, s'.procs = assign s.procs i (.boot i persister) := by
  cases h with
  | act j ev p hl hp hs =>
    rw [restarts, hp] at hr
    cases hr
  | panic j ev hp =>
    rw [restarts, hp] at hr
    cases hr
    exact ⟨_, rfl⟩
  | crash j =>
    cases hr
    exact ⟨_, rfl⟩
  | crashIn k r ev hk he =>
    rw [restarts, hk] at hr
    cases hr
    exact ⟨_, rfl⟩
  | crashStart j command =>
    cases hr
    exact ⟨_, rfl⟩
  | _ => cases hr

/-- Unless a process is restarted, one of them takes an event or none moves. -/
theorem Move.goes (h : Move s a s') (hr : s.restarts a = none) :
    (∃ i ev p, s.event a = some (i, ev) ∧ (s.procs i).step s.now ev = some p ∧
      s'.procs = assign s.procs i p) ∨ s.event a = none ∧ s'.procs = s.procs := by
  cases h with
  | act i ev p _ _ hs => exact .inl ⟨i, ev, p, rfl, hs, rfl⟩
  | panic i ev hp =>
    rw [restarts, hp] at hr
    cases hr
  | handle k r ev p hk he hs =>
    refine .inl ⟨r.server, ev, p, ?_, hs, rfl⟩
    simp only [event, hk, he, Option.bind_some, Option.map_some]
  | reply k r ev p hk he hs =>
    refine .inl ⟨r.caller, ev, p, ?_, hs, rfl⟩
    simp only [event, hk, he, Option.bind_some, Option.map_some]
  | drop k => exact .inr ⟨rfl, rfl⟩
  | crash i | crashStart i => cases hr
  | crashIn k r ev hk he =>
    rw [restarts, hk] at hr
    cases hr

theorem event_isLocal (hne : ∀ i ev, a ≠ .act i ev) (hev : s.event a = some (i, ev)) :
    ev.isLocal = false := by
  cases a with
  | act j ev' => exact absurd rfl (hne j ev')
  | handle k =>
    obtain ⟨r, _, hr⟩ := Option.bind_eq_some_iff.1 hev
    obtain ⟨ev', he, heq⟩ := Option.map_eq_some_iff.1 hr
    cases heq
    rcases request_eq he with ⟨_, _, rfl⟩ | ⟨_, _, rfl⟩ | ⟨_, _, rfl⟩
    all_goals rfl
  | reply k =>
    obtain ⟨r, _, hr⟩ := Option.bind_eq_some_iff.1 hev
    obtain ⟨ev', he, heq⟩ := Option.map_eq_some_iff.1 hr
    cases heq
    rcases replied_eq he with ⟨_, _, _, rfl⟩ | ⟨_, _, _, rfl⟩ | ⟨_, _, _, rfl⟩
    all_goals rfl
  | _ => cases hev

theorem restarts_panics (hr : s.restarts a = some j) (hev : s.event a = some (i, ev)) :
    (s.procs i).panics ev = true := by
  cases a with
  | act i' ev' =>
    cases hev
    exact (Option.ite_none_right_eq_some.1 hr).1
  | handle k | reply k => cases hr
  | _ => cases hev

end Cluster

theorem Proc.step_eq_none {p : Proc n} (h : p.panics ev = true) : p.step now ev = none := by
  cases ev with
  | finish snapshot =>
    cases snapshot with
    | none => cases h
    | some data =>
      cases hi : p.inHand with
      | none => simp [Proc.panics, hi] at h
      | some m =>
        cases m with
        | command k c =>
          simp only [Proc.panics, hi, Option.isNone_iff_eq_none] at h
          simp only [Proc.step, Proc.finish, hi, h, Option.map_none]
        | snapshot k t d => simp [Proc.panics, hi] at h
  | _ => cases h

theorem Proc.step_received {p p' : Proc n} (hs : p.step now ev = some p') :
    p'.base = p.base ∧ (p'.received = p.received ∨
      ∃ m rest, ev = .receive ∧ p.applyCh = m :: rest ∧ p'.received = p.received ++ [m]) := by
  have hpipe := step_pipe hs
  have hr (p : Proc n) : p.received = p.pipe.processed ++ p.pipe.inHand.toList := rfl
  have hb (p : Proc n) : p.base = p.pipe.base := rfl
  have hc : p.applyCh = p.pipe.applyCh := rfl
  rw [hr, hr, hb, hb, hc]
  generalize p.pipe = x at hpipe ⊢
  generalize p'.pipe = y at hpipe ⊢
  cases hpipe with
  | receive _ m rest hi hc =>
    refine ⟨rfl, .inr ⟨m, rest, rfl, hc, ?_⟩⟩
    rw [hi, Option.toList_none, Option.toList_some, List.append_nil]
  | finish _ m data la hi _ =>
    refine ⟨rfl, .inl ?_⟩
    rw [hi, Option.toList_none, Option.toList_some, List.append_nil]
  | _ => exact ⟨rfl, .inl rfl⟩

namespace System

variable {M : Machine.Replica σ ε Bytes Bytes} {Means : σ → List Bytes → Prop}
  {ok : ε → σ → Prop} {s s' : System n σ} {g g' : Record n}

/-- The state machines follow the log, and nothing but what is agreed on is on its way to them. -/
structure Replicates (M : Machine.Replica σ ε Bytes Bytes) (Means : σ → List Bytes → Prop)
    (s : System n σ) (g : Record n) : Prop where
  delivers : Delivers (M.Holds Means) s.cluster g
  follows : ∀ i, Follows Means g (s.cluster.procs i) (s.machines i)

/-- A snapshot that is handed over was taken of a machine that follows the log. -/
theorem Replicates.hands (h : Replicates M Means s g) (hx : feed M e (s.cluster.procs i)
    (s.machines i) ev = some x) : Hands (M.Holds Means) g (s.cluster.procs i) ev := by
  intro k c data hev hin
  subst hev
  obtain ⟨⟨hidle, hsave⟩, -⟩ := Option.ite_none_right_eq_some.1 hx
  obtain ⟨cs, hmeans, ha, hlen⟩ := h.follows i
  refine ⟨cs, ha, ?_, e, s.machines i, hmeans, hidle, hsave⟩
  rw [hlen, Proc.received, hin, Option.toList_some, lastIndex_append]
  rfl

theorem Replicates.feed (h : Replicates M Means s g) (hM : M.Faithful Means ok)
    (hs : (s.cluster.procs i).step now ev = some p)
    (hx : feed M e (s.cluster.procs i) (s.machines i) ev = some x)
    (hord : InOrder p.base p.received) (hc : Complete g) (hm : Matching g) :
    Follows Means g p x := by
  obtain ⟨hbase, hrec⟩ := Proc.step_received hs
  rcases hrec with hrec | ⟨m, rest, rfl, hch, hrec⟩
  · have hsame : x = s.machines i ∨ ev = .receive := by
      cases ev with
      | receive => exact .inr rfl
      | finish snapshot =>
        cases snapshot with
        | none => exact .inl (Option.some.inj (Option.ite_none_right_eq_some.1 hx).2).symm
        | some data => exact .inl (Option.some.inj (Option.ite_none_right_eq_some.1 hx).2).symm
      | _ => exact .inl (Option.some.inj hx).symm
    rcases hsame with rfl | rfl
    · exact (h.follows i).congr hbase hrec
    · cases Proc.step_takes hs with
      | receive m rest hi hc =>
        have hlen := congrArg List.length hrec
        simp [Proc.received, hi] at hlen
  · obtain ⟨hidle, hx⟩ := Option.ite_none_right_eq_some.1 hx
    rw [hch, List.head?_cons, Option.bind_some] at hx
    have hgen := (h.delivers.node i).underway m (by simp [Proc.underway, hch])
    rw [hbase, hrec, inOrder_append] at hord
    obtain ⟨cs, hmeans, ha, hlen⟩ := (h.follows i).take hM hidle hgen hord.2 hx hc hm
    refine ⟨cs, hmeans, ha, ?_⟩
    rw [hlen, hbase, hrec, lastIndex_append]
    rfl

theorem Replicates.raft (h : Replicates M Means s g) (hM : M.Faithful Means ok)
    (ht : Traced M ok s g) (ha : s.Allowed ok (.raft a e))
    (hs : s.step M (.raft a e) = some s') :
    Replicates M Means s' (g.effects (s.cluster.labels a)) := by
  have hc := step_raft hs
  have hmove := Cluster.step_move hc
  have hcl := ht.cluster
  have hcl' := (Traced.raft ht ha hs).cluster
  have hext := (hcl.mono fun _ _ => And.left).extends ha.1 hc
  have hfit' := hcl'.mono fun _ _ => And.left
  have hord' (i : Fin n) : InOrder (s'.cluster.procs i).base (s'.cluster.procs i).received :=
    (inOrder_append.1 (Cluster.ReachableBy.ordered
      (hcl'.reachable.mono fun _ _ => And.right) i).sent_inOrder).1
  have hhands (i : Fin n) (ev : Event n) (p : Proc n) (hev : s.cluster.event a = some (i, ev))
      (hp : (s.cluster.procs i).step s.cluster.now ev = some p) :
      Hands (M.Holds Means) g (s.cluster.procs i) ev := by
    cases step_moves hs with
    | restart j c hj _ =>
      have hpanic := Cluster.restarts_panics hj hev
      rw [Proc.step_eq_none hpanic] at hp
      cases hp
    | act j ev' c x _ _ hx =>
      cases hev
      exact h.hands hx
    | other c _ hne _ =>
      intro k c data hdata
      have hloc := Cluster.event_isLocal hne hev
      rw [hdata] at hloc
      cases hloc
  have hdel : Delivers (M.Holds Means) s'.cluster (g.effects (s.cluster.labels a)) :=
    h.delivers.step hmove hext (fun i => (hcl.elects.node i).stored) hhands
      fun i => (hfit'.commits.node i).batch
  have hold (j : Fin n) : Follows Means (g.effects (s.cluster.labels a)) (s.cluster.procs j)
      (s.machines j) := (h.follows j).extends hext
  refine ⟨hdel, fun j => ?_⟩
  cases step_moves hs with
  | restart i c hi _ =>
    obtain ⟨persister, hp⟩ := hmove.restarted hi
    dsimp only at hp hdel ⊢
    have hstored := (hdel.node i).stored
    rw [hp, assign_self] at hstored
    rw [hp, assign_self]
    by_cases hj : j = i
    · subst hj
      rw [assign_self, assign_self]
      exact .boot hM j persister hstored
    · rw [assign_ne _ _ hj, assign_ne _ _ hj]
      exact hold j
  | act i ev c x hn _ hx =>
    obtain ⟨i', ev', p, hev, hp, hpr⟩ | ⟨hev, -⟩ := hmove.goes hn
    · cases hev
      have hi := hord' i
      dsimp only at hpr hi ⊢
      rw [hpr, assign_self] at hi
      rw [hpr]
      by_cases hj : j = i
      · subst hj
        rw [assign_self, assign_self]
        exact (Replicates.mk (h.delivers.extends hext) hold).feed hM hp hx hi
          hfit'.commits.complete hfit'.fit_logs.matching
      · rw [assign_ne _ _ hj, assign_ne _ _ hj]
        exact hold j
    · cases hev
  | other c hn hne _ =>
    obtain ⟨i, ev, p, hev, hp, hpr⟩ | ⟨-, hpr⟩ := hmove.goes hn
    · dsimp only at hpr ⊢
      have hloc := Cluster.event_isLocal hne hev
      obtain ⟨hbase, hrec | ⟨m, rest, rfl, -⟩⟩ := Proc.step_received hp
      · rw [hpr]
        by_cases hj : j = i
        · subst hj
          rw [assign_self]
          exact (hold j).congr hbase hrec
        · rw [assign_ne _ _ hj]
          exact hold j
      · cases hloc
    · dsimp only at hpr ⊢
      rw [hpr]
      exact hold j

theorem Traced.replicates (h : Traced M ok s g) (hM : M.Faithful Means ok) :
    Replicates M Means s g := by
  induction h with
  | init =>
    refine ⟨delivers_init _ n _, fun i => ?_⟩
    have hboot := Follows.boot hM (g := .start n) i none ((delivers_init _ n _).node i).stored
    have hsnap : (Raft.make i none).snapshot = [] :=
      congrArg RaftState.snapshot (Raft.make_none i)
    rw [hsnap] at hboot
    exact hboot
  | raft ht ha hs ih => exact ih.raft hM ht ha hs
  | @work s g i e s' ht ha hs ih =>
    cases step_moves hs with
    | work _ x hx =>
      refine ⟨ih.delivers, assign_forall (P := fun j x => Follows Means g (s.cluster.procs j) x)
        ?_ fun j _ => ih.follows j⟩
      obtain ⟨cs, hmeans, hrest⟩ := ih.follows i
      exact ⟨cs, hM.work hmeans ha hx, hrest⟩

/-- What the state machines stand for are prefixes of one list of commands. -/
theorem ReachableBy.follows (h : s.ReachableBy M ok) (hM : M.Faithful Means ok) :
    ∃ log : List Bytes, ∀ i, ∃ cs, cs <+: log ∧ cs.length = s.applied i ∧
      Means (s.machines i) cs := by
  obtain ⟨g, hg⟩ := h.traced
  have hfit := hg.cluster.mono fun _ _ => And.left
  choose cs hmeans hagreed hlen using (hg.replicates hM).follows
  obtain ⟨log, -, hlog⟩ := Agreed.exists_log hagreed hfit.commits.complete hfit.fit_logs.matching
  exact ⟨log, fun i => ⟨cs i, hlog i, hlen i, hmeans i⟩⟩

end System

end LinKV

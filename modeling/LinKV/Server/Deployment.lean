import LinKV.Consensus.Transition
import LinKV.Server.Steps
import LinKV.Server.Snapshot
import Mathlib.Logic.Function.Basic

namespace LinKV
set_option autoImplicit true

/-- A `submit` call: who made it, and the command it hands to Raft. -/
structure Submission where
  caller : Nat
  env : Command
deriving DecidableEq, Repr

/-- The entry `submit` makes for its call. -/
def Submission.waitEntry (sub : Submission) : WaitEntry :=
  ⟨sub.env.clientID, sub.env.seq, sub.env.kind⟩

/-- A server process: its `submit` calls between `Start` and their locked section, the calls
whose entries are in `waitCh`, and the snapshot it has begun to restore. -/
structure Site where
  service : Service
  started : List (Int × Submission) := []
  holders : GoMap Int Submission := ∅
  restoring : Option ServerSnapshotMessage := none

inductive SiteEvent where
  | start (index : Int) (sub : Submission)
  | register (index : Int) (sub : Submission)
  | deliver (d : Delivery)
  | serve (ev : ServerEvent)
  | makeSnapshot (order : List Int)
  | install (n : Nat)
  | restore
deriving DecidableEq, Repr

/-- Server processes over one Raft group. A process that restarts is a site of its own. Raft is
left free: `Start` may answer any index, since a new leader's log may be shorter, and any command
handed to it may be committed at any index, any number of times. -/
structure Deployment (ι : Type) where
  site : ι → Site
  proposed : List Command := []
  snapshots : List ServerSnapshotMessage := []
  returned : List (Submission × Result) := []

namespace Site

def start (t : Site) (index : Int) (sub : Submission) : Site :=
  { t with started := (index, sub) :: t.started }

/-- The locked section of `submit` has led to the service `s`. -/
def register (t : Site) (index : Int) (sub : Submission) (s : Service) : Site where
  service := s
  started := t.started.erase (index, sub)
  holders := if (t.service.newResults s).isEmpty then t.holders.insert index sub else t.holders
  restoring := t.restoring

def deliver (t : Site) (d : Delivery) : Site :=
  { t with service := { t.service with applyCh := t.service.applyCh ++ [d] } }

/-- `applyLoop` is between two messages, and the mutex is free. -/
def Ready (t : Site) : Prop :=
  t.restoring = none ∧ t.service.loop = .idle ∧ t.service.reading = none

instance (t : Site) : Decidable t.Ready :=
  decidable_of_iff (t.restoring.isNone ∧ t.service.loop = .idle ∧ t.service.reading = none)
    (by rw [Option.isNone_iff_eq_none]; rfl)

/-- `submit` calls have events of their own, and `applyLoop` is busy during a restore. -/
def Serves (t : Site) : ServerEvent → Prop
  | .submit _ _ => False
  | .loop => t.restoring = none
  | _ => True

instance (t : Site) : (ev : ServerEvent) → Decidable (t.Serves ev)
  | .submit _ _ => instDecidableFalse
  | .loop => decidable_of_iff (t.restoring.isNone) Option.isNone_iff_eq_none
  | .giveUp _ | .clearWaitCh | .get _ | .rangeRev _ | .range => instDecidableTrue

/-- The first section of `restoreSnapshot`. -/
def install (t : Site) (snap : ServerSnapshotMessage) : Site :=
  { t with
    service := t.service.answering t.service.server.clearWaitCh
    restoring := some snap }

def restore (t : Site) (snap : ServerSnapshotMessage) : Site :=
  { t with
    service := { t.service with server := t.service.server.replace snap }
    restoring := none }

/-- The calls that get the results, each the one waiting under its index. -/
def answers (t : Site) (s : Service) : List (Submission × Result) :=
  (t.service.newResults s).filterMap fun (index, r) => (t.holders.lookup index).map (·, r)

end Site

namespace Deployment

variable [DecidableEq ι]

def set (D : Deployment ι) (i : ι) (t : Site) : Deployment ι :=
  { D with site := Function.update D.site i t }

@[simp] theorem set_site_self (D : Deployment ι) (i : ι) (t : Site) : (D.set i t).site i = t :=
  Function.update_self ..

@[simp] theorem set_site_of_ne (D : Deployment ι) (t : Site) (h : j ≠ i) :
    (D.set i t).site j = D.site j := Function.update_of_ne h ..

theorem set_site_forall {P : ι → Site → Prop} {D : Deployment ι}
    (h : ∀ j, j ≠ i → P j (D.site j)) (ht : P i t) (j : ι) : P j ((D.set i t).site j) :=
  (Function.forall_update_iff D.site P).2 ⟨ht, h⟩ j

def step (D : Deployment ι) : ι × SiteEvent → Option (Deployment ι)
  | (i, .start index sub) =>
    some { D.set i ((D.site i).start index sub) with proposed := sub.env :: D.proposed }
  | (i, .register index sub) =>
    if (index, sub) ∈ (D.site i).started then
      ((D.site i).service.step (.submit index sub.env)).map fun s =>
        { D.set i ((D.site i).register index sub s) with
          returned := D.returned ++ ((D.site i).service.newResults s).map fun (_, r) => (sub, r) }
    else none
  | (i, .deliver d) =>
    if d.env ∈ D.proposed then some (D.set i ((D.site i).deliver d)) else none
  | (i, .serve ev) =>
    if (D.site i).Serves ev then
      ((D.site i).service.step ev).map fun s =>
        { D.set i { D.site i with service := s } with
          returned := D.returned ++ (D.site i).answers s }
    else none
  | (i, .makeSnapshot order) =>
    if (D.site i).Ready ∧ RangeOrder order (D.site i).service.server.store.leases.keys then
      some { D with
        snapshots := D.snapshots ++ [(D.site i).service.server.makeSnapshot order] }
    else none
  | (i, .install n) =>
    if (D.site i).Ready then
      (D.snapshots[n]?).map fun snap => D.set i ((D.site i).install snap)
    else none
  | (i, .restore) =>
    if (D.site i).service.reading = none then
      (D.site i).restoring.map fun snap => D.set i ((D.site i).restore snap)
    else none

inductive Moves (D : Deployment ι) (i : ι) : SiteEvent → Deployment ι → Prop
  | start : Moves D i (.start index sub)
      { D.set i ((D.site i).start index sub) with proposed := sub.env :: D.proposed }
  | register : (index, sub) ∈ (D.site i).started →
      (D.site i).service.step (.submit index sub.env) = some s →
      Moves D i (.register index sub)
        { D.set i ((D.site i).register index sub s) with
          returned := D.returned ++ ((D.site i).service.newResults s).map fun (_, r) => (sub, r) }
  | deliver : d.env ∈ D.proposed → Moves D i (.deliver d) (D.set i ((D.site i).deliver d))
  | serve : (D.site i).Serves ev → (D.site i).service.step ev = some s →
      Moves D i (.serve ev)
        { D.set i { D.site i with service := s } with
          returned := D.returned ++ (D.site i).answers s }
  | makeSnapshot : (D.site i).Ready →
      RangeOrder order (D.site i).service.server.store.leases.keys →
      Moves D i (.makeSnapshot order)
        { D with snapshots := D.snapshots ++ [(D.site i).service.server.makeSnapshot order] }
  | install : (D.site i).Ready → D.snapshots[n]? = some snap →
      Moves D i (.install n) (D.set i ((D.site i).install snap))
  | restore : (D.site i).service.reading = none → (D.site i).restoring = some snap →
      Moves D i .restore (D.set i ((D.site i).restore snap))

theorem step_moves {D D' : Deployment ι} (h : D.step (i, ev) = some D') : D.Moves i ev D' := by
  cases ev with
  | start index sub =>
    cases h
    exact .start
  | register index sub =>
    rw [step] at h
    obtain ⟨hm, h⟩ := Option.ite_none_right_eq_some.1 h
    obtain ⟨s, hs, rfl⟩ := Option.map_eq_some_iff.1 h
    exact .register hm hs
  | deliver d =>
    rw [step] at h
    obtain ⟨hm, h⟩ := Option.ite_none_right_eq_some.1 h
    cases h
    exact .deliver hm
  | serve ev =>
    rw [step] at h
    obtain ⟨hm, h⟩ := Option.ite_none_right_eq_some.1 h
    obtain ⟨s, hs, rfl⟩ := Option.map_eq_some_iff.1 h
    exact .serve hm hs
  | makeSnapshot order =>
    rw [step] at h
    obtain ⟨⟨hr, ho⟩, h⟩ := Option.ite_none_right_eq_some.1 h
    cases h
    exact .makeSnapshot hr ho
  | install n =>
    rw [step] at h
    obtain ⟨hr, h⟩ := Option.ite_none_right_eq_some.1 h
    obtain ⟨snap, hs, rfl⟩ := Option.map_eq_some_iff.1 h
    exact .install hr hs
  | restore =>
    rw [step] at h
    obtain ⟨hr, h⟩ := Option.ite_none_right_eq_some.1 h
    obtain ⟨snap, hs, rfl⟩ := Option.map_eq_some_iff.1 h
    exact .restore hr hs

theorem step_returned {D D' : Deployment ι} (h : D.step (i, ev) = some D') :
    D.returned ⊆ D'.returned := by
  cases step_moves h with
  | register | serve => exact List.subset_append_left _ _
  | start | deliver | makeSnapshot | install | restore => exact List.Subset.refl _

def fresh (stores : ι → KVStore) : Deployment ι where
  site i := { service := { server := .new (stores i), applyCh := [] } }

end Deployment

/-- At site 0 the command is committed at the index and goes through `applyLoop`. -/
def applying (index : Int) (sub : Submission) : List (Nat × SiteEvent) :=
  [(0, .deliver ⟨index, sub.env, ⟨0, []⟩⟩), (0, .serve .loop), (0, .serve .loop), (0, .serve .loop)]

end LinKV

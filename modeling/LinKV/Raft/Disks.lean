import LinKV.Storage.Crash
import LinKV.Consensus.Possible
import LinKV.Raft.Alike
import LinKV.Raft.Saves

namespace LinKV
set_option autoImplicit true

open Consensus Durable

/-- `proto.Marshal` and `proto.Unmarshal` of a `raftpb.RaftState`, which has no field for the
snapshot and is never empty. -/
structure StateCodec (n : Nat) where
  marshal : RaftState n → Bytes
  unmarshal : Bytes → Option (RaftState n)
  marshal_ne_nil : ∀ e, marshal e ≠ []
  unmarshal_marshal : ∀ e, unmarshal (marshal e) = some { e with snapshot := [] }

/-- What `readPersist` finds in a persister. -/
def StateCodec.load (codec : StateCodec n) (ps : DiskPersister) : Option (RaftState n) :=
  if ps.readRaftState = [] then none
  else (codec.unmarshal ps.readRaftState).map fun e => { e with snapshot := ps.readSnapshot }

/-- Consecutive calls of `persist`: the files they replace, one after the other, and the persister
after the last. -/
def DiskPersister.saveAll (json : ManifestJson) (codec : StateCodec n) (ps : DiskPersister) :
    List (RaftState n) → Plan
  | [] => ⟨[], .ok ps⟩
  | e :: es =>
    let plan := ps.save json (codec.marshal e) e.snapshot
    match plan.result with
    | .error _ => plan
    | .ok ps' =>
      let rest := ps'.saveAll json codec es
      ⟨plan.writes ++ rest.writes, rest.result⟩

def Cluster.without (s : Cluster n) : Action n → List (Rpc n)
  | .handle k | .reply k => s.rpcs.eraseIdx k
  | _ => s.rpcs

/-- The cluster with the directory of every node. A node that is up has a persister; the process
of one that is down is of no account. -/
structure DiskCluster (n : Nat) where
  cluster : Cluster n
  disk : Fin n → Disk
  up : Fin n → Option DiskPersister

/-- A critical section of a process, from end to end or cut off by a crash after some of the
renames in it, a call that is lost, a crash between critical sections, and a start. -/
inductive DiskAction (n : Nat) where
  | run (a : Action n)
  | cut (a : Action n) (renames : Nat)
  | drop (k : Nat)
  | die (i : Fin n)
  | boot (i : Fin n)
deriving DecidableEq, Repr

namespace DiskCluster

def init (n : Nat) : DiskCluster n := ⟨.init n, fun _ _ => none, fun _ => none⟩

/-- The process of node `i` is gone and leaves the directory `d`. -/
def stop (h : DiskCluster n) (i : Fin n) (rpcs : List (Rpc n)) (d : Disk) : DiskCluster n where
  cluster := { h.cluster with
    rpcs := rpcs.filterMap (Rpc.orphan i)
    now := h.cluster.now + 1 }
  disk := assign h.disk i d
  up := assign h.up i none

/-- The process that takes an action, with its event and its persister. -/
def actor (h : DiskCluster n) (a : Action n) : Option (Fin n × Event n × DiskPersister) :=
  (h.cluster.event a).bind fun e => (h.up e.1).map fun ps => (e.1, e.2, ps)

/-- What the critical section of an event writes. -/
def plan (json : ManifestJson) (codec : StateCodec n) (h : DiskCluster n) (i : Fin n)
    (ev : Event n) (ps : DiskPersister) : Plan :=
  ps.saveAll json codec ((h.cluster.procs i).saves ev)

/-- The requests that go out while the critical section of an event, which has written the log, is
in its last `persist`. -/
def torn (json : ManifestJson) (codec : StateCodec n) (h : DiskCluster n) (i : Fin n)
    (ev : Event n) (ps : DiskPersister) (renames : Nat) : List (Rpc n) :=
  let early := ps.saveAll json codec ((h.cluster.procs i).saves ev).dropLast
  if early.writes.length ≤ renames ∧ renames < (h.plan json codec i ev ps).writes.length then
    ((h.cluster.procs i).torn ev).map (Send.rpc i h.cluster.now)
  else []

def step (json : ManifestJson) (codec : StateCodec n) (h : DiskCluster n) :
    DiskAction n → Option (DiskCluster n)
  | .run a =>
    match h.actor a with
    | none => none
    | some (i, ev, ps) =>
      if (h.cluster.procs i).panics ev then some (h.stop i h.cluster.rpcs (h.disk i))
      else
        let plan := h.plan json codec i ev ps
        let d := (h.disk i).writes plan.writes
        (h.cluster.step a).map fun c =>
          match plan.result with
          | .ok ps' => ⟨c, assign h.disk i d, assign h.up i (some ps')⟩
          -- `Save` panics
          | .error _ => h.stop i (h.cluster.without a) d
  | .cut a renames =>
    match h.actor a with
    | none => none
    | some (i, ev, ps) =>
      if (h.cluster.procs i).panics ev then none
      else
        (h.cluster.step a).map fun _ => h.stop i
          (h.cluster.without a ++ h.torn json codec i ev ps renames)
          ((h.disk i).writes ((h.plan json codec i ev ps).writes.take renames))
  | .drop k => (h.cluster.step (.drop k)).map fun c => { h with cluster := c }
  | .die i => (h.up i).map fun _ => h.stop i h.cluster.rpcs (h.disk i)
  | .boot i =>
    match h.up i, makeDiskPersister json (h.disk i) with
    | none, ⟨ws, .ok ps⟩ => some {
        cluster := { h.cluster with
          procs := assign h.cluster.procs i (.boot i (codec.load ps))
          now := h.cluster.now + 1 }
        disk := assign h.disk i ((h.disk i).writes ws)
        up := assign h.up i (some ps) }
    | _, _ => none

def Meets (Q : Proc n → Event n → Prop) (h : DiskCluster n) : DiskAction n → Prop
  | .run a | .cut a _ => h.cluster.Meets Q a
  | _ => True

abbrev ReachableBy (json : ManifestJson) (codec : StateCodec n) (Q : Proc n → Event n → Prop) :
    DiskCluster n → Prop :=
  Consensus.ReachableBy (step json codec) (Meets Q) (init n)

end DiskCluster

section

variable {json : ManifestJson} {ps : DiskPersister} {d : Disk}

theorem StateCodec.load_saved (codec : StateCodec n) {e : RaftState n}
    (h : ps.pair = (codec.marshal e, e.snapshot)) : codec.load ps = some e := by
  obtain ⟨hr, hs⟩ := Prod.mk.inj h
  simp only [load, hr, hs, codec.marshal_ne_nil e, codec.unmarshal_marshal e, ↓reduceIte,
    Option.map_some]

/-- The calls of `persist` in a critical section, none of which panics. -/
theorem Holds.saveAll (h : Holds json ps d) (codec : StateCodec n) (es : List (RaftState n)) :
    ∃ ps', (ps.saveAll json codec es).result = .ok ps' ∧
      Holds json ps' (d.writes (ps.saveAll json codec es).writes) ∧
      codec.load ps' = Raft.held es (codec.load ps) := by
  induction es generalizing ps d with
  | nil => exact ⟨ps, rfl, h, rfl⟩
  | cons e es ih =>
    obtain ⟨ps₁, hres, hpair, hc⟩ := h.save (codec.marshal e) e.snapshot
    obtain ⟨ps', hres', hh, hl⟩ := ih hc.after
    simp only [DiskPersister.saveAll, hres]
    refine ⟨ps', hres', ?_, ?_⟩
    · rw [Files.writes_append]
      exact hh
    · rw [hl, codec.load_saved hpair, Raft.held_cons]

/-- Cut off after any number of renames, they leave the image of one of them, whole, or what was
there before. -/
theorem Holds.saveAll_cut (h : Holds json ps d) (codec : StateCodec n) (es : List (RaftState n))
    (m : Nat) :
    ∃ k ps', Holds json ps' (d.writes ((ps.saveAll json codec es).writes.take m)) ∧
      codec.load ps' = Raft.held (es.take k) (codec.load ps) := by
  induction es generalizing ps d m with
  | nil => exact ⟨0, ps, by rw [DiskPersister.saveAll, List.take_nil]; exact h, rfl⟩
  | cons e es ih =>
    obtain ⟨ps₁, hres, hpair, hc⟩ := h.save (codec.marshal e) e.snapshot
    simp only [DiskPersister.saveAll, hres, List.take_append]
    by_cases hm : (ps.save json (codec.marshal e) e.snapshot).writes.length ≤ m
    · obtain ⟨k, ps', hh, hl⟩ := ih hc.after (m - _)
      refine ⟨k + 1, ps', ?_, ?_⟩
      · rw [List.take_of_length_le hm, Files.writes_append]
        exact hh
      · rw [hl, codec.load_saved hpair, List.take_succ_cons, Raft.held_cons]
    · have hold := (hc.cut m).resolve_left hm
      rw [Nat.sub_eq_zero_of_le (Nat.le_of_not_le hm), List.take_zero, List.append_nil]
      exact ⟨0, ps, hold, rfl⟩

/-- Cut off in the last of them, they leave the image of the one before. -/
theorem Holds.saveAll_late (h : Holds json ps d) (codec : StateCodec n) (es : List (RaftState n))
    (e : RaftState n) (hle : (ps.saveAll json codec es).writes.length ≤ m)
    (hlt : m < (ps.saveAll json codec (es ++ [e])).writes.length) :
    ∃ ps', Holds json ps' (d.writes ((ps.saveAll json codec (es ++ [e])).writes.take m)) ∧
      codec.load ps' = Raft.held es (codec.load ps) := by
  induction es generalizing ps d m with
  | nil =>
    obtain ⟨ps₁, hres, -, hc⟩ := h.save (codec.marshal e) e.snapshot
    simp only [List.nil_append, DiskPersister.saveAll, hres, List.append_nil] at hlt ⊢
    exact ⟨ps, (hc.cut m).resolve_left (Nat.not_le.2 hlt), rfl⟩
  | cons x es ih =>
    obtain ⟨ps₁, hres, hpair, hc⟩ := h.save (codec.marshal x) x.snapshot
    simp only [List.cons_append, DiskPersister.saveAll, hres, List.length_append,
      List.take_append] at hle hlt ⊢
    have hm : (ps.save json (codec.marshal x) x.snapshot).writes.length ≤ m :=
      Nat.le_trans (Nat.le_add_right _ _) hle
    obtain ⟨ps', hh, hl⟩ := ih hc.after (Nat.le_sub_of_add_le' hle)
      (Nat.sub_lt_left_of_lt_add hm hlt)
    refine ⟨ps', ?_, ?_⟩
    · rw [List.take_of_length_le hm, Files.writes_append]
      exact hh
    · rw [hl, codec.load_saved hpair, Raft.held_cons]

end

namespace Cluster

variable {s s' t : Cluster n} {i : Fin n} {Q : Proc n → Event n → Prop}

theorem can_lose (lost : List (Rpc n)) (hr : s.rpcs = before ++ lost ++ after) :
    Can step (Within Q) (fun s' => s'.procs = s.procs ∧ s'.emitted = s.emitted ∧
      s'.rpcs = before ++ after) s := by
  induction lost generalizing s with
  | nil => exact .now ⟨rfl, rfl, by rw [hr, List.append_nil]⟩
  | cons r rest ih =>
    have hlen : before.length < s.rpcs.length := by
      rw [hr, List.length_append, List.length_append, List.length_cons]
      omega
    have hstep : s.step (.drop before.length) =
        some { s with rpcs := s.rpcs.eraseIdx before.length, now := s.now + 1 } := if_pos hlen
    refine .act (.drop before.length) trivial hstep (ih ?_)
    simp only [hr, List.append_assoc, List.cons_append,
      List.eraseIdx_append_of_length_le (Nat.le_refl _), Nat.sub_self, List.eraseIdx_cons_zero]

/-- The process of node `i` has been started again on what it had persisted, and some calls are
left. -/
structure Restarted (s : Cluster n) (i : Fin n) (e : Option (RaftState n)) (rpcs : List (Rpc n))
    (s' : Cluster n) : Prop where
  procs : s'.procs = assign s.procs i (.boot i e)
  rpcs : s'.rpcs = rpcs.filterMap (Rpc.orphan i)
  emitted : s'.emitted = s.emitted

theorem can_crash (h : Can step (Within Q) (fun t => (∀ j, j ≠ i → t.procs j = s.procs j) ∧
      (t.procs i).rf.persister = e ∧ t.emitted = s.emitted ∧ t.rpcs = rs) s) :
    Can step (Within Q) (Restarted s i e rs) s := by
  apply h.bind
  rintro t - ⟨hp, rfl, he, rfl⟩
  refine .act (.crash i) trivial rfl (.now ⟨?_, rfl, he⟩)
  funext j
  by_cases hj : j = i
  · rw [hj, assign_self]
    exact assign_self _ _ _
  · rw [assign_ne _ _ hj]
    exact (assign_ne _ _ hj).trans (hp j hj)

theorem exists_split {l : List α} (hk : l[k]? = some r) :
    ∃ before after, l = before ++ [r] ++ after ∧ before.length = k := by
  obtain ⟨hlt, rfl⟩ := List.getElem?_eq_some_iff.1 hk
  refine ⟨l.take k, l.drop (k + 1), ?_, List.length_take_of_le hlt.le⟩
  rw [List.append_assoc, List.singleton_append, List.cons_getElem_drop_succ,
    List.take_append_drop]

theorem eraseIdx_split (before after : List α) :
    (before ++ [r] ++ after).eraseIdx before.length = before ++ after := by
  rw [List.append_assoc, List.eraseIdx_append_of_length_le (Nat.le_refl _), Nat.sub_self]
  rfl

theorem set_split (before after : List α) (r' : α) :
    (before ++ [r] ++ after).set before.length r' = before ++ [r'] ++ after := by
  rw [List.append_assoc, List.set_append_right _ _ (Nat.le_refl _), Nat.sub_self,
    List.append_assoc]
  rfl

theorem without_eq (ha : s.event a = some (i, ev)) : ∃ before lost after,
    s.rpcs = before ++ lost ++ after ∧ s.without a = before ++ after := by
  have hcall {k : Nat} {r : Rpc n} (hk : s.rpcs[k]? = some r) : ∃ before lost after,
      s.rpcs = before ++ lost ++ after ∧ s.rpcs.eraseIdx k = before ++ after := by
    obtain ⟨before, after, hr, rfl⟩ := exists_split hk
    exact ⟨before, [r], after, hr, by rw [hr, eraseIdx_split]⟩
  cases a with
  | act j ev' => exact ⟨s.rpcs, [], [], by simp only [List.append_nil], (List.append_nil _).symm⟩
  | handle k =>
    obtain ⟨r, hk, -⟩ := Option.bind_eq_some_iff.1 ha
    exact hcall hk
  | reply k =>
    obtain ⟨r, hk, -⟩ := Option.bind_eq_some_iff.1 ha
    exact hcall hk
  | _ => cases ha

theorem can_restart_before (ha : s.event a = some (i, ev)) :
    Can step (Within Q) (Restarted s i (s.procs i).rf.persister (s.without a)) s := by
  apply can_crash
  obtain ⟨before, lost, after, hr, hw⟩ := without_eq ha
  apply (can_lose lost hr).mono
  rintro t ⟨hp, he, hr'⟩
  exact ⟨fun j _ => congrFun hp j, by rw [hp], he, hr'.trans hw.symm⟩

theorem Move.without (hm : Move s a s') (ha : s.event a = some (i, ev))
    (hp : (s.procs i).panics ev = false) (hq : (s.procs i).saves ev ≠ []) :
    s'.emitted = s.emitted ∧ ∃ before lost after,
      s'.rpcs = before ++ lost ++ after ∧ s.without a = before ++ after := by
  cases hm with
  | act j ev' p =>
    cases ha
    refine ⟨?_, s.rpcs, _, [], (List.append_nil _).symm, (List.append_nil _).symm⟩
    dsimp only
    rw [Proc.saves_quiet hq]
    exact List.append_nil _
  | panic j ev' hp' =>
    cases ha
    rw [hp] at hp'
    cases hp'
  | handle k r ev' p hk =>
    refine ⟨rfl, ?_⟩
    obtain ⟨before, after, hr, rfl⟩ := exists_split hk
    simp only [Cluster.without, hr, eraseIdx_split, set_split]
    split
    · exact ⟨before, _, after, rfl, rfl⟩
    · exact ⟨before, [], after, by rw [List.append_nil], rfl⟩
  | reply k r ev' p hk =>
    exact ⟨rfl, s.rpcs.eraseIdx k, [], [], by simp only [List.append_nil], (List.append_nil _).symm⟩
  | _ => cases ha

theorem can_restart_after (ha : s.event a = some (i, ev)) (hQ : s.Within Q a)
    (hp : (s.procs i).panics ev = false) (hs : s.step a = some s')
    (hprocs : s'.procs = assign s.procs i q) (hq : (s.procs i).saves ev ≠ []) :
    Can step (Within Q) (Restarted s i q.rf.persister (s.without a)) s := by
  apply can_crash
  obtain ⟨he, before, lost, after, hr, hw⟩ := (step_move hs).without ha hp hq
  apply Can.act a hQ hs
  apply (can_lose lost hr).mono
  rintro t ⟨hp', he', hr'⟩
  rw [hp', hprocs]
  exact ⟨fun j hj => assign_ne _ _ hj, by rw [assign_self], he'.trans he, hr'.trans hw.symm⟩

theorem request_inj {c c' : Call n} (h : c.request = some ev) (h' : c'.request = some ev) :
    c = c' := by
  obtain ⟨args, rfl, rfl⟩ | ⟨args, rfl, rfl⟩ | ⟨args, rfl, rfl⟩ := request_eq h <;>
  obtain ⟨_, rfl, he⟩ | ⟨_, rfl, he⟩ | ⟨_, rfl, he⟩ := request_eq h' <;> cases he <;> rfl

theorem Move.of_request {c : Call n} (hm : Move s a s') (ha : s.event a = some (i, ev))
    (hc : c.request = some ev) : ∃ k r, a = .handle k ∧ s.rpcs[k]? = some r ∧ r.server = i ∧
      r.call = c := by
  have hlocal : ev.isLocal = false := by
    obtain ⟨_, -, rfl⟩ | ⟨_, -, rfl⟩ | ⟨_, -, rfl⟩ := request_eq hc <;> rfl
  cases hm with
  | act j ev' p hl =>
    cases ha
    rw [hlocal] at hl
    cases hl
  | panic j ev' hp =>
    cases ha
    obtain ⟨_, -, rfl⟩ | ⟨_, -, rfl⟩ | ⟨_, -, rfl⟩ := request_eq hc <;> cases hp
  | handle k r ev' p hk he =>
    cases (event_handle hk he).symm.trans ha
    exact ⟨k, r, rfl, hk, rfl, request_inj he hc⟩
  | reply k r ev' p hk he =>
    cases (event_reply hk he).symm.trans ha
    obtain ⟨_, _, -, rfl⟩ | ⟨_, _, -, rfl⟩ | ⟨_, _, -, rfl⟩ := replied_eq he <;>
    obtain ⟨_, -, ⟨⟩⟩ | ⟨_, -, ⟨⟩⟩ | ⟨_, -, ⟨⟩⟩ := request_eq hc
  | _ => cases ha

theorem can_restart_between {c : Call n} (ha : s.event a = some (i, ev)) (hQ : s.Within Q a)
    (hs : s.step a = some s') (hc : c.request = some ev) :
    Can step (Within Q) (Restarted s i ((s.procs i).rf.catchUp c.term).persister
      (s.without a ++ ((s.procs i).torn ev).map (Send.rpc i s.now))) s := by
  obtain ⟨k, r, rfl, hk, rfl, rfl⟩ := (step_move hs).of_request ha hc
  have hstep : s.step (.crashIn k) = some (s.crashAmid r.server ev
      ((s.procs r.server).rf.catchUp r.call.term).persister) := by
    simp only [step, crashIn, hk, hc, Option.map_some]
  have hwithin : s.Within Q (.crashIn k) := hQ
  apply Can.act (.crashIn k) hwithin hstep
  obtain ⟨before, after, hr, rfl⟩ := exists_split hk
  have hsplit : (s.crashAmid r.server ev
        ((s.procs r.server).rf.catchUp r.call.term).persister).rpcs =
      before.filterMap (Rpc.orphan r.server) ++ [r].filterMap (Rpc.orphan r.server) ++
        (after ++ ((s.procs r.server).torn ev).map (Send.rpc r.server s.now)).filterMap
          (Rpc.orphan r.server) := by
    simp only [crashAmid, crash, hr, List.filterMap_append, List.append_assoc]
  apply (can_lose _ hsplit).mono
  rintro t ⟨hp, he, hr'⟩
  refine ⟨hp, ?_, he⟩
  rw [hr', Cluster.without, hr, eraseIdx_split, List.append_assoc]
  exact List.filterMap_append.symm

theorem can_restart_start (hQ : s.Within Q (.act i (.start command))) :
    Can step (Within Q) (Restarted s i (s.procs i).rf.persister
      (s.rpcs ++ ((s.procs i).torn (.start command)).map (Send.rpc i s.now))) s := by
  have hwithin : s.Within Q (.crashStart i command) := hQ
  exact .act (.crashStart i command) hwithin rfl (.now ⟨rfl, rfl, rfl⟩)

theorem eq_start (ha : s.event a = some (i, .start command)) : a = .act i (.start command) := by
  cases a with
  | act j ev =>
    cases ha
    rfl
  | handle k =>
    obtain ⟨r, -, hr⟩ := Option.bind_eq_some_iff.1 ha
    obtain ⟨ev, he, hev⟩ := Option.map_eq_some_iff.1 hr
    obtain ⟨_, -, rfl⟩ | ⟨_, -, rfl⟩ | ⟨_, -, rfl⟩ := request_eq he <;> cases hev
  | reply k =>
    obtain ⟨r, -, hr⟩ := Option.bind_eq_some_iff.1 ha
    obtain ⟨ev, he, hev⟩ := Option.map_eq_some_iff.1 hr
    obtain ⟨_, _, -, rfl⟩ | ⟨_, _, -, rfl⟩ | ⟨_, _, -, rfl⟩ := replied_eq he <;> cases hev
  | _ => cases ha

theorem can_restart_torn (ha : s.event a = some (i, ev)) (hQ : s.Within Q a)
    (hs : s.step a = some s') (htorn : (s.procs i).torn ev ≠ []) :
    Can step (Within Q) (Restarted s i
      (Raft.held ((s.procs i).saves ev).dropLast (s.procs i).rf.persister)
      (s.without a ++ ((s.procs i).torn ev).map (Send.rpc i s.now))) s := by
  obtain ⟨command, rfl, hl, -⟩ | ⟨args, rfl, hl, -⟩ := Proc.torn_saves htorn
  · obtain rfl := eq_start ha
    rw [hl]
    exact can_restart_start hQ
  · rw [hl, ← Raft.catchUp_held]
    exact can_restart_between (c := .appendEntries args none) ha hQ hs rfl

/-- Whatever a process has saved when it dies in a critical section, it starts from what some run
of the cluster lets it start from. -/
theorem can_restart (ha : s.event a = some (i, ev)) (hQ : s.Within Q a)
    (hp : (s.procs i).panics ev = false) (hs : s.step a = some s')
    (hq : (s.procs i).step s.now ev = some q) (hprocs : s'.procs = assign s.procs i q) (k : Nat) :
    Can step (Within Q) (Restarted s i
      (Raft.held (((s.procs i).saves ev).take k) (s.procs i).rf.persister) (s.without a)) s := by
  obtain he | ⟨hne, he⟩ | ⟨c, hc, ht, he⟩ := Proc.saves_take hq k
  · rw [he]
    exact can_restart_before ha
  · rw [he]
    exact can_restart_after ha hQ hp hs hprocs hne
  · rw [he, ← show (s.procs i).rf.catchUp c.term = _ from if_pos ht]
    apply (can_restart_between ha hQ hs hc).bind
    rintro t - ⟨hprocs, hrpcs, hem⟩
    rw [List.filterMap_append] at hrpcs
    rw [← List.append_nil (_ ++ _)] at hrpcs
    apply (can_lose _ hrpcs).mono
    rintro u ⟨hp', he', hr'⟩
    exact ⟨hp'.trans hprocs, hr'.trans (List.append_nil _), he'.trans hem⟩

end Cluster

theorem Proc.saves_alike {p q : Proc n} (h : p.plain = q.plain) : p.saves ev = q.saves ev := by
  change p.plain.saves ev = q.plain.saves ev
  rw [h]

theorem Proc.torn_alike {p q : Proc n} (h : p.plain = q.plain) : p.torn ev = q.torn ev := by
  change p.plain.torn ev = q.plain.torn ev
  rw [h]

theorem Cluster.Alike.without {s t : Cluster n} (h : Alike up s t) (a : Action n) :
    (s.without a).map Rpc.plain = (t.without a).map Rpc.plain := by
  cases a with
  | handle k => exact eraseIdx_plain h.rpcs k
  | reply k => exact eraseIdx_plain h.rpcs k
  | _ => exact h.rpcs

theorem Cluster.Alike.torn {s t : Cluster n} {up : Fin n → Prop} (h : Alike up s t)
    (hi : up i) (ev : Event n) : (((s.procs i).torn ev).map (Send.rpc i s.now)).map Rpc.plain =
      (((t.procs i).torn ev).map (Send.rpc i t.now)).map Rpc.plain := by
  rw [Proc.torn_alike (h.procs i hi), List.map_map, List.map_map]
  rfl

namespace DiskCluster

variable {json : ManifestJson} {codec : StateCodec n} {h h' : DiskCluster n} {s : Cluster n}
  {Q : Proc n → Event n → Prop}

/-- The cluster `s` stands for the cluster with the disks: a node that is down is one that has been
started on its directory and has not done anything. -/
structure Refines (json : ManifestJson) (codec : StateCodec n) (h : DiskCluster n)
    (s : Cluster n) : Prop where
  alike : Cluster.Alike (fun i => h.up i ≠ none) h.cluster s
  up : ∀ i ps, h.up i = some ps → Holds json ps (h.disk i) ∧
    codec.load ps = (s.procs i).rf.persister
  down : ∀ i, h.up i = none → ∃ ps, Holds json ps (h.disk i) ∧ s.procs i = .boot i (codec.load ps)

theorem refines_init (n : Nat) (codec : StateCodec n) : Refines json codec (init n) (.init n) where
  alike := ⟨fun _ hi => (hi rfl).elim, rfl, rfl⟩
  up _ _ hi := nomatch hi
  down _ _ := ⟨_, .inr ⟨rfl, rfl, rfl⟩, rfl⟩

theorem actor_eq (ha : h.actor a = some (i, ev, ps)) :
    h.cluster.event a = some (i, ev) ∧ h.up i = some ps := by
  obtain ⟨⟨j, ev'⟩, he, hm⟩ := Option.bind_eq_some_iff.1 ha
  obtain ⟨ps', hu, ⟨⟩⟩ := Option.map_eq_some_iff.1 hm
  exact ⟨he, hu⟩

theorem Refines.stop (hr : Refines json codec h s)
    (hs : Cluster.Restarted s i (codec.load ps) rs s') (hd : Holds json ps d)
    (hrs : rs'.map Rpc.plain = rs.map Rpc.plain) : Refines json codec (h.stop i rs' d) s' where
  alike := by
    refine ⟨fun j hj => ?_, ?_, hr.alike.emitted.trans hs.emitted.symm⟩
    · have hji : j ≠ i := by
        rintro rfl
        exact hj (assign_self _ _ _)
      simp only [DiskCluster.stop, assign_ne _ _ hji] at hj
      rw [hs.procs, assign_ne _ _ hji]
      exact hr.alike.procs j hj
    · rw [hs.rpcs]
      exact Cluster.filterMap_orphan_plain hrs i
  up j ps' hj := by
    by_cases hji : j = i
    · rw [hji] at hj
      cases (assign_self _ _ _).symm.trans hj
    · simp only [DiskCluster.stop, assign_ne _ _ hji] at hj ⊢
      rw [hs.procs, assign_ne _ _ hji]
      exact hr.up j ps' hj
  down j hj := by
    by_cases hji : j = i
    · subst hji
      simp only [DiskCluster.stop, assign_self, hs.procs]
      exact ⟨ps, hd, rfl⟩
    · simp only [DiskCluster.stop, assign_ne _ _ hji] at hj ⊢
      rw [hs.procs, assign_ne _ _ hji]
      exact hr.down j hj

theorem Refines.go (hr : Refines json codec h s)
    (ha : Cluster.Alike (fun j => assign h.up i (some ps) j ≠ none) c s')
    (hp : ∀ j, j ≠ i → s'.procs j = s.procs j) (hd : Holds json ps d)
    (hl : codec.load ps = (s'.procs i).rf.persister) :
    Refines json codec ⟨c, assign h.disk i d, assign h.up i (some ps)⟩ s' where
  alike := ha
  up j ps' hj := by
    by_cases hji : j = i
    · subst hji
      simp only [assign_self, Option.some.injEq] at hj ⊢
      exact hj ▸ ⟨hd, hl⟩
    · simp only [assign_ne _ _ hji] at hj ⊢
      rw [hp j hji]
      exact hr.up j ps' hj
  down j hj := by
    by_cases hji : j = i
    · rw [hji] at hj
      cases (assign_self _ _ _).symm.trans hj
    · simp only [assign_ne _ _ hji] at hj ⊢
      rw [hp j hji]
      exact hr.down j hj

theorem Refines.die (hr : Refines json codec h s) (hi : h.up i = some ps) :
    Can Cluster.step (Cluster.Within Q)
      (Refines json codec (h.stop i h.cluster.rpcs (h.disk i))) s := by
  obtain ⟨hd, hl⟩ := hr.up i ps hi
  apply Can.act (.crash i) trivial rfl
  have hrestarted : Cluster.Restarted s i (codec.load ps) s.rpcs
      (s.crash i (s.procs i).rf.persister) := ⟨by rw [hl]; rfl, rfl, rfl⟩
  exact .now (hr.stop hrestarted hd hr.alike.rpcs)

theorem Refines.boot (hr : Refines json codec h s) (hi : h.up i = none)
    (hb : makeDiskPersister json (h.disk i) = ⟨ws, .ok ps⟩) : Refines json codec
      ⟨{ h.cluster with
          procs := assign h.cluster.procs i (.boot i (codec.load ps)), now := h.cluster.now + 1 },
        assign h.disk i ((h.disk i).writes ws), assign h.up i (some ps)⟩ s := by
  obtain ⟨ps', hd, hp⟩ := hr.down i hi
  rw [hd.makeDiskPersister] at hb
  cases hb
  refine hr.go ⟨?_, hr.alike.rpcs, hr.alike.emitted⟩ (fun _ _ => rfl) hd ?_
  · intro j hj
    by_cases hji : j = i
    · rw [hji, hp]
      exact congrArg Proc.plain (assign_self _ _ _)
    · rw [assign_ne _ _ hji] at hj
      exact (congrArg Proc.plain (assign_ne _ _ hji)).trans (hr.alike.procs j hj)
  · rw [hp]
    exact (Raft.make_persister i _).symm

theorem Refines.acts (hr : Refines json codec h s)
    (hQ : ∀ p q ev, p.plain = q.plain → Q p ev → Q q ev)
    (ha : h.actor a = some (i, ev, ps)) (hm : h.cluster.Meets Q a)
    (hp : (h.cluster.procs i).panics ev = false) (hs : h.cluster.step a = some c) :
    s.event a = some (i, ev) ∧ s.Within Q a ∧ (s.procs i).panics ev = false ∧
      (h.cluster.procs i).saves ev = (s.procs i).saves ev ∧
      ∃ s' q, s.step a = some s' ∧ (s.procs i).step s.now ev = some q ∧
        s'.procs = assign s.procs i q ∧ Cluster.Alike (fun j => h.up j ≠ none) c s' := by
  obtain ⟨he, hi⟩ := actor_eq ha
  have hup : h.up i ≠ none := by rw [hi]; exact Option.some_ne_none ps
  have hpl := hr.alike.procs i hup
  have he' := hr.alike.event he
  have hm' : s.Within Q a := by
    rw [Cluster.Within, Cluster.during_event he']
    exact hQ _ _ _ hpl (hm.apply he)
  exact ⟨he', hm', Proc.panics_alike hpl ▸ hp, Proc.saves_alike hpl, hr.alike.step he hup hp hs⟩

theorem Refines.run (hr : Refines json codec h s)
    (hQ : ∀ p q ev, p.plain = q.plain → Q p ev → Q q ev)
    (ha : h.actor a = some (i, ev, ps)) (hm : h.cluster.Meets Q a)
    (hp : (h.cluster.procs i).panics ev = false) (hs : h.cluster.step a = some c) :
    ∃ ps', (h.plan json codec i ev ps).result = .ok ps' ∧
      Can Cluster.step (Cluster.Within Q) (Refines json codec
        ⟨c, assign h.disk i ((h.disk i).writes (h.plan json codec i ev ps).writes),
          assign h.up i (some ps')⟩) s := by
  obtain ⟨hd, hl⟩ := hr.up i ps (actor_eq ha).2
  obtain ⟨-, hm', -, hsaves, s', q, hs', hq, hprocs, halike⟩ := hr.acts hQ ha hm hp hs
  obtain ⟨ps', hres, hd', hl'⟩ := hd.saveAll codec ((h.cluster.procs i).saves ev)
  refine ⟨ps', hres, .act a hm' hs' (.now (hr.go ?_ ?_ hd' ?_))⟩
  · refine ⟨fun j hj => halike.procs j ?_, halike.rpcs, halike.emitted⟩
    by_cases hji : j = i
    · rw [hji, (actor_eq ha).2]
      exact Option.some_ne_none ps
    · rwa [assign_ne _ _ hji] at hj
  · intro j hj
    rw [hprocs, assign_ne _ _ hj]
  · rw [hl', hl, hprocs, assign_self, hsaves, Proc.step_held hq]

theorem torn_cases (json : ManifestJson) (codec : StateCodec n) (h : DiskCluster n) (i : Fin n)
    (ev : Event n) (ps : DiskPersister) (m : Nat) : h.torn json codec i ev ps m = [] ∨
      ((ps.saveAll json codec ((h.cluster.procs i).saves ev).dropLast).writes.length ≤ m ∧
        m < (h.plan json codec i ev ps).writes.length) ∧ (h.cluster.procs i).torn ev ≠ [] ∧
      h.torn json codec i ev ps m =
        ((h.cluster.procs i).torn ev).map (Send.rpc i h.cluster.now) := by
  unfold torn
  dsimp only
  split
  · next hm =>
    by_cases hnil : (h.cluster.procs i).torn ev = []
    · exact .inl (by rw [hnil, List.map_nil])
    · exact .inr ⟨hm, hnil, rfl⟩
  · exact .inl rfl

theorem Refines.cut (hr : Refines json codec h s)
    (hQ : ∀ p q ev, p.plain = q.plain → Q p ev → Q q ev)
    (ha : h.actor a = some (i, ev, ps)) (hm : h.cluster.Meets Q a)
    (hp : (h.cluster.procs i).panics ev = false) (hs : h.cluster.step a = some c) (m : Nat) :
    Can Cluster.step (Cluster.Within Q) (Refines json codec (h.stop i
      (h.cluster.without a ++ h.torn json codec i ev ps m)
      ((h.disk i).writes ((h.plan json codec i ev ps).writes.take m)))) s := by
  obtain ⟨hd, hl⟩ := hr.up i ps (actor_eq ha).2
  obtain ⟨he', hm', hp', hsaves, s', q, hs', hq, hprocs, -⟩ := hr.acts hQ ha hm hp hs
  obtain hout | ⟨⟨hle, hlt⟩, hne, hout⟩ := h.torn_cases json codec i ev ps m <;> rw [hout]
  · obtain ⟨k, ps', hd', hl'⟩ := hd.saveAll_cut codec ((h.cluster.procs i).saves ev) m
    apply (Cluster.can_restart he' hm' hp' hs' hq hprocs k).mono
    intro t ht
    rw [← hsaves, ← hl, ← hl'] at ht
    rw [List.append_nil]
    exact hr.stop ht hd' (hr.alike.without a)
  · have hup : h.up i ≠ none := by rw [(actor_eq ha).2]; exact Option.some_ne_none ps
    have hsome : (h.cluster.procs i).saves ev ≠ [] := by
      obtain ⟨_, _, _, hn⟩ | ⟨_, _, _, hn⟩ := Proc.torn_saves hne <;> exact hn
    have hlast := List.dropLast_concat_getLast hsome
    rw [plan, ← hlast] at hlt
    obtain ⟨ps', hd', hl'⟩ := hd.saveAll_late codec _ _ hle hlt
    rw [hlast] at hd'
    apply (Cluster.can_restart_torn he' hm' hs' (Proc.torn_alike (hr.alike.procs i hup) ▸ hne)).mono
    intro t ht
    rw [← hsaves, ← hl, ← hl'] at ht
    apply hr.stop ht hd'
    rw [List.map_append, List.map_append, hr.alike.without a, hr.alike.torn hup]

theorem Refines.drop (hr : Refines json codec h s) (hs : h.cluster.step (.drop k) = some c) :
    Can Cluster.step (Cluster.Within Q) (Refines json codec { h with cluster := c }) s := by
  obtain ⟨hlt, ⟨⟩⟩ := Option.ite_none_right_eq_some.1 hs
  have hlen : k < s.rpcs.length := by
    rwa [← List.length_map, ← hr.alike.rpcs, List.length_map]
  apply Can.act (.drop k) trivial (if_pos hlen)
  exact .now ⟨⟨hr.alike.procs, Cluster.eraseIdx_plain hr.alike.rpcs k, hr.alike.emitted⟩,
    hr.up, hr.down⟩

/-- Every step on the disks is some run of the cluster in which `persist` is atomic. -/
theorem Refines.step (hr : Refines json codec h s)
    (hQ : ∀ p q ev, p.plain = q.plain → Q p ev → Q q ev) (ha : h.Meets Q a)
    (hs : h.step json codec a = some h') :
    Can Cluster.step (Cluster.Within Q) (Refines json codec h') s := by
  cases a with
  | run a =>
    simp only [DiskCluster.step] at hs
    split at hs
    · cases hs
    · next i ev ps hact =>
      split at hs
      · cases hs
        exact hr.die (actor_eq hact).2
      · next hp =>
        obtain ⟨c, hc, rfl⟩ := Option.map_eq_some_iff.1 hs
        obtain ⟨ps', hres, hcan⟩ := hr.run hQ hact ha (Bool.eq_false_iff.2 hp) hc
        simp only [hres]
        exact hcan
  | cut a m =>
    simp only [DiskCluster.step] at hs
    split at hs
    · cases hs
    · next i ev ps hact =>
      obtain ⟨hp, hs⟩ := Option.ite_none_left_eq_some.1 hs
      obtain ⟨c, hc, rfl⟩ := Option.map_eq_some_iff.1 hs
      exact hr.cut hQ hact ha (Bool.eq_false_iff.2 hp) hc m
  | drop k =>
    obtain ⟨c, hc, rfl⟩ := Option.map_eq_some_iff.1 hs
    exact hr.drop hc
  | die i =>
    obtain ⟨ps, hi, rfl⟩ := Option.map_eq_some_iff.1 hs
    exact hr.die hi
  | boot i =>
    simp only [DiskCluster.step] at hs
    split at hs
    · next hi hb =>
      cases hs
      exact .now (hr.boot hi hb)
    · cases hs

theorem ReachableBy.refines (hQ : ∀ p q ev, p.plain = q.plain → Q p ev → Q q ev)
    (hreach : h.ReachableBy json codec Q) :
    ∃ s : Cluster n, s.ReachableBy (Cluster.Within Q) ∧ Refines json codec h s := by
  obtain ⟨s, hs, hr⟩ := hreach.simulate (refines_init n codec)
    fun _ _ _ _ hr ha hs => hr.step hQ ha hs
  exact ⟨s, hs, hr⟩

end DiskCluster

end LinKV

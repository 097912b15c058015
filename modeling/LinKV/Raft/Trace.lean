import LinKV.Raft.Sends
import LinKV.Consensus.Completeness

namespace LinKV
set_option autoImplicit true

open Consensus

abbrev Record (n : Nat) := Ledger (Fin n) Bytes

namespace Raft

/-- The move behind a change of `currentTerm`. -/
def raised (i : Fin n) (rf rf' : Raft n) : List (Label (Fin n) Bytes) :=
  if rf.currentTerm < rf'.currentTerm then [.raise i rf'.currentTerm] else []

/-- The moves behind a leader's advance of `commitIndex`. -/
def committed (i : Fin n) (rf rf' : Raft n) : List (Label (Fin n) Bytes) :=
  if rf.commitIndex < rf'.commitIndex then
    [.ack i rf.currentTerm rf'.commitIndex, .commit rf.currentTerm rf'.commitIndex]
  else []

/-- The moves of an accepted `AppendEntries` request. -/
def appended (i : Fin n) (args : AppendEntriesArgs n) : List (Label (Fin n) Bytes) :=
  let last := args.prevLogIndex + args.entries.length
  (if args.entries = [] then [] else [.write i args.term last]) ++ [.ack i args.term last]

end Raft

/-- The moves of process `i` in one of its steps. -/
def Proc.labels (i : Fin n) (p : Proc n) : Event n → List (Label (Fin n) Bytes)
  | .startElection => [.campaign i (p.rf.currentTerm + 1)]
  | .soloLeader => [.win i p.rf.currentTerm]
  | .logUpdate => p.rf.committed i p.rf.logUpdate
  | .replicate server => p.rf.committed i (p.rf.replicate server).1
  | .start command =>
    if p.rf.state = .leader then
      .extend i p.rf.currentTerm command :: p.rf.committed i (p.rf.start command)
    else []
  | .requestVote args =>
    p.rf.raised i (p.rf.catchUp args.term) ++
      if (p.rf.requestVote args).2.voteGranted then [.grant i args.candidateId args.term] else []
  | .appendEntries args =>
    p.rf.raised i (p.rf.catchUp args.term) ++
      if (p.rf.appendEntries args).2.success then Raft.appended i args else []
  | .installSnapshot args =>
    p.rf.raised i (p.rf.catchUp args.term) ++
      if (p.rf.installSnapshot args).2.2.isSome ∧ p.rf.lastLogIndex ≤ args.lastIncludeIndex then
        [.write i args.term args.lastIncludeIndex] else []
  | .requestVoteReply args reply =>
    p.rf.raised i (p.requestVoteReply args reply).rf ++
      if p.rf.state = .candidate ∧ (p.requestVoteReply args reply).rf.state = .leader then
        [.win i p.rf.currentTerm] else []
  | .appendEntriesReply server args reply =>
    p.rf.raised i (p.rf.appendEntriesReply server args reply)
  | .installSnapshotReply server args reply =>
    p.rf.raised i (p.rf.installSnapshotReply server args reply)
  | _ => []

namespace Cluster

def labels (s : Cluster n) : Action n → List (Label (Fin n) Bytes)
  | .act i ev => if (s.procs i).panics ev then [] else (s.procs i).labels i ev
  | .handle k =>
    match s.rpcs[k]? with
    | none => []
    | some r => (r.call.request.map ((s.procs r.server).labels r.server)).getD []
  | .crashIn k =>
    match s.rpcs[k]? with
    | none => []
    | some r =>
      let rf := (s.procs r.server).rf
      rf.raised r.server (rf.catchUp r.call.term)
  | .reply k =>
    match s.rpcs[k]? with
    | none => []
    | some r => ((r.call.replied r.server).map ((s.procs r.caller).labels r.caller)).getD []
  | _ => []

/-- The process that takes an action, with the event it takes. -/
def event (s : Cluster n) : Action n → Option (Fin n × Event n)
  | .act i ev => some (i, ev)
  | .handle k => s.rpcs[k]?.bind fun r => r.call.request.map (r.server, ·)
  | .reply k => s.rpcs[k]?.bind fun r => (r.call.replied r.server).map (r.caller, ·)
  | _ => none

/-- The process and the critical section an action is in, whether or not it gets to the end. -/
def during (s : Cluster n) : Action n → Option (Fin n × Event n)
  | .crashIn k => s.rpcs[k]?.bind fun r => r.call.request.map (r.server, ·)
  | .crashStart i command => some (i, .start command)
  | a => s.event a

def Meets (Q : Proc n → Event n → Prop) (s : Cluster n) (a : Action n) : Prop :=
  (s.event a).elim True fun e => Q (s.procs e.1) e.2

instance {Q : Proc n → Event n → Prop} [∀ p ev, Decidable (Q p ev)] (s : Cluster n)
    (a : Action n) : Decidable (s.Meets Q a) :=
  match h : s.event a with
  | none => isTrue (by simp only [Meets, h, Option.elim_none])
  | some e => decidable_of_iff (Q (s.procs e.1) e.2) (by simp only [Meets, h, Option.elim_some])

/-- The process satisfies `Q` for every critical section it enters. -/
def Within (Q : Proc n → Event n → Prop) (s : Cluster n) (a : Action n) : Prop :=
  (s.during a).elim True fun e => Q (s.procs e.1) e.2

instance decidableWithin {Q : Proc n → Event n → Prop} [∀ p ev, Decidable (Q p ev)]
    (s : Cluster n) (a : Action n) : Decidable (s.Within Q a) :=
  match h : s.during a with
  | none => isTrue (by simp only [Within, h, Option.elim_none])
  | some e => decidable_of_iff (Q (s.procs e.1) e.2) (by simp only [Within, h, Option.elim_some])

/-- No entry is overwritten that a request has still to copy. -/
def Settled (s : Cluster n) (a : Action n) : Prop := s.Within (fun p ev => p.settled ev = true) a

instance decidableSettled (s : Cluster n) (a : Action n) : Decidable (s.Settled a) :=
  inferInstanceAs (Decidable (s.Within (fun p ev => p.settled ev = true) a))

theorem Within.apply {s : Cluster n} (h : s.Within Q a) (ha : s.during a = some (i, ev)) :
    Q (s.procs i) ev := by
  rwa [Within, ha] at h

theorem during_event {s : Cluster n} (h : s.event a = some e) : s.during a = some e := by
  cases a with
  | crashIn => cases h
  | crashStart => cases h
  | _ => exact h

theorem Meets.apply {s : Cluster n} (h : s.Meets Q a) (ha : s.event a = some (i, ev)) :
    Q (s.procs i) ev := by
  rwa [Meets, ha] at h

/-- What a step does, with everything that enabled it. -/
inductive Move (s : Cluster n) : Action n → Cluster n → Prop
  | act (i : Fin n) (ev : Event n) (p : Proc n) (hl : ev.isLocal = true)
      (hp : (s.procs i).panics ev = false) (hs : (s.procs i).step s.now ev = some p) :
      Move s (.act i ev) { s with
        procs := assign s.procs i p
        rpcs := s.rpcs ++ ((s.procs i).calls ev).map fun c =>
          { caller := i, server := c.1, call := c.2, alive := true, sentAt := s.now }
        now := s.now + 1
        emitted := s.emitted ++ (((s.procs i).emits ev).map (i, ·)).toList }
  | panic (i : Fin n) (ev : Event n) (hp : (s.procs i).panics ev = true) :
      Move s (.act i ev) (s.crash i (s.procs i).rf.persister)
  | handle (k : Nat) (r : Rpc n) (ev : Event n) (p : Proc n) (hr : s.rpcs[k]? = some r)
      (he : r.call.request = some ev) (hs : (s.procs r.server).step s.now ev = some p) :
      Move s (.handle k) { s with
        procs := assign s.procs r.server p
        rpcs := if r.alive then s.rpcs.set k { r with call := r.call.answered (s.procs r.server) }
          else s.rpcs.eraseIdx k
        now := s.now + 1
        answers := s.answers ++ r.answer (s.procs r.server) }
  | reply (k : Nat) (r : Rpc n) (ev : Event n) (p : Proc n) (hr : s.rpcs[k]? = some r)
      (he : r.call.replied r.server = some ev) (hs : (s.procs r.caller).step s.now ev = some p) :
      Move s (.reply k) { s with
        procs := assign s.procs r.caller p
        rpcs := s.rpcs.eraseIdx k
        now := s.now + 1 }
  | drop (k : Nat) : Move s (.drop k) { s with rpcs := s.rpcs.eraseIdx k, now := s.now + 1 }
  | crash (i : Fin n) : Move s (.crash i) (s.crash i (s.procs i).rf.persister)
  | crashIn (k : Nat) (r : Rpc n) (ev : Event n) (hr : s.rpcs[k]? = some r)
      (he : r.call.request = some ev) :
      Move s (.crashIn k)
        (s.crashAmid r.server ev ((s.procs r.server).rf.catchUp r.call.term).persister)
  | crashStart (i : Fin n) (command : Bytes) :
      Move s (.crashStart i command)
        (s.crashAmid i (.start command) (s.procs i).rf.persister)

theorem step_move {s : Cluster n} (h : s.step a = some s') : Move s a s' := by
  cases a with
  | act i ev =>
    simp only [step, Cluster.act] at h
    split at h
    · cases h
    · split at h
      · cases h
        exact .panic _ _ ‹_›
      · obtain ⟨p, hs, rfl⟩ := Option.map_eq_some_iff.1 h
        exact .act _ _ _ (Bool.eq_true_of_not_eq_false ‹_›) (Bool.eq_false_iff.2 ‹_›) hs
  | handle k =>
    simp only [step, Cluster.handle] at h
    split at h
    · cases h
    · split at h
      · cases h
      · obtain ⟨p, hs, rfl⟩ := Option.map_eq_some_iff.1 h
        exact .handle _ _ _ _ ‹_› ‹_› hs
  | crashIn k =>
    simp only [step, Cluster.crashIn] at h
    split at h
    · cases h
    · obtain ⟨ev, he, rfl⟩ := Option.map_eq_some_iff.1 h
      exact .crashIn _ _ _ ‹_› he
  | crashStart i command =>
    cases h
    exact .crashStart _ _
  | reply k =>
    simp only [step, Cluster.reply] at h
    split at h
    · cases h
    · split at h
      · cases h
      · obtain ⟨p, hs, rfl⟩ := Option.map_eq_some_iff.1 h
        exact .reply _ _ _ _ ‹_› ‹_› hs
  | drop k =>
    simp only [step] at h
    split at h
    · cases h
      exact .drop _
    · cases h
  | crash i =>
    simp only [step] at h
    cases h
    exact .crash _

/-- Process `i` may take event `ev` now. -/
def Inbox (s : Cluster n) (i : Fin n) (ev : Event n) : Prop :=
  ev.isLocal = true ∨ (∃ r ∈ s.rpcs, r.server = i ∧ r.call.request = some ev) ∨
    ∃ r ∈ s.rpcs, r.caller = i ∧ r.call.replied r.server = some ev

theorem request_eq {c : Call n} (h : c.request = some ev) :
    (∃ args, c = .requestVote args none ∧ ev = .requestVote args) ∨
    (∃ args, c = .appendEntries args none ∧ ev = .appendEntries args) ∨
    (∃ args, c = .installSnapshot args none ∧ ev = .installSnapshot args) := by
  unfold Call.request at h
  split at h
  · exact .inl ⟨_, rfl, (Option.some.inj h).symm⟩
  · exact .inr (.inl ⟨_, rfl, (Option.some.inj h).symm⟩)
  · exact .inr (.inr ⟨_, rfl, (Option.some.inj h).symm⟩)
  · cases h

theorem request_ne {c : Call n} (h : c.request = some ev) :
    ev ≠ .startElection ∧ ∀ args rep, ev ≠ .requestVoteReply args rep := by
  rcases request_eq h with ⟨_, _, he⟩ | ⟨_, _, he⟩ | ⟨_, _, he⟩ <;> subst he <;>
    exact ⟨nofun, nofun⟩

theorem replied_eq {c : Call n} (h : c.replied j = some ev) :
    (∃ args reply, c = .requestVote args (some reply) ∧ ev = .requestVoteReply args reply) ∨
    (∃ args reply, c = .appendEntries args (some reply) ∧ ev = .appendEntriesReply j args reply) ∨
    (∃ args reply, c = .installSnapshot args (some reply) ∧
      ev = .installSnapshotReply j args reply) := by
  unfold Call.replied at h
  split at h
  · exact .inl ⟨_, _, rfl, (Option.some.inj h).symm⟩
  · exact .inr (.inl ⟨_, _, rfl, (Option.some.inj h).symm⟩)
  · exact .inr (.inr ⟨_, _, rfl, (Option.some.inj h).symm⟩)
  · cases h

section

variable {s : Cluster n}

theorem Inbox.requestVote (h : s.Inbox i (.requestVote args)) :
    ∃ r ∈ s.rpcs, r.server = i ∧ r.call = .requestVote args none := by
  rcases h with h | ⟨r, hr, hi, he⟩ | ⟨r, _, _, he⟩
  · cases h
  · rcases request_eq he with ⟨a, hc, ⟨⟩⟩ | ⟨_, _, ⟨⟩⟩ | ⟨_, _, ⟨⟩⟩
    exact ⟨r, hr, hi, hc⟩
  · rcases replied_eq he with ⟨_, _, _, ⟨⟩⟩ | ⟨_, _, _, ⟨⟩⟩ | ⟨_, _, _, ⟨⟩⟩

theorem Inbox.appendEntries (h : s.Inbox i (.appendEntries args)) :
    ∃ r ∈ s.rpcs, r.server = i ∧ r.call = .appendEntries args none := by
  rcases h with h | ⟨r, hr, hi, he⟩ | ⟨r, _, _, he⟩
  · cases h
  · rcases request_eq he with ⟨_, _, ⟨⟩⟩ | ⟨a, hc, ⟨⟩⟩ | ⟨_, _, ⟨⟩⟩
    exact ⟨r, hr, hi, hc⟩
  · rcases replied_eq he with ⟨_, _, _, ⟨⟩⟩ | ⟨_, _, _, ⟨⟩⟩ | ⟨_, _, _, ⟨⟩⟩

theorem Inbox.installSnapshot (h : s.Inbox i (.installSnapshot args)) :
    ∃ r ∈ s.rpcs, r.server = i ∧ r.call = .installSnapshot args none := by
  rcases h with h | ⟨r, hr, hi, he⟩ | ⟨r, _, _, he⟩
  · cases h
  · rcases request_eq he with ⟨_, _, ⟨⟩⟩ | ⟨_, _, ⟨⟩⟩ | ⟨a, hc, ⟨⟩⟩
    exact ⟨r, hr, hi, hc⟩
  · rcases replied_eq he with ⟨_, _, _, ⟨⟩⟩ | ⟨_, _, _, ⟨⟩⟩ | ⟨_, _, _, ⟨⟩⟩

theorem Inbox.requestVoteReply (h : s.Inbox i (.requestVoteReply args rep)) :
    ∃ r ∈ s.rpcs, r.caller = i ∧ r.call = .requestVote args (some rep) := by
  rcases h with h | ⟨r, _, _, he⟩ | ⟨r, hr, hi, he⟩
  · cases h
  · rcases request_eq he with ⟨_, _, ⟨⟩⟩ | ⟨_, _, ⟨⟩⟩ | ⟨_, _, ⟨⟩⟩
  · rcases replied_eq he with ⟨_, _, hc, ⟨⟩⟩ | ⟨_, _, _, ⟨⟩⟩ | ⟨_, _, _, ⟨⟩⟩
    exact ⟨r, hr, hi, hc⟩

theorem Inbox.appendEntriesReply (h : s.Inbox i (.appendEntriesReply j args rep)) :
    ∃ r ∈ s.rpcs, r.caller = i ∧ r.server = j ∧ r.call = .appendEntries args (some rep) := by
  rcases h with h | ⟨r, _, _, he⟩ | ⟨r, hr, hi, he⟩
  · cases h
  · rcases request_eq he with ⟨_, _, ⟨⟩⟩ | ⟨_, _, ⟨⟩⟩ | ⟨_, _, ⟨⟩⟩
  · rcases replied_eq he with ⟨_, _, _, ⟨⟩⟩ | ⟨_, _, hc, ⟨⟩⟩ | ⟨_, _, _, ⟨⟩⟩
    exact ⟨r, hr, hi, rfl, hc⟩

end

/-- What a step does to the processes: at most one of them moves. -/
inductive Turn (s : Cluster n) (a : Action n) (s' : Cluster n) : Prop
  | event (i : Fin n) (ev : Event n) (p : Proc n) (hin : s.Inbox i ev)
      (ha : s.event a = some (i, ev)) (hs : (s.procs i).step s.now ev = some p)
      (hl : s.labels a = (s.procs i).labels i ev) (hp : s'.procs = assign s.procs i p)
  | restart (i : Fin n) (hl : s.labels a = [])
      (hp : s'.procs = assign s.procs i (.boot i (s.procs i).rf.persister))
  | crashIn (r : Rpc n) (hr : r ∈ s.rpcs) (ht : (s.procs r.server).rf.currentTerm < r.call.term)
      (hl : s.labels a = [.raise r.server r.call.term])
      (hp : s'.procs = assign s.procs r.server
        (.boot r.server ((s.procs r.server).rf.stepDown r.call.term).persister))
  | idle (hl : s.labels a = []) (hp : s'.procs = s.procs)

theorem Move.turn {s : Cluster n} (h : Move s a s') : Turn s a s' := by
  cases h with
  | act i ev p hl hp hs => exact .event _ _ _ (.inl hl) rfl hs (if_neg (Bool.eq_false_iff.1 hp)) rfl
  | panic i ev hp => exact .restart _ (if_pos hp) rfl
  | handle k r ev p hr he hs =>
    refine .event _ _ _ (.inr (.inl ⟨_, List.mem_of_getElem? hr, rfl, he⟩)) ?_ hs ?_ rfl
    · simp only [event, hr, he, Option.bind_some, Option.map_some]
    · simp only [labels, hr, he, Option.map_some, Option.getD_some]
  | reply k r ev p hr he hs =>
    refine .event _ _ _ (.inr (.inr ⟨_, List.mem_of_getElem? hr, rfl, he⟩)) ?_ hs ?_ rfl
    · simp only [event, hr, he, Option.bind_some, Option.map_some]
    · simp only [labels, hr, he, Option.map_some, Option.getD_some]
  | drop => exact .idle rfl rfl
  | crash => exact .restart _ rfl rfl
  | crashIn k r ev hr he =>
    by_cases ht : (s.procs r.server).rf.currentTerm < r.call.term
    · have hc : (s.procs r.server).rf.catchUp r.call.term =
          (s.procs r.server).rf.stepDown r.call.term := if_pos ht
      refine .crashIn _ (List.mem_of_getElem? hr) ht ?_ ?_
      · simp only [labels, hr, hc]
        exact if_pos ht
      · rw [← hc]
        rfl
    · have hc : (s.procs r.server).rf.catchUp r.call.term = (s.procs r.server).rf := if_neg ht
      refine .restart r.server ?_ ?_
      · simp only [labels, hr, hc]
        exact if_neg (Nat.lt_irrefl _)
      · conv_rhs => rw [← hc]
        rfl
  | crashStart i command => exact .restart i rfl rfl

theorem orphan_eq {r r' : Rpc n} (h : r.orphan i = some r') :
    r'.caller = r.caller ∧ r'.server = r.server ∧ r'.call = r.call ∧ r'.sentAt = r.sentAt := by
  unfold Rpc.orphan at h
  split at h
  · cases h
    exact ⟨rfl, rfl, rfl, rfl⟩
  · split at h
    · cases h
      exact ⟨rfl, rfl, rfl, rfl⟩
    · cases h

/-- Where a call in flight after a step comes from. -/
inductive Origin (s : Cluster n) (a : Action n) (r : Rpc n) : Prop
  | old (r₀ : Rpc n) (hr : r₀ ∈ s.rpcs) (hc : r.caller = r₀.caller) (hs : r.server = r₀.server)
      (hcall : r.call = r₀.call) (hat : r.sentAt = r₀.sentAt)
  | new (ev : Event n) (p : Proc n) (hin : s.Inbox r.caller ev) (ha : a = .act r.caller ev)
      (hs : (s.procs r.caller).step s.now ev = some p)
      (hl : s.labels a = (s.procs r.caller).labels r.caller ev)
      (hc : (r.server, r.call) ∈ (s.procs r.caller).calls ev) (hat : r.sentAt = s.now)
  | torn (ev : Event n) (m : Send n) (hin : s.Inbox r.caller ev)
      (hd : s.during a = some (r.caller, ev)) (hm : m ∈ (s.procs r.caller).torn ev)
      (hs : r.server = m.server) (hcall : r.call = .appendEntries m.args none)
      (hat : r.sentAt = s.now)
  | answered (k : Nat) (r₀ : Rpc n) (ev : Event n) (p : Proc n) (ha : a = .handle k)
      (hk : s.rpcs[k]? = some r₀) (he : r₀.call.request = some ev)
      (hs : (s.procs r₀.server).step s.now ev = some p)
      (hl : s.labels a = (s.procs r₀.server).labels r₀.server ev)
      (heq : r = { r₀ with call := r₀.call.answered (s.procs r₀.server) })

theorem Move.origin {s : Cluster n} (h : Move s a s') (hr : r ∈ s'.rpcs) : Origin s a r := by
  have hcrash (i : Fin n) (hr : r ∈ s.rpcs.filterMap (Rpc.orphan i)) : Origin s a r := by
    obtain ⟨r₀, hr₀, ho⟩ := List.mem_filterMap.1 hr
    obtain ⟨hc, hs, hcall, hat⟩ := orphan_eq ho
    exact .old r₀ hr₀ hc hs hcall hat
  have hamid {e : Option (RaftState n)} (i : Fin n) (ev : Event n) (hin : s.Inbox i ev)
      (hd : s.during a = some (i, ev)) (hr : r ∈ (s.crashAmid i ev e).rpcs) : Origin s a r := by
    obtain ⟨r₀, hr₀, ho⟩ := List.mem_filterMap.1 hr
    obtain ⟨hc, hs, hcall, hat⟩ := orphan_eq ho
    rcases List.mem_append.1 hr₀ with hr₀ | hr₀
    · exact .old r₀ hr₀ hc hs hcall hat
    · obtain ⟨m, hm, rfl⟩ := List.mem_map.1 hr₀
      have hi : r.caller = i := hc
      exact .torn ev m (hi ▸ hin) (hi ▸ hd) (hi ▸ hm) hs hcall hat
  have hold (hr : r ∈ s.rpcs) : Origin s a r := .old r hr rfl rfl rfl rfl
  cases h with
  | act i ev p hl hp hs =>
    rcases List.mem_append.1 hr with hr | hr
    · exact hold hr
    · obtain ⟨c, hc, rfl⟩ := List.mem_map.1 hr
      exact .new _ _ (.inl hl) rfl hs (if_neg (Bool.eq_false_iff.1 hp)) hc rfl
  | panic => exact hcrash _ hr
  | handle k r₀ ev p hk he hs =>
    simp only at hr
    split at hr
    · rcases List.mem_or_eq_of_mem_set hr with hr | rfl
      · exact hold hr
      · refine .answered _ _ _ _ rfl hk he hs ?_ rfl
        simp only [labels, hk, he, Option.map_some, Option.getD_some]
    · exact hold (List.mem_of_mem_eraseIdx hr)
  | reply => exact hold (List.mem_of_mem_eraseIdx hr)
  | drop => exact hold (List.mem_of_mem_eraseIdx hr)
  | crash => exact hcrash _ hr
  | crashIn k r₀ ev hk he =>
    refine hamid _ _ (.inr (.inl ⟨r₀, List.mem_of_getElem? hk, rfl, he⟩)) ?_ hr
    simp only [during, hk, he, Option.bind_some, Option.map_some]
  | crashStart => exact hamid _ _ (.inl rfl) rfl hr

/-- Node `i` has a call to `j`: it is in flight, or its goroutine has still to marshal it. -/
inductive Carries (s : Cluster n) (i j : Fin n) (call : Call n) : Prop
  | rpc (r : Rpc n) (hr : r ∈ s.rpcs) (hi : r.caller = i) (hj : r.server = j) (hc : r.call = call)
  | send (m : Send n) (hm : m ∈ (s.procs i).sends) (hj : m.server = j)
      (hc : .appendEntries m.args none = call)

theorem not_carries_init (h : (init n).Carries i j call) : False := by
  cases h with
  | rpc r hr => cases hr
  | send m hm => cases hm

/-- Where a call comes from. -/
inductive Source (s : Cluster n) (a : Action n) (i j : Fin n) (call : Call n) : Prop
  | old (h : s.Carries i j call)
  | reread (m : Send n) (ev : Event n) (rf : Raft n) (hm : m ∈ (s.procs i).sends)
      (hj : m.server = j) (hin : s.Inbox i ev) (hd : s.during a = some (i, ev))
      (hw : (s.procs i).writes ev = some rf) (hlog : rf.log ≠ (s.procs i).rf.log)
      (hc : call = .appendEntries (m.reread rf).args none)
  | new (ev : Event n) (p : Proc n) (hin : s.Inbox i ev) (ha : s.event a = some (i, ev))
      (hs : (s.procs i).step s.now ev = some p) (hl : s.labels a = (s.procs i).labels i ev)
      (hc : (s.procs i).Makes ev j call)
  | answered (r : Rpc n) (ev : Event n) (p : Proc n) (hr : r ∈ s.rpcs) (hi : r.caller = i)
      (hj : r.server = j) (he : r.call.request = some ev)
      (hs : (s.procs j).step s.now ev = some p) (hl : s.labels a = (s.procs j).labels j ev)
      (hc : call = r.call.answered (s.procs j))

/-- A step of a process keeps its requests, writes to them, or makes new ones. -/
theorem Move.source_send {s : Cluster n} (h : Move s a s') (hm : m ∈ (s'.procs i).sends) :
    Source s a i m.server (.appendEntries m.args none) := by
  have hboot {e : Option (RaftState n)} (hm : m ∈ (Proc.boot i e).sends) :
      Source s a i m.server (.appendEntries m.args none) := nomatch hm
  have hold (hm : m ∈ (s.procs i).sends) : Source s a i m.server (.appendEntries m.args none) :=
    .old (.send m hm rfl rfl)
  cases h.turn with
  | event j ev p hin ha hs hl hp =>
    by_cases hij : i = j
    · subst hij
      rw [hp, assign_self] at hm
      cases Proc.step_sends hs hm with
      | kept m₀ hm₀ hserver hargs _ => exact .old (.send m₀ hm₀ hserver.symm (by rw [hargs]))
      | reread m₀ hm₀ hw hlog he =>
        subst he
        exact .reread m₀ ev _ hm₀ rfl hin (during_event ha) hw hlog rfl
      | new hev hc hcall => exact .new ev p hin ha hs hl (.inr ⟨hev, hcall⟩)
    · rw [hp, assign_ne _ _ hij] at hm
      exact hold hm
  | restart j hl hp =>
    rw [hp] at hm
    by_cases hij : i = j
    · subst hij
      rw [assign_self] at hm
      exact hboot hm
    · rw [assign_ne _ _ hij] at hm
      exact hold hm
  | crashIn r hr ht hl hp =>
    rw [hp] at hm
    by_cases hij : i = r.server
    · subst hij
      rw [assign_self] at hm
      exact hboot hm
    · rw [assign_ne _ _ hij] at hm
      exact hold hm
  | idle hl hp =>
    rw [hp] at hm
    exact hold hm

theorem Move.source {s : Cluster n} (h : Move s a s') (hc : s'.Carries i j call) :
    Source s a i j call := by
  cases hc with
  | send m hm hj hc =>
    subst hj
    subst hc
    exact h.source_send hm
  | rpc r hr hi hj hc =>
    subst hi
    subst hj
    subst hc
    cases h.origin hr with
    | old r₀ hr₀ hc hs hcall hat => exact .old (.rpc r₀ hr₀ hc.symm hs.symm hcall.symm)
    | new ev p hin ha hs hl hc hat =>
      have hev : s.event a = some (r.caller, ev) := by rw [ha]; rfl
      obtain hv | ⟨he, args, -, hcall⟩ | ⟨k, m, -, hm, hserver, hcall⟩ := Proc.mem_calls hc
      · exact .new ev p hin hev hs hl (.inl hv)
      · exact .new ev p hin hev hs hl (.inr ⟨he, hcall⟩)
      · exact .old (.send m hm hserver hcall.symm)
    | torn ev m hin hd hm hs hcall hat =>
      obtain ⟨rf, hw, hlog, m₀, hm₀, rfl⟩ := Proc.mem_torn hm
      exact .reread m₀ ev rf hm₀ hs.symm hin hd hw hlog hcall
    | answered k r₀ ev p ha hk he hs hl heq =>
      subst heq
      exact .answered r₀ ev p (List.mem_of_getElem? hk) rfl rfl he hs hl rfl

end Cluster

/-- A one-node cluster starts with a leader of term 0. -/
def Record.start (n : Nat) : Record n :=
  if n ≤ 1 then
    Ledger.empty.effects ((List.finRange n).flatMap fun i => [.campaign i 0, .win i 0])
  else .empty

/-- The states of runs whose steps all satisfy `ok`, with the record of the run. -/
inductive Cluster.Traced (ok : Cluster n → Action n → Prop) : Cluster n → Record n → Prop
  | init : Traced ok (init n) (.start n)
  | step : Traced ok s g → ok s a → s.step a = some s' → Traced ok s' (g.effects (s.labels a))

theorem Cluster.ReachableBy.traced {s : Cluster n} (h : ReachableBy ok s) :
    ∃ g, Traced ok s g := by
  induction h with
  | init => exact ⟨_, .init⟩
  | step _ ha hs ih =>
    obtain ⟨g, hg⟩ := ih
    exact ⟨_, .step hg ha hs⟩

theorem raised_eq_nil {rf rf' : Raft n} (h : rf'.currentTerm ≤ rf.currentTerm) :
    rf.raised i rf' = [] := if_neg (Nat.not_lt.2 h)

theorem raised_of {rf rf' : Raft n} (hl : l ∈ rf.raised i rf') : l.Of i := by
  unfold Raft.raised at hl
  split at hl
  · cases List.mem_singleton.1 hl
    rfl
  · cases hl

theorem committed_of {rf rf' : Raft n} (hl : l ∈ rf.committed i rf') : l.Of i := by
  unfold Raft.committed at hl
  split at hl
  · simp only [List.mem_cons, List.not_mem_nil, or_false] at hl
    rcases hl with rfl | rfl
    · rfl
    · trivial
  · cases hl

theorem appended_of {args : AppendEntriesArgs n} (hl : l ∈ Raft.appended i args) : l.Of i := by
  simp only [Raft.appended, List.mem_append, List.mem_singleton] at hl
  rcases hl with hl | rfl
  · split at hl
    · cases hl
    · cases List.mem_singleton.1 hl
      rfl
  · rfl

/-- A handler first takes the term of its message. -/
theorem raised_append_of {rf rf' : Raft n} {c : Prop} [Decidable c]
    (hl : l ∈ rf.raised i rf' ++ if c then ls else []) (hls : ∀ l ∈ ls, l.Of i) : l.Of i := by
  rcases List.mem_append.1 hl with hl | hl
  · exact raised_of hl
  · split at hl
    · exact hls l hl
    · cases hl

theorem Proc.labels_of {p : Proc n} (hl : l ∈ p.labels i ev) : l.Of i := by
  cases ev with
  | startElection =>
    cases List.mem_singleton.1 hl
    rfl
  | soloLeader =>
    cases List.mem_singleton.1 hl
    rfl
  | logUpdate => exact committed_of hl
  | replicate server => exact committed_of hl
  | start command =>
    simp only [labels] at hl
    split at hl
    · rcases List.mem_cons.1 hl with rfl | hl
      · rfl
      · exact committed_of hl
    · cases hl
  | requestVote args => exact raised_append_of hl (List.forall_mem_singleton.2 rfl)
  | appendEntries args => exact raised_append_of hl fun _ => appended_of
  | installSnapshot args => exact raised_append_of hl (List.forall_mem_singleton.2 rfl)
  | requestVoteReply args reply => exact raised_append_of hl (List.forall_mem_singleton.2 rfl)
  | appendEntriesReply server args reply => exact raised_of hl
  | installSnapshotReply server args reply => exact raised_of hl
  | _ => cases hl

end LinKV

import LinKV.Raft.Safety
import LinKV.Consensus.Possible
import Mathlib.Data.Fintype.EquivFin
import Mathlib.Data.Fintype.Lattice
import Mathlib.Data.Prod.Lex

namespace LinKV
set_option autoImplicit true

open Consensus Ledger

/-- The step restarts no process. -/
def Action.crashFree : Action n → Bool
  | .crashIn _ | .crashStart _ _ | .crash _ => false
  | _ => true

/-- A step that restarts no process and whose request, if it is one, fits. -/
def Cluster.Calm (s : Cluster n) (a : Action n) : Prop := a.crashFree = true ∧ s.Fits a

/-- The vote requests of an election, one for each server. -/
def Cluster.Polling (s : Cluster n) (i : Fin n) (args : RequestVoteArgs n) (js : List (Fin n)) :
    Prop :=
  ∃ t, s.rpcs = js.map fun j => ⟨i, j, .requestVote args none, true, t⟩

def peers (i : Fin n) : List (Fin n) := (List.finRange n).filter (· ≠ i)

namespace Cluster

section

variable {s s' : Cluster n} {ok : Cluster n → Action n → Prop} {Q : Cluster n → Prop}

theorem can_act (i : Fin n) (ev : Event n) {p : Proc n} (hok : ok s (.act i ev))
    (hl : ev.isLocal = true) (hp : (s.procs i).panics ev = false)
    (hs : (s.procs i).step s.now ev = some p)
    (h : ∀ s' : Cluster n, s'.procs = assign s.procs i p →
      s'.rpcs = s.rpcs ++ ((s.procs i).calls ev).map (fun c => ⟨i, c.1, c.2, true, s.now⟩) →
      Can step ok Q s') : Can step ok Q s := by
  obtain ⟨s', hstep, hprocs, hrpcs⟩ : ∃ s', s.step (.act i ev) = some s' ∧
      s'.procs = assign s.procs i p ∧ s'.rpcs = s.rpcs ++
        ((s.procs i).calls ev).map (fun c => ⟨i, c.1, c.2, true, s.now⟩) := by
    simp only [step, act, hl, hp, hs, Bool.true_eq_false, Bool.false_eq_true, ↓reduceIte,
      Option.map_some, Option.some.injEq, exists_eq_left', and_self]
  exact .act _ hok hstep (h s' hprocs hrpcs)

theorem can_handle {r : Rpc n} {ev : Event n} {p : Proc n} (hok : ok s (.handle 0))
    (hr : s.rpcs = r :: rest) (ha : r.alive = true) (he : r.call.request = some ev)
    (hs : (s.procs r.server).step s.now ev = some p)
    (h : ∀ s' : Cluster n, s'.procs = assign s.procs r.server p →
      s'.rpcs = { r with call := r.call.answered (s.procs r.server) } :: rest →
      Can step ok Q s') : Can step ok Q s := by
  obtain ⟨s', hstep, hprocs, hrpcs⟩ : ∃ s', s.step (.handle 0) = some s' ∧
      s'.procs = assign s.procs r.server p ∧
      s'.rpcs = { r with call := r.call.answered (s.procs r.server) } :: rest := by
    simp only [step, handle, hr, List.getElem?_cons_zero, he, hs, ha, ↓reduceIte,
      List.set_cons_zero, Option.map_some, Option.some.injEq, exists_eq_left', and_self]
  exact .act _ hok hstep (h s' hprocs hrpcs)

theorem can_reply {r : Rpc n} {ev : Event n} {p : Proc n} (hok : ok s (.reply 0))
    (hr : s.rpcs = r :: rest) (he : r.call.replied r.server = some ev)
    (hs : (s.procs r.caller).step s.now ev = some p)
    (h : ∀ s' : Cluster n, s'.procs = assign s.procs r.caller p → s'.rpcs = rest →
      Can step ok Q s') : Can step ok Q s := by
  obtain ⟨s', hstep, hprocs, hrpcs⟩ : ∃ s', s.step (.reply 0) = some s' ∧
      s'.procs = assign s.procs r.caller p ∧ s'.rpcs = rest := by
    simp only [step, reply, hr, List.getElem?_cons_zero, he, hs, List.eraseIdx_cons_zero,
      Option.map_some, Option.some.injEq, exists_eq_left', and_self]
  exact .act _ hok hstep (h s' hprocs hrpcs)

theorem can_drop (hok : ok s (.drop 0)) (hr : s.rpcs = r :: rest)
    (h : ∀ s' : Cluster n, s'.procs = s.procs → s'.rpcs = rest → Can step ok Q s') :
    Can step ok Q s := by
  obtain ⟨s', hstep, hprocs, hrpcs⟩ : ∃ s', s.step (.drop 0) = some s' ∧
      s'.procs = s.procs ∧ s'.rpcs = rest := by
    simp only [step, hr, List.length_cons, Nat.zero_lt_succ, ↓reduceIte, List.eraseIdx_cons_zero,
      Option.some.injEq, exists_eq_left', and_self]
  exact .act _ hok hstep (h s' hprocs hrpcs)

end

section

variable {s s' : Cluster n} {Q : Cluster n → Prop}

theorem calm_drop (s : Cluster n) (k : Nat) : s.Calm (.drop k) := ⟨rfl, trivial, trivial⟩

theorem calm_handle (hr : s.rpcs = r :: rest) (hc : r.call = .requestVote args none) :
    s.Calm (.handle 0) := by
  have he : s.event (.handle 0) = some (r.server, .requestVote args) := by
    simp only [event, hr, List.getElem?_cons_zero, hc, Call.request, Option.bind_some,
      Option.map_some]
  refine ⟨rfl, ?_, ?_⟩
  · rw [Meets, he]
    rfl
  · rw [Settled, Within, during_event he]
    rfl

theorem calm_reply (hr : s.rpcs = r :: rest) (hc : r.call = .requestVote args (some rep)) :
    s.Calm (.reply 0) := by
  have he : s.event (.reply 0) = some (r.caller, .requestVoteReply args rep) := by
    simp only [event, hr, List.getElem?_cons_zero, hc, Call.replied, Option.bind_some,
      Option.map_some]
  refine ⟨rfl, ?_, ?_⟩
  · rw [Meets, he]
    rfl
  · rw [Settled, Within, during_event he]
    rfl

end

end Cluster

namespace Raft

section

variable {rf : Raft n} {args : RequestVoteArgs n}

theorem requestVote_later (ht : rf.currentTerm < args.term) :
    (rf.requestVote args).1.currentTerm = args.term ∧
      (rf.requestVote args).1.state = .follower ∧
      (rf.upToDate args = true → (rf.requestVote args).2 = ⟨args.term, true⟩) := by
  have hdown : rf.catchUp args.term = rf.stepDown args.term := if_pos ht
  have hup : (rf.stepDown args.term).upToDate args = rf.upToDate args := rfl
  unfold requestVote
  rw [if_neg (Nat.not_lt.2 (Nat.le_of_lt ht))]
  simp only [hdown, hup]
  split
  · exact ⟨rfl, rfl, fun _ => rfl⟩
  · next hno => exact ⟨rfl, rfl, fun hu => absurd ⟨.inl rfl, hu⟩ hno⟩

end

end Raft

section

variable {s s' : Cluster n} {i j : Fin n} {args : RequestVoteArgs n} {js : List (Fin n)}

namespace Cluster

end Cluster

/-- The nodes that have not had the vote request yet are in earlier terms, and the others do not
lead. -/
structure Deposing (i : Fin n) (args : RequestVoteArgs n) (js : List (Fin n)) (s : Cluster n) :
    Prop where
  polling : s.Polling i args js
  nodup : js.Nodup
  later : ∀ k ∈ js, (s.procs k).rf.currentTerm < args.term
  deposed : ∀ k, k ∉ js → (s.procs k).rf.state ≠ .leader

theorem Deposing.next (h : Deposing i args (j :: js) s) :
    Can Cluster.step Cluster.Calm (Deposing i args js) s := by
  obtain ⟨t, hr⟩ := h.polling
  obtain ⟨hj, hnd⟩ := List.nodup_cons.1 h.nodup
  rw [List.map_cons] at hr
  apply Cluster.can_handle (Cluster.calm_handle hr rfl) hr rfl rfl rfl
  intro s₁ hp₁ hr₁
  apply Cluster.can_drop (s₁.calm_drop 0) hr₁
  intro s₂ hp₂ hr₂
  have hother (k : Fin n) (hk : k ≠ j) : s₂.procs k = s.procs k := by
    rw [hp₂, hp₁, assign_ne _ _ hk]
  refine .now ⟨⟨t, hr₂⟩, hnd, fun k hk => ?_, fun k hk => ?_⟩
  · rw [hother k (fun he => hj (he ▸ hk))]
    exact h.later k (List.mem_cons_of_mem j hk)
  · by_cases hkj : k = j
    · obtain ⟨-, hst, -⟩ := Raft.requestVote_later (h.later j List.mem_cons_self)
      rw [hp₂, hp₁, hkj, assign_self]
      exact hst ▸ nofun
    · rw [hother k hkj]
      exact h.deposed k (mt List.mem_cons.1 (not_or.2 ⟨hkj, hk⟩))

/-- An election in which every node that is still to be asked will grant its vote. -/
structure Canvass (i : Fin n) (args : RequestVoteArgs n) (js : List (Fin n)) (s : Cluster n) :
    Prop where
  polling : s.Polling i args js
  nodup : js.Nodup
  other : i ∉ js
  voters : ∀ k ∈ js, (s.procs k).rf.currentTerm < args.term ∧
    (s.procs k).rf.upToDate args = true
  joined : ∀ k, k ∉ js → (s.procs k).rf.currentTerm = args.term
  tally : ((s.procs i).rf.state = .leader ∧
      ∀ k, (s.procs i).rf.nextIndex k = (s.procs i).rf.lastLogIndex + 1) ∨
    ((s.procs i).rf.state = .candidate ∧ (s.procs i).votes + js.length = n ∧
      (s.procs i).votes ≤ n / 2)

theorem Proc.requestVoteReply_granted {p : Proc n} (hc : p.rf.state = .candidate)
    (ht : p.rf.currentTerm = args.term) :
    p.requestVoteReply args ⟨args.term, true⟩ =
      if n / 2 < p.votes + 1 then { p with votes := p.votes + 1, rf := p.rf.lead }
      else { p with votes := p.votes + 1 } := by
  unfold requestVoteReply
  rw [if_neg (not_or.2 ⟨not_not.2 hc, not_not.2 ht⟩), if_neg (Nat.lt_irrefl _), if_pos ⟨rfl, rfl⟩]

theorem Proc.requestVoteReply_done {p : Proc n} (hl : p.rf.state = .leader)
    (reply : RequestVoteReply) : p.requestVoteReply args reply = p := by
  apply if_pos
  rw [hl]
  exact .inl nofun

theorem Canvass.next (h : Canvass i args (j :: js) s) :
    Can Cluster.step Cluster.Calm (Canvass i args js) s := by
  obtain ⟨t, hr⟩ := h.polling
  obtain ⟨hj, hnd⟩ := List.nodup_cons.1 h.nodup
  obtain ⟨hij, hi⟩ := not_or.1 (mt List.mem_cons.2 h.other)
  obtain ⟨hlt, hup⟩ := h.voters j List.mem_cons_self
  obtain ⟨hterm, -, hgrant⟩ := Raft.requestVote_later hlt
  rw [List.map_cons] at hr
  apply Cluster.can_handle (Cluster.calm_handle hr rfl) hr rfl rfl rfl
  intro s₁ hp₁ hr₁
  simp only [Call.answered, hgrant hup] at hr₁
  have hself : s₁.procs i = s.procs i := by rw [hp₁, assign_ne _ _ hij]
  apply Cluster.can_reply (Cluster.calm_reply hr₁ rfl) hr₁ rfl rfl
  intro s₂ hp₂ hr₂
  have hcand : s₂.procs i = (s.procs i).requestVoteReply args ⟨args.term, true⟩ := by
    rw [hp₂, assign_self, hself]
  have hvoter : (s₂.procs j).rf.currentTerm = args.term := by
    rw [hp₂, assign_ne _ _ (Ne.symm hij), hp₁, assign_self]
    exact hterm
  have hother (k : Fin n) (hki : k ≠ i) (hkj : k ≠ j) : s₂.procs k = s.procs k := by
    rw [hp₂, assign_ne _ _ hki, hp₁, assign_ne _ _ hkj]
  have hct := h.joined i h.other
  -- the candidate stays in the term of the election
  have hstay : (s₂.procs i).rf.currentTerm = args.term ∧
      (((s₂.procs i).rf.state = .leader ∧
        ∀ k, (s₂.procs i).rf.nextIndex k = (s₂.procs i).rf.lastLogIndex + 1) ∨
      ((s₂.procs i).rf.state = .candidate ∧ (s₂.procs i).votes + js.length = n ∧
        (s₂.procs i).votes ≤ n / 2)) := by
    rw [hcand]
    rcases h.tally with ⟨hl, hnext⟩ | ⟨hc, hvotes, -⟩
    · rw [Proc.requestVoteReply_done hl]
      exact ⟨hct, .inl ⟨hl, hnext⟩⟩
    · rw [Proc.requestVoteReply_granted hc hct]
      rw [List.length_cons] at hvotes
      split
      · exact ⟨hct, .inl ⟨rfl, fun _ => rfl⟩⟩
      · exact ⟨hct, .inr ⟨hc, by simp only; omega, by simp only; omega⟩⟩
  refine .now ⟨⟨t, hr₂⟩, hnd, hi, fun k hk => ?_, fun k hk => ?_, hstay.2⟩
  · rw [hother k (fun he => hi (he ▸ hk)) (fun he => hj (he ▸ hk))]
    exact h.voters k (List.mem_cons_of_mem j hk)
  · by_cases hki : k = i
    · rw [hki]
      exact hstay.1
    · by_cases hkj : k = j
      · rw [hkj]
        exact hvoter
      · rw [hother k hki hkj]
        exact h.joined k (mt List.mem_cons.1 (not_or.2 ⟨hkj, hk⟩))

namespace Cluster

end Cluster

end

end LinKV

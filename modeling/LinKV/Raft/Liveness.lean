import LinKV.Raft.Canvass
import LinKV.Raft.Durability
import LinKV.Raft.Rounds

namespace LinKV
set_option autoImplicit true

open Consensus Ledger

section

variable {g g' : Record n} {s s' : Cluster n} {p : Proc n} {i j : Fin n}

/-- A request that fits reaches what the node has committed. -/
theorem Counted.keepsCommitted (hc : Counted g i p.rf) (hl : NodeLog g i p.rf)
    (hn : NodeSim g i p.rf) (hcomplete : Complete g) (hev : EventLog g i ev)
    (hfit : p.fits ev = true) : p.keepsCommitted ev = true := by
  cases ev with
  | appendEntries args =>
    obtain ⟨⟨c, -, hleads⟩, hw⟩ := hev
    simp only [Proc.keepsCommitted, Bool.or_eq_true, Bool.not_eq_true', decide_eq_true_eq]
    by_cases hacc : p.rf.accepts args = true
    · by_cases he : args.entries = []
      · exact .inl (.inr he)
      · have hterm : g.term i ≤ args.term := by
          simp only [Raft.accepts, Bool.and_eq_true, decide_eq_true_eq] at hacc
          rw [hn.term]
          exact hacc.1.1.1
        have hpre := hc.decided.prefix_glog hcomplete hleads hterm
        have htake := List.prefix_iff_eq_take.1 hpre
        have hlen := hpre.length_le
        rw [List.length_take_of_le hc.le] at htake hlen
        have hkeeps := hl.append_keeps hw hacc hfit he p.rf.commitIndex hlen
        exact .inr (hkeeps (htake ▸ List.take_prefix _ _))
    · exact .inl (.inl (Bool.eq_false_iff.2 hacc))
  | _ => rfl

theorem Cluster.Traced.keepsCommitted (h : Traced Fits s g) :
    s.ReachableBy (Meets fun p ev => p.keepsCommitted ev = true) := by
  induction h with
  | init => exact .init
  | @step s g a s' ht ha hs ih =>
    refine .step ih ?_ hs
    have ha := ha.1
    cases step_move hs with
    | act i ev p hl =>
      cases ev with
      | appendEntries args => cases hl
      | _ => rfl
    | panic i ev hp =>
      cases ev with
      | appendEntries args => cases hp
      | _ => rfl
    | handle k r ev p hr he =>
      have hev : s.event (.handle k) = some (r.server, ev) := by
        simp only [event, hr, he, Option.bind_some, Option.map_some]
      rw [meets_iff hev] at ha ⊢
      have hin := ht.fit_logs.event ht.elects (.inr (.inl ⟨r, List.mem_of_getElem? hr, rfl, he⟩))
      exact (ht.commits.node r.server).keepsCommitted (ht.fit_logs.node r.server)
        (ht.elects.node r.server) ht.commits.complete hin ha
    | reply k r ev p hr he =>
      have hev : s.event (.reply k) = some (r.caller, ev) := by
        simp only [event, hr, he, Option.bind_some, Option.map_some]
      rw [meets_iff hev]
      rcases replied_eq he with ⟨_, _, _, rfl⟩ | ⟨_, _, _, rfl⟩ | ⟨_, _, _, rfl⟩ <;> rfl
    | drop => trivial
    | crash => trivial
    | crashIn => trivial
    | crashStart => trivial

/-- What a node has committed is in the log of every leader of a later or the same term. -/
theorem Cluster.Traced.committed_prefix (hc : Counted g j rf) (hext : Extends g g')
    (h : Traced Fits s' g')
    (hl : (s'.procs i).rf.state = .leader) (ht : g.term j ≤ (s'.procs i).rf.currentTerm) :
    (g.log j).take rf.commitIndex <+: g'.log i := by
  have hsim := h.elects.node i
  have hleads := hsim.leader hl
  rw [h.fit_logs.matching.leader_log i _ hleads hsim.term]
  exact (hc.decided.extends hext).prefix_glog h.commits.complete hleads ht

theorem Cluster.Traced.committed_le (hc : Counted g j rf) (hext : Extends g g')
    (h : Traced Fits s' g')
    (hl : (s'.procs i).rf.state = .leader) (ht : g.term j ≤ (s'.procs i).rf.currentTerm) :
    rf.commitIndex ≤ (s'.procs i).rf.lastLogIndex := by
  have hle := (h.committed_prefix hc hext hl ht).length_le
  rw [List.length_take_of_le hc.le] at hle
  rw [(h.fit_logs.node i).rep.lastLogIndex]
  exact hle

theorem Cluster.Traced.behind (h : Traced Fits s g)
    (hw : ∀ i, (s.procs i).rf.WellFormed) (hl : (s.procs i).rf.state = .leader) (hj : j ≠ i)
    (ht : (s.procs j).rf.currentTerm = (s.procs i).rf.currentTerm)
    (hnext : (s.procs i).rf.nextIndex j ≤ (s.procs i).rf.lastLogIndex + 1) :
    Raft.Behind j (s.procs i).rf (s.procs j).rf := by
  have hcount := (h.commits.node j).toCounted
  have hterm : g.term j ≤ (s.procs i).rf.currentTerm := by
    rw [(h.elects.node j).term]
    exact Nat.le_of_eq ht
  have hpre := h.committed_prefix hcount (.refl g) hl hterm
  have hlen := List.length_take_of_le hcount.le
  refine ⟨hl, ?_, ht, hw i, hw j, ?_, fun hle => ?_, hnext⟩
  · rw [(h.elects.node i).me]
    exact hj
  · exact Nat.le_trans hcount.li_le (h.committed_le hcount (.refl g) hl hterm)
  · have hli := hcount.li_le
    rw [Raft.entryTerm, (h.fit_logs.node i).rep.termOf hle, (h.fit_logs.node j).rep.lastTerm,
      termAt_of_isPrefix hpre (by omega), termAt_take hli hcount.le]

end

namespace Raft

/-- Index `k` is committed with command `c`, and it is still to be applied. -/
structure Due (rf : Raft n) (k : Nat) (c : Bytes) : Prop where
  compacted : rf.lastIncludeIndex ≤ rf.lastApplied
  applied : rf.lastApplied < k
  committed : k ≤ rf.commitIndex
  entry : k ≤ rf.lastLogIndex
  command : rf.entryCommand k = some c

structure Started (rf : Raft n) (c : Bytes) (rf' : Raft n) : Prop where
  state : rf'.state = .leader
  currentTerm : rf'.currentTerm = rf.currentTerm
  nextIndex : rf'.nextIndex = rf.nextIndex
  lastApplied : rf'.lastApplied = rf.lastApplied
  lastIncludeIndex : rf'.lastIncludeIndex = rf.lastIncludeIndex
  lastLogIndex : rf'.lastLogIndex = rf.lastLogIndex + 1
  commitIndex : rf'.commitIndex = if n ≤ 1 then rf.lastLogIndex + 1 else rf.commitIndex
  entryTerm : rf'.entryTerm rf'.lastLogIndex = rf.currentTerm
  entryCommand : rf'.entryCommand rf'.lastLogIndex = some c

section

variable {rf l f : Raft n}

theorem WellFormed.started (hw : rf.WellFormed) (hl : rf.state = .leader) (c : Bytes) :
    Started rf c (rf.start c) := by
  have hlen := hw.length
  have he : rf.start c = persist { rf with
      log := rf.log ++ [⟨rf.currentTerm, c, rf.lastLogIndex + 1⟩]
      commitIndex := if n ≤ 1 then rf.lastLogIndex + 1 else rf.commitIndex } :=
    if_neg (not_not.2 hl)
  have hlast : (rf.start c).lastLogIndex = rf.lastLogIndex + 1 := by
    rw [he]
    simp only [Raft.lastLogIndex, persist, List.length_append, List.length_singleton] at hlen ⊢
    omega
  have hslot : (rf.start c).log[(rf.start c).lastLogIndex - (rf.start c).lastIncludeIndex]? =
      some ⟨rf.currentTerm, c, rf.lastLogIndex + 1⟩ := by
    have hsub : (rf.start c).lastLogIndex - (rf.start c).lastIncludeIndex = rf.log.length := by
      have hli : (rf.start c).lastIncludeIndex = rf.lastIncludeIndex := by rw [he]; rfl
      omega
    rw [hsub, he]
    exact List.getElem?_concat_length
  constructor
  · rw [he]
    exact hl
  · rw [he]
    rfl
  · rw [he]
    rfl
  · rw [he]
    rfl
  · rw [he]
    rfl
  · exact hlast
  · rw [he]
    rfl
  · rw [Raft.entryTerm, termOf, hslot]
    rfl
  · rw [Raft.entryCommand, hslot]
    rfl

theorem Ready.command (h : Ready l f) (hw : f.WellFormed) (hc : Caught j l f) :
    f.entryCommand l.lastLogIndex = l.entryCommand l.lastLogIndex := by
  have hlen := hw.length
  obtain ⟨hle, hle'⟩ := hc.has
  obtain ⟨e, he⟩ : ∃ e, f.log[l.lastLogIndex - f.lastIncludeIndex]? = some e := by
    refine ⟨_, List.getElem?_eq_getElem ?_⟩
    omega
  have hterm := hc.term
  rw [Raft.entryTerm, termOf, he] at hterm
  rw [h.agrees e he hterm, Raft.entryCommand, he]
  rfl

end

end Raft

/-- Node `i` leads with a last entry of its own term that nobody has committed, and can catch up
every other node. -/
structure Leads (i : Fin n) (c : Bytes) (s : Cluster n) : Prop where
  quiet : s.rpcs = []
  behind : ∀ j, j ≠ i → Raft.Behind j (s.procs i).rf (s.procs j).rf
  ready : ∀ j, Raft.Ready (s.procs i).rf (s.procs j).rf
  own : (s.procs i).rf.entryTerm (s.procs i).rf.lastLogIndex = (s.procs i).rf.currentTerm
  command : (s.procs i).rf.entryCommand (s.procs i).rf.lastLogIndex = some c
  committed : (s.procs i).rf.commitIndex ≤ (s.procs i).rf.lastLogIndex
  alone : n ≤ 1 → (s.procs i).rf.commitIndex = (s.procs i).rf.lastLogIndex

section

variable {s s' : Cluster n} {i j : Fin n}

theorem Cluster.LogMatching.agrees (h : s.LogMatching) (hw : ∀ i, (s.procs i).rf.WellFormed)
    (hi : (s.procs i).rf.lastIncludeIndex < (s.procs i).rf.lastLogIndex)
    (hj : (s.procs j).rf.lastIncludeIndex < (s.procs i).rf.lastLogIndex)
    (he : (s.procs j).rf.log[(s.procs i).rf.lastLogIndex - (s.procs j).rf.lastIncludeIndex]? =
      some e)
    (hterm : e.term = (s.procs i).rf.entryTerm (s.procs i).rf.lastLogIndex) :
    (s.procs i).rf.entryCommand (s.procs i).rf.lastLogIndex = some e.command := by
  have hlt := (List.getElem?_eq_some_iff.1 he).1
  have hlen := (hw j).length
  have hhasi : (s.procs i).rf.Has (s.procs i).rf.lastLogIndex := ⟨by omega, Nat.le_refl _⟩
  have hhasj : (s.procs j).rf.Has (s.procs i).rf.lastLogIndex := ⟨by omega, by omega⟩
  have hterms : (s.procs i).rf.entryTerm (s.procs i).rf.lastLogIndex =
      (s.procs j).rf.entryTerm (s.procs i).rf.lastLogIndex := by
    rw [← hterm]
    unfold Raft.entryTerm termOf
    rw [he]
    rfl
  obtain ⟨-, hcmd⟩ := h.agree i j _ hhasi hhasj hterms _ (Nat.le_refl _) hhasi hhasj
  rw [hcmd hi hj, Raft.entryCommand, he]
  rfl

end

section

variable {s s' : Cluster n} {i j : Fin n} {l l' f' : Raft n} {fs fs' : Fin n → Raft n}
  {js : List (Fin n)}

end

/-- The messages of a process in the order in which its apply loop takes them, those it is done
with first. -/
def Proc.stream (p : Proc n) : List ApplyMsg :=
  p.processed ++ p.inHand.toList ++ p.applyCh ++ p.batch

namespace Raft

section

variable {rf : Raft n}

theorem mem_collectFrom (hli : rf.lastIncludeIndex ≤ a) (ha : a < k) (hk : k ≤ a + fuel)
    (hc : k ≤ rf.commitIndex) (hlast : k ≤ rf.lastLogIndex) (hcmd : rf.entryCommand k = some c) :
    .command k c ∈ (rf.collectFrom fuel a).2 := by
  induction fuel generalizing a with
  | zero => omega
  | succ fuel ih =>
    unfold collectFrom
    rw [if_pos (by omega), if_neg (by omega)]
    have hlt : a + 1 - rf.lastIncludeIndex < rf.log.length := by
      unfold Raft.lastLogIndex at hlast
      omega
    rw [List.getElem?_eq_getElem hlt]
    rcases Nat.eq_or_lt_of_le (Nat.succ_le_of_lt ha) with heq | hlt'
    · rw [← heq, Raft.entryCommand, List.getElem?_eq_getElem hlt] at hcmd
      rw [← heq, ← Option.some.inj hcmd]
      exact List.mem_cons_self
    · exact List.mem_cons_of_mem _ (ih (by omega) hlt' (by omega))

theorem Due.collected (h : rf.Due k c) : .command k c ∈ rf.applier.2 := by
  have happlied := h.applied
  have hcommit := h.committed
  rw [applier, if_neg (Nat.not_lt.2 h.compacted)]
  exact mem_collectFrom h.compacted happlied (by omega) hcommit h.entry h.command

end

end Raft

section

variable {s s' : Cluster n} {i j : Fin n}

/-- Only process `j` has moved, within its pipeline. -/
structure Piped (j : Fin n) (s s' : Cluster n) : Prop where
  raft : (s'.procs j).rf = (s.procs j).rf
  stream : (s'.procs j).stream = (s.procs j).stream
  others : ∀ k, k ≠ j → s'.procs k = s.procs k

/-- How much is left to do in the pipeline of a process. -/
def Proc.backlog (p : Proc n) : Nat :=
  3 * p.batch.length + 2 * p.applyCh.length + p.inHand.toList.length

theorem Piped.next (h : Piped j s s') (hb : (s'.procs j).backlog ≠ 0) :
    Can Cluster.step (fun _ a => a.crashFree = true)
      (fun t => Piped j s t ∧ (t.procs j).backlog < (s'.procs j).backlog) s' := by
  have hmove (ev : Event n) (p : Proc n) (hl : ev.isLocal = true)
      (hp : (s'.procs j).panics ev = false) (hs : (s'.procs j).step s'.now ev = some p)
      (hrf : p.rf = (s'.procs j).rf) (hstream : p.stream = (s'.procs j).stream)
      (hlt : p.backlog < (s'.procs j).backlog) :
      Can Cluster.step (fun _ a => a.crashFree = true)
        (fun t => Piped j s t ∧ (t.procs j).backlog < (s'.procs j).backlog) s' := by
    apply Cluster.can_act j ev rfl hl hp hs
    intro t ht _
    have hself : t.procs j = p := by rw [ht, assign_self]
    refine .now ⟨⟨?_, ?_, fun k hk => ?_⟩, ?_⟩
    · rw [hself, hrf, h.raft]
    · rw [hself, hstream, h.stream]
    · rw [ht, assign_ne _ _ hk, h.others k hk]
    · rw [hself]
      exact hlt
  cases hi : (s'.procs j).inHand with
  | some m =>
    apply hmove (.finish none) { s'.procs j with
      inHand := none, processed := (s'.procs j).processed ++ [m] } rfl rfl
    · simp only [Proc.step, Proc.finish, hi]
    · rfl
    · simp only [Proc.stream, hi, Option.toList_some, Option.toList_none, List.append_nil]
    · simp only [Proc.backlog, hi, Option.toList_some, Option.toList_none, List.length_cons,
        List.length_nil]
      omega
  | none =>
    cases hc : (s'.procs j).applyCh with
    | cons m rest =>
      apply hmove .receive { s'.procs j with inHand := some m, applyCh := rest } rfl rfl
      · simp only [Proc.step, hi, hc]
      · rfl
      · simp only [Proc.stream, hi, hc, Option.toList_some, Option.toList_none, List.append_nil,
          List.append_assoc, List.cons_append, List.nil_append]
      · simp only [Proc.backlog, hi, hc, Option.toList_some, Option.toList_none, List.length_cons,
          List.length_nil]
        omega
    | nil =>
      cases hbatch : (s'.procs j).batch with
      | cons m rest =>
        apply hmove .emit { s'.procs j with batch := rest, applyCh := [m] } rfl rfl
        · simp only [Proc.step, hbatch, hc, List.length_nil, List.nil_append]
          exact if_pos (by decide)
        · rfl
        · simp only [Proc.stream, hi, hc, hbatch, Option.toList_none, List.append_nil,
            List.append_assoc, List.cons_append, List.nil_append]
        · simp only [Proc.backlog, hi, hc, hbatch, Option.toList_none, List.length_cons,
            List.length_nil]
          omega
      | nil =>
        refine absurd ?_ hb
        simp only [Proc.backlog, hi, hc, hbatch, Option.toList_none, List.length_nil]

end

end LinKV

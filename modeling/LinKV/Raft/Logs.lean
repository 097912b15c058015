import LinKV.Raft.Election
import LinKV.Raft.NodeLogs

namespace LinKV
set_option autoImplicit true

open Consensus Ledger

structure Logs (s : Cluster n) (g : Record n) : Prop where
  matching : Matching g
  node : ∀ i, NodeLog g i (s.procs i).rf
  call : ∀ i j c, s.Carries i j c → CallLog g i j c

section

variable {g g' : Record n} {s s' : Cluster n} {p p' : Proc n} {i j : Fin n}

theorem AppendWf.extends (h : AppendWf g args) (he : Extends g g') : AppendWf g' args where
  le := Nat.le_trans h.le (he.glog _).length_le
  prevTerm := by
    rw [h.prevTerm, termAt_of_isPrefix (he.glog _)]
    exact Nat.le_trans (Nat.le_add_right _ _) h.le
  entries := by
    have hle := h.le
    obtain ⟨r, hr⟩ := he.glog args.term
    rw [← hr, List.drop_append_of_le_length (by omega), List.take_append_of_le_length]
    · exact h.entries
    · rw [List.length_drop]
      omega

theorem SnapWf.extends (h : SnapWf g args) (he : Extends g g') : SnapWf g' args where
  le := Nat.le_trans h.le (he.glog _).length_le
  term := by rw [h.term, termAt_of_isPrefix (he.glog _) h.le]

theorem CallLog.extends (h : CallLog g i j call) (hc : CallSim g i j call) (he : Extends g g') :
    CallLog g' i j call := by
  cases call with
  | requestVote args reply =>
    obtain ⟨hi, ht⟩ := h
    rw [← he.camp i args.term hc.2.1] at hi ht
    exact ⟨hi, ht⟩
  | appendEntries args reply =>
    exact ⟨h.1.extends he, fun r hr hs => he.ack _ _ _ (h.2 r hr hs)⟩
  | installSnapshot args reply => exact SnapWf.extends h he

theorem NodeLog.replicate (h : NodeLog g i p.rf) (hn : NodeSim g i p.rf) (hm : Matching g)
    (hc : (p.rf.replicate j).2 = some call) : CallLog g i j call := by
  obtain ⟨hst, hcases⟩ := Raft.replicate_call hc
  have hlog := hm.leader_log i _ (hn.leader hst) hn.term
  have hlen := h.rep.length
  have hlast := h.rep.lastLogIndex
  rcases hcases with rfl | ⟨prev, hli, hlt, rfl⟩
  · refine ⟨?_, ?_⟩
    · rw [← hlog]
      exact h.rep.le
    · rw [← hlog]
      exact h.rep.lastTerm
  · have hents : (if p.rf.lastLogIndex < prev + 1 then [] else
        p.rf.log.drop (prev + 1 - p.rf.lastIncludeIndex)) =
        stamp (prev + 1) ((g.glog p.rf.currentTerm).drop prev) := by
      rw [← hlog, h.rep.drop hli]
      split
      · rw [List.drop_eq_nil_of_le (by omega)]
        rfl
      · rfl
    refine ⟨⟨?_, ?_, ?_⟩, nofun⟩
    · simp only [hents, length_stamp, List.length_drop, ← hlog]
      omega
    · simp only [← hlog]
      exact h.rep.termOf hli
    · simp only [hents, length_stamp, List.take_length]

theorem NodeLog.calls (h : NodeLog g i p.rf) (hn : NodeSim g i p.rf) (hm : Matching g)
    (he : Extends g (g.effects (p.labels i ev))) (hc : p.Makes ev j call) :
    CallLog (g.effects (p.labels i ev)) i j call := by
  obtain ⟨rfl, -, rfl⟩ | ⟨rfl, hcall⟩ := hc
  · simp only [CallLog, Proc.labels, effects_cons, effects_nil, Ledger.effect,
      Function.update_self]
    exact ⟨h.rep.lastLogIndex, h.rep.lastLogTerm⟩
  · have hlog := h.replicate hn hm hcall
    obtain ⟨hst, hcases⟩ := Raft.replicate_call hcall
    rcases hcases with rfl | ⟨prev, _, _, rfl⟩
    · exact SnapWf.extends hlog he
    · refine ⟨hlog.1.extends he, fun r hr => ?_⟩
      cases hr

theorem CallLog.answered (h : CallLog g i j call) (hc : CallSim g i j call)
    (he : Extends g (g.effects (p.labels j ev))) (hr : call.request = some ev) :
    CallLog (g.effects (p.labels j ev)) i j (call.answered p) := by
  have h' := h.extends hc he
  rcases Cluster.request_eq hr with ⟨args, rfl, rfl⟩ | ⟨args, rfl, rfl⟩ | ⟨args, rfl, rfl⟩
  · exact h'
  · refine ⟨h'.1, ?_⟩
    rintro r hr hs
    cases hr
    simp only [Proc.labels, hs, ↓reduceIte, Raft.appended, effects_append]
    exact .inl ⟨rfl, rfl, rfl⟩
  · exact h'

theorem Logs.rpc (h : Logs s g) (hr : r ∈ s.rpcs) : CallLog g r.caller r.server r.call :=
  h.call _ _ _ (.rpc r hr rfl rfl rfl)

theorem Logs.event (h : Logs s g) (he : Elects s g) (hin : s.Inbox i ev) : EventLog g i ev := by
  cases ev with
  | requestVote args =>
    obtain ⟨r, hr, rfl, hcall⟩ := hin.requestVote
    obtain ⟨hne, hsim⟩ := he.rpc hr
    have hlog := h.rpc hr
    rw [hcall] at hsim hlog
    obtain ⟨hcand, hv, _⟩ := hsim
    rw [← hcand] at hv hlog hne
    exact ⟨hne.symm, hv, hlog⟩
  | appendEntries args =>
    obtain ⟨r, hr, rfl, hcall⟩ := hin.appendEntries
    obtain ⟨hne, hsim⟩ := he.rpc hr
    have hlog := h.rpc hr
    rw [hcall] at hsim hlog
    exact ⟨⟨r.caller, hne.symm, hsim⟩, hlog.1⟩
  | installSnapshot args =>
    obtain ⟨r, hr, rfl, hcall⟩ := hin.installSnapshot
    obtain ⟨hne, hsim⟩ := he.rpc hr
    have hlog := h.rpc hr
    rw [hcall] at hsim hlog
    exact ⟨⟨r.caller, hne.symm, hsim⟩, hlog⟩
  | appendEntriesReply server args reply =>
    obtain ⟨r, hr, rfl, rfl, hcall⟩ := hin.appendEntriesReply
    have hlog := h.rpc hr
    rw [hcall] at hlog
    exact hlog.2 reply rfl
  | _ => trivial

theorem NodeLog.frame (h : NodeLog g j rf) (hl : ∀ l ∈ ls, l.Of i) (hj : j ≠ i)
    (he : Extends g (g.effects ls)) : NodeLog (g.effects ls) j rf := by
  obtain ⟨_, _, hlog, hc, hld⟩ := effects_frame (g := g) hl hj
  exact h.kept ⟨hlog, hc, hld, he.ack⟩ rfl rfl rfl (.inr ⟨rfl, rfl⟩)
    fun _ _ _ => .inl (Nat.le_refl _)

theorem Logs.turn (h : Logs s g) (he : Elects s g) (ht : Cluster.Turn s a s')
    (hfit : s.Meets (fun p ev => p.snapshotFits ev = true) a) :
    Along Ok g (s.labels a) ∧ ∀ j, NodeLog (g.effects (s.labels a)) j (s'.procs j).rf := by
  obtain ⟨hok, _⟩ := he.turn ht
  cases ht with
  | event i ev p hin ha hs hl hp =>
    rw [hl] at hok ⊢
    rw [hp]
    obtain ⟨hlog, hnode⟩ := (h.node i).step (he.node i) he.ballot h.matching (h.event he hin)
      (hfit.apply ha) (he.solo i) hok hs
    have hall := along_and hok hlog
    exact ⟨hall, assign_forall (P := fun j (p : Proc n) => NodeLog _ j p.rf) hnode
      fun j hj => (h.node j).frame (fun _ => Proc.labels_of) hj
        (h.matching.extends_effects he.ballot hall)⟩
  | restart i hl hp =>
    rw [hl, hp]
    exact ⟨trivial, assign_forall (P := fun j (p : Proc n) => NodeLog _ j p.rf)
      ((h.node i).restart (he.node i).stored) fun j _ => h.node j⟩
  | crashIn r hr hlt hl hp =>
    rw [hl] at hok ⊢
    rw [hp]
    have hdown : NodeLog (g.effect (.raise r.server r.call.term)) r.server
        ((s.procs r.server).rf.stepDown r.call.term) :=
      (h.node r.server).kept ⟨rfl, rfl, rfl, fun _ _ _ => id⟩ rfl rfl rfl (.inl rfl) nofun
    refine ⟨along_and hok ⟨trivial, trivial⟩,
      assign_forall (P := fun j (p : Proc n) => NodeLog _ j p.rf)
        (hdown.restart (Raft.stepDown_stored (he.node r.server).stored)) fun j _ => ?_⟩
    exact (h.node j).kept ⟨rfl, rfl, rfl, fun _ _ _ => id⟩ rfl rfl rfl (.inr ⟨rfl, rfl⟩)
      fun _ _ _ => .inl (Nat.le_refl _)
  | idle hl hp =>
    rw [hl, hp]
    exact ⟨trivial, h.node⟩

theorem Logs.call_step (h : Logs s g) (he : Elects s g) (hm : Cluster.Move s a s')
    (hext : Extends g (g.effects (s.labels a))) (hset : s.Settled a) (hc : s'.Carries i j c) :
    CallLog (g.effects (s.labels a)) i j c := by
  cases hm.source hc with
  | old hc => exact (h.call i j c hc).extends (he.call i j c hc).2 hext
  | reread m ev rf hmem hj _ hd hw hlog heq =>
    have hold : s.Carries i j c :=
      .send m hmem hj (by rw [heq, Proc.settled_reread (Cluster.Within.apply hset hd) hw hlog hmem])
    exact (h.call i j c hold).extends (he.call i j c hold).2 hext
  | new ev p _ _ hs hl hmakes =>
    rw [hl] at hext ⊢
    exact (h.node i).calls (he.node i) h.matching hext hmakes
  | answered r ev p hr hi hj hreq hs hl heq =>
    subst hi
    subst hj
    rw [hl] at hext ⊢
    rw [heq]
    exact (h.rpc hr).answered (he.rpc hr).2 hext hreq

/-- Every step of the cluster that installs only fitting snapshots and overwrites nothing that is
still to be sent follows the log rules. -/
theorem Logs.step (h : Logs s g) (he : Elects s g) (hm : Cluster.Move s a s')
    (hfit : s.Meets (fun p ev => p.snapshotFits ev = true) a) (hset : s.Settled a) :
    Along Ok g (s.labels a) ∧ Logs s' (g.effects (s.labels a)) := by
  obtain ⟨hok, hnode⟩ := h.turn he hm.turn hfit
  have hext := h.matching.extends_effects he.ballot hok
  exact ⟨hok, h.matching.effects he.ballot hok, hnode,
    fun i j c hc => h.call_step he hm hext hset hc⟩

theorem start_log (n : Nat) (i : Fin n) : (Record.start n).log i = [] := by
  by_cases hn : n ≤ 1
  · match n, hn, i with
    | 1, _, 0 => rfl
  · rw [Record.start, if_neg hn]
    rfl

theorem start_matching (n : Nat) : Matching (Record.start n) := by
  unfold Record.start
  split
  · exact matching_empty.effects ballot_empty (start_ok ‹_›)
  · exact matching_empty

theorem logs_init (n : Nat) : Logs (.init n) (.start n) := by
  refine ⟨start_matching n, fun i => ?_, fun i j c hc => (Cluster.not_carries_init hc).elim⟩
  have himg := Raft.make_none i
  have hli : (Raft.make i none).lastIncludeIndex = 0 := congrArg RaftState.lastIncludeIndex himg
  have hlt : (Raft.make i none).lastIncludeTerm = 0 := congrArg RaftState.lastIncludeTerm himg
  have hlog : (Raft.make i none).log = [⟨0, [], 0⟩] := congrArg RaftState.log himg
  have hrep : (Raft.make i none).Rep ((Record.start n).log i) := by
    rw [start_log]
    exact ⟨by rw [hli]; exact Nat.le_refl _, by rw [hlt, hli]; rfl, by rw [hlog, hli]; rfl⟩
  have hnode : NodeLog (.start n) i { Raft.make i none with state := .follower } :=
    .of_rep (hrep.congr rfl rfl rfl) rfl
  have hboot := hnode.restart ⟨(Raft.make_stored i).log, (Raft.make_stored i).image⟩
  rw [show ({ Raft.make i none with state := .follower } : Raft n).persister = none from
    Raft.make_persister i none] at hboot
  exact hboot

theorem Cluster.Traced.logs
    (h : Traced (fun s a => s.Meets (fun p ev => p.snapshotFits ev = true) a ∧ s.Settled a) s g) :
    Logs s g := by
  induction h with
  | init => exact logs_init n
  | step ht ha hs ih => exact (ih.step ht.elects (step_move hs) ha.1 ha.2).2

end

end LinKV

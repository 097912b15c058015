import LinKV.Raft.Ballots
import LinKV.Raft.Shape

namespace LinKV
set_option autoImplicit true

open Consensus Ledger

/-- A node as the log record sees it. -/
structure NodeLog (g : Record n) (i : Fin n) (rf : Raft n) : Prop where
  rep : rf.Rep (g.log i)
  camp : rf.state = .candidate →
    g.log i = g.camp i rf.currentTerm ∧ ¬ g.leads i rf.currentTerm
  matched : rf.state = .leader → ∀ j, j ≠ i → rf.matchIndex j ≤ rf.lastIncludeIndex ∨
    ∃ k, rf.matchIndex j ≤ k ∧ g.ack j rf.currentTerm k

/-- The entries of the request are a part of the log of its term's leader. -/
structure AppendWf (g : Record n) (args : AppendEntriesArgs n) : Prop where
  le : args.prevLogIndex + args.entries.length ≤ (g.glog args.term).length
  prevTerm : args.prevLogTerm = termAt (g.glog args.term) args.prevLogIndex
  entries : args.entries = stamp (args.prevLogIndex + 1)
    (((g.glog args.term).drop args.prevLogIndex).take args.entries.length)

structure SnapWf (g : Record n) (args : InstallSnapshotArgs n) : Prop where
  le : args.lastIncludeIndex ≤ (g.glog args.term).length
  term : args.lastIncludeTerm = termAt (g.glog args.term) args.lastIncludeIndex

/-- A call as the log record sees it. -/
def CallLog (g : Record n) (caller server : Fin n) : Call n → Prop
  | .requestVote args _ => args.lastLogIndex = (g.camp caller args.term).length ∧
      args.lastLogTerm = lastTerm (g.camp caller args.term)
  | .appendEntries args reply => AppendWf g args ∧ ∀ r, reply = some r → r.success = true →
      g.ack server args.term (args.prevLogIndex + args.entries.length)
  | .installSnapshot args _ => SnapWf g args

/-- What the network guarantees of an event a process receives. -/
def EventLog (g : Record n) (i : Fin n) : Event n → Prop
  | .requestVote args => i ≠ args.candidateId ∧
      g.vote args.candidateId args.term = some args.candidateId ∧
      args.lastLogIndex = (g.camp args.candidateId args.term).length ∧
      args.lastLogTerm = lastTerm (g.camp args.candidateId args.term)
  | .appendEntries args => (∃ c, i ≠ c ∧ g.leads c args.term) ∧ AppendWf g args
  | .installSnapshot args => (∃ c, i ≠ c ∧ g.leads c args.term) ∧ SnapWf g args
  | .appendEntriesReply j args reply => reply.success = true →
      g.ack j args.term (args.prevLogIndex + args.entries.length)
  | _ => True

/-- An installed snapshot reaches the end of the log, or the log agrees with it there. -/
def Raft.snapshotFits (rf : Raft n) (args : InstallSnapshotArgs n) : Bool :=
  args.term < rf.currentTerm || args.lastIncludeIndex ≤ rf.lastIncludeIndex ||
    rf.lastLogIndex ≤ args.lastIncludeIndex ||
    termOf rf.log (args.lastIncludeIndex - rf.lastIncludeIndex) = args.lastIncludeTerm

def Proc.snapshotFits (p : Proc n) : Event n → Bool
  | .installSnapshot args => p.rf.snapshotFits args
  | _ => true

section

variable {g g' : Record n} {rf rf' : Raft n} {p p' : Proc n} {i j : Fin n}

theorem along_and (h : Along P g ls) (h' : Along Q g ls) :
    Along (fun g l => P g l ∧ Q g l) g ls := by
  induction ls generalizing g with
  | nil => trivial
  | cons l ls ih => exact ⟨⟨h.1, h'.1⟩, ih h.2 h'.2⟩

/-- The record keeps everything that the logs are compared with. -/
structure LogsKept (g g' : Record n) (i : Fin n) : Prop where
  log : g'.log i = g.log i
  camp : g'.camp i = g.camp i
  leads : g'.leads i = g.leads i
  ack : ∀ v t k, g.ack v t k → g'.ack v t k

theorem NodeLog.kept (h : NodeLog g i rf) (hk : LogsKept g g' i) (hlog : rf'.log = rf.log)
    (hli : rf'.lastIncludeIndex = rf.lastIncludeIndex)
    (hlt : rf'.lastIncludeTerm = rf.lastIncludeTerm)
    (hst : rf'.state = .follower ∨ (rf'.state = rf.state ∧ rf'.currentTerm = rf.currentTerm))
    (hmi : rf'.state = .leader → ∀ j, j ≠ i → rf'.matchIndex j ≤ rf.matchIndex j ∨
      rf'.matchIndex j ≤ rf.lastIncludeIndex ∨
      ∃ k, rf'.matchIndex j ≤ k ∧ g'.ack j rf.currentTerm k) :
    NodeLog g' i rf' where
  rep := hk.log ▸ h.rep.congr hlog hli hlt
  camp := by
    intro hc
    rcases hst with hst | ⟨hst, ht⟩
    · exact nomatch hst.symm.trans hc
    · rw [hk.log, hk.camp, hk.leads, ht]
      exact h.camp (hst.symm.trans hc)
  matched := by
    intro hl j hj
    rcases hst with hst | ⟨hst, ht⟩
    · exact nomatch hst.symm.trans hl
    · rw [hli, ht]
      rcases hmi hl j hj with hle | hle
      · rcases h.matched (hst.symm.trans hl) j hj with hle' | ⟨k, hk', ha⟩
        · exact .inl (Nat.le_trans hle hle')
        · exact .inr ⟨k, Nat.le_trans hle hk', hk.ack _ _ _ ha⟩
      · exact hle

theorem raised_kept : LogsKept g (g.effects (rf.raised i rf')) i := by
  unfold Raft.raised
  split <;> exact ⟨rfl, rfl, rfl, fun _ _ _ => id⟩

theorem raised_glog (g : Record n) (i : Fin n) (rf rf' : Raft n) :
    (g.effects (rf.raised i rf')).glog = g.glog ∧
    (g.effects (rf.raised i rf')).leads = g.leads ∧
    (g.effects (rf.raised i rf')).vote = g.vote ∧
    (g.effects (rf.raised i rf')).camp = g.camp ∧
    (g.effects (rf.raised i rf')).log = g.log := by
  unfold Raft.raised
  split <;> exact ⟨rfl, rfl, rfl, rfl, rfl⟩

theorem raised_logOk : Along LogOk g (rf.raised i rf') := by
  unfold Raft.raised
  split
  · exact ⟨trivial, trivial⟩
  · trivial

theorem committed_kept : LogsKept g (g.effects (rf.committed i rf')) i := by
  unfold Raft.committed
  split
  · exact ⟨rfl, rfl, rfl, fun _ _ _ ha => .inr ha⟩
  · exact ⟨rfl, rfl, rfl, fun _ _ _ => id⟩

theorem NodeLog.catchUp (h : NodeLog g i rf) (t : Nat) :
    NodeLog (g.effects (rf.raised i (rf.catchUp t))) i (rf.catchUp t) := by
  apply h.kept raised_kept Raft.catchUp_log Raft.catchUp_lastIncludeIndex
    Raft.catchUp_lastIncludeTerm
  · unfold Raft.catchUp
    split
    · exact .inl rfl
    · exact .inr ⟨rfl, rfl⟩
  · unfold Raft.catchUp
    split
    · exact fun hl => nomatch hl
    · exact fun _ _ _ => .inl (Nat.le_refl _)

theorem NodeLog.of_rep (h : rf.Rep (g.log i)) (hst : rf.state = .follower) : NodeLog g i rf where
  rep := h
  camp := fun hc => nomatch hst.symm.trans hc
  matched := fun hl => nomatch hst.symm.trans hl

/-- The downward search stops at the commit index or at an index that may be committed. -/
theorem commitSearch_spec (rf : Raft n) (m : Nat) : rf.commitSearch m = rf.commitIndex ∨
    (rf.commitIndex < rf.commitSearch m ∧ rf.lastIncludeIndex < rf.commitSearch m ∧
      rf.commitSearch m ≤ m ∧ n / 2 < (rf.holders (rf.commitSearch m)).card + 1 ∧
      termOf rf.log (rf.commitSearch m - rf.lastIncludeIndex) = rf.currentTerm) := by
  induction m with
  | zero => exact .inl rfl
  | succ m ih =>
    unfold Raft.commitSearch
    split
    · exact .inl rfl
    · next hgt =>
      split
      · next hc => exact .inr ⟨by omega, by omega, Nat.le_refl _, hc.1, hc.2⟩
      · rcases ih with he | ⟨h1, h2, h3, h4⟩
        · exact .inl he
        · exact .inr ⟨h1, h2, Nat.le_succ_of_le h3, h4⟩

theorem commit_logOk (hlog : g.log i = g.glog t) (ht : g.term i = t) (hN : 0 < N)
    (hle : N ≤ (g.glog t).length) (hterm : termAt (g.glog t) N = t) (Q : Finset (Fin n))
    (hi : i ∉ Q) (hQ : n / 2 < Q.card + 1) (hack : ∀ u ∈ Q, ∃ k, N ≤ k ∧ g.ack u t k) :
    Along LogOk g [.ack i t N, .commit t N] := by
  refine ⟨⟨ht, hle, ?_⟩, ?_, trivial⟩
  · rw [hlog]
    exact List.take_prefix _ _
  · obtain ⟨m, rfl⟩ : ∃ m, N = m + 1 := ⟨N - 1, by omega⟩
    obtain ⟨⟨u, x⟩, hx⟩ : ∃ a, (g.glog t)[m]? = some a := ⟨_, List.getElem?_eq_getElem hle⟩
    rw [termAt_succ hx] at hterm
    simp only at hterm
    subst hterm
    refine ⟨m, x, rfl, hx, insert i Q, ?_, ?_⟩
    · rw [Majority, Fintype.card_fin, Finset.card_insert_of_notMem hi]
      exact hQ
    · intro w hw
      rcases Finset.mem_insert.1 hw with rfl | hw
      · exact ⟨m + 1, Nat.lt_succ_self m, .inl ⟨rfl, rfl, rfl⟩⟩
      · obtain ⟨k, hk, ha⟩ := hack w hw
        exact ⟨k, hk, .inr ha⟩

theorem NodeLog.commit (h : NodeLog g i rf) (hn : NodeSim g i rf) (hm : Matching g)
    (hst : rf.state = .leader)
    (hc : rf'.commitIndex = rf.commitIndex ∨ rf'.commitIndex = rf.commitSearch rf.lastLogIndex) :
    Along LogOk g (rf.committed i rf') := by
  unfold Raft.committed
  split
  · next hlt =>
    have hlog := hm.leader_log i _ (hn.leader hst) hn.term
    rcases hc with hc | hc
    · omega
    · rcases commitSearch_spec rf rf.lastLogIndex with he | ⟨_, hli, hle, hmaj, hterm⟩
      · omega
      · rw [← hc] at hli hle hmaj hterm
        rw [h.rep.termOf (Nat.le_of_lt hli), hlog] at hterm
        rw [h.rep.lastLogIndex, hlog] at hle
        refine commit_logOk hlog hn.term (by omega) hle hterm (rf.holders rf'.commitIndex) ?_
          hmaj ?_
        · simp only [Raft.holders, Finset.mem_filter, hn.me]
          exact fun hm => hm.2.1 rfl
        · intro u hu
          simp only [Raft.holders, Finset.mem_filter, hn.me] at hu
          rcases h.matched hst u hu.2.1 with hle | ⟨k, hk, ha⟩
          · have := hu.2.2
            omega
          · exact ⟨k, Nat.le_trans hu.2.2 hk, ha⟩
  · trivial

theorem NodeLog.advance (h : NodeLog g i rf) (hn : NodeSim g i rf) (hm : Matching g)
    (hsame : rf.Same rf')
    (hc : rf'.commitIndex = rf.commitIndex ∨
      (rf.state = .leader ∧ rf'.commitIndex = rf.commitSearch rf.lastLogIndex))
    (hmi : ∀ j, j ≠ rf.me → rf'.matchIndex j = rf.matchIndex j) :
    Along LogOk g (rf.committed i rf') ∧ NodeLog (g.effects (rf.committed i rf')) i rf' := by
  refine ⟨?_, h.kept committed_kept hsame.log hsame.lastIncludeIndex hsame.lastIncludeTerm
    (.inr ⟨hsame.state, hsame.currentTerm⟩) fun _ j hj =>
      .inl (Nat.le_of_eq (hmi j (hn.me.symm ▸ hj)))⟩
  rcases hc with hc | ⟨hst, hc⟩
  · rw [Raft.committed, if_neg (by omega)]
    trivial
  · exact h.commit hn hm hst (.inr hc)

theorem NodeLog.campaign (h : NodeLog g i rf) (hn : NodeSim g i rf) (hm : Matching g) :
    LogOk g (.campaign i (rf.currentTerm + 1)) ∧
      NodeLog (g.effect (.campaign i (rf.currentTerm + 1))) i rf.campaign := by
  refine ⟨?_, ?_⟩
  · intro e he
    have hle := hm.log_le i e he
    rw [hn.term] at hle
    omega
  · refine ⟨h.rep.congr rfl rfl rfl, fun _ => ⟨?_, ?_⟩, fun hl => nomatch hl⟩
    · simp only [Ledger.effect, Raft.campaign, Raft.persist, Function.update_self]
    · intro hl
      have hle := hm.leads_le i _ hl
      rw [hn.term] at hle
      simp only [Raft.campaign, Raft.persist] at hle
      omega

theorem NodeLog.lead (h : NodeLog g i rf) (hn : NodeSim g i rf) (hb : Ballot g)
    (hst : rf.state = .candidate) (hwin : BallotOk g (.win i rf.currentTerm)) :
    LogOk g (.win i rf.currentTerm) ∧
      NodeLog (g.effect (.win i rf.currentTerm)) i rf.lead := by
  obtain ⟨hlog, hnot⟩ := h.camp hst
  refine ⟨⟨hn.term, hn.candidate hst, hlog, ?_⟩, ?_⟩
  · intro w hw
    obtain ⟨P, hP, hvP⟩ := hb.quorum hw
    obtain ⟨Q, hQ, hvQ⟩ := hwin
    obtain ⟨u, huP, huQ⟩ := hP.meet hQ
    have he : w = i := Option.some.inj ((hvP u huP).symm.trans (hvQ u huQ))
    exact hnot (he ▸ hw)
  · exact ⟨h.rep.congr rfl rfl rfl, nofun, fun _ j _ => .inl (Nat.le_refl _)⟩

theorem NodeLog.grant (h : NodeLog g i rf) (hev : EventLog g i (.requestVote args))
    (hu : rf.upToDate args = true) : LogOk g (.grant i args.candidateId args.term) := by
  obtain ⟨hne, hv, hidx, hterm⟩ := hev
  refine ⟨hne, hv, ?_⟩
  simp only [Raft.upToDate, h.rep.lastLogTerm, h.rep.lastLogIndex, hidx, hterm,
    Bool.or_eq_true, Bool.and_eq_true, decide_eq_true_eq] at hu
  rcases hu with hlt | ⟨hle, he⟩
  · exact .inl hlt
  · exact .inr ⟨he, hle⟩

theorem NodeLog.requestVote (h : NodeLog g i p.rf) (hev : EventLog g i (.requestVote args)) :
    Along LogOk g (p.labels i (.requestVote args)) ∧
      NodeLog (g.effects (p.labels i (.requestVote args))) i (p.rf.requestVote args).1 := by
  have hcu := h.catchUp args.term
  simp only [Proc.labels]
  rw [along_append, effects_append]
  rcases p.rf.requestVote_cases args with ⟨hlt, he⟩ | ⟨hlt, he | ⟨_, hu, he⟩⟩
  · simp only [he, Bool.false_eq_true, ↓reduceIte, effects_nil]
    rw [Raft.catchUp_stale (Nat.le_of_lt hlt)] at hcu ⊢
    exact ⟨⟨raised_logOk, trivial⟩, hcu⟩
  · simp only [he, Bool.false_eq_true, ↓reduceIte, effects_nil]
    exact ⟨⟨raised_logOk, trivial⟩, hcu⟩
  · simp only [he, ↓reduceIte]
    refine ⟨⟨raised_logOk, ?_, trivial⟩, ?_⟩
    · obtain ⟨_, _, hv, hc, hl⟩ := raised_glog g i p.rf (p.rf.catchUp args.term)
      have hok := h.grant hev hu
      simp only [LogOk, hv, hc, hl] at hok ⊢
      exact hok
    · exact hcu.kept ⟨rfl, rfl, rfl, fun _ _ _ => id⟩ rfl rfl rfl (.inr ⟨rfl, rfl⟩)
        fun _ _ _ => .inl (Nat.le_refl _)

theorem NodeLog.start (h : NodeLog g i p.rf) (hn : NodeSim g i p.rf) (hm : Matching g)
    (command : Bytes) :
    Along LogOk g (p.labels i (.start command)) ∧
      NodeLog (g.effects (p.labels i (.start command))) i (p.rf.start command) := by
  simp only [Proc.labels]
  split
  · next hl =>
    have hlead := hn.leader hl
    have hlog := hm.leader_log i _ hlead hn.term
    have hstart : p.rf.start command = Raft.persist { p.rf with
        log := p.rf.log ++ [⟨p.rf.currentTerm, command, p.rf.lastLogIndex + 1⟩]
        commitIndex := if n ≤ 1 then p.rf.lastLogIndex + 1 else p.rf.commitIndex } :=
      if_neg (not_not.2 hl)
    have hext : NodeLog (g.effect (.extend i p.rf.currentTerm command)) i
        (p.rf.start command) := by
      rw [hstart]
      refine ⟨?_, fun hc => ?_, fun _ => h.matched hl⟩
      · simp only [Ledger.effect, Function.update_self]
        exact h.rep.extend rfl rfl rfl
      · cases hl.symm.trans hc
    refine ⟨⟨⟨hlead, hn.term⟩, ?_⟩, ?_⟩
    · unfold Raft.committed
      split
      · next hlt =>
        rw [hstart] at hlt ⊢
        simp only [Raft.persist] at hlt ⊢
        split at hlt
        · next hone =>
          have hlen : p.rf.lastLogIndex = (g.glog p.rf.currentTerm).length := by
            rw [h.rep.lastLogIndex, hlog]
          rw [if_pos hone, hlen]
          refine commit_logOk ?_ hn.term (by omega) ?_ ?_ ∅ (Finset.notMem_empty _) ?_ ?_
          · simp only [Ledger.effect, Function.update_self, hlog]
          · simp only [Ledger.effect, Function.update_self, List.length_append,
              List.length_singleton, Nat.le_refl]
          · simp only [Ledger.effect, Function.update_self, termAt,
              List.getElem?_concat_length, Option.map_some, Option.getD_some]
          · rw [Finset.card_empty]
            omega
          · exact fun u hu => absurd hu (Finset.notMem_empty u)
        · omega
      · trivial
    · rw [effects_cons]
      exact hext.kept committed_kept rfl rfl rfl (.inr ⟨rfl, rfl⟩)
        fun _ _ _ => .inl (Nat.le_refl _)
  · next hl =>
    rw [Raft.start, if_pos hl]
    exact ⟨trivial, h⟩

/-- The log check of `AppendEntries`: up to the previous entry the logs are the same. -/
theorem NodeLog.agrees (h : NodeLog g i rf) (hm : Matching g) (hw : AppendWf g args)
    (hli : rf.lastIncludeIndex ≤ args.prevLogIndex)
    (hlen : args.prevLogIndex - rf.lastIncludeIndex < rf.log.length)
    (hterm : termOf rf.log (args.prevLogIndex - rf.lastIncludeIndex) = args.prevLogTerm) :
    args.prevLogIndex ≤ (g.log i).length ∧
      (g.log i).take args.prevLogIndex = (g.glog args.term).take args.prevLogIndex := by
  have hrep := h.rep.length
  have hle := hw.le
  have hpl : args.prevLogIndex ≤ (g.log i).length := by omega
  refine ⟨hpl, (hm.log_coh i).take_eq (hm.glog_coh _) hpl (by omega) ?_⟩
  rw [← h.rep.termOf hli, hterm, hw.prevTerm]

theorem AppendWf.congr (h : AppendWf g args) (hg : g'.glog = g.glog) : AppendWf g' args :=
  ⟨by rw [hg]; exact h.le, by rw [hg]; exact h.prevTerm, by rw [hg]; exact h.entries⟩

theorem NodeLog.overwrite (hrep : rf.Rep (g.log i)) (hst : rf.state = .follower)
    (ht : g.term i = args.term) (hnl : ¬ g.leads i args.term) (hc : g.leads c args.term)
    (hw : AppendWf g args) (hli : rf.lastIncludeIndex ≤ args.prevLogIndex)
    (hpl : args.prevLogIndex ≤ (g.log i).length)
    (htake : (g.log i).take args.prevLogIndex = (g.glog args.term).take args.prevLogIndex) :
    Along LogOk g (Raft.appended i args) ∧
      NodeLog (g.effects (Raft.appended i args)) i (rf.overwrite args) := by
  have how := rf.overwrite_spec args
  have hle := hw.le
  by_cases he : args.entries = []
  · have hlog := how.log
    rw [if_pos he] at hlog
    simp only [Raft.appended, he, List.length_nil, Nat.add_zero]
    refine ⟨⟨⟨ht, by omega, ?_⟩, trivial⟩, .of_rep ?_ (how.state.trans hst)⟩
    · rw [← htake]
      exact List.take_prefix _ _
    · exact hrep.congr hlog how.lastIncludeIndex how.lastIncludeTerm
  · have hlog := how.log
    rw [if_neg he] at hlog
    simp only [Raft.appended, if_neg he, List.cons_append, List.nil_append]
    refine ⟨⟨⟨ht, hnl, hle, c, hc⟩, ⟨ht, hle, ?_⟩, trivial⟩, .of_rep ?_ (how.state.trans hst)⟩
    · simp only [Ledger.effect, Function.update_self, List.prefix_refl]
    · simp only [effects_cons, effects_nil, Ledger.effect, Function.update_self]
      apply hrep.replace how.lastIncludeIndex how.lastIncludeTerm hli hpl
      · rw [List.length_take]
        omega
      · rw [List.take_take, Nat.min_eq_left (Nat.le_add_right _ _), htake]
      · rw [hlog, List.drop_take, Nat.add_sub_cancel_left, ← hw.entries]

theorem NodeLog.appendEntries (h : NodeLog g i p.rf) (hn : NodeSim g i p.rf) (hb : Ballot g)
    (hm : Matching g) (hev : EventLog g i (.appendEntries args)) :
    Along LogOk g (p.labels i (.appendEntries args)) ∧
      NodeLog (g.effects (p.labels i (.appendEntries args))) i (p.rf.appendEntries args).1 := by
  obtain ⟨⟨c, hic, hc⟩, hw⟩ := hev
  have hcu := h.catchUp args.term
  have hterm := (hn.catchUp hb args.term).2.term
  obtain ⟨hg, hld, _, _, hlg⟩ := raised_glog g i p.rf (p.rf.catchUp args.term)
  simp only [Proc.labels]
  rw [along_append, effects_append]
  rcases p.rf.appendEntries_cases args with
    ⟨hlt, he, hs⟩ | ⟨hge, ⟨he, hs⟩ | ⟨hli, hlen, hpt, he, hs⟩⟩
  · rw [he, if_neg (by rw [hs]; exact Bool.false_ne_true)]
    rw [Raft.catchUp_stale (Nat.le_of_lt hlt)] at hcu ⊢
    exact ⟨⟨raised_logOk, trivial⟩, hcu⟩
  · rw [he, if_neg (by rw [hs]; exact Bool.false_ne_true)]
    exact ⟨⟨raised_logOk, trivial⟩, .of_rep (hcu.rep.congr rfl rfl rfl) rfl⟩
  · rw [he, if_pos hs]
    obtain ⟨hpl, htake⟩ := h.agrees hm hw hli hlen hpt
    have hfol : (p.rf.follow args.term).Rep _ := hcu.rep.congr rfl rfl rfl
    obtain ⟨hok, hnode⟩ := NodeLog.overwrite (c := c) hfol rfl (hterm.trans (Raft.catchUp_term hge))
      (by rw [hld]; exact fun hl => hic (hb.leads_unique hl hc)) (by rwa [hld])
      (hw.congr hg) (by rwa [Raft.follow, Raft.catchUp_lastIncludeIndex]) (by rwa [hlg])
      (by rwa [hlg, hg])
    exact ⟨⟨raised_logOk, hok⟩, hnode⟩

theorem NodeLog.installSnapshot (h : NodeLog g i p.rf) (hn : NodeSim g i p.rf) (hb : Ballot g)
    (hev : EventLog g i (.installSnapshot args)) (hfit : p.rf.snapshotFits args = true) :
    Along LogOk g (p.labels i (.installSnapshot args)) ∧
      NodeLog (g.effects (p.labels i (.installSnapshot args))) i
        (p.rf.installSnapshot args).1 := by
  obtain ⟨⟨c, hic, hc⟩, hw⟩ := hev
  have hcu := h.catchUp args.term
  have hterm := (hn.catchUp hb args.term).2.term
  obtain ⟨hg, hld, _, _, hlg⟩ := raised_glog g i p.rf (p.rf.catchUp args.term)
  simp only [Proc.labels]
  rw [along_append, effects_append]
  rcases p.rf.installSnapshot_cases args with
    ⟨hlt, he, hs⟩ | ⟨hge, ⟨_, he, hs⟩ | ⟨hli, he, hs⟩⟩
  · rw [he, hs, if_neg (fun hf => Bool.false_ne_true hf.1)]
    rw [Raft.catchUp_stale (Nat.le_of_lt hlt)] at hcu ⊢
    exact ⟨⟨raised_logOk, trivial⟩, hcu⟩
  · rw [he, hs, if_neg (fun hf => Bool.false_ne_true hf.1)]
    exact ⟨⟨raised_logOk, trivial⟩, .of_rep (hcu.rep.congr rfl rfl rfl) rfl⟩
  · have hlen := h.rep.lastLogIndex
    have hfol : (p.rf.follow args.term).Rep (g.log i) :=
      h.rep.congr Raft.catchUp_log Raft.catchUp_lastIncludeIndex Raft.catchUp_lastIncludeTerm
    rw [he, hs]
    by_cases hle : p.rf.lastLogIndex ≤ args.lastIncludeIndex
    · rw [if_pos ⟨rfl, hle⟩]
      have hlt : ((g.glog args.term).take args.lastIncludeIndex).length =
          args.lastIncludeIndex := by
        rw [List.length_take]
        exact Nat.min_eq_left hw.le
      have htm : args.lastIncludeTerm =
          termAt ((g.glog args.term).take args.lastIncludeIndex) args.lastIncludeIndex := by
        rw [termAt_take (Nat.le_refl _) hw.le, hw.term]
      refine ⟨⟨raised_logOk, ⟨hterm.trans (Raft.catchUp_term hge), ?_, ?_, c, ?_⟩, trivial⟩,
        .of_rep ?_ rfl⟩
      · rw [hld]
        exact fun hl => hic (hb.leads_unique hl hc)
      · rw [hg]
        exact hw.le
      · rwa [hld]
      · simp only [effects_cons, effects_nil, Ledger.effect, Function.update_self, hg]
        exact hfol.reset (by omega) hlt.symm (by rw [hlt]; exact htm) (by rw [hlt, ← htm]; rfl)
    · rw [if_neg (fun hf => hle hf.2)]
      refine ⟨⟨raised_logOk, trivial⟩, .of_rep ?_ rfl⟩
      have htm : args.lastIncludeTerm = termAt (g.log i) args.lastIncludeIndex := by
        rw [← h.rep.termOf (Nat.le_of_lt hli)]
        simp only [Raft.snapshotFits, Bool.or_eq_true, decide_eq_true_eq] at hfit
        omega
      have hfl : (p.rf.follow args.term).lastIncludeIndex ≤ args.lastIncludeIndex := by
        rw [Raft.follow, Raft.catchUp_lastIncludeIndex]
        exact Nat.le_of_lt hli
      have hcompact : ((p.rf.follow args.term).install args).log =
          Raft.compacted (p.rf.follow args.term).log args.lastIncludeIndex
            (termAt (g.log i) args.lastIncludeIndex) := by
        rw [← htm]
        rfl
      rw [effects_nil, hlg]
      exact hfol.compact hfl (by omega) rfl htm hcompact

theorem NodeLog.requestVoteReply (h : NodeLog g i p.rf) (hn : NodeSim g i p.rf) (hb : Ballot g)
    (hok : Along BallotOk g (p.labels i (.requestVoteReply args reply))) :
    Along LogOk g (p.labels i (.requestVoteReply args reply)) ∧
      NodeLog (g.effects (p.labels i (.requestVoteReply args reply))) i
        (p.requestVoteReply args reply).rf := by
  simp only [Proc.labels] at hok ⊢
  rcases p.requestVoteReply_cases args reply with
    he | ⟨hc, _, ⟨_, he⟩ | ⟨_, _, ⟨_, he⟩ | he⟩⟩
  · rw [he, if_neg (by rintro ⟨hc, hl⟩; rw [hc] at hl; cases hl), List.append_nil]
    exact ⟨raised_logOk, h.kept raised_kept rfl rfl rfl (.inr ⟨rfl, rfl⟩)
      fun _ _ _ => .inl (Nat.le_refl _)⟩
  · rw [he, if_neg (by rintro ⟨_, hl⟩; cases hl), List.append_nil]
    refine ⟨raised_logOk, h.kept raised_kept rfl rfl rfl (.inl rfl) fun hl => ?_⟩
    cases hl
  · have hr : p.rf.raised i p.rf.lead = [] := raised_eq_nil (Nat.le_refl _)
    rw [he, if_pos ⟨hc, rfl⟩] at hok ⊢
    simp only [hr, List.nil_append] at hok ⊢
    obtain ⟨hlog, hnode⟩ := h.lead hn hb hc hok.1
    exact ⟨⟨hlog, trivial⟩, hnode⟩
  · rw [he, if_neg (by rintro ⟨_, hl⟩; rw [hc] at hl; cases hl), List.append_nil]
    exact ⟨raised_logOk, h.kept raised_kept rfl rfl rfl (.inr ⟨rfl, rfl⟩)
      fun _ _ _ => .inl (Nat.le_refl _)⟩

theorem NodeLog.heard (h : NodeLog g i rf) (hr : rf.Deposed rf' t ∨ rf.Same rf')
    (hmi : rf'.state = .leader → ∀ j, j ≠ i → rf'.matchIndex j ≤ rf.matchIndex j ∨
      rf'.matchIndex j ≤ rf.lastIncludeIndex ∨
      ∃ k, rf'.matchIndex j ≤ k ∧ g.ack j rf.currentTerm k) :
    Along LogOk g (rf.raised i rf') ∧ NodeLog (g.effects (rf.raised i rf')) i rf' := by
  refine ⟨raised_logOk, ?_⟩
  have hmi' : rf'.state = .leader → ∀ j, j ≠ i → rf'.matchIndex j ≤ rf.matchIndex j ∨
      rf'.matchIndex j ≤ rf.lastIncludeIndex ∨
      ∃ k, rf'.matchIndex j ≤ k ∧ (g.effects (rf.raised i rf')).ack j rf.currentTerm k := by
    intro hl j hj
    rcases hmi hl j hj with hle | hle | ⟨k, hk, ha⟩
    · exact .inl hle
    · exact .inr (.inl hle)
    · exact .inr (.inr ⟨k, hk, raised_kept.ack _ _ _ ha⟩)
  rcases hr with hd | hs
  · exact h.kept raised_kept hd.log hd.lastIncludeIndex hd.lastIncludeTerm (.inl hd.state) hmi'
  · exact h.kept raised_kept hs.log hs.lastIncludeIndex hs.lastIncludeTerm
      (.inr ⟨hs.state, hs.currentTerm⟩) hmi'

theorem NodeLog.snapshotAt (h : NodeLog g i rf) (hs : rf.snapshotAt index data = some rf') :
    NodeLog g i rf' := by
  rcases Raft.snapshotAt_cases hs with ⟨_, rfl⟩ | ⟨hlt, hlen, _, hst, ht, _, _, hli, hterm, hlog, _,
    _, hmi⟩
  · exact h
  · have hrep := h.rep.length
    have hle := h.rep.le
    rw [h.rep.termOf (Nat.le_of_lt hlt)] at hterm hlog
    refine ⟨h.rep.compact (Nat.le_of_lt hlt) (by omega) hli hterm hlog, ?_, ?_⟩
    · rw [hst, ht]
      exact h.camp
    · rw [hst, ht, hli]
      intro hl j hj
      rw [hmi hl j]
      rcases h.matched hl j hj with hle | ⟨k, hk, ha⟩
      · exact .inl (by omega)
      · rcases Nat.le_total (rf.matchIndex j) index with hm | hm
        · exact .inl (by omega)
        · exact .inr ⟨k, by omega, ha⟩

theorem NodeLog.restart (h : NodeLog g i rf) (hs : rf.Stored) :
    NodeLog g i (.make i rf.persister) := by
  have himg := hs.make_image i
  refine ⟨h.rep.congr (congrArg RaftState.log himg) (congrArg RaftState.lastIncludeIndex himg)
    (congrArg RaftState.lastIncludeTerm himg), ?_, ?_⟩
  · rw [Raft.make_state]
    split <;> exact nofun
  · rw [Raft.make_state]
    split
    · next hn =>
      intro _ j hj
      have hi := i.isLt
      have hj' := j.isLt
      exact (hj (Fin.ext (by omega))).elim
    · exact nofun

/-- One step of a process follows the log rules and stays in step with the record, if every
snapshot it installs fits its log. -/
theorem NodeLog.step (h : NodeLog g i p.rf) (hn : NodeSim g i p.rf) (hb : Ballot g)
    (hm : Matching g) (hev : EventLog g i ev) (hfit : p.snapshotFits ev = true)
    (hsolo : p.solo = 0) (hok : Along BallotOk g (p.labels i ev))
    (hs : p.step now ev = some p') :
    Along LogOk g (p.labels i ev) ∧ NodeLog (g.effects (p.labels i ev)) i p'.rf := by
  by_cases hidle : ev.isIdle = true
  · obtain ⟨hi, _⟩ := Proc.step_idle hs hidle
    rw [Proc.labels_idle hidle]
    refine ⟨trivial, h.kept ⟨rfl, rfl, rfl, fun _ _ _ => id⟩ hi.log hi.lastIncludeIndex
      hi.lastIncludeTerm (.inr ⟨hi.state, hi.currentTerm⟩) fun _ _ _ => .inl ?_⟩
    rw [hi.matchIndex]
  cases Proc.step_takes hs with
  | startElection =>
    obtain ⟨hlog, hnode⟩ := h.campaign hn hm
    exact ⟨⟨hlog, trivial⟩, hnode⟩
  | soloLeader hne => exact absurd hsolo hne
  | logUpdate =>
    obtain ⟨hc, hmi⟩ := p.rf.logUpdate_spec
    exact h.advance hn hm p.rf.logUpdate_same hc hmi
  | replicate server =>
    obtain ⟨hc, hmi⟩ := p.rf.replicate_spec server
    exact h.advance hn hm (p.rf.replicate_same server) hc fun j _ => congrFun hmi j
  | start command =>
    exact h.start hn hm command
  | snapshot _ _ _ _ _ hrf => exact ⟨trivial, h.snapshotAt hrf⟩
  | requestVote args =>
    exact h.requestVote hev
  | appendEntries args =>
    exact h.appendEntries hn hb hm hev
  | installSnapshot args =>
    exact h.installSnapshot hn hb hev hfit
  | requestVoteReply args reply =>
    exact h.requestVoteReply hn hb hok
  | appendEntriesReply server args reply =>
    refine h.heard (p.rf.appendEntriesReply_cases server args reply) fun _ j _ => ?_
    rcases p.rf.appendEntriesReply_match server args reply j with hle | ⟨rfl, ht, hsucc, hle⟩
    · exact .inl hle
    · exact .inr (.inr ⟨_, hle, ht ▸ hev hsucc⟩)
  | installSnapshotReply server args reply =>
    refine h.heard (p.rf.installSnapshotReply_cases server args reply) fun _ j _ => ?_
    rcases p.rf.installSnapshotReply_match server args reply j with hle | hle
    · exact .inl hle
    · exact .inr (.inl hle)
  | _ => exact (hidle rfl).elim

end

end LinKV

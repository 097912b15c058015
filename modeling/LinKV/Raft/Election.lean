import LinKV.Raft.Ballots

namespace LinKV
set_option autoImplicit true

open Consensus Ledger

/-- The election a vote request belongs to. -/
def Rpc.poll (r : Rpc n) : Option (Fin n × Fin n × Nat) :=
  match r.call with
  | .requestVote args _ => some (r.caller, r.server, args.term)
  | _ => none

def Cluster.polls (s : Cluster n) : List (Fin n × Fin n × Nat) := s.rpcs.filterMap Rpc.poll

/-- A call as the voting record sees it. -/
def CallSim (g : Record n) (caller server : Fin n) : Call n → Prop
  | .requestVote args reply => args.candidateId = caller ∧ g.vote caller args.term = some caller ∧
      ∀ r, reply = some r → r.voteGranted = true → g.vote server args.term = some caller
  | .appendEntries args _ => g.leads caller args.term
  | .installSnapshot args _ => g.leads caller args.term

/-- The votes a candidate has counted are votes of distinct members whose calls are over. -/
def Tally (g : Record n) (polls : List (Fin n × Fin n × Nat)) (i : Fin n) (p : Proc n) : Prop :=
  p.rf.state = .candidate → ∃ G : Finset (Fin n), i ∉ G ∧ G.card + 1 = p.votes ∧
    ∀ u ∈ G, g.vote u p.rf.currentTerm = some i ∧ (i, u, p.rf.currentTerm) ∉ polls

/-- The cluster is in step with a record that follows the voting rules. -/
structure Elects (s : Cluster n) (g : Record n) : Prop where
  ballot : Ballot g
  node : ∀ i, NodeSim g i (s.procs i).rf
  solo : ∀ i, (s.procs i).solo = 0
  alone : n ≤ 1 → ∀ i, (s.procs i).rf.state = .leader ∧ (s.procs i).elections = 0
  call : ∀ i j call, s.Carries i j call → i ≠ j ∧ CallSim g i j call
  polls : s.polls.Nodup
  tally : ∀ i, Tally g s.polls i (s.procs i)

section

variable {g g' : Record n} {s s' : Cluster n} {p p' : Proc n} {i j : Fin n}

theorem CallSim.grows (h : CallSim g i j call) (hg : Grows g g') : CallSim g' i j call := by
  cases call with
  | requestVote args reply =>
    exact ⟨h.1, hg.vote _ _ _ h.2.1, fun r hr hv => hg.vote _ _ _ (h.2.2 r hr hv)⟩
  | appendEntries args reply => exact hg.leads _ _ h
  | installSnapshot args reply => exact hg.leads _ _ h

theorem Tally.grows (h : Tally g polls i p) (hg : Grows g g')
    (hp : ∀ u t, (i, u, t) ∈ polls' → (i, u, t) ∈ polls)
    (hc : p'.rf.state = .candidate → p.rf.state = .candidate ∧
      p'.rf.currentTerm = p.rf.currentTerm ∧ p'.votes = p.votes) : Tally g' polls' i p' := by
  intro hst
  obtain ⟨hst, ht, hv⟩ := hc hst
  obtain ⟨G, hi, hcard, hG⟩ := h hst
  refine ⟨G, hi, hv ▸ hcard, fun u hu => ?_⟩
  rw [ht]
  exact ⟨hg.vote _ _ _ (hG u hu).1, fun hm => (hG u hu).2 (hp _ _ hm)⟩

theorem Tally.started (hs : p.step now .startElection = some p') : Tally g polls i p' := by
  cases Proc.step_takes hs with
  | startElection =>
    exact fun _ => ⟨∅, Finset.notMem_empty _, rfl, fun u hu => absurd hu (Finset.notMem_empty u)⟩

theorem Tally.count (h : Tally g polls i p) (hp : polls' ⊆ polls) (hc : p.rf.state = .candidate)
    (hij : i ≠ j) (hv : g.vote j p.rf.currentTerm = some i)
    (hin : (i, j, p.rf.currentTerm) ∈ polls) (hout : (i, j, p.rf.currentTerm) ∉ polls') :
    ∃ G : Finset (Fin n), i ∉ G ∧ G.card + 1 = p.votes + 1 ∧
      ∀ u ∈ G, g.vote u p.rf.currentTerm = some i ∧ (i, u, p.rf.currentTerm) ∉ polls' := by
  obtain ⟨G, hi, hcard, hG⟩ := h hc
  have hj : j ∉ G := fun hj => (hG j hj).2 hin
  refine ⟨insert j G, ?_, ?_, ?_⟩
  · simp only [Finset.mem_insert, not_or]
    exact ⟨hij, hi⟩
  · rw [Finset.card_insert_of_notMem hj, hcard]
  · intro u hu
    rcases Finset.mem_insert.1 hu with rfl | hu
    · exact ⟨hv, hout⟩
    · exact ⟨(hG u hu).1, fun hm => (hG u hu).2 (hp hm)⟩

theorem NodeSim.calls (h : NodeSim g i p.rf) (hs : p.step now ev = some p')
    (hc : p.Makes ev j call) :
    i ≠ j ∧ CallSim (g.effects (p.labels i ev)) i j call := by
  obtain ⟨rfl, hne, rfl⟩ | ⟨rfl, hcall⟩ := hc
  · rw [h.me] at hne
    refine ⟨hne.symm, h.me, ?_, fun r hr => nomatch hr⟩
    simp only [Proc.labels, effects_cons, effects_nil, Ledger.effect, Function.update_self]
  · obtain ⟨hst, hcases⟩ := Raft.replicate_call hcall
    have hl : (g.effects (p.labels i (.replicate j))).leads i p.rf.currentTerm := by
      have hq : (g.effects (p.labels i (.replicate j))).leads = g.leads :=
        (effects_quiet fun _ => committed_quiet).2.2
      rw [hq]
      exact h.leader hst
    refine ⟨?_, ?_⟩
    · simp only [Proc.step, h.me] at hs
      split at hs
      · cases hs
      · next hne => exact fun he => hne he.symm
    · rcases hcases with rfl | ⟨prev, _, _, rfl⟩
      · exact hl
      · exact hl

theorem CallSim.answered (h : CallSim g i j call) (hg : Grows g (g.effects (p.labels j ev)))
    (he : call.request = some ev) :
    CallSim (g.effects (p.labels j ev)) i j (call.answered p) := by
  have h' := h.grows hg
  cases call with
  | requestVote args reply =>
    cases reply with
    | some r => cases he
    | none =>
      cases he
      refine ⟨h'.1, h'.2.1, ?_⟩
      rintro r hr hv
      cases hr
      simp only [Proc.labels, hv, ↓reduceIte, effects_append, effects_cons, effects_nil,
        Ledger.effect, Function.update_self]
      rw [h.1]
  | appendEntries args reply => exact h'
  | installSnapshot args reply => exact h'

theorem Elects.rpc (h : Elects s g) (hr : r ∈ s.rpcs) :
    r.caller ≠ r.server ∧ CallSim g r.caller r.server r.call :=
  h.call _ _ _ (.rpc r hr rfl rfl rfl)

theorem Elects.poll_vote (h : Elects s g) (hp : (i, j, t) ∈ s.polls) : g.vote i t = some i := by
  obtain ⟨r, hr, hpoll⟩ := List.mem_filterMap.1 hp
  obtain ⟨_, hc⟩ := h.rpc hr
  unfold Rpc.poll at hpoll
  split at hpoll
  · next heq =>
    cases hpoll
    rw [heq] at hc
    exact hc.2.1
  · cases hpoll

end

section

variable {α β : Type}

theorem filterMap_set_same {l : List α} {f : α → Option β} (hk : l[k]? = some a)
    (hf : f b = f a) : (l.set k b).filterMap f = l.filterMap f := by
  induction l generalizing k with
  | nil => cases hk
  | cons c l ih =>
    cases k with
    | zero =>
      cases hk
      rw [List.set_cons_zero, List.filterMap_cons, List.filterMap_cons, hf]
    | succ k =>
      rw [List.set_cons_succ, List.filterMap_cons, List.filterMap_cons, ih hk]

theorem not_mem_filterMap_eraseIdx {l : List α} {f : α → Option β} (hn : (l.filterMap f).Nodup)
    (hk : l[k]? = some a) (hf : f a = some b) : b ∉ (l.eraseIdx k).filterMap f := by
  induction l generalizing k with
  | nil => cases hk
  | cons c l ih =>
    cases k with
    | zero =>
      cases hk
      rw [List.filterMap_cons_some hf] at hn
      exact (List.nodup_cons.1 hn).1
    | succ k =>
      rw [List.eraseIdx_cons_succ]
      cases hc : f c with
      | none =>
        rw [List.filterMap_cons_none hc] at hn ⊢
        exact ih hn hk
      | some d =>
        rw [List.filterMap_cons_some hc, List.nodup_cons] at hn
        rw [List.filterMap_cons_some hc, List.mem_cons, not_or]
        refine ⟨?_, ih hn.2 hk⟩
        rintro rfl
        exact hn.1 (List.mem_filterMap.2 ⟨a, List.mem_of_getElem? hk, hf⟩)

end

section

variable {g g' : Record n} {s s' : Cluster n} {p p' : Proc n} {i j : Fin n}

theorem poll_congr {r r' : Rpc n} (hc : r'.caller = r.caller) (hs : r'.server = r.server)
    (hcall : r'.call = r.call) : r'.poll = r.poll := by
  simp only [Rpc.poll, hc, hs, hcall]

theorem poll_answered (r : Rpc n) (p : Proc n) :
    { r with call := r.call.answered p }.poll = r.poll := by
  cases hc : r.call <;> simp only [Rpc.poll, hc, Call.answered]

theorem polls_orphan (l : List (Rpc n)) :
    ((l.filterMap (Rpc.orphan i)).filterMap Rpc.poll).Sublist (l.filterMap Rpc.poll) := by
  induction l with
  | nil => exact .slnil
  | cons r l ih =>
    cases ho : r.orphan i with
    | none =>
      rw [List.filterMap_cons_none ho]
      exact ih.trans ((List.sublist_cons_self r l).filterMap _)
    | some r' =>
      obtain ⟨hc, hs, hcall, _⟩ := Cluster.orphan_eq ho
      rw [List.filterMap_cons_some ho, List.filterMap_cons, List.filterMap_cons,
        poll_congr hc hs hcall]
      split
      · exact ih
      · exact ih.cons_cons _

theorem polls_amid (i : Fin n) (ev : Event n) (e : Option (RaftState n)) :
    (s.crashAmid i ev e).polls.Sublist s.polls := by
  have hsent : (((s.procs i).torn ev).map (Send.rpc i s.now)).filterMap Rpc.poll = [] := by
    rw [List.filterMap_map]
    exact List.filterMap_eq_nil_iff.2 fun _ _ => rfl
  refine (polls_orphan _).trans ?_
  simp only [List.filterMap_append, hsent, List.append_nil, Cluster.polls, List.Sublist.refl]

theorem Cluster.Move.polls (h : Move s a s') :
    s'.polls.Sublist s.polls ∨ (∃ i, a = .act i .startElection ∧ s'.polls = s.polls ++
      ((List.finRange n).filter (· ≠ (s.procs i).rf.me)).map
        fun u => (i, u, (s.procs i).rf.currentTerm + 1)) := by
  have herase (k : Nat) : ((s.rpcs.eraseIdx k).filterMap Rpc.poll).Sublist s.polls :=
    (List.eraseIdx_sublist s.rpcs k).filterMap _
  cases h with
  | act i ev p hl hp hs =>
    by_cases hev : ev = .startElection
    · subst hev
      simp only [Cluster.polls, List.filterMap_append, List.filterMap_map, Proc.calls]
      split
      · exact .inl (by simp only [List.filterMap_nil, List.append_nil, List.Sublist.refl])
      · refine .inr ⟨i, rfl, ?_⟩
        simp only [List.filterMap_map]
        congr 1
        exact congrFun List.filterMap_eq_map _
    · -- the other calls are no vote requests
      refine .inl ?_
      have hnone : (((s.procs i).calls ev).map fun c =>
          (⟨i, c.1, c.2, true, s.now⟩ : Rpc n)).filterMap Rpc.poll = [] := by
        rw [List.filterMap_map, List.filterMap_eq_nil_iff]
        rintro ⟨j, call⟩ hc
        obtain ⟨he, -⟩ | ⟨-, args, rfl, -⟩ | ⟨k, m, -, -, -, rfl⟩ := Proc.mem_calls hc
        · exact absurd he hev
        · rfl
        · rfl
      simp only [Cluster.polls, List.filterMap_append, hnone, List.append_nil, List.Sublist.refl]
  | panic => exact .inl (polls_orphan _)
  | handle k r ev p hr he hs =>
    refine .inl ?_
    simp only [Cluster.polls]
    split
    · rw [filterMap_set_same hr (poll_answered _ _)]
    · exact herase _
  | reply => exact .inl (herase _)
  | drop => exact .inl (herase _)
  | crash => exact .inl (polls_orphan _)
  | crashIn => exact .inl (polls_amid _ _ _)
  | crashStart => exact .inl (polls_amid _ _ _)

theorem Cluster.Move.polls_of (h : Move s a s') (hne : a ≠ .act i .startElection)
    (hp : (i, j, t) ∈ s'.polls) : (i, j, t) ∈ s.polls := by
  rcases h.polls with hsub | ⟨c, rfl, he⟩
  · exact hsub.subset hp
  · rw [he] at hp
    rcases List.mem_append.1 hp with hp | hp
    · exact hp
    · obtain ⟨u, _, hu⟩ := List.mem_map.1 hp
      cases hu
      exact (hne rfl).elim

theorem Elects.two_le (h : Elects s g) (hr : r ∈ s.rpcs) : ¬ n ≤ 1 := by
  intro hn
  apply (h.rpc hr).1
  have hc := r.caller.isLt
  have hs := r.server.isLt
  exact Fin.ext (by omega)

theorem Elects.two_le_of (h : Elects s g) (hin : s.Inbox i ev) (hl : ev.isLocal = false) :
    ¬ n ≤ 1 := by
  rcases hin with hin | ⟨r, hr, _⟩ | ⟨r, hr, _⟩
  · rw [hl] at hin
    cases hin
  · exact h.two_le hr
  · exact h.two_le hr

/-- A vote reply in flight that makes the candidate leader completes a majority. -/
theorem Elects.quorum (h : Elects s g) (hin : s.Inbox i (.requestVoteReply args reply))
    (hc : (s.procs i).rf.state = .candidate)
    (hl : ((s.procs i).requestVoteReply args reply).rf.state = .leader) :
    ∃ Q, Majority Q ∧ ∀ u ∈ Q, g.vote u (s.procs i).rf.currentTerm = some i := by
  obtain ⟨r, hr, rfl, hcall⟩ := hin.requestVoteReply
  obtain ⟨hne, hsim⟩ := h.rpc hr
  rw [hcall] at hsim
  have hpoll : (r.caller, r.server, args.term) ∈ s.polls :=
    List.mem_filterMap.2 ⟨r, hr, by simp only [Rpc.poll, hcall]⟩
  rcases (s.procs r.caller).requestVoteReply_cases args reply with
    he | ⟨_, ht, ⟨_, he⟩ | ⟨hv, _, ⟨hmaj, he⟩ | he⟩⟩
  · rw [he, hc] at hl
    cases hl
  · rw [he] at hl
    cases hl
  · obtain ⟨G, hi, hcard, hG⟩ := (h.tally r.caller).count (List.nil_subset _) hc hne
      (ht ▸ hsim.2.2 reply rfl hv) (ht ▸ hpoll) List.not_mem_nil
    refine ⟨insert r.caller G, ?_, ?_⟩
    · rw [Majority, Fintype.card_fin, Finset.card_insert_of_notMem hi, hcard]
      exact hmaj
    · intro u hu
      rcases Finset.mem_insert.1 hu with rfl | hu
      · exact (h.node _).candidate hc
      · exact (hG u hu).1
  · simp only [he] at hl
    rw [hc] at hl
    cases hl

theorem Elects.turn (h : Elects s g) (ht : Cluster.Turn s a s') :
    Along BallotOk g (s.labels a) ∧
      ∀ j, NodeSim (g.effects (s.labels a)) j (s'.procs j).rf := by
  cases ht with
  | event i ev p hin ha hs hl hp =>
    rw [hl, hp]
    obtain ⟨hok, hsim⟩ := (h.node i).step h.ballot (h.solo i)
      (fun args reply he hc hlead => h.quorum (he ▸ hin) hc hlead) (h.two_le_of hin) hs
    exact ⟨hok, assign_forall (P := fun j (p : Proc n) => NodeSim _ j p.rf) hsim
      fun j hj => (h.node j).frame (fun _ => Proc.labels_of) hj⟩
  | restart i hl hp =>
    rw [hl, hp]
    exact ⟨trivial, assign_forall (P := fun j (p : Proc n) => NodeSim _ j p.rf)
      ((h.node i).restart fun hn => (h.alone hn i).1) fun j _ => h.node j⟩
  | crashIn r hr hlt hl hp =>
    rw [hl, hp]
    obtain ⟨hok, hsim⟩ := (h.node r.server).stepDown h.ballot hlt
    refine ⟨⟨hok, trivial⟩, assign_forall (P := fun j (p : Proc n) => NodeSim _ j p.rf)
      (hsim.restart fun hn => (h.two_le hr hn).elim) fun j hj => ?_⟩
    have hof : ∀ l ∈ [Label.raise r.server r.call.term], l.Of (α := Bytes) r.server :=
      fun l hl => List.mem_singleton.1 hl ▸ rfl
    exact (h.node j).frame hof hj
  | idle hl hp =>
    rw [hl, hp]
    exact ⟨trivial, h.node⟩

theorem Elects.solo_step (h : Elects s g) (ht : Cluster.Turn s a s') (i : Fin n) :
    (s'.procs i).solo = 0 := by
  cases ht with
  | event j ev p hin ha hs hl hp =>
    rw [hp]
    refine assign_forall (P := fun _ (p : Proc n) => p.solo = 0) ?_ (fun j _ => h.solo j) i
    exact Proc.step_solo hs (h.solo j) fun hn => (h.alone hn j).2
  | restart j hl hp =>
    rw [hp]
    exact assign_forall (P := fun _ (p : Proc n) => p.solo = 0) rfl (fun j _ => h.solo j) i
  | crashIn r hr hlt hl hp =>
    rw [hp]
    exact assign_forall (P := fun _ (p : Proc n) => p.solo = 0) rfl (fun j _ => h.solo j) i
  | idle hl hp =>
    rw [hp]
    exact h.solo i

theorem Elects.alone_step (h : Elects s g) (ht : Cluster.Turn s a s') (hn : n ≤ 1) (i : Fin n) :
    (s'.procs i).rf.state = .leader ∧ (s'.procs i).elections = 0 := by
  have hnone (r : Rpc n) (hr : r ∈ s.rpcs) : False := h.two_le hr hn
  cases ht with
  | event j ev p hin ha hs hl hp =>
    rw [hp]
    refine assign_forall (P := fun _ (p : Proc n) => p.rf.state = .leader ∧ p.elections = 0) ?_
      (fun j _ => h.alone hn j) i
    rcases hin with hin | ⟨r, hr, _⟩ | ⟨r, hr, _⟩
    · exact Proc.step_alone hs hin (h.alone hn j).1 (h.alone hn j).2
    · exact (hnone r hr).elim
    · exact (hnone r hr).elim
  | restart j hl hp =>
    rw [hp]
    refine assign_forall (P := fun _ (p : Proc n) => p.rf.state = .leader ∧ p.elections = 0) ?_
      (fun j _ => h.alone hn j) i
    refine ⟨?_, rfl⟩
    rw [Proc.boot, Raft.make_state, if_pos hn]
  | crashIn r hr hlt hl hp => exact (hnone r hr).elim
  | idle hl hp =>
    rw [hp]
    exact h.alone hn i

theorem Elects.polls_step (h : Elects s g) (hm : Cluster.Move s a s') : s'.polls.Nodup := by
  rcases hm.polls with hsub | ⟨i, rfl, he⟩
  · exact h.polls.sublist hsub
  · rw [he, List.nodup_append]
    refine ⟨h.polls, ?_, ?_⟩
    · apply List.Nodup.map _ ((List.nodup_finRange n).filter _)
      intro u v huv
      cases huv
      rfl
    · rintro ⟨c, u, t⟩ hold _ hnew rfl
      obtain ⟨v, _, hv⟩ := List.mem_map.1 hnew
      cases hv
      have hle := h.ballot.vote_le (h.poll_vote hold)
      rw [(h.node _).term] at hle
      omega

theorem Elects.tally_reply (h : Elects s g) (hg : Grows g g') (hk : s.rpcs[k]? = some r)
    (hcall : r.call = .requestVote args (some reply)) (hs' : s'.rpcs = s.rpcs.eraseIdx k) :
    Tally g' s'.polls r.caller ((s.procs r.caller).requestVoteReply args reply) := by
  have hr := List.mem_of_getElem? hk
  have hpoll : r.poll = some (r.caller, r.server, args.term) := by simp only [Rpc.poll, hcall]
  obtain ⟨hne, hsim⟩ := h.rpc hr
  rw [hcall] at hsim
  have hsub : s'.polls ⊆ s.polls := by
    rw [Cluster.polls, hs']
    exact ((List.eraseIdx_sublist s.rpcs k).filterMap _).subset
  have hout : (r.caller, r.server, args.term) ∉ s'.polls := by
    rw [Cluster.polls, hs']
    exact not_mem_filterMap_eraseIdx h.polls hk hpoll
  have hold := (h.tally r.caller).grows hg (fun _ _ hm => hsub hm) fun hc => ⟨hc, rfl, rfl⟩
  rcases (s.procs r.caller).requestVoteReply_cases args reply with
    he | ⟨hc, ht, ⟨_, he⟩ | ⟨hv, _, ⟨_, he⟩ | he⟩⟩
  · rw [he]
    exact hold
  · rw [he]
    exact fun hc => nomatch hc
  · rw [he]
    exact fun hc => nomatch hc
  · rw [he]
    intro _
    obtain ⟨G, hi, hcard, hG⟩ := (h.tally r.caller).count hsub hc hne
      (ht ▸ hsim.2.2 reply rfl hv) (ht ▸ List.mem_filterMap.2 ⟨r, hr, hpoll⟩) (ht ▸ hout)
    exact ⟨G, hi, hcard, fun u hu => ⟨hg.vote _ _ _ (hG u hu).1, (hG u hu).2⟩⟩

theorem Elects.tally_step (h : Elects s g) (hm : Cluster.Move s a s')
    (hg : Grows g (g.effects (s.labels a))) (i : Fin n) :
    Tally (g.effects (s.labels a)) s'.polls i (s'.procs i) := by
  have hstep (j : Fin n) (p : Proc n) (hne : a ≠ .act j .startElection)
      (hc : p.rf.state = .candidate → (s.procs j).rf.state = .candidate ∧
        p.rf.currentTerm = (s.procs j).rf.currentTerm ∧ p.votes = (s.procs j).votes) :
      Tally (g.effects (s.labels a)) s'.polls j p :=
    (h.tally j).grows hg (fun _ _ => hm.polls_of hne) hc
  have hold (j : Fin n) (hne : a ≠ .act j .startElection) :
      Tally (g.effects (s.labels a)) s'.polls j (s.procs j) :=
    hstep j _ hne fun hc => ⟨hc, rfl, rfl⟩
  have hboot (j : Fin n) (e : Option (RaftState n)) :
      Tally (g.effects (s.labels a)) s'.polls j (.boot j e) := by
    intro hc
    rw [Proc.boot, Raft.make_state] at hc
    split at hc <;> cases hc
  cases hm with
  | act j ev p hl hp hs =>
    refine assign_forall (P := fun j p => Tally _ _ j p) ?_ (fun j' hj => hold j' ?_) i
    · by_cases hne : ev = .startElection
      · subst hne
        exact Tally.started hs
      · refine hstep j p (fun he => hne (by cases he; rfl)) fun hc => ?_
        exact Proc.step_candidate hs hc hne fun args reply he => by rw [he] at hl; cases hl
    · rintro he
      cases he
      exact hj rfl
  | panic j ev hp =>
    refine assign_forall (P := fun j p => Tally _ _ j p) (hboot _ _) (fun j' hj => hold j' ?_) i
    rintro he
    cases he
    exact hj rfl
  | handle k r ev p hr he hs =>
    refine assign_forall (P := fun j p => Tally _ _ j p) ?_ (fun j _ => hold j nofun) i
    obtain ⟨hne, hnr⟩ := Cluster.request_ne he
    exact hstep r.server p nofun fun hc => Proc.step_candidate hs hc hne hnr
  | reply k r ev p hr he hs =>
    refine assign_forall (P := fun j p => Tally _ _ j p) ?_ (fun j _ => hold j nofun) i
    rcases Cluster.replied_eq he with ⟨args, rep, hc, rfl⟩ | ⟨args, rep, _, rfl⟩ |
      ⟨args, rep, _, rfl⟩
    · cases hs
      exact h.tally_reply hg hr hc rfl
    · exact hstep r.caller p nofun fun hc => Proc.step_candidate hs hc nofun nofun
    · exact hstep r.caller p nofun fun hc => Proc.step_candidate hs hc nofun nofun
  | drop k => exact hold i nofun
  | crash j =>
    exact assign_forall (P := fun j p => Tally _ _ j p) (hboot _ _) (fun j _ => hold j nofun) i
  | crashIn k r ev hr he =>
    exact assign_forall (P := fun j p => Tally _ _ j p) (hboot _ _) (fun j _ => hold j nofun) i
  | crashStart j command =>
    exact assign_forall (P := fun j p => Tally _ _ j p) (hboot _ _) (fun j _ => hold j nofun) i

theorem Elects.call_step (h : Elects s g) (hm : Cluster.Move s a s')
    (hg : Grows g (g.effects (s.labels a))) (hc : s'.Carries i j c) :
    i ≠ j ∧ CallSim (g.effects (s.labels a)) i j c := by
  cases hm.source hc with
  | old hc => exact ⟨(h.call i j c hc).1, (h.call i j c hc).2.grows hg⟩
  | reread m ev rf hm hj _ hd hw hlog he =>
    -- the entries do not matter here
    obtain ⟨hne, hleads⟩ := h.call i j _ (.send m hm hj rfl)
    rw [he]
    exact ⟨hne, hg.leads _ _ hleads⟩
  | new ev p _ _ hs hl hc =>
    rw [hl]
    exact (h.node i).calls hs hc
  | answered r ev p hr hi hj he hs hl heq =>
    subst hi
    subst hj
    rw [hl] at hg ⊢
    rw [heq]
    exact ⟨(h.rpc hr).1, (h.rpc hr).2.answered hg he⟩

/-- Every step of the cluster follows the voting rules. -/
theorem Elects.step (h : Elects s g) (hm : Cluster.Move s a s') :
    Along BallotOk g (s.labels a) ∧ Elects s' (g.effects (s.labels a)) := by
  obtain ⟨hok, hnode⟩ := h.turn hm.turn
  have hg := grows_effects hok
  exact ⟨hok, {
    ballot := h.ballot.effects hok
    node := hnode
    solo := h.solo_step hm.turn
    alone := h.alone_step hm.turn
    call := fun _ _ _ hc => h.call_step hm hg hc
    polls := h.polls_step hm
    tally := h.tally_step hm hg }⟩

theorem start_ok (hn : n ≤ 1) : Along Ok (Ledger.empty : Record n)
    ((List.finRange n).flatMap fun i => [.campaign i 0, .win i 0]) := by
  match n, hn with
  | 0, _ => trivial
  | 1, _ =>
    refine ⟨⟨⟨Nat.le_refl _, rfl⟩, fun _ he => nomatch he⟩, ⟨⟨Finset.univ, ?_, ?_⟩, ?_⟩, trivial⟩
    · show Fintype.card (Fin 1) / 2 < (Finset.univ : Finset (Fin 1)).card
      decide
    · intro u _
      obtain rfl : u = 0 := Subsingleton.elim _ _
      rfl
    · exact ⟨rfl, rfl, rfl, fun _ he => he⟩

theorem start_ballot (n : Nat) : Ballot (Record.start n) := by
  unfold Record.start
  split
  · exact ballot_empty.effects ((start_ok ‹_›).mono fun _ _ h => h.1)
  · exact ballot_empty

theorem start_node (i : Fin n) : NodeSim (.start n) i (.make i none) := by
  have ht : (Raft.make i none).currentTerm = 0 :=
    congrArg RaftState.currentTerm (Raft.make_none i)
  have hg : (Record.start n).term i = 0 ∧ (n ≤ 1 → (Record.start n).leads i 0) ∧
      (¬ n ≤ 1 → Record.start n = Ledger.empty) := by
    by_cases hn : n ≤ 1
    · match n, hn, i with
      | 1, _, 0 => exact ⟨rfl, fun _ => .inl ⟨rfl, rfl⟩, fun h => (h (Nat.le_refl 1)).elim⟩
    · rw [Record.start, if_neg hn]
      exact ⟨rfl, fun h => (hn h).elim, fun _ => rfl⟩
  constructor
  · exact Raft.make_me i none
  · rw [ht, hg.1]
  · intro hn c hc
    rw [hg.2.2 hn] at hc
    cases hc
  · rw [Raft.make_state]
    split <;> exact fun hc => nomatch hc
  · rw [Raft.make_state, ht]
    split
    · exact fun _ => hg.2.1 ‹_›
    · exact fun hc => nomatch hc
  · exact Raft.make_stored i

theorem elects_init (n : Nat) : Elects (.init n) (.start n) where
  ballot := start_ballot n
  node := start_node
  solo := fun _ => rfl
  alone := fun hn i => ⟨(Raft.make_state i none).trans (if_pos hn), rfl⟩
  call := fun _ _ _ hc => by cases hc <;> contradiction
  polls := List.nodup_nil
  tally := by
    intro i hc
    have hst : ((Cluster.init n).procs i).rf.state = _ := Raft.make_state i none
    rw [hst] at hc
    split at hc <;> cases hc

theorem Cluster.Traced.elects (h : Traced ok s g) : Elects s g := by
  induction h with
  | init => exact elects_init n
  | step _ _ hs ih => exact (ih.step (step_move hs)).2

/-- No two nodes lead in the same term. -/
theorem election_safety (h : s.Reachable) (hij : i ≠ j) (hi : (s.procs i).rf.state = .leader)
    (hj : (s.procs j).rf.state = .leader) :
    (s.procs i).rf.currentTerm ≠ (s.procs j).rf.currentTerm := by
  obtain ⟨g, hg⟩ := Cluster.ReachableBy.traced h
  have he := hg.elects
  intro ht
  have hli := (he.node i).leader hi
  rw [ht] at hli
  exact hij (he.ballot.leads_unique hli ((he.node j).leader hj))

/-- Two leaders at once, the older of which has not heard of the newer one. -/
theorem election_safety_overlap : ∃ s : Cluster 3, s.Reachable ∧
    (s.procs 0).rf.state = .leader ∧ (s.procs 1).rf.state = .leader ∧
    (s.procs 0).rf.currentTerm ≠ (s.procs 1).rf.currentTerm := by
  have hrun : RunsTo Cluster.step (fun _ _ => True)
      (fun s => (s.procs 0).rf.state = .leader ∧ (s.procs 1).rf.state = .leader) (.init 3)
      [.act 0 .tick, .act 0 .startElection, .handle 0, .reply 0,
        .act 1 .tick, .act 1 .startElection, .handle 2, .reply 2] := by
    decide +kernel
  obtain ⟨s, hs, h0, h1⟩ := hrun.reachable
  exact ⟨s, hs, h0, h1, election_safety hs (by decide) h0 h1⟩

end

end LinKV

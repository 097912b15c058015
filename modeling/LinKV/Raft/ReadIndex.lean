import LinKV.Raft.Reading
import LinKV.Raft.Election

namespace LinKV
open Consensus Ledger
set_option autoImplicit true

/-- A reply is counted for a read only if it answers a request sent after the read began, and
only the first one of its server. -/
def Cluster.countsFresh (s : Cluster n) : Action n → Bool
  | .reply k =>
    match s.rpcs[k]? with
    | none => true
    | some r =>
      match r.call, (s.procs r.caller).readCall with
      | .appendEntries args (some reply), some c =>
        !(s.procs r.caller).rf.countsRead args reply ||
          (c.startedAt < r.sentAt && !c.counted.contains r.server)
      | _, _ => true
  | _ => true

/-- Node `i` stands behind every peer it has counted for its read `c`. -/
structure ReadOk (answers : List (Answer n)) (i : Fin n) (t : Nat) (x : Reading n)
    (c : ReadCall n) : Prop where
  count : x.count = c.counted.length + 1
  filled : x.ch = some true → n / 2 < x.count
  signal : c.signalled = true → n / 2 < x.count
  nodup : (i :: c.counted).Nodup
  term : c.term ≤ t
  answered : ∀ u ∈ c.counted, ∃ a ∈ answers, a.server = u ∧ a.caller = i ∧ c.term ≤ a.term ∧
    a.term ≤ t ∧ c.startedAt < a.sentAt

def Confirmed (answers : List (Answer n)) (i : Fin n) (t : Nat) (x : Reading n) : Prop :=
  ∀ c, x.call = some c → ReadOk answers i t x c

section

variable {answers answers' : List (Answer n)} {i : Fin n} {x : Reading n} {c : ReadCall n}

theorem ReadOk.mono (h : ReadOk answers i t x c) (hsub : answers ⊆ answers') (ht : t ≤ t') :
    ReadOk answers' i t' x c where
  count := h.count
  filled := h.filled
  signal := h.signal
  nodup := h.nodup
  term := Nat.le_trans h.term ht
  answered u hu := by
    obtain ⟨a, ha, hs, hc, hle, hle', hat⟩ := h.answered u hu
    exact ⟨a, hsub ha, hs, hc, hle, Nat.le_trans hle' ht, hat⟩

/-- A fresh reply of a peer not counted yet may be counted. -/
theorem ReadOk.add (h : ReadOk answers i t x c) (ha : a ∈ answers) (hc : a.caller = i)
    (hi : a.server ≠ i) (hnew : a.server ∉ c.counted) (ht : a.term = t)
    (hat : c.startedAt < a.sentAt) (hch : x.ch = some b) :
    ReadOk answers i t
      { call := y, ch := some (b || n / 2 < x.count + 1), count := x.count + 1 }
      { c with counted := a.server :: c.counted } where
  count := congrArg (· + 1) h.count
  filled hf := by
    simp only [Option.some.injEq, Bool.or_eq_true, decide_eq_true_eq] at hf
    rcases hf with rfl | hf
    · exact Nat.lt_succ_of_lt (h.filled hch)
    · exact hf
  signal hs := Nat.lt_succ_of_lt (h.signal hs)
  nodup := by
    have hd := List.nodup_cons.1 h.nodup
    refine List.nodup_cons.2 ⟨?_, List.nodup_cons.2 ⟨hnew, hd.2⟩⟩
    exact List.not_mem_cons_of_ne_of_not_mem hi.symm hd.1
  term := h.term
  answered u hu := by
    rcases List.mem_cons.1 hu with rfl | hu
    · exact ⟨a, ha, rfl, hc, ht ▸ h.term, Nat.le_of_eq ht, hat⟩
    · exact h.answered u hu

theorem confirmed_start : Confirmed answers i t {
    call := some ⟨index, t, false, now, []⟩
    ch := some (n / 2 < 1 : Bool)
    count := 1 } := by
  rintro c ⟨⟩
  refine ⟨rfl, fun hf => ?_, nofun, List.nodup_singleton i, Nat.le_refl _, nofun⟩
  exact of_decide_eq_true (Option.some.inj hf)

theorem ReadStep.confirmed {p : Proc n} (hr : ReadStep now p ev x)
    (h : Confirmed answers i p.rf.currentTerm p.reading)
    (hcount : ∀ server args reply c, ev = .appendEntriesReply server args reply →
      p.readCall = some c → p.rf.countsRead args reply = true →
      server ≠ i ∧ server ∉ c.counted ∧ ∃ a ∈ answers, a.server = server ∧ a.caller = i ∧
        a.term = args.term ∧ c.startedAt < a.sentAt) :
    Confirmed answers i p.rf.currentTerm x := by
  cases hr with
  | same => exact h
  | start hl =>
    exact confirmed_start
  | signal c hc hch =>
    rintro _ ⟨⟩
    have hok := h c hc
    exact ⟨hok.count, nofun, fun _ => hok.filled hch, hok.nodup, hok.term, hok.answered⟩
  | stop _ _ hx =>
    intro c hc
    rw [hx] at hc
    cases hc
  | count server args reply filled hch hc =>
    intro c' hc'
    obtain ⟨c, hcall, rfl⟩ := Option.map_eq_some_iff.1 hc'
    obtain ⟨hne, hnew, a, ha, rfl, hcaller, hterm, hat⟩ := hcount _ _ _ c rfl hcall hc
    have ht : args.term = p.rf.currentTerm := by
      simp only [Raft.countsRead, Bool.and_eq_true, decide_eq_true_eq] at hc
      exact hc.1.1.1.2
    exact (h c hcall).add ha hcaller hne hnew (hterm.trans ht) hat hch

end

section

variable {s s' : Cluster n} {i : Fin n}

/-- Every successful `AppendEntries` reply in flight is on record, and nothing on record is from
the future. -/
structure Answered (s : Cluster n) : Prop where
  replied : ∀ r ∈ s.rpcs, ∀ args rep, r.call = .appendEntries args (some rep) →
    rep.success = true → ⟨r.server, r.caller, args.term, r.sentAt⟩ ∈ s.answers
  sent : ∀ r ∈ s.rpcs, r.sentAt < s.now
  past : ∀ a ∈ s.answers, a.sentAt < s.now

theorem Cluster.request_ne_reply {call : Call n} (h : call.request = some ev) :
    ev ≠ .appendEntriesReply j args rep := by
  rcases request_eq h with ⟨_, _, rfl⟩ | ⟨_, _, rfl⟩ | ⟨_, _, rfl⟩ <;> nofun

theorem Cluster.Move.now_eq (hm : Move s a s') : s'.now = s.now + 1 := by
  cases hm <;> rfl

theorem Cluster.Move.answers (hm : Move s a s') :
    s'.answers = s.answers ∨ ∃ k r, a = .handle k ∧ s.rpcs[k]? = some r ∧
      s'.answers = s.answers ++ r.answer (s.procs r.server) := by
  cases hm with
  | handle k r ev p hr he hs => exact .inr ⟨k, r, rfl, hr, rfl⟩
  | _ => exact .inl rfl

theorem Cluster.Move.answers_subset (hm : Move s a s') : s.answers ⊆ s'.answers := by
  rcases hm.answers with he | ⟨_, _, _, _, he⟩ <;> rw [he]
  · exact List.Subset.refl _
  · exact List.subset_append_left _ _

/-- No call is made with its reply. -/
theorem Proc.calls_request {p : Proc n} (h : (j, call) ∈ p.calls ev) : call.request.isSome := by
  obtain ⟨-, -, rfl⟩ | ⟨-, _, rfl, -⟩ | ⟨_, _, -, -, -, rfl⟩ := mem_calls h <;> rfl

theorem Rpc.mem_answer {r : Rpc n} (h : a ∈ r.answer p) :
    ∃ args rep, r.call = .appendEntries args rep ∧ (p.rf.appendEntries args).2.success = true ∧
      a = ⟨r.server, r.caller, args.term, r.sentAt⟩ := by
  unfold Rpc.answer at h
  split at h
  · next args rep hc =>
    split at h
    · next hs => exact ⟨args, rep, hc, hs, List.mem_singleton.1 h⟩
    · cases h
  · cases h

theorem Answered.step (h : Answered s) (hm : Cluster.Move s a s') : Answered s' where
  replied r hr args rep hcall hsucc := by
    cases hm.origin hr with
    | old r₀ hr₀ hc hs hcall' hat =>
      rw [hcall'] at hcall
      rw [hc, hs, hat]
      exact hm.answers_subset (h.replied r₀ hr₀ args rep hcall hsucc)
    | new ev p _ ha hs hl hc hat =>
      have hreq := Proc.calls_request hc
      rw [hcall] at hreq
      cases hreq
    | torn ev m _ _ _ _ hcall' => cases hcall'.symm.trans hcall
    | answered k r₀ ev p ha hk hreq hs hl heq =>
      subst ha heq
      cases hm with
      | handle _ r₁ _ _ hk' =>
        cases hk.symm.trans hk'
        apply List.mem_append_right
        rcases Cluster.request_eq hreq with ⟨_, hc, _⟩ | ⟨args₀, hc, _⟩ | ⟨_, hc, _⟩ <;>
          simp only [hc, Call.answered, Call.appendEntries.injEq, Option.some.injEq,
            reduceCtorEq] at hcall
        obtain ⟨rfl, rfl⟩ := hcall
        simp only [Rpc.answer, hc, hsucc, ↓reduceIte, List.mem_singleton]
  sent r hr := by
    rw [hm.now_eq]
    cases hm.origin hr with
    | old r₀ hr₀ _ _ _ hat => exact hat ▸ Nat.lt_succ_of_lt (h.sent r₀ hr₀)
    | new _ _ _ _ _ _ _ hat => exact hat ▸ Nat.lt_succ_self _
    | torn _ _ _ _ _ _ _ hat => exact hat ▸ Nat.lt_succ_self _
    | answered k r₀ _ _ _ hk _ _ _ heq =>
      subst heq
      exact Nat.lt_succ_of_lt (h.sent r₀ (List.mem_of_getElem? hk))
  past x hx := by
    rw [hm.now_eq]
    rcases hm.answers with he | ⟨k, r, _, hk, he⟩
    · exact Nat.lt_succ_of_lt (h.past x (he ▸ hx))
    · rcases List.mem_append.1 (he ▸ hx) with hx | hx
      · exact Nat.lt_succ_of_lt (h.past x hx)
      · obtain ⟨_, _, _, _, rfl⟩ := Rpc.mem_answer hx
        exact Nat.lt_succ_of_lt (h.sent r (List.mem_of_getElem? hk))

theorem answered_init (n : Nat) : Answered (.init n) where
  replied := nofun
  sent := nofun
  past := nofun

theorem Cluster.ReachableBy.answered (h : s.ReachableBy ok) : Answered s := by
  induction h with
  | init => exact answered_init n
  | step _ _ hs ih => exact ih.step (step_move hs)

theorem Elects.term_le (h : Elects s g) (hm : Cluster.Move s a s') (i : Fin n) :
    (s.procs i).rf.currentTerm ≤ (s'.procs i).rf.currentTerm := by
  obtain ⟨hok, h'⟩ := h.step hm
  rw [← (h.node i).term, ← (h'.node i).term]
  exact (grows_effects hok).term i

theorem Confirmed.mono (h : Confirmed answers i t x) (hsub : answers ⊆ answers') (ht : t ≤ t') :
    Confirmed answers' i t' x :=
  fun c hc => (h c hc).mono hsub ht

theorem confirmed_boot (j : Fin n) (e : Option (RaftState n)) :
    Confirmed answers i t (Proc.boot j e).reading := nofun

theorem Answered.fresh (h : Answered s) (he : Elects s g) (hk : s.rpcs[k]? = some r)
    (hf : s.countsFresh (.reply k) = true) (hcall : r.call = .appendEntries args (some rep))
    (hc : (s.procs r.caller).readCall = some c)
    (hr : (s.procs r.caller).rf.countsRead args rep = true) :
    r.server ≠ r.caller ∧ r.server ∉ c.counted ∧ ∃ a ∈ s.answers, a.server = r.server ∧
      a.caller = r.caller ∧ a.term = args.term ∧ c.startedAt < a.sentAt := by
  have hmem := List.mem_of_getElem? hk
  simp only [Cluster.countsFresh, hk, hcall, hc, hr, Bool.not_true, Bool.false_or,
    Bool.and_eq_true, decide_eq_true_eq, Bool.not_eq_true', List.contains_eq_mem,
    decide_eq_false_iff_not] at hf
  have hsucc : rep.success = true := by
    simp only [Raft.countsRead, Bool.and_eq_true] at hr
    exact hr.1.2
  exact ⟨(he.rpc hmem).1.symm, hf.2, _, h.replied r hmem args rep hcall hsucc, rfl, rfl, rfl,
    hf.1⟩

/-- If the event is an `AppendEntries` reply, it is the one that action `a` delivers to node
`i`. -/
def Cluster.Delivers (s : Cluster n) (a : Action n) (i : Fin n) (ev : Event n) : Prop :=
  ∀ server args rep, ev = .appendEntriesReply server args rep → ∃ k r, a = .reply k ∧
    s.rpcs[k]? = some r ∧ r.caller = i ∧ r.server = server ∧
    r.call = .appendEntries args (some rep)

/-- What a step of the cluster does to the read of node `i`. -/
theorem Cluster.Move.reading (hm : Move s a s') (i : Fin n) :
    ∃ ev, ReadStep s.now (s.procs i) ev (s'.procs i).reading ∧ s.Delivers a i ev := by
  have hset (j : Fin n) (p : Proc n) (ev : Event n)
      (hp : ReadStep s.now (s.procs j) ev p.reading) (hev : s.Delivers a j ev) :
      ∃ ev, ReadStep s.now (s.procs i) ev (assign s.procs j p i).reading ∧
        s.Delivers a i ev := by
    by_cases hij : i = j
    · subst hij
      rw [assign_self]
      exact ⟨ev, hp, hev⟩
    · rw [assign_ne _ _ hij]
      exact ⟨.tick, .same _, nofun⟩
  cases hm with
  | act j ev p hl hp hs =>
    refine hset j p ev (Proc.step_reading hs) ?_
    rintro _ _ _ rfl
    cases hl
  | panic => exact hset _ _ .tick (.stop _ _ rfl) nofun
  | handle k r ev p hr hreq hs =>
    refine hset _ p ev (Proc.step_reading hs) ?_
    rintro _ _ _ rfl
    exact (Cluster.request_ne_reply hreq rfl).elim
  | reply k r ev p hr hrep hs =>
    refine hset _ p ev (Proc.step_reading hs) ?_
    rintro server args rep rfl
    rcases Cluster.replied_eq hrep with ⟨_, _, _, ⟨⟩⟩ | ⟨_, _, hcall, ⟨⟩⟩ | ⟨_, _, _, ⟨⟩⟩
    exact ⟨k, r, rfl, hr, rfl, rfl, hcall⟩
  | drop => exact ⟨.tick, .same _, nofun⟩
  | crash => exact hset _ _ .tick (.stop _ _ rfl) nofun
  | crashIn => exact hset _ _ .tick (.stop _ _ rfl) nofun
  | crashStart => exact hset _ _ .tick (.stop _ _ rfl) nofun

theorem Confirmed.step (h : Confirmed s.answers i (s.procs i).rf.currentTerm (s.procs i).reading)
    (ha : Answered s) (he : Elects s g) (hm : Cluster.Move s a s')
    (hf : s.countsFresh a = true) :
    Confirmed s'.answers i (s'.procs i).rf.currentTerm (s'.procs i).reading := by
  obtain ⟨ev, hread, hfrom⟩ := hm.reading i
  refine (hread.confirmed h ?_).mono hm.answers_subset (he.term_le hm i)
  intro server args rep c hev hc hcnt
  obtain ⟨k, r, rfl, hk, rfl, rfl, hcall⟩ := hfrom server args rep hev
  exact ha.fresh he hk hf hcall hc hcnt

theorem Cluster.readReturn_signalled (hs : s.step (.act i .readReturn) = some s')
    (hc : (s.procs i).readCall = some c) : c.signalled = true := by
  cases step_move hs with
  | act _ _ p _ _ hst =>
    simp only [Proc.step, hc] at hst
    split at hst
    · assumption
    · cases hst
  | panic _ _ hp => cases hp

theorem ReadOk.majority {p : Proc n} (h : ReadOk answers i p.rf.currentTerm p.reading c)
    (hsig : c.signalled = true) (hr : p.readResult c = (idx, true)) :
    c.index = idx ∧ c.term = p.rf.currentTerm ∧ ∃ Q : Finset (Fin n), Majority Q ∧ i ∈ Q ∧
      ∀ u ∈ Q, u ≠ i → ∃ a ∈ answers, a.server = u ∧ a.caller = i ∧
        a.term = p.rf.currentTerm ∧ c.startedAt < a.sentAt := by
  unfold Proc.readResult at hr
  split at hr
  · cases hr
  · next hst =>
    cases hr
    have ht : c.term = p.rf.currentTerm := (not_not.1 (not_or.1 hst).2).symm
    refine ⟨rfl, ht, (i :: c.counted).toFinset, ?_, ?_, fun u hu hne => ?_⟩
    · unfold Majority
      rw [Fintype.card_fin, List.toFinset_card_of_nodup h.nodup, List.length_cons, ← h.count]
      exact h.signal hsig
    · exact List.mem_toFinset.2 List.mem_cons_self
    · have hmem := (List.mem_cons.1 (List.mem_toFinset.1 hu)).resolve_left hne
      obtain ⟨a, ha, hs, hc, hle, hle', hat⟩ := h.answered u hmem
      exact ⟨a, ha, hs, hc, Nat.le_antisymm hle' (ht ▸ hle), hat⟩

theorem Cluster.ReachableBy.confirmed (h : s.ReachableBy fun s a => s.countsFresh a = true)
    (i : Fin n) : Confirmed s.answers i (s.procs i).rf.currentTerm (s.procs i).reading := by
  induction h with
  | init => exact confirmed_boot i none
  | step hr ha hs ih =>
    obtain ⟨g, hg⟩ := ReachableBy.traced hr
    exact ih.step (ReachableBy.answered hr) hg.elects (step_move hs) ha

/-- A `ReadIndex` that succeeds has had its leadership confirmed by a majority after it began, in
every run in which it counts only fresh replies of distinct peers. -/
theorem read_index_confirmed (h : s.ReachableBy fun s a => s.countsFresh a = true)
    (hs : s.step (.act i .readReturn) = some s') (hc : (s.procs i).readCall = some c)
    (hr : (s.procs i).readResult c = (idx, true)) :
    ∃ Q : Finset (Fin n), Majority Q ∧ i ∈ Q ∧ ∀ u ∈ Q, u ≠ i → ∃ a ∈ s.answers, a.server = u ∧
      a.caller = i ∧ a.term = (s.procs i).rf.currentTerm ∧ c.startedAt < a.sentAt :=
  ((h.confirmed i c hc).majority (Cluster.readReturn_signalled hs hc) hr).2.2

end

/-- The heartbeat that confirms the read is sent after it began. -/
theorem read_index_confirmed_fresh : ∃ s : Cluster 3, ∃ c,
    (s.ReachableBy fun s a => s.countsFresh a = true) ∧ (s.procs 0).readCall = some c ∧
    (s.procs 0).readResult c = (0, true) ∧
    ∃ Q : Finset (Fin 3), Majority Q ∧ 0 ∈ Q ∧ ∀ u ∈ Q, u ≠ 0 → ∃ a ∈ s.answers, a.server = u ∧
      a.caller = 0 ∧ a.term = (s.procs 0).rf.currentTerm ∧ c.startedAt < a.sentAt := by
  let c : ReadCall 3 := ⟨0, 1, true, 5, [1]⟩
  have hrun : RunsTo Cluster.step (fun s a => s.countsFresh a = true)
      (fun s => (s.procs 0).readCall = some c ∧ (s.procs 0).readResult c = (0, true) ∧
        (s.step (.act 0 .readReturn)).isSome) (.init 3)
      [.act 0 .tick, .act 0 .startElection, .handle 0, .reply 0, .drop 0, .act 0 .readIndex,
        .act 0 (.replicate 1), .act 0 (.send 0), .handle 0, .reply 0, .act 0 .readSignal] := by
    decide +kernel
  obtain ⟨s, hs, hc, hr, hret⟩ := hrun.reachable
  obtain ⟨s', hs'⟩ := Option.isSome_iff_exists.1 hret
  exact ⟨s, c, hs, hc, hr, read_index_confirmed hs hs' hc hr⟩

/-- The only reply counted answers a heartbeat from before the read. -/
theorem read_index_confirmed_fails : ∃ s : Cluster 3, ∃ c, s.Reachable ∧
    (s.step (.act 0 .readReturn)).isSome ∧ (s.procs 0).readCall = some c ∧
    (s.procs 0).readResult c = (0, true) ∧
    ¬ ∃ Q : Finset (Fin 3), Majority Q ∧ 0 ∈ Q ∧ ∀ u ∈ Q, u ≠ 0 → ∃ a ∈ s.answers,
      a.server = u ∧ a.caller = 0 ∧ a.term = (s.procs 0).rf.currentTerm ∧
        c.startedAt < a.sentAt := by
  let c : ReadCall 3 := ⟨0, 1, true, 8, [1]⟩
  have hrun : RunsTo Cluster.step (fun _ _ => True)
      (fun s => (s.step (.act 0 .readReturn)).isSome ∧ (s.procs 0).readCall = some c ∧
        (s.procs 0).readResult c = (0, true) ∧ ∀ a ∈ s.answers, a.sentAt < c.startedAt) (.init 3)
      [.act 0 .tick, .act 0 .startElection, .handle 0, .reply 0, .drop 0, .act 0 (.replicate 1),
        .act 0 (.send 0), .handle 0, .act 0 .readIndex, .reply 0, .act 0 .readSignal] := by
    decide +kernel
  obtain ⟨s, hs, hret, hc, hr, hold⟩ := hrun.reachable
  refine ⟨s, c, hs, hret, hc, hr, ?_⟩
  rintro ⟨Q, hQ, _, hans⟩
  obtain ⟨u, hu, hne⟩ := Finset.exists_mem_ne (show 1 < Q.card from hQ) 0
  obtain ⟨a, ha, _, _, _, hlt⟩ := hans u hu hne
  exact Nat.lt_asymm hlt (hold a ha)

end LinKV

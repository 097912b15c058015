import LinKV.Server.Steps

namespace LinKV
set_option autoImplicit true

namespace Service

/-- A command of the same client with the same number has been executed. -/
def HasExecuted (s : Service) (env : Command) : Prop :=
  ∃ e ∈ s.executed, e.1.env.clientID = env.clientID ∧ e.1.env.seq = env.seq

instance (s : Service) (env : Command) : Decidable (s.HasExecuted env) :=
  inferInstanceAs (Decidable (∃ e ∈ s.executed, _ ∧ _))

/-- Without reads the table knows exactly the clients with an executed command, the one at hand
apart, and the number of such a command. -/
structure Tabled (s : Service) : Prop where
  table : ∀ k ∈ s.server.clientLastSeq,
    ∃ e ∈ s.executed, e.1.env.clientID = k ∧ e.1.env.seq = s.server.lastSeq k
  known : ∀ e ∈ s.executed, e.1.env.clientID ∈ s.server.clientLastSeq ∨
    ∃ d r, s.loop = .executed d r ∧ d.env.clientID = e.1.env.clientID
  pending : ∀ d r, s.loop = .executed d r → (d, r) ∈ s.executed

variable {s s' : Service}

theorem Tabled.frame (h : s.Tabled) (ht : s'.server.SameTables s.server)
    (hx : s'.executed = s.executed)
    (hl : ∀ d r, s.loop = .executed d r ↔ s'.loop = .executed d r) : s'.Tabled where
  table k hk := by
    rw [ht.1] at hk
    rw [hx, ht.lastSeq]
    exact h.table k hk
  known e he := by
    rw [ht.1]
    exact (h.known e (hx ▸ he)).imp_right fun ⟨d, r, hd, hk⟩ => ⟨d, r, (hl d r).1 hd, hk⟩
  pending d r hd := hx ▸ h.pending d r ((hl d r).2 hd)

theorem Tabled.effect (h : s.Tabled) (he : Effect s s' ev) (hev : ev.isRead = false) :
    s'.Tabled := by
  cases he with
  | quiet ht hx hl hr => exact h.frame ht hx fun d r => by rw [hl]
  | check hl hd hl' hlt ht hx hr => exact h.frame ht hx fun d r => by simp [hl, hl']
  | @execute d r hl hl' ho hx ht hr =>
    refine ⟨fun k hk => ?_, fun e he => ?_, fun d' r' hd' => ?_⟩
    · rw [ht.1] at hk
      obtain ⟨e, he, heq⟩ := h.table k hk
      rw [hx, ht.lastSeq]
      exact ⟨e, List.mem_append_left _ he, heq⟩
    · rw [hx] at he
      rcases List.mem_append.1 he with he | he
      · rcases h.known e he with hk | ⟨d', r', hd', -⟩
        · exact .inl (ht.1 ▸ hk)
        · cases hl.symm.trans hd'
      · obtain rfl := List.mem_singleton.1 he
        exact .inr ⟨d, r, hl', rfl⟩
    · cases hl'.symm.trans hd'
      rw [hx]
      exact List.mem_append_right _ (List.mem_singleton_self _)
  | @record d r hl hl' ht hx hr =>
    have hd := h.pending d r hl
    have hseqs : s'.server.clientLastSeq = s.server.clientLastSeq.insert d.env.clientID d.env.seq :=
      ht.1
    refine ⟨fun k hk => ?_, fun e he => ?_, fun d' r' hd' => ?_⟩
    · rw [hx, ht.lastSeq, Server.lastSeq_remember]
      split
      · next hkd => exact ⟨(d, r), hd, hkd.symm, rfl⟩
      · next hkd =>
        rw [hseqs, Finmap.mem_insert] at hk
        exact h.table k (hk.resolve_left hkd)
    · rw [hseqs, Finmap.mem_insert]
      rcases h.known e (hx ▸ he) with hk | ⟨d', r', hd', hk⟩
      · exact .inl (.inr hk)
      · cases hl.symm.trans hd'
        exact .inl (.inl hk.symm)
    · cases hl'.symm.trans hd'
  | get | lock | range => cases hev

theorem Tabled.reachable {store : KVStore} {commands : List Delivery}
    (h : Consensus.ReachableBy Service.step (fun _ ev => ev.isRead = false)
      { server := .new store, applyCh := commands } s) : s.Tabled := by
  induction h with
  | init =>
    exact ⟨fun _ hk => absurd hk Finmap.notMem_empty, fun _ he => absurd he List.not_mem_nil,
      fun _ _ hd => nomatch hd⟩
  | step _ hok hs ih => exact ih.effect (step_effect hs) hok

end Service

namespace Service

variable {s : Service} {d : Delivery} {rest : List Delivery}

theorem Tabled.lastSeq_eq_zero (ht : s.Tabled)
    (hnone : ∀ e ∈ s.executed, e.1.env.clientID ≠ k) : s.server.lastSeq k = 0 := by
  have hk : k ∉ s.server.clientLastSeq := fun hk => by
    obtain ⟨e, he, heq, -⟩ := ht.table _ hk
    exact hnone e he heq
  rw [Server.lastSeq, GoMap.get, Finmap.lookup_eq_none.2 hk, Option.getD_none]

theorem Tabled.hasExecuted (ht : s.Tabled) (hl : s.loop = .idle)
    (hseq : d.env.seq = s.server.lastSeq d.env.clientID)
    (hc : d.env.seq ≠ 0 ∨ ∃ e ∈ s.executed, e.1.env.clientID = d.env.clientID) :
    s.HasExecuted d.env := by
  have hk : d.env.clientID ∈ s.server.clientLastSeq := by
    by_contra hk
    rcases hc with hne | ⟨e, he, heq⟩
    · rw [Server.lastSeq, GoMap.get, Finmap.lookup_eq_none.2 hk] at hseq
      exact hne hseq
    · rcases ht.known e he with hk' | ⟨d', r', hd', -⟩
      · exact hk (heq ▸ hk')
      · cases hl.symm.trans hd'
  obtain ⟨e, he, heq, hlast⟩ := ht.table _ hk
  exact ⟨e, he, heq, hlast.trans hseq.symm⟩

end Service

/-- `applyLoop` takes a command for a duplicate, and tells the waiting call so, only if the
client's command with that number has been executed: this holds exactly unless the number is 0
and the client has had no command executed yet. Its other answers are about the command it has
just executed. -/
theorem duplicate_was_executed {store : KVStore} {commands : List Delivery} {s : Service}
    (h : Consensus.ReachableBy Service.step (fun _ ev => ev.isRead = false)
      { server := .new store, applyCh := commands } s) :
    (∀ d rest, s.loop = .idle → s.applyCh = d :: rest →
      (((∀ r, s.server.dedup d.env.clientID d.env.seq = .duplicate r → s.HasExecuted d.env) ∧
          ∀ s', s.step .loop = some s' → s.newResults s' ≠ [] → s.HasExecuted d.env) ↔
        d.env.seq ≠ 0 ∨ ∃ e ∈ s.executed, e.1.env.clientID = d.env.clientID)) ∧
    ∀ d r, s.loop = .executed d r → s.HasExecuted d.env := by
  have ht : s.Tabled := .reachable h
  refine ⟨fun d rest hl hd => ⟨?_, fun hc => ?_⟩, fun d r hl => ⟨_, ht.pending d r hl, rfl, rfl⟩⟩
  · rintro ⟨hdup, -⟩
    by_contra! hc
    obtain ⟨hseq, hnone⟩ := hc
    have hdef := hseq.trans (ht.lastSeq_eq_zero hnone).symm
    obtain ⟨e, he, heq, -⟩ := hdup _ (Server.dedup_eq_duplicate.2 ⟨hdef, rfl⟩)
    exact hnone e he heq
  · have hdup (r : Result) (hr : s.server.dedup d.env.clientID d.env.seq = .duplicate r) :
        s.HasExecuted d.env := ht.hasExecuted hl ((Server.dedup_eq_duplicate.1 hr).1) hc
    refine ⟨hdup, fun s' hs' hnew => ?_⟩
    obtain ⟨⟨index, r⟩, hm⟩ := List.exists_mem_of_ne_nil _ hnew
    cases Service.mem_newResults hs' hm with
    | duplicate _ hd' hr =>
      cases hd.symm.trans hd'
      exact hdup r hr
    | recorded hl' => cases hl.symm.trans hl'

/-- A put of client 1 with the given number, committed at the index. -/
def numberedPut (index seq : Int) : Delivery :=
  ⟨index, { kind := .kv, kv := some ⟨.put, [1], [2], 1, seq, 0⟩ }, ⟨0, []⟩⟩

/-- A put that has been committed twice and executed once is a duplicate. -/
theorem duplicate_was_executed_again :
    ∃ s, Consensus.ReachableBy Service.step (fun _ ev => ev.isRead = false)
        { server := .new .new, applyCh := [numberedPut 1 1, numberedPut 2 1] } s ∧
      s.loop = .idle ∧ s.applyCh = [numberedPut 2 1] ∧
      s.server.dedup 1 1 = .duplicate (s.server.cached 1) ∧
      s.HasExecuted (numberedPut 2 1).env := by
  have h : Consensus.RunsTo Service.step (fun _ ev => ev.isRead = false)
      (fun s => s.loop = .idle ∧ s.applyCh = [numberedPut 2 1] ∧
        s.server.dedup 1 1 = .duplicate (s.server.cached 1))
      { server := .new .new, applyCh := [numberedPut 1 1, numberedPut 2 1] }
      [.loop, .loop, .loop] := by
    decide +kernel
  obtain ⟨s, hs, hl, hd, hdup⟩ := h.reachable
  exact ⟨s, hs, hl, hd, hdup,
    (((duplicate_was_executed hs).1 _ _ hl hd).2 (.inl (by decide))).1 _ hdup⟩

/-- A first put with the number 0 is answered without an error and not executed. -/
theorem duplicate_was_executed_fails :
    ∃ s s', Consensus.ReachableBy Service.step (fun _ ev => ev.isRead = false)
        { server := .new .new, applyCh := [numberedPut 1 0] } s ∧
      s.loop = .idle ∧ s.applyCh = [numberedPut 1 0] ∧
      s.server.dedup 1 0 = .duplicate {} ∧ ¬ s.HasExecuted (numberedPut 1 0).env ∧
      s.step .loop = some s' ∧ s.newResults s' = [(1, {})] ∧ s'.executed = [] := by
  have h : Consensus.RunsTo Service.step (fun _ ev => ev.isRead = false)
      (fun s => s.loop = .idle ∧ s.applyCh = [numberedPut 1 0] ∧
        s.server.dedup 1 0 = .duplicate {} ∧ ¬ s.HasExecuted (numberedPut 1 0).env ∧
        (s.step .loop).elim False fun s' => s.newResults s' = [(1, {})] ∧ s'.executed = [])
      { server := .new .new, applyCh := [numberedPut 1 0] }
      [.submit 1 (numberedPut 1 0).env] := by
    decide +kernel
  obtain ⟨s, hs, hl, hd, hdup, hnot, hstep⟩ := h.reachable
  obtain ⟨s', hs', hnew, hx⟩ := Consensus.exists_of_elim hstep
  exact ⟨s, s', hs, hl, hd, hdup, hnot, hs', hnew, hx⟩

end LinKV

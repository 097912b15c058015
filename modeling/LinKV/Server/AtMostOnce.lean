import LinKV.Server.Steps

namespace LinKV
set_option autoImplicit true

namespace Service

variable {s s' : Service}

/-- What the table says about a client, or will say once the command at hand is recorded. -/
def bound (s : Service) (k : Int) : Int :=
  match s.loop with
  | .executed d _ => if k = d.env.clientID then d.env.seq else s.server.lastSeq k
  | _ => s.server.lastSeq k

/-- The bounds dominate every executed number, although the record of a command may lower the
table. -/
structure Ordered (s : Service) : Prop where
  increasing : s.executed.Pairwise fun e e' =>
    e.1.env.clientID = e'.1.env.clientID → e.1.env.seq < e'.1.env.seq
  bounded : ∀ e ∈ s.executed, e.1.env.seq ≤ s.bound e.1.env.clientID
  checked : ∀ d, s.loop = .checked d → ∀ e ∈ s.executed, e.1.env.clientID = d.env.clientID →
    e.1.env.seq < d.env.seq
  reading : ∀ req readRev, s.reading = some (req, readRev) →
    s.server.lastSeq req.clientID < req.seq

theorem bound_of_ne (h : ∀ d r, s.loop ≠ .executed d r) (k : Int) :
    s.bound k = s.server.lastSeq k := by
  unfold bound
  split
  · next hl => exact absurd hl (h _ _)
  · rfl

theorem bound_le_remember (hl : s'.loop = s.loop) (hlt : s.server.lastSeq j < seq)
    (ht : s'.server.SameTables (s.server.remember j seq r)) (k : Int) :
    s.bound k ≤ s'.bound k := by
  have hle : s.server.lastSeq k ≤ s'.server.lastSeq k := by
    rw [ht.lastSeq, Server.lastSeq_remember]
    split
    · next hk => exact hk ▸ hlt.le
    · exact le_rfl
  unfold bound
  rw [hl]
  split
  · split
    · exact le_rfl
    · exact hle
  · exact hle

/-- The same commands are executed, and the bounds may only rise. -/
theorem Ordered.frame (h : s.Ordered) (hx : s'.executed = s.executed)
    (hb : ∀ k, s.bound k ≤ s'.bound k)
    (hc : ∀ d, s'.loop = .checked d → ∀ e ∈ s.executed, e.1.env.clientID = d.env.clientID →
      e.1.env.seq < d.env.seq)
    (hr : ∀ req readRev, s'.reading = some (req, readRev) →
      s'.server.lastSeq req.clientID < req.seq) : s'.Ordered where
  increasing := hx ▸ h.increasing
  bounded e he := (h.bounded e (hx ▸ he)).trans (hb _)
  checked := hx ▸ hc
  reading := hr

theorem Ordered.effect (h : s.Ordered) (he : Effect s s' ev) : s'.Ordered := by
  cases he with
  | quiet ht hx hl hr =>
    refine h.frame hx (fun k => ?_) (hl ▸ h.checked) ?_
    · simp only [bound, hl, ht.lastSeq, le_refl]
    · rw [hr, ht.lastSeq]
      exact h.reading
  | @check d hl hd hl' hlt ht hx hr =>
    have hb (k : Int) : s.bound k = s.server.lastSeq k := bound_of_ne (by simp [hl]) k
    have hb' (k : Int) : s'.bound k = s'.server.lastSeq k := bound_of_ne (by simp [hl']) k
    refine h.frame hx (fun k => ?_) (fun d' hd' e he hk => ?_) ?_
    · rw [hb, hb', ht.lastSeq]
    · -- every executed number is at most the last one, which is below the new one
      cases hl'.symm.trans hd'
      have hle := h.bounded e he
      rw [hb, hk] at hle
      exact hle.trans_lt hlt
    · rw [hr, ht.lastSeq]
      exact h.reading
  | @execute d r hl hl' ho hx ht hr =>
    have hnew := h.checked d hl
    refine ⟨?_, fun e he => ?_, fun d' hd' => ?_, ?_⟩
    · rw [hx]
      refine List.pairwise_append.2 ⟨h.increasing, List.pairwise_singleton _ _, ?_⟩
      intro e he e' he' hk
      obtain rfl := List.mem_singleton.1 he'
      exact hnew e he hk
    · rw [hx] at he
      simp only [bound, hl']
      rcases List.mem_append.1 he with he | he
      · split
        · next hk => exact (hnew e he hk).le
        · rw [ht.lastSeq, ← bound_of_ne (by simp [hl])]
          exact h.bounded e he
      · obtain rfl := List.mem_singleton.1 he
        rw [if_pos rfl]
    · cases hl'.symm.trans hd'
    · rw [hr, ht.lastSeq]
      exact h.reading
  | @record d r hl hl' ht hx hr =>
    have hb' (k : Int) : s'.bound k = s'.server.lastSeq k := bound_of_ne (by simp [hl']) k
    refine h.frame hx (fun k => ?_) (fun d' hd' => ?_) (fun _ _ hreq => ?_)
    · -- the record makes the table say what the bound anticipated
      rw [hb', ht.lastSeq, Server.lastSeq_remember]
      simp only [bound, hl, le_refl]
    · cases hl'.symm.trans hd'
    · cases hr.symm.trans hreq
  | get hlt ht hx hl hr =>
    refine h.frame hx (bound_le_remember hl hlt ht) (hl ▸ h.checked) (fun _ _ hreq => ?_)
    cases hr.symm.trans hreq
  | lock hlt hr ht hx hl =>
    refine h.frame hx (fun k => ?_) (hl ▸ h.checked) (fun _ _ hreq => ?_)
    · simp only [bound, hl, ht.lastSeq, le_refl]
    · cases hr.symm.trans hreq
      rwa [ht.lastSeq]
  | range hreading ht hx hl hr =>
    have hlt := h.reading _ _ hreading
    refine h.frame hx (bound_le_remember hl hlt ht) (hl ▸ h.checked) (fun _ _ hreq => ?_)
    cases hr.symm.trans hreq

theorem Ordered.init (hx : s.executed = []) (hl : s.loop = .idle) (hr : s.reading = none) :
    s.Ordered where
  increasing := hx ▸ .nil
  bounded e he := by
    rw [hx] at he
    cases he
  checked d hd := nomatch hl.symm.trans hd
  reading req readRev hreq := nomatch hr.symm.trans hreq

/-- The sequence numbers of the commands of a client that `applyLoop` has executed, in order. -/
def executedSeqs (s : Service) (k : Int) : List Int :=
  (s.executed.filter (·.1.env.clientID = k)).map (·.1.env.seq)

theorem Ordered.executedSeqs (h : s.Ordered) (k : Int) : (s.executedSeqs k).Pairwise (· < ·) := by
  refine List.pairwise_map.2 (List.pairwise_filter.2 (h.increasing.imp fun hlt hk hk' => ?_))
  exact hlt ((of_decide_eq_true hk).trans (of_decide_eq_true hk').symm)

end Service

/-- Whatever commands come, in whatever order and however often, and whatever `Get` and `Range`
calls come in between, the numbers of the commands a server executes for a client strictly
increase, and so it executes no command twice. -/
theorem executed_at_most_once {server : Server} {commands : List Delivery} {s : Service}
    (h : Consensus.ReachableBy Service.step (fun _ _ => True)
      { server := server, applyCh := commands } s) :
    (∀ k, (s.executedSeqs k).Pairwise (· < ·)) ∧
    s.executed.Pairwise fun e e' =>
      ¬ (e.1.env.clientID = e'.1.env.clientID ∧ e.1.env.seq = e'.1.env.seq) := by
  have hord : s.Ordered := by
    induction h with
    | init => exact .init rfl rfl rfl
    | step _ _ hs ih => exact ih.effect (Service.step_effect hs)
  refine ⟨hord.executedSeqs, hord.increasing.imp fun hlt heq => ?_⟩
  exact (hlt heq.1).ne heq.2

/-- A put of client 1, the same put again, and the client's next put. -/
def repeatedPut : Service where
  server := .new .new
  applyCh :=
    [⟨1, { kind := .kv, kv := some ⟨.put, [1], [2], 1, 1, 0⟩ }, ⟨0, []⟩⟩,
      ⟨2, { kind := .kv, kv := some ⟨.put, [1], [2], 1, 1, 0⟩ }, ⟨0, []⟩⟩,
      ⟨3, { kind := .kv, kv := some ⟨.put, [1], [3], 1, 2, 0⟩ }, ⟨0, []⟩⟩]

/-- A read with number 5 comes between the check and the record of the first put, and the record
lowers the table again. -/
theorem executed_at_most_once_lowered :
    ∃ s, Consensus.ReachableBy Service.step (fun _ _ => True) repeatedPut s ∧
      s.executedSeqs 1 = [1, 2] ∧ (s.executedSeqs 1).Pairwise (· < ·) := by
  have h : Consensus.RunsTo Service.step (fun _ _ => True) (fun s => s.executedSeqs 1 = [1, 2])
      repeatedPut [.loop, .get ⟨[1], 0, 1, 5⟩, .loop, .loop, .loop, .loop, .loop, .loop] := by
    decide +kernel
  obtain ⟨s, hs, hseqs⟩ := h.reachable
  exact ⟨s, hs, hseqs, (executed_at_most_once hs).1 1⟩

end LinKV

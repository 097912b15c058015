import LinKV.Consensus.Transition
import LinKV.Server.Server

namespace LinKV
set_option autoImplicit true

theorem GoMap.get_insert [DecidableEq K] (m : GoMap K V) (k j : K) (v d : V) :
    GoMap.get (m.insert k v) j d = if j = k then v else m.get j d := by
  unfold GoMap.get
  split
  · next h => rw [h, Finmap.lookup_insert, Option.getD_some]
  · next h => rw [Finmap.lookup_insert_of_ne _ h]

theorem Server.lastSeq_remember (s : Server) (k seq : Int) (r : Result) (j : Int) :
    (s.remember k seq r).lastSeq j = if j = k then seq else s.lastSeq j :=
  GoMap.get_insert _ _ _ _ _

theorem Server.cached_remember (s : Server) (k seq : Int) (r : Result) (j : Int) :
    (s.remember k seq r).cached j = if j = k then r else s.cached j :=
  GoMap.get_insert _ _ _ _ _

theorem Server.dedup_stale {s : Server} (h : s.dedup clientID seq = .stale) :
    seq < s.lastSeq clientID := by
  unfold Server.dedup at h
  split at h
  · assumption
  · split at h <;> cases h

theorem Server.dedup_fresh {s : Server} (h : s.dedup clientID seq = .fresh) :
    s.lastSeq clientID < seq := by
  unfold Server.dedup at h
  split at h
  · cases h
  · split at h
    · cases h
    · omega

theorem Server.get_eq {s : Server} (h : s.get req = some out) :
    out.1 = s ∨ s.lastSeq req.clientID < req.seq ∧
      ∃ r, out.1 = s.remember req.clientID req.seq r := by
  unfold Server.get at h
  cases hd : s.dedup req.clientID req.seq with
  | stale =>
    rw [hd] at h
    cases h
    exact .inl rfl
  | duplicate r =>
    rw [hd] at h
    obtain ⟨rev, -, rfl⟩ := Option.map_eq_some_iff.1 h
    exact .inl rfl
  | fresh =>
    rw [hd] at h
    cases h
    exact .inr ⟨Server.dedup_fresh hd, _, rfl⟩

/-- Servers that differ at most in their dedup tables. -/
structure Server.SameView (s t : Server) : Prop where
  store : s.store = t.store
  waitCh : s.waitCh = t.waitCh
  lastResult : s.lastResult = t.lastResult

def Server.SameTables (s t : Server) : Prop :=
  s.clientLastSeq = t.clientLastSeq ∧ s.clientLastResult = t.clientLastResult

section

variable {s t : Server}

theorem Server.SameTables.lastSeq (h : s.SameTables t) : s.lastSeq = t.lastSeq := by
  funext k
  exact congrArg (GoMap.get · k 0) h.1

theorem Server.SameTables.cached (h : s.SameTables t) : s.cached = t.cached := by
  funext k
  exact congrArg (GoMap.get · k {}) h.2

theorem Server.notify_tables : (s.notify index env r).1.SameTables s := by
  unfold Server.notify
  split
  · exact ⟨rfl, rfl⟩
  · exact ⟨rfl, rfl⟩

theorem Server.submit_tables : (s.submit index env).1.SameTables s := by
  unfold Server.submit
  dsimp only
  split
  · split
    · exact ⟨rfl, rfl⟩
    · exact ⟨rfl, rfl⟩
  · exact ⟨rfl, rfl⟩

theorem Server.record_tables :
    (s.record index env r).1.SameTables (s.remember env.clientID env.seq r) := by
  unfold Server.record
  dsimp only
  split
  · exact ⟨rfl, rfl⟩
  · exact Server.notify_tables

theorem Server.SameView.remember (h : s.SameView t) :
    (s.remember clientID seq r).SameView (t.remember clientID seq r) :=
  ⟨h.store, h.waitCh, h.lastResult⟩

theorem Server.SameView.notify (h : s.SameView t) (index : Int) (env : Command) (r : Result) :
    (s.notify index env r).1.SameView (t.notify index env r).1 ∧
      (s.notify index env r).2 = (t.notify index env r).2 := by
  unfold Server.notify
  rw [h.waitCh]
  cases t.waitCh.lookup index with
  | none => exact ⟨h, rfl⟩
  | some ch => exact ⟨⟨h.store, rfl, h.lastResult⟩, rfl⟩

theorem Server.SameView.record (h : s.SameView t) (index : Int) (env : Command) (r : Result) :
    (s.record index env r).1.SameView (t.record index env r).1 ∧
      (s.record index env r).2 = (t.record index env r).2 := by
  have hr : (s.remember env.clientID env.seq r).SameView (t.remember env.clientID env.seq r) :=
    h.remember
  unfold Server.record
  dsimp only
  rw [hr.waitCh]
  cases (t.remember env.clientID env.seq r).waitCh.lookup index with
  | none => exact ⟨⟨hr.store, rfl, congrArg (·.insert index r) hr.lastResult⟩, rfl⟩
  | some ch => exact hr.notify index env r

theorem Server.SameView.submit (h : s.SameView t) (index : Int) (env : Command) :
    (s.submit index env).1.SameView (t.submit index env).1 ∧
      (s.submit index env).2 = (t.submit index env).2 := by
  unfold Server.submit
  rw [h.lastResult, h.waitCh]
  cases t.lastResult.lookup index with
  | none => exact ⟨⟨h.store, rfl, rfl⟩, rfl⟩
  | some r =>
    dsimp only
    split
    · exact ⟨⟨h.store, rfl, rfl⟩, rfl⟩
    · exact ⟨⟨h.store, rfl, rfl⟩, rfl⟩

end

/-- A step of a `Get` or `Range` call. -/
def ServerEvent.isRead : ServerEvent → Bool
  | .get _ | .rangeRev _ | .range => true
  | _ => false

namespace Service

/-- All but the dedup tables and the mutex: the store, the commands executed with their results,
and the answers given and kept for `submit` calls. -/
structure SameView (s t : Service) : Prop where
  server : s.server.SameView t.server
  applyCh : s.applyCh = t.applyCh
  loop : s.loop = t.loop
  executed : s.executed = t.executed
  answers : s.answers = t.answers

/-- No command of the client that is still to come has a number from `low` to `high`. -/
def Clear (s : Service) (clientID low high : Int) : Prop :=
  ∀ d ∈ s.applyCh, d.env.clientID = clientID → d.env.seq < low ∨ high < d.env.seq

instance (s : Service) (clientID low high : Int) : Decidable (s.Clear clientID low high) :=
  inferInstanceAs (Decidable (∀ d ∈ s.applyCh, _ → _))

/-- A read has no new number, or no command of the client with a number from the last one to the
new one is still to come. -/
def Admits (s : Service) (clientID seq : Int) : Prop :=
  seq ≤ s.server.lastSeq clientID ∨ s.Clear clientID (s.server.lastSeq clientID) seq

instance (s : Service) (clientID seq : Int) : Decidable (s.Admits clientID seq) :=
  inferInstanceAs (Decidable (_ ∨ _))

def Harmless (s : Service) : ServerEvent → Prop
  | .get req => s.Admits req.clientID req.seq
  | .rangeRev req => s.Admits req.clientID req.seq
  | _ => True

instance (s : Service) : (ev : ServerEvent) → Decidable (s.Harmless ev)
  | .get req => inferInstanceAs (Decidable (s.Admits req.clientID req.seq))
  | .rangeRev req => inferInstanceAs (Decidable (s.Admits req.clientID req.seq))
  | .loop | .submit _ _ | .giveUp _ | .clearWaitCh | .range => instDecidableTrue

/-- `t` is `s` without the reads: a client's tables differ only where no command still to come
can tell. -/
structure Shadow (s t : Service) : Prop extends SameView s t where
  unlocked : t.reading = none
  tables : ∀ k, s.server.lastSeq k = t.server.lastSeq k ∧ s.server.cached k = t.server.cached k ∨
    t.server.lastSeq k < s.server.lastSeq k ∧
      s.Clear k (t.server.lastSeq k) (s.server.lastSeq k)
  reading : ∀ req readRev, s.reading = some (req, readRev) →
    s.server.lastSeq req.clientID < req.seq ∧
      s.Clear req.clientID (s.server.lastSeq req.clientID) req.seq

section

variable {s t s' t' : Service}

theorem SameView.trans (h : s.SameView t) (h' : t.SameView u) : s.SameView u where
  server := ⟨h.server.store.trans h'.server.store, h.server.waitCh.trans h'.server.waitCh,
    h.server.lastResult.trans h'.server.lastResult⟩
  applyCh := h.applyCh.trans h'.applyCh
  loop := h.loop.trans h'.loop
  executed := h.executed.trans h'.executed
  answers := h.answers.trans h'.answers

theorem SameView.symm (h : s.SameView t) : t.SameView s where
  server := ⟨h.server.store.symm, h.server.waitCh.symm, h.server.lastResult.symm⟩
  applyCh := h.applyCh.symm
  loop := h.loop.symm
  executed := h.executed.symm
  answers := h.answers.symm

theorem SameView.answering (h : s.SameView t)
    (hout : out.1.SameView out'.1 ∧ out.2 = out'.2) :
    (s.answering out).SameView (t.answering out') :=
  { h with server := hout.1, answers := by simp only [Service.answering, h.answers, hout.2] }

/-- A step that writes no dedup table and puts no command back. -/
theorem Shadow.frame (h : s.Shadow t) (hv : s'.SameView t')
    (hch : ∀ d ∈ s'.applyCh, d ∈ s.applyCh)
    (hs : s'.server.SameTables s.server) (ht : t'.server.SameTables t.server)
    (hr : s'.reading = s.reading) (hr' : t'.reading = t.reading) : s'.Shadow t' where
  toSameView := hv
  unlocked := hr'.trans h.unlocked
  tables k := by
    rw [hs.lastSeq, hs.cached, ht.lastSeq, ht.cached]
    exact (h.tables k).imp_right fun ⟨hlt, hc⟩ => ⟨hlt, fun d hd => hc d (hch d hd)⟩
  reading req readRev hreq := by
    rw [hs.lastSeq]
    obtain ⟨hlt, hc⟩ := h.reading req readRev (hr ▸ hreq)
    exact ⟨hlt, fun d hd => hc d (hch d hd)⟩

theorem Shadow.dedup (h : s.Shadow t) (hd : d ∈ s.applyCh) :
    s.server.dedup d.env.clientID d.env.seq = t.server.dedup d.env.clientID d.env.seq := by
  unfold Server.dedup
  rcases h.tables d.env.clientID with ⟨hseq, hres⟩ | ⟨hlt, hclear⟩
  · rw [hseq, hres]
  · rcases hclear d hd rfl with hlow | hhigh
    · rw [if_pos (by omega), if_pos hlow]
    · rw [if_neg (by omega), if_neg (by omega), if_neg (by omega), if_neg (by omega)]

theorem Shadow.check (h : s.Shadow t) (hc : s.applyCh = d :: rest) :
    ({ s with applyCh := rest }.check d).Shadow ({ t with applyCh := rest }.check d) := by
  have hd : d ∈ s.applyCh := hc ▸ List.mem_cons_self
  have hch : ∀ d' ∈ rest, d' ∈ s.applyCh := fun d' hd' => hc ▸ List.mem_cons_of_mem d hd'
  have hv : SameView { s with applyCh := rest } { t with applyCh := rest } :=
    { h.toSameView with applyCh := rfl }
  unfold Service.check
  dsimp only
  rw [h.dedup hd]
  cases t.server.dedup d.env.clientID d.env.seq with
  | stale => exact h.frame hv hch ⟨rfl, rfl⟩ ⟨rfl, rfl⟩ rfl rfl
  | duplicate r =>
    exact h.frame (hv.answering (h.server.notify _ _ _)) hch Server.notify_tables
      Server.notify_tables rfl rfl
  | fresh => exact h.frame { hv with loop := rfl } hch ⟨rfl, rfl⟩ ⟨rfl, rfl⟩ rfl rfl

theorem Shadow.execute (h : s.Shadow t) (d : Delivery) : (s.execute d).Shadow (t.execute d) := by
  refine h.frame ?_ (fun _ hd => hd) ⟨rfl, rfl⟩ ⟨rfl, rfl⟩ rfl rfl
  unfold Service.execute
  rw [h.server.store, h.executed]
  exact { h.toSameView with server := { h.server with store := rfl }, loop := rfl, executed := rfl }

theorem Shadow.record (h : s.Shadow t) (hu : s.reading = none) (d : Delivery) (r : Result) :
    ({ s with loop := .idle }.answering (s.server.record d.index d.env r)).Shadow
      ({ t with loop := .idle }.answering (t.server.record d.index d.env r)) where
  toSameView :=
    have hv : SameView { s with loop := .idle } { t with loop := .idle } :=
      { h.toSameView with loop := rfl }
    hv.answering (h.server.record _ _ _)
  unlocked := h.unlocked
  tables k := by
    -- the record settles the client's tables on both sides
    have hs : (s.server.record d.index d.env r).1.SameTables _ := Server.record_tables
    have ht : (t.server.record d.index d.env r).1.SameTables _ := Server.record_tables
    simp only [Service.answering, hs.lastSeq, hs.cached, ht.lastSeq, ht.cached,
      Server.lastSeq_remember, Server.cached_remember]
    split
    · exact .inl ⟨rfl, rfl⟩
    · exact h.tables k
  reading req readRev hreq := by
    have hnone : some (req, readRev) = none := hreq.symm.trans hu
    cases hnone

theorem Shadow.read (h : s.Shadow t) (hlt : s.server.lastSeq k < seq)
    (hc : s.Clear k (s.server.lastSeq k) seq) :
    Shadow { s with server := s.server.remember k seq r, reading := none } t where
  toSameView :=
    { h.toSameView with server := ⟨h.server.store, h.server.waitCh, h.server.lastResult⟩ }
  unlocked := h.unlocked
  tables j := by
    simp only [Server.lastSeq_remember, Server.cached_remember]
    split
    · next hj =>
      subst hj
      refine .inr ?_
      rcases h.tables j with ⟨hseq, -⟩ | ⟨hlt', hc'⟩
      · rw [hseq] at hlt hc
        exact ⟨hlt, hc⟩
      · refine ⟨hlt'.trans hlt, fun d hd hk => ?_⟩
        have h₁ := hc d hd hk
        have h₂ := hc' d hd hk
        omega
    · exact h.tables j
  reading := nofun

/-- A step that is not part of a read takes place without the reads as well. -/
theorem Shadow.visible_step (h : s.Shadow t) (hs : s.step ev = some s')
    (hv : (!ev.isRead) = true) : ∃ t', t.step ev = some t' ∧ s'.Shadow t' := by
  have hlock {next t'} (hn : next = some t') : t.withLock next = some t' :=
    withLock_eq_some.2 ⟨h.unlocked, hn⟩
  cases ev with
  | loop =>
    cases advance_eq_some.1 hs with
    | check hl hu hc =>
      exact ⟨_, advance_eq_some.2 (.check (h.loop ▸ hl) h.unlocked (h.applyCh ▸ hc)), h.check hc⟩
    | execute hl => exact ⟨_, advance_eq_some.2 (.execute (h.loop ▸ hl)), h.execute _⟩
    | record hl hu =>
      exact ⟨_, advance_eq_some.2 (.record (h.loop ▸ hl) h.unlocked), h.record hu _ _⟩
  | submit index env =>
    obtain ⟨-, hs⟩ := withLock_eq_some.1 hs
    cases hs
    exact ⟨_, hlock rfl, h.frame (h.answering (h.server.submit index env)) (fun _ hd => hd)
      Server.submit_tables Server.submit_tables rfl rfl⟩
  | giveUp index =>
    obtain ⟨-, hs⟩ := withLock_eq_some.1 hs
    cases hs
    have hserver : (s.server.giveUp index).SameView (t.server.giveUp index) :=
      { h.server with waitCh := congrArg (·.erase index) h.server.waitCh }
    exact ⟨_, hlock rfl, h.frame { h.toSameView with server := hserver } (fun _ hd => hd)
      ⟨rfl, rfl⟩ ⟨rfl, rfl⟩ rfl rfl⟩
  | clearWaitCh =>
    obtain ⟨-, hs⟩ := withLock_eq_some.1 hs
    cases hs
    have hserver : s.server.clearWaitCh.1.SameView t.server.clearWaitCh.1 :=
      { h.server with waitCh := rfl }
    have hout : s.server.clearWaitCh.2 = t.server.clearWaitCh.2 := by
      simp only [Server.clearWaitCh, h.server.waitCh]
    exact ⟨_, hlock rfl, h.frame (h.answering ⟨hserver, hout⟩) (fun _ hd => hd)
      ⟨rfl, rfl⟩ ⟨rfl, rfl⟩ rfl rfl⟩
  | get | rangeRev | range => cases hv

/-- A step of a harmless read goes unnoticed. -/
theorem Shadow.read_step (h : s.Shadow t) (hok : s.Harmless ev) (hs : s.step ev = some s')
    (hv : (!ev.isRead) = false) : s'.Shadow t := by
  cases ev with
  | get req =>
    obtain ⟨hu, hs⟩ := withLock_eq_some.1 hs
    obtain ⟨out, hout, rfl⟩ := Option.map_eq_some_iff.1 hs
    rcases Server.get_eq hout with he | ⟨hlt, r, he⟩
    · rw [he]
      exact h
    · have hc := hok.resolve_left (not_le.2 hlt)
      rw [he, hu]
      exact h.read hlt hc
  | rangeRev req =>
    obtain ⟨-, hs⟩ := withLock_eq_some.1 hs
    unfold Server.rangeRev at hs
    cases hd : s.server.dedup req.clientID req.seq with
    | stale | duplicate =>
      rw [hd] at hs
      cases hs
      exact h
    | fresh =>
      rw [hd] at hs
      cases hs
      have hlt := Server.dedup_fresh hd
      refine { h with reading := fun req' readRev hr => ?_ }
      cases hr
      exact ⟨hlt, hok.resolve_left (not_le.2 hlt)⟩
  | range =>
    obtain ⟨⟨req, readRev⟩, hr, rfl⟩ := Option.map_eq_some_iff.1 hs
    obtain ⟨hlt, hc⟩ := h.reading req readRev hr
    exact h.read hlt hc
  | loop | submit | giveUp | clearWaitCh => cases hv

/-- `applyLoop` has dealt with all commands. -/
def Done (s : Service) : Prop := s.applyCh = [] ∧ s.loop = .idle

instance (s : Service) : Decidable s.Done := inferInstanceAs (Decidable (_ ∧ _))

theorem SameView.done (h : s.SameView t) (hd : s.Done) : t.Done :=
  ⟨h.applyCh ▸ hd.1, h.loop ▸ hd.2⟩

theorem Done.step_eq_none (h : s.Done) : s.step .loop = none := by
  simp only [Service.step, advance, h.2, h.1]

theorem Shadow.refl (hu : s.reading = none) : s.Shadow s where
  server := ⟨rfl, rfl, rfl⟩
  applyCh := rfl
  loop := rfl
  executed := rfl
  answers := rfl
  unlocked := hu
  tables _ := .inl ⟨rfl, rfl⟩
  reading req readRev hr := by rw [hu] at hr; cases hr

/-- A run whose reads are all harmless, without its reads. -/
theorem erase_reads (hu : s.reading = none)
    (h : Consensus.Run Service.step Service.Harmless s as s') :
    ∃ t, Consensus.Run Service.step (fun _ _ => True) s (as.filter (!·.isRead)) t ∧
      s'.SameView t := by
  obtain ⟨t, ht, hR⟩ := h.filter (Shadow.refl hu)
    (fun _ _ _ _ hR hs hv => hR.visible_step hs hv)
    (fun _ _ _ _ hR hok hs hv => hR.read_step hok hs hv)
  exact ⟨t, ht, hR.toSameView⟩

end

end Service

/-- The steps of `applyLoop` and of reads. -/
def OnlyApplies (as : List ServerEvent) : Prop := ∀ ev ∈ as, ev = .loop ∨ ev.isRead = true

instance (as : List ServerEvent) : Decidable (OnlyApplies as) :=
  inferInstanceAs (Decidable (∀ ev ∈ as, _ ∨ _))

theorem OnlyApplies.filter (h : OnlyApplies as) :
    ∃ n, as.filter (!·.isRead) = List.replicate n ServerEvent.loop := by
  refine ⟨_, List.eq_replicate_of_mem fun ev hev => ?_⟩
  obtain ⟨hin, hv⟩ := List.mem_filter.1 hev
  refine (h ev hin).resolve_right fun hr => ?_
  rw [hr] at hv
  cases hv

/-- Reads do not influence what is replicated where each one with a new number comes when no
command of the client with a number from the last one to the new one is still to be applied. A
run goes through without its reads, to the same store, executed commands and answers; and so two
interleavings of reads with the same commands agree once the commands are all applied. -/
theorem reads_unobserved {s₀ s₁ s₂ : Service} {as bs : List ServerEvent}
    (hu : s₀.reading = none)
    (h₁ : Consensus.Run Service.step Service.Harmless s₀ as s₁)
    (h₂ : Consensus.Run Service.step Service.Harmless s₀ bs s₂) :
    (∃ t, Consensus.Run Service.step (fun _ _ => True) s₀ (as.filter (!·.isRead)) t ∧
      s₁.SameView t) ∧
    (OnlyApplies as → OnlyApplies bs → s₁.Done → s₂.Done → s₁.SameView s₂) := by
  refine ⟨Service.erase_reads hu h₁, fun ha hb hd₁ hd₂ => ?_⟩
  obtain ⟨t₁, hr₁, hv₁⟩ := Service.erase_reads hu h₁
  obtain ⟨t₂, hr₂, hv₂⟩ := Service.erase_reads hu h₂
  obtain ⟨m, hm⟩ := ha.filter
  obtain ⟨n, hn⟩ := hb.filter
  rw [hm] at hr₁
  rw [hn] at hr₂
  have ht : t₁ = t₂ := hr₁.exhaust (hv₁.done hd₁).step_eq_none hr₂ (hv₂.done hd₂).step_eq_none
  exact hv₁.trans (ht ▸ hv₂.symm)

/-- A put of client 1 with number 1 is to be applied. -/
def putToCome : Service where
  server := .new .new
  applyCh := [⟨1, { kind := .kv, kv := some ⟨.put, [1], [2], 1, 1, 0⟩ }, ⟨0, []⟩⟩]

/-- Another client may read before and while the put is applied. -/
theorem reads_unobserved_other_client :
    ∃ s₁ s₂, Consensus.Run Service.step Service.Harmless putToCome
        [.get ⟨[1], 0, 2, 5⟩, .loop, .rangeRev ⟨[1], true, 0, 2, 6⟩, .loop, .range, .loop] s₁ ∧
      Consensus.Run Service.step Service.Harmless putToCome [.loop, .loop, .loop] s₂ ∧
      s₁.executed.length = 1 ∧ s₁.SameView s₂ := by
  have h₁ : Consensus.RunsTo Service.step Service.Harmless
      (fun s => s.Done ∧ s.executed.length = 1) putToCome
      [.get ⟨[1], 0, 2, 5⟩, .loop, .rangeRev ⟨[1], true, 0, 2, 6⟩, .loop, .range, .loop] := by
    decide +kernel
  have h₂ : Consensus.RunsTo Service.step Service.Harmless Service.Done putToCome
      [.loop, .loop, .loop] := by
    decide +kernel
  obtain ⟨s₁, hr₁, hd₁, he⟩ := h₁.run
  obtain ⟨s₂, hr₂, hd₂⟩ := h₂.run
  exact ⟨s₁, s₂, hr₁, hr₂, he,
    (reads_unobserved rfl hr₁ hr₂).2 (by decide) (by decide) hd₁ hd₂⟩

/-- A read of client 1 with number 5 makes the server skip the put, which a server that does not
serve the read executes. -/
theorem reads_unobserved_fails :
    ∃ s₁ s₂, Consensus.Run Service.step (fun _ _ => True) putToCome
        [.get ⟨[1], 0, 1, 5⟩, .loop] s₁ ∧
      Consensus.Run Service.step (fun _ _ => True) putToCome [.loop, .loop, .loop] s₂ ∧
      s₁.Done ∧ s₂.Done ∧ s₁.executed.length = 0 ∧ s₂.executed.length = 1 ∧
      s₁.server.store.backend.currentRev = 0 ∧ s₂.server.store.backend.currentRev = 1 := by
  have h₁ : Consensus.RunsTo Service.step (fun _ _ => True)
      (fun s => s.Done ∧ s.executed.length = 0 ∧ s.server.store.backend.currentRev = 0) putToCome
      [.get ⟨[1], 0, 1, 5⟩, .loop] := by
    decide +kernel
  have h₂ : Consensus.RunsTo Service.step (fun _ _ => True)
      (fun s => s.Done ∧ s.executed.length = 1 ∧ s.server.store.backend.currentRev = 1) putToCome
      [.loop, .loop, .loop] := by
    decide +kernel
  obtain ⟨s₁, hr₁, hd₁, he₁, hc₁⟩ := h₁.run
  obtain ⟨s₂, hr₂, hd₂, he₂, hc₂⟩ := h₂.run
  exact ⟨s₁, s₂, hr₁, hr₂, hd₁, hd₂, he₁, he₂, hc₁, hc₂⟩

end LinKV

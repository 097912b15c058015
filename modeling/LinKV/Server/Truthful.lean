import LinKV.Mvcc.Events
import LinKV.Mvcc.Ranges
import LinKV.Server.Install
import LinKV.Server.Origins

namespace LinKV
set_option autoImplicit true

namespace KVStore

def rangeAt (s : KVStore) (req : RangeRequest) (rev : Int) : List ApiKeyValue :=
  fromMVCCKeyValues (if req.byPrefix then s.prefixRange req.key rev
    else s.range req.key (req.key ++ [0]) rev)

/-- The store `s'` is `s` after more mutations. -/
structure Precedes (s s' : KVStore) : Prop where
  compactRev : s'.backend.compactRev = s.backend.compactRev
  history : ∀ h, Represents h s.backend → ∃ m, Represents (h ++ m) s'.backend

variable {s s' s'' : KVStore}

theorem Precedes.refl (s : KVStore) : s.Precedes s where
  compactRev := rfl
  history h hr := ⟨[], (List.append_nil h).symm ▸ hr⟩

theorem Precedes.trans (h : s.Precedes s') (h' : s'.Precedes s'') : s.Precedes s'' where
  compactRev := h'.compactRev.trans h.compactRev
  history hist hr := by
    obtain ⟨m, hm⟩ := h.history hist hr
    obtain ⟨m', hm'⟩ := h'.history (hist ++ m) hm
    exact ⟨m ++ m', List.append_assoc hist m m' ▸ hm'⟩

theorem Precedes.applyCommand (hf : s.Fits d) :
    s.Precedes (s.applyCommand d.ambient d.env).1 := by
  rcases applyCommand_op hf with he | ⟨op, hop, hne⟩
  · rw [he]
    exact .refl s
  · exact ⟨apply_compactRev_eq hop hne, fun h hr => ⟨s.mutations op, hr.apply hop⟩⟩

theorem Precedes.rangeAt_eq (h : s.Precedes s') (hs : s.Reachable) (hne : rev ≠ 0)
    (hle : rev ≤ s.backend.currentRev) (req : RangeRequest) :
    s'.rangeAt req rev = s.rangeAt req rev := by
  obtain ⟨-, hist, hr⟩ := hs.represents
  obtain ⟨m, hr'⟩ := h.history hist hr
  unfold rangeAt prefixRange
  rw [hr.range_later hr' h.compactRev hne hle, hr.range_later hr' h.compactRev hne hle]

theorem rangeAt_readRev (s : KVStore) (req : RangeRequest) (hne : s.readRev rev ≠ 0) :
    s.rangeAt req (s.readRev rev) = s.rangeAt req rev := by
  have hrev : s.readRev (s.readRev rev) = s.readRev rev := if_neg hne
  unfold rangeAt prefixRange
  rw [range_eq, range_eq, range_eq, range_eq, hrev]

theorem Precedes.rangeAt_chosen (h : s.Precedes s') (hs : s.Reachable) (req : RangeRequest) :
    s'.rangeAt req (s.readRev req.revision) = s.rangeAt req req.revision ∨
      s'.rangeAt req (s.readRev req.revision) = s'.rangeAt req req.revision := by
  by_cases hrev : s.readRev req.revision = req.revision
  · exact .inr (congrArg (s'.rangeAt req) hrev)
  · -- the request asks for the latest revision, and there is one
    have hzero : req.revision = 0 := by
      by_contra hne
      exact hrev (if_neg hne)
    have hcur : s.readRev req.revision = s.backend.currentRev := if_pos hzero
    have hne : s.readRev req.revision ≠ 0 := hzero ▸ hrev
    rw [h.rangeAt_eq hs hne (Int.le_of_eq hcur), s.rangeAt_readRev req hne]
    exact .inl rfl

end KVStore

/-- While a `Range` call holds the mutex, `applyLoop` can still execute the command at hand. -/
theorem Service.step_locked {s s' : Service} (hr : s.reading = some x) (hev : ev ≠ .range)
    (hs : s.step ev = some s') : ∃ d, ev = .loop ∧ s.loop = .checked d ∧ s' = s.execute d := by
  have hlock {next : Option Service} (h : s.withLock next = some s') : False := by
    obtain ⟨hu, -⟩ := withLock_eq_some.1 h
    cases hr.symm.trans hu
  cases ev with
  | loop =>
    cases advance_eq_some.1 hs with
    | check _ hu =>
      cases hr.symm.trans hu
    | @execute d hl => exact ⟨d, rfl, hl, rfl⟩
    | record _ hu =>
      cases hr.symm.trans hu
  | submit | giveUp | clearWaitCh | get | rangeRev => exact (hlock hs).elim
  | range => exact absurd rfl hev

namespace Deployment

/-- The number of the read is above all that the server has recorded of the client; or it is the
last of them, and the client has used it for nothing else. -/
def Identifies (D : Deployment ι) (reads : List Evaluated) (i : ι) (q : ReadRequest) : Prop :=
  (D.site i).service.server.lastSeq q.clientID < q.seq ∨
  (D.site i).service.server.lastSeq q.clientID = q.seq ∧ q.seq ≠ 0 ∧
    (∀ env r, D.Executed env r → env.clientID = q.clientID → env.seq ≠ q.seq) ∧
    ∀ e ∈ reads, e.request.clientID = q.clientID → e.request.seq = q.seq → e.request = q

section

variable {D : Deployment ι} {reads : List Evaluated} {i : ι}

theorem Recalled.replay (h : D.Recalled reads) {q : ReadRequest} (hq : D.Identifies reads i q)
    (hseq : q.seq = (D.site i).service.server.lastSeq q.clientID) :
    ∃ e ∈ reads, e.request = q ∧
      (D.site i).service.server.cached q.clientID = e.result := by
  rcases hq with hlt | ⟨-, hne, hcmd, hreads⟩
  · exact absurd hseq (Int.ne_of_gt hlt)
  · rcases (h.sites i).tables.cached q.clientID with ⟨-, hzero, -⟩ | ⟨-, -, ho⟩
    · exact absurd (hseq.trans hzero) hne
    · generalize (D.site i).service.server.cached q.clientID = r at ho
      cases ho with
      | command hx hk hs => exact absurd (hs.trans hseq.symm) (hcmd _ _ hx hk)
      | @read e hin hk hs => exact ⟨e, hin, hreads e hin hk (hs.trans hseq.symm), rfl⟩

theorem Recalled.get_truthful (h : D.Recalled reads) (hq : D.Identifies reads i (.get req))
    (hg : (D.site i).service.server.get req = some out) :
    out.2 = (D.site i).service.server.store.getAnswer req ∨ .get req out.2 ∈ reads := by
  by_cases hlt : (D.site i).service.server.lastSeq req.clientID < req.seq
  · rw [Server.get_fresh hlt] at hg
    cases hg
    exact .inl rfl
  · have hseq : req.seq = (D.site i).service.server.lastSeq req.clientID :=
      (hq.resolve_left hlt).1.symm
    obtain ⟨e, hin, he, hc⟩ := h.replay hq hseq
    rw [Server.get, Server.dedup_eq_duplicate.2 ⟨hseq, hc.symm⟩] at hg
    obtain ⟨rev, hrev, rfl⟩ := Option.map_eq_some_iff.1 hg
    cases e with
    | get req' resp =>
      cases he
      cases hrev
      exact .inr hin
    | range => cases he

theorem Recalled.range_truthful (h : D.Recalled reads) (hq : D.Identifies reads i (.range req))
    (hg : (D.site i).service.server.rangeRev req = .inl resp) : .range req resp ∈ reads := by
  unfold Server.rangeRev at hg
  cases hd : (D.site i).service.server.dedup req.clientID req.seq with
  | stale =>
    have hlt := Server.dedup_stale hd
    rcases hq with hgt | ⟨heq, -⟩
    · exact absurd hgt (Int.not_lt.2 (Int.le_of_lt hlt))
    · exact absurd heq (Int.ne_of_gt hlt)
  | duplicate r =>
    obtain ⟨hseq, rfl⟩ := Server.dedup_eq_duplicate.1 hd
    obtain ⟨e, hin, he, hc⟩ := h.replay hq hseq
    rw [hd] at hg
    have hc : (D.site i).service.server.cached req.clientID = e.result := hc
    dsimp only at hg
    rw [hc] at hg
    cases e with
    | get => cases he
    | range req' resp' =>
      cases he
      cases hg
      exact hin
  | fresh =>
    rw [hd] at hg
    cases hg

end

section

variable [DecidableEq ι] {D D' : Deployment ι} {i : ι}

/-- A site whose mutex a `Range` call holds keeps it until the call ends, and its store only gets
more mutations. -/
theorem step_locked (hr : (D.site i).service.reading = some x) (hok : D.Fitting a)
    (ha : a ≠ (i, .serve .range)) (hs : D.step a = some D') :
    (D'.site i).service.reading = some x ∧
      (D.site i).service.server.store.Precedes (D'.site i).service.server.store := by
  obtain ⟨j, ev⟩ := a
  have hbusy : (D.site i).service.reading ≠ none := hr ▸ Option.some_ne_none x
  by_cases hj : i = j
  · subst hj
    cases step_moves hs with
    | start | deliver =>
      simp only [set_site_self]
      exact ⟨hr, .refl _⟩
    | register _ hsub => exact absurd (Service.withLock_eq_some.1 hsub).1 hbusy
    | @serve ev s _ hev =>
      have hne : ev ≠ .range := by
        rintro rfl
        exact ha rfl
      obtain ⟨d, rfl, hl, rfl⟩ := Service.step_locked hr hne hev
      have hfits : (D.site i).service.server.store.Fits d := by
        simpa only [Fitting, hl, LoopState.Fits] using hok
      simp only [set_site_self]
      exact ⟨hr, .applyCommand hfits⟩
    | makeSnapshot => exact ⟨hr, .refl _⟩
    | install hready => exact absurd hready.2.2 hbusy
    | restore hu => exact absurd hu hbusy
  · have hsite : D'.site i = D.site i := by
      cases step_moves hs with
      | makeSnapshot => rfl
      | start | register | deliver | serve | install | restore => exact set_site_of_ne D _ hj
    rw [hsite]
    exact ⟨hr, .refl _⟩

theorem run_locked (hr : (D.site i).service.reading = some x)
    (h : Consensus.ReachableBy Deployment.step
      (fun E a => E.Fitting a ∧ a ≠ (i, .serve .range)) D D') :
    (D'.site i).service.reading = some x ∧
      (D.site i).service.server.store.Precedes (D'.site i).service.server.store := by
  induction h with
  | init => exact ⟨hr, .refl _⟩
  | step _ hok hs ih =>
    obtain ⟨hr', hp⟩ := step_locked ih.1 hok.1 hok.2 hs
    exact ⟨hr', ih.2.trans hp⟩

theorem range_locks (hs : D.step (i, .serve (.rangeRev req)) = some D')
    (hr : (D'.site i).service.reading = some (req, readRev)) :
    (D'.site i).service.server = (D.site i).service.server ∧
      readRev = (D.site i).service.server.store.readRev req.revision := by
  cases step_moves hs with
  | @serve _ s _ hev =>
    simp only [set_site_self] at hr ⊢
    obtain ⟨hu, hev⟩ := Service.withLock_eq_some.1 hev
    unfold Server.rangeRev at hev
    cases hd : (D.site i).service.server.dedup req.clientID req.seq with
    | stale | duplicate =>
      rw [hd] at hev
      cases hev
      cases hu.symm.trans hr
    | fresh =>
      rw [hd] at hev
      cases hev
      cases hr
      exact ⟨rfl, rfl⟩

end

end Deployment

/-- A `Get` or `Range` whose number identifies it is answered by what the store holds, or with the
answer that the same request has got before. A `Range` that reads the store returns what its
request finds there when it takes the mutex or when it ends, and the revision it was asked for or
found to be current. -/
theorem reads_truthful [DecidableEq ι] {stores : ι → KVStore}
    (hstores : ∀ i, (stores i).Reachable) {D : Deployment ι} {reads : List Evaluated}
    (h : Consensus.ReachableBy Deployment.trackReads (fun x a => x.1.Fitting a)
      (.fresh stores, []) (D, reads)) (i : ι) :
    (∀ req out, (D.site i).service.server.get req = some out → D.Identifies reads i (.get req) →
      out.2 = (D.site i).service.server.store.getAnswer req ∨ .get req out.2 ∈ reads) ∧
    (∀ req resp, (D.site i).service.server.rangeRev req = .inl resp →
      D.Identifies reads i (.range req) → .range req resp ∈ reads) ∧
    ∀ req readRev D₁ D₂, D.step (i, .serve (.rangeRev req)) = some D₁ →
      (D₁.site i).service.reading = some (req, readRev) →
      Consensus.ReachableBy Deployment.step
        (fun E a => E.Fitting a ∧ a ≠ (i, .serve .range)) D₁ D₂ →
      let before := (D.site i).service.server.store
      let after := (D₂.site i).service.server.store
      let resp := ((D₂.site i).service.server.range req readRev).2
      (D₂.site i).service.reading = some (req, readRev) ∧
        (resp.kvs = before.rangeAt req req.revision ∨ resp.kvs = after.rangeAt req req.revision) ∧
        resp.revision = before.readRev req.revision := by
  have hreads : D.Recalled reads := Deployment.Recalled.reachable h
  have hsound : D.Sound := Deployment.Sound.reachable hstores
    (Consensus.ReachableBy.of_noting h)
  refine ⟨fun req out hg hq => hreads.get_truthful hq hg,
    fun req resp hg hq => hreads.range_truthful hq hg, fun req readRev D₁ D₂ hs hr hrun => ?_⟩
  intro before after resp
  obtain ⟨hserver, rfl⟩ := Deployment.range_locks hs hr
  obtain ⟨hr', hp⟩ := Deployment.run_locked hr hrun
  rw [hserver] at hp
  exact ⟨hr', hp.rangeAt_chosen (hsound.stores i) req, rfl⟩

/-- A repeated `Get` gets the answer from the first time. -/
theorem reads_truthful_repeated : ∃ (D : Deployment (Fin 1)) (reads : List Evaluated)
    (out : Server × GetResponse),
    Consensus.ReachableBy Deployment.trackReads (fun x a => x.1.Fitting a)
      (.fresh fun _ => .new, []) (D, reads) ∧
    (D.site 0).service.server.get ⟨[1], 0, 1, 2⟩ = some out ∧
    D.Identifies reads 0 (.get ⟨[1], 0, 1, 2⟩) ∧ out.2 = ⟨[2], 1, true⟩ ∧
    (out.2 = (D.site 0).service.server.store.getAnswer ⟨[1], 0, 1, 2⟩ ∨
      .get ⟨[1], 0, 1, 2⟩ out.2 ∈ reads) := by
  have hrun : Consensus.RunsTo Deployment.trackReads (fun x a => x.1.Fitting a)
      (fun x : Deployment (Fin 1) × List Evaluated =>
        ((x.1.site 0).service.server.get ⟨[1], 0, 1, 2⟩).map Prod.snd = some ⟨[2], 1, true⟩ ∧
        (x.1.site 0).service.server.lastSeq 1 = 2 ∧
        (∀ i, ∀ e ∈ (x.1.site i).service.executed, e.1.env.seq ≠ 2) ∧
        ∀ e ∈ x.2, e.request = .get ⟨[1], 0, 1, 2⟩)
      (.fresh fun _ => .new, [])
      (carriedOut 0 (putOf 1) ++ [(0, .serve (.get ⟨[1], 0, 1, 2⟩))]) := by
    decide +kernel
  obtain ⟨⟨D, reads⟩, hD, hg, hlast, hcmd, hreads⟩ := hrun.reachable
  obtain ⟨out, hout, hresp⟩ := Option.map_eq_some_iff.1 hg
  have hid : D.Identifies reads 0 (.get ⟨[1], 0, 1, 2⟩) := by
    refine .inr ⟨hlast, by decide, ?_, fun e he _ _ => hreads e he⟩
    rintro env r ⟨i, d, hd, rfl⟩ -
    exact hcmd i _ hd
  exact ⟨D, reads, out, hD, hout, hid, hresp,
    (reads_truthful (fun _ => .new) hD 0).1 _ out hout hid⟩

/-- The key has a value. A `Get` with a number below that of the put finds nothing and reports no
error, and one with the number of the put gets the result of the put. -/
theorem reads_truthful_fails : ∃ D : Deployment (Fin 1),
    Consensus.ReachableBy Deployment.trackReads (fun x a => x.1.Fitting a)
      (.fresh fun _ => .new, []) (D, []) ∧
    (∀ q, (D.site 0).service.server.store.getAnswer ⟨[1], 0, 1, q⟩ = ⟨[2], 1, true⟩) ∧
    ((D.site 0).service.server.get ⟨[1], 0, 1, 0⟩).map Prod.snd = some {} ∧
    ((D.site 0).service.server.get ⟨[1], 0, 1, 1⟩).map Prod.snd = some ⟨[], 1, false⟩ := by
  have hrun : Consensus.RunsTo Deployment.trackReads (fun x a => x.1.Fitting a)
      (fun x : Deployment (Fin 1) × List Evaluated => x.2 = [] ∧
        (x.1.site 0).service.server.store.get [1] 0 = ([2], 1, true) ∧
        ((x.1.site 0).service.server.get ⟨[1], 0, 1, 0⟩).map Prod.snd = some {} ∧
        ((x.1.site 0).service.server.get ⟨[1], 0, 1, 1⟩).map Prod.snd = some ⟨[], 1, false⟩)
      (.fresh fun _ => .new, []) (carriedOut 0 (putOf 1)) := by
    decide +kernel
  obtain ⟨⟨D, reads⟩, hD, rfl, hstore, hstale, hdup⟩ := hrun.reachable
  refine ⟨D, hD, fun q => ?_, hstale, hdup⟩
  rw [KVStore.getAnswer, hstore]
  rfl

end LinKV

import LinKV.Server.Submit

namespace LinKV
set_option autoImplicit true

inductive ReadRequest where
  | get (req : GetRequest)
  | range (req : RangeRequest)
deriving DecidableEq, Repr

namespace ReadRequest

def clientID : ReadRequest → Int
  | .get req => req.clientID
  | .range req => req.clientID

def seq : ReadRequest → Int
  | .get req => req.seq
  | .range req => req.seq

end ReadRequest

/-- A read that a server has evaluated on its store, with the answer. -/
inductive Evaluated where
  | get (req : GetRequest) (resp : GetResponse)
  | range (req : RangeRequest) (resp : RangeResponse)
deriving DecidableEq, Repr

namespace Evaluated

def request : Evaluated → ReadRequest
  | .get req _ => .get req
  | .range req _ => .range req

def result : Evaluated → Result
  | .get _ resp => { rev := some ⟨resp.revision, 0⟩, value := resp.value, found := resp.found }
  | .range _ resp => { rev := some ⟨resp.revision, 0⟩, rangeResults := resp.kvs }

end Evaluated

/-- The server has written the read to its tables. -/
def Server.recall (s : Server) (e : Evaluated) : Server :=
  s.remember e.request.clientID e.request.seq e.result

/-- What the request finds in the store. -/
def KVStore.getAnswer (s : KVStore) (req : GetRequest) : GetResponse :=
  let (value, rev, ok) := s.get req.key req.revision
  ⟨if ok then value else [], rev, ok⟩

/-- The reads that a step of the server evaluates. -/
def Service.evaluates (s : Service) : ServerEvent → List Evaluated
  | .get req =>
    if s.server.lastSeq req.clientID < req.seq then [.get req (s.server.store.getAnswer req)]
    else []
  | .range =>
    s.reading.toList.map fun (req, readRev) => .range req (s.server.range req readRev).2
  | _ => []

namespace Deployment

def evaluates (D : Deployment ι) : ι × SiteEvent → List Evaluated
  | (i, .serve ev) => (D.site i).service.evaluates ev
  | _ => []

def trackReads [DecidableEq ι] :
    Deployment ι × List Evaluated → ι × SiteEvent → Option (Deployment ι × List Evaluated) :=
  Consensus.noting Deployment.step evaluates

/-- Where the result that is remembered for number `q` of client `k` comes from: a command that a
server has executed, up to the text of its error, or a read. -/
inductive Origin (D : Deployment ι) (reads : List Evaluated) (k q : Int) : Result → Prop
  | command : D.Executed env r → env.clientID = k → env.seq = q → (err = none ↔ r.err = none) →
      Origin D reads k q { r with err := err }
  | read : e ∈ reads → e.request.clientID = k → e.request.seq = q →
      Origin D reads k q e.result

def Originates (D : Deployment ι) (reads : List Evaluated) (seqs : GoMap Int Int)
    (results : GoMap Int Result) : Prop :=
  ∀ k, seqs.lookup k = none ∧ results.lookup k = none ∨
    ∃ q r, seqs.lookup k = some q ∧ results.lookup k = some r ∧ 1 ≤ q ∧ D.Origin reads k q r

/-- The tables of a server, and what it is about to write to them. -/
structure Recalls (D : Deployment ι) (reads : List Evaluated) (s : Service) : Prop where
  executed : ∀ e ∈ s.executed, e.2.kind = e.1.env.kind ∧
    (e.2.rev = none ↔ e.1.env.kind ≠ .kv ∨ e.2.err ≠ none)
  executing : ∀ d r, s.loop = .executed d r → (d, r) ∈ s.executed ∧ 1 ≤ d.env.seq
  checked : ∀ d, s.loop = .checked d → 1 ≤ d.env.seq
  reading : ∀ req readRev, s.reading = some (req, readRev) → 1 ≤ req.seq
  tables : D.Originates reads s.server.clientLastSeq s.server.clientLastResult

structure Recalled (D : Deployment ι) (reads : List Evaluated) : Prop where
  sites : ∀ i, D.Recalls reads (D.site i).service
  restoring : ∀ i snap, (D.site i).restoring = some snap → snap ∈ D.snapshots
  snapshots : ∀ snap ∈ D.snapshots,
    D.Originates reads snap.clientLastSeq (snap.clientLastResult.mapValues fromPBResult)

end Deployment

theorem copied_err (r : Result) : (fromPBResult (toPBResult r)).err = none ↔ r.err = none := by
  constructor
  · intro h
    have hcopy := fromPBResult_toPBResult h
    rwa [hcopy] at h
  · intro h
    have hempty : (toPBResult r).err = "" := by
      rw [toPBResult, h]
      rfl
    exact dif_neg (not_not.2 hempty)

namespace Server

variable {s : Server}

theorem get_fresh (h : s.lastSeq req.clientID < req.seq) : s.get req =
    some (s.recall (.get req (s.store.getAnswer req)), s.store.getAnswer req) := by
  unfold get dedup
  rw [if_neg (Int.not_lt.2 (Int.le_of_lt h)), if_neg (Int.ne_of_gt h)]
  rfl

theorem get_eq_none : s.get req = none ↔
    req.seq = s.lastSeq req.clientID ∧ (s.cached req.clientID).rev = none := by
  rcases Int.lt_trichotomy req.seq (s.lastSeq req.clientID) with hlt | heq | hgt
  · have hd : s.dedup req.clientID req.seq = .stale := if_pos hlt
    rw [get, hd]
    exact iff_of_false (Option.some_ne_none _) fun h => Int.ne_of_lt hlt h.1
  · have hd := dedup_eq_duplicate.2 ⟨heq, rfl⟩
    rw [get, hd, and_iff_right heq]
    exact Option.map_eq_none_iff
  · rw [get_fresh hgt]
    exact iff_of_false (Option.some_ne_none _) fun h => Int.ne_of_gt hgt h.1

end Server

namespace Service

variable {s s' : Service}

theorem step_get (h : s.step (.get req) = some s') : s' = s ∨
    s.server.lastSeq req.clientID < req.seq ∧
      s' = { s with server := s.server.recall (.get req (s.server.store.getAnswer req)) } := by
  obtain ⟨-, h⟩ := withLock_eq_some.1 h
  obtain ⟨out, hout, rfl⟩ := Option.map_eq_some_iff.1 h
  by_cases hlt : s.server.lastSeq req.clientID < req.seq
  · rw [Server.get_fresh hlt] at hout
    cases hout
    exact .inr ⟨hlt, rfl⟩
  · rcases Server.get_eq hout with he | ⟨hlt', -⟩
    · rw [he]
      exact .inl rfl
    · exact absurd hlt' hlt

theorem step_range (h : s.step .range = some s') :
    ∃ req readRev, s.reading = some (req, readRev) ∧ s' = { s with
      server := s.server.recall (.range req (s.server.range req readRev).2)
      reading := none } := by
  obtain ⟨⟨req, readRev⟩, hr, rfl⟩ := Option.map_eq_some_iff.1 h
  exact ⟨req, readRev, hr, rfl⟩

theorem step_execute (h : s.step .loop = some s') (hl : s.loop = .checked d) :
    s' = s.execute d := by
  rw [step, advance, hl] at h
  exact (Option.some.inj h).symm

end Service

namespace Deployment

section

variable {D D' : Deployment ι} {reads reads' : List Evaluated} {s s' : Service}

theorem Origin.mono (h : D.Origin reads k q r) (he : Extends D D') (hr : reads ⊆ reads') :
    D'.Origin reads' k q r := by
  cases h with
  | command hx hk hq herr => exact .command (hx.mono he) hk hq herr
  | read hin hk hq => exact .read (hr hin) hk hq

theorem Origin.copy (h : D.Origin reads k q r) :
    D.Origin reads k q (fromPBResult (toPBResult r)) := by
  cases h with
  | @command env r err hx hk hq herr =>
    exact .command hx hk hq ((copied_err { r with err := err }).trans herr)
  | @read e hin hk hq =>
    have hnone : e.result.err = none := by
      cases e <;> rfl
    rw [fromPBResult_toPBResult ((copied_err _).2 hnone)]
    exact .read hin hk hq

theorem Originates.mono (h : D.Originates reads seqs results) (he : Extends D D')
    (hr : reads ⊆ reads') : D'.Originates reads' seqs results := by
  intro k
  rcases h k with hnone | ⟨q, r, hs, hr', hq, ho⟩
  · exact .inl hnone
  · exact .inr ⟨q, r, hs, hr', hq, ho.mono he hr⟩

theorem Originates.copy (h : D.Originates reads seqs results) :
    D.Originates reads seqs ((results.mapValues toPBResult).mapValues fromPBResult) := by
  intro k
  rcases h k with ⟨hs, hr⟩ | ⟨q, r, hs, hr, hq, ho⟩
  · exact .inl ⟨hs, by simp [hr]⟩
  · exact .inr ⟨q, _, hs, by simp [hr], hq, ho.copy⟩

theorem Originates.insert (h : D.Originates reads seqs results) (hq : 1 ≤ q)
    (ho : D.Origin reads k q r) :
    D.Originates reads (seqs.insert k q) (results.insert k r) := by
  intro j
  by_cases hj : j = k
  · subst hj
    exact .inr ⟨q, r, Finmap.lookup_insert _, Finmap.lookup_insert _, hq, ho⟩
  · rw [Finmap.lookup_insert_of_ne _ hj, Finmap.lookup_insert_of_ne _ hj]
    exact h j

theorem Originates.lastSeq_nonneg {s : Server}
    (h : D.Originates reads s.clientLastSeq s.clientLastResult) (k : Int) : 0 ≤ s.lastSeq k := by
  rw [Server.lastSeq, GoMap.get]
  rcases h k with ⟨hs, -⟩ | ⟨q, r, hs, -, hq, -⟩
  · rw [hs]
    exact Int.le_refl 0
  · rw [hs]
    exact Int.le_trans (by decide) hq

theorem Recalls.mono (h : D.Recalls reads s) (he : Extends D D') (hr : reads ⊆ reads') :
    D'.Recalls reads' s :=
  { h with tables := h.tables.mono he hr }

theorem Recalls.frame (h : D.Recalls reads s) (ht : s'.server.SameTables s.server)
    (hx : s'.executed = s.executed)
    (hl : ∀ d r, s'.loop = .executed d r → s.loop = .executed d r)
    (hc : ∀ d, s'.loop = .checked d → 1 ≤ d.env.seq)
    (hr : ∀ req readRev, s'.reading = some (req, readRev) → 1 ≤ req.seq) : D.Recalls reads s' where
  executed := hx ▸ h.executed
  executing d r hd := hx ▸ h.executing d r (hl d r hd)
  checked := hc
  reading := hr
  tables := by
    rw [ht.1, ht.2]
    exact h.tables

theorem Recalls.recall (h : D.Recalls reads s) (he : e ∈ reads) (hseq : 1 ≤ e.request.seq)
    (hs : s'.server.SameTables (s.server.recall e)) (hx : s'.executed = s.executed)
    (hl : s'.loop = s.loop) (hr : s'.reading = s.reading ∨ s'.reading = none) :
    D.Recalls reads s' where
  executed := hx ▸ h.executed
  executing := hl ▸ hx ▸ h.executing
  checked := hl ▸ h.checked
  reading req readRev hreq := by
    rcases hr with hr | hr
    · exact h.reading req readRev (hr ▸ hreq)
    · rw [hr] at hreq
      cases hreq
  tables := by
    rw [hs.1, hs.2]
    exact h.tables.insert hseq (.read he rfl rfl)

/-- A step of the server. -/
theorem Recalls.step (h : D.Recalls reads s) (hs : s.step ev = some s') (he : Extends D D')
    (hr : reads ⊆ reads') (hev : s.evaluates ev ⊆ reads')
    (hx : ∀ e ∈ s'.executed, D'.Executed e.1.env e.2) : D'.Recalls reads' s' := by
  have h' : D'.Recalls reads' s := h.mono he hr
  have hnonneg (k : Int) : 0 ≤ s.server.lastSeq k := h'.tables.lastSeq_nonneg k
  cases Service.step_effect hs with
  | quiet ht hxs hl hr =>
    exact h'.frame ht hxs (fun d r hd => hl ▸ hd) (hl ▸ h'.checked) (hr ▸ h'.reading)
  | @check d hl hd hl' hlt ht hxs hr =>
    refine h'.frame ht hxs (fun _ _ hd' => ?_) (fun d' hd' => ?_) (hr ▸ h'.reading)
    · cases hl'.symm.trans hd'
    · cases hl'.symm.trans hd'
      exact Int.lt_of_le_of_lt (hnonneg _) hlt
  | @execute d r hl =>
    obtain rfl := Service.step_execute hs hl
    have hshape := KVStore.applyCommand_rev s.server.store d.ambient d.env
    refine ⟨fun e hm => ?_, fun d' r' hd' => ?_, fun _ hd' => ?_, h'.reading, h'.tables⟩
    · rcases List.mem_append.1 hm with hm | hm
      · exact h'.executed e hm
      · obtain rfl := List.mem_singleton.1 hm
        exact ⟨rfl, hshape⟩
    · cases hd'
      exact ⟨List.mem_append_right _ (List.mem_singleton_self _), h'.checked d hl⟩
    · cases hd'
  | @record d r hl hl' ht hxs hr =>
    obtain ⟨hd, hpos⟩ := h'.executing d r hl
    refine ⟨hxs ▸ h'.executed, fun _ _ hd' => ?_, fun _ hd' => ?_, fun _ _ hd' => ?_, ?_⟩
    · cases hl'.symm.trans hd'
    · cases hl'.symm.trans hd'
    · cases hr.symm.trans hd'
    · rw [ht.1, ht.2]
      exact h'.tables.insert hpos (.command (hx _ (hxs ▸ hd)) rfl rfl Iff.rfl)
  | @get _ req hlt =>
    rcases Service.step_get hs with rfl | ⟨-, rfl⟩
    · exact h'
    · have hin : Evaluated.get req (s.server.store.getAnswer req) ∈ s.evaluates (.get req) := by
        rw [Service.evaluates, if_pos hlt]
        exact List.mem_singleton_self _
      exact h'.recall (hev hin) (Int.lt_of_le_of_lt (hnonneg _) hlt) ⟨rfl, rfl⟩ rfl rfl (.inl rfl)
  | @lock req readRev hlt hread ht hxs hl =>
    refine h'.frame ht hxs (fun d r hd => hl ▸ hd) (hl ▸ h'.checked) fun req' readRev' hreq => ?_
    cases hread.symm.trans hreq
    exact Int.lt_of_le_of_lt (hnonneg _) hlt
  | range =>
    obtain ⟨req, readRev, hread, rfl⟩ := Service.step_range hs
    have hin : Evaluated.range req (s.server.range req readRev).2 ∈ s.evaluates .range := by
      rw [Service.evaluates, hread]
      exact List.mem_singleton_self _
    exact h'.recall (hev hin) (h'.reading req readRev hread) ⟨rfl, rfl⟩ rfl rfl (.inr rfl)

end

section

variable [DecidableEq ι] {D D' : Deployment ι} {reads reads' : List Evaluated}

theorem Recalled.set (h : D.Recalled reads) (hr : reads ⊆ reads') (hp : D.proposed ⊆ p)
    (hx : (D.site i).service.executed ⊆ t.service.executed)
    (hi : ∀ D', Extends D D' → (∀ e ∈ t.service.executed, D'.Executed e.1.env e.2) →
      D'.Recalls reads' t.service)
    (hsnap : ∀ snap, t.restoring = some snap → snap ∈ D.snapshots) :
    Recalled { D.set i t with proposed := p, returned := q } reads' := by
  have he : Extends D { D.set i t with proposed := p, returned := q } :=
    .set hx hp (List.Subset.refl _)
  refine ⟨set_site_forall (P := fun _ t => Recalls _ reads' t.service)
    (fun j _ => (h.sites j).mono he hr) (hi _ he fun e hm => ⟨i, e.1, ?_, rfl⟩),
    set_site_forall (P := fun _ t => ∀ snap, t.restoring = some snap → snap ∈ D.snapshots)
      (fun j _ => h.restoring j) hsnap,
    fun snap hin => (h.snapshots snap hin).mono he hr⟩
  simpa only [set_site_self] using hm

theorem Recalled.step (h : D.Recalled reads) (hs : D.step (i, ev) = some D') :
    D'.Recalled (reads ++ D.evaluates (i, ev)) := by
  have hsite := h.sites i
  have hr : reads ⊆ reads ++ D.evaluates (i, ev) := List.subset_append_left _ _
  cases step_moves hs with
  | @start index sub =>
    exact h.set (t := (D.site i).start index sub) hr (List.subset_cons_self _ _)
      (List.Subset.refl _) (fun D' he _ => hsite.mono he hr) (h.restoring i)
  | @register index sub s hm hsub =>
    exact h.set (t := (D.site i).register index sub s) hr (List.Subset.refl _)
      (Service.step_executed hsub)
      (fun D' he hx => hsite.step hsub he hr (List.nil_subset _) hx) (h.restoring i)
  | @deliver d hd =>
    exact h.set (t := (D.site i).deliver d) hr (List.Subset.refl _) (List.Subset.refl _)
      (fun D' he _ => { hsite.mono he hr with }) (h.restoring i)
  | @serve ev s hserves hev =>
    exact h.set (t := { D.site i with service := s }) hr (List.Subset.refl _)
      (Service.step_executed hev)
      (fun D' he hx => hsite.step hev he hr (List.subset_append_right _ _) hx) (h.restoring i)
  | @makeSnapshot order hready ho =>
    have he : Extends D { D with
        snapshots := D.snapshots ++ [(D.site i).service.server.makeSnapshot order] } :=
      ⟨List.Subset.refl _, List.subset_append_left _ _, fun _ => List.Subset.refl _⟩
    refine ⟨fun j => (h.sites j).mono he hr,
      fun j snap hj => List.mem_append_left _ (h.restoring j snap hj), fun snap hin => ?_⟩
    rcases List.mem_append.1 hin with hin | hin
    · exact (h.snapshots snap hin).mono he hr
    · obtain rfl := List.mem_singleton.1 hin
      exact hsite.tables.copy.mono he hr
  | @install n snap hready hn =>
    refine h.set (t := (D.site i).install snap) hr (List.Subset.refl _) (List.Subset.refl _)
      (fun D' he _ => { hsite.mono he hr with }) fun snap' hsnap => ?_
    cases hsnap
    exact List.mem_of_getElem? hn
  | @restore snap hu hrest =>
    have ht := h.snapshots snap (h.restoring i snap hrest)
    exact h.set (t := (D.site i).restore snap) hr (List.Subset.refl _) (List.Subset.refl _)
      (fun D' he _ => { hsite.mono he hr with tables := ht.mono he hr }) nofun

theorem Recalled.reachable {stores : ι → KVStore} {x : Deployment ι × List Evaluated}
    (h : Consensus.ReachableBy trackReads ok (fresh stores, []) x) : x.1.Recalled x.2 := by
  induction h with
  | init =>
    refine ⟨fun i => ⟨?_, ?_, ?_, ?_, fun k => .inl ⟨rfl, rfl⟩⟩, ?_, ?_⟩
    · exact fun _ he => absurd he List.not_mem_nil
    · exact fun _ _ hd => nomatch hd
    · exact fun _ hd => nomatch hd
    · exact fun _ _ hd => nomatch hd
    · exact fun _ _ hd => nomatch hd
    · exact fun _ hd => absurd hd List.not_mem_nil
  | @step x a x' _ _ hs ih =>
    obtain ⟨i, ev⟩ := a
    obtain ⟨hD, hreads⟩ := Consensus.noting_eq_some hs
    rw [hreads]
    exact ih.step hD

theorem exists_reads {stores : ι → KVStore}
    (h : Consensus.ReachableBy Deployment.step (fun _ _ => True) (fresh stores) D) :
    ∃ reads, D.Recalled reads := by
  induction h with
  | init =>
    have hinit : Consensus.ReachableBy trackReads (fun _ _ => True) (fresh stores, [])
        (fresh stores, []) := .init
    exact ⟨[], Recalled.reachable hinit⟩
  | @step D a D' _ _ hs ih =>
    obtain ⟨i, ev⟩ := a
    obtain ⟨reads, hreads⟩ := ih
    exact ⟨_, hreads.step hs⟩

end

section

variable {D : Deployment ι} {reads : List Evaluated}

theorem Recalled.executed (h : D.Recalled reads) (hx : D.Executed env r) :
    r.kind = env.kind ∧ (r.rev = none ↔ env.kind ≠ .kv ∨ r.err ≠ none) := by
  obtain ⟨i, d, hd, rfl⟩ := hx
  exact (h.sites i).executed _ hd

theorem Recalled.rev_eq_none (h : D.Recalled reads) (ho : D.Origin reads k q r) :
    r.rev = none ↔ r.kind ≠ .kv ∨ r.err ≠ none := by
  cases ho with
  | command hx _ _ herr =>
    obtain ⟨hkind, hrev⟩ := h.executed hx
    dsimp only
    rw [hkind, hrev, ne_eq, ne_eq, ne_eq, herr]
  | @read e =>
    cases e with
    | get | range =>
      exact iff_of_false (Option.some_ne_none _) (not_or.2 ⟨not_not.2 rfl, not_not.2 rfl⟩)

theorem Originates.cached {s : Server}
    (h : D.Originates reads s.clientLastSeq s.clientLastResult) (k : Int) :
    s.clientLastResult.lookup k = none ∧ s.lastSeq k = 0 ∧ s.cached k = {} ∨
      s.clientLastResult.lookup k = some (s.cached k) ∧ 1 ≤ s.lastSeq k ∧
        D.Origin reads k (s.lastSeq k) (s.cached k) := by
  rw [Server.lastSeq, Server.cached, GoMap.get, GoMap.get]
  rcases h k with ⟨hs, hr⟩ | ⟨q, r, hs, hr, hq, ho⟩
  · rw [hs, hr]
    exact .inl ⟨rfl, rfl, rfl⟩
  · rw [hs, hr]
    exact .inr ⟨rfl, hq, ho⟩

theorem Recalled.get_eq_none {s : Server} (h : D.Recalled reads)
    (ht : D.Originates reads s.clientLastSeq s.clientLastResult) :
    s.get req = none ↔ req.seq = s.lastSeq req.clientID ∧
      ∀ r, s.clientLastResult.lookup req.clientID = some r → r.kind ≠ .kv ∨ r.err ≠ none := by
  rw [Server.get_eq_none]
  refine and_congr_right fun _ => ?_
  rcases ht.cached req.clientID with ⟨hl, -, hc⟩ | ⟨hl, -, ho⟩
  · rw [hl, hc]
    refine iff_of_true rfl fun r hr => ?_
    cases hr
  · rw [hl, h.rev_eq_none ho]
    refine ⟨fun hr r he => ?_, fun hr => hr _ rfl⟩
    rwa [← Option.some.inj he]

theorem Recalled.command_of_rev (h : D.Recalled reads) (ho : D.Origin reads k q r)
    (hrev : r.rev = none) : ∃ env r', D.Executed env r' ∧ env.clientID = k ∧ env.seq = q ∧
      (env.kind ≠ .kv ∨ r'.err ≠ none) := by
  cases ho with
  | @command env r _ hx hk hq => exact ⟨env, r, hx, hk, hq, (h.executed hx).2.1 hrev⟩
  | @read e => cases e <;> cases hrev

end

end Deployment

/-- `Get` crashes exactly when it replays the result of the client's last request and this is
unknown or is that of a transaction, a lease command or a command that failed. It returns for a
number other than 0 that the client has not used for such a command. -/
theorem get_returns [DecidableEq ι] {stores : ι → KVStore} {D : Deployment ι}
    (h : Consensus.ReachableBy Deployment.step (fun _ _ => True) (.fresh stores) D) (i : ι)
    (req : GetRequest) :
    ((D.site i).service.server.get req = none ↔
      req.seq = (D.site i).service.server.lastSeq req.clientID ∧
      ∀ r, (D.site i).service.server.clientLastResult.lookup req.clientID = some r →
        r.kind ≠ .kv ∨ r.err ≠ none) ∧
    (req.seq ≠ 0 → (∀ env r, D.Executed env r → env.clientID = req.clientID →
        env.seq = req.seq → env.kind = .kv ∧ r.err = none) →
      ∃ out, (D.site i).service.server.get req = some out) := by
  obtain ⟨reads, hreads⟩ := Deployment.exists_reads h
  have htables := (hreads.sites i).tables
  refine ⟨hreads.get_eq_none htables, fun hpos hcmd => ?_⟩
  apply Option.ne_none_iff_exists'.1
  intro hnone
  obtain ⟨hseq, hrev⟩ := Server.get_eq_none.1 hnone
  rcases htables.cached req.clientID with ⟨-, hzero, -⟩ | ⟨-, -, ho⟩
  · exact hpos (hseq.trans hzero)
  · obtain ⟨env, r, hx, hk, hq, hne⟩ := hreads.command_of_rev ho hrev
    obtain ⟨hkind, herr⟩ := hcmd env r hx hk (hq.trans hseq.symm)
    exact hne.elim (absurd hkind) (absurd herr)

/-- The command of the call is committed and executed at server `i`. -/
def carriedOut (i : ι) (sub : Submission) : List (ι × SiteEvent) :=
  [(i, .start 1 sub), (i, .deliver ⟨1, sub.env, ⟨0, []⟩⟩), (i, .serve .loop), (i, .serve .loop),
    (i, .serve .loop)]

/-- A `Get` with the number of a put returns. -/
theorem get_returns_after_put : ∃ D : Deployment (Fin 1),
    Consensus.ReachableBy Deployment.step (fun _ _ => True) (.fresh fun _ => .new) D ∧
    (D.site 0).service.server.lastSeq 1 = 1 ∧
    ∃ out, (D.site 0).service.server.get ⟨[1], 0, 1, 1⟩ = some out := by
  have hrun : Consensus.RunsTo Deployment.step (fun _ _ => True)
      (fun D : Deployment (Fin 1) => (D.site 0).service.server.lastSeq 1 = 1 ∧
        ∀ i, ∀ e ∈ (D.site i).service.executed, e.1.env.kind = .kv ∧ e.2.err = none)
      (.fresh fun _ => .new) (carriedOut 0 (putOf 1)) := by
    decide +kernel
  obtain ⟨D, hD, hlast, hall⟩ := hrun.reachable
  refine ⟨D, hD, hlast, (get_returns hD 0 ⟨[1], 0, 1, 1⟩).2 (by decide) ?_⟩
  rintro env r ⟨i, d, hd, rfl⟩ - -
  exact hall i _ hd

/-- The first request of a client crashes a fresh server if it is a `Get` with number 0, and so
does one with the number of a transaction. -/
theorem get_returns_fails :
    (Server.new .new).get ⟨[1], 0, 1, 0⟩ = none ∧
    ∃ D : Deployment (Fin 1),
      Consensus.ReachableBy Deployment.step (fun _ _ => True) (.fresh fun _ => .new) D ∧
      (D.site 0).service.server.get ⟨[1], 0, 1, 1⟩ = none := by
  have hrun : Consensus.RunsTo Deployment.step (fun _ _ => True)
      (fun D : Deployment (Fin 1) =>
        ((D.site 0).service.server.get ⟨[1], 0, 1, 1⟩).isNone = true)
      (.fresh fun _ => .new) (carriedOut 0 (txnOf 1)) := by
    decide +kernel
  obtain ⟨D, hD, hnone⟩ := hrun.reachable
  exact ⟨rfl, D, hD, Option.isNone_iff_eq_none.1 hnone⟩

end LinKV

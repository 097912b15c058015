import LinKV.Server.Deployment

namespace LinKV
set_option autoImplicit true

/-- Commands that `match` cannot tell apart. -/
def Command.SameCall (a b : Command) : Prop :=
  a.clientID = b.clientID ∧ a.seq = b.seq ∧ a.kind = b.kind

instance (a b : Command) : Decidable (a.SameCall b) := inferInstanceAs (Decidable (_ ∧ _ ∧ _))

theorem Submission.matches_iff {sub : Submission} {cmd : Command} :
    sub.waitEntry.matches cmd = true ↔ sub.env.SameCall cmd := decide_eq_true_iff

theorem Result.Of.sameCall {r : Result} (h : r.Of a) (hc : a.SameCall b) : r.Of b :=
  ⟨h.1.trans hc.1, h.2.1.trans hc.2.1, h.2.2.trans hc.2.2⟩

theorem Command.SameCall.symm {a b : Command} (h : a.SameCall b) : b.SameCall a :=
  ⟨h.1.symm, h.2.1.symm, h.2.2.symm⟩

theorem Command.SameCall.trans {a b c : Command} (h : a.SameCall b) (h' : b.SameCall c) :
    a.SameCall c :=
  ⟨h.1.trans h'.1, h.2.1.trans h'.2.1, h.2.2.trans h'.2.2⟩

namespace Deployment

/-- Some server has executed the command, with this result. -/
def Executed (D : Deployment ι) (env : Command) (r : Result) : Prop :=
  ∃ i d, (d, r) ∈ (D.site i).service.executed ∧ d.env = env

/-- An executed command of the same identity stands behind the result. -/
def Backs (D : Deployment ι) (r : Result) : Prop :=
  ∃ env ∈ D.proposed, ∃ r', D.Executed env r' ∧ r.Of env ∧ (r.err = none → r = r')

/-- Every entry of the dedup tables is the result of the client's command with that number. -/
def BacksTables (D : Deployment ι) (seqs : GoMap Int Int) (results : GoMap Int Result) : Prop :=
  ∀ k q, seqs.lookup k = some q →
    ∃ r, results.lookup k = some r ∧ r.clientID = k ∧ r.seq = q ∧ D.Backs r

/-- A result goes back to the call only if its own command was executed with it. -/
def Justified (D : Deployment ι) (a : Submission × Result) : Prop :=
  a.2.err = none → a.2.Of a.1.env ∧ ∃ env, D.Executed env a.2 ∧ env.SameCall a.1.env

/-- Commands are numbered from 1, and a number of a client stands for one kind of command. -/
def Distinct (D : Deployment ι) : Prop :=
  (∀ a ∈ D.proposed, 1 ≤ a.seq) ∧
  ∀ a ∈ D.proposed, ∀ b ∈ D.proposed, a.clientID = b.clientID → a.seq = b.seq → a.kind = b.kind

structure Extends (D D' : Deployment ι) : Prop where
  proposed : D.proposed ⊆ D'.proposed
  snapshots : D.snapshots ⊆ D'.snapshots
  executed : ∀ i, (D.site i).service.executed ⊆ (D'.site i).service.executed

/-- All commands at a server come from `submit` calls, and its results from executed ones. -/
structure Traces (D : Deployment ι) (s : Service) : Prop where
  applyCh : ∀ d ∈ s.applyCh, d.env ∈ D.proposed
  checked : ∀ d, s.loop = .checked d → d.env ∈ D.proposed
  executing : ∀ d r, s.loop = .executed d r → (d, r) ∈ s.executed
  executed : ∀ e ∈ s.executed, e.1.env ∈ D.proposed ∧ e.2.Of e.1.env
  lastResult : ∀ index r, s.server.lastResult.lookup index = some r →
    ∃ d, (d, r) ∈ s.executed ∧ d.index = index
  tables : D.BacksTables s.server.clientLastSeq s.server.clientLastResult

structure Traced (D : Deployment ι) : Prop where
  distinct : D.Distinct
  sites : ∀ i, D.Traces (D.site i).service
  holders : ∀ i index ch, (D.site i).service.server.waitCh.lookup index = some ch →
    ∃ sub, (D.site i).holders.lookup index = some sub ∧ ch = sub.waitEntry
  restoring : ∀ i snap, (D.site i).restoring = some snap → snap ∈ D.snapshots
  snapshots : ∀ snap ∈ D.snapshots,
    D.BacksTables snap.clientLastSeq (snap.clientLastResult.mapValues fromPBResult)
  returned : ∀ a ∈ D.returned, D.Justified a

section

variable {D D' : Deployment ι} {s s' : Service}

theorem Executed.mono (h : D.Executed env r) (he : Extends D D') : D'.Executed env r := by
  obtain ⟨i, d, hd, henv⟩ := h
  exact ⟨i, d, he.executed i hd, henv⟩

theorem Backs.mono (h : D.Backs r) (he : Extends D D') : D'.Backs r := by
  obtain ⟨env, hp, r', hx, hof⟩ := h
  exact ⟨env, he.proposed hp, r', hx.mono he, hof⟩

theorem BacksTables.mono (h : D.BacksTables seqs results) (he : Extends D D') :
    D'.BacksTables seqs results := fun k q hq => by
  obtain ⟨r, hr, hk, hs, hb⟩ := h k q hq
  exact ⟨r, hr, hk, hs, hb.mono he⟩

theorem Justified.mono (h : D.Justified a) (he : Extends D D') : D'.Justified a := fun herr => by
  obtain ⟨hof, env, hx, hc⟩ := h herr
  exact ⟨hof, env, hx.mono he, hc⟩

theorem Traces.mono (h : D.Traces s) (he : Extends D D') : D'.Traces s where
  applyCh d hd := he.proposed (h.applyCh d hd)
  checked d hd := he.proposed (h.checked d hd)
  executing := h.executing
  executed e hm := ⟨he.proposed (h.executed e hm).1, (h.executed e hm).2⟩
  lastResult := h.lastResult
  tables := h.tables.mono he

theorem Distinct.cons (h : D.Distinct) (hp : D'.proposed = env :: D.proposed) (hpos : 1 ≤ env.seq)
    (hkind : ∀ a ∈ D.proposed, a.clientID = env.clientID → a.seq = env.seq → a.kind = env.kind) :
    D'.Distinct := by
  rw [Distinct, hp]
  refine ⟨fun a ha => ?_, fun a ha b hb hk hseq => ?_⟩
  · rcases List.mem_cons.1 ha with rfl | ha
    · exact hpos
    · exact h.1 a ha
  · rcases List.mem_cons.1 ha with rfl | ha'
    · rcases List.mem_cons.1 hb with rfl | hb'
      · rfl
      · exact (hkind b hb' hk.symm hseq.symm).symm
    · rcases List.mem_cons.1 hb with rfl | hb'
      · exact hkind a ha' hk hseq
      · exact h.2 a ha' b hb' hk hseq

theorem BacksTables.insert (h : D.BacksTables seqs results) (hof : r.Of env)
    (hp : env ∈ D.proposed) (hx : D.Executed env r) :
    D.BacksTables (seqs.insert env.clientID env.seq) (results.insert env.clientID r) := by
  intro k q hq
  rcases eq_or_ne k env.clientID with rfl | hk
  · rw [Finmap.lookup_insert] at hq
    cases hq
    exact ⟨r, Finmap.lookup_insert _, hof.1, hof.2.1, env, hp, r, hx, hof, fun _ => rfl⟩
  · rw [Finmap.lookup_insert_of_ne _ hk] at hq ⊢
    exact h k q hq

theorem BacksTables.copy (h : D.BacksTables seqs results) :
    D.BacksTables seqs ((results.mapValues toPBResult).mapValues fromPBResult) := by
  intro k q hq
  obtain ⟨r, hr, hk, hs, env, hp, r', hx, hof, heq⟩ := h k q hq
  refine ⟨fromPBResult (toPBResult r), by simp [hr], hk, hs, env, hp, r', hx, hof, fun herr => ?_⟩
  have hcopy := fromPBResult_toPBResult herr
  rw [hcopy] at herr ⊢
  exact heq herr

/-- A step of the server, other than of a read. -/
theorem Traces.step (h : D.Traces s) (hs : s.step ev = some s') (hev : ev.isRead = false)
    (he : Extends D D') (hx : ∀ e ∈ s'.executed, D'.Executed e.1.env e.2) : D'.Traces s' := by
  have h' : D'.Traces s := h.mono he
  have hch (d : Delivery) (hd : d ∈ s'.applyCh) : d.env ∈ D'.proposed :=
    h'.applyCh d (Service.step_applyCh hs hd)
  have hlast (index : Int) (r : Result) (hr : s'.server.lastResult.lookup index = some r) :
      ∃ d, (d, r) ∈ s.executed ∧ d.index = index := by
    rcases Service.step_lastResult hs hr with hr | ⟨d, hd, hi⟩
    · exact h'.lastResult index r hr
    · exact ⟨d, h'.executing d r hd, hi⟩
  cases Service.step_effect hs with
  | quiet ht hxs hl hr =>
    refine ⟨hch, hl ▸ h'.checked, hl ▸ hxs ▸ h'.executing, hxs ▸ h'.executed, hxs ▸ hlast, ?_⟩
    rw [ht.1, ht.2]
    exact h'.tables
  | @check d hl hd hl' hlt ht hxs hr =>
    refine ⟨hch, fun d' hd' => ?_, fun _ _ hd' => ?_, hxs ▸ h'.executed, hxs ▸ hlast, ?_⟩
    · cases hl'.symm.trans hd'
      exact h'.applyCh d hd
    · cases hl'.symm.trans hd'
    · rw [ht.1, ht.2]
      exact h'.tables
  | @execute d r hl hl' hof hxs ht hr =>
    refine ⟨hch, fun _ hd' => ?_, fun d' r' hd' => ?_, fun e hm => ?_, fun index r' hr' => ?_, ?_⟩
    · cases hl'.symm.trans hd'
    · cases hl'.symm.trans hd'
      rw [hxs]
      exact List.mem_append_right _ (List.mem_singleton_self _)
    · rw [hxs] at hm
      rcases List.mem_append.1 hm with hm | hm
      · exact h'.executed e hm
      · obtain rfl := List.mem_singleton.1 hm
        exact ⟨h'.checked d hl, hof⟩
    · obtain ⟨d', hd', hi⟩ := hlast index r' hr'
      rw [hxs]
      exact ⟨d', List.mem_append_left _ hd', hi⟩
    · rw [ht.1, ht.2]
      exact h'.tables
  | @record d r hl hl' ht hxs hr =>
    have hd := h'.executing d r hl
    obtain ⟨hp, hof⟩ := h'.executed _ hd
    refine ⟨hch, fun _ hd' => ?_, fun _ _ hd' => ?_, hxs ▸ h'.executed, hxs ▸ hlast, ?_⟩
    · cases hl'.symm.trans hd'
    · cases hl'.symm.trans hd'
    · rw [ht.1, ht.2]
      exact h'.tables.insert hof hp (hx _ (hxs ▸ hd))
  | get | lock | range => cases hev

theorem Traced.duplicate (h : D.Traced) (hs : D.Traces s) (hp : env ∈ D.proposed)
    (hd : s.server.dedup env.clientID env.seq = .duplicate r) (herr : r.err = none) :
    r.Of env ∧ ∃ env', D.Executed env' r ∧ env'.SameCall env := by
  have hdup := Server.dedup_eq_duplicate.1 hd
  have hpos := h.distinct.1 env hp
  cases hq : s.server.clientLastSeq.lookup env.clientID with
  | none =>
    -- a client without an entry has the last number 0
    rw [Server.lastSeq, GoMap.get, hq, Option.getD_none] at hdup
    omega
  | some q =>
    obtain ⟨r', hr', hk, hseq, env', hp', r'', hx, hof, heq⟩ := hs.tables _ q hq
    have hqs : env.seq = q := by
      rw [hdup.1, Server.lastSeq, GoMap.get, hq, Option.getD_some]
    have hrr : r = r' := by
      rw [hdup.2, Server.cached, GoMap.get, hr', Option.getD_some]
    subst hrr
    have hkind := h.distinct.2 env' hp' env hp (hof.1.symm.trans hk)
      (hof.2.1.symm.trans (hseq.trans hqs.symm))
    have hcall : env'.SameCall env :=
      ⟨hof.1.symm.trans hk, hof.2.1.symm.trans (hseq.trans hqs.symm), hkind⟩
    exact ⟨hof.sameCall hcall, env', heq herr ▸ hx, hcall⟩

/-- The call that waits at a site gets the result of its own command. -/
theorem Traced.answers (h : D.Traced) (hs : (D.site i).service.step ev = some s)
    (hev : ∀ index env, ev ≠ .submit index env) (ha : a ∈ (D.site i).answers s) :
    D.Justified a := by
  intro herr
  obtain ⟨⟨index, r⟩, hm, ha⟩ := List.mem_filterMap.1 ha
  obtain ⟨sub, hsub, rfl⟩ := Option.map_eq_some_iff.1 ha
  have hsite := h.sites i
  have hcall {ch : WaitEntry} {env : Command}
      (hch : (D.site i).service.server.waitCh.lookup index = some ch)
      (hmatch : ch.matches env = true) : env.SameCall sub.env := by
    obtain ⟨sub', hsub', rfl⟩ := h.holders i index ch hch
    cases hsub.symm.trans hsub'
    exact (Submission.matches_iff.1 hmatch).symm
  cases Service.mem_newResults hs hm with
  | @duplicate d rest _ ch hl hc hd hch hmatch =>
    have hsame := hcall hch hmatch
    have hp : d.env ∈ D.proposed := hsite.applyCh d (hc ▸ List.mem_cons_self)
    obtain ⟨hof, env, hx, henv⟩ := h.duplicate hsite hp hd herr
    exact ⟨hof.sameCall hsame, env, hx, henv.trans hsame⟩
  | @recorded d _ ch hl hch hmatch =>
    have hsame := hcall hch hmatch
    have hd := hsite.executing d r hl
    exact ⟨(hsite.executed _ hd).2.sameCall hsame, d.env, ⟨i, d, hd, rfl⟩, hsame⟩
  | cached => exact absurd rfl (hev _ _)

theorem Traced.cached (h : D.Traced)
    (hs : (D.site i).service.step (.submit index sub.env) = some s)
    (hok : index ∈ (D.site i).service.server.lastResult →
      ∀ e ∈ (D.site i).service.executed, e.1.index = index → e.1.env.SameCall sub.env)
    (hm : (index', r) ∈ (D.site i).service.newResults s) : D.Justified (sub, r) := by
  intro _
  cases Service.mem_newResults hs hm with
  | cached hlast =>
    obtain ⟨d, hd, hi⟩ := (h.sites i).lastResult index r hlast
    have hsame := hok (Finmap.mem_of_lookup_eq_some hlast) _ hd hi
    exact ⟨((h.sites i).executed _ hd).2.sameCall hsame, d.env, ⟨i, d, hd, rfl⟩, hsame⟩

theorem Traces.deliver (h : D.Traces s) (hd : d.env ∈ D.proposed) :
    D.Traces { s with applyCh := s.applyCh ++ [d] } := by
  refine { h with applyCh := fun d' hd' => ?_ }
  rcases List.mem_append.1 hd' with hd' | hd'
  · exact h.applyCh d' hd'
  · obtain rfl := List.mem_singleton.1 hd'
    exact hd

theorem Traces.replace (h : D.Traces s)
    (hb : D.BacksTables snap.clientLastSeq (snap.clientLastResult.mapValues fromPBResult)) :
    D.Traces { s with server := s.server.replace snap } :=
  { h with
    lastResult := fun _ _ hr => nomatch hr
    tables := hb }

theorem Traced.register_holders (h : D.Traced)
    (hs : (D.site i).service.step (.submit index sub.env) = some s)
    (hw : s.server.waitCh.lookup index' = some ch) :
    ∃ sub', ((D.site i).register index sub s).holders.lookup index' = some sub' ∧
      ch = sub'.waitEntry := by
  rcases Service.submit_waitCh hs with ⟨r, -, hsame, he⟩ | ⟨hins, he⟩
  · have hnew := Service.newResults_append he
    simp only [Site.register, hnew]
    exact h.holders i index' ch (hsame ▸ hw)
  · have hnew := Service.newResults_eq_nil he
    simp only [Site.register, hnew, List.isEmpty_nil, if_true]
    rw [hins] at hw
    rcases eq_or_ne index' index with rfl | hne
    · rw [Finmap.lookup_insert] at hw ⊢
      cases hw
      exact ⟨sub, rfl, rfl⟩
    · rw [Finmap.lookup_insert_of_ne _ hne] at hw ⊢
      exact h.holders i index' ch hw

theorem Traced.move (h : D.Traced) (he : Extends D D') (hd : D'.Distinct)
    (hother : ∀ j, j ≠ i → D'.site j = D.site j) (hi : D'.Traces (D'.site i).service)
    (hh : ∀ index ch, (D'.site i).service.server.waitCh.lookup index = some ch →
      ∃ sub, (D'.site i).holders.lookup index = some sub ∧ ch = sub.waitEntry)
    (hr : ∀ snap, (D'.site i).restoring = some snap → snap ∈ D'.snapshots)
    (hs : ∀ snap ∈ D'.snapshots, snap ∈ D.snapshots ∨
      D'.BacksTables snap.clientLastSeq (snap.clientLastResult.mapValues fromPBResult))
    (hret : ∀ a ∈ D'.returned, a ∈ D.returned ∨ D'.Justified a) : D'.Traced where
  distinct := hd
  sites j := by
    by_cases hj : j = i
    · exact hj ▸ hi
    · rw [hother j hj]
      exact (h.sites j).mono he
  holders j := by
    by_cases hj : j = i
    · exact hj ▸ hh
    · rw [hother j hj]
      exact h.holders j
  restoring j snap hsnap := by
    by_cases hj : j = i
    · exact hr snap (hj ▸ hsnap)
    · rw [hother j hj] at hsnap
      exact he.snapshots (h.restoring j snap hsnap)
  snapshots snap hsnap := by
    rcases hs snap hsnap with hin | hb
    · exact (h.snapshots snap hin).mono he
    · exact hb
  returned a ha := by
    rcases hret a ha with hin | hj
    · exact (h.returned a hin).mono he
    · exact hj

end

section

variable [DecidableEq ι] {D D' : Deployment ι}

theorem Extends.set (hx : (D.site i).service.executed ⊆ t.service.executed)
    (hp : D.proposed ⊆ p) (hn : D.snapshots ⊆ n) :
    Extends D { D.set i t with proposed := p, snapshots := n, returned := q } where
  proposed := hp
  snapshots := hn
  executed := set_site_forall
    (P := fun j t => (D.site j).service.executed ⊆ t.service.executed)
    (fun _ _ => List.Subset.refl _) hx

theorem Traced.set (h : D.Traced) (hx : (D.site i).service.executed ⊆ t.service.executed)
    (hi : ∀ D', Extends D D' → (∀ e ∈ t.service.executed, D'.Executed e.1.env e.2) →
      D'.Traces t.service)
    (hh : ∀ index ch, t.service.server.waitCh.lookup index = some ch →
      ∃ sub, t.holders.lookup index = some sub ∧ ch = sub.waitEntry)
    (hr : ∀ snap, t.restoring = some snap → snap ∈ D.snapshots)
    (hq : ∀ a ∈ q, a ∈ D.returned ∨ D.Justified a) :
    Traced { D.set i t with returned := q } := by
  have he : Extends D { D.set i t with returned := q } :=
    .set hx (List.Subset.refl _) (List.Subset.refl _)
  refine h.move (i := i) he h.distinct (fun j hj => set_site_of_ne D t hj) ?_ ?_ ?_
    (fun _ hm => .inl hm) (fun a ha => (hq a ha).imp_right (·.mono he))
  · simp only [set_site_self]
    exact hi _ he fun e hm => ⟨i, e.1, by simpa only [set_site_self] using hm, rfl⟩
  · simpa only [set_site_self] using hh
  · simp only [set_site_self]
    exact hr

/-- The runs in question: commands are numbered from 1, and there are no reads. -/
def InScope (_ : Deployment ι) : ι × SiteEvent → Prop
  | (_, .start _ sub) => 1 ≤ sub.env.seq
  | (_, .serve ev) => ev.isRead = false
  | _ => True

/-- A client does not use a number for two kinds of commands, and a call that finds a result at
its index finds that of its own command. -/
def Undisturbed (D : Deployment ι) : ι × SiteEvent → Prop
  | (_, .start _ sub) => ∀ env ∈ D.proposed, env.clientID = sub.env.clientID →
      env.seq = sub.env.seq → env.kind = sub.env.kind
  | (i, .register index sub) => index ∈ (D.site i).service.server.lastResult →
      ∀ e ∈ (D.site i).service.executed, e.1.index = index → e.1.env.SameCall sub.env
  | _ => True

instance (D : Deployment ι) : (a : ι × SiteEvent) → Decidable (D.InScope a)
  | (_, .start _ sub) => inferInstanceAs (Decidable (1 ≤ sub.env.seq))
  | (_, .serve ev) => inferInstanceAs (Decidable (ev.isRead = false))
  | (_, .register _ _) | (_, .deliver _) | (_, .makeSnapshot _) | (_, .install _)
  | (_, .restore) => instDecidableTrue

instance (D : Deployment ι) : (a : ι × SiteEvent) → Decidable (D.Undisturbed a)
  | (_, .start _ _) => inferInstanceAs (Decidable (∀ env ∈ D.proposed, _ → _ → _))
  | (i, .register index _) =>
    inferInstanceAs (Decidable (index ∈ (D.site i).service.server.lastResult →
      ∀ e ∈ (D.site i).service.executed, _ → _))
  | (_, .serve _) | (_, .deliver _) | (_, .makeSnapshot _) | (_, .install _)
  | (_, .restore) => instDecidableTrue

theorem Traced.step (h : D.Traced) (hin : D.InScope (i, ev)) (hok : D.Undisturbed (i, ev))
    (hs : D.step (i, ev) = some D') : D'.Traced := by
  have hsite := h.sites i
  cases step_moves hs with
  | @start index sub =>
    have he : Extends D _ := Extends.set (t := (D.site i).start index sub) (q := D.returned)
      (List.Subset.refl _) (List.subset_cons_self sub.env D.proposed) (List.Subset.refl _)
    refine h.move (i := i) he (h.distinct.cons rfl hin hok) (fun j hj => set_site_of_ne D _ hj)
      ?_ ?_ ?_ (fun _ hm => .inl hm) (fun _ hm => .inl hm)
    · simp only [set_site_self]
      exact hsite.mono he
    · simp only [set_site_self]
      exact h.holders i
    · simp only [set_site_self]
      exact h.restoring i
  | @register index sub s hm hsub =>
    refine h.set (t := (D.site i).register index sub s) (Service.step_executed hsub)
      (fun D' he hx => hsite.step hsub rfl he hx) (fun _ _ => h.register_holders hsub)
      (h.restoring i) (fun a ha => ?_)
    rcases List.mem_append.1 ha with ha | ha
    · exact .inl ha
    · obtain ⟨⟨index', r⟩, hr, rfl⟩ := List.mem_map.1 ha
      exact .inr (h.cached hsub hok hr)
  | @deliver d hd =>
    exact h.set (t := (D.site i).deliver d) (q := D.returned) (List.Subset.refl _)
      (fun D' he _ => (hsite.mono he).deliver (he.proposed hd)) (h.holders i) (h.restoring i)
      (fun _ => .inl)
  | @serve ev s hserves hev =>
    have hne (index : Int) (env : Command) : ev ≠ .submit index env := by
      rintro rfl
      exact hserves
    refine h.set (t := { D.site i with service := s }) (Service.step_executed hev)
      (fun D' he hx => hsite.step hev hin he hx)
      (fun index ch hw => h.holders i index ch (Service.step_waitCh hev hne hw))
      (h.restoring i) (fun a ha => ?_)
    rcases List.mem_append.1 ha with ha | ha
    · exact .inl ha
    · exact .inr (h.answers hev hne ha)
  | @makeSnapshot order hr ho =>
    have he : Extends D { D with
        snapshots := D.snapshots ++ [(D.site i).service.server.makeSnapshot order] } :=
      ⟨List.Subset.refl _, List.subset_append_left _ _, fun _ => List.Subset.refl _⟩
    refine h.move (i := i) he h.distinct (fun _ _ => rfl) (hsite.mono he) (h.holders i)
      (fun snap hsnap => he.snapshots (h.restoring i snap hsnap)) (fun snap hsnap => ?_)
      (fun _ => .inl)
    rcases List.mem_append.1 hsnap with hsnap | hsnap
    · exact .inl hsnap
    · obtain rfl := List.mem_singleton.1 hsnap
      exact .inr (hsite.tables.copy.mono he)
  | @install n snap hr hn =>
    have hclear : (D.site i).service.step .clearWaitCh =
        some ((D.site i).service.answering (D.site i).service.server.clearWaitCh) :=
      Service.withLock_eq_some.2 ⟨hr.2.2, rfl⟩
    refine h.set (t := (D.site i).install snap) (q := D.returned) (List.Subset.refl _)
      (fun D' he hx => hsite.step hclear rfl he hx) (fun _ _ hw => nomatch hw)
      (fun snap' hsnap => ?_) (fun _ => .inl)
    cases hsnap
    exact List.mem_of_getElem? hn
  | @restore snap hu hr =>
    have hb := h.snapshots snap (h.restoring i snap hr)
    exact h.set (t := (D.site i).restore snap) (q := D.returned) (List.Subset.refl _)
      (fun D' he _ => (hsite.mono he).replace (hb.mono he)) (fun _ _ hw => nomatch hw)
      (fun _ hsnap => nomatch hsnap) (fun _ => .inl)

theorem Traced.reachable {stores : ι → KVStore}
    (h : Consensus.ReachableBy Deployment.step (fun D a => D.InScope a ∧ D.Undisturbed a)
      (fresh stores) D) : D.Traced := by
  induction h with
  | init =>
    have hnone (i : ι) : Traces (fresh stores) ((fresh stores).site i).service :=
      ⟨fun _ hd => absurd hd List.not_mem_nil, (fun _ hd => nomatch hd),
        (fun _ _ hd => nomatch hd), fun _ he => absurd he List.not_mem_nil,
        (fun _ _ hr => nomatch hr), (fun _ _ hq => nomatch hq)⟩
    exact ⟨⟨fun _ ha => absurd ha List.not_mem_nil, fun _ ha => absurd ha List.not_mem_nil⟩, hnone,
      (fun _ _ _ hw => nomatch hw), (fun _ _ hr => nomatch hr),
      fun _ hs => absurd hs List.not_mem_nil, fun _ ha => absurd ha List.not_mem_nil⟩
  | @step D a D' _ hok hs ih =>
    obtain ⟨i, ev⟩ := a
    exact ih.step hok.1 hok.2 hs

end

end Deployment

/-- A `submit` call that returns without an error has the result of a command that a server has
executed and that has the call's client, number and kind, if clients do not use a number for two
kinds of commands and no call finds the result of another command at its index. -/
theorem submit_own_result [DecidableEq ι] {stores : ι → KVStore} {D : Deployment ι}
    (h : Consensus.ReachableBy Deployment.step (fun D a => D.InScope a ∧ D.Undisturbed a)
      (.fresh stores) D) {sub : Submission} {r : Result} (hr : (sub, r) ∈ D.returned)
    (herr : r.err = none) :
    r.Of sub.env ∧ ∃ env, D.Executed env r ∧ env.SameCall sub.env :=
  (Deployment.Traced.reachable h).returned _ hr herr

def putOf (clientID : Int) : Submission :=
  ⟨0, { kind := .kv, kv := some ⟨.put, [1], [2], clientID, 1, 0⟩ }⟩

def txnOf (clientID : Int) : Submission :=
  ⟨0, { kind := .txn, txn := some ⟨[], [], [], clientID, 1⟩ }⟩

/-- A call gets its result although its command is applied before it registers, and another gets
it from the tables when its command is committed a second time. -/
theorem submit_own_result_late :
    ∃ (D : Deployment Nat) (r : Result),
      Consensus.ReachableBy Deployment.step (fun D a => D.InScope a ∧ D.Undisturbed a)
        (.fresh fun _ => .new) D ∧
      D.returned = [(putOf 1, r), (putOf 1, r)] ∧ r.err = none ∧ r.Of (putOf 1).env := by
  have h : Consensus.RunsTo Deployment.step (fun D a => D.InScope a ∧ D.Undisturbed a)
      (fun D : Deployment Nat => ∃ r ∈ D.returned.map Prod.snd,
        D.returned = [(putOf 1, r), (putOf 1, r)] ∧ r.err = none) (.fresh fun _ => .new)
      ([(0, .start 1 (putOf 1))] ++ applying 1 (putOf 1) ++ [(0, .register 1 (putOf 1)),
        (0, .start 2 (putOf 1)), (0, .register 2 (putOf 1)),
        (0, .deliver ⟨2, (putOf 1).env, ⟨0, []⟩⟩), (0, .serve .loop)]) := by
    decide +kernel
  obtain ⟨D, hD, r, -, hret, herr⟩ := h.reachable
  have hr : (putOf 1, r) ∈ D.returned := hret ▸ List.mem_cons_self
  exact ⟨D, r, hD, hret, herr, (submit_own_result hD hr herr).1⟩

/-- A call of client 1 gets the result of a command of client 2, which another leader put at the
index before the call registered; and a transaction gets the result of a put with its number. -/
theorem submit_own_result_fails :
    (∃ (D : Deployment Nat) (r : Result),
      Consensus.ReachableBy Deployment.step Deployment.InScope (.fresh fun _ => .new) D ∧
      (putOf 1, r) ∈ D.returned ∧ r.err = none ∧ r.Of (putOf 2).env ∧ ¬ r.Of (putOf 1).env) ∧
    ∃ (D : Deployment Nat) (r : Result),
      Consensus.ReachableBy Deployment.step Deployment.InScope (.fresh fun _ => .new) D ∧
      (txnOf 1, r) ∈ D.returned ∧ r.err = none ∧ r.Of (putOf 1).env ∧ ¬ r.Of (txnOf 1).env := by
  have h₁ : Consensus.RunsTo Deployment.step Deployment.InScope
      (fun D : Deployment Nat => ∃ a ∈ D.returned, a.1 = putOf 1 ∧ a.2.err = none ∧
        a.2.Of (putOf 2).env ∧ ¬ a.2.Of (putOf 1).env) (.fresh fun _ => .new)
      ([(0, .start 1 (putOf 1)), (1, .start 1 (putOf 2))] ++ applying 1 (putOf 2) ++
        [(0, .register 1 (putOf 1))]) := by
    decide +kernel
  have h₂ : Consensus.RunsTo Deployment.step Deployment.InScope
      (fun D : Deployment Nat => ∃ a ∈ D.returned, a.1 = txnOf 1 ∧ a.2.err = none ∧
        a.2.Of (putOf 1).env ∧ ¬ a.2.Of (txnOf 1).env) (.fresh fun _ => .new)
      ([(0, .start 1 (putOf 1))] ++ applying 1 (putOf 1) ++ [(0, .start 2 (txnOf 1)),
        (0, .register 2 (txnOf 1)), (0, .deliver ⟨2, (txnOf 1).env, ⟨0, []⟩⟩),
        (0, .serve .loop)]) := by
    decide +kernel
  obtain ⟨D₁, hD₁, ⟨sub, r⟩, hm₁, rfl, hr₁⟩ := h₁.reachable
  obtain ⟨D₂, hD₂, ⟨sub, r'⟩, hm₂, rfl, hr₂⟩ := h₂.reachable
  exact ⟨⟨D₁, r, hD₁, hm₁, hr₁⟩, ⟨D₂, r', hD₂, hm₂, hr₂⟩⟩

end LinKV

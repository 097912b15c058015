import LinKV.Mvcc.Revocation
import LinKV.Server.Install

namespace LinKV
set_option autoImplicit true

def internalLeaseRevokeClientID (leaseID : Int) : Int := -leaseID - 1

/-- The command `leaseReaperLoop` submits for an expired lease. -/
def reaperCommand (leaseID : Int) : Command where
  kind := .leaseRevoke
  leaseRevoke := some ⟨leaseID, internalLeaseRevokeClientID leaseID, 1⟩

namespace KVStore

/-- `ExpiredLeaseIDs`; the loop over the map meets the leases in the given order. -/
def expiredLeaseIDs (s : KVStore) (now : Int) (limit : Nat) (order : List Int) : List Int :=
  let ids := order.filter fun id => (s.leases.lookup id).any fun lease => lease.expireAt < now
  if limit = 0 then ids else ids.take limit

/-- The lease has been granted and exists no more. -/
def Gone (leaseID : Int) (s : KVStore) : Prop := leaseID ≤ s.nextLeaseID ∧ leaseID ∉ s.leases

section

variable {s s' : KVStore} {leaseID : Int}

theorem mem_leases_of_expired (h : leaseID ∈ s.expiredLeaseIDs now limit order) :
    leaseID ∈ s.leases := by
  have hin : leaseID ∈ order.filter fun id =>
      (s.leases.lookup id).any fun lease => lease.expireAt < now := by
    unfold expiredLeaseIDs at h
    dsimp only at h
    split at h
    · exact h
    · exact List.mem_of_mem_take h
  obtain ⟨-, hany⟩ := List.mem_filter.1 hin
  obtain ⟨lease, hl, -⟩ := (Option.any_eq_true _ _).1 hany
  exact Finmap.mem_of_lookup_eq_some hl

theorem Change.nextLeaseID (h : Change P s s') : s.nextLeaseID ≤ s'.nextLeaseID := by
  cases h with
  | edit hedit => cases hedit <;> exact Int.le_refl _
  | grant => exact Int.le_of_lt (Int.lt_add_one_of_le (Int.le_refl _))
  | send | renew | revoke => exact Int.le_refl _
  | compact rev =>
    rw [KVStore.compact]
    split <;> exact Int.le_refl _

/-- A lease that is gone does not come back: leases are numbered upwards. -/
theorem Gone.change (hc : Change P s s') (h : Gone leaseID s) : Gone leaseID s' := by
  refine ⟨Int.le_trans h.1 hc.nextLeaseID, ?_⟩
  cases hc with
  | edit hedit =>
    rw [hedit.mem_leases]
    exact h.2
  | send => exact h.2
  | grant now ttl =>
    have hne : leaseID ≠ s.nextLeaseID + 1 := Int.ne_of_lt (Int.lt_add_one_of_le h.1)
    exact fun hin => (Finmap.mem_insert.1 hin).elim hne h.2
  | @renew id lease t hl =>
    refine fun hin => (Finmap.mem_insert.1 hin).elim (fun he => ?_) h.2
    exact h.2 (he ▸ Finmap.mem_of_lookup_eq_some hl)
  | revoke id => exact fun hin => h.2 (Finmap.mem_erase.1 hin).2
  | compact rev =>
    rw [KVStore.compact]
    split <;> exact h.2

theorem applyCommand_keeps {I : KVStore → Prop}
    (hI : ∀ {s s' : KVStore}, Change (fun _ => True) s s' → I s → I s') (hf : s.Fits d) (h : I s) :
    I (s.applyCommand d.ambient d.env).1 := by
  rcases applyCommand_op hf with he | ⟨op, hop, -⟩
  · rwa [he]
  · exact (apply_changes op.keysIn_all hop).keeps hI h

theorem applyCommand_reaper (s : KVStore) (e : Ambient) (leaseID : Int) :
    (s.applyCommand e (reaperCommand leaseID)).1 = (s.leaseRevoke leaseID e.keys).1 :=
  applyLeaseRevoke_fst

/-- The reaper's command leaves no lease behind. -/
theorem gone_of_reaper (h : leaseID ≤ s.nextLeaseID) :
    (s.applyCommand e (reaperCommand leaseID)).1.Gone leaseID := by
  rw [applyCommand_reaper]
  cases hl : s.leases.lookup leaseID with
  | none =>
    rw [leaseRevoke, hl]
    exact ⟨h, Finmap.lookup_eq_none.1 hl⟩
  | some lease =>
    rw [leaseRevoke_some hl]
    have hdrop : Gone leaseID (s.dropLease leaseID) := ⟨h, Finmap.notMem_erase_self⟩
    have hchanges : Changes (fun _ => True) (s.dropLease leaseID)
        ((s.dropLease leaseID).deleteAll e.keys).1 := (deleteAll_edits e.keys).changes
    have hgone := hchanges.keeps Gone.change hdrop
    exact hgone

end

end KVStore

namespace Service

/-- A request under the client ID of the reaper for the lease has no number from 1 on, or is the
reaper's command, applied once the lease has been granted. -/
def Reserves (leaseID : Int) (s : Service) : ServerEvent → Prop
  | .get req => req.clientID = internalLeaseRevokeClientID leaseID → req.seq ≤ 0
  | .rangeRev req => req.clientID = internalLeaseRevokeClientID leaseID → req.seq ≤ 0
  | .loop => s.loop = .idle → ∀ d ∈ s.applyCh.head?,
      d.env.clientID = internalLeaseRevokeClientID leaseID → d.env.seq ≤ 0 ∨
        d.env = reaperCommand leaseID ∧ leaseID ≤ s.server.store.nextLeaseID
  | _ => True

def Fitting (s : Service) (ev : ServerEvent) : Prop := ev = .loop → s.loop.Fits s.server.store

instance decidableReserves (leaseID : Int) (s : Service) :
    (ev : ServerEvent) → Decidable (s.Reserves leaseID ev)
  | .get req => inferInstanceAs (Decidable (req.clientID = _ → req.seq ≤ 0))
  | .rangeRev req => inferInstanceAs (Decidable (req.clientID = _ → req.seq ≤ 0))
  | .loop => inferInstanceAs (Decidable (s.loop = .idle → ∀ d ∈ s.applyCh.head?, _ → _ ∨ _))
  | .submit _ _ | .giveUp _ | .clearWaitCh | .range => instDecidableTrue

instance decidableFitting (s : Service) (ev : ServerEvent) : Decidable (s.Fitting ev) :=
  inferInstanceAs (Decidable (_ → _))

/-- Once anything is recorded under the client ID of the reaper for the lease, the lease is
gone. -/
structure Reaps (leaseID : Int) (s : Service) : Prop where
  store : s.server.store.Reachable
  nonneg : 0 ≤ s.server.lastSeq (internalLeaseRevokeClientID leaseID)
  recorded : s.server.lastSeq (internalLeaseRevokeClientID leaseID) ≠ 0 →
    s.server.store.Gone leaseID
  checked : ∀ d, s.loop = .checked d → d.env.clientID = internalLeaseRevokeClientID leaseID →
    d.env = reaperCommand leaseID ∧ leaseID ≤ s.server.store.nextLeaseID
  executed : ∀ d r, s.loop = .executed d r →
    d.env.clientID = internalLeaseRevokeClientID leaseID →
    0 ≤ d.env.seq ∧ s.server.store.Gone leaseID
  reading : ∀ req readRev, s.reading = some (req, readRev) →
    req.clientID ≠ internalLeaseRevokeClientID leaseID

section

variable {s s' : Service} {leaseID : Int}

theorem Reaps.ne_of_lt (h : s.Reaps leaseID) (hlt : s.server.lastSeq k < seq)
    (hok : k = internalLeaseRevokeClientID leaseID → seq ≤ 0) :
    k ≠ internalLeaseRevokeClientID leaseID := by
  rintro rfl
  have hnonneg := h.nonneg
  have hle := hok rfl
  omega

theorem Reaps.frame (h : s.Reaps leaseID) (hstore : s'.server.store = s.server.store)
    (hseq : s'.server.lastSeq (internalLeaseRevokeClientID leaseID) =
      s.server.lastSeq (internalLeaseRevokeClientID leaseID))
    (hc : ∀ d, s'.loop = .checked d → d.env.clientID = internalLeaseRevokeClientID leaseID →
      d.env = reaperCommand leaseID ∧ leaseID ≤ s.server.store.nextLeaseID)
    (hx : ∀ d r, s'.loop = .executed d r → s.loop = .executed d r)
    (hr : ∀ req readRev, s'.reading = some (req, readRev) →
      req.clientID ≠ internalLeaseRevokeClientID leaseID) : s'.Reaps leaseID where
  store := hstore ▸ h.store
  nonneg := hseq ▸ h.nonneg
  recorded := hstore ▸ hseq ▸ h.recorded
  checked := hstore ▸ hc
  executed d r hd := hstore ▸ h.executed d r (hx d r hd)
  reading := hr

theorem Reaps.check (h : s.Reaps leaseID) (hl : s.loop = .idle) (hd : s.applyCh = d :: rest)
    (hok : s.Reserves leaseID .loop) : ({ s with applyCh := rest }.check d).Reaps leaseID := by
  have hidle (d' : Delivery) (hd' : s.loop = .checked d') : False := by
    cases hl.symm.trans hd'
  rcases check_cases { s with applyCh := rest } d with he | ⟨r, -, he⟩ | ⟨hlt, he⟩
  · rw [he]
    exact h.frame rfl rfl (fun d' hd' => (hidle d' hd').elim) (fun _ _ hd' => hd') h.reading
  · rw [he]
    exact h.frame Server.notify_store (congrFun Server.notify_tables.lastSeq _)
      (fun d' hd' => (hidle d' hd').elim) (fun _ _ hd' => hd') h.reading
  · rw [he]
    refine h.frame rfl rfl (fun d' hd' hk => ?_) (fun _ _ hd' => ?_) h.reading
    · cases hd'
      have hhead : d ∈ s.applyCh.head? := by
        rw [hd]
        rfl
      refine (hok hl d hhead hk).resolve_left fun hle => ?_
      exact h.ne_of_lt hlt (fun _ => hle) hk
    · cases hd'

theorem Reaps.execute (h : s.Reaps leaseID) (hl : s.loop = .checked d)
    (hf : s.server.store.Fits d) : (s.execute d).Reaps leaseID where
  store := h.store.applyCommand hf
  nonneg := h.nonneg
  recorded hne := KVStore.applyCommand_keeps KVStore.Gone.change hf (h.recorded hne)
  checked d' hd' := by cases hd'
  executed d' r hd' hk := by
    cases hd'
    obtain ⟨henv, hle⟩ := h.checked d hl hk
    have hgone := KVStore.gone_of_reaper (e := d.ambient) hle
    rw [← henv] at hgone
    have hseq : d.env.seq = 1 := congrArg Command.seq henv
    exact ⟨hseq ▸ (by decide), hgone⟩
  reading := h.reading

theorem Reaps.remember (h : s.Reaps leaseID) (hstore : s'.server.store = s.server.store)
    (ht : s'.server.SameTables (s.server.remember k seq r))
    (hk : k = internalLeaseRevokeClientID leaseID → 0 ≤ seq ∧ s.server.store.Gone leaseID)
    (hc : ∀ d, s'.loop = .checked d → s.loop = .checked d)
    (hx : ∀ d r, s'.loop = .executed d r → s.loop = .executed d r) (hr : s'.reading = none) :
    s'.Reaps leaseID := by
  have hseq := congrFun ht.lastSeq (internalLeaseRevokeClientID leaseID)
  rw [Server.lastSeq_remember] at hseq
  have hread : ∀ req readRev, s'.reading = some (req, readRev) →
      req.clientID ≠ internalLeaseRevokeClientID leaseID := by
    intro req readRev hreq
    cases hr.symm.trans hreq
  by_cases hid : internalLeaseRevokeClientID leaseID = k
  · obtain ⟨hpos, hgone⟩ := hk hid.symm
    rw [if_pos hid] at hseq
    exact ⟨hstore ▸ h.store, hseq ▸ hpos, fun _ => hstore ▸ hgone,
      fun d hd => hstore ▸ h.checked d (hc d hd), fun d r hd => hstore ▸ h.executed d r (hx d r hd),
      hread⟩
  · rw [if_neg hid] at hseq
    exact h.frame hstore hseq (fun d hd => h.checked d (hc d hd)) hx hread

theorem Reaps.step (h : s.Reaps leaseID) (hok : s.Reserves leaseID ev) (hf : s.Fitting ev)
    (hs : s.step ev = some s') : s'.Reaps leaseID := by
  have hstore (hl : ev = .loop → ∀ d, s.loop ≠ .checked d) :
      s'.server.store = s.server.store := by
    rcases step_store hs with he | ⟨d, he, hd, -⟩
    · exact he
    · exact absurd hd (hl he d)
  by_cases hev : ev = .loop
  · subst hev
    cases advance_eq_some.1 hs with
    | check hl hu hd => exact h.check hl hd hok
    | @execute d hl =>
      have hfits := hf rfl
      rw [hl] at hfits
      exact h.execute hl hfits
    | @record d r hl hu =>
      refine h.remember (hstore fun _ d' hd' => ?_) Server.record_tables (h.executed d r hl)
        (fun d' hd' => ?_) (fun d' r' hd' => ?_) hu
      · cases hl.symm.trans hd'
      · cases hd'
      · cases hd'
  · have hsame : s'.server.store = s.server.store := hstore fun he => absurd he hev
    cases step_effect hs with
    | quiet ht _ hl hr =>
      exact h.frame hsame (congrFun ht.lastSeq _) (hl ▸ h.checked) (fun d r hd => hl ▸ hd)
        (hr ▸ h.reading)
    | check | execute | record => exact absurd rfl hev
    | get hlt ht _ hl hr =>
      exact h.remember hsame ht (fun hk => absurd hk (h.ne_of_lt hlt hok)) (fun d hd => hl ▸ hd)
        (fun d r hd => hl ▸ hd) hr
    | lock hlt hread ht _ hl =>
      refine h.frame hsame (congrFun ht.lastSeq _) (hl ▸ h.checked) (fun d r hd => hl ▸ hd)
        fun req readRev hreq => ?_
      cases hread.symm.trans hreq
      exact h.ne_of_lt hlt hok
    | range hread ht _ hl hr =>
      exact h.remember hsame ht (fun hk => absurd hk (h.reading _ _ hread))
        (fun d hd => hl ▸ hd) (fun d r hd => hl ▸ hd) hr

theorem Reaps.run (h : s.Reaps leaseID) (hr : Consensus.ReachableBy Service.step
    (fun s ev => s.Reserves leaseID ev ∧ s.Fitting ev) s s') : s'.Reaps leaseID := by
  induction hr with
  | init => exact h
  | step _ hok hs ih => exact ih.step hok.1 hok.2 hs

theorem run_aside (hr : Consensus.ReachableBy Service.step (fun _ ev => ev ≠ .loop) s s') :
    s'.loop = s.loop ∧ s'.server.store = s.server.store := by
  induction hr with
  | init => exact ⟨rfl, rfl⟩
  | @step s₁ ev s₂ _ hev hs ih =>
    have hstore : s₂.server.store = s₁.server.store := by
      rcases step_store hs with he | ⟨_, he, -⟩
      · exact he
      · exact absurd he hev
    have hloop : s₂.loop = s₁.loop := by
      cases step_effect hs with
      | quiet _ _ hl => exact hl
      | check | execute | record => exact absurd rfl hev
      | get _ _ _ hl | lock _ _ _ _ hl | range _ _ _ hl => exact hl
    exact ⟨hloop.trans ih.1, hstore.trans ih.2⟩

theorem run_granted (hr : Consensus.ReachableBy Service.step
      (fun s ev => s.Reserves leaseID ev ∧ s.Fitting ev) s s')
    (h : leaseID ≤ s.server.store.nextLeaseID) : leaseID ≤ s'.server.store.nextLeaseID := by
  induction hr with
  | init => exact h
  | step _ hok hs ih =>
    rcases step_store hs with he | ⟨d, rfl, hl, he⟩
    · rw [he]
      exact ih
    · have hfits := hok.2 rfl
      rw [hl] at hfits
      rw [he]
      exact KVStore.applyCommand_keeps (I := fun t => leaseID ≤ t.nextLeaseID)
        (fun hc hle => Int.le_trans hle hc.nextLeaseID) hfits ih

theorem Reaps.check_reaper (h : s.Reaps leaseID) (hl : s.loop = .idle)
    (hd : s.applyCh = d :: rest) (henv : d.env = reaperCommand leaseID)
    (hin : leaseID ∈ s.server.store.leases) (hs : s.step .loop = some s') :
    s'.loop = .checked d ∧ s'.server.store = s.server.store := by
  have hzero : s.server.lastSeq (internalLeaseRevokeClientID leaseID) = 0 := by
    by_contra hne
    exact (h.recorded hne).2 hin
  have hfresh : s.server.dedup d.env.clientID d.env.seq = .fresh := by
    have hk : d.env.clientID = internalLeaseRevokeClientID leaseID :=
      congrArg Command.clientID henv
    have hseq : d.env.seq = 1 := congrArg Command.seq henv
    rw [Server.dedup, hk, hseq, hzero]
    rfl
  cases advance_eq_some.1 hs with
  | @check d' _ _ _ hd' =>
    cases hd.symm.trans hd'
    rw [Service.check, hfresh]
    exact ⟨rfl, rfl⟩
  | execute hl' => cases hl.symm.trans hl'
  | record hl' => cases hl.symm.trans hl'

end

end Service

/-- If no client request carries the client ID of the reaper for the lease and a number from 1 on,
and the reaper's commands for it come once it has been granted, then `applyLoop` executes such a
command whenever it meets it while the lease exists: the lease is removed and its keys are deleted.
The leases that the reaper finds expired at a server have been granted there. -/
theorem reaper_executes {store : KVStore} (hstore : store.Reachable) {commands : List Delivery}
    {leaseID : Int} {s : Service}
    (h : Consensus.ReachableBy Service.step (fun s ev => s.Reserves leaseID ev ∧ s.Fitting ev)
      { server := .new store, applyCh := commands } s) :
    (∀ d rest s₁, s.loop = .idle → s.applyCh = d :: rest → d.env = reaperCommand leaseID →
      leaseID ∈ s.server.store.leases → s.step .loop = some s₁ →
      s₁.loop = .checked d ∧
      ∀ s₂, Consensus.ReachableBy Service.step (fun _ ev => ev ≠ .loop) s₁ s₂ →
        s₂.step .loop = some (s₂.execute d) ∧
        (Enumerates d.ambient.keys (s.server.store.leaseKeys leaseID) →
          KVStore.Revoked leaseID d.ambient.keys s.server.store (s₂.execute d).server.store)) ∧
    ∀ now limit order, leaseID ∈ s.server.store.expiredLeaseIDs now limit order →
      ∀ s', Consensus.ReachableBy Service.step
        (fun s ev => s.Reserves leaseID ev ∧ s.Fitting ev) s s' →
      leaseID ≤ s'.server.store.nextLeaseID := by
  have hinit : Service.Reaps leaseID { server := .new store, applyCh := commands } := by
    refine ⟨hstore, Int.le_refl 0, fun hne => absurd rfl hne, ?_, ?_, ?_⟩
    · exact fun _ hd => by cases hd
    · exact fun _ _ hd => by cases hd
    · exact fun _ _ hd => by cases hd
  have hreaps := hinit.run h
  refine ⟨fun d rest s₁ hl hd henv hin hs => ?_, fun now limit order hexp s' hr => ?_⟩
  · obtain ⟨hl₁, hstore₁⟩ := hreaps.check_reaper hl hd henv hin hs
    refine ⟨hl₁, fun s₂ hr => ?_⟩
    obtain ⟨hl₂, hstore₂⟩ := Service.run_aside hr
    refine ⟨Service.advance_eq_some.2 (.execute (hl₂.trans hl₁)), fun hkeys => ?_⟩
    obtain ⟨lease, hlease⟩ := Finmap.mem_iff.1 hin
    have hrevoked := hreaps.store.revoked hkeys hlease
    have hexec : (s₂.execute d).server.store =
        (s.server.store.leaseRevoke leaseID d.ambient.keys).1 := by
      rw [← KVStore.applyCommand_reaper, ← henv, ← hstore₁, ← hstore₂]
      rfl
    rwa [← hexec] at hrevoked
  · obtain ⟨w, hb⟩ := hreaps.store.allBound
    exact Service.run_granted hr (hb.issued leaseID (KVStore.mem_leases_of_expired hexp)).2

/-- A lease is granted, the client puts a key under it, and the reaper revokes it. -/
def reapedLease (clientID : Int) : List Delivery :=
  [⟨1, { kind := .leaseGrant, leaseGrant := some ⟨60, 7, 1⟩ }, ⟨0, []⟩⟩,
    ⟨2, { kind := .kv, kv := some ⟨.put, [1], [2], clientID, 2, 1⟩ }, ⟨0, []⟩⟩,
    ⟨3, reaperCommand 1, ⟨0, [[1]]⟩⟩]

/-- The client has an ID of its own. -/
theorem reaper_executes_own : ∃ (s s₁ : Service) (d : Delivery),
    Consensus.ReachableBy Service.step (fun s ev => s.Reserves 1 ev ∧ s.Fitting ev)
      { server := .new .new, applyCh := reapedLease 7 } s ∧
    s.applyCh = [d] ∧ d.env = reaperCommand 1 ∧ 1 ∈ s.server.store.leases ∧
    s.step .loop = some s₁ ∧ s₁.loop = .checked d ∧
    KVStore.Revoked 1 [[1]] s.server.store (s₁.execute d).server.store := by
  have hrun : Consensus.RunsTo Service.step (fun s ev => s.Reserves 1 ev ∧ s.Fitting ev)
      (fun s => s.loop = .idle ∧ s.applyCh = [⟨3, reaperCommand 1, ⟨0, [[1]]⟩⟩] ∧
        1 ∈ s.server.store.leases ∧ Enumerates [[1]] (s.server.store.leaseKeys 1) ∧
        (s.step .loop).isSome)
      { server := .new .new, applyCh := reapedLease 7 } (List.replicate 6 .loop) := by
    decide +kernel
  obtain ⟨s, hs, hl, hd, hin, hk, hstep⟩ := hrun.reachable
  obtain ⟨s₁, hs₁⟩ := Option.isSome_iff_exists.1 hstep
  obtain ⟨hl₁, hrest⟩ := (reaper_executes .new hs).1 _ _ s₁ hl hd rfl hin hs₁
  exact ⟨s, s₁, _, hs, hd, rfl, hin, hs₁, hl₁, (hrest s₁ .init).2 hk⟩

/-- The client has the ID of the reaper for lease 1: the reaper's command is skipped, and lease and
key stay. -/
theorem reaper_executes_fails : ∃ s s₁ : Service,
    Consensus.ReachableBy Service.step (fun _ _ => True)
      { server := .new .new, applyCh := reapedLease (internalLeaseRevokeClientID 1) } s ∧
    s.loop = .idle ∧ s.applyCh = [⟨3, reaperCommand 1, ⟨0, [[1]]⟩⟩] ∧
    1 ∈ s.server.store.leases ∧ s.step .loop = some s₁ ∧ s₁.Done ∧
    1 ∈ s₁.server.store.leases ∧ s₁.server.store.value [1] 0 = some [2] := by
  have hrun : Consensus.RunsTo Service.step (fun _ _ => True)
      (fun s => s.loop = .idle ∧ s.applyCh = [⟨3, reaperCommand 1, ⟨0, [[1]]⟩⟩] ∧
        1 ∈ s.server.store.leases ∧ (s.step .loop).elim False fun s₁ =>
          s₁.Done ∧ 1 ∈ s₁.server.store.leases ∧ s₁.server.store.value [1] 0 = some [2])
      { server := .new .new, applyCh := reapedLease (internalLeaseRevokeClientID 1) }
      (List.replicate 6 .loop) := by
    decide +kernel
  obtain ⟨s, hs, hl, hd, hin, hstep⟩ := hrun.reachable
  obtain ⟨s₁, hs₁, hdone, hin₁, hv⟩ := Consensus.exists_of_elim hstep
  exact ⟨s, s₁, hs, hl, hd, hin, hs₁, hdone, hin₁, hv⟩

end LinKV

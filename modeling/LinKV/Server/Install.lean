import LinKV.Mvcc.Reachable
import LinKV.Server.Deployment

namespace LinKV
set_option autoImplicit true

/-- A revocation meets the keys of its lease in some order. -/
def KVStore.Fits (s : KVStore) (d : Delivery) : Prop :=
  d.env.kind = .leaseRevoke → ∀ cmd ∈ d.env.leaseRevoke,
    Enumerates d.ambient.keys (s.leaseKeys cmd.id)

instance (s : KVStore) (d : Delivery) : Decidable (s.Fits d) :=
  inferInstanceAs (Decidable (_ → ∀ cmd ∈ d.env.leaseRevoke, _))

def LoopState.Fits (l : LoopState) (store : KVStore) : Prop :=
  match l with
  | .checked d => store.Fits d
  | _ => True

instance (store : KVStore) : (l : LoopState) → Decidable (l.Fits store)
  | .checked d => inferInstanceAs (Decidable (store.Fits d))
  | .idle | .executed _ _ => instDecidableTrue

namespace KVStore

variable {s : KVStore}

theorem applyCommand_op (hf : s.Fits d) : (s.applyCommand d.ambient d.env).1 = s ∨
    ∃ op, s.apply op = some (s.applyCommand d.ambient d.env).1 ∧ ∀ rev, op ≠ .compact rev := by
  have hbody {α : Type} {name : String} {body : Option α} {f : KVStore → α → KVStore × Result}
      (hb : ∀ cmd, body = some cmd →
        (f s cmd).1 = s ∨ ∃ op, s.apply op = some (f s cmd).1 ∧ ∀ rev, op ≠ .compact rev) :
      (s.applyBody name body f).1 = s ∨
        ∃ op, s.apply op = some (s.applyBody name body f).1 ∧ ∀ rev, op ≠ .compact rev := by
    cases body with
    | none => exact .inl rfl
    | some cmd => exact hb cmd rfl
  unfold KVStore.applyCommand
  cases hk : d.env.kind with
  | kv =>
    refine hbody fun cmd _ => ?_
    cases ht : cmd.type with
    | put =>
      rw [applyKV_put_fst ht]
      exact .inr ⟨.put d.ambient.now cmd.key cmd.value cmd.leaseID, rfl, nofun⟩
    | delete =>
      unfold KVStore.applyKV
      rw [ht]
      exact .inr ⟨.delete cmd.key, rfl, nofun⟩
    | get | other =>
      unfold KVStore.applyKV
      rw [ht]
      exact .inl rfl
  | txn =>
    refine hbody fun cmd _ => ?_
    rw [applyTxn_fst]
    exact .inr ⟨.txn d.ambient.now (toMVCCTxn cmd), rfl, nofun⟩
  | leaseGrant =>
    exact hbody fun cmd _ => .inr ⟨.leaseGrant d.ambient.now cmd.ttl, rfl, nofun⟩
  | leaseRevoke =>
    refine hbody fun cmd hc => ?_
    rw [applyLeaseRevoke_fst]
    exact .inr ⟨.leaseRevoke cmd.id d.ambient.keys, if_pos (hf hk cmd hc), nofun⟩
  | leaseKeepAlive =>
    refine hbody fun cmd _ => ?_
    rw [applyLeaseKeepAlive_fst]
    exact .inr ⟨.leaseKeepAlive d.ambient.now cmd.id, rfl, nofun⟩
  | other kind => exact .inl rfl

theorem Reachable.applyCommand (hs : s.Reachable) (hf : s.Fits d) :
    (s.applyCommand d.ambient d.env).1.Reachable := by
  rcases applyCommand_op hf with he | ⟨op, hop, -⟩
  · rw [he]
    exact hs
  · exact hs.op op hop

end KVStore

namespace Deployment

def Fitting (D : Deployment ι) : ι × SiteEvent → Prop
  | (i, .serve .loop) => (D.site i).service.loop.Fits (D.site i).service.server.store
  | _ => True

instance (D : Deployment ι) : (a : ι × SiteEvent) → Decidable (D.Fitting a)
  | (i, .serve .loop) =>
    inferInstanceAs (Decidable ((D.site i).service.loop.Fits (D.site i).service.server.store))
  | (_, .serve (.submit _ _)) | (_, .serve (.giveUp _)) | (_, .serve .clearWaitCh)
  | (_, .serve (.get _)) | (_, .serve (.rangeRev _)) | (_, .serve .range)
  | (_, .start _ _) | (_, .register _ _) | (_, .deliver _) | (_, .makeSnapshot _)
  | (_, .install _) | (_, .restore) => instDecidableTrue

/-- Every store, and every store a snapshot was taken of, is one that operations lead to. -/
structure Sound (D : Deployment ι) : Prop where
  stores : ∀ i, (D.site i).service.server.store.Reachable
  snapshots : ∀ snap ∈ D.snapshots, ∃ (t : KVStore) (order : List Int), t.Reachable ∧
    RangeOrder order t.leases.keys ∧ snap.kvSnapshot = t.snapshot order
  restoring : ∀ i snap, (D.site i).restoring = some snap → snap ∈ D.snapshots

theorem Sound.congr {D D' : Deployment ι} (h : D.Sound) (hsite : D'.site = D.site)
    (hsnap : D'.snapshots = D.snapshots) : D'.Sound :=
  ⟨hsite ▸ h.stores, hsnap ▸ h.snapshots, hsite ▸ hsnap ▸ h.restoring⟩

variable [DecidableEq ι] {D D' : Deployment ι} {stores : ι → KVStore}

theorem Sound.set (h : D.Sound) (hstore : t.service.server.store.Reachable)
    (hr : ∀ snap, t.restoring = some snap → snap ∈ D.snapshots) : (D.set i t).Sound where
  stores := set_site_forall (P := fun _ t => t.service.server.store.Reachable)
    (fun j _ => h.stores j) hstore
  snapshots := h.snapshots
  restoring := set_site_forall
    (P := fun _ t => ∀ snap, t.restoring = some snap → snap ∈ D.snapshots)
    (fun j _ => h.restoring j) hr

theorem Sound.step (h : D.Sound) (hok : D.Fitting (i, ev)) (hs : D.step (i, ev) = some D') :
    D'.Sound := by
  have hstore := h.stores i
  have hrest := h.restoring i
  cases step_moves hs with
  | start =>
    exact (h.set (i := i) (t := (D.site i).start _ _) hstore hrest).congr rfl rfl
  | @register index sub s hm hsub =>
    refine (h.set (i := i) (t := (D.site i).register index sub s) ?_ hrest).congr rfl rfl
    rcases Service.step_store hsub with he | ⟨d, hev, -⟩
    · exact he ▸ hstore
    · cases hev
  | deliver hd => exact h.set hstore hrest
  | @serve ev s hserves hev =>
    refine (h.set (i := i) (t := { D.site i with service := s }) ?_ hrest).congr rfl rfl
    rcases Service.step_store hev with he | ⟨d, rfl, hl, he⟩
    · exact he ▸ hstore
    · have hfits : (D.site i).service.server.store.Fits d := by
        simpa only [Fitting, hl, LoopState.Fits] using hok
      exact he ▸ hstore.applyCommand hfits
  | makeSnapshot hr ho =>
    refine ⟨h.stores, fun snap hin => ?_, fun j snap hj => ?_⟩
    · rcases List.mem_append.1 hin with hin | hin
      · exact h.snapshots snap hin
      · obtain rfl := List.mem_singleton.1 hin
        exact ⟨_, _, hstore, ho, rfl⟩
    · exact List.mem_append_left _ (h.restoring j snap hj)
  | install hr hn =>
    refine h.set hstore fun snap hsnap => ?_
    cases hsnap
    exact List.mem_of_getElem? hn
  | @restore snap hu hr =>
    refine h.set ?_ nofun
    obtain ⟨t, order, ht, ho, he⟩ := h.snapshots snap (hrest snap hr)
    have := hstore.restore ht ho
    rwa [← he] at this

theorem Sound.reachable (hstores : ∀ i, (stores i).Reachable)
    (h : Consensus.ReachableBy Deployment.step Fitting (fresh stores) D) : D.Sound := by
  induction h with
  | init => exact ⟨hstores, (fun _ hin => nomatch hin), nofun⟩
  | @step D a D' _ hok hs ih =>
    obtain ⟨i, ev⟩ := a
    exact ih.step hok hs

end Deployment

/-- The store has the contents the snapshot says. -/
structure KVStore.Shows (s : KVStore) (snap : SnapshotMessage) : Prop where
  data : s.backend.data = restoreData snap.entries
  events : s.backend.events = snap.events
  currentRev : s.backend.currentRev = snap.currentRev
  compactRev : s.backend.compactRev = snap.compactRev
  leases : s.leases = restoreLeases snap.leases
  keyLease : s.keyLease = snap.keyLease
  nextLeaseID : s.nextLeaseID = snap.nextLeaseId

/-- The dedup tables are those of the snapshot. -/
def Server.HasTables (s : Server) (snap : ServerSnapshotMessage) : Prop :=
  s.clientLastSeq = snap.clientLastSeq ∧
    s.clientLastResult = snap.clientLastResult.mapValues fromPBResult

theorem KVStore.restore_shows {snap : SnapshotMessage} (h : snap.accepted = true) (s : KVStore) :
    (s.restore snap).Shows snap := by
  rw [KVStore.restore, if_pos h]
  exact ⟨rfl, rfl, rfl, rfl, rfl, rfl, rfl⟩

theorem KVStore.restore_refused {snap : SnapshotMessage} (h : ¬ snap.accepted = true)
    (s : KVStore) : s.restore snap = s := if_neg h

/-- The snapshot of a reachable server is installed as a whole or not at all exactly when the
store that was in it is complete, or the installing server already has that store or those
tables; otherwise the store refuses its part and the tables are replaced. -/
theorem restore_all_or_nothing [DecidableEq ι] {stores : ι → KVStore} {D : Deployment ι}
    (hstores : ∀ i, (stores i).Reachable)
    (hD : Consensus.ReachableBy Deployment.step Deployment.Fitting (.fresh stores) D)
    {s : Server} (hs : s = (D.site i).service.server) (order : List Int) (t : Server)
    {snap : ServerSnapshotMessage} (hsnap : snap = s.makeSnapshot order) :
    ((t.restoreSnapshot snap).store.Shows snap.kvSnapshot ∧
        (t.restoreSnapshot snap).HasTables snap ∨
      (t.restoreSnapshot snap).store = t.store ∧ (t.restoreSnapshot snap).SameTables t) ↔
    s.store.Complete ∨ t.store.Shows snap.kvSnapshot ∨ t.HasTables snap := by
  have hreach : s.store.Reachable := hs ▸ (Deployment.Sound.reachable hstores hD).stores i
  obtain ⟨-, h, hr⟩ := hreach.represents
  have hacc : snap.kvSnapshot.accepted = true ↔ s.store.Complete := by
    rw [hsnap]
    exact accepted_iff hr order
  have hstore : (t.restoreSnapshot snap).store = t.store.restore snap.kvSnapshot := rfl
  have htables : (t.restoreSnapshot snap).HasTables snap := ⟨rfl, rfl⟩
  rw [hstore]
  by_cases hc : snap.kvSnapshot.accepted = true
  · exact iff_of_true (.inl ⟨KVStore.restore_shows hc _, htables⟩) (.inl (hacc.1 hc))
  · rw [KVStore.restore_refused hc]
    constructor
    · rintro (⟨hshows, -⟩ | ⟨-, hsame⟩)
      · exact .inr (.inl hshows)
      · exact .inr (.inr ⟨hsame.1.symm.trans htables.1, hsame.2.symm.trans htables.2⟩)
    · rintro (hcomplete | hshows | hhas)
      · exact absurd (hacc.2 hcomplete) hc
      · exact .inl ⟨hshows, htables⟩
      · exact .inr ⟨rfl, htables.1.trans hhas.1.symm, htables.2.trans hhas.2.symm⟩

/-- The snapshot of a server that has executed a put is installed as a whole by any server. -/
theorem restore_all_or_nothing_put :
    ∃ D : Deployment Nat,
      Consensus.ReachableBy Deployment.step Deployment.Fitting (.fresh fun _ => .new) D ∧
      (D.site 0).service.server.lastSeq 1 = 1 ∧
      ∀ t snap, snap = (D.site 0).service.server.makeSnapshot [] →
        ((Server.restoreSnapshot t snap).store.Shows snap.kvSnapshot ∧
          (Server.restoreSnapshot t snap).HasTables snap ∨
        (Server.restoreSnapshot t snap).store = t.store ∧
          (Server.restoreSnapshot t snap).SameTables t) := by
  let sub : Submission := ⟨0, { kind := .kv, kv := some ⟨.put, [1], [2], 1, 1, 0⟩ }⟩
  have h : Consensus.RunsTo Deployment.step Deployment.Fitting
      (fun D : Deployment Nat => (D.site 0).service.server.lastSeq 1 = 1 ∧
        (D.site 0).service.server.store.backend.currentRev = 1 ∧
        (D.site 0).service.server.store.backend.compactRev = 0) (.fresh fun _ => .new)
      ((0, .start 1 sub) :: applying 1 sub) := by
    decide +kernel
  obtain ⟨D, hD, hseq, hcur, hcomp⟩ := h.reachable
  have hc : (D.site 0).service.server.store.Complete :=
    ⟨by omega, fun r hlo hhi => absurd (hlo.trans hhi) (by omega)⟩
  exact ⟨D, hD, hseq, fun t snap hsnap =>
    (restore_all_or_nothing (fun _ => .new) hD rfl [] t hsnap).2 (.inl hc)⟩

/-- The snapshot of a server that has executed only the grant of a lease gives a fresh server the
tables, which say that the grant has been executed, and not the lease. -/
theorem restore_all_or_nothing_fails :
    ∃ (D : Deployment Nat) (snap : ServerSnapshotMessage),
      Consensus.ReachableBy Deployment.step Deployment.Fitting (.fresh fun _ => .new) D ∧
      snap = (D.site 0).service.server.makeSnapshot [1] ∧
      ((Server.new .new).restoreSnapshot snap).lastSeq 1 = 1 ∧
      ¬ (((Server.new .new).restoreSnapshot snap).store.Shows snap.kvSnapshot ∧
          ((Server.new .new).restoreSnapshot snap).HasTables snap ∨
        ((Server.new .new).restoreSnapshot snap).store = (Server.new .new).store ∧
          ((Server.new .new).restoreSnapshot snap).SameTables (.new .new)) := by
  let sub : Submission := ⟨0, { kind := .leaseGrant, leaseGrant := some ⟨60, 1, 1⟩ }⟩
  have h : Consensus.RunsTo Deployment.step Deployment.Fitting
      (fun D : Deployment Nat =>
        let snap := (D.site 0).service.server.makeSnapshot [1]
        ((Server.new .new).restoreSnapshot snap).lastSeq 1 = 1 ∧
        ((Server.new .new).restoreSnapshot snap).store.nextLeaseID ≠ snap.kvSnapshot.nextLeaseId ∧
        ((Server.new .new).restoreSnapshot snap).clientLastSeq ≠ ∅) (.fresh fun _ => .new)
      ((0, .start 1 sub) :: applying 1 sub) := by
    decide +kernel
  obtain ⟨D, hD, hseq, hlease, htables⟩ := h.reachable
  refine ⟨D, _, hD, rfl, hseq, ?_⟩
  rintro (⟨hshows, -⟩ | ⟨-, hsame⟩)
  · exact hlease hshows.nextLeaseID
  · exact htables hsame.1

end LinKV

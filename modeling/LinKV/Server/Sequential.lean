import LinKV.Mvcc.Akin
import LinKV.Mvcc.Events
import LinKV.Server.Install

namespace LinKV
set_option autoImplicit true

/-- Two stores that differ at most in what they have sent to the dispatcher. -/
structure KVStore.SameState (s t : KVStore) : Prop where
  backend : s.backend = t.backend
  keyLease : s.keyLease = t.keyLease
  leases : s.leases = t.leases
  nextLeaseID : s.nextLeaseID = t.nextLeaseID

/-- No lease has been granted. -/
structure KVStore.Unleased (s : KVStore) : Prop where
  keyLease : s.keyLease = ∅
  leases : s.leases = ∅
  nextLeaseID : s.nextLeaseID = 0

/-- A store that has neither been compacted nor granted a lease. -/
structure KVStore.Grounded (s : KVStore) : Prop extends s.Unleased where
  represents : ∃ h, Represents h s.backend
  compactRev : s.backend.compactRev = 0

namespace KVStore

section

variable {s t u : KVStore} {q r : List MvccEvent} {e e' : Ambient} {env : Command}

theorem SameState.refl (s : KVStore) : s.SameState s := ⟨rfl, rfl, rfl, rfl⟩

theorem SameState.trans (h : s.SameState t) (h' : t.SameState u) : s.SameState u :=
  ⟨h.backend.trans h'.backend, h.keyLease.trans h'.keyLease, h.leases.trans h'.leases,
    h.nextLeaseID.trans h'.nextLeaseID⟩

theorem Grounded.congr (h : t.Grounded) (hs : s.SameState t) : s.Grounded where
  keyLease := hs.keyLease.trans h.keyLease
  leases := hs.leases.trans h.leases
  nextLeaseID := hs.nextLeaseID.trans h.nextLeaseID
  represents := hs.backend ▸ h.represents
  compactRev := hs.backend ▸ h.compactRev

theorem grounded_new : KVStore.new.Grounded := ⟨⟨rfl, rfl, rfl⟩, ⟨[], represents_new⟩, rfl⟩

theorem Unleased.lookupLease (h : s.Unleased) (now leaseID : Int) :
    s.lookupLease now leaseID = .error (.notFound leaseID) := by
  rw [KVStore.lookupLease, h.leases, Finmap.lookup_empty]

theorem Unleased.checkLeases (h : s.Unleased) (now : Int) (ids : List Int) :
    (ids = [] ∧ s.checkLeases now ids = .ok ()) ∨
      ∃ leaseID, ids.head? = some leaseID ∧ s.checkLeases now ids = .error (.notFound leaseID) := by
  cases ids with
  | nil => exact .inl ⟨rfl, rfl⟩
  | cons leaseID ids =>
    rw [KVStore.checkLeases, h.lookupLease]
    exact .inr ⟨leaseID, rfl, rfl⟩

theorem Unleased.detachKey (h : s.Unleased) (key : Bytes) : s.detachKey key = s := by
  rw [KVStore.detachKey, h.keyLease, Finmap.lookup_empty]

theorem Unleased.write (h : s.Unleased) (type : EventType) (key value : Bytes) (deleted : Bool) :
    (s.write type key value deleted).1.Unleased :=
  ⟨h.keyLease, h.leases, h.nextLeaseID⟩

theorem Unleased.send (h : s.Unleased) (evs : List MvccEvent) : (s.send evs).Unleased :=
  ⟨h.keyLease, h.leases, h.nextLeaseID⟩

theorem Unleased.deleteLocked (h : s.Unleased) (key : Bytes) : (s.deleteLocked key).1.Unleased := by
  have hw : (s.write .delete key [] true).1.Unleased := h.write _ _ _ _
  rw [KVStore.deleteLocked, hw.detachKey]
  exact hw

theorem Unleased.txnOp {op : Operation} (h : s.Unleased) (hop : op.type = .put → op.leaseID = 0) :
    (s.txnOp op).1.Unleased := by
  unfold KVStore.txnOp
  cases ht : op.type with
  | get => cases s.backend.getRevisions op.key <;> exact h
  | put =>
    have hw : (s.putLocked op.key op.value).1.Unleased := h.write _ _ _ _
    dsimp only
    rw [if_neg (not_not.2 (hop ht)), hw.detachKey]
    exact hw
  | delete => exact h.deleteLocked op.key
  | other => exact h

theorem Unleased.runOps (h : s.Unleased) (hops : leaseIDs ops = []) :
    (s.runOps ops).1.Unleased := by
  induction ops generalizing s with
  | nil => exact h
  | cons op ops ih =>
    simp only [leaseIDs, List.map_eq_nil_iff, List.filter_eq_nil_iff, decide_eq_true_eq,
      not_and_not_right, List.forall_mem_cons] at hops ih
    exact ih (h.txnOp hops.1) hops.2

theorem Unleased.txn (h : s.Unleased) (now : Int) (txn : Txn) : (s.txn now txn).1.Unleased := by
  unfold KVStore.txn
  rcases h.checkLeases now (leaseIDs (s.txnOps txn)) with ⟨hids, hc⟩ | ⟨leaseID, -, hc⟩
  · rw [hc]
    exact (h.runOps hids).send _
  · rw [hc]
    exact h

theorem Unleased.put (h : s.Unleased) (now : Int) (key value : Bytes) (leaseID : Int) :
    (s.put now key value leaseID).1.Unleased := by
  unfold KVStore.put
  split
  · rw [h.lookupLease]
    exact h
  · have hw : (s.putLocked key value).1.Unleased := h.write _ _ _ _
    dsimp only
    rw [hw.detachKey]
    exact hw.send _

theorem Unleased.leaseRevoke (h : s.Unleased) (leaseID : Int) (keys : List Bytes) :
    s.leaseRevoke leaseID keys = (s, .error (.notFound leaseID)) := by
  rw [KVStore.leaseRevoke, h.leases, Finmap.lookup_empty]

theorem Unleased.leaseKeepAlive (h : s.Unleased) (now leaseID : Int) :
    s.leaseKeepAlive now leaseID = (s, .error (.notFound leaseID)) := by
  rw [KVStore.leaseKeepAlive, h.lookupLease]

theorem applyBody_fst {P : KVStore → Prop} {f : KVStore → α → KVStore × Result} (hs : P s)
    (hf : ∀ cmd, P (f s cmd).1) (name : String) (body : Option α) :
    P (s.applyBody name body f).1 := by
  cases body with
  | none => exact hs
  | some cmd => exact hf cmd

theorem Unleased.applyCommand (h : s.Unleased) (e : Ambient) (hg : env.kind ≠ .leaseGrant) :
    (s.applyCommand e env).1.Unleased := by
  unfold KVStore.applyCommand
  cases hk : env.kind with
  | kv =>
    apply applyBody_fst h
    intro cmd
    cases ht : cmd.type with
    | put =>
      rw [applyKV_put_fst ht]
      exact h.put _ _ _ _
    | delete =>
      rw [KVStore.applyKV, ht]
      exact (h.deleteLocked cmd.key).send _
    | get | other =>
      rw [KVStore.applyKV, ht]
      exact h
  | txn =>
    apply applyBody_fst h
    intro cmd
    rw [applyTxn_fst]
    exact h.txn _ _
  | leaseGrant => exact absurd hk hg
  | leaseRevoke =>
    apply applyBody_fst h
    intro cmd
    rw [applyLeaseRevoke_fst, h.leaseRevoke]
    exact h
  | leaseKeepAlive =>
    apply applyBody_fst h
    intro cmd
    rw [applyLeaseKeepAlive_fst, h.leaseKeepAlive]
    exact h
  | other kind => exact h

theorem applyBody_congr {f g : KVStore → α → KVStore × Result} (hf : ∀ cmd, f s cmd = g s cmd)
    (name : String) (body : Option α) : s.applyBody name body f = s.applyBody name body g := by
  cases body with
  | none => rfl
  | some cmd => exact hf cmd

/-- Without leases, neither the clock nor the order of a map matters. -/
theorem Unleased.ambient (h : s.Unleased) (e e' : Ambient) (hg : env.kind ≠ .leaseGrant) :
    s.applyCommand e env = s.applyCommand e' env := by
  have hput (key value : Bytes) (leaseID : Int) :
      s.put e.now key value leaseID = s.put e'.now key value leaseID := by
    simp only [KVStore.put, h.lookupLease]
  have htxn (txn : Txn) : s.txn e.now txn = s.txn e'.now txn := by
    have hc : s.checkLeases e.now (leaseIDs (s.txnOps txn)) =
        s.checkLeases e'.now (leaseIDs (s.txnOps txn)) := by
      cases leaseIDs (s.txnOps txn) with
      | nil => rfl
      | cons leaseID ids => simp only [KVStore.checkLeases, h.lookupLease]
    rw [KVStore.txn, KVStore.txn, hc]
  unfold KVStore.applyCommand
  cases hk : env.kind with
  | kv => exact applyBody_congr (fun cmd => by simp only [KVStore.applyKV, hput]) _ _
  | txn => exact applyBody_congr (fun cmd => by simp only [KVStore.applyTxn, htxn]) _ _
  | leaseGrant => exact absurd hk hg
  | leaseRevoke =>
    exact applyBody_congr (fun cmd => by simp only [KVStore.applyLeaseRevoke, h.leaseRevoke]) _ _
  | leaseKeepAlive =>
    exact applyBody_congr
      (fun cmd => by simp only [KVStore.applyLeaseKeepAlive, h.leaseKeepAlive]) _ _
  | other kind => rfl

theorem Grounded.applyCommand (h : s.Grounded) (e : Ambient) (hg : env.kind ≠ .leaseGrant) :
    (s.applyCommand e env).1.Grounded ∧
      s.backend.currentRev ≤ (s.applyCommand e env).1.backend.currentRev := by
  obtain ⟨hist, hr⟩ := h.represents
  rcases eq_or_ne env.kind .leaseRevoke with hk | hk
  · have hsame : (s.applyCommand e env).1 = s := by
      rw [KVStore.applyCommand, hk]
      refine applyBody_fst (P := fun t => t = s) rfl (fun cmd => ?_) _ _
      rw [applyLeaseRevoke_fst, h.leaseRevoke]
    rw [hsame]
    exact ⟨h, Int.le_refl _⟩
  · rcases applyCommand_op (s := s) (d := ⟨0, env, e⟩) (fun hr => absurd hr hk) with
      he | ⟨op, hop, hne⟩
    · have he' : (s.applyCommand e env).1 = s := he
      rw [he']
      exact ⟨h, Int.le_refl _⟩
    · have hr' := hr.apply hop
      refine ⟨⟨h.toUnleased.applyCommand e hg, ⟨_, hr'⟩,
        (apply_compactRev_eq hop hne).trans h.compactRev⟩, ?_⟩
      have hcur := hr'.currentRev
      rw [hr.currentRev]
      dsimp only at hcur
      rw [hcur, List.length_append]
      omega

theorem AkinOut.eq {x y : KVStore × α} (h : AkinOut q r x y) :
    ∃ s t o, x = (s, o) ∧ y = (t, o) ∧ s.Akin q r t :=
  ⟨x.1, y.1, x.2, rfl, Prod.ext rfl h.2.symm, h.1⟩

theorem Akin.applyBody {f : KVStore → α → KVStore × Result} (h : s.Akin q r t)
    (hf : ∀ cmd, AkinOut q r (f s cmd) (f t cmd)) (name : String) (body : Option α) :
    AkinOut q r (s.applyBody name body f) (t.applyBody name body f) := by
  cases body with
  | none => exact ⟨h, rfl⟩
  | some cmd => exact hf cmd

/-- Akin stores give a command the same result. -/
theorem Akin.applyCommand (h : s.Akin q r t) (e : Ambient) (env : Command) :
    AkinOut q r (s.applyCommand e env) (t.applyCommand e env) := by
  unfold KVStore.applyCommand
  cases env.kind with
  | kv =>
    refine h.applyBody (fun cmd => ?_) _ _
    unfold KVStore.applyKV
    cases cmd.type with
    | put =>
      obtain ⟨s', t', o, hs, ht, h'⟩ := (h.put e.now cmd.key cmd.value cmd.leaseID).eq
      rw [hs, ht]
      cases o <;> exact ⟨h', rfl⟩
    | delete =>
      obtain ⟨hd, hr⟩ := h.delete cmd.key
      exact ⟨hd, by simp only [hr]⟩
    | get | other => exact ⟨h, rfl⟩
  | txn =>
    refine h.applyBody (fun cmd => ?_) _ _
    obtain ⟨s', t', o, hs, ht, h'⟩ := (h.txn e.now (toMVCCTxn cmd)).eq
    rw [KVStore.applyTxn, KVStore.applyTxn, hs, ht]
    cases o <;> exact ⟨h', rfl⟩
  | leaseGrant =>
    refine h.applyBody (fun cmd => ?_) _ _
    obtain ⟨hg, hr⟩ := h.leaseGrant e.now cmd.ttl
    exact ⟨hg, by simp only [KVStore.applyLeaseGrant, hr]⟩
  | leaseRevoke =>
    refine h.applyBody (fun cmd => ?_) _ _
    obtain ⟨s', t', o, hs, ht, h'⟩ := (h.leaseRevoke cmd.id e.keys).eq
    rw [KVStore.applyLeaseRevoke, KVStore.applyLeaseRevoke, hs, ht]
    cases o <;> exact ⟨h', rfl⟩
  | leaseKeepAlive =>
    refine h.applyBody (fun cmd => ?_) _ _
    obtain ⟨s', t', o, hs, ht, h'⟩ := (h.leaseKeepAlive e.now cmd.id).eq
    rw [KVStore.applyLeaseKeepAlive, KVStore.applyLeaseKeepAlive, hs, ht]
    cases o <;> exact ⟨h', rfl⟩
  | other kind => exact ⟨h, rfl⟩

theorem SameState.applyCommand (h : s.SameState t) (ht : t.Grounded) (e e' : Ambient)
    (hg : env.kind ≠ .leaseGrant) :
    (s.applyCommand e env).1.SameState (t.applyCommand e' env).1 ∧
      (s.applyCommand e env).2 = (t.applyCommand e' env).2 := by
  have hs := ht.congr h
  obtain ⟨hist, hr⟩ := ht.represents
  have hakin : s.Akin s.eventCh t.eventCh t :=
    ⟨⟨hist, h.backend ▸ hr, hr⟩, h.keyLease, h.leases, h.nextLeaseID, [],
      (List.append_nil _).symm, (List.append_nil _).symm⟩
  obtain ⟨hout, hres⟩ := hakin.applyCommand e' env
  have hc : (s.applyCommand e' env).1.backend.compactRev =
      (t.applyCommand e' env).1.backend.compactRev := by
    rw [(hs.applyCommand e' hg).1.compactRev, (ht.applyCommand e' hg).1.compactRev]
  rw [hs.toUnleased.ambient e e' hg]
  exact ⟨⟨hout.backend hc, hout.keyLease, hout.leases, hout.nextLeaseID⟩, hres⟩

end

end KVStore

/-- What a server is for: a store, and for every client the last request that was executed with
its result, the way a snapshot keeps it. -/
structure Sequential where
  store : KVStore
  lastSeq : Int → Int
  lastResult : Int → ResultMessage

namespace Sequential

def new : Sequential := ⟨.new, fun _ => 0, fun _ => toPBResult {}⟩

def noted (v : Sequential) (env : Command) (r : Result) : Sequential :=
  { v with
    lastSeq := fun k => if k = env.clientID then env.seq else v.lastSeq k
    lastResult := fun k => if k = env.clientID then toPBResult r else v.lastResult k }

def run (v : Sequential) (e : Ambient) (env : Command) : Sequential :=
  let out := v.store.applyCommand e env
  { v with store := out.1 }.noted env
    { out.2 with kind := env.kind, clientID := env.clientID, seq := env.seq }

/-- A command is executed if it is newer than the last one of its client. -/
def apply (v : Sequential) (e : Ambient) (env : Command) : Sequential :=
  if v.lastSeq env.clientID < env.seq then v.run e env else v

/-- The commands are applied one after the other, without a clock. -/
def replay (cmds : List Command) : Sequential :=
  cmds.foldl (fun v env => v.apply ⟨0, []⟩ env) .new

/-- Two servers that differ at most in what they have sent to the dispatcher and in what they
remember of the readers. -/
structure Same (readers : Finset Int) (v w : Sequential) : Prop where
  store : v.store.SameState w.store
  lastSeq : ∀ k ∉ readers, v.lastSeq k = w.lastSeq k
  lastResult : ∀ k ∉ readers, v.lastResult k = w.lastResult k

section

variable {readers : Finset Int} {v w x : Sequential} {env : Command} {e e' : Ambient}

theorem Same.refl (v : Sequential) : v.Same readers v :=
  ⟨.refl _, fun _ _ => rfl, fun _ _ => rfl⟩

theorem Same.trans (h : v.Same readers w) (h' : w.Same readers x) : v.Same readers x :=
  ⟨h.store.trans h'.store, fun k hk => (h.lastSeq k hk).trans (h'.lastSeq k hk),
    fun k hk => (h.lastResult k hk).trans (h'.lastResult k hk)⟩

theorem Same.noted (h : v.Same readers w) (env : Command) (r : Result) :
    (v.noted env r).Same readers (w.noted env r) := by
  refine ⟨h.store, fun k hk => ?_, fun k hk => ?_⟩
  · simp only [Sequential.noted, h.lastSeq k hk]
  · simp only [Sequential.noted, h.lastResult k hk]

theorem Same.run (h : v.Same readers w)
    (hs : (v.store.applyCommand e env).1.SameState (w.store.applyCommand e' env).1)
    (hr : (v.store.applyCommand e env).2 = (w.store.applyCommand e' env).2) :
    (v.run e env).Same readers (w.run e' env) := by
  unfold Sequential.run
  dsimp only
  rw [hr]
  have hx : Same readers { v with store := (v.store.applyCommand e env).1 }
      { w with store := (w.store.applyCommand e' env).1 } := ⟨hs, h.lastSeq, h.lastResult⟩
  exact hx.noted _ _

theorem Same.apply (h : v.Same readers w) (hk : env.clientID ∉ readers)
    (hrun : (v.run e env).Same readers (w.run e' env)) :
    (v.apply e env).Same readers (w.apply e' env) := by
  unfold Sequential.apply
  rw [h.lastSeq _ hk]
  split
  · exact hrun
  · exact h

theorem apply_old (h : env.seq ≤ v.lastSeq env.clientID) : v.apply e env = v :=
  if_neg (Int.not_lt.2 h)

theorem apply_new (h : v.lastSeq env.clientID < env.seq) : v.apply e env = v.run e env := if_pos h

theorem apply_grounded (h : v.store.Grounded) (e : Ambient) (hg : env.kind ≠ .leaseGrant) :
    (v.apply e env).store.Grounded ∧
      v.store.backend.currentRev ≤ (v.apply e env).store.backend.currentRev := by
  unfold Sequential.apply
  split
  · exact h.applyCommand e hg
  · exact ⟨h, Int.le_refl _⟩

theorem foldl_grounded (h : v.store.Grounded) {cmds : List Command}
    (hg : ∀ env ∈ cmds, env.kind ≠ .leaseGrant) :
    (cmds.foldl (fun v env => v.apply ⟨0, []⟩ env) v).store.Grounded ∧
      v.store.backend.currentRev ≤
        (cmds.foldl (fun v env => v.apply ⟨0, []⟩ env) v).store.backend.currentRev := by
  induction cmds generalizing v with
  | nil => exact ⟨h, Int.le_refl _⟩
  | cons env cmds ih =>
    obtain ⟨hone, hle⟩ := apply_grounded h ⟨0, []⟩ (hg env List.mem_cons_self)
    obtain ⟨hall, hle'⟩ := ih hone fun x hx => hg x (List.mem_cons_of_mem env hx)
    exact ⟨hall, Int.le_trans hle hle'⟩

theorem replay_grounded {cmds : List Command} (hg : ∀ env ∈ cmds, env.kind ≠ .leaseGrant) :
    (replay cmds).store.Grounded := (foldl_grounded KVStore.grounded_new hg).1

theorem replay_currentRev_le {cmds more : List Command}
    (hg : ∀ env ∈ cmds ++ more, env.kind ≠ .leaseGrant) :
    (replay cmds).store.backend.currentRev ≤ (replay (cmds ++ more)).store.backend.currentRev := by
  have hcmds := replay_grounded fun env henv => hg env (List.mem_append_left more henv)
  unfold replay at hcmds ⊢
  rw [List.foldl_append]
  exact (foldl_grounded hcmds fun env henv => hg env (List.mem_append_right cmds henv)).2

end

end Sequential

theorem toPBResult_fromPBResult (m : ResultMessage) : toPBResult (fromPBResult m) = m := by
  have herr : (toPBResult (fromPBResult m)).err = m.err := by
    unfold fromPBResult toPBResult
    dsimp only
    split
    · rfl
    · next h => exact (not_not.1 h).symm
  exact congrArg (fun text => { m with err := text }) herr

namespace KVStore

/-- The snapshot of a store without leases brings it back in a store that is behind. -/
theorem Grounded.restore {s t : KVStore} (hs : s.Grounded) (ht : t.Grounded)
    (hle : t.backend.currentRev ≤ s.backend.currentRev) (ho : RangeOrder order s.leases.keys) :
    (t.restore (s.snapshot order)).SameState s := by
  obtain ⟨hist, hr⟩ := hs.represents
  rcases restore_cases hr t order with ⟨hnot, he⟩ | ⟨-, he⟩
  · have hzero : s.backend.currentRev ≤ 0 := by
      refine Int.not_lt.1 fun hpos => hnot ⟨hpos, fun r hlo hhi => ?_⟩
      have := hs.compactRev
      omega
    obtain ⟨hist', hr'⟩ := ht.represents
    have hlen := hr.currentRev
    have hlen' := hr'.currentRev
    obtain rfl := List.length_eq_zero_iff.1 (by omega : hist.length = 0)
    obtain rfl := List.length_eq_zero_iff.1 (by omega : hist'.length = 0)
    rw [he]
    exact ⟨hr'.unique hr (ht.compactRev.trans hs.compactRev.symm),
      ht.keyLease.trans hs.keyLease.symm, ht.leases.trans hs.leases.symm,
      ht.nextLeaseID.trans hs.nextLeaseID.symm⟩
  · have hnil : order = [] := by
      rw [hs.leases] at ho
      exact (List.toFinset_eq_empty_iff order).1 ho.2
    subst hnil
    rw [he]
    exact ⟨(represents_restored hr).unique hr rfl, rfl, hs.leases.symm, rfl⟩

end KVStore

namespace Server

def view (s : Server) : Sequential := ⟨s.store, s.lastSeq, fun k => toPBResult (s.cached k)⟩

variable {s t : Server} {readers : Finset Int}

theorem SameTables.view (h : s.SameTables t) (hs : s.store = t.store) : s.view = t.view := by
  rw [Server.view, Server.view, hs, h.lastSeq, h.cached]

theorem remember_view (s : Server) (env : Command) (r : Result) :
    (s.remember env.clientID env.seq r).view = s.view.noted env r := by
  have hseq : (s.remember env.clientID env.seq r).lastSeq =
      fun k => if k = env.clientID then env.seq else s.lastSeq k :=
    funext (s.lastSeq_remember env.clientID env.seq r)
  have hres : (fun k => toPBResult ((s.remember env.clientID env.seq r).cached k)) =
      fun k => if k = env.clientID then toPBResult r else toPBResult (s.cached k) := by
    funext k
    rw [s.cached_remember, apply_ite toPBResult]
  rw [Server.view, hseq, hres]
  rfl

theorem remember_reader (s : Server) (hk : clientID ∈ readers) (seq : Int) (r : Result) :
    (s.remember clientID seq r).view.Same readers s.view := by
  have hne {k : Int} (h : k ∉ readers) : k ≠ clientID := by
    rintro rfl
    exact h hk
  refine ⟨.refl _, fun k h => ?_, fun k h => ?_⟩
  · exact (s.lastSeq_remember clientID seq r k).trans (if_neg (hne h))
  · exact congrArg toPBResult ((s.cached_remember clientID seq r k).trans (if_neg (hne h)))

/-- A server that is behind becomes the one the snapshot was taken of. -/
theorem replace_view (hs : s.store.Grounded) (ht : t.store.Grounded)
    (hle : t.store.backend.currentRev ≤ s.store.backend.currentRev)
    (ho : RangeOrder order s.store.leases.keys) :
    (t.replace (s.makeSnapshot order)).view.Same readers s.view := by
  refine ⟨hs.restore ht hle ho, fun k _ => rfl, fun k _ => ?_⟩
  change toPBResult (GoMap.get ((s.clientLastResult.mapValues toPBResult).mapValues fromPBResult)
    k {}) = toPBResult (GoMap.get s.clientLastResult k {})
  rw [GoMap.get, GoMap.get, GoMap.lookup_mapValues, GoMap.lookup_mapValues]
  cases s.clientLastResult.lookup k with
  | none => rfl
  | some r => exact toPBResult_fromPBResult (toPBResult r)

end Server

end LinKV

import LinKV.Machine.Lockstep
import LinKV.Mvcc.Agree
import LinKV.Server.Command

namespace LinKV
set_option autoImplicit true

namespace KVStore

def applyStep (s : KVStore) (i : Ambient × Command) : KVStore × Result := s.applyCommand i.1 i.2

/-- The leases whose expiry the application of a command depends on. -/
def consults (s : KVStore) (env : Command) : List Int :=
  match env.kind with
  | .kv =>
    (env.kv.filter fun cmd => cmd.type = .put ∧ cmd.leaseID ≠ 0).toList.map KVCommand.leaseID
  | .txn => (env.txn.map fun cmd => leaseIDs (s.txnOps (toMVCCTxn cmd))).getD []
  | .leaseKeepAlive => env.leaseKeepAlive.toList.map LeaseCommand.id
  | _ => []

/-- Two replicas apply the same command, their clocks agree on which of the leases it consults
have expired, and a revocation meets the keys in the same order. -/
def SameView (s t : KVStore) (i j : Ambient × Command) : Prop :=
  i.2 = j.2 ∧
  (∀ leaseID ∈ s.consults i.2, s.expired i.1.now leaseID = t.expired j.1.now leaseID) ∧
  (i.2.kind = .leaseRevoke → i.1.keys = j.1.keys)

instance (s t : KVStore) (i j : Ambient × Command) : Decidable (SameView s t i j) :=
  inferInstanceAs (Decidable (_ ∧ _ ∧ _))

section

variable {s t : KVStore} {e e' : Ambient}

theorem Agree.applyBody {f g : KVStore → α → KVStore × Result} (h : s.Agree t)
    (hf : ∀ cmd, body = some cmd → Alike (f s cmd) (g t cmd)) :
    Alike (s.applyBody name body f) (t.applyBody name body g) := by
  cases body with
  | none => exact ⟨h, rfl⟩
  | some cmd => exact hf cmd rfl

theorem Agree.applyKV {cmd : KVCommand} (h : s.Agree t)
    (hx : cmd.type = .put → cmd.leaseID ≠ 0 →
      s.expired e.now cmd.leaseID = t.expired e'.now cmd.leaseID) :
    Alike (s.applyKV e cmd) (t.applyKV e' cmd) := by
  unfold KVStore.applyKV
  cases ht : cmd.type with
  | put =>
    obtain ⟨s', t', r, hs, ht, h'⟩ := (h.put (hx ht)).eq
    rw [hs, ht]
    cases r with
    | error err => exact ⟨h', rfl⟩
    | ok rev => exact ⟨h', rfl⟩
  | delete =>
    obtain ⟨hd, hr⟩ := h.delete
    exact ⟨hd, by simp only [hr]⟩
  | get => exact ⟨h, rfl⟩
  | other => exact ⟨h, rfl⟩

theorem Agree.applyTxn {cmd : TxnCommand} (h : s.Agree t)
    (hx : ∀ leaseID ∈ leaseIDs (s.txnOps (toMVCCTxn cmd)),
      s.expired e.now leaseID = t.expired e'.now leaseID) :
    Alike (s.applyTxn e cmd) (t.applyTxn e' cmd) := by
  unfold KVStore.applyTxn
  obtain ⟨s', t', r, hs, ht, h'⟩ := (h.txn hx).eq
  rw [hs, ht]
  cases r with
  | error err => exact ⟨h', rfl⟩
  | ok out => exact ⟨h', rfl⟩

theorem Agree.applyLeaseGrant (h : s.Agree t) (cmd : LeaseGrantCommand) :
    Alike (s.applyLeaseGrant e cmd) (t.applyLeaseGrant e' cmd) := by
  obtain ⟨hg, hid⟩ : Alike (s.leaseGrant e.now cmd.ttl) (t.leaseGrant e'.now cmd.ttl) :=
    h.leaseGrant
  exact ⟨hg, by simp only [KVStore.applyLeaseGrant, hid]⟩

theorem Agree.applyLeaseRevoke {cmd : LeaseCommand} (h : s.Agree t) (hk : e.keys = e'.keys) :
    Alike (s.applyLeaseRevoke e cmd) (t.applyLeaseRevoke e' cmd) := by
  unfold KVStore.applyLeaseRevoke
  obtain ⟨s', t', r, hs, ht, h'⟩ := (h.leaseRevoke e'.keys).eq
  rw [hk, hs, ht]
  cases r with
  | error err => exact ⟨h', rfl⟩
  | ok => exact ⟨h', rfl⟩

theorem Agree.applyLeaseKeepAlive {cmd : LeaseCommand} (h : s.Agree t)
    (hx : s.expired e.now cmd.id = t.expired e'.now cmd.id) :
    Alike (s.applyLeaseKeepAlive e cmd) (t.applyLeaseKeepAlive e' cmd) := by
  unfold KVStore.applyLeaseKeepAlive
  obtain ⟨s', t', r, hs, ht, h'⟩ := (h.leaseKeepAlive hx).eq
  rw [hs, ht]
  cases r with
  | error err => exact ⟨h', rfl⟩
  | ok ttl => exact ⟨h', rfl⟩

/-- One command keeps two replicas in agreement. -/
theorem Agree.applyCommand {env : Command} (h : s.Agree t)
    (hx : ∀ leaseID ∈ s.consults env, s.expired e.now leaseID = t.expired e'.now leaseID)
    (hk : env.kind = .leaseRevoke → e.keys = e'.keys) :
    Alike (s.applyCommand e env) (t.applyCommand e' env) := by
  unfold KVStore.applyCommand
  unfold consults at hx
  cases hkind : env.kind with
  | kv =>
    refine h.applyBody fun cmd hc => h.applyKV fun hput hne => ?_
    exact hx _ (by simp [hkind, hc, hput, hne])
  | txn =>
    refine h.applyBody fun cmd hc => h.applyTxn fun leaseID hid => ?_
    exact hx _ (by simpa [hkind, hc] using hid)
  | leaseGrant => exact h.applyBody fun cmd _ => h.applyLeaseGrant cmd
  | leaseRevoke => exact h.applyBody fun cmd _ => h.applyLeaseRevoke (hk hkind)
  | leaseKeepAlive =>
    refine h.applyBody fun cmd hc => h.applyLeaseKeepAlive ?_
    exact hx _ (by simp [hkind, hc])
  | other kind => exact ⟨h, rfl⟩

theorem Agree.applyStep {i j : Ambient × Command} (h : s.Agree t) (hv : SameView s t i j) :
    Alike (s.applyStep i) (t.applyStep j) := by
  obtain ⟨hcmd, hx, hk⟩ := hv
  unfold KVStore.applyStep
  rw [← hcmd]
  exact h.applyCommand hx hk

end

end KVStore

/-- Two replicas that start equal and apply the same commands agree afterwards on the versions of
every key, the current revision, the events, the bindings of keys to leases and the next lease,
and have given every command the same result, if at every command their clocks agree on which of
the leases it consults have expired and a revocation meets the keys in the same order. -/
theorem replicas_deterministic {s : KVStore}
    {inputs : List ((Ambient × Command) × (Ambient × Command))}
    (h : Machine.Steady KVStore.applyStep KVStore.SameView s s inputs) :
    let left := Machine.run KVStore.applyStep s (inputs.map Prod.fst)
    let right := Machine.run KVStore.applyStep s (inputs.map Prod.snd)
    left.1.Agree right.1 ∧ left.2 = right.2 :=
  h.run (.refl s) fun _ _ _ _ hR hC => hR.applyStep hC

/-- A lease of one second is granted and a key is put under it: on the first replica after half a
second, on the second one after the given time. -/
def putUnderLease (late : Int) : List ((Ambient × Command) × (Ambient × Command)) :=
  let grant : Command := { kind := .leaseGrant, leaseGrant := some ⟨1, 7, 1⟩ }
  let put : Command := { kind := .kv, kv := some ⟨.put, [1], [2], 7, 2, 1⟩ }
  [((⟨0, []⟩, grant), (⟨0, []⟩, grant)), ((⟨500000000, []⟩, put), (⟨late, []⟩, put))]

/-- Clocks a quarter of a second apart bind the key on both replicas. -/
theorem replicas_deterministic_in_time :
    let inputs := putUnderLease 750000000
    Machine.Steady KVStore.applyStep KVStore.SameView .new .new inputs ∧
    let left := Machine.run KVStore.applyStep .new (inputs.map Prod.fst)
    let right := Machine.run KVStore.applyStep .new (inputs.map Prod.snd)
    left.1.keyLease.lookup [1] = some 1 ∧ left.1.Agree right.1 ∧ left.2 = right.2 := by
  have h : Machine.Steady KVStore.applyStep KVStore.SameView .new .new
      (putUnderLease 750000000) := by
    decide +kernel
  exact ⟨h, by decide +kernel, replicas_deterministic h⟩

/-- A replica whose clock has passed the expiry of the lease refuses the put the other one has
applied. -/
theorem replicas_deterministic_fails :
    let inputs := putUnderLease 2000000000
    let left := Machine.run KVStore.applyStep .new (inputs.map Prod.fst)
    let right := Machine.run KVStore.applyStep .new (inputs.map Prod.snd)
    (∀ i ∈ inputs, i.1.2 = i.2.2) ∧
    (inputs.map fun i => i.1.1.now).Pairwise (· ≤ ·) ∧
    (inputs.map fun i => i.2.1.now).Pairwise (· ≤ ·) ∧
    left.2.map Result.err = [none, none] ∧
    right.2.map Result.err = [none, some (.lease (.alreadyExpired 1))] ∧
    left.1.backend.currentRev = 1 ∧ right.1.backend.currentRev = 0 ∧
    left.1.keyLease.lookup [1] = some 1 ∧ right.1.keyLease.lookup [1] = none := by
  decide +kernel

end LinKV

import LinKV.Mvcc.Reachable

namespace LinKV
set_option autoImplicit true

namespace KVStore

/-- `s'` is what `LeaseGrant` with this TTL, or a `LeaseKeepAlive` that succeeds for a lease of
this TTL, makes of `s` when the clock shows `now`. -/
inductive SetsDeadline (s : KVStore) (now ttl : Int) : Int → KVStore → Prop
  | grant : SetsDeadline s now ttl (s.leaseGrant now ttl).2 (s.leaseGrant now ttl).1
  | keepAlive : s.leases.lookup leaseID = some lease → lease.ttl = ttl →
      (s.leaseKeepAlive now leaseID).2 = .ok remaining →
      SetsDeadline s now ttl leaseID (s.leaseKeepAlive now leaseID).1

/-- The lease ends `ttl` seconds after `now`, and has not expired at `now`. -/
def Lasts (s : KVStore) (now ttl leaseID : Int) : Prop :=
  ∃ lease, s.leases.lookup leaseID = some lease ∧ lease.ttl = ttl ∧
    lease.expireAt = now + ttl * 1000000000 ∧ s.expired now leaseID = false

section

variable {s s' t : KVStore} {now ttl leaseID : Int} {lease : Lease}

/-- Both set the deadline by the same sum, in which only the duration wraps around: a `time.Time`
holds more than 64 bits. -/
theorem SetsDeadline.lookup (h : s.SetsDeadline now ttl leaseID s') :
    ∃ lease, s'.leases.lookup leaseID = some lease ∧ lease.ttl = ttl ∧
      lease.expireAt = now + ttlDuration ttl := by
  cases h with
  | grant => exact ⟨_, Finmap.lookup_insert s.leases, rfl, rfl⟩
  | keepAlive hl httl hok =>
    unfold leaseKeepAlive at hok ⊢
    cases hlook : s.lookupLease now leaseID with
    | error e =>
      rw [hlook] at hok
      cases hok
    | ok lease =>
      have hlease := lookupLease_of_ok hlook
      rw [hl] at hlease
      obtain rfl := Option.some.inj hlease
      exact ⟨_, Finmap.lookup_insert s.leases, httl, by rw [httl]⟩

theorem SetsDeadline.reachable (h : s.SetsDeadline now ttl leaseID s') (hs : s.Reachable) :
    s'.Reachable := by
  cases h with
  | grant => exact hs.op (.leaseGrant now ttl) rfl
  | keepAlive => exact hs.op (.leaseKeepAlive now leaseID) rfl

theorem lasts_iff (hl : s.leases.lookup leaseID = some lease) (httl : lease.ttl = ttl)
    (hpos : 0 ≤ ttl) : s.Lasts now ttl leaseID ↔ lease.expireAt = now + ttl * 1000000000 := by
  constructor
  · intro h
    obtain ⟨lease', hl', -, hexp, -⟩ := h
    rw [hl] at hl'
    obtain rfl := Option.some.inj hl'
    exact hexp
  · intro hexp
    refine ⟨lease, hl, httl, hexp, ?_⟩
    rw [expired, hl, Option.any_some, hexp]
    exact decide_eq_false (by omega)

/-- A lease in a snapshot is found again after a restore, with what `UnixNano` has kept of its
deadline. -/
theorem restore_lookup (hs : s.Reachable) (ho : RangeOrder order s.leases.keys)
    (hacc : (s.snapshot order).accepted = true) (hl : s.leases.lookup leaseID = some lease) :
    (t.restore (s.snapshot order)).leases.lookup leaseID =
      some { lease with expireAt := wrap64 lease.expireAt } := by
  rw [KVStore.restore, if_pos hacc]
  dsimp only
  rw [restoreLeases_lookup_eq hs.represents.1 ho, hl]
  rfl

end

end KVStore

/-- The deadline that `LeaseGrant` and `LeaseKeepAlive` set is the TTL after now exactly if the TTL
in nanoseconds is a 64-bit number, and it is so after a restore exactly if the deadline itself, in
nanoseconds since 1970, is one. -/
theorem lease_deadlines {s s' : KVStore} {now ttl leaseID : Int} (hs : s.Reachable)
    (hnow : 0 ≤ now ∧ now < 2 ^ 63) (httl : 0 < ttl ∧ ttl < 2 ^ 63)
    (h : s.SetsDeadline now ttl leaseID s') :
    (s'.Lasts now ttl leaseID ↔ ttl * 1000000000 < 2 ^ 63) ∧
    ∀ (t : KVStore) order, RangeOrder order s'.leases.keys → (s'.snapshot order).accepted = true →
      ((t.restore (s'.snapshot order)).Lasts now ttl leaseID ↔
        now + ttl * 1000000000 < 2 ^ 63) := by
  obtain ⟨lease, hl, hlttl, hexp⟩ := h.lookup
  have hpos : 0 ≤ ttl := Int.le_of_lt httl.1
  constructor
  · rw [KVStore.lasts_iff hl hlttl hpos, hexp, Int.add_right_inj, ttlDuration, wrap64_eq_self_iff]
    omega
  · intro t order ho hacc
    have hrestored := KVStore.restore_lookup (t := t) (h.reachable hs) ho hacc hl
    rw [KVStore.lasts_iff hrestored hlttl hpos]
    dsimp only
    rw [hexp, ttlDuration, wrap64_add_wrap64, wrap64_eq_self_iff]
    omega

def oneKey : KVStore := (KVStore.new.put 0 [1] [5] 0).1

theorem oneKey_reachable : oneKey.Reachable := .op (.put 0 [1] [5] 0) .new rfl

/-- A lease of a minute, granted in 2026 and renewed a second later. -/
theorem lease_deadlines_minute :
    let granted := (oneKey.leaseGrant 1790000000000000000 60).1
    let renewed := (granted.leaseKeepAlive 1790000001000000000 1).1
    granted.Lasts 1790000000000000000 60 1 ∧ renewed.Lasts 1790000001000000000 60 1 ∧
    (KVStore.new.restore (renewed.snapshot [1])).Lasts 1790000001000000000 60 1 := by
  intro granted renewed
  have hgrant : oneKey.SetsDeadline 1790000000000000000 60 1 granted := .grant
  have hl : granted.leases.lookup 1 = some ⟨1, 60, 1790000060000000000, ∅⟩ := by decide +kernel
  have hok : (granted.leaseKeepAlive 1790000001000000000 1).2 = .ok 60 := by decide +kernel
  have hrenew : granted.SetsDeadline 1790000001000000000 60 1 renewed := .keepAlive hl rfl hok
  have hg := lease_deadlines oneKey_reachable (by decide) (by decide) hgrant
  have hr := lease_deadlines (hgrant.reachable oneKey_reachable) (by decide) (by decide) hrenew
  refine ⟨hg.1.2 (by decide), hr.1.2 (by decide), ?_⟩
  exact (hr.2 .new [1] (by decide +kernel) (by decide +kernel)).2 (by decide)

/-- In 2026, a lease of 292 years has expired when it is granted. One of 253 years has not, but it
has after a restore. -/
theorem lease_deadlines_wrap :
    let now := 1790000000000000000
    let first := (oneKey.leaseGrant now 9223372037).1
    let second := (oneKey.leaseGrant now 8000000000).1
    oneKey.Reachable ∧
    (oneKey.SetsDeadline now 9223372037 1 first ∧ first.expired now 1 = true) ∧
    oneKey.SetsDeadline now 8000000000 1 second ∧ second.expired now 1 = false ∧
      RangeOrder [1] second.leases.keys ∧ (second.snapshot [1]).accepted = true ∧
      (KVStore.new.restore (second.snapshot [1])).expired now 1 = true := by
  intro now first second
  refine ⟨oneKey_reachable, ⟨.grant, by decide +kernel⟩, .grant, ?_⟩
  decide +kernel

end LinKV

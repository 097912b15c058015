import LinKV.Mvcc.Compact
import Mathlib.Logic.Relation

namespace LinKV
set_option autoImplicit true

def StoreOp.KeysIn (P : Bytes → Prop) : StoreOp → Prop
  | .put _ key _ _ | .delete key => P key
  | .txn _ t => ∀ op ∈ t.thenOps ++ t.elseOps, P op.key
  | .leaseGrant _ _ | .leaseKeepAlive _ _ | .leaseRevoke _ _ | .compact _ => True

theorem StoreOp.keysIn_all (op : StoreOp) : op.KeysIn fun _ => True := by
  cases op with
  | txn now t => exact fun _ _ => trivial
  | put | delete | leaseGrant | leaseKeepAlive | leaseRevoke | compact => trivial

namespace KVStore

/-- What the locked helpers do to a store, where leases only get keys from `P`. -/
inductive Edit (P : Bytes → Prop) (s : KVStore) : KVStore → Prop
  | write : Edit P s (s.write type key value deleted).1
  | removeLeaseKey : Edit P s (s.removeLeaseKey leaseID key)
  | addLeaseKey : P key → Edit P s (s.addLeaseKey leaseID key)
  | keyLease (m : GoMap Bytes Int) : Edit P s { s with keyLease := m }

/-- What the operations are made of. -/
inductive Change (P : Bytes → Prop) (s : KVStore) : KVStore → Prop
  | edit : Edit P s s' → Change P s s'
  | send (evs : List MvccEvent) : Change P s (s.send evs)
  | grant (now ttl : Int) : Change P s (s.leaseGrant now ttl).1
  | renew {lease : Lease} (t : Int) : s.leases.lookup leaseID = some lease →
      Change P s { s with leases := s.leases.insert leaseID { lease with expireAt := t } }
  | revoke (leaseID : Int) : Change P s { s with leases := s.leases.erase leaseID }
  | compact (rev : Int) : Change P s (s.compact rev).1

abbrev Edits (P : Bytes → Prop) : KVStore → KVStore → Prop := Relation.ReflTransGen (Edit P)

abbrev Changes (P : Bytes → Prop) : KVStore → KVStore → Prop := Relation.ReflTransGen (Change P)

section

variable {s s' : KVStore} {P : Bytes → Prop} {key value : Bytes} {leaseID : Int}

theorem detachKey_edits (key : Bytes) : Edits P s (s.detachKey key) := by
  unfold detachKey
  split
  · exact .refl
  · exact .tail (.single (.keyLease _)) .removeLeaseKey

theorem bindKeyToLease_edits (hk : P key) : Edits P s (s.bindKeyToLease key leaseID) := by
  have hadd {t : KVStore} (ht : Edits P s t) : Edits P s { t.addLeaseKey leaseID key with
      keyLease := (t.addLeaseKey leaseID key).keyLease.insert key leaseID } :=
    .tail (.tail ht (.addLeaseKey hk)) (.keyLease _)
  unfold bindKeyToLease
  apply hadd
  split
  · exact .refl
  · split
    · exact .single .removeLeaseKey
    · exact .refl

theorem deleteLocked_edits (key : Bytes) : Edits P s (s.deleteLocked key).1 :=
  .head .write (detachKey_edits key)

theorem deleteAll_edits (keys : List Bytes) : Edits P s (s.deleteAll keys).1 := by
  induction keys generalizing s with
  | nil => exact .refl
  | cons key keys ih => exact .trans (deleteLocked_edits key) ih

theorem txnOp_edits {op : Operation} (hk : P op.key) : Edits P s (s.txnOp op).1 := by
  unfold txnOp
  cases op.type with
  | get =>
    dsimp only
    split <;> exact .refl
  | put =>
    dsimp only
    split
    · exact .head .write (bindKeyToLease_edits hk)
    · exact .head .write (detachKey_edits op.key)
  | delete => exact deleteLocked_edits op.key
  | other type => exact .refl

theorem runOps_edits {ops : List Operation} (hk : ∀ op ∈ ops, P op.key) :
    Edits P s (s.runOps ops).1 := by
  induction ops generalizing s with
  | nil => exact .refl
  | cons op ops ih =>
    refine .trans (txnOp_edits (hk op List.mem_cons_self)) (ih fun op' hop => ?_)
    exact hk op' (List.mem_cons_of_mem op hop)

theorem Edits.keeps {g : KVStore → α} (hg : ∀ {s s' : KVStore}, Edit P s s' → g s' = g s)
    (h : Edits P s s') : g s' = g s := by
  induction h with
  | refl => rfl
  | tail _ hedit ih => exact (hg hedit).trans ih

theorem Changes.keeps {I : KVStore → Prop} (hI : ∀ {s s' : KVStore}, Change P s s' → I s → I s')
    (h : Changes P s s') (hs : I s) : I s' := by
  induction h with
  | refl => exact hs
  | tail _ hchange ih => exact hI hchange ih

theorem Edits.changes (h : Edits P s s') : Changes P s s' := by
  induction h with
  | refl => exact .refl
  | tail _ hedit ih => exact .tail ih (.edit hedit)

theorem mem_of_mem_txnOps {t : Txn} {op : Operation} (hop : op ∈ s.txnOps t) :
    op ∈ t.thenOps ++ t.elseOps := by
  rw [List.mem_append]
  unfold txnOps at hop
  split at hop
  · exact .inl hop
  · exact .inr hop

theorem lookupLease_of_ok (h : s.lookupLease now leaseID = .ok lease) :
    s.leases.lookup leaseID = some lease := by
  unfold KVStore.lookupLease at h
  split at h
  · cases h
  · split at h
    · cases h
    · cases h
      assumption

theorem apply_changes (ho : op.KeysIn P) (hs : s.apply op = some s') : Changes P s s' := by
  cases op with
  | put now key value leaseID =>
    obtain rfl := Option.some.inj hs
    unfold put
    split
    · split
      · exact .refl
      · exact .tail (Edits.changes (.head .write (bindKeyToLease_edits ho))) (.send _)
    · exact .tail (Edits.changes (.head .write (detachKey_edits key))) (.send _)
  | delete key =>
    obtain rfl := Option.some.inj hs
    exact .tail (deleteLocked_edits key).changes (.send _)
  | txn now t =>
    obtain rfl := Option.some.inj hs
    unfold txn
    split
    · exact .refl
    · have hk : ∀ op ∈ s.txnOps t, P op.key := fun op hop => ho op (mem_of_mem_txnOps hop)
      exact .tail (runOps_edits hk).changes (.send _)
  | leaseGrant now ttl =>
    obtain rfl := Option.some.inj hs
    exact .single (.grant now ttl)
  | leaseKeepAlive now leaseID =>
    obtain rfl := Option.some.inj hs
    unfold leaseKeepAlive
    split
    · exact .refl
    · rename_i hl
      exact .single (.renew _ (lookupLease_of_ok hl))
  | leaseRevoke leaseID keys =>
    rw [apply] at hs
    split at hs
    · obtain rfl := Option.some.inj hs
      unfold leaseRevoke
      split
      · exact .refl
      · exact .head (.revoke leaseID) (.tail (deleteAll_edits keys).changes (.send _))
    · cases hs
  | compact rev =>
    obtain rfl := Option.some.inj hs
    exact .single (.compact rev)

end

end KVStore

end LinKV

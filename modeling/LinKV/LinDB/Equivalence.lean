import LinKV.LinDB.Legal
import LinKV.Mvcc.Bindings

namespace LinKV
set_option autoImplicit true

open Calls

namespace KVStore

section

variable {s s' : KVStore} {P : Bytes → Prop} {key : Bytes} {leaseID : Int} {op : StoreOp}

def LeasesHold (s : KVStore) (P : Bytes → Prop) : Prop := ∀ id, ∀ k ∈ s.leaseKeys id, P k

theorem LeasesHold.removeLeaseKey (hl : s.LeasesHold P) (leaseID : Int) (key : Bytes) :
    (s.removeLeaseKey leaseID key).LeasesHold P := by
  intro id k hk
  rw [leaseKeys_removeLeaseKey] at hk
  split at hk
  · exact hl leaseID k (Finset.mem_of_mem_erase hk)
  · exact hl id k hk

theorem LeasesHold.addLeaseKey (hl : s.LeasesHold P) (leaseID : Int) (hk : P key) :
    (s.addLeaseKey leaseID key).LeasesHold P := by
  intro id k hmem
  cases hlook : s.leases.lookup leaseID with
  | none =>
    rw [leaseKeys, KVStore.addLeaseKey, GoMap.modify, hlook] at hmem
    exact hl id k hmem
  | some lease =>
    rw [leaseKeys_addLeaseKey hlook] at hmem
    split at hmem
    · rcases Finset.mem_insert.1 hmem with rfl | hmem
      · exact hk
      · exact hl leaseID k hmem
    · exact hl id k hmem

theorem LeasesHold.insert {lease : Lease} (hl : s.LeasesHold P) (hk : ∀ k ∈ lease.keys, P k)
    (next : Int) :
    LeasesHold { s with nextLeaseID := next, leases := s.leases.insert leaseID lease } P := by
  intro id k hmem
  rw [leaseKeys_insert] at hmem
  split at hmem
  · exact hk k hmem
  · exact hl id k hmem

theorem mutation_key {op : Operation} {m : Mutation} (hm : op.mutation = some m) :
    m.1 = op.key := by
  unfold Operation.mutation at hm
  split at hm
  · rw [← Option.some.inj hm]
  · rw [← Option.some.inj hm]
  all_goals cases hm

theorem LeasesHold.mutations (hl : s.LeasesHold P) (ho : op.KeysIn P)
    (hs : s.apply op = some s') : ∀ m ∈ s.mutations op, P m.1 := by
  intro m hm
  unfold KVStore.mutations at hm
  cases op with
  | put now key value leaseID =>
    have hkey : ∀ m ∈ [(key, some value)], P m.1 := fun m hm => List.mem_singleton.1 hm ▸ ho
    dsimp only at hm
    split at hm
    · split at hm
      · exact absurd hm List.not_mem_nil
      · exact hkey m hm
    · exact hkey m hm
  | delete key => exact List.mem_singleton.1 hm ▸ ho
  | txn now t =>
    dsimp only at hm
    split at hm
    · exact absurd hm List.not_mem_nil
    · obtain ⟨op, hop, hmut⟩ := List.mem_filterMap.1 hm
      rw [mutation_key hmut]
      exact ho op (mem_of_mem_txnOps hop)
  | leaseGrant now ttl => exact absurd hm List.not_mem_nil
  | leaseKeepAlive now leaseID => exact absurd hm List.not_mem_nil
  | leaseRevoke leaseID keys =>
    rw [KVStore.apply] at hs
    split at hs
    · rename_i henum
      dsimp only at hm
      split at hm
      · exact absurd hm List.not_mem_nil
      · obtain ⟨key, hkey, rfl⟩ := List.mem_map.1 hm
        exact hl leaseID key (henum.mem.1 hkey)
    · cases hs
  | compact rev => exact absurd hm List.not_mem_nil

theorem LeasesHold.change (hc : Change P s s') (hl : s.LeasesHold P) : s'.LeasesHold P := by
  cases hc with
  | edit hedit =>
    cases hedit with
    | write | keyLease => exact hl
    | removeLeaseKey => exact hl.removeLeaseKey _ _
    | addLeaseKey hk => exact hl.addLeaseKey _ hk
  | send => exact hl
  | grant now ttl => exact hl.insert (fun k hk => absurd hk (Finset.notMem_empty k)) _
  | @renew leaseID lease t hlook =>
    refine LeasesHold.insert (s := s) hl (fun k hk => hl leaseID k ?_) s.nextLeaseID
    rw [leaseKeys, hlook]
    exact hk
  | revoke leaseID =>
    intro id k hk
    rw [leaseKeys_erase] at hk
    split at hk
    · exact absurd hk (Finset.notMem_empty k)
    · exact hl id k hk
  | compact rev =>
    unfold KVStore.compact
    split <;> exact hl

theorem LeasesHold.apply (hl : s.LeasesHold P) (ho : op.KeysIn P) (hs : s.apply op = some s') :
    s'.LeasesHold P := (apply_changes ho hs).keeps LeasesHold.change hl

theorem restoreLeases_keys {leases : List LeaseMessage} (hk : ∀ l ∈ leases, ∀ k ∈ l.keys, P k) :
    ∀ id lease, (restoreLeases leases).lookup id = some lease → ∀ k ∈ lease.keys, P k := by
  have hfold : ∀ acc : GoMap Int Lease,
      (∀ id lease, acc.lookup id = some lease → ∀ k ∈ lease.keys, P k) →
      ∀ id lease, (leases.foldl (fun m l => if l.id ≤ 0 then m
        else m.insert l.id ⟨l.id, l.ttl, l.expireAtUnixNano, l.keys.toFinset⟩) acc).lookup id =
          some lease → ∀ k ∈ lease.keys, P k := by
    induction leases with
    | nil => exact fun acc hacc => hacc
    | cons l leases ih =>
      intro acc hacc
      refine ih (fun l' hl' => hk l' (List.mem_cons_of_mem l hl')) _ ?_
      dsimp only
      split
      · exact hacc
      · intro id lease hlook
        by_cases hid : id = l.id
        · rw [hid, Finmap.lookup_insert] at hlook
          obtain rfl := Option.some.inj hlook
          exact fun k hkk => hk l List.mem_cons_self k (List.mem_toFinset.1 hkk)
        · rw [Finmap.lookup_insert_of_ne _ hid] at hlook
          exact hacc id lease hlook
  refine hfold ∅ fun id lease hlook => ?_
  rw [Finmap.lookup_empty] at hlook
  cases hlook

end

end KVStore

def StoreRequest.ValidKeys : StoreRequest → Prop
  | .put _ key _ _ | .delete key => validUTF8 key = true
  | .txn _ t => ∀ op ∈ t.thenOps ++ t.elseOps, validUTF8 op.key = true
  | .restore snap => (∀ e ∈ snap.message.entries, validUTF8 e.key = true) ∧
      ∀ l ∈ snap.message.leases, ∀ key ∈ l.keys, validUTF8 key = true
  | .leaseGrant _ _ | .leaseKeepAlive _ _ | .leaseRevoke _ _ | .compact _ | .get _ _
    | .range _ _ _ | .prefixRange _ _ | .watch _ _ _ | .snapshot _ => True

instance StoreRequest.ValidKeys.decidable : (q : StoreRequest) → Decidable q.ValidKeys
  | .put _ key _ _ | .delete key => inferInstanceAs (Decidable (validUTF8 key = true))
  | .txn _ t =>
    inferInstanceAs (Decidable (∀ op ∈ t.thenOps ++ t.elseOps, validUTF8 op.key = true))
  | .restore snap =>
    inferInstanceAs (Decidable ((∀ e ∈ snap.message.entries, validUTF8 e.key = true) ∧
      ∀ l ∈ snap.message.leases, ∀ key ∈ l.keys, validUTF8 key = true))
  | .leaseGrant _ _ | .leaseKeepAlive _ _ | .leaseRevoke _ _ | .compact _ | .get _ _
    | .range _ _ _ | .prefixRange _ _ | .watch _ _ _ | .snapshot _ => .isTrue trivial

/-- A store that has been given valid keys only. -/
structure KVStore.ValidKeys (s : KVStore) : Prop where
  history : ∃ h, Represents h s.backend ∧ ∀ m ∈ h, validUTF8 m.1 = true
  leases : s.LeasesHold fun key => validUTF8 key = true

def KVStore.next (s : KVStore) (q : StoreRequest) : KVStore := (s.handle 0 q).1

section

variable {s s' t : KVStore} {h : List Mutation} {b : MemoryBackend} {f : StoreFront}
  {key : Bytes} {q : StoreRequest} {snap : OwnSnapshot}

theorem Represents.mem_data (hr : Represents h b) {m : Mutation} (hm : m ∈ h) : m.1 ∈ b.data := by
  obtain ⟨i, hi⟩ := List.mem_iff_getElem?.1 hm
  have hv : ((i : Int) + 1, m.2) ∈ Versioned.versions h m.1 := Versioned.mem_versions.2 ⟨i, rfl, hi⟩
  rw [MemoryBackend.mem_data_iff, hr.versions, ne_eq, List.map_eq_nil_iff, Versioned.retain_eq_nil]
  exact List.ne_nil_of_mem hv

theorem exists_entry (order : List Int) (hk : key ∈ t.backend.data) :
    ∃ e ∈ (t.snapshot order).entries, e.key = key := by
  obtain ⟨versions, hl⟩ := Finmap.mem_iff.1 hk
  refine ⟨⟨key, versions.sorted⟩, List.mem_filterMap.2 ⟨key, ?_, ?_⟩, rfl⟩
  · exact mem_sortStrings.2 (Finmap.mem_keys.2 hk)
  · rw [hl, Option.map_some]

theorem OwnSnapshot.source (hq : StoreRequest.ValidKeys (.restore snap)) : ∃ t order h,
    snap.message = KVStore.snapshot t order ∧ Represents h t.backend ∧
      ∀ m ∈ h, validUTF8 m.1 = true := by
  obtain ⟨t, order, ht, -, hmsg⟩ := snap.taken
  obtain ⟨-, h, hr⟩ := ht.represents
  refine ⟨t, order, h, hmsg, hr, fun m hm => ?_⟩
  obtain ⟨e, he, hkey⟩ := exists_entry order (hr.mem_data hm)
  exact hkey ▸ hq.1 e (hmsg ▸ he)

theorem KVStore.ValidKeys.apply (hv : s.ValidKeys) (op : StoreOp)
    (ho : op.KeysIn fun key => validUTF8 key = true) (hs : s.apply op = some s') :
    s'.ValidKeys := by
  obtain ⟨h, hr, hvalid⟩ := hv.history
  refine ⟨⟨_, hr.apply hs, fun m hm => ?_⟩, hv.leases.apply ho hs⟩
  rcases List.mem_append.1 hm with hm | hm
  · exact hvalid m hm
  · exact hv.leases.mutations ho hs m hm

theorem KVStore.ValidKeys.restore (hv : s.ValidKeys)
    (hq : StoreRequest.ValidKeys (.restore snap)) : (s.restore snap.message).ValidKeys := by
  obtain ⟨t, order, h, hmsg, hr, hvalid⟩ := OwnSnapshot.source hq
  have hkeys := KVStore.restoreLeases_keys hq.2
  rw [hmsg] at hkeys ⊢
  rcases restore_cases hr s order with ⟨-, he⟩ | ⟨-, he⟩
  · rw [he]
    exact hv
  · rw [he]
    refine ⟨⟨h, KVStore.represents_restored hr, hvalid⟩, fun id k hk => ?_⟩
    rw [KVStore.leaseKeys] at hk
    dsimp only at hk
    cases hl : (restoreLeases (t.snapshot order).leases).lookup id with
    | none =>
      rw [hl] at hk
      exact absurd hk (Finset.notMem_empty k)
    | some lease =>
      rw [hl] at hk
      exact hkeys id lease hl k hk

theorem KVStore.ValidKeys.next (hv : s.ValidKeys) (hq : q.ValidKeys) : (s.next q).ValidKeys := by
  cases q with
  | put now key value leaseID => exact hv.apply (.put now key value leaseID) hq rfl
  | delete key => exact hv.apply (.delete key) hq rfl
  | txn now t => exact hv.apply (.txn now t) hq rfl
  | leaseGrant now ttl => exact hv.apply (.leaseGrant now ttl) trivial rfl
  | leaseKeepAlive now leaseID => exact hv.apply (.leaseKeepAlive now leaseID) trivial rfl
  | leaseRevoke leaseID ranging =>
    refine hv.apply (.leaseRevoke leaseID (ranging.order (s.leaseKeys leaseID))) trivial ?_
    exact if_pos (ranging.fair (s.leaseKeys leaseID))
  | compact rev => exact hv.apply (.compact rev) trivial rfl
  | get | range | prefixRange | watch | snapshot => exact hv
  | restore snap => exact hv.restore hq

theorem StoreFront.on_leaseKeepAlive (f : StoreFront) (b : MemoryBackend) (now leaseID : Int) :
    (f.on b).leaseKeepAlive now leaseID =
      ((f.after ((f.on .new).leaseKeepAlive now leaseID).1).on b,
        ((f.on .new).leaseKeepAlive now leaseID).2) := by
  have hlookup : (f.on b).lookupLease now leaseID = (f.on .new).lookupLease now leaseID := rfl
  unfold KVStore.leaseKeepAlive
  rw [hlookup]
  cases (f.on .new).lookupLease now leaseID with
  | error e => rfl
  | ok lease => rfl

/-- The front and the memory backend make up a store whose revisions an `int64` holds. -/
structure Carries (s : KVStore) (f : StoreFront) (b : MemoryBackend) : Prop where
  on : f.on b = s
  valid : s.ValidKeys
  fits : s.backend.currentRev < 2 ^ 63

/-- On the memory backend the programs do what the model of the store does, and use the backend
as it should be used. -/
theorem StoreFront.handle_served (hv : (f.on b).ValidKeys) (hq : q.ValidKeys)
    (hfit : b.currentRev < 2 ^ 63) (hfit' : ((f.on b).next q).backend.currentRev < 2 ^ 63) :
    ∃ f', Served b (f.handle q) (((f.on b).handle f.nextWatcherID q).2, f')
      ((f.on b).next q).backend ∧ f'.on ((f.on b).next q).backend = (f.on b).next q := by
  obtain ⟨h, hr, hvalid⟩ := hv.history
  cases q with
  | put now key value leaseID => exact ⟨_, Goes.bind (put_realizes hr hq hfit') .done, rfl⟩
  | delete key => exact ⟨_, Goes.bind (delete_realizes hr hq hfit') .done, rfl⟩
  | txn now t => exact ⟨_, Goes.bind (txn_realizes hr hq hfit') .done, rfl⟩
  | leaseGrant now ttl => exact ⟨_, .done, rfl⟩
  | leaseKeepAlive now leaseID =>
    have hon := f.on_leaseKeepAlive b now leaseID
    refine ⟨f.after ((f.on .new).leaseKeepAlive now leaseID).1, ?_, ?_⟩
    · rw [KVStore.next, KVStore.handle, KVStore.handle, hon]
      exact .done
    · rw [KVStore.next, KVStore.handle, hon]
      rfl
  | leaseRevoke leaseID ranging =>
    exact ⟨_, Goes.bind (leaseRevoke_realizes hr rfl (hv.leases leaseID) hfit') .done, rfl⟩
  | compact rev =>
    refine ⟨f, Goes.bind (compact_served f hr hvalid hfit rev) .done, ?_⟩
    rw [KVStore.next, KVStore.handle, KVStore.compact]
    split <;> rfl
  | get key rev => exact ⟨f, Goes.bind (get_served f b key rev) .done, rfl⟩
  | range startKey endKey rev =>
    exact ⟨f, Goes.bind (range_served f b startKey endKey rev) .done, rfl⟩
  | prefixRange p rev => exact ⟨f, Goes.bind (range_served f b p (prefixEnd p) rev) .done, rfl⟩
  | watch key fromRev isPrefix =>
    obtain ⟨f', hg, hon⟩ := f.watch_served b key fromRev isPrefix
    exact ⟨f', Goes.bind hg .done, hon⟩
  | snapshot ranging => exact ⟨f, Goes.bind (snapshot_served f b ranging) .done, rfl⟩
  | restore snap =>
    obtain ⟨t, order, h, hmsg, hr, hvalid⟩ := OwnSnapshot.source hq
    refine ⟨_, Goes.bind (hmsg ▸ restore_served f b hr hvalid ?_) .done, rfl⟩
    cases hacc : (t.snapshot order).accepted with
    | false => exact .inr rfl
    | true =>
      rw [KVStore.next, KVStore.handle, hmsg, KVStore.restore, if_pos hacc] at hfit'
      exact .inl hfit'

theorem carries_new : Carries .new .new .new := by
  refine ⟨rfl, ⟨⟨[], represents_new, fun m hm => absurd hm List.not_mem_nil⟩, ?_⟩, by decide⟩
  exact fun id k hk => absurd hk (Finset.notMem_empty k)

theorem Carries.handle (hc : Carries s f b) (hq : q.ValidKeys)
    (hfit : (s.next q).backend.currentRev < 2 ^ 63) :
    ∃ a f' b', Served b (f.handle q) (a, f') b' ∧ Carries (s.next q) f' b' := by
  obtain ⟨rfl, hv, hfits⟩ := hc
  obtain ⟨f', hg, hon⟩ := f.handle_served hv hq hfits hfit
  exact ⟨_, f', _, hg, hon, hv.next hq, hfit⟩

end

/-- A store on Lin-DB cannot be told from one on the memory backend: whatever is asked of them,
with valid keys, they return the same and get the same answers to all calls of their backends.
The revisions are `int64` values. -/
theorem backend_equivalence (qs : List StoreRequest) (hvalid : ∀ q ∈ qs, q.ValidKeys)
    (hfits : ∀ n, ((qs.take n).foldl KVStore.next .new).backend.currentRev < 2 ^ 63) :
    ∃ out f b d,
      serve MemoryBackend.answer StoreFront.handle .new .new qs = some (out, f, b) ∧
      serve DB.answer StoreFront.handle .new ∅ qs = some (out, f, d) ∧
      f.on b = qs.foldl KVStore.next .new := by
  obtain ⟨out, f, b, d, hmem, hdb, hend, -⟩ := linDB_simulates.serve KVStore.next Carries
    (fun s => s.backend.currentRev < 2 ^ 63) StoreRequest.ValidKeys
    (fun s f b q hc hq hfit => hc.handle hq hfit) carries_new mirrors_empty hvalid hfits
  exact ⟨out, f, b, d, hmem, hdb, hend.on⟩

/-- A `range` that meets keys in their order. -/
def Ranging.strings : Ranging Bytes :=
  ⟨sortStrings, fun keys => ⟨Finset.sort_nodup keys _, Finset.sort_toFinset keys _⟩⟩

def Ranging.ids : Ranging Int :=
  ⟨fun ids => ids.sort (· ≤ ·), fun ids => ⟨Finset.sort_nodup ids _, Finset.sort_toFinset ids _⟩⟩

/-- Two keys, one of them under a lease that is revoked and one with a character of two bytes, a
transaction, a compaction, reads, and a snapshot of another store. -/
def mixedRequests : List StoreRequest :=
  [.leaseGrant 0 60, .put 0 [0x61] [1] 1, .put 0 [0xC3, 0xA9] [2] 0,
    .txn 0 ⟨[⟨[0x61], .greater, 0⟩], [⟨.put, [0x62], [3], 0⟩, ⟨.get, [0x61], [], 0⟩], []⟩,
    .compact 2, .leaseRevoke 1 .strings, .watch [0x61] 3 false, .range [0x61] [0xFF] 0,
    .snapshot .ids,
    .restore ⟨leasedKey.snapshot [1], leasedKey, [1], leasedKey_reachable, by decide, rfl⟩,
    .get [1] 0]

/-- The number of calls that each of the requests makes. -/
theorem backend_equivalence_mixed : ∃ out f b d,
    serve MemoryBackend.answer StoreFront.handle .new .new mixedRequests = some (out, f, b) ∧
    serve DB.answer StoreFront.handle .new ∅ mixedRequests = some (out, f, d) ∧
    out.map (fun x => x.2.length) = [0, 5, 5, 7, 9, 5, 2, 6, 1, 1, 3] := by
  have hvalid : ∀ q ∈ mixedRequests, q.ValidKeys := by decide +kernel
  have hfits : ∀ n < 12,
      ((mixedRequests.take n).foldl KVStore.next .new).backend.currentRev < 2 ^ 63 := by
    decide +kernel
  have hall (n : Nat) :
      ((mixedRequests.take n).foldl KVStore.next .new).backend.currentRev < 2 ^ 63 := by
    by_cases hn : n < 12
    · exact hfits n hn
    · have hlen : mixedRequests.length ≤ n := Nat.le_of_lt (Nat.lt_of_lt_of_le (by decide)
        (Nat.not_lt.1 hn))
      rw [List.take_of_length_le hlen]
      exact hfits 11 (by decide)
  have hcalls : (serve MemoryBackend.answer StoreFront.handle .new .new mixedRequests).map
      (fun r => r.1.map fun x => x.2.length) = some [0, 5, 5, 7, 9, 5, 2, 6, 1, 1, 3] := by
    decide +kernel
  obtain ⟨out, f, b, d, hmem, hdb, -⟩ := backend_equivalence mixedRequests hvalid hall
  rw [hmem] at hcalls
  exact ⟨out, f, b, d, hmem, hdb, Option.some.inj hcalls⟩

end LinKV

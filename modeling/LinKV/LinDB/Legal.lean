import LinKV.LinDB.Simulation
import LinKV.Mvcc.Events
import LinKV.Mvcc.Programs

namespace LinKV
set_option autoImplicit true

open Calls

/-- A program on the memory backend that uses it as it should be used. -/
abbrev Served (b : MemoryBackend) (p : BackendProgram α) (a : α) (b' : MemoryBackend) : Prop :=
  Goes MemoryBackend.answer MemoryBackend.Legal b p a b'

/-- The program of a front does on the memory backend what the store does. -/
abbrev Realizes (f : StoreFront) (b : MemoryBackend) (p : BackendProgram (α × StoreFront))
    (out : KVStore × α) : Prop :=
  Served b p (out.2, f.after out.1) out.1.backend

section

variable {f : StoreFront} {b b' : MemoryBackend} {h : List Mutation} {key value : Bytes}
  {evs : List MvccEvent} {e : MvccEvent} {type : EventType} {deleted : Bool}

theorem Realizes.bind {p : BackendProgram (α × StoreFront)} {out : KVStore × α}
    {q : α × StoreFront → BackendProgram (β × StoreFront)} {out' : KVStore × β}
    (hp : Realizes f b p out)
    (hq : Realizes (f.after out.1) out.1.backend (q (out.2, f.after out.1)) out') :
    Realizes f b (p >>= q) out' :=
  Goes.bind hp hq

theorem Dated.concat (hd : Dated evs) (hlt : ∀ ev ∈ evs, ev.rev.main < e.rev.main)
    (hsub : e.rev.sub = 0) (hpos : 0 ≤ e.rev.main) : Dated (evs ++ [e]) := by
  refine ⟨?_, ?_, ?_⟩
  · rw [List.pairwise_append]
    refine ⟨hd.increasing, List.pairwise_singleton _ _, fun ev hev e' he' => ?_⟩
    rw [List.mem_singleton.1 he']
    exact hlt ev hev
  all_goals
    intro ev hev
    rcases List.mem_append.1 hev with hev | hev
  · exact hd.sub ev hev
  · rw [List.mem_singleton.1 hev]
    exact hsub
  · exact hd.nonneg ev hev
  · rw [List.mem_singleton.1 hev]
    exact hpos

theorem Dated.filter (hd : Dated evs) (p : MvccEvent → Bool) : Dated (evs.filter p) :=
  ⟨hd.increasing.filter p, fun ev hev => hd.sub ev (List.mem_filter.1 hev).1,
    fun ev hev => hd.nonneg ev (List.mem_filter.1 hev).1⟩

theorem Represents.dated (hr : Represents h b) : Dated b.events := by
  have hmem (ev : MvccEvent) (hev : ev ∈ b.events) : ev ∈ eventsOf h := by
    rw [hr.events] at hev
    exact (List.mem_filter.1 hev).1
  refine ⟨hr.recorded.sorted, fun ev hev => ?_, fun ev hev => ?_⟩
  · obtain ⟨i, hi, rfl⟩ := List.mem_iff_getElem.1 (hmem ev hev)
    simp only [eventsOf, List.getElem_mapIdx, stampEvent]
  · have := (rev_of_mem_eventsOf (hmem ev hev)).1
    omega

namespace StoreFront

theorem on_detachKey : (f.on b).detachKey key = (f.detachKey key).on b := by
  unfold StoreFront.detachKey KVStore.detachKey
  dsimp only [on]
  cases f.keyLease.lookup key with
  | none => rfl
  | some leaseID => rfl

theorem on_bindKeyToLease : (f.on b).bindKeyToLease key leaseID =
    (f.bindKeyToLease key leaseID).on b := by
  unfold StoreFront.bindKeyToLease KVStore.bindKeyToLease
  dsimp only [on]
  cases f.keyLease.lookup key with
  | none => rfl
  | some oldLeaseID =>
    dsimp only
    split <;> rfl

theorem on_checkLeases (now : Int) (ids : List Int) :
    (f.on b).checkLeases now ids = (f.on .new).checkLeases now ids := by
  induction ids with
  | nil => rfl
  | cons id ids ih =>
    rw [KVStore.checkLeases, KVStore.checkLeases, ih]
    rfl

/-- A mutation: the new version is the last of its key, and the new event the last of all. -/
theorem write_served (f : StoreFront) (hr : Represents h b) (hk : validUTF8 key = true)
    (hfit : b.currentRev + 1 < 2 ^ 63) :
    Served b (write type key value deleted) ((f.on b).write type key value deleted).2
      ((f.on b).write type key value deleted).1.backend := by
  have hcur : 0 ≤ b.currentRev := hr.currentRev ▸ Int.natCast_nonneg _
  have hne : b.versions key ++ [⟨⟨b.currentRev + 1, 0⟩, value, deleted⟩] ≠ [] :=
    List.append_ne_nil_of_right_ne_nil _ (List.cons_ne_nil _ _)
  have hinc : Increasing (b.versions key ++ [⟨⟨b.currentRev + 1, 0⟩, value, deleted⟩]) := by
    rw [Increasing, List.pairwise_append]
    refine ⟨hr.increasing key, List.pairwise_singleton _ _, fun v hv w hw => ?_⟩
    rw [List.mem_singleton.1 hw]
    exact Int.lt_add_one_of_le (hr.bounds hv).2
  have hdated : Dated (b.events ++ [⟨type, key, value, ⟨b.currentRev + 1, 0⟩⟩]) := by
    refine hr.dated.concat (fun ev hev => ?_) rfl (Int.add_nonneg hcur (by decide))
    exact Int.lt_add_one_of_le (hr.recorded.le_currentRev hev)
  have hframe :=
    MemoryBackend.setRevisions_frame { b with currentRev := b.currentRev + 1 } key _ hne
  refine .ask trivial rfl (.ask ⟨Int.add_nonneg hcur (by decide), hfit⟩ rfl (.ask trivial rfl
    (.ask ⟨hk, hne, hinc⟩ rfl (.ask ⟨?_, hk⟩ rfl .done))))
  exact hframe.1.symm ▸ hdated

theorem deleteLocked_realizes (hr : Represents h b) (hk : validUTF8 key = true)
    (hfit : b.currentRev + 1 < 2 ^ 63) :
    Realizes f b (f.deleteLocked key) ((f.on b).deleteLocked key) := by
  have hw : Served b (write .delete key [] true) ((f.on b).write .delete key [] true).2
      ((f.on b).write .delete key [] true).1.backend := write_served f hr hk hfit
  have hon : ((f.on b).deleteLocked key).1 =
      (f.detachKey key).on ((f.on b).write .delete key [] true).1.backend := on_detachKey
  rw [Realizes, hon]
  exact Goes.bind hw .done

theorem putLocked_served (f : StoreFront) (hr : Represents h b) (hk : validUTF8 key = true)
    (hfit : b.currentRev + 1 < 2 ^ 63) :
    Served b (putLocked key value) ((f.on b).putLocked key value).2
      ((f.on b).putLocked key value).1.backend :=
  write_served f hr hk hfit

theorem putLocked_bindKeyToLease : ((f.on b).putLocked key value).1.bindKeyToLease key leaseID =
    (f.bindKeyToLease key leaseID).on ((f.on b).putLocked key value).1.backend :=
  on_bindKeyToLease

theorem putLocked_detachKey : ((f.on b).putLocked key value).1.detachKey key =
    (f.detachKey key).on ((f.on b).putLocked key value).1.backend :=
  on_detachKey

theorem put_realizes (hr : Represents h b) (hk : validUTF8 key = true)
    (hfit : ((f.on b).put now key value leaseID).1.backend.currentRev < 2 ^ 63) :
    Realizes f b (f.put now key value leaseID) ((f.on b).put now key value leaseID) := by
  have hlast : ((f.on b).putLocked key value).1.backend.currentRev = b.currentRev + 1 :=
    KVStore.write_frame.1
  unfold StoreFront.put KVStore.put at *
  have hlookup : (f.on b).lookupLease now leaseID = (f.on .new).lookupLease now leaseID := rfl
  by_cases hid : leaseID ≠ 0
  · rw [if_pos hid, hlookup] at hfit
    rw [if_pos hid, if_pos hid, hlookup]
    revert hfit
    cases (f.on .new).lookupLease now leaseID with
    | error e => exact fun _ => .done
    | ok lease =>
      intro hfit
      dsimp only [KVStore.send] at hfit
      rw [bindKeyToLease_backend, hlast] at hfit
      dsimp only
      rw [Realizes, putLocked_bindKeyToLease]
      exact Goes.bind (putLocked_served f hr hk hfit) .done
  · rw [if_neg hid] at hfit
    rw [if_neg hid, if_neg hid]
    dsimp only [KVStore.send] at hfit
    rw [KVStore.detachKey_backend, hlast] at hfit
    dsimp only
    rw [Realizes, putLocked_detachKey]
    exact Goes.bind (putLocked_served f hr hk hfit) .done

theorem delete_realizes (hr : Represents h b) (hk : validUTF8 key = true)
    (hfit : ((f.on b).delete key).1.backend.currentRev < 2 ^ 63) :
    Realizes f b (f.delete key) ((f.on b).delete key) := by
  have hlast : ((f.on b).delete key).1.backend.currentRev = b.currentRev + 1 :=
    KVStore.deleteLocked_currentRev
  rw [hlast] at hfit
  exact Goes.bind (deleteLocked_realizes hr hk hfit) .done

theorem compare_served (f : StoreFront) (b : MemoryBackend) (ts : List Compare) :
    Served b (compare ts) (ts.all (f.on b).compareHolds) b := by
  have hholds (t : Compare) : (f.on b).compareHolds t = t.holds ((f.on b).latestRev t.key) := by
    unfold KVStore.compareHolds Compare.holds
    cases t.op <;> rfl
  induction ts with
  | nil => exact .done
  | cons t ts ih =>
    refine .ask trivial rfl ?_
    rw [List.all_cons, hholds]
    change Served b (if t.holds ((f.on b).latestRev t.key) = true then _ else _) _ b
    cases t.holds ((f.on b).latestRev t.key) with
    | true => exact ih
    | false => exact .done

theorem txnOp_realizes {op : Operation} (hr : Represents h b) (hk : validUTF8 op.key = true)
    (hfit : ((f.on b).txnOp op).1.backend.currentRev < 2 ^ 63) :
    Realizes f b (f.txnOp op) ((f.on b).txnOp op) := by
  have hlast : ((f.on b).putLocked op.key op.value).1.backend.currentRev = b.currentRev + 1 :=
    KVStore.write_frame.1
  unfold StoreFront.txnOp KVStore.txnOp at *
  revert hfit
  cases op.type with
  | get =>
    intro _
    refine .ask trivial rfl ?_
    have hget : (f.on b).backend.getRevisions op.key = b.getRevisions op.key := rfl
    dsimp only
    rw [hget]
    cases b.getRevisions op.key with
    | none => exact .done
    | some versions => exact .done
  | put =>
    intro hfit
    dsimp only at *
    by_cases hid : op.leaseID ≠ 0
    · rw [if_pos hid, bindKeyToLease_backend, hlast] at hfit
      rw [Realizes, if_pos hid, if_pos hid, putLocked_bindKeyToLease]
      exact Goes.bind (putLocked_served f hr hk hfit) .done
    · rw [if_neg hid, KVStore.detachKey_backend, hlast] at hfit
      rw [Realizes, if_neg hid, if_neg hid, putLocked_detachKey]
      exact Goes.bind (putLocked_served f hr hk hfit) .done
  | delete =>
    intro hfit
    dsimp only at *
    rw [KVStore.deleteLocked_currentRev] at hfit
    exact Goes.bind (deleteLocked_realizes hr hk hfit) .done
  | other type => exact fun _ => .done

theorem runOps_realizes {ops : List Operation} (hr : Represents h b)
    (hk : ∀ op ∈ ops, validUTF8 op.key = true)
    (hfit : ((f.on b).runOps ops).1.backend.currentRev < 2 ^ 63) :
    Realizes f b (f.runOps ops) ((f.on b).runOps ops) := by
  induction ops generalizing f b h with
  | nil => exact .done
  | cons op ops ih =>
    have hr' : Represents (h ++ op.mutation.toList) ((f.on b).txnOp op).1.backend := hr.txnOp op
    -- the revisions only grow
    have hfit' : ((f.on b).txnOp op).1.backend.currentRev < 2 ^ 63 := by
      have hend := (hr'.runOps ops).currentRev
      rw [List.length_append] at hend
      have hend' : ((f.on b).runOps (op :: ops)).1.backend.currentRev = _ := hend
      have := hr'.currentRev
      omega
    have hrest := ih (f := f.after ((f.on b).txnOp op).1) hr'
      (fun op' hop => hk op' (List.mem_cons_of_mem op hop)) hfit
    exact (txnOp_realizes hr (hk op List.mem_cons_self) hfit').bind (Realizes.bind hrest .done)

theorem txn_realizes {t : Txn} (hr : Represents h b)
    (hk : ∀ op ∈ t.thenOps ++ t.elseOps, validUTF8 op.key = true)
    (hfit : ((f.on b).txn now t).1.backend.currentRev < 2 ^ 63) :
    Realizes f b (f.txn now t) ((f.on b).txn now t) := by
  refine Goes.bind (compare_served f b t.compares) ?_
  have hops : (if t.compares.all (f.on b).compareHolds = true then t.thenOps else t.elseOps) =
      (f.on b).txnOps t := rfl
  have hk' : ∀ op ∈ (f.on b).txnOps t, validUTF8 op.key = true := fun op hop =>
    hk op (KVStore.mem_of_mem_txnOps hop)
  unfold KVStore.txn at *
  dsimp only
  rw [hops, ← on_checkLeases (b := b)]
  revert hfit
  cases (f.on b).checkLeases now (KVStore.leaseIDs ((f.on b).txnOps t)) with
  | error e => exact fun _ => .done
  | ok u => exact fun hfit => Goes.bind (runOps_realizes hr hk' hfit) .done

theorem deleteAll_realizes {keys : List Bytes} (hr : Represents h b)
    (hk : ∀ key ∈ keys, validUTF8 key = true)
    (hfit : ((f.on b).deleteAll keys).1.backend.currentRev < 2 ^ 63) :
    Realizes f b (f.deleteAll keys) ((f.on b).deleteAll keys) := by
  induction keys generalizing f b h with
  | nil => exact .done
  | cons key keys ih =>
    have hr' : Represents (h ++ [(key, none)]) ((f.on b).deleteLocked key).1.backend :=
      hr.deleteLocked key
    have hfit' : b.currentRev + 1 < 2 ^ 63 := by
      have hend := (hr'.deleteAll keys).currentRev
      rw [List.length_append, List.length_append, List.length_singleton] at hend
      have hend' : ((f.on b).deleteAll (key :: keys)).1.backend.currentRev = _ := hend
      have := hr.currentRev
      omega
    have hrest := ih (f := f.after ((f.on b).deleteLocked key).1) hr'
      (fun key' hkey => hk key' (List.mem_cons_of_mem key hkey)) hfit
    exact (deleteLocked_realizes hr (hk key List.mem_cons_self) hfit').bind
      (Realizes.bind hrest .done)

theorem leaseRevoke_realizes {ranging : Ranging Bytes} {keys : List Bytes} (hr : Represents h b)
    (hkeys : keys = ranging.order ((f.on b).leaseKeys leaseID))
    (hk : ∀ key ∈ (f.on b).leaseKeys leaseID, validUTF8 key = true)
    (hfit : ((f.on b).leaseRevoke leaseID keys).1.backend.currentRev < 2 ^ 63) :
    Realizes f b (f.leaseRevoke leaseID ranging) ((f.on b).leaseRevoke leaseID keys) := by
  have hleases : (f.on b).leases.lookup leaseID = f.leases.lookup leaseID := rfl
  unfold StoreFront.leaseRevoke KVStore.leaseRevoke at *
  rw [KVStore.leaseKeys, hleases] at hk hkeys
  rw [hleases] at hfit ⊢
  revert hfit
  cases hl : f.leases.lookup leaseID with
  | none => exact fun _ => .done
  | some lease =>
    intro hfit
    rw [hl, Option.map_some, Option.getD_some] at hk hkeys
    subst hkeys
    have hk' : ∀ key ∈ ranging.order lease.keys, validUTF8 key = true := fun key hkey =>
      hk key ((ranging.fair lease.keys).mem.1 hkey)
    have hdel := deleteAll_realizes (f := { f with leases := f.leases.erase leaseID }) hr hk' hfit
    exact Goes.bind hdel .done

theorem rewriteCompactedHistory_served {versions : List ValueRevision}
    (hk : validUTF8 key = true) (hs : Increasing versions) (hne : versions ≠ []) (rev : Int) :
    Served b (rewriteCompactedHistory key versions (firstRevisionAfter versions rev)) ()
      (b.rewriteCompactedHistory key versions (firstRevisionAfter versions rev)) := by
  have hlt := firstRevisionAfter_lt hs hne rev
  have hpos := List.length_pos_iff.2 hne
  unfold rewriteCompactedHistory MemoryBackend.rewriteCompactedHistory
  generalize firstRevisionAfter versions rev = firstAfter at hlt
  by_cases hzero : firstAfter = 0
  · rw [if_pos hzero, if_pos hzero]
    exact .done
  · rw [if_neg hzero, if_neg hzero]
    refine .call ⟨hk, ?_, hs.drop⟩ rfl .done
    rw [ne_eq, List.drop_eq_nil_iff]
    split <;> omega

theorem compactKeys_served {rev : Int} {keys : List Bytes}
    (hk : ∀ key ∈ keys, validUTF8 key = true) (hs : ∀ k, Increasing (b.versions k)) :
    Served b (compactKeys rev keys) () (keys.foldl (fun b key => b.compactKey rev key) b) := by
  induction keys generalizing b with
  | nil => exact .done
  | cons key keys ih =>
    have hspec := MemoryBackend.compactKey_spec (hs key) rev
    have hrest := ih (fun key' hkey => hk key' (List.mem_cons_of_mem key hkey))
      (hspec.increasing hs)
    rw [List.foldl_cons]
    refine .ask trivial rfl ?_
    unfold MemoryBackend.compactKey at hrest ⊢
    cases hg : b.getRevisions key with
    | none =>
      rw [hg] at hrest
      exact hrest
    | some versions =>
      rw [hg] at hrest
      dsimp only at hrest ⊢
      have hinc : Increasing versions.list :=
        MemoryBackend.getRevisions_eq_some hg ▸ hs key
      by_cases hlen : versions.list.length ≤ 1
      · rw [if_pos hlen] at hrest ⊢
        rw [if_pos hlen]
        exact hrest
      · rw [if_neg hlen] at hrest ⊢
        rw [if_neg hlen]
        exact Goes.bind (rewriteCompactedHistory_served (hk key List.mem_cons_self) hinc
          versions.ne_nil rev) hrest

theorem valid_of_mem_data (hr : Represents h b) (hv : ∀ m ∈ h, validUTF8 m.1 = true)
    (hk : key ∈ b.data) : validUTF8 key = true := by
  obtain ⟨v, hmem⟩ := List.exists_mem_of_ne_nil _ (MemoryBackend.mem_data_iff.1 hk)
  obtain ⟨i, -, m, hm, -⟩ := hr.mem_versions hmem
  exact hv (key, m) (List.mem_of_getElem? hm)

theorem valid_of_mem_events (hr : Represents h b) (hv : ∀ m ∈ h, validUTF8 m.1 = true)
    (he : e ∈ b.events) : validUTF8 e.key = true := by
  rw [hr.events] at he
  obtain ⟨i, hi, rfl⟩ := List.mem_iff_getElem.1 (List.mem_filter.1 he).1
  simp only [eventsOf, List.getElem_mapIdx, stampEvent]
  exact hv _ (List.getElem_mem _)

theorem compact_served (f : StoreFront) (hr : Represents h b)
    (hv : ∀ m ∈ h, validUTF8 m.1 = true) (hfit : b.currentRev < 2 ^ 63) (rev : Int) :
    Served b (compact rev) ((f.on b).compact rev).2 ((f.on b).compact rev).1.backend := by
  refine .ask trivial rfl (.ask trivial rfl ?_)
  unfold KVStore.compact
  have hcompact : (f.on b).backend = b := rfl
  rw [hcompact]
  by_cases hrev : rev ≤ b.compactRev ∨ b.currentRev < rev
  · rw [if_pos hrev, if_pos hrev]
    exact .done
  · rw [if_neg hrev, if_neg hrev]
    have hkeys : ∀ key ∈ b.rangeKeys [] [], validUTF8 key = true := by
      intro key hkey
      have hmem := ((MemoryBackend.mem_rangeKeys hr.sorted _ _).1 hkey).1
      exact valid_of_mem_data hr hv ((hr.mem key).1 hmem)
    have hspec := MemoryBackend.compactKeys_spec hr.increasing rev (b.rangeKeys [] [])
    have hdated := hr.dated.filter fun ev => rev < ev.rev.main
    have hvalid : ∀ ev ∈ b.events.filter (fun ev => rev < ev.rev.main),
        validUTF8 ev.key = true := fun ev hev => valid_of_mem_events hr hv (List.mem_filter.1 hev).1
    rw [← hspec.events] at hdated hvalid
    have hnonneg := hr.compact_nonneg
    refine .ask trivial rfl (Goes.bind (compactKeys_served hkeys hr.increasing)
      (.ask trivial rfl (.ask ⟨hdated, hvalid⟩ rfl (.ask ⟨?_, ?_⟩ rfl .done))))
    · omega
    · omega

theorem atRev_served (b : MemoryBackend) (rev : Int) :
    Served b (atRev rev) (if rev = 0 then b.currentRev else rev) b := by
  unfold atRev
  split
  · exact .call trivial rfl .done
  · exact .done

theorem get_served (f : StoreFront) (b : MemoryBackend) (key : Bytes) (rev : Int) :
    Served b (get key rev) ((f.on b).get key rev) b := by
  have hb : (f.on b).backend = b := rfl
  unfold KVStore.get
  rw [hb]
  refine .ask trivial rfl ?_
  cases b.getRevisions key with
  | none => exact .done
  | some versions =>
    refine .ask trivial rfl ?_
    dsimp only
    by_cases hcomp : rev ≠ 0 ∧ rev ≤ b.compactRev
    · rw [if_pos hcomp, if_pos hcomp]
      exact .done
    · rw [if_neg hcomp, if_neg hcomp]
      refine Goes.bind (atRev_served b rev) ?_
      generalize (if rev = 0 then b.currentRev else rev) = r
      unfold latestVisibleRevision
      cases visibleFrom versions.list r versions.list.length 0 versions.list.length none with
      | none => exact .ask trivial rfl .done
      | some v =>
        dsimp only
        cases v.deleted with
        | true => exact .done
        | false => exact .done

theorem visibleKeys_served (b : MemoryBackend) (startKey endKey : Bytes) (rev : Int)
    (keys : List Bytes) : Served b (visibleKeys startKey endKey rev keys)
      (keys.filterMap fun key =>
        if ¬ key < startKey ∧ key < endKey then
          match b.getRevisions key with
          | none => none
          | some versions =>
            (latestVisibleRevision versions.list rev).map fun v => ⟨key, v.value, v.rev⟩
        else none) b := by
  induction keys with
  | nil => exact .done
  | cons key keys ih =>
    rw [List.filterMap_cons]
    unfold visibleKeys
    by_cases hin : ¬ key < startKey ∧ key < endKey
    · rw [if_pos hin, if_pos hin]
      refine .ask trivial rfl ?_
      cases b.getRevisions key with
      | none => exact ih
      | some versions =>
        refine Goes.bind ih ?_
        dsimp only
        cases latestVisibleRevision versions.list rev with
        | none => exact .done
        | some v => exact .done
    · rw [if_neg hin, if_neg hin]
      exact ih

theorem range_served (f : StoreFront) (b : MemoryBackend) (startKey endKey : Bytes) (rev : Int) :
    Served b (range startKey endKey rev) ((f.on b).range startKey endKey rev) b := by
  have hb : (f.on b).backend = b := rfl
  unfold KVStore.range
  rw [hb]
  refine Goes.bind (atRev_served b rev) (.ask trivial rfl ?_)
  dsimp only
  generalize (if rev = 0 then b.currentRev else rev) = r
  by_cases hcomp : r ≤ b.compactRev
  · rw [if_pos hcomp, if_pos hcomp]
    exact .done
  · rw [if_neg hcomp, if_neg hcomp]
    exact .ask trivial rfl (visibleKeys_served b startKey endKey r _)

theorem watch_served (f : StoreFront) (b : MemoryBackend) (key : Bytes) (fromRev : Int)
    (isPrefix : Bool) : ∃ f', Served b (f.watch key fromRev isPrefix)
      (if fromRev ≤ b.compactRev then .error .compacted
        else .ok (f.nextWatcherID, .new b.events key fromRev isPrefix), f') b ∧
      f'.on b = f.on b := by
  unfold StoreFront.watch
  by_cases hrev : fromRev ≤ b.compactRev
  · refine ⟨f, .ask trivial rfl ?_, rfl⟩
    rw [if_pos hrev, if_pos hrev]
    exact .done
  · refine ⟨{ f with nextWatcherID := f.nextWatcherID + 1 }, .ask trivial rfl ?_, rfl⟩
    rw [if_neg hrev, if_neg hrev]
    exact .ask trivial rfl .done

theorem snapshot_served (f : StoreFront) (b : MemoryBackend) (ranging : Ranging Int) :
    Served b (f.snapshot ranging) ((f.on b).snapshot (ranging.order f.leases.keys)) b :=
  .ask trivial rfl .done

theorem restore_served {t : KVStore} {order : List Int} (f : StoreFront) (b : MemoryBackend)
    (hr : Represents h t.backend) (hv : ∀ m ∈ h, validUTF8 m.1 = true)
    (hfit : t.backend.currentRev < 2 ^ 63 ∨ (t.snapshot order).accepted = false) :
    Served b (f.restore (t.snapshot order)) (f.after ((f.on b).restore (t.snapshot order)))
      ((f.on b).restore (t.snapshot order)).backend := by
  unfold StoreFront.restore KVStore.restore
  cases hacc : (t.snapshot order).accepted with
  | false => exact .done
  | true =>
    have hfit := hfit.resolve_right (hacc ▸ Bool.noConfusion)
    have hev : (t.snapshot order).events = t.backend.events := hr.events_sorted.insertionSort_eq
    have hdata : restoreData (t.snapshot order).entries = t.backend.data :=
      restoreData_snapshot hr.increasing order
    have hcur : 0 ≤ t.backend.currentRev := hr.currentRev ▸ Int.natCast_nonneg _
    have hle := hr.compact_le
    refine .ask ⟨?_, hev ▸ hr.dated, ?_, ⟨hcur, hfit⟩, hr.compact_nonneg,
      Int.lt_of_le_of_lt hle hfit⟩ rfl .done
    · intro key revisions hl
      dsimp only at hl
      rw [hdata] at hl
      refine ⟨valid_of_mem_data hr hv (Finmap.mem_iff.2 ⟨revisions, hl⟩), ?_⟩
      exact MemoryBackend.getRevisions_eq_some hl ▸ hr.increasing key
    · intro ev hmem
      dsimp only at hmem
      rw [hev] at hmem
      exact valid_of_mem_events hr hv hmem

end StoreFront

end

end LinKV

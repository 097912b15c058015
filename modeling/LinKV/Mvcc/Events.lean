import LinKV.Mvcc.Reachable

namespace LinKV
set_option autoImplicit true

section

variable {h : List Mutation} {s s' : KVStore} {key value : Bytes}

theorem eventsOf_putLocked (hr : Represents h s.backend) (key value : Bytes) :
    eventsOf (h ++ [(key, some value)]) = eventsOf h ++ [(s.putLocked key value).2] := by
  rw [eventsOf_concat, ← hr.currentRev]
  rfl

theorem eventsOf_deleteLocked (hr : Represents h s.backend) (key : Bytes) :
    eventsOf (h ++ [(key, none)]) = eventsOf h ++ [(s.deleteLocked key).2] := by
  rw [eventsOf_concat, ← hr.currentRev]
  rfl

theorem eventsOf_deleteAll (hr : Represents h s.backend) (keys : List Bytes) :
    eventsOf (h ++ keys.map (·, none)) = eventsOf h ++ (s.deleteAll keys).2 := by
  induction keys generalizing s h with
  | nil => rw [List.map_nil, List.append_nil, KVStore.deleteAll, List.append_nil]
  | cons key keys ih =>
    have hrest := ih (hr.deleteLocked key)
    rwa [eventsOf_deleteLocked hr, List.append_assoc, List.append_assoc] at hrest

theorem eventsOf_txnOp (hr : Represents h s.backend) (op : Operation) :
    eventsOf (h ++ op.mutation.toList) = eventsOf h ++ (s.txnOp op).2.2 := by
  unfold KVStore.txnOp Operation.mutation
  cases op.type with
  | get =>
    dsimp only
    rw [Option.toList_none, List.append_nil]
    split <;> rw [List.append_nil]
  | put => exact eventsOf_putLocked hr op.key op.value
  | delete => exact eventsOf_deleteLocked hr op.key
  | other type => rw [Option.toList_none, List.append_nil, List.append_nil]

theorem eventsOf_runOps (hr : Represents h s.backend) (ops : List Operation) :
    eventsOf (h ++ ops.filterMap Operation.mutation) = eventsOf h ++ (s.runOps ops).2.2 := by
  induction ops generalizing s h with
  | nil => rw [List.filterMap_nil, List.append_nil, KVStore.runOps, List.append_nil]
  | cons op ops ih =>
    have hrest := ih (hr.txnOp op)
    have hcons : (op :: ops).filterMap Operation.mutation =
        op.mutation.toList ++ ops.filterMap Operation.mutation := by
      rw [List.filterMap_cons]
      cases op.mutation <;> rfl
    rwa [eventsOf_txnOp hr, List.append_assoc, List.append_assoc, ← hcons] at hrest

theorem KVStore.Edits.eventCh (h : KVStore.Edits P s s') : s'.eventCh = s.eventCh :=
  h.keeps fun hedit => by cases hedit <;> rfl

theorem KVStore.Edits.compactRev (h : KVStore.Edits P s s') :
    s'.backend.compactRev = s.backend.compactRev := by
  apply h.keeps
  intro t t' hedit
  cases hedit with
  | write => exact write_compactRev
  | removeLeaseKey | addLeaseKey | keyLease => rfl

theorem apply_eventCh (hr : Represents h s.backend) (hs : s.apply op = some s') :
    ∃ evs, s'.eventCh = s.eventCh ++ evs ∧
      eventsOf (h ++ s.mutations op) = eventsOf h ++ evs := by
  have hnone : ∃ evs, s.eventCh = s.eventCh ++ evs ∧ eventsOf (h ++ []) = eventsOf h ++ evs :=
    ⟨[], (List.append_nil _).symm, by rw [List.append_nil, List.append_nil]⟩
  have hsent {t : KVStore} {m : List Mutation} {evs : List MvccEvent}
      (ht : KVStore.Edits (fun _ => True) s t) (hev : eventsOf (h ++ m) = eventsOf h ++ evs) :
      ∃ evs', (t.send evs).eventCh = s.eventCh ++ evs' ∧ eventsOf (h ++ m) = eventsOf h ++ evs' :=
    ⟨evs, congrArg (· ++ evs) ht.eventCh, hev⟩
  cases op with
  | put now key value leaseID =>
    obtain rfl := Option.some.inj hs
    unfold KVStore.mutations KVStore.put
    dsimp only
    split
    · cases s.lookupLease now leaseID with
      | error e => exact hnone
      | ok lease =>
        have hbind : KVStore.Edits (fun _ => True) (s.putLocked key value).1
            ((s.putLocked key value).1.bindKeyToLease key leaseID) :=
          KVStore.bindKeyToLease_edits trivial
        exact hsent (.head .write hbind) (eventsOf_putLocked hr key value)
    · exact hsent (.head .write (KVStore.detachKey_edits key)) (eventsOf_putLocked hr key value)
  | delete key =>
    obtain rfl := Option.some.inj hs
    exact hsent (KVStore.deleteLocked_edits key) (eventsOf_deleteLocked hr key)
  | txn now t =>
    obtain rfl := Option.some.inj hs
    unfold KVStore.mutations KVStore.txn
    dsimp only
    cases s.checkLeases now (KVStore.leaseIDs (s.txnOps t)) with
    | error e => exact hnone
    | ok u => exact hsent (KVStore.runOps_edits fun _ _ => trivial) (eventsOf_runOps hr _)
  | leaseGrant now ttl =>
    obtain rfl := Option.some.inj hs
    exact hnone
  | leaseKeepAlive now leaseID =>
    obtain rfl := Option.some.inj hs
    rw [KVStore.leaseKeepAlive]
    split <;> exact hnone
  | leaseRevoke leaseID keys =>
    rw [KVStore.apply] at hs
    split at hs
    · obtain rfl := Option.some.inj hs
      unfold KVStore.mutations KVStore.leaseRevoke
      dsimp only
      cases s.leases.lookup leaseID with
      | none => exact hnone
      | some lease =>
        have hr' : Represents h { s with leases := s.leases.erase leaseID }.backend := hr
        have hdel : KVStore.Edits (fun _ => True) { s with leases := s.leases.erase leaseID }
            ({ s with leases := s.leases.erase leaseID }.deleteAll keys).1 :=
          KVStore.deleteAll_edits keys
        exact ⟨_, congrArg (· ++ _) hdel.eventCh, eventsOf_deleteAll hr' keys⟩
    · cases hs
  | compact rev =>
    obtain rfl := Option.some.inj hs
    rw [KVStore.compact]
    split <;> exact hnone

theorem apply_compactRev_eq (hs : s.apply op = some s') (hop : ∀ rev, op ≠ .compact rev) :
    s'.backend.compactRev = s.backend.compactRev := by
  cases op with
  | put now key value leaseID =>
    obtain rfl := Option.some.inj hs
    unfold KVStore.put
    split
    · split
      · rfl
      · exact (KVStore.Edits.compactRev (P := fun _ => True)
          (.head .write (KVStore.bindKeyToLease_edits trivial)) :)
    · exact (KVStore.Edits.compactRev (P := fun _ => True)
        (.head .write (KVStore.detachKey_edits key)) :)
  | delete key =>
    obtain rfl := Option.some.inj hs
    exact (KVStore.deleteLocked_edits (P := fun _ => True) key).compactRev
  | txn now t =>
    obtain rfl := Option.some.inj hs
    unfold KVStore.txn
    split
    · rfl
    · exact (KVStore.runOps_edits (P := fun _ => True) fun _ _ => trivial).compactRev
  | leaseGrant => exact Option.some.inj hs ▸ rfl
  | leaseKeepAlive now leaseID =>
    obtain rfl := Option.some.inj hs
    unfold KVStore.leaseKeepAlive
    split <;> rfl
  | leaseRevoke leaseID keys =>
    rw [KVStore.apply] at hs
    split at hs
    · obtain rfl := Option.some.inj hs
      unfold KVStore.leaseRevoke
      split
      · rfl
      · exact (KVStore.deleteAll_edits (P := fun _ => True) keys).compactRev
    · cases hs
  | compact rev => exact absurd rfl (hop rev)

theorem apply_compactRev (hs : s.apply op = some s') :
    s.backend.compactRev ≤ s'.backend.compactRev := by
  by_cases hop : ∃ rev, op = .compact rev
  · obtain ⟨rev, rfl⟩ := hop
    obtain rfl := Option.some.inj hs
    rw [KVStore.compact]
    split
    · exact Int.le_refl _
    · rename_i hrev
      exact Int.le_of_lt (Int.not_le.1 (not_or.1 hrev).1)
  · exact Int.le_of_eq (apply_compactRev_eq hs fun rev he => hop ⟨rev, he⟩).symm

end

/-- The events of a store from the revision on from which they have been seen. -/
def Recorded (evs : List MvccEvent) (b : MemoryBackend) : Prop :=
  ∃ h c, Represents h b ∧ c ≤ b.compactRev ∧
    evs = (eventsOf h).filter fun ev => c < ev.rev.main

section

variable {evs : List MvccEvent} {b : MemoryBackend} {s s' t : KVStore}

theorem Represents.recorded (hr : Represents h b) : Recorded b.events b :=
  ⟨h, b.compactRev, hr, Int.le_refl _, hr.events⟩

theorem Recorded.sorted (hr : Recorded evs b) :
    evs.Pairwise fun v w => v.rev.main < w.rev.main := by
  obtain ⟨h, c, -, -, rfl⟩ := hr
  exact (eventsOf_pairwise h).filter _

theorem eventsOf_append (h m : List Mutation) : eventsOf (h ++ m) =
    eventsOf h ++ m.mapIdx fun i x => stampEvent (((i + h.length : Nat) : Int) + 1) x :=
  List.mapIdx_append

theorem rev_of_mem_eventsOf (hev : ev ∈ eventsOf h) :
    1 ≤ ev.rev.main ∧ ev.rev.main ≤ h.length := by
  obtain ⟨i, hi, rfl⟩ := List.mem_iff_getElem.1 hev
  rw [eventsOf, List.length_mapIdx] at hi
  simp only [eventsOf, List.getElem_mapIdx, stampEvent]
  omega

theorem Recorded.le_currentRev (hr : Recorded evs b) (hev : ev ∈ evs) :
    ev.rev.main ≤ b.currentRev := by
  obtain ⟨h, c, hrep, -, rfl⟩ := hr
  rw [hrep.currentRev]
  exact (rev_of_mem_eventsOf (List.mem_filter.1 hev).1).2

theorem Recorded.events (hr : Recorded evs b) :
    b.events = evs.filter fun ev => b.compactRev < ev.rev.main := by
  obtain ⟨h, c, hrep, hc, rfl⟩ := hr
  rw [hrep.events, List.filter_filter]
  congr 1
  funext ev
  rw [Bool.eq_iff_iff, Bool.and_eq_true, decide_eq_true_eq, decide_eq_true_eq]
  omega

/-- New events come after all there are. -/
theorem Recorded.apply (hr : Recorded evs s.backend)
    (hs : { s with eventCh := [] }.apply op = some s') :
    Recorded (evs ++ s'.eventCh) s'.backend := by
  obtain ⟨h, c, hrep, hc, rfl⟩ := hr
  have hrep' : Represents h { s with eventCh := [] }.backend := hrep
  obtain ⟨new, hch, hnew⟩ := apply_eventCh hrep' hs
  have hch : s'.eventCh = new := hch
  have hafter (ev : MvccEvent) (hev : ev ∈ new) : s.backend.currentRev < ev.rev.main := by
    rw [eventsOf_append] at hnew
    rw [← List.append_cancel_left hnew] at hev
    obtain ⟨i, hi, rfl⟩ := List.mem_iff_getElem.1 hev
    rw [List.getElem_mapIdx, hrep.currentRev]
    change (h.length : Int) < ((i + h.length : Nat) : Int) + 1
    omega
  have hcur := hrep.compact_le
  have hcompact := apply_compactRev hs
  refine ⟨_, c, hrep'.apply hs, Int.le_trans hc hcompact, ?_⟩
  rw [hnew, List.filter_append, hch]
  congr 1
  refine (List.filter_eq_self.2 fun ev hev => decide_eq_true ?_).symm
  have hlt := hafter ev hev
  omega

theorem Recorded.restore (hr : Recorded evs s.backend) (ht : t.Reachable) (order : List Int) :
    Recorded (if (t.snapshot order).accepted then (t.snapshot order).events else evs)
      (s.restore (t.snapshot order)).backend := by
  obtain ⟨-, h, hrep⟩ := ht.represents
  rcases restore_cases hrep s order with ⟨hnot, he⟩ | ⟨hc, he⟩
  · rw [he, if_neg (mt (accepted_iff hrep order).1 hnot)]
    exact hr
  · have hev : (t.snapshot order).events = t.backend.events :=
      hrep.events_sorted.insertionSort_eq
    rw [he, if_pos ((accepted_iff hrep order).2 hc), hev]
    exact (KVStore.represents_restored hrep).recorded

end

end LinKV

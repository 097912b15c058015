import LinKV.Machine.Lockstep
import LinKV.Mvcc.Akin
import LinKV.Mvcc.Events
import LinKV.Mvcc.Programs

namespace LinKV
set_option autoImplicit true

open Versioned

def StoreRequest.mutates : StoreRequest → Bool
  | .put .. | .delete _ | .txn .. | .leaseGrant .. | .leaseKeepAlive .. | .leaseRevoke .. => true
  | _ => false

namespace KVStore

variable {s t : KVStore} {q r : List MvccEvent}

theorem Akin.get (h : s.Akin q r t) (hs : rev = 0 ∨ s.backend.compactRev < rev)
    (ht : rev = 0 ∨ t.backend.compactRev < rev) (key : Bytes) : s.get key rev = t.get key rev := by
  obtain ⟨hist, hrs, hrt⟩ := h.history
  have hlatest : (s.backend.versions key = [] ↔ t.backend.versions key = []) ∧
      latest (fun v => v.rev.main) (if rev = 0 then s.backend.currentRev else rev)
        (s.backend.versions key) =
      latest (fun v => v.rev.main) (if rev = 0 then s.backend.currentRev else rev)
        (t.backend.versions key) := by
    have hcur := h.currentRev
    have hcs := hrs.compact_le
    have hct := hrt.compact_le
    rw [hrs.versions_eq, hrt.versions_eq, retain_eq_nil, retain_eq_nil,
      latest_retain (by split <;> omega), latest_retain (by split <;> omega)]
    exact ⟨Iff.rfl, rfl⟩
  have hincs := hrs.increasing key
  have hinct := hrt.increasing key
  unfold KVStore.get
  cases hgs : s.backend.getRevisions key with
  | none =>
    cases hgt : t.backend.getRevisions key with
    | none => rfl
    | some w =>
      rw [MemoryBackend.versions, hgs, MemoryBackend.getRevisions_eq_some hgt] at hlatest
      exact absurd (hlatest.1.1 rfl) w.ne_nil
  | some v =>
    cases hgt : t.backend.getRevisions key with
    | none =>
      rw [MemoryBackend.getRevisions_eq_some hgs, MemoryBackend.versions, hgt] at hlatest
      exact absurd (hlatest.1.2 rfl) v.ne_nil
    | some w =>
      rw [MemoryBackend.getRevisions_eq_some hgs] at hincs hlatest
      rw [MemoryBackend.getRevisions_eq_some hgt] at hinct hlatest
      have hs' : ¬ (rev ≠ 0 ∧ rev ≤ s.backend.compactRev) := by omega
      have ht' : ¬ (rev ≠ 0 ∧ rev ≤ t.backend.compactRev) := by omega
      simp only [if_neg hs', if_neg ht', ← h.currentRev, latestVisibleRevision_eq hincs,
        latestVisibleRevision_eq hinct, hlatest.2]

/-- A request that changes keys or leases is answered alike. -/
theorem Akin.handle (h : s.Akin q r t) (hm : req.mutates = true) :
    AkinOut q r (s.handle 0 req) (t.handle 0 req) := by
  cases req with
  | put now key value leaseID =>
    obtain ⟨hs, ho⟩ := h.put now key value leaseID
    exact ⟨hs, congrArg StoreResponse.put ho⟩
  | delete key =>
    obtain ⟨hs, ho⟩ := h.delete key
    exact ⟨hs, congrArg StoreResponse.delete ho⟩
  | txn now txn =>
    obtain ⟨hs, ho⟩ := h.txn now txn
    exact ⟨hs, congrArg StoreResponse.txn ho⟩
  | leaseGrant now ttl =>
    obtain ⟨hs, ho⟩ := h.leaseGrant now ttl
    exact ⟨hs, congrArg StoreResponse.leaseGrant ho⟩
  | leaseKeepAlive now leaseID =>
    obtain ⟨hs, ho⟩ := h.leaseKeepAlive now leaseID
    exact ⟨hs, congrArg StoreResponse.leaseKeepAlive ho⟩
  | leaseRevoke leaseID ranging =>
    have hkeys : s.leaseKeys leaseID = t.leaseKeys leaseID := by
      rw [KVStore.leaseKeys, KVStore.leaseKeys, h.leases]
    obtain ⟨hs, ho⟩ := h.leaseRevoke leaseID (ranging.order (t.leaseKeys leaseID))
    simp only [KVStore.handle, hkeys]
    exact ⟨hs, congrArg StoreResponse.leaseRevoke ho⟩
  | _ => cases hm

theorem handle_op (s : KVStore) (hm : req.mutates = true) :
    ∃ op, s.apply op = some (s.handle 0 req).1 ∧ ∀ rev, op ≠ .compact rev := by
  cases req with
  | put now key value leaseID => exact ⟨.put now key value leaseID, rfl, nofun⟩
  | delete key => exact ⟨.delete key, rfl, nofun⟩
  | txn now txn => exact ⟨.txn now txn, rfl, nofun⟩
  | leaseGrant now ttl => exact ⟨.leaseGrant now ttl, rfl, nofun⟩
  | leaseKeepAlive now leaseID => exact ⟨.leaseKeepAlive now leaseID, rfl, nofun⟩
  | leaseRevoke leaseID ranging =>
    exact ⟨.leaseRevoke leaseID _, if_pos (ranging.fair _), nofun⟩
  | _ => cases hm

theorem handle_compactRev (s : KVStore) (hm : req.mutates = true) :
    (s.handle 0 req).1.backend.compactRev = s.backend.compactRev := by
  obtain ⟨op, hop, hne⟩ := s.handle_op hm
  exact apply_compactRev_eq hop hne

theorem run_compactRev (hall : ∀ req ∈ reqs, req.mutates = true) :
    (Machine.run (fun s => KVStore.handle s 0) s reqs).1.backend.compactRev =
      s.backend.compactRev := by
  induction reqs generalizing s with
  | nil => rfl
  | cons req reqs ih =>
    have hreq := hall req List.mem_cons_self
    exact (ih fun x hx => hall x (List.mem_cons_of_mem req hx)).trans (s.handle_compactRev hreq)

theorem compact_compactRev (hlo : s.backend.compactRev < rev) (hhi : rev ≤ s.backend.currentRev) :
    (s.compact rev).1.backend.compactRev = rev := by
  rw [KVStore.compact, if_neg (by omega)]

end KVStore

/-- A store that is compacted again and again is the one that never was, compacted once in the
end. Compaction changes no answer to a request that changes keys or leases, and no read of a
revision above the compacted one. -/
theorem compaction_transparent {reqs : List StoreRequest}
    (hreqs : ∀ req ∈ reqs, req.mutates = true ∨ ∃ rev, req = .compact rev) :
    let s := (Machine.run (fun s => KVStore.handle s 0) .new reqs).1
    let plain := Machine.run (fun s => KVStore.handle s 0) .new (reqs.filter StoreRequest.mutates)
    s = (plain.1.compact s.backend.compactRev).1 ∧
    Machine.outputs (fun s => KVStore.handle s 0) StoreRequest.mutates .new reqs = plain.2 ∧
    ∀ key rev, rev = 0 ∨ s.backend.compactRev < rev → s.get key rev = plain.1.get key rev := by
  intro s plain
  have hnew : KVStore.new.Akin [] [] .new := KVStore.Akin.refl (s := .new) represents_new
  have hhidden : ∀ req ∈ reqs, req.mutates = false → ∀ s t, KVStore.Akin [] [] s t →
      KVStore.Akin [] [] (s.handle 0 req).1 t := by
    intro req hreq hm s t h
    obtain hm' | ⟨rev, rfl⟩ := hreqs req hreq
    · rw [hm] at hm'
      cases hm'
    · exact h.compact rev
  obtain ⟨hakin, houts⟩ : s.Akin [] [] plain.1 ∧ _ :=
    Machine.run_filter hnew (fun req _ hm s t h => h.handle hm) hhidden
  have hplain : plain.1.backend.compactRev = 0 :=
    KVStore.run_compactRev (s := .new) fun req hreq => (List.mem_filter.1 hreq).2
  obtain ⟨hist, hrs, hrt⟩ := hakin.history
  refine ⟨?_, houts, fun key rev hrev => hakin.get hrev ?_ key⟩
  · apply (hakin.symm.compact s.backend.compactRev).symm.eq
    rcases Int.lt_or_eq_of_le hrs.compact_nonneg with hpos | hzero
    · rw [KVStore.compact_compactRev (by omega) (hakin.currentRev ▸ hrs.compact_le)]
    · rw [KVStore.compact, if_pos (.inl (by omega)), hplain, hzero]
  · have := hrs.compact_nonneg
    omega

/-- A key is put, deleted and put again, with a compaction before and one after the last put. -/
theorem compaction_transparent_twice :
    let reqs : List StoreRequest :=
      [.put 0 [1] [5] 0, .delete [1], .compact 1, .put 0 [1] [6] 0,
        .txn 0 ⟨[⟨[1], .equal, 3⟩], [⟨.put, [2], [7], 0⟩], []⟩, .compact 3]
    let s := (Machine.run (fun s => KVStore.handle s 0) .new reqs).1
    let plain := Machine.run (fun s => KVStore.handle s 0) .new (reqs.filter StoreRequest.mutates)
    s.backend.compactRev = 3 ∧ s.get [1] 4 = ([6], 4, true) ∧ plain.1.backend.compactRev = 0 ∧
    s = (plain.1.compact 3).1 ∧ s.get [1] 4 = plain.1.get [1] 4 := by
  intro reqs s plain
  have hc : s.backend.compactRev = 3 := by decide +kernel
  have hreqs : ∀ req ∈ reqs, req.mutates = true ∨ ∃ rev, req = .compact rev := by
    simp [reqs, StoreRequest.mutates]
  obtain ⟨hs, -, hget⟩ := compaction_transparent hreqs
  refine ⟨hc, by decide +kernel, by decide +kernel, ?_, hget [1] 4 (.inr ?_)⟩
  · have hs' : s = (plain.1.compact s.backend.compactRev).1 := hs
    rwa [hc] at hs'
  · change s.backend.compactRev < 4
    rw [hc]
    decide

end LinKV

import LinKV.Mvcc.Compact
import LinKV.Versioned.History

namespace LinKV
set_option autoImplicit true

theorem searchFrom_spec {f : Nat → Bool} (hf : ∀ i j, i ≤ j → j < n → f i = true → f j = true)
    (hfuel : j - i ≤ fuel) (hij : i ≤ j) (hj : j ≤ n) (hlo : ∀ k < i, f k = false)
    (hhi : ∀ k, j ≤ k → k < n → f k = true) :
    searchFrom f fuel i j ≤ n ∧ (∀ k < searchFrom f fuel i j, f k = false) ∧
      ∀ k, searchFrom f fuel i j ≤ k → k < n → f k = true := by
  induction fuel generalizing i j with
  | zero =>
    obtain rfl : i = j := by omega
    exact ⟨hj, hlo, hhi⟩
  | succ fuel ih =>
    rw [searchFrom]
    split
    · by_cases hm : f ((i + j) / 2) = true
      · rw [if_pos hm]
        exact ih (by omega) (by omega) (by omega) hlo fun k hk hkn => hf _ k hk hkn hm
      · rw [if_neg hm]
        refine ih (by omega) (by omega) hj (fun k hk => ?_) hhi
        by_contra hc
        exact hm (hf k _ (by omega) (by omega) (by simpa using hc))
    · obtain rfl : i = j := by omega
      exact ⟨hj, hlo, hhi⟩

/-- `sort.Search` returns how many values of `f` are false. -/
theorem search_spec {f : Nat → Bool} (hf : ∀ i j, i ≤ j → j < n → f i = true → f j = true) :
    search n f ≤ n ∧ (∀ k < search n f, f k = false) ∧
      ∀ k, search n f ≤ k → k < n → f k = true :=
  searchFrom_spec hf (Nat.le_refl _) (Nat.zero_le n) (Nat.le_refl n)
    (fun _ hk => absurd hk (Nat.not_lt_zero _)) fun _ hk hn => absurd hn (Nat.not_lt.mpr hk)

theorem search_split {l : List α} {p : α → Bool} {f : Nat → Bool}
    (hp : l.Pairwise fun x y => p y = true → p x = true)
    (hf : ∀ i x, l[i]? = some x → f i = !p x) :
    search l.length f ≤ l.length ∧ (∀ x ∈ l.take (search l.length f), p x = true) ∧
      ∀ x ∈ l.drop (search l.length f), p x = false := by
  have hget (i : Nat) (hi : i < l.length) : f i = !p l[i] :=
    hf i l[i] (List.getElem?_eq_getElem hi)
  obtain ⟨hle, hlo, hhi⟩ := search_spec (n := l.length) (f := f) fun i j hij hj hi => by
    rw [hget j hj]
    rw [hget i (by omega)] at hi
    rcases Nat.lt_or_eq_of_le hij with hlt | rfl
    · have := List.pairwise_iff_getElem.mp hp i j (by omega) hj hlt
      grind
    · exact hi
  refine ⟨hle, ?_, ?_⟩
  · intro x hx
    obtain ⟨i, hi, rfl⟩ := List.mem_take_iff_getElem.mp hx
    have := hlo i (by omega)
    rw [hget i (by omega)] at this
    simpa using this
  · intro x hx
    obtain ⟨i, hi, rfl⟩ := List.mem_drop_iff_getElem.mp hx
    have := hhi (search l.length f + i) (by omega) (by omega)
    rw [hget _ (by omega)] at this
    simpa using this

theorem length_takeWhile_of_split {l : List α} {p : α → Bool} (hm : m ≤ l.length)
    (hlo : ∀ x ∈ l.take m, p x = true) (hhi : ∀ x ∈ l.drop m, p x = false) :
    (l.takeWhile p).length = m := by
  have hdrop : (l.drop m).takeWhile p = [] := by
    cases hd : l.drop m with
    | nil => rfl
    | cons x xs =>
      have hx : p x = false := hhi x (hd ▸ List.mem_cons_self)
      rw [List.takeWhile_cons, hx]
      rfl
  rw [← List.take_append_drop m l, List.takeWhile_append_of_pos hlo, hdrop, List.append_nil,
    List.length_take_of_le hm]

abbrev Increasing (versions : List ValueRevision) : Prop :=
  versions.Pairwise fun v w => v.rev.main < w.rev.main

open Versioned

section

variable {keys : List Bytes} {key k : Bytes} {versions : List ValueRevision} {rev : Int}

theorem orderedKeyRangeStart_spec (hs : keys.Pairwise (· < ·)) (key : Bytes) :
    (∀ k ∈ keys.take (orderedKeyRangeStart keys key), k < key) ∧
      ∀ k ∈ keys.drop (orderedKeyRangeStart keys key), ¬ k < key := by
  have hp : keys.Pairwise fun x y => decide (y < key) = true → decide (x < key) = true := by
    refine hs.imp fun hxy hy => decide_eq_true ?_
    exact List.lt_trans hxy (of_decide_eq_true hy)
  obtain ⟨-, hlo, hhi⟩ := search_split (f := fun i => ¬ keys.getD i [] < key) hp fun i x hi => by
    rw [List.getD_eq_getElem?_getD, hi, Option.getD_some, decide_not]
  exact ⟨fun k hk => of_decide_eq_true (hlo k hk), fun k hk => of_decide_eq_false (hhi k hk)⟩

theorem orderedKeyRangeStart_nil (hs : keys.Pairwise (· < ·)) :
    keys.drop (orderedKeyRangeStart keys []) = keys := by
  have hlo := (orderedKeyRangeStart_spec hs []).1
  have htake : keys.take (orderedKeyRangeStart keys []) = [] :=
    List.eq_nil_iff_forall_not_mem.mpr fun k hk => List.not_lt_nil k (hlo k hk)
  conv_rhs => rw [← List.take_append_drop (orderedKeyRangeStart keys []) keys, htake]
  rfl

theorem latest_eq_take (hlo : ∀ v ∈ versions.take m, v.rev.main ≤ rev)
    (hhi : ∀ v ∈ versions.drop m, rev < v.rev.main) :
    (versions.take m).getLast? = latest (fun v => v.rev.main) rev versions := by
  conv_rhs => rw [← List.take_append_drop m versions]
  exact (latest_append hlo hhi).symm

theorem Increasing.getElem_le (hs : Increasing versions) (hj : j < versions.length)
    (hij : i ≤ j) : (versions[i]).rev.main ≤ versions[j].rev.main := by
  rcases Nat.lt_or_eq_of_le hij with hlt | rfl
  · exact Int.le_of_lt (List.pairwise_iff_getElem.mp hs i j (by omega) hj hlt)
  · exact Int.le_refl _

/-- The search loop of `Get`: what lies left of `left` is visible, what lies from `right` on is
not, and `pos` is the last version found so far. -/
theorem visibleFrom_spec (hs : Increasing versions) (hfuel : right - left ≤ fuel)
    (hlr : left ≤ right) (hr : right ≤ versions.length)
    (hlo : ∀ v ∈ versions.take left, v.rev.main ≤ rev)
    (hhi : ∀ v ∈ versions.drop right, rev < v.rev.main) :
    visibleFrom versions rev fuel left right (versions.take left).getLast? =
      latest (fun v => v.rev.main) rev versions := by
  induction fuel generalizing left right with
  | zero =>
    obtain rfl : left = right := by omega
    exact latest_eq_take hlo hhi
  | succ fuel ih =>
    rw [visibleFrom]
    split
    · have hmid : (left + right - 1) / 2 < versions.length := by omega
      rw [List.getElem?_eq_getElem hmid]
      dsimp only
      split
      · rename_i hle
        have hlast : some versions[(left + right - 1) / 2] =
            (versions.take ((left + right - 1) / 2 + 1)).getLast? := by
          rw [List.getLast?_take, if_neg (Nat.succ_ne_zero _), Nat.add_sub_cancel,
            List.getElem?_eq_getElem hmid, Option.some_or]
        rw [hlast]
        refine ih (by omega) (by omega) hr (fun v hv => ?_) hhi
        obtain ⟨i, hi, rfl⟩ := List.mem_take_iff_getElem.mp hv
        exact Int.le_trans (hs.getElem_le hmid (by omega)) hle
      · rename_i hlt
        refine ih (by omega) (by omega) (by omega) hlo fun v hv => ?_
        obtain ⟨i, hi, rfl⟩ := List.mem_drop_iff_getElem.mp hv
        exact Int.lt_of_lt_of_le (Int.not_le.mp hlt) (hs.getElem_le (by omega) (by omega))
    · obtain rfl : left = right := by omega
      exact latest_eq_take hlo hhi

/-- What `Get` and `Range` read: the last version at or before `rev`, unless it is a tombstone. -/
theorem latestVisibleRevision_eq (hs : Increasing versions) (rev : Int) :
    latestVisibleRevision versions rev =
      (latest (fun v => v.rev.main) rev versions).filter fun v => ¬ v.deleted := by
  have hv : visibleFrom versions rev versions.length 0 versions.length none =
      latest (fun v => v.rev.main) rev versions :=
    visibleFrom_spec hs (Nat.le_refl _) (Nat.zero_le _) (Nat.le_refl _) (fun _ hv => nomatch hv)
      (by simp only [List.drop_length, List.not_mem_nil, false_imp_iff, implies_true])
  rw [latestVisibleRevision, hv]
  cases latest (fun v => v.rev.main) rev versions with
  | none => rfl
  | some v => cases hd : v.deleted <;> simp [Option.filter, hd]

theorem firstRevisionAfter_eq (hs : Increasing versions) (rev : Int) :
    firstRevisionAfter versions rev =
      if (versions.takeWhile fun v => v.rev.main ≤ rev).length = versions.length then -1
      else ((versions.takeWhile fun v => v.rev.main ≤ rev).length : Int) := by
  have hp : versions.Pairwise fun v w =>
      decide (w.rev.main ≤ rev) = true → decide (v.rev.main ≤ rev) = true := by
    refine hs.imp fun hvw hw => decide_eq_true ?_
    have := of_decide_eq_true hw
    omega
  obtain ⟨hle, hlo, hhi⟩ := search_split
    (f := fun i => versions[i]?.any fun v => rev < v.rev.main) hp fun i v hi => by
      simp only [hi, Option.any_some, ← Int.not_le, decide_not]
  rw [firstRevisionAfter, length_takeWhile_of_split hle hlo hhi]

theorem firstRevisionAfter_lt (hs : Increasing versions) (hne : versions ≠ []) (rev : Int) :
    firstRevisionAfter versions rev < versions.length := by
  have hpos := List.length_pos_iff.mpr hne
  have hle := (List.takeWhile_prefix (l := versions) fun v => v.rev.main ≤ rev).length_le
  rw [firstRevisionAfter_eq hs]
  split <;> omega

theorem rewriteCompactedHistory_cases (b : MemoryBackend) (key : Bytes) (hs : Increasing versions)
    (rev : Int) :
    (b.rewriteCompactedHistory key versions (firstRevisionAfter versions rev) = b ∧
      retain (fun v => v.rev.main) rev versions = versions) ∨
    b.rewriteCompactedHistory key versions (firstRevisionAfter versions rev) =
      b.setRevisions key (retain (fun v => v.rev.main) rev versions) := by
  rw [retain_eq_drop hs, firstRevisionAfter_eq hs]
  generalize (versions.takeWhile fun v => v.rev.main ≤ rev).length = m
  simp only [MemoryBackend.rewriteCompactedHistory]
  by_cases hall : m = versions.length
  · -- every version is at or before `rev`: only the last one stays
    right
    have hkeep : ((versions.length : Int) - 1).toNat = versions.length - 1 := by omega
    rw [if_pos hall, if_neg (by decide), if_neg (by decide), hall, hkeep]
  · rw [if_neg hall]
    by_cases hzero : m = 0
    · left
      rw [hzero]
      exact ⟨rfl, rfl⟩
    · right
      have hkeep : ((m : Int) - 1).toNat = m - 1 := by omega
      rw [if_neg (by omega), if_pos (by omega), hkeep]

end

namespace MemoryBackend

def versions (b : MemoryBackend) (key : Bytes) : List ValueRevision :=
  ((b.getRevisions key).map Versions.list).getD []

section

variable {b : MemoryBackend} {key k : Bytes} {revisions : List ValueRevision} {rev : Int}

theorem mem_data_iff : k ∈ b.data ↔ b.versions k ≠ [] := by
  rw [versions, getRevisions, ← Finmap.lookup_isSome]
  cases b.data.lookup k with
  | none => simp
  | some v => simpa using v.ne_nil

theorem getRevisions_eq_some {v : Versions} (h : b.getRevisions key = some v) :
    b.versions key = v.list := by
  rw [versions, h, Option.map_some, Option.getD_some]

theorem versions_setRevisions (h : revisions ≠ []) :
    (b.setRevisions key revisions).versions k = if k = key then revisions else b.versions k := by
  rw [versions, getRevisions_setRevisions h]
  split <;> rfl

theorem insertKeyIntoIndex_spec (hs : b.sortedKeys.Pairwise (· < ·)) (hk : key ∉ b.sortedKeys) :
    (b.insertKeyIntoIndex key).sortedKeys.Pairwise (· < ·) ∧
      ∀ k, k ∈ (b.insertKeyIntoIndex key).sortedKeys ↔ k = key ∨ k ∈ b.sortedKeys := by
  have hne : b.sortedKeys[orderedKeyRangeStart b.sortedKeys key]? ≠ some key :=
    fun hc => hk (List.mem_of_getElem? hc)
  obtain ⟨hlo, hhi⟩ := orderedKeyRangeStart_spec hs key
  have hsplit := List.take_append_drop (orderedKeyRangeStart b.sortedKeys key) b.sortedKeys
  rw [← hsplit] at hs hk
  obtain ⟨hs₁, hs₂, hs₁₂⟩ := List.pairwise_append.mp hs
  unfold insertKeyIntoIndex
  rw [if_neg hne]
  constructor
  · refine List.pairwise_append.mpr ⟨hs₁, List.pairwise_cons.mpr ⟨fun k hk' => ?_, hs₂⟩, ?_⟩
    · -- not below the key, and not the key itself
      have hkk : k ≠ key := fun hc => hk (List.mem_append_right _ (hc ▸ hk'))
      by_contra hc
      exact hkk (List.le_antisymm (List.not_lt.mp hc) (List.not_lt.mp (hhi k hk')))
    · intro k hk' k' hk''
      rcases List.mem_cons.mp hk'' with rfl | hk''
      · exact hlo k hk'
      · exact hs₁₂ k hk' k' hk''
  · intro k
    conv_rhs => rw [← hsplit]
    rw [List.mem_append, List.mem_append, List.mem_cons]
    exact or_left_comm

theorem setRevisions_sortedKeys (h : revisions ≠ []) (hk : key ∈ b.data) :
    (b.setRevisions key revisions).sortedKeys = b.sortedKeys := by
  rw [setRevisions, dif_neg h, if_pos hk]

/-- What the body of the loop of `Compact` does: one list of versions is cut. -/
structure Compacted (b b' : MemoryBackend) (rev : Int) (keys : List Bytes) : Prop where
  versions : ∀ k, b'.versions k =
    if k ∈ keys then retain (fun v => v.rev.main) rev (b.versions k) else b.versions k
  sortedKeys : b'.sortedKeys = b.sortedKeys
  events : b'.events = b.events
  currentRev : b'.currentRev = b.currentRev
  compactRev : b'.compactRev = b.compactRev

theorem compactKey_spec (hs : Increasing (b.versions key)) (rev : Int) :
    Compacted b (b.compactKey rev key) rev [key] := by
  -- nothing is cut when the list stays as it is
  have hsame (h : retain (fun v => v.rev.main) rev (b.versions key) = b.versions key) :
      Compacted b b rev [key] := by
    refine ⟨fun k => ?_, rfl, rfl, rfl, rfl⟩
    split
    · rename_i hk
      rw [List.mem_singleton.mp hk, h]
    · rfl
  unfold compactKey
  split
  · rename_i hg
    refine hsame ?_
    rw [versions, hg]
    rfl
  · rename_i v hg
    have hv := getRevisions_eq_some hg
    split
    · rename_i hlen
      refine hsame ?_
      rw [hv]
      match hl : v.list, hlen with
      | [], _ => rfl
      | [x], _ => rfl
    · rw [← hv]
      rcases rewriteCompactedHistory_cases b key hs rev with ⟨he, hr⟩ | he
      · rw [he]
        exact hsame hr
      · have hne : b.versions key ≠ [] := hv ▸ v.ne_nil
        have hne' : retain (fun v => v.rev.main) rev (b.versions key) ≠ [] :=
          fun hc => hne (retain_eq_nil.mp hc)
        obtain ⟨hev, hcur, hcomp⟩ := setRevisions_frame b key _ hne'
        rw [he]
        refine ⟨fun k => ?_, setRevisions_sortedKeys hne' (mem_data_iff.mpr hne), hev, hcur, hcomp⟩
        rw [versions_setRevisions hne']
        by_cases hk : k = key
        · subst hk
          rw [if_pos rfl, if_pos (List.mem_singleton_self _)]
        · rw [if_neg hk, if_neg (mt List.mem_singleton.mp hk)]

theorem Compacted.increasing {b' : MemoryBackend} {rev : Int} {keys : List Bytes}
    (hc : Compacted b b' rev keys) (hs : ∀ k, Increasing (b.versions k)) (k : Bytes) :
    Increasing (b'.versions k) := by
  rw [hc.versions k]
  split
  · exact (hs k).sublist (retain_suffix _ _).sublist
  · exact hs k

theorem compactKeys_spec (hs : ∀ k, Increasing (b.versions k)) (rev : Int) (keys : List Bytes) :
    Compacted b (keys.foldl (fun b key => b.compactKey rev key) b) rev keys := by
  induction keys generalizing b with
  | nil => exact ⟨fun _ => rfl, rfl, rfl, rfl, rfl⟩
  | cons key keys ih =>
    have h := compactKey_spec (hs key) rev
    have h' := ih (h.increasing hs)
    refine ⟨fun k => ?_, h'.sortedKeys.trans h.sortedKeys, h'.events.trans h.events,
      h'.currentRev.trans h.currentRev, h'.compactRev.trans h.compactRev⟩
    rw [List.foldl_cons, h'.versions, h.versions]
    simp only [List.mem_cons, List.not_mem_nil, or_false]
    by_cases hk : k = key
    · simp only [hk, true_or, if_true, retain_retain (Int.le_refl rev), ite_self]
    · simp only [hk, false_or, if_false]

theorem rangeKeys_nil (hs : b.sortedKeys.Pairwise (· < ·)) :
    b.rangeKeys [] [] = b.sortedKeys := by
  simp only [rangeKeys, orderedKeyRangeEnd, if_pos, List.take_length, orderedKeyRangeStart_nil hs]

/-- `RangeKeys` returns the keys of the index from the first bound up to the second, if there is
one. -/
theorem mem_rangeKeys (hs : b.sortedKeys.Pairwise (· < ·)) (startKey endKey : Bytes) :
    k ∈ b.rangeKeys startKey endKey ↔
      k ∈ b.sortedKeys ∧ ¬ k < startKey ∧ (endKey ≠ [] → k < endKey) := by
  have hstart := orderedKeyRangeStart_spec hs startKey
  have hdrop : k ∈ b.sortedKeys.drop (orderedKeyRangeStart b.sortedKeys startKey) ↔
      k ∈ b.sortedKeys ∧ ¬ k < startKey := by
    refine ⟨fun hk => ⟨List.mem_of_mem_drop hk, hstart.2 k hk⟩, fun hk => ?_⟩
    rw [← List.take_append_drop (orderedKeyRangeStart b.sortedKeys startKey) b.sortedKeys,
      List.mem_append] at hk
    exact hk.1.resolve_left fun hlo => hk.2 (hstart.1 k hlo)
  have hsub := hs.drop (i := orderedKeyRangeStart b.sortedKeys startKey)
  rw [rangeKeys, ← and_assoc, ← hdrop]
  generalize orderedKeyRangeStart b.sortedKeys startKey = start at hsub
  by_cases he : endKey = []
  · rw [orderedKeyRangeEnd, if_pos he, List.take_length]
    exact ⟨fun hk => ⟨hk, fun hne => absurd he hne⟩, And.left⟩
  · have hp : (b.sortedKeys.drop start).Pairwise fun x y =>
        decide (y < endKey) = true → decide (x < endKey) = true := by
      refine hsub.imp fun hxy hy => decide_eq_true ?_
      exact List.lt_trans hxy (of_decide_eq_true hy)
    obtain ⟨-, hlo, hhi⟩ := search_split
      (f := fun i => ¬ b.sortedKeys.getD (start + i) [] < endKey) hp fun i x hi => by
        rw [List.getElem?_drop] at hi
        rw [List.getD_eq_getElem?_getD, hi, Option.getD_some, decide_not]
    rw [List.length_drop] at hlo hhi
    rw [orderedKeyRangeEnd, if_neg he, List.drop_take, Nat.add_sub_cancel_left]
    refine ⟨fun hk => ⟨List.mem_of_mem_take hk, fun _ => of_decide_eq_true (hlo k hk)⟩,
      fun hk => ?_⟩
    rw [← List.take_append_drop (search (b.sortedKeys.length - start) fun i =>
      ¬ b.sortedKeys.getD (start + i) [] < endKey) (b.sortedKeys.drop start), List.mem_append] at hk
    exact hk.1.resolve_right fun hup => of_decide_eq_false (hhi k hup) (hk.2 he)

/-- The index lists the keys of the map, in order. -/
structure Indexed (b : MemoryBackend) : Prop where
  sorted : b.sortedKeys.Pairwise (· < ·)
  mem : ∀ k, k ∈ b.sortedKeys ↔ k ∈ b.data

theorem Indexed.setRevisions (h : b.Indexed) (hr : revisions ≠ []) :
    (b.setRevisions key revisions).Indexed := by
  have hdata (k : Bytes) : k ∈ (b.setRevisions key revisions).data ↔ k = key ∨ k ∈ b.data := by
    rw [mem_data_iff, mem_data_iff, versions_setRevisions hr]
    by_cases hk : k = key
    · simp only [hk, if_true, ne_eq, hr, not_false_eq_true, true_or]
    · simp only [hk, if_false, false_or]
  by_cases hk : key ∈ b.data
  · have hkeys := setRevisions_sortedKeys hr hk
    refine ⟨hkeys ▸ h.sorted, fun k => ?_⟩
    rw [hkeys, h.mem, hdata]
    constructor
    · exact .inr
    · rintro (rfl | hk')
      · exact hk
      · exact hk'
  · have hkeys : (b.setRevisions key revisions).sortedKeys =
        (b.insertKeyIntoIndex key).sortedKeys := by
      rw [MemoryBackend.setRevisions, dif_neg hr, if_neg hk]
    obtain ⟨hs, hm⟩ := insertKeyIntoIndex_spec h.sorted (mt (h.mem key).mp hk)
    refine ⟨hkeys ▸ hs, fun k => ?_⟩
    rw [hkeys, hm, h.mem, hdata]

end

end MemoryBackend

end LinKV

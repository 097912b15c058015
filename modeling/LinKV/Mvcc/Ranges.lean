import LinKV.Mvcc.Reachable
import LinKV.Ordered.Words

namespace LinKV
set_option autoImplicit true

open Versioned

/-- The version of a key that a read at `rev` meets: the newest one at or before it. -/
def KVStore.Reads (s : KVStore) (key : Bytes) (rev : Int) (v : ValueRevision) : Prop :=
  v ∈ s.versions key ∧ v.rev.main ≤ rev ∧
    ∀ w ∈ s.versions key, w.rev.main ≤ rev → w.rev.main ≤ v.rev.main

/-- The revision `Get` and `Range` read at; 0 asks for the current one. -/
def KVStore.readRev (s : KVStore) (rev : Int) : Int :=
  if rev = 0 then s.backend.currentRev else rev

def KVStore.rangeEntry (s : KVStore) (startKey endKey : Bytes) (rev : Int) (key : Bytes) :
    Option KeyValue :=
  if ¬ key < startKey ∧ key < endKey then
    match s.backend.getRevisions key with
    | none => none
    | some versions =>
      (latestVisibleRevision versions.list rev).map fun v => ⟨key, v.value, v.rev⟩
  else none

section

variable {s s' : KVStore} {h m : List Mutation} {key startKey endKey p value : Bytes} {rev : Int}
  {v v' : ValueRevision} {kv : KeyValue}

theorem KVStore.reads_iff (hs : Increasing (s.versions key)) :
    latest (fun v => v.rev.main) rev (s.versions key) = some v ↔ s.Reads key rev v :=
  latest_eq_some_iff hs

theorem Represents.reads_unique (hr : Represents h s.backend) (hv : s.Reads key rev v)
    (hv' : s.Reads key rev v') : v = v' := by
  have hs : Increasing (s.versions key) := hr.increasing key
  exact Option.some.inj (((KVStore.reads_iff hs).2 hv).symm.trans ((KVStore.reads_iff hs).2 hv'))

theorem filter_some_iff {o : Option ValueRevision} :
    o.filter (fun v => ¬ v.deleted) = some v ↔ o = some v ∧ v.deleted = false := by
  rw [Option.filter_eq_some_iff, decide_eq_true_iff, Bool.not_eq_true]

theorem Represents.value_iff (hr : Represents h s.backend)
    (hrev : rev = 0 ∨ s.backend.compactRev < rev) : s.value key rev = some value ↔
      ∃ v, s.Reads key (s.readRev rev) v ∧ v.deleted = false ∧ v.value = value := by
  have hs : Increasing (s.versions key) := hr.increasing key
  rw [KVStore.value_eq hs hrev, Option.map_eq_some_iff]
  refine exists_congr fun v => ?_
  rw [filter_some_iff, ← KVStore.readRev, KVStore.reads_iff hs, and_assoc]

theorem KVStore.value_eq_some : s.value key rev = some value ↔
    (s.get key rev).2.2 = true ∧ (s.get key rev).1 = value := by
  unfold KVStore.value
  dsimp only
  split
  · rename_i hfound
    rw [Option.some.injEq, and_iff_right hfound]
  · rename_i hfound
    exact iff_of_false (Option.some_ne_none value).symm fun h => hfound h.1

theorem KVStore.get_compacted (hne : rev ≠ 0) (hle : rev ≤ s.backend.compactRev) :
    (s.get key rev).2.2 = false := by
  unfold KVStore.get
  split
  · rfl
  · rw [if_pos ⟨hne, hle⟩]

theorem KVStore.get_eq_value (hne : rev ≠ 0) :
    s.get key rev = ((s.value key rev).getD [], rev, (s.value key rev).isSome) := by
  unfold value get
  cases s.backend.getRevisions key with
  | none => rfl
  | some versions =>
    dsimp only
    rw [if_neg hne]
    split
    · rfl
    · cases latestVisibleRevision versions.list rev <;> rfl

theorem KVStore.rangeEntry_eq_some (hs : Increasing (s.versions key)) :
    s.rangeEntry startKey endKey rev key = some kv ↔ ¬ key < startKey ∧ key < endKey ∧
      ∃ v, s.Reads key rev v ∧ v.deleted = false ∧ kv = ⟨key, v.value, v.rev⟩ := by
  unfold rangeEntry
  by_cases hin : ¬ key < startKey ∧ key < endKey
  · rw [if_pos hin, ← and_assoc, and_iff_right hin]
    cases hg : s.backend.getRevisions key with
    | none =>
      refine iff_of_false (Option.some_ne_none kv).symm ?_
      rintro ⟨v, ⟨hv, -⟩, -⟩
      rw [KVStore.versions, hg] at hv
      cases hv
    | some versions =>
      have hv : s.versions key = versions.list := MemoryBackend.getRevisions_eq_some hg
      dsimp only
      rw [← hv, latestVisibleRevision_eq hs, Option.map_eq_some_iff]
      refine exists_congr fun v => ?_
      rw [filter_some_iff, KVStore.reads_iff hs, and_assoc, @eq_comm _ kv]
  · rw [if_neg hin]
    exact iff_of_false (Option.some_ne_none kv).symm fun h => hin ⟨h.1, h.2.1⟩

theorem KVStore.range_eq : s.range startKey endKey rev =
    if s.readRev rev ≤ s.backend.compactRev then []
    else (s.backend.rangeKeys startKey endKey).filterMap
      (s.rangeEntry startKey endKey (s.readRev rev)) := rfl

/-- What `Range` returns at a revision that is not compacted. -/
theorem Represents.mem_range (hr : Represents h s.backend)
    (hrev : s.backend.compactRev < s.readRev rev) : kv ∈ s.range startKey endKey rev ↔
      ¬ kv.key < startKey ∧ kv.key < endKey ∧
        ∃ v, s.Reads kv.key (s.readRev rev) v ∧ v.deleted = false ∧
          kv = ⟨kv.key, v.value, v.rev⟩ := by
  rw [KVStore.range_eq, if_neg (Int.not_le.2 hrev), List.mem_filterMap]
  constructor
  · rintro ⟨key, -, hkv⟩
    obtain ⟨hlo, hhi, v, hv, hd, rfl⟩ := (KVStore.rangeEntry_eq_some (hr.increasing key)).1 hkv
    exact ⟨hlo, hhi, v, hv, hd, rfl⟩
  · intro hkv
    refine ⟨kv.key, ?_, (KVStore.rangeEntry_eq_some (hr.increasing kv.key)).2 hkv⟩
    -- a key with a version is in the index
    obtain ⟨hlo, hhi, v, hv, -⟩ := hkv
    rw [MemoryBackend.mem_rangeKeys hr.sorted, hr.mem, MemoryBackend.mem_data_iff]
    exact ⟨List.ne_nil_of_mem hv.1, hlo, fun _ => hhi⟩

theorem Represents.range_sorted (hr : Represents h s.backend) :
    (s.range startKey endKey rev).Pairwise fun x y => x.key < y.key := by
  have hsub : (s.backend.rangeKeys startKey endKey).Sublist s.backend.sortedKeys :=
    (List.drop_sublist _ _).trans (List.take_sublist _ _)
  rw [KVStore.range_eq]
  split
  · exact List.Pairwise.nil
  · rw [List.pairwise_filterMap]
    refine (hr.sorted.sublist hsub).imp fun {key key'} hlt x hx y hy => ?_
    obtain ⟨-, -, v, -, -, rfl⟩ := (KVStore.rangeEntry_eq_some (hr.increasing key)).1 hx
    obtain ⟨-, -, w, -, -, rfl⟩ := (KVStore.rangeEntry_eq_some (hr.increasing key')).1 hy
    exact hlt

theorem KVStore.reads_of_later (hv : s'.versions key = s.versions key ++ later)
    (hlater : ∀ v ∈ later, rev < v.rev.main) :
    s'.Reads key rev v ↔ s.Reads key rev v := by
  have hmem (w : ValueRevision) : w ∈ s'.versions key ∧ w.rev.main ≤ rev ↔
      w ∈ s.versions key ∧ w.rev.main ≤ rev := by
    rw [hv, List.mem_append]
    constructor
    · rintro ⟨hw | hw, hle⟩
      · exact ⟨hw, hle⟩
      · exact absurd (hlater w hw) (Int.not_lt.2 hle)
    · exact fun h => ⟨.inl h.1, h.2⟩
  unfold Reads
  rw [← and_assoc, ← and_assoc, hmem]
  refine and_congr_right fun _ => forall_congr' fun w => ?_
  rw [← and_imp, hmem, and_imp]

theorem Represents.reads_later (hr : Represents h s.backend) (hr' : Represents (h ++ m) s'.backend)
    (hc : s'.backend.compactRev = s.backend.compactRev) (hle : rev ≤ s.backend.currentRev) :
    s'.Reads key rev v ↔ s.Reads key rev v := by
  obtain ⟨later, hv, hlater⟩ := hr.later hr' hc key
  exact KVStore.reads_of_later hv fun v hv => Int.lt_of_le_of_lt hle (hlater v hv)

theorem Represents.value_later (hr : Represents h s.backend) (hr' : Represents (h ++ m) s'.backend)
    (hc : s'.backend.compactRev = s.backend.compactRev) (hne : rev ≠ 0)
    (hle : rev ≤ s.backend.currentRev) : s'.value key rev = s.value key rev := by
  by_cases hlo : s.backend.compactRev < rev
  · apply Option.ext
    intro value
    rw [hr.value_iff (.inr hlo), hr'.value_iff (.inr (hc ▸ hlo)), KVStore.readRev,
      KVStore.readRev, if_neg hne, if_neg hne]
    exact exists_congr fun v => and_congr_left fun _ => hr.reads_later hr' hc hle
  · have hlo := Int.not_lt.1 hlo
    rw [KVStore.value, KVStore.value, KVStore.get_compacted hne hlo,
      KVStore.get_compacted hne (hc ▸ hlo)]
    rfl

theorem Represents.range_later (hr : Represents h s.backend) (hr' : Represents (h ++ m) s'.backend)
    (hc : s'.backend.compactRev = s.backend.compactRev) (hne : rev ≠ 0)
    (hle : rev ≤ s.backend.currentRev) (startKey endKey : Bytes) :
    s'.range startKey endKey rev = s.range startKey endKey rev := by
  have hrev (t : KVStore) : t.readRev rev = rev := if_neg hne
  by_cases hlo : s.backend.compactRev < rev
  · have : Std.Irrefl fun x y : KeyValue => x.key < y.key := ⟨fun x => List.lt_irrefl x.key⟩
    have : Std.Antisymm fun x y : KeyValue => x.key < y.key :=
      ⟨fun _ _ hxy hyx => absurd hyx (List.lt_asymm hxy)⟩
    apply List.Pairwise.eq_of_mem_iff hr'.range_sorted hr.range_sorted
    intro kv
    rw [hr.mem_range ((hrev s).symm ▸ hlo), hr'.mem_range ((hrev s').symm ▸ hc ▸ hlo), hrev, hrev]
    simp only [hr.reads_later hr' hc hle]
  · have hlo := Int.not_lt.1 hlo
    rw [KVStore.range_eq, KVStore.range_eq, hrev, hrev, if_pos hlo, if_pos (hc ▸ hlo)]

end

/-- `Range` returns, in the order of their keys, exactly the keys between its bounds that `Get`
finds, with the value of `Get` and the revision of the version that is read. -/
def KVStore.RangeAgrees (s : KVStore) (startKey endKey : Bytes) (rev : Int) : Prop :=
  (s.range startKey endKey rev).Pairwise (fun x y => x.key < y.key) ∧
  ∀ kv, kv ∈ s.range startKey endKey rev ↔
    ¬ kv.key < startKey ∧ kv.key < endKey ∧
      (s.get kv.key rev).2.2 = true ∧ (s.get kv.key rev).1 = kv.value ∧
      ∃ v, s.Reads kv.key (s.readRev rev) v ∧ v.rev = kv.rev

section

variable {s : KVStore} {h : List Mutation} {rev : Int}

theorem Represents.range_agrees (hr : Represents h s.backend)
    (hrev : s.backend.compactRev < s.readRev rev) (startKey endKey : Bytes) :
    s.RangeAgrees startKey endKey rev := by
  refine ⟨hr.range_sorted, fun kv => ?_⟩
  have hrev' : rev = 0 ∨ s.backend.compactRev < rev := by
    unfold KVStore.readRev at hrev
    split at hrev
    · exact .inl ‹_›
    · exact .inr hrev
  rw [hr.mem_range hrev, ← and_assoc (a := _ = true), ← KVStore.value_eq_some, hr.value_iff hrev']
  refine and_congr_right fun _ => and_congr_right fun _ => ?_
  constructor
  · rintro ⟨v, hv, hd, he⟩
    rw [he]
    exact ⟨⟨v, hv, hd, rfl⟩, v, hv, rfl⟩
  · rintro ⟨⟨v, hv, hd, hval⟩, v', hv', hmain⟩
    obtain rfl := hr.reads_unique hv hv'
    refine ⟨v, hv, hd, ?_⟩
    rw [hval, hmain]

theorem KVStore.range_compacted (hrev : s.readRev rev ≤ s.backend.compactRev)
    (startKey endKey : Bytes) : s.range startKey endKey rev = [] := by
  rw [KVStore.range_eq, if_pos hrev]

theorem Represents.range_agrees_compacted (hr : Represents h s.backend)
    (hrev : s.readRev rev ≤ s.backend.compactRev) (startKey endKey : Bytes) :
    s.RangeAgrees startKey endKey rev ↔
      ∀ key, ¬ key < startKey → key < endKey → (s.get key rev).2.2 = false := by
  rw [KVStore.RangeAgrees, KVStore.range_compacted hrev]
  constructor
  · rintro ⟨-, hall⟩ key hlo hhi
    by_contra hfound
    have hfound := Bool.eq_true_of_not_eq_false hfound
    -- only `rev = 0` lets `Get` find anything here
    have hz : rev = 0 := by
      by_contra hne
      rw [KVStore.readRev, if_neg hne] at hrev
      rw [KVStore.get_compacted hne hrev] at hfound
      cases hfound
    have hval : s.value key rev = some (s.get key rev).1 := KVStore.value_eq_some.2 ⟨hfound, rfl⟩
    obtain ⟨v, hv, -, -⟩ := (hr.value_iff (.inl hz)).1 hval
    have hin := (hall ⟨key, (s.get key rev).1, v.rev⟩).2 ⟨hlo, hhi, hfound, rfl, v, hv, rfl⟩
    exact absurd hin List.not_mem_nil
  · intro hnone
    refine ⟨List.Pairwise.nil, fun kv => iff_of_false List.not_mem_nil ?_⟩
    rintro ⟨hlo, hhi, hfound, -⟩
    rw [hnone kv.key hlo hhi] at hfound
    cases hfound

end

/-- `Range` agrees with `Get` exactly if it is not asked for the latest revision, or this has not
been compacted, or `Get` finds no key between the bounds there. -/
theorem range_agrees_get {s : KVStore} (hs : s.Reachable) (startKey endKey : Bytes) (rev : Int) :
    s.RangeAgrees startKey endKey rev ↔
      rev ≠ 0 ∨ s.backend.compactRev < s.backend.currentRev ∨
        ∀ key, ¬ key < startKey → key < endKey → (s.get key 0).2.2 = false := by
  obtain ⟨-, h, hr⟩ := hs.represents
  by_cases hc : s.backend.compactRev < s.readRev rev
  · refine iff_of_true (hr.range_agrees hc startKey endKey) ?_
    by_cases hz : rev = 0
    · rw [KVStore.readRev, if_pos hz] at hc
      exact .inr (.inl hc)
    · exact .inl hz
  · have hle := Int.not_lt.1 hc
    rw [hr.range_agrees_compacted hle]
    by_cases hz : rev = 0
    · rw [KVStore.readRev, if_pos hz] at hc
      simp only [hz, ne_eq, not_true_eq_false, hc, false_or]
    · rw [KVStore.readRev, if_neg hz] at hle
      exact iff_of_true (fun key _ _ => KVStore.get_compacted hz hle) (.inl hz)

/-- Three revisions, the first of them compacted: the latest one is read. -/
theorem range_agrees_get_latest :
    let s := ((((KVStore.new.put 0 [1] [5] 0).1.put 0 [2] [6] 0).1.delete [2]).1.compact 1).1
    s.Reachable ∧ s.backend.compactRev < s.backend.currentRev ∧
    (s.get [1] 0).2.2 = true ∧ (s.get [1] 0).1 = [5] ∧ (s.get [2] 0).2.2 = false ∧
    ∀ kv ∈ s.range [] [9] 0, kv.key ≠ [2] := by
  intro s
  have hs : s.Reachable :=
    .op (.compact 1) (.op (.delete [2]) (.op (.put 0 [2] [6] 0)
      (.op (.put 0 [1] [5] 0) .new rfl) rfl) rfl) rfl
  have hlt : s.backend.compactRev < s.backend.currentRev := by decide +kernel
  have hnone : (s.get [2] 0).2.2 = false := by decide +kernel
  refine ⟨hs, hlt, by decide +kernel, by decide +kernel, hnone, fun kv hkv he => ?_⟩
  obtain ⟨-, -, hfound, -⟩ := (((range_agrees_get hs [] [9] 0).2 (.inr (.inl hlt))).2 kv).1 hkv
  rw [he, hnone] at hfound
  cases hfound

/-- After a compaction of everything written, `Get` finds the key at the latest revision and
`Range` does not. -/
theorem range_agrees_get_fails :
    let s := ((KVStore.new.put 0 [1] [5] 0).1.compact 1).1
    s.Reachable ∧ s.get [1] 0 = ([5], 1, true) ∧ s.range [] [2] 0 = [] := by
  refine ⟨.op (.compact 1) (.op (.put 0 [1] [5] 0) .new rfl) rfl, ?_⟩
  decide +kernel

theorem byte_not_max_lt (y : UInt8) : ¬ 0xff < y := by
  have hy := y.toNat_lt
  have hmax : (0xff : UInt8).toNat = 255 := rfl
  rw [UInt8.lt_iff_toNat_lt]
  omega

theorem byte_lt_add_one_iff {b y : UInt8} (hb : b < 0xff) : y < b + 1 ↔ ¬ b < y := by
  have hmax : (0xff : UInt8).toNat = 255 := rfl
  have hone : (1 : UInt8).toNat = 1 := rfl
  rw [UInt8.lt_iff_toNat_lt] at hb ⊢
  rw [UInt8.lt_iff_toNat_lt, UInt8.toNat_add]
  omega

/-- `prefixEnd` raises the last byte it can raise and drops what follows. -/
theorem prefixEndFrom_spec {l : List UInt8} (h : ∃ b ∈ l, b ≠ 0xff) :
    ∃ w b q, l = w ++ b :: q ∧ b < 0xff ∧ (∀ a ∈ w, a = 0xff) ∧
      prefixEndFrom l = q.reverse ++ [b + 1] := by
  induction l with
  | nil =>
    obtain ⟨b, hb, -⟩ := h
    cases hb
  | cons b l ih =>
    rw [prefixEndFrom]
    by_cases hb : b < 0xff
    · refine ⟨[], b, l, rfl, hb, fun _ ha => absurd ha List.not_mem_nil, ?_⟩
      rw [if_pos hb, List.reverse_cons]
    · have hmax : b = 0xff := Std.Trichotomous.trichotomous b 0xff hb (byte_not_max_lt b)
      rw [if_neg hb]
      obtain ⟨c, hc, hne⟩ := h
      rcases List.mem_cons.1 hc with rfl | hc
      · exact absurd hmax hne
      · obtain ⟨w, b', q, rfl, hb', hw, he⟩ := ih ⟨c, hc, hne⟩
        refine ⟨b :: w, b', q, rfl, hb', fun a ha => ?_, he⟩
        rcases List.mem_cons.1 ha with rfl | ha
        · exact hmax
        · exact hw a ha

theorem begins_iff_below_prefixEnd {p x : Bytes} (hp : ∃ b ∈ p, b ≠ 0xff) :
    p <+: x ↔ ¬ x < p ∧ x < prefixEnd p := by
  have hp' : ∃ b ∈ p.reverse, b ≠ 0xff := by simpa only [List.mem_reverse] using hp
  obtain ⟨w, b, q, hl, hb, hw, he⟩ := prefixEndFrom_spec hp'
  obtain rfl : p = q.reverse ++ b :: w.reverse := by
    rw [← List.reverse_reverse p, hl, List.reverse_append, List.reverse_cons, List.append_assoc,
      List.singleton_append]
  rw [prefixEnd, he]
  refine Ordered.begins_iff_between (fun y => byte_lt_add_one_iff hb) fun a ha y => ?_
  rw [hw a (List.mem_reverse.1 ha)]
  exact byte_not_max_lt y

theorem prefixEndFrom_eq_nil_iff {l : List UInt8} :
    prefixEndFrom l = [] ↔ ∀ b ∈ l, b = 0xff := by
  constructor
  · intro he b hb
    by_contra hne
    obtain ⟨w, b', q, -, -, -, he'⟩ := prefixEndFrom_spec ⟨b, hb, hne⟩
    rw [he] at he'
    exact absurd he'.symm (List.append_ne_nil_of_right_ne_nil _ (List.cons_ne_nil _ _))
  · intro hl
    induction l with
    | nil => rfl
    | cons b l ih =>
      rw [List.forall_mem_cons] at hl
      rw [prefixEndFrom, if_neg (hl.1 ▸ byte_not_max_lt b), ih hl.2]

theorem prefixEnd_eq_nil_iff {p : Bytes} : prefixEnd p = [] ↔ ∀ b ∈ p, b = 0xff := by
  rw [prefixEnd, prefixEndFrom_eq_nil_iff]
  simp only [List.mem_reverse]

/-- `PrefixRange` returns, in the order of their keys, exactly the keys with this beginning that
are visible at the revision, with their values. -/
def KVStore.PrefixExact (s : KVStore) (p : Bytes) (rev : Int) : Prop :=
  (s.prefixRange p rev).Pairwise (fun x y => x.key < y.key) ∧
  (∀ key, key ∈ (s.prefixRange p rev).map KeyValue.key ↔ p <+: key ∧ (s.value key rev).isSome) ∧
  ∀ kv ∈ s.prefixRange p rev, s.value kv.key rev = some kv.value

section

variable {s : KVStore} {h : List Mutation} {rev : Int} {p : Bytes}

theorem Represents.prefix_exact (hr : Represents h s.backend) (hlo : s.backend.compactRev < rev)
    (hp : ∃ b ∈ p, b ≠ 0xff) : s.PrefixExact p rev := by
  have hpos := hr.compact_nonneg
  have hread : s.readRev rev = rev := if_neg (by omega)
  have hmem (kv : KeyValue) : kv ∈ s.prefixRange p rev ↔ p <+: kv.key ∧
      ∃ v, s.Reads kv.key rev v ∧ v.deleted = false ∧ kv = ⟨kv.key, v.value, v.rev⟩ := by
    rw [KVStore.prefixRange, hr.mem_range (hread.symm ▸ hlo), hread, ← and_assoc,
      ← begins_iff_below_prefixEnd hp]
  refine ⟨hr.range_sorted, fun key => ?_, fun kv hkv => ?_⟩
  · rw [List.mem_map, Option.isSome_iff_exists]
    constructor
    · rintro ⟨kv, hkv, rfl⟩
      obtain ⟨hkey, v, hv, hd, -⟩ := (hmem kv).1 hkv
      exact ⟨hkey, v.value, (hr.value_iff (.inr hlo)).2 ⟨v, hread.symm ▸ hv, hd, rfl⟩⟩
    · rintro ⟨hkey, value, hval⟩
      obtain ⟨v, hv, hd, -⟩ := (hr.value_iff (.inr hlo)).1 hval
      exact ⟨⟨key, v.value, v.rev⟩, (hmem _).2 ⟨hkey, v, hread ▸ hv, hd, rfl⟩, rfl⟩
  · obtain ⟨-, v, hv, hd, he⟩ := (hmem kv).1 hkv
    rw [hr.value_iff (.inr hlo)]
    exact ⟨v, hread.symm ▸ hv, hd, (congrArg KeyValue.value he).symm⟩

/-- The filter in the loop of `Range` takes an empty end for the least key. -/
theorem Represents.range_unbounded (hr : Represents h s.backend)
    (hrev : s.backend.compactRev < s.readRev rev) (startKey : Bytes) :
    s.range startKey [] rev = [] := by
  refine List.eq_nil_iff_forall_not_mem.2 fun kv hkv => ?_
  exact List.not_lt_nil _ ((hr.mem_range hrev).1 hkv).2.1

end

/-- At a revision that is not compacted `PrefixRange` is exact if the beginning has a byte that can
be raised, and otherwise only if no visible key has it. -/
theorem prefix_range_exact {s : KVStore} (hs : s.Reachable) (p : Bytes) {rev : Int}
    (hlo : s.backend.compactRev < rev) : s.PrefixExact p rev ↔
      (∃ b ∈ p, b ≠ 0xff) ∨ ∀ key, p <+: key → s.value key rev = none := by
  obtain ⟨-, h, hr⟩ := hs.represents
  by_cases hp : ∃ b ∈ p, b ≠ 0xff
  · exact iff_of_true (hr.prefix_exact hlo hp) (.inl hp)
  · have hpos := hr.compact_nonneg
    have hread : s.readRev rev = rev := if_neg (by omega)
    have hend : prefixEnd p = [] := by
      rw [prefixEnd_eq_nil_iff]
      intro b hb
      by_contra hne
      exact hp ⟨b, hb, hne⟩
    have hempty : s.prefixRange p rev = [] := by
      rw [KVStore.prefixRange, hend]
      exact hr.range_unbounded (hread.symm ▸ hlo) p
    rw [KVStore.PrefixExact, hempty, or_iff_right hp]
    constructor
    · rintro ⟨-, hall, -⟩ key hkey
      by_contra hne
      exact List.not_mem_nil ((hall key).2 ⟨hkey, Option.isSome_iff_ne_none.2 hne⟩)
    · intro hnone
      refine ⟨List.Pairwise.nil, fun key => iff_of_false List.not_mem_nil ?_,
        fun kv hkv => absurd hkv List.not_mem_nil⟩
      rintro ⟨hkey, hsome⟩
      rw [hnone key hkey] at hsome
      cases hsome

/-- Keys that begin with a byte that cannot be raised behind one that can. -/
theorem prefix_range_exact_carried :
    let s := ((KVStore.new.put 0 [7, 0xff, 1] [5] 0).1.put 0 [8] [6] 0).1
    s.Reachable ∧ [8] ∉ (s.prefixRange [7, 0xff] 2).map KeyValue.key ∧
    [7, 0xff, 1] ∈ (s.prefixRange [7, 0xff] 2).map KeyValue.key := by
  intro s
  have hs : s.Reachable :=
    .op (.put 0 [8] [6] 0) (.op (.put 0 [7, 0xff, 1] [5] 0) .new rfl) rfl
  have hlo : s.backend.compactRev < 2 := by decide +kernel
  have hall := ((prefix_range_exact hs [7, 0xff] hlo).2 (.inl ⟨7, by decide, by decide⟩)).2.1
  refine ⟨hs, fun hin => ?_, (hall _).2 ⟨⟨[1], rfl⟩, by decide +kernel⟩⟩
  exact absurd ((hall [8]).1 hin).1 (by decide)

/-- The empty beginning has no end: `Range` compares with the empty key and returns nothing. -/
theorem prefix_range_exact_fails :
    let s := (KVStore.new.put 0 [107] [5] 0).1
    s.Reachable ∧ s.backend.compactRev < 1 ∧ 1 ≤ s.backend.currentRev ∧
    s.value [107] 1 = some [5] ∧ [] <+: [107] ∧ s.prefixRange [] 1 = [] := by
  refine ⟨.op (.put 0 [107] [5] 0) .new rfl, ?_⟩
  decide +kernel

/-- The keys that begin with `p` are those from `p` to `prefixEnd p`. There is no such end exactly
if no byte of `p` can be raised, and then they are all the keys from `p` on. -/
theorem prefix_end_tight (p k : Bytes) :
    (prefixEnd p ≠ [] → (p <+: k ↔ p ≤ k ∧ k < prefixEnd p)) ∧
    (prefixEnd p = [] ↔ ∀ b ∈ p, b = 0xff) ∧
    (prefixEnd p = [] → (p <+: k ↔ p ≤ k)) := by
  refine ⟨fun hne => ?_, prefixEnd_eq_nil_iff, fun he => ?_⟩
  · rw [ne_eq, prefixEnd_eq_nil_iff, not_forall] at hne
    obtain ⟨b, hb⟩ := hne
    rw [begins_iff_below_prefixEnd ⟨b, Classical.not_imp.1 hb⟩, List.not_lt]
  · rw [prefixEnd_eq_nil_iff] at he
    rw [Ordered.begins_iff_of_top, List.not_lt]
    intro a ha y
    rw [he a ha]
    exact byte_not_max_lt y

end LinKV

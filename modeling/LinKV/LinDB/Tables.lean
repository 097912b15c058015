import LinKV.LinDB.Backend
import LinKV.Mvcc.Reachable

namespace LinKV
set_option autoImplicit true

theorem mapM_eq_some {f : α → Option β} {g : α → β} {l : List α} (h : ∀ x ∈ l, f x = some (g x)) :
    l.mapM f = some (l.map g) := by
  induction l with
  | nil => rfl
  | cons x l ih =>
    rw [List.mapM_cons, h x List.mem_cons_self, ih fun y hy => h y (List.mem_cons_of_mem x hy)]
    rfl

namespace DB

section

variable {d d' : DB} {p k key : Bytes} {v : Stored}

theorem seek_sorted (d : DB) (key : Bytes) : (d.seek key).Pairwise (· < ·) :=
  (sortStrings_sorted d.keys).filter _

theorem mem_seek : k ∈ d.seek key ↔ k ∈ d ∧ ¬ k < key := by
  rw [seek, List.mem_filter, mem_sortStrings, Finmap.mem_keys, decide_eq_true_eq]

theorem scan_eq (d : DB) (p : Bytes) : d.scan p = (d.seek p).filter fun k => p.isPrefixOf k := by
  apply Ordered.takeWhile_eq_filter
  refine (d.seek_sorted p).imp_of_mem fun {x y} hx _ hxy hy => ?_
  rw [List.isPrefixOf_iff_prefix] at hy ⊢
  exact Ordered.begins_of_between (mem_seek.1 hx).2 (List.lt_asymm hxy) hy

theorem mem_scan : k ∈ d.scan p ↔ k ∈ d ∧ p <+: k := by
  rw [scan_eq, List.mem_filter, mem_seek, List.isPrefixOf_iff_prefix]
  refine ⟨fun h => ⟨h.1.1, h.2⟩, fun h => ⟨⟨h.1, ?_⟩, h.2⟩⟩
  exact List.not_lt.2 h.2.le

theorem scan_nodup (d : DB) (p : Bytes) : (d.scan p).Nodup := by
  rw [scan_eq]
  refine ((d.seek_sorted p).filter _).imp fun {x y} hxy he => ?_
  rw [he] at hxy
  exact List.lt_irrefl y hxy

theorem writeBatch_append (d : DB) (ops ops' : List BatchOp) :
    d.writeBatch (ops ++ ops') = (d.writeBatch ops).writeBatch ops' :=
  List.foldl_append

theorem lookup_deletePrefix : (d'.writeBatch (d.deletePrefix p)).lookup k =
    if k ∈ d.scan p then none else d'.lookup k := by
  rw [deletePrefix]
  induction d.scan p generalizing d' with
  | nil => rw [if_neg List.not_mem_nil]; rfl
  | cons x keys ih =>
    have hstep : d'.writeBatch ((x :: keys).map BatchOp.delete) =
        writeBatch (d'.erase x) (keys.map .delete) := rfl
    rw [hstep, ih]
    by_cases hk : k = x
    · subst hk
      rw [Finmap.lookup_erase, if_pos List.mem_cons_self, ite_self]
    · have hmem : k ∈ x :: keys ↔ k ∈ keys := by rw [List.mem_cons, or_iff_right hk]
      rw [Finmap.lookup_erase_ne hk]
      simp only [hmem]

theorem lookup_puts {l : List α} {f : α → Bytes} {g : α → Stored}
    (hfg : ∀ x ∈ l, ∀ y ∈ l, f x = f y → g x = g y) :
    (d.writeBatch (l.map fun x => .put (f x) (g x))).lookup k = some v ↔
      (∃ x ∈ l, f x = k ∧ g x = v) ∨ (∀ x ∈ l, f x ≠ k) ∧ d.lookup k = some v := by
  induction l generalizing d with
  | nil =>
    simp only [List.not_mem_nil, false_and, exists_false, false_or, false_imp_iff, implies_true,
      true_and]
    rfl
  | cons x l ih =>
    have hstep : d.writeBatch ((x :: l).map fun x => BatchOp.put (f x) (g x)) =
        writeBatch (d.insert (f x) (g x)) (l.map fun x => .put (f x) (g x)) := rfl
    rw [hstep, ih fun y hy z hz => hfg y (List.mem_cons_of_mem x hy) z (List.mem_cons_of_mem x hz),
      List.exists_mem_cons_iff, List.forall_mem_cons]
    by_cases hk : k = f x
    · subst hk
      rw [Finmap.lookup_insert, Option.some.injEq]
      constructor
      · rintro (h | ⟨_, h⟩)
        · exact .inl (.inr h)
        · exact .inl (.inl ⟨rfl, h⟩)
      · rintro ((⟨_, h⟩ | h) | ⟨⟨h, _⟩, _⟩)
        · by_cases hex : ∃ y ∈ l, f y = f x
          · obtain ⟨y, hy, hfy⟩ := hex
            refine .inl ⟨y, hy, hfy, ?_⟩
            rw [hfg y (List.mem_cons_of_mem x hy) x List.mem_cons_self hfy, h]
          · exact .inr ⟨fun y hy hfy => hex ⟨y, hy, hfy⟩, h⟩
        · exact .inl h
        · exact absurd rfl h
    · have hne : f x ≠ k := Ne.symm hk
      simp only [Finmap.lookup_insert_of_ne _ hk, hne, false_and, false_or, ne_eq,
        not_false_eq_true, true_and]

theorem lookup_puts_of_ne {l : List α} {f : α → Bytes} {g : α → Stored}
    (hk : ∀ x ∈ l, f x ≠ k) :
    (d.writeBatch (l.map fun x => .put (f x) (g x))).lookup k = d.lookup k := by
  induction l generalizing d with
  | nil => rfl
  | cons x l ih =>
    have hstep : d.writeBatch ((x :: l).map fun x => BatchOp.put (f x) (g x)) =
        writeBatch (d.insert (f x) (g x)) (l.map fun x => .put (f x) (g x)) := rfl
    rw [hstep, ih fun y hy => hk y (List.mem_cons_of_mem x hy),
      Finmap.lookup_insert_of_ne _ (hk x List.mem_cons_self).symm]

theorem lookup_deletePrefix_of_not (hk : ¬ p <+: k) :
    (d'.writeBatch (d.deletePrefix p)).lookup k = d'.lookup k := by
  rw [lookup_deletePrefix, if_neg fun h => hk (mem_scan.1 h).2]

theorem lookup_deletePrefix_self (hk : p <+: k) (hd : d'.lookup k = d.lookup k) :
    (d'.writeBatch (d.deletePrefix p)).lookup k = none := by
  rw [lookup_deletePrefix, hd]
  split
  · rfl
  · rename_i hmem
    exact Finmap.lookup_eq_none.2 fun h => hmem (mem_scan.2 ⟨h, hk⟩)

/-- The entries under `p` are those of the table. -/
def Under (d : DB) (p : Bytes) (table : Bytes → Stored → Prop) : Prop :=
  ∀ k v, p <+: k → (d.lookup k = some v ↔ table k v)

variable {table : Bytes → Stored → Prop}

theorem Under.frame (h : d.Under p table) (hd : ∀ k, p <+: k → d'.lookup k = d.lookup k) :
    d'.Under p table := by
  intro k v hk
  rw [hd k hk]
  exact h k v hk

theorem Under.insert_of_not (h : d.Under p table) (hkey : ¬ p <+: key) :
    Under (d.insert key v) p table := by
  refine h.frame fun k hk => Finmap.lookup_insert_of_ne _ fun he => ?_
  exact hkey (he ▸ hk)

theorem Under.insert (h : d.Under p table) (key : Bytes) (v : Stored) :
    Under (d.insert key v) p fun k w => if k = key then w = v else table k w := by
  intro k w hk
  dsimp only
  by_cases he : k = key
  · rw [if_pos he, he, Finmap.lookup_insert, Option.some.injEq, eq_comm]
  · rw [if_neg he, Finmap.lookup_insert_of_ne _ he]
    exact h k w hk

theorem under_puts {l : List α} {f : α → Bytes} {g : α → Stored}
    (hnone : ∀ k, p <+: k → d.lookup k = none)
    (hfg : ∀ x ∈ l, ∀ y ∈ l, f x = f y → g x = g y) :
    (d.writeBatch (l.map fun x => .put (f x) (g x))).Under p
      fun k v => ∃ x ∈ l, f x = k ∧ g x = v := by
  intro k v hk
  rw [lookup_puts hfg, hnone k hk]
  exact or_iff_left fun h => Option.some_ne_none v h.2.symm

theorem Under.congr {table' : Bytes → Stored → Prop} (h : d.Under p table)
    (ht : ∀ k v, table k v ↔ table' k v) : d.Under p table' :=
  fun k v hk => (h k v hk).trans (ht k v)

end

end DB

end LinKV

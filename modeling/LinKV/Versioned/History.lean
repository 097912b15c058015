import Mathlib.Data.List.Induction
import Mathlib.Logic.Function.Basic

namespace Versioned
set_option autoImplicit true

section

variable (rev : α → Int)

/-- The last item at or before `r`. -/
def latest (r : Int) (l : List α) : Option α := (l.filter fun x => rev x ≤ r).getLast?

/-- What is left when everything at or before `c` but the last such item is dropped. -/
def retain (c : Int) : List α → List α
  | [] => []
  | [x] => [x]
  | x :: y :: l => if rev y ≤ c then retain c (y :: l) else x :: y :: l

variable {rev} {c c' r : Int} {x : α} {l : List α}

theorem retain_suffix (c : Int) (l : List α) : retain rev c l <:+ l := by
  fun_induction retain rev c l with
  | case1 => exact List.suffix_rfl
  | case2 => exact List.suffix_rfl
  | case3 x y l _ ih => exact ih.trans (List.suffix_cons x (y :: l))
  | case4 => exact List.suffix_rfl

theorem retain_eq_nil : retain rev c l = [] ↔ l = [] := by
  fun_induction retain rev c l with
  | case1 => rfl
  | case2 => rfl
  | case3 x y l _ ih => simp only [ih, reduceCtorEq]
  | case4 => simp only [reduceCtorEq]

theorem getLast?_retain (c : Int) (l : List α) : (retain rev c l).getLast? = l.getLast? := by
  fun_induction retain rev c l with
  | case1 => rfl
  | case2 => rfl
  | case3 x y l _ ih => rw [ih, List.getLast?_cons_cons]
  | case4 => rfl

theorem retain_concat (l : List α) (h : c < rev x) :
    retain rev c (l ++ [x]) = retain rev c l ++ [x] := by
  fun_induction retain rev c l with
  | case1 => rfl
  | case2 a =>
    rw [List.singleton_append, retain, if_neg (Int.not_le.mpr h)]
  | case3 a b l hb ih =>
    rw [List.cons_append, List.cons_append, retain, if_pos hb, ← List.cons_append, ih]
  | case4 a b l hb => rw [List.cons_append, List.cons_append, retain, if_neg hb]

theorem retain_append (l : List α) {l' : List α} (h : ∀ x ∈ l', c < rev x) :
    retain rev c (l ++ l') = retain rev c l ++ l' := by
  induction l' using List.reverseRecOn with
  | nil => rw [List.append_nil, List.append_nil]
  | append_singleton l' x ih =>
    have hx := h x (List.mem_append_right l' (List.mem_singleton_self x))
    rw [← List.append_assoc, retain_concat _ hx, ← List.append_assoc,
      ih fun y hy => h y (List.mem_append_left _ hy)]

theorem retain_retain (h : c ≤ c') (l : List α) :
    retain rev c' (retain rev c l) = retain rev c' l := by
  fun_induction retain rev c l with
  | case1 => rfl
  | case2 => rfl
  | case3 a b l hb ih => rw [ih, retain, if_pos (Int.le_trans hb h)]
  | case4 => rfl

/-- Dropping items below the mark is not seen at or above it. -/
theorem latest_retain (h : c ≤ r) (l : List α) :
    latest rev r (retain rev c l) = latest rev r l := by
  fun_induction retain rev c l with
  | case1 => rfl
  | case2 => rfl
  | case3 a b l hb ih =>
    have hr : rev b ≤ r := Int.le_trans hb h
    have hfilter : (b :: l).filter (fun x => rev x ≤ r) =
        b :: l.filter (fun x => rev x ≤ r) := List.filter_cons_of_pos (decide_eq_true hr)
    rw [ih, latest, latest, hfilter, List.filter_cons, hfilter]
    split
    · rw [List.getLast?_cons_cons]
    · rfl
  | case4 => rfl

theorem latest_append {l₁ l₂ : List α} (h₁ : ∀ x ∈ l₁, rev x ≤ r) (h₂ : ∀ x ∈ l₂, r < rev x) :
    latest rev r (l₁ ++ l₂) = l₁.getLast? := by
  have hbefore : l₁.filter (fun x => rev x ≤ r) = l₁ :=
    List.filter_eq_self.mpr fun x hx => decide_eq_true (h₁ x hx)
  have hafter : l₂.filter (fun x => rev x ≤ r) = [] := by
    refine List.filter_eq_nil_iff.mpr fun x hx => ?_
    simpa only [decide_eq_true_eq, Int.not_le] using h₂ x hx
  rw [latest, List.filter_append, hbefore, hafter, List.append_nil]

theorem latest_eq_some_iff (hl : l.Pairwise fun x y => rev x < rev y) :
    latest rev r l = some x ↔ x ∈ l ∧ rev x ≤ r ∧ ∀ y ∈ l, rev y ≤ r → rev y ≤ rev x := by
  have hmem (y : α) : y ∈ l.filter (fun x => rev x ≤ r) ↔ y ∈ l ∧ rev y ≤ r := by
    rw [List.mem_filter, decide_eq_true_eq]
  have hf := hl.filter fun x => rev x ≤ r
  unfold latest
  rw [← and_assoc, ← hmem]
  simp only [← and_imp, ← hmem]
  generalize l.filter (fun x => rev x ≤ r) = f at hf
  cases f using List.reverseRecOn with
  | nil => exact iff_of_false (Option.some_ne_none x).symm fun h => List.not_mem_nil h.1
  | append_singleton f z =>
    have hz : ∀ y ∈ f, rev y < rev z := fun y hy =>
      (List.pairwise_append.mp hf).2.2 y hy z (List.mem_singleton_self z)
    rw [List.getLast?_concat, Option.some.injEq]
    constructor
    · rintro rfl
      refine ⟨List.mem_append_right f (List.mem_singleton_self z), fun y hy => ?_⟩
      rcases List.mem_append.mp hy with hy | hy
      · exact Int.le_of_lt (hz y hy)
      · exact Int.le_of_eq (congrArg rev (List.mem_singleton.mp hy))
    · rintro ⟨hx, hmax⟩
      rcases List.mem_append.mp hx with hx | hx
      · have hle := hmax z (List.mem_append_right f (List.mem_singleton_self z))
        exact absurd (hz x hx) (Int.not_lt.mpr hle)
      · exact (List.mem_singleton.mp hx).symm

theorem mem_retain (hl : l.Pairwise fun x y => rev x < rev y) (hx : x ∈ l) (h : c < rev x) :
    x ∈ retain rev c l := by
  fun_induction retain rev c l with
  | case1 => exact hx
  | case2 => exact hx
  | case3 a b l hb ih =>
    obtain ⟨ha, hl⟩ := List.pairwise_cons.mp hl
    rcases List.mem_cons.mp hx with rfl | hx
    · have := ha b List.mem_cons_self
      omega
    · exact ih hl hx
  | case4 => exact hx

theorem retain_map (f : β → α) (c : Int) (l : List β) :
    retain rev c (l.map f) = (retain (fun x => rev (f x)) c l).map f := by
  fun_induction retain (fun x => rev (f x)) c l with
  | case1 => rfl
  | case2 => rfl
  | case3 a b l hb ih => rw [← ih, List.map_cons, List.map_cons, retain, if_pos hb]
  | case4 a b l hb => rw [List.map_cons, List.map_cons, retain, if_neg hb]

theorem latest_map (f : β → α) (r : Int) (l : List β) :
    latest rev r (l.map f) = (latest (fun x => rev (f x)) r l).map f := by
  rw [latest, latest, List.filter_map, List.getLast?_map]
  rfl

/-- The items at or before `c` come first in a list sorted by `rev`, and `retain` cuts before the
last of them. -/
theorem retain_eq_drop (hl : l.Pairwise fun x y => rev x < rev y) :
    retain rev c l = l.drop ((l.takeWhile fun x => rev x ≤ c).length - 1) := by
  fun_induction retain rev c l with
  | case1 => rfl
  | case2 a =>
    rw [List.takeWhile_cons]
    split <;> rfl
  | case3 a b l hb ih =>
    obtain ⟨ha, hl⟩ := List.pairwise_cons.mp hl
    have hab := ha b List.mem_cons_self
    have hac : rev a ≤ c := by omega
    have htake {z : α} (l : List α) (hz : rev z ≤ c) :
        ((z :: l).takeWhile fun x => rev x ≤ c) = z :: l.takeWhile fun x => rev x ≤ c :=
      List.takeWhile_cons_of_pos (decide_eq_true hz)
    rw [ih hl, htake (b :: l) hac, htake l hb]
    rfl
  | case4 a b l hb =>
    rw [List.takeWhile_cons]
    split
    · rw [List.takeWhile_cons_of_neg (by simpa only [decide_eq_true_eq] using hb)]
      rfl
    · rfl

theorem upTo_begins (hl : l.Pairwise fun x y => rev x < rev y) (r : Int) :
    l.filter (fun x => rev x ≤ r) <+: l := by
  induction l with
  | nil => exact List.prefix_rfl
  | cons x l ih =>
    obtain ⟨hx, hl⟩ := List.pairwise_cons.mp hl
    by_cases hr : rev x ≤ r
    · have hcons : (x :: l).filter (fun y => rev y ≤ r) = x :: l.filter (fun y => rev y ≤ r) :=
        List.filter_cons_of_pos (decide_eq_true hr)
      rw [hcons]
      exact (List.prefix_cons_inj x).mpr (ih hl)
    · have hnil : (x :: l).filter (fun y => rev y ≤ r) = [] := by
        refine List.filter_eq_nil_iff.mpr fun y hy => ?_
        rw [decide_eq_true_eq]
        rcases List.mem_cons.mp hy with rfl | hy
        · exact hr
        · have := hx y hy
          omega
      rw [hnil]
      exact List.nil_prefix

theorem upTo_next (hl : l.Pairwise fun x y => rev x < rev y) (hx : x ∈ l) (hr : r < rev x)
    (hnext : ∀ y ∈ l, r < rev y → rev x ≤ rev y) :
    l.filter (fun y => rev y ≤ rev x) = l.filter (fun y => rev y ≤ r) ++ [x] := by
  obtain ⟨l₁, l₂, rfl⟩ := List.append_of_mem hx
  obtain ⟨-, h₂, h₁₂⟩ := List.pairwise_append.mp hl
  obtain ⟨hx₂, -⟩ := List.pairwise_cons.mp h₂
  have hbefore (y : α) (hy : y ∈ l₁) : rev y ≤ r ∧ rev y ≤ rev x := by
    have hlt := h₁₂ y hy x List.mem_cons_self
    have hle := hnext y (List.mem_append_left _ hy)
    omega
  have hafter (y : α) (hy : y ∈ l₂) : ¬ rev y ≤ r ∧ ¬ rev y ≤ rev x := by
    have hlt := hx₂ y hy
    omega
  have hkeep {m : Int} (hm : ∀ y ∈ l₁, rev y ≤ m) : l₁.filter (fun y => rev y ≤ m) = l₁ :=
    List.filter_eq_self.mpr fun y hy => decide_eq_true (hm y hy)
  have hdrop {m : Int} (hm : ∀ y ∈ l₂, ¬ rev y ≤ m) : l₂.filter (fun y => rev y ≤ m) = [] :=
    List.filter_eq_nil_iff.mpr fun y hy => by simpa only [decide_eq_true_eq] using hm y hy
  rw [List.filter_append, List.filter_append, hkeep fun y hy => (hbefore y hy).1,
    hkeep fun y hy => (hbefore y hy).2, List.filter_cons, List.filter_cons,
    if_pos (decide_eq_true (Int.le_refl _)), if_neg (by simpa using hr),
    hdrop fun y hy => (hafter y hy).1, hdrop fun y hy => (hafter y hy).2, List.append_nil]

end

section

variable {K V : Type} [DecidableEq K]

/-- The writes of `key`, with their numbers in a history that goes on from number `i`. -/
def versionsFrom (key : K) : Int → List (K × V) → List (Int × V)
  | _, [] => []
  | i, w :: h =>
    if w.1 = key then (i, w.2) :: versionsFrom key (i + 1) h else versionsFrom key (i + 1) h

def versions (h : List (K × V)) (key : K) : List (Int × V) := versionsFrom key 1 h

/-- The plain map a history leads to, from one that is `init` everywhere. -/
def replay (init : V) (h : List (K × V)) : K → V :=
  h.foldl (fun m w => Function.update m w.1 w.2) fun _ => init

variable {h h' : List (K × V)} {key : K} {x : Int × V} {i : Int}

theorem versionsFrom_append (key : K) (i : Int) (h h' : List (K × V)) :
    versionsFrom key i (h ++ h') =
      versionsFrom key i h ++ versionsFrom key (i + h.length) h' := by
  induction h generalizing i with
  | nil => rw [List.nil_append, List.length_nil, Int.natCast_zero, Int.add_zero]; rfl
  | cons w h ih =>
    have hi : i + 1 + (h.length : Int) = i + ((w :: h).length : Int) := by
      rw [List.length_cons]
      omega
    rw [List.cons_append, versionsFrom, versionsFrom, ih, hi]
    split <;> rfl

theorem versions_concat (h : List (K × V)) (w : K × V) (key : K) :
    versions (h ++ [w]) key =
      if key = w.1 then versions h key ++ [((h.length : Int) + 1, w.2)] else versions h key := by
  rw [versions, versionsFrom_append, versionsFrom, Int.add_comm 1]
  by_cases hk : w.1 = key
  · rw [if_pos hk, if_pos hk.symm]
    rfl
  · rw [if_neg hk, if_neg (Ne.symm hk)]
    exact List.append_nil _

theorem mem_versionsFrom :
    x ∈ versionsFrom key i h ↔ ∃ j : Nat, x.1 = i + j ∧ h[j]? = some (key, x.2) := by
  induction h generalizing i with
  | nil =>
    constructor
    · exact fun hx => nomatch hx
    · rintro ⟨j, -, hj⟩
      cases hj
  | cons w h ih =>
    have hcons : x ∈ versionsFrom key i (w :: h) ↔
        (w.1 = key ∧ x = (i, w.2)) ∨ x ∈ versionsFrom key (i + 1) h := by
      rw [versionsFrom]
      split <;> simp_all
    rw [hcons, ih]
    constructor
    · rintro (⟨rfl, rfl⟩ | ⟨j, hj, hh⟩)
      · exact ⟨0, by simp, rfl⟩
      · exact ⟨j + 1, by rw [hj]; omega, hh⟩
    · rintro ⟨j, hj, hh⟩
      cases j with
      | zero =>
        obtain rfl : w = (key, x.2) := Option.some.inj hh
        exact .inl ⟨rfl, Prod.ext (by simpa using hj) rfl⟩
      | succ j => exact .inr ⟨j, by omega, hh⟩

theorem mem_versions :
    x ∈ versions h key ↔ ∃ j : Nat, x.1 = j + 1 ∧ h[j]? = some (key, x.2) := by
  rw [versions, mem_versionsFrom]
  simp only [Int.add_comm]

theorem versions_bounds (hx : x ∈ versions h key) : 1 ≤ x.1 ∧ x.1 ≤ h.length := by
  obtain ⟨j, hj, hh⟩ := mem_versions.mp hx
  have hlt := (List.getElem?_eq_some_iff.mp hh).1
  omega

theorem versionsFrom_pairwise (key : K) (i : Int) (h : List (K × V)) :
    (versionsFrom key i h).Pairwise fun x y => x.1 < y.1 := by
  induction h generalizing i with
  | nil => exact List.Pairwise.nil
  | cons w h ih =>
    rw [versionsFrom]
    split
    · refine List.pairwise_cons.mpr ⟨fun y hy => ?_, ih (i + 1)⟩
      obtain ⟨j, hj, -⟩ := mem_versionsFrom.mp hy
      omega
    · exact ih (i + 1)

theorem versions_pairwise (h : List (K × V)) (key : K) :
    (versions h key).Pairwise fun x y => x.1 < y.1 := versionsFrom_pairwise key 1 h

theorem latest_versions (h : List (K × V)) (key : K) (r : Nat) :
    latest Prod.fst r (versions h key) = (versions (h.take r) key).getLast? := by
  have hsplit : versions h key = versions (h.take r) key ++
      versionsFrom key (1 + (h.take r).length) (h.drop r) := by
    rw [versions, versions, ← versionsFrom_append, List.take_append_drop]
  rw [hsplit]
  apply latest_append
  · intro x hx
    have hb := versions_bounds hx
    have hlen := List.length_take_le r h
    omega
  · intro x hx
    obtain ⟨j, hj, hh⟩ := mem_versionsFrom.mp hx
    have hlt := (List.getElem?_eq_some_iff.mp hh).1
    rw [List.length_drop] at hlt
    rw [List.length_take] at hj
    omega

theorem versions_map (f : V → W) (h : List (K × V)) (key : K) :
    versions (h.map fun x => (x.1, f x.2)) key = (versions h key).map fun x => (x.1, f x.2) := by
  induction h using List.reverseRecOn with
  | nil => rfl
  | append_singleton h w ih =>
    rw [List.map_append, List.map_singleton, versions_concat, versions_concat, ih, List.length_map]
    split
    · rw [List.map_append, List.map_singleton]
    · rfl

theorem replay_concat (init : V) (h : List (K × V)) (w : K × V) (key : K) :
    replay init (h ++ [w]) key = if key = w.1 then w.2 else replay init h key := by
  rw [replay, List.foldl_append]
  exact Function.update_apply ..

theorem replay_eq (init : V) (h : List (K × V)) (key : K) :
    replay init h key = ((versions h key).getLast?.map Prod.snd).getD init := by
  induction h using List.reverseRecOn with
  | nil => rfl
  | append_singleton h w ih =>
    rw [replay, List.foldl_append, versions_concat]
    by_cases hk : key = w.1
    · subst hk
      rw [if_pos rfl, List.getLast?_concat]
      exact Function.update_self ..
    · rw [if_neg hk, ← ih]
      exact Function.update_of_ne hk ..

/-- Compaction below `r` does not change what the last version at `r` says of the key. -/
theorem latest_retain_versions (init : V) (h : List (K × V)) (key : K) {c : Int} {r : Nat}
    (hc : c ≤ r) : ((latest Prod.fst r (retain Prod.fst c (versions h key))).map Prod.snd).getD init
      = replay init (h.take r) key := by
  rw [latest_retain hc, latest_versions, replay_eq]

end

end Versioned

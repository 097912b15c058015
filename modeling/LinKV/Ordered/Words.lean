import Mathlib.Data.List.Basic

namespace Ordered
set_option autoImplicit true

section

variable {α β : Type} [LT α] [LT β]

theorem begins_of_between [Std.Trichotomous (α := α) (· < ·)] {p x y : List α} (hx : ¬ x < p)
    (hy : ¬ y < x) (hp : p <+: y) : p <+: x := by
  induction p generalizing x y with
  | nil => exact List.nil_prefix
  | cons a p ih =>
    obtain ⟨rest, rfl⟩ := hp
    cases x with
    | nil => exact absurd (List.nil_lt_cons a p) hx
    | cons b x =>
      rw [List.cons_lt_cons_iff, not_or] at hx
      rw [List.cons_append, List.cons_lt_cons_iff, not_or] at hy
      obtain rfl : b = a := Std.Trichotomous.trichotomous b a hx.1 hy.1
      have hx' : ¬ x < p := fun h => hx.2 ⟨rfl, h⟩
      have hy' : ¬ p ++ rest < x := fun h => hy.2 ⟨rfl, h⟩
      exact List.cons_prefix_cons.2 ⟨rfl, ih hx' hy' (List.prefix_append p rest)⟩

theorem begins_iff_of_top [Std.Trichotomous (α := α) (· < ·)] {w x : List α}
    (htop : ∀ a ∈ w, ∀ y, ¬ a < y) : w <+: x ↔ ¬ x < w := by
  induction w generalizing x with
  | nil => exact iff_of_true List.nil_prefix (List.not_lt_nil x)
  | cons a w ih =>
    rw [List.forall_mem_cons] at htop
    cases x with
    | nil =>
      exact iff_of_false (List.cons_ne_nil a w ∘ List.prefix_nil.1)
        (not_not.2 (List.nil_lt_cons a w))
    | cons c x =>
      rw [List.cons_prefix_cons, List.cons_lt_cons_iff, ih htop.2, not_or]
      constructor
      · rintro ⟨rfl, hx⟩
        exact ⟨htop.1 a, fun h => hx h.2⟩
      · rintro ⟨hc, hx⟩
        obtain rfl : c = a := Std.Trichotomous.trichotomous c a hc (htop.1 c)
        exact ⟨rfl, fun h => hx ⟨rfl, h⟩⟩

/-- The words that begin with `q`, a letter `b` and greatest letters are those between this word
and `q` with the letter that comes after `b`. -/
theorem begins_iff_between [Std.Trichotomous (α := α) (· < ·)] [Std.Irrefl (α := α) (· < ·)]
    {q w x : List α} (hsucc : ∀ y, y < b' ↔ ¬ b < y) (htop : ∀ a ∈ w, ∀ y, ¬ a < y) :
    q ++ b :: w <+: x ↔ ¬ x < q ++ b :: w ∧ x < q ++ [b'] := by
  have hirr (a : α) : ¬ a < a := Std.Irrefl.irrefl a
  induction q generalizing x with
  | nil =>
    cases x with
    | nil =>
      exact iff_of_false (List.cons_ne_nil b w ∘ List.prefix_nil.1)
        fun h => h.1 (List.nil_lt_cons b w)
    | cons c x =>
      rw [List.nil_append, List.nil_append, List.cons_prefix_cons, List.cons_lt_cons_iff,
        List.cons_lt_cons_iff, begins_iff_of_top htop, not_or]
      constructor
      · rintro ⟨rfl, hx⟩
        exact ⟨⟨hirr b, fun h => hx h.2⟩, .inl ((hsucc b).2 (hirr b))⟩
      · rintro ⟨⟨hc, hx⟩, hlt⟩
        have hb : ¬ b < c := (hsucc c).1 (hlt.resolve_right fun h => List.not_lt_nil x h.2)
        obtain rfl : c = b := Std.Trichotomous.trichotomous c b hc hb
        exact ⟨rfl, fun h => hx ⟨rfl, h⟩⟩
  | cons a q ih =>
    cases x with
    | nil =>
      exact iff_of_false (List.cons_ne_nil a _ ∘ List.prefix_nil.1)
        fun h => h.1 (List.nil_lt_cons a _)
    | cons c x =>
      have hrest : q ++ b :: w <+: x ↔ ¬ x < q ++ b :: w ∧ x < q ++ [b'] := ih
      rw [List.cons_append, List.cons_append, List.cons_prefix_cons, List.cons_lt_cons_iff,
        List.cons_lt_cons_iff, hrest, not_or]
      constructor
      · rintro ⟨rfl, hlo, hhi⟩
        exact ⟨⟨hirr a, fun h => hlo h.2⟩, .inr ⟨rfl, hhi⟩⟩
      · rintro ⟨⟨hc, hlo⟩, hhi⟩
        obtain ⟨rfl, hx⟩ := hhi.resolve_left hc
        exact ⟨rfl, fun h => hlo ⟨rfl, h⟩, hx⟩

theorem append_lt_append_iff {u v x y : List α} (hl : u.length = v.length) :
    u ++ x < v ++ y ↔ u < v ∨ u = v ∧ x < y := by
  induction u generalizing v with
  | nil =>
    obtain rfl : v = [] := List.length_eq_zero_iff.1 hl.symm
    rw [List.nil_append, List.nil_append]
    exact ⟨fun h => .inr ⟨rfl, h⟩, fun h => h.elim (absurd · (List.not_lt_nil [])) And.right⟩
  | cons a u ih =>
    cases v with
    | nil => cases hl
    | cons b v =>
      have hl' : u.length = v.length := Nat.succ.inj hl
      rw [List.cons_append, List.cons_append, List.cons_lt_cons_iff, List.cons_lt_cons_iff, ih hl',
        List.cons.injEq, and_or_left, or_assoc, and_assoc]

theorem flatMap_lt_flatMap_iff {code : α → List β} (hne : ∀ x, code x ≠ [])
    (hlen : ∀ x y, (code x).length = (code y).length) (hinj : ∀ x y, code x = code y ↔ x = y)
    (hlt : ∀ x y, code x < code y ↔ x < y) {u v : List α} :
    u.flatMap code < v.flatMap code ↔ u < v := by
  induction u generalizing v with
  | nil =>
    cases v with
    | nil => exact iff_of_false (List.not_lt_nil _) (List.not_lt_nil _)
    | cons y v =>
      refine iff_of_true ?_ (List.nil_lt_cons y v)
      rw [List.flatMap_nil, List.flatMap_cons]
      cases hy : code y with
      | nil => exact absurd hy (hne y)
      | cons c cs => exact List.nil_lt_cons c _
  | cons x u ih =>
    cases v with
    | nil => exact iff_of_false (List.not_lt_nil _) (List.not_lt_nil _)
    | cons y v =>
      rw [List.flatMap_cons, List.flatMap_cons, append_lt_append_iff (hlen x y), hlt, hinj, ih,
        List.cons_lt_cons_iff]

end

theorem takeWhile_eq_filter {p : α → Bool} {l : List α}
    (hl : l.Pairwise fun x y => p y = true → p x = true) : l.takeWhile p = l.filter p := by
  induction l with
  | nil => rfl
  | cons x l ih =>
    rw [List.pairwise_cons] at hl
    cases hx : p x with
    | true => rw [List.takeWhile_cons_of_pos hx, List.filter_cons_of_pos hx, ih hl.2]
    | false =>
      have hx' : ¬ p x = true := Bool.eq_false_iff.1 hx
      have hnone : l.filter p = [] := List.filter_eq_nil_iff.2 fun y hy hpy => hx' (hl.1 y hy hpy)
      rw [List.takeWhile_cons_of_neg hx', List.filter_cons_of_neg hx', hnone]

end Ordered

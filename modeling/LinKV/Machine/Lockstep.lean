import Mathlib.Logic.Basic

namespace Machine
set_option autoImplicit true

/-- The outputs of a machine that answers every input, with the state it ends in. -/
def run (step : σ → ι → σ × ο) (s : σ) : List ι → σ × List ο
  | [] => (s, [])
  | i :: is =>
    let rest := run step (step s i).1 is
    (rest.1, (step s i).2 :: rest.2)

/-- `C` holds of two machines and their inputs at every step they take side by side. -/
def Steady (step : σ → ι → σ × ο) (C : σ → σ → ι → ι → Prop) : σ → σ → List (ι × ι) → Prop
  | _, _, [] => True
  | s, t, (i, j) :: is => C s t i j ∧ Steady step C (step s i).1 (step t j).1 is

instance Steady.decidable {step : σ → ι → σ × ο} {C : σ → σ → ι → ι → Prop}
    [∀ s t i j, Decidable (C s t i j)] : (s t : σ) → (is : List (ι × ι)) →
    Decidable (Steady step C s t is)
  | _, _, [] => instDecidableTrue
  | s, t, (i, j) :: is =>
    have : Decidable (Steady step C (step s i).1 (step t j).1 is) := Steady.decidable _ _ is
    inferInstanceAs (Decidable (C s t i j ∧ Steady step C (step s i).1 (step t j).1 is))

/-- Two machines that answer alike and stay related in every step that satisfies `C` do so over
whole runs. -/
theorem Steady.run {step : σ → ι → σ × ο} {R : σ → σ → Prop} (h : Steady step C s t is) (hR : R s t)
    (hstep : ∀ s t i j, R s t → C s t i j →
      R (step s i).1 (step t j).1 ∧ (step s i).2 = (step t j).2) :
    R (run step s (is.map Prod.fst)).1 (run step t (is.map Prod.snd)).1 ∧
      (run step s (is.map Prod.fst)).2 = (run step t (is.map Prod.snd)).2 := by
  induction is generalizing s t with
  | nil => exact ⟨hR, rfl⟩
  | cons i is ih =>
    obtain ⟨hC, hrest⟩ := h
    obtain ⟨hR', hout⟩ := hstep s t i.1 i.2 hR hC
    obtain ⟨hend, houts⟩ := ih hrest hR'
    refine ⟨hend, ?_⟩
    simp only [List.map_cons, Machine.run, hout, houts]

def outputs (step : σ → ι → σ × ο) (p : ι → Bool) (s : σ) : List ι → List ο
  | [] => []
  | i :: is =>
    if p i then (step s i).2 :: outputs step p (step s i).1 is else outputs step p (step s i).1 is

/-- If the inputs that `p` does not select leave a machine related to one that does not get them,
and the others are answered alike, the first machine gives all answers of the second. -/
theorem run_filter {step : σ → ι → σ × ο} {step' : τ → ι → τ × ο} {R : σ → τ → Prop}
    {p : ι → Bool} (hR : R s t)
    (hin : ∀ i ∈ is, p i = true → ∀ s t, R s t →
      R (step s i).1 (step' t i).1 ∧ (step s i).2 = (step' t i).2)
    (hout : ∀ i ∈ is, p i = false → ∀ s t, R s t → R (step s i).1 t) :
    R (run step s is).1 (run step' t (is.filter p)).1 ∧
      outputs step p s is = (run step' t (is.filter p)).2 := by
  induction is generalizing s t with
  | nil => exact ⟨hR, rfl⟩
  | cons i is ih =>
    have ih' {s : σ} {t : τ} (hR : R s t) := ih hR (fun j hj => hin j (List.mem_cons_of_mem i hj))
      fun j hj => hout j (List.mem_cons_of_mem i hj)
    cases hp : p i with
    | true =>
      obtain ⟨hR', ho⟩ := hin i List.mem_cons_self hp s t hR
      obtain ⟨hend, houts⟩ := ih' hR'
      rw [List.filter_cons_of_pos hp]
      refine ⟨hend, ?_⟩
      simp only [outputs, Machine.run, hp, if_true, ho, houts]
    | false =>
      obtain ⟨hend, houts⟩ := ih' (hout i List.mem_cons_self hp s t hR)
      rw [List.filter_cons_of_neg (Bool.eq_false_iff.1 hp)]
      refine ⟨hend, ?_⟩
      simp only [outputs, hp, Bool.false_eq_true, if_false, houts]

end Machine

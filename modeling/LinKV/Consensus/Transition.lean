import Mathlib.Logic.Basic

namespace Consensus
set_option autoImplicit true

/-- States reached from `s₀` by enabled steps that all satisfy `ok`. -/
inductive ReachableBy (step : σ → α → Option σ) (ok : σ → α → Prop) (s₀ : σ) : σ → Prop
  | init : ReachableBy step ok s₀ s₀
  | step : ReachableBy step ok s₀ s → ok s a → step s a = some s' →
      ReachableBy step ok s₀ s'

theorem ReachableBy.trans (h : ReachableBy stp ok s₀ s) (h' : ReachableBy stp ok s s') :
    ReachableBy stp ok s₀ s' := by
  induction h' with
  | init => exact h
  | step _ ha hs ih => exact .step ih ha hs

theorem ReachableBy.mono (h : ReachableBy stp ok s₀ s) (hok : ∀ s a, ok s a → ok' s a) :
    ReachableBy stp ok' s₀ s := by
  induction h with
  | init => exact .init
  | step _ ha hs ih => exact .step ih (hok _ _ ha) hs

/-- The step, with a list to which what is noted of it is added. -/
def noting (step : σ → α → Option σ) (notes : σ → α → List β) (x : σ × List β) (a : α) :
    Option (σ × List β) :=
  (step x.1 a).map fun s => (s, x.2 ++ notes x.1 a)

theorem noting_eq_some (h : noting stp notes x a = some x') :
    stp x.1 a = some x'.1 ∧ x'.2 = x.2 ++ notes x.1 a := by
  obtain ⟨s, hs, rfl⟩ := Option.map_eq_some_iff.1 h
  exact ⟨hs, rfl⟩

theorem ReachableBy.of_noting {x₀ x : σ × List β}
    (h : ReachableBy (noting stp notes) (fun x a => ok x.1 a) x₀ x) :
    ReachableBy stp ok x₀.1 x.1 := by
  induction h with
  | init => exact .init
  | step _ ha hs ih => exact .step ih ha (noting_eq_some hs).1

/-- The actions are all enabled and satisfy `ok`, and the state after them satisfies `P`. -/
def RunsTo (step : σ → α → Option σ) (ok : σ → α → Prop) (P : σ → Prop) : σ → List α → Prop
  | s, [] => P s
  | s, a :: as => (step s a).elim False fun s' => ok s a ∧ RunsTo step ok P s' as

/-- The actions, all enabled and satisfying `ok`, lead from one state to the other. -/
inductive Run (step : σ → α → Option σ) (ok : σ → α → Prop) : σ → List α → σ → Prop
  | nil : Run step ok s [] s
  | cons : ok s a → step s a = some s' → Run step ok s' as s'' → Run step ok s (a :: as) s''

/-- Repeating an action for as long as it is enabled leads to one state only. -/
theorem Run.exhaust (h : Run stp ok s (List.replicate m a) t) (hd : stp t a = none)
    (h' : Run stp ok' s (List.replicate n a) t') (hd' : stp t' a = none) : t = t' := by
  induction m generalizing s n with
  | zero =>
    cases h
    cases n with
    | zero => cases h'; rfl
    | succ n =>
      cases h' with
      | cons _ hs _ => rw [hd] at hs; cases hs
  | succ m ih =>
    cases h with
    | cons _ hs hr =>
      cases n with
      | zero => cases h'; rw [hd'] at hs; cases hs
      | succ n =>
        cases h' with
        | cons _ hs' hr' =>
          cases hs.symm.trans hs'
          exact ih hr hr'

/-- If the steps that are not `visible` go unnoticed by a system that does not take them, a run
goes through without them as well. -/
theorem Run.filter {R : σ → τ → Prop} {visible : α → Bool} {stp' : τ → α → Option τ}
    (h : Run stp ok s as s') (hR : R s t)
    (hvis : ∀ s t a s', R s t → stp s a = some s' → visible a = true →
      ∃ t', stp' t a = some t' ∧ R s' t')
    (hhid : ∀ s t a s', R s t → ok s a → stp s a = some s' → visible a = false → R s' t) :
    ∃ t', Run stp' (fun _ _ => True) t (as.filter visible) t' ∧ R s' t' := by
  induction h generalizing t with
  | nil => exact ⟨t, .nil, hR⟩
  | @cons s a s₁ as s' ha hs hr ih =>
    cases hv : visible a with
    | true =>
      obtain ⟨t₁, ht₁, hR₁⟩ := hvis s t a s₁ hR hs hv
      obtain ⟨t', ht', hR'⟩ := ih hR₁
      rw [List.filter_cons_of_pos hv]
      exact ⟨t', .cons trivial ht₁ ht', hR'⟩
    | false =>
      rw [List.filter_cons_of_neg (Bool.eq_false_iff.1 hv)]
      exact ih (hhid s t a s₁ hR ha hs hv)

section

variable {σ α : Type} {stp : σ → α → Option σ} {ok : σ → α → Prop} {P : σ → Prop}

instance decidableElim {o : Option σ} {Q : σ → Prop} [∀ x, Decidable (Q x)] :
    Decidable (o.elim False Q) :=
  match o with
  | none => instDecidableFalse
  | some x => inferInstanceAs (Decidable (Q x))

instance RunsTo.decidable [∀ s a, Decidable (ok s a)] [∀ s, Decidable (P s)] :
    (s : σ) → (as : List α) → Decidable (RunsTo stp ok P s as)
  | s, [] => inferInstanceAs (Decidable (P s))
  | s, a :: as =>
    have : ∀ s', Decidable (RunsTo stp ok P s' as) := fun s' => RunsTo.decidable s' as
    inferInstanceAs (Decidable ((stp s a).elim False fun s' => ok s a ∧ RunsTo stp ok P s' as))

theorem exists_of_elim {o : Option σ} {Q : σ → Prop} (h : o.elim False Q) :
    ∃ x, o = some x ∧ Q x := by
  cases o with
  | none => exact h.elim
  | some x => exact ⟨x, rfl, h⟩

theorem RunsTo.run (h : RunsTo stp ok P s as) : ∃ s', Run stp ok s as s' ∧ P s' := by
  induction as generalizing s with
  | nil => exact ⟨s, .nil, h⟩
  | cons a as ih =>
    obtain ⟨s₁, hs, ha, hrest⟩ := exists_of_elim h
    obtain ⟨s', hr, hp⟩ := ih hrest
    exact ⟨s', .cons ha hs hr, hp⟩

theorem Run.reachable (h : Run stp ok s as s') : ReachableBy stp ok s s' := by
  induction h with
  | nil => exact .init
  | cons ha hs _ ih => exact .trans (.step .init ha hs) ih

theorem RunsTo.reachable (h : RunsTo stp ok P s as) :
    ∃ s', ReachableBy stp ok s s' ∧ P s' := by
  obtain ⟨s', hr, hp⟩ := h.run
  exact ⟨s', hr.reachable, hp⟩

end

end Consensus

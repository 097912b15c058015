import LinKV.Consensus.Transition

namespace Consensus
set_option autoImplicit true

/-- Some run from the state, with steps that all satisfy `ok`, leads to a state with `Q`. -/
def Can (step : σ → α → Option σ) (ok : σ → α → Prop) (Q : σ → Prop) (s : σ) : Prop :=
  ∃ s', ReachableBy step ok s s' ∧ Q s'

section

variable {σ α : Type} {stp : σ → α → Option σ} {ok : σ → α → Prop} {P Q : σ → Prop} {s s' : σ}

theorem Can.now (h : Q s) : Can stp ok Q s := ⟨s, .init, h⟩

theorem Can.act (a : α) (ha : ok s a) (hs : stp s a = some s') (h : Can stp ok Q s') :
    Can stp ok Q s := by
  obtain ⟨t, hr, hQ⟩ := h
  exact ⟨t, .trans (.step .init ha hs) hr, hQ⟩

theorem Can.bind (h : Can stp ok P s)
    (hPQ : ∀ t, ReachableBy stp ok s t → P t → Can stp ok Q t) : Can stp ok Q s := by
  obtain ⟨t, hr, hP⟩ := h
  obtain ⟨u, hr', hQ⟩ := hPQ t hr hP
  exact ⟨u, hr.trans hr', hQ⟩

theorem Can.mono (h : Can stp ok P s) (hPQ : ∀ t, P t → Q t) : Can stp ok Q s := by
  obtain ⟨t, hr, hP⟩ := h
  exact ⟨t, hr, hPQ t hP⟩

/-- If what every step leads to can be reached by a related system as well, every state that is
reached is related to one that it can reach. -/
theorem ReachableBy.simulate {τ β : Type} {stp' : τ → β → Option τ} {ok' : τ → β → Prop}
    {R : σ → τ → Prop} {t : τ} (h : ReachableBy stp ok s s') (hR : R s t)
    (hstep : ∀ s t a s', R s t → ok s a → stp s a = some s' → Can stp' ok' (R s') t) :
    Can stp' ok' (R s') t := by
  induction h with
  | init => exact .now hR
  | step _ ha hs ih => exact ih.bind fun u _ hu => hstep _ u _ _ hu ha hs

theorem Can.exhaust (m : σ → Nat)
    (hstep : ∀ s, P s → m s ≠ 0 → Can stp ok (fun s' => P s' ∧ m s' < m s) s) (h : P s) :
    Can stp ok (fun s' => P s' ∧ m s' = 0) s := by
  induction hm : m s using Nat.strongRecOn generalizing s with
  | ind k ih =>
    by_cases hk : m s = 0
    · exact .now ⟨h, hk⟩
    · apply (hstep s h hk).bind
      intro t _ ht
      exact ih (m t) (hm ▸ ht.2) ht.1 rfl

end

end Consensus

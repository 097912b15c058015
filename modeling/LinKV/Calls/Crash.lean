import LinKV.Calls.Program

namespace Calls
set_option autoImplicit true

section

variable {Call σ τ α β : Type} {Answer : Call → Type}

/-- The state a program leaves that stops for good after `n` calls, if it has not ended before. -/
def Program.cut (srv : Service Answer σ) : Nat → Program Answer α → σ → Option σ
  | 0, _, s => some s
  | _ + 1, .done _, s => some s
  | n + 1, .call c next, s =>
    match srv c s with
    | none => none
    | some (r, s') => (next r).cut srv n s'

/-- The program makes legal calls only, which are all answered. Wherever it stops the state
satisfies `crash`, and when it ends it has kept to `post`. -/
inductive Withstands (srv : Service Answer σ) (legal : σ → Call → Prop) (crash : σ → Prop)
    (post : α → σ → Prop) : σ → Program Answer α → Prop
  | done : crash s → post a s → Withstands srv legal crash post s (.done a)
  | call : crash s → legal s c → srv c s = some (r, s') →
      Withstands srv legal crash post s' (next r) →
      Withstands srv legal crash post s (.call c next)

inductive Program.Only (P : Call → Prop) : Program Answer α → Prop
  | done : Only P (.done a)
  | call : P c → (∀ r, Only P (next r)) → Only P (.call c next)

variable {srv : Service Answer σ} {srv' : Service Answer τ} {legal : σ → Call → Prop}
  {crash crash' : σ → Prop} {post post' : α → σ → Prop} {R : σ → τ → Prop} {s s' : σ} {t : τ}
  {p : Program Answer α} {a : α}

theorem Withstands.start (h : Withstands srv legal crash post s p) : crash s := by
  cases h with
  | done hc _ => exact hc
  | call hc _ _ _ => exact hc

theorem Withstands.mono (h : Withstands srv legal crash post s p)
    (hcrash : ∀ s, crash s → crash' s) (hpost : ∀ a s, post a s → post' a s) :
    Withstands srv legal crash' post' s p := by
  induction h with
  | done hc hp => exact .done (hcrash _ hc) (hpost _ _ hp)
  | call hc hl ha _ ih => exact .call (hcrash _ hc) hl ha ih

theorem Withstands.bind {f : α → Program Answer β} {fin : β → σ → Prop}
    (hp : Withstands srv legal crash post s p)
    (hf : ∀ a s, post a s → Withstands srv legal crash fin s (f a)) :
    Withstands srv legal crash fin s (p >>= f) := by
  induction hp with
  | done _ hpost => exact hf _ _ hpost
  | call hc hl ha _ ih => exact .call hc hl ha ih

theorem Withstands.ask {c : Call} {r : Answer c} {f : Answer c → Program Answer β}
    {fin : β → σ → Prop} (hc : crash s) (hl : legal s c) (ha : srv c s = some (r, s'))
    (hf : Withstands srv legal crash fin s' (f r)) :
    Withstands srv legal crash fin s (Calls.ask c >>= f) :=
  .call hc hl ha hf

theorem Withstands.goes (h : Withstands srv legal crash post s p) :
    ∃ a s', Goes srv legal s p a s' ∧ post a s' := by
  induction h with
  | done _ hp => exact ⟨_, _, .done, hp⟩
  | call _ hl ha _ ih =>
    obtain ⟨a, s', hg, hp⟩ := ih
    exact ⟨a, s', .call hl ha hg, hp⟩

theorem Withstands.ends (h : Withstands srv legal crash post s p) (hg : Goes srv legal s p a s') :
    Withstands srv legal crash (fun b t => b = a ∧ t = s') s p := by
  induction hg with
  | done => exact .done h.start ⟨rfl, rfl⟩
  | call hl ha _ ih =>
    cases h with
    | call hc _ ha' hrest =>
      cases ha.symm.trans ha'
      exact .call hc hl ha (ih hrest)

theorem Program.Only.withstands {P : Call → Prop} (h : p.Only P)
    (hP : ∀ c, P c → legal s c ∧ ∃ r, srv c s = some (r, s)) (hs : crash s) :
    Withstands srv legal crash (fun _ t => t = s) s p := by
  induction h with
  | done => exact .done hs rfl
  | call hc _ ih =>
    obtain ⟨hl, r, ha⟩ := hP _ hc
    exact .call hs hl ha (ih r)

theorem Program.Only.bind {P : Call → Prop} {f : α → Program Answer β} (hp : p.Only P)
    (hf : ∀ a, (f a).Only P) : (p >>= f).Only P := by
  induction hp with
  | done => exact hf _
  | call hc _ ih => exact .call hc ih

theorem Simulates.cut (h : Simulates srv srv' legal R) (hp : Withstands srv legal crash post s p)
    (hR : R s t) (n : Nat) :
    ∃ s' t', p.cut srv n s = some s' ∧ p.cut srv' n t = some t' ∧ R s' t' ∧ crash s' := by
  induction hp generalizing t n with
  | @done s a hc _ => cases n <;> exact ⟨s, t, rfl, rfl, hR, hc⟩
  | @call s c r s₁ _ hc hl ha _ ih =>
    cases n with
    | zero => exact ⟨s, t, rfl, rfl, hR, hc⟩
    | succ n =>
      obtain ⟨r', s', t', hs, ht, hR'⟩ := h s t c hR hl
      cases ha.symm.trans hs
      obtain ⟨s'', t'', hcut, hcut', hend⟩ := ih hR' n
      refine ⟨s'', t'', ?_, ?_, hend⟩
      · rw [Program.cut, hs]
        exact hcut
      · rw [Program.cut, ht]
        exact hcut'

end

end Calls

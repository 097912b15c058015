import Mathlib.Data.List.Basic

namespace Calls
set_option autoImplicit true

/-- A program that makes calls; a call `c` is answered by a value of type `Answer c`. -/
inductive Program {Call : Type} (Answer : Call → Type) (α : Type) where
  | done (a : α)
  | call (c : Call) (next : Answer c → Program Answer α)

/-- What answers calls, at the price of a change of its state. A call may fail for good. -/
abbrev Service {Call : Type} (Answer : Call → Type) (σ : Type) :=
  (c : Call) → σ → Option (Answer c × σ)

abbrev Exchange {Call : Type} (Answer : Call → Type) := (c : Call) × Answer c

section

variable {Call σ τ φ ρ μ α β : Type} {Answer : Call → Type}

def Program.bind (p : Program Answer α) (f : α → Program Answer β) : Program Answer β :=
  match p with
  | .done a => f a
  | .call c next => .call c fun r => (next r).bind f

instance Program.monad : Monad (Program Answer) where
  pure := .done
  bind := .bind

def ask (c : Call) : Program Answer (Answer c) := .call c .done

/-- Run a program on a service, with a record of the calls made. -/
def Program.run (srv : Service Answer σ) :
    Program Answer α → σ → Option (α × List (Exchange Answer) × σ)
  | .done a, s => some (a, [], s)
  | .call c next, s =>
    match srv c s with
    | none => none
    | some (r, s') =>
      ((next r).run srv s').map fun out => (out.1, ⟨c, r⟩ :: out.2.1, out.2.2)

/-- The program makes legal calls only, which are all answered, and ends with `a` in `s'`. -/
inductive Goes (srv : Service Answer σ) (legal : σ → Call → Prop) :
    σ → Program Answer α → α → σ → Prop
  | done : Goes srv legal s (.done a) a s
  | call : legal s c → srv c s = some (r, s') → Goes srv legal s' (next r) a s'' →
      Goes srv legal s (.call c next) a s''

/-- `srv'` answers like `srv` in related states, as long as the calls are legal. -/
def Simulates (srv : Service Answer σ) (srv' : Service Answer τ) (legal : σ → Call → Prop)
    (R : σ → τ → Prop) : Prop :=
  ∀ s t c, R s t → legal s c →
    ∃ r s' t', srv c s = some (r, s') ∧ srv' c t = some (r, t') ∧ R s' t'

/-- A component with a state of its own handles requests by programs, one after the other; the
result lists what it returns, each time with the calls it has made. -/
def serve (srv : Service Answer σ) (handle : φ → ρ → Program Answer (α × φ)) :
    φ → σ → List ρ → Option (List (α × List (Exchange Answer)) × φ × σ)
  | f, s, [] => some ([], f, s)
  | f, s, q :: qs =>
    match (handle f q).run srv s with
    | none => none
    | some ((a, f'), trace, s') =>
      (serve srv handle f' s' qs).map fun out => ((a, trace) :: out.1, out.2)

variable {srv : Service Answer σ} {srv' : Service Answer τ} {legal : σ → Call → Prop}
  {R : σ → τ → Prop} {s s' s'' : σ} {t : τ} {p : Program Answer α} {a : α}
  {handle : φ → ρ → Program Answer (α × φ)}

theorem Goes.bind {f : α → Program Answer β} (hp : Goes srv legal s p a s')
    (hf : Goes srv legal s' (f a) b s'') : Goes srv legal s (p >>= f) b s'' := by
  induction hp with
  | done => exact hf
  | call hl hc _ ih => exact .call hl hc (ih hf)

theorem Goes.ask {c : Call} {r : Answer c} {f : Answer c → Program Answer β} (hl : legal s c)
    (hc : srv c s = some (r, s')) (hf : Goes srv legal s' (f r) b s'') :
    Goes srv legal s (ask c >>= f) b s'' :=
  .call hl hc hf

/-- A program cannot tell related services apart. -/
theorem Simulates.run (h : Simulates srv srv' legal R) (hg : Goes srv legal s p a s')
    (hR : R s t) : ∃ trace t', p.run srv s = some (a, trace, s') ∧
      p.run srv' t = some (a, trace, t') ∧ R s' t' := by
  induction hg generalizing t with
  | done => exact ⟨[], t, rfl, rfl, hR⟩
  | @call s c r s₁ _ _ _ hl hc _ ih =>
    obtain ⟨r', s', t', hs, ht, hR'⟩ := h s t c hR hl
    cases hc.symm.trans hs
    obtain ⟨trace, t'', hrun, hrun', hR''⟩ := ih hR'
    refine ⟨⟨c, r⟩ :: trace, t'', ?_, ?_, hR''⟩
    · rw [Program.run, hs]
      dsimp only
      rw [hrun, Option.map_some]
    · rw [Program.run, ht]
      dsimp only
      rw [hrun', Option.map_some]

/-- Nor can those who make requests to a component that uses one of them. The component follows a
model `next`: every request keeps the invariant between them, and makes legal calls. -/
theorem Simulates.serve (h : Simulates srv srv' legal R) (next : μ → ρ → μ)
    (inv : μ → φ → σ → Prop) (ok : μ → Prop) (valid : ρ → Prop)
    (hstep : ∀ m f s q, inv m f s → valid q → ok (next m q) →
      ∃ a f' s', Goes srv legal s (handle f q) (a, f') s' ∧ inv (next m q) f' s')
    {m : μ} {f : φ} {qs : List ρ} (hinv : inv m f s) (hR : R s t) (hvalid : ∀ q ∈ qs, valid q)
    (hok : ∀ n, ok ((qs.take n).foldl next m)) :
    ∃ out f' s' t', Calls.serve srv handle f s qs = some (out, f', s') ∧
      Calls.serve srv' handle f t qs = some (out, f', t') ∧
      inv (qs.foldl next m) f' s' ∧ R s' t' := by
  induction qs generalizing m f s t with
  | nil => exact ⟨[], f, s, t, rfl, rfl, hinv, hR⟩
  | cons q qs ih =>
    obtain ⟨a, f', s', hg, hinv'⟩ := hstep m f s q hinv (hvalid q List.mem_cons_self) (hok 1)
    obtain ⟨trace, t', hrun, hrun', hR'⟩ := h.run hg hR
    obtain ⟨out, f'', s'', t'', hs, ht, hinv'', hR''⟩ :=
      ih hinv' hR' (fun q hq => hvalid q (List.mem_cons_of_mem _ hq)) fun n => hok (n + 1)
    refine ⟨(a, trace) :: out, f'', s'', t'', ?_, ?_, hinv'', hR''⟩
    · rw [Calls.serve, hrun]
      dsimp only
      rw [hs, Option.map_some]
    · rw [Calls.serve, hrun']
      dsimp only
      rw [ht, Option.map_some]

end

end Calls

import Mathlib.Logic.Basic

namespace Machine
set_option autoImplicit true

/-- A state machine that is fed from a log. It starts from a stored snapshot, takes a command or
a snapshot when it is idle, works on it in steps of its own, and can be saved when it is idle
again. Whatever it is told from outside the log is an `ε`. -/
structure Replica (σ ε α δ : Type) where
  start : δ → σ
  command : ε → Nat → α → σ → Option σ
  snapshot : ε → δ → σ → Option σ
  work : ε → σ → Option σ
  idle : σ → Bool
  save : ε → σ → Option δ

namespace Replica

variable {σ ε α δ : Type}

/-- The snapshot was taken of a machine that stands for the commands. -/
def Holds (M : Replica σ ε α δ) (Means : σ → List α → Prop) (cs : List α) (d : δ) : Prop :=
  ∃ e t, Means t cs ∧ M.idle t = true ∧ M.save e t = some d

/-- `Means s cs` says that the commands `cs` lead to `s`, once the machine is done with the one
it works on. A snapshot stands for the commands of the machine it was taken of, for a new machine
as for one that is behind. -/
structure Faithful [Inhabited δ] (M : Replica σ ε α δ) (Means : σ → List α → Prop)
    (ok : ε → σ → Prop) : Prop where
  start_default : Means (M.start default) []
  start : M.Holds Means cs d → Means (M.start d) cs
  command : Means s cs → M.idle s = true → M.command e i c s = some s' → Means s' (cs ++ [c])
  snapshot : Means s cs → M.idle s = true → M.Holds Means (cs ++ cs') d →
    M.snapshot e d s = some s' → Means s' (cs ++ cs')
  work : Means s cs → ok e s → M.work e s = some s' → Means s' cs

end Replica

end Machine

import Mathlib.Data.Fintype.Pigeonhole
import Mathlib.Logic.Function.Iterate
import Mathlib.Data.Nat.Find
import Mathlib.Order.Basic

namespace LinKV
set_option autoImplicit true

/-- The errors of a call: `ErrRPC`, `ErrNotLeader`, and one with the text of a reply. -/
inductive ClientError where
  | rpc
  | notLeader
  | text (errStr : String)
deriving DecidableEq, Repr

def ClientError.error : ClientError → String
  | .rpc => "RPC Failed"
  | .notLeader => "Is not Leader."
  | .text errStr => errStr

def parseErr (errStr : String) : Option ClientError :=
  if errStr = "" then none
  else if errStr = ClientError.notLeader.error then some .notLeader
  else some (.text errStr)

/-- The function that `Put` and `Get` pass to `callWithRetry`; `callOnce` brings the `Err` of a
reply, or fails. -/
def attempt (callOnce : Nat → Option String) (srv : Nat) : Option ClientError :=
  match callOnce srv with
  | none => some .rpc
  | some errStr => parseErr errStr

section

variable (n : Nat) (f : Nat → Option ClientError)

end

/-- The server answers with an error other than `ErrNotLeader`. -/
def Fails (f : Nat → Option ClientError) (srv : Nat) : Prop :=
  f srv ≠ none ∧ f srv ≠ some .notLeader

instance decidableFails (f : Nat → Option ClientError) (srv : Nat) : Decidable (Fails f srv) :=
  inferInstanceAs (Decidable (_ ∧ _))

section

variable (n : Nat) (f : Nat → Option ClientError) (leader : Nat)

/-- The leader before turn `i` of a pass, as long as no server has answered nil: the server after
the last one that failed. -/
def leaderAt : Nat → Nat
  | 0 => leader
  | i + 1 =>
    if Fails f ((leaderAt i + i) % n) then ((leaderAt i + i) % n + 1) % n else leaderAt i

def turn (i : Nat) : Nat := (leaderAt n f leader i + i) % n

/-- A turn of the pass calls a server that answers nil. -/
def Finds : Prop := ∃ i < n, f (turn n f leader i) = none

end

section

variable {n : Nat} {f : Nat → Option ClientError} {left leader : Nat}

theorem leaderAt_succ (i : Nat) : leaderAt n f leader (i + 1) =
    if Fails f (turn n f leader i) then (turn n f leader i + 1) % n
    else leaderAt n f leader i := rfl

theorem leaderAt_congr (h : leader % n = leader' % n) (i : Nat) :
    leaderAt n f leader i % n = leaderAt n f leader' i % n := by
  induction i with
  | zero => exact h
  | succ i ih =>
    have hturn : turn n f leader i = turn n f leader' i := by
      rw [turn, turn, Nat.add_mod, ih, ← Nat.add_mod]
    rw [leaderAt_succ, leaderAt_succ, hturn]
    split
    · rfl
    · exact ih

theorem turn_congr (h : leader % n = leader' % n) (i : Nat) :
    turn n f leader i = turn n f leader' i := by
  rw [turn, turn, Nat.add_mod, leaderAt_congr h, ← Nat.add_mod]

theorem Finds.congr (hfinds : Finds n f leader) (h : leader % n = leader' % n) :
    Finds n f leader' := by
  obtain ⟨i, hin, hnil⟩ := hfinds
  exact ⟨i, hin, turn_congr h i ▸ hnil⟩

end

end LinKV

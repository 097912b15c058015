namespace Channel
set_option autoImplicit true

/-- A buffered channel, with everything that has been sent on it. -/
structure Chan (α : Type) where
  buf : List α
  closed : Bool
  sent : List α
deriving DecidableEq, Repr

/-- What becomes of a send that has a default branch. -/
inductive Attempt (α : Type) where
  | done (c : Chan α)
  | full
  | panics

namespace Chan

def make : Chan α := ⟨[], false, []⟩

def close (c : Chan α) : Chan α := { c with closed := true }

def send (c : Chan α) (x : α) : Chan α := { c with buf := c.buf ++ [x], sent := c.sent ++ [x] }

/-- A send on a closed channel panics, whether or not there is room. -/
def trySend (capacity : Nat) (c : Chan α) (x : α) : Attempt α :=
  if c.closed then .panics
  else if c.buf.length < capacity then .done (c.send x)
  else .full

/-- A receive takes what has been in the buffer the longest. -/
def receive (c : Chan α) : Chan α := { c with buf := c.buf.tail }

variable {capacity : Nat} {c c' : Chan α} {x : α}

theorem trySend_panics : c.trySend capacity x = .panics ↔ c.closed = true := by
  unfold trySend
  split
  · rename_i h
    exact iff_of_true rfl h
  · rename_i h
    refine iff_of_false ?_ h
    split <;> exact nofun

theorem trySend_done (h : c.trySend capacity x = .done c') :
    c.closed = false ∧ c.buf.length < capacity ∧ c' = c.send x := by
  unfold trySend at h
  split at h
  · cases h
  · rename_i ho
    split at h
    · rename_i hlt
      cases h
      exact ⟨Bool.eq_false_iff.2 ho, hlt, rfl⟩
    · cases h

theorem trySend_full (h : c.trySend capacity x = .full) :
    c.closed = false ∧ capacity ≤ c.buf.length := by
  unfold trySend at h
  split at h
  · cases h
  · rename_i ho
    split at h
    · cases h
    · rename_i hle
      exact ⟨Bool.eq_false_iff.2 ho, Nat.le_of_not_lt hle⟩

end Chan

end Channel

import Mathlib.Logic.Function.Basic

namespace Durable
set_option autoImplicit true

abbrev Files (P B : Type) := P → Option B

abbrev Write (P B : Type) := P × B

variable {P B : Type} [DecidableEq P]

def Files.write (d : Files P B) (w : Write P B) : Files P B := Function.update d w.1 (some w.2)

def Files.writes (d : Files P B) (ws : List (Write P B)) : Files P B := ws.foldl Files.write d

@[simp] theorem Files.write_self (d : Files P B) (p : P) (b : B) : d.write (p, b) p = some b := by
  simp only [write, Function.update_self]

@[simp] theorem Files.write_ne (d : Files P B) {w : Write P B} (h : p ≠ w.1) :
    d.write w p = d p := by
  simp only [write, Function.update_of_ne h]

theorem Files.writes_append (d : Files P B) (ws ws' : List (Write P B)) :
    d.writes (ws ++ ws') = (d.writes ws).writes ws' := List.foldl_append

theorem Files.writes_concat (d : Files P B) (ws : List (Write P B)) (w : Write P B) :
    d.writes (ws ++ [w]) = (d.writes ws).write w := List.foldl_append

/-- Writes that lead from `old` to `new` in one jump: `old` holds until the file `root` is
replaced, which is the last of them. -/
inductive Commit (root : P) (old new : Files P B → Prop) : Files P B → List (Write P B) → Prop
  | last : old d → w.1 = root → new (d.write w) → Commit root old new d [w]
  | more : old d → w.1 ≠ root → Commit root old new (d.write w) ws →
      Commit root old new d (w :: ws)

variable {root : P} {old new : Files P B → Prop} {d d' : Files P B} {w : Write P B}
  {ws : List (Write P B)}

theorem Commit.before (h : Commit root old new d ws) : old d := by
  cases h with
  | last ho _ _ => exact ho
  | more ho _ _ => exact ho

theorem Commit.write (h : Commit root old new d (w :: ws)) :
    (w.1 = root ∧ ws = [] ∧ new (d.write w)) ∨
      (w.1 ≠ root ∧ Commit root old new (d.write w) ws) := by
  cases h with
  | last _ hr hn => exact .inl ⟨hr, rfl, hn⟩
  | more _ hr hc => exact .inr ⟨hr, hc⟩

theorem Commit.after (h : Commit root old new d ws) : new (d.writes ws) := by
  induction h with
  | last _ _ hn => exact hn
  | more _ _ _ ih => exact ih

theorem Commit.cut (h : Commit root old new d ws) (m : Nat) :
    ws.length ≤ m ∨ old (d.writes (ws.take m)) := by
  induction h generalizing m with
  | last ho _ _ =>
    cases m with
    | zero => exact .inr ho
    | succ m => exact .inl (Nat.le_add_left 1 m)
  | more ho _ _ ih =>
    cases m with
    | zero => exact .inr ho
    | succ m => exact (ih m).imp Nat.succ_le_succ id

/-- The files agree on every path that is not written. -/
def Spares (ws : List (Write P B)) (d d' : Files P B) : Prop :=
  ∀ p, (∀ w ∈ ws, p ≠ w.1) → d' p = d p

omit [DecidableEq P] in
theorem Spares.refl (ws : List (Write P B)) (d : Files P B) : Spares ws d d := fun _ _ => rfl

theorem Spares.write (h : Spares ws d d') (hw : w ∈ ws) : Spares ws d (d'.write w) := by
  intro p hp
  rw [d'.write_ne (hp w hw), h p hp]

/-- The shadow rule: writes to files nobody reads, then the one write that makes them current. -/
theorem Commit.shadow (pre : List (Write P B)) (hpre : ∀ w ∈ pre, w.1 ≠ root)
    (hold : ∀ d', Spares pre d d' → old d') (hnew : new ((d.writes pre).write (root, b))) :
    Commit root old new d (pre ++ [(root, b)]) := by
  -- the writes still to come are among `pre`; what is done spares the files `old` reads
  suffices h : ∀ (todo : List (Write P B)) (d' : Files P B), (∀ w ∈ todo, w ∈ pre) →
      Spares pre d d' → new ((d'.writes todo).write (root, b)) →
      Commit root old new d' (todo ++ [(root, b)]) from
    h pre d (fun _ hw => hw) (.refl pre d) hnew
  intro todo
  induction todo with
  | nil => exact fun d' _ hd hn => .last (hold d' hd) rfl hn
  | cons w todo ih =>
    intro d' hsub hd hn
    have hw := hsub w List.mem_cons_self
    apply Commit.more (hold d' hd) (hpre w hw)
    exact ih (d'.write w) (fun v hv => hsub v (List.mem_cons_of_mem w hv)) (hd.write hw) hn

end Durable

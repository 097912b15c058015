import Mathlib.Data.Fintype.Card
import Mathlib.Logic.Function.Basic

namespace Consensus
set_option autoImplicit true

/-- A log is a list of values tagged with the term they were created in. -/
abbrev Log (α : Type) := List (Nat × α)

/-- The record of a term-based replicated log: for every member its term, log and votes, the
log it campaigned with and what it acknowledged; for every term its leader's log; and the
prefixes declared committed. -/
structure Ledger (V α : Type) where
  term : V → Nat
  vote : V → Nat → Option V
  leads : V → Nat → Prop
  log : V → Log α
  camp : V → Nat → Log α
  glog : Nat → Log α
  ack : V → Nat → Nat → Prop
  decl : Nat → Nat → Prop

inductive Label (V α : Type) where
  | raise (v : V) (t : Nat)
  | campaign (v : V) (t : Nat)
  | grant (v c : V) (t : Nat)
  | win (c : V) (t : Nat)
  | extend (c : V) (t : Nat) (x : α)
  | write (v : V) (t m : Nat)
  | ack (v : V) (t k : Nat)
  | commit (t k : Nat)

def Label.Of (v : V) : Label V α → Prop
  | .raise w _ | .campaign w _ | .grant w _ _ | .win w _ => w = v
  | .extend w _ _ | .write w _ _ | .ack w _ _ => w = v
  | .commit _ _ => True

def Label.Quiet : Label V α → Prop
  | .extend _ _ _ | .write _ _ _ | .ack _ _ _ | .commit _ _ => True
  | _ => False

def Majority [Fintype V] (Q : Finset V) : Prop := Fintype.card V / 2 < Q.card

theorem Majority.meet [Fintype V] [DecidableEq V] {P Q : Finset V} (hP : Majority P)
    (hQ : Majority Q) : ∃ v, v ∈ P ∧ v ∈ Q := by
  have hlt : (Finset.univ : Finset V).card < P.card + Q.card := by
    rw [Finset.card_univ]
    unfold Majority at hP hQ
    omega
  obtain ⟨v, hv⟩ := Finset.inter_nonempty_of_card_lt_card_add_card
    (Finset.subset_univ P) (Finset.subset_univ Q) hlt
  exact ⟨v, Finset.mem_inter.1 hv⟩

namespace Ledger

def empty : Ledger V α where
  term := fun _ => 0
  vote := fun _ _ => none
  leads := fun _ _ => False
  log := fun _ => []
  camp := fun _ _ => []
  glog := fun _ => []
  ack := fun _ _ _ => False
  decl := fun _ _ => False

section

variable [DecidableEq V]

def effect (g : Ledger V α) : Label V α → Ledger V α
  | .raise v t => { g with term := Function.update g.term v t }
  | .campaign v t => { g with
      term := Function.update g.term v t
      vote := Function.update g.vote v (Function.update (g.vote v) t (some v))
      camp := Function.update g.camp v (Function.update (g.camp v) t (g.log v)) }
  | .grant v c t => { g with
      vote := Function.update g.vote v (Function.update (g.vote v) t (some c)) }
  | .win c t => { g with
      leads := fun w u => (w = c ∧ u = t) ∨ g.leads w u
      glog := Function.update g.glog t (g.log c) }
  | .extend c t x => { g with
      log := Function.update g.log c (g.log c ++ [(t, x)])
      glog := Function.update g.glog t (g.glog t ++ [(t, x)]) }
  | .write v t m => { g with log := Function.update g.log v ((g.glog t).take m) }
  | .ack v t k => { g with ack := fun w u j => (w = v ∧ u = t ∧ j = k) ∨ g.ack w u j }
  | .commit t k => { g with decl := fun u j => (u = t ∧ j = k) ∨ g.decl u j }

def effects (g : Ledger V α) (ls : List (Label V α)) : Ledger V α := ls.foldl effect g

@[simp] theorem effects_nil (g : Ledger V α) : g.effects [] = g := rfl

@[simp] theorem effects_cons (g : Ledger V α) (l : Label V α) (ls : List (Label V α)) :
    g.effects (l :: ls) = (g.effect l).effects ls := rfl

theorem effects_append (g : Ledger V α) (ls ls' : List (Label V α)) :
    g.effects (ls ++ ls') = (g.effects ls).effects ls' := List.foldl_append ..

theorem effect_frame {g : Ledger V α} {l : Label V α} (hl : l.Of v) (hw : w ≠ v) :
    (g.effect l).term w = g.term w ∧ (g.effect l).vote w = g.vote w ∧
      (g.effect l).log w = g.log w ∧ (g.effect l).camp w = g.camp w ∧
      (g.effect l).leads w = g.leads w := by
  cases l <;> cases hl <;>
    simp only [effect, Function.update_of_ne hw, hw, false_and, false_or, and_self]

theorem effects_frame {g : Ledger V α} {ls : List (Label V α)} (hl : ∀ l ∈ ls, l.Of v)
    (hw : w ≠ v) :
    (g.effects ls).term w = g.term w ∧ (g.effects ls).vote w = g.vote w ∧
      (g.effects ls).log w = g.log w ∧ (g.effects ls).camp w = g.camp w ∧
      (g.effects ls).leads w = g.leads w := by
  induction ls generalizing g with
  | nil => exact ⟨rfl, rfl, rfl, rfl, rfl⟩
  | cons l ls ih =>
    obtain ⟨ht, hv, hlog, hc, hld⟩ := ih (g := g.effect l) fun l' hl' => hl l' (.tail _ hl')
    obtain ⟨ht', hv', hlog', hc', hld'⟩ := effect_frame (g := g) (hl l (.head _)) hw
    exact ⟨ht.trans ht', hv.trans hv', hlog.trans hlog', hc.trans hc', hld.trans hld'⟩

/-- `P` holds of every label of a list at the point where the label is applied. -/
def Along (P : Ledger V α → Label V α → Prop) (g : Ledger V α) : List (Label V α) → Prop
  | [] => True
  | l :: ls => P g l ∧ Along P (g.effect l) ls

@[simp] theorem along_nil (P : Ledger V α → Label V α → Prop) (g : Ledger V α) :
    Along P g [] := trivial

@[simp] theorem along_cons {l : Label V α} :
    Along P g (l :: ls) ↔ P g l ∧ Along P (g.effect l) ls := Iff.rfl

theorem along_append {ls : List (Label V α)} :
    Along P g (ls ++ ls') ↔ Along P g ls ∧ Along P (g.effects ls) ls' := by
  induction ls generalizing g with
  | nil => simp only [List.nil_append, along_nil, effects_nil, true_and]
  | cons l ls ih => simp only [List.cons_append, along_cons, effects_cons, ih, and_assoc]

theorem Along.mono {ls : List (Label V α)} (h : Along P g ls) (hPQ : ∀ g l, P g l → Q g l) :
    Along Q g ls := by
  induction ls generalizing g with
  | nil => trivial
  | cons l ls ih => exact ⟨hPQ _ _ h.1, ih h.2⟩

theorem Along.invariant {I : Ledger V α → Prop} (hI : ∀ g l, I g → P g l → I (g.effect l))
    (hg : I g) (h : Along P g ls) : I (g.effects ls) := by
  induction ls generalizing g with
  | nil => exact hg
  | cons l ls ih => exact ih (hI _ _ hg h.1) h.2

end

/-- The voting rules: terms grow, a member votes once in a term, and winning takes the votes of
a majority. -/
def BallotOk [Fintype V] (g : Ledger V α) : Label V α → Prop
  | .raise v t => g.term v < t
  | .campaign v t => g.term v ≤ t ∧ g.vote v t = none
  | .grant v c t => g.term v = t ∧ (g.vote v t = none ∨ g.vote v t = some c)
  | .win c t => ∃ Q, Majority Q ∧ ∀ u ∈ Q, g.vote u t = some c
  | _ => True

structure Ballot [Fintype V] (g : Ledger V α) : Prop where
  vote_le : g.vote v t = some c → t ≤ g.term v
  quorum : g.leads c t → ∃ Q, Majority Q ∧ ∀ u ∈ Q, g.vote u t = some c

theorem ballot_empty [Fintype V] : Ballot (empty : Ledger V α) where
  vote_le := fun h => nomatch h
  quorum := fun h => h.elim

section

variable [DecidableEq V] [Fintype V] {g : Ledger V α}

theorem vote_effect (hl : BallotOk g l) (hv : g.vote v t = some c) :
    (g.effect l).vote v t = some c := by
  have key (w d : V) (u : Nat) (h : w = v → u = t → d = c) :
      Function.update g.vote w (Function.update (g.vote w) u (some d)) v t = some c := by
    by_cases hw : v = w
    · subst hw
      by_cases ht : t = u
      · subst ht
        simp only [Function.update_self, h rfl rfl]
      · simp only [Function.update_self, Function.update_of_ne ht, hv]
    · simp only [Function.update_of_ne hw, hv]
  cases l with
  | campaign w u =>
    apply key
    rintro rfl rfl
    rw [hl.2] at hv
    cases hv
  | grant w d u =>
    apply key
    rintro rfl rfl
    rcases hl.2 with he | he <;> rw [he] at hv <;> cases hv
    rfl
  | _ => exact hv

theorem term_effect (hl : BallotOk g l) (v : V) : g.term v ≤ (g.effect l).term v := by
  cases l with
  | raise w t =>
    by_cases hw : v = w
    · subst hw
      simpa only [effect, Function.update_self] using Nat.le_of_lt hl
    · simp only [effect, Function.update_of_ne hw, Nat.le_refl]
  | campaign w t =>
    by_cases hw : v = w
    · subst hw
      simpa only [effect, Function.update_self] using hl.1
    · simp only [effect, Function.update_of_ne hw, Nat.le_refl]
  | _ => exact Nat.le_refl _

/-- What later records keep of the votes in earlier ones. -/
structure Grows (g g' : Ledger V α) : Prop where
  term : ∀ v, g.term v ≤ g'.term v
  vote : ∀ v t c, g.vote v t = some c → g'.vote v t = some c
  leads : ∀ c t, g.leads c t → g'.leads c t

omit [DecidableEq V] [Fintype V] in
theorem Grows.refl (g : Ledger V α) : Grows g g where
  term := fun _ => Nat.le_refl _
  vote := fun _ _ _ => id
  leads := fun _ _ => id

omit [DecidableEq V] [Fintype V] in
theorem Grows.trans {g g' g'' : Ledger V α} (h : Grows g g') (h' : Grows g' g'') :
    Grows g g'' where
  term := fun v => Nat.le_trans (h.term v) (h'.term v)
  vote := fun v t c hv => h'.vote v t c (h.vote v t c hv)
  leads := fun c t hc => h'.leads c t (h.leads c t hc)

omit [Fintype V] in
theorem leads_effect (hc : g.leads c t) : (g.effect l).leads c t := by
  cases l with
  | win d u => exact .inr hc
  | _ => exact hc

theorem grows_effect (hl : BallotOk g l) : Grows g (g.effect l) where
  term := term_effect hl
  vote := fun _ _ _ => vote_effect hl
  leads := fun _ _ => leads_effect

theorem grows_effects (h : Along BallotOk g ls) : Grows g (g.effects ls) := by
  induction ls generalizing g with
  | nil => exact .refl g
  | cons l ls ih => exact (grows_effect h.1).trans (ih h.2)

theorem along_quiet (h : ∀ l ∈ ls, l.Quiet) : Along BallotOk g ls := by
  induction ls generalizing g with
  | nil => trivial
  | cons l ls ih =>
    refine ⟨?_, ih fun l' hl' => h l' (.tail _ hl')⟩
    have hl := h l (.head _)
    cases l <;> trivial

omit [Fintype V] in
theorem effects_quiet (h : ∀ l ∈ ls, l.Quiet) :
    (g.effects ls).term = g.term ∧ (g.effects ls).vote = g.vote ∧
      (g.effects ls).leads = g.leads := by
  induction ls generalizing g with
  | nil => exact ⟨rfl, rfl, rfl⟩
  | cons l ls ih =>
    obtain ⟨ht, hv, hc⟩ := ih (g := g.effect l) fun l' hl' => h l' (.tail _ hl')
    have hl := h l (.head _)
    cases l <;> first | exact ⟨ht, hv, hc⟩ | cases hl

theorem Ballot.effect (h : Ballot g) (hl : BallotOk g l) : Ballot (g.effect l) where
  vote_le := by
    intro v t c hv
    have hold (hv : g.vote v t = some c) : t ≤ (g.effect l).term v :=
      Nat.le_trans (h.vote_le hv) (term_effect hl v)
    cases l with
    | campaign w u =>
      simp only [Ledger.effect] at hv
      by_cases hw : v = w
      · subst hw
        by_cases ht : t = u
        · subst ht
          simp only [Ledger.effect, Function.update_self, Nat.le_refl]
        · simp only [Function.update_self, Function.update_of_ne ht] at hv
          exact hold hv
      · rw [Function.update_of_ne hw] at hv
        exact hold hv
    | grant w d u =>
      simp only [Ledger.effect] at hv
      by_cases hw : v = w
      · subst hw
        by_cases ht : t = u
        · subst ht
          exact Nat.le_of_eq hl.1.symm
        · simp only [Function.update_self, Function.update_of_ne ht] at hv
          exact hold hv
      · rw [Function.update_of_ne hw] at hv
        exact hold hv
    | _ => exact hold hv
  quorum := by
    intro c t hc
    have hold (hc : ∃ Q, Majority Q ∧ ∀ u ∈ Q, g.vote u t = some c) :
        ∃ Q, Majority Q ∧ ∀ u ∈ Q, (g.effect l).vote u t = some c := by
      obtain ⟨Q, hQ, hv⟩ := hc
      exact ⟨Q, hQ, fun u hu => vote_effect hl (hv u hu)⟩
    cases l with
    | win d u =>
      rcases hc with ⟨rfl, rfl⟩ | hc
      · exact hold hl
      · exact hold (h.quorum hc)
    | _ => exact hold (h.quorum hc)

theorem Ballot.effects (h : Ballot g) (hl : Along BallotOk g ls) : Ballot (g.effects ls) :=
  Along.invariant (fun _ _ hg hok => Ballot.effect hg hok) h hl

theorem Ballot.leads_unique (h : Ballot g) (hc : g.leads c t) (hd : g.leads d t) : c = d := by
  obtain ⟨P, hP, hvP⟩ := h.quorum hc
  obtain ⟨Q, hQ, hvQ⟩ := h.quorum hd
  obtain ⟨u, huP, huQ⟩ := hP.meet hQ
  exact Option.some.inj ((hvP u huP).symm.trans (hvQ u huQ))

end

end Ledger

end Consensus

import LinKV.Consensus.Completeness
import Mathlib.Data.Fintype.Lattice

namespace Consensus
set_option autoImplicit true

namespace Ledger

/-- The values are committed, in this order, for the indices from 1 on. -/
def Agreed (g : Ledger V α) (xs : List α) : Prop :=
  ∃ u P, DecidedBy g u P ∧ P.map Prod.snd = xs

theorem agreed_nil : Agreed g [] := ⟨0, [], .inl rfl, rfl⟩

theorem DecidedBy.agreed (h : DecidedBy g u P) : Agreed g (P.map Prod.snd) := ⟨u, P, h, rfl⟩

theorem Agreed.extends (h : Agreed g xs) (he : Extends g g') : Agreed g' xs := by
  obtain ⟨u, P, hd, hP⟩ := h
  exact ⟨u, P, hd.extends he, hP⟩

/-- A committed value stands on top of those before it. -/
theorem Chosen.agreed (h : Chosen g k x) : ∃ xs, Agreed g (xs ++ [x]) ∧ xs.length + 1 = k := by
  obtain ⟨u, P, t, hd, hk, hx⟩ := h
  obtain ⟨hlt, hget⟩ := List.getElem?_eq_some_iff.1 hx
  refine ⟨(P.take (k - 1)).map Prod.snd, ?_, ?_⟩
  · have htake := (hd.of_isPrefix (List.take_prefix (k - 1 + 1) P)).agreed
    rw [List.take_succ_eq_append_getElem hlt, List.map_append, hget] at htake
    exact htake
  · rw [List.length_map, List.length_take]
    omega

section

variable [Fintype V] {g : Ledger V α}

theorem DecidedBy.majority (hd : DecidedBy g u P) (hP : P ≠ []) (hc : Complete g) :
    ∃ Q, Majority Q ∧ ∀ v ∈ Q, P <+: g.log v := by
  rcases hd with hnil | ⟨t, k, _, hd, hpre⟩
  · exact absurd hnil hP
  · obtain ⟨i, rfl, hown, Q, hQ, ha⟩ := hc.declared t k hd
    have ho : Open g t i := ⟨Q, hQ, fun v hv => .inl (ha v hv)⟩
    refine ⟨Q, hQ, fun v hv => ?_⟩
    obtain ⟨j, hj, hack⟩ := ha v hv
    exact hpre.trans (hc.acked v t j i hack hj hown ho)

theorem Agreed.isPrefix (h : Agreed g xs) (h' : Agreed g ys) (hle : xs.length ≤ ys.length)
    (hc : Complete g) (hm : Matching g) : xs <+: ys := by
  obtain ⟨u, P, hP, rfl⟩ := h
  obtain ⟨w, L, hL, rfl⟩ := h'
  rcases hP.comparable hL hc hm with hp | hp
  · exact hp.map Prod.snd
  · have hlen := (hp.map Prod.snd).length_le
    rw [List.IsPrefix.eq_of_length (hp.map Prod.snd) (Nat.le_antisymm hlen hle)]

/-- What is agreed on at finitely many places is all part of one sequence. -/
theorem Agreed.exists_log {ι : Type} [Finite ι] {xs : ι → List α} (h : ∀ i, Agreed g (xs i))
    (hc : Complete g) (hm : Matching g) : ∃ log, Agreed g log ∧ ∀ i, xs i <+: log := by
  cases isEmpty_or_nonempty ι with
  | inl he => exact ⟨[], agreed_nil, fun i => he.elim i⟩
  | inr hne =>
    obtain ⟨j, hj⟩ := Finite.exists_max fun i => (xs i).length
    exact ⟨xs j, h j, fun i => (h i).isPrefix (h j) (hj i) hc hm⟩

theorem Agreed.snoc (h : Agreed g xs) (hx : Chosen g (xs.length + 1) x) (hc : Complete g)
    (hm : Matching g) : Agreed g (xs ++ [x]) := by
  obtain ⟨ys, hys, hlen⟩ := hx.agreed
  have hle : xs.length ≤ (ys ++ [x]).length := by
    rw [List.length_append]
    omega
  have heq : xs = ys := by
    have hp := h.isPrefix hys hle hc hm
    have hq : ys <+: ys ++ [x] := List.prefix_append ys [x]
    exact (List.prefix_of_prefix_length_le hp hq (by omega)).eq_of_length (by omega)
  rwa [heq]

end

end Ledger

end Consensus

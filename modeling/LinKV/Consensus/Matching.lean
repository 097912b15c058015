import LinKV.Consensus.Ledger

namespace Consensus
set_option autoImplicit true

variable {V α : Type} {glog glog' : Nat → Log α} {L L' : Log α} {a b e : Nat × α} {i j k t : Nat}

/-- Every entry pins the log up to it to the log of the leader of its term. -/
def Coh (glog : Nat → Log α) (L : Log α) : Prop :=
  ∀ i t x, L[i]? = some (t, x) → L.take (i + 1) <+: glog t

/-- Terms never decrease along the log. -/
def Sorted (L : Log α) : Prop := L.Pairwise fun a b => a.1 ≤ b.1

def lastTerm (L : Log α) : Nat := (L.getLast?.map Prod.fst).getD 0

/-- The comparison a voter makes between the candidate's log and its own. -/
def UpToDate (D L : Log α) : Prop :=
  lastTerm L < lastTerm D ∨ (lastTerm D = lastTerm L ∧ L.length ≤ D.length)

theorem Coh.of_isPrefix (h : Coh glog L') (hp : L <+: L') : Coh glog L := by
  intro i t x hi
  have hlt := (List.getElem?_eq_some_iff.1 hi).1
  have hi' : L'[i]? = some (t, x) := by
    obtain ⟨r, rfl⟩ := hp
    rwa [List.getElem?_append_left hlt]
  have he : L.take (i + 1) = L'.take (i + 1) := by
    obtain ⟨r, rfl⟩ := hp
    rw [List.take_append_of_le_length hlt]
  rw [he]
  exact h i t x hi'

theorem Coh.mono (h : Coh glog L) (hg : ∀ t, glog t <+: glog' t) : Coh glog' L :=
  fun i t x hi => (h i t x hi).trans (hg t)

theorem coh_nil : Coh glog [] := by
  intro i t x hi
  simp only [List.getElem?_nil, reduceCtorEq] at hi

theorem Coh.agree (h : Coh glog L) (h' : Coh glog L') (hi : L[i]? = some (t, x))
    (hi' : L'[i]? = some (t, x')) : L.take (i + 1) = L'.take (i + 1) := by
  have hlt := (List.getElem?_eq_some_iff.1 hi).1
  have hlt' := (List.getElem?_eq_some_iff.1 hi').1
  have hle : (L.take (i + 1)).length = (L'.take (i + 1)).length := by
    simp only [List.length_take]
    omega
  have hpre := List.prefix_of_prefix_length_le (h i t x hi) (h' i t x' hi') (Nat.le_of_eq hle)
  exact hpre.eq_of_length hle

theorem getElem?_last (hL : L ≠ []) :
    ∃ x, L[L.length - 1]? = some (lastTerm L, x) := by
  rw [← List.getLast?_eq_getElem?, lastTerm, List.getLast?_eq_some_getLast hL]
  exact ⟨_, rfl⟩

theorem Coh.prefix_last (h : Coh glog L) (hL : L ≠ []) : L <+: glog (lastTerm L) := by
  obtain ⟨x, hx⟩ := getElem?_last hL
  have hp := h _ _ _ hx
  have hlen : L.length - 1 + 1 = L.length :=
    Nat.sub_add_cancel (List.length_pos_iff.2 hL)
  rwa [hlen, List.take_length] at hp

theorem Sorted.of_isPrefix (h : Sorted L') (hp : L <+: L') : Sorted L := h.sublist hp.sublist

theorem Coh.sorted (h : Coh glog L) (hs : ∀ t, Sorted (glog t)) : Sorted L := by
  cases hL : L with
  | nil => exact List.Pairwise.nil
  | cons e L' =>
    rw [← hL]
    exact (hs _).of_isPrefix (h.prefix_last (by rw [hL]; exact List.cons_ne_nil _ _))

theorem Sorted.le (h : Sorted L) (hi : L[i]? = some a) (hj : L[j]? = some b)
    (hij : i ≤ j) : a.1 ≤ b.1 := by
  obtain ⟨hil, rfl⟩ := List.getElem?_eq_some_iff.1 hi
  obtain ⟨hjl, rfl⟩ := List.getElem?_eq_some_iff.1 hj
  rcases Nat.eq_or_lt_of_le hij with he | hlt
  · subst he
    exact Nat.le_refl _
  · exact List.pairwise_iff_getElem.1 h i j hil hjl hlt

theorem Sorted.le_lastTerm (h : Sorted L) (hi : L[i]? = some a) :
    a.1 ≤ lastTerm L := by
  have hlt := (List.getElem?_eq_some_iff.1 hi).1
  obtain ⟨x, hx⟩ := getElem?_last (List.ne_nil_of_length_pos (Nat.zero_lt_of_lt hlt))
  exact h.le hi hx (by omega)

theorem Sorted.append (h : Sorted L) (hle : ∀ e ∈ L, e.1 ≤ t) :
    Sorted (L ++ [(t, x)]) := by
  refine List.pairwise_append.2 ⟨h, List.pairwise_singleton _ _, ?_⟩
  intro a ha b hb
  rw [List.mem_singleton] at hb
  subst hb
  exact hle a ha

/-- The term of the entry number `k`, counted from 1; 0 before the first entry. -/
def termAt (L : Log α) : Nat → Nat
  | 0 => 0
  | k + 1 => (L[k]?.map Prod.fst).getD 0

theorem termAt_succ (hk : L[k]? = some a) : termAt L (k + 1) = a.1 := by
  simp only [termAt, hk, Option.map_some, Option.getD_some]

theorem termAt_of_isPrefix (hp : L <+: L') (hk : k ≤ L.length) : termAt L' k = termAt L k := by
  obtain ⟨r, rfl⟩ := hp
  cases k with
  | zero => rfl
  | succ k => rw [termAt, termAt, List.getElem?_append_left hk]

theorem termAt_take (hk : k ≤ i) (hi : i ≤ L.length) : termAt (L.take i) k = termAt L k := by
  symm
  apply termAt_of_isPrefix (List.take_prefix i L)
  rw [List.length_take]
  omega

theorem termAt_length (L : Log α) : termAt L L.length = lastTerm L := by
  by_cases hL : L = []
  · subst hL
    rfl
  · obtain ⟨x, hx⟩ := getElem?_last hL
    have hpos := List.length_pos_iff.2 hL
    have he := termAt_succ hx
    rwa [Nat.sub_add_cancel hpos] at he

/-- Coherent logs with the same term at one position are the same up to it. -/
theorem Coh.take_eq (h : Coh glog L) (h' : Coh glog L') (hk : k ≤ L.length) (hk' : k ≤ L'.length)
    (ht : termAt L k = termAt L' k) : L.take k = L'.take k := by
  cases k with
  | zero => rw [List.take_zero, List.take_zero]
  | succ k =>
    obtain ⟨⟨t, x⟩, hx⟩ : ∃ a, L[k]? = some a := ⟨_, List.getElem?_eq_getElem hk⟩
    obtain ⟨⟨t', x'⟩, hx'⟩ : ∃ a, L'[k]? = some a := ⟨_, List.getElem?_eq_getElem hk'⟩
    rw [termAt_succ hx, termAt_succ hx'] at ht
    simp only at ht
    subst ht
    exact h.agree h' hx hx'

theorem Sorted.termAt_le (h : Sorted L) (hij : i ≤ j) (hj : j ≤ L.length) :
    termAt L i ≤ termAt L j := by
  cases i with
  | zero => exact Nat.zero_le _
  | succ i =>
    cases j with
    | zero => cases hij
    | succ j =>
      have hx := List.getElem?_eq_getElem hj
      have hy := List.getElem?_eq_getElem (l := L) (i := i) (by omega)
      rw [termAt_succ hx, termAt_succ hy]
      exact h.le hy hx (by omega)

namespace Ledger

variable {g g' g'' : Ledger V α} {l : Label V α} {v w c d : V}

/-- The log rules: a vote goes to a campaigning member with an up-to-date log, only a leader
extends its log, and everybody else takes over prefixes of a leader's log. -/
def LogOk [Fintype V] (g : Ledger V α) : Label V α → Prop
  | .campaign v t => ∀ e ∈ g.log v, e.1 < t
  | .grant v c t => v ≠ c ∧ g.vote c t = some c ∧ UpToDate (g.camp c t) (g.log v)
  | .win c t => g.term c = t ∧ g.vote c t = some c ∧ g.log c = g.camp c t ∧ ∀ w, ¬ g.leads w t
  | .extend c t _ => g.leads c t ∧ g.term c = t
  | .write v t m => g.term v = t ∧ ¬ g.leads v t ∧ m ≤ (g.glog t).length ∧ ∃ c, g.leads c t
  | .ack v t k => g.term v = t ∧ k ≤ (g.glog t).length ∧ (g.glog t).take k <+: g.log v
  | .commit t k => ∃ i x, k = i + 1 ∧ (g.glog t)[i]? = some (t, x) ∧
      ∃ Q, Majority Q ∧ ∀ u ∈ Q, ∃ j, i < j ∧ g.ack u t j
  | _ => True

def Ok [Fintype V] (g : Ledger V α) (l : Label V α) : Prop := BallotOk g l ∧ LogOk g l

/-- All logs are put together from leaders' logs. -/
structure Matching (g : Ledger V α) : Prop where
  log_coh : ∀ v, Coh g.glog (g.log v)
  glog_coh : ∀ t, Coh g.glog (g.glog t)
  camp_coh : ∀ v t, g.vote v t = some v → Coh g.glog (g.camp v t)
  glog_sorted : ∀ t, Sorted (g.glog t)
  glog_le : ∀ t e, e ∈ g.glog t → e.1 ≤ t
  glog_led : ∀ t, g.glog t ≠ [] → ∃ c, g.leads c t
  log_le : ∀ v e, e ∈ g.log v → e.1 ≤ g.term v
  camp_lt : ∀ v t, g.vote v t = some v → ∀ e ∈ g.camp v t, e.1 < t
  leader_log : ∀ c t, g.leads c t → g.term c = t → g.log c = g.glog t
  leads_le : ∀ c t, g.leads c t → t ≤ g.term c
  leads_vote : ∀ c t, g.leads c t → g.vote c t = some c
  vote_cand : ∀ v t c, g.vote v t = some c → g.vote c t = some c

theorem matching_empty : Matching (empty : Ledger V α) where
  log_coh := fun _ => coh_nil
  glog_coh := fun _ => coh_nil
  camp_coh := fun _ _ _ => coh_nil
  glog_sorted := fun _ => List.Pairwise.nil
  glog_le := fun _ _ h => nomatch h
  glog_led := fun _ h => (h rfl).elim
  log_le := fun _ _ h => nomatch h
  camp_lt := fun _ _ h => nomatch h
  leader_log := fun _ _ h => h.elim
  leads_le := fun _ _ h => h.elim
  leads_vote := fun _ _ h => h.elim
  vote_cand := fun _ _ _ h => nomatch h

theorem Matching.log_sorted (h : Matching g) (v : V) : Sorted (g.log v) :=
  (h.log_coh v).sorted h.glog_sorted

/-- What later records keep of earlier ones. -/
structure Extends (g g' : Ledger V α) : Prop extends Grows g g' where
  camp : ∀ v t, g.vote v t = some v → g'.camp v t = g.camp v t
  glog : ∀ t, g.glog t <+: g'.glog t
  ack : ∀ v t k, g.ack v t k → g'.ack v t k
  decl : ∀ t k, g.decl t k → g'.decl t k

theorem Extends.refl (g : Ledger V α) : Extends g g where
  toGrows := .refl g
  camp := fun _ _ _ => rfl
  glog := fun _ => List.prefix_refl _
  ack := fun _ _ _ => id
  decl := fun _ _ => id

theorem Extends.trans (h : Extends g g') (h' : Extends g' g'') :
    Extends g g'' where
  toGrows := h.toGrows.trans h'.toGrows
  camp := fun v t hv => (h'.camp v t (h.vote v t v hv)).trans (h.camp v t hv)
  glog := fun t => (h.glog t).trans (h'.glog t)
  ack := fun v t k ha => h'.ack v t k (h.ack v t k ha)
  decl := fun t k hd => h'.decl t k (h.decl t k hd)

theorem Extends.take (h : Extends g g') (hk : k ≤ (g.glog t).length) :
    (g'.glog t).take k = (g.glog t).take k := by
  obtain ⟨r, hr⟩ := h.glog t
  rw [← hr, List.take_append_of_le_length hk]

theorem Extends.getElem? (h : Extends g g') (hi : (g.glog t)[i]? = some e) :
    (g'.glog t)[i]? = some e := by
  obtain ⟨r, hr⟩ := h.glog t
  rw [← hr, List.getElem?_append_left (List.getElem?_eq_some_iff.1 hi).1, hi]

theorem Matching.glog_unled (h : Matching g) (hw : ∀ w, ¬ g.leads w t) : g.glog t = [] := by
  by_contra hne
  obtain ⟨c, hc⟩ := h.glog_led t hne
  exact hw c hc

section

variable [DecidableEq V] [Fintype V]

theorem Matching.glog_effect (h : Matching g) (hl : Ok g l) (t : Nat) :
    g.glog t <+: (g.effect l).glog t := by
  cases l with
  | win c u =>
    by_cases ht : t = u
    · subst ht
      rw [h.glog_unled hl.2.2.2.2]
      exact List.nil_prefix
    · simp only [effect, Function.update_of_ne ht, List.prefix_refl]
  | extend c u x =>
    by_cases ht : t = u
    · subst ht
      simp only [effect, Function.update_self, List.prefix_append]
    · simp only [effect, Function.update_of_ne ht, List.prefix_refl]
  | _ => exact List.prefix_refl _

theorem camp_effect (hl : Ok g l) (hv : g.vote v t = some v) :
    (g.effect l).camp v t = g.camp v t := by
  cases l with
  | campaign w u =>
    by_cases hw : v = w
    · subst hw
      have ht : t ≠ u := by
        rintro rfl
        rw [hl.1.2] at hv
        cases hv
      simp only [effect, Function.update_self, Function.update_of_ne ht]
    · simp only [effect, Function.update_of_ne hw]
  | _ => rfl

theorem Matching.extends (h : Matching g) (hl : Ok g l) : Extends g (g.effect l) where
  toGrows := grows_effect hl.1
  camp := fun _ _ => camp_effect hl
  glog := h.glog_effect hl
  ack := by
    intro v t k ha
    cases l with
    | ack w u j => exact .inr ha
    | _ => exact ha
  decl := by
    intro t k hd
    cases l with
    | commit u j => exact .inr hd
    | _ => exact hd

theorem Matching.coh_effect (h : Matching g) (hl : Ok g l) (hL : Coh g.glog L) :
    Coh (g.effect l).glog L := hL.mono (h.glog_effect hl)

theorem Matching.log_coh_effect (h : Matching g) (hl : Ok g l) (v : V) :
    Coh (g.effect l).glog ((g.effect l).log v) := by
  have hold := h.coh_effect hl (h.log_coh v)
  cases l with
  | extend c t x =>
    by_cases hv : v = c
    · subst hv
      have he : (g.effect (.extend v t x)).log v = (g.effect (.extend v t x)).glog t := by
        simp only [effect, Function.update_self, h.leader_log v t hl.2.1 hl.2.2]
      intro i u y hi
      rw [he] at hi ⊢
      simp only [effect, Function.update_self] at hi ⊢
      rcases Nat.lt_or_ge i (g.glog t).length with hlt | hge
      · rw [List.getElem?_append_left hlt] at hi
        rw [List.take_append_of_le_length hlt]
        exact (h.glog_coh t i u y hi).trans (h.glog_effect hl u)
      · obtain rfl : i = (g.glog t).length := by
          have := (List.getElem?_eq_some_iff.1 hi).1
          simp only [List.length_append, List.length_singleton] at this
          omega
        simp only [List.getElem?_concat_length, Option.some.injEq, Prod.mk.injEq] at hi
        rw [← hi.1, Function.update_self]
        exact List.take_prefix _ _
    · simpa only [effect, Function.update_of_ne hv] using hold
  | write w t m =>
    by_cases hv : v = w
    · subst hv
      simp only [effect, Function.update_self]
      exact (h.glog_coh t).of_isPrefix (List.take_prefix _ _)
    · simpa only [effect, Function.update_of_ne hv] using hold
  | _ => exact hold

theorem Matching.glog_coh_effect (h : Matching g) (hl : Ok g l) (t : Nat) :
    Coh (g.effect l).glog ((g.effect l).glog t) := by
  have hold := h.coh_effect hl (h.glog_coh t)
  cases l with
  | win c u =>
    by_cases ht : t = u
    · subst ht
      simpa only [effect, Function.update_self] using h.coh_effect hl (h.log_coh c)
    · simpa only [effect, Function.update_of_ne ht] using hold
  | extend c u x =>
    by_cases ht : t = u
    · subst ht
      have hc := h.log_coh_effect hl c
      simpa only [effect, Function.update_self, h.leader_log c t hl.2.1 hl.2.2] using hc
    · simpa only [effect, Function.update_of_ne ht] using hold
  | _ => exact hold

theorem Matching.glog_sorted_effect (h : Matching g) (hl : Ok g l) (t : Nat) :
    Sorted ((g.effect l).glog t) := by
  cases l with
  | win c u =>
    by_cases ht : t = u
    · subst ht
      simpa only [effect, Function.update_self] using h.log_sorted c
    · simpa only [effect, Function.update_of_ne ht] using h.glog_sorted t
  | extend c u x =>
    by_cases ht : t = u
    · subst ht
      simpa only [effect, Function.update_self] using (h.glog_sorted t).append (h.glog_le t)
    · simpa only [effect, Function.update_of_ne ht] using h.glog_sorted t
  | _ => exact h.glog_sorted t

theorem Matching.glog_le_effect (h : Matching g) (hl : Ok g l) (t : Nat) (e : Nat × α)
    (he : e ∈ (g.effect l).glog t) : e.1 ≤ t := by
  cases l with
  | win c u =>
    by_cases ht : t = u
    · subst ht
      simp only [effect, Function.update_self] at he
      rw [hl.2.2.2.1] at he
      exact Nat.le_of_lt (h.camp_lt c t hl.2.2.1 e he)
    · simp only [effect, Function.update_of_ne ht] at he
      exact h.glog_le t e he
  | extend c u x =>
    by_cases ht : t = u
    · subst ht
      simp only [effect, Function.update_self, List.mem_append, List.mem_singleton] at he
      rcases he with he | rfl
      · exact h.glog_le t e he
      · exact Nat.le_refl _
    · simp only [effect, Function.update_of_ne ht] at he
      exact h.glog_le t e he
  | _ => exact h.glog_le t e he

theorem Matching.log_le_effect (h : Matching g) (hl : Ok g l) (v : V) (e : Nat × α)
    (he : e ∈ (g.effect l).log v) : e.1 ≤ (g.effect l).term v := by
  have hold (he : e ∈ g.log v) : e.1 ≤ (g.effect l).term v :=
    Nat.le_trans (h.log_le v e he) (term_effect hl.1 v)
  cases l with
  | extend c t x =>
    by_cases hv : v = c
    · subst hv
      simp only [effect, Function.update_self, List.mem_append, List.mem_singleton] at he
      rcases he with he | rfl
      · exact hold he
      · exact Nat.le_of_eq hl.2.2.symm
    · simp only [effect, Function.update_of_ne hv] at he
      exact hold he
  | write w t m =>
    by_cases hv : v = w
    · subst hv
      simp only [effect, Function.update_self] at he
      exact Nat.le_trans (h.glog_le t e (List.mem_of_mem_take he)) (Nat.le_of_eq hl.2.1.symm)
    · simp only [effect, Function.update_of_ne hv] at he
      exact hold he
  | _ => exact hold he

theorem Matching.leader_log_effect (h : Matching g) (hb : Ballot g) (hl : Ok g l)
    (hc : (g.effect l).leads c t) (ht : (g.effect l).term c = t) :
    (g.effect l).log c = (g.effect l).glog t := by
  cases l with
  | raise w u =>
    by_cases hw : c = w
    · subst hw
      simp only [effect, Function.update_self] at ht
      have hle := h.leads_le c t hc
      have hlt : g.term c < u := hl.1
      omega
    · simp only [effect, Function.update_of_ne hw] at ht
      exact h.leader_log c t hc ht
  | campaign w u =>
    by_cases hw : c = w
    · subst hw
      simp only [effect, Function.update_self] at ht
      subst ht
      have hv := h.leads_vote c u hc
      rw [hl.1.2] at hv
      cases hv
    · simp only [effect, Function.update_of_ne hw] at ht
      exact h.leader_log c t hc ht
  | win d u =>
    rcases hc with ⟨rfl, rfl⟩ | hc
    · simp only [effect, Function.update_self]
    · have hne : t ≠ u := by
        rintro rfl
        exact hl.2.2.2.2 c hc
      simp only [effect, Function.update_of_ne hne]
      exact h.leader_log c t hc ht
  | extend d u x =>
    by_cases hd : c = d
    · subst hd
      have hu : t = u := ht.symm.trans hl.2.2
      subst hu
      simp only [effect, Function.update_self, h.leader_log c t hc ht]
    · have hne : t ≠ u := by
        rintro rfl
        exact hd (hb.leads_unique hc hl.2.1)
      simp only [effect, Function.update_of_ne hd, Function.update_of_ne hne]
      exact h.leader_log c t hc ht
  | write w u m =>
    have hw : c ≠ w := by
      rintro rfl
      have hu : t = u := ht.symm.trans hl.2.1
      subst hu
      exact hl.2.2.1 hc
    simp only [effect, Function.update_of_ne hw]
    exact h.leader_log c t hc ht
  | _ => exact h.leader_log c t hc ht

omit [Fintype V] in
theorem vote_effect_inv (hv : (g.effect l).vote v t = some c) :
    g.vote v t = some c ∨ (l = .campaign v t ∧ c = v) ∨ l = .grant v c t := by
  cases l with
  | campaign w u =>
    by_cases hw : v = w
    · subst hw
      by_cases ht : t = u
      · subst ht
        simp only [effect, Function.update_self, Option.some.injEq] at hv
        exact .inr (.inl ⟨rfl, hv.symm⟩)
      · simp only [effect, Function.update_self, Function.update_of_ne ht] at hv
        exact .inl hv
    · simp only [effect, Function.update_of_ne hw] at hv
      exact .inl hv
  | grant w d u =>
    by_cases hw : v = w
    · subst hw
      by_cases ht : t = u
      · subst ht
        simp only [effect, Function.update_self, Option.some.injEq] at hv
        subst hv
        exact .inr (.inr rfl)
      · simp only [effect, Function.update_self, Function.update_of_ne ht] at hv
        exact .inl hv
    · simp only [effect, Function.update_of_ne hw] at hv
      exact .inl hv
  | _ => exact .inl hv

theorem self_vote_inv (hl : Ok g l) (hv : (g.effect l).vote v t = some v) :
    (g.vote v t = some v ∧ (g.effect l).camp v t = g.camp v t) ∨
      (l = .campaign v t ∧ (g.effect l).camp v t = g.log v) := by
  rcases vote_effect_inv hv with hv | ⟨rfl, _⟩ | rfl
  · exact .inl ⟨hv, camp_effect hl hv⟩
  · refine .inr ⟨rfl, ?_⟩
    simp only [effect, Function.update_self]
  · exact (hl.2.1 rfl).elim

/-- Log matching is kept by every step that follows the rules. -/
theorem Matching.effect (h : Matching g) (hb : Ballot g) (hl : Ok g l) :
    Matching (g.effect l) where
  log_coh := h.log_coh_effect hl
  glog_coh := h.glog_coh_effect hl
  camp_coh := by
    intro v t hv
    rcases self_vote_inv hl hv with ⟨hv, he⟩ | ⟨_, he⟩
    · rw [he]
      exact h.coh_effect hl (h.camp_coh v t hv)
    · rw [he]
      exact h.coh_effect hl (h.log_coh v)
  glog_sorted := h.glog_sorted_effect hl
  glog_le := h.glog_le_effect hl
  glog_led := by
    intro t ht
    cases l with
    | win c u =>
      by_cases hu : t = u
      · exact ⟨c, .inl ⟨rfl, hu⟩⟩
      · simp only [Ledger.effect, Function.update_of_ne hu] at ht
        obtain ⟨d, hd⟩ := h.glog_led t ht
        exact ⟨d, .inr hd⟩
    | extend c u x =>
      by_cases hu : t = u
      · exact ⟨c, hu ▸ hl.2.1⟩
      · simp only [Ledger.effect, Function.update_of_ne hu] at ht
        exact h.glog_led t ht
    | _ => exact h.glog_led t ht
  log_le := h.log_le_effect hl
  camp_lt := by
    intro v t hv e he
    rcases self_vote_inv hl hv with ⟨hv, hc⟩ | ⟨rfl, hc⟩
    · rw [hc] at he
      exact h.camp_lt v t hv e he
    · rw [hc] at he
      exact hl.2 e he
  leader_log := fun _ _ hc ht => h.leader_log_effect hb hl hc ht
  leads_le := by
    intro c t hc
    cases l with
    | win d u =>
      rcases hc with ⟨rfl, rfl⟩ | hc
      · exact Nat.le_of_eq hl.2.1.symm
      · exact h.leads_le c t hc
    | _ => exact Nat.le_trans (h.leads_le c t hc) (term_effect hl.1 c)
  leads_vote := by
    intro c t hc
    cases l with
    | win d u =>
      rcases hc with ⟨rfl, rfl⟩ | hc
      · exact hl.2.2.1
      · exact h.leads_vote c t hc
    | _ => exact vote_effect hl.1 (h.leads_vote c t hc)
  vote_cand := by
    intro v t c hv
    rcases vote_effect_inv hv with hv | ⟨rfl, rfl⟩ | rfl
    · exact vote_effect hl.1 (h.vote_cand v t c hv)
    · exact hv
    · exact vote_effect hl.1 hl.2.2.1

theorem Matching.effects (h : Matching g) (hb : Ballot g) (hl : Along Ok g ls) :
    Matching (g.effects ls) := by
  induction ls generalizing g with
  | nil => exact h
  | cons l ls ih => exact ih (h.effect hb hl.1) (hb.effect hl.1.1) hl.2

theorem Matching.extends_effects (h : Matching g) (hb : Ballot g) (hl : Along Ok g ls) :
    Extends g (g.effects ls) := by
  induction ls generalizing g with
  | nil => exact .refl g
  | cons l ls ih => exact (h.extends hl.1).trans (ih (h.effect hb hl.1) (hb.effect hl.1.1) hl.2)

end

end Ledger

end Consensus

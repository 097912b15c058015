import LinKV.Consensus.Matching

namespace Consensus
set_option autoImplicit true

variable {V α : Type} {L L' D P : Log α} {i j k t u : Nat}

namespace Ledger

variable {g g' : Ledger V α} {l : Label V α} {v w c d : V}

/-- Position `i` of the log of term `t`'s leader holds an entry of that term. -/
def Own (g : Ledger V α) (t i : Nat) : Prop := ∃ x, (g.glog t)[i]? = some (t, x)

/-- Taking over a leader's log never cuts off a part that agrees with it. -/
def Keeps (g : Ledger V α) : Label V α → Prop
  | .write v t m => ∀ k, k ≤ (g.glog t).length → (g.glog t).take k <+: g.log v → k ≤ m
  | _ => True

theorem Own.lt (h : Own g t i) : i < (g.glog t).length := by
  obtain ⟨x, hx⟩ := h
  exact (List.getElem?_eq_some_iff.1 hx).1

theorem Own.length_take (h : Own g t i) : ((g.glog t).take (i + 1)).length = i + 1 := by
  have hlt := h.lt
  rw [List.length_take]
  omega

theorem Own.extends (h : Own g t i) (he : Extends g g') : Own g' t i := by
  obtain ⟨x, hx⟩ := h
  exact ⟨x, he.getElem? hx⟩

theorem Own.le_lastTerm (h : Own g t i) (hs : Sorted L) (hp : (g.glog t).take (i + 1) <+: L) :
    t ≤ lastTerm L := by
  obtain ⟨x, hx⟩ := h
  have hi : L[i]? = some (t, x) := by
    obtain ⟨r, rfl⟩ := hp
    rw [List.getElem?_append_left (by rw [Own.length_take ⟨x, hx⟩]; omega),
      List.getElem?_take_of_lt (Nat.lt_succ_self i), hx]
  exact hs.le_lastTerm hi

theorem Keeps.prefix_log [DecidableEq V] (hk : Keeps g l)
    (hp : P <+: g.log v) (hw : ∀ t m, l = .write v t m → P <+: g.glog t) :
    P <+: (g.effect l).log v := by
  cases l with
  | extend c t x =>
    by_cases hv : v = c
    · subst hv
      simp only [Ledger.effect, Function.update_self]
      exact hp.trans (List.prefix_append _ _)
    · simpa only [Ledger.effect, Function.update_of_ne hv] using hp
  | write w t m =>
    by_cases hv : v = w
    · subst hv
      simp only [Ledger.effect, Function.update_self]
      have hpt := hw t m rfl
      have hlen := hk P.length hpt.length_le
        (by rwa [← List.prefix_iff_eq_take.1 hpt])
      exact List.prefix_take_iff.2 ⟨hpt, hlen⟩
    · simpa only [Ledger.effect, Function.update_of_ne hv] using hp
  | _ => exact hp

/-- The first `P.length` entries are committed, by a leader of a term up to `u`. -/
def DecidedBy (g : Ledger V α) (u : Nat) (P : Log α) : Prop :=
  P = [] ∨ ∃ t k, t ≤ u ∧ g.decl t k ∧ P <+: (g.glog t).take k

theorem DecidedBy.of_isPrefix (h : DecidedBy g u P) (hp : L <+: P) : DecidedBy g u L := by
  rcases h with rfl | ⟨t, k, ht, hd, hP⟩
  · exact .inl (List.prefix_nil.1 hp)
  · exact .inr ⟨t, k, ht, hd, hp.trans hP⟩

theorem DecidedBy.le (h : DecidedBy g t P) (htu : t ≤ u) : DecidedBy g u P := by
  rcases h with rfl | ⟨t', k, ht, hd, hP⟩
  · exact .inl rfl
  · exact .inr ⟨t', k, Nat.le_trans ht htu, hd, hP⟩

theorem DecidedBy.extends (h : DecidedBy g u P) (he : Extends g g') : DecidedBy g' u P := by
  rcases h with rfl | ⟨t, k, ht, hd, hP⟩
  · exact .inl rfl
  · exact .inr ⟨t, k, ht, he.decl t k hd, hP.trans ((he.glog t).take k)⟩

theorem DecidedBy.of_decl (hd : g.decl t k) (htu : t ≤ u) : DecidedBy g u ((g.glog t).take k) :=
  .inr ⟨t, k, htu, hd, List.prefix_refl _⟩

theorem decl_effects_inv [DecidableEq V] (hd : (g.effects ls).decl t k) :
    g.decl t k ∨ .commit t k ∈ ls := by
  induction ls generalizing g with
  | nil => exact .inl hd
  | cons l ls ih =>
    rcases ih hd with hd | hm
    · cases l with
      | commit u j =>
        rcases hd with ⟨rfl, rfl⟩ | hd
        · exact .inr (.head _)
        · exact .inl hd
      | _ => exact .inl hd
    · exact .inr (.tail _ hm)

theorem decl_effect [DecidableEq V] (hd : g.decl t k) : (g.effect l).decl t k := by
  cases l with
  | commit u j => exact .inr hd
  | _ => exact hd

theorem decl_effects [DecidableEq V] (h : g.decl t k ∨ .commit t k ∈ ls) :
    (g.effects ls).decl t k := by
  induction ls generalizing g with
  | nil =>
    rcases h with hd | hm
    · exact hd
    · cases hm
  | cons l ls ih =>
    apply ih
    rcases h with hd | hm
    · exact .inl (decl_effect hd)
    · rcases List.mem_cons.1 hm with rfl | hm
      · exact .inl (.inl ⟨rfl, rfl⟩)
      · exact .inr hm

/-- Value `x` is committed as the entry number `k`. -/
def Chosen (g : Ledger V α) (k : Nat) (x : α) : Prop :=
  ∃ u P t, DecidedBy g u P ∧ 0 < k ∧ P[k - 1]? = some (t, x)

theorem Chosen.extends (h : Chosen g k x) (he : Extends g g') : Chosen g' k x := by
  obtain ⟨u, P, t, hd, hk, hx⟩ := h
  exact ⟨u, P, t, hd.extends he, hk, hx⟩

section

variable [Fintype V]

/-- A majority has acknowledged position `i` in term `t`, or may still do so. -/
def Open (g : Ledger V α) (t i : Nat) : Prop :=
  ∃ Q, Majority Q ∧ ∀ u ∈ Q, (∃ k, i < k ∧ g.ack u t k) ∨ g.term u ≤ t

/-- Entries that are or may become committed are held by whoever acknowledged them, by every
later leader, and by every candidate such a member voted for. -/
structure Complete (g : Ledger V α) : Prop where
  ack_le : ∀ v t k, g.ack v t k → t ≤ g.term v
  ack_len : ∀ v t k, g.ack v t k → k ≤ (g.glog t).length
  acked : ∀ v t k i, g.ack v t k → i < k → Own g t i → Open g t i →
    (g.glog t).take (i + 1) <+: g.log v
  led : ∀ c u t i, g.leads c u → t < u → Own g t i → Open g t i →
    (g.glog t).take (i + 1) <+: g.glog u
  voted : ∀ v u c t k i, g.vote v u = some c → t < u → g.ack v t k → i < k → Own g t i →
    Open g t i → (g.glog t).take (i + 1) <+: g.camp c u
  declared : ∀ t k, g.decl t k → ∃ i, k = i + 1 ∧ Own g t i ∧
    ∃ Q, Majority Q ∧ ∀ u ∈ Q, ∃ j, i < j ∧ g.ack u t j

theorem complete_empty : Complete (empty : Ledger V α) where
  ack_le := fun _ _ _ h => h.elim
  ack_len := fun _ _ _ h => h.elim
  acked := fun _ _ _ _ h => h.elim
  led := fun _ _ _ _ h => h.elim
  voted := fun _ _ _ _ _ _ h => nomatch h
  declared := fun _ _ h => h.elim

theorem Open.extends_of_ack (h : Open g' t i) (he : Extends g g')
    (ha : ∀ v t k, g'.ack v t k → g.ack v t k ∨ g.term v ≤ t) : Open g t i := by
  obtain ⟨Q, hQ, hu⟩ := h
  refine ⟨Q, hQ, fun u hu' => ?_⟩
  rcases hu u hu' with ⟨k, hk, hak⟩ | hle
  · rcases ha u t k hak with hak | hle
    · exact .inl ⟨k, hk, hak⟩
    · exact .inr hle
  · exact .inr (Nat.le_trans (he.term u) hle)

/-- Once a later term has a leader, a member of the majority behind it has acknowledged every
position of term `t` that is still open. -/
theorem Open.acked_voter [DecidableEq V] (ho : Open g t i) (hb : Ballot g)
    (hQ : ∃ Q, Majority Q ∧ ∀ v ∈ Q, g.vote v u = some c) (htu : t < u) :
    ∃ v k, g.vote v u = some c ∧ i < k ∧ g.ack v t k := by
  obtain ⟨Q, hQ, hv⟩ := hQ
  obtain ⟨P, hP, hp⟩ := ho
  obtain ⟨v, hvP, hvQ⟩ := hP.meet hQ
  have hle := hb.vote_le (hv v hvQ)
  rcases hp v hvP with ⟨k, hk, ha⟩ | ht
  · exact ⟨v, k, hv v hvQ, hk, ha⟩
  · omega

theorem Complete.not_open_end [DecidableEq V] (h : Complete g) (hb : Ballot g)
    (hc : g.leads c u) (htu : t < u) : ¬ Open g t (g.glog t).length := by
  intro ho
  obtain ⟨v, k, _, hk, ha⟩ := ho.acked_voter hb (hb.quorum hc) htu
  have hlen := h.ack_len v t k ha
  omega

/-- A candidate that is up to date with a voter holding the prefix holds the prefix too. -/
theorem Complete.dominates (h : Complete g) (hm : Matching g) (hu : UpToDate D L)
    (hD : Coh g.glog D) (hL : Coh g.glog L) (hlt : ∀ e ∈ D, e.1 < u) (hown : Own g t i)
    (ho : Open g t i) (hp : (g.glog t).take (i + 1) <+: L) :
    (g.glog t).take (i + 1) <+: D := by
  have hlen := hown.length_take
  have hple := hp.length_le
  have hLne : L ≠ [] := by
    rintro rfl
    rw [hlen] at hple
    cases hple
  have hle := hown.le_lastTerm (hL.sorted hm.glog_sorted) hp
  rcases hu with hgt | ⟨he, hlenD⟩
  · have hDne : D ≠ [] := by
      rintro rfl
      cases hgt
    obtain ⟨c, hc⟩ := hm.glog_led _ (fun hnil => hDne
      (List.prefix_nil.1 (hnil ▸ hD.prefix_last hDne)))
    have hpg := h.led c _ t i hc (Nat.lt_of_le_of_lt hle hgt) hown ho
    apply List.prefix_of_prefix_length_le hpg (hD.prefix_last hDne)
    -- A shorter `D` would end inside the prefix, whose terms are at most `t`.
    by_contra hshort
    have hDp := List.prefix_of_prefix_length_le (hD.prefix_last hDne) hpg (by omega)
    obtain ⟨y, hy⟩ := getElem?_last hDne
    have hpos := List.length_pos_iff.2 hDne
    have hy' : (g.glog t)[D.length - 1]? = some (lastTerm D, y) := by
      obtain ⟨r, hr⟩ := hDp.trans (List.take_prefix _ _)
      rw [← hr, List.getElem?_append_left (by omega), hy]
    have hterm := hm.glog_le t _ (List.mem_of_getElem? hy')
    simp only at hterm
    omega
  · have hDne : D ≠ [] := by
      rintro rfl
      exact hLne (List.length_eq_zero_iff.1 (Nat.le_zero.1 hlenD))
    have hDL := List.prefix_of_prefix_length_le (hL.prefix_last hLne)
      (he ▸ hD.prefix_last hDne) hlenD
    exact hp.trans hDL

section

variable [DecidableEq V]

theorem ack_effect_inv (hl : Ok g l) (ha : (g.effect l).ack v t k) :
    g.ack v t k ∨ (g.term v = t ∧ k ≤ (g.glog t).length ∧ (g.glog t).take k <+: g.log v ∧
      (g.effect l).glog = g.glog ∧ (g.effect l).log = g.log ∧ (g.effect l).term = g.term ∧
      (g.effect l).vote = g.vote) := by
  cases l with
  | ack w u j =>
    rcases ha with ⟨rfl, rfl, rfl⟩ | ha
    · exact .inr ⟨hl.2.1, hl.2.2.1, hl.2.2.2, rfl, rfl, rfl, rfl⟩
    · exact .inl ha
  | _ => exact .inl ha

theorem Matching.open_of_effect (hm : Matching g) (hl : Ok g l) (ho : Open (g.effect l) t i) :
    Open g t i := by
  apply ho.extends_of_ack (hm.extends hl)
  intro v t k ha
  rcases ack_effect_inv hl ha with ha | ⟨ht, _⟩
  · exact .inl ha
  · exact .inr (Nat.le_of_eq ht)

theorem Matching.own_of_effect (hm : Matching g) (hl : Ok g l) (ho : Own (g.effect l) t i) :
    Own g t i ∨ ∃ c x, l = .extend c t x ∧ i = (g.glog t).length := by
  obtain ⟨x, hx⟩ := ho
  cases l with
  | win c u =>
    by_cases ht : t = u
    · subst ht
      simp only [Ledger.effect, Function.update_self] at hx
      have hlt := hm.camp_lt c t hl.2.2.1 (t, x) (hl.2.2.2.1 ▸ List.mem_of_getElem? hx)
      exact (Nat.lt_irrefl _ hlt).elim
    · simp only [Ledger.effect, Function.update_of_ne ht] at hx
      exact .inl ⟨x, hx⟩
  | extend c u y =>
    by_cases ht : t = u
    · subst ht
      simp only [Ledger.effect, Function.update_self] at hx
      rcases Nat.lt_or_ge i (g.glog t).length with hlt | hge
      · rw [List.getElem?_append_left hlt] at hx
        exact .inl ⟨x, hx⟩
      · refine .inr ⟨c, y, rfl, ?_⟩
        have hlen := (List.getElem?_eq_some_iff.1 hx).1
        rw [List.length_append, List.length_singleton] at hlen
        omega
    · simp only [Ledger.effect, Function.update_of_ne ht] at hx
      exact .inl ⟨x, hx⟩
  | _ => exact .inl ⟨x, hx⟩

theorem Matching.take_effect (hm : Matching g) (hl : Ok g l) (ho : Own g t i) :
    ((g.effect l).glog t).take (i + 1) = (g.glog t).take (i + 1) :=
  (hm.extends hl).take ho.lt

theorem Complete.acked_effect (h : Complete g) (hm : Matching g) (hl : Ok g l) (hk : Keeps g l)
    (ha : (g.effect l).ack v t k) (hi : i < k) (hown : Own (g.effect l) t i)
    (ho : Open (g.effect l) t i) :
    ((g.effect l).glog t).take (i + 1) <+: (g.effect l).log v := by
  have ho' := hm.open_of_effect hl ho
  rcases ack_effect_inv hl ha with ha | ⟨_, _, hp, hg, hlog, _, _⟩
  · rcases hm.own_of_effect hl hown with hown | ⟨c, x, rfl, rfl⟩
    · rw [hm.take_effect hl hown]
      have hp := h.acked v t k i ha hi hown ho'
      apply hk.prefix_log hp
      rintro u m rfl
      -- The leader written from is the leader of term `t` itself or a later one.
      have htu : t ≤ u := hl.2.1 ▸ h.ack_le v t k ha
      rcases Nat.eq_or_lt_of_le htu with rfl | htu
      · exact List.take_prefix _ _
      · obtain ⟨c, hc⟩ := hl.2.2.2.2
        exact h.led c u t i hc htu hown ho'
    · have hlen := h.ack_len v t k ha
      omega
  · rw [hg, hlog]
    exact (List.take_prefix_take_left (by omega)).trans hp

theorem Complete.led_effect (h : Complete g) (hm : Matching g) (hb : Ballot g) (hl : Ok g l)
    (hc : (g.effect l).leads c u) (htu : t < u) (hown : Own (g.effect l) t i)
    (ho : Open (g.effect l) t i) :
    ((g.effect l).glog t).take (i + 1) <+: (g.effect l).glog u := by
  have ho' := hm.open_of_effect hl ho
  have hold (hc : g.leads c u) : ((g.effect l).glog t).take (i + 1) <+: (g.effect l).glog u := by
    rcases hm.own_of_effect hl hown with hown | ⟨d, x, rfl, rfl⟩
    · rw [hm.take_effect hl hown]
      exact (h.led c u t i hc htu hown ho').trans (hm.glog_effect hl u)
    · exact (h.not_open_end hb hc htu ho').elim
  cases l with
  | win d w =>
    rcases hc with ⟨rfl, rfl⟩ | hc
    · rcases hm.own_of_effect hl hown with hown | ⟨_, _, he, _⟩
      · rw [hm.take_effect hl hown]
        obtain ⟨v, k, hv, hk, ha⟩ := ho'.acked_voter hb hl.1 htu
        have hp := h.voted v u c t k i hv htu ha hk hown ho'
        simpa only [Ledger.effect, Function.update_self, hl.2.2.2.1] using hp
      · cases he
    · exact hold hc
  | _ => exact hold hc

theorem Complete.voted_effect (h : Complete g) (hm : Matching g) (hb : Ballot g) (hl : Ok g l)
    (hv : (g.effect l).vote v u = some c) (htu : t < u) (ha : (g.effect l).ack v t k) (hi : i < k)
    (hown : Own (g.effect l) t i) (ho : Open (g.effect l) t i) :
    ((g.effect l).glog t).take (i + 1) <+: (g.effect l).camp c u := by
  have ho' := hm.open_of_effect hl ho
  have ha' : g.ack v t k := by
    rcases ack_effect_inv hl ha with ha | ⟨ht, _, _, _, _, _, hve⟩
    · exact ha
    · have hle := hb.vote_le (hve ▸ hv)
      omega
  rcases hm.own_of_effect hl hown with hown | ⟨_, _, rfl, rfl⟩
  · rw [hm.take_effect hl hown]
    have hpl := h.acked v t k i ha' hi hown ho'
    rcases vote_effect_inv hv with hv | ⟨rfl, rfl⟩ | rfl
    · rw [camp_effect hl (hm.vote_cand v u c hv)]
      exact h.voted v u c t k i hv htu ha' hi hown ho'
    · simpa only [Ledger.effect, Function.update_self] using hpl
    · exact h.dominates hm hl.2.2.2 (hm.camp_coh c u hl.2.2.1) (hm.log_coh v)
        (hm.camp_lt c u hl.2.2.1) hown ho' hpl
  · have hlen := h.ack_len v t k ha'
    omega

/-- Leader completeness is kept by every step that follows the rules and keeps matching
suffixes. -/
theorem Complete.effect (h : Complete g) (hm : Matching g) (hb : Ballot g) (hl : Ok g l)
    (hk : Keeps g l) : Complete (g.effect l) where
  ack_le := by
    intro v t k ha
    rcases ack_effect_inv hl ha with ha | ⟨ht, _, _, _, _, he, _⟩
    · exact Nat.le_trans (h.ack_le v t k ha) (term_effect hl.1 v)
    · exact Nat.le_of_eq (he ▸ ht.symm)
  ack_len := by
    intro v t k ha
    rcases ack_effect_inv hl ha with ha | ⟨_, hlen, _, he, _, _, _⟩
    · exact Nat.le_trans (h.ack_len v t k ha) (hm.glog_effect hl t).length_le
    · rwa [he]
  acked := fun _ _ _ _ ha hi hown ho => h.acked_effect hm hl hk ha hi hown ho
  led := fun _ _ _ _ hc htu hown ho => h.led_effect hm hb hl hc htu hown ho
  voted := fun _ _ _ _ _ _ hv htu ha hi hown ho => h.voted_effect hm hb hl hv htu ha hi hown ho
  declared := by
    intro t k hd
    have hold (hd : ∃ i, k = i + 1 ∧ Own g t i ∧
        ∃ Q, Majority Q ∧ ∀ u ∈ Q, ∃ j, i < j ∧ g.ack u t j) :
        ∃ i, k = i + 1 ∧ Own (g.effect l) t i ∧
          ∃ Q, Majority Q ∧ ∀ u ∈ Q, ∃ j, i < j ∧ (g.effect l).ack u t j := by
      obtain ⟨i, hki, hown, Q, hQ, ha⟩ := hd
      refine ⟨i, hki, hown.extends (hm.extends hl), Q, hQ, fun u hu => ?_⟩
      obtain ⟨j, hj, hau⟩ := ha u hu
      exact ⟨j, hj, (hm.extends hl).ack u t j hau⟩
    cases l with
    | commit u j =>
      rcases hd with ⟨rfl, rfl⟩ | hd
      · obtain ⟨i, x, hki, hx, hQ⟩ := hl.2
        exact hold ⟨i, hki, ⟨x, hx⟩, hQ⟩
      · exact hold (h.declared t k hd)
    | _ => exact hold (h.declared t k hd)

theorem Complete.effects (h : Complete g) (hm : Matching g) (hb : Ballot g)
    (hl : Along Ok g ls) (hk : Along Keeps g ls) : Complete (g.effects ls) := by
  induction ls generalizing g with
  | nil => exact h
  | cons l ls ih =>
    exact ih (h.effect hm hb hl.1 hk.1) (hm.effect hb hl.1) (hb.effect hl.1.1) hl.2 hk.2

end

theorem Complete.declared_open (h : Complete g) (hd : g.decl t k) :
    ∃ i, k = i + 1 ∧ Own g t i ∧ Open g t i := by
  obtain ⟨i, hk, hown, Q, hQ, ha⟩ := h.declared t k hd
  exact ⟨i, hk, hown, Q, hQ, fun u hu => .inl (ha u hu)⟩

theorem Complete.declared_led (h : Complete g) (hm : Matching g) (hd : g.decl t k) :
    ∃ c, g.leads c t := by
  obtain ⟨i, _, hown, _⟩ := h.declared_open hd
  exact hm.glog_led t (List.ne_nil_of_length_pos (Nat.zero_lt_of_lt hown.lt))

theorem DecidedBy.prefix_glog (hd : DecidedBy g t P) (h : Complete g) (hc : g.leads c u)
    (htu : t ≤ u) : P <+: g.glog u := by
  rcases hd with rfl | ⟨t', k, ht, hd, hP⟩
  · exact List.nil_prefix
  · rcases Nat.eq_or_lt_of_le (Nat.le_trans ht htu) with rfl | hlt
    · exact hP.trans (List.take_prefix _ _)
    · obtain ⟨i, rfl, hown, ho⟩ := h.declared_open hd
      exact hP.trans (h.led c u t' i hc hlt hown ho)

/-- Two committed prefixes agree as far as both reach. -/
theorem DecidedBy.comparable (hP : DecidedBy g t P) (hL : DecidedBy g u L) (h : Complete g)
    (hm : Matching g) : P <+: L ∨ L <+: P := by
  rcases hP with rfl | ⟨t', k, _, hd, hP⟩
  · exact .inl List.nil_prefix
  · rcases hL with rfl | ⟨u', j, _, hd', hL⟩
    · exact .inr List.nil_prefix
    · rcases Nat.le_total t' u' with hle | hle
      · obtain ⟨c, hc⟩ := h.declared_led hm hd'
        have hpg := DecidedBy.prefix_glog (.inr ⟨t', k, Nat.le_refl _, hd, hP⟩) h hc hle
        exact List.prefix_or_prefix_of_prefix hpg (hL.trans (List.take_prefix _ _))
      · obtain ⟨c, hc⟩ := h.declared_led hm hd
        have hlg := DecidedBy.prefix_glog (.inr ⟨u', j, Nat.le_refl _, hd', hL⟩) h hc hle
        exact List.prefix_or_prefix_of_prefix (hP.trans (List.take_prefix _ _)) hlg

/-- At most one value is committed for an index. -/
theorem Chosen.unique (hx : Chosen g k x) (hy : Chosen g k y) (h : Complete g)
    (hm : Matching g) : x = y := by
  obtain ⟨u, P, t, hP, _, hx⟩ := hx
  obtain ⟨w, L, t', hL, _, hy⟩ := hy
  have hlx := (List.getElem?_eq_some_iff.1 hx).1
  have hly := (List.getElem?_eq_some_iff.1 hy).1
  rcases hP.comparable hL h hm with ⟨r, rfl⟩ | ⟨r, rfl⟩
  · rw [List.getElem?_append_left hlx, hx] at hy
    cases hy
    rfl
  · rw [List.getElem?_append_left hly, hy] at hx
    cases hx
    rfl

theorem Complete.decl_le (h : Complete g) (hd : g.decl t k) : k ≤ (g.glog t).length := by
  obtain ⟨i, rfl, hown, _⟩ := h.declared_open hd
  exact hown.lt

theorem DecidedBy.current [DecidableEq V] {Q : Finset V} (hd : DecidedBy g u P) (h : Complete g)
    (hm : Matching g) (hb : Ballot g) (hQ : Majority Q) (ht : ∀ v ∈ Q, g.term v ≤ t) :
    DecidedBy g t P := by
  rcases hd with rfl | ⟨t', k, _, hdecl, hP⟩
  · exact .inl rfl
  · refine .inr ⟨t', k, ?_, hdecl, hP⟩
    obtain ⟨c, hc⟩ := h.declared_led hm hdecl
    obtain ⟨R, hR, hv⟩ := hb.quorum hc
    obtain ⟨v, hvQ, hvR⟩ := hQ.meet hR
    exact Nat.le_trans (hb.vote_le (hv v hvR)) (ht v hvQ)

/-- A leader whose commit index stands at an entry of its own term has all that is committed up
to its term. -/
theorem DecidedBy.length_le (hd : DecidedBy g t P) (h : Complete g) (hm : Matching g)
    (hc : g.leads c t) (hterm : termAt (g.glog t) k = t) (hown : ∀ j, g.decl t j → j ≤ k) :
    P.length ≤ k := by
  have hpg := hd.prefix_glog h hc (Nat.le_refl t)
  rcases hd with rfl | ⟨t', j, ht, hdecl, hP⟩
  · exact Nat.zero_le k
  · rcases Nat.eq_or_lt_of_le ht with rfl | hlt
    · exact Nat.le_trans (Nat.le_trans hP.length_le (List.length_take_le _ _)) (hown j hdecl)
    · by_contra hgt
      have hne : P ≠ [] := by
        rintro rfl
        exact hgt (Nat.zero_le k)
      -- the last entry of `P` is of a term before `t`, so the one at `k` is as well
      have hle := (hm.glog_sorted t).termAt_le (Nat.le_of_not_le hgt) hpg.length_le
      rw [hterm, termAt_of_isPrefix hpg (Nat.le_refl _), termAt_length] at hle
      obtain ⟨y, hy⟩ := getElem?_last hne
      have hmem := (hP.trans (List.take_prefix _ _)).subset (List.mem_of_getElem? hy)
      have hlast := hm.glog_le t' _ hmem
      simp only at hlast
      omega

theorem DecidedBy.keep [DecidableEq V] (hd : DecidedBy g (g.term v) P) (h : Complete g)
    (hl : Ok g l) (hk : Keeps g l) (hp : P <+: g.log v) : P <+: (g.effect l).log v := by
  apply hk.prefix_log hp
  rintro t m rfl
  obtain ⟨c, hc⟩ := hl.2.2.2.2
  exact hd.prefix_glog h hc (Nat.le_of_eq hl.2.1)

theorem DecidedBy.keeps [DecidableEq V] (hd : DecidedBy g (g.term v) P) (h : Complete g)
    (hm : Matching g) (hb : Ballot g) (hl : Along Ok g ls) (hk : Along Keeps g ls)
    (hp : P <+: g.log v) : P <+: (g.effects ls).log v := by
  induction ls generalizing g with
  | nil => exact hp
  | cons l ls ih =>
    have he := hm.extends hl.1
    exact ih ((hd.extends he).le (he.term v)) (h.effect hm hb hl.1 hk.1) (hm.effect hb hl.1)
      (hb.effect hl.1.1) hl.2 hk.2 (hd.keep h hl.1 hk.1 hp)

end

end Ledger

end Consensus

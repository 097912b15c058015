import LinKV.Client.Calls
import LinKV.Server.AtMostOnce
import LinKV.Server.Submit

namespace LinKV
set_option autoImplicit true

theorem Service.Ordered.length_filter_le {s : Service} (h : s.Ordered) (env : Command) :
    (s.executed.filter (·.1.env = env)).length ≤ 1 := by
  have hp := List.Pairwise.filter (fun e : Delivery × Result => decide (e.1.env = env)) h.increasing
  match hf : s.executed.filter (·.1.env = env) with
  | [] =>
    rw [hf]
    exact Nat.zero_le 1
  | [_] =>
    rw [hf]
    exact Nat.le_refl 1
  | a :: b :: l =>
    rw [hf] at hp
    have hmem {e} (he : e ∈ a :: b :: l) : e.1.env = env := by
      rw [← hf] at he
      exact of_decide_eq_true (List.mem_filter.1 he).2
    have ha : a.1.env = env := hmem List.mem_cons_self
    have hb : b.1.env = env := hmem (List.mem_cons_of_mem _ List.mem_cons_self)
    have hlt := List.rel_of_pairwise_cons hp List.mem_cons_self (by rw [ha, hb])
    rw [ha, hb] at hlt
    exact absurd hlt (lt_irrefl _)

namespace Deployment

structure From (P : Submission → Prop) (D : Deployment ι) : Prop where
  started : ∀ i, ∀ x ∈ (D.site i).started, P x.2
  holders : ∀ i index sub, (D.site i).holders.lookup index = some sub → P sub
  proposed : ∀ env ∈ D.proposed, ∃ sub, P sub ∧ sub.env = env
  returned : ∀ a ∈ D.returned, P a.1

theorem From.mono {D : Deployment ι} (h : D.From P) (hpq : ∀ sub, P sub → Q sub) : D.From Q where
  started i x hx := hpq _ (h.started i x hx)
  holders i index sub hsub := hpq _ (h.holders i index sub hsub)
  proposed env henv := by
    obtain ⟨sub, hsub, he⟩ := h.proposed env henv
    exact ⟨sub, hpq sub hsub, he⟩
  returned a ha := hpq _ (h.returned a ha)

variable [DecidableEq ι] {D D' : Deployment ι} {P : Submission → Prop}

/-- Only the installation of a snapshot can make a server forget what it has executed. -/
theorem ordered_step (h : ∀ i, (D.site i).service.Ordered) (hs : D.step (i, ev) = some D')
    (hev : ev ≠ .restore) (j : ι) : (D'.site j).service.Ordered := by
  have hset {t : Site} (ht : t.service.Ordered) : ((D.set i t).site j).service.Ordered :=
    set_site_forall (P := fun _ t => t.service.Ordered) (fun j _ => h j) ht j
  have hi := h i
  cases step_moves hs with
  | start => exact hset (t := (D.site i).start _ _) hi
  | register _ hsub =>
    exact hset (t := (D.site i).register _ _ _) (hi.effect (Service.step_effect hsub))
  | deliver =>
    exact hset (t := (D.site i).deliver _) ⟨hi.increasing, hi.bounded, hi.checked, hi.reading⟩
  | serve _ hserve =>
    exact hset (t := { D.site i with service := _ }) (hi.effect (Service.step_effect hserve))
  | makeSnapshot => exact h j
  | @install n snap =>
    have heffect : Service.Effect (D.site i).service ((D.site i).install snap).service
        .clearWaitCh := .quiet ⟨rfl, rfl⟩ rfl rfl rfl
    exact hset (t := (D.site i).install snap) (hi.effect heffect)
  | restore => exact absurd rfl hev

theorem From.set (h : D.From P) (hs : ∀ x ∈ t.started, P x.2)
    (hh : ∀ index sub, t.holders.lookup index = some sub → P sub)
    (hp : ∀ env ∈ p, env ∈ D.proposed ∨ ∃ sub, P sub ∧ sub.env = env)
    (hq : ∀ a ∈ q, a ∈ D.returned ∨ P a.1) :
    From P { D.set i t with proposed := p, returned := q } where
  started := set_site_forall (P := fun _ t => ∀ x ∈ t.started, P x.2) (fun j _ => h.started j) hs
  holders := set_site_forall
    (P := fun _ t => ∀ index sub, t.holders.lookup index = some sub → P sub)
    (fun j _ => h.holders j) hh
  proposed env henv := (hp env henv).elim (h.proposed env) id
  returned a ha := (hq a ha).elim (h.returned a) id

theorem From.step (h : D.From P) (hs : D.step (i, ev) = some D')
    (hev : ∀ index sub, ev = .start index sub → P sub) : D'.From P := by
  cases step_moves hs with
  | @start index sub =>
    have hsub : P sub := hev index sub rfl
    refine h.set (t := (D.site i).start index sub) (fun x hx => ?_) (h.holders i)
      (fun env henv => ?_) (fun _ => .inl)
    · rcases List.mem_cons.1 hx with rfl | hx
      · exact hsub
      · exact h.started i x hx
    · rcases List.mem_cons.1 henv with rfl | henv
      · exact .inr ⟨sub, hsub, rfl⟩
      · exact .inl henv
  | @register index sub s hm =>
    have hsub : P sub := h.started i _ hm
    refine h.set (t := (D.site i).register index sub s)
      (fun x hx => h.started i x (List.mem_of_mem_erase hx)) (fun index' sub' hl => ?_)
      (fun _ => .inl) (fun a ha => ?_)
    · dsimp only [Site.register] at hl
      split at hl
      · rcases eq_or_ne index' index with rfl | hne
        · rw [Finmap.lookup_insert] at hl
          cases hl
          exact hsub
        · rw [Finmap.lookup_insert_of_ne _ hne] at hl
          exact h.holders i index' sub' hl
      · exact h.holders i index' sub' hl
    · rcases List.mem_append.1 ha with ha | ha
      · exact .inl ha
      · obtain ⟨_, -, rfl⟩ := List.mem_map.1 ha
        exact .inr hsub
  | deliver =>
    exact h.set (t := (D.site i).deliver _) (h.started i) (h.holders i) (fun _ => .inl)
      (fun _ => .inl)
  | @serve ev s =>
    refine h.set (t := { D.site i with service := s }) (h.started i) (h.holders i) (fun _ => .inl)
      (fun a ha => ?_)
    rcases List.mem_append.1 ha with ha | ha
    · exact .inl ha
    · obtain ⟨⟨index, r⟩, -, ha⟩ := List.mem_filterMap.1 ha
      obtain ⟨sub, hsub, rfl⟩ := Option.map_eq_some_iff.1 ha
      exact .inr (h.holders i index sub hsub)
  | makeSnapshot => exact ⟨h.started, h.holders, h.proposed, h.returned⟩
  | install =>
    exact h.set (t := (D.site i).install _) (h.started i) (h.holders i) (fun _ => .inl)
      (fun _ => .inl)
  | restore =>
    exact h.set (t := (D.site i).restore _) (h.started i) (h.holders i) (fun _ => .inl)
      (fun _ => .inl)

end Deployment

namespace World

/-- A `Put` call does not take the ID and number of a call before, and no `submit` call finds the
result of another command at its index. -/
def Separate [DecidableEq ι] (W : World ι) : WorldEvent ι → Prop
  | .put c _ _ => ∀ x ∈ W.clients[c]?, ∀ req ∈ W.calls,
      ¬ (req.clientID = x.2.clientID ∧ req.seq = x.2.getSeq.2)
  | .system i ev => W.deployment.Undisturbed (i, ev)
  | _ => True

structure Numbered (W : World ι) : Prop where
  nonneg : ∀ x ∈ W.clients, 0 ≤ x.2.seq
  positive : ∀ req ∈ W.calls, 1 ≤ req.seq
  distinct : (W.calls.map fun req => (req.clientID, req.seq)).Nodup

section

variable {W W' : World ι}

theorem Numbered.congr (h : W.Numbered) (hx : W'.clients = W.clients) (hc : W'.calls = W.calls) :
    W'.Numbered where
  nonneg := hx ▸ h.nonneg
  positive := hc ▸ h.positive
  distinct := hc ▸ h.distinct

theorem Numbered.make (h : W.Numbered) (hx : W'.clients = W.clients ++ [(p, ⟨k, 0⟩)])
    (hc : W'.calls = W.calls) : W'.Numbered where
  nonneg x hin := by
    rw [hx] at hin
    rcases List.mem_append.1 hin with hin | hin
    · exact h.nonneg x hin
    · obtain rfl := List.mem_singleton.1 hin
      exact le_rfl
  positive := hc ▸ h.positive
  distinct := hc ▸ h.distinct

theorem Numbered.put (h : W.Numbered) (hc : W.clients[c]? = some (p, client))
    (hok : ∀ req ∈ W.calls, ¬ (req.clientID = client.clientID ∧ req.seq = client.seq + 1)) :
    Numbered { W with
      clients := W.clients.set c (p, ⟨client.clientID, client.seq + 1⟩)
      calls := W.calls ++ [⟨key, value, 0, client.clientID, client.seq + 1⟩] } := by
  have hseq := h.nonneg _ (List.mem_of_getElem? hc)
  refine ⟨fun x hx => ?_, fun req hreq => ?_, ?_⟩
  · rcases List.mem_or_eq_of_mem_set hx with hx | rfl
    · exact h.nonneg x hx
    · exact hseq.trans (Int.le_add_one le_rfl)
  · rcases List.mem_append.1 hreq with hreq | hreq
    · exact h.positive req hreq
    · obtain rfl := List.mem_singleton.1 hreq
      exact Int.le_add_of_nonneg_left hseq
  · rw [List.map_append]
    refine List.nodup_append.2 ⟨h.distinct, List.nodup_singleton _, ?_⟩
    rintro a ha b hb rfl
    obtain ⟨req, hreq, heq⟩ := List.mem_map.1 ha
    exact hok req hreq (Prod.mk.inj (heq.trans (List.mem_singleton.1 hb)))

end

/-- The `submit` calls of a `Put` call hand its command to Raft. -/
def Issues (W : World ι) (sub : Submission) : Prop :=
  ∃ req, W.calls[sub.caller]? = some req ∧ sub.env = req.command

structure Sound (W : World ι) : Prop where
  numbered : W.Numbered
  issued : W.deployment.From W.Issues
  traced : W.deployment.Traced
  ordered : ∀ i, (W.deployment.site i).service.Ordered
  done : ∀ n ∈ W.done, W.Succeeded n

section

variable {W W' : World ι}

theorem Issues.append (h : W.Issues sub) (hc : W'.calls = W.calls ++ l) : W'.Issues sub := by
  obtain ⟨req, hreq, he⟩ := h
  refine ⟨req, ?_, he⟩
  rw [hc, List.getElem?_append_left (List.getElem?_eq_some_iff.1 hreq).1, hreq]

theorem Sound.frame (h : W.Sound) (hn : W'.Numbered) (hD : W'.deployment = W.deployment)
    (hc : W'.calls = W.calls ++ l) (hd : W'.done = W.done) : W'.Sound where
  numbered := hn
  issued := by
    rw [hD]
    exact h.issued.mono fun _ hs => hs.append hc
  traced := hD ▸ h.traced
  ordered := hD ▸ h.ordered
  done n hm := by
    rw [Succeeded, hD]
    exact h.done n (hd ▸ hm)

/-- A `Put` call that has returned nil has had its command executed by some server. -/
theorem Sound.executed (h : W.Sound) (hd : n ∈ W.done) (hn : W.calls[n]? = some req) :
    ∃ i, ∃ e ∈ (W.deployment.site i).service.executed, e.1.env = req.command := by
  obtain ⟨⟨sub, r⟩, ha, rfl, herr⟩ := h.done n hd
  obtain ⟨req', hn', hsub⟩ := h.issued.returned _ ha
  cases hn.symm.trans hn'
  obtain ⟨-, env, ⟨i, d, he, rfl⟩, hcall⟩ := h.traced.returned _ ha herr
  -- the executed command is that of a call too, and so of this one
  obtain ⟨sub', ⟨req', hm, hsub'⟩, hd'⟩ := h.issued.proposed _ ((h.traced.sites i).executed _ he).1
  dsimp only at hsub hcall hd'
  rw [hsub, ← hd', hsub'] at hcall
  have hreq : req' = req := List.inj_on_of_nodup_map h.numbered.distinct
    (List.mem_of_getElem? hm) (List.mem_of_getElem? hn) (Prod.ext hcall.1 hcall.2.1)
  exact ⟨i, (d, r), he, by rw [← hd', hsub', hreq]⟩

variable [DecidableEq ι]

theorem Sound.deployment (h : W.Sound) (hs : W.deployment.step (i, ev) = some D)
    (hin : W.deployment.InScope (i, ev)) (hok : W.deployment.Undisturbed (i, ev))
    (hev : ev ≠ .restore) (hstart : ∀ index sub, ev = .start index sub → W.Issues sub) :
    Sound { W with deployment := D } where
  numbered := h.numbered.congr rfl rfl
  issued := h.issued.step hs hstart
  traced := h.traced.step hin hok hs
  ordered := Deployment.ordered_step h.ordered hs hev
  done n hn := by
    obtain ⟨a, ha, hsucc⟩ := h.done n hn
    exact ⟨a, Deployment.step_returned hs ha, hsucc⟩

theorem Sound.step (h : W.Sound) (hin : W.InScope a) (hok : W.Separate a)
    (hs : W.step a = some W') : W'.Sound := by
  have hn := h.numbered
  cases step_moves hs with
  | spawn => exact h.frame (hn.congr rfl rfl) rfl (List.append_nil _).symm rfl
  | make => exact h.frame (hn.make rfl rfl) rfl (List.append_nil _).symm rfl
  | put hc => exact h.frame (hn.put hc (hok _ hc)) rfl rfl rfl
  | @attempt n req i index D hreq hD =>
    have hpos : 1 ≤ req.seq := hn.positive req (List.mem_of_getElem? hreq)
    refine h.deployment hD hpos (fun env henv _ _ => ?_) nofun fun _ _ he => ?_
    · obtain ⟨sub, ⟨req', -, hsub⟩, rfl⟩ := h.issued.proposed env henv
      rw [hsub]
      rfl
    · cases he
      exact ⟨req, hreq, rfl⟩
  | @system i ev D hev hD =>
    refine h.deployment hD ?_ hok ?_ ?_
    · cases ev with
      | serve ev => exact hin
      | start => cases hev
      | register | deliver | makeSnapshot | install | restore => trivial
    · rintro rfl
      exact hin
    · rintro index sub rfl
      cases hev
  | reply hr =>
    refine ⟨hn.congr rfl rfl, h.issued, h.traced, h.ordered, fun m hm => ?_⟩
    rcases List.mem_cons.1 hm with rfl | hm
    · exact hr
    · exact h.done m hm

theorem Sound.reachable {stores : ι → KVStore}
    (h : Consensus.ReachableBy World.step (fun W a => W.InScope a ∧ W.Separate a)
      (fresh stores) W) : W.Sound := by
  induction h with
  | init =>
    have hnone {α : Type} {P : α → Prop} : ∀ a ∈ ([] : List α), P a :=
      fun _ ha => absurd ha List.not_mem_nil
    refine ⟨⟨hnone, hnone, List.nodup_nil⟩, ⟨fun _ => hnone, ?_, hnone, hnone⟩, ?_, fun i => ?_,
      hnone⟩
    · intro _ _ _ hl
      cases hl
    · exact Deployment.Traced.reachable .init
    · exact .init rfl rfl rfl
  | step _ hok hs ih => exact ih.step hok.1 hok.2 hs

end

def executions (W : World ι) (i : ι) (req : PutRequest) : Nat :=
  ((W.deployment.site i).service.executed.filter (·.1.env = req.command)).length

end World

/-- A `Put` call that has returned nil has had its own command executed exactly once by a server,
and by no server more than once, if no two calls have the same ID and number and no `submit` call
finds the result of another command at its index. -/
theorem put_exactly_once [DecidableEq ι] {stores : ι → KVStore} {W : World ι}
    (h : Consensus.ReachableBy World.step (fun W a => W.InScope a ∧ W.Separate a)
      (.fresh stores) W) {n : Nat} {req : PutRequest} (hd : n ∈ W.done)
    (hn : W.calls[n]? = some req) :
    (∃ i, W.executions i req = 1) ∧ ∀ j, W.executions j req ≤ 1 := by
  have hw : W.Sound := .reachable h
  have hle (j : ι) : W.executions j req ≤ 1 := (hw.ordered j).length_filter_le req.command
  obtain ⟨i, e, he, henv⟩ := hw.executed hd hn
  have hpos : 0 < W.executions i req :=
    List.length_pos_of_mem (List.mem_filter.2 ⟨he, decide_eq_true henv⟩)
  exact ⟨⟨i, le_antisymm (hle i) hpos⟩, hle⟩

instance [DecidableEq ι] (W : World ι) : (a : WorldEvent ι) → Decidable (W.InScope a)
  | .system _ (.serve ev) => inferInstanceAs (Decidable (ev.isRead = false))
  | .system _ (.makeSnapshot _) | .system _ (.install _) | .system _ .restore => instDecidableFalse
  | .system _ (.start _ _) | .system _ (.register _ _) | .system _ (.deliver _)
  | .spawn | .make _ | .put _ _ _ | .attempt _ _ _ | .reply _ => instDecidableTrue

instance [DecidableEq ι] (W : World ι) : (a : WorldEvent ι) → Decidable (W.Separate a)
  | .put c _ _ => inferInstanceAs (Decidable (∀ x ∈ W.clients[c]?, ∀ req ∈ W.calls, ¬ (_ ∧ _)))
  | .system i ev => inferInstanceAs (Decidable (W.deployment.Undisturbed (i, ev)))
  | .spawn | .make _ | .attempt _ _ _ | .reply _ => instDecidableTrue

/-- The command of the request is committed at the index and goes through `applyLoop` of the only
server. -/
def committing (index : Int) (req : PutRequest) : List (WorldEvent (Fin 1)) :=
  [.system 0 (.deliver ⟨index, req.command, ⟨0, []⟩⟩), .system 0 (.serve .loop),
    .system 0 (.serve .loop), .system 0 (.serve .loop)]

/-- Two processes, the second of which uses its second client. The first attempt of the first call
fails although it has been committed, and the second one is committed too after the other call. -/
theorem put_exactly_once_retried :
    ∃ W : World (Fin 1),
      Consensus.ReachableBy World.step (fun W a => W.InScope a ∧ W.Separate a)
        (.fresh fun _ => .new) W ∧
      W.globalClientID = [1, 2] ∧ W.done = [0, 1] ∧
      ((∃ i, W.executions i ⟨[1], [2], 0, 1, 1⟩ = 1) ∧
        ∀ j, W.executions j ⟨[1], [2], 0, 1, 1⟩ ≤ 1) ∧
      (∃ i, W.executions i ⟨[1], [3], 0, 2, 1⟩ = 1) ∧
        ∀ j, W.executions j ⟨[1], [3], 0, 2, 1⟩ ≤ 1 := by
  let req : PutRequest := ⟨[1], [2], 0, 1, 1⟩
  let req' : PutRequest := ⟨[1], [3], 0, 2, 1⟩
  have h : Consensus.RunsTo World.step (fun W a => W.InScope a ∧ W.Separate a)
      (fun W : World (Fin 1) => W.globalClientID = [1, 2] ∧ W.done = [0, 1] ∧
        W.calls[0]? = some ⟨[1], [2], 0, 1, 1⟩ ∧ W.calls[1]? = some ⟨[1], [3], 0, 2, 1⟩)
      (.fresh fun _ => .new)
      (List.flatten [[.spawn, .spawn, .make 0, .make 1, .make 1, .put 0 [1] [2], .put 2 [1] [3],
          .attempt 0 0 1], committing 1 req,
        [.attempt 1 0 2, .system 0 (.register 2 ⟨1, req'.command⟩)], committing 2 req',
        [.reply 1, .attempt 0 0 3, .system 0 (.register 3 ⟨0, req.command⟩),
          .system 0 (.deliver ⟨3, req.command, ⟨0, []⟩⟩), .system 0 (.serve .loop),
          .reply 0]]) := by
    decide +kernel
  obtain ⟨W, hW, hids, hd, hn, hn'⟩ := h.reachable
  have hin : 0 ∈ W.done := hd ▸ List.mem_cons_self
  have hin' : 1 ∈ W.done := hd ▸ List.mem_cons_of_mem _ List.mem_cons_self
  exact ⟨W, hW, hids, hd, put_exactly_once hW hin hn, put_exactly_once hW hin' hn'⟩

/-- The first clients of two processes have the same ID, and so the first call of the second
process returns nil although no server has executed its command. -/
theorem put_exactly_once_fails :
    ∃ W : World (Fin 1),
      Consensus.ReachableBy World.step World.InScope (.fresh fun _ => .new) W ∧
      W.calls = [⟨[1], [2], 0, 1, 1⟩, ⟨[1], [3], 0, 1, 1⟩] ∧ 1 ∈ W.done ∧
      ∀ i, W.executions i ⟨[1], [3], 0, 1, 1⟩ = 0 := by
  let req : PutRequest := ⟨[1], [2], 0, 1, 1⟩
  let req' : PutRequest := ⟨[1], [3], 0, 1, 1⟩
  have h : Consensus.RunsTo World.step World.InScope
      (fun W : World (Fin 1) =>
        W.calls = [⟨[1], [2], 0, 1, 1⟩, ⟨[1], [3], 0, 1, 1⟩] ∧ 1 ∈ W.done ∧
        ∀ i, W.executions i ⟨[1], [3], 0, 1, 1⟩ = 0) (.fresh fun _ => .new)
      ([.spawn, .spawn, .make 0, .make 1, .put 0 [1] [2], .put 1 [1] [3], .attempt 0 0 1] ++
        committing 1 req ++ [.attempt 1 0 2, .system 0 (.register 2 ⟨1, req'.command⟩),
          .system 0 (.deliver ⟨2, req'.command, ⟨0, []⟩⟩), .system 0 (.serve .loop),
          .reply 1]) := by
    decide +kernel
  exact h.reachable

end LinKV

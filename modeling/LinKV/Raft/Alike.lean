import LinKV.Raft.Trace

namespace LinKV
set_option autoImplicit true

/-- The process without the time that no step reads. -/
def Proc.plain (p : Proc n) : Proc n :=
  { p with readCall := p.readCall.map fun c => { c with startedAt := 0 } }

def Rpc.plain (r : Rpc n) : Rpc n := { r with sentAt := 0 }

section

variable {p q p' : Proc n} {ev : Event n}

theorem ite_apply_congr {f : α → β} {c : Prop} [Decidable c] {a b a' b' : α} (ha : f a = f a')
    (hb : f b = f b') : f (if c then a else b) = f (if c then a' else b') := by
  split
  · exact ha
  · exact hb

theorem Proc.step_plain (p : Proc n) (now now' : Nat) (ev : Event n) :
    (p.plain.step now' ev).map plain = (p.step now ev).map plain := by
  obtain ⟨rf, sends, elections, solo, votes, batch, snapSends, applyCh, inHand, processed, base,
    readCall, reads⟩ := p
  cases readCall with
  | none =>
    cases ev with
    | readIndex => exact ite_apply_congr rfl rfl
    | _ => rfl
  | some c =>
    cases ev with
    | tick => exact ite_apply_congr rfl rfl
    | startElection => exact ite_apply_congr rfl rfl
    | soloLeader => exact ite_apply_congr rfl rfl
    | replicate server => exact ite_apply_congr rfl rfl
    | collect => exact ite_apply_congr rfl rfl
    | readIndex => exact ite_apply_congr rfl rfl
    | readSignal => exact ite_apply_congr rfl rfl
    | readTimeout => exact ite_apply_congr rfl rfl
    | copy k =>
      simp only [step, plain]
      cases sends[k]? with
      | none => rfl
      | some m => exact ite_apply_congr rfl rfl
    | send k => exact ite_apply_congr rfl rfl
    | emit =>
      cases batch with
      | nil => rfl
      | cons m rest => exact ite_apply_congr rfl rfl
    | emitSnap k =>
      simp only [step, plain]
      cases snapSends[k]? with
      | none => rfl
      | some m => exact ite_apply_congr rfl rfl
    | receive => cases inHand <;> cases applyCh <;> rfl
    | finish snapshot =>
      cases inHand with
      | none => rfl
      | some m =>
        cases snapshot with
        | none => rfl
        | some data =>
          cases m with
          | snapshot => rfl
          | command i c =>
            simp only [step, Proc.finish, plain, Option.map_map]
            rfl
    | readReturn =>
      apply ite_apply_congr _ rfl
      exact congrArg some (ite_apply_congr rfl rfl)
    | readExit k =>
      simp only [step, plain]
      cases reads[k]? with
      | none => rfl
      | some index => exact ite_apply_congr rfl rfl
    | requestVoteReply args reply =>
      apply congrArg some
      apply ite_apply_congr (f := plain)
      · rfl
      apply ite_apply_congr (f := plain)
      · rfl
      apply ite_apply_congr (f := plain)
      · exact ite_apply_congr (f := plain) rfl rfl
      · rfl
    | appendEntriesReply server args reply =>
      simp only [step, Proc.appendEntriesReply, plain, Option.map_some]
      by_cases h : rf.countsRead args reply = true
      · simp only [h, ↓reduceIte]
      · simp only [h, Bool.false_eq_true, ↓reduceIte]
    | _ => rfl

/-- Processes that differ in bookkeeping only take the same steps. -/
theorem Proc.step_alike (h : p.plain = q.plain) (hs : p.step now ev = some p') (now' : Nat) :
    ∃ q', q.step now' ev = some q' ∧ p'.plain = q'.plain := by
  have hq : (q.step now' ev).map plain = some p'.plain := by
    rw [← q.step_plain now' 0, ← h, p.step_plain now, hs, Option.map_some]
  obtain ⟨q', hq', he⟩ := Option.map_eq_some_iff.1 hq
  exact ⟨q', hq', he.symm⟩

theorem Proc.calls_alike (h : p.plain = q.plain) : p.calls ev = q.calls ev := by
  change p.plain.calls ev = q.plain.calls ev
  rw [h]

theorem Proc.emits_alike (h : p.plain = q.plain) : p.emits ev = q.emits ev := by
  change p.plain.emits ev = q.plain.emits ev
  rw [h]

theorem Proc.panics_alike (h : p.plain = q.plain) : p.panics ev = q.panics ev := by
  change p.plain.panics ev = q.plain.panics ev
  rw [h]

theorem Call.answered_alike (h : p.plain = q.plain) (c : Call n) :
    c.answered p = c.answered q := by
  change c.answered p.plain = c.answered q.plain
  rw [h]

end

theorem Rpc.orphan_plain (i : Fin n) (r : Rpc n) : (r.orphan i).map plain = r.plain.orphan i := by
  simp only [orphan, plain]
  by_cases hc : r.caller = i
  · by_cases hr : r.call.request.isSome = true
    · simp only [hc, hr, ne_eq, not_true_eq_false, ↓reduceIte, Option.map_some]
      rfl
    · simp only [hc, hr, ne_eq, not_true_eq_false, Bool.false_eq_true, ↓reduceIte, Option.map_none]
  · simp only [hc, ne_eq, not_false_eq_true, ↓reduceIte, Option.map_some]
    rfl

theorem Rpc.eq_of_plain {r r' : Rpc n} (h : r'.plain = r.plain) :
    r' = { r with sentAt := r'.sentAt } := by
  obtain ⟨caller, server, call, alive, sentAt⟩ := r
  obtain ⟨caller', server', call', alive', sentAt'⟩ := r'
  cases h
  rfl

/-- Two clusters that differ in bookkeeping only, as far as the nodes that are up are concerned. -/
structure Cluster.Alike (up : Fin n → Prop) (s t : Cluster n) : Prop where
  procs : ∀ i, up i → (s.procs i).plain = (t.procs i).plain
  rpcs : s.rpcs.map Rpc.plain = t.rpcs.map Rpc.plain
  emitted : s.emitted = t.emitted

namespace Cluster

variable {s t s' : Cluster n} {up : Fin n → Prop} {i : Fin n}

theorem step_act (hl : ev.isLocal = true) (hp : (t.procs i).panics ev = false)
    (hs : (t.procs i).step t.now ev = some q) : t.step (.act i ev) = some { t with
      procs := assign t.procs i q
      rpcs := t.rpcs ++ ((t.procs i).calls ev).map fun c => ⟨i, c.1, c.2, true, t.now⟩
      now := t.now + 1
      emitted := t.emitted ++ (((t.procs i).emits ev).map (i, ·)).toList } := by
  simp only [Cluster.step, Cluster.act, hl, hp, hs, Bool.true_eq_false, Bool.false_eq_true,
    ↓reduceIte, Option.map_some]

theorem event_handle {r : Rpc n} (hk : t.rpcs[k]? = some r) (he : r.call.request = some ev) :
    t.event (.handle k) = some (r.server, ev) := by
  simp only [event, hk, he, Option.bind_some, Option.map_some]

theorem event_reply {r : Rpc n} (hk : t.rpcs[k]? = some r)
    (he : r.call.replied r.server = some ev) : t.event (.reply k) = some (r.caller, ev) := by
  simp only [event, hk, he, Option.bind_some, Option.map_some]

theorem step_handle {r : Rpc n} (hk : t.rpcs[k]? = some r) (he : r.call.request = some ev)
    (hs : (t.procs r.server).step t.now ev = some q) : t.step (.handle k) = some { t with
      procs := assign t.procs r.server q
      rpcs := if r.alive then t.rpcs.set k { r with call := r.call.answered (t.procs r.server) }
        else t.rpcs.eraseIdx k
      now := t.now + 1
      answers := t.answers ++ r.answer (t.procs r.server) } := by
  simp only [Cluster.step, Cluster.handle, hk, he, hs, Option.map_some]

theorem step_reply {r : Rpc n} (hk : t.rpcs[k]? = some r) (he : r.call.replied r.server = some ev)
    (hs : (t.procs r.caller).step t.now ev = some q) : t.step (.reply k) = some { t with
      procs := assign t.procs r.caller q
      rpcs := t.rpcs.eraseIdx k
      now := t.now + 1 } := by
  simp only [Cluster.step, Cluster.reply, hk, he, hs, Option.map_some]

theorem Alike.rpc {k : Nat} {r : Rpc n} (h : Alike up s t) (hk : s.rpcs[k]? = some r) :
    ∃ time, t.rpcs[k]? = some { r with sentAt := time } := by
  have he : (t.rpcs.map Rpc.plain)[k]? = some r.plain := by
    rw [← h.rpcs, List.getElem?_map, hk, Option.map_some]
  rw [List.getElem?_map] at he
  obtain ⟨r', hr', he⟩ := Option.map_eq_some_iff.1 he
  exact ⟨r'.sentAt, hr'.trans (congrArg some (Rpc.eq_of_plain he))⟩

theorem eraseIdx_plain {l l' : List (Rpc n)} (h : l.map Rpc.plain = l'.map Rpc.plain) (k : Nat) :
    (l.eraseIdx k).map Rpc.plain = (l'.eraseIdx k).map Rpc.plain := by
  rw [← List.eraseIdx_map, ← List.eraseIdx_map, h]

theorem filterMap_orphan_plain {l l' : List (Rpc n)} (h : l.map Rpc.plain = l'.map Rpc.plain)
    (i : Fin n) :
    (l.filterMap (Rpc.orphan i)).map Rpc.plain = (l'.filterMap (Rpc.orphan i)).map Rpc.plain := by
  have hmap (l : List (Rpc n)) : (l.filterMap (Rpc.orphan i)).map Rpc.plain =
      (l.map Rpc.plain).filterMap (Rpc.orphan i) := by
    rw [List.map_filterMap, List.filterMap_map]
    congr 1
    funext r
    exact Rpc.orphan_plain i r
  rw [hmap, hmap, h]

theorem Alike.event (h : Alike up s t) (ha : s.event a = some (i, ev)) :
    t.event a = some (i, ev) := by
  cases a with
  | act j ev' => exact ha
  | handle k =>
    obtain ⟨r, hr, hev⟩ := Option.bind_eq_some_iff.1 ha
    obtain ⟨time, hr'⟩ := h.rpc hr
    exact Option.bind_eq_some_iff.2 ⟨_, hr', hev⟩
  | reply k =>
    obtain ⟨r, hr, hev⟩ := Option.bind_eq_some_iff.1 ha
    obtain ⟨time, hr'⟩ := h.rpc hr
    exact Option.bind_eq_some_iff.2 ⟨_, hr', hev⟩
  | _ => cases ha

/-- A step of a process that is up is a step of the other cluster. -/
theorem Alike.step (h : Alike up s t) (ha : s.event a = some (i, ev)) (hi : up i)
    (hp : (s.procs i).panics ev = false) (hs : s.step a = some s') :
    ∃ t' q, t.step a = some t' ∧ (t.procs i).step t.now ev = some q ∧
      t'.procs = assign t.procs i q ∧ Alike up s' t' := by
  have hi' := h.procs i hi
  have hmoved {p q : Proc n} {c c' : Cluster n} (hpq : p.plain = q.plain)
      (hc : c.procs = assign s.procs i p) (hc' : c'.procs = assign t.procs i q)
      (hr : c.rpcs.map Rpc.plain = c'.rpcs.map Rpc.plain) (he : c.emitted = c'.emitted) :
      Alike up c c' := by
    refine ⟨fun j hj => ?_, hr, he⟩
    rw [hc, hc']
    by_cases hji : j = i
    · rw [hji, assign_self, assign_self, hpq]
    · rw [assign_ne _ _ hji, assign_ne _ _ hji, h.procs j hj]
  cases step_move hs with
  | act j ev' p hl hp' hs' =>
    cases ha
    obtain ⟨q, hq, hpq⟩ := Proc.step_alike hi' hs' t.now
    have ht := step_act hl (Proc.panics_alike hi' ▸ hp') hq
    refine ⟨_, q, ht, hq, rfl, hmoved hpq rfl rfl ?_ ?_⟩
    · simp only [List.map_append, h.rpcs, Proc.calls_alike hi', List.map_map]
      rfl
    · dsimp only
      rw [h.emitted, Proc.emits_alike hi']
  | panic j ev' hp' =>
    cases ha
    rw [hp] at hp'
    cases hp'
  | handle k r ev' p hk he hs' =>
    cases (event_handle hk he).symm.trans ha
    obtain ⟨time, hk'⟩ := h.rpc hk
    obtain ⟨q, hq, hpq⟩ := Proc.step_alike hi' hs' t.now
    refine ⟨_, q, step_handle hk' he hq, hq, rfl, hmoved hpq rfl rfl ?_ h.emitted⟩
    dsimp only
    rw [← Call.answered_alike hi']
    split
    · simp only [List.map_set, h.rpcs]
      rfl
    · exact eraseIdx_plain h.rpcs k
  | reply k r ev' p hk he hs' =>
    cases (event_reply hk he).symm.trans ha
    obtain ⟨time, hk'⟩ := h.rpc hk
    obtain ⟨q, hq, hpq⟩ := Proc.step_alike hi' hs' t.now
    exact ⟨_, q, step_reply hk' he hq, hq, rfl,
      hmoved hpq rfl rfl (eraseIdx_plain h.rpcs k) h.emitted⟩
  | _ => cases ha

end Cluster

end LinKV

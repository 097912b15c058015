import LinKV.Raft.Replication
import LinKV.Server.Sequential

namespace LinKV
set_option autoImplicit true

/-- How commands and snapshots are written as bytes. `Marshal` and `Decode` may fail, where the
code panics, and no bytes at all are an empty message. -/
structure Codec where
  decodeCommand : Bytes → Option Command
  encodeSnapshot : ServerSnapshotMessage → Option Bytes
  decodeSnapshot : Bytes → Option ServerSnapshotMessage
  decode_encode : encodeSnapshot snap = some data → decodeSnapshot data = some snap
  decode_nil : decodeSnapshot [] = some ⟨⟨0, 0, [], [], [], ∅, 0⟩, ∅, ∅⟩

/-- What a server process adds to a message from Raft or to a snapshot, or what it does next. -/
inductive SiteInput where
  | deliver (e : Ambient)
  | save (order : List Int)
  | event (ev : SiteEvent)
deriving DecidableEq, Repr

namespace Site

/-- `NewServer` on a new store, the one `newMVCCStore` makes for `storage_backend: memory`. -/
def launch (server : Server) : Site := { service := { server := server, applyCh := [] } }

/-- The steps of a server that do not involve Raft. -/
def work (t : Site) : SiteEvent → Option Site
  | .start index sub => some (t.start index sub)
  | .register index sub =>
    if t.started.contains (index, sub) then
      (t.service.step (.submit index sub.env)).map (t.register index sub)
    else none
  | .serve ev =>
    if t.Serves ev then (t.service.step ev).map fun s => { t with service := s } else none
  | .restore => if t.service.reading = none then t.restoring.map t.restore else none
  | _ => none

def Idle (t : Site) : Prop :=
  t.restoring = none ∧ t.service.loop = .idle ∧ t.service.applyCh = []

instance Idle.decidable (t : Site) : Decidable t.Idle :=
  decidable_of_iff (t.restoring.isNone ∧ t.service.loop = .idle ∧ t.service.applyCh = [])
    (by rw [Option.isNone_iff_eq_none]; rfl)

/-- What the server will be when `applyLoop` is done with the message in hand. -/
def view (t : Site) : Sequential :=
  match t.restoring with
  | some snap => (t.service.server.replace snap).view
  | none =>
    match t.service.loop with
    | .idle =>
      match t.service.applyCh with
      | [] => t.service.server.view
      | d :: _ => t.service.server.view.apply d.ambient d.env
    | .checked d => t.service.server.view.run d.ambient d.env
    | .executed d r => t.service.server.view.noted d.env r

/-- There is at most one message in hand, and those who read at the server are readers. -/
structure Steady (readers : Finset Int) (t : Site) : Prop where
  restoring : t.restoring ≠ none → t.service.loop = .idle ∧ t.service.applyCh = []
  busy : t.service.loop ≠ .idle → t.service.applyCh = []
  one : t.service.applyCh.length ≤ 1
  commands : ∀ d ∈ t.service.applyCh, d.env.clientID ∉ readers
  reading : ∀ p, t.service.reading = some p → p.1.clientID ∈ readers

/-- The clients that read at the servers are readers. -/
def Reads (readers : Finset Int) : SiteEvent → Prop
  | .serve (.get req) => req.clientID ∈ readers
  | .serve (.rangeRev req) => req.clientID ∈ readers
  | _ => True

instance Reads.decidable (readers : Finset Int) : (ev : SiteEvent) → Decidable (Reads readers ev)
  | .serve (.get req) => inferInstanceAs (Decidable (req.clientID ∈ readers))
  | .serve (.rangeRev req) => inferInstanceAs (Decidable (req.clientID ∈ readers))
  | .serve .loop | .serve (.submit _ _) | .serve (.giveUp _) | .serve .clearWaitCh
  | .serve .range | .start _ _ | .register _ _ | .deliver _ | .makeSnapshot _ | .install _
  | .restore => instDecidableTrue

section

variable {t t' : Site} {s : Service} {readers : Finset Int}

theorem Idle.view (h : t.Idle) : t.view = t.service.server.view := by
  obtain ⟨hr, hl, hc⟩ := h
  simp only [Site.view, hr, hl, hc]

theorem view_server (ht : t.Steady readers) (hl : s.loop = t.service.loop)
    (hc : s.applyCh = t.service.applyCh) (hs : s.server.store = t.service.server.store)
    (hv : s.server.view.Same readers t.service.server.view) :
    Sequential.Same readers { t with service := s }.view t.view := by
  have hrun (d : Delivery) : (s.server.view.run d.ambient d.env).Same readers
      (t.service.server.view.run d.ambient d.env) := by
    have he : s.server.view.store = t.service.server.view.store := hs
    apply hv.run
    · rw [he]
      exact .refl _
    · rw [he]
  unfold Site.view
  dsimp only
  rw [hl, hc]
  cases t.restoring with
  | some snap =>
    have hreplace : s.server.replace snap = t.service.server.replace snap := by
      simp only [Server.replace, hs]
    dsimp only
    rw [hreplace]
    exact .refl _
  | none =>
    cases t.service.loop with
    | idle =>
      cases happ : t.service.applyCh with
      | nil => exact hv
      | cons d ds => exact hv.apply (ht.commands d (happ ▸ List.mem_cons_self)) (hrun d)
    | checked d => exact hrun d
    | executed d r => exact hv.noted d.env r

theorem Steady.done (hr : t.restoring = none) (hc : t.service.applyCh = [])
    (hu : t.service.reading = none) : t.Steady readers := by
  refine ⟨fun h => absurd hr h, fun _ => hc, ?_, ?_, ?_⟩
  · rw [hc]
    exact Nat.zero_le 1
  · rw [hc]
    intro d hd
    cases hd
  · rw [hu]
    intro p hp
    cases hp

theorem Steady.server (ht : t.Steady readers) (hl : s.loop = t.service.loop)
    (hc : s.applyCh = t.service.applyCh)
    (hr : ∀ p, s.reading = some p → p.1.clientID ∈ readers) :
    Steady readers { t with service := s } :=
  ⟨by rw [hl, hc]; exact ht.restoring, by rw [hl, hc]; exact ht.busy, by rw [hc]; exact ht.one,
    by rw [hc]; exact ht.commands, hr⟩

theorem advance_view (ht : t.Steady readers) (hr : t.restoring = none)
    (h : t.service.Advances s) :
    { t with service := s }.view = t.view ∧ Steady readers { t with service := s } := by
  obtain ⟨service, started, holders, restoring⟩ := t
  subst hr
  cases h with
  | @check d rest hl hu hc =>
    obtain rfl : rest = [] := by
      have := ht.one
      rw [hc, List.length_cons] at this
      exact List.length_eq_zero_iff.1 (by omega)
    dsimp only at hl hu hc
    have hview : Site.view ⟨service, started, holders, none⟩ =
        service.server.view.apply d.ambient d.env := by
      simp only [Site.view, hl, hc]
    rw [hview]
    unfold Service.check
    dsimp only
    cases hd : service.server.dedup d.env.clientID d.env.seq with
    | stale =>
      rw [Sequential.apply_old (Int.le_of_lt (Server.dedup_stale hd))]
      exact ⟨by simp only [Site.view, hl], .done rfl rfl hu⟩
    | duplicate r =>
      obtain ⟨heq, -⟩ := Server.dedup_eq_duplicate.1 hd
      rw [Sequential.apply_old (Int.le_of_eq heq)]
      refine ⟨?_, .done rfl rfl hu⟩
      simp only [Site.view, Service.answering, hl]
      exact Server.notify_tables.view Server.notify_store
    | fresh =>
      rw [Sequential.apply_new (Server.dedup_fresh hd)]
      exact ⟨rfl, .done rfl rfl hu⟩
  | @execute d hl =>
    dsimp only at hl
    have happ := ht.busy (by rw [hl]; intro h; cases h)
    refine ⟨?_, fun h => absurd rfl h, fun _ => happ, ht.one, ht.commands, ht.reading⟩
    simp only [Site.view, hl]
    rfl
  | @record d r hl hu =>
    dsimp only at hl hu
    have happ := ht.busy (by rw [hl]; intro h; cases h)
    refine ⟨?_, fun h => absurd rfl h, fun h => absurd rfl h, ht.one, ht.commands, ht.reading⟩
    have hstore : (service.server.record d.index d.env r).1.store =
        (service.server.remember d.env.clientID d.env.seq r).store := by
      rcases service.server.record_cases d.index d.env r with ⟨-, he⟩ | he
      · rw [he]
      · rw [he, Server.notify_store]
    dsimp only at happ
    simp only [Site.view, hl, Service.answering, happ]
    rw [Server.record_tables.view hstore, Server.remember_view]

/-- Whatever the server does on its own, it will be the same when `applyLoop` is done. -/
theorem work_view (h : t.work ev = some t') (ht : t.Steady readers) (hok : Reads readers ev) :
    t'.view.Same readers t.view ∧ t'.Steady readers := by
  have hserver {s : Service} (hl : s.loop = t.service.loop)
      (hc : s.applyCh = t.service.applyCh) (hs : s.server.store = t.service.server.store)
      (hv : s.server.view.Same readers t.service.server.view)
      (hr : ∀ p, s.reading = some p → p.1.clientID ∈ readers) :
      Sequential.Same readers { t with service := s }.view t.view ∧
        Steady readers { t with service := s } :=
    ⟨view_server ht hl hc hs hv, ht.server hl hc hr⟩
  cases ev with
  | start index sub =>
    cases h
    exact ⟨.refl _, ht.restoring, ht.busy, ht.one, ht.commands, ht.reading⟩
  | register index sub =>
    rw [Site.work] at h
    obtain ⟨-, h⟩ := Option.ite_none_right_eq_some.1 h
    obtain ⟨s, hs, rfl⟩ := Option.map_eq_some_iff.1 h
    have hstore : s.server.store = t.service.server.store := by
      rcases Service.step_store hs with he | ⟨d, hev, -⟩
      · exact he
      · cases hev
    cases Service.step_taken hs
    have hout := hserver (s := t.service.answering (t.service.server.submit index sub.env)) rfl rfl
      hstore (by rw [Service.answering, Server.submit_tables.view hstore]; exact .refl _) ht.reading
    exact ⟨hout.1, hout.2.restoring, hout.2.busy, hout.2.one, hout.2.commands, hout.2.reading⟩
  | serve ev =>
    rw [Site.work] at h
    obtain ⟨hserves, h⟩ := Option.ite_none_right_eq_some.1 h
    obtain ⟨s, hs, rfl⟩ := Option.map_eq_some_iff.1 h
    cases Service.step_taken hs with
    | loop hadv =>
      obtain ⟨hv, hst⟩ := advance_view ht hserves hadv
      rw [hv]
      exact ⟨.refl _, hst⟩
    | submit => cases hserves
    | giveUp | clearWaitCh | getOld | rangeOld => exact hserver rfl rfl rfl (.refl _) ht.reading
    | get hu =>
      refine hserver rfl rfl rfl (Server.remember_reader _ hok _ _) ?_
      intro p hp
      rw [hu] at hp
      cases hp
    | rangeRev =>
      refine hserver rfl rfl rfl (.refl _) ?_
      intro p hp
      cases hp
      exact hok
    | range hr =>
      have hreader := ht.reading _ hr
      refine hserver rfl rfl rfl (Server.remember_reader _ hreader _ _) ?_
      intro p hp
      cases hp
  | restore =>
    rw [Site.work] at h
    obtain ⟨hu, h⟩ := Option.ite_none_right_eq_some.1 h
    obtain ⟨snap, hsnap, rfl⟩ := Option.map_eq_some_iff.1 h
    obtain ⟨hl, hc⟩ := ht.restoring (by rw [hsnap]; exact Option.some_ne_none _)
    refine ⟨?_, fun h => absurd rfl h, ht.busy, ht.one, ht.commands, ht.reading⟩
    simp only [Site.view, Site.restore, hsnap, hl, hc]
    exact .refl _
  | deliver d => cases h
  | makeSnapshot order => cases h
  | install k => cases h

end

end Site

namespace Codec

variable (C : Codec)

/-- A server with a memory store as a state machine over Raft; there is none when `NewServer` has
panicked. A restart begins with an empty store, as with `storage_backend: memory` in
`newMVCCStore`; with `lindb` the database outlives the process. -/
def memoryReplica : Machine.Replica (Option Site) SiteInput Bytes Bytes where
  start data :=
    if data = [] then some (.launch (.new .new))
    else (C.decodeSnapshot data).map fun snap => .launch ((Server.new .new).restoreSnapshot snap)
  command
    | .deliver e, index, data, some t =>
      (C.decodeCommand data).map fun env => some (t.deliver ⟨index, env, e⟩)
    | _, _, _, _ => none
  snapshot
    | _, data, some t =>
      if t.Ready then (C.decodeSnapshot data).map fun snap => some (t.install snap) else none
    | _, _, none => none
  work
    | .event ev, some t => (t.work ev).map some
    | _, _ => none
  idle
    | some t => t.Idle
    | none => false
  save
    | .save order, some t =>
      if t.service.reading = none ∧ RangeOrder order t.service.server.store.leases.keys then
        C.encodeSnapshot (t.service.server.makeSnapshot order)
      else none
    | _, _ => none

def Asks (readers : Finset Int) : SiteInput → Option Site → Prop
  | .event ev, _ => Site.Reads readers ev
  | _, _ => True

instance Asks.decidable (readers : Finset Int) :
    (e : SiteInput) → (t : Option Site) → Decidable (Asks readers e t)
  | .event ev, _ => inferInstanceAs (Decidable (Site.Reads readers ev))
  | .deliver _, _ | .save _, _ => instDecidableTrue

/-- No command grants a lease or comes from a reader. -/
def Plain (readers : Finset Int) (cs : List Bytes) : Prop :=
  ∀ env ∈ cs.filterMap C.decodeCommand, env.clientID ∉ readers ∧ env.kind ≠ .leaseGrant

def replay (cs : List Bytes) : Sequential := .replay (cs.filterMap C.decodeCommand)

/-- The server will be what the commands make of a server, if none of them grants a lease. -/
def Means (readers : Finset Int) (t : Option Site) (cs : List Bytes) : Prop :=
  C.Plain readers cs → ∃ u, t = some u ∧ u.Steady readers ∧ u.view.Same readers (C.replay cs)

section

variable {C} {readers : Finset Int} {cs cs' : List Bytes}

theorem Plain.left (h : C.Plain readers (cs ++ cs')) : C.Plain readers cs := by
  intro env henv
  apply h
  rw [List.filterMap_append]
  exact List.mem_append_left _ henv

theorem Plain.grounded (h : C.Plain readers cs) : (C.replay cs).store.Grounded :=
  Sequential.replay_grounded fun env henv => (h env henv).2

theorem saved (h : C.memoryReplica.Holds (C.Means readers) cs data) (hp : C.Plain readers cs) :
    ∃ (s : Server) (order : List Int), s.view.Same readers (C.replay cs) ∧
      RangeOrder order s.store.leases.keys ∧
      C.decodeSnapshot data = some (s.makeSnapshot order) := by
  obtain ⟨e, t, hm, hidle, hsave⟩ := h
  obtain ⟨u, rfl, -, hv⟩ := hm hp
  have hi : u.Idle := of_decide_eq_true hidle
  rw [hi.view] at hv
  cases e with
  | save order =>
    obtain ⟨⟨-, ho⟩, henc⟩ := Option.ite_none_right_eq_some.1 hsave
    exact ⟨u.service.server, order, hv, ho, C.decode_encode henc⟩
  | deliver e => cases hsave
  | event ev => cases hsave

theorem replaced (cs cs' : List Bytes) {s t : Server}
    (hs : s.view.Same readers (C.replay (cs ++ cs')))
    (ht : t.store.SameState (C.replay cs).store) (hp : C.Plain readers (cs ++ cs'))
    (ho : RangeOrder order s.store.leases.keys) :
    (t.replace (s.makeSnapshot order)).view.Same readers (C.replay (cs ++ cs')) := by
  have hle : t.store.backend.currentRev ≤ s.store.backend.currentRev := by
    have hs' : s.store.backend = (C.replay (cs ++ cs')).store.backend := hs.store.backend
    rw [ht.backend, hs', Codec.replay, Codec.replay, List.filterMap_append]
    apply Sequential.replay_currentRev_le
    rw [← List.filterMap_append]
    exact fun env henv => (hp env henv).2
  exact (Server.replace_view (hp.grounded.congr hs.store) (hp.left.grounded.congr ht) hle ho).trans
    hs

theorem launch_steady (server : Server) : (Site.launch server).Steady readers :=
  .done rfl rfl rfl

theorem restore_empty :
    (Server.new .new).restoreSnapshot ⟨⟨0, 0, [], [], [], ∅, 0⟩, ∅, ∅⟩ = .new .new := by
  rfl

theorem memoryReplica_start (hd : C.decodeSnapshot data = some snap) : C.memoryReplica.start data =
    some (.launch ((Server.new .new).restoreSnapshot snap)) := by
  by_cases hnil : data = []
  · subst hnil
    rw [C.decode_nil] at hd
    cases hd
    rw [restore_empty]
    rfl
  · change (if data = [] then _ else _) = _
    rw [if_neg hnil, hd]
    rfl

end

/-- A server follows the commands of the log, over restarts and installed snapshots. -/
theorem faithful (readers : Finset Int) :
    C.memoryReplica.Faithful (C.Means readers) (Asks readers) where
  start_default := fun _ => ⟨_, rfl, launch_steady _, .refl _⟩
  start := by
    intro cs data hheld hp
    obtain ⟨s, order, hs, ho, hd⟩ := saved hheld hp
    refine ⟨_, memoryReplica_start hd, launch_steady _, ?_⟩
    exact replaced [] cs (t := (Server.new .new).clearWaitCh.1) hs (.refl _) hp ho
  command := by
    intro t cs e index data t' hm hidle hcmd hp
    obtain ⟨u, rfl, hu, hv⟩ := hm hp.left
    have hi : u.Idle := of_decide_eq_true hidle
    rw [hi.view] at hv
    obtain ⟨hr, hl, hc⟩ := hi
    cases e with
    | deliver e =>
      obtain ⟨env, henv, rfl⟩ := Option.map_eq_some_iff.1 hcmd
      have hcs : (cs ++ [data]).filterMap C.decodeCommand =
          cs.filterMap C.decodeCommand ++ [env] := by
        rw [List.filterMap_append, List.filterMap_cons_some henv, List.filterMap_nil]
      obtain ⟨hk, hg⟩ := hp env (by rw [hcs]; exact List.mem_append_right _ (.head _))
      refine ⟨_, rfl, ⟨fun h => absurd hr h, fun h => absurd hl h, ?_, ?_, hu.reading⟩, ?_⟩
      · rw [Site.deliver, hc]
        exact Nat.le_refl 1
      · rw [Site.deliver, hc]
        intro d hd
        cases List.mem_singleton.1 hd
        exact hk
      · have happ := hv.store.applyCommand hp.left.grounded e ⟨0, []⟩ hg
        simp only [Site.view, Site.deliver, hr, hl, hc, List.nil_append]
        rw [Codec.replay, hcs, Sequential.replay, List.foldl_append]
        exact hv.apply hk (hv.run happ.1 happ.2)
    | save order => cases hcmd
    | event ev => cases hcmd
  snapshot := by
    intro t cs cs' data e t' hm hidle hheld hsnap hp
    obtain ⟨u, rfl, hu, hv⟩ := hm hp.left
    have hi : u.Idle := of_decide_eq_true hidle
    rw [hi.view] at hv
    obtain ⟨s, order, hs, ho, hd⟩ := saved hheld hp
    obtain ⟨hready, hsnap⟩ := Option.ite_none_right_eq_some.1 hsnap
    rw [hd] at hsnap
    cases hsnap
    refine ⟨_, rfl, ⟨fun _ => hi.2, fun h => absurd hi.2.1 h, hu.one, hu.commands, hu.reading⟩, ?_⟩
    exact replaced cs cs' (t := u.service.server.clearWaitCh.1) hs hv.store hp ho
  work := by
    intro t cs e t' hm hok hwork hp
    obtain ⟨u, rfl, hu, hv⟩ := hm hp
    cases e with
    | event ev =>
      obtain ⟨u', hu', rfl⟩ := Option.map_eq_some_iff.1 hwork
      obtain ⟨hsame, hst⟩ := Site.work_view hu' hu hok
      exact ⟨u', rfl, hst, hsame.trans hv⟩
    | deliver e => cases hwork
    | save order => cases hwork

end Codec

deriving instance DecidableEq for KeyEntry, SnapshotMessage, ServerSnapshotMessage

end LinKV

import LinKV.Consensus.Transition
import LinKV.Watch.Hub

namespace LinKV
set_option autoImplicit true

structure ApiEvent where
  type : OpType
  key : Bytes
  value : Bytes
  rev : Int
deriving DecidableEq, Repr

/-- `convert` of the server, for one event. -/
def convertEvent (ev : MvccEvent) : ApiEvent where
  type := match ev.type with
    | .delete => .delete
    | .put => .put
  key := ev.key
  value := ev.value
  rev := ev.rev.main

structure PbEvent where
  key : Bytes
  value : Bytes
  type : String
  revision : Int
deriving DecidableEq, Repr

def toPBEvent (ev : ApiEvent) : PbEvent where
  key := ev.key
  value := ev.value
  type := if ev.type = .delete then "DELETE" else "PUT"
  revision := ev.rev

def fromPBEvent (event : PbEvent) : ApiEvent where
  type := if event.type = "DELETE" then .delete else .put
  key := event.key
  value := event.value
  rev := event.revision

def fromPBEvents (events : List (Option PbEvent)) : List ApiEvent :=
  events.filterMap fun event => event.map fromPBEvent

structure PbWatchResponse where
  events : List (Option PbEvent)
  revision : Int
  err : String
deriving DecidableEq, Repr

structure WatchResponse where
  events : List ApiEvent
  revision : Int
  err : String
deriving DecidableEq, Repr

def fillWatchResponseFromPB (src : PbWatchResponse) : WatchResponse where
  events := fromPBEvents src.events
  revision := src.revision
  err := src.err

/-- What `RPCAdapter.Watch` sends for an event. -/
def watchResponse (ev : ApiEvent) : PbWatchResponse := ⟨[some (toPBEvent ev)], ev.rev, ""⟩

structure WatchRequest where
  key : Bytes
  isPrefix : Bool
  revision : Int
deriving DecidableEq, Repr

/-- A stream of a server: its request, and how many events it has sent. -/
structure ServerStream where
  req : WatchRequest
  sent : Nat
deriving DecidableEq, Repr

/-- The events a server has for a request are those with its revision or a later one. -/
def ServerStream.events (s : ServerStream) (history : List MvccEvent) : List MvccEvent :=
  backlogOf history s.req.key s.req.revision s.req.isPrefix

/-- Where the goroutine of `watchStream` is: at the top of its loop, or with a stream open and the
events of the last response that it has still to send. -/
inductive WatchPhase where
  | opening
  | streaming (s : ServerStream) (todo : List ApiEvent)
  | closed
deriving DecidableEq, Repr

/-- The goroutine of `watchStream`; `ch` is what it has sent on its channel. -/
structure WatchStream where
  rev : Int
  phase : WatchPhase
  ch : List ApiEvent
deriving DecidableEq, Repr

/-- What happens to a watch. A context that is done and a revision that has been compacted both
stop it. -/
inductive WatchAction where
  | opened
  | refused
  | event
  | errorResponse (resp : PbWatchResponse)
  | recvFailed
  | send
  | stop
deriving DecidableEq, Repr

namespace WatchStream

def start (startRev : Int) : WatchStream where
  rev := if startRev ≤ 0 then 1 else startRev
  phase := .opening
  ch := []

def advance (rev r : Int) : Int := if rev ≤ r then r + 1 else rev

/-- What follows a `Recv` that brings a response. -/
def handle (w : WatchStream) (s : ServerStream) (resp : WatchResponse) : WatchStream :=
  if resp.err ≠ "" then { w with phase := .opening }
  else { w with rev := advance w.rev resp.revision, phase := .streaming s resp.events }

/-- A turn of the loop over the events of a response. -/
def sendEvent (w : WatchStream) (s : ServerStream) (ev : ApiEvent) (todo : List ApiEvent) :
    WatchStream where
  rev := advance w.rev ev.rev
  phase := .streaming s todo
  ch := w.ch ++ [ev]

/-- A step of a watch. The `history` is all events that there will have been; a stream may wait
with the next one. -/
def step (history : List MvccEvent) (key : Bytes) (isPrefix : Bool) (w : WatchStream)
    (a : WatchAction) : Option WatchStream :=
  match w.phase, a with
  | .opening, .opened => some { w with phase := .streaming ⟨⟨key, isPrefix, w.rev⟩, 0⟩ [] }
  | .opening, .refused => some w
  | .streaming s [], .event => (s.events history)[s.sent]?.map fun ev =>
    w.handle { s with sent := s.sent + 1 }
      (fillWatchResponseFromPB (watchResponse (convertEvent ev)))
  | .streaming s [], .errorResponse resp =>
    if resp.err = "" then none else some (w.handle s (fillWatchResponseFromPB resp))
  | .streaming _ [], .recvFailed => some { w with phase := .opening }
  | .streaming s (ev :: todo), .send => some (w.sendEvent s ev todo)
  | .closed, _ => none
  | _, .stop => some { w with phase := .closed }
  | _, _ => none

inductive Moves (history : List MvccEvent) (key : Bytes) (isPrefix : Bool) (w : WatchStream) :
    WatchStream → Prop
  | opened : w.phase = .opening → Moves history key isPrefix w
      { w with phase := .streaming ⟨⟨key, isPrefix, w.rev⟩, 0⟩ [] }
  | refused : Moves history key isPrefix w w
  | event : w.phase = .streaming s [] → (s.events history)[s.sent]? = some ev →
      Moves history key isPrefix w { w with
        rev := advance w.rev ev.rev.main
        phase := .streaming { s with sent := s.sent + 1 } [convertEvent ev] }
  | lost : w.phase = .streaming s [] → Moves history key isPrefix w { w with phase := .opening }
  | send : w.phase = .streaming s (ev :: todo) →
      Moves history key isPrefix w (w.sendEvent s ev todo)
  | stop : Moves history key isPrefix w { w with phase := .closed }

section

variable {history : List MvccEvent} {key : Bytes} {isPrefix : Bool} {w w' : WatchStream}

theorem fromPBEvent_toPBEvent (ev : MvccEvent) :
    fromPBEvent (toPBEvent (convertEvent ev)) = convertEvent ev := by
  cases h : ev.type with
  | put | delete =>
    unfold fromPBEvent toPBEvent convertEvent
    rw [h]
    rfl

theorem step_moves (h : step history key isPrefix w a = some w') :
    Moves history key isPrefix w w' := by
  unfold step at h
  split at h
  · cases h
    exact .opened ‹_›
  · cases h
    exact .refused
  · rename_i s hphase
    obtain ⟨ev, hev, rfl⟩ := Option.map_eq_some_iff.1 h
    have hresp : fillWatchResponseFromPB (watchResponse (convertEvent ev)) =
        ⟨[convertEvent ev], ev.rev.main, ""⟩ := by
      change (⟨[fromPBEvent (toPBEvent (convertEvent ev))], _, _⟩ : WatchResponse) = _
      rw [fromPBEvent_toPBEvent]
      rfl
    rw [hresp]
    exact .event hphase hev
  · rename_i s resp hphase
    obtain ⟨herr, h⟩ := Option.ite_none_left_eq_some.1 h
    cases h
    have herr : (fillWatchResponseFromPB resp).err ≠ "" := herr
    rw [handle, if_pos herr]
    exact .lost hphase
  · cases h
    exact .lost ‹_›
  · cases h
    exact .send ‹_›
  · cases h
  · cases h
    exact .stop
  · cases h

end

/-- The goroutine has taken `k` of the events `all`: it resumes after them, and what it has sent
and has still to send is these events. A stream goes on with the next one. -/
structure Took (history all : List MvccEvent) (w : WatchStream) (k : Nat) : Prop where
  before : ∀ ev ∈ all.take k, ev.rev.main < w.rev
  after : ∀ ev ∈ all.drop k, w.rev ≤ ev.rev.main
  opening : w.phase = .opening → w.ch = (all.take k).map convertEvent
  streaming : ∀ s todo, w.phase = .streaming s todo →
    w.ch ++ todo = (all.take k).map convertEvent ∧
    ∃ j, s.events history = all.drop j ∧ j + s.sent = k

/-- What holds of a watch of the events `all`, which has asked for `fromRev` first. -/
structure Resumes (history all : List MvccEvent) (fromRev : Int) (w : WatchStream) : Prop where
  sent : w.ch <+: all.map convertEvent
  least : fromRev ≤ w.rev
  took : w.phase = .closed ∨ ∃ k, w.Took history all k

section

variable {history all : List MvccEvent} {key : Bytes} {isPrefix : Bool} {w w' : WatchStream}

theorem filter_eq_drop {p : α → Bool} {l : List α} (hbefore : ∀ x ∈ l.take k, p x = false)
    (hafter : ∀ x ∈ l.drop k, p x = true) : l.filter p = l.drop k := by
  have hnil : (l.take k).filter p = [] := List.filter_eq_nil_iff.2 fun x hx => by
    rw [hbefore x hx]
    exact Bool.false_ne_true
  conv => lhs; rw [← List.take_append_drop k l]
  rw [List.filter_append, hnil, List.nil_append, List.filter_eq_self.2 hafter]

theorem backlogOf_of_le {r r' : Int} (h : r ≤ r') : backlogOf history key r' isPrefix =
    (backlogOf history key r isPrefix).filter fun ev => r' ≤ ev.rev.main := by
  unfold backlogOf
  rw [List.filter_filter]
  apply List.filter_congr
  intro ev _
  by_cases hrev : r' ≤ ev.rev.main
  · have hfrom : r ≤ ev.rev.main := Int.le_trans h hrev
    simp only [hrev, hfrom, decide_true, Bool.and_true, Bool.true_and]
  · simp only [hrev, decide_false, Bool.and_false, Bool.false_and]

theorem Took.backlog (h : w.Took history (backlogOf history key r isPrefix) k) (hle : r ≤ w.rev) :
    backlogOf history key w.rev isPrefix = (backlogOf history key r isPrefix).drop k := by
  rw [backlogOf_of_le hle]
  apply filter_eq_drop
  · intro ev hev
    exact decide_eq_false (Int.not_le.2 (h.before ev hev))
  · intro ev hev
    exact decide_eq_true (h.after ev hev)

theorem le_advance (r r' : Int) : r ≤ advance r r' := by
  unfold advance
  split
  · omega
  · exact Int.le_refl r

theorem Took.next (h : w.Took history all k) (hphase : w.phase = .streaming s [])
    (hev : (s.events history)[s.sent]? = some ev) : all[k]? = some ev := by
  obtain ⟨-, j, hj, hk⟩ := h.streaming s [] hphase
  rw [hj, List.getElem?_drop, hk] at hev
  exact hev

theorem Took.event (hinc : all.Pairwise fun a b => a.rev.main < b.rev.main)
    (h : w.Took history all k) (hphase : w.phase = .streaming s [])
    (hev : (s.events history)[s.sent]? = some ev) :
    Took history all { w with
      rev := advance w.rev ev.rev.main
      phase := .streaming { s with sent := s.sent + 1 } [convertEvent ev] } (k + 1) := by
  have hnext := h.next hphase hev
  obtain ⟨hch, j, hj, hk⟩ := h.streaming s [] hphase
  have htake : all.take (k + 1) = all.take k ++ [ev] := by
    rw [List.take_add_one, hnext]
    rfl
  have hdrop : all.drop k = ev :: all.drop (k + 1) := by
    obtain ⟨hlt, hget⟩ := List.getElem?_eq_some_iff.1 hnext
    rw [List.drop_eq_getElem_cons hlt, hget]
  have hrev : w.rev ≤ ev.rev.main := h.after ev (hdrop ▸ List.mem_cons_self)
  have hadv : advance w.rev ev.rev.main = ev.rev.main + 1 := if_pos hrev
  refine ⟨?_, ?_, ?_, ?_⟩
  · intro x hx
    rw [htake, List.mem_append, List.mem_singleton] at hx
    change x.rev.main < advance w.rev ev.rev.main
    rw [hadv]
    obtain hx | rfl := hx
    · exact Int.lt_trans (h.before x hx) (Int.lt_add_one_of_le hrev)
    · exact Int.lt_succ _
  · intro x hx
    change advance w.rev ev.rev.main ≤ x.rev.main
    rw [hadv]
    have htail := hinc.sublist (List.drop_sublist k all)
    rw [hdrop, List.pairwise_cons] at htail
    exact htail.1 x hx
  · intro hopening
    cases hopening
  · intro s' todo hs
    cases hs
    rw [List.append_nil] at hch
    refine ⟨?_, j, hj, by rw [← hk, Nat.add_assoc]⟩
    rw [hch, htake, List.map_append]
    rfl

theorem Took.send (h : w.Took history all k) (hphase : w.phase = .streaming s (ev :: todo)) :
    (w.sendEvent s ev todo).Took history all k ∧
      (w.sendEvent s ev todo).ch <+: all.map convertEvent := by
  obtain ⟨hch, hs⟩ := h.streaming s (ev :: todo) hphase
  have hmem : ev ∈ (all.take k).map convertEvent := by
    rw [← hch]
    exact List.mem_append_right _ List.mem_cons_self
  obtain ⟨x, hx, rfl⟩ := List.mem_map.1 hmem
  have hadv : advance w.rev (convertEvent x).rev = w.rev :=
    if_neg (Int.not_le.2 (h.before x hx))
  have hsent : w.ch ++ [convertEvent x] ++ todo = (all.take k).map convertEvent := by
    rw [List.append_assoc]
    exact hch
  rw [sendEvent, hadv]
  refine ⟨⟨h.before, h.after, ?_, ?_⟩, ?_⟩
  · intro hopening
    cases hopening
  · intro s' todo' hs'
    cases hs'
    exact ⟨hsent, hs⟩
  · exact .trans ⟨todo, hsent⟩ ((List.take_prefix k all).map convertEvent)

theorem Resumes.running (hi : w.Resumes history all r) (hphase : w.phase = p)
    (hp : p ≠ .closed) : ∃ k, w.Took history all k := by
  apply hi.took.resolve_left
  intro hclosed
  exact hp (hphase.symm.trans hclosed)

theorem Resumes.moves (hinc : history.Pairwise fun a b => a.rev.main < b.rev.main)
    (hi : w.Resumes history (backlogOf history key r isPrefix) r)
    (h : Moves history key isPrefix w w') :
    w'.Resumes history (backlogOf history key r isPrefix) r := by
  cases h with
  | opened hphase =>
    obtain ⟨k, hk⟩ := hi.running hphase WatchPhase.noConfusion
    refine ⟨hi.sent, hi.least, .inr ⟨k, hk.before, hk.after, WatchPhase.noConfusion, ?_⟩⟩
    intro s todo hs
    cases hs
    rw [List.append_nil]
    exact ⟨hk.opening hphase, k, hk.backlog hi.least, Nat.add_zero k⟩
  | refused => exact hi
  | event hphase hev =>
    obtain ⟨k, hk⟩ := hi.running hphase WatchPhase.noConfusion
    exact ⟨hi.sent, Int.le_trans hi.least (le_advance _ _),
      .inr ⟨k + 1, hk.event (hinc.filter _) hphase hev⟩⟩
  | lost hphase =>
    obtain ⟨k, hk⟩ := hi.running hphase WatchPhase.noConfusion
    refine ⟨hi.sent, hi.least, .inr ⟨k, hk.before, hk.after, ?_, ?_⟩⟩
    · intro _
      obtain ⟨hch, -⟩ := hk.streaming _ _ hphase
      rwa [List.append_nil] at hch
    · intro s todo hs
      cases hs
  | send hphase =>
    obtain ⟨k, hk⟩ := hi.running hphase WatchPhase.noConfusion
    obtain ⟨htook, hsent⟩ := hk.send hphase
    exact ⟨hsent, Int.le_trans hi.least (le_advance _ _), .inr ⟨k, htook⟩⟩
  | stop => exact ⟨hi.sent, hi.least, .inl rfl⟩

theorem resumes_start (startRev : Int) : (start startRev).Resumes history
    (backlogOf history key (max startRev 1) isPrefix) (max startRev 1) := by
  have hrev : (start startRev).rev = max startRev 1 := by
    unfold start
    dsimp only
    split <;> omega
  refine ⟨List.nil_prefix, Int.le_of_eq hrev.symm, .inr ⟨0, ?_, ?_, fun _ => rfl, ?_⟩⟩
  · intro ev hev
    cases hev
  · intro ev hev
    rw [hrev]
    exact of_decide_eq_true (Bool.and_eq_true_iff.1 (List.mem_filter.1 hev).2).2
  · intro s todo hs
    cases hs

end

end WatchStream

/-- Whatever becomes of its streams, a watch has sent the first of the matching events from its
first revision on, in their order and each once. -/
theorem watch_resumes {history : List MvccEvent} {key : Bytes} {isPrefix : Bool} {startRev : Int}
    {w : WatchStream} (hinc : history.Pairwise fun a b => a.rev.main < b.rev.main)
    (h : Consensus.ReachableBy (WatchStream.step history key isPrefix) (fun _ _ => True)
      (.start startRev) w) :
    w.ch <+: (backlogOf history key (max startRev 1) isPrefix).map convertEvent ∧
    w.ch.Pairwise fun a b => a.rev < b.rev := by
  have hi : w.Resumes history (backlogOf history key (max startRev 1) isPrefix)
      (max startRev 1) := by
    induction h with
    | init => exact WatchStream.resumes_start startRev
    | step _ _ hs ih => exact ih.moves hinc (WatchStream.step_moves hs)
  refine ⟨hi.sent, List.Pairwise.sublist hi.sent.sublist ?_⟩
  rw [List.pairwise_map]
  exact hinc.filter _

/-- A watch of one key whose first stream fails after an event, whose next one answers with an
error, and which is stopped before it sends its third event. -/
theorem watch_resumes_failing :
    let history := eventsOf [([1], some [5]), ([2], some [6]), ([1], none), ([1], some [7])]
    ∃ w, Consensus.ReachableBy (WatchStream.step history [1] false) (fun _ _ => True)
      (.start 0) w ∧ w.ch = [⟨.put, [1], [5], 1⟩, ⟨.delete, [1], [], 3⟩] ∧
      w.ch <+: (backlogOf history [1] (max 0 1) false).map convertEvent := by
  intro history
  have hrun : Consensus.RunsTo (WatchStream.step history [1] false) (fun _ _ => True)
      (fun w => w.ch = [⟨.put, [1], [5], 1⟩, ⟨.delete, [1], [], 3⟩]) (.start 0)
      [.refused, .opened, .event, .send, .recvFailed, .opened, .errorResponse ⟨[], 9, "down"⟩,
        .opened, .event, .send, .event, .stop] := by
    decide +kernel
  obtain ⟨w, hw, hch⟩ := hrun.reachable
  exact ⟨w, hw, hch, (watch_resumes (eventsOf_pairwise _) hw).1⟩

end LinKV

import LinKV.Server.Reads

namespace LinKV
set_option autoImplicit true

theorem GoMap.lookup_of_erase [DecidableEq K] {m : GoMap K V} {k j : K} {v : V}
    (h : (m.erase k).lookup j = some v) : m.lookup j = some v := by
  rcases eq_or_ne j k with rfl | hj
  · rw [Finmap.lookup_erase] at h
    cases h
  · rwa [Finmap.lookup_erase_ne hj] at h

def Result.Of (r : Result) (env : Command) : Prop :=
  r.clientID = env.clientID ∧ r.seq = env.seq ∧ r.kind = env.kind

instance (r : Result) (env : Command) : Decidable (r.Of env) :=
  inferInstanceAs (Decidable (_ ∧ _ ∧ _))

def SubmitAnswer.result? : SubmitAnswer → Option (Int × Result)
  | .result index r => some (index, r)
  | .notLeader _ => none

namespace Server

variable {s : Server}

theorem dedup_eq_duplicate :
    s.dedup k seq = .duplicate r ↔ seq = s.lastSeq k ∧ r = s.cached k := by
  unfold Server.dedup
  constructor
  · intro h
    split at h
    · cases h
    · split at h
      · next hseq => exact ⟨hseq, (Verdict.duplicate.inj h).symm⟩
      · cases h
  · rintro ⟨rfl, rfl⟩
    rw [if_neg (lt_irrefl _), if_pos rfl]

theorem notify_store : (s.notify index env r).1.store = s.store := by
  unfold Server.notify
  split <;> rfl

theorem notify_lastResult : (s.notify index env r).1.lastResult = s.lastResult := by
  unfold Server.notify
  split <;> rfl

theorem notify_waitCh (h : (s.notify i env r).1.waitCh.lookup index = some ch) :
    s.waitCh.lookup index = some ch := by
  unfold Server.notify at h
  split at h
  · exact h
  · exact GoMap.lookup_of_erase h

theorem mem_notify (h : (index, r') ∈ (s.notify i env r).2.filterMap SubmitAnswer.result?) :
    index = i ∧ r' = r ∧ ∃ ch, s.waitCh.lookup i = some ch ∧ ch.matches env = true := by
  unfold Server.notify at h
  cases hw : s.waitCh.lookup i with
  | none =>
    rw [hw] at h
    cases h
  | some ch =>
    rw [hw] at h
    dsimp only at h
    split at h
    · next hm =>
      cases List.mem_singleton.1 h
      exact ⟨rfl, rfl, ch, rfl, hm⟩
    · cases h

theorem record_cases (s : Server) (index : Int) (env : Command) (r : Result) :
    s.waitCh.lookup index = none ∧ s.record index env r =
      ({ s.remember env.clientID env.seq r with lastResult := s.lastResult.insert index r }, []) ∨
    s.record index env r = (s.remember env.clientID env.seq r).notify index env r := by
  unfold Server.record
  cases hw : s.waitCh.lookup index with
  | none => exact .inl ⟨rfl, by simp only [Server.remember, hw]⟩
  | some ch => exact .inr (by simp only [Server.remember, hw])

/-- The comparison in `submit` is one of the call with itself. -/
theorem submit_cases (s : Server) (index : Int) (env : Command) :
    (∃ r, s.lastResult.lookup index = some r ∧ s.submit index env =
      ({ s with lastResult := s.lastResult.erase index }, [.result index r])) ∨
    s.submit index env =
      ({ s with waitCh := s.waitCh.insert index ⟨env.clientID, env.seq, env.kind⟩ }, []) := by
  unfold Server.submit
  cases hr : s.lastResult.lookup index with
  | none => exact .inr rfl
  | some r => exact .inl ⟨r, rfl, by simp only [WaitEntry.matches, and_self, decide_true, if_true]⟩

end Server

namespace Service

inductive Taken (s : Service) : ServerEvent → Service → Prop
  | loop : s.Advances s' → Taken s .loop s'
  | submit : Taken s (.submit index env) (s.answering (s.server.submit index env))
  | giveUp : Taken s (.giveUp index) { s with server := s.server.giveUp index }
  | clearWaitCh : Taken s .clearWaitCh (s.answering s.server.clearWaitCh)
  | getOld : Taken s (.get req) s
  | get : s.reading = none → s.server.lastSeq req.clientID < req.seq →
      Taken s (.get req) { s with server := s.server.remember req.clientID req.seq r }
  | rangeOld : Taken s (.rangeRev req) s
  | rangeRev : s.server.lastSeq req.clientID < req.seq →
      Taken s (.rangeRev req) { s with reading := some (req, readRev) }
  | range : s.reading = some (req, readRev) →
      Taken s .range { s with
        server := s.server.remember req.clientID req.seq r
        reading := none }

variable {s s' : Service}

theorem step_taken (h : s.step ev = some s') : s.Taken ev s' := by
  cases ev with
  | loop => exact .loop (advance_eq_some.1 h)
  | submit index env =>
    obtain ⟨-, h⟩ := withLock_eq_some.1 h
    cases h
    exact .submit
  | giveUp index =>
    obtain ⟨-, h⟩ := withLock_eq_some.1 h
    cases h
    exact .giveUp
  | clearWaitCh =>
    obtain ⟨-, h⟩ := withLock_eq_some.1 h
    cases h
    exact .clearWaitCh
  | get req =>
    obtain ⟨hu, h⟩ := withLock_eq_some.1 h
    obtain ⟨out, hout, rfl⟩ := Option.map_eq_some_iff.1 h
    rcases Server.get_eq hout with he | ⟨hlt, r, he⟩
    · rw [he]
      exact .getOld
    · rw [he]
      exact .get hu hlt
  | rangeRev req =>
    obtain ⟨-, h⟩ := withLock_eq_some.1 h
    unfold Server.rangeRev at h
    cases hd : s.server.dedup req.clientID req.seq with
    | stale | duplicate =>
      rw [hd] at h
      cases h
      exact .rangeOld
    | fresh =>
      rw [hd] at h
      cases h
      exact .rangeRev (Server.dedup_fresh hd)
  | range =>
    obtain ⟨⟨req, readRev⟩, hr, rfl⟩ := Option.map_eq_some_iff.1 h
    exact .range hr

/-- The dedup section of `applyLoop` skips the command, or finds it new. -/
theorem check_cases (s : Service) (d : Delivery) :
    s.check d = s ∨
    (∃ r, s.server.dedup d.env.clientID d.env.seq = .duplicate r ∧
      s.check d = s.answering (s.server.notify d.index d.env r)) ∨
    s.server.lastSeq d.env.clientID < d.env.seq ∧ s.check d = { s with loop := .checked d } := by
  unfold Service.check
  cases hd : s.server.dedup d.env.clientID d.env.seq with
  | stale => exact .inl rfl
  | duplicate r => exact .inr (.inl ⟨r, rfl, rfl⟩)
  | fresh => exact .inr (.inr ⟨Server.dedup_fresh hd, rfl⟩)

/-- What a step does to the dedup tables, to the commands executed, to where `applyLoop` stands
and to the mutex. -/
inductive Effect (s s' : Service) : ServerEvent → Prop
  | quiet : s'.server.SameTables s.server → s'.executed = s.executed → s'.loop = s.loop →
      s'.reading = s.reading → Effect s s' ev
  | check : s.loop = .idle → d ∈ s.applyCh → s'.loop = .checked d →
      s.server.lastSeq d.env.clientID < d.env.seq →
      s'.server.SameTables s.server → s'.executed = s.executed → s'.reading = s.reading →
      Effect s s' .loop
  | execute : s.loop = .checked d → s'.loop = .executed d r → r.Of d.env →
      s'.executed = s.executed ++ [(d, r)] → s'.server.SameTables s.server →
      s'.reading = s.reading → Effect s s' .loop
  | record : s.loop = .executed d r → s'.loop = .idle →
      s'.server.SameTables (s.server.remember d.env.clientID d.env.seq r) →
      s'.executed = s.executed → s'.reading = none → Effect s s' .loop
  | get : s.server.lastSeq req.clientID < req.seq →
      s'.server.SameTables (s.server.remember req.clientID req.seq r) →
      s'.executed = s.executed → s'.loop = s.loop → s'.reading = none → Effect s s' (.get req)
  | lock : s.server.lastSeq req.clientID < req.seq → s'.reading = some (req, readRev) →
      s'.server.SameTables s.server → s'.executed = s.executed → s'.loop = s.loop →
      Effect s s' (.rangeRev req)
  | range : s.reading = some (req, readRev) →
      s'.server.SameTables (s.server.remember req.clientID req.seq r) →
      s'.executed = s.executed → s'.loop = s.loop → s'.reading = none → Effect s s' .range

theorem step_effect (h : s.step ev = some s') : Effect s s' ev := by
  cases step_taken h with
  | loop h =>
    cases h with
    | @check d rest hl hu hc =>
      have hd : d ∈ s.applyCh := hc ▸ List.mem_cons_self
      rcases check_cases { s with applyCh := rest } d with he | ⟨r, -, he⟩ | ⟨hlt, he⟩
      all_goals rw [he]
      · exact .quiet ⟨rfl, rfl⟩ rfl rfl rfl
      · exact .quiet Server.notify_tables rfl rfl rfl
      · exact .check hl hd rfl hlt ⟨rfl, rfl⟩ rfl rfl
    | execute hl => exact .execute hl rfl ⟨rfl, rfl, rfl⟩ rfl ⟨rfl, rfl⟩ rfl
    | record hl hu => exact .record hl rfl Server.record_tables rfl hu
  | submit => exact .quiet Server.submit_tables rfl rfl rfl
  | giveUp | clearWaitCh | getOld | rangeOld => exact .quiet ⟨rfl, rfl⟩ rfl rfl rfl
  | get hu hlt => exact .get hlt ⟨rfl, rfl⟩ rfl rfl hu
  | rangeRev hlt => exact .lock hlt rfl ⟨rfl, rfl⟩ rfl rfl
  | range hr => exact .range hr ⟨rfl, rfl⟩ rfl rfl rfl

theorem step_executed (h : s.step ev = some s') : s.executed ⊆ s'.executed := by
  cases step_effect h with
  | execute _ _ _ hx =>
    rw [hx]
    exact List.subset_append_left _ _
  | quiet _ hx | check _ _ _ _ _ hx | record _ _ _ hx | get _ _ hx | lock _ _ _ hx | range _ _ hx =>
    rw [hx]
    exact List.Subset.refl _

/-- The store changes only when `applyLoop` executes a command. -/
theorem step_store (h : s.step ev = some s') :
    s'.server.store = s.server.store ∨ ∃ d, ev = .loop ∧ s.loop = .checked d ∧
      s'.server.store = (s.server.store.applyCommand d.ambient d.env).1 := by
  cases step_taken h with
  | loop h =>
    cases h with
    | @check d rest hl hu hc =>
      rcases check_cases { s with applyCh := rest } d with he | ⟨r, -, he⟩ | ⟨-, he⟩
      all_goals rw [he]
      · exact .inl rfl
      · exact .inl Server.notify_store
      · exact .inl rfl
    | @execute d hl => exact .inr ⟨d, rfl, hl, rfl⟩
    | @record d r hl hu =>
      rcases s.server.record_cases d.index d.env r with ⟨-, he⟩ | he
      all_goals rw [he]
      · exact .inl rfl
      · exact .inl Server.notify_store
  | @submit index env =>
    rcases s.server.submit_cases index env with ⟨r, -, he⟩ | he
    all_goals rw [he]
    all_goals exact .inl rfl
  | giveUp | clearWaitCh | getOld | rangeOld | get | rangeRev | range => exact .inl rfl

theorem step_applyCh (h : s.step ev = some s') : s'.applyCh ⊆ s.applyCh := by
  cases step_taken h with
  | loop h =>
    cases h with
    | @check d rest hl hu hc =>
      rw [hc]
      rcases check_cases { s with applyCh := rest } d with he | ⟨r, -, he⟩ | ⟨-, he⟩
      all_goals
        rw [he]
        exact List.subset_cons_self d rest
    | execute | record => exact List.Subset.refl _
  | submit | giveUp | clearWaitCh | getOld | rangeOld | get | rangeRev | range =>
    exact List.Subset.refl _

theorem submit_waitCh (h : s.step (.submit index env) = some s') :
    (∃ r, s.server.lastResult.lookup index = some r ∧ s'.server.waitCh = s.server.waitCh ∧
      s'.answers = s.answers ++ [.result index r]) ∨
    s'.server.waitCh = s.server.waitCh.insert index ⟨env.clientID, env.seq, env.kind⟩ ∧
      s'.answers = s.answers := by
  cases step_taken h
  rcases s.server.submit_cases index env with ⟨r, hr, he⟩ | he
  all_goals rw [he]
  · exact .inl ⟨r, hr, rfl, rfl⟩
  · exact .inr ⟨rfl, List.append_nil _⟩

theorem step_waitCh (h : s.step ev = some s') (hev : ∀ index env, ev ≠ .submit index env)
    (hw : s'.server.waitCh.lookup index = some ch) : s.server.waitCh.lookup index = some ch := by
  cases step_taken h with
  | loop h =>
    cases h with
    | @check d rest hl hu hc =>
      rcases check_cases { s with applyCh := rest } d with he | ⟨r, -, he⟩ | ⟨-, he⟩
      all_goals rw [he] at hw
      · exact hw
      · exact Server.notify_waitCh hw
      · exact hw
    | execute => exact hw
    | @record d r hl hu =>
      rcases s.server.record_cases d.index d.env r with ⟨-, he⟩ | he
      all_goals rw [he] at hw
      · exact hw
      · exact Server.notify_waitCh (s := s.server.remember d.env.clientID d.env.seq r) hw
  | submit => exact absurd rfl (hev _ _)
  | giveUp => exact GoMap.lookup_of_erase hw
  | clearWaitCh => cases hw
  | getOld | rangeOld | get | rangeRev | range => exact hw

theorem step_lastResult (h : s.step ev = some s')
    (hr : s'.server.lastResult.lookup index = some r) :
    s.server.lastResult.lookup index = some r ∨ ∃ d, s.loop = .executed d r ∧ d.index = index := by
  cases step_taken h with
  | loop h =>
    cases h with
    | @check d rest hl hu hc =>
      rcases check_cases { s with applyCh := rest } d with he | ⟨r', -, he⟩ | ⟨-, he⟩
      all_goals rw [he] at hr
      · exact .inl hr
      · exact .inl (Server.notify_lastResult ▸ hr)
      · exact .inl hr
    | execute => exact .inl hr
    | @record d r' hl hu =>
      rcases s.server.record_cases d.index d.env r' with ⟨-, he⟩ | he
      all_goals rw [he] at hr
      · dsimp only [Service.answering] at hr
        rcases eq_or_ne index d.index with rfl | hne
        · rw [Finmap.lookup_insert] at hr
          cases hr
          exact .inr ⟨d, hl, rfl⟩
        · rw [Finmap.lookup_insert_of_ne _ hne] at hr
          exact .inl hr
      · dsimp only [Service.answering] at hr
        rw [Server.notify_lastResult] at hr
        exact .inl hr
  | @submit index env =>
    rcases s.server.submit_cases index env with ⟨r', -, he⟩ | he
    all_goals rw [he] at hr
    · exact .inl (GoMap.lookup_of_erase hr)
    · exact .inl hr
  | giveUp | clearWaitCh | getOld | rangeOld | get | rangeRev | range => exact .inl hr

/-- The results among the answers a step of the server has added. -/
def newResults (s s' : Service) : List (Int × Result) :=
  (s'.answers.drop s.answers.length).filterMap SubmitAnswer.result?

theorem newResults_append (h : s'.answers = s.answers ++ out) :
    s.newResults s' = out.filterMap SubmitAnswer.result? := by
  rw [newResults, h, List.drop_left]

theorem newResults_eq_nil (h : s'.answers = s.answers) : s.newResults s' = [] := by
  rw [newResults, h, List.drop_length, List.filterMap_nil]

/-- How a `submit` call that waits under the index can get the result. -/
inductive Answered (s : Service) : Int → Result → ServerEvent → Prop
  | duplicate : s.loop = .idle → s.applyCh = d :: rest →
      s.server.dedup d.env.clientID d.env.seq = .duplicate r →
      s.server.waitCh.lookup d.index = some ch → ch.matches d.env = true →
      Answered s d.index r .loop
  | recorded : s.loop = .executed d r → s.server.waitCh.lookup d.index = some ch →
      ch.matches d.env = true → Answered s d.index r .loop
  | cached : s.server.lastResult.lookup index = some r → Answered s index r (.submit index env)

theorem mem_newResults (h : s.step ev = some s') (hm : (index, r) ∈ s.newResults s') :
    s.Answered index r ev := by
  have hsame (he : s'.answers = s.answers) : s.Answered index r ev := by
    rw [newResults_eq_nil he] at hm
    cases hm
  cases step_taken h with
  | loop h =>
    cases h with
    | @check d rest hl hu hc =>
      rcases check_cases { s with applyCh := rest } d with he | ⟨r', hd, he⟩ | ⟨-, he⟩
      · exact hsame (by rw [he])
      · rw [he, newResults_append (s := s) rfl] at hm
        obtain ⟨rfl, rfl, ch, hch, hmatch⟩ := Server.mem_notify hm
        exact .duplicate hl hc hd hch hmatch
      · exact hsame (by rw [he])
    | execute => exact hsame rfl
    | @record d r' hl hu =>
      rw [newResults_append (s := s) rfl] at hm
      rcases s.server.record_cases d.index d.env r' with ⟨-, he⟩ | he
      all_goals rw [he] at hm
      · cases hm
      · obtain ⟨rfl, rfl, ch, hch, hmatch⟩ := Server.mem_notify hm
        exact .recorded hl hch hmatch
  | @submit i env =>
    rcases submit_waitCh h with ⟨r', hr, -, he⟩ | ⟨-, he⟩
    · rw [newResults_append he] at hm
      cases List.mem_singleton.1 hm
      exact .cached hr
    · exact hsame he
  | clearWaitCh =>
    rw [newResults_append (s := s) rfl] at hm
    cases hm
  | giveUp | getOld | rangeOld | get | rangeRev | range => exact hsame rfl

end Service

end LinKV

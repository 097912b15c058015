import LinKV.Server.Command

namespace LinKV
set_option autoImplicit true

/-- A `submit` call that waits for the command at a log index. -/
structure WaitEntry where
  clientID : Int
  seq : Int
  kind : Kind
deriving DecidableEq, Repr

def WaitEntry.matches (ch : WaitEntry) (env : Command) : Bool :=
  ch.clientID = env.clientID ∧ ch.seq = env.seq ∧ ch.kind = env.kind

structure GetRequest where
  key : Bytes
  revision : Int
  clientID : Int
  seq : Int
deriving DecidableEq, Repr

structure GetResponse where
  value : Bytes := []
  revision : Int := 0
  found : Bool := false
deriving DecidableEq, Repr

structure RangeRequest where
  key : Bytes
  byPrefix : Bool
  revision : Int
  clientID : Int
  seq : Int
deriving DecidableEq, Repr

structure RangeResponse where
  kvs : List ApiKeyValue := []
  revision : Int := 0
deriving DecidableEq, Repr

/-- The fields of the server that its mutex protects, and the store. -/
structure Server where
  store : KVStore
  waitCh : GoMap Int WaitEntry
  lastResult : GoMap Int Result
  clientLastSeq : GoMap Int Int
  clientLastResult : GoMap Int Result

/-- What the last sequence number of a client says about a request of it. -/
inductive Verdict where
  | stale
  | duplicate (cached : Result)
  | fresh
deriving DecidableEq, Repr

/-- What `submit` calls return: the result of a command, or that the node is no leader for all
those `clearWaitCh` finds waiting. -/
inductive SubmitAnswer where
  | result (index : Int) (r : Result)
  | notLeader (waiting : GoMap Int WaitEntry)

namespace Server

def new (store : KVStore) : Server := ⟨store, ∅, ∅, ∅, ∅⟩

def lastSeq (s : Server) (clientID : Int) : Int := s.clientLastSeq.get clientID 0

def cached (s : Server) (clientID : Int) : Result := s.clientLastResult.get clientID {}

/-- The check `applyLoop`, `Get` and `Range` make first. -/
def dedup (s : Server) (clientID seq : Int) : Verdict :=
  if seq < s.lastSeq clientID then .stale
  else if seq = s.lastSeq clientID then .duplicate (s.cached clientID)
  else .fresh

/-- What all three write for a request they have executed. -/
def remember (s : Server) (clientID seq : Int) (r : Result) : Server :=
  { s with
    clientLastSeq := s.clientLastSeq.insert clientID seq
    clientLastResult := s.clientLastResult.insert clientID r }

/-- A waiter at the index leaves the table, with the result if it waits for this command. -/
def notify (s : Server) (index : Int) (env : Command) (r : Result) : Server × List SubmitAnswer :=
  match s.waitCh.lookup index with
  | none => (s, [])
  | some ch =>
    ({ s with waitCh := s.waitCh.erase index },
      if ch.matches env then [.result index r] else [])

/-- The second locked section of `applyLoop`. -/
def record (s : Server) (index : Int) (env : Command) (r : Result) : Server × List SubmitAnswer :=
  let s := s.remember env.clientID env.seq r
  match s.waitCh.lookup index with
  | none => ({ s with lastResult := s.lastResult.insert index r }, [])
  | some _ => s.notify index env r

/-- The locked section of `submit`, for the index at which Raft has put the command. -/
def submit (s : Server) (index : Int) (env : Command) : Server × List SubmitAnswer :=
  let ch : WaitEntry := ⟨env.clientID, env.seq, env.kind⟩
  match s.lastResult.lookup index with
  | some r =>
    if ch.matches env then
      ({ s with lastResult := s.lastResult.erase index }, [.result index r])
    else ({ s with waitCh := s.waitCh.insert index ch }, [])
  | none => ({ s with waitCh := s.waitCh.insert index ch }, [])

/-- `submit` stops waiting. -/
def giveUp (s : Server) (index : Int) : Server := { s with waitCh := s.waitCh.erase index }

def clearWaitCh (s : Server) : Server × List SubmitAnswer :=
  ({ s with waitCh := ∅ }, [.notLeader s.waitCh])

/-- The locked section of `Get`; it fails where the code dereferences a nil `Rev`. -/
def get (s : Server) (req : GetRequest) : Option (Server × GetResponse) :=
  match s.dedup req.clientID req.seq with
  | .stale => some (s, {})
  | .duplicate r => r.rev.map fun rev => (s, ⟨r.value, rev.main, r.found⟩)
  | .fresh =>
    let (value, rev, ok) := s.store.get req.key req.revision
    let value := if ok then value else []
    some (s.remember req.clientID req.seq { rev := some ⟨rev, 0⟩, value := value, found := ok },
      ⟨value, rev, ok⟩)

/-- The locked section of `Range` up to the choice of the revision it reads at, or the answer it
gives from the tables. -/
def rangeRev (s : Server) (req : RangeRequest) : RangeResponse ⊕ Int :=
  match s.dedup req.clientID req.seq with
  | .stale => .inl {}
  | .duplicate r => .inl ⟨r.rangeResults, (r.rev.map Revision.main).getD 0⟩
  | .fresh => .inr (if req.revision = 0 then s.store.backend.currentRev else req.revision)

/-- The rest of the locked section. -/
def range (s : Server) (req : RangeRequest) (readRev : Int) : Server × RangeResponse :=
  let kvs := fromMVCCKeyValues
    (if req.byPrefix then s.store.prefixRange req.key readRev
      else s.store.range req.key (req.key ++ [0]) readRev)
  (s.remember req.clientID req.seq { rev := some ⟨readRev, 0⟩, rangeResults := kvs },
    ⟨kvs, readRev⟩)

end Server

/-- A committed command on its way to `applyLoop`, with what the process adds when it applies
it. -/
structure Delivery where
  index : Int
  env : Command
  ambient : Ambient
deriving DecidableEq, Repr

/-- Where `applyLoop` stands between its sections under the mutex. -/
inductive LoopState where
  | idle
  | checked (d : Delivery)
  | executed (d : Delivery) (r : Result)
deriving DecidableEq, Repr

/-- A server at work: the commands still to come, the `Range` call that holds the mutex with the
revision it reads at, and the commands executed and answers given so far. -/
structure Service where
  server : Server
  applyCh : List Delivery
  loop : LoopState := .idle
  reading : Option (RangeRequest × Int) := none
  executed : List (Delivery × Result) := []
  answers : List SubmitAnswer := []

inductive ServerEvent where
  | loop
  | submit (index : Int) (env : Command)
  | giveUp (index : Int)
  | clearWaitCh
  | get (req : GetRequest)
  | rangeRev (req : RangeRequest)
  | range
deriving DecidableEq, Repr

namespace Service

/-- A section under the mutex that may answer `submit` calls. -/
def answering (s : Service) (out : Server × List SubmitAnswer) : Service :=
  { s with server := out.1, answers := s.answers ++ out.2 }

/-- A step that has to wait for the mutex. -/
def withLock (s : Service) (next : Option Service) : Option Service :=
  if s.reading.isSome then none else next

def check (s : Service) (d : Delivery) : Service :=
  match s.server.dedup d.env.clientID d.env.seq with
  | .stale => s
  | .duplicate r => s.answering (s.server.notify d.index d.env r)
  | .fresh => { s with loop := .checked d }

def execute (s : Service) (d : Delivery) : Service :=
  let out := s.server.store.applyCommand d.ambient d.env
  let r := { out.2 with kind := d.env.kind, clientID := d.env.clientID, seq := d.env.seq }
  { s with
    server := { s.server with store := out.1 }
    loop := .executed d r
    executed := s.executed ++ [(d, r)] }

/-- The next step of `applyLoop`. -/
def advance (s : Service) : Option Service :=
  match s.loop with
  | .idle =>
    match s.applyCh with
    | [] => none
    | d :: rest => s.withLock (some ({ s with applyCh := rest }.check d))
  | .checked d => some (s.execute d)
  | .executed d r =>
    s.withLock (some ({ s with loop := .idle }.answering (s.server.record d.index d.env r)))

/-- What a step of `applyLoop` can be. -/
inductive Advances (s : Service) : Service → Prop
  | check : s.loop = .idle → s.reading = none → s.applyCh = d :: rest →
      Advances s ({ s with applyCh := rest }.check d)
  | execute : s.loop = .checked d → Advances s (s.execute d)
  | record : s.loop = .executed d r → s.reading = none →
      Advances s ({ s with loop := .idle }.answering (s.server.record d.index d.env r))

theorem withLock_eq_some {s s' : Service} {next : Option Service} :
    s.withLock next = some s' ↔ s.reading = none ∧ next = some s' := by
  unfold withLock
  cases s.reading with
  | none => exact ⟨fun h => ⟨rfl, h⟩, fun h => h.2⟩
  | some r => exact ⟨nofun, fun h => nomatch h.1⟩

theorem advance_eq_some {s s' : Service} : s.advance = some s' ↔ s.Advances s' := by
  constructor
  · intro h
    unfold advance at h
    cases hl : s.loop with
    | idle =>
      cases hc : s.applyCh with
      | nil => rw [hl, hc] at h; cases h
      | cons d rest =>
        simp only [hl, hc, withLock_eq_some, Option.some.injEq] at h
        obtain ⟨hu, rfl⟩ := h
        rw [← hl]
        exact .check hl hu hc
    | checked d =>
      rw [hl] at h
      cases h
      exact .execute hl
    | executed d r =>
      simp only [hl, withLock_eq_some, Option.some.injEq] at h
      obtain ⟨hu, rfl⟩ := h
      exact .record hl hu
  · intro h
    unfold advance
    cases h with
    | check hl hu hc => simp only [hl, hc, withLock_eq_some, hu, true_and]
    | execute hl => rw [hl]
    | record hl hu => simp only [hl, withLock_eq_some, hu, true_and]

def step (s : Service) : ServerEvent → Option Service
  | .loop => s.advance
  | .submit index env => s.withLock (some (s.answering (s.server.submit index env)))
  | .giveUp index => s.withLock (some { s with server := s.server.giveUp index })
  | .clearWaitCh => s.withLock (some (s.answering s.server.clearWaitCh))
  | .get req => s.withLock ((s.server.get req).map fun out => { s with server := out.1 })
  | .rangeRev req =>
    s.withLock (match s.server.rangeRev req with
      | .inl _ => some s
      | .inr readRev => some { s with reading := some (req, readRev) })
  | .range => s.reading.map fun (req, readRev) =>
    { s with server := (s.server.range req readRev).1, reading := none }

end Service

end LinKV

import LinKV.Server.Deployment

namespace LinKV
set_option autoImplicit true

/-- A client object of a client process, without its servers and its guess of the leader. -/
structure Client where
  clientID : Int
  seq : Int
deriving DecidableEq, Repr

/-- `Make`, which first counts up the `globalClientID` of its process. -/
def Client.make (globalClientID : Int) : Int × Client :=
  (globalClientID + 1, ⟨globalClientID + 1, 0⟩)

def Client.getSeq (c : Client) : Client × Int := ({ c with seq := c.seq + 1 }, c.seq + 1)

structure PutRequest where
  key : Bytes
  value : Bytes
  leaseID : Int := 0
  clientID : Int
  seq : Int
deriving DecidableEq, Repr

def PutRequest.command (req : PutRequest) : Command where
  kind := .kv
  kv := some ⟨.put, req.key, req.value, req.clientID, req.seq, req.leaseID⟩

/-- Client processes and the servers: the `globalClientID` of every process, the clients with the
process each was made in, the `Put` calls, and those of them that have returned nil. A client
process that restarts is one of its own. -/
structure World (ι : Type) where
  globalClientID : List Int := []
  clients : List (Nat × Client) := []
  calls : List PutRequest := []
  done : List Nat := []
  deployment : Deployment ι

inductive WorldEvent (ι : Type) where
  | spawn
  | make (p : Nat)
  | put (c : Nat) (key value : Bytes)
  | attempt (n : Nat) (i : ι) (index : Int)
  | system (i : ι) (ev : SiteEvent)
  | reply (n : Nat)
deriving DecidableEq, Repr

def SiteEvent.isStart : SiteEvent → Bool
  | .start _ _ => true
  | _ => false

namespace World

def Succeeded (W : World ι) (n : Nat) : Prop :=
  ∃ a ∈ W.deployment.returned, a.1.caller = n ∧ a.2.err = none

instance (W : World ι) (n : Nat) : Decidable (W.Succeeded n) :=
  inferInstanceAs (Decidable (∃ a ∈ W.deployment.returned, _ ∧ _))

variable [DecidableEq ι]

/-- Steps of clients and servers. `callWithRetry` sends the same request to any server for as long
as the call has not returned, whatever became of the attempts before. -/
def step (W : World ι) : WorldEvent ι → Option (World ι)
  | .spawn => some { W with globalClientID := W.globalClientID ++ [0] }
  | .make p => (W.globalClientID[p]?).map fun g =>
    { W with
      globalClientID := W.globalClientID.set p (Client.make g).1
      clients := W.clients ++ [(p, (Client.make g).2)] }
  | .put c key value => (W.clients[c]?).map fun (p, client) =>
    { W with
      clients := W.clients.set c (p, client.getSeq.1)
      calls := W.calls ++
        [{ key := key, value := value, clientID := client.clientID, seq := client.getSeq.2 }] }
  | .attempt n i index =>
    if n ∈ W.done then none
    else (W.calls[n]?).bind fun req =>
      (W.deployment.step (i, .start index ⟨n, req.command⟩)).map fun D => { W with deployment := D }
  | .system i ev =>
    if ev.isStart then none
    else (W.deployment.step (i, ev)).map fun D => { W with deployment := D }
  | .reply n => if W.Succeeded n then some { W with done := n :: W.done } else none

inductive Moves (W : World ι) : WorldEvent ι → World ι → Prop
  | spawn : Moves W .spawn { W with globalClientID := W.globalClientID ++ [0] }
  | make : W.globalClientID[p]? = some g →
      Moves W (.make p) { W with
        globalClientID := W.globalClientID.set p (g + 1)
        clients := W.clients ++ [(p, ⟨g + 1, 0⟩)] }
  | put : W.clients[c]? = some (p, client) →
      Moves W (.put c key value) { W with
        clients := W.clients.set c (p, ⟨client.clientID, client.seq + 1⟩)
        calls := W.calls ++ [⟨key, value, 0, client.clientID, client.seq + 1⟩] }
  | attempt : W.calls[n]? = some req →
      W.deployment.step (i, .start index ⟨n, req.command⟩) = some D →
      Moves W (.attempt n i index) { W with deployment := D }
  | system : ev.isStart = false → W.deployment.step (i, ev) = some D →
      Moves W (.system i ev) { W with deployment := D }
  | reply : W.Succeeded n → Moves W (.reply n) { W with done := n :: W.done }

theorem step_moves {W W' : World ι} (h : W.step a = some W') : W.Moves a W' := by
  cases a with
  | spawn =>
    cases h
    exact .spawn
  | make p =>
    obtain ⟨g, hg, rfl⟩ := Option.map_eq_some_iff.1 h
    exact .make hg
  | put c key value =>
    obtain ⟨⟨p, client⟩, hc, rfl⟩ := Option.map_eq_some_iff.1 h
    exact .put hc
  | attempt n i index =>
    rw [step] at h
    obtain ⟨-, h⟩ := Option.ite_none_left_eq_some.1 h
    obtain ⟨req, hreq, h⟩ := Option.bind_eq_some_iff.1 h
    obtain ⟨D, hD, rfl⟩ := Option.map_eq_some_iff.1 h
    exact .attempt hreq hD
  | system i ev =>
    rw [step] at h
    obtain ⟨hev, h⟩ := Option.ite_none_left_eq_some.1 h
    obtain ⟨D, hD, rfl⟩ := Option.map_eq_some_iff.1 h
    exact .system (Bool.eq_false_iff.2 hev) hD
  | reply n =>
    rw [step] at h
    obtain ⟨hn, h⟩ := Option.ite_none_right_eq_some.1 h
    cases h
    exact .reply hn

def fresh (stores : ι → KVStore) : World ι where
  deployment := .fresh stores

/-- The runs in question: the servers apply commands through `applyLoop` only, and all requests
are `Put` calls. -/
def InScope (_ : World ι) : WorldEvent ι → Prop
  | .system _ (.serve ev) => ev.isRead = false
  | .system _ (.makeSnapshot _) | .system _ (.install _) | .system _ .restore => False
  | _ => True

end World

end LinKV

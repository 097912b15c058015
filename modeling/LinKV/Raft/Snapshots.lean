import LinKV.Consensus.Agreed
import LinKV.Raft.Apply
import LinKV.Raft.Safety

namespace LinKV
set_option autoImplicit true

open Consensus Ledger

namespace Raft

/-- The snapshot of the node, and the index up to which it reaches. -/
def snapshotPoint (rf : Raft n) : Nat × Bytes := (rf.lastIncludeIndex, rf.snapshot)

section

variable {rf rf' : Raft n}

theorem Same.snapshotPoint (h : Same rf rf') : rf'.snapshotPoint = rf.snapshotPoint :=
  congrArg (fun e : RaftState n => (e.lastIncludeIndex, e.snapshot)) h.image

theorem catchUp_snapshotPoint (rf : Raft n) (t : Nat) :
    (rf.catchUp t).snapshotPoint = rf.snapshotPoint := by
  unfold catchUp
  split <;> rfl

theorem follow_snapshotPoint (rf : Raft n) (t : Nat) :
    (rf.follow t).snapshotPoint = rf.snapshotPoint := catchUp_snapshotPoint rf t

theorem requestVote_snapshotPoint (rf : Raft n) (args : RequestVoteArgs n) :
    (rf.requestVote args).1.snapshotPoint = rf.snapshotPoint := by
  rcases rf.requestVote_cases args with ⟨_, he⟩ | ⟨_, he | ⟨_, _, he⟩⟩
  all_goals rw [he]
  · exact catchUp_snapshotPoint rf args.term
  · exact catchUp_snapshotPoint rf args.term

theorem overwrite_snapshotPoint (rf : Raft n) (args : AppendEntriesArgs n) :
    (rf.overwrite args).snapshotPoint = rf.snapshotPoint := by
  unfold overwrite
  dsimp only
  split <;> split <;> rfl

theorem appendEntries_snapshotPoint (rf : Raft n) (args : AppendEntriesArgs n) :
    (rf.appendEntries args).1.snapshotPoint = rf.snapshotPoint := by
  rcases rf.appendEntries_cases args with ⟨_, he, _⟩ | ⟨_, ⟨he, _⟩ | ⟨_, _, _, he, _⟩⟩
  all_goals rw [he]
  · exact follow_snapshotPoint rf args.term
  · exact (overwrite_snapshotPoint _ args).trans (follow_snapshotPoint rf args.term)

theorem start_snapshotPoint (rf : Raft n) (command : Bytes) :
    (rf.start command).snapshotPoint = rf.snapshotPoint := by
  unfold start
  split <;> rfl

theorem appendEntriesReply_snapshotPoint (rf : Raft n) (server : Fin n)
    (args : AppendEntriesArgs n) (reply : AppendEntriesReply) :
    (rf.appendEntriesReply server args reply).snapshotPoint = rf.snapshotPoint := by
  unfold appendEntriesReply
  split
  · rfl
  · split
    · rfl
    · split
      · exact ((clampMatch_same _ server).snapshotPoint).trans (countRead_same _).snapshotPoint
      · exact (clampMatch_same _ server).snapshotPoint

theorem installSnapshotReply_snapshotPoint (rf : Raft n) (server : Fin n)
    (args : InstallSnapshotArgs n) (reply : InstallSnapshotReply) :
    (rf.installSnapshotReply server args reply).snapshotPoint = rf.snapshotPoint := by
  unfold installSnapshotReply
  split
  · rfl
  · split <;> rfl

theorem snapshotAt_snapshotPoint (h : rf.snapshotAt index data = some rf') :
    rf'.snapshotPoint = rf.snapshotPoint ∨ rf'.snapshotPoint = (index, data) := by
  unfold snapshotAt at h
  split at h
  · cases h
    exact .inl rfl
  · split at h
    · cases h
    · cases h
      exact .inr rfl

theorem installSnapshot_snapshotPoint (rf : Raft n) (args : InstallSnapshotArgs n) :
    (rf.installSnapshot args).1.snapshotPoint = rf.snapshotPoint ∨
      rf.lastIncludeIndex < args.lastIncludeIndex ∧
        (rf.installSnapshot args).1.snapshotPoint = (args.lastIncludeIndex, args.data) := by
  rcases rf.installSnapshot_cases args with ⟨_, he, _⟩ | ⟨_, ⟨_, he, _⟩ | ⟨hi, he, _⟩⟩
  all_goals rw [he]
  · exact .inl rfl
  · exact .inl (follow_snapshotPoint rf args.term)
  · exact .inr ⟨hi, rfl⟩

end

end Raft

/-- A node's snapshot changes only when its state machine hands it one for the command in hand,
or when one that reaches further is installed. -/
theorem Proc.step_snapshotPoint {p p' : Proc n} (hs : p.step now ev = some p') :
    p'.rf.snapshotPoint = p.rf.snapshotPoint ∨
    (∃ k c data, ev = .finish (some data) ∧ p.inHand = some (.command k c) ∧
      p'.rf.snapshotPoint = (k, data)) ∨
    ∃ args, ev = .installSnapshot args ∧ p.rf.lastIncludeIndex < args.lastIncludeIndex ∧
      p'.rf.snapshotPoint = (args.lastIncludeIndex, args.data) := by
  cases step_takes hs with
  | logUpdate => exact .inl p.rf.logUpdate_same.snapshotPoint
  | replicate server => exact .inl (p.rf.replicate_same server).snapshotPoint
  | start command => exact .inl (p.rf.start_snapshotPoint command)
  | collect => exact .inl p.rf.applier_idle.snapshotPoint
  | snapshot index c data rf hi hrf =>
    rcases Raft.snapshotAt_snapshotPoint hrf with he | he
    · exact .inl he
    · exact .inr (.inl ⟨index, c, data, rfl, hi, he⟩)
  | readReturn c =>
    unfold readReturn
    split <;> exact .inl rfl
  | requestVote args => exact .inl (p.rf.requestVote_snapshotPoint args)
  | appendEntries args => exact .inl (p.rf.appendEntries_snapshotPoint args)
  | installSnapshot args =>
    rcases p.rf.installSnapshot_snapshotPoint args with he | ⟨hlt, he⟩
    · exact .inl he
    · exact .inr (.inr ⟨args, rfl, hlt, he⟩)
  | requestVoteReply args reply =>
    rcases p.requestVoteReply_cases args reply with
      he | ⟨_, _, ⟨_, he⟩ | ⟨_, _, ⟨_, he⟩ | he⟩⟩
    all_goals rw [he]
    all_goals exact .inl rfl
  | appendEntriesReply server args reply =>
    exact .inl (p.rf.appendEntriesReply_snapshotPoint server args reply)
  | installSnapshotReply server args reply =>
    exact .inl (p.rf.installSnapshotReply_snapshotPoint server args reply)
  | _ => exact .inl rfl

section

variable (H : List Bytes → Bytes → Prop)

/-- The data is a snapshot, in the sense of `H`, of the first `k` commands agreed on. -/
def SnapshotOf (g : Record n) (k : Nat) (data : Bytes) : Prop :=
  ∃ cs, Agreed g cs ∧ cs.length = k ∧ H cs data

/-- As `SnapshotOf`, or there is no snapshot yet. -/
def StoredAt (g : Record n) (x : Nat × Bytes) : Prop :=
  x = (0, []) ∨ SnapshotOf H g x.1 x.2

/-- The message hands over what has been agreed on. -/
def Genuine (g : Record n) : ApplyMsg → Prop
  | .command k c => Chosen g k c
  | .snapshot k _ data => SnapshotOf H g k data

/-- The messages of a process that its state machine is not done with. -/
def Proc.underway (p : Proc n) : List ApplyMsg :=
  p.batch ++ p.snapSends ++ p.applyCh ++ p.inHand.toList

/-- All a process holds for its state machine is genuine. -/
structure NodeData (g : Record n) (p : Proc n) : Prop where
  stored : StoredAt H g p.rf.snapshotPoint
  underway : ∀ m ∈ p.underway, Genuine H g m

def CallData (g : Record n) : Call n → Prop
  | .installSnapshot args _ => StoredAt H g (args.lastIncludeIndex, args.data)
  | _ => True

/-- Every snapshot in the cluster is one of commands agreed on. -/
structure Delivers (s : Cluster n) (g : Record n) : Prop where
  node : ∀ i, NodeData H g (s.procs i)
  call : ∀ r ∈ s.rpcs, CallData H g r.call

/-- A snapshot that the state machine hands over is one of the commands up to the one in
hand. -/
def Hands (g : Record n) (p : Proc n) (ev : Event n) : Prop :=
  ∀ k c data, ev = .finish (some data) → p.inHand = some (.command k c) → SnapshotOf H g k data

end

section

variable {H : List Bytes → Bytes → Prop} {g g' : Record n} {rf : Raft n} {p p' : Proc n}
  {s s' : Cluster n}

theorem SnapshotOf.extends (h : SnapshotOf H g k data) (he : Extends g g') :
    SnapshotOf H g' k data := by
  obtain ⟨cs, hcs, hlen, hH⟩ := h
  exact ⟨cs, hcs.extends he, hlen, hH⟩

theorem StoredAt.extends (h : StoredAt H g x) (he : Extends g g') : StoredAt H g' x := by
  rcases h with h | h
  · exact .inl h
  · exact .inr (h.extends he)

theorem Genuine.extends (h : Genuine H g m) (he : Extends g g') : Genuine H g' m := by
  cases m with
  | command k c => exact Chosen.extends h he
  | snapshot k t data => exact SnapshotOf.extends h he

theorem NodeData.extends (h : NodeData H g p) (he : Extends g g') : NodeData H g' p :=
  ⟨h.stored.extends he, fun m hm => (h.underway m hm).extends he⟩

theorem CallData.extends (h : CallData H g call) (he : Extends g g') : CallData H g' call := by
  cases call with
  | installSnapshot args reply => exact StoredAt.extends h he
  | _ => trivial

theorem StoredAt.snapshotOf (h : StoredAt H g (k, data)) (hk : j < k) : SnapshotOf H g k data := by
  rcases h with h | h
  · cases h
    cases hk
  · exact h

theorem NodeData.boot (hs : rf.Stored) (h : StoredAt H g rf.snapshotPoint) (i : Fin n) :
    NodeData H g (.boot i rf.persister) where
  stored := by
    have he : (Raft.make i rf.persister).snapshotPoint = rf.snapshotPoint :=
      congrArg (fun e : RaftState n => (e.lastIncludeIndex, e.snapshot)) (hs.make_image i)
    rw [Proc.boot, he]
    exact h
  underway := fun m hm => nomatch hm

theorem NodeData.collected (h : NodeData H g p) (hm : m ∈ p.rf.applier.2)
    (hc : ∀ j c, .command j c ∈ p.rf.applier.2 → Chosen g j c) : Genuine H g m := by
  cases m with
  | command k c => exact hc k c hm
  | snapshot k t data =>
    rcases p.rf.applier_cases with ⟨hlt, _, hms⟩ | ⟨_, hcol⟩
    · rw [hms] at hm
      cases List.mem_singleton.1 hm
      exact h.stored.snapshotOf hlt
    · obtain ⟨j, e, he, _⟩ := hcol.mem hm
      cases he

theorem Proc.mem_underway (hs : p.step now ev = some p') (hm : m ∈ p'.underway) :
    m ∈ p.underway ∨ (ev = .collect ∧ m ∈ p.rf.applier.2) ∨
    ∃ args, ev = .installSnapshot args ∧ p.rf.lastIncludeIndex < args.lastIncludeIndex ∧
      m = .snapshot args.lastIncludeIndex args.lastIncludeTerm args.data := by
  have hpipe := step_pipe hs
  have hu (p : Proc n) : p.underway =
    p.pipe.batch ++ p.pipe.snapSends ++ p.pipe.applyCh ++ p.pipe.inHand.toList := rfl
  rw [hu] at hm ⊢
  generalize p.pipe = x at hpipe ⊢
  generalize p'.pipe = y at hpipe hm
  simp only [List.mem_append] at hm ⊢
  cases hpipe with
  | same => exact .inl hm
  | collect _ hb =>
    rcases hm with ((hm | hm) | hm) | hm
    · exact .inr (.inl ⟨rfl, hm⟩)
    · exact .inl (.inl (.inl (.inr hm)))
    · exact .inl (.inl (.inr hm))
    · exact .inl (.inr hm)
  | emit _ m' rest hb =>
    rw [hb, List.mem_cons]
    rw [List.mem_append, List.mem_singleton] at hm
    tauto
  | emitSnap _ k m' hk =>
    rw [List.mem_append, List.mem_singleton] at hm
    rcases hm with ((hm | hm) | hm | rfl) | hm
    · exact .inl (.inl (.inl (.inl hm)))
    · exact .inl (.inl (.inl (.inr (List.mem_of_mem_eraseIdx hm))))
    · exact .inl (.inl (.inr hm))
    · exact .inl (.inl (.inl (.inr (List.mem_of_getElem? hk))))
    · exact .inl (.inr hm)
  | receive _ m' rest hi hc =>
    rw [hi, hc, List.mem_cons]
    rw [Option.toList_some, List.mem_singleton] at hm
    tauto
  | finish _ m' data la hi hl =>
    rw [Option.toList_none] at hm
    rcases hm with hm | hm
    · exact .inl (.inl hm)
    · cases hm
  | install _ args ht hlt =>
    rw [List.mem_append, List.mem_singleton] at hm
    rcases hm with ((hm | hm | hm) | hm) | hm
    · exact .inl (.inl (.inl (.inl hm)))
    · exact .inl (.inl (.inl (.inr hm)))
    · exact .inr (.inr ⟨args, rfl, hlt, hm⟩)
    · exact .inl (.inl (.inr hm))
    · exact .inl (.inr hm)

theorem NodeData.step (h : NodeData H g p) (hs : p.step now ev = some p') (he : Extends g g')
    (hhands : Hands H g p ev)
    (hcall : ∀ args, ev = .installSnapshot args →
      StoredAt H g (args.lastIncludeIndex, args.data))
    (hbatch : ∀ j c, .command j c ∈ p'.batch → Chosen g' j c) : NodeData H g' p' where
  stored := by
    rcases Proc.step_snapshotPoint hs with hp | ⟨k, c, data, hev, hi, hp⟩ | ⟨args, hev, _, hp⟩
    all_goals rw [hp]
    · exact h.stored.extends he
    · exact .inr ((hhands k c data hev hi).extends he)
    · exact (hcall args hev).extends he
  underway := by
    intro m hm
    rcases Proc.mem_underway hs hm with hm | ⟨rfl, hm⟩ | ⟨args, rfl, hlt, rfl⟩
    · exact (h.underway m hm).extends he
    · refine (h.extends he).collected hm fun j c hj => hbatch j c ?_
      cases Proc.step_takes hs with
      | collect => exact hj
    · exact ((hcall args rfl).snapshotOf hlt).extends he

theorem NodeData.calls (h : NodeData H g p) (hc : (j, call) ∈ p.calls ev) : CallData H g call := by
  obtain ⟨_, _, rfl⟩ | ⟨_, _, _, hcall⟩ | ⟨_, _, _, _, _, rfl⟩ := Proc.mem_calls hc
  · trivial
  · obtain ⟨_, rfl | ⟨_, _, _, rfl⟩⟩ := Raft.replicate_call hcall
    · exact h.stored
    · trivial
  · trivial

theorem Delivers.extends (h : Delivers H s g) (he : Extends g g') : Delivers H s g' :=
  ⟨fun i => (h.node i).extends he, fun r hr => (h.call r hr).extends he⟩

theorem Delivers.installed (h : Delivers H s g) (hin : s.Inbox i (.installSnapshot args)) :
    StoredAt H g (args.lastIncludeIndex, args.data) := by
  obtain ⟨r, hr, _, hcall⟩ := hin.installSnapshot
  have hd := h.call r hr
  rw [hcall] at hd
  exact hd

/-- A step of the cluster in which the state machine hands over genuine snapshots. -/
theorem Delivers.step (h : Delivers H s g) (hm : Cluster.Move s a s') (he : Extends g g')
    (hstored : ∀ i, (s.procs i).rf.Stored)
    (hhands : ∀ i ev p, s.event a = some (i, ev) → (s.procs i).step s.now ev = some p →
      Hands H g (s.procs i) ev)
    (hbatch : ∀ i j c, .command j c ∈ (s'.procs i).batch → Chosen g' j c) :
    Delivers H s' g' where
  node := by
    have hset {j : Fin n} {p : Proc n} (hp : NodeData H g' p) :
        ∀ i, NodeData H g' (assign s.procs j p i) :=
      assign_forall (P := fun _ p => NodeData H g' p) hp fun i _ => (h.node i).extends he
    intro i
    cases hm.turn with
    | event j ev p hin ha hs _ hp =>
      have hb := hbatch j
      rw [hp] at hb ⊢
      rw [assign_self] at hb
      exact hset ((h.node j).step hs he (hhands j ev p ha hs)
        (fun args hargs => h.installed (hargs ▸ hin)) hb) i
    | restart j _ hp =>
      rw [hp]
      exact hset (.boot (hstored j) ((h.node j).stored.extends he) j) i
    | crashIn r _ _ _ hp =>
      rw [hp]
      exact hset (.boot (Raft.stepDown_stored (t := r.call.term) (hstored r.server))
        ((h.node r.server).stored.extends he) _) i
    | idle _ hp =>
      rw [hp]
      exact (h.node i).extends he
  call := by
    intro r hr
    cases hm.origin hr with
    | old r₀ hr₀ _ _ hcall _ =>
      rw [hcall]
      exact (h.call r₀ hr₀).extends he
    | new ev p _ _ hs _ hc _ => exact ((h.node r.caller).calls hc).extends he
    | torn ev m _ _ _ _ hcall =>
      rw [hcall]
      trivial
    | answered k r₀ ev p ha hk _ hs _ heq =>
      subst heq
      have hold := (h.call r₀ (List.mem_of_getElem? hk)).extends he
      cases hcall : r₀.call with
      | installSnapshot args reply =>
        rw [hcall] at hold
        exact hold
      | _ => trivial

theorem delivers_init (H : List Bytes → Bytes → Prop) (n : Nat) (g : Record n) :
    Delivers H (.init n) g where
  node := by
    intro i
    have hboot := NodeData.boot (H := H) (g := g) (Raft.make_stored i) (.inl ?_) i
    · rw [Raft.make_persister] at hboot
      exact hboot
    · exact congrArg (fun e : RaftState n => (e.lastIncludeIndex, e.snapshot)) (Raft.make_none i)
  call := fun r hr => nomatch hr

end

end LinKV

import LinKV.Raft.Cluster

namespace LinKV
set_option autoImplicit true

namespace Send

variable {rf : Raft n} {m : Send n}

@[simp] theorem reread_copied : (m.reread rf).copied = m.copied := rfl

@[simp] theorem reread_length : (m.reread rf).args.entries.length = m.args.entries.length :=
  List.length_mapIdx

theorem reread_getElem? (m : Send n) (rf : Raft n) (k : Nat) :
    (m.reread rf).args.entries[k]? = m.args.entries[k]?.map fun e =>
      if k < m.copied then e
      else (rf.log[m.args.prevLogIndex + 1 + k - rf.lastIncludeIndex]?).getD e :=
  List.getElem?_mapIdx

end Send

namespace Proc

variable {p p' : Proc n} {rf : Raft n} {m : Send n}

/-- The calls a process sets out to make in a step, marshalled at once or later. -/
def Makes (p : Proc n) (ev : Event n) (j : Fin n) (call : Call n) : Prop :=
  (ev = .startElection ∧ j ≠ p.rf.me ∧ call = .requestVote ⟨p.rf.currentTerm + 1, p.rf.me,
    p.rf.lastLogIndex, p.rf.lastLogTerm⟩ none) ∨
  (ev = .replicate j ∧ (p.rf.replicate j).2 = some call)

theorem mem_shared (h : m ∈ p.shared j) : m.server = j ∧ m.copied = 0 ∧
    (p.rf.replicate j).2 = some (.appendEntries m.args none) := by
  unfold shared at h
  split at h
  · next args reply hcall =>
    obtain ⟨_, ⟨⟩⟩ | ⟨_, ⟨⟩⟩ := Raft.replicate_unanswered hcall
    obtain rfl := List.mem_singleton.1 h
    exact ⟨rfl, rfl, hcall⟩
  · cases h

/-- Where a request on its way to the wire comes from. -/
inductive Sending (p : Proc n) (ev : Event n) (p' : Proc n) (m : Send n) : Prop
  | kept (m₀ : Send n) (hm : m₀ ∈ p.sends) (hs : m.server = m₀.server) (ha : m.args = m₀.args)
      (hc : m.copied < m.args.entries.length → m₀.copied < m₀.args.entries.length)
  | reread (m₀ : Send n) (hm : m₀ ∈ p.sends) (hw : p.writes ev = some p'.rf)
      (hlog : p'.rf.log ≠ p.rf.log) (he : m = m₀.reread p'.rf)
  | new (hev : ev = .replicate m.server) (hc : m.copied = 0)
      (hcall : (p.rf.replicate m.server).2 = some (.appendEntries m.args none))

theorem mem_sendsOn (h : m ∈ p.sendsOn rf) :
    m ∈ p.sends ∨ rf.log ≠ p.rf.log ∧ ∃ m₀ ∈ p.sends, m = m₀.reread rf := by
  unfold sendsOn at h
  split at h
  · exact .inl h
  · obtain ⟨m₀, hm, rfl⟩ := List.mem_map.1 h
    exact .inr ⟨‹_›, m₀, hm, rfl⟩

theorem mem_sendsOff (h : m ∈ p.sendsOff rf) :
    m ∈ p.sends ∧ rf.lastIncludeIndex = p.rf.lastIncludeIndex ∨ ∃ m₀ ∈ p.sends, m = m₀.settle := by
  unfold sendsOff at h
  split at h
  · exact .inl ⟨h, ‹_›⟩
  · obtain ⟨m₀, hm, rfl⟩ := List.mem_map.1 h
    exact .inr ⟨m₀, hm, rfl⟩

theorem step_sends (hs : p.step now ev = some p') (hm : m ∈ p'.sends) : p.Sending ev p' m := by
  have hkept (h : m ∈ p.sends) : p.Sending ev p' m := .kept m h rfl rfl id
  cases step_takes hs with
  | replicate server =>
    rcases List.mem_append.1 hm with hm | hm
    · exact hkept hm
    · obtain ⟨rfl, hc, hcall⟩ := mem_shared hm
      exact .new rfl hc hcall
  | copy k m₀ hk =>
    rcases List.mem_or_eq_of_mem_set hm with hm | rfl
    · exact hkept hm
    · exact .kept m₀ (List.mem_of_getElem? hk) rfl rfl (Nat.lt_of_succ_lt)
  | send k => exact hkept (List.mem_of_mem_eraseIdx hm)
  | start command =>
    rcases mem_sendsOn hm with hm | ⟨hlog, m₀, h₀, rfl⟩
    · exact hkept hm
    · exact .reread m₀ h₀ rfl hlog rfl
  | appendEntries args =>
    rcases mem_sendsOn hm with hm | ⟨hlog, m₀, h₀, rfl⟩
    · exact hkept hm
    · exact .reread m₀ h₀ rfl hlog rfl
  | snapshot index c data rf =>
    rcases mem_sendsOff hm with ⟨hm, -⟩ | ⟨m₀, h₀, rfl⟩
    · exact hkept hm
    · exact .kept m₀ h₀ rfl rfl fun h => absurd h (Nat.lt_irrefl _)
  | installSnapshot args =>
    rcases mem_sendsOff hm with ⟨hm, -⟩ | ⟨m₀, h₀, rfl⟩
    · exact hkept hm
    · exact .kept m₀ h₀ rfl rfl fun h => absurd h (Nat.lt_irrefl _)
  | readReturn c =>
    refine hkept ?_
    simp only [readReturn] at hm
    split at hm <;> exact hm
  | requestVoteReply args reply =>
    refine hkept ?_
    simp only [requestVoteReply] at hm
    split at hm
    · exact hm
    · split at hm
      · exact hm
      · split at hm
        · split at hm <;> exact hm
        · exact hm
  | _ => exact hkept hm

theorem mem_torn (h : m ∈ p.torn ev) : ∃ rf, p.writes ev = some rf ∧ rf.log ≠ p.rf.log ∧
    ∃ m₀ ∈ p.sends, m = m₀.reread rf := by
  unfold torn at h
  split at h
  · cases h
  · next rf hw =>
    split at h
    · cases h
    · next hlog =>
      rw [sendsOn, if_neg hlog] at h
      obtain ⟨m₀, hm, rfl⟩ := List.mem_map.1 h
      exact ⟨rf, hw, hlog, m₀, hm, rfl⟩

/-- The section overwrites no entry that a request has still to copy. -/
def settled (p : Proc n) (ev : Event n) : Bool :=
  match p.writes ev with
  | none => true
  | some rf => rf.log = p.rf.log ∨ ∀ m ∈ p.sends, (m.reread rf).args = m.args

theorem settled_reread (h : p.settled ev = true) (hw : p.writes ev = some rf)
    (hlog : rf.log ≠ p.rf.log) (hm : m ∈ p.sends) : (m.reread rf).args = m.args := by
  simp only [settled, hw, decide_eq_true_eq] at h
  exact h.resolve_left hlog m hm

end Proc

end LinKV

import LinKV.Raft.Election

namespace LinKV
set_option autoImplicit true

namespace Raft

theorem Stored.readPersist_image {rf blank : Raft n} (hs : rf.Stored) (hb : blank.image = .fresh)
    (hp : blank.persister = rf.persister) : blank.readPersist.image = rf.image := by
  have himg := hs.image
  unfold readPersist
  cases he : rf.persister with
  | none =>
    rw [he] at hp himg
    rw [hp]
    exact hb.trans himg
  | some e =>
    rw [he] at hp himg
    cases himg
    rw [hp]
    simp only [if_neg hs.log]
    rfl

end Raft

theorem Cluster.ReachableBy.stored {s : Cluster n} (h : s.ReachableBy ok) (i : Fin n) :
    (s.procs i).rf.Stored := by
  obtain ⟨g, hg⟩ := Cluster.ReachableBy.traced h
  exact (hg.elects.node i).stored

/-- What a node has persisted is what it holds: `readPersist` decodes its six persistent fields
from the persister, and a crash between critical sections brings them back, with nothing above
the snapshot committed or applied. -/
theorem persistent_state_stored {s s' : Cluster n} (h : s.Reachable) (i : Fin n)
    (hc : s.step (.crash i) = some s') :
    (∀ blank : Raft n, blank.image = .fresh → blank.persister = (s.procs i).rf.persister →
      blank.readPersist.image = (s.procs i).rf.image) ∧
    (s'.procs i).rf.image = (s.procs i).rf.image ∧
    (s'.procs i).rf.commitIndex = (s.procs i).rf.lastIncludeIndex ∧
    (s'.procs i).rf.lastApplied = (s.procs i).rf.lastIncludeIndex ∧
    (2 ≤ n → (s'.procs i).rf.state = .follower) := by
  have hs := Cluster.ReachableBy.stored h i
  obtain rfl : s.crash i (s.procs i).rf.persister = s' := Option.some.inj hc
  have hboot : ((s.crash i (s.procs i).rf.persister).procs i).rf
      = Raft.make i (s.procs i).rf.persister :=
    congrArg Proc.rf (assign_self s.procs i _)
  have himg := hs.make_image i
  have hli : (Raft.make i (s.procs i).rf.persister).lastIncludeIndex
      = (s.procs i).rf.lastIncludeIndex := congrArg RaftState.lastIncludeIndex himg
  obtain ⟨hcommit, happlied⟩ := Raft.make_commitIndex i (s.procs i).rf.persister
  rw [hboot]
  refine ⟨fun blank hb hp => hs.readPersist_image hb hp, himg, ?_, ?_, ?_⟩
  · rw [hcommit, hli]
  · rw [happlied, hli]
  · intro hn
    rw [Raft.make_state, if_neg (by omega)]

/-- A leader that has taken a snapshot crashes and is a follower with that snapshot again. -/
theorem persistent_state_stored_snapshot : ∃ s s' : Cluster 3, s.Reachable ∧
    s.step (.crash 0) = some s' ∧ (s.procs 0).rf.state = .leader ∧
    (s'.procs 0).rf.image = (s.procs 0).rf.image ∧ (s'.procs 0).rf.state = .follower ∧
    (s'.procs 0).rf.lastApplied = 1 := by
  have hrun : Consensus.RunsTo Cluster.step (fun _ _ => True)
      (fun s => (s.procs 0).rf.state = .leader ∧ (s.procs 0).rf.lastIncludeIndex = 1) (.init 3)
      [.act 0 .tick, .act 0 .startElection, .handle 0, .reply 0, .drop 0,
        .act 0 (.start [1]), .act 0 (.replicate 1), .act 0 (.send 0), .handle 0, .reply 0,
        .act 0 (.replicate 1), .act 0 (.send 0), .act 0 .collect, .act 0 .emit, .act 0 .receive,
        .act 0 (.finish (some [7]))] := by
    decide +kernel
  obtain ⟨s, hs, hl, hi⟩ := hrun.reachable
  obtain ⟨-, himg, -, happlied, hstate⟩ := persistent_state_stored hs 0 rfl
  exact ⟨s, _, hs, rfl, hl, himg, hstate (by decide), happlied.trans hi⟩

end LinKV

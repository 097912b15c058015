import LinKV.Raft.Disks
import LinKV.Raft.Durability

namespace LinKV
set_option autoImplicit true

open Consensus Ledger

theorem Proc.fits_alike {p q : Proc n} (h : p.plain = q.plain) : p.fits ev = q.fits ev := by
  change p.plain.fits ev = q.plain.fits ev
  rw [h]

theorem Proc.settled_alike {p q : Proc n} (h : p.plain = q.plain) :
    p.settled ev = q.settled ev := by
  change p.plain.settled ev = q.plain.settled ev
  rw [h]

theorem Cluster.Within.fits {s : Cluster n}
    (h : s.Within (fun p ev => p.fits ev = true ∧ p.settled ev = true) a) : s.Fits a := by
  refine ⟨?_, ?_⟩
  · unfold Meets
    cases he : s.event a with
    | none => trivial
    | some e => exact (h.apply (during_event he)).1
  · unfold Settled Within
    cases hd : s.during a with
    | none => trivial
    | some e => exact (h.apply hd).2

namespace DiskCluster

variable {json : ManifestJson} {codec : StateCodec n} {h : DiskCluster n} {s : Cluster n}

instance Meets.decidable {Q : Proc n → Event n → Prop} [∀ p ev, Decidable (Q p ev)]
    (h : DiskCluster n) (a : DiskAction n) : Decidable (h.Meets Q a) :=
  match a with
  | .run a => inferInstanceAs (Decidable (h.cluster.Meets Q a))
  | .cut a _ => inferInstanceAs (Decidable (h.cluster.Meets Q a))
  | .drop _ => instDecidableTrue
  | .die _ => instDecidableTrue
  | .boot _ => instDecidableTrue

theorem Refines.opens (hr : Refines json codec h s) (i : Fin n) :
    ∃ ps, (makeDiskPersister json (h.disk i)).result = .ok ps ∧
      codec.load ps = (s.procs i).rf.persister := by
  cases hi : h.up i with
  | none =>
    obtain ⟨ps, hd, hp⟩ := hr.down i hi
    rw [hd.makeDiskPersister, hp]
    exact ⟨ps, rfl, (Raft.make_persister i _).symm⟩
  | some ps =>
    obtain ⟨hd, hl⟩ := hr.up i ps hi
    rw [hd.makeDiskPersister]
    exact ⟨ps, rfl, hl⟩

end DiskCluster

/-- The cluster on its directories, where every `persist` is a series of renames that a crash can
cut off anywhere, does nothing that the cluster with an atomic `persist` cannot do: the nodes that
are up, the calls in flight and what has been handed to the state machines are those of one of its
states, and every directory opens to what the node has persisted there. -/
theorem disk_cluster_refines {h : DiskCluster n} (json : ManifestJson) (codec : StateCodec n)
    (hQ : ∀ p q ev, Proc.plain p = Proc.plain q → Q p ev → Q q ev)
    (hreach : h.ReachableBy json codec Q) :
    ∃ s : Cluster n, s.ReachableBy (Cluster.Within Q) ∧
      (∀ i, h.up i ≠ none → (h.cluster.procs i).plain = (s.procs i).plain) ∧
      h.cluster.rpcs.map Rpc.plain = s.rpcs.map Rpc.plain ∧
      h.cluster.emitted = s.emitted ∧
      ∀ i, ∃ ps, (makeDiskPersister json (h.disk i)).result = .ok ps ∧
        codec.load ps = (s.procs i).rf.persister := by
  obtain ⟨s, hs, hr⟩ := hreach.refines hQ
  exact ⟨s, hs, hr.alike.procs, hr.alike.rpcs, hr.alike.emitted, hr.opens⟩

/-- A number as so many ones and a zero. -/
def unary : Nat → Bytes
  | 0 => [0]
  | k + 1 => 1 :: unary k

/-- A list of numbers and a two. -/
def unaryRow (row : List Nat) : Bytes := row.flatMap unary ++ [2]

/-- The rows of numbers; `k` and `row` are what has been read of the current ones. -/
def unaryRows (k : Nat) (row : List Nat) : Bytes → List (List Nat)
  | [] => []
  | b :: bs =>
    if b = 0 then unaryRows 0 (row ++ [k]) bs
    else if b = 1 then unaryRows (k + 1) row bs
    else row :: unaryRows 0 [] bs

theorem unaryRows_unary (k m : Nat) (row : List Nat) (bs : Bytes) :
    unaryRows k row (unary m ++ bs) = unaryRows 0 (row ++ [k + m]) bs := by
  induction m generalizing k with
  | zero => rfl
  | succ m ih =>
    have hadd : k + (m + 1) = k + 1 + m := by omega
    rw [hadd, ← ih (k + 1)]
    rfl

theorem unaryRows_row (row row' : List Nat) (bs : Bytes) :
    unaryRows 0 row' (unaryRow row ++ bs) = (row' ++ row) :: unaryRows 0 [] bs := by
  induction row generalizing row' with
  | nil => rw [List.append_nil]; rfl
  | cons m row ih =>
    have hih := ih (row' ++ [m])
    rw [List.append_assoc, List.singleton_append] at hih
    rw [← hih]
    simp only [unaryRow, List.flatMap_cons, List.append_assoc]
    rw [unaryRows_unary, Nat.zero_add]

theorem unaryRows_rows (rows : List (List Nat)) :
    unaryRows 0 [] (rows.flatMap unaryRow) = rows := by
  induction rows with
  | nil => rfl
  | cons row rows ih =>
    rw [List.flatMap_cons, unaryRows_row, ih]
    rfl

def LogEntry.row (e : LogEntry) : List Nat := e.term :: e.index :: e.command.map UInt8.toNat

def LogEntry.ofRow : List Nat → LogEntry
  | term :: index :: command => ⟨term, command.map UInt8.ofNat, index⟩
  | _ => ⟨0, [], 0⟩

theorem LogEntry.ofRow_row (e : LogEntry) : ofRow e.row = e := by
  simp only [row, ofRow, List.map_map]
  have hid : UInt8.ofNat ∘ UInt8.toNat = id := by
    funext b
    exact UInt8.ofNat_toNat
  rw [hid, List.map_id]

def voteNumber : Option (Fin n) → Nat
  | none => 0
  | some i => i.val + 1

def voteOf (n : Nat) : Nat → Option (Fin n)
  | 0 => none
  | k + 1 => if hk : k < n then some ⟨k, hk⟩ else none

theorem voteOf_voteNumber (v : Option (Fin n)) : voteOf n (voteNumber v) = v := by
  cases v with
  | none => rfl
  | some i => simp only [voteNumber, voteOf, i.isLt, ↓reduceDIte]

def RaftState.rows (e : RaftState n) : List (List Nat) :=
  [e.currentTerm, voteNumber e.votedFor, e.lastIncludeIndex, e.lastIncludeTerm] ::
    e.log.map LogEntry.row

/-- The message in rows of numbers, in place of the protobuf encoding. -/
def unaryCodec (n : Nat) : StateCodec n where
  marshal e := e.rows.flatMap unaryRow
  unmarshal data :=
    match unaryRows 0 [] data with
    | [term, vote, index, lastTerm] :: log =>
      some ⟨term, voteOf n vote, index, lastTerm, log.map LogEntry.ofRow, []⟩
    | _ => none
  marshal_ne_nil e hnil := by
    have hrows := unaryRows_rows e.rows
    rw [hnil] at hrows
    cases hrows
  unmarshal_marshal e := by
    have hlog : (e.log.map LogEntry.row).map LogEntry.ofRow = e.log := by
      rw [List.map_map]
      exact (List.map_congr_left fun x _ => x.ofRow_row).trans (List.map_id _)
    simp only [unaryRows_rows, RaftState.rows, voteOf_voteNumber, hlog]

/-- Node 0 dies in an `AppendEntries` of term 2 that has overwritten its entry and not saved that
yet. Its own request of term 1, which was to send the entry, is in flight with the new one. -/
theorem disk_cluster_refines_cut : ∃ h : DiskCluster 3,
    h.ReachableBy twoBytes (unaryCodec 3) (fun _ _ => True) ∧ h.up 0 = none ∧
    h.cluster.rpcs.map Rpc.plain =
      [⟨0, 2, .appendEntries ⟨1, 0, 0, 0, [⟨2, [9], 1⟩], 0⟩ none, false, 0⟩] ∧
    ∃ s : Cluster 3, s.ReachableBy (Cluster.Within fun _ _ => True) ∧
      s.rpcs.map Rpc.plain =
        [⟨0, 2, .appendEntries ⟨1, 0, 0, 0, [⟨2, [9], 1⟩], 0⟩ none, false, 0⟩] ∧
      ∃ ps, (makeDiskPersister twoBytes (h.disk 0)).result = .ok ps ∧
        (unaryCodec 3).load ps = (s.procs 0).rf.persister := by
  have hrun : RunsTo (DiskCluster.step twoBytes (unaryCodec 3))
      (DiskCluster.Meets fun _ _ => True)
      (fun h => h.up 0 = none ∧ h.cluster.rpcs.map Rpc.plain =
        [⟨0, 2, .appendEntries ⟨1, 0, 0, 0, [⟨2, [9], 1⟩], 0⟩ none, false, 0⟩]) (.init 3)
      [.boot 0, .boot 1, .boot 2, .run (.act 0 .tick), .run (.act 0 .startElection),
        .run (.handle 0), .run (.reply 0), .drop 0, .run (.act 0 (.start [1])),
        .run (.act 0 (.replicate 2)), .run (.act 1 .tick), .run (.act 1 .startElection),
        .run (.handle 1), .run (.reply 1), .drop 0, .run (.act 1 (.start [9])),
        .run (.act 1 (.replicate 0)), .run (.act 1 (.send 0)), .cut (.handle 0) 3] := by
    decide +kernel
  obtain ⟨h, hreach, hup, hrpcs⟩ := hrun.reachable
  obtain ⟨s, hs, -, hr, -, hopen⟩ := disk_cluster_refines twoBytes (unaryCodec 3)
    (fun _ _ _ _ _ => trivial) hreach
  exact ⟨h, hreach, hup, hrpcs, s, hs, hr ▸ hrpcs, hopen 0⟩

/-- What a node has handed to its state machine is never lost and never contradicted: at every
moment, with any of the processes down or stopped in the middle of a save, a majority of the
directories opens to a node that holds the command, and nothing else is ever handed over at its
index. -/
theorem applied_on_majority_of_disks {h : DiskCluster n} (json : ManifestJson)
    (codec : StateCodec n)
    (hreach : h.ReachableBy json codec fun p ev => p.fits ev = true ∧ p.settled ev = true)
    (he : (i, .command k c) ∈ h.cluster.emitted) :
    (∃ Q : Finset (Fin n), Majority Q ∧ ∀ j ∈ Q, ∃ ps,
      (makeDiskPersister json (h.disk j)).result = .ok ps ∧
      (Raft.make j (codec.load ps)).Holds k c) ∧
    ∀ j c', (j, .command k c') ∈ h.cluster.emitted → c' = c := by
  obtain ⟨s, hs, hr⟩ := hreach.refines fun _ _ _ hpq hp =>
    ⟨Proc.fits_alike hpq ▸ hp.1, Proc.settled_alike hpq ▸ hp.2⟩
  obtain ⟨g, hg⟩ := Cluster.ReachableBy.traced (hs.mono fun _ _ => Cluster.Within.fits)
  have hcommits := hg.commits
  have hmatch := hg.fit_logs.matching
  rw [hr.alike.emitted] at he ⊢
  have hchosen := hcommits.emitted i k c he
  refine ⟨?_, fun j c' hj => (hcommits.emitted j k c' hj).unique hchosen hcommits.complete hmatch⟩
  obtain ⟨u, P, t, hd, hk, hP⟩ := hchosen
  have hne : P ≠ [] := by
    intro hnil
    rw [hnil] at hP
    cases hP
  obtain ⟨Q, hmaj, hall⟩ := hd.majority hne hcommits.complete
  refine ⟨Q, hmaj, fun j hj => ?_⟩
  obtain ⟨ps, hopen, hload⟩ := hr.opens j
  refine ⟨ps, hopen, ?_⟩
  -- the node that is started has the log of the one that persisted
  have himg := (Cluster.ReachableBy.stored hs j).make_image j
  have hrep : (Raft.make j (s.procs j).rf.persister).Rep (g.log j) :=
    (hg.fit_logs.node j).rep.congr (congrArg RaftState.log himg)
      (congrArg RaftState.lastIncludeIndex himg) (congrArg RaftState.lastIncludeTerm himg)
  rw [hload]
  exact hrep.holds (hall j hj) hk hP

/-- Nodes 0 and 1 are both down, node 0 after the first rename of a save, when its first command has
been handed over. -/
theorem applied_on_majority_of_disks_down : ∃ h : DiskCluster 3, h.up 0 = none ∧ h.up 1 = none ∧
    (0, .command 1 [1]) ∈ h.cluster.emitted ∧
    ∃ Q : Finset (Fin 3), Majority Q ∧ ∀ j ∈ Q, ∃ ps,
      (makeDiskPersister twoBytes (h.disk j)).result = .ok ps ∧
      (Raft.make j ((unaryCodec 3).load ps)).Holds 1 [1] := by
  have hrun : RunsTo (DiskCluster.step twoBytes (unaryCodec 3))
      (DiskCluster.Meets fun p ev => p.fits ev = true ∧ p.settled ev = true)
      (fun h => h.up 0 = none ∧ h.up 1 = none ∧ (0, .command 1 [1]) ∈ h.cluster.emitted) (.init 3)
      [.boot 0, .boot 1, .boot 2, .run (.act 0 .tick), .run (.act 0 .startElection),
        .run (.handle 0), .run (.reply 0), .drop 0, .run (.act 0 (.start [1])),
        .run (.act 0 (.replicate 1)), .run (.act 0 (.send 0)), .run (.handle 0), .run (.reply 0),
        .run (.act 0 (.replicate 1)), .run (.act 0 (.send 0)), .drop 0, .run (.act 0 .collect),
        .run (.act 0 .emit), .cut (.act 0 (.start [2])) 1, .die 1] := by
    decide +kernel
  obtain ⟨h, hreach, h0, h1, hem⟩ := hrun.reachable
  exact ⟨h, h0, h1, hem, (applied_on_majority_of_disks twoBytes (unaryCodec 3) hreach hem).1⟩

end LinKV

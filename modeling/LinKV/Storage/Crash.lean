import LinKV.Storage.Disk

namespace LinKV
set_option autoImplicit true

open Durable

def DiskPersister.pair (ps : DiskPersister) : Bytes × Bytes := (ps.readRaftState, ps.readSnapshot)

inductive Stage where
  | down
  | opening (plan : Plan)
  | up (ps : DiskPersister)
  | saving (plan : Plan) (pair : Bytes × Bytes)

/-- A directory and the process that works on it. `completed` is the pair of the last `Save` that
returned, or the one the process was started with; `interrupted` is the pair of a `Save` whose
manifest is in place and which has not returned. Neither is read by a step. -/
structure Host where
  disk : Disk
  stage : Stage
  completed : Bytes × Bytes
  interrupted : Option (Bytes × Bytes)

/-- A process is started, renames the next file of the call it is in, returns from it, calls
`Save`, or dies. -/
inductive HostEvent where
  | start
  | rename
  | done
  | save (raftstate snapshot : Bytes)
  | crash

namespace Host

def init (d : Disk) (pair : Bytes × Bytes) : Host := ⟨d, .down, pair, none⟩

def step (json : ManifestJson) (s : Host) : HostEvent → Option Host
  | .start =>
    match s.stage with
    | .down => some { s with stage := .opening (makeDiskPersister json s.disk) }
    | _ => none
  | .rename =>
    match s.stage with
    | .opening ⟨w :: ws, res⟩ =>
      some { s with disk := s.disk.write w, stage := .opening ⟨ws, res⟩ }
    | .saving ⟨w :: ws, res⟩ pair => some { s with
        disk := s.disk.write w
        stage := .saving ⟨ws, res⟩ pair
        interrupted := if w.1 = .manifest then some pair else s.interrupted }
    | _ => none
  | .done =>
    match s.stage with
    | .opening ⟨[], .ok ps⟩ => some { s with
        stage := .up ps
        completed := s.interrupted.getD s.completed
        interrupted := none }
    | .saving ⟨[], .ok ps⟩ pair => some { s with
        stage := .up ps
        completed := pair
        interrupted := none }
    -- `MakeDiskPersister` returns an error, `Save` panics
    | .opening ⟨[], .error _⟩ | .saving ⟨[], .error _⟩ _ => some { s with stage := .down }
    | _ => none
  | .save raftstate snapshot =>
    match s.stage with
    | .up ps =>
      some { s with stage := .saving (ps.save json raftstate snapshot) (raftstate, snapshot) }
    | _ => none
  | .crash => some { s with stage := .down }

end Host

/-- The legacy file decodes to the pair, and no manifest has replaced it. -/
def Legacy (pair : Bytes × Bytes) (d : Disk) : Prop :=
  d .manifest = none ∧ ∃ data, d .legacy = some data ∧ decodePersistFile data = .ok pair

/-- A directory no process has finished opening: there is no manifest, and either no legacy file
or one that holds the pair. -/
def Unopened (d : Disk) (pair : Bytes × Bytes) : Prop :=
  (d .manifest = none ∧ d .legacy = none ∧ pair = ([], [])) ∨ Legacy pair d

/-- The manifest in place names the slots of `ps`, and they hold its bytes. -/
structure Published (json : ManifestJson) (ps : DiskPersister) (d : Disk) : Prop where
  valid : validateManifest ps.manifest = .ok ()
  manifest : d .manifest = some (json.marshal ps.manifest)
  wal : d (.wal ps.raftSlot) = some (encodeSegment ps.raftstate)
  snapshot : if ps.snapshotSlot = noSnapshotSlot then ps.snapshot = []
    else d (.snapshot ps.snapshotSlot) = some (encodeFile ps.snapshot)

/-- A running persister and its directory: what it would find there is what it has. -/
def Holds (json : ManifestJson) (ps : DiskPersister) (d : Disk) : Prop :=
  Published json ps d ∨
    (ps = ⟨0, noSnapshotSlot, [], []⟩ ∧ d .manifest = none ∧ d .legacy = none)

/-- The pair is there for a process that opens the directory. -/
def Recoverable (json : ManifestJson) (d : Disk) (pair : Bytes × Bytes) : Prop :=
  (∃ ps, Holds json ps d ∧ ps.pair = pair) ∨ Legacy pair d

section

variable {json : ManifestJson} {ps : DiskPersister} {d d' : Disk} {pair : Bytes × Bytes}

theorem Published.makeDiskPersister (h : Published json ps d) :
    makeDiskPersister json d = ⟨[], .ok ps⟩ := by
  have hm : loadManifest json d = .ok (some ps.manifest) := by
    simp only [loadManifest, h.manifest, json.unmarshal_marshal _ h.valid, h.valid, Except.map]
  have hw : WAL.loadSlot d ps.raftSlot = .ok ps.raftstate := by
    simp only [WAL.loadSlot, h.wal, decodeSegment_encodeSegment, Except.mapError]
  have hs : loadSnapshot d ps.snapshotSlot = .ok ps.snapshot := by
    have hsnap := h.snapshot
    by_cases hslot : ps.snapshotSlot = noSnapshotSlot
    · rw [if_pos hslot] at hsnap
      rw [loadSnapshot, if_neg (not_not.mpr hslot), hsnap]
    · rw [if_neg hslot] at hsnap
      rw [loadSnapshot, if_pos hslot]
      simp only [SnapshotStore.loadSlot, hsnap, decodeFile_encodeFile, Except.mapError]
  simp only [LinKV.makeDiskPersister, hm, loadSlots, DiskPersister.manifest, hw, hs]
  rfl

theorem Holds.makeDiskPersister (h : Holds json ps d) :
    makeDiskPersister json d = ⟨[], .ok ps⟩ := by
  rcases h with h | ⟨rfl, hm, hl⟩
  · exact h.makeDiskPersister
  · simp only [LinKV.makeDiskPersister, loadManifest, hm, migrateLegacyFile, hl]

theorem nextSlot_ne (slot : Int) : nextSlot slot ≠ slot := by
  unfold nextSlot
  split <;> omega

theorem nextSlot_bounds (slot : Int) : 0 ≤ nextSlot slot ∧ nextSlot slot < 2 := by
  unfold nextSlot
  split <;> omega

theorem validateManifest_iff (m : SlotManifest) : validateManifest m = .ok () ↔
    (0 ≤ m.raftSlot ∧ m.raftSlot < 2) ∧
      (m.snapshotSlot = noSnapshotSlot ∨ (0 ≤ m.snapshotSlot ∧ m.snapshotSlot < 2)) := by
  unfold validateManifest
  split
  · simp only [reduceCtorEq, false_iff]
    omega
  · split
    · simp only [reduceCtorEq, false_iff]
      omega
    · simp only [true_iff]
      omega

theorem Holds.slots (h : Holds json ps d) : (0 ≤ ps.raftSlot ∧ ps.raftSlot < 2) ∧
    (ps.snapshotSlot = noSnapshotSlot ∨ (0 ≤ ps.snapshotSlot ∧ ps.snapshotSlot < 2)) := by
  rcases h with h | ⟨rfl, -, -⟩
  · exact (validateManifest_iff _).mp h.valid
  · exact ⟨by decide, .inl rfl⟩

theorem Holds.spared (h : Holds json ps d) (hd : Spares ws d d')
    (hw : ∀ w ∈ ws, (∃ slot, w.1 = .wal slot ∧ slot ≠ ps.raftSlot) ∨
      ∃ slot, w.1 = .snapshot slot ∧ slot ≠ ps.snapshotSlot) : Holds json ps d' := by
  have hm : d' .manifest = d .manifest := by
    refine hd _ fun w hm hc => ?_
    rcases hw w hm with ⟨slot, he, -⟩ | ⟨slot, he, -⟩ <;> cases hc.trans he
  have hl : d' .legacy = d .legacy := by
    refine hd _ fun w hm hc => ?_
    rcases hw w hm with ⟨slot, he, -⟩ | ⟨slot, he, -⟩ <;> cases hc.trans he
  have hwal : d' (.wal ps.raftSlot) = d (.wal ps.raftSlot) := by
    refine hd _ fun w hm hc => ?_
    rcases hw w hm with ⟨slot, he, hne⟩ | ⟨slot, he, -⟩
    · exact hne (Path.wal.inj (hc.trans he)).symm
    · cases hc.trans he
  have hsnap : d' (.snapshot ps.snapshotSlot) = d (.snapshot ps.snapshotSlot) := by
    refine hd _ fun w hm hc => ?_
    rcases hw w hm with ⟨slot, he, -⟩ | ⟨slot, he, hne⟩
    · cases hc.trans he
    · exact hne (Path.snapshot.inj (hc.trans he)).symm
  rcases h with h | ⟨rfl, hnone, hleg⟩
  · exact .inl ⟨h.valid, hm ▸ h.manifest, hwal ▸ h.wal, hsnap ▸ h.snapshot⟩
  · exact .inr ⟨rfl, hm ▸ hnone, hl ▸ hleg⟩

/-- `publish` makes `ps` current at the manifest rename, whatever `old` says of the directory
before, as long as it does not read the slots being filled. -/
theorem publish_commit (json : ManifestJson) (snapshotWrites : List (Write Path Bytes))
    (ps : DiskPersister) {old : Disk → Prop}
    (hv : validateManifest ps.manifest = .ok ())
    (hw : ∀ w ∈ snapshotWrites, ∃ slot, w.1 = .snapshot slot)
    (hold : ∀ d', Spares (snapshotWrites ++ [WAL.saveSlot ps.raftSlot ps.raftstate]) d d' → old d')
    (hsnap : if ps.snapshotSlot = noSnapshotSlot then ps.snapshot = []
      else (d.writes snapshotWrites) (.snapshot ps.snapshotSlot) = some (encodeFile ps.snapshot)) :
    (publish json snapshotWrites ps).result = .ok ps ∧
      Commit .manifest old (Holds json ps) d (publish json snapshotWrites ps).writes := by
  have hsave : saveManifest json ps.manifest = .ok (.manifest, json.marshal ps.manifest) := by
    simp only [saveManifest, hv, Except.map]
  simp only [publish, hsave, true_and]
  apply Commit.shadow
  · intro w hmem
    rcases List.mem_append.mp hmem with hmem | hmem
    · obtain ⟨slot, he⟩ := hw w hmem
      rw [he]
      exact fun hc => nomatch hc
    · rw [List.mem_singleton.mp hmem]
      exact fun hc => nomatch hc
  · exact hold
  · rw [Files.writes_concat]
    have hwal (w : Write Path Bytes) (hm : w.1 = .manifest) (slot : Int) (f : Disk) :
        (f.write w) (.wal slot) = f (.wal slot) :=
      Files.write_ne _ (hm ▸ fun hc => nomatch hc)
    have hfile (slot : Int) :
        (((d.writes snapshotWrites).write (WAL.saveSlot ps.raftSlot ps.raftstate)).write
          (.manifest, json.marshal ps.manifest)) (.snapshot slot)
          = d.writes snapshotWrites (.snapshot slot) := by
      rw [Files.write_ne, Files.write_ne] <;> exact fun hc => nomatch hc
    refine .inl ⟨hv, Files.write_self _ _ _, ?_, ?_⟩
    · rw [hwal _ rfl]
      exact Files.write_self _ _ _
    · rw [hfile]
      exact hsnap

theorem Holds.publish (h : Holds json ps d) (raftstate snapshot : Bytes)
    (sw : List (Write Path Bytes)) (hslot : slot = noSnapshotSlot ∨ (0 ≤ slot ∧ slot < 2))
    (hsw : ∀ w ∈ sw, ∃ slot, w.1 = .snapshot slot ∧ slot ≠ ps.snapshotSlot)
    (hsnap : if slot = noSnapshotSlot then snapshot = []
      else (d.writes sw) (.snapshot slot) = some (encodeFile snapshot)) :
    ∃ ps', (publish json sw ⟨nextSlot ps.raftSlot, slot, raftstate, snapshot⟩).result = .ok ps' ∧
      ps'.pair = (raftstate, snapshot) ∧ Commit .manifest (Holds json ps) (Holds json ps') d
        (publish json sw ⟨nextSlot ps.raftSlot, slot, raftstate, snapshot⟩).writes := by
  have hv : validateManifest ⟨nextSlot ps.raftSlot, slot⟩ = .ok () :=
    (validateManifest_iff _).mpr ⟨nextSlot_bounds _, hslot⟩
  have hold (d' : Disk) (hd : Spares (sw ++ [WAL.saveSlot (nextSlot ps.raftSlot) raftstate]) d d') :
      Holds json ps d' := by
    apply h.spared hd
    intro w hw
    rcases List.mem_append.mp hw with hw | hw
    · exact .inr (hsw w hw)
    · rw [List.mem_singleton.mp hw]
      exact .inl ⟨_, rfl, nextSlot_ne _⟩
  obtain ⟨hres, hc⟩ := publish_commit json sw ⟨nextSlot ps.raftSlot, slot, raftstate, snapshot⟩
    hv (fun w hw => (hsw w hw).imp fun _ he => he.1) hold hsnap
  exact ⟨_, hres, rfl, hc⟩

/-- `Save` leaves what is current alone until it renames the manifest. -/
theorem Holds.save (h : Holds json ps d) (raftstate snapshot : Bytes) :
    ∃ ps', (ps.save json raftstate snapshot).result = .ok ps' ∧ ps'.pair = (raftstate, snapshot) ∧
      Commit .manifest (Holds json ps) (Holds json ps') d
        (ps.save json raftstate snapshot).writes := by
  unfold DiskPersister.save
  dsimp only
  split
  · rename_i hempty
    apply h.publish raftstate snapshot [] (.inl rfl) (fun _ hw => nomatch hw)
    rw [if_pos rfl, hempty]
  · split
    · -- a changed snapshot goes to the slot that is not in use
      have hb := nextSlot_bounds ps.snapshotSlot
      apply h.publish raftstate snapshot [_] (.inr hb)
      · intro w hw
        rw [List.mem_singleton.mp hw]
        exact ⟨_, rfl, nextSlot_ne _⟩
      · have hne : nextSlot ps.snapshotSlot ≠ noSnapshotSlot := by
          unfold noSnapshotSlot
          omega
        rw [if_neg hne]
        exact Files.write_self _ _ _
    · -- an unchanged one stays where the current manifest has it
      rename_i hsame
      obtain ⟨hslot, hs⟩ := not_or.mp hsame
      obtain rfl := not_not.mp hs
      apply h.publish raftstate ps.snapshot [] h.slots.2 (fun _ hw => nomatch hw)
      rcases h with h | ⟨rfl, -, -⟩
      · exact h.snapshot
      · exact (hslot rfl).elim

/-- `migrateLegacyFile` can be started over until it renames the manifest. -/
theorem Legacy.migrate (h : Legacy pair d) (json : ManifestJson) :
    ∃ ps, (makeDiskPersister json d).result = .ok ps ∧ ps.pair = pair ∧
      Commit .manifest (Legacy pair) (Holds json ps) d (makeDiskPersister json d).writes := by
  obtain ⟨hm, data, hl, hdec⟩ := h
  obtain ⟨raftstate, snapshot⟩ := pair
  have hold (sw : List (Write Path Bytes)) (hsw : ∀ w ∈ sw, ∃ slot, w.1 = .snapshot slot)
      (d' : Disk) (hd : Spares (sw ++ [WAL.saveSlot 0 raftstate]) d d') :
      Legacy (raftstate, snapshot) d' := by
    have hsame (p : Path) (hp : p = .manifest ∨ p = .legacy) : d' p = d p := by
      apply hd
      intro w hw hc
      rcases List.mem_append.mp hw with hw | hw
      · obtain ⟨slot, he⟩ := hsw w hw
        rcases hp with rfl | rfl <;> cases hc.trans he
      · rw [List.mem_singleton.mp hw] at hc
        rcases hp with rfl | rfl <;> cases hc
    exact ⟨(hsame _ (.inl rfl)).trans hm, data, (hsame _ (.inr rfl)).trans hl, hdec⟩
  have hopen : makeDiskPersister json d = if snapshot = [] then
        publish json [] ⟨0, noSnapshotSlot, raftstate, snapshot⟩
      else publish json [SnapshotStore.saveSlot 0 snapshot] ⟨0, 0, raftstate, snapshot⟩ := by
    simp only [makeDiskPersister, loadManifest, hm, migrateLegacyFile, hl, hdec]
  rw [hopen]
  split
  · rename_i hempty
    obtain ⟨hres, hc⟩ := publish_commit json [] ⟨0, noSnapshotSlot, raftstate, snapshot⟩
      (by rfl) (fun _ hw => nomatch hw) (hold [] fun _ hw => nomatch hw)
      ((if_pos rfl).mpr hempty)
    exact ⟨_, hres, rfl, hc⟩
  · have hsw : ∀ w ∈ [SnapshotStore.saveSlot 0 snapshot], ∃ slot, w.1 = Path.snapshot slot := by
      intro w hw
      exact ⟨0, by rw [List.mem_singleton.mp hw]; rfl⟩
    have hfile : (d.writes [SnapshotStore.saveSlot 0 snapshot]) (.snapshot 0)
        = some (encodeFile snapshot) :=
      Files.write_self d (.snapshot 0) (encodeFile snapshot)
    obtain ⟨hres, hc⟩ := publish_commit json [SnapshotStore.saveSlot 0 snapshot]
      ⟨0, 0, raftstate, snapshot⟩ (by rfl) hsw (hold _ hsw) hfile
    exact ⟨_, hres, rfl, hc⟩

/-- `MakeDiskPersister` finds the pair, and either has nothing to write or commits a migration. -/
theorem Recoverable.opens (h : Recoverable json d pair) :
    ∃ ps, (makeDiskPersister json d).result = .ok ps ∧ ps.pair = pair ∧
      (((makeDiskPersister json d).writes = [] ∧ Holds json ps d) ∨
        Commit .manifest (Legacy pair) (Holds json ps) d (makeDiskPersister json d).writes) := by
  rcases h with ⟨ps, h, rfl⟩ | h
  · exact ⟨ps, by rw [h.makeDiskPersister], rfl, .inl ⟨by rw [h.makeDiskPersister], h⟩⟩
  · obtain ⟨ps, hres, hp, hc⟩ := h.migrate json
    exact ⟨ps, hres, hp, .inr hc⟩

/-- What the stage of the process says about its directory. -/
def Host.Sound (json : ManifestJson) (s : Host) : Prop :=
  match s.stage with
  | .down => Recoverable json s.disk (s.interrupted.getD s.completed)
  | .opening plan => ∃ ps, plan.result = .ok ps ∧ ps.pair = s.interrupted.getD s.completed ∧
      ((plan.writes = [] ∧ Holds json ps s.disk) ∨ Commit .manifest
        (Legacy (s.interrupted.getD s.completed)) (Holds json ps) s.disk plan.writes)
  | .up ps => s.interrupted = none ∧ ps.pair = s.completed ∧ Holds json ps s.disk
  | .saving plan pair => ∃ ps', plan.result = .ok ps' ∧ ps'.pair = pair ∧
      ((plan.writes = [] ∧ s.interrupted = some pair ∧ Holds json ps' s.disk) ∨
        ∃ ps, s.interrupted = none ∧ ps.pair = s.completed ∧
          Commit .manifest (Holds json ps) (Holds json ps') s.disk plan.writes)

theorem Host.Sound.recoverable (h : Sound json s) :
    Recoverable json s.disk (s.interrupted.getD s.completed) := by
  obtain ⟨d, stage, completed, interrupted⟩ := s
  cases stage with
  | down => exact h
  | opening plan =>
    obtain ⟨ps, -, hp, ⟨-, hh⟩ | hc⟩ := h
    · exact .inl ⟨ps, hh, hp⟩
    · exact .inr hc.before
  | up ps =>
    obtain ⟨rfl, hp, hh⟩ := h
    exact .inl ⟨ps, hh, hp⟩
  | saving plan pair =>
    obtain ⟨ps', -, hp', ⟨-, rfl, hh⟩ | ⟨ps, rfl, hp, hc⟩⟩ := h
    · exact .inl ⟨ps', hh, hp'⟩
    · exact .inl ⟨ps, hc.before, hp⟩

theorem Host.Sound.rename (h : Sound json s) (hs : s.step json .rename = some s') :
    Sound json s' := by
  obtain ⟨d, stage, completed, interrupted⟩ := s
  simp only [Host.step] at hs
  split at hs
  · -- a migration: the legacy file is what counts until the manifest is there
    obtain rfl := Option.some.inj hs
    rename_i w ws res
    obtain ⟨ps, hres, hp, ⟨he, -⟩ | hc⟩ := h
    · cases he
    · rcases hc.write with ⟨-, hnil, hh⟩ | ⟨-, hc⟩
      · exact ⟨ps, hres, hp, .inl ⟨hnil, hh⟩⟩
      · exact ⟨ps, hres, hp, .inr hc⟩
  · obtain rfl := Option.some.inj hs
    rename_i w ws res pair
    obtain ⟨ps', hres, hp', ⟨he, -⟩ | ⟨ps, rfl, hp, hc⟩⟩ := h
    · cases he
    · rcases hc.write with ⟨hm, hnil, hh⟩ | ⟨hm, hc⟩
      · exact ⟨ps', hres, hp', .inl ⟨hnil, if_pos hm, hh⟩⟩
      · exact ⟨ps', hres, hp', .inr ⟨ps, if_neg hm, hp, hc⟩⟩
  · cases hs

theorem Host.Sound.done (h : Sound json s) (hs : s.step json .done = some s') :
    Sound json s' := by
  obtain ⟨d, stage, completed, interrupted⟩ := s
  simp only [Host.step] at hs
  split at hs
  · obtain rfl := Option.some.inj hs
    obtain ⟨ps, ⟨⟩, hp, ⟨-, hh⟩ | hc⟩ := h
    · exact ⟨rfl, hp, hh⟩
    · cases hc
  · obtain rfl := Option.some.inj hs
    obtain ⟨ps', ⟨⟩, hp', ⟨-, -, hh⟩ | ⟨ps, -, -, hc⟩⟩ := h
    · exact ⟨rfl, hp', hh⟩
    · cases hc
  · obtain ⟨ps, ⟨⟩, -⟩ := h
  · obtain ⟨ps', ⟨⟩, -⟩ := h
  · cases hs

theorem Host.Sound.step (h : Sound json s) (hs : s.step json ev = some s') : Sound json s' := by
  cases ev with
  | start =>
    obtain ⟨d, stage, completed, interrupted⟩ := s
    cases stage with
    | down =>
      obtain rfl := Option.some.inj hs
      exact Recoverable.opens h
    | _ => cases hs
  | rename => exact h.rename hs
  | done => exact h.done hs
  | save raftstate snapshot =>
    obtain ⟨d, stage, completed, interrupted⟩ := s
    cases stage with
    | up ps =>
      obtain rfl := Option.some.inj hs
      obtain ⟨rfl, hp, hh⟩ := h
      obtain ⟨ps', hres, hp', hc⟩ := hh.save raftstate snapshot
      exact ⟨ps', hres, hp', .inr ⟨ps, rfl, hp, hc⟩⟩
    | _ => cases hs
  | crash =>
    obtain rfl := Option.some.inj hs
    exact h.recoverable

/-- A process started on the directory finds the pair of the last `Save` that returned, or of the
one that a crash caught with its manifest in place: never parts of two. -/
theorem save_crash_atomic (json : ManifestJson) (h₀ : Unopened d pair)
    (h : Consensus.ReachableBy (Host.step json) (fun _ _ => True) (.init d pair) s) :
    ∃ ps, (makeDiskPersister json s.disk).result = .ok ps ∧
      (ps.readRaftState, ps.readSnapshot) = s.interrupted.getD s.completed := by
  have hsound : s.Sound json := by
    induction h with
    | init =>
      rcases h₀ with ⟨hm, hl, rfl⟩ | h₀
      · exact .inl ⟨_, .inr ⟨rfl, hm, hl⟩, rfl⟩
      · exact .inr h₀
    | step _ _ hs ih => exact ih.step hs
  obtain ⟨ps, hres, hp, -⟩ := hsound.recoverable.opens
  exact ⟨ps, hres, hp⟩

/-- A manifest in two bytes, in place of the JSON text. -/
def twoBytes : ManifestJson where
  marshal m := [UInt8.ofNat m.raftSlot.toNat, UInt8.ofNat (m.snapshotSlot + 1).toNat]
  unmarshal
    | [a, b] => some ⟨a.toNat, b.toNat - 1⟩
    | _ => none
  unmarshal_marshal := by
    rintro ⟨r, s⟩ h
    obtain ⟨hr, hs⟩ := (validateManifest_iff _).mp h
    simp only [noSnapshotSlot] at hr hs
    obtain rfl | rfl : r = 0 ∨ r = 1 := by omega
    all_goals
      obtain rfl | rfl | rfl : s = -1 ∨ s = 0 ∨ s = 1 := by omega
      all_goals rfl

/-- A directory with a legacy file for the pair `([1], [2])`. -/
def legacyDisk : Disk :=
  Files.write (fun _ => none) (.legacy, diskMagic ++ putUint64 1 ++ putUint64 1 ++ [1, 2])

/-- The legacy file is migrated, one `Save` returns, the next is caught after its manifest. -/
theorem save_crash_atomic_interrupted : ∃ s : Host,
    Consensus.ReachableBy (Host.step twoBytes) (fun _ _ => True) (.init legacyDisk ([1], [2])) s ∧
    s.completed = ([3], [2]) ∧
    ∃ ps, (makeDiskPersister twoBytes s.disk).result = .ok ps ∧
      (ps.readRaftState, ps.readSnapshot) = ([4], [5]) := by
  have hrun : Consensus.RunsTo (Host.step twoBytes) (fun _ _ => True)
      (fun s => s.completed = ([3], [2]) ∧ s.interrupted = some ([4], [5]))
      (.init legacyDisk ([1], [2]))
      [.start, .rename, .rename, .rename, .done, .save [3] [2], .rename, .rename, .done,
        .save [4] [5], .rename, .rename, .rename, .crash] := by
    decide +kernel
  have h₀ : Unopened legacyDisk ([1], [2]) := .inr ⟨rfl, _, rfl, by decide⟩
  obtain ⟨s, hs, hc, hi⟩ := hrun.reachable
  obtain ⟨ps, hres, hp⟩ := save_crash_atomic twoBytes h₀ hs
  exact ⟨s, hs, hc, ps, hres, by rw [hp, hi, Option.getD_some]⟩

end

end LinKV

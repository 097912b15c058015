import LinKV.Calls.Crash
import LinKV.LinDB.Equivalence

namespace LinKV
set_option autoImplicit true

open Calls

/-- What holds of a backend wherever a request has been cut off. -/
structure MemoryBackend.Sound (b : MemoryBackend) : Prop extends b.Indexed where
  increasing : ∀ key, Increasing (b.versions key)
  bound : ∀ key, ∀ v ∈ b.versions key, v.rev.main ≤ b.currentRev
  keys : ∀ key, b.versions key ≠ [] → validUTF8 key = true
  dated : Dated b.events
  recorded : ∀ ev ∈ b.events, ev.rev.main ≤ b.currentRev ∧ validUTF8 ev.key = true
  compact_nonneg : 0 ≤ b.compactRev
  compact_le : b.compactRev ≤ b.currentRev
  fits : b.currentRev < 2 ^ 63

abbrev Entry := Int × Mutation

/-- The versions of a key that the entries add. -/
def stamped (entries : List Entry) (key : Bytes) : List ValueRevision :=
  (entries.filter fun e => e.2.1 = key).map fun e => stampVersion (e.1, e.2.2)

/-- The backend `b` with entries added after its revision. -/
structure Grown (b : MemoryBackend) (entries : List Entry) (b' : MemoryBackend) : Prop where
  sound : b'.Sound
  current_le : b.currentRev ≤ b'.currentRev
  compactRev : b'.compactRev = b.compactRev
  later : ∀ e ∈ entries, b.currentRev < e.1
  versions : ∀ key, b'.versions key = b.versions key ++ stamped entries key

/-- A request that performs the mutations has come to some point: a few of them are done. -/
def Torn (b : MemoryBackend) (ms : List Mutation) (b' : MemoryBackend) : Prop :=
  ∃ entries : List Entry, entries.map Prod.snd <+: ms ∧ Grown b entries b'

def Written (b : MemoryBackend) (ms : List Mutation) (b' : MemoryBackend) : Prop :=
  b'.currentRev = b.currentRev + ms.length ∧
    ∃ entries : List Entry, entries.map Prod.snd = ms ∧ Grown b entries b'

/-- The program performs the mutations, and ends with a result as in `post`. -/
abbrev Writes (b : MemoryBackend) (p : BackendProgram α) (ms : List Mutation) (post : α → Prop) :
    Prop :=
  Withstands MemoryBackend.answer MemoryBackend.Legal (Torn b ms)
    (fun a b' => Written b ms b' ∧ post a) b p

/-- A compaction has come to some point: versions are gone, but never the last of a key. -/
structure Shrunk (b b' : MemoryBackend) : Prop where
  sound : b'.Sound
  currentRev : b'.currentRev = b.currentRev
  last : ∀ key, (b'.versions key).getLast? = (b.versions key).getLast?

section

variable {b b' b'' : MemoryBackend} {key value : Bytes} {revisions : List ValueRevision}
  {entries entries' : List Entry} {ms ms' : List Mutation} {rev : Int} {h : List Mutation}
  {ev : MvccEvent} {v : Option Bytes} {deleted : Bool} {keys : List Bytes} {post : α → Prop}
  {p : BackendProgram α}

namespace MemoryBackend

theorem Sound.setCurrentRev (hb : b.Sound) (hle : b.currentRev ≤ rev) (hfit : rev < 2 ^ 63) :
    Sound { b with currentRev := rev } where
  sorted := hb.sorted
  mem := hb.mem
  increasing := hb.increasing
  bound key v hv := Int.le_trans (hb.bound key v hv) hle
  keys := hb.keys
  dated := hb.dated
  recorded ev hev := ⟨Int.le_trans (hb.recorded ev hev).1 hle, (hb.recorded ev hev).2⟩
  compact_nonneg := hb.compact_nonneg
  compact_le := Int.le_trans hb.compact_le hle
  fits := hfit

theorem Sound.setRevisions (hb : b.Sound) (hk : validUTF8 key = true) (hne : revisions ≠ [])
    (hinc : Increasing revisions) (hle : ∀ v ∈ revisions, v.rev.main ≤ b.currentRev) :
    (b.setRevisions key revisions).Sound := by
  obtain ⟨hev, hcur, hcomp⟩ := setRevisions_frame b key revisions hne
  refine ⟨hb.toIndexed.setRevisions hne, ?_, ?_, ?_, ?_, ?_, ?_, ?_, ?_⟩
  · intro k
    rw [versions_setRevisions hne]
    split
    · exact hinc
    · exact hb.increasing k
  · intro k v hv
    rw [versions_setRevisions hne] at hv
    rw [hcur]
    split at hv
    · exact hle v hv
    · exact hb.bound k v hv
  · intro k hv
    rw [versions_setRevisions hne] at hv
    split at hv
    · rename_i hkk
      rw [hkk]
      exact hk
    · exact hb.keys k hv
  · rw [hev]
    exact hb.dated
  · rw [hev, hcur]
    exact hb.recorded
  · rw [hcomp]
    exact hb.compact_nonneg
  · rw [hcomp, hcur]
    exact hb.compact_le
  · rw [hcur]
    exact hb.fits

theorem Sound.appendEvent (hb : b.Sound) (hd : Dated (b.events ++ [ev]))
    (hle : ev.rev.main ≤ b.currentRev) (hk : validUTF8 ev.key = true) :
    (b.appendEvent ev).Sound where
  sorted := hb.sorted
  mem := hb.mem
  increasing := hb.increasing
  bound := hb.bound
  keys := hb.keys
  dated := hd
  recorded := by
    intro e he
    rcases List.mem_append.1 he with he | he
    · exact hb.recorded e he
    · rw [List.mem_singleton.1 he]
      exact ⟨hle, hk⟩
  compact_nonneg := hb.compact_nonneg
  compact_le := hb.compact_le
  fits := hb.fits

theorem Sound.concat (hb : b.Sound) (key value : Bytes) (deleted : Bool) :
    b.versions key ++ [⟨⟨b.currentRev + 1, 0⟩, value, deleted⟩] ≠ [] ∧
      Increasing (b.versions key ++ [⟨⟨b.currentRev + 1, 0⟩, value, deleted⟩]) := by
  refine ⟨List.append_ne_nil_of_right_ne_nil _ (List.cons_ne_nil _ _), ?_⟩
  rw [Increasing, List.pairwise_append]
  refine ⟨hb.increasing key, List.pairwise_singleton _ _, fun v hv w hw => ?_⟩
  rw [List.mem_singleton.1 hw]
  exact Int.lt_add_one_of_le (hb.bound key v hv)

theorem Sound.current_nonneg (hb : b.Sound) : 0 ≤ b.currentRev :=
  Int.le_trans hb.compact_nonneg hb.compact_le

theorem Compacted.sound (hc : b.Compacted b' rev keys) (hb : b.Sound) : b'.Sound := by
  have hsuffix (k : Bytes) : b'.versions k <:+ b.versions k := by
    rw [hc.versions]
    split
    · exact Versioned.retain_suffix _ _
    · exact List.suffix_rfl
  have hnil (k : Bytes) : b'.versions k = [] ↔ b.versions k = [] := by
    rw [hc.versions]
    split
    · exact Versioned.retain_eq_nil
    · exact Iff.rfl
  refine ⟨⟨hc.sortedKeys ▸ hb.sorted, fun k => ?_⟩, hc.increasing hb.increasing, ?_, ?_, ?_, ?_, ?_,
    ?_, ?_⟩
  · rw [hc.sortedKeys, hb.mem, MemoryBackend.mem_data_iff, MemoryBackend.mem_data_iff, ne_eq,
      ne_eq, hnil]
  · intro k v hv
    rw [hc.currentRev]
    exact hb.bound k v ((hsuffix k).subset hv)
  · intro k hne
    exact hb.keys k (mt (hnil k).2 hne)
  · rw [hc.events]
    exact hb.dated
  · rw [hc.events, hc.currentRev]
    exact hb.recorded
  · rw [hc.compactRev]
    exact hb.compact_nonneg
  · rw [hc.compactRev, hc.currentRev]
    exact hb.compact_le
  · rw [hc.currentRev]
    exact hb.fits

end MemoryBackend

theorem Shrunk.refl (hb : b.Sound) : Shrunk b b := ⟨hb, rfl, fun _ => rfl⟩

theorem Shrunk.compacted (hs : Shrunk b b') (hc : b'.Compacted b'' rev keys) : Shrunk b b'' := by
  refine ⟨hc.sound hs.sound, hc.currentRev.trans hs.currentRev, fun k => ?_⟩
  rw [hc.versions]
  split
  · rw [Versioned.getLast?_retain, hs.last]
  · exact hs.last k

theorem Shrunk.filterEvents (hs : Shrunk b b') (keep : MvccEvent → Bool) :
    Shrunk b { b' with events := b'.events.filter keep } where
  sound := { hs.sound with
    dated := hs.sound.dated.filter keep
    recorded := fun ev hev => hs.sound.recorded ev (List.mem_filter.1 hev).1 }
  currentRev := hs.currentRev
  last := hs.last

theorem Shrunk.setCompactRev (hs : Shrunk b b') (hlo : 0 ≤ rev) (hhi : rev ≤ b'.currentRev) :
    Shrunk b { b' with compactRev := rev } where
  sound := { hs.sound with compact_nonneg := hlo, compact_le := hhi }
  currentRev := hs.currentRev
  last := hs.last

theorem Represents.sound (hr : Represents h b) (hv : ∀ m ∈ h, validUTF8 m.1 = true)
    (hfit : b.currentRev < 2 ^ 63) : b.Sound where
  toIndexed := hr.toIndexed
  increasing := hr.increasing
  bound _ _ hmem := (hr.bounds hmem).2
  keys _ hne := StoreFront.valid_of_mem_data hr hv (MemoryBackend.mem_data_iff.2 hne)
  dated := hr.dated
  recorded _ hmem := ⟨hr.recorded.le_currentRev hmem, StoreFront.valid_of_mem_events hr hv hmem⟩
  compact_nonneg := hr.compact_nonneg
  compact_le := hr.compact_le
  fits := hfit

theorem stamped_append (entries entries' : List Entry) (key : Bytes) :
    stamped (entries ++ entries') key = stamped entries key ++ stamped entries' key := by
  rw [stamped, List.filter_append, List.map_append]
  rfl

theorem Grown.refl (hb : b.Sound) : Grown b [] b where
  sound := hb
  current_le := Int.le_refl _
  compactRev := rfl
  later _ he := absurd he List.not_mem_nil
  versions _ := (List.append_nil _).symm

theorem Grown.revision (hb : b.Sound) (hfit : b.currentRev + 1 < 2 ^ 63) :
    Grown b [] { b with currentRev := b.currentRev + 1 } where
  sound := hb.setCurrentRev (Int.le_add_one (Int.le_refl _)) hfit
  current_le := Int.le_add_one (Int.le_refl _)
  compactRev := rfl
  later _ he := absurd he List.not_mem_nil
  versions _ := (List.append_nil _).symm

theorem Grown.version (hb : b.Sound) (hk : validUTF8 key = true)
    (hfit : b.currentRev + 1 < 2 ^ 63)
    (hv : ∀ r, stampVersion (r, v) = ⟨⟨r, 0⟩, value, deleted⟩) :
    Grown b [(b.currentRev + 1, key, v)]
      (MemoryBackend.setRevisions { b with currentRev := b.currentRev + 1 } key
        (b.versions key ++ [⟨⟨b.currentRev + 1, 0⟩, value, deleted⟩])) := by
  obtain ⟨hne, hinc⟩ := hb.concat key value deleted
  obtain ⟨-, hcur, hcomp⟩ :=
    MemoryBackend.setRevisions_frame { b with currentRev := b.currentRev + 1 } key _ hne
  refine ⟨(Grown.revision hb hfit).sound.setRevisions hk hne hinc ?_, ?_, hcomp, ?_, ?_⟩
  · intro w hw
    rcases List.mem_append.1 hw with hw | hw
    · exact Int.le_add_one (hb.bound key w hw)
    · rw [List.mem_singleton.1 hw]
  · rw [hcur]
    exact Int.le_add_one (Int.le_refl _)
  · intro e he
    rw [List.mem_singleton.1 he]
    exact Int.lt_add_one_of_le (Int.le_refl _)
  · intro k
    rw [MemoryBackend.versions_setRevisions hne]
    by_cases hkk : k = key
    · simp only [hkk, stamped, List.filter_cons, List.filter_nil, decide_true, if_true,
        List.map_cons, List.map_nil, hv]
    · simp only [hkk, Ne.symm hkk, stamped, List.filter_cons, List.filter_nil, decide_false,
        if_false, Bool.false_eq_true, List.map_nil, List.append_nil]
      rfl

theorem Grown.event (hg : Grown b entries b') (hd : Dated (b'.events ++ [ev]))
    (hle : ev.rev.main ≤ b'.currentRev) (hk : validUTF8 ev.key = true) :
    Grown b entries (b'.appendEvent ev) :=
  ⟨hg.sound.appendEvent hd hle hk, hg.current_le, hg.compactRev, hg.later, hg.versions⟩

theorem Grown.trans (hg : Grown b entries b') (hg' : Grown b' entries' b'') :
    Grown b (entries ++ entries') b'' where
  sound := hg'.sound
  current_le := Int.le_trans hg.current_le hg'.current_le
  compactRev := hg'.compactRev.trans hg.compactRev
  later := by
    intro e he
    rcases List.mem_append.1 he with he | he
    · exact hg.later e he
    · exact Int.lt_of_le_of_lt hg.current_le (hg'.later e he)
  versions key := by
    rw [hg'.versions, hg.versions, stamped_append, List.append_assoc]

theorem Torn.start (hb : b.Sound) : Torn b ms b := ⟨[], List.nil_prefix, .refl hb⟩

theorem Torn.sound (ht : Torn b ms b') : b'.Sound := by
  obtain ⟨entries, -, hg⟩ := ht
  exact hg.sound

theorem Torn.more (ht : Torn b ms b') : Torn b (ms ++ ms') b' := by
  obtain ⟨entries, hpre, hg⟩ := ht
  exact ⟨entries, hpre.trans (List.prefix_append ms ms'), hg⟩

theorem Written.torn (hw : Written b ms b') : Torn b ms b' := by
  obtain ⟨-, entries, rfl, hg⟩ := hw
  exact ⟨entries, List.prefix_rfl, hg⟩

theorem Written.nil (hb : b.Sound) : Written b [] b := ⟨(Int.add_zero _).symm, [], rfl, .refl hb⟩

theorem Written.sound (hw : Written b ms b') : b'.Sound := by
  obtain ⟨-, entries, -, hg⟩ := hw
  exact hg.sound

theorem Written.then_torn (hw : Written b ms b') (ht : Torn b' ms' b'') :
    Torn b (ms ++ ms') b'' := by
  obtain ⟨-, entries, rfl, hg⟩ := hw
  obtain ⟨entries', hpre, hg'⟩ := ht
  refine ⟨entries ++ entries', ?_, hg.trans hg'⟩
  rw [List.map_append]
  exact (List.prefix_append_right_inj _).2 hpre

theorem Written.trans (hw : Written b ms b') (hw' : Written b' ms' b'') :
    Written b (ms ++ ms') b'' := by
  obtain ⟨hcur, entries, rfl, hg⟩ := hw
  obtain ⟨hcur', entries', rfl, hg'⟩ := hw'
  refine ⟨?_, entries ++ entries', List.map_append, hg.trans hg'⟩
  rw [hcur', hcur, List.length_append, Int.natCast_add, Int.add_assoc]

theorem Writes.bind {f : α → BackendProgram β} {fin : β → Prop} (hp : Writes b p ms post)
    (hf : ∀ a b', Written b ms b' → post a → Writes b' (f a) ms' fin) :
    Writes b (p >>= f) (ms ++ ms') fin := by
  have hp' : Withstands MemoryBackend.answer MemoryBackend.Legal (Torn b (ms ++ ms'))
      (fun a b' => Written b ms b' ∧ post a) b p := hp.mono (fun _ ht => ht.more) fun _ _ h => h
  apply hp'.bind
  intro a b' hpost
  apply (hf a b' hpost.1 hpost.2).mono
  · exact fun _ ht => hpost.1.then_torn ht
  · exact fun _ _ hend => ⟨hpost.1.trans hend.1, hend.2⟩

theorem Writes.map {f : α → β} {fin : β → Prop} (hp : Writes b p ms post)
    (hf : ∀ a, post a → fin (f a)) : Writes b (p >>= fun a => pure (f a)) ms fin := by
  apply Withstands.bind hp
  intro a b' hpost
  exact .done hpost.1.torn ⟨hpost.1, hf a hpost.2⟩

theorem Writes.pure {a : α} (hb : b.Sound) (ha : post a) : Writes b (pure a) [] post :=
  .done (.start hb) ⟨.nil hb, ha⟩

end

def BackendCall.isQuery : BackendCall → Prop
  | .currentRev | .compactRev | .getRevisions _ | .rangeKeys _ _ | .events | .snapshotState => True
  | .setCurrentRev _ | .setCompactRev _ | .setRevisions _ _ | .setEvents _ | .appendEvent _
    | .replaceState _ => False

def StoreRequest.appends : StoreRequest → Bool
  | .compact _ | .restore _ => false
  | _ => true

namespace StoreFront

def Valid (f : StoreFront) : Prop := (f.on .new).LeasesHold fun key => validUTF8 key = true

abbrev Kept (out : α × StoreFront) : Prop := out.2.Valid

def mutations (f : StoreFront) (latest : Bytes → Int) : StoreRequest → List Mutation
  | .put now key value leaseID =>
    if leaseID ≠ 0 then
      match (f.on .new).lookupLease now leaseID with
      | .error _ => []
      | .ok _ => [(key, some value)]
    else [(key, some value)]
  | .delete key => [(key, none)]
  | .txn now t =>
    let ops := if t.compares.all fun c => c.holds (latest c.key) then t.thenOps else t.elseOps
    match (f.on .new).checkLeases now (KVStore.leaseIDs ops) with
    | .error _ => []
    | .ok _ => ops.filterMap Operation.mutation
  | .leaseRevoke leaseID ranging =>
    match f.leases.lookup leaseID with
    | none => []
    | some lease => (ranging.order lease.keys).map (·, none)
  | _ => []

section

variable {f : StoreFront} {b b' : MemoryBackend} {key value : Bytes} {v : Option Bytes}
  {p : BackendProgram α} {q : StoreRequest} {keys : List Bytes} {ops : List Operation}

theorem Valid.changes (hf : f.Valid) {s : KVStore}
    (hc : KVStore.Changes (fun key => validUTF8 key = true) (f.on .new) s) : (f.after s).Valid := by
  have hs : s.LeasesHold fun key => validUTF8 key = true := hc.keeps KVStore.LeasesHold.change hf
  exact hs

theorem Valid.detachKey (hf : f.Valid) (key : Bytes) : (f.detachKey key).Valid :=
  hf.changes (KVStore.detachKey_edits key).changes

theorem Valid.bindKeyToLease (hf : f.Valid) (hk : validUTF8 key = true) (leaseID : Int) :
    (f.bindKeyToLease key leaseID).Valid :=
  hf.changes (KVStore.bindKeyToLease_edits hk).changes

theorem Valid.erase (hf : f.Valid) (leaseID : Int) :
    Valid { f with leases := f.leases.erase leaseID } := by
  have hs := hf.changes (.single (.revoke leaseID))
  exact hs

/-- A mutation, call by call: the new revision, the version, and the event. -/
theorem write_writes (hb : b.Sound) (hk : validUTF8 key = true)
    (hfit : b.currentRev + 1 < 2 ^ 63)
    (hv : ∀ r, stampVersion (r, v) = ⟨⟨r, 0⟩, value, deleted⟩) :
    Writes b (write type key value deleted) [(key, v)] fun _ => True := by
  have hcur := hb.current_nonneg
  obtain ⟨hne, hinc⟩ := hb.concat key value deleted
  have hg₁ := Grown.revision hb hfit
  have hg₂ := Grown.version hb hk hfit hv
  obtain ⟨hev, hcur₂, -⟩ :=
    MemoryBackend.setRevisions_frame { b with currentRev := b.currentRev + 1 } key _ hne
  have hdated : Dated (b.events ++ [⟨type, key, value, ⟨b.currentRev + 1, 0⟩⟩]) := by
    refine hb.dated.concat (fun ev hev => ?_) rfl (Int.add_nonneg hcur (by decide))
    exact Int.lt_add_one_of_le (hb.recorded ev hev).1
  have hdated₂ := hev.symm ▸ hdated
  have hg₃ := hg₂.event hdated₂ (Int.le_of_eq hcur₂.symm) hk
  have ht₁ : Torn b [(key, v)] { b with currentRev := b.currentRev + 1 } :=
    ⟨[], List.nil_prefix, hg₁⟩
  have ht₂ : Torn b [(key, v)] _ := ⟨_, List.prefix_rfl, hg₂⟩
  apply Withstands.ask (.start hb) trivial rfl
  apply Withstands.ask (.start hb) ⟨Int.add_nonneg hcur (by decide), hfit⟩ rfl
  apply Withstands.ask ht₁ trivial rfl
  apply Withstands.ask ht₁ ⟨hk, hne, hinc⟩ rfl
  apply Withstands.ask ht₂ ⟨hdated₂, hk⟩ rfl
  exact .done ⟨_, List.prefix_rfl, hg₃⟩ ⟨⟨hcur₂, _, rfl, hg₃⟩, trivial⟩

theorem putLocked_writes (hb : b.Sound) (hk : validUTF8 key = true)
    (hfit : b.currentRev + 1 < 2 ^ 63) :
    Writes b (putLocked key value) [(key, some value)] fun _ => True :=
  write_writes hb hk hfit fun _ => rfl

theorem deleteLocked_writes (hb : b.Sound) (hf : f.Valid) (hk : validUTF8 key = true)
    (hfit : b.currentRev + 1 < 2 ^ 63) :
    Writes b (f.deleteLocked key) [(key, none)] Kept :=
  (write_writes hb hk hfit fun _ => rfl).map fun _ _ => hf.detachKey key

theorem reads (hb : b.Sound) (hp : p.Only BackendCall.isQuery) : Writes b p [] fun _ => True := by
  have hinert (c : BackendCall) (hc : c.isQuery) :
      b.Legal c ∧ ∃ r, MemoryBackend.answer c b = some (r, b) := by
    cases c with
    | currentRev | compactRev | getRevisions | rangeKeys | events | snapshotState =>
      exact ⟨trivial, _, rfl⟩
    | setCurrentRev | setCompactRev | setRevisions | setEvents | appendEvent | replaceState =>
      exact hc.elim
  apply (hp.withstands hinert (Torn.start hb)).mono fun _ ht => ht
  intro _ b' he
  rw [he]
  exact ⟨.nil hb, trivial⟩

theorem compare_only (ts : List Compare) : (compare ts).Only BackendCall.isQuery := by
  induction ts with
  | nil => exact .done
  | cons t ts ih =>
    apply Program.Only.call trivial
    intro r
    change Program.Only _ (if t.holds _ then _ else _)
    split
    · exact ih
    · exact .done

theorem atRev_only (rev : Int) : (atRev rev).Only BackendCall.isQuery := by
  unfold atRev
  split
  · exact .call trivial fun _ => .done
  · exact .done

theorem get_only (key : Bytes) (rev : Int) : (get key rev).Only BackendCall.isQuery := by
  apply Program.Only.call trivial
  intro r
  cases r with
  | none => exact .done
  | some versions =>
    apply Program.Only.call trivial
    intro compactRev
    change Program.Only _ (if rev ≠ 0 ∧ rev ≤ compactRev then _ else _)
    split
    · exact .done
    · apply (atRev_only rev).bind
      intro r
      cases visibleFrom versions.list r versions.list.length 0 versions.list.length none with
      | none => exact .call trivial fun _ => .done
      | some v =>
        change Program.Only _ (if v.deleted = true then _ else _)
        split <;> exact .done

theorem visibleKeys_only (startKey endKey : Bytes) (rev : Int) (keys : List Bytes) :
    (visibleKeys startKey endKey rev keys).Only BackendCall.isQuery := by
  induction keys with
  | nil => exact .done
  | cons key keys ih =>
    unfold visibleKeys
    split
    · apply Program.Only.call trivial
      intro r
      cases r with
      | none => exact ih
      | some versions =>
        apply ih.bind
        intro rest
        cases latestVisibleRevision versions.list rev <;> exact .done
    · exact ih

theorem range_only (startKey endKey : Bytes) (rev : Int) :
    (range startKey endKey rev).Only BackendCall.isQuery := by
  apply (atRev_only rev).bind
  intro r
  apply Program.Only.call trivial
  intro compactRev
  change Program.Only _ (if r ≤ compactRev then _ else _)
  split
  · exact .done
  · exact .call trivial fun keys => visibleKeys_only startKey endKey r keys

theorem watch_writes (hb : b.Sound) (hf : f.Valid) (key : Bytes) (fromRev : Int)
    (isPrefix : Bool) : Writes b (f.watch key fromRev isPrefix) [] Kept := by
  apply Withstands.ask (.start hb) trivial rfl
  split
  · exact Writes.pure hb hf
  · exact .ask (.start hb) trivial rfl (Writes.pure hb hf)

theorem compare_withstands (f : StoreFront) (hb : b.Sound) (ts : List Compare)
    (ms : List Mutation) :
    Withstands MemoryBackend.answer MemoryBackend.Legal (Torn b ms)
      (fun r b' => r = (ts.all fun c => c.holds ((f.on b).latestRev c.key)) ∧ b' = b) b
      (compare ts) := by
  have hholds : (f.on b).compareHolds = fun c => c.holds ((f.on b).latestRev c.key) := by
    funext c
    unfold KVStore.compareHolds Compare.holds
    cases c.op <;> rfl
  rw [← hholds]
  apply ((reads hb (compare_only ts)).mono _ fun _ _ h => h).ends (compare_served f b ts)
  intro b' ht
  have hmore : Torn b ([] ++ ms) b' := ht.more
  exact hmore

theorem txnOp_writes {op : Operation} (hb : b.Sound) (hf : f.Valid)
    (hk : validUTF8 op.key = true) (hfit : b.currentRev + op.mutation.toList.length < 2 ^ 63) :
    Writes b (f.txnOp op) op.mutation.toList Kept := by
  unfold StoreFront.txnOp Operation.mutation at *
  cases hop : op.type with
  | get =>
    apply Withstands.ask (.start hb) trivial rfl
    cases b.getRevisions op.key <;> exact Writes.pure hb hf
  | put =>
    rw [hop] at hfit
    apply (putLocked_writes hb hk hfit).map
    intro _ _
    split
    · exact hf.bindKeyToLease hk op.leaseID
    · exact hf.detachKey op.key
  | delete =>
    rw [hop] at hfit
    exact (deleteLocked_writes hb hf hk hfit).map fun _ h => h
  | other type => exact Writes.pure hb hf

theorem runOps_writes (hb : b.Sound) (hf : f.Valid) (hk : ∀ op ∈ ops, validUTF8 op.key = true)
    (hfit : b.currentRev + (ops.filterMap Operation.mutation).length < 2 ^ 63) :
    Writes b (f.runOps ops) (ops.filterMap Operation.mutation) Kept := by
  induction ops generalizing f b with
  | nil => exact Writes.pure hb hf
  | cons op ops ih =>
    have hcons : (op :: ops).filterMap Operation.mutation =
        op.mutation.toList ++ ops.filterMap Operation.mutation := by
      rw [List.filterMap_cons]
      cases op.mutation <;> rfl
    rw [hcons] at hfit ⊢
    rw [List.length_append] at hfit
    apply Writes.bind (txnOp_writes hb hf (hk op List.mem_cons_self) (by omega))
    intro out b' hw hf'
    have hcur := hw.1
    have hrest := ih hw.sound hf' (fun op' hop => hk op' (List.mem_cons_of_mem op hop)) (by omega)
    exact hrest.map fun _ h => h

theorem deleteAll_writes (hb : b.Sound) (hf : f.Valid) (hk : ∀ key ∈ keys, validUTF8 key = true)
    (hfit : b.currentRev + keys.length < 2 ^ 63) :
    Writes b (f.deleteAll keys) (keys.map (·, none)) Kept := by
  induction keys generalizing f b with
  | nil => exact Writes.pure hb hf
  | cons key keys ih =>
    rw [List.length_cons] at hfit
    change Writes b _ ([(key, none)] ++ keys.map (·, none)) _
    apply Writes.bind (deleteLocked_writes hb hf (hk key List.mem_cons_self) (by omega))
    intro out b' hw hf'
    have hcur := hw.1
    rw [List.length_singleton] at hcur
    have hrest := ih hw.sound hf' (fun key' hkey => hk key' (List.mem_cons_of_mem key hkey))
      (by omega)
    exact hrest.map fun _ h => h

theorem put_writes (hb : b.Sound) (hf : f.Valid) (hk : validUTF8 key = true)
    (hfit : b.currentRev +
      (f.mutations latest (.put now key value leaseID)).length < 2 ^ 63) :
    Writes b (f.put now key value leaseID) (f.mutations latest (.put now key value leaseID))
      Kept := by
  unfold StoreFront.put StoreFront.mutations at *
  dsimp only at *
  split at hfit
  · rename_i hid
    rw [if_pos hid, if_pos hid]
    cases hl : (f.on .new).lookupLease now leaseID with
    | error e => exact Writes.pure hb hf
    | ok lease =>
      rw [hl] at hfit
      exact (putLocked_writes hb hk hfit).map fun _ _ => hf.bindKeyToLease hk leaseID
  · rename_i hid
    rw [if_neg hid, if_neg hid]
    exact (putLocked_writes hb hk hfit).map fun _ _ => hf.detachKey key

theorem txn_writes {t : Txn} (hb : b.Sound) (hf : f.Valid)
    (hk : ∀ op ∈ t.thenOps ++ t.elseOps, validUTF8 op.key = true)
    (hfit : b.currentRev + (f.mutations (f.on b).latestRev (.txn now t)).length < 2 ^ 63) :
    Writes b (f.txn now t) (f.mutations (f.on b).latestRev (.txn now t)) Kept := by
  apply (compare_withstands f hb t.compares _).bind
  rintro r b' ⟨hr, rfl⟩
  unfold StoreFront.mutations at *
  dsimp only at *
  rw [← hr] at hfit ⊢
  have hops : ∀ op ∈ if r = true then t.thenOps else t.elseOps, validUTF8 op.key = true := by
    intro op hop
    apply hk op
    rw [List.mem_append]
    split at hop
    · exact .inl hop
    · exact .inr hop
  generalize (if r = true then t.thenOps else t.elseOps) = ops at hops hfit ⊢
  cases hl : (f.on .new).checkLeases now (KVStore.leaseIDs ops) with
  | error e => exact Writes.pure hb hf
  | ok u =>
    rw [hl] at hfit
    exact (runOps_writes hb hf hops hfit).map fun _ h => h

theorem leaseRevoke_writes {ranging : Ranging Bytes} (hb : b.Sound) (hf : f.Valid)
    (hfit : b.currentRev +
      (f.mutations latest (.leaseRevoke leaseID ranging)).length < 2 ^ 63) :
    Writes b (f.leaseRevoke leaseID ranging) (f.mutations latest (.leaseRevoke leaseID ranging))
      Kept := by
  unfold StoreFront.leaseRevoke StoreFront.mutations at *
  dsimp only at *
  cases hl : f.leases.lookup leaseID with
  | none => exact Writes.pure hb hf
  | some lease =>
    have hk : ∀ key ∈ ranging.order lease.keys, validUTF8 key = true := by
      intro key hkey
      apply hf leaseID key
      rw [KVStore.leaseKeys]
      dsimp only [StoreFront.on]
      rw [hl]
      exact (ranging.fair lease.keys).mem.1 hkey
    rw [hl, List.length_map] at hfit
    exact (deleteAll_writes hb (hf.erase leaseID) hk hfit).map fun _ h => h

/-- A request other than a compaction or a restore performs its mutations one after the other,
wherever it stops. -/
theorem handle_writes (hb : b.Sound) (hf : f.Valid) (hq : q.ValidKeys)
    (ha : q.appends = true)
    (hfit : b.currentRev + (f.mutations (f.on b).latestRev q).length < 2 ^ 63) :
    Writes b (f.handle q) (f.mutations (f.on b).latestRev q) Kept := by
  cases q with
  | put now key value leaseID => exact (put_writes hb hf hq hfit).map fun _ h => h
  | delete key =>
    exact Writes.map (Writes.map (deleteLocked_writes hb hf hq hfit) fun _ h => h) fun _ h => h
  | txn now t => exact (txn_writes hb hf hq hfit).map fun _ h => h
  | leaseRevoke leaseID ranging => exact (leaseRevoke_writes hb hf hfit).map fun _ h => h
  | leaseGrant now ttl => exact Writes.pure hb (hf.changes (.single (.grant now ttl)))
  | leaseKeepAlive now leaseID =>
    apply Writes.pure hb
    have happ : (f.on .new).apply (.leaseKeepAlive now leaseID) =
        some ((f.on .new).leaseKeepAlive now leaseID).1 := rfl
    exact hf.changes (KVStore.apply_changes (by exact trivial) happ)
  | get key rev => exact (reads hb (get_only key rev)).map fun _ _ => hf
  | range startKey endKey rev => exact (reads hb (range_only startKey endKey rev)).map fun _ _ => hf
  | prefixRange p rev => exact (reads hb (range_only p (prefixEnd p) rev)).map fun _ _ => hf
  | watch key fromRev isPrefix => exact (watch_writes hb hf key fromRev isPrefix).map fun _ h => h
  | snapshot ranging => exact .ask (.start hb) trivial rfl (Writes.pure hb hf)
  | compact | restore => cases ha

theorem rewriteCompactedHistory_withstands {crash : MemoryBackend → Prop}
    {versions : List ValueRevision} {firstAfter : Int}
    (hg : Served b (rewriteCompactedHistory key versions firstAfter) () b') (hs : crash b)
    (hs' : crash b') :
    Withstands MemoryBackend.answer MemoryBackend.Legal crash (fun _ t => crash t) b
      (rewriteCompactedHistory key versions firstAfter) := by
  unfold rewriteCompactedHistory at *
  by_cases hzero : firstAfter = 0
  · rw [if_pos hzero]
    exact .done hs hs
  · rw [if_neg hzero] at hg ⊢
    cases hg with
    | call hl ha hrest =>
      cases hrest with
      | done => exact .call hs hl ha (.done hs' hs')

theorem compactKeys_withstands {b₀ : MemoryBackend} (hs : Shrunk b₀ b)
    (hk : ∀ key ∈ keys, validUTF8 key = true) (rev : Int) :
    Withstands MemoryBackend.answer MemoryBackend.Legal (Shrunk b₀) (fun _ b' => Shrunk b₀ b') b
      (compactKeys rev keys) := by
  induction keys generalizing b with
  | nil => exact .done hs hs
  | cons key keys ih =>
    have hk' : ∀ key ∈ keys, validUTF8 key = true :=
      fun k hkk => hk k (List.mem_cons_of_mem key hkk)
    have hspec := MemoryBackend.compactKey_spec (hs.sound.increasing key) rev
    have hinc := hs.sound.increasing key
    apply Withstands.ask hs trivial rfl
    unfold MemoryBackend.compactKey at hspec
    cases hg : b.getRevisions key with
    | none => exact ih hs hk'
    | some versions =>
      rw [hg] at hspec
      rw [MemoryBackend.getRevisions_eq_some hg] at hinc
      dsimp only at hspec ⊢
      by_cases hlen : versions.list.length ≤ 1
      · rw [if_pos hlen]
        exact ih hs hk'
      · rw [if_neg hlen] at hspec ⊢
        have hs' := hs.compacted hspec
        have hserved := rewriteCompactedHistory_served (b := b) (hk key List.mem_cons_self) hinc
          versions.ne_nil rev
        apply (rewriteCompactedHistory_withstands hserved hs hs').bind
        exact fun _ _ h => ih h hk'

theorem compact_withstands (hb : b.Sound) (rev : Int) :
    Withstands MemoryBackend.answer MemoryBackend.Legal (Shrunk b) (fun _ b' => Shrunk b b') b
      (compact rev) := by
  have hs := Shrunk.refl hb
  apply Withstands.ask hs trivial rfl
  apply Withstands.ask hs trivial rfl
  split
  · exact .done hs hs
  · rename_i hrev
    change ¬ (rev ≤ b.compactRev ∨ b.currentRev < rev) at hrev
    apply Withstands.ask hs trivial rfl
    have hkeys : ∀ key ∈ b.rangeKeys [] [], validUTF8 key = true := by
      intro key hkey
      apply hb.keys key
      rw [MemoryBackend.rangeKeys_nil hb.sorted, hb.mem, MemoryBackend.mem_data_iff] at hkey
      exact hkey
    apply (compactKeys_withstands hs hkeys rev).bind
    intro _ b' hs'
    have hev := hs'.filterEvents fun ev => rev < ev.rev.main
    have hcur := hs'.currentRev
    have hfits := hb.fits
    have hnonneg := hb.compact_nonneg
    have hend := hev.setCompactRev (show 0 ≤ rev by omega) (show rev ≤ b'.currentRev by omega)
    apply Withstands.ask hs' trivial rfl
    apply Withstands.ask hs' ⟨hev.sound.dated, fun ev h => (hev.sound.recorded ev h).2⟩ rfl
    apply Withstands.ask hev ⟨by omega, by omega⟩ rfl
    exact .done hend hend

theorem restore_withstands {snap : OwnSnapshot} (hb : b.Sound) (hf : f.Valid)
    (hq : StoreRequest.ValidKeys (.restore snap)) (hfit : snap.message.currentRev < 2 ^ 63) :
    Withstands MemoryBackend.answer MemoryBackend.Legal MemoryBackend.Sound
      (fun f' b' => b'.Sound ∧ f'.Valid) b (f.restore snap.message) := by
  obtain ⟨t, order, h, hmsg, hr, hvalid⟩ := OwnSnapshot.source hq
  have hkeys := KVStore.restoreLeases_keys hq.2
  have hcur : snap.message.currentRev = t.backend.currentRev := by rw [hmsg]; rfl
  have hserved := hmsg ▸ restore_served f b hr hvalid (.inl (hcur ▸ hfit))
  have hsound : ((f.on b).restore snap.message).backend.Sound := by
    rw [hmsg]
    rcases restore_cases hr (f.on b) order with ⟨-, he⟩ | ⟨-, he⟩
    · rw [he]
      exact hb
    · rw [he]
      exact (KVStore.represents_restored hr).sound hvalid (hcur ▸ hfit)
  have hleases (next : Int) (evs : List MvccEvent) (id : Int) : Valid
      ⟨snap.message.keyLease, restoreLeases snap.message.leases, next, evs, id⟩ := by
    intro leaseID k hk
    rw [KVStore.leaseKeys] at hk
    dsimp only [StoreFront.on] at hk
    cases hl : (restoreLeases snap.message.leases).lookup leaseID with
    | none =>
      rw [hl] at hk
      exact absurd hk (Finset.notMem_empty k)
    | some lease =>
      rw [hl] at hk
      exact hkeys leaseID lease hl k hk
  unfold StoreFront.restore at *
  split at hserved
  · rename_i hacc
    rw [if_pos hacc]
    cases hserved with
    | call hl ha hrest =>
      cases ha
      rw [KVStore.restore, if_pos hacc] at hsound
      exact .call hb hl rfl (.done hsound ⟨hsound, hleases _ _ _⟩)
  · rename_i hacc
    rw [if_neg hacc]
    exact .done hb ⟨hb, hf⟩

end

end StoreFront

end LinKV

import LinKV.LinDB.Tables

namespace LinKV
set_option autoImplicit true

/-- Events as the store records them: at increasing main revisions. -/
structure Dated (events : List MvccEvent) : Prop where
  increasing : events.Pairwise fun v w => v.rev.main < w.rev.main
  sub : ∀ ev ∈ events, ev.rev.sub = 0
  nonneg : ∀ ev ∈ events, 0 ≤ ev.rev.main

def Fits64 (rev : Int) : Prop := 0 ≤ rev ∧ rev < 2 ^ 63

/-- How the store uses its backend: keys are valid, versions and events in order. -/
def MemoryBackend.Legal (b : MemoryBackend) : BackendCall → Prop
  | .setCurrentRev rev | .setCompactRev rev => Fits64 rev
  | .setRevisions key revisions =>
    validUTF8 key = true ∧ revisions ≠ [] ∧ Increasing revisions
  | .setEvents events => Dated events ∧ ∀ ev ∈ events, validUTF8 ev.key = true
  | .appendEvent event => Dated (b.events ++ [event]) ∧ validUTF8 event.key = true
  | .replaceState state =>
    (∀ key revisions, state.data.lookup key = some revisions →
      validUTF8 key = true ∧ Increasing revisions.list) ∧
    Dated state.events ∧ (∀ ev ∈ state.events, validUTF8 ev.key = true) ∧
    Fits64 state.currentRev ∧ Fits64 state.compactRev
  | .currentRev | .compactRev | .getRevisions _ | .rangeKeys _ _ | .events | .snapshotState => True

/-- The database holds what the memory backend holds. -/
structure Mirrors (b : MemoryBackend) (d : DB) : Prop extends b.Indexed where
  dated : Dated b.events
  currentRev : d.getInt64 metaCurrentRev = some b.currentRev
  compactRev : d.getInt64 metaCompactRev = some b.compactRev
  data : d.Under dataPrefix fun k v =>
    ∃ key versions, b.data.lookup key = some versions ∧ k = dataStorageKey key ∧
      v = .keyEntry ⟨key, versions⟩
  events : d.Under eventPrefix fun k v =>
    ∃ ev ∈ b.events, k = eventStorageKey ev ∧ v = .event ev

section

variable {b : MemoryBackend} {d d' : DB} {k key startKey endKey : Bytes} {rev : Int}
  {evs evs' : List MvccEvent} {e e' : MvccEvent} {v : Stored}

theorem mirrors_empty : Mirrors .new ∅ where
  sorted := List.Pairwise.nil
  mem := fun k => iff_of_false List.not_mem_nil Finmap.notMem_empty
  dated := ⟨List.Pairwise.nil, fun _ hev => absurd hev List.not_mem_nil,
    fun _ hev => absurd hev List.not_mem_nil⟩
  currentRev := rfl
  compactRev := rfl
  data := by
    intro k v _
    refine iff_of_false (Finmap.lookup_empty k ▸ (Option.some_ne_none v).symm) ?_
    rintro ⟨key, versions, hv, -⟩
    cases hv
  events := by
    intro k v _
    refine iff_of_false (Finmap.lookup_empty k ▸ (Option.some_ne_none v).symm) ?_
    rintro ⟨ev, hev, -⟩
    exact absurd hev List.not_mem_nil

theorem not_under {p q : Bytes} (hk : p <+: k) (hpq : ¬ p <+: q) (hqp : ¬ q <+: p) : ¬ q <+: k :=
  fun hq => (List.prefix_or_prefix_of_prefix hk hq).elim hpq hqp

theorem dataStorageKey_begins (key : Bytes) : dataPrefix <+: dataStorageKey key :=
  List.prefix_append _ _

theorem eventStorageKey_begins (e : MvccEvent) : eventPrefix <+: eventStorageKey e := by
  rw [eventStorageKey, List.append_assoc]
  exact List.prefix_append _ _

theorem not_event_of_data (hk : dataPrefix <+: k) : ¬ eventPrefix <+: k :=
  not_under hk (by decide) (by decide)

theorem not_data_of_event (hk : eventPrefix <+: k) : ¬ dataPrefix <+: k :=
  not_under hk (by decide) (by decide)

theorem meta_under : (¬ dataPrefix <+: metaCurrentRev ∧ ¬ eventPrefix <+: metaCurrentRev) ∧
    ¬ dataPrefix <+: metaCompactRev ∧ ¬ eventPrefix <+: metaCompactRev := by
  decide

namespace DB

theorem getInt64_congr (h : d'.lookup k = d.lookup k) : d'.getInt64 k = d.getInt64 k := by
  rw [getInt64, getInt64, h]

theorem getInt64_of_ne (hk : k ≠ key) : getInt64 (d.insert key v) k = d.getInt64 k :=
  getInt64_congr (Finmap.lookup_insert_of_ne _ hk)

theorem getInt64_insert (hf : Fits64 rev) :
    getInt64 (d.insert k (.raw (encodeInt64 rev))) k = some rev := by
  rw [getInt64, Finmap.lookup_insert]
  dsimp only
  rw [if_neg (not_not.2 (length_encodeInt64 rev)), decodeInt64_encodeInt64 _ hf.2]
  have := hf.1
  omega

end DB

theorem Mirrors.setCurrentRev (h : Mirrors b d) (hf : Fits64 rev) :
    Mirrors { b with currentRev := rev } (d.insert metaCurrentRev (.raw (encodeInt64 rev))) where
  sorted := h.sorted
  mem := h.mem
  dated := h.dated
  currentRev := DB.getInt64_insert hf
  compactRev := (DB.getInt64_of_ne (by decide)).trans h.compactRev
  data := h.data.insert_of_not meta_under.1.1
  events := h.events.insert_of_not meta_under.1.2

theorem Mirrors.setCompactRev (h : Mirrors b d) (hf : Fits64 rev) :
    Mirrors { b with compactRev := rev } (d.insert metaCompactRev (.raw (encodeInt64 rev))) where
  sorted := h.sorted
  mem := h.mem
  dated := h.dated
  currentRev := (DB.getInt64_of_ne (by decide)).trans h.currentRev
  compactRev := DB.getInt64_insert hf
  data := h.data.insert_of_not meta_under.2.1
  events := h.events.insert_of_not meta_under.2.2

theorem Mirrors.lookup_data (h : Mirrors b d) (key : Bytes) : d.lookup (dataStorageKey key) =
    (b.data.lookup key).map fun versions => .keyEntry ⟨key, versions⟩ := by
  apply Option.ext
  intro v
  rw [h.data _ v (dataStorageKey_begins key), Option.map_eq_some_iff]
  constructor
  · rintro ⟨key', versions, hl, hk, rfl⟩
    obtain rfl := dataStorageKey_inj.1 hk
    exact ⟨versions, hl, rfl⟩
  · rintro ⟨versions, hl, rfl⟩
    exact ⟨key, versions, hl, rfl, rfl⟩

theorem Mirrors.getRevisions (h : Mirrors b d) (key : Bytes) :
    d.getRevisions key = some (b.getRevisions key) := by
  rw [DB.getRevisions, h.lookup_data, MemoryBackend.getRevisions]
  cases b.data.lookup key with
  | none => rfl
  | some versions => rfl

theorem Mirrors.setRevisions {revisions : List ValueRevision} (h : Mirrors b d)
    (hne : revisions ≠ []) : Mirrors (b.setRevisions key revisions)
      (d.insert (dataStorageKey key) (.keyEntry ⟨key, ⟨revisions, hne⟩⟩)) := by
  have hi : (b.setRevisions key revisions).Indexed := h.toIndexed.setRevisions hne
  obtain ⟨hev, hcur, hcom⟩ := b.setRevisions_frame key revisions hne
  have hb := dataStorageKey_begins key
  have hmeta (m : Bytes) (hm : ¬ dataPrefix <+: m) : m ≠ dataStorageKey key :=
    fun he => hm (he ▸ hb)
  refine ⟨hi, ?_, ?_, ?_, ?_, ?_⟩
  · rw [hev]
    exact h.dated
  · rw [hcur, DB.getInt64_of_ne (hmeta _ meta_under.1.1)]
    exact h.currentRev
  · rw [hcom, DB.getInt64_of_ne (hmeta _ meta_under.2.1)]
    exact h.compactRev
  · refine (h.data.insert (dataStorageKey key) _).congr fun k v => ?_
    have hget (key' : Bytes) : (b.setRevisions key revisions).data.lookup key' =
        if key' = key then some ⟨revisions, hne⟩ else b.data.lookup key' :=
      MemoryBackend.getRevisions_setRevisions hne
    simp only [hget]
    by_cases hk : k = dataStorageKey key
    · rw [if_pos hk]
      constructor
      · intro hv
        exact ⟨key, ⟨revisions, hne⟩, if_pos rfl, hk, hv⟩
      · rintro ⟨key', versions, hl, hk', rfl⟩
        obtain rfl := dataStorageKey_inj.1 (hk.symm.trans hk')
        rw [if_pos rfl] at hl
        obtain rfl := Option.some.inj hl
        rfl
    · rw [if_neg hk]
      have hne' (key' : Bytes) (hk' : k = dataStorageKey key') : key' ≠ key := fun he =>
        hk (he ▸ hk')
      constructor
      · rintro ⟨key', versions, hl, hk', hv⟩
        exact ⟨key', versions, (if_neg (hne' key' hk')).trans hl, hk', hv⟩
      · rintro ⟨key', versions, hl, hk', hv⟩
        rw [if_neg (hne' key' hk')] at hl
        exact ⟨key', versions, hl, hk', hv⟩
  · rw [hev]
    exact h.events.insert_of_not (not_event_of_data hb)

theorem seekKey_iff (startKey key : Bytes) :
    ¬ dataStorageKey key < (if startKey ≠ [] then dataStorageKey startKey else dataPrefix) ↔
      ¬ key < startKey := by
  by_cases hs : startKey = []
  · rw [if_neg (not_not.2 hs), hs]
    exact iff_of_true (List.not_lt.2 (dataStorageKey_begins key).le) (List.not_lt_nil key)
  · rw [if_pos hs, dataStorageKey_lt_iff]

theorem limitKey_iff (endKey key : Bytes) :
    ¬ ((if endKey ≠ [] then dataStorageKey endKey else []) ≠ [] ∧
      ¬ dataStorageKey key < if endKey ≠ [] then dataStorageKey endKey else []) ↔
      (endKey ≠ [] → key < endKey) := by
  by_cases he : endKey = []
  · rw [if_neg (not_not.2 he)]
    exact iff_of_true (fun h => h.1 rfl) fun hne => absurd he hne
  · have hne : dataStorageKey endKey ≠ [] := List.append_ne_nil_of_left_ne_nil (by decide) _
    rw [if_pos he, dataStorageKey_lt_iff]
    simp only [ne_eq, hne, he, not_false_eq_true, true_and, not_not, forall_const]

theorem seekKey_begins (startKey : Bytes) :
    dataPrefix <+: if startKey ≠ [] then dataStorageKey startKey else dataPrefix := by
  split
  · exact dataStorageKey_begins startKey
  · exact List.prefix_refl _

/-- Both backends meet the same keys: the encoding keeps the order, and the loop over the database
stops where the sorted keys of the memory backend do. -/
theorem Mirrors.rangeKeys (h : Mirrors b d) (startKey endKey : Bytes) :
    d.rangeKeys startKey endKey = some (b.rangeKeys startKey endKey) := by
  have hseek := seekKey_iff startKey
  have hlimit := limitKey_iff endKey
  have hle := (seekKey_begins startKey).le
  rw [DB.rangeKeys]
  generalize (if startKey ≠ [] then dataStorageKey startKey else dataPrefix) = seekKey at *
  generalize (if endKey ≠ [] then dataStorageKey endKey else []) = limitKey at *
  have hsorted := d.seek_sorted seekKey
  have hdown : (d.seek seekKey).Pairwise fun x y =>
      (dataPrefix.isPrefixOf y && decide (¬ (limitKey ≠ [] ∧ ¬ y < limitKey))) = true →
      (dataPrefix.isPrefixOf x && decide (¬ (limitKey ≠ [] ∧ ¬ x < limitKey))) = true := by
    refine hsorted.imp_of_mem fun {x y} hx _ hxy hy => ?_
    rw [Bool.and_eq_true, List.isPrefixOf_iff_prefix, decide_eq_true_eq] at hy ⊢
    have hx' : ¬ x < dataPrefix :=
      List.not_lt.2 (List.le_trans hle (List.not_lt.1 (DB.mem_seek.1 hx).2))
    refine ⟨Ordered.begins_of_between hx' (List.lt_asymm hxy) hy.1, fun hx'' => hy.2 ⟨hx''.1, ?_⟩⟩
    exact fun hlt => hx''.2 (List.lt_trans hxy hlt)
  have hrange : (b.rangeKeys startKey endKey).Pairwise (· < ·) := (h.sorted.take).drop
  have hmap : ((b.rangeKeys startKey endKey).map dataStorageKey).Pairwise (· < ·) :=
    List.pairwise_map.2 (hrange.imp dataStorageKey_lt_iff.2)
  have hkeys : (d.seek seekKey).filter (fun k => dataPrefix.isPrefixOf k &&
      decide (¬ (limitKey ≠ [] ∧ ¬ k < limitKey))) =
      (b.rangeKeys startKey endKey).map dataStorageKey := by
    refine (hsorted.filter _).eq_of_mem_iff hmap fun k => ?_
    rw [List.mem_filter, DB.mem_seek, Bool.and_eq_true, List.isPrefixOf_iff_prefix,
      decide_eq_true_eq, List.mem_map]
    constructor
    · rintro ⟨⟨hk, hge⟩, hp, hlt⟩
      obtain ⟨v, hv⟩ := Finmap.mem_iff.1 hk
      obtain ⟨key, versions, hl, rfl, -⟩ := (h.data k v hp).1 hv
      have hkey : key ∈ b.sortedKeys := (h.mem key).2 (Finmap.mem_iff.2 ⟨versions, hl⟩)
      exact ⟨key, (MemoryBackend.mem_rangeKeys h.sorted _ _).2
        ⟨hkey, (hseek key).1 hge, (hlimit key).1 hlt⟩, rfl⟩
    · rintro ⟨key, hkey, rfl⟩
      obtain ⟨hmem, hge, hlt⟩ := (MemoryBackend.mem_rangeKeys h.sorted _ _).1 hkey
      obtain ⟨versions, hl⟩ := Finmap.mem_iff.1 ((h.mem key).1 hmem)
      have hd : dataStorageKey key ∈ d := by
        rw [← Finmap.lookup_isSome, h.lookup_data, hl]
        rfl
      exact ⟨⟨hd, (hseek key).2 hge⟩, dataStorageKey_begins key, (hlimit key).2 hlt⟩
  rw [Ordered.takeWhile_eq_filter hdown, hkeys]
  have hdecode : ∀ key ∈ b.rangeKeys startKey endKey,
      hexDecode ((dataStorageKey key).drop dataPrefix.length) = some key := by
    intro key _
    rw [dataStorageKey, List.drop_left, hexDecode_hexEncode]
  rw [List.mapM_map]
  exact (mapM_eq_some hdecode).trans (congrArg some (List.map_id _))

theorem Dated.inj (hd : Dated evs) (he : e ∈ evs) (he' : e' ∈ evs)
    (hk : eventStorageKey e = eventStorageKey e') : e = e' := by
  have hmain := eventStorageKey_inj hk ((hd.sub e he).trans (hd.sub e' he').symm)
    (hd.nonneg e he) (hd.nonneg e' he')
  by_contra hne
  have : Std.Symm fun v w : MvccEvent => v.rev.main ≠ w.rev.main := ⟨fun _ _ h => h.symm⟩
  have hdiff : evs.Pairwise fun v w => v.rev.main ≠ w.rev.main :=
    hd.increasing.imp fun h => Int.ne_of_lt h
  exact hdiff.forall he he' hne hmain

theorem Revision.le_total (r r' : Revision) : r.le r' ∨ r'.le r := by
  unfold Revision.le
  split <;> split <;> omega

theorem Revision.le_trans {r r' r'' : Revision} (h : r.le r') (h' : r'.le r'') : r.le r'' := by
  unfold Revision.le at *
  split at h <;> split at h' <;> split <;> omega

theorem Dated.sortEvents (hd : Dated evs) (hp : evs'.Perm evs) : sortEvents evs' = evs := by
  have : Std.Total fun v w : MvccEvent => v.rev.le w.rev := ⟨fun v w => v.rev.le_total w.rev⟩
  have : IsTrans MvccEvent fun v w => v.rev.le w.rev := ⟨fun _ _ _ h h' => Revision.le_trans h h'⟩
  have hperm := (List.perm_insertionSort (fun v w => v.rev.le w.rev) evs').trans hp
  refine hperm.eq_of_pairwise (fun v w hv hw hvw hwv => ?_)
    (List.pairwise_insertionSort _ evs') (hd.increasing.imp Revision.le_of_lt)
  have hv' := hperm.mem_iff.1 hv
  have hsub := (hd.sub v hv').trans (hd.sub w hw).symm
  have hmain : v.rev.main = w.rev.main := by
    unfold Revision.le at hvw hwv
    split at hvw <;> split at hwv <;> omega
  exact hd.inj hv' hw (by rw [eventStorageKey, eventStorageKey, hmain, hsub])

theorem Dated.nodup (hd : Dated evs) : evs.Nodup := by
  refine List.Pairwise.imp ?_ hd.increasing
  intro v w hlt he
  rw [he] at hlt
  exact Int.lt_irrefl _ hlt

theorem Mirrors.events_eq (h : Mirrors b d) : d.events = some b.events := by
  have hlookup (ev : MvccEvent) (hev : ev ∈ b.events) :
      d.lookup (eventStorageKey ev) = some (.event ev) :=
    (h.events _ _ (eventStorageKey_begins ev)).2 ⟨ev, hev, rfl, rfl⟩
  have hnodup : (b.events.map eventStorageKey).Nodup :=
    h.dated.nodup.map_on fun v hv w hw => h.dated.inj hv hw
  have hmem (k : Bytes) : k ∈ d.scan eventPrefix ↔ k ∈ b.events.map eventStorageKey := by
    rw [DB.mem_scan, List.mem_map]
    constructor
    · rintro ⟨hk, hp⟩
      obtain ⟨v, hv⟩ := Finmap.mem_iff.1 hk
      obtain ⟨ev, hev, rfl, -⟩ := (h.events k v hp).1 hv
      exact ⟨ev, hev, rfl⟩
    · rintro ⟨ev, hev, rfl⟩
      exact ⟨Finmap.mem_iff.2 ⟨_, hlookup ev hev⟩, eventStorageKey_begins ev⟩
  have hperm := (List.perm_ext_iff_of_nodup (d.scan_nodup eventPrefix) hnodup).2 hmem
  -- the events that the keys of the scan stand for
  let read (k : Bytes) : MvccEvent :=
    ((d.lookup k).bind decodeEvent).getD ⟨.put, [], [], ⟨0, 0⟩⟩
  have hread (ev : MvccEvent) (hev : ev ∈ b.events) : read (eventStorageKey ev) = ev := by
    simp only [read, hlookup ev hev, Option.bind_some, decodeEvent, Option.getD_some]
  have hscan : ∀ k ∈ d.scan eventPrefix, (d.lookup k).bind decodeEvent = some (read k) := by
    intro k hk
    obtain ⟨ev, hev, rfl⟩ := List.mem_map.1 ((hmem k).1 hk)
    rw [hread ev hev, hlookup ev hev]
    rfl
  have hback : (b.events.map eventStorageKey).map read = b.events := by
    rw [List.map_map]
    exact (List.map_congr_left hread).trans (List.map_id _)
  rw [DB.events, mapM_eq_some hscan, Option.map_some]
  exact congrArg some (h.dated.sortEvents (hback ▸ hperm.map read))

theorem batchPutEvents_eq (hd : Dated evs) (hv : ∀ ev ∈ evs, validUTF8 ev.key = true) :
    DB.batchPutEvents evs = some (evs.map fun ev => .put (eventStorageKey ev) (.event ev)) := by
  rw [DB.batchPutEvents, hd.sortEvents (List.Perm.refl evs)]
  refine mapM_eq_some fun ev hev => ?_
  rw [encodeEvent, if_pos (hv ev hev), Option.map_some]

theorem Dated.table (hd : Dated evs) : ∀ v ∈ evs, ∀ w ∈ evs,
    eventStorageKey v = eventStorageKey w → Stored.event v = .event w :=
  fun _ hv _ hw hk => congrArg Stored.event (hd.inj hv hw hk)

theorem Mirrors.setEvents (h : Mirrors b d) (hd : Dated evs)
    (hv : ∀ ev ∈ evs, validUTF8 ev.key = true) :
    ∃ d', d.setEvents evs = some d' ∧ Mirrors { b with events := evs } d' := by
  have hframe (k : Bytes) (hk : ¬ eventPrefix <+: k) :
      (d.writeBatch (d.deletePrefix eventPrefix ++
        evs.map fun ev => .put (eventStorageKey ev) (.event ev))).lookup k = d.lookup k := by
    rw [DB.writeBatch_append, DB.lookup_puts_of_ne, DB.lookup_deletePrefix_of_not hk]
    intro ev _ he
    exact hk (he ▸ eventStorageKey_begins ev)
  refine ⟨_, by rw [DB.setEvents, batchPutEvents_eq hd hv, Option.map_some],
    ⟨h.sorted, h.mem⟩, hd, ?_, ?_, ?_, ?_⟩
  · exact (DB.getInt64_congr (hframe _ meta_under.1.2)).trans h.currentRev
  · exact (DB.getInt64_congr (hframe _ meta_under.2.2)).trans h.compactRev
  · exact h.data.frame fun k hk => hframe k (not_event_of_data hk)
  · rw [DB.writeBatch_append]
    refine (DB.under_puts (fun k hk => DB.lookup_deletePrefix_self hk rfl) hd.table).congr
      fun k v => ?_
    simp only [eq_comm]

theorem Mirrors.appendEvent (h : Mirrors b d) (hd : Dated (b.events ++ [e])) :
    Mirrors (b.appendEvent e) (d.insert (eventStorageKey e) (.event e)) := by
  have hb := eventStorageKey_begins e
  have hmeta (m : Bytes) (hm : ¬ eventPrefix <+: m) : m ≠ eventStorageKey e :=
    fun he => hm (he ▸ hb)
  refine ⟨⟨h.sorted, h.mem⟩, hd, ?_, ?_, ?_, ?_⟩
  · exact (DB.getInt64_of_ne (hmeta _ meta_under.1.2)).trans h.currentRev
  · exact (DB.getInt64_of_ne (hmeta _ meta_under.2.2)).trans h.compactRev
  · exact h.data.insert_of_not (not_data_of_event hb)
  · refine (h.events.insert (eventStorageKey e) _).congr fun k v => ?_
    have hmem : e ∈ b.events ++ [e] := List.mem_append_right _ List.mem_cons_self
    by_cases hk : k = eventStorageKey e
    · rw [if_pos hk]
      constructor
      · intro hv
        exact ⟨e, hmem, hk, hv⟩
      · rintro ⟨ev, hev, hk', hv⟩
        rw [hv, hd.inj hev hmem (hk'.symm.trans hk)]
    · rw [if_neg hk]
      constructor
      · rintro ⟨ev, hev, hk', hv⟩
        exact ⟨ev, List.mem_append_left _ hev, hk', hv⟩
      · rintro ⟨ev, hev, hk', hv⟩
        rcases List.mem_append.1 hev with hev | hev
        · exact ⟨ev, hev, hk', hv⟩
        · rw [List.mem_singleton.1 hev] at hk'
          exact absurd hk' hk

theorem Mirrors.snapshotData (h : Mirrors b d) (keys : List Bytes) :
    ∃ m, d.snapshotData keys = some m ∧
      ∀ k, m.lookup k = if k ∈ keys then b.data.lookup k else none := by
  induction keys with
  | nil => exact ⟨∅, rfl, fun k => (Finmap.lookup_empty k).trans (if_neg List.not_mem_nil).symm⟩
  | cons key keys ih =>
    obtain ⟨m, hm, hlookup⟩ := ih
    have hget := h.getRevisions key
    rw [MemoryBackend.getRevisions] at hget
    cases hl : b.data.lookup key with
    | none =>
      rw [hl] at hget
      refine ⟨m, by rw [DB.snapshotData, hget, hm], fun k => ?_⟩
      rw [hlookup]
      by_cases hk : k = key
      · rw [hk, hl, ite_self, ite_self]
      · simp only [List.mem_cons, hk, false_or]
    | some versions =>
      rw [hl] at hget
      refine ⟨m.insert key versions, by rw [DB.snapshotData, hget, hm], fun k => ?_⟩
      by_cases hk : k = key
      · rw [hk, Finmap.lookup_insert, if_pos List.mem_cons_self, hl]
      · rw [Finmap.lookup_insert_of_ne _ hk, hlookup]
        simp only [List.mem_cons, hk, false_or]

theorem Mirrors.snapshotState (h : Mirrors b d) :
    d.snapshotState = some ⟨b.data, b.events, b.currentRev, b.compactRev⟩ := by
  obtain ⟨m, hm, hlookup⟩ := h.snapshotData b.sortedKeys
  have hdata : m = b.data := by
    apply Finmap.ext_lookup
    intro k
    rw [hlookup]
    split
    · rfl
    · rename_i hk
      exact (Finmap.lookup_eq_none.2 fun hmem => hk ((h.mem k).2 hmem)).symm
  rw [DB.snapshotState, h.rangeKeys, MemoryBackend.rangeKeys_nil h.sorted]
  simp only [Option.bind_eq_bind, Option.bind_some, hm, hdata, h.events_eq, h.currentRev,
    h.compactRev]
  rfl

theorem batchPutData_eq {data : GoMap Bytes Versions}
    (hdata : ∀ key revisions, data.lookup key = some revisions →
      validUTF8 key = true ∧ Increasing revisions.list) :
    ∃ l : List (Bytes × Versions), (∀ x, x ∈ l ↔ data.lookup x.1 = some x.2) ∧
      DB.batchPutData data =
        some (l.map fun x => .put (dataStorageKey x.1) (.keyEntry ⟨x.1, x.2⟩)) := by
  have hmem (x : Bytes × Versions) : x ∈ (sortStrings data.keys).filterMap
      (fun key => (data.lookup key).map (key, ·)) ↔ data.lookup x.1 = some x.2 := by
    rw [List.mem_filterMap]
    constructor
    · rintro ⟨key, -, hx⟩
      obtain ⟨versions, hl, rfl⟩ := Option.map_eq_some_iff.1 hx
      exact hl
    · intro hl
      refine ⟨x.1, ?_, Option.map_eq_some_iff.2 ⟨x.2, hl, rfl⟩⟩
      exact mem_sortStrings.2 (Finmap.mem_keys.2 (Finmap.mem_iff.2 ⟨x.2, hl⟩))
  refine ⟨_, hmem, mapM_eq_some fun x hx => ?_⟩
  obtain ⟨hvalid, hinc⟩ := hdata x.1 x.2 ((hmem x).1 hx)
  rw [encodeKeyEntry, if_pos hvalid, Option.map_some, Versions.sorted_eq hinc]

theorem Mirrors.replaceState {state : BackendState} (hl : b.Legal (.replaceState state)) :
    ∃ d', d.replaceState state = some d' ∧
      Mirrors (.replaceState state.data state.events state.currentRev state.compactRev) d' := by
  obtain ⟨hdata, hd, hv, hcur, hcom⟩ := hl
  obtain ⟨l, hmem, hputs⟩ := batchPutData_eq hdata
  have hindexed : (MemoryBackend.replaceState state.data state.events state.currentRev
      state.compactRev).Indexed := by
    refine ⟨sortStrings_sorted _, fun k => ?_⟩
    exact mem_sortStrings.trans Finmap.mem_keys
  -- the tables are written one after the other where the deletions have left nothing
  have hnone (k : Bytes) (hk : dataPrefix <+: k) :
      ((d.writeBatch (d.deletePrefix dataPrefix)).writeBatch
        (d.deletePrefix eventPrefix)).lookup k = none := by
    rw [DB.lookup_deletePrefix_of_not (not_event_of_data hk), DB.lookup_deletePrefix_self hk rfl]
  have hnone' (k : Bytes) (hk : eventPrefix <+: k) :
      (((d.writeBatch (d.deletePrefix dataPrefix)).writeBatch
        (d.deletePrefix eventPrefix)).writeBatch
        (l.map fun x => .put (dataStorageKey x.1) (.keyEntry ⟨x.1, x.2⟩))).lookup k = none := by
    rw [DB.lookup_puts_of_ne, DB.lookup_deletePrefix_self hk]
    · exact DB.lookup_deletePrefix_of_not (not_data_of_event hk)
    · intro x _ he
      exact not_data_of_event hk (he ▸ dataStorageKey_begins x.1)
  have htable : ∀ x ∈ l, ∀ y ∈ l, dataStorageKey x.1 = dataStorageKey y.1 →
      Stored.keyEntry ⟨x.1, x.2⟩ = .keyEntry ⟨y.1, y.2⟩ := by
    intro x hx y hy hk
    have hkey := dataStorageKey_inj.1 hk
    have hlx := (hmem x).1 hx
    rw [hkey, (hmem y).1 hy] at hlx
    rw [hkey, Option.some.inj hlx]
  refine ⟨_, by rw [DB.replaceState, hputs, batchPutEvents_eq hd hv]; rfl, hindexed, hd,
    ?_, ?_, ?_, ?_⟩
  all_goals simp only [DB.writeBatch_append]
  · refine (DB.getInt64_of_ne (by decide)).trans ?_
    exact DB.getInt64_insert hcur
  · exact DB.getInt64_insert hcom
  · refine DB.Under.insert_of_not (DB.Under.insert_of_not ?_ meta_under.1.1) meta_under.2.1
    refine ((DB.under_puts hnone htable).congr fun k v => ?_).frame fun k hk =>
      DB.lookup_puts_of_ne fun ev _ he => ?_
    · rw [Prod.exists]
      simp only [hmem, eq_comm]
      rfl
    · exact not_event_of_data hk (he ▸ eventStorageKey_begins ev)
  · refine DB.Under.insert_of_not (DB.Under.insert_of_not ?_ meta_under.1.2) meta_under.2.2
    refine (DB.under_puts hnone' hd.table).congr fun k v => ?_
    simp only [eq_comm]
    rfl

end

/-- For calls as the store makes them the two backends cannot be told apart. -/
theorem linDB_simulates :
    Calls.Simulates MemoryBackend.answer DB.answer MemoryBackend.Legal Mirrors := by
  intro b d c h hl
  cases c with
  | currentRev =>
    refine ⟨_, _, d, rfl, ?_, h⟩
    rw [DB.answer, h.currentRev, Option.map_some]
  | setCurrentRev rev => exact ⟨_, _, _, rfl, rfl, h.setCurrentRev hl⟩
  | compactRev =>
    refine ⟨_, _, d, rfl, ?_, h⟩
    rw [DB.answer, h.compactRev, Option.map_some]
  | setCompactRev rev => exact ⟨_, _, _, rfl, rfl, h.setCompactRev hl⟩
  | getRevisions key =>
    refine ⟨_, _, d, rfl, ?_, h⟩
    rw [DB.answer, h.getRevisions, Option.map_some]
  | setRevisions key revisions =>
    obtain ⟨hvalid, hne, hinc⟩ := hl
    refine ⟨_, _, _, rfl, ?_, h.setRevisions hne⟩
    rw [DB.answer, DB.setRevisions, dif_neg hne, encodeKeyEntry, if_pos hvalid,
      Versions.sorted_eq hinc, Option.map_some, Option.map_some]
  | rangeKeys startKey endKey =>
    refine ⟨_, _, d, rfl, ?_, h⟩
    rw [DB.answer, h.rangeKeys, Option.map_some]
  | events =>
    refine ⟨_, _, d, rfl, ?_, h⟩
    rw [DB.answer, h.events_eq, Option.map_some]
  | setEvents events =>
    obtain ⟨d', hset, h'⟩ := h.setEvents hl.1 hl.2
    refine ⟨_, _, d', rfl, ?_, h'⟩
    rw [DB.answer, hset, Option.map_some]
  | appendEvent event =>
    refine ⟨_, _, _, rfl, ?_, h.appendEvent hl.1⟩
    rw [DB.answer, DB.appendEvent, encodeEvent, if_pos hl.2, Option.map_some, Option.map_some]
  | snapshotState =>
    refine ⟨_, _, d, rfl, ?_, h⟩
    rw [DB.answer, h.snapshotState, Option.map_some]
  | replaceState state =>
    obtain ⟨d', hset, h'⟩ := Mirrors.replaceState (d := d) hl
    refine ⟨_, _, d', rfl, ?_, h'⟩
    rw [DB.answer, hset, Option.map_some]

end LinKV

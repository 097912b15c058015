import LinKV.LinDB.Torn
import LinKV.Mvcc.Ranges

namespace LinKV
set_option autoImplicit true

open Calls Consensus

/-- `versions[len(versions)-1].Rev.Main`, or 0 for a key that is not there. -/
def DB.latestRev (d : DB) (key : Bytes) : Int :=
  match d.getRevisions key with
  | some (some versions) => versions.latest.rev.main
  | some none | none => 0

/-- What is left of a map of values after mutations. -/
def contentAfter (content : Bytes → Option Bytes) (ms : List Mutation) : Bytes → Option Bytes :=
  ms.foldl (fun content m => Function.update content m.1 m.2) content

/-- What the last version of a key says. -/
def newest (versions : List ValueRevision) : Option Bytes :=
  (versions.getLast?.filter fun v => ¬ v.deleted).map ValueRevision.value

section

variable {b b' : MemoryBackend} {f : StoreFront} {ms : List Mutation} {entries : List Entry}
  {key : Bytes} {rev : Int}

theorem contentAfter_concat (content : Bytes → Option Bytes) (ms : List Mutation) (m : Mutation) :
    contentAfter content (ms ++ [m]) = Function.update (contentAfter content ms) m.1 m.2 :=
  List.foldl_concat ..

theorem newest_stamped (versions : Bytes → List ValueRevision) (entries : List Entry)
    (key : Bytes) : newest (versions key ++ stamped entries key) =
      contentAfter (fun k => newest (versions k)) (entries.map Prod.snd) key := by
  induction entries using List.reverseRecOn with
  | nil =>
    rw [stamped, List.filter_nil, List.map_nil, List.append_nil]
    rfl
  | append_singleton entries e ih =>
    rw [stamped_append, ← List.append_assoc, List.map_append, List.map_singleton,
      contentAfter_concat]
    by_cases hk : e.2.1 = key
    · have hone : stamped [e] key = [stampVersion (e.1, e.2.2)] := by
        simp only [stamped, List.filter_cons, hk, decide_true, if_true, List.filter_nil,
          List.map_cons, List.map_nil]
      rw [hone, ← hk, Function.update_self, newest, List.getLast?_concat]
      exact stampVersion_value (some (e.1, e.2.2))
    · have hnone : stamped [e] key = [] := by
        simp only [stamped, List.filter_cons, hk, decide_false, Bool.false_eq_true, if_false,
          List.filter_nil, List.map_nil]
      rw [hnone, List.append_nil, Function.update_of_ne (Ne.symm hk), ih]

theorem MemoryBackend.Sound.value_zero (hb : b.Sound) (f : StoreFront) (key : Bytes) :
    (f.on b).value key 0 = newest (b.versions key) := by
  have hall : (b.versions key).filter (fun v => v.rev.main ≤ b.currentRev) = b.versions key :=
    List.filter_eq_self.2 fun v hv => decide_eq_true (hb.bound key v hv)
  have hversions : (f.on b).versions key = b.versions key := rfl
  have hcur : (f.on b).backend.currentRev = b.currentRev := rfl
  have hinc : Increasing ((f.on b).versions key) := hb.increasing key
  rw [KVStore.value_eq hinc (.inl rfl), if_pos rfl, hversions, hcur, Versioned.latest, hall]
  rfl

theorem Grown.newest (hg : Grown b entries b') (key : Bytes) : LinKV.newest (b'.versions key) =
    contentAfter (fun k => LinKV.newest (b.versions k)) (entries.map Prod.snd) key := by
  rw [hg.versions, newest_stamped]

theorem Grown.get (hg : Grown b entries b') (hb : b.Sound) (hne : rev ≠ 0)
    (hle : rev ≤ b.currentRev) (f f' : StoreFront) (key : Bytes) :
    (f'.on b').get key rev = (f.on b).get key rev := by
  have hafter : ∀ v ∈ stamped entries key, rev < v.rev.main := by
    intro v hv
    obtain ⟨e, he, rfl⟩ := List.mem_map.1 hv
    exact Int.lt_of_le_of_lt hle (hg.later e (List.mem_filter.1 he).1)
  have hvalue : (f'.on b').value key rev = (f.on b).value key rev := by
    have hcompact : (f'.on b').backend.compactRev = (f.on b).backend.compactRev := hg.compactRev
    by_cases hcomp : rev ≤ (f.on b).backend.compactRev
    · have hcomp' : rev ≤ (f'.on b').backend.compactRev := hcompact.symm ▸ hcomp
      rw [KVStore.value, KVStore.value, KVStore.get_compacted hne hcomp,
        KVStore.get_compacted hne hcomp']
      rfl
    · have hlt : (f.on b).backend.compactRev < rev := Int.not_le.1 hcomp
      have hlt' : (f'.on b').backend.compactRev < rev := hcompact.symm ▸ hlt
      have hversions : (f'.on b').versions key = (f.on b).versions key ++ stamped entries key :=
        hg.versions key
      have hinc : Increasing ((f.on b).versions key) := hb.increasing key
      have hinc' : Increasing ((f'.on b').versions key) := hg.sound.increasing key
      rw [KVStore.value_eq hinc (.inr hlt), KVStore.value_eq hinc' (.inr hlt'), if_neg hne,
        if_neg hne, hversions]
      congr 2
      have hnil : (stamped entries key).filter (fun v => v.rev.main ≤ rev) = [] := by
        apply List.filter_eq_nil_iff.2
        intro v hv
        have := hafter v hv
        rw [decide_eq_true_eq]
        omega
      rw [Versioned.latest, List.filter_append, hnil, List.append_nil]
      rfl
  rw [KVStore.get_eq_value hne, KVStore.get_eq_value hne, hvalue]

end

/-- A store on Lin-DB: what its process holds, and the database. -/
structure LinStore where
  front : StoreFront
  db : DB

namespace LinStore

/-- A request is served, or the process stops after `n` calls of the backend for it and the store
is opened again. -/
inductive Action where
  | request (q : StoreRequest)
  | crash (q : StoreRequest) (n : Nat)

def Action.asked : Action → StoreRequest
  | .request q | .crash q _ => q

def opened (db : DB) : LinStore := ⟨.new, db⟩

def step (s : LinStore) : Action → Option LinStore
  | .request q => ((s.front.handle q).run DB.answer s.db).map fun out => ⟨out.1.2, out.2.2⟩
  | .crash q n => ((s.front.handle q).cut DB.answer n s.db).map opened

def currentRev (s : LinStore) : Int := (s.db.getInt64 metaCurrentRev).getD 0

def get (s : LinStore) (key : Bytes) (rev : Int) : Option (Bytes × Int × Bool) :=
  ((StoreFront.get key rev).run DB.answer s.db).map Prod.fst

def content (s : LinStore) (key : Bytes) : Option Bytes :=
  (s.get key 0).bind fun out => if out.2.2 then some out.1 else none

def mutations (s : LinStore) (q : StoreRequest) : List Mutation :=
  s.front.mutations s.db.latestRev q

def Room (s : LinStore) : StoreRequest → Prop
  | .restore snap => snap.message.currentRev < 2 ^ 63
  | q => s.currentRev + (s.mutations q).length < 2 ^ 63

def Ok (s : LinStore) (a : Action) : Prop := a.asked.ValidKeys ∧ s.Room a.asked

def Appends (s : LinStore) (a : Action) : Prop := s.Ok a ∧ a.asked.appends = true

/-- What becomes of a store in an empty database by requests and crashes. -/
abbrev Reachable : LinStore → Prop := ReachableBy step Ok (opened ∅)

/-- The database holds what a memory backend would hold. -/
structure Backed (s : LinStore) (b : MemoryBackend) : Prop where
  mirrors : Mirrors b s.db
  sound : b.Sound
  front : s.front.Valid

section

variable {s s' : LinStore} {b b' : MemoryBackend} {q : StoreRequest} {key : Bytes} {rev : Int}
  {C P : MemoryBackend → Prop} {a : Action}

theorem valid_new : StoreFront.new.Valid := fun _ k hk => absurd hk (Finset.notMem_empty k)

theorem backed_opened : Backed (opened ∅) .new where
  mirrors := mirrors_empty
  sound := represents_new.sound (fun _ hm => absurd hm List.not_mem_nil) (by decide)
  front := valid_new

theorem Backed.currentRev (h : Backed s b) : s.currentRev = b.currentRev := by
  rw [LinStore.currentRev, h.mirrors.currentRev]
  rfl

theorem Backed.getRevisions (h : Backed s b) (key : Bytes) :
    s.db.getRevisions key = some (b.getRevisions key) := by
  obtain ⟨r, b', d', hmem, hdb, -⟩ := linDB_simulates b s.db (.getRevisions key) h.mirrors trivial
  cases hmem
  obtain ⟨r, hr, he⟩ := Option.map_eq_some_iff.1 hdb
  cases he
  exact hr

theorem Backed.latestRev (h : Backed s b) : s.db.latestRev = (s.front.on b).latestRev := by
  funext key
  rw [DB.latestRev, h.getRevisions, KVStore.latestRev]
  dsimp only [StoreFront.on]
  cases b.getRevisions key with
  | none => rfl
  | some versions => rfl

theorem Backed.get (h : Backed s b) (key : Bytes) (rev : Int) :
    s.get key rev = some ((s.front.on b).get key rev) := by
  obtain ⟨trace, d, -, hdb, -⟩ :=
    linDB_simulates.run (StoreFront.get_served s.front b key rev) h.mirrors
  rw [LinStore.get, hdb]
  rfl

theorem Backed.content (h : Backed s b) (key : Bytes) :
    s.content key = (s.front.on b).value key 0 := by
  rw [LinStore.content, h.get]
  rfl

/-- A request that withstands crashes on the memory backend does so on the database. -/
theorem Backed.step (h : Backed s b) (hC : ∀ b', C b' → b'.Sound) (hP : ∀ b', P b' → b'.Sound)
    (hw : Withstands MemoryBackend.answer MemoryBackend.Legal C
      (fun out b' => P b' ∧ StoreFront.Kept out) b (s.front.handle q)) :
    (∃ s' b', s.step (.request q) = some s' ∧ Backed s' b' ∧ P b') ∧
      ∀ n, ∃ s' b', s.step (.crash q n) = some s' ∧ Backed s' b' ∧ C b' := by
  constructor
  · obtain ⟨out, b', hg, hp, hkept⟩ := hw.goes
    obtain ⟨trace, d, -, hdb, hm⟩ := linDB_simulates.run hg h.mirrors
    refine ⟨⟨out.2, d⟩, b', ?_, ⟨hm, hP b' hp, hkept⟩, hp⟩
    rw [LinStore.step, hdb]
    rfl
  · intro n
    obtain ⟨b', d, -, hdb, hm, hc⟩ := linDB_simulates.cut hw h.mirrors n
    refine ⟨opened d, b', ?_, ⟨hm, hC b' hc, valid_new⟩, hc⟩
    rw [LinStore.step, hdb]
    rfl

theorem Backed.writes (h : Backed s b) (hq : q.ValidKeys) (hroom : s.Room q)
    (ha : q.appends = true) :
    (∃ s' b', s.step (.request q) = some s' ∧ Backed s' b' ∧ Written b (s.mutations q) b') ∧
    ∀ n, ∃ s' b', s.step (.crash q n) = some s' ∧ Backed s' b' ∧ Torn b (s.mutations q) b' := by
  have hfit : s.currentRev + (s.mutations q).length < 2 ^ 63 := by
    cases q with
    | restore snap => cases ha
    | _ => exact hroom
  rw [LinStore.mutations, h.latestRev] at hfit ⊢
  rw [h.currentRev] at hfit
  have hw := StoreFront.handle_writes h.sound h.front hq ha hfit
  exact h.step (fun _ ht => ht.sound) (fun _ hw => hw.sound) hw

theorem Backed.compacts (h : Backed s b) (rev : Int) :
    (∃ s' b', s.step (.request (.compact rev)) = some s' ∧ Backed s' b' ∧ Shrunk b b') ∧
    ∀ n, ∃ s' b', s.step (.crash (.compact rev) n) = some s' ∧ Backed s' b' ∧ Shrunk b b' := by
  apply h.step (fun _ hs => hs.sound) (fun _ hs => hs.sound)
  apply (StoreFront.compact_withstands h.sound rev).bind
  exact fun _ _ hs => .done hs ⟨hs, h.front⟩

/-- Every request is answered, and wherever it stops the database is in order. -/
theorem Backed.serves (h : Backed s b) (hq : q.ValidKeys) (hroom : s.Room q) :
    (∃ s' b', s.step (.request q) = some s' ∧ Backed s' b') ∧
      ∀ n, ∃ s' b', s.step (.crash q n) = some s' ∧ Backed s' b' := by
  have hforget {C P : MemoryBackend → Prop}
      (hall : (∃ s' b', s.step (.request q) = some s' ∧ Backed s' b' ∧ P b') ∧
        ∀ n, ∃ s' b', s.step (.crash q n) = some s' ∧ Backed s' b' ∧ C b') :
      (∃ s' b', s.step (.request q) = some s' ∧ Backed s' b') ∧
        ∀ n, ∃ s' b', s.step (.crash q n) = some s' ∧ Backed s' b' := by
    obtain ⟨⟨s', b', hs', hb', -⟩, hcrash⟩ := hall
    refine ⟨⟨s', b', hs', hb'⟩, fun n => ?_⟩
    obtain ⟨s', b', hs', hb', -⟩ := hcrash n
    exact ⟨s', b', hs', hb'⟩
  cases q with
  | compact rev => exact hforget (h.compacts rev)
  | restore snap =>
    apply hforget
    apply h.step (P := MemoryBackend.Sound) (fun _ hb => hb) (fun _ hb => hb)
    apply (StoreFront.restore_withstands h.sound h.front hq hroom).bind
    exact fun _ _ hend => .done hend.1 hend
  | _ => exact hforget (h.writes hq hroom rfl)

theorem Reachable.backed (h : Reachable s) : ∃ b, Backed s b := by
  induction h with
  | init => exact ⟨.new, backed_opened⟩
  | @step s a s' _ hok hs ih =>
    obtain ⟨b, hb⟩ := ih
    obtain ⟨hrequest, hcrash⟩ := hb.serves hok.1 hok.2
    cases a with
    | request q =>
      obtain ⟨s'', b', hs'', hb'⟩ := hrequest
      cases hs.symm.trans hs''
      exact ⟨b', hb'⟩
    | crash q n =>
      obtain ⟨s'', b', hs'', hb'⟩ := hcrash n
      cases hs.symm.trans hs''
      exact ⟨b', hb'⟩

theorem Backed.run (h : Backed s b) (hrun : ReachableBy LinStore.step Appends s s') :
    ∃ b' entries, Backed s' b' ∧ Grown b entries b' := by
  induction hrun with
  | init => exact ⟨b, [], h, .refl h.sound⟩
  | @step t a t' _ hok hs ih =>
    obtain ⟨b₁, entries, hb₁, hg⟩ := ih
    obtain ⟨⟨hq, hroom⟩, ha⟩ := hok
    obtain ⟨hrequest, hcrash⟩ := hb₁.writes hq hroom ha
    cases a with
    | request q =>
      obtain ⟨t'', b', ht'', hb', -, entries', -, hg'⟩ := hrequest
      cases hs.symm.trans ht''
      exact ⟨b', _, hb', hg.trans hg'⟩
    | crash q n =>
      obtain ⟨t'', b', ht'', hb', entries', -, hg'⟩ := hcrash n
      cases hs.symm.trans ht''
      exact ⟨b', _, hb', hg.trans hg'⟩

theorem Backed.content_eq (h : Backed s b) : s.content = fun key => newest (b.versions key) := by
  funext key
  rw [h.content, h.sound.value_zero]

theorem Backed.grown (h : Backed s b) (h' : Backed s' b') {entries : List Entry}
    (hg : Grown b entries b') : s'.content = contentAfter s.content (entries.map Prod.snd) := by
  rw [h'.content_eq, h.content_eq]
  funext key
  exact hg.newest key

theorem Backed.shrunk (h : Backed s b) (h' : Backed s' b') (hs : Shrunk b b') :
    s'.content = s.content := by
  rw [h'.content_eq, h.content_eq]
  funext key
  rw [newest, newest, hs.last]

end

instance Room.decidable (s : LinStore) : (q : StoreRequest) → Decidable (s.Room q)
  | .restore snap => inferInstanceAs (Decidable (snap.message.currentRev < 2 ^ 63))
  | .put .. | .delete _ | .txn .. | .leaseGrant .. | .leaseKeepAlive .. | .leaseRevoke ..
  | .compact _ | .get .. | .range .. | .prefixRange .. | .watch .. | .snapshot _ =>
    inferInstanceAs (Decidable (s.currentRev + _ < 2 ^ 63))

instance Ok.decidable (s : LinStore) (a : Action) : Decidable (s.Ok a) :=
  inferInstanceAs (Decidable (a.asked.ValidKeys ∧ s.Room a.asked))

instance Appends.decidable (s : LinStore) (a : Action) : Decidable (s.Appends a) :=
  inferInstanceAs (Decidable (s.Ok a ∧ a.asked.appends = true))

end LinStore

open LinStore

/-- A store on Lin-DB, whatever requests and crashes it has been through: it answers the next
request, which performs its mutations, and if the process stops after any number of calls of the
backend, those that are done are the first of them. -/
theorem interrupted_request_leaves_prefix {s : LinStore} (h : s.Reachable) (hq : q.ValidKeys)
    (hroom : s.Room q) (hr : ∀ snap, q ≠ .restore snap) :
    (∃ s', s.step (.request q) = some s' ∧
      s'.content = contentAfter s.content (s.mutations q)) ∧
    ∀ n, ∃ s', s.step (.crash q n) = some s' ∧
      ∃ k, s'.content = contentAfter s.content ((s.mutations q).take k) := by
  obtain ⟨b, hb⟩ := Reachable.backed h
  cases ha : q.appends with
  | true =>
    obtain ⟨⟨s', b', hs', hb', -, entries, hms, hg⟩, hcrash⟩ := hb.writes hq hroom ha
    refine ⟨⟨s', hs', hms ▸ hb.grown hb' hg⟩, fun n => ?_⟩
    obtain ⟨s', b', hs', hb', entries, hpre, hg⟩ := hcrash n
    refine ⟨s', hs', entries.length, ?_⟩
    have htake := List.prefix_iff_eq_take.1 hpre
    rw [List.length_map] at htake
    rw [← htake]
    exact hb.grown hb' hg
  | false =>
    obtain ⟨rev, rfl⟩ : ∃ rev, q = .compact rev := by
      cases q with
      | compact rev => exact ⟨rev, rfl⟩
      | restore snap => exact absurd rfl (hr snap)
      | _ => cases ha
    obtain ⟨⟨s', b', hs', hb', hshrunk⟩, hcrash⟩ := hb.compacts rev
    refine ⟨⟨s', hs', hb.shrunk hb' hshrunk⟩, fun n => ?_⟩
    obtain ⟨s', b', hs', hb', hshrunk⟩ := hcrash n
    exact ⟨s', hs', 0, hb.shrunk hb' hshrunk⟩

def twoPuts : StoreRequest :=
  .txn 0 ⟨[⟨[0x61], .greater, 0⟩], [⟨.put, [0x61], [2], 0⟩, ⟨.put, [0x62], [3], 0⟩], []⟩

/-- A deletion has stopped when it had its revision but no version. Then a transaction stops
between its two puts. -/
theorem interrupted_request_leaves_prefix_txn : ∃ s s' : LinStore, s.Reachable ∧
    s.currentRev = 2 ∧ s.content [0x61] = some [1] ∧
    s.mutations twoPuts = [([0x61], some [2]), ([0x62], some [3])] ∧
    s.step (.crash twoPuts 7) = some s' ∧ s'.content [0x61] = some [2] ∧
    s'.content [0x62] = none ∧ ∃ k, s'.content = contentAfter s.content
      (([([0x61], some [2]), ([0x62], some [3])] : List Mutation).take k) := by
  have hrun : RunsTo LinStore.step Ok (fun s => s.Room twoPuts ∧ s.currentRev = 2 ∧
      s.content [0x61] = some [1] ∧
      s.mutations twoPuts = [([0x61], some [2]), ([0x62], some [3])] ∧
      (s.step (.crash twoPuts 7)).elim False fun s' =>
        s'.content [0x61] = some [2] ∧ s'.content [0x62] = none) (opened ∅)
      [.request (.put 0 [0x61] [1] 0), .crash (.delete [0x61]) 3] := by
    decide +kernel
  obtain ⟨s, hs, hroom, hcur, hone, hms, hcut⟩ := hrun.reachable
  obtain ⟨s', hs', htwo, hnone⟩ := exists_of_elim hcut
  have hrestore : ∀ snap, twoPuts ≠ .restore snap := by
    intro snap he
    cases he
  obtain ⟨-, hcrash⟩ := interrupted_request_leaves_prefix hs (by decide) hroom hrestore
  obtain ⟨t, ht, k, hk⟩ := hcrash 7
  cases hs'.symm.trans ht
  rw [hms] at hk
  exact ⟨s, s', hs, hcur, hone, hms, hs', htwo, hnone, k, hk⟩

/-- The past outlives crashes: what `Get` returns for a revision that is there stays the same, over
any number of requests and of processes that stop in the middle of one, as long as nothing is
compacted or restored. -/
theorem past_outlives_crashes {s s' : LinStore} (h : s.Reachable)
    (hrun : ReachableBy LinStore.step Appends s s') (hne : rev ≠ 0) (hle : rev ≤ s.currentRev)
    (key : Bytes) : s'.get key rev = s.get key rev := by
  obtain ⟨b, hb⟩ := Reachable.backed h
  obtain ⟨b', entries, hb', hg⟩ := hb.run hrun
  rw [hb.currentRev] at hle
  rw [hb.get, hb'.get, hg.get hb.sound hne hle]

/-- Revision 1 is read the same after a transaction that has stopped and a deletion. -/
theorem past_outlives_crashes_txn : ∃ s s' : LinStore, s.Reachable ∧
    ReachableBy LinStore.step Appends s s' ∧ s'.currentRev = 3 ∧ s'.content [0x61] = none ∧
    s'.get [0x61] 1 = some ([1], 1, true) := by
  have hrun : RunsTo LinStore.step Ok (fun s => s.currentRev = 1 ∧
      s.get [0x61] 1 = some ([1], 1, true) ∧
      RunsTo LinStore.step Appends (fun s' => s'.currentRev = 3 ∧ s'.content [0x61] = none) s
        [.crash twoPuts 6, .request (.delete [0x61])]) (opened ∅)
      [.request (.put 0 [0x61] [1] 0)] := by
    decide +kernel
  obtain ⟨s, hs, hcur, hget, hthen⟩ := hrun.reachable
  obtain ⟨s', hs', hcur', hnone⟩ := RunsTo.reachable hthen
  have hle : 1 ≤ s.currentRev := Int.le_of_eq hcur.symm
  have hsame := past_outlives_crashes hs hs' (by decide) hle [0x61]
  exact ⟨s, s', hs, hs', hcur', hnone, hsame.trans hget⟩

section

variable {snap : OwnSnapshot}

theorem StoreFront.run_restore (hacc : snap.message.accepted = true) (b : MemoryBackend) :
    (StoreFront.new.handle (.restore snap)).run MemoryBackend.answer b =
      (StoreFront.new.handle (.restore snap)).run MemoryBackend.answer .new := by
  unfold StoreFront.handle StoreFront.restore
  dsimp only
  rw [if_pos hacc]
  rfl

theorem StoreFront.restore_served_over (hq : StoreRequest.ValidKeys (.restore snap))
    (hfit : snap.message.currentRev < 2 ^ 63) (b : MemoryBackend) :
    ∃ out b', Served b (StoreFront.new.handle (.restore snap)) out b' := by
  obtain ⟨t, order, h, hmsg, hr, hvalid⟩ := OwnSnapshot.source hq
  have hcur : snap.message.currentRev = t.backend.currentRev := by rw [hmsg]; rfl
  exact ⟨_, _, Goes.bind (hmsg ▸ restore_served .new b hr hvalid (.inl (hcur ▸ hfit))) .done⟩

end

/-- A snapshot heals what crashes have left: a store that is opened on such a database and restored
from an accepted snapshot cannot be told from a new one in memory with the same snapshot. -/
theorem snapshot_heals_crashes {s : LinStore} (h : s.Reachable) {snap : OwnSnapshot}
    (hacc : snap.message.accepted = true)
    (hvalid : ∀ q ∈ .restore snap :: qs, q.ValidKeys)
    (hfits : ∀ n, (((.restore snap :: qs).take n).foldl KVStore.next .new).backend.currentRev <
      2 ^ 63) :
    ∃ out f b d,
      serve MemoryBackend.answer StoreFront.handle .new .new (.restore snap :: qs) =
        some (out, f, b) ∧
      serve DB.answer StoreFront.handle .new s.db (.restore snap :: qs) = some (out, f, d) ∧
      f.on b = (.restore snap :: qs).foldl KVStore.next .new := by
  obtain ⟨b₀, hb₀⟩ := Reachable.backed h
  have hq := hvalid _ List.mem_cons_self
  obtain ⟨a, f, b, hg, hc⟩ := carries_new.handle hq (hfits 1)
  obtain ⟨trace, -, hrun, -⟩ := linDB_simulates.run hg mirrors_empty
  have hfit : snap.message.currentRev < 2 ^ 63 := by
    have := hfits 1
    simp only [List.take_succ_cons, List.take_zero, List.foldl_cons, List.foldl_nil, KVStore.next,
      KVStore.handle, KVStore.restore, hacc, if_true] at this
    exact this
  obtain ⟨out', b', hg'⟩ := StoreFront.restore_served_over hq hfit b₀
  obtain ⟨trace', d, hrun', hdb, hm⟩ := linDB_simulates.run hg' hb₀.mirrors
  rw [StoreFront.run_restore hacc, hrun] at hrun'
  cases hrun'
  obtain ⟨out, f', b', d', hmem, hdb', hend, -⟩ := linDB_simulates.serve KVStore.next Carries
    (fun s => s.backend.currentRev < 2 ^ 63) StoreRequest.ValidKeys
    (fun s f b q hc hq hfit => hc.handle hq hfit) hc hm
    (fun q hq => hvalid q (List.mem_cons_of_mem _ hq)) fun n => hfits (n + 1)
  refine ⟨(a, trace) :: out, f', b', d', ?_, ?_, hend.on⟩
  · rw [Calls.serve, hrun]
    dsimp only
    rw [hmem, Option.map_some]
  · rw [Calls.serve, hdb]
    dsimp only
    rw [hdb', Option.map_some]

theorem leasedKey_taken : ∃ t order, KVStore.Reachable t ∧ RangeOrder order t.leases.keys ∧
    leasedKey.snapshot [1] = t.snapshot order :=
  ⟨leasedKey, [1], leasedKey_reachable, by decide, rfl⟩

/-- A snapshot of another store, with a key under a lease. -/
def leasedSnapshot : OwnSnapshot := ⟨leasedKey.snapshot [1], leasedKey_taken⟩

/-- It takes the place of what a transaction has left that stopped between its puts. -/
theorem snapshot_heals_crashes_txn : ∃ s : LinStore, s.Reachable ∧ s.currentRev = 2 ∧
    ∃ out f b d,
      serve MemoryBackend.answer StoreFront.handle .new .new
        [.restore leasedSnapshot, .put 0 [0x61] [4] 0] = some (out, f, b) ∧
      serve DB.answer StoreFront.handle .new s.db
        [.restore leasedSnapshot, .put 0 [0x61] [4] 0] = some (out, f, d) ∧
      f.on b = [.restore leasedSnapshot, .put 0 [0x61] [4] 0].foldl KVStore.next .new := by
  have hrun : RunsTo LinStore.step Ok (fun s => s.currentRev = 2) (opened ∅)
      [.request (.put 0 [0x61] [1] 0), .crash twoPuts 6] := by
    decide +kernel
  obtain ⟨s, hs, hcur⟩ := hrun.reachable
  have hvalid : ∀ q ∈ [StoreRequest.restore leasedSnapshot, .put 0 [0x61] [4] 0],
      q.ValidKeys := by
    decide +kernel
  have hfits : ∀ n < 3, (([.restore leasedSnapshot, .put 0 [0x61] [4] 0].take n).foldl
      KVStore.next .new).backend.currentRev < 2 ^ 63 := by
    decide +kernel
  refine ⟨s, hs, hcur, snapshot_heals_crashes hs (by decide +kernel) hvalid fun n => ?_⟩
  by_cases hn : n < 3
  · exact hfits n hn
  · rw [List.take_of_length_le (Nat.le_trans (by decide) (Nat.not_lt.1 hn))]
    exact hfits 2 (by decide)

/-- The mutation of a put without a lease, or of a deletion. -/
def StoreRequest.plain : StoreRequest → Option Mutation
  | .put _ key value 0 => some (key, some value)
  | .delete key => some (key, none)
  | _ => none

section

variable {s : LinStore} {b : MemoryBackend} {q : StoreRequest} {qs : List StoreRequest}
  {m : Mutation}

theorem StoreRequest.mutations_of_plain (h : q.plain = some m) (f : StoreFront)
    (latest : Bytes → Int) : f.mutations latest q = [m] ∧ q.appends = true := by
  unfold StoreRequest.plain at h
  split at h
  · cases h
    exact ⟨rfl, rfl⟩
  · cases h
    exact ⟨rfl, rfl⟩
  · cases h

theorem LinStore.Backed.requests (h : Backed s b) (hplain : ∀ q ∈ qs, q.plain.isSome = true)
    (hvalid : ∀ q ∈ qs, q.ValidKeys) (hfit : b.currentRev + qs.length < 2 ^ 63) :
    ∃ s' b', Run LinStore.step Ok s (qs.map .request) s' ∧ Backed s' b' ∧
      Written b (qs.filterMap StoreRequest.plain) b' ∧
      (qs.filterMap StoreRequest.plain).length = qs.length := by
  induction qs generalizing s b with
  | nil => exact ⟨s, b, .nil, h, .nil h.sound, rfl⟩
  | cons q qs ih =>
    obtain ⟨m, hm⟩ := Option.isSome_iff_exists.1 (hplain q List.mem_cons_self)
    obtain ⟨hms, ha⟩ := StoreRequest.mutations_of_plain hm s.front s.db.latestRev
    have hq := hvalid q List.mem_cons_self
    rw [List.length_cons] at hfit
    have hroom : s.Room q := by
      have hlt : s.currentRev + (s.mutations q).length < 2 ^ 63 := by
        rw [LinStore.mutations, hms, h.currentRev, List.length_singleton]
        omega
      cases q with
      | restore snap => cases ha
      | _ => exact hlt
    obtain ⟨⟨s₁, b₁, hs₁, hb₁, hw⟩, -⟩ := h.writes hq hroom ha
    rw [LinStore.mutations, hms] at hw
    have hcur := hw.1
    rw [List.length_singleton] at hcur
    obtain ⟨s', b', hrun, hb', hw', hlen⟩ := ih hb₁
      (fun q hq => hplain q (List.mem_cons_of_mem _ hq))
      (fun q hq => hvalid q (List.mem_cons_of_mem _ hq)) (by omega)
    rw [List.filterMap_cons, hm]
    refine ⟨s', b', .cons ⟨hq, hroom⟩ hs₁ hrun, hb', hw.trans hw', ?_⟩
    rw [List.length_cons, List.length_cons, hlen]

/-- What mutations leave of a key depends on what was there only if none is about it. -/
theorem contentAfter_or (c c' : Bytes → Option Bytes) (ms : List Mutation) (key : Bytes) :
    contentAfter c ms key = contentAfter c' ms key ∨ contentAfter c' ms key = c' key := by
  induction ms using List.reverseRecOn with
  | nil => exact .inr rfl
  | append_singleton ms m ih =>
    rw [contentAfter_concat, contentAfter_concat]
    by_cases hk : key = m.1
    · left
      rw [hk, Function.update_self, Function.update_self]
    · rw [Function.update_of_ne hk, Function.update_of_ne hk]
      exact ih

theorem contentAfter_twice (c : Bytes → Option Bytes) (ms : List Mutation) :
    contentAfter (contentAfter c ms) ms = contentAfter c ms := by
  funext key
  rcases contentAfter_or c (contentAfter c ms) ms key with h | h
  · exact h.symm
  · exact h

end

/-- A node on Lin-DB that restarts without a snapshot is handed its log once more, on top of what
it has kept: the content is what it was, at twice the revisions of a node that has not
restarted. -/
theorem replay_doubles_revisions {qs : List StoreRequest}
    (hplain : ∀ q ∈ qs, q.plain.isSome = true) (hvalid : ∀ q ∈ qs, q.ValidKeys)
    (hfit : 2 * (qs.length : Int) < 2 ^ 63) :
    ∃ s s', Run LinStore.step Ok (opened ∅) (qs.map .request) s ∧ s.currentRev = qs.length ∧
      Run LinStore.step Ok (opened s.db) (qs.map .request) s' ∧
      s'.currentRev = 2 * (qs.length : Int) ∧ s'.content = s.content := by
  have hnew : MemoryBackend.new.currentRev = 0 := rfl
  obtain ⟨s, b, hrun, hb, ⟨hcur, entries, hms, hg⟩, hlen⟩ :=
    backed_opened.requests hplain hvalid (by omega)
  have hb' : Backed (opened s.db) b := ⟨hb.mirrors, hb.sound, valid_new⟩
  obtain ⟨s', b', hrun', hb'', ⟨hcur', entries', hms', hg'⟩, -⟩ :=
    hb'.requests hplain hvalid (by omega)
  refine ⟨s, s', hrun, ?_, hrun', ?_, ?_⟩
  · rw [hb.currentRev]
    omega
  · rw [hb''.currentRev]
    omega
  · have hsame : (opened s.db).content = s.content := rfl
    rw [hb'.grown hb'' hg', hsame, backed_opened.grown hb hg, hms', hms, contentAfter_twice]

/-- Two puts and a deletion. -/
theorem replay_doubles_revisions_three : ∃ s s' : LinStore, s.currentRev = 3 ∧
    s'.currentRev = 6 ∧ s'.content = s.content := by
  let qs : List StoreRequest := [.put 0 [0x61] [1] 0, .put 0 [0x62] [2] 0, .delete [0x61]]
  have hplain : ∀ q ∈ qs, q.plain.isSome = true := by decide
  obtain ⟨s, s', -, hcur, -, hcur', hsame⟩ :=
    replay_doubles_revisions hplain (by decide) (by decide)
  exact ⟨s, s', hcur, hcur', hsame⟩

end LinKV

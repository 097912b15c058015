import LinKV.Mvcc.Types

namespace LinKV
set_option autoImplicit true

/-- The loop of `sort.Search`; it ends within as many rounds as the range is long. -/
def searchFrom (f : Nat → Bool) : Nat → Nat → Nat → Nat
  | 0, i, _ => i
  | fuel + 1, i, j =>
    if i < j then
      if f ((i + j) / 2) then searchFrom f fuel i ((i + j) / 2)
      else searchFrom f fuel ((i + j) / 2 + 1) j
    else i

def search (n : Nat) (f : Nat → Bool) : Nat := searchFrom f n 0 n

def orderedKeyRangeStart (keys : List Bytes) (target : Bytes) : Nat :=
  search keys.length fun i => ¬ keys.getD i [] < target

def orderedKeyRangeEnd (keys : List Bytes) (start : Nat) (endKey : Bytes) : Nat :=
  if endKey = [] then keys.length
  else start + search (keys.length - start) fun i => ¬ keys.getD (start + i) [] < endKey

/-- The search loop of `Get` and `latestVisibleRevision`, with `right` one past the end: the
last version at or before `rev`, if the list is sorted. -/
def visibleFrom (versions : List ValueRevision) (rev : Int) :
    Nat → Nat → Nat → Option ValueRevision → Option ValueRevision
  | 0, _, _, pos => pos
  | fuel + 1, left, right, pos =>
    if left < right then
      match versions[(left + right - 1) / 2]? with
      | none => pos
      | some v =>
        if v.rev.main ≤ rev then
          visibleFrom versions rev fuel ((left + right - 1) / 2 + 1) right (some v)
        else visibleFrom versions rev fuel left ((left + right - 1) / 2) pos
    else pos

/-- The version `Get` and `Range` read at `rev`; `none` also for a tombstone. -/
def latestVisibleRevision (versions : List ValueRevision) (rev : Int) : Option ValueRevision :=
  match visibleFrom versions rev versions.length 0 versions.length none with
  | none => none
  | some v => if v.deleted then none else some v

namespace MemoryBackend

def getRevisions (b : MemoryBackend) (key : Bytes) : Option Versions := b.data.lookup key

def insertKeyIntoIndex (b : MemoryBackend) (key : Bytes) : MemoryBackend :=
  let pos := orderedKeyRangeStart b.sortedKeys key
  if b.sortedKeys[pos]? = some key then b
  else { b with sortedKeys := b.sortedKeys.take pos ++ key :: b.sortedKeys.drop pos }

def deleteKeyFromIndex (b : MemoryBackend) (key : Bytes) : MemoryBackend :=
  let pos := orderedKeyRangeStart b.sortedKeys key
  if b.sortedKeys[pos]? = some key then
    { b with sortedKeys := b.sortedKeys.take pos ++ b.sortedKeys.drop (pos + 1) }
  else b

def setRevisions (b : MemoryBackend) (key : Bytes) (revisions : List ValueRevision) :
    MemoryBackend :=
  if h : revisions = [] then
    { b with data := b.data.erase key }.deleteKeyFromIndex key
  else
    let b := if key ∈ b.data then b else b.insertKeyIntoIndex key
    { b with data := b.data.insert key ⟨revisions, h⟩ }

def rangeKeys (b : MemoryBackend) (startKey endKey : Bytes) : List Bytes :=
  let start := orderedKeyRangeStart b.sortedKeys startKey
  (b.sortedKeys.take (orderedKeyRangeEnd b.sortedKeys start endKey)).drop start

def appendEvent (b : MemoryBackend) (event : MvccEvent) : MemoryBackend :=
  { b with events := b.events ++ [event] }

section

variable {b : MemoryBackend} {key k : Bytes} {revisions : List ValueRevision}

theorem insertKeyIntoIndex_data : (b.insertKeyIntoIndex key).data = b.data := by
  unfold insertKeyIntoIndex
  simp only
  split <;> rfl

theorem insertKeyIntoIndex_frame : (b.insertKeyIntoIndex key).events = b.events ∧
    (b.insertKeyIntoIndex key).currentRev = b.currentRev ∧
    (b.insertKeyIntoIndex key).compactRev = b.compactRev := by
  unfold insertKeyIntoIndex
  simp only
  split <;> exact ⟨rfl, rfl, rfl⟩

theorem setRevisions_frame (b : MemoryBackend) (key : Bytes) (revisions : List ValueRevision)
    (h : revisions ≠ []) : (b.setRevisions key revisions).events = b.events ∧
    (b.setRevisions key revisions).currentRev = b.currentRev ∧
    (b.setRevisions key revisions).compactRev = b.compactRev := by
  unfold setRevisions
  rw [dif_neg h]
  simp only
  split
  · exact ⟨rfl, rfl, rfl⟩
  · exact insertKeyIntoIndex_frame

theorem getRevisions_setRevisions (h : revisions ≠ []) :
    (b.setRevisions key revisions).getRevisions k =
      if k = key then some ⟨revisions, h⟩ else b.getRevisions k := by
  have hdata : (b.setRevisions key revisions).data = b.data.insert key ⟨revisions, h⟩ := by
    unfold setRevisions
    rw [dif_neg h]
    simp only
    split
    · rfl
    · rw [insertKeyIntoIndex_data]
  unfold getRevisions
  rw [hdata]
  split
  · next he => rw [he, Finmap.lookup_insert]
  · next he => rw [Finmap.lookup_insert_of_ne _ he]

end

end MemoryBackend

end LinKV

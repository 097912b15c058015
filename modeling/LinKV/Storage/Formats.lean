import LinKV.Storage.Disk
import LinKV.Mvcc.Store

namespace LinKV
set_option autoImplicit true

/-- A byte slice of Go: its length is an `int`. -/
abbrev GoBytes := { data : Bytes // data.length < 2 ^ 63 }

/-- `data[i:j]`, which panics for bounds out of range. -/
def sliceOf (data : Bytes) (i j : Int) : Option Bytes :=
  if 0 ≤ i ∧ i ≤ j ∧ j ≤ data.length then some ((data.drop i.toNat).take (j - i).toNat) else none

/-- `decodePersistFile` with its slices and the conversions of its lengths: `none` is a panic. -/
def decodePersistFileChecked (data : Bytes) : Option (Except FormatError (Bytes × Bytes)) :=
  if data.length = 0 then some (.ok ([], []))
  else if data.length < 20 then some (.error (.tooShort data.length))
  else do
    let magic ← sliceOf data 0 4
    if magic ≠ diskMagic then return .error (.invalidMagic magic)
    let raftLen := ofBigEndian (← sliceOf data 4 12)
    let snapLen := ofBigEndian (← sliceOf data 12 20)
    let payloadLen := (data.length - 20) % 2 ^ 64
    if payloadLen < raftLen then return .error (.sizeMismatch raftLen payloadLen)
    if snapLen ≠ payloadLen - raftLen then
      return .error (.sizeMismatch snapLen (payloadLen - raftLen))
    let raftEnd := wrap64 (20 + wrap64 raftLen)
    let snapEnd := wrap64 (raftEnd + wrap64 snapLen)
    let raftstate ← sliceOf data 20 raftEnd
    let snapshot ← sliceOf data raftEnd snapEnd
    return .ok (raftstate, snapshot)

/-- The legacy format: a magic, the lengths of the two parts, the parts. -/
def legacyFile (raftstate snapshot : Bytes) : Bytes :=
  diskMagic ++ putUint64 raftstate.length ++ putUint64 snapshot.length ++ raftstate ++ snapshot

section

variable {data raftstate snapshot : Bytes}

theorem sliceOf_of_le {i j : Nat} (hi : i ≤ j) (hj : j ≤ data.length) :
    sliceOf data i j = some ((data.drop i).take (j - i)) := by
  rw [sliceOf, if_pos (by omega)]
  congr 2
  omega

theorem take_append_drop_add (data : Bytes) (i j : Nat) :
    (data.drop i).take j ++ data.drop (i + j) = data.drop i := by
  rw [← List.drop_drop, List.take_append_drop]

theorem decodePersistFile_eq_ok (h : decodePersistFile data = .ok (raftstate, snapshot))
    (hne : data ≠ []) (hlen : data.length < 2 ^ 63) :
    20 ≤ data.length ∧ data.take 4 = diskMagic ∧
    20 + uint64At data 4 + uint64At data 12 = data.length ∧
    raftstate = (data.drop 20).take (uint64At data 4) ∧
    snapshot = (data.drop (20 + uint64At data 4)).take (uint64At data 12) := by
  unfold decodePersistFile at h
  rw [if_neg hne] at h
  split at h
  · cases h
  rename_i hlong
  split at h
  · cases h
  rename_i hmagic
  dsimp only at h
  split at h
  · cases h
  rename_i hraft
  split at h
  · cases h
  rename_i hsnap
  cases h
  refine ⟨Nat.not_lt.1 hlong, not_not.1 hmagic, ?_, rfl, rfl⟩
  have hsnap := not_not.1 hsnap
  omega

theorem length_legacyFile (raftstate snapshot : Bytes) :
    (legacyFile raftstate snapshot).length = 20 + raftstate.length + snapshot.length := by
  simp only [legacyFile, putUint64, List.length_append, length_bigEndian]
  rfl

theorem decodePersistFile_legacyFile (h : (legacyFile raftstate snapshot).length < 2 ^ 63) :
    decodePersistFile (legacyFile raftstate snapshot) = .ok (raftstate, snapshot) := by
  have hlen := length_legacyFile raftstate snapshot
  have hne : legacyFile raftstate snapshot ≠ [] := by
    intro he
    rw [he] at hlen
    simp only [List.length_nil] at hlen
    omega
  have hdrop4 : (legacyFile raftstate snapshot).drop 4 =
      putUint64 raftstate.length ++ (putUint64 snapshot.length ++ (raftstate ++ snapshot)) := by
    simp only [legacyFile, List.append_assoc]
    exact List.drop_left' rfl
  obtain ⟨hraft, hdrop12⟩ := uint64At_of_drop hdrop4
  obtain ⟨hsnap, hdrop20⟩ := uint64At_of_drop hdrop12
  rw [Nat.mod_eq_of_lt (by omega)] at hraft hsnap
  have hmagic : (legacyFile raftstate snapshot).take 4 = diskMagic := by
    simp only [legacyFile, List.append_assoc]
    exact List.take_left' rfl
  have hparts : (legacyFile raftstate snapshot).drop (20 + raftstate.length) = snapshot := by
    rw [← List.drop_drop, hdrop20, List.drop_left]
  have hpayload : ((legacyFile raftstate snapshot).length - 20) % 2 ^ 64 =
      raftstate.length + snapshot.length := by
    omega
  rw [decodePersistFile, if_neg hne, if_neg (by omega), if_neg (not_not.2 hmagic)]
  dsimp only
  rw [hraft, hsnap, hpayload, if_neg (by omega), if_neg (not_not.2 (by omega)), hdrop20, hparts,
    List.take_left, List.take_length]

/-- A legacy file is accepted exactly if it is empty or is what its parts are written as. -/
theorem decodePersistFile_eq_ok_iff (hlen : data.length < 2 ^ 63) :
    decodePersistFile data = .ok (raftstate, snapshot) ↔
      data = [] ∧ raftstate = [] ∧ snapshot = [] ∨ data = legacyFile raftstate snapshot := by
  constructor
  · intro h
    by_cases hne : data = []
    · subst hne
      cases h
      exact .inl ⟨rfl, rfl, rfl⟩
    · obtain ⟨hlong, hmagic, hsum, hr, hs⟩ := decodePersistFile_eq_ok h hne hlen
      right
      have hrlen : raftstate.length = uint64At data 4 := by
        rw [hr, List.length_take, List.length_drop]
        omega
      have hslen : snapshot.length = uint64At data 12 := by
        rw [hs, List.length_take, List.length_drop]
        omega
      have hraft : (data.drop 4).take 8 = putUint64 raftstate.length := by
        rw [eq_putUint64_iff (by omega)]
        omega
      have hsnap : (data.drop 12).take 8 = putUint64 snapshot.length := by
        rw [eq_putUint64_iff (by omega)]
        omega
      have hrest : snapshot = data.drop (20 + uint64At data 4) := by
        rw [hs, List.take_of_length_le]
        rw [List.length_drop]
        omega
      calc data = data.take 4 ++ ((data.drop 4).take 8 ++ ((data.drop 12).take 8 ++
            ((data.drop 20).take (uint64At data 4) ++ data.drop (20 + uint64At data 4)))) := by
              rw [take_append_drop_add, take_append_drop_add data 12 8,
                take_append_drop_add data 4 8, List.take_append_drop]
        _ = legacyFile raftstate snapshot := by
              rw [hmagic, hraft, hsnap, ← hr, ← hrest, legacyFile]
              simp only [List.append_assoc]
  · rintro (⟨rfl, rfl, rfl⟩ | rfl)
    · rfl
    · exact decodePersistFile_legacyFile hlen

theorem wrap64_natCast {n : Nat} (h : n < 2 ^ 63) : wrap64 n = n :=
  wrap64_of_range (by omega) (by omega)

theorem sliceOf_parts (hlen : data.length < 2 ^ 63) (hsum : 20 + r + s = data.length) :
    sliceOf data 20 (wrap64 (20 + wrap64 r)) = some ((data.drop 20).take r) ∧
    sliceOf data (wrap64 (20 + wrap64 r)) (wrap64 (wrap64 (20 + wrap64 r) + wrap64 s)) =
      some ((data.drop (20 + r)).take s) := by
  have hraftEnd : wrap64 (20 + wrap64 r) = ((20 + r : Nat) : Int) := by
    rw [wrap64_natCast (by omega)]
    exact wrap64_natCast (n := 20 + r) (by omega)
  have hsnapEnd : wrap64 (((20 + r : Nat) : Int) + wrap64 s) = ((20 + r + s : Nat) : Int) := by
    rw [wrap64_natCast (n := s) (by omega)]
    exact wrap64_natCast (n := 20 + r + s) (by omega)
  rw [hraftEnd, hsnapEnd]
  constructor
  · have hslice : sliceOf data 20 ((20 + r : Nat) : Int) =
        some ((data.drop 20).take (20 + r - 20)) :=
      sliceOf_of_le (i := 20) (by omega) (by omega)
    rwa [Nat.add_sub_cancel_left] at hslice
  · rw [sliceOf_of_le (by omega) (by omega), Nat.add_sub_cancel_left]

/-- No slice of `decodePersistFile` is out of range and no conversion changes a length. -/
theorem decodePersistFileChecked_eq (hlen : data.length < 2 ^ 63) :
    decodePersistFileChecked data = some (decodePersistFile data) := by
  unfold decodePersistFileChecked decodePersistFile
  by_cases hne : data = []
  · rw [if_pos hne, if_pos (List.length_eq_zero_iff.2 hne)]
  rw [if_neg hne, if_neg (mt List.length_eq_zero_iff.1 hne)]
  by_cases hlong : data.length < 20
  · rw [if_pos hlong, if_pos hlong]
  rw [if_neg hlong, if_neg hlong]
  have hmagic : sliceOf data 0 4 = some (data.take 4) :=
    sliceOf_of_le (i := 0) (j := 4) (by omega) (by omega)
  have hraft : sliceOf data 4 12 = some ((data.drop 4).take 8) :=
    sliceOf_of_le (i := 4) (j := 12) (by omega) (by omega)
  have hsnap : sliceOf data 12 20 = some ((data.drop 12).take 8) :=
    sliceOf_of_le (i := 12) (j := 20) (by omega) (by omega)
  have hat (start) : ofBigEndian ((data.drop start).take 8) = uint64At data start := rfl
  simp only [hmagic, hraft, hsnap, hat, Option.bind_eq_bind, Option.bind_some]
  by_cases hm : data.take 4 ≠ diskMagic
  · rw [if_pos hm, if_pos hm]
    rfl
  rw [if_neg hm, if_neg hm]
  by_cases hr : (data.length - 20) % 2 ^ 64 < uint64At data 4
  · rw [if_pos hr, if_pos hr]
    rfl
  rw [if_neg hr, if_neg hr]
  by_cases hs : uint64At data 12 ≠ (data.length - 20) % 2 ^ 64 - uint64At data 4
  · rw [if_pos hs, if_pos hs]
    rfl
  rw [if_neg hs, if_neg hs]
  have hs := not_not.1 hs
  have hsum : 20 + uint64At data 4 + uint64At data 12 = data.length := by omega
  obtain ⟨hraftstate, hsnapshot⟩ := sliceOf_parts hlen hsum
  rw [hraftstate, hsnapshot]
  rfl

end

/-- `decodePersistFile` never slices out of range. It accepts the empty file, as two empty parts,
and the files that consist of the magic, the lengths of the two parts and the parts. The lengths
it computes with for such a file are those of the parts, and their sum with the header is that of
the file. -/
theorem legacy_file_exact (data : GoBytes) :
    ∃ result, decodePersistFileChecked data.1 = some result ∧
    ∀ raftstate snapshot,
      (result = .ok (raftstate, snapshot) ↔
        data.1 = [] ∧ raftstate = [] ∧ snapshot = [] ∨
          data.1 = diskMagic ++ putUint64 raftstate.length ++ putUint64 snapshot.length ++
            raftstate ++ snapshot) ∧
      (result = .ok (raftstate, snapshot) → data.1 ≠ [] →
        wrap64 (uint64At data.1 4) = raftstate.length ∧
        wrap64 (uint64At data.1 12) = snapshot.length ∧
        wrap64 (20 + raftstate.length) = 20 + raftstate.length ∧
        wrap64 (20 + raftstate.length + snapshot.length) = data.1.length) := by
  refine ⟨_, decodePersistFileChecked_eq data.2, fun raftstate snapshot =>
    ⟨decodePersistFile_eq_ok_iff data.2, fun hok hne => ?_⟩⟩
  obtain ⟨-, -, hsum, hr, hs⟩ := decodePersistFile_eq_ok hok hne data.2
  have hlen := data.2
  have hrlen : raftstate.length = uint64At data.1 4 := by
    rw [hr, List.length_take, List.length_drop]
    omega
  have hslen : snapshot.length = uint64At data.1 12 := by
    rw [hs, List.length_take, List.length_drop]
    omega
  rw [← hrlen, ← hslen] at hsum ⊢
  refine ⟨wrap64_natCast (by omega), wrap64_natCast (by omega), ?_, ?_⟩
  · exact wrap64_natCast (n := 20 + raftstate.length) (by omega)
  · rw [← hsum]
    exact wrap64_natCast (n := 20 + raftstate.length + snapshot.length) (by omega)

/-- A format of slot files that accepts the empty file and what it writes, and nothing else: no
file that was cut short or has something appended, and none with another magic. -/
structure ExactFormat (magic : Bytes) (encode : Bytes → Bytes)
    (decode : Bytes → Except FormatError Bytes) : Prop where
  roundTrip : ∀ payload, decode (encode payload) = .ok payload
  accepted : ∀ data payload, decode data = .ok payload ↔
    data = [] ∧ payload = [] ∨ data = encode payload
  cut : ∀ (file data : GoBytes) payload state, file.1 = encode payload → data.1 <+: file.1 →
    data.1 ≠ [] → data.1 ≠ file.1 → decode data.1 ≠ .ok state
  extended : ∀ (data : GoBytes) payload state, encode payload <+: data.1 →
    data.1 ≠ encode payload → decode data.1 ≠ .ok state
  otherMagic : ∀ data state, data ≠ [] → data.take 4 ≠ magic → decode data ≠ .ok state

theorem encodeFramed_of_isPrefix {magic p q : Bytes} (hm : magic.length = 4)
    (hq : (encodeFramed magic q).length < 2 ^ 63)
    (h : encodeFramed magic p <+: encodeFramed magic q) :
    encodeFramed magic p = encodeFramed magic q := by
  apply h.eq_of_length
  have hle := h.length_le
  obtain ⟨rest, h⟩ := h
  have hdrop : (encodeFramed magic q).drop 4 = putUint64 p.length ++ (p ++ rest) := by
    rw [← h, encodeFramed, List.append_assoc, List.append_assoc, List.drop_left' hm]
  have hp := (uint64At_of_drop hdrop).1
  rw [(uint64At_of_drop (drop_encodeFramed q hm)).1] at hp
  rw [length_encodeFramed hm] at hq hle ⊢
  rw [length_encodeFramed hm] at hle ⊢
  omega

theorem exactFormat_framed {magic : Bytes} (hm : magic.length = 4) :
    ExactFormat magic (encodeFramed magic) (decodeFramed magic) where
  roundTrip payload := decodeFramed_encodeFramed magic payload hm
  accepted _ _ := decodeFramed_eq_ok_iff hm
  cut := by
    intro file data payload state hfile hcut hne hproper hok
    obtain ⟨hnil, -⟩ | hdata := (decodeFramed_eq_ok_iff hm).1 hok
    · exact hne hnil
    · apply hproper
      rw [hdata, hfile] at hcut ⊢
      exact encodeFramed_of_isPrefix hm (hfile ▸ file.2) hcut
  extended := by
    intro data payload state hext hproper hok
    obtain ⟨hnil, -⟩ | hdata := (decodeFramed_eq_ok_iff hm).1 hok
    · rw [hnil] at hext hproper
      exact hproper (List.prefix_nil.1 hext).symm
    · apply hproper
      rw [hdata] at hext ⊢
      exact (encodeFramed_of_isPrefix hm (hdata ▸ data.2) hext).symm
  otherMagic := by
    intro data state hne hmagic hok
    obtain ⟨hnil, -⟩ | hdata := (decodeFramed_eq_ok_iff hm).1 hok
    · exact hne hnil
    · apply hmagic
      rw [hdata, encodeFramed, List.append_assoc, List.take_left' hm]

/-- Both formats of slot files are exact. -/
theorem segment_formats_exact :
    ExactFormat walMagic encodeSegment decodeSegment ∧
    ExactFormat snapshotMagic encodeFile decodeFile :=
  ⟨exactFormat_framed rfl, exactFormat_framed rfl⟩

end LinKV

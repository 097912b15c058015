import LinKV.Basic
import Mathlib.Algebra.Group.Nat.Defs
import Mathlib.Data.List.Induction
import Mathlib.Data.Nat.Basic

namespace LinKV
set_option autoImplicit true

/-- The low `w` bytes of `n`, the most significant first. -/
def bigEndian : Nat → Nat → Bytes
  | 0, _ => []
  | w + 1, n => bigEndian w (n / 256) ++ [UInt8.ofNat n]

def ofBigEndian (data : Bytes) : Nat := data.foldl (fun n b => 256 * n + b.toNat) 0

@[simp] theorem length_bigEndian (w n : Nat) : (bigEndian w n).length = w := by
  induction w generalizing n with
  | zero => rfl
  | succ w ih => rw [bigEndian, List.length_append, ih, List.length_singleton]

theorem ofBigEndian_append (data : Bytes) (b : UInt8) :
    ofBigEndian (data ++ [b]) = 256 * ofBigEndian data + b.toNat := by
  rw [ofBigEndian, List.foldl_append]
  rfl

@[simp] theorem ofBigEndian_bigEndian (w n : Nat) :
    ofBigEndian (bigEndian w n) = n % 256 ^ w := by
  induction w generalizing n with
  | zero =>
    rw [Nat.pow_zero, Nat.mod_one]
    rfl
  | succ w ih =>
    have hb : (UInt8.ofNat n).toNat = n % 256 := UInt8.toNat_ofNat'
    rw [bigEndian, ofBigEndian_append, ih, hb, Nat.pow_succ', Nat.mod_mul, Nat.add_comm]

theorem ofBigEndian_inj {a b : Bytes} (hlen : a.length = b.length)
    (h : ofBigEndian a = ofBigEndian b) : a = b := by
  induction a using List.reverseRecOn generalizing b with
  | nil => exact (List.length_eq_zero_iff.1 hlen.symm).symm
  | append_singleton a x ih =>
    cases b using List.reverseRecOn with
    | nil =>
      rw [List.length_append] at hlen
      cases hlen
    | append_singleton b y =>
      rw [ofBigEndian_append, ofBigEndian_append] at h
      rw [List.length_append, List.length_append] at hlen
      have hx := x.toNat_lt
      have hy := y.toNat_lt
      have hxy : x = y := UInt8.toNat_inj.1 (by omega)
      rw [ih (Nat.add_right_cancel hlen) (by omega), hxy]

theorem eq_bigEndian_iff {data : Bytes} (hlen : data.length = w) :
    data = bigEndian w n ↔ ofBigEndian data = n % 256 ^ w := by
  rw [← ofBigEndian_bigEndian]
  constructor
  · intro h
    rw [h]
  · intro h
    exact ofBigEndian_inj (hlen.trans (length_bigEndian w n).symm) h

/-- `binary.BigEndian.PutUint64` of a length. -/
def putUint64 (n : Nat) : Bytes := bigEndian 8 n

/-- `binary.BigEndian.Uint64(data[from:from+8])`. -/
def uint64At (data : Bytes) (start : Nat) : Nat := ofBigEndian ((data.drop start).take 8)

theorem uint64At_of_drop {data rest : Bytes} (h : data.drop start = putUint64 n ++ rest) :
    uint64At data start = n % 2 ^ 64 ∧ data.drop (start + 8) = rest := by
  have hlen : (putUint64 n).length = 8 := length_bigEndian 8 n
  have hpow : 256 ^ 8 = 2 ^ 64 := rfl
  constructor
  · rw [uint64At, h, List.take_left' hlen, putUint64, ofBigEndian_bigEndian, hpow]
  · rw [← List.drop_drop, h, List.drop_left' hlen]

/-- Why a file is not one the program wrote, with the numbers its message shows. -/
inductive FormatError where
  | tooShort (got : Nat)
  | invalidMagic (magic : Bytes)
  | sizeMismatch (header actual : Nat)
deriving DecidableEq, Repr

/-- The format of the slot files: a magic, the length of the payload, the payload. -/
def encodeFramed (magic payload : Bytes) : Bytes := magic ++ putUint64 payload.length ++ payload

def decodeFramed (magic data : Bytes) : Except FormatError Bytes :=
  if data = [] then .ok []
  else if data.length < 12 then .error (.tooShort data.length)
  else if data.take 4 ≠ magic then .error (.invalidMagic (data.take 4))
  else
    let payloadLen := uint64At data 4
    let actualLen := (data.length - 12) % 2 ^ 64
    if payloadLen ≠ actualLen then .error (.sizeMismatch payloadLen actualLen)
    else .ok (data.drop 12)

theorem length_encodeFramed {magic payload : Bytes} (hm : magic.length = 4) :
    (encodeFramed magic payload).length = 12 + payload.length := by
  simp only [encodeFramed, putUint64, List.length_append, hm, length_bigEndian]

theorem drop_encodeFramed {magic : Bytes} (payload : Bytes) (hm : magic.length = 4) :
    (encodeFramed magic payload).drop 4 = putUint64 payload.length ++ payload := by
  rw [encodeFramed, List.append_assoc, List.drop_left' hm]

theorem decodeFramed_encodeFramed (magic payload : Bytes) (hm : magic.length = 4) :
    decodeFramed magic (encodeFramed magic payload) = .ok payload := by
  have hlen : (encodeFramed magic payload).length = 12 + payload.length := length_encodeFramed hm
  have htake : (encodeFramed magic payload).take 4 = magic := by
    rw [encodeFramed, List.append_assoc, ← hm, List.take_left]
  obtain ⟨hat, hdrop⟩ := uint64At_of_drop (drop_encodeFramed payload hm)
  have hne : encodeFramed magic payload ≠ [] := by
    intro he
    rw [he] at hlen
    simp only [List.length_nil] at hlen
    omega
  simp only [decodeFramed, hne, hlen, htake, hat, hdrop, if_false, ne_eq, not_true_eq_false,
    Nat.add_sub_cancel_left, Nat.not_lt.mpr (Nat.le_add_right 12 payload.length)]

theorem eq_putUint64_iff {data : Bytes} (h : start + 8 ≤ data.length) :
    (data.drop start).take 8 = putUint64 n ↔ uint64At data start = n % 2 ^ 64 := by
  have hlen : ((data.drop start).take 8).length = 8 := by
    rw [List.length_take, List.length_drop]
    omega
  exact eq_bigEndian_iff hlen

/-- A slot file is accepted exactly if it is empty or is what its payload is written as. -/
theorem decodeFramed_eq_ok_iff {magic data payload : Bytes} (hm : magic.length = 4) :
    decodeFramed magic data = .ok payload ↔
      data = [] ∧ payload = [] ∨ data = encodeFramed magic payload := by
  constructor
  · intro h
    unfold decodeFramed at h
    split at h
    · rename_i hnil
      cases h
      exact .inl ⟨hnil, rfl⟩
    split at h
    · cases h
    rename_i hlen
    split at h
    · cases h
    rename_i hmagic
    dsimp only at h
    split at h
    · cases h
    rename_i hsize
    cases h
    right
    have hheader : (data.drop 4).take 8 = putUint64 (data.drop 12).length := by
      rw [eq_putUint64_iff (by omega), List.length_drop]
      exact not_not.1 hsize
    have hsplit : (data.drop 4).take 8 ++ data.drop 12 = data.drop 4 := by
      have h := List.take_append_drop 8 (data.drop 4)
      rwa [List.drop_drop] at h
    rw [encodeFramed, ← hheader, ← not_not.1 hmagic, List.append_assoc, hsplit,
      List.take_append_drop]
  · rintro (⟨rfl, rfl⟩ | rfl)
    · rfl
    · exact decodeFramed_encodeFramed magic payload hm

def walMagic : Bytes := [0x57, 0x41, 0x4C, 0x31]

def encodeSegment (payload : Bytes) : Bytes := encodeFramed walMagic payload

def decodeSegment (data : Bytes) : Except FormatError Bytes := decodeFramed walMagic data

def snapshotMagic : Bytes := [0x53, 0x4E, 0x50, 0x31]

def encodeFile (payload : Bytes) : Bytes := encodeFramed snapshotMagic payload

def decodeFile (data : Bytes) : Except FormatError Bytes := decodeFramed snapshotMagic data

@[simp] theorem decodeSegment_encodeSegment (payload : Bytes) :
    decodeSegment (encodeSegment payload) = .ok payload := decodeFramed_encodeFramed _ _ rfl

@[simp] theorem decodeFile_encodeFile (payload : Bytes) :
    decodeFile (encodeFile payload) = .ok payload := decodeFramed_encodeFramed _ _ rfl

end LinKV

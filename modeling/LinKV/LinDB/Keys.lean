import LinKV.Ordered.Words
import LinKV.Mvcc.Snapshot
import LinKV.Storage.Segment
import Mathlib.Data.Nat.Digits.Lemmas

namespace LinKV
set_option autoImplicit true

/-- A string constant of the source. -/
def ascii (text : List Char) : Bytes := text.map fun c => UInt8.ofNat c.toNat

def metaCurrentRev : Bytes :=
  ascii ['m', 'e', 't', 'a', '/', 'c', 'u', 'r', 'r', 'e', 'n', 't', '_', 'r', 'e', 'v']

def metaCompactRev : Bytes :=
  ascii ['m', 'e', 't', 'a', '/', 'c', 'o', 'm', 'p', 'a', 'c', 't', '_', 'r', 'e', 'v']

def dataPrefix : Bytes := ascii ['d', 'a', 't', 'a', '/']

def eventPrefix : Bytes := ascii ['e', 'v', 'e', 'n', 't', '/']

def hexDigit (n : Nat) : UInt8 := UInt8.ofNat (if n < 10 then 48 + n else 87 + n)

def hexByte (b : UInt8) : Bytes := [hexDigit (b.toNat / 16), hexDigit (b.toNat % 16)]

def hexEncode (data : Bytes) : Bytes := data.flatMap hexByte

/-- The value of a hexadecimal digit of either case. -/
def fromHexChar (c : UInt8) : Option Nat :=
  let n := c.toNat
  if 48 ≤ n ∧ n ≤ 57 then some (n - 48)
  else if 97 ≤ n ∧ n ≤ 102 then some (n - 87)
  else if 65 ≤ n ∧ n ≤ 70 then some (n - 55)
  else none

def hexDecode : Bytes → Option Bytes
  | [] => some []
  | [_] => none
  | c₁ :: c₂ :: rest =>
    match fromHexChar c₁, fromHexChar c₂, hexDecode rest with
    | some hi, some lo, some data => some (UInt8.ofNat (16 * hi + lo) :: data)
    | _, _, _ => none

def dataStorageKey (key : Bytes) : Bytes := dataPrefix ++ hexEncode key

/-- The decimal digits of `n`, with zeros in front up to the width. -/
def paddedDigits (width n : Nat) : Bytes :=
  let digits := Nat.digits 10 n
  (digits ++ List.replicate (width - digits.length) 0).reverse.map fun d => UInt8.ofNat (48 + d)

/-- `%0wd` for the width `w`; a sign counts. -/
def formatInt (width : Nat) (x : Int) : Bytes :=
  if x < 0 then 45 :: paddedDigits (width - 1) x.natAbs else paddedDigits width x.natAbs

def eventStorageKey (event : MvccEvent) : Bytes :=
  eventPrefix ++ formatInt 20 event.rev.main ++ 47 :: formatInt 10 event.rev.sub

def encodeInt64 (value : Int) : Bytes := putUint64 (value % 2 ^ 64).toNat

/-- `int64(binary.BigEndian.Uint64(encoded))`. -/
def decodeInt64 (encoded : Bytes) : Int := wrap64 (uint64At encoded 0)

section

variable {a b : UInt8} {data x y : Bytes}

theorem toNat_hexDigit (h : n < 16) :
    (hexDigit n).toNat = if n < 10 then 48 + n else 87 + n := by
  rw [hexDigit, UInt8.toNat_ofNat']
  split <;> omega

theorem hexDigit_lt_iff (hm : m < 16) (hn : n < 16) : hexDigit m < hexDigit n ↔ m < n := by
  rw [UInt8.lt_iff_toNat_lt, toNat_hexDigit hm, toNat_hexDigit hn]
  split <;> split <;> omega

theorem hexDigit_inj (hm : m < 16) (hn : n < 16) : hexDigit m = hexDigit n ↔ m = n := by
  rw [← UInt8.toNat_inj, toNat_hexDigit hm, toNat_hexDigit hn]
  split <;> split <;> omega

theorem fromHexChar_hexDigit (h : n < 16) : fromHexChar (hexDigit n) = some n := by
  rw [fromHexChar, toNat_hexDigit h]
  by_cases h10 : n < 10
  · rw [if_pos h10, if_pos (by omega), Nat.add_sub_cancel_left]
  · rw [if_neg h10, if_neg (by omega), if_pos (by omega), Nat.add_sub_cancel_left]

theorem halves (b : UInt8) : b.toNat / 16 < 16 ∧ b.toNat % 16 < 16 := by
  have := b.toNat_lt
  omega

theorem hexByte_lt_iff (a b : UInt8) : hexByte a < hexByte b ↔ a < b := by
  have ha := halves a
  have hb := halves b
  rw [hexByte, hexByte, List.cons_lt_cons_iff, List.cons_lt_cons_iff, hexDigit_lt_iff ha.1 hb.1,
    hexDigit_inj ha.1 hb.1, hexDigit_lt_iff ha.2 hb.2, UInt8.lt_iff_toNat_lt]
  have hnil : ¬ ([] : Bytes) < [] := List.not_lt_nil []
  simp only [hnil, and_false, or_false]
  omega

theorem hexByte_inj (a b : UInt8) : hexByte a = hexByte b ↔ a = b := by
  have ha := halves a
  have hb := halves b
  rw [hexByte, hexByte, List.cons.injEq, List.cons.injEq, hexDigit_inj ha.1 hb.1,
    hexDigit_inj ha.2 hb.2, ← UInt8.toNat_inj]
  simp only [and_true]
  omega

/-- The encoding keeps the order of the keys. -/
theorem dataStorageKey_lt_iff : dataStorageKey x < dataStorageKey y ↔ x < y := by
  have hirr : ¬ dataPrefix < dataPrefix := List.lt_irrefl dataPrefix
  have hne (b : UInt8) : hexByte b ≠ [] := List.cons_ne_nil _ _
  rw [dataStorageKey, dataStorageKey, Ordered.append_lt_append_iff rfl, or_iff_right hirr,
    and_iff_right rfl]
  exact Ordered.flatMap_lt_flatMap_iff hne (fun _ _ => rfl) hexByte_inj hexByte_lt_iff

theorem hexDecode_hexEncode (data : Bytes) : hexDecode (hexEncode data) = some data := by
  induction data with
  | nil => rfl
  | cons b data ih =>
    have hb := halves b
    have hval : UInt8.ofNat (16 * (b.toNat / 16) + b.toNat % 16) = b := by
      rw [Nat.div_add_mod, UInt8.ofNat_toNat]
    have hcons : hexEncode (b :: data) =
        hexDigit (b.toNat / 16) :: hexDigit (b.toNat % 16) :: hexEncode data := rfl
    rw [hcons, hexDecode, fromHexChar_hexDigit hb.1, fromHexChar_hexDigit hb.2, ih]
    dsimp only
    rw [hval]

theorem dataStorageKey_inj : dataStorageKey x = dataStorageKey y ↔ x = y := by
  refine ⟨fun h => ?_, fun h => h ▸ rfl⟩
  have hx := hexDecode_hexEncode x
  rw [List.append_cancel_left h, hexDecode_hexEncode] at hx
  exact (Option.some.inj hx).symm

theorem ofDigits_paddedDigits (width n : Nat) :
    Nat.ofDigits 10 ((paddedDigits width n).map fun c => c.toNat - 48).reverse = n := by
  have hdigit : ∀ d ∈ (Nat.digits 10 n ++
      List.replicate (width - (Nat.digits 10 n).length) 0).reverse,
      (UInt8.ofNat (48 + d)).toNat - 48 = d := by
    intro d hd
    have hlt : d < 10 := by
      rcases List.mem_append.1 (List.mem_reverse.1 hd) with hd | hd
      · exact Nat.digits_lt_base (by omega) hd
      · rw [(List.mem_replicate.1 hd).2]
        omega
    rw [UInt8.toNat_ofNat']
    omega
  have hback := List.map_congr_left hdigit
  rw [paddedDigits, List.map_map]
  change Nat.ofDigits 10 (List.map (fun d => (UInt8.ofNat (48 + d)).toNat - 48) _).reverse = n
  rw [hback, List.map_id', List.reverse_reverse, Nat.ofDigits_append, Nat.ofDigits_replicate_zero,
    Nat.ofDigits_digits, Nat.mul_zero, Nat.add_zero]

theorem eventStorageKey_inj {e e' : MvccEvent} (h : eventStorageKey e = eventStorageKey e')
    (hsub : e.rev.sub = e'.rev.sub) (hpos : 0 ≤ e.rev.main) (hpos' : 0 ≤ e'.rev.main) :
    e.rev.main = e'.rev.main := by
  rw [eventStorageKey, eventStorageKey, hsub] at h
  have hmain := List.append_cancel_left (List.append_cancel_right h)
  rw [formatInt, formatInt, if_neg (by omega), if_neg (by omega)] at hmain
  have habs := ofDigits_paddedDigits 20 e.rev.main.natAbs
  rw [hmain, ofDigits_paddedDigits] at habs
  omega

theorem length_encodeInt64 (r : Int) : (encodeInt64 r).length = 8 := length_bigEndian 8 _

theorem decodeInt64_encodeInt64 {r : Int} (hlo : -2 ^ 63 ≤ r) (hhi : r < 2 ^ 63) :
    decodeInt64 (encodeInt64 r) = r := by
  have hpow : 256 ^ 8 = 2 ^ 64 := rfl
  have htake : (encodeInt64 r).take 8 = encodeInt64 r :=
    List.take_of_length_le (Nat.le_of_eq (length_encodeInt64 r))
  rw [decodeInt64, uint64At, List.drop_zero, htake, encodeInt64, putUint64, ofBigEndian_bigEndian,
    hpow, wrap64]
  omega

end

end LinKV

import Mathlib.Data.Nat.Notation

namespace LinKV

/-- `[]byte` and `string` values; Go compares strings as lists of bytes. -/
abbrev Bytes := List UInt8

end LinKV

import Hiper.ByteArray.Typed
import Hiper.Lib.Exact

/-!
# Zigzag without overflow

`EncodeZigzag32` and `EncodeZigzag64` negate in the signed type before they convert,
and double in it what is not negative.  Neither has an exact result near the limits:
the least value has no negation, and a value of the upper quarter no double.  So
`writeInt32` and `writeInt64` are defined between these (`writeInt_defined_iff`), and
there they write what they write when `-v` and `v * 2` wrap.

The functions are `bytearray.cc:126` and `bytearray.cc:136`.  The source takes `-v` and
`v * 2` in `int32_t` and `int64_t`, where an overflow is not defined by the language;
`checkedZigzag` has no value there, instead of the value that some machine would give, and
`writeInt32` and `writeInt64` are then no computations at all.
-/

namespace Hiper.ByteArray

open Lib

/-! ### The source, where no signed operation overflows -/

/-- The body of `EncodeZigzag32` and `EncodeZigzag64`; `none` where `-v` or `v * 2`, which are
operations on signed integers, has no exact result.  The doubling of the negative branch is
unsigned and always defined. -/
def checkedZigzag {w : ℕ} (v : BitVec w) : Option (BitVec w) :=
  if v.slt 0#w then (exact w (-v.toInt)).map fun u => u * 2#w - 1#w else exact w (v.toInt * 2)

/-- `EncodeZigzag32`, without a value where an operation overflows (`bytearray.cc:126`). -/
def checkedEncodeZigzag32 (v : Int32) : Option UInt32 :=
  (checkedZigzag v.toBitVec).map UInt32.ofBitVec

/-- `EncodeZigzag64`, without a value where an operation overflows (`bytearray.cc:136`). -/
def checkedEncodeZigzag64 (v : Int64) : Option UInt64 :=
  (checkedZigzag v.toBitVec).map UInt64.ofBitVec

/-- `writeInt32`, where its zigzag number is defined (`bytearray.cc:157`). -/
def checkedWriteInt32 (value : Int32) : Option (Op Unit) :=
  (checkedEncodeZigzag32 value).map writeUint32

/-- `writeInt64`, where its zigzag number is defined (`bytearray.cc:175`). -/
def checkedWriteInt64 (value : Int64) : Option (Op Unit) :=
  (checkedEncodeZigzag64 value).map writeUint64

/-! ### Where it is defined -/

section Width

variable {w : ℕ} {v u : BitVec w}

/-- Where every operation is exact, wrapping changes nothing.  So the round trip of the wrapping
operations is that of the source. -/
theorem checkedZigzag_eq (h : checkedZigzag v = some u) : u = zigzag v := by
  rw [checkedZigzag] at h
  rw [zigzag]
  split_ifs at h ⊢
  · obtain ⟨n, hn, rfl⟩ := Option.map_eq_some_iff.1 h
    rw [exact_neg hn]
  · exact exact_mul h

/-- The number is defined above the least value and below half of the greatest. -/
theorem checkedZigzag_isSome_iff :
    (checkedZigzag v).isSome ↔ -2 ^ w < 2 * v.toInt ∧ 4 * v.toInt < 2 ^ w := by
  have hslt : v.slt 0#w = true ↔ v.toInt < 0 := by
    rw [BitVec.slt_iff_toInt_lt, BitVec.toInt_zero]
  have hlow := BitVec.le_two_mul_toInt (x := v)
  have hhigh := BitVec.two_mul_toInt_lt (x := v)
  rw [checkedZigzag]
  split_ifs with hneg
  · have hv := hslt.1 hneg
    rw [Option.isSome_map, exact_isSome_iff, Representable]
    omega
  · have hv := mt hslt.2 hneg
    rw [exact_isSome_iff, Representable]
    omega

/-- What is made of the number is what is made of the wrapping one, where there is a number.  It
lifts the condition from the number to the write. -/
theorem map_checkedZigzag_iff {α : Type*} (f : BitVec w → α) :
    (checkedZigzag v).map f = some (f (zigzag v)) ↔
      -2 ^ w < 2 * v.toInt ∧ 4 * v.toInt < 2 ^ w := by
  rw [← checkedZigzag_isSome_iff]
  cases hv : checkedZigzag v with
  | none => simp
  | some u => simp [checkedZigzag_eq hv]

end Width

/-- **Where signed values are written without overflow**: above the least one and below half of
the greatest, in both widths.  Both bounds are exact.  `EncodeZigzag32` and `EncodeZigzag64`
(`src/hiper/base/bytearray.cc:126-144`) negate or double a signed value before they make it
unsigned. -/
theorem writeInt_defined_iff (v : Int32) (u : Int64) :
    (checkedWriteInt32 v = some (writeInt32 v) ↔ -2 ^ 31 < v.toInt ∧ v.toInt < 2 ^ 30) ∧
      (checkedWriteInt64 u = some (writeInt64 u) ↔ -2 ^ 63 < u.toInt ∧ u.toInt < 2 ^ 62) := by
  constructor
  · have hwrite := map_checkedZigzag_iff (v := v.toBitVec) (writeUint32 ∘ UInt32.ofBitVec)
    rw [checkedWriteInt32, checkedEncodeZigzag32, Option.map_map]
    refine hwrite.trans ?_
    rw [Int32.toInt_toBitVec]
    omega
  · have hwrite := map_checkedZigzag_iff (v := u.toBitVec) (writeUint64 ∘ UInt64.ofBitVec)
    rw [checkedWriteInt64, checkedEncodeZigzag64, Option.map_map]
    refine hwrite.trans ?_
    rw [Int64.toInt_toBitVec]
    omega

/-- The least values, and the least of those that have no double.  In both widths. -/
theorem writeInt_undefined :
    checkedWriteInt32 (-2147483648) = none ∧ checkedWriteInt32 1073741824 = none ∧
      checkedWriteInt64 (-9223372036854775808) = none ∧
      checkedWriteInt64 4611686018427387904 = none :=
  ⟨rfl, rfl, rfl, rfl⟩

end Hiper.ByteArray

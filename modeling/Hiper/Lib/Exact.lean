import Mathlib.Algebra.Order.Ring.Int
import Mathlib.Tactic.SplitIfs

/-!
# Signed integers without overflow

An operation on signed integers of `w` bits that is defined where its exact result
has that many bits (`Representable`), and there has the bits that the wrapping
operation has (`exact_neg`, `exact_mul`).

A program that is not to depend on what a compiler makes of an overflow is one whose every
such operation has `some` answer: `exact_isSome_iff` turns that into a bound on the
integers, which the function's own arithmetic then decides, and `exact_eq_some` gives back
the bits once the operation is known to be defined.
-/

namespace Hiper.Lib

variable {w : ℕ}

/-- A signed integer of `w` bits. The bounds are those of two's complement, one more below zero
than above it. -/
def Representable (w : ℕ) (z : ℤ) : Prop := -2 ^ w ≤ 2 * z ∧ 2 * z < 2 ^ w

/-- A bound on an integer is decided by comparing. -/
instance (w : ℕ) (z : ℤ) : Decidable (Representable w z) := inferInstanceAs (Decidable (_ ∧ _))

/-- The bits of the exact result of an operation, if it is representable. Where it is not,
nothing is said about what the machine does, which is how a standard leaves it undefined. -/
def exact (w : ℕ) (z : ℤ) : Option (BitVec w) :=
  if Representable w z then some (BitVec.ofInt w z) else none

/-- An operation is defined exactly where its result is representable. -/
theorem exact_isSome_iff {z : ℤ} : (exact w z).isSome ↔ Representable w z := by
  rw [exact]
  split_ifs with h <;> simp [h]

/-- Where the operation is defined, its bits are those of the exact result modulo `2 ^ w`. -/
theorem exact_eq_some {z : ℤ} {u : BitVec w} (h : exact w z = some u) : u = BitVec.ofInt w z := by
  rw [exact] at h
  split_ifs at h
  exact (Option.some.inj h).symm

/-- A negation that is defined has the bits of the wrapping negation; it is undefined for the
lowest integer alone. -/
theorem exact_neg {v u : BitVec w} (h : exact w (-v.toInt) = some u) : u = -v := by
  rw [exact_eq_some h, BitVec.ofInt_neg, BitVec.ofInt_toInt]

/-- A product with an integer that is defined has the bits of the wrapping product. -/
theorem exact_mul {v u : BitVec w} {n : ℤ} (h : exact w (v.toInt * n) = some u) :
    u = v * BitVec.ofInt w n := by
  rw [exact_eq_some h, BitVec.ofInt_mul, BitVec.ofInt_toInt]

end Hiper.Lib

import Mathlib.Algebra.Order.Ring.Int
import Mathlib.Tactic.SplitIfs

/-!
# Narrowing to a signed integer

What a conversion to a signed type of `w` bits keeps of an integer: the low `w` bits, the
highest of them the sign.  Of an integer that is not negative it keeps the value if it
fits (`narrow_eq_iff`), and never makes it larger (`narrow_le`); the sign is the bit
(`narrow_nonneg_iff`).

It is what a program in a language with sized integers does when it stores a wide integer in
a narrow variable, and the places where it goes wrong are those where the value is not kept:
an integer of at least `2 ^ (w - 1)` is made smaller, and often negative.
-/

namespace Hiper.Lib

/-- The signed integer of `w` bits that is `x` modulo `2 ^ w`. It is between `-2 ^ (w - 1)` and
`2 ^ (w - 1)`. -/
def narrow (w : ℕ) (x : ℤ) : ℤ := x.bmod (2 ^ w)

/-- The value as a comparison: below half the range it is the remainder, and from there on the
remainder less the range. -/
theorem narrow_succ (w : ℕ) (x : ℤ) :
    narrow (w + 1) x =
      if x % 2 ^ (w + 1) < 2 ^ w then x % 2 ^ (w + 1) else x % 2 ^ (w + 1) - 2 ^ (w + 1) := by
  have hhalf : ((2 : ℤ) ^ (w + 1) + 1) / 2 = 2 ^ w := by
    rw [pow_succ]
    omega
  rw [narrow, Int.bmod_def]
  push_cast
  rw [hhalf]

/-- The sign of what is kept is the highest of the bits that are kept. -/
theorem narrow_nonneg_iff (w : ℕ) (x : ℤ) : 0 ≤ narrow (w + 1) x ↔ x % 2 ^ (w + 1) < 2 ^ w := by
  have hpos : (0 : ℤ) < 2 ^ (w + 1) := Int.pow_pos (by decide)
  have hlo := Int.emod_nonneg x hpos.ne'
  have hhi := Int.emod_lt_of_pos x hpos
  rw [narrow_succ]
  split_ifs with hsmall <;> omega

/-- Narrowing never makes larger what is not negative. What is cut off counts positive, and so
does the sign bit before it becomes one. -/
theorem narrow_le (w : ℕ) {x : ℤ} (h : 0 ≤ x) : narrow (w + 1) x ≤ x := by
  have hpos : (0 : ℤ) < 2 ^ (w + 1) := Int.pow_pos (by decide)
  have hdiv := Int.mul_nonneg hpos.le (Int.ediv_nonneg h hpos.le)
  have hle := Int.mul_ediv_add_emod x (2 ^ (w + 1))
  rw [narrow_succ]
  split_ifs <;> omega

/-- **What fits is kept**, and nothing else is. For integers that are not negative. -/
theorem narrow_eq_iff (w : ℕ) {x : ℤ} (h : 0 ≤ x) : narrow (w + 1) x = x ↔ x < 2 ^ w := by
  constructor
  · intro heq
    rw [← heq] at h
    have hmod := (narrow_nonneg_iff w x).1 h
    rw [narrow_succ, if_pos hmod] at heq
    rwa [heq] at hmod
  · intro hlt
    have hmod : x % 2 ^ (w + 1) = x := Int.emod_eq_of_lt h (by rw [pow_succ]; omega)
    rw [narrow_succ, hmod, if_pos hlt]

end Hiper.Lib

import Mathlib.Data.Fintype.EquivFin
import Mathlib.Data.Nat.Basic
import Mathlib.Tactic.Ring

/-!
# Integers on the wire

Three ways integers become bytes, each with the fact that makes it readable
again: the base-256 digits of a number, low first (`ofLE_toLE`); the zigzag
folding of signed into unsigned bit vectors, a bijection (`unzigzag_zigzag`,
`zigzag_bijective`); and groups of seven bits, low first, collected by shifting each
group to its place (`low_or_group`, `low_or_last`).

The facts are stated for every number of digits and every width, so that a program's own
functions for sixteen, thirty-two and sixty-four bits are instances.  `toNat_zigzag` says
which numbers zigzag gives, the small ones to values that are near zero on either side,
which is why it is used before the groups of seven bits; and `low` is what a reader of
groups has collected after some of them.
-/

namespace Hiper.Lib

/-! ### Base 256 -/

/-- The `n` low base-256 digits of `x`, low first.  Digits that are left over above them are
dropped. -/
def toLE : ℕ → ℕ → List UInt8
  | 0, _ => []
  | n + 1, x => UInt8.ofNat x :: toLE n (x / 256)

/-- The number with these base-256 digits, low first.  Any bytes make a number. -/
def ofLE : List UInt8 → ℕ
  | [] => 0
  | b :: bs => b.toNat + 256 * ofLE bs

/-- As many digits are written as were asked for. -/
@[simp]
theorem length_toLE (n x : ℕ) : (toLE n x).length = n := by
  induction n generalizing x with
  | zero => rfl
  | succ n ih => rw [toLE, List.length_cons, ih]

/-- So many digits make a number below that power of 256. -/
theorem ofLE_lt (bs : List UInt8) : ofLE bs < 256 ^ bs.length := by
  induction bs with
  | nil => decide
  | cons b bs ih =>
      have hb := b.toNat_lt
      rw [ofLE, List.length_cons, pow_succ]
      omega

/-- **Digits are read back**, up to what `n` digits can hold.  The induction takes off one
digit, which is the remainder by 256. -/
theorem ofLE_toLE (n x : ℕ) : ofLE (toLE n x) = x % 256 ^ n := by
  induction n generalizing x with
  | zero => rw [pow_zero, Nat.mod_one]; rfl
  | succ n ih =>
      rw [toLE, ofLE, ih, UInt8.toNat_ofNat', pow_succ' 256]
      exact (Nat.mod_mul ..).symm

/-- The digits of the number digits make are these digits.  Nothing is lost, leading zeros
included. -/
theorem toLE_ofLE (bs : List UInt8) : toLE bs.length (ofLE bs) = bs := by
  induction bs with
  | nil => rfl
  | cons b bs ih =>
      have hb := b.toNat_lt
      rw [List.length_cons, toLE, ofLE, Nat.add_mul_div_left _ _ (by decide),
        Nat.div_eq_of_lt hb, Nat.zero_add, ih]
      congr 1
      rw [← UInt8.toNat_inj, UInt8.toNat_ofNat']
      omega

/-- Digit by digit, the bits of a number.  Behind the last digit all bits are off. -/
theorem testBit_ofLE (bs : List UInt8) (k : ℕ) {r : ℕ} (hr : r < 8) :
    (ofLE bs).testBit (8 * k + r) = (bs[k]?.getD 0).toNat.testBit r := by
  induction bs generalizing k with
  | nil => simp [ofLE]
  | cons b bs ih =>
      have hb : b.toNat < 2 ^ 8 := b.toNat_lt
      rw [ofLE, Nat.add_comm, show (256 : ℕ) = 2 ^ 8 from rfl, Nat.testBit_two_pow_mul_add _ hb]
      cases k with
      | zero => simp [hr]
      | succ k =>
          rw [if_neg (by omega), show 8 * (k + 1) + r - 8 = 8 * k + r by omega, ih,
            List.getElem?_cons_succ]

/-! ### Zigzag -/

variable {w : ℕ}

/-- `0, -1, 1, -2, …` numbered `0, 1, 2, 3, …`.  The sign goes into the lowest bit and the
magnitude above it. -/
def zigzag (v : BitVec w) : BitVec w := if v.slt 0#w then -v * 2#w - 1#w else v * 2#w

/-- The value with a given zigzag number.  The lowest bit is the sign, and the others are the
magnitude, one less below zero. -/
def unzigzag (v : BitVec w) : BitVec w := (v >>> 1) ^^^ -(v &&& 1#w)

/-- Doubling is shifting by one, without regard to overflow. -/
theorem mul_two_eq_shiftLeft (v : BitVec w) : v * 2#w = v <<< 1 := by
  apply BitVec.eq_of_toNat_eq
  simp [Nat.shiftLeft_eq, Nat.mul_mod]

/-- The last bit of a vector, as a mask: `-1` when it is set, else `0`.  It is how the sign bit
of a zigzag number is spread over the whole width. -/
theorem neg_and_one (v : BitVec w) :
    -(v &&& 1#w) = if v.getLsbD 0 then BitVec.allOnes w else 0#w := by
  rw [BitVec.and_one_eq_setWidth_ofBool_getLsbD]
  cases v.getLsbD 0 with
  | false => simp
  | true =>
      have hone : BitVec.setWidth w (BitVec.ofBool true) = 1#w := by
        apply BitVec.eq_of_toNat_eq
        simp
      rw [if_pos rfl, ← BitVec.neg_one_eq_allOnes, hone]

/-- The number that a negative value gets is the complement of the doubled value. -/
theorem neg_mul_two_sub_one (v : BitVec w) : -v * 2#w - 1#w = ~~~(v <<< 1) := by
  rw [← mul_two_eq_shiftLeft, BitVec.not_eq_neg_add, BitVec.neg_mul]

/-- **Zigzag numbers are read back**, also that of the least value.  The value is compared bit
by bit, by its sign. -/
theorem unzigzag_zigzag (v : BitVec w) : unzigzag (zigzag v) = v := by
  rw [zigzag, BitVec.slt_zero_eq_msb, BitVec.msb_eq_getLsbD_last]
  split_ifs with hneg
  · -- `-v * 2 - 1` is `~(v << 1)`: its last bit is set, the others are those of `~v`
    have hw : 0 < w := Nat.zero_lt_of_lt (BitVec.lt_of_getLsbD hneg)
    rw [neg_mul_two_sub_one, unzigzag, neg_and_one, if_pos (by simp [hw]), BitVec.xor_allOnes]
    ext i hi
    by_cases hlast : 1 + i < w
    · simp [hlast]
    · obtain rfl : i = w - 1 := by omega
      simp [← BitVec.getLsbD_eq_getElem, hneg, hw]
  · -- `v * 2` is `v << 1`, and the bit shifted out was the sign
    rw [mul_two_eq_shiftLeft, unzigzag, neg_and_one, if_neg (by simp), BitVec.xor_zero]
    ext i hi
    by_cases hlast : 1 + i < w
    · simp [hlast]
    · obtain rfl : i = w - 1 := by omega
      simp [← BitVec.getLsbD_eq_getElem, hneg]

/-- **Every vector is a zigzag number**: there are as many numbers as values.  A one-to-one map
on a finite type is onto. -/
theorem zigzag_bijective : Function.Bijective (zigzag : BitVec w → BitVec w) := by
  have hfinite : Finite (BitVec w) := Finite.of_injective BitVec.toFin fun _ _ h => BitVec.toFin_inj.1 h
  have hinjective := Function.LeftInverse.injective (unzigzag_zigzag (w := w))
  exact ⟨hinjective, Finite.injective_iff_surjective.1 hinjective⟩

/-- Every number is the zigzag number of its value. -/
theorem zigzag_unzigzag (v : BitVec w) : zigzag (unzigzag v) = v :=
  Function.LeftInverse.rightInverse_of_surjective unzigzag_zigzag zigzag_bijective.2 v

/-- The zigzag number of a value is twice its magnitude, one less below zero.  The least value
has twice as large a magnitude as the width can hold, and its number is the largest. -/
theorem toNat_zigzag (v : BitVec w) :
    ((zigzag v).toNat : ℤ) = if v.toInt < 0 then -2 * v.toInt - 1 else 2 * v.toInt := by
  have hlt := v.isLt
  have hneg := BitVec.toInt_neg_iff (x := v)
  have hslt : v.slt 0#w = true ↔ v.toInt < 0 := by
    rw [BitVec.slt_iff_toInt_lt, BitVec.toInt_zero]
  have hshift : (v <<< 1).toNat = 2 * v.toNat % 2 ^ w := by
    rw [BitVec.toNat_shiftLeft, Nat.shiftLeft_eq, Nat.mul_comm]
  rw [BitVec.toInt_eq_toNat_cond] at hneg hslt ⊢
  rw [zigzag]
  by_cases hhigh : 2 ^ w ≤ 2 * v.toNat
  · have hmod : 2 * v.toNat % 2 ^ w = 2 * v.toNat - 2 ^ w := by
      rw [Nat.mod_eq_sub_mod hhigh, Nat.mod_eq_of_lt (by omega)]
    rw [if_pos (hslt.2 (hneg.2 hhigh)), if_pos (hneg.2 hhigh), neg_mul_two_sub_one, BitVec.toNat_not,
      hshift, hmod, if_neg (by omega)]
    omega
  · rw [if_neg (mt hslt.1 (mt hneg.1 hhigh)), if_neg (mt hneg.1 hhigh), mul_two_eq_shiftLeft, hshift,
      Nat.mod_eq_of_lt (not_le.1 hhigh), if_pos (not_le.1 hhigh)]
    omega

/-! ### Groups of seven bits -/

/-- The `i` low bits of `v`.  They are what a reader has after as many bits. -/
def low (v : BitVec w) (i : ℕ) : BitVec w := (v.setWidth i).setWidth w

/-- Before the first group nothing has been collected. -/
@[simp]
theorem low_zero (v : BitVec w) : low v 0 = 0#w := by
  ext i hi
  simp [low]

/-- The collected bits are those of the value below `i`. -/
theorem getLsbD_low (v : BitVec w) (i j : ℕ) :
    (low v i).getLsbD j = (decide (j < i) && v.getLsbD j) := by
  by_cases hj : j < w
  · simp [low, hj]
  · simp [low, hj, BitVec.getLsbD_of_ge v j (by omega)]

/-- The mask `0x7f` has the seven low bits. -/
theorem getLsbD_mask (k : ℕ) : (0x7f#8).getLsbD k = decide (k < 7) := by
  rw [BitVec.getLsbD_ofNat, show 0x7f = 2 ^ 7 - 1 from rfl, Nat.testBit_two_pow_sub_one,
    ← Bool.decide_and]
  congr 1
  exact propext ⟨fun h => h.2, fun h => ⟨by omega, h⟩⟩

/-- **A group in its place.**  The seven bits of `v` from bit `i` on, put to the `i` bits below
them.  The byte may have its high bit set, since the mask takes it off. -/
theorem low_or_group (v : BitVec w) (i : ℕ) {b : BitVec 8}
    (hb : ∀ j, j < 7 → b.getLsbD j = v.getLsbD (i + j)) :
    low v i ||| ((b &&& 0x7f#8).setWidth w <<< i) = low v (i + 7) := by
  ext j hj
  simp only [← BitVec.getLsbD_eq_getElem, BitVec.getLsbD_or, getLsbD_low, BitVec.getLsbD_shiftLeft,
    BitVec.getLsbD_setWidth, BitVec.getLsbD_and, getLsbD_mask]
  rcases Nat.lt_or_ge j i with hlow | hhigh
  · simp [hlow, Nat.lt_add_right 7 hlow]
  · by_cases hgroup : j - i < 7
    · have hbit := hb (j - i) hgroup
      rw [Nat.add_sub_cancel' hhigh] at hbit
      simp [hj, hgroup, hbit, Nat.not_lt.2 hhigh, show j - i < w by omega, show j < i + 7 by omega]
    · simp [hgroup, Nat.not_lt.2 hhigh, show ¬j < i + 7 by omega]

/-- **The last group.**  When nothing is left above it, it completes the value.  The byte has no
high bit, so no mask is needed. -/
theorem low_or_last (v : BitVec w) (i : ℕ) {b : BitVec 8}
    (hb : ∀ j, j < 8 → b.getLsbD j = v.getLsbD (i + j)) (hv : v.toNat / 2 ^ i < 128) :
    low v i ||| (b.setWidth w <<< i) = v := by
  ext j hj
  simp only [← BitVec.getLsbD_eq_getElem, BitVec.getLsbD_or, getLsbD_low, BitVec.getLsbD_shiftLeft,
    BitVec.getLsbD_setWidth]
  rcases Nat.lt_or_ge j i with hlow | hhigh
  · simp [hlow]
  · by_cases hgroup : j - i < 8
    · have hbit := hb (j - i) hgroup
      rw [Nat.add_sub_cancel' hhigh] at hbit
      simp [hj, hbit, Nat.not_lt.2 hhigh, show j - i < w by omega]
    · have hzero : v.getLsbD j = false := by
        have hlt : v.toNat / 2 ^ i < 2 ^ (j - i) :=
          calc v.toNat / 2 ^ i < 2 ^ 7 := hv
            _ ≤ 2 ^ (j - i) := Nat.pow_le_pow_right (by decide) (by omega)
        have hbit := Nat.testBit_lt_two_pow hlt
        rw [Nat.testBit_div_two_pow, Nat.sub_add_cancel hhigh] at hbit
        exact hbit
      simp [hzero, Nat.not_lt.2 hhigh, BitVec.getLsbD_of_ge b (j - i) (by omega)]

end Hiper.Lib

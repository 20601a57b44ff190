import Hiper.Lib.Wire
import Mathlib.Data.List.OfFn
import Mathlib.Logic.Function.Basic

/-!
# Octets, and the numbers they are

A vector of `n` octets, the highest first, is a number of `8 * n` bits
(`Octets.number`).  What is done octet by octet is done to the number
(`number_and`, `number_or`, `number_not`), also what is done through an index that
is checked (`fill_eq`); and the number whose `p` leading bits are set
(`leadingOnes`) has its octets (`number_maskOctets`).

The bits of a number are counted here from the highest, as octets in network order are: bit
`r` of octet `k` is bit `8 * k + r` of the number (`getMsbD_number`), and two numbers agree
when these do (`number_ext`). The stores through an index are `Option`s, with `none` where
an index is outside of the octets, so that a loop that writes beyond the end has no result.
-/

namespace Hiper.Lib

/-- The number of `w` bits of which the `p` leading ones are set. As a mask it keeps the prefix
of `p` bits. -/
def leadingOnes (w p : ℕ) : BitVec w := BitVec.allOnes w <<< (w - p)

/-- Counted from the highest, its set bits are the first `p`. -/
theorem getMsbD_leadingOnes {w p j : ℕ} (hp : p ≤ w) :
    (leadingOnes w p).getMsbD j = decide (j < p) := by
  rw [leadingOnes, BitVec.getMsbD_shiftLeft, BitVec.getMsbD_allOnes]
  exact decide_eq_decide.2 (by omega)

/-- Counted from the lowest, its set bits are those from `w - p` on. -/
theorem getLsbD_leadingOnes {w p j : ℕ} (hj : j < w) :
    (leadingOnes w p).getLsbD j = decide (w - p ≤ j) := by
  rw [leadingOnes, BitVec.getLsbD_shiftLeft, BitVec.getLsbD_allOnes]
  simp only [hj, decide_true, Bool.true_and, show j - (w - p) < w by omega, Bool.and_true,
    ← decide_not]
  exact decide_eq_decide.2 (by omega)

/-- `n` octets. The first octet is number zero. -/
abbrev Octets (n : ℕ) := Fin n → UInt8

namespace Octets

variable {n : ℕ}

/-- The number, the first octet being the highest. It is the number of these octets in network
byte order. -/
def number (a : Octets n) : BitVec (8 * n) := BitVec.ofNat _ (ofLE (List.ofFn a).reverse)

/-- Octet by octet, the bits of the number. Both are counted from the highest bit. -/
theorem getMsbD_number (a : Octets n) {k r : ℕ} (hk : k < n) (hr : r < 8) :
    (a.number).getMsbD (8 * k + r) = (a ⟨k, hk⟩).toBitVec.getMsbD r := by
  have hlast : 8 * n - 1 - (8 * k + r) = 8 * (n - 1 - k) + (7 - r) := by omega
  have hget : (List.ofFn a).reverse[n - 1 - k]? = some (a ⟨k, hk⟩) := by
    rw [List.getElem?_reverse (by rw [List.length_ofFn]; omega), List.length_ofFn,
      show n - 1 - (n - 1 - k) = k by omega, List.getElem?_eq_getElem (by rw [List.length_ofFn]; exact hk),
      List.getElem_ofFn]
  rw [BitVec.getMsbD_eq_getLsbD, BitVec.getMsbD_eq_getLsbD, number, BitVec.getLsbD_ofNat, hlast,
    testBit_ofLE _ _ (by omega), hget, decide_eq_true (show 8 * k + r < 8 * n by omega),
    decide_eq_true (show 8 * (n - 1 - k) + (7 - r) < 8 * n by omega), decide_eq_true hr]
  rfl

/-- Numbers that agree octet by octet. It takes an equality of numbers to one of bits inside the
octets. -/
theorem number_ext {x y : BitVec (8 * n)}
    (h : ∀ k r, k < n → r < 8 → x.getMsbD (8 * k + r) = y.getMsbD (8 * k + r)) : x = y := by
  refine BitVec.eq_of_getMsbD_eq fun j hj => ?_
  rw [← Nat.div_add_mod j 8]
  exact h _ _ (by omega) (Nat.mod_lt _ (by decide))

/-- The and of two numbers is taken octet by octet. -/
theorem number_and (a b : Octets n) :
    number (fun i => a i &&& b i) = a.number &&& b.number := by
  refine number_ext fun k r hk hr => ?_
  rw [BitVec.getMsbD_and, getMsbD_number _ hk hr, getMsbD_number _ hk hr, getMsbD_number _ hk hr,
    UInt8.toBitVec_and, BitVec.getMsbD_and]

/-- The or of two numbers is taken octet by octet. -/
theorem number_or (a b : Octets n) :
    number (fun i => a i ||| b i) = a.number ||| b.number := by
  refine number_ext fun k r hk hr => ?_
  rw [BitVec.getMsbD_or, getMsbD_number _ hk hr, getMsbD_number _ hk hr, getMsbD_number _ hk hr,
    UInt8.toBitVec_or, BitVec.getMsbD_or]

/-- The complement of a number is taken octet by octet. -/
theorem number_not (a : Octets n) : number (fun i => ~~~a i) = ~~~a.number := by
  refine number_ext fun k r hk hr => ?_
  rw [BitVec.getMsbD_not, getMsbD_number _ hk hr, getMsbD_number _ hk hr, UInt8.toBitVec_not,
    BitVec.getMsbD_not, decide_eq_true hr, decide_eq_true (show 8 * k + r < 8 * n by omega)]

/-! ### Masks -/

/-- The octets of `leadingOnes`. Octet `k` has the bits of the mask from `8 * k` on. -/
def maskOctets (p : ℕ) : Octets n := fun i => ⟨leadingOnes 8 (p - 8 * i)⟩

/-- The octets of the mask are the mask, as long as it has no more ones than there are bits. -/
theorem number_maskOctets {p : ℕ} (hp : p ≤ 8 * n) :
    number (maskOctets p : Octets n) = leadingOnes (8 * n) p := by
  refine number_ext fun k r hk hr => ?_
  rw [getMsbD_number _ hk hr, getMsbD_leadingOnes hp]
  change (leadingOnes 8 (p - 8 * k)).getMsbD r = _
  rw [leadingOnes, BitVec.getMsbD_shiftLeft, BitVec.getMsbD_allOnes]
  exact decide_eq_decide.2 (by omega)

/-! ### Arrays -/

/-- `a[i]`, when there is one. An index from `n` on reads outside of the octets. -/
def load (i : ℕ) (a : Octets n) : Option UInt8 := if h : i < n then some (a ⟨i, h⟩) else none

/-- `a[i] = v`, when there is one. An index from `n` on writes outside of the octets. -/
def store (i : ℕ) (v : UInt8) (a : Octets n) : Option (Octets n) :=
  if h : i < n then some (Function.update a ⟨i, h⟩ v) else none

/-- `a[i] = v` for each of the indices, one after the other. The loop has no result as soon as
one index is outside. -/
def fill (v : UInt8) : List ℕ → Octets n → Option (Octets n)
  | [], a => some a
  | i :: is, a => (store i v a).bind (fill v is)

/-- A store at an index that is there changes that octet alone. -/
theorem store_eq {i : ℕ} (h : i < n) (v : UInt8) (a : Octets n) :
    store i v a = some fun j => if j.val = i then v else a j := by
  rw [store, dif_pos h]
  congr 1
  funext j
  rw [Function.update_apply]
  exact if_congr Fin.ext_iff rfl rfl

/-- Filled are the octets of the indices. With every index inside, the octets at the indices
have the value and the others are as they were. -/
theorem fill_eq (v : UInt8) {is : List ℕ} (h : ∀ i ∈ is, i < n) (a : Octets n) :
    fill v is a = some fun j => if j.val ∈ is then v else a j := by
  induction is generalizing a with
  | nil => simp [fill]
  | cons i is ih =>
      obtain ⟨hi, his⟩ := List.forall_mem_cons.1 h
      rw [fill, store_eq hi, Option.bind_some, ih his]
      congr 1
      funext j
      by_cases hj : j.val ∈ is
      · rw [if_pos hj, if_pos (List.mem_cons_of_mem _ hj)]
      · rw [if_neg hj]
        exact if_congr (by simp [hj]) rfl rfl

end Octets

end Hiper.Lib

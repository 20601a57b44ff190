import Mathlib.Data.List.Basic
import Mathlib.Data.Nat.Notation

/-!
# Vectors of pointers

A vector of pointers, of which some are null, read at any index: behind its end
there is nothing (`slot`).  What `resize` and an assignment do to what is read
(`slot_resize`, `slot_set`).

It is how a table of objects by number is kept when the number may be larger than the table:
read behind its end, an index has no object, exactly as a slot inside of it that is null,
and the difference shows only to the one who asks for the length.
-/

namespace Hiper.Lib

variable {α : Type*}

/-- The pointer at `i`.  A null pointer and a place behind the end give nothing alike. -/
def slot (l : List (Option α)) (i : ℕ) : Option α := l[i]?.join

/-- `vector::resize(n)`: cut off, or filled up with null pointers.  What was there before the
new end stays. -/
def resize (n : ℕ) (l : List (Option α)) : List (Option α) :=
  l.take n ++ List.replicate (n - l.length) none

/-- Afterwards there are as many slots as were asked for. -/
@[simp]
theorem length_resize (n : ℕ) (l : List (Option α)) : (resize n l).length = n := by
  rw [resize, List.length_append, List.length_take, List.length_replicate]
  omega

/-- Behind the end there is nothing. -/
theorem slot_of_length_le {l : List (Option α)} {i : ℕ} (h : l.length ≤ i) : slot l i = none := by
  rw [slot, List.getElem?_eq_none h]
  rfl

/-- The slots before the new end are read as before, and there is nothing in the others. -/
theorem slot_resize (n : ℕ) (l : List (Option α)) (i : ℕ) :
    slot (resize n l) i = if i < n then slot l i else none := by
  split_ifs with hi
  · by_cases hl : i < l.length
    · rw [slot, resize, List.getElem?_append_left (by simp; omega), List.getElem?_take, if_pos hi, slot]
    · rw [slot_of_length_le (Nat.not_lt.1 hl), slot, resize,
        List.getElem?_append_right (by simp; omega), List.getElem?_replicate]
      split_ifs <;> rfl
  · exact slot_of_length_le (by rw [length_resize]; omega)

/-- An assignment inside the vector changes its slot and no other. -/
theorem slot_set {l : List (Option α)} {i : ℕ} (h : i < l.length) (x : Option α) (j : ℕ) :
    slot (l.set i x) j = if j = i then x else slot l j := by
  rw [slot, List.getElem?_set]
  by_cases hij : i = j
  · subst hij
    rw [if_pos rfl, if_pos h, if_pos rfl]
    rfl
  · rw [if_neg hij, if_neg (Ne.symm hij), slot]

end Hiper.Lib

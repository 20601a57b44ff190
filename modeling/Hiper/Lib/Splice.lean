import Mathlib.Data.List.Basic
import Mathlib.Tactic.Linarith

/-!
# Overwriting a stretch of a list

`splice l i bs` puts `bs` at position `i` of `l`: what `bs` covers is replaced,
what lies past the end of `l` is appended.  The lemmas say how the operation
meets length, `take`, `drop` and `++`, so that a write into one block of a
larger sequence can be moved to the sequence and back.

A string that is kept in blocks is written block by block, and the reader of the whole
string wants to know of one write: `splice_append_across` splits a write at a border,
`splice_splice` joins two that are next to each other, and `splice_append_left` and
`splice_append_right` say what a write does not touch.  Appending is a write at the end
(`splice_length`).
-/

namespace Hiper.Lib

variable {α : Type*}

/-- `l` with the elements from `i` on overwritten by `bs`.  It is meant for `i` inside the list
or at its end; behind it there is no gap to fill. -/
def splice (l : List α) (i : ℕ) (bs : List α) : List α :=
  l.take i ++ bs ++ l.drop (i + bs.length)

/-- Nothing written, nothing changed. -/
@[simp]
theorem splice_nil (l : List α) (i : ℕ) : splice l i [] = l := by
  simp [splice]

/-- Inside the list nothing is appended.  So a write into a block of fixed size keeps the size. -/
theorem length_splice {l : List α} {i : ℕ} {bs : List α} (h : i + bs.length ≤ l.length) :
    (splice l i bs).length = l.length := by
  simp only [splice, List.length_append, List.length_take, List.length_drop]
  omega

/-- With the write starting inside the list, the result reaches as far as the list or the write,
whichever is longer.  It is what a file or a buffer does that grows when it is written past its
end. -/
theorem length_splice_max {l : List α} {i : ℕ} {bs : List α} (h : i ≤ l.length) :
    (splice l i bs).length = max l.length (i + bs.length) := by
  simp only [splice, List.length_append, List.length_take, List.length_drop]
  omega

/-- A write that fits in the first part leaves the second alone.  The first part is a block that
has room. -/
theorem splice_append_left {l₁ : List α} (l₂ : List α) {i : ℕ} {bs : List α}
    (h : i + bs.length ≤ l₁.length) : splice (l₁ ++ l₂) i bs = splice l₁ i bs ++ l₂ := by
  rw [splice, splice, List.take_append_of_le_length (by omega), List.drop_append_of_le_length h]
  simp only [List.append_assoc]

/-- A write that starts in the second part leaves the first alone.  The first part is the blocks
before it. -/
theorem splice_append_right (l₁ l₂ : List α) (i : ℕ) (bs : List α) :
    splice (l₁ ++ l₂) (l₁.length + i) bs = l₁ ++ splice l₂ i bs := by
  rw [splice, splice, List.take_length_add_append, Nat.add_assoc, List.drop_length_add_append]
  simp only [List.append_assoc]

/-- A write across the border of two parts is a write to the end of the first and one to the
start of the second.  It is one round of a loop that writes block by block. -/
theorem splice_append_across {l₁ : List α} (l₂ : List α) {i : ℕ} {bs : List α}
    (hi : i ≤ l₁.length) (h : l₁.length ≤ i + bs.length) :
    splice (l₁ ++ l₂) i bs =
      splice l₁ i (bs.take (l₁.length - i)) ++ splice l₂ 0 (bs.drop (l₁.length - i)) := by
  have htake : (bs.take (l₁.length - i)).length = l₁.length - i := by
    rw [List.length_take]
    omega
  have hdrop : l₁.drop (i + (l₁.length - i)) = [] := List.drop_eq_nil_of_le (by omega)
  rw [splice, splice, splice, htake, hdrop, List.take_append_of_le_length hi,
    List.drop_append, List.drop_eq_nil_of_le h, List.length_drop]
  simp only [List.append_nil, List.nil_append, List.take_zero, Nat.zero_add, List.append_assoc]
  rw [← List.append_assoc (bs.take _), List.take_append_drop]
  congr 3
  omega

/-- Two writes one behind the other are one write.  Neither reaches into what the other wrote. -/
theorem splice_splice {l : List α} {i : ℕ} (xs ys : List α) (hi : i ≤ l.length) :
    splice (splice l i xs) (i + xs.length) ys = splice l i (xs ++ ys) := by
  have hlen : (l.take i ++ xs).length = i + xs.length := by
    rw [List.length_append, List.length_take, Nat.min_eq_left hi]
  have htake : (splice l i xs).take (i + xs.length) = l.take i ++ xs := by
    rw [splice, ← hlen, List.take_left]
  have hdrop : (splice l i xs).drop (i + xs.length + ys.length) =
      l.drop (i + xs.length + ys.length) := by
    rw [splice, ← hlen, ← List.drop_drop, List.drop_left, List.drop_drop]
  rw [splice, htake, hdrop, splice, List.length_append, ← Nat.add_assoc, List.append_assoc _ xs]

/-- What was written stands where it was written.  Behind it stands what stood there before. -/
theorem drop_splice {l : List α} {i : ℕ} (bs : List α) (h : i ≤ l.length) :
    (splice l i bs).drop i = bs ++ l.drop (i + bs.length) := by
  have hlen : (l.take i).length = i := by rw [List.length_take, Nat.min_eq_left h]
  rw [splice, List.append_assoc, List.drop_append_of_le_length hlen.ge,
    List.drop_eq_nil_of_le hlen.le, List.nil_append]

/-- Appending is writing at the end.  So it takes no case of its own. -/
theorem splice_length (l bs : List α) : splice l l.length bs = l ++ bs := by
  simp [splice]

/-- Cutting a list off behind a write is writing into the list cut off.  What was cut off is
reached only by the write itself. -/
theorem splice_take {l : List α} {i n : ℕ} (bs : List α) (hi : i ≤ n) (hn : n ≤ l.length) :
    splice (l.take n) i bs = (splice l i bs).take (max n (i + bs.length)) := by
  have hlen : (l.take i ++ bs).length = i + bs.length := by
    rw [List.length_append, List.length_take, Nat.min_eq_left (hi.trans hn)]
  have hsub : max n (i + bs.length) - (i + bs.length) = n - (i + bs.length) := by omega
  rw [splice, splice, List.take_take, Nat.min_eq_left hi, List.drop_take,
    List.take_append, hlen, hsub, List.take_of_length_le (hlen.trans_le (le_max_right ..))]

end Hiper.Lib

import Mathlib.Data.List.Basic
import Mathlib.Data.Nat.Notation

/-!
# Objects in memory

A memory has something at each address, and an object is a string of it from an address
on.  What has been put is what is read (`read_put`), and two objects that are next to each
other are read as one (`read_add`).

Addresses are unbounded and the objects are strings of one kind of cell, so that nothing is
said of alignment or of the ends of the memory. A program that hands out pointers into its
memory gives pairs of an address and a length, and what its caller sees is `read`; what the
caller writes is `put`.
-/

namespace Hiper.Lib

/-- What is at each address. There is something at every address, as in a memory of which no
part is missing. -/
abbrev Memory (β : Type*) := ℕ → β

namespace Memory

variable {β : Type*}

/-- The memory with the object put at `a`. What is outside of the object stays. -/
def put (a : ℕ) (obj : List β) (m : Memory β) : Memory β :=
  fun i => if a ≤ i then obj[i - a]?.getD (m i) else m i

/-- The `n` that are at `a`. They are read in the order of their addresses. -/
def read (a n : ℕ) (m : Memory β) : List β := (List.range n).map fun i => m (a + i)

/-- As many are read as were asked for. -/
@[simp]
theorem length_read (a n : ℕ) (m : Memory β) : (m.read a n).length = n := by
  simp [read]

/-- What has been put at an address is read there again. -/
theorem read_put (a : ℕ) {obj : List β} {n : ℕ} (hn : obj.length = n) (m : Memory β) :
    (m.put a obj).read a n = obj := by
  subst hn
  refine List.ext_getElem (length_read ..) fun i hi hobj => ?_
  simp only [read, put, List.getElem_map, List.getElem_range]
  rw [if_pos (Nat.le_add_right a i), Nat.add_sub_cancel_left, List.getElem?_eq_getElem hobj,
    Option.getD_some]

/-- Two strings of cells next to each other, read as one. -/
theorem read_add (a n₁ n₂ : ℕ) (m : Memory β) :
    m.read a (n₁ + n₂) = m.read a n₁ ++ m.read (a + n₁) n₂ := by
  simp only [read, List.range_add, List.map_append, List.map_map]
  congr 2
  funext i
  exact congrArg m (Nat.add_assoc a n₁ i).symm

end Memory

end Hiper.Lib

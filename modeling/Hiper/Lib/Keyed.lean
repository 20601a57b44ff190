import Mathlib.Data.List.Basic
import Mathlib.Logic.Function.Basic

/-!
# Updates by key

A table of values by key, and a list of updates, each of which changes the value
under its own key.  Where no two updates have the same key, the value under the
key of an update is changed by that update alone (`updateAll_of_mem`), and the
others stay (`updateAll_of_notMem`).

It is the rule for a loop that goes over a list of tasks, each with a key of its own, and
changes for each the entry under its key: `foldl_eq_updateAll` reads the loop as such
updates of whatever part of the state the entries are, and the two rules above then give
every entry after the loop from the entry before it, with no induction over the list where
they are used.
-/

namespace Hiper.Lib

variable {α β κ : Type*} [DecidableEq κ]

/-- One update after the other. Each changes the value under its own key, from the value that is
there when its turn comes. -/
def updateAll (key : β → κ) (g : β → α → α) (items : List β) (f : κ → α) : κ → α :=
  items.foldl (fun f b => Function.update f (key b) (g b (f (key b)))) f

variable {key : β → κ} {g : β → α → α} {items : List β} {f : κ → α} {b : β} {k : κ}

/-- The first update is made before the others. -/
theorem updateAll_cons (b : β) (items : List β) (f : κ → α) :
    updateAll key g (b :: items) f =
      updateAll key g items (Function.update f (key b) (g b (f (key b)))) := rfl

/-- Two lists of updates one after the other. -/
theorem updateAll_append (items₁ items₂ : List β) (f : κ → α) :
    updateAll key g (items₁ ++ items₂) f = updateAll key g items₂ (updateAll key g items₁ f) :=
  List.foldl_append

/-- A key that no update has keeps its value. -/
theorem updateAll_of_notMem (h : ∀ b ∈ items, key b ≠ k) : updateAll key g items f k = f k := by
  induction items generalizing f with
  | nil => rfl
  | cons b items ih =>
      rw [List.forall_mem_cons] at h
      rw [updateAll_cons, ih h.2, Function.update_of_ne h.1.symm]

/-- Where no two updates have the same key, the value under the key of one of them is what this
one alone makes of the value at first. -/
theorem updateAll_of_mem (hkeys : items.Pairwise fun a b => key a ≠ key b) (hb : b ∈ items) :
    updateAll key g items f (key b) = g b (f (key b)) := by
  induction items generalizing f with
  | nil => cases hb
  | cons a items ih =>
      rw [List.pairwise_cons] at hkeys
      rw [updateAll_cons]
      rcases List.mem_cons.1 hb with rfl | hb
      · rw [updateAll_of_notMem fun a ha => (hkeys.1 a ha).symm, Function.update_self]
      · rw [ih hkeys.2 hb, Function.update_of_ne (hkeys.1 b hb).symm]

/-- A loop whose every round is such an update. `val` is the part of the loop's state that the
updates are about; what else a round changes does not matter to it. -/
theorem foldl_eq_updateAll {σ : Type*} (val : σ → κ → α) (step : σ → β → σ)
    (h : ∀ s b, val (step s b) = Function.update (val s) (key b) (g b (val s (key b))))
    (items : List β) (s : σ) : val (items.foldl step s) = updateAll key g items (val s) := by
  induction items generalizing s with
  | nil => rfl
  | cons b items ih => rw [List.foldl_cons, ih, h, updateAll_cons]

end Hiper.Lib

import Mathlib.Data.List.Induction
import Mathlib.Data.List.MinMax
import Mathlib.Data.List.Nodup

/-!
# A finite tree, as a table of its paths

A finite tree whose nodes have names below their parents, as the list of its paths with
what is at each.  Whatever is not the root has a parent, which is a branch
(`PathTable.parent`), so what has something below it is there (`isSome_of_prefix`) and has
a child there (`exists_child`).  `restrict` keeps a part of the tree that has the parents of
what it has, as what is not below a path, and `Within` compares two tables.

A file system without links is such a tree, a nested document is one, and so is anything
whose places are named by the way to them.  The table is a list and not a tree of lists, so
that an operation on a place is one on all paths below it at once, without a recursion:
taking a place away (`without`) or emptying it (`emptied`) is filtering the paths.  The
heights are bounded (`length_le_height`), which is what a program that walks down such a
tree terminates by.
-/

namespace Hiper.Lib

variable {α β : Type*} [DecidableEq α]

/-- What is at a path.  The root is not in the list of the entries; it is the empty path. -/
def valueAt (root : β) (entries : List (List α × β)) (p : List α) : Option β :=
  if p = [] then some root else (entries.find? fun e => e.1 = p).map Prod.snd

/-- A finite tree.  Every entry has a name and a parent, and its parent is the root or an entry
that may have children (`Branch`). -/
structure PathTable (α β : Type*) [DecidableEq α] (Branch : β → Prop) where
  root : β
  entries : List (List α × β)
  branch_root : Branch root
  nodup : (entries.map Prod.fst).Nodup
  parent : ∀ p n b, valueAt root entries (p ++ [n]) = some b →
    ∃ b', valueAt root entries p = some b' ∧ Branch b'

namespace PathTable

variable {Branch : β → Prop} {T T₁ T₂ T₃ : PathTable α β Branch} {p q t : List α} {b : β} {n : α}

/-- What is at a path.  Nothing is there unless a path leads to it. -/
def get (T : PathTable α β Branch) (p : List α) : Option β := valueAt T.root T.entries p

/-- The names below a path.  They are the last names of the paths that are one longer. -/
def names (T : PathTable α β Branch) (p : List α) : List α :=
  T.entries.filterMap fun e => if e.1.dropLast = p then e.1.getLast? else none

/-- How long a path may be.  No entry has a longer path than this, so that a walk down the tree
ends. -/
def height (T : PathTable α β Branch) : ℕ := (T.entries.map fun e => e.1.length).foldr max 0

/-- At the empty path is the root. -/
@[simp]
theorem get_nil (T : PathTable α β Branch) : T.get [] = some T.root := by
  rw [get, valueAt, if_pos rfl]

/-- Below the root, what is at a path is the first entry with it. -/
theorem get_of_ne_nil (hp : p ≠ []) :
    T.get p = (T.entries.find? fun e => e.1 = p).map Prod.snd := if_neg hp

/-- Below the root, something is at a path when an entry has it. -/
theorem get_isSome_iff (hp : p ≠ []) : (T.get p).isSome = true ↔ ∃ e ∈ T.entries, e.1 = p := by
  rw [get_of_ne_nil hp, Option.isSome_map, List.find?_isSome]
  simp

/-- A name is below a path when something is at the path that it makes longer. -/
theorem mem_names : n ∈ T.names p ↔ (T.get (p ++ [n])).isSome = true := by
  rw [get_isSome_iff (by simp), names, List.mem_filterMap]
  constructor
  · rintro ⟨e, he, hn⟩
    split_ifs at hn with hp
    exact ⟨e, he, by rw [← hp, List.dropLast_append_getLast? _ hn]⟩
  · rintro ⟨e, he, hp⟩
    exact ⟨e, he, by simp [hp]⟩

/-- What is there has a path no longer than the height. -/
theorem length_le_height (hp : (T.get p).isSome = true) : p.length ≤ T.height := by
  rcases eq_or_ne p [] with rfl | hne
  · exact Nat.zero_le _
  · obtain ⟨e, he, rfl⟩ := (get_isSome_iff hne).1 hp
    exact List.le_max_of_le' 0 (List.mem_map_of_mem he) le_rfl

/-- What is below the root has a parent, and the parent is a branch. -/
theorem get_parent (h : (T.get (p ++ [n])).isSome = true) : ∃ b, T.get p = some b ∧ Branch b := by
  obtain ⟨b, hb⟩ := Option.isSome_iff_exists.1 h
  exact T.parent p n b hb

/-- What is above something is there.  The induction is over the names between the two. -/
theorem isSome_of_prefix (hpq : p <+: q) (hq : (T.get q).isSome = true) :
    (T.get p).isSome = true := by
  obtain ⟨r, rfl⟩ := hpq
  induction r using List.reverseRecOn with
  | nil => rwa [List.append_nil] at hq
  | append_singleton r n ih =>
      rw [← List.append_assoc] at hq
      obtain ⟨b, hb, -⟩ := get_parent hq
      exact ih (by rw [hb]; rfl)

/-- What has something below it has a child above that, or at it.  A walk down to it can always
take one more step. -/
theorem exists_child (hpq : p <+: q) (hne : q ≠ p) (hq : (T.get q).isSome = true) :
    ∃ n, (T.get (p ++ [n])).isSome = true ∧ p ++ [n] <+: q := by
  obtain ⟨r, rfl⟩ := hpq
  rcases r with _ | ⟨n, r⟩
  · exact absurd (List.append_nil p) hne
  · have hprefix : p ++ [n] <+: p ++ n :: r := ⟨r, by simp⟩
    exact ⟨n, isSome_of_prefix hprefix hq, hprefix⟩

/-! ### Parts -/

/-- Keeping some of the entries, those of the kept paths, leaves what is at these, and the root. -/
theorem valueAt_filter (root : β) (entries : List (List α × β)) (keep : List α → Prop)
    [DecidablePred keep] (p : List α) :
    valueAt root (entries.filter fun e => keep e.1) p =
      if p = [] ∨ keep p then valueAt root entries p else none := by
  unfold valueAt
  rw [List.find?_filter]
  by_cases hp : p = []
  · simp [hp]
  · by_cases hkeep : keep p
    · rw [if_neg hp, if_pos (.inr hkeep), if_neg hp]
      congr 2
      funext e
      rw [Bool.eq_iff_iff]
      simp only [Bool.decide_and, Bool.and_eq_true, decide_eq_true_eq]
      exact and_iff_right_of_imp fun he => he ▸ hkeep
    · rw [if_neg hp, if_neg (by simp [hp, hkeep]), Option.map_eq_none_iff, List.find?_eq_none]
      rintro e - he
      simp only [Bool.decide_and, Bool.and_eq_true, decide_eq_true_eq] at he
      exact hkeep (he.2 ▸ he.1)

/-- The part that is kept: it has the parents of what it has.  To keep a path is to keep those
above it, so that what is left is a tree. -/
def restrict (T : PathTable α β Branch) (keep : List α → Prop) [DecidablePred keep]
    (hkeep : ∀ p n, keep (p ++ [n]) → keep p) : PathTable α β Branch where
  root := T.root
  entries := T.entries.filter fun e => keep e.1
  branch_root := T.branch_root
  nodup := (List.filter_sublist.map Prod.fst).nodup T.nodup
  parent := by
    intro p n b hb
    rw [valueAt_filter] at hb ⊢
    split_ifs at hb with hpn
    rw [if_pos (.inr (hkeep p n (hpn.resolve_left (by simp))))]
    exact T.parent p n b hb

/-- In the part that is kept, the kept paths have what they had, and the others nothing. -/
theorem get_restrict (T : PathTable α β Branch) (keep : List α → Prop) [DecidablePred keep]
    (hkeep : ∀ p n, keep (p ++ [n]) → keep p) (p : List α) :
    (T.restrict keep hkeep).get p = if p = [] ∨ keep p then T.get p else none :=
  valueAt_filter T.root T.entries keep p

/-- What is at a path and below it is taken away.  The root stays, whatever the path. -/
def without (t : List α) (T : PathTable α β Branch) : PathTable α β Branch :=
  T.restrict (fun p => ¬t <+: p) fun p n h hp => h (hp.trans (List.prefix_append p [n]))

/-- What is not at or below the path is as it was. -/
theorem get_without (t p : List α) (T : PathTable α β Branch) :
    (T.without t).get p = if p ≠ [] ∧ t <+: p then none else T.get p := by
  rw [without, get_restrict]
  split_ifs <;> tauto

/-- What is below a path is taken away.  The path itself stays, and is a branch without
children. -/
def emptied (t : List α) (T : PathTable α β Branch) : PathTable α β Branch :=
  T.restrict (fun p => t <+: p → p = t) fun p n h hp => by
    have hpn := h (hp.trans (List.prefix_append p [n]))
    obtain ⟨r, rfl⟩ := hp
    simp at hpn

/-- The path itself keeps what is at it; what is below it is gone. -/
theorem get_emptied (t p : List α) (T : PathTable α β Branch) :
    (T.emptied t).get p = if t <+: p ∧ p ≠ t then none else T.get p := by
  rw [emptied, get_restrict]
  split_ifs <;> simp_all

/-! ### Tables compared -/

/-- What is in the first is in the second.  It has no more, and what it has is the same. -/
def Within (T₁ T₂ : PathTable α β Branch) : Prop := ∀ p b, T₁.get p = some b → T₂.get p = some b

/-- A table is within itself. -/
theorem Within.refl (T : PathTable α β Branch) : Within T T := fun _ _ => id

/-- A table within one that is within a third is within the third. -/
theorem Within.trans (h₁₂ : Within T₁ T₂) (h₂₃ : Within T₂ T₃) : Within T₁ T₃ :=
  fun p b h => h₂₃ p b (h₁₂ p b h)

/-- What is there in the first is there in the second. -/
theorem Within.isSome (h : Within T₁ T₂) (hp : (T₁.get p).isSome = true) :
    (T₂.get p).isSome = true := by
  obtain ⟨b, hb⟩ := Option.isSome_iff_exists.1 hp
  rw [h p b hb]
  rfl

/-- Taking something away leaves less. -/
theorem without_within (t : List α) (T : PathTable α β Branch) : Within (T.without t) T := by
  intro p b hb
  rw [get_without] at hb
  split_ifs at hb
  exact hb

/-- Emptying a path leaves less. -/
theorem emptied_within (t : List α) (T : PathTable α β Branch) : Within (T.emptied t) T := by
  intro p b hb
  rw [get_emptied] at hb
  split_ifs at hb
  exact hb

/-- Where nothing is below a path, the rest is in what is left when that is emptied.  It is the
step of a program that empties a place by taking away what is below it, one child after the
other. -/
theorem within_emptied (h : Within T₁ T₂) (ht : T₁.names t = []) : Within T₁ (T₂.emptied t) := by
  intro p b hb
  rw [get_emptied, if_neg]
  · exact h p b hb
  · rintro ⟨htp, hne⟩
    obtain ⟨n, hn, -⟩ := exists_child htp hne (Option.isSome_iff_exists.2 ⟨b, hb⟩)
    rw [← mem_names, ht] at hn
    exact List.not_mem_nil hn

end PathTable

end Hiper.Lib

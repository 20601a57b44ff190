import Mathlib.Data.List.Basic
import Mathlib.Order.Lattice

/-!
# Ordered sequences

An ordered container (`std::set`, `std::map`) as the list of its elements in
order.  `less` is the comparator; an iterator is the list of the elements from
it on.  The operations look at `less` alone, as the container does; when `less`
compares the values of a key, and the list is sorted by it, they find, insert
and erase by that key (`find_eq_some`, `mem_insert`, `mem_erase`) and keep the
list sorted.

Nothing is said of trees and of balance: what a program can see of such a container is the
order of its elements, where an iterator stands, and which elements `find`, `insert` and
`erase` take for the same.  The order is strict, so that elements whose keys agree are one
(`Sorted.key_inj`), and the container refuses the second of them (`Sorted.insert_of_mem`).
A key may change over time when it is read off something else: `Sorted.congr` says what of
the order stays then.
-/

namespace Hiper.Lib.OrderedSeq

variable {α κ : Type*} [LinearOrder κ]

/-- The elements before `lower_bound(k)`.  They are passed over one by one while the comparator
puts them before `k`. -/
def before (less : α → α → Bool) (k : α) (l : List α) : List α := l.takeWhile (less · k)

/-- The elements from `lower_bound(k)` on.  It is empty where every element is before `k`, which
is `end()`. -/
def lowerBound (less : α → α → Bool) (k : α) (l : List α) : List α := l.dropWhile (less · k)

/-- `find(k)`: the first element not before `k`, unless `k` is before it.  Equivalence is what
the comparator makes of it, neither before the other; the elements themselves are not compared. -/
def find (less : α → α → Bool) (k : α) (l : List α) : Option α :=
  match lowerBound less k l with
  | [] => none
  | x :: _ => if less k x then none else some x

/-- `insert(a)`: nothing happens when an equivalent element is there.  The place is
`lower_bound(a)`. -/
def insert (less : α → α → Bool) (a : α) (l : List α) : List α :=
  match lowerBound less a l with
  | [] => l ++ [a]
  | x :: rest => if less a x then before less a l ++ a :: x :: rest else l

/-- `erase(find(k))`, when there is an element to find.  A container in which no element is
equivalent to `k` stays as it is. -/
def erase (less : α → α → Bool) (k : α) (l : List α) : List α :=
  before less k l ++ (lowerBound less k l).tail

/-- `less` compares keys.  So `less` is a strict order, total up to elements with the same key. -/
def Compares (less : α → α → Bool) (key : α → κ) : Prop :=
  ∀ a b, less a b = true ↔ key a < key b

/-- The list is strictly sorted by the key.  No two elements of it have the same key. -/
def Sorted (key : α → κ) (l : List α) : Prop := l.Pairwise fun a b => key a < key b

variable {less : α → α → Bool} {key : α → κ} {l : List α} {a k x : α}

/-- The two parts are the whole list. -/
theorem before_append_lowerBound (less : α → α → Bool) (k : α) (l : List α) :
    before less k l ++ lowerBound less k l = l :=
  List.takeWhile_append_dropWhile

/-- Keys that agree on the list sort it alike.  It is what is left of the order when something
that the key is read off has changed outside of the list. -/
theorem Sorted.congr {key' : α → κ} (hl : Sorted key l) (h : ∀ x ∈ l, key' x = key x) :
    Sorted key' l := by
  refine List.Pairwise.imp_of_mem ?_ hl
  intro x y hx hy hlt
  rwa [h x hx, h y hy]

/-- Two elements with one key are one element. -/
theorem Sorted.key_inj (hl : Sorted key l) {x y : α} (hx : x ∈ l) (hy : y ∈ l)
    (hkey : key x = key y) : x = y := by
  induction l with
  | nil => cases hx
  | cons z l ih =>
      obtain ⟨hz, hl⟩ := List.pairwise_cons.1 hl
      rcases List.mem_cons.1 hx with hxz | hx <;> rcases List.mem_cons.1 hy with hyz | hy
      · exact hxz.trans hyz.symm
      · exact absurd (hxz ▸ hkey) (hz y hy).ne
      · exact absurd (hyz ▸ hkey.symm) (hz x hx).ne
      · exact ih hl hx hy

/-- No element is in the list twice. -/
theorem Sorted.nodup (hl : Sorted key l) : l.Nodup :=
  hl.imp fun hlt => ne_of_apply_ne key hlt.ne

/-- The head of a sorted list is its least element.  It is `*begin()`. -/
theorem Sorted.head_le (hl : Sorted key (a :: l)) (hx : x ∈ a :: l) : key a ≤ key x := by
  rcases List.mem_cons.1 hx with rfl | hx
  · exact le_rfl
  · exact ((List.pairwise_cons.1 hl).1 x hx).le

/-- A prefix cut where a condition on the key stops holding is the part where it holds.  The
condition is to hold of whatever is smaller than what it holds of; a container that is cut at an
iterator is so cut by the keys. -/
theorem Sorted.mem_takeWhile_and_dropWhile (hl : Sorted key l) {p : α → Bool}
    (hp : ∀ x y, x ∈ l → y ∈ l → key x < key y → p y = true → p x = true) :
    (x ∈ l.takeWhile p ↔ x ∈ l ∧ p x = true) ∧ (x ∈ l.dropWhile p ↔ x ∈ l ∧ p x = false) := by
  induction l with
  | nil => simp
  | cons y l ih =>
      obtain ⟨hy, hl⟩ := List.pairwise_cons.1 hl
      have ih := ih hl fun x z hx hz => hp x z (List.mem_cons_of_mem _ hx) (List.mem_cons_of_mem _ hz)
      cases hpy : p y with
      | true =>
          rw [List.takeWhile_cons_of_pos hpy, List.dropWhile_cons_of_pos hpy]
          constructor
          · rw [List.mem_cons, List.mem_cons, ih.1]
            constructor
            · rintro (rfl | ⟨hx, hpx⟩)
              · exact ⟨Or.inl rfl, hpy⟩
              · exact ⟨Or.inr hx, hpx⟩
            · rintro ⟨rfl | hx, hpx⟩
              · exact Or.inl rfl
              · exact Or.inr ⟨hx, hpx⟩
          · rw [List.mem_cons, ih.2]
            constructor
            · rintro ⟨hx, hpx⟩
              exact ⟨Or.inr hx, hpx⟩
            · rintro ⟨rfl | hx, hpx⟩
              · rw [hpy] at hpx
                cases hpx
              · exact ⟨hx, hpx⟩
      | false =>
          have hnone : ∀ x ∈ y :: l, p x = false := by
            intro x hx
            rcases List.mem_cons.1 hx with rfl | hmem
            · exact hpy
            · by_contra hpx
              have := hp y x (List.mem_cons_self ..) hx (hy x hmem) (by simpa using hpx)
              rw [hpy] at this
              cases this
          rw [List.takeWhile_cons_of_neg (by simp [hpy]), List.dropWhile_cons_of_neg (by simp [hpy])]
          constructor
          · constructor
            · intro hx
              cases hx
            · rintro ⟨hx, hpx⟩
              rw [hnone x hx] at hpx
              cases hpx
          · exact ⟨fun hx => ⟨hx, hnone x hx⟩, fun h => h.1⟩

/-- The rest from an iterator on is sorted. -/
theorem Sorted.sorted_lowerBound (hl : Sorted key l) (less : α → α → Bool) (k : α) :
    Sorted key (lowerBound less k l) :=
  hl.sublist (List.dropWhile_sublist _)

/-- Taking an element out keeps the list sorted. -/
theorem Sorted.sorted_erase (hl : Sorted key l) : Sorted key (erase less k l) := by
  have hsub : (erase less k l).Sublist l := by
    conv_rhs => rw [← before_append_lowerBound less k l]
    exact (List.Sublist.refl _).append (List.tail_sublist _)
  exact hl.sublist hsub

section

variable (hless : Compares less key)

include hless

/-- Not before `k` is to have a key of at least that of `k`. -/
theorem less_eq_false : less a k = false ↔ key k ≤ key a := by
  rw [← not_lt, ← hless a k, Bool.not_eq_true]

/-- Before the bound are the elements with a smaller key. -/
theorem Sorted.mem_before (hl : Sorted key l) :
    x ∈ before less k l ↔ x ∈ l ∧ key x < key k := by
  have h := (hl.mem_takeWhile_and_dropWhile (x := x) (p := (less · k)) fun x y _ _ hlt hy =>
    (hless x k).2 (hlt.trans ((hless y k).1 hy))).1
  rwa [hless] at h

/-- From the bound on are the elements whose key is not smaller. -/
theorem Sorted.mem_lowerBound (hl : Sorted key l) :
    x ∈ lowerBound less k l ↔ x ∈ l ∧ key k ≤ key x := by
  have h := (hl.mem_takeWhile_and_dropWhile (x := x) (p := (less · k)) fun x y _ _ hlt hy =>
    (hless x k).2 (hlt.trans ((hless y k).1 hy))).2
  rwa [less_eq_false hless] at h

/-- **`find` finds by key.**  Nothing else with the key is in the list, so that what is found is
the one element that has it. -/
theorem Sorted.find_eq_some (hl : Sorted key l) :
    find less k l = some x ↔ x ∈ l ∧ key x = key k := by
  have hmem : ∀ y, y ∈ lowerBound less k l ↔ y ∈ l ∧ key k ≤ key y :=
    fun y => hl.mem_lowerBound hless
  have hsorted := hl.sorted_lowerBound less k
  unfold find
  cases hlow : lowerBound less k l with
  | nil =>
      rw [hlow] at hmem
      constructor
      · intro h
        cases h
      · rintro ⟨hx, hkey⟩
        exact absurd ((hmem x).2 ⟨hx, hkey.ge⟩) List.not_mem_nil
  | cons y rest =>
      rw [hlow] at hmem hsorted
      obtain ⟨hy, hky⟩ := (hmem y).1 (List.mem_cons_self ..)
      dsimp only
      by_cases hlt : less k y = true
      · rw [if_pos hlt]
        constructor
        · intro h
          cases h
        · rintro ⟨hx, hkey⟩
          have hle := hsorted.head_le ((hmem x).2 ⟨hx, hkey.ge⟩)
          exact absurd (hkey ▸ hle) (not_le.2 ((hless k y).1 hlt))
      · have hyk : key y = key k := le_antisymm ((less_eq_false hless).1 (by simpa using hlt)) hky
        rw [if_neg hlt, Option.some_inj]
        constructor
        · rintro rfl
          exact ⟨hy, hyk⟩
        · rintro ⟨hx, hkey⟩
          exact hl.key_inj hy hx (hyk.trans hkey.symm)

/-- Nothing is found when no element has the key. -/
theorem Sorted.find_eq_none (hl : Sorted key l) :
    find less k l = none ↔ ∀ x ∈ l, key x ≠ key k := by
  rw [Option.eq_none_iff_forall_not_mem]
  constructor
  · intro h x hx hkey
    exact h x ((hl.find_eq_some hless).2 ⟨hx, hkey⟩)
  · intro h x hx
    obtain ⟨hmem, hkey⟩ := (hl.find_eq_some hless).1 hx
    exact h x hmem hkey

/-- Inserting a new key puts the element between the smaller and the greater ones.  They stay
where they are. -/
theorem Sorted.insert_eq (hl : Sorted key l) (hnew : ∀ x ∈ l, key x ≠ key a) :
    insert less a l = before less a l ++ a :: lowerBound less a l := by
  have happend := before_append_lowerBound less a l
  unfold insert
  cases hlow : lowerBound less a l with
  | nil =>
      rw [hlow, List.append_nil] at happend
      rw [happend]
  | cons y rest =>
      have hy := (hl.mem_lowerBound hless).1 (hlow ▸ List.mem_cons_self .. : y ∈ _)
      dsimp only
      rw [if_pos ((hless a y).2 (lt_of_le_of_ne hy.2 (hnew y hy.1).symm))]

/-- **`insert` adds the element**, and nothing else.  The key must be a new one, else nothing is
added. -/
theorem Sorted.mem_insert (hl : Sorted key l) (hnew : ∀ x ∈ l, key x ≠ key a) :
    x ∈ insert less a l ↔ x = a ∨ x ∈ l := by
  have happend := before_append_lowerBound less a l
  rw [hl.insert_eq hless hnew, List.mem_append, List.mem_cons]
  conv_rhs => rw [← happend, List.mem_append]
  tauto

/-- An element with a new key is put where the list stays sorted. -/
theorem Sorted.sorted_insert (hl : Sorted key l) (hnew : ∀ x ∈ l, key x ≠ key a) :
    Sorted key (insert less a l) := by
  rw [hl.insert_eq hless hnew]
  refine List.pairwise_append.2 ⟨hl.sublist (List.takeWhile_sublist _), ?_, ?_⟩
  · refine List.pairwise_cons.2 ⟨?_, hl.sorted_lowerBound less a⟩
    intro y hy
    obtain ⟨hy, hle⟩ := (hl.mem_lowerBound hless).1 hy
    exact lt_of_le_of_ne hle (hnew y hy).symm
  · intro x hx y hy
    have hxa := ((hl.mem_before hless).1 hx).2
    rcases List.mem_cons.1 hy with rfl | hy
    · exact hxa
    · exact hxa.trans_le ((hl.mem_lowerBound hless).1 hy).2

/-- `insert` does nothing when the key is there.  An element with that key is there, and
remains. -/
theorem Sorted.insert_of_mem (hl : Sorted key l) (hx : x ∈ l) (hkey : key x = key a) :
    insert less a l = l := by
  have hlow := (hl.mem_lowerBound hless).2 ⟨hx, hkey.ge⟩
  have hsorted := hl.sorted_lowerBound less a
  unfold insert
  cases hcase : lowerBound less a l with
  | nil =>
      rw [hcase] at hlow
      cases hlow
  | cons y rest =>
      rw [hcase] at hlow hsorted
      dsimp only
      rw [if_neg]
      rw [hless]
      exact not_lt.2 ((hsorted.head_le hlow).trans hkey.le)

/-- `insert` keeps the list sorted.  With a key that is there nothing changes, and a new one is
put in its place. -/
theorem Sorted.sorted_insert_any (hl : Sorted key l) (a : α) : Sorted key (insert less a l) := by
  by_cases hnew : ∀ x ∈ l, key x ≠ key a
  · exact hl.sorted_insert hless hnew
  · push Not at hnew
    obtain ⟨x, hx, hkey⟩ := hnew
    rw [hl.insert_of_mem hless hx hkey]
    exact hl

/-- The element goes to the front when nothing is smaller, and only then.  This is how a program
sees that what it has inserted is the first. -/
theorem Sorted.before_eq_nil (hl : Sorted key l) :
    before less a l = [] ↔ ∀ x ∈ l, key a ≤ key x := by
  rw [List.eq_nil_iff_forall_not_mem]
  constructor
  · intro h x hx
    exact not_lt.1 fun hlt => h x ((hl.mem_before hless).2 ⟨hx, hlt⟩)
  · intro h x hx
    obtain ⟨hmem, hlt⟩ := (hl.mem_before hless).1 hx
    exact absurd hlt (not_lt.2 (h x hmem))

/-- **`erase` takes the element out**, and nothing else.  The element is in the list, so that it
is the one which is found. -/
theorem Sorted.mem_erase (hl : Sorted key l) (hk : k ∈ l) :
    x ∈ erase less k l ↔ x ∈ l ∧ x ≠ k := by
  have hlow : lowerBound less k l = k :: (lowerBound less k l).tail := by
    have hmem := (hl.mem_lowerBound hless).2 ⟨hk, le_rfl (a := key k)⟩
    have hsorted := hl.sorted_lowerBound less k
    cases hcase : lowerBound less k l with
    | nil =>
        rw [hcase] at hmem
        cases hmem
    | cons y rest =>
        rw [hcase] at hmem hsorted
        have hy := (hl.mem_lowerBound hless).1 (hcase ▸ List.mem_cons_self .. : y ∈ _)
        have hyk := hl.key_inj hy.1 hk (le_antisymm (hsorted.head_le hmem) hy.2)
        rw [hyk, List.tail_cons]
  have hsplit : before less k l ++ k :: (lowerBound less k l).tail = l := by
    rw [← hlow, before_append_lowerBound]
  have hnodup := hsplit ▸ hl.nodup
  rw [erase]
  conv_rhs => rw [← hsplit]
  rw [List.nodup_append] at hnodup
  obtain ⟨-, htail, hdisj⟩ := hnodup
  have hnot := (List.nodup_cons.1 htail).1
  rw [List.mem_append, List.mem_append, List.mem_cons]
  constructor
  · rintro (hx | hx)
    · exact ⟨Or.inl hx, hdisj x hx k (List.mem_cons_self ..)⟩
    · exact ⟨Or.inr (Or.inr hx), fun h => hnot (h ▸ hx)⟩
  · rintro ⟨hx | hx | hx, hne⟩
    · exact Or.inl hx
    · exact absurd hx hne
    · exact Or.inr hx

/-- It takes out the element with the key of `k`, whatever `k` is.  The element that is given
may be an outdated copy. -/
theorem Sorted.mem_erase_key (hl : Sorted key l) {y : α} (hy : y ∈ l) (hkey : key y = key k) :
    x ∈ erase less k l ↔ x ∈ l ∧ key x ≠ key k := by
  have hsame : (less · k) = (less · y) := by
    funext z
    rw [Bool.eq_iff_iff, hless, hless, hkey]
  have herase : erase less k l = erase less y l := by
    rw [erase, erase, before, before, lowerBound, lowerBound, hsame]
  rw [herase, hl.mem_erase hless hy, ← hkey]
  refine and_congr_right fun hx => not_congr ⟨congrArg key, fun h => hl.key_inj hx hy h⟩

end

end Hiper.Lib.OrderedSeq

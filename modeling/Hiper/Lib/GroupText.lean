import Mathlib.Data.List.Forall2
import Mathlib.Data.List.TakeWhile

/-!
# Groups, and a run of zeros that is left out

A list of `n` groups is written with a separator between the groups, or with two
separators for a run of one or more zero groups (`Denotes`).  What a group is
written as is a parameter, `Group`; the separator must not occur in it, and it must
not be empty.  Then a text denotes one list only (`Denotes.unique`): the texts of
the groups are what stands between the separators, and the run is where nothing
stands there.

The run may stand at the front or at the end of the groups, where one of its two separators
has nothing beside it: `side` puts an empty text there, so that a text with a run is always
what is between its separators (`compressed_eq`) and the two sides are found by cutting at
the separators and looking for the first empty piece (`takeWhile_side`). A text with all the
groups has no empty piece (`full_ne_compressed`), so that the two forms are told apart. That
there is a run to leave out, and which one a writer chooses when it takes the first, is
`exists_run`.
-/

namespace Hiper.Lib

variable {α β : Type*}

/-- Two lists of texts that are written one behind the other have one separator between them,
when neither is empty. -/
theorem intercalate_append {sep : List α} {ps qs : List (List α)} (hp : ps ≠ []) (hq : qs ≠ []) :
    sep.intercalate (ps ++ qs) = sep.intercalate ps ++ sep ++ sep.intercalate qs := by
  induction ps with
  | nil => exact absurd rfl hp
  | cons p ps ih =>
      by_cases hps : ps = []
      · rw [hps, List.singleton_append, List.intercalate_cons_of_ne_nil hq,
          List.intercalate_singleton]
      · rw [List.cons_append, List.intercalate_cons_of_ne_nil (by simp [hps]), ih hps,
          List.intercalate_cons_of_ne_nil hps]
        simp only [List.append_assoc]

/-- Where the first separator is. Two texts that agree, cut at the first separator, agree on
both sides of the cut. -/
theorem append_sep_inj [DecidableEq α] {sep : α} {t t' r r' : List α} (h : sep ∉ t) (h' : sep ∉ t')
    (heq : t ++ sep :: r = t' ++ sep :: r') : t = t' ∧ r = r' := by
  have hbefore : ∀ {t : List α}, sep ∉ t → ∀ r, (t ++ sep :: r).takeWhile (· != sep) = t := by
    intro t ht r
    have hne : ∀ a ∈ t, (a != sep) = true := fun a ha => bne_iff_ne.2 fun e => ht (e ▸ ha)
    rw [List.takeWhile_append_of_pos hne, List.takeWhile_cons_of_neg (by simp), List.append_nil]
  obtain rfl : t = t' := by rw [← hbefore h r, heq, hbefore h']
  exact ⟨rfl, (List.cons.inj (List.append_cancel_left heq)).2⟩

/-- Every text with the separator before it. So a program writes groups that each come with
their own separator. -/
def separated (sep : α) (ps : List (List α)) : List α := ps.flatMap (sep :: ·)

/-- With at least one text, writing the separator before each is writing one separator and then
the texts between separators. -/
theorem separated_eq {sep : α} {ps : List (List α)} (h : ps ≠ []) :
    separated sep ps = sep :: [sep].intercalate ps := by
  induction ps with
  | nil => exact absurd rfl h
  | cons p ps ih =>
      rw [separated, List.flatMap_cons]
      by_cases hps : ps = []
      · rw [hps, List.intercalate_singleton]
        simp
      · have ih' : ps.flatMap (sep :: ·) = sep :: [sep].intercalate ps := ih hps
        rw [ih', List.intercalate_cons_of_ne_nil hps]
        simp

/-- What is in the written text is the separator or is in one of the texts. -/
theorem mem_intercalate {sep : α} {ps : List (List α)} {a : α} (h : a ∈ [sep].intercalate ps) :
    a = sep ∨ ∃ p ∈ ps, a ∈ p := by
  rcases eq_or_ne ps [] with rfl | hps
  · exact absurd h List.not_mem_nil
  · have hmem : a ∈ separated sep ps := by
      rw [separated_eq hps]
      exact List.mem_cons_of_mem _ h
    obtain ⟨p, hp, ha⟩ := List.mem_flatMap.1 hmem
    rcases List.mem_cons.1 ha with rfl | ha
    · exact .inl rfl
    · exact .inr ⟨p, hp, ha⟩

namespace GroupText

/-- The text of two lists of groups with the run between them. Two separators stand for the run,
and the groups on either side keep the separators between them. -/
def compressed (sep : α) (ps qs : List (List α)) : List α :=
  [sep].intercalate ps ++ [sep, sep] ++ [sep].intercalate qs

/-- What is between the separators, next to the run. Next to a run a side without groups has one
empty text, and the other sides have the texts of their groups. -/
def side (ps : List (List α)) : List (List α) := if ps = [] then [[]] else ps

/-- A side has always a text, if only the empty one. -/
theorem side_ne_nil (ps : List (List α)) : side ps ≠ [] := by
  rw [side]
  split_ifs with h
  · simp
  · exact h

/-- The empty text that stands for a side without groups is written as nothing. -/
theorem intercalate_side (sep : List α) (ps : List (List α)) :
    sep.intercalate (side ps) = sep.intercalate ps := by
  rw [side]
  split_ifs with h
  · rw [h, List.intercalate_singleton, List.intercalate_nil]
  · rfl

/-- A text with a run is the two sides with one empty text between them, separated throughout. -/
theorem compressed_eq (sep : α) (ps qs : List (List α)) :
    compressed sep ps qs = [sep].intercalate (side ps ++ [] :: side qs) := by
  rw [intercalate_append (side_ne_nil ps) (List.cons_ne_nil _ _),
    List.intercalate_cons_of_ne_nil (side_ne_nil qs), intercalate_side, intercalate_side]
  simp [compressed]

/-- The groups before the run are what comes before the first empty text. Cutting a compressed
text at its separators and stopping at the first empty piece gives the left side back. -/
theorem takeWhile_side {ps : List (List α)} (h : ∀ p ∈ ps, p ≠ []) (qs : List (List α)) :
    (side ps ++ [] :: qs).takeWhile (fun p => !p.isEmpty) = ps := by
  have hps : ∀ p ∈ ps, (!p.isEmpty) = true := fun p hp => by simpa using h p hp
  rw [side]
  split_ifs with hnil
  · rw [hnil]
    rfl
  · rw [List.takeWhile_append_of_pos hps, List.takeWhile_cons_of_neg (by simp), List.append_nil]

/-- In a side are the texts of its groups, and the empty one when there are none. -/
theorem mem_side {ps : List (List α)} {p : List α} (h : p ∈ side ps) : p ∈ ps ∨ p = [] := by
  rw [side] at h
  split_ifs at h with hps
  · exact .inr (List.mem_singleton.1 h)
  · exact .inl h

/-- Between the separators of a compressed text are the texts of the groups and empty ones. -/
theorem mem_sides {ps qs : List (List α)} {p : List α} (h : p ∈ side ps ++ [] :: side qs) :
    p ∈ ps ∨ p ∈ qs ∨ p = [] := by
  rcases List.mem_append.1 h with h | h
  · rcases mem_side h with h | h
    · exact .inl h
    · exact .inr (.inr h)
  · rcases List.mem_cons.1 h with h | h
    · exact .inr (.inr h)
    · exact .inr (mem_side h)

/-- `gs` are `n` groups, and `t` is a text of them. Either all groups are written, or one run of
one or more zeros is left out; how many it has is what is missing to `n`. -/
inductive Denotes (sep : α) (Group : List α → β → Prop) (zero : β) (n : ℕ) :
    List α → List β → Prop
  | full {ps gs} (groups : List.Forall₂ Group ps gs) (length : gs.length = n) :
      Denotes sep Group zero n ([sep].intercalate ps) gs
  | compressed {ps qs l r} (left : List.Forall₂ Group ps l) (right : List.Forall₂ Group qs r)
      (k : ℕ) (some_zero : 1 ≤ k) (length : l.length + k + r.length = n) :
      Denotes sep Group zero n (compressed sep ps qs) (l ++ List.replicate k zero ++ r)

variable {sep : α} {Group : List α → β → Prop} {zero : β} {n : ℕ}

/-- Every text in the list is the text of some group. -/
theorem exists_of_mem {ps : List (List α)} {gs : List β} (h : List.Forall₂ Group ps gs)
    {p : List α} (hp : p ∈ ps) : ∃ g, Group p g := by
  induction h with
  | nil => exact absurd hp List.not_mem_nil
  | cons hg _ ih =>
      rcases List.mem_cons.1 hp with rfl | hp
      · exact ⟨_, hg⟩
      · exact ih hp

/-- What a text of groups is made of. It is separators and the characters of group texts and
nothing else, which is what a check of the alphabet uses. -/
theorem Denotes.mem {t : List α} {gs : List β} (h : Denotes sep Group zero n t gs) {a : α}
    (ha : a ∈ t) : a = sep ∨ ∃ p g, Group p g ∧ a ∈ p := by
  cases h with
  | full hps =>
      rcases mem_intercalate ha with rfl | ⟨p, hp, ha⟩
      · exact .inl rfl
      · obtain ⟨g, hg⟩ := exists_of_mem hps hp
        exact .inr ⟨p, g, hg, ha⟩
  | compressed hl hr =>
      rw [compressed_eq] at ha
      rcases mem_intercalate ha with rfl | ⟨p, hp, ha⟩
      · exact .inl rfl
      · rcases mem_sides hp with hp | hp | rfl
        · obtain ⟨g, hg⟩ := exists_of_mem hl hp
          exact .inr ⟨p, g, hg, ha⟩
        · obtain ⟨g, hg⟩ := exists_of_mem hr hp
          exact .inr ⟨p, g, hg, ha⟩
        · exact absurd ha List.not_mem_nil

/-- What `Group` is to be. A text of a group is not empty, has no separator in it, and is the
text of one group only. -/
structure IsGroupText (sep : α) (Group : List α → β → Prop) : Prop where
  ne_nil {p g} : Group p g → p ≠ []
  notMem {p g} : Group p g → sep ∉ p
  unique {p g g'} : Group p g → Group p g' → g = g'

namespace IsGroupText

variable (G : IsGroupText sep Group)

include G

/-- No group is written as nothing. -/
theorem forall_ne_nil {ps : List (List α)} {gs : List β} (h : List.Forall₂ Group ps gs) :
    ∀ p ∈ ps, p ≠ [] := fun _ hp => G.ne_nil (exists_of_mem h hp).choose_spec

/-- No group has a separator in its text. -/
theorem forall_notMem {ps : List (List α)} {gs : List β} (h : List.Forall₂ Group ps gs) :
    ∀ p ∈ ps, sep ∉ p := fun _ hp => G.notMem (exists_of_mem h hp).choose_spec

/-- The texts of the groups, one by one, tell the groups. -/
theorem groups_unique {ps : List (List α)} {gs gs' : List β} (h : List.Forall₂ Group ps gs)
    (h' : List.Forall₂ Group ps gs') : gs = gs' := by
  induction h generalizing gs' with
  | nil => exact (List.forall₂_nil_left_iff.1 h').symm
  | cons hg _ ih =>
      obtain ⟨g', gs', hg', hgs', rfl⟩ := List.forall₂_cons_left_iff.1 h'
      rw [G.unique hg hg', ih hgs']

/-- No separator in what is between the separators of a compressed text. So cutting at the
separators gives these pieces and no others. -/
theorem sides_notMem {ps qs : List (List α)} {l r : List β} (hl : List.Forall₂ Group ps l)
    (hr : List.Forall₂ Group qs r) : ∀ p ∈ side ps ++ [] :: side qs, sep ∉ p := by
  intro p hp
  rcases mem_sides hp with hp | hp | rfl
  · exact G.forall_notMem hl p hp
  · exact G.forall_notMem hr p hp
  · exact List.not_mem_nil

variable [DecidableEq α]

/-- Compressed texts agree when their sides do. The texts left and right of the run are found
again from the whole: the left ones are the pieces before the first empty one. -/
theorem sides_unique {ps qs ps' qs' : List (List α)} {l r l' r' : List β}
    (hl : List.Forall₂ Group ps l) (hr : List.Forall₂ Group qs r)
    (hl' : List.Forall₂ Group ps' l') (hr' : List.Forall₂ Group qs' r')
    (h : GroupText.compressed sep ps qs = GroupText.compressed sep ps' qs') :
    ps = ps' ∧ qs = qs' := by
  have hpieces : side ps ++ [] :: side qs = side ps' ++ [] :: side qs' := by
    have hsplit := congrArg (List.splitOn sep) h
    rwa [compressed_eq, compressed_eq, List.splitOn_intercalate _ (G.sides_notMem hl hr) (by simp),
      List.splitOn_intercalate _ (G.sides_notMem hl' hr') (by simp)] at hsplit
  have hps : ps = ps' := by
    rw [← takeWhile_side (G.forall_ne_nil hl) (side qs), hpieces,
      takeWhile_side (G.forall_ne_nil hl')]
  subst hps
  have hside : side qs = side qs' := (List.cons.inj (List.append_cancel_left hpieces)).2
  refine ⟨rfl, ?_⟩
  rw [← takeWhile_side (G.forall_ne_nil hr) [], hside, takeWhile_side (G.forall_ne_nil hr')]

/-- A text of all the groups has nothing left out. Only a text with a run has an empty piece
between its separators. -/
theorem full_ne_compressed {ps qs qs' : List (List α)} {gs l r : List β}
    (h : List.Forall₂ Group ps gs) (hl : List.Forall₂ Group qs l)
    (hr : List.Forall₂ Group qs' r) (hne : ps ≠ []) :
    [sep].intercalate ps ≠ GroupText.compressed sep qs qs' := by
  intro heq
  have hsplit := congrArg (List.splitOn sep) heq
  rw [compressed_eq, List.splitOn_intercalate _ (G.forall_notMem h) hne,
    List.splitOn_intercalate _ (G.sides_notMem hl hr) (by simp)] at hsplit
  exact G.forall_ne_nil h [] (by rw [hsplit]; simp) rfl

end IsGroupText

/-- With at least one group there is at least one text. -/
theorem texts_ne_nil (hn : 0 < n) {ps : List (List α)} {gs : List β}
    (hps : List.Forall₂ Group ps gs) (hgs : gs.length = n) : ps ≠ [] := by
  rintro rfl
  have hlen := hps.length_eq
  rw [List.length_nil] at hlen
  omega

/-- **A text denotes one list of groups.** Both may be of the full form, both of the form with a
run, or one of each; the last is impossible, and in the others the pieces between the separators
are the same. -/
theorem Denotes.unique [DecidableEq α] (G : IsGroupText sep Group) {t t' : List α}
    {gs gs' : List β} (h : Denotes sep Group zero n t gs) (h' : Denotes sep Group zero n t' gs')
    (ht : t = t') : gs = gs' := by
  cases h with
  | full hps hlen =>
      cases h' with
      | full hps' hlen' =>
          rcases Nat.eq_zero_or_pos n with rfl | hn
          · rw [List.length_eq_zero_iff.1 hlen, List.length_eq_zero_iff.1 hlen']
          · have hsplit := congrArg (List.splitOn sep) ht
            rw [List.splitOn_intercalate _ (G.forall_notMem hps) (texts_ne_nil hn hps hlen),
              List.splitOn_intercalate _ (G.forall_notMem hps') (texts_ne_nil hn hps' hlen')] at hsplit
            exact G.groups_unique hps (hsplit ▸ hps')
      | compressed hl hr k hk hlen' =>
          exact absurd ht (G.full_ne_compressed hps hl hr (texts_ne_nil (by omega) hps hlen))
  | compressed hl hr k hk hlen =>
      cases h' with
      | full hps' hlen' =>
          exact absurd ht.symm
            (G.full_ne_compressed hps' hl hr (texts_ne_nil (by omega) hps' hlen'))
      | compressed hl' hr' k' hk' hlen' =>
          obtain ⟨rfl, rfl⟩ := G.sides_unique hl hr hl' hr' ht
          obtain rfl := G.groups_unique hl hl'
          obtain rfl := G.groups_unique hr hr'
          rw [show k = k' by omega]

/-- The first run of zeros, and what stands before and behind it. The groups before it are none
of them zero, and what is behind it does not begin with zero; a list without a zero has an empty
run at its end. -/
theorem exists_run [DecidableEq β] (zero : β) (gs : List β) :
    ∃ l k r, gs = l ++ List.replicate k zero ++ r ∧ (∀ g ∈ l, g ≠ zero) ∧
      r.head? ≠ some zero ∧ (k = 0 → r = []) := by
  induction gs with
  | nil => exact ⟨[], 0, [], rfl, by simp, by simp, fun _ => rfl⟩
  | cons g gs ih =>
      obtain ⟨l, k, r, rfl, hl, hr, hk⟩ := ih
      by_cases hg : g = zero
      · subst hg
        cases l with
        | nil => exact ⟨[], k + 1, r, rfl, by simp, hr, fun h => absurd h k.succ_ne_zero⟩
        | cons g' l =>
            exact ⟨[], 1, g' :: l ++ List.replicate k g ++ r, rfl, by simp,
              fun h => hl g' List.mem_cons_self (Option.some.inj h), fun h => absurd h (by decide)⟩
      · exact ⟨g :: l, k, r, rfl, List.forall_mem_cons.2 ⟨hg, hl⟩, hr, hk⟩

end GroupText

end Hiper.Lib

import Hiper.Http.Segments
import Hiper.HttpParser.UrlPieces

/-!
# A URL in pieces

`on_request_url_cb` (`src/hiper/http/http_parser.cc:151`) parses whatever it is handed as a URL of
its own, and a call of `http_parser_execute` that ends inside a URL hands it over as far as it
came.  A URL that is written from a path, a query and a fragment is therefore never stored as a
whole when it is cut (`storeUrls_cut`): the part in which the last cut lies would need more
characters than stand behind that cut or before it, and `bounded_of_parseUrl` says that no piece
gives more than it has.  A piece that begins with `?` or `#`, or is empty, is refused.
-/

namespace Hiper

open HttpParser

namespace Http

open Lib Lib.Scanner

variable {τ : Type}

/-! ### A URL that is cut -/

section Behind

variable {c : Byte} {s z : Bytes}

/-- What stands behind the first `c`.  Nothing, where there is none. -/
def behind (c : Byte) (s : Bytes) : Bytes := (s.dropWhile (· != c)).drop 1

/-- It is found by looking at one character after another. -/
theorem behind_cons (c ch : Byte) (s : Bytes) : behind c (ch :: s) = if ch = c then s else behind c s := by
  rw [behind, List.dropWhile_cons]
  by_cases h : ch = c
  · rw [if_pos h, h, bne_self_eq_false, if_neg Bool.false_ne_true]
    rfl
  · rw [if_neg h, if_pos (bne_iff_ne.2 h)]
    rfl

/-- What stands behind a character is not longer than the text. -/
theorem length_behind_le (c : Byte) (s : Bytes) : (behind c s).length ≤ s.length := by
  rw [behind, List.length_drop]
  exact (Nat.sub_le ..).trans (List.dropWhile_sublist _).length_le

/-- In less there is less behind it.  On either side. -/
theorem length_behind_append (c : Byte) (s z : Bytes) :
    (behind c s).length ≤ (behind c (z ++ s)).length ∧
      (behind c s).length ≤ (behind c (s ++ z)).length := by
  constructor
  · induction z with
    | nil => exact le_rfl
    | cons ch z ih =>
        rw [List.cons_append, behind_cons]
        split_ifs
        · have hle := length_behind_le c s
          rw [List.length_append]
          omega
        · exact ih
  · induction s with
    | nil => exact Nat.zero_le _
    | cons ch s ih =>
        rw [List.cons_append, behind_cons, behind_cons]
        split_ifs
        · rw [List.length_append]
          exact Nat.le_add_right ..
        · exact ih

/-- Where the character is there, more behind the text is more behind the character. -/
theorem behind_append_of_mem (h : c ∈ s) (z : Bytes) : behind c (s ++ z) = behind c s ++ z := by
  induction s with
  | nil => cases h
  | cons ch s ih =>
      rw [List.cons_append, behind_cons, behind_cons]
      split_ifs with hch
      · rfl
      · exact ih ((List.mem_cons.1 h).resolve_left (Ne.symm hch))

/-- The bound for the query is counted behind the first `?` in front of the first `#`. -/
theorem queryBound_eq (s : Bytes) : queryBound s = (behind 63 (s.takeWhile (· != 35))).length := rfl

/-- The bound for the fragment is at most what stands behind the first `#`. -/
theorem fragmentBound_le (s : Bytes) : fragmentBound s ≤ (behind 35 s).length := by
  induction s with
  | nil => exact Nat.zero_le _
  | cons ch s ih =>
      rw [behind_cons]
      by_cases hch : ch = 35
      · subst hch
        have hbound : fragmentBound (35 :: s) = (s.dropWhile (· == 35)).length := rfl
        rw [if_pos rfl, hbound]
        exact (List.dropWhile_sublist _).length_le
      · have hbound : fragmentBound (ch :: s) = fragmentBound s := by
          rw [fragmentBound, List.dropWhile_cons, if_pos (bne_iff_ne.2 hch)]
          rfl
        rw [if_neg hch, hbound]
        exact ih

/-- Where the character is not in the first text it is looked for in the second. -/
theorem behind_append_of_notMem (h : c ∉ s) (z : Bytes) : behind c (s ++ z) = behind c z := by
  induction s with
  | nil => rfl
  | cons ch s ih =>
      obtain ⟨hne, hs⟩ := not_or.1 (mt List.mem_cons.2 h)
      rw [List.cons_append, behind_cons, if_neg (Ne.symm hne), ih hs]

end Behind

section Parts

variable {path query fragment : Bytes}

/-- A character of a path is neither `?` nor `#`. -/
theorem isUrlChar_ne {ch : Byte} (h : isUrlChar ch = true) : ch ≠ 63 ∧ ch ≠ 35 := by
  constructor <;> rintro rfl <;> cases h

/-- The three texts have their lengths in the URL that is written from them, counted by where
the first `?` and the first `#` stand.  The grammar of `UrlFits` keeps both signs out of the
path. -/
theorem parts_urlText (h : UrlFits path query fragment) :
    pathBound (urlText path query fragment) = path.length ∧
      queryBound (urlText path query fragment) = query.length ∧
      (behind 35 (urlText path query fragment)).length = fragment.length := by
  have hpath : ∀ ch ∈ path, ch ≠ 63 ∧ ch ≠ 35 := fun ch hch => isUrlChar_ne (h.path ch hch)
  have hquery : ∀ ch ∈ query, ch ≠ 35 := by
    rintro ch hch rfl
    rcases h.query 35 hch with hurl | hurl <;> cases hurl
  have hfront : ∀ ch ∈ path ++ (if query.isEmpty then [] else 63 :: query), ch ≠ 35 := by
    intro ch hch
    rcases List.mem_append.1 hch with hch | hch
    · exact (hpath ch hch).2
    · split_ifs at hch
      · cases hch
      · rcases List.mem_cons.1 hch with rfl | hch
        · decide
        · exact hquery ch hch
  refine ⟨?_, ?_, ?_⟩
  · rw [pathBound, urlText, List.append_assoc, List.takeWhile_append_of_pos]
    · split_ifs <;> simp
    · intro ch hch
      obtain ⟨hquestion, hhash⟩ := hpath ch hch
      simp [hquestion, hhash]
  · rw [queryBound_eq, urlText, List.takeWhile_append_of_pos]
    · have hanchor : (if fragment.isEmpty then [] else (35 : Byte) :: fragment).takeWhile (· != 35) = [] := by
        split_ifs <;> rfl
      rw [hanchor, List.append_nil, behind_append_of_notMem fun hmem => (hpath 63 hmem).1 rfl]
      split_ifs with hempty
      · rw [List.isEmpty_iff.1 hempty]
        rfl
      · rfl
    · intro ch hch
      exact bne_iff_ne.2 (hfront ch hch)
  · rw [urlText, behind_append_of_notMem fun hmem => hfront 35 hmem rfl]
    split_ifs with hempty
    · rw [List.isEmpty_iff.1 hempty]
      rfl
    · rfl

end Parts

/-- What `on_request_url_cb` stores of a text is no longer than the text allows, or was there
before.  And the text begins with neither of the signs. -/
theorem store_bounded {buf : Bytes} {t t' : Target} (h : Target.store buf t = some t') :
    (∃ ch rest, buf = ch :: rest ∧ ch ≠ 63 ∧ ch ≠ 35) ∧
      t'.path.length ≤ max (pathBound buf) t.path.length ∧
      t'.query.length ≤ max (queryBound buf) t.query.length ∧
      t'.fragment.length ≤ max (fragmentBound buf) t.fragment.length := by
  obtain ⟨u, hu, rfl⟩ := Option.map_eq_some_iff.1 h
  have hbounded := bounded_of_parseUrl hu
  have htext : ∀ (uf : UrlField) (old : Bytes) (n : ℕ), (u.fieldData uf).len.toNat ≤ n →
      ((u.text buf uf).getD old).length ≤ max n old.length := by
    intro uf old n hn
    rw [UrlFields.text]
    split_ifs
    · rw [Option.getD_some, List.length_take]
      omega
    · rw [Option.getD_none]
      omega
  exact ⟨hbounded.first, htext _ _ _ hbounded.path, htext _ _ _ hbounded.query,
    htext _ _ _ hbounded.fragment⟩

/-- URLs stored one after another keep the bounds of each.  The induction is over the URLs. -/
theorem storeUrls_le {f : Target → ℕ} {g : Bytes → ℕ} {us : List Bytes} {t : Target} {n : ℕ}
    (hstep : ∀ {buf t t'}, Target.store buf t = some t' → f t' ≤ max (g buf) (f t))
    (hus : ∀ u ∈ us, g u ≤ n) (ht : f t ≤ n) : f (storeUrls Target.store us t).1 ≤ n := by
  induction us generalizing t with
  | nil => exact ht
  | cons u us ih =>
      obtain ⟨hu, hus⟩ := List.forall_mem_cons.1 hus
      rw [storeUrls]
      cases hstore : Target.store u t with
      | none => exact ht
      | some t' => exact ih hus ((hstep hstore).trans (max_le hu ht))

/-- When all are accepted the last is stored over what the others left.  Nothing behind it can
undo that. -/
theorem storeUrls_concat {store : Bytes → τ → Option τ} {us : List Bytes} {w : Bytes} {t t' : τ}
    (h : storeUrls store (us ++ [w]) t = (t', true)) :
    store w (storeUrls store us t).1 = some t' := by
  induction us generalizing t with
  | nil =>
      rw [List.nil_append, storeUrls] at h
      rw [storeUrls]
      cases hstore : store w t with
      | none =>
          rw [hstore] at h
          cases congrArg Prod.snd h
      | some t₁ =>
          rw [hstore] at h
          exact congrArg some (congrArg Prod.fst h)
  | cons u us ih =>
      rw [List.cons_append, storeUrls] at h
      rw [storeUrls]
      cases hstore : store u t with
      | none =>
          rw [hstore] at h
          cases congrArg Prod.snd h
      | some t₁ =>
          rw [hstore] at h
          exact ih h

/-- A text of a list stands in the list put together. -/
theorem mem_infix_flatten {us : List Bytes} {u : Bytes} (h : u ∈ us) : ∃ x y, us.flatten = x ++ u ++ y := by
  obtain ⟨xs, ys, rfl⟩ := List.append_of_mem h
  exact ⟨xs.flatten, ys.flatten, by simp⟩

section Cut

variable {us : List Bytes} {w : Bytes} {t : Target}

/-- A cut behind the first `#` loses some of the fragment: what the last piece has of it is less,
and so is what the pieces before had of it. -/
theorem fragment_lost (hmem : 35 ∈ us.flatten)
    (hstored : Target.store w (storeUrls Target.store us .start).1 = some t) :
    t.fragment.length < (behind 35 (us.flatten ++ w)).length := by
  obtain ⟨⟨ch, rest, rfl, -, hhash⟩, -, -, hfragment⟩ := store_bounded hstored
  have hold : (storeUrls Target.store us .start).1.fragment.length ≤ (behind 35 us.flatten).length := by
    refine storeUrls_le (f := fun t => t.fragment.length) (g := fragmentBound)
      (fun hs => (store_bounded hs).2.2.2) (fun u hu => ?_) (Nat.zero_le _)
    obtain ⟨x, y, hxy⟩ := mem_infix_flatten hu
    rw [hxy]
    exact (fragmentBound_le u).trans
      ((length_behind_append 35 u x).1.trans (length_behind_append 35 (x ++ u) y).2)
  have hnew := fragmentBound_le (ch :: rest)
  have hle := length_behind_le 35 rest
  rw [behind_cons, if_neg hhash] at hnew
  rw [behind_append_of_mem hmem, List.length_append, List.length_cons]
  omega

/-- A cut behind the first `?`, with no `#` before it, loses some of the query. -/
theorem query_lost (hhash : 35 ∉ us.flatten) (hmem : 63 ∈ us.flatten)
    (hstored : Target.store w (storeUrls Target.store us .start).1 = some t) :
    t.query.length < queryBound (us.flatten ++ w) := by
  obtain ⟨⟨ch, rest, rfl, hquestion, hfirst⟩, -, hquery, -⟩ := store_bounded hstored
  have hall : ∀ ch ∈ us.flatten, (ch != 35) = true := fun ch hch =>
    bne_iff_ne.2 fun heq => hhash (heq ▸ hch)
  have hold : (storeUrls Target.store us .start).1.query.length ≤ (behind 63 us.flatten).length := by
    refine storeUrls_le (f := fun t => t.query.length) (g := queryBound)
      (fun hs => (store_bounded hs).2.2.1) (fun u hu => ?_) (Nat.zero_le _)
    obtain ⟨x, y, hxy⟩ := mem_infix_flatten hu
    have hu' : u.takeWhile (· != 35) = u :=
      List.takeWhile_eq_self_iff.2 fun ch hch => hall ch (by rw [hxy]; simp [hch])
    rw [hxy, queryBound_eq, hu']
    exact (length_behind_append 63 u x).1.trans (length_behind_append 63 (x ++ u) y).2
  have hgo : (ch != 35) = true := bne_iff_ne.2 hfirst
  have hnew := queryBound_eq (ch :: rest)
  have hle := length_behind_le 63 (rest.takeWhile (· != 35))
  rw [List.takeWhile_cons, if_pos hgo, behind_cons, if_neg hquestion] at hnew
  rw [queryBound_eq, List.takeWhile_append_of_pos hall, behind_append_of_mem hmem,
    List.length_append, List.takeWhile_cons, if_pos hgo, List.length_cons]
  omega

/-- A cut with neither sign before it loses some of the path. -/
theorem path_lost (hhash : 35 ∉ us.flatten) (hquestion : 63 ∉ us.flatten) (hus : us.flatten ≠ [])
    (hstored : Target.store w (storeUrls Target.store us .start).1 = some t) :
    t.path.length < pathBound (us.flatten ++ w) := by
  obtain ⟨⟨ch, rest, rfl, hch, hch'⟩, hpath, -, -⟩ := store_bounded hstored
  have hall : ∀ ch ∈ us.flatten, (ch != 63 && ch != 35) = true := fun ch hch =>
    Bool.and_eq_true_iff.2 ⟨bne_iff_ne.2 fun heq => hquestion (heq ▸ hch),
      bne_iff_ne.2 fun heq => hhash (heq ▸ hch)⟩
  have hold : (storeUrls Target.store us .start).1.path.length ≤ us.flatten.length := by
    refine storeUrls_le (f := fun t => t.path.length) (g := pathBound)
      (fun hs => (store_bounded hs).2.1) (fun u hu => ?_) (List.length_pos_of_ne_nil hus)
    obtain ⟨x, y, hxy⟩ := mem_infix_flatten hu
    have hle : pathBound u ≤ u.length := (List.takeWhile_sublist _).length_le
    rw [hxy, List.length_append, List.length_append]
    omega
  have hnew : pathBound (ch :: rest) = (rest.takeWhile fun ch => ch != 63 && ch != 35).length + 1 := by
    rw [pathBound, List.takeWhile_cons, if_pos (by simp [hch, hch']), List.length_cons]
  have hpos := List.length_pos_of_ne_nil hus
  have happend : pathBound (us.flatten ++ ch :: rest) = us.flatten.length + pathBound (ch :: rest) := by
    rw [pathBound, List.takeWhile_append_of_pos hall, List.length_append]
    rfl
  omega

/-- **A URL in two pieces or more is not stored.**  What the pieces leave misses what stood
before the last cut.  By cases on the part in which the last cut lies. -/
theorem storeUrls_cut {path query fragment : Bytes} (h : UrlFits path query fragment)
    (hus : us.flatten ≠ []) (hflat : us.flatten ++ w = urlText path query fragment) :
    storeUrls Target.store (us ++ [w]) .start ≠ (⟨path, query, fragment⟩, true) := by
  intro hstored
  obtain ⟨hp, hq, hf⟩ := parts_urlText h
  have hlast := storeUrls_concat hstored
  rw [← hflat] at hp hq hf
  by_cases hhash : 35 ∈ us.flatten
  · exact (fragment_lost hhash hlast).ne hf.symm
  by_cases hquestion : 63 ∈ us.flatten
  · exact (query_lost hhash hquestion hlast).ne hq.symm
  · exact (path_lost hhash hquestion hus hlast).ne hp.symm

end Cut

/-- The whole URL is stored.  It is shorter than `2 ^ 16`. -/
theorem store_urlText {path query fragment : Bytes} (h : UrlFits path query fragment)
    (hlength : (urlText path query fragment).length < 65536) :
    Target.store (urlText path query fragment) .start = some ⟨path, query, fragment⟩ := by
  obtain ⟨u, hu, hback⟩ := parseUrl_urlText h hlength
  rw [Target.store, hu, Option.map_some, hback.path]
  exact congrArg₂ (fun q f => some (Target.mk path q f)) hback.query hback.fragment

end Http

end Hiper

import Hiper.HttpParser.UrlText

/-!
# How long the parts of a URL are

`http_parser_parse_url` (`src/hiper/http/http-parser/http_parser.cc:2346`) on any bytes, such as
a piece of a URL that was cut off by the end of a call.  Whatever it accepts does not begin with
`?` or `#`, its path is no longer than what stands before the first of these, its query no longer
than what stands between the first `?` and the first `#`, and its fragment no longer than what
stands behind the first run of `#` (`bounded_of_parseUrl`).

Nothing is said here of what the parts are: the bounds count the characters that the automaton
`parse_url_char` reads in the states of a part, and the 16 bits that a length is kept in only
make it shorter.
-/

namespace Hiper

namespace HttpParser

/-! ### The states of the parts -/

/-- In the query.  Its first character comes behind the `?`. -/
def State.isQuery (s : State) : Bool := s == .reqQueryStringStart || s == .reqQueryString

/-- In the fragment, or where nothing is accepted any more.  It is not left again. -/
def State.isLast (s : State) : Bool := s == .reqFragmentStart || s == .reqFragment || s == .dead

/-- Behind the path.  It is not left again, either. -/
def State.isLate (s : State) : Bool := s.isQuery || s.isLast

section States

variable {s : State} {ch : Byte}

/-- There is no way back from the fragment.  The induction over a URL rests on it. -/
theorem isLast_next (h : s.isLast = true) : (parseUrlChar s ch).isLast = true := by
  cases s <;> first | exact absurd h (by decide) | (simp only [parseUrlChar]; split_ifs <;> rfl)

/-- Nor from the query to the path.  Each `/` there belongs to the query. -/
theorem isLate_next (h : s.isLate = true) : (parseUrlChar s ch).isLate = true := by
  cases s <;> first | exact absurd h (by decide) | (simp only [parseUrlChar]; split_ifs <;> rfl)

/-- Behind a `#` there is a fragment, or nothing.  From whatever state. -/
theorem isLast_hash (s : State) : (parseUrlChar s 35).isLast = true := by
  cases s <;> rfl

/-- Behind a `?` there is no path.  From whatever state. -/
theorem isLate_question (s : State) : (parseUrlChar s 63).isLate = true := by
  cases s <;> rfl

/-- The query begins with a `?`.  No other character leads there. -/
theorem isQuery_of_next (h : (parseUrlChar s ch).isQuery = true) (hs : s.isQuery = false) :
    ch = 63 := by
  by_contra hne
  have hnot : is ch '?' = false := beq_eq_false_iff_ne.2 hne
  cases s <;> simp only [parseUrlChar, hnot, Bool.false_eq_true, if_false] at h <;>
    split_ifs at h <;> first | exact absurd h (by decide) | exact absurd hs (by decide)

/-- The fragment begins with a `#`.  No other character leads there. -/
theorem fragment_of_next (hs : s.isLast = false) (hch : ch ≠ 35) :
    (parseUrlChar s ch).urlField ≠ some (some .fragment) ∧
      ((parseUrlChar s ch).isLast = true → parseUrlChar s ch = .dead) := by
  have hnot : is ch '#' = false := beq_eq_false_iff_ne.2 hch
  cases s <;> first | exact absurd hs (by decide) | skip
  all_goals
    simp only [parseUrlChar, hnot, Bool.false_eq_true, if_false]
    split_ifs <;> decide

end States

/-! ### Counting -/

/-- How many characters are read in the states of this part.  A delimiter counts for none. -/
def charsIn (uf : UrlField) : State → Bytes → ℕ
  | _, [] => 0
  | s, ch :: rest =>
    (if (parseUrlChar s ch).urlField = some (some uf) then 1 else 0) +
      charsIn uf (parseUrlChar s ch) rest

section Counts

variable {s : State}

/-- Behind the path no character is one of it. -/
theorem charsIn_path_late (h : s.isLate = true) (w : Bytes) : charsIn .path s w = 0 := by
  induction w generalizing s with
  | nil => rfl
  | cons ch w ih =>
      have hnext : (parseUrlChar s ch).isLate = true := isLate_next h
      have hnot : (parseUrlChar s ch).urlField ≠ some (some .path) := fun hpath => by
        revert hnext hpath
        generalize parseUrlChar s ch = s'
        cases s' <;> decide
      rw [charsIn, if_neg hnot, ih hnext]

/-- In the fragment no character is one of the query. -/
theorem charsIn_query_last (h : s.isLast = true) (w : Bytes) : charsIn .query s w = 0 := by
  induction w generalizing s with
  | nil => rfl
  | cons ch w ih =>
      have hnext : (parseUrlChar s ch).isLast = true := isLast_next h
      have hnot : (parseUrlChar s ch).urlField ≠ some (some .query) := fun hquery => by
        revert hnext hquery
        generalize parseUrlChar s ch = s'
        cases s' <;> decide
      rw [charsIn, if_neg hnot, ih hnext]

/-- The path stands before the first `?` or `#`.  It is counted on the text alone. -/
def pathBound (w : Bytes) : ℕ := (w.takeWhile fun ch => ch != 63 && ch != 35).length

/-- The query stands between the first `?` and the first `#`.  It is counted on the text alone. -/
def queryBound (w : Bytes) : ℕ := (((w.takeWhile (· != 35)).dropWhile (· != 63)).drop 1).length

/-- The fragment stands behind the first run of `#`.  Each `#` of the run is a delimiter. -/
def fragmentBound (w : Bytes) : ℕ := ((w.dropWhile (· != 35)).dropWhile (· == 35)).length

/-- The path is no longer than its bound. -/
theorem charsIn_path_le (s : State) (w : Bytes) : charsIn .path s w ≤ pathBound w := by
  induction w generalizing s with
  | nil => exact le_rfl
  | cons ch w ih =>
      by_cases hstop : ch = 63 ∨ ch = 35
      · have hlate : (parseUrlChar s ch).isLate = true := by
          rcases hstop with rfl | rfl
          · exact isLate_question s
          · rw [State.isLate, isLast_hash, Bool.or_true]
        have hnot : (parseUrlChar s ch).urlField ≠ some (some .path) := fun hpath => by
          revert hlate hpath
          generalize parseUrlChar s ch = s'
          cases s' <;> decide
        rw [charsIn, if_neg hnot, charsIn_path_late hlate]
        exact Nat.zero_le _
      · rw [not_or] at hstop
        have hgo : (ch != 63 && ch != 35) = true := by simpa using hstop
        have hrest := ih (parseUrlChar s ch)
        rw [charsIn, pathBound, List.takeWhile_cons, if_pos hgo, List.length_cons]
        rw [pathBound] at hrest
        split_ifs <;> omega

/-- From inside the query it goes up to the first `#`. -/
theorem charsIn_query_inside (h : s.isQuery = true) (w : Bytes) :
    charsIn .query s w ≤ (w.takeWhile (· != 35)).length := by
  induction w generalizing s with
  | nil => exact le_rfl
  | cons ch w ih =>
      by_cases hhash : ch = 35
      · subst hhash
        have hnot : (parseUrlChar s 35).urlField ≠ some (some .query) := by
          cases s <;> decide
        rw [charsIn, if_neg hnot, charsIn_query_last (isLast_hash s)]
        exact Nat.zero_le _
      · have hgo : (ch != 35) = true := by simpa using hhash
        rw [charsIn, List.takeWhile_cons, if_pos hgo, List.length_cons]
        have hrest : charsIn .query (parseUrlChar s ch) w ≤ (w.takeWhile (· != 35)).length := by
          have hlate : (parseUrlChar s ch).isLate = true :=
            isLate_next (by rw [State.isLate, h, Bool.true_or])
          rw [State.isLate, Bool.or_eq_true] at hlate
          rcases hlate with hquery | hlast
          · exact ih hquery
          · rw [charsIn_query_last hlast]
            exact Nat.zero_le _
        split_ifs <;> omega

/-- The query is no longer than its bound. -/
theorem charsIn_query_le (hs : s.isQuery = false) (w : Bytes) : charsIn .query s w ≤ queryBound w := by
  induction w generalizing s with
  | nil => exact le_rfl
  | cons ch w ih =>
      by_cases hhash : ch = 35
      · subst hhash
        have hnot : (parseUrlChar s 35).urlField ≠ some (some .query) := by
          cases s <;> decide
        rw [charsIn, if_neg hnot, charsIn_query_last (isLast_hash s)]
        exact Nat.zero_le _
      have hgo : (ch != 35) = true := by simpa using hhash
      by_cases hquestion : ch = 63
      · subst hquestion
        have hnot : (parseUrlChar s 63).urlField ≠ some (some .query) := by
          revert hs
          cases s <;> decide
        have hbound : queryBound (63 :: w) = (w.takeWhile (· != 35)).length := rfl
        rw [charsIn, if_neg hnot, Nat.zero_add, hbound]
        have hlate := isLate_question s
        rw [State.isLate, Bool.or_eq_true] at hlate
        rcases hlate with hquery | hlast
        · exact charsIn_query_inside hquery w
        · rw [charsIn_query_last hlast]
          exact Nat.zero_le _
      · have hnext : (parseUrlChar s ch).isQuery = false := by
          by_contra hquery
          exact hquestion (isQuery_of_next (by simpa using hquery) hs)
        have hnot : (parseUrlChar s ch).urlField ≠ some (some .query) := fun hfield => by
          revert hnext hfield
          generalize parseUrlChar s ch = s'
          cases s' <;> decide
        have hbound : queryBound (ch :: w) = queryBound w := by
          have hskip : (ch != 63) = true := by simpa using hquestion
          rw [queryBound, List.takeWhile_cons, if_pos hgo, List.dropWhile_cons, if_pos hskip]
          rfl
        rw [charsIn, if_neg hnot, Nat.zero_add, hbound]
        exact ih hnext

/-- Behind an error no character is counted. -/
theorem charsIn_dead (uf : UrlField) (w : Bytes) : charsIn uf .dead w = 0 := by
  induction w with
  | nil => rfl
  | cons ch w ih =>
      have hnext : parseUrlChar .dead ch = .dead := by
        simp only [parseUrlChar]
        split_ifs <;> rfl
      rw [charsIn, hnext, ih, if_neg (fun h => by cases h)]

/-- No more characters are counted than there are. -/
theorem charsIn_le_length (uf : UrlField) (s : State) (w : Bytes) : charsIn uf s w ≤ w.length := by
  induction w generalizing s with
  | nil => exact le_rfl
  | cons ch w ih =>
      have hrest := ih (parseUrlChar s ch)
      rw [charsIn, List.length_cons]
      split_ifs <;> omega

/-- From the first `#` on, the run of them is not counted. -/
theorem charsIn_fragmentStart (w : Bytes) :
    charsIn .fragment .reqFragmentStart w ≤ (w.dropWhile (· == 35)).length := by
  induction w with
  | nil => exact le_rfl
  | cons ch w ih =>
      by_cases hhash : ch = 35
      · subst hhash
        have hnext : parseUrlChar .reqFragmentStart 35 = .reqFragmentStart := rfl
        rw [charsIn, hnext, if_neg (by decide), Nat.zero_add]
        exact ih
      · have hgo : ¬(ch == 35) = true := by simpa using hhash
        rw [List.dropWhile_cons, if_neg hgo]
        exact charsIn_le_length ..

/-- The fragment is no longer than its bound. -/
theorem charsIn_fragment_le (hs : s.isLast = false) (w : Bytes) :
    charsIn .fragment s w ≤ fragmentBound w := by
  induction w generalizing s with
  | nil => exact le_rfl
  | cons ch w ih =>
      by_cases hhash : ch = 35
      · subst hhash
        have hbound : fragmentBound (35 :: w) = (w.dropWhile (· == 35)).length := rfl
        have hnext : parseUrlChar s 35 = .reqFragmentStart ∨ parseUrlChar s 35 = .dead := by
          revert hs
          cases s <;> decide
        rw [hbound, charsIn]
        rcases hnext with hnext | hnext
        · rw [hnext, if_neg (by decide), Nat.zero_add]
          exact charsIn_fragmentStart w
        · rw [hnext, if_neg (by decide), charsIn_dead]
          exact Nat.zero_le _
      · have hskip : (ch != 35) = true := by simpa using hhash
        have hbound : fragmentBound (ch :: w) = fragmentBound w := by
          rw [fragmentBound, List.dropWhile_cons, if_pos hskip]
          rfl
        obtain ⟨hnot, hdead⟩ := fragment_of_next hs hhash
        rw [charsIn, if_neg hnot, Nat.zero_add, hbound]
        cases hlast : (parseUrlChar s ch).isLast with
        | true =>
            rw [hdead hlast, charsIn_dead]
            exact Nat.zero_le _
        | false => exact ih hlast

end Counts

/-! ### The lengths that are kept -/

section Fields

variable {uf uf' : UrlField}

/-- A field that is made longer. -/
theorem more_fieldData_self (u : UrlFields) (uf : UrlField) :
    (u.more uf).fieldData uf = { u.fieldData uf with len := (u.fieldData uf).len + 1 } :=
  Function.update_self ..

/-- The other fields stay. -/
theorem more_fieldData_of_ne (h : uf' ≠ uf) (u : UrlFields) :
    (u.more uf).fieldData uf' = u.fieldData uf' := Function.update_of_ne h ..

/-- A field that is started. -/
theorem start_fieldData_self (u : UrlFields) (uf : UrlField) (pos : ℕ) :
    (u.start uf pos).fieldData uf = ⟨pos.toUInt16, 1⟩ := Function.update_self ..

/-- The other fields stay. -/
theorem start_fieldData_of_ne (h : uf' ≠ uf) (u : UrlFields) (pos : ℕ) :
    (u.start uf pos).fieldData uf' = u.fieldData uf' := Function.update_of_ne h ..

end Fields

/-- The loop keeps no more than it reads.  The induction is over the characters. -/
theorem length_urlLoop {w : Bytes} {pos : ℕ} {s : State} {old : Option UrlField} {at' b : Bool}
    {u u' : UrlFields} (h : urlLoop w pos s old at' u = some (b, u')) (uf : UrlField) :
    (u'.fieldData uf).len.toNat ≤ (u.fieldData uf).len.toNat + charsIn uf s w := by
  induction w generalizing pos s old at' u with
  | nil =>
      obtain ⟨-, rfl⟩ := Prod.mk.inj (Option.some.inj h)
      exact Nat.le_add_right ..
  | cons ch w ih =>
      rw [urlLoop] at h
      obtain ⟨field, hfield, h⟩ := Option.bind_eq_some_iff.1 h
      rw [charsIn, hfield]
      cases field with
      | none =>
          have hrest := ih h
          rw [if_neg (by simp), Nat.zero_add]
          exact hrest
      | some uf' =>
          have hrest := ih h
          refine hrest.trans ?_
          rw [← Nat.add_assoc]
          refine Nat.add_le_add_right ?_ _
          by_cases huf : uf' = uf
          · subst huf
            rw [if_pos rfl]
            split_ifs with hold
            · rw [more_fieldData_self]
              refine (UInt16.toNat_add ..).trans_le ?_
              exact Nat.mod_le ..
            · rw [start_fieldData_self]
              exact Nat.le_add_left ..
          · rw [if_neg fun heq => huf (Option.some.inj (Option.some.inj heq)), Nat.add_zero]
            split_ifs with hold
            · rw [more_fieldData_of_ne (Ne.symm huf)]
            · rw [start_fieldData_of_ne (Ne.symm huf)]

/-- The fields that `http_parse_host` writes.  The query and the fragment are not among them. -/
def UrlField.ofHost (uf : UrlField) : Bool := uf == .host || uf == .port || uf == .userinfo

/-- The new state of a host writes fields of the host only. -/
theorem hostFields_fieldData {uf : UrlField} (h : uf.ofHost = false) (s new : HostState) (pos : ℕ)
    (u : UrlFields) : (hostFields s new pos u).fieldData uf = u.fieldData uf := by
  have hhost : uf ≠ .host := by
    rintro rfl
    cases h
  have hport : uf ≠ .port := by
    rintro rfl
    cases h
  have huser : uf ≠ .userinfo := by
    rintro rfl
    cases h
  have hmove : (u.move .host pos).fieldData uf = u.fieldData uf := Function.update_of_ne hhost ..
  unfold hostFields
  split
  · rw [more_fieldData_of_ne hhost]
    split_ifs
    · rfl
    · exact hmove
  · rw [more_fieldData_of_ne hhost]
    split_ifs
    · rfl
    · exact hmove
  · exact more_fieldData_of_ne hhost u
  · exact more_fieldData_of_ne hhost u
  · split_ifs
    · exact more_fieldData_of_ne hport u
    · exact start_fieldData_of_ne hport u pos
  · split_ifs
    · exact more_fieldData_of_ne huser u
    · exact start_fieldData_of_ne huser u pos
  · rfl

/-- The loop on a host writes fields of the host only. -/
theorem hostLoop_fieldData {uf : UrlField} (h : uf.ofHost = false) {w : Bytes} {pos : ℕ}
    {s s' : HostState} {u u' : UrlFields} (hloop : hostLoop w pos s u = some (s', u')) :
    u'.fieldData uf = u.fieldData uf := by
  induction w generalizing pos s u with
  | nil =>
      obtain ⟨-, rfl⟩ := Prod.mk.inj (Option.some.inj hloop)
      rfl
  | cons ch w ih =>
      rw [hostLoop] at hloop
      obtain ⟨new, -, hloop⟩ := Option.bind_eq_some_iff.1 hloop
      exact (ih hloop).trans (hostFields_fieldData h s new pos u)

/-- `http_parse_host` leaves the other fields as they are.  They were written by the loop on the
URL. -/
theorem parseHost_fieldData {uf : UrlField} (h : uf.ofHost = false) {buf : Bytes} {u u' : UrlFields}
    {at' : Bool} (hhost : parseHost buf u at' = some u') : u'.fieldData uf = u.fieldData uf := by
  rw [parseHost] at hhost
  obtain ⟨⟨s, v⟩, hloop, hends⟩ := Option.bind_eq_some_iff.1 hhost
  split_ifs at hends
  obtain rfl := Option.some.inj hends
  have hne : uf ≠ .host := by
    rintro rfl
    cases h
  exact (hostLoop_fieldData h hloop).trans (Function.update_of_ne hne ..)

/-- What is accepted as a URL, however it was cut off.  The path may be absent. -/
structure Bounded (w : Bytes) (u : UrlFields) : Prop where
  first : ∃ ch rest, w = ch :: rest ∧ ch ≠ 63 ∧ ch ≠ 35
  path : (u.fieldData .path).len.toNat ≤ pathBound w
  query : (u.fieldData .query).len.toNat ≤ queryBound w
  fragment : (u.fieldData .fragment).len.toNat ≤ fragmentBound w

/-- **Whatever `http_parser_parse_url` accepts keeps these bounds.**  So do their texts, which
are as long as the fields say. -/
theorem bounded_of_parseUrl {w : Bytes} {u : UrlFields} (h : parseUrl w = some u) : Bounded w u := by
  rw [parseUrl] at h
  obtain ⟨hnil, h⟩ := Option.ite_none_left_eq_some.1 h
  obtain ⟨⟨at', v⟩, hloop, h⟩ := Option.bind_eq_some_iff.1 h
  obtain ⟨-, h⟩ := Option.ite_none_left_eq_some.1 h
  obtain ⟨x, hx, h⟩ := Option.bind_eq_some_iff.1 h
  obtain ⟨-, h⟩ := Option.ite_none_right_eq_some.1 h
  obtain rfl := Option.some.inj h
  have hdata : ∀ uf : UrlField, uf.ofHost = false → x.fieldData uf = v.fieldData uf := by
    intro uf huf
    split_ifs at hx with hhost
    · exact parseHost_fieldData huf hx
    · rw [Option.some.inj hx]
  have hlength : ∀ uf : UrlField, uf.ofHost = false →
      (x.fieldData uf).len.toNat ≤ charsIn uf .reqSpacesBeforeUrl w := by
    intro uf huf
    rw [hdata uf huf]
    exact (length_urlLoop hloop uf).trans_eq (Nat.zero_add _)
  refine ⟨?_, (hlength .path rfl).trans (charsIn_path_le ..),
    (hlength .query rfl).trans (charsIn_query_le rfl w),
    (hlength .fragment rfl).trans (charsIn_fragment_le rfl w)⟩
  obtain ⟨ch, rest, rfl⟩ := List.exists_cons_of_ne_nil hnil
  refine ⟨ch, rest, rfl, ?_, ?_⟩ <;> rintro rfl <;> cases hloop

end HttpParser

end Hiper

import Hiper.HttpParser.HeadAndBody

/-!
# What header lines say of the body

The lines that the parser knows: a `Content-Length` is a number that fits, and there is one
at most; a `Transfer-Encoding` is `chunked` or is passed over.  What remains of a head is
its flags and its length (`effect_length`, `effect_encoding`).

The cases are those of `s_header_value_start` and `s_header_value`
(`src/hiper/http/http-parser/http_parser.cc:1399-1680`).  A second `Content-Length` is an
error there, whatever it says; that a `Content-Length` stands beside `chunked` is found at
the end of the head.  `TellsLength`, `Chunked` and `FramedBy` say the same of the lines
without the parser.
-/

namespace Hiper

namespace HttpParser

open StringUtil

variable {p q : HttpParser} {name value ds : Bytes} {ch : Byte}

/-! ### Numbers -/

/-- The greatest length that is accepted: ten times the limit of `s_header_value`, and nine.  A
digit is refused when the number before it is over the limit. -/
def maxLength : ℕ := 18446744073709551609

/-- A length as it may be written: digits, and blanks behind them.  There is at least one digit. -/
def IsLength (value : Bytes) (n : ℕ) : Prop :=
  ∃ ds k, value = ds ++ List.replicate k SP ∧ ds ≠ [] ∧ (∀ ch ∈ ds, isNum ch = true) ∧
    readDecimal ds = n ∧ n ≤ maxLength

/-- Digits behind a number.  From the left, each of weight 10. -/
def digitsFrom (n : ℕ) (ds : Bytes) : ℕ := ds.foldl (fun n ch => 10 * n + (ch.toNat - 48)) n

/-- More digits do not make the number smaller. -/
theorem le_digitsFrom (n : ℕ) (ds : Bytes) : n ≤ digitsFrom n ds := by
  induction ds generalizing n with
  | nil => exact le_rfl
  | cons ch ds ih => exact le_trans (by omega) (ih (10 * n + (ch.toNat - 48)))

/-- A digit is at most 9. -/
theorem digit_le (h : isNum ch = true) : ch.toNat - 48 ≤ 9 := by
  rw [isNum, Bool.and_eq_true, decide_eq_true_eq, decide_eq_true_eq] at h
  have hle : ch.toNat ≤ 57 := h.2
  omega

/-- One more digit fits exactly when the number does.  Otherwise the length is invalid. -/
theorem pushDigit_ten (h : isNum ch = true) :
    p.pushDigit 10 (ch.toNat - 48) ((ullongMax - 10) / 10) =
      if 10 * p.contentLength + (ch.toNat - 48) ≤ maxLength then
        .ok { p with contentLength := 10 * p.contentLength + (ch.toNat - 48) }
      else .error .invalidContentLength := by
  have hdigit := digit_le h
  have hlimit : (ullongMax - 10) / 10 = 1844674407370955160 := rfl
  rw [pushDigit, hlimit, maxLength, Nat.mul_comm p.contentLength]
  by_cases hfits : 1844674407370955160 < p.contentLength
  · rw [if_pos hfits, if_neg (by omega)]
  · rw [if_neg hfits, if_pos (by omega)]

/-- A digit is no blank. -/
theorem ne_blank_of_isNum (h : isNum ch = true) : (ch == SP) = false := by
  rw [beq_eq_false_iff_ne]
  rintro rfl
  cases h

/-- A digit behind others.  It is multiplied in, or refused. -/
theorem valueChar_digit (hp : p.headerState = .contentLengthNum) (hch : isNum ch = true) :
    p.valueChar ch = if 10 * p.contentLength + (ch.toNat - 48) ≤ maxLength then
        .ok { p with contentLength := 10 * p.contentLength + (ch.toNat - 48) }
      else .error .invalidContentLength := by
  have hsame : ({ p with headerState := .contentLengthNum } : HttpParser) = p := by rw [← hp]
  rw [← pushDigit_ten hch, valueChar, hp]
  dsimp only
  rw [ne_blank_of_isNum hch, hch, hsame]
  rfl

/-- Another character behind digits.  Only a blank is taken. -/
theorem valueChar_notDigit (hp : p.headerState = .contentLengthNum) (hch : isNum ch = false) :
    p.valueChar ch = if ch = SP then .ok { p with headerState := .contentLengthWs }
      else .error .invalidContentLength := by
  rw [valueChar, hp]
  dsimp only
  rw [hch]
  by_cases hsp : ch = SP
  · rw [hsp]
    rfl
  · rw [if_neg hsp, if_neg (by simpa using hsp)]
    rfl

/-- Behind the blanks of a length only blanks are taken. -/
theorem valueChar_blank (hp : p.headerState = .contentLengthWs) :
    p.valueChar ch = if ch = SP then .ok p else .error .invalidContentLength := by
  rw [valueChar, hp]
  dsimp only
  simp only [beq_iff_eq]

/-- Blanks behind a length change nothing. -/
theorem foldlM_blanks (hp : p.headerState = .contentLengthWs) (k : ℕ) :
    (List.replicate k SP).foldlM valueChar p = .ok p := by
  induction k with
  | zero => rfl
  | succ k ih =>
      rw [List.replicate_succ, List.foldlM_cons, valueChar_blank hp, if_pos rfl]
      exact ih

/-- What is taken behind the blanks of a length is blanks. -/
theorem blanks_of_foldlM (hp : p.headerState = .contentLengthWs)
    (hq : value.foldlM valueChar p = .ok q) : ∃ k, value = List.replicate k SP := by
  induction value with
  | nil => exact ⟨0, rfl⟩
  | cons ch value ih =>
      rw [List.foldlM_cons, valueChar_blank hp] at hq
      split_ifs at hq with hch
      · obtain ⟨k, rfl⟩ := ih hq
        exact ⟨k + 1, by rw [hch, List.replicate_succ]⟩
      · cases hq

/-- Digits and blanks behind a number that fits.  The length is the number. -/
theorem foldlM_number (hp : p.headerState = .contentLengthNum) (hds : ∀ ch ∈ ds, isNum ch = true)
    (hfits : digitsFrom p.contentLength ds ≤ maxLength) (k : ℕ) :
    ∃ s, (s = .contentLengthNum ∨ s = .contentLengthWs) ∧
      (ds ++ List.replicate k SP).foldlM valueChar p =
        .ok { p with contentLength := digitsFrom p.contentLength ds, headerState := s } := by
  induction ds generalizing p with
  | nil =>
      cases k with
      | zero => exact ⟨p.headerState, Or.inl hp, rfl⟩
      | succ k =>
          refine ⟨.contentLengthWs, Or.inr rfl, ?_⟩
          rw [List.nil_append, List.replicate_succ, List.foldlM_cons, valueChar_notDigit hp rfl, if_pos rfl]
          exact foldlM_blanks rfl k
  | cons ch ds ih =>
      obtain ⟨hch, hds⟩ := List.forall_mem_cons.1 hds
      have hone := (le_digitsFrom (10 * p.contentLength + (ch.toNat - 48)) ds).trans hfits
      obtain ⟨s, hs, hrest⟩ := ih (p := { p with
        contentLength := 10 * p.contentLength + (ch.toNat - 48) }) hp hds hfits
      refine ⟨s, hs, ?_⟩
      rw [List.cons_append, List.foldlM_cons, valueChar_digit hp hch, if_pos hone]
      exact hrest

/-- What is accepted behind a number.  The induction is over the characters. -/
theorem number_of_foldlM (hp : p.headerState = .contentLengthNum) (hc : p.contentLength ≤ maxLength)
    (hq : value.foldlM valueChar p = .ok q) : ∃ ds k, value = ds ++ List.replicate k SP ∧
      (∀ ch ∈ ds, isNum ch = true) ∧ digitsFrom p.contentLength ds ≤ maxLength := by
  induction value generalizing p with
  | nil => exact ⟨[], 0, rfl, fun _ h => absurd h List.not_mem_nil, hc⟩
  | cons ch value ih =>
      rw [List.foldlM_cons] at hq
      cases hch : isNum ch with
      | true =>
          rw [valueChar_digit hp hch] at hq
          split_ifs at hq with hone
          · obtain ⟨ds, k, rfl, hds, hfits⟩ :=
              ih (p := { p with contentLength := 10 * p.contentLength + (ch.toNat - 48) }) hp hone hq
            exact ⟨ch :: ds, k, rfl, List.forall_mem_cons.2 ⟨hch, hds⟩, hfits⟩
          · cases hq
      | false =>
          rw [valueChar_notDigit hp hch] at hq
          split_ifs at hq with hsp
          · obtain ⟨k, rfl⟩ := blanks_of_foldlM rfl hq
            refine ⟨[], k + 1, ?_, fun _ h => absurd h List.not_mem_nil, hc⟩
            rw [hsp, List.nil_append, List.replicate_succ]
          · cases hq

/-! ### `Content-Length` -/

/-- The first character of a length is a digit, and there was no length before. -/
theorem valueStart_length (hp : p.headerState = .contentLength) :
    p.valueStart ch = if isNum ch = false then .error .invalidContentLength
      else if p.flags.contentLength then .error .unexpectedContentLength
      else .ok { p with
        flags := { p.flags with contentLength := true }, contentLength := ch.toNat - 48,
        headerState := .contentLengthNum } := by
  rw [valueStart, hp]
  dsimp only
  simp only [Bool.not_eq_true']

/-- A length that fits is taken.  The flag says that there is one. -/
theorem onValue_of_isLength {n : ℕ} (hp : p.headerState = .contentLength)
    (hgiven : p.flags.contentLength = false) (h : IsLength value n) :
    ∃ s, (s = .contentLengthNum ∨ s = .contentLengthWs) ∧ p.onValue value = .ok { p with
      flags := { p.flags with contentLength := true }, contentLength := n, headerState := s } := by
  obtain ⟨ds, k, rfl, hne, hds, rfl, hfits⟩ := h
  obtain ⟨ch, ds, rfl⟩ := List.exists_cons_of_ne_nil hne
  obtain ⟨hch, hds⟩ := List.forall_mem_cons.1 hds
  have hvalue : readDecimal (ch :: ds) = digitsFrom (ch.toNat - 48) ds := by
    rw [readDecimal, List.foldl_cons, Nat.mul_zero, Nat.zero_add]
    rfl
  rw [hvalue] at hfits ⊢
  obtain ⟨s, hs, hrest⟩ := foldlM_number (p := { p with
    flags := { p.flags with contentLength := true }, contentLength := ch.toNat - 48,
    headerState := .contentLengthNum }) rfl hds hfits k
  refine ⟨s, hs, ?_⟩
  rw [List.cons_append, onValue, valueStart_length hp, if_neg (by rw [hch]; decide),
    if_neg (by rw [hgiven]; decide)]
  exact hrest

/-- Nothing else is.  And no length was given before. -/
theorem isLength_of_onValue (hp : p.headerState = .contentLength) (hne : value ≠ [])
    (hq : p.onValue value = .ok q) : p.flags.contentLength = false ∧ ∃ n, IsLength value n := by
  obtain ⟨ch, value, rfl⟩ := List.exists_cons_of_ne_nil hne
  rw [onValue, valueStart_length hp] at hq
  split_ifs at hq with hch hgiven
  · cases hq
  · cases hq
  · rw [Bool.not_eq_false] at hch
    obtain ⟨ds, k, rfl, hds, hfits⟩ := number_of_foldlM (p := { p with
      flags := { p.flags with contentLength := true }, contentLength := ch.toNat - 48,
      headerState := .contentLengthNum }) rfl ((digit_le hch).trans (by decide)) hq
    refine ⟨by simpa using hgiven, digitsFrom (ch.toNat - 48) ds, ch :: ds, k, rfl, by simp,
      List.forall_mem_cons.2 ⟨hch, hds⟩, ?_, hfits⟩
    rw [readDecimal, List.foldl_cons, Nat.mul_zero, Nat.zero_add]
    rfl

/-! ### `Transfer-Encoding` -/

/-- `chunked`, in any case, and blanks behind it.  It is the only encoding that is looked for. -/
def IsChunked (value : Bytes) : Prop :=
  ∃ w k, value = w ++ List.replicate k SP ∧ w.map lower = bytes chunkedChars

/-- A character of an encoding is compared with the next one of `chunked`. -/
theorem valueChar_matching (hp : p.headerState = .matchingTransferEncodingChunked) (ch : Byte) :
    p.valueChar ch = .ok (p.matchWord chunkedChars (lower ch) .transferEncodingChunked .general) := by
  rw [valueChar, hp]

/-- Behind `chunked` a blank changes nothing, and any other character gives it up. -/
theorem valueChar_chunked (hp : p.headerState = .transferEncodingChunked) (ch : Byte) :
    p.valueChar ch = .ok (if ch = SP then p else { p with headerState := .general }) := by
  rw [valueChar, hp]
  dsimp only
  simp only [bne_iff_ne, ne_eq, ite_not]
  split_ifs <;> rfl

/-- A value that nothing is looked for in is passed over, character by character. -/
theorem valueChar_general (hp : p.headerState = .general) (ch : Byte) : p.valueChar ch = .ok p := by
  rw [valueChar, hp]
  dsimp only
  rw [← hp]

/-- A value that nothing is looked for in is passed over. -/
theorem foldlM_general (hp : p.headerState = .general) (value : Bytes) :
    value.foldlM valueChar p = .ok p := by
  induction value with
  | nil => rfl
  | cons ch value ih =>
      rw [List.foldlM_cons, valueChar_general hp]
      exact ih

/-- Behind `chunked`.  It stays so when blanks follow. -/
theorem foldlM_chunked (hp : p.headerState = .transferEncodingChunked) (value : Bytes) :
    ∃ s, value.foldlM valueChar p = .ok { p with headerState := s } ∧
      (s = .transferEncodingChunked ∧ (∃ k, value = List.replicate k SP) ∨
        s = .general ∧ ¬∃ k, value = List.replicate k SP) := by
  induction value with
  | nil => exact ⟨.transferEncodingChunked, by rw [← hp]; rfl, Or.inl ⟨rfl, 0, rfl⟩⟩
  | cons ch value ih =>
      rw [List.foldlM_cons, valueChar_chunked hp]
      by_cases hch : ch = SP
      · rw [if_pos hch]
        obtain ⟨s, hs, hcase⟩ := ih
        refine ⟨s, hs, hcase.imp (And.imp_right ?_) (And.imp_right (mt ?_))⟩
        · rintro ⟨k, rfl⟩
          exact ⟨k + 1, by rw [hch, List.replicate_succ]⟩
        · rintro ⟨k, hk⟩
          cases k with
          | zero => cases hk
          | succ k => exact ⟨k, (List.cons.inj hk).2⟩
      · rw [if_neg hch]
        refine ⟨.general, foldlM_general rfl value, Or.inr ⟨rfl, ?_⟩⟩
        rintro ⟨k, hk⟩
        cases k with
        | zero => cases hk
        | succ k => exact hch (List.cons.inj hk).1

/-- What is left of `chunked` begins with its next character. -/
theorem chunked_drop {i : ℕ} (hi : i < 6) : (bytes chunkedChars).drop (i + 1) =
    charAt chunkedChars (i + 1) :: (bytes chunkedChars).drop (i + 2) := by
  interval_cases i <;> decide

/-- A word and blanks, one character at a time.  The word is in any case. -/
theorem exists_word_cons {value : Bytes} {c : Byte} {cs : Bytes} :
    (∃ w k, ch :: value = w ++ List.replicate k SP ∧ w.map lower = c :: cs) ↔
      lower ch = c ∧ ∃ w k, value = w ++ List.replicate k SP ∧ w.map lower = cs := by
  constructor
  · rintro ⟨w, k, hvalue, hw⟩
    cases w with
    | nil => cases hw
    | cons x w =>
        obtain ⟨rfl, rfl⟩ := List.cons.inj hvalue
        obtain ⟨hx, hw⟩ := List.cons.inj hw
        exact ⟨hx, w, k, rfl, hw⟩
  · rintro ⟨hch, w, k, rfl, hw⟩
    exact ⟨ch :: w, k, rfl, by rw [List.map_cons, hch, hw]⟩

/-- The states in the value of a `Transfer-Encoding`.  Two of them look for `chunked`. -/
def HeaderState.encodes (s : HeaderState) : Prop :=
  s = matchingTransferEncodingChunked ∨ s = transferEncodingChunked ∨ s = general

/-- A value that is being compared with `chunked`, at the character of this index.  It ends as
`chunked` exactly when the value is the rest of it, and blanks. -/
theorem foldlM_matching (hp : p.headerState = .matchingTransferEncodingChunked) (hi : p.index < 6)
    (value : Bytes) : ∃ s i, s.encodes ∧
      value.foldlM valueChar p = .ok { p with headerState := s, index := i } ∧
      (s = .transferEncodingChunked ↔ ∃ w k, value = w ++ List.replicate k SP ∧
        w.map lower = (bytes chunkedChars).drop (p.index + 1)) := by
  induction value generalizing p with
  | nil =>
      refine ⟨p.headerState, p.index, Or.inl hp, rfl, ?_⟩
      rw [hp, chunked_drop hi]
      refine iff_of_false (by decide) ?_
      rintro ⟨w, k, hvalue, hw⟩
      rw [(List.append_eq_nil_iff.1 hvalue.symm).1] at hw
      cases hw
  | cons ch value ih =>
      rw [List.foldlM_cons, valueChar_matching hp, chunked_drop hi]
      simp only [exists_word_cons]
      have hover : ¬chunkedChars.length < p.index + 1 := by
        change ¬7 < p.index + 1
        omega
      have hone : p.matchWord chunkedChars (lower ch) .transferEncodingChunked .general = { p with
          index := p.index + 1
          headerState :=
            if lower ch = charAt chunkedChars (p.index + 1) then
              if p.index + 1 = 6 then .transferEncodingChunked else p.headerState
            else .general } := by
        rw [matchWord]
        simp only [hover, decide_false, Bool.false_or, bne_iff_ne, ne_eq, ite_not, beq_iff_eq]
        rfl
      rw [hone]
      by_cases hch : lower ch = charAt chunkedChars (p.index + 1)
      · rw [if_pos hch]
        by_cases hlast : p.index + 1 = 6
        · rw [if_pos hlast]
          obtain ⟨s, hs, hcase⟩ := foldlM_chunked (p := { p with
            index := p.index + 1, headerState := .transferEncodingChunked }) rfl value
          have hend : (bytes chunkedChars).drop (p.index + 2) = [] := by
            rw [show p.index = 5 by omega]
            rfl
          have hblanks : (∃ w k, value = w ++ List.replicate k SP ∧ w.map lower = []) ↔
              ∃ k, value = List.replicate k SP := by
            constructor
            · rintro ⟨w, k, rfl, hw⟩
              rw [List.map_eq_nil_iff.1 hw]
              exact ⟨k, rfl⟩
            · rintro ⟨k, rfl⟩
              exact ⟨[], k, rfl, rfl⟩
          refine ⟨s, p.index + 1, Or.inr (hcase.imp And.left And.left), hs, ?_⟩
          rw [hend, hblanks, and_iff_right hch]
          rcases hcase with ⟨rfl, hk⟩ | ⟨rfl, hk⟩
          · exact iff_of_true rfl hk
          · exact iff_of_false (by decide) hk
        · rw [if_neg hlast]
          obtain ⟨s, i, hencodes, hs, hiff⟩ := ih (p := { p with index := p.index + 1 }) hp
            (by change p.index + 1 < 6; omega)
          exact ⟨s, i, hencodes, hs, hiff.trans (and_iff_right hch).symm⟩
      · rw [if_neg hch]
        refine ⟨.general, p.index + 1, Or.inr (Or.inr rfl), foldlM_general rfl value,
          iff_of_false (by decide) ?_⟩
        exact fun h => hch h.1

/-- **A `Transfer-Encoding`** is never an error.  It says `chunked`, or nothing. -/
theorem onValue_encoding (hp : p.headerState = .transferEncoding) (hi : p.index = 0) (hne : value ≠ []) :
    ∃ s i, s.encodes ∧ p.onValue value = .ok { p with headerState := s, index := i } ∧
      (s = .transferEncodingChunked ↔ IsChunked value) := by
  obtain ⟨ch, value, rfl⟩ := List.exists_cons_of_ne_nil hne
  have hchars : bytes chunkedChars = 99 :: (bytes chunkedChars).drop 1 := rfl
  have hstart : p.valueStart ch = .ok { p with
      headerState := if lower ch = 99 then .matchingTransferEncodingChunked else .general } := by
    rw [valueStart, hp]
    dsimp only
    simp only [is, beq_iff_eq]
    rfl
  have hword : IsChunked (ch :: value) ↔ lower ch = 99 ∧ ∃ w k, value = w ++ List.replicate k SP ∧
      w.map lower = (bytes chunkedChars).drop 1 := by
    rw [IsChunked, hchars]
    exact exists_word_cons
  rw [onValue, hstart, hword]
  by_cases hch : lower ch = 99
  · rw [if_pos hch]
    obtain ⟨s, i, hencodes, hs, hiff⟩ := foldlM_matching (p := { p with
      headerState := .matchingTransferEncodingChunked }) rfl (by change p.index < 6; omega) value
    refine ⟨s, i, hencodes, hs, hiff.trans ?_⟩
    dsimp only
    rw [and_iff_right hch, hi]
  · rw [if_neg hch]
    refine ⟨.general, p.index, Or.inr (Or.inr rfl), foldlM_general rfl value,
      iff_of_false (by decide) ?_⟩
    exact fun h => hch h.1

/-! ### Lines -/

/-- A line is its value, read from the state of its name. -/
theorem onField_eq (p : HttpParser) (name value : Bytes) (h : value ≠ [] ∨ nameState name ≠ .contentLength) :
    p.onField name value = (p.atValue (nameState name)).onValue value := by
  rw [onField, if_neg]
  rw [Bool.and_eq_true, beq_iff_eq, List.isEmpty_iff]
  exact fun hno => h.elim (· hno.1) (· hno.2)

/-- A value that nothing is looked for in says nothing. -/
theorem onValue_general (hp : p.headerState = .general) (value : Bytes) : p.onValue value = .ok p := by
  cases value with
  | nil => rfl
  | cons ch value =>
      have hstart : p.valueStart ch = .ok p := by
        rw [valueStart, hp]
        dsimp only
        rw [← hp]
      rw [onValue, hstart]
      exact foldlM_general hp value

/-- The parser makes nothing of a name it does not know. -/
theorem effect_other (h : nameState name = .general) : p.effect (name, value) = .ok p := by
  refine effect_eq_ok.2 ⟨p.atValue .general, ?_, rfl⟩
  rw [onField_eq p _ _ (Or.inr (by rw [h]; decide)), h, onValue_general rfl]

/-- An `Upgrade` sets its flag, whatever it says. -/
theorem effect_upgrade (h : nameState name = .upgrade) : p.effect (name, value) =
    .ok { p with flags := { p.flags with upgrade := p.flags.upgrade || !value.isEmpty } } := by
  have hfield := onField_eq p name value (Or.inr (by rw [h]; decide))
  cases value with
  | nil =>
      refine effect_eq_ok.2 ⟨p.atValue .upgrade, ?_, ?_⟩
      · rw [hfield, h]
        rfl
      · rw [List.isEmpty_nil, Bool.not_true, Bool.or_false]
        rfl
  | cons ch value =>
      have hstart : (p.atValue .upgrade).valueStart ch = .ok { p.atValue .general with
          flags := { p.flags with upgrade := true } } := rfl
      refine effect_eq_ok.2 ⟨{ p.atValue .general with flags := { p.flags with upgrade := true } }, ?_, ?_⟩
      · rw [hfield, h, onValue, hstart]
        exact foldlM_general rfl value
      · rw [List.isEmpty_cons, Bool.not_false, Bool.or_true]
        rfl

/-- A `Content-Length` is accepted exactly when it is a length and the first one. -/
theorem effect_length (h : nameState name = .contentLength) : p.effect (name, value) = .ok q ↔
    p.flags.contentLength = false ∧ ∃ n, IsLength value n ∧
      q = { p with flags := { p.flags with contentLength := true }, contentLength := n } := by
  by_cases hne : value = []
  · have hfield : p.onField name value = .error .invalidContentLength := by
      rw [onField, hne, h]
      rfl
    refine iff_of_false ?_ ?_
    · rw [effect, hfield]
      exact fun hno => by cases hno
    · rintro ⟨-, n, ⟨ds, k, hvalue, hds, -⟩, -⟩
      rw [hne] at hvalue
      exact hds (List.append_eq_nil_iff.1 hvalue.symm).1
  · have hfield := onField_eq p name value (Or.inl hne)
    rw [h] at hfield
    have hok : ∀ n, IsLength value n → p.flags.contentLength = false → p.effect (name, value) =
        .ok { p with flags := { p.flags with contentLength := true }, contentLength := n } := by
      intro n hn hgiven
      obtain ⟨s, hs, hvalue⟩ := onValue_of_isLength (p := p.atValue .contentLength) rfl hgiven hn
      refine effect_eq_ok.2 ⟨_, hfield.trans hvalue, ?_⟩
      rcases hs with rfl | rfl <;> rfl
    constructor
    · intro hq
      obtain ⟨r, hr, -⟩ := effect_eq_ok.1 hq
      obtain ⟨hgiven, n, hn⟩ := isLength_of_onValue (p := p.atValue .contentLength) rfl hne
        (hfield.symm.trans hr)
      rw [hok n hn hgiven, Except.ok.injEq] at hq
      exact ⟨hgiven, n, hn, hq.symm⟩
    · rintro ⟨hgiven, n, hn, rfl⟩
      exact hok n hn hgiven

/-- A `Transfer-Encoding` is accepted, and sets the flag for chunks when it says `chunked`. -/
theorem effect_encoding (p : HttpParser) (value : Bytes) (h : nameState name = .transferEncoding) : ∃ chunked,
    (chunked = true ↔ p.flags.chunked = true ∨ IsChunked value) ∧ p.effect (name, value) =
      .ok { p with flags := { p.flags with chunked := chunked } } := by
  have hfield := onField_eq p name value (Or.inr (by rw [h]; decide))
  rw [h] at hfield
  by_cases hne : value = []
  · refine ⟨p.flags.chunked, ?_, effect_eq_ok.2 ⟨p.atValue .transferEncoding, ?_, rfl⟩⟩
    · refine (or_iff_left ?_).symm
      rintro ⟨w, k, hvalue, hw⟩
      rw [hne] at hvalue
      rw [(List.append_eq_nil_iff.1 hvalue.symm).1] at hw
      cases hw
    · rw [hfield, hne]
      rfl
  · obtain ⟨s, i, hencodes, hs, hiff⟩ :=
      onValue_encoding (p := p.atValue .transferEncoding) rfl rfl hne
    by_cases hchunked : s = .transferEncodingChunked
    · refine ⟨true, iff_of_true rfl (Or.inr (hiff.1 hchunked)), effect_eq_ok.2 ⟨_, hfield.trans hs, ?_⟩⟩
      rw [hchunked]
      rfl
    · refine ⟨p.flags.chunked, (or_iff_left (mt hiff.2 hchunked)).symm,
        effect_eq_ok.2 ⟨_, hfield.trans hs, ?_⟩⟩
      rcases hencodes with rfl | rfl | rfl
      · rfl
      · exact absurd rfl hchunked
      · rfl

/-! ### `Connection` -/

/-- The states in the value of a `Connection`.  They look for three words in a list. -/
def HeaderState.connects : HeaderState → Bool
  | matchingConnectionTokenStart | matchingConnectionKeepAlive | matchingConnectionClose
  | matchingConnectionUpgrade | matchingConnectionToken | connectionKeepAlive | connectionClose
  | connectionUpgrade | general => true
  | _ => false

/-- Only what is said of the connection has changed.  Flags for the connection and the header
state. -/
def Connects (p q : HttpParser) : Prop :=
  q.headerState.connects = true ∧ q = { p with
    flags := { p.flags with
      connectionKeepAlive := q.flags.connectionKeepAlive, connectionClose := q.flags.connectionClose,
      connectionUpgrade := q.flags.connectionUpgrade }
    headerState := q.headerState, index := q.index }

/-- One such change after another is one. -/
theorem Connects.trans {p₁ : HttpParser} (h₁ : p.Connects p₁) (h₂ : p₁.Connects q) : p.Connects q := by
  obtain ⟨-, h₁⟩ := h₁
  obtain ⟨hs, h₂⟩ := h₂
  rw [h₁] at h₂
  exact ⟨hs, h₂⟩

/-- A character of a `Connection` is accepted, and says something of the connection alone. -/
theorem valueChar_connects (hp : p.headerState.connects = true) (ch : Byte) :
    ∃ q, p.valueChar ch = .ok q ∧ p.Connects q := by
  have hword : ∀ w m o, HeaderState.connects m = true → HeaderState.connects o = true →
      p.Connects (p.matchWord w (lower ch) m o) := by
    intro w m o hm ho
    refine ⟨?_, rfl⟩
    rw [matchWord]
    dsimp only
    split_ifs <;> assumption
  rw [valueChar]
  generalize hs : p.headerState = s at hp
  cases s with
  | matchingConnectionTokenStart =>
      refine ⟨_, rfl, ?_, rfl⟩
      dsimp only
      split_ifs <;> rfl
  | matchingConnectionKeepAlive => exact ⟨_, rfl, hword _ _ _ rfl rfl⟩
  | matchingConnectionClose => exact ⟨_, rfl, hword _ _ _ rfl rfl⟩
  | matchingConnectionUpgrade => exact ⟨_, rfl, hword _ _ _ rfl rfl⟩
  | matchingConnectionToken =>
      dsimp only
      split_ifs
      · exact ⟨_, rfl, rfl, rfl⟩
      · exact ⟨_, rfl, by rw [hs]; rfl, rfl⟩
  | connectionKeepAlive | connectionClose | connectionUpgrade =>
      dsimp only
      split_ifs
      · refine ⟨_, rfl, rfl, ?_⟩
        rw [valueFlags, hs]
      · exact ⟨_, rfl, rfl, rfl⟩
      · exact ⟨_, rfl, by rw [hs]; rfl, rfl⟩
  | general => exact ⟨_, rfl, rfl, rfl⟩
  | _ => cases hp

/-- The characters of a `Connection` are accepted, and say something of the connection alone. -/
theorem foldlM_connects (hp : p.headerState.connects = true) (value : Bytes) :
    ∃ q, value.foldlM valueChar p = .ok q ∧ p.Connects q := by
  induction value generalizing p with
  | nil => exact ⟨p, rfl, hp, rfl⟩
  | cons ch value ih =>
      obtain ⟨p₁, hone, h₁⟩ := valueChar_connects hp ch
      obtain ⟨q, hrest, h₂⟩ := ih h₁.1
      refine ⟨q, ?_, h₁.trans h₂⟩
      rw [List.foldlM_cons, hone]
      exact hrest

/-- A `Connection` is never an error, and says nothing of the body.  It sets flags of its own. -/
theorem effect_connection (p : HttpParser) (value : Bytes) (h : nameState name = .connection) : ∃ keepAlive close upgrade,
    p.effect (name, value) = .ok { p with flags := { p.flags with
      connectionKeepAlive := keepAlive, connectionClose := close, connectionUpgrade := upgrade } } := by
  have hfield := onField_eq p name value (Or.inr (by rw [h]; decide))
  rw [h] at hfield
  cases value with
  | nil => exact ⟨_, _, _, effect_eq_ok.2 ⟨p.atValue .connection, hfield.trans rfl, rfl⟩⟩
  | cons ch value =>
      obtain ⟨q, hq, hconnects⟩ := foldlM_connects (p := { p.atValue .connection with
        headerState :=
          if is (lower ch) 'k' then .matchingConnectionKeepAlive
          else if is (lower ch) 'c' then .matchingConnectionClose
          else if is (lower ch) 'u' then .matchingConnectionUpgrade
          else .matchingConnectionToken }) (by dsimp only; split_ifs <;> rfl) value
      have hvalue : (p.atValue .connection).onValue (ch :: value) = .ok q := hq
      obtain ⟨hs, hsame⟩ := hconnects
      refine ⟨q.valueFlags.connectionKeepAlive, q.valueFlags.connectionClose,
        q.valueFlags.connectionUpgrade, effect_eq_ok.2 ⟨q, hfield.trans hvalue, ?_⟩⟩
      obtain ⟨k, c, u, s, i, rfl⟩ : ∃ k c u s i, q = { p.atValue .connection with
          flags := { p.flags with connectionKeepAlive := k, connectionClose := c, connectionUpgrade := u }
          headerState := s, index := i } := ⟨_, _, _, _, _, hsame⟩
      dsimp only at hs
      cases s <;> cases hs <;> rfl

/-! ### All lines of a head -/

/-- The values of the `Content-Length` lines.  In their order. -/
def lengths (fs : List Field) : List Bytes :=
  (fs.filter fun f => nameState f.1 == .contentLength).map (·.2)

/-- Some line says that the body comes in chunks.  The name is `Transfer-Encoding`. -/
def Chunked (fs : List Field) : Prop :=
  ∃ f ∈ fs, nameState f.1 = .transferEncoding ∧ IsChunked f.2

/-- The lines tell this length, or none.  There is one such line at most. -/
def TellsLength (fs : List Field) : Option ℕ → Prop
  | none => lengths fs = []
  | some n => ∃ value, lengths fs = [value] ∧ IsLength value n

/-- The lines tell how the body is framed, in one way at most.  Chunks and a length exclude each
other. -/
structure FramedBy (fs : List Field) (l : Option ℕ) : Prop where
  tells : TellsLength fs l
  one_way : Chunked fs → l = none

/-- No line speaks of another protocol.  It is a condition on the names alone. -/
def NoUpgrade (fs : List Field) : Prop := ∀ f ∈ fs, nameState f.1 ≠ .upgrade

/-- The names are looked at. -/
instance (fs : List Field) : Decidable (NoUpgrade fs) :=
  inferInstanceAs (Decidable (∀ f ∈ fs, nameState f.1 ≠ .upgrade))

/-- A value tells one length at most. -/
theorem IsLength.unique {n n' : ℕ} (h : IsLength value n) (h' : IsLength value n') : n = n' := by
  have hdigits : ∀ {n}, IsLength value n → n = readDecimal (value.takeWhile isNum) := by
    rintro n ⟨ds, k, rfl, -, hds, rfl, -⟩
    have hblanks : (List.replicate k SP).takeWhile isNum = [] := by
      cases k <;> rfl
    rw [List.takeWhile_append_of_pos hds, hblanks, List.append_nil]
  rw [hdigits h, hdigits h']

/-- A length that is told is at most the greatest one. -/
theorem TellsLength.le {fs : List Field} {n : ℕ} (h : TellsLength fs (some n)) : n ≤ maxLength := by
  obtain ⟨_, _, _, _, _, _, _, _, hle⟩ := h
  exact hle

/-- Lines tell one length. -/
theorem TellsLength.unique {fs : List Field} {l l' : Option ℕ} (h : TellsLength fs l)
    (h' : TellsLength fs l') : l = l' := by
  cases l with
  | none =>
      cases l' with
      | none => rfl
      | some n' =>
          obtain ⟨v, hv, -⟩ := h'
          rw [show lengths fs = [] from h] at hv
          cases hv
  | some n =>
      obtain ⟨v, hv, hn⟩ := h
      cases l' with
      | none =>
          rw [show lengths fs = [] from h'] at hv
          cases hv
      | some n' =>
          obtain ⟨v', hv', hn'⟩ := h'
          rw [hv, List.singleton_inj] at hv'
          subst hv'
          rw [hn.unique hn']

/-- What lines make of the parser.  The length, the two flags that frame the body, and the
upgrade. -/
structure Sums (p q : HttpParser) (fs : List Field) (l : Option ℕ) : Prop where
  tells : TellsLength fs l
  once : p.flags.contentLength = true → l = none
  same : q = { p with flags := q.flags, contentLength := l.getD p.contentLength }
  given : q.flags.contentLength = (p.flags.contentLength || l.isSome)
  chunked : q.flags.chunked = true ↔ p.flags.chunked = true ∨ Chunked fs
  upgrade : NoUpgrade fs → q.flags.upgrade = p.flags.upgrade
  trailing : q.flags.trailing = p.flags.trailing

/-- The parser knows four kinds of names. -/
theorem nameState_cases (name : Bytes) : nameState name = .general ∨ nameState name = .connection ∨
    nameState name = .contentLength ∨ nameState name = .transferEncoding ∨ nameState name = .upgrade := by
  have hall : ∀ w ∈ words, w.2 = .connection ∨ w.2 = .contentLength ∨ w.2 = .transferEncoding ∨
      w.2 = .upgrade := by decide +kernel
  rw [nameState]
  cases hfind : words.find? fun w => bytes w.1 == lowered name with
  | none => exact Or.inl rfl
  | some w => exact Or.inr (hall w (List.mem_of_find?_eq_some hfind))

/-- A line that is no `Content-Length` tells no length. -/
theorem lengths_cons_of_ne {f : Field} (h : nameState f.1 ≠ .contentLength) (fs : List Field) :
    lengths (f :: fs) = lengths fs := by
  rw [lengths, List.filter_cons_of_neg (by simpa using h), lengths]

/-- A `Content-Length` tells its value. -/
theorem lengths_cons_of_eq {f : Field} (h : nameState f.1 = .contentLength) (fs : List Field) :
    lengths (f :: fs) = f.2 :: lengths fs := by
  rw [lengths, List.filter_cons_of_pos (by simpa using h), List.map_cons, lengths]

/-- A line that is no `Content-Length` tells no length, nor takes one away. -/
theorem tellsLength_cons_of_ne {f : Field} (h : nameState f.1 ≠ .contentLength) {fs : List Field}
    {l : Option ℕ} : TellsLength (f :: fs) l ↔ TellsLength fs l := by
  cases l <;> simp only [TellsLength, lengths_cons_of_ne h]

/-- A line that is no `Transfer-Encoding` announces no chunks. -/
theorem chunked_cons_of_ne {f : Field} (h : nameState f.1 ≠ .transferEncoding) {fs : List Field} :
    Chunked (f :: fs) ↔ Chunked fs := by
  simp [Chunked, h]

/-- A line that says nothing of the body comes first.  The others decide. -/
theorem Sums.cons_of_ne {p₁ : HttpParser} {f : Field} {fs : List Field} {l : Option ℕ}
    (h : Sums p₁ q fs l) (hn : nameState f.1 ≠ .contentLength) (ht : nameState f.1 ≠ .transferEncoding)
    (hone : p₁ = { p with flags := p₁.flags })
    (hgiven : p₁.flags.contentLength = p.flags.contentLength)
    (hchunked : p₁.flags.chunked = p.flags.chunked) (htrailing : p₁.flags.trailing = p.flags.trailing)
    (hupgrade : nameState f.1 ≠ .upgrade → p₁.flags.upgrade = p.flags.upgrade) :
    Sums p q (f :: fs) l where
  tells := (tellsLength_cons_of_ne hn).2 h.tells
  once hp := h.once (hgiven.trans hp)
  same := by
    have hsame := h.same
    rw [hone] at hsame
    exact hsame
  given := by rw [h.given, hgiven]
  chunked := by rw [h.chunked, hchunked, chunked_cons_of_ne ht]
  upgrade hfs := by
    obtain ⟨hf, hfs⟩ := List.forall_mem_cons.1 hfs
    rw [h.upgrade hfs, hupgrade hf]
  trailing := h.trailing.trans htrailing

/-- **What header lines say of the body**, when they are accepted.  The induction is over the
lines, from any flags. -/
theorem sums_of_effects {fs : List Field} (hq : fs.foldlM effect p = .ok q) : ∃ l, Sums p q fs l := by
  induction fs generalizing p with
  | nil =>
      cases hq
      exact ⟨none, rfl, fun _ => rfl, rfl, (Bool.or_false _).symm, by simp [Chunked], fun _ => rfl, rfl⟩
  | cons f fs ih =>
      rw [List.foldlM_cons] at hq
      cases hone : p.effect f with
      | error e =>
          rw [hone] at hq
          cases hq
      | ok p₁ =>
          rw [hone] at hq
          obtain ⟨l, hl⟩ := ih hq
          obtain ⟨name, value⟩ := f
          rcases nameState_cases name with h | h | h | h | h
          · rw [effect_other h, Except.ok.injEq] at hone
            subst hone
            exact ⟨l, hl.cons_of_ne (by rw [h]; decide) (by rw [h]; decide) rfl rfl rfl rfl fun _ => rfl⟩
          · obtain ⟨k, c, u, heq⟩ := effect_connection p value h
            rw [heq, Except.ok.injEq] at hone
            subst hone
            exact ⟨l, hl.cons_of_ne (by rw [h]; decide) (by rw [h]; decide) rfl rfl rfl rfl fun _ => rfl⟩
          · obtain ⟨hgiven, n, hn, rfl⟩ := (effect_length h).1 hone
            obtain rfl := hl.once rfl
            have htells : lengths fs = [] := hl.tells
            refine ⟨some n, ⟨value, by rw [lengths_cons_of_eq h, htells], hn⟩, fun hno => ?_, hl.same,
              hl.given.trans (Bool.or_true _).symm, ?_, fun hfs => ?_, hl.trailing⟩
            · rw [hgiven] at hno
              cases hno
            · rw [chunked_cons_of_ne (by rw [h]; decide)]
              exact hl.chunked
            · exact hl.upgrade (List.forall_mem_cons.1 hfs).2
          · obtain ⟨chunked, hiff, heq⟩ := effect_encoding p value h
            rw [heq, Except.ok.injEq] at hone
            subst hone
            refine ⟨l, (tellsLength_cons_of_ne (by rw [h]; decide)).2 hl.tells, hl.once, hl.same, hl.given,
              ?_, fun hfs => hl.upgrade (List.forall_mem_cons.1 hfs).2, hl.trailing⟩
            rw [hl.chunked]
            dsimp only
            rw [hiff, or_assoc]
            refine or_congr_right ?_
            simp [Chunked, h]
          · rw [effect_upgrade h, Except.ok.injEq] at hone
            subst hone
            exact ⟨l, hl.cons_of_ne (by rw [h]; decide) (by rw [h]; decide) rfl rfl rfl rfl
              fun hno => absurd h hno⟩

/-- **Lines are accepted** when they tell one length at most, and that fits.  It is the
converse, but for the parser's flags before. -/
theorem effects_of_tells {fs : List Field} {l : Option ℕ} (htells : TellsLength fs l)
    (honce : p.flags.contentLength = true → l = none) : ∃ q, fs.foldlM effect p = .ok q := by
  induction fs generalizing p l with
  | nil => exact ⟨p, rfl⟩
  | cons f fs ih =>
      obtain ⟨name, value⟩ := f
      rw [List.foldlM_cons]
      have hother : ∀ {p₁}, nameState name ≠ .contentLength → p.effect (name, value) = .ok p₁ →
          p₁.flags.contentLength = p.flags.contentLength →
            ∃ q, (p.effect (name, value) >>= fun p => fs.foldlM effect p) = .ok q := by
        intro p₁ hne hone hgiven
        rw [hone]
        exact ih ((tellsLength_cons_of_ne hne).1 htells) (hgiven ▸ honce)
      rcases nameState_cases name with h | h | h | h | h
      · exact hother (by rw [h]; decide) (effect_other h) rfl
      · obtain ⟨k, c, u, heq⟩ := effect_connection p value h
        exact hother (by rw [h]; decide) heq rfl
      · cases l with
        | none =>
            have hno : lengths ((name, value) :: fs) = [] := htells
            rw [lengths_cons_of_eq h] at hno
            cases hno
        | some n =>
            obtain ⟨v, hv, hn⟩ := htells
            rw [lengths_cons_of_eq h] at hv
            obtain ⟨rfl, hnone⟩ := List.cons.inj hv
            have hgiven : p.flags.contentLength = false := by
              by_contra hno
              cases honce (by simpa using hno)
            rw [(effect_length h).2 ⟨hgiven, n, hn, rfl⟩]
            exact ih (l := none) hnone fun _ => rfl
      · obtain ⟨chunked, -, heq⟩ := effect_encoding p value h
        exact hother (by rw [h]; decide) heq rfl
      · exact hother (by rw [h]; decide) (effect_upgrade h) rfl

/-- Behind lines that are framed in one way the length and the chunks are not both told.  This
is what the end of the head checks. -/
theorem Sums.one_way {fs : List Field} {l : Option ℕ} (hsums : Sums p q fs l) (hframed : FramedBy fs l)
    (hp : p.flags = .none) : (q.flags.chunked && q.flags.contentLength) = false := by
  rw [hsums.given, hp, Bool.and_eq_false_iff]
  by_cases hchunked : q.flags.chunked = true
  · refine Or.inr ?_
    rcases hsums.chunked.1 hchunked with hno | hchunked
    · rw [hp] at hno
      cases hno
    · rw [hframed.one_way hchunked]
      rfl
  · exact Or.inl (by simpa using hchunked)

end HttpParser

end Hiper

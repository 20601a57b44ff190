import Hiper.Log.Output

/-!
# A pattern, from left to right

`LogFormatter::init` one step at a time: the text before the next `%` is kept
(`parsed_text`), so is the first sign of `%%` (`parsed_percent`), a conversion makes an item
of its own (`parsed_conversion`), and what is in no table (`parsed_unknown`) or is never
closed (`parsed_open`) makes the pattern an error.

The loop is `src/hiper/base/log.cc:526-605`.  A pattern is read from any place on, with the
text that was kept so far, so that a lemma says what one construct does and what is left;
`Pattern` and `Escape` use these lemmas and do not look at the loop.
-/

namespace Hiper

namespace LogFormatter

/-! ### Conversions -/

/-- What the name of a conversion goes over.  Of the braces only the opening one ends a name. -/
def inName (ch : Byte) : Bool := StringUtil.isalpha ch || ch == closeBrace

/-- Options go to their closing brace. -/
theorem scanOptions_eq {fmt : Bytes} (h : closeBrace ∉ fmt) (rest : Bytes) :
    scanOptions (fmt ++ closeBrace :: rest) = some (fmt, fmt.length + 1) := by
  induction fmt with
  | nil => rw [List.nil_append, scanOptions, if_pos rfl]; rfl
  | cons ch fmt ih =>
      obtain ⟨hch, hfmt⟩ := not_or.1 (mt List.mem_cons.2 h)
      rw [List.cons_append, scanOptions, if_neg (Ne.symm hch), ih hfmt]
      rfl

/-- Without a closing brace there are none. -/
theorem scanOptions_none {fmt : Bytes} (h : closeBrace ∉ fmt) : scanOptions fmt = none := by
  induction fmt with
  | nil => rfl
  | cons ch fmt ih =>
      obtain ⟨hch, hfmt⟩ := not_or.1 (mt List.mem_cons.2 h)
      rw [scanOptions, if_neg (Ne.symm hch), ih hfmt]
      rfl

/-- The name goes over letters and closing braces.  Nothing else is in it. -/
theorem scanConversion_name {str : Bytes} (h : ∀ ch ∈ str, inName ch = true) (rest : Bytes) :
    scanConversion (str ++ rest) =
      (scanConversion rest).map fun r => (str ++ r.1, r.2.1, r.2.2 + str.length) := by
  induction str with
  | nil => simp
  | cons ch str ih =>
      obtain ⟨hch, hstr⟩ := List.forall_mem_cons.1 h
      have hopen : ch ≠ openBrace := by
        rintro rfl
        exact absurd hch (by decide)
      have hgo : ¬(!StringUtil.isalpha ch && decide (ch ≠ openBrace) && decide (ch ≠ closeBrace)) = true := by
        rw [inName, Bool.or_eq_true, beq_iff_eq] at hch
        rcases hch with halpha | rfl
        · simp [halpha]
        · simp
      rw [List.cons_append, scanConversion, if_neg hgo, if_neg hopen, ih hstr, Option.map_map]
      refine congrArg (fun f => (scanConversion rest).map f) (funext fun r => ?_)
      simp [Nat.add_assoc]

/-- And ends before anything else, but an opening brace.  Nothing is taken there. -/
theorem scanConversion_stop {rest : Bytes}
    (h : ∀ ch ∈ rest.head?, inName ch = false ∧ ch ≠ openBrace) :
    scanConversion rest = some ([], [], 0) := by
  cases rest with
  | nil => rfl
  | cons ch rest =>
      obtain ⟨hname, hopen⟩ := h ch rfl
      rw [inName, Bool.or_eq_false_iff] at hname
      have hclose : ch ≠ closeBrace := by simpa using hname.2
      rw [scanConversion, if_pos (by simp [hname.1, hopen, hclose])]

/-- An opening brace begins options. -/
theorem scanConversion_open (rest : Bytes) : scanConversion (openBrace :: rest) =
    (scanOptions rest).map fun r => ([], r.1, r.2 + 1) := by
  rw [scanConversion, if_neg (by decide), if_pos rfl]

/-- A name, and behind it something else.  The name is what is before that. -/
theorem scanConversion_plain {str rest : Bytes} (hstr : ∀ ch ∈ str, inName ch = true)
    (hrest : ∀ ch ∈ rest.head?, inName ch = false ∧ ch ≠ openBrace) :
    scanConversion (str ++ rest) = some (str, [], str.length) := by
  rw [scanConversion_name hstr, scanConversion_stop hrest]
  simp

/-- A name with options.  Whatever stands behind them. -/
theorem scanConversion_options {str fmt : Bytes} (hstr : ∀ ch ∈ str, inName ch = true)
    (hfmt : closeBrace ∉ fmt) (rest : Bytes) :
    scanConversion ((str ++ openBrace :: (fmt ++ [closeBrace])) ++ rest) =
      some (str, fmt, (str ++ openBrace :: (fmt ++ [closeBrace])).length) := by
  have happend : (str ++ openBrace :: (fmt ++ [closeBrace])) ++ rest =
      str ++ openBrace :: (fmt ++ closeBrace :: rest) := by simp
  rw [happend, scanConversion_name hstr, scanConversion_open, scanOptions_eq hfmt]
  simp [Nat.add_comm]

/-- A name with options that are not closed.  The rest of the pattern is in them. -/
theorem scanConversion_unclosed {str fmt : Bytes} (hstr : ∀ ch ∈ str, inName ch = true)
    (hfmt : closeBrace ∉ fmt) : scanConversion (str ++ openBrace :: fmt) = none := by
  rw [scanConversion_name hstr, scanConversion_open, scanOptions_none hfmt]
  rfl

/-! ### The outer loop -/

/-- What a conversion took is skipped. -/
theorem scan_skip (taken rest nstr : Bytes) :
    scan (taken ++ rest) taken.length nstr = scan rest 0 nstr := by
  induction taken with
  | nil => rfl
  | cons ch taken ih => exact ih

/-- The items of a pattern, with the text before it, and whether it is an error.  It is `init`
from here on. -/
def parsed (pattern nstr : Bytes) : List FormatItem × Bool :=
  let (pieces, error) := scan pattern 0 nstr
  (pieces.map (·.item.1), error || pieces.any (·.item.2))

/-- The items of a formatter. -/
theorem items_new (pattern : Bytes) : (new pattern).items = (parsed pattern []).1 := rfl

/-- Whether a formatter is an error. -/
theorem isError_new (pattern : Bytes) : (new pattern).isError = (parsed pattern []).2 := rfl

/-- Text is kept.  It is put behind the text before. -/
theorem parsed_text {s : Bytes} (h : percent ∉ s) (rest nstr : Bytes) :
    parsed (s ++ rest) nstr = parsed rest (nstr ++ s) := by
  induction s generalizing nstr with
  | nil => rw [List.nil_append, List.append_nil]
  | cons ch s ih =>
      obtain ⟨hch, hs⟩ := not_or.1 (mt List.mem_cons.2 h)
      rw [← List.singleton_append, List.append_assoc, ← List.append_assoc nstr, ← ih hs,
        List.singleton_append, parsed, scan, if_pos (Ne.symm hch)]
      rfl

/-- Of two signs the first is text.  The second is read again. -/
theorem parsed_percent (rest nstr : Bytes) :
    parsed (percent :: percent :: rest) nstr = parsed (percent :: rest) (nstr ++ [percent]) := by
  rw [parsed, scan, if_neg (by simp), if_pos List.head?_cons]
  rfl

/-- The item of the text before a conversion.  None, if there is no text. -/
def flushed (nstr : Bytes) : List FormatItem := if nstr = [] then [] else [.string nstr]

/-- The end of a pattern. -/
theorem parsed_nil (nstr : Bytes) : parsed [] nstr = (flushed nstr, false) := by
  rw [parsed, scan, flush, flushed]
  split_ifs <;> rfl

/-- A conversion is a piece, and the scan goes on behind it. -/
theorem scan_conversion {taken rest str fmt : Bytes} (nstr : Bytes)
    (hhead : (taken ++ rest).head? ≠ some percent)
    (hscan : scanConversion (taken ++ rest) = some (str, fmt, taken.length)) :
    scan (percent :: (taken ++ rest)) 0 nstr =
      (flush nstr ++ .conversion str fmt :: (scan rest 0 []).1, (scan rest 0 []).2) := by
  rw [scan, if_neg (by simp), if_neg hhead, hscan]
  simp only [scan_skip]

/-- The text before a conversion is an item, and no error. -/
theorem flush_items (nstr : Bytes) :
    (flush nstr).map (·.item.1) = flushed nstr ∧ (flush nstr).any (·.item.2) = false := by
  rw [flush, flushed]
  split_ifs
  · exact ⟨rfl, rfl⟩
  · exact ⟨rfl, rfl⟩

/-- **A conversion of the table** makes its item, behind the text before it. -/
theorem parsed_conversion (nstr : Bytes) {taken rest str fmt : Bytes}
    {e : Bytes × (Bytes → FormatItem)}
    (hhead : (taken ++ rest).head? ≠ some percent)
    (hscan : scanConversion (taken ++ rest) = some (str, fmt, taken.length))
    (htable : formatItems.find? (·.1 == str) = some e) :
    parsed (percent :: (taken ++ rest)) nstr =
      (flushed nstr ++ e.2 fmt :: (parsed rest []).1, (parsed rest []).2) := by
  have hitem : (Piece.conversion str fmt).item = (e.2 fmt, false) := by rw [Piece.item, htable]
  rw [parsed, scan_conversion nstr hhead hscan]
  simp only [List.map_append, List.map_cons, List.any_append, List.any_cons, hitem,
    (flush_items nstr).1, (flush_items nstr).2, Bool.false_or]
  rfl

/-- The names of the table are single letters.  No other name is found. -/
theorem find_eq_none {str : Bytes} (h : str.length ≠ 1) :
    formatItems.find? (·.1 == str) = none := by
  have hlength : ∀ e ∈ formatItems, e.1.length = 1 := by simp [formatItems, StringUtil.text]
  rw [List.find?_eq_none]
  intro e he heq
  rw [← beq_iff_eq.1 heq] at h
  exact h (hlength e he)

/-- A conversion with no name of the table.  Wherever it is, the pattern is an error. -/
theorem parsed_unknown (nstr : Bytes) {rest str fmt : Bytes} {taken : ℕ}
    (hhead : rest.head? ≠ some percent) (hscan : scanConversion rest = some (str, fmt, taken))
    (htable : formatItems.find? (·.1 == str) = none) :
    (parsed (percent :: rest) nstr).2 = true := by
  have hitem : (Piece.conversion str fmt).item.2 = true := by rw [Piece.item, htable]
  rw [parsed, scan, if_neg (by simp), if_neg hhead, hscan]
  simp only [List.any_append, List.any_cons, hitem, Bool.true_or, Bool.or_true]

/-- A brace that is never closed.  Wherever it is, the pattern is an error. -/
theorem parsed_open (nstr : Bytes) {rest : Bytes} (hhead : rest.head? ≠ some percent)
    (hscan : scanConversion rest = none) : (parsed (percent :: rest) nstr).2 = true := by
  rw [parsed, scan, if_neg (by simp), if_neg hhead, hscan]
  rfl

end LogFormatter

end Hiper

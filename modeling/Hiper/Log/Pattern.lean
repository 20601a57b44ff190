import Hiper.Log.Scan

/-!
# Patterns as they are written

A pattern is spelled from texts, conversions and conversions with options (`PatternItem`).
What is read of the spelling are these items, as long as no letter and no closing brace
stands directly behind a conversion without options, where it is taken for more of the name;
then the pattern is an error (`pattern_iff`).

`Conversion` is the table `s_format_items` (`src/hiper/base/log.cc:610-631`) without its
closures.  The scanner takes letters and closing braces for the name of a conversion
(`:550-556`), so that `%rms` is a conversion `rms`; the items of a pattern with options end
with their brace, and anything may follow.
-/

namespace Hiper

open StringUtil

namespace LogFormatter

/-- The conversions.  There are twelve of them. -/
inductive Conversion
  | message
  | level
  | elapse
  | name
  | threadId
  | newLine
  | time
  | file
  | line
  | tab
  | fiberId
  | threadName
  deriving DecidableEq, Repr

namespace Conversion

/-- The letter behind the `%`.  Each has one of its own. -/
def letter : Conversion → Byte
  | .message => 109
  | .level => 112
  | .elapse => 114
  | .name => 99
  | .threadId => 116
  | .newLine => 110
  | .time => 100
  | .file => 102
  | .line => 108
  | .tab => 84
  | .fiberId => 70
  | .threadName => 78

/-- The item that a conversion stands for.  The options are used by the time only. -/
def item (fmt : Bytes) : Conversion → FormatItem
  | .message => .message
  | .level => .level
  | .elapse => .elapse
  | .name => .name
  | .threadId => .threadId
  | .newLine => .newLine
  | .time => dateTimeItem fmt
  | .file => .filename
  | .line => .line
  | .tab => .tab
  | .fiberId => .fiberId
  | .threadName => .threadName

/-- In the order of the table.  Each is in it once. -/
def all : List Conversion :=
  [.message, .level, .elapse, .name, .threadId, .newLine, .time, .file, .line, .tab, .fiberId,
    .threadName]

/-- The table is the list of conversions. -/
theorem formatItems_eq : formatItems = all.map fun x => ([x.letter], fun fmt => x.item fmt) := rfl

/-- The table has it.  It is found by its letter. -/
theorem find_letter (x : Conversion) :
    formatItems.find? (·.1 == [x.letter]) = some ([x.letter], fun fmt => x.item fmt) := by
  cases x <;> rfl

/-- A letter of the table is a letter, and no `%`. -/
theorem inName_letter (x : Conversion) : inName x.letter = true ∧ x.letter ≠ percent := by
  cases x <;> decide

end Conversion

/-- What a pattern is spelled from.  A text may be empty. -/
inductive PatternItem
  | literal (s : Bytes)
  | conversion (x : Conversion)
  | withOptions (x : Conversion) (fmt : Bytes)
  deriving DecidableEq, Repr

namespace PatternItem

/-- How an item is written. -/
def spelling : PatternItem → Bytes
  | .literal s => s
  | .conversion x => [percent, x.letter]
  | .withOptions x fmt => percent :: x.letter :: openBrace :: (fmt ++ [closeBrace])

/-- The item of the formatter that is meant. -/
def item : PatternItem → FormatItem
  | .literal s => .string s
  | .conversion x => x.item []
  | .withOptions x fmt => x.item fmt

/-- No `%` in a text, no closing brace in options.  Any other byte may stand in either. -/
def Valid : PatternItem → Prop
  | .literal s => percent ∉ s
  | .conversion _ => True
  | .withOptions _ fmt => closeBrace ∉ fmt

/-- The bytes are looked through. -/
instance : DecidablePred Valid := fun i =>
  match i with
  | .literal s => inferInstanceAs (Decidable (percent ∉ s))
  | .conversion _ => inferInstanceAs (Decidable True)
  | .withOptions _ fmt => inferInstanceAs (Decidable (closeBrace ∉ fmt))

end PatternItem

open PatternItem

/-- The spelling of a sequence.  One item behind the other. -/
def spell (items : List PatternItem) : Bytes := items.flatMap spelling

/-- What stands directly behind a conversion without options, when there is something.  A
conversion at the end is followed by nothing. -/
def Followed (P : Byte → Prop) : List PatternItem → Prop
  | [] => True
  | .conversion _ :: items => (∀ ch ∈ (spell items).head?, P ch) ∧ Followed P items
  | .literal _ :: items | .withOptions _ _ :: items => Followed P items

/-- The spellings are looked at. -/
instance {P : Byte → Prop} [DecidablePred P] : DecidablePred (Followed P) := go
where
  go : (items : List PatternItem) → Decidable (Followed P items)
    | [] => inferInstanceAs (Decidable True)
    | .conversion _ :: items =>
      have := go items
      inferInstanceAs (Decidable ((∀ ch ∈ (spell items).head?, P ch) ∧ Followed P items))
    | .literal _ :: items | .withOptions _ _ :: items => go items

/-- The first item, and the others. -/
theorem spell_cons (i : PatternItem) (items : List PatternItem) :
    spell (i :: items) = i.spelling ++ spell items := List.flatMap_cons

/-! ### What is written -/

section Output

variable (strftime : Bytes → UInt64 → Option Bytes) (logger : Bytes) (level : LogLevel)
  (event : LogEvent)

/-- What the first item writes, and the others. -/
theorem formatItemsOf_cons (i : FormatItem) (items : List FormatItem) :
    formatItemsOf strftime logger level event (i :: items) =
      (i.format strftime logger level event).bind fun s =>
        (formatItemsOf strftime logger level event items).map (s ++ ·) := by
  rw [formatItemsOf]
  cases i.format strftime logger level event with
  | none => rfl
  | some s => cases formatItemsOf strftime logger level event items <;> rfl

/-- A text, and what the others write. -/
theorem formatItemsOf_string (s : Bytes) (items : List FormatItem) :
    formatItemsOf strftime logger level event (.string s :: items) =
      (formatItemsOf strftime logger level event items).map (s ++ ·) := by
  rw [formatItemsOf_cons]
  rfl

/-- The text before a conversion, and what the others write. -/
theorem formatItemsOf_flushed (nstr : Bytes) (items : List FormatItem) :
    formatItemsOf strftime logger level event (flushed nstr ++ items) =
      (formatItemsOf strftime logger level event items).map (nstr ++ ·) := by
  rw [flushed]
  split_ifs with h
  · rw [h, List.nil_append]
    cases formatItemsOf strftime logger level event items <;> rfl
  · exact formatItemsOf_string strftime logger level event nstr items

/-- The text at the end. -/
theorem formatItemsOf_flushed_nil (nstr : Bytes) :
    formatItemsOf strftime logger level event (flushed nstr) = some nstr := by
  rw [← List.append_nil (flushed nstr), formatItemsOf_flushed, formatItemsOf, Option.map_some,
    List.append_nil]

end Output

/-! ### What is read -/

/-- **A conversion is read**, with its options or without, when nothing behind it is taken for
its name. -/
theorem parsed_item {i : PatternItem} (hi : ∀ s, i ≠ .literal s) (hvalid : i.Valid) {rest : Bytes}
    (hrest : ∀ x, i = .conversion x → ∀ ch ∈ rest.head?, inName ch = false ∧ ch ≠ openBrace)
    (nstr : Bytes) : parsed (i.spelling ++ rest) nstr =
      (flushed nstr ++ i.item :: (parsed rest []).1, (parsed rest []).2) := by
  have hname : ∀ x : Conversion, ∀ ch ∈ [x.letter], inName ch = true :=
    fun x => by simp [x.inName_letter.1]
  cases i with
  | literal s => exact absurd rfl (hi s)
  | conversion x =>
      have hscan := scanConversion_plain (hname x) (hrest x rfl)
      exact parsed_conversion nstr (by simp [x.inName_letter.2]) hscan x.find_letter
  | withOptions x fmt =>
      have hscan := scanConversion_options (hname x) hvalid rest
      exact parsed_conversion nstr (by simp [x.inName_letter.2]) hscan x.find_letter

/-- A conversion whose name goes on.  It is in no table. -/
theorem parsed_longer {x : Conversion} {ch : Byte} (hch : inName ch = true) (rest nstr : Bytes) :
    (parsed (percent :: x.letter :: ch :: rest) nstr).2 = true := by
  have hname : ∀ c ∈ [x.letter, ch], inName c = true := by simp [x.inName_letter.1, hch]
  have hhead : (x.letter :: ch :: rest).head? ≠ some percent := by simp [x.inName_letter.2]
  have hscan := scanConversion_name hname rest
  rw [List.cons_append, List.cons_append, List.nil_append] at hscan
  rcases hrest : scanConversion rest with _ | r
  · rw [hrest] at hscan
    exact parsed_open nstr hhead hscan
  · rw [hrest] at hscan
    exact parsed_unknown nstr hhead hscan (find_eq_none (by simp))

/-- Two conditions on what stands behind. -/
theorem Followed.and {P Q : Byte → Prop} {items : List PatternItem} (hp : Followed P items)
    (hq : Followed Q items) : Followed (fun ch => P ch ∧ Q ch) items := by
  induction items with
  | nil => trivial
  | cons i items ih =>
      cases i with
      | conversion x => exact ⟨fun ch hch => ⟨hp.1 ch hch, hq.1 ch hch⟩, ih hp.2 hq.2⟩
      | literal s => exact ih hp hq
      | withOptions x fmt => exact ih hp hq

/-- The items, in order, with the text before them.  And no error. -/
def Reads (items : List PatternItem) (nstr : Bytes) : Prop :=
  (parsed (spell items) nstr).2 = false ∧ ∀ strftime logger level event,
    formatItemsOf strftime logger level event (parsed (spell items) nstr).1 =
      (formatItemsOf strftime logger level event (items.map item)).map (nstr ++ ·)

/-- A text goes to the text before. -/
theorem Reads.literal {items : List PatternItem} {s nstr : Bytes} (hs : percent ∉ s)
    (h : Reads items (nstr ++ s)) : Reads (.literal s :: items) nstr := by
  rw [Reads, spell_cons, show (PatternItem.literal s).spelling = s from rfl, parsed_text hs]
  refine ⟨h.1, fun strftime logger level event => ?_⟩
  rw [h.2, List.map_cons, show (PatternItem.literal s).item = .string s from rfl,
    formatItemsOf_string, Option.map_map]
  exact congrArg (Option.map · _) (funext fun rest => List.append_assoc nstr s rest)

/-- A conversion comes behind the text before. -/
theorem Reads.item {i : PatternItem} {items : List PatternItem} (hi : ∀ s, i ≠ .literal s)
    (hvalid : i.Valid)
    (hrest : ∀ x, i = .conversion x →
      ∀ ch ∈ (spell items).head?, inName ch = false ∧ ch ≠ openBrace)
    (h : Reads items []) (nstr : Bytes) : Reads (i :: items) nstr := by
  rw [Reads, spell_cons, parsed_item hi hvalid hrest]
  refine ⟨h.1, fun strftime logger level event => ?_⟩
  have htail := h.2 strftime logger level event
  simp only [List.nil_append, Option.map_id'] at htail
  rw [formatItemsOf_flushed, List.map_cons, formatItemsOf_cons, formatItemsOf_cons, htail]

/-- As long as nothing is taken for a longer name, the items come out in order.  The induction
is over the items. -/
theorem reads_of_followed {items : List PatternItem} (hvalid : ∀ i ∈ items, i.Valid)
    (h : Followed (fun ch => inName ch = false ∧ ch ≠ openBrace) items) (nstr : Bytes) :
    Reads items nstr := by
  induction items generalizing nstr with
  | nil =>
      rw [Reads, show spell [] = [] from rfl, parsed_nil]
      refine ⟨rfl, fun strftime logger level event => ?_⟩
      rw [formatItemsOf_flushed_nil, List.map_nil, formatItemsOf, Option.map_some, List.append_nil]
  | cons i items ih =>
      obtain ⟨hi, hitems⟩ := List.forall_mem_cons.1 hvalid
      cases i with
      | literal s => exact .literal hi (ih hitems h _)
      | conversion x =>
          exact .item (by simp) hi (fun _ _ => h.1) (ih hitems h.2 []) nstr
      | withOptions x fmt => exact .item (by simp) hi (by simp) (ih hitems h []) nstr

/-- A name that goes on makes the pattern an error, wherever it is.  The induction is over the
items. -/
theorem error_of_not_followed {items : List PatternItem} (hvalid : ∀ i ∈ items, i.Valid)
    (hopen : Followed (· ≠ openBrace) items) (h : ¬Followed (inName · = false) items)
    (nstr : Bytes) : (parsed (spell items) nstr).2 = true := by
  induction items generalizing nstr with
  | nil => exact absurd trivial h
  | cons i items ih =>
      obtain ⟨hi, hitems⟩ := List.forall_mem_cons.1 hvalid
      cases i with
      | literal s =>
          rw [spell_cons, show (PatternItem.literal s).spelling = s from rfl, parsed_text hi]
          exact ih hitems hopen h _
      | withOptions x fmt =>
          rw [spell_cons, parsed_item (by simp) hi (by simp)]
          exact ih hitems hopen h []
      | conversion x =>
          by_cases hname : ∀ ch ∈ (spell items).head?, inName ch = false
          · rw [spell_cons, parsed_item (by simp) hi fun _ _ ch hch =>
              ⟨hname ch hch, hopen.1 ch hch⟩]
            exact ih hitems hopen.2 (fun hfollowed => h ⟨hname, hfollowed⟩) []
          · obtain ⟨ch, hnot⟩ := not_forall.1 hname
            obtain ⟨hch, hin⟩ := Classical.not_imp.1 hnot
            obtain ⟨rest, hrest⟩ := List.head?_eq_some_iff.1 hch
            rw [spell_cons, hrest]
            exact parsed_longer (by simpa using hin) rest nstr

/-- **Patterns are read as they are written**: no error, and every event is written as the items
say, if and only if neither a letter nor a closing brace stands directly behind a conversion
without options.  The items are valid, and no conversion without options stands before an
opening brace, since there the spelling itself would be that of options; otherwise they are any
sequence, and what is written is asked for every logger, level and event.  The function is
`LogFormatter::init` (`src/hiper/base/log.cc:517-649`): the name of a conversion is all of the
letters behind the sign, lines 553 to 556 and 583, and is looked up as a whole in line 637. -/
theorem pattern_iff (strftime : Bytes → UInt64 → Option Bytes) (items : List PatternItem)
    (hvalid : ∀ i ∈ items, i.Valid) (hopen : Followed (· ≠ openBrace) items) :
    ((new (spell items)).isError = false ∧ ∀ logger level event,
      (new (spell items)).format strftime logger level event =
        formatItemsOf strftime logger level event (items.map item)) ↔
      Followed (inName · = false) items := by
  constructor
  · rintro ⟨herror, -⟩
    by_contra h
    rw [isError_new, error_of_not_followed hvalid hopen h] at herror
    exact Bool.noConfusion herror
  · intro h
    have hread := reads_of_followed hvalid (h.and hopen) []
    refine ⟨hread.1, fun logger level event => ?_⟩
    have hout := hread.2 strftime logger level event
    simp only [List.nil_append, Option.map_id'] at hout
    exact hout

/-- `[%p]%T%m%n`.  The level, a tab, the message and a line end. -/
def bracketedLevel : List PatternItem :=
  [.literal (text "["), .conversion .level, .literal (text "]"), .conversion .tab,
    .conversion .message, .conversion .newLine]

/-- The event of a line. -/
def readyEvent : LogEvent := ⟨text "main.cc", 12, 0, 1, 0, 0, text "main", text "ready"⟩

/-- It writes what it should. -/
theorem pattern_bracketedLevel :
    (new (spell bracketedLevel)).isError = false ∧
      (new (spell bracketedLevel)).format (fun _ _ => some (text "1970-01-01 00:00:00"))
        (text "system") .info readyEvent = some (text "[INFO]\tready\n") :=
  have h := (pattern_iff (fun _ _ => some (text "1970-01-01 00:00:00")) bracketedLevel
    (by decide +kernel) (by decide +kernel)).2 (by decide +kernel)
  ⟨h.1, (h.2 _ _ _).trans (by decide +kernel)⟩

/-- `%rms`.  The elapsed milliseconds, and their unit. -/
def elapsedMs : List PatternItem := [.conversion .elapse, .literal (text "ms")]

/-- It is an error, though its items are valid. -/
theorem isError_elapsedMs :
    spell elapsedMs = text "%rms" ∧ (∀ i ∈ elapsedMs, i.Valid) ∧ Followed (· ≠ openBrace) elapsedMs ∧
      (new (spell elapsedMs)).isError = true := by
  decide +kernel

end LogFormatter

end Hiper

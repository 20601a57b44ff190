import Hiper.StringUtil.Basic

/-!
# Patterns of log lines

`LogFormatter::init` of `log.cc` cuts a pattern into plain text and conversions, `%x` and
`%x{options}`, and makes an item of each.  A conversion that is not in the table, and one
whose brace is never closed, make the pattern an error.

The scanner goes from a `%` over the letters and closing braces behind it, so it takes all
of `rms` in `%rms` for the name of one conversion; of the two signs in `%%` it takes the
first for text and looks at the second again.

The function is `src/hiper/base/log.cc:517-649`, the table is `:610-631`.  The loop has an
index `i` that jumps behind what a conversion takes; here the rest of the pattern is passed
on with the number of bytes that are still to be skipped.  `vec` has a third part for the
kind of a piece, which is the constructor here.
-/

namespace Hiper

open StringUtil

/-- The classes of `LogFormatter::FormatItem`.  Those that keep a text have it. -/
inductive FormatItem
  | message
  | level
  | elapse
  | name
  | threadId
  | newLine
  | dateTime (format : Bytes)
  | filename
  | line
  | tab
  | fiberId
  | threadName
  | string (s : Bytes)
  deriving DecidableEq, Repr

/-- `LogFormatter`.  `error_` is set by `init`. -/
structure LogFormatter where
  pattern : Bytes
  items : List FormatItem
  error : Bool
  deriving DecidableEq, Repr

namespace LogFormatter

/-- `DateTimeFormatItem(format)`.  An empty format is replaced by that of the class. -/
def dateTimeItem (format : Bytes) : FormatItem :=
  .dateTime (if format = [] then text "%Y-%m-%d %H:%M:%S" else format)

/-- `s_format_items`.  In the order of the source; the options are used by one of them. -/
def formatItems : List (Bytes × (Bytes → FormatItem)) :=
  [(text "m", fun _ => .message),
    (text "p", fun _ => .level),
    (text "r", fun _ => .elapse),
    (text "c", fun _ => .name),
    (text "t", fun _ => .threadId),
    (text "n", fun _ => .newLine),
    (text "d", dateTimeItem),
    (text "f", fun _ => .filename),
    (text "l", fun _ => .line),
    (text "T", fun _ => .tab),
    (text "F", fun _ => .fiberId),
    (text "N", fun _ => .threadName)]

/-- An element of `vec`.  A text, or a conversion with its options. -/
inductive Piece
  | text (s : Bytes)
  | conversion (str fmt : Bytes)
  deriving DecidableEq, Repr

/-- `'%'`. -/
def percent : Byte := 37

/-- An opening brace. -/
def openBrace : Byte := 123

/-- A closing brace. -/
def closeBrace : Byte := 125

/-- `fmt_status == 1`: the options up to the closing brace, and how many bytes they take with
it; nothing when there is none.  The brace is one of them. -/
def scanOptions : Bytes → Option (Bytes × ℕ)
  | [] => none
  | ch :: rest =>
    if ch = closeBrace then some ([], 1)
    else (scanOptions rest).map fun r => (ch :: r.1, r.2 + 1)

/-- The inner loop, from behind the `%`: `str` and `fmt`, and how many bytes they take.  The
name, the options and how many bytes they take; nothing for a brace that is not closed. -/
def scanConversion : Bytes → Option (Bytes × Bytes × ℕ)
  | [] => some ([], [], 0)
  | ch :: rest =>
    if !isalpha ch && ch ≠ openBrace && ch ≠ closeBrace then some ([], [], 0)
    else if ch = openBrace then (scanOptions rest).map fun r => ([], r.1, r.2 + 1)
    else (scanConversion rest).map fun r => (ch :: r.1, r.2.1, r.2.2 + 1)

/-- The text in `nstr`, when there is any.  It is emptied by every conversion. -/
def flush (nstr : Bytes) : List Piece := if nstr = [] then [] else [.text nstr]

/-- The outer loop: `skip` bytes are taken already.  `vec` and whether there was an error.  The
second part is `error_`. -/
def scan : Bytes → ℕ → Bytes → List Piece × Bool
  | [], _, nstr => (flush nstr, false)
  | _ :: rest, skip + 1, nstr => scan rest skip nstr
  | ch :: rest, 0, nstr =>
    if ch ≠ percent then scan rest 0 (nstr ++ [ch])
    else if rest.head? = some percent then scan rest 0 (nstr ++ [percent])
    else
      match scanConversion rest with
      | some (str, fmt, taken) =>
        let (pieces, error) := scan rest taken []
        (flush nstr ++ .conversion str fmt :: pieces, error)
      | none =>
        let (pieces, _) := scan rest 0 nstr
        (.text (StringUtil.text "<<pattern_error>>") :: pieces, true)

/-- The item of a piece, and whether the table has none for it.  In that case the item shows the
name. -/
def Piece.item : Piece → FormatItem × Bool
  | .text s => (.string s, false)
  | .conversion str fmt =>
    match formatItems.find? (·.1 == str) with
    | some e => (e.2 fmt, false)
    | none => (.string (StringUtil.text "<<error_format %" ++ str ++ StringUtil.text ">>"), true)

/-- `LogFormatter(pattern)`.  It scans the pattern once. -/
def new (pattern : Bytes) : LogFormatter :=
  let (pieces, error) := scan pattern 0 []
  ⟨pattern, pieces.map (·.item.1), error || pieces.any (·.item.2)⟩

/-- `isError()`.  It is asked by `setFormatter`. -/
def isError (f : LogFormatter) : Bool := f.error

/-- `getPattern()`.  Also when it is an error. -/
def getPattern (f : LogFormatter) : Bytes := f.pattern

@[simp]
theorem getPattern_new (pattern : Bytes) : (new pattern).getPattern = pattern := rfl

/-- The pattern of a logger that was given none.  It is written in the constructor of `Logger`. -/
def defaultPattern : Bytes := text "%d{%Y-%m-%d %H:%M:%S}%T%t%T%N%T%F%T[%p]%T[%c]%T%f:%l%T%m%n"

example : (new defaultPattern).isError = false := by decide +kernel

end LogFormatter

end Hiper

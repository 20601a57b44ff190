import Hiper.Log.Logger

/-!
# Lines of the log

What the items of a formatter write of an event, one after the other.

`strftime` is the C library function on a buffer of 64 bytes and local time: what is in
the buffer, or `none` when that is not determined, the text not fitting.

The items are the classes of `src/hiper/base/log.cc:104-260`, and the loop over them is
`LogFormatter::format` (`:496`).  A line is a list of bytes; numbers are written in decimal,
the line and the identifiers as the types of the fields say.
-/

namespace Hiper

open StringUtil

/-- `LogEvent`: what the items read of it.  The logger and the level come beside it. -/
structure LogEvent where
  file : Bytes
  line : Int32
  elapse : UInt32
  threadId : UInt32
  fiberId : UInt32
  time : UInt64
  threadName : Bytes
  content : Bytes
  deriving DecidableEq, Repr

/-- An `int32_t` as `operator<<` writes it.  A minus sign and the digits. -/
def signedDecimal (n : Int32) : Bytes :=
  if n.toInt < 0 then 45 :: decimal n.toInt.natAbs else decimal n.toInt.natAbs

variable (strftime : Bytes → UInt64 → Option Bytes)

/-- `format(os, logger, level, event)` of the item, for a logger of this name: what it writes.
Only a time may be undetermined. -/
def FormatItem.format (logger : Bytes) (level : LogLevel) (event : LogEvent) :
    FormatItem → Option Bytes
  | .message => some event.content
  | .level => some level.toString
  | .elapse => some (decimal event.elapse.toNat)
  | .name => some logger
  | .threadId => some (decimal event.threadId.toNat)
  | .newLine => some [10]
  | .dateTime format => strftime (cStr format) event.time
  | .filename => some event.file
  | .line => some (signedDecimal event.line)
  | .tab => some [9]
  | .fiberId => some (decimal event.fiberId.toNat)
  | .threadName => some event.threadName
  | .string s => some s

namespace LogFormatter

/-- The loop over `items_`.  Undetermined, if one of them is. -/
def formatItemsOf (logger : Bytes) (level : LogLevel) (event : LogEvent) :
    List FormatItem → Option Bytes
  | [] => some []
  | i :: items => do
    let s ← i.format strftime logger level event
    let rest ← formatItemsOf logger level event items
    pure (s ++ rest)

/-- `format(logger, level, event)`.  A formatter that is an error has items as well. -/
def format (logger : Bytes) (level : LogLevel) (event : LogEvent) (f : LogFormatter) :
    Option Bytes :=
  formatItemsOf strftime logger level event f.items

end LogFormatter

end Hiper

import Hiper.Log.Formatter
import Mathlib.Logic.Function.Basic

/-!
# Loggers and their appenders

`log.cc`: a `Logger` has a level, a formatter and a list of appenders; an
`LogAppender` without a formatter of its own has that of its logger.  The manager
keeps the loggers by name, and makes one that is asked for and not there.

An appender here is in the list of its logger, where the source has a pointer to
it.

The places are `src/hiper/base/log.cc:15` and `:32` (levels), `:283-380` (`Logger`), `:652`
and `:662` (`LoggerManager`).  What is shared by pointers is modelled in `Attach`, with a
theorem that connects the two; that `root_` takes what a logger without appenders is asked
to write is not needed for what the listener of `logs` does.
-/

namespace Hiper

open StringUtil

/-- `LogLevel::Level`.  In the order in which they are compared. -/
inductive LogLevel
  | unknow
  | debug
  | info
  | warn
  | error
  | fatal
  deriving DecidableEq, Repr

namespace LogLevel

/-- `LogLevel::ToString`.  A level that is none of these is unknown, too. -/
def toString : LogLevel → Bytes
  | .debug => text "DEBUG"
  | .info => text "INFO"
  | .warn => text "WARN"
  | .error => text "ERROR"
  | .fatal => text "FATAL"
  | .unknow => text "UNKNOW"

/-- `LogLevel::FromString`.  In capitals or in small letters. -/
def fromString (str : Bytes) : LogLevel :=
  if str = text "debug" then .debug
  else if str = text "info" then .info
  else if str = text "warn" then .warn
  else if str = text "error" then .error
  else if str = text "fatal" then .fatal
  else if str = text "DEBUG" then .debug
  else if str = text "INFO" then .info
  else if str = text "WARN" then .warn
  else if str = text "ERROR" then .error
  else if str = text "FATAL" then .fatal
  else .unknow

/-- A level is read back, also from no text at all.  That is how a configuration leaves it out. -/
theorem fromString_toString (level : LogLevel) :
    fromString (if level = .unknow then [] else level.toString) = level := by
  cases level <;> rfl

end LogLevel

/-- `FileLogAppender(filename)` and `StdoutLogAppender`.  What the two classes differ by. -/
inductive LogTarget
  | file (filename : Bytes)
  | stdout
  deriving DecidableEq, Repr

/-- `LogAppender`; a formatter that is `none` is a null pointer.  `hasFormatter_` says whether
it has one of its own. -/
structure LogAppender where
  sink : LogTarget
  level : LogLevel
  hasFormatter : Bool
  formatter : Option LogFormatter
  deriving DecidableEq, Repr

namespace LogAppender

/-- An appender as it is constructed. -/
def new (sink : LogTarget) : LogAppender := ⟨sink, .debug, false, none⟩

/-- `setLevel(val)`. -/
def setLevel (val : LogLevel) (ap : LogAppender) : LogAppender := { ap with level := val }

/-- `setFormatter(val)`.  A null pointer takes its own away. -/
def setFormatter (val : Option LogFormatter) (ap : LogAppender) : LogAppender :=
  { ap with formatter := val, hasFormatter := val.isSome }

end LogAppender

/-- `Logger`.  The appenders are in the order they were added. -/
structure Logger where
  name : Bytes
  level : LogLevel
  formatter : Option LogFormatter
  appenders : List LogAppender
  deriving DecidableEq, Repr

namespace Logger

/-- `Logger(name)`.  It has the default formatter. -/
def new (name : Bytes) : Logger :=
  ⟨name, .debug, some (LogFormatter.new LogFormatter.defaultPattern), []⟩

/-- `setLevel(val)`. -/
def setLevel (val : LogLevel) (logger : Logger) : Logger := { logger with level := val }

/-- `setFormatter(LogFormatter::ptr)`.  Appenders without one of their own get it. -/
def setFormatterPtr (val : Option LogFormatter) (logger : Logger) : Logger :=
  { logger with
    formatter := val
    appenders := logger.appenders.map fun ap =>
      if ap.hasFormatter then ap else { ap with formatter := val } }

/-- `setFormatter(const std::string&)`.  A pattern with an error changes nothing. -/
def setFormatter (val : Bytes) (logger : Logger) : Logger :=
  let newVal := LogFormatter.new val
  if newVal.isError then logger else logger.setFormatterPtr (some newVal)

/-- `addAppender(appender)`.  One without a formatter gets the logger's. -/
def addAppender (ap : LogAppender) (logger : Logger) : Logger :=
  let ap := if ap.formatter.isNone then { ap with formatter := logger.formatter } else ap
  { logger with appenders := logger.appenders ++ [ap] }

/-- `clearAppenders()`. -/
def clearAppenders (logger : Logger) : Logger := { logger with appenders := [] }

end Logger

/-- `LoggerManager`: `loggers_`, by name.  A name that is not there has no logger yet. -/
structure LoggerManager where
  loggers : Bytes → Option Logger

namespace LoggerManager

/-- The name of `root_`.  It is a logger like the others, in the table. -/
def root : Bytes := text "root"

/-- `LoggerManager::LoggerManager()`.  The root logger writes to the standard output. -/
def init : LoggerManager :=
  ⟨Function.update (fun _ => none) root
    (some ((Logger.new root).addAppender (LogAppender.new .stdout)))⟩

/-- `getLogger(name)`: the logger it returns.  A new one, if there is none. -/
def logger (name : Bytes) (m : LoggerManager) : Logger :=
  (m.loggers name).getD (Logger.new name)

/-- `getLogger(name)`, and what is done through the pointer it returns.  The logger is there
afterwards. -/
def withLogger (name : Bytes) (f : Logger → Logger) (m : LoggerManager) : LoggerManager :=
  ⟨Function.update m.loggers name (some (f (m.logger name)))⟩

/-- `getLogger(name)`.  A logger that is not there is made. -/
def getLogger (name : Bytes) (m : LoggerManager) : LoggerManager := m.withLogger name id

end LoggerManager

/-! ### What a reader of the log sees of a logger -/

/-- An appender: where to, from which level on, in which pattern.  Two appenders with the same
view write the same. -/
structure AppenderView where
  sink : LogTarget
  level : LogLevel
  pattern : Option Bytes
  deriving DecidableEq, Repr

/-- A logger: its level, its pattern, its appenders.  It is what a user sees of it. -/
structure LoggerView where
  level : LogLevel
  pattern : Option Bytes
  appenders : List AppenderView
  deriving DecidableEq, Repr

/-- The view of an appender. -/
def LogAppender.view (ap : LogAppender) : AppenderView :=
  ⟨ap.sink, ap.level, ap.formatter.map LogFormatter.getPattern⟩

/-- The view of a logger. -/
def Logger.view (logger : Logger) : LoggerView :=
  ⟨logger.level, logger.formatter.map LogFormatter.getPattern, logger.appenders.map LogAppender.view⟩

end Hiper

import Hiper.Config.Listeners
import Hiper.Lib.Keyed
import Hiper.Lib.OrderedSeq
import Hiper.Log.Logger

/-!
# Loggers from a configuration

`log.cc`: the configuration variable `logs` holds a set of `LogDefine`s, ordered
by name, and its listener brings the loggers in line with a new set: a define that
is new, or that `operator==` finds changed, is carried over to its logger, and a
logger that is no longer defined loses its appenders.

Whether the loggers come out as the new set says does not always show from the new
set: `LogDefine::operator==` compares the appenders with themselves, so a change of
appenders alone is not carried over, and a define without a formatter leaves its
logger the one it had.  They come out as if they had been configured from scratch
exactly when neither happens (`setValue_settled_iff`).

The listener is `src/hiper/base/log.cc:811-880`, `LogDefine` is `:690-706`.  It is called by
`ConfigVar::setValue` only when the sets differ, by `std::set`'s `operator==` and so by that
of the defines; then its two loops go over the new and the old set in the order of names.
Values of `logs` come from the configuration files, so the sets are any sets of valid
defines.
-/

namespace Hiper

open Lib StringUtil

/-- `LogAppenderDefine::type`, 1 and 2.  The number 0 is none of them. -/
inductive AppenderType
  | file
  | stdout
  deriving DecidableEq, Repr

/-- `LogAppenderDefine`.  A level that is not given is `UNKNOW`. -/
structure LogAppenderDefine where
  type : AppenderType
  level : LogLevel
  formatter : Bytes
  file : Bytes
  deriving DecidableEq, Repr

/-- `LogDefine`.  It has the appenders in their order. -/
structure LogDefine where
  name : Bytes
  level : LogLevel
  formatter : Bytes
  appenders : List LogAppenderDefine
  deriving Repr

/-- `LogDefine::operator==`, which compares the appenders on its left side with themselves. -/
instance : BEq LogDefine where
  beq i oth := i.name == oth.name && i.level == oth.level && i.formatter == oth.formatter &&
    i.appenders == i.appenders

namespace LogDefine

/-- What `std::string` is ordered by.  The bytes are compared as numbers. -/
def key (i : LogDefine) : List ℕ := i.name.map UInt8.toNat

/-- `LogDefine::operator<`.  Only the names count. -/
def less (i oth : LogDefine) : Bool := decide (i.key < oth.key)

end LogDefine

/-- `std::set<LogDefine>`.  It is ordered and has no name twice. -/
structure LogDefines where
  defines : List LogDefine
  sorted : OrderedSeq.Sorted LogDefine.key defines

/-- The elements are compared one by one. -/
instance : BEq LogDefines where
  beq s t := s.defines == t.defines

namespace LogDefines

/-- The empty set, which is the variable's default. -/
def empty : LogDefines := ⟨[], List.Pairwise.nil⟩

/-- `find(i)`.  It is found by its name. -/
def find (i : LogDefine) (s : LogDefines) : Option LogDefine :=
  OrderedSeq.find LogDefine.less i s.defines

end LogDefines

/-! ### The listener -/

namespace LogIniter

/-- The appender that `a` defines; `hasD` is `EnvMgr::GetInstance()->has("d")`, which keeps the
standard output free.  A formatter that is an error is left out. -/
def appender (hasD : Bool) (a : LogAppenderDefine) : Option LogAppender :=
  let ap : Option LogAppender :=
    match a.type with
    | .file => some (LogAppender.new (.file a.file))
    | .stdout => if hasD then none else some (LogAppender.new .stdout)
  ap.map fun ap =>
    let ap := ap.setLevel a.level
    if a.formatter = [] then ap
    else
      let fmt := LogFormatter.new a.formatter
      if fmt.isError then ap else ap.setFormatter (some fmt)

/-- The body of the loop over the appenders of a define.  An appender that is not defined is not
added. -/
def addDefined (hasD : Bool) (logger : Logger) (a : LogAppenderDefine) : Logger :=
  match appender hasD a with
  | none => logger
  | some ap => logger.addAppender ap

/-- A define is carried over to its logger.  The level, the formatter if there is one, and the
appenders anew. -/
def configure (hasD : Bool) (i : LogDefine) (logger : Logger) : Logger :=
  let logger := logger.setLevel i.level
  let logger := if i.formatter = [] then logger else logger.setFormatter i.formatter
  i.appenders.foldl (addDefined hasD) logger.clearAppenders

/-- The body of the loop over `new_value`.  A define that is the same as before is left alone. -/
def carryOver (hasD : Bool) (old : LogDefines) (m : LoggerManager) (i : LogDefine) :
    LoggerManager :=
  match old.find i with
  | none => m.withLogger i.name (configure hasD i)
  | some it => if i == it then m else m.withLogger i.name (configure hasD i)

/-- The body of the loop over `old_value`.  A logger that is still defined is left alone. -/
def drop (new : LogDefines) (m : LoggerManager) (i : LogDefine) : LoggerManager :=
  match new.find i with
  | none => m.withLogger i.name fun logger => (logger.setLevel .unknow).clearAppenders
  | some _ => m

/-- The listener of `g_log_defines`.  The loop over the new set comes first. -/
def onChange (hasD : Bool) (old new : LogDefines) (m : LoggerManager) : LoggerManager :=
  old.defines.foldl (drop new) (new.defines.foldl (carryOver hasD old) m)

/-- `g_log_defines->setValue(v)`.  The listener is told the old and the new set. -/
def setValue (hasD : Bool) (v : LogDefines) (x : LogDefines × LoggerManager) :
    LogDefines × LoggerManager :=
  ConfigVar.setValue (onChange hasD) v x

end LogIniter

/-! ### What a set of defines says -/

/-- Where the appender of the define writes to.  The file is looked at for one of the types. -/
def LogAppenderDefine.sink (a : LogAppenderDefine) : LogTarget :=
  match a.type with
  | .file => .file a.file
  | .stdout => .stdout

/-- The appenders that the defines make for a logger of the pattern `inherited`.  Those that are
not made are left out. -/
def appenderViews (hasD : Bool) (defines : List LogAppenderDefine) (inherited : Option Bytes) :
    List AppenderView :=
  (defines.filter fun a => a.type = .file || !hasD).map fun a =>
    ⟨a.sink, a.level, if a.formatter = [] then inherited else some a.formatter⟩

namespace LogDefine

/-- Every pattern in the define is one.  The empty one stands for none. -/
structure Valid (i : LogDefine) : Prop where
  formatter : i.formatter ≠ [] → (LogFormatter.new i.formatter).isError = false
  appenders : ∀ a ∈ i.appenders, a.formatter ≠ [] →
    (LogFormatter.new a.formatter).isError = false

/-- The pattern of a logger that had `before`.  The define's own, if it has one. -/
def pattern (i : LogDefine) (before : Option Bytes) : Option Bytes :=
  if i.formatter = [] then before else some i.formatter

/-- What a logger that had the pattern `before` is, configured by the define.  It is computed
from the define. -/
def view (hasD : Bool) (i : LogDefine) (before : Option Bytes) : LoggerView :=
  ⟨i.level, i.pattern before, appenderViews hasD i.appenders (i.pattern before)⟩

end LogDefine

namespace LogIniter

/-- The pattern of a logger that was never configured.  It is the default pattern. -/
def initial : Option Bytes := some LogFormatter.defaultPattern

/-- The loggers after `setValue(old)` and `setValue(new)`.  The value is empty before the first
of them. -/
def afterBoth (hasD : Bool) (old new : LogDefines) (m : LoggerManager) : LoggerManager :=
  (setValue hasD new (setValue hasD old (.empty, m))).2

/-- The loggers named in `new` are as `setValue(new)` alone makes them, and those only in `old`
have no appenders.  Loggers in neither of the sets are not spoken of. -/
structure Settled (hasD : Bool) (old new : LogDefines) (m : LoggerManager) : Prop where
  same : ∀ d ∈ new.defines, ((afterBoth hasD old new m).logger d.name).view =
    ((setValue hasD new (.empty, m)).2.logger d.name).view
  dropped : ∀ o ∈ old.defines, (∀ d ∈ new.defines, d.name ≠ o.name) →
    ((afterBoth hasD old new m).logger o.name).appenders = []

/-- Nothing is lost between two defines of one logger: when `operator==` finds no difference the
appenders are the same, and when it finds one, a formatter is not taken back.  It is a condition
on the two defines. -/
def Follows (hasD : Bool) (o d : LogDefine) : Prop :=
  if o.level = d.level ∧ o.formatter = d.formatter then
    appenderViews hasD o.appenders (o.pattern initial) =
      appenderViews hasD d.appenders (d.pattern initial)
  else d.formatter ≠ [] ∨ o.formatter = [] ∨ o.formatter = LogFormatter.defaultPattern

/-- Nothing is lost between two sets of defines.  It is a condition on the two sets alone. -/
def Converges (hasD : Bool) (old new : LogDefines) : Prop :=
  ∀ o ∈ old.defines, ∀ d ∈ new.defines, o.name = d.name → Follows hasD o d

end LogIniter

variable {hasD : Bool} {old new : LogDefines} {m : LoggerManager} {i it : LogDefine}

/-! ### Sets of defines -/

/-- Two defines compare equal when their names, levels and formatters are the same, whatever
their appenders. -/
theorem LogDefine.beq_iff :
    (i == it) = true ↔ i.name = it.name ∧ i.level = it.level ∧ i.formatter = it.formatter := by
  change (i.name == it.name && i.level == it.level && i.formatter == it.formatter &&
    i.appenders == i.appenders) = true ↔ _
  simp [and_assoc]

/-- Two names have the same key when they are the same. -/
theorem LogDefine.key_eq_iff : i.key = it.key ↔ i.name = it.name :=
  (List.map_injective_iff.2 fun _ _ h => UInt8.toNat_inj.1 h).eq_iff

/-- The order of the set compares keys. -/
theorem LogDefine.less_compares : OrderedSeq.Compares LogDefine.less LogDefine.key := fun _ _ =>
  decide_eq_true_iff

/-- A set has at most one define of a name.  It is told by the order. -/
theorem LogDefines.names_ne (s : LogDefines) :
    s.defines.Pairwise fun a b => a.name ≠ b.name :=
  s.sorted.imp fun hlt heq => hlt.ne (LogDefine.key_eq_iff.2 heq)

/-- What is found is in the set, and has the name. -/
theorem LogDefines.find_eq_some {s : LogDefines} :
    s.find i = some it ↔ it ∈ s.defines ∧ it.name = i.name := by
  rw [LogDefines.find, s.sorted.find_eq_some LogDefine.less_compares, LogDefine.key_eq_iff]

/-- Nothing is found when nobody has the name. -/
theorem LogDefines.find_eq_none {s : LogDefines} :
    s.find i = none ↔ ∀ x ∈ s.defines, x.name ≠ i.name := by
  rw [LogDefines.find, s.sorted.find_eq_none LogDefine.less_compares]
  simp only [ne_eq, LogDefine.key_eq_iff]

/-- Elements of lists that compare equal have counterparts.  And the other way round. -/
theorem exists_beq_of_mem {α : Type} [BEq α] {l l' : List α} (h : (l == l') = true) :
    (∀ x ∈ l, ∃ y ∈ l', (x == y) = true) ∧ ∀ y ∈ l', ∃ x ∈ l, (x == y) = true := by
  induction l generalizing l' with
  | nil =>
      cases l' with
      | nil => simp
      | cons y l' => cases h
  | cons x l ih =>
      cases l' with
      | nil => cases h
      | cons y l' =>
          rw [List.cons_beq_cons, Bool.and_eq_true] at h
          obtain ⟨hl, hr⟩ := ih h.2
          constructor
          · intro z hz
            rcases List.mem_cons.1 hz with rfl | hz
            · exact ⟨y, List.mem_cons_self .., h.1⟩
            · obtain ⟨w, hw, heq⟩ := hl z hz
              exact ⟨w, List.mem_cons_of_mem _ hw, heq⟩
          · intro z hz
            rcases List.mem_cons.1 hz with rfl | hz
            · exact ⟨x, List.mem_cons_self .., h.1⟩
            · obtain ⟨w, hw, heq⟩ := hr z hz
              exact ⟨w, List.mem_cons_of_mem _ hw, heq⟩

namespace LogIniter

/-! ### One define, one logger -/

/-- The appender of a define whose pattern is one.  The pattern of the define is one, or empty. -/
theorem appender_eq {a : LogAppenderDefine}
    (h : a.formatter ≠ [] → (LogFormatter.new a.formatter).isError = false) :
    appender hasD a =
      if (a.type = .file || !hasD) = true then
        some ⟨a.sink, a.level, decide (a.formatter ≠ []),
          if a.formatter = [] then none else some (LogFormatter.new a.formatter)⟩
      else none := by
  unfold appender LogAppenderDefine.sink
  by_cases hformatter : a.formatter = []
  · cases a.type <;> cases hasD <;> simp [hformatter, LogAppender.new, LogAppender.setLevel]
  · cases a.type <;> cases hasD <;>
      simp [hformatter, h hformatter, LogAppender.new, LogAppender.setLevel, LogAppender.setFormatter]

/-- The view of a logger with one more appender. -/
theorem view_addAppender (ap : LogAppender) (logger : Logger) :
    (logger.addAppender ap).view = ⟨logger.level, logger.view.pattern, logger.view.appenders ++
      [⟨ap.sink, ap.level, (ap.formatter.map LogFormatter.getPattern).or logger.view.pattern⟩]⟩ := by
  unfold Logger.addAppender Logger.view
  cases hformatter : ap.formatter <;> simp [LogAppender.view, hformatter]

/-- The view of a logger to which the appenders of a define were added.  The induction is over
them. -/
theorem view_foldl_addDefined {defines : List LogAppenderDefine}
    (h : ∀ a ∈ defines, a.formatter ≠ [] → (LogFormatter.new a.formatter).isError = false)
    (logger : Logger) :
    (defines.foldl (addDefined hasD) logger).view = ⟨logger.level, logger.view.pattern,
      logger.view.appenders ++ appenderViews hasD defines logger.view.pattern⟩ := by
  induction defines generalizing logger with
  | nil => simp [appenderViews, Logger.view]
  | cons a defines ih =>
      rw [List.forall_mem_cons] at h
      rw [List.foldl_cons, ih h.2, addDefined, appender_eq h.1]
      by_cases hkept : (a.type = .file || !hasD) = true
      · simp only [view_addAppender, appenderViews, List.filter_cons, hkept, if_true, List.map_cons,
          List.append_assoc, List.singleton_append]
        by_cases hformatter : a.formatter = []
        · simp [hformatter, Logger.addAppender]
        · simp [hformatter, Logger.addAppender]
      · simp only [if_neg hkept, appenderViews, List.filter_cons]

/-- **A configured logger is what its define says**; it keeps its pattern when the define has
none.  The levels and the appenders are the define's. -/
theorem configure_view (h : i.Valid) (logger : Logger) :
    (configure hasD i logger).view = i.view hasD logger.view.pattern := by
  rw [configure, view_foldl_addDefined h.appenders]
  by_cases hformatter : i.formatter = []
  · simp [hformatter, LogDefine.view, LogDefine.pattern, Logger.view, Logger.clearAppenders,
      Logger.setLevel]
  · simp [hformatter, h.formatter hformatter, LogDefine.view, LogDefine.pattern, Logger.view,
      Logger.clearAppenders, Logger.setLevel, Logger.setFormatter, Logger.setFormatterPtr]

/-! ### The listener, logger by logger -/

/-- The define is not carried over.  The old set has one that compares equal. -/
def kept (old : LogDefines) (i : LogDefine) : Bool :=
  match old.find i with
  | none => false
  | some it => i == it

/-- What the first loop makes of the logger of a define.  A logger that is not there is made. -/
def carried (hasD : Bool) (old : LogDefines) (i : LogDefine) (l : Option Logger) : Option Logger :=
  if kept old i then l else some (configure hasD i (l.getD (Logger.new i.name)))

/-- What the second loop makes of it.  It has no level and no appenders then. -/
def dropped (new : LogDefines) (i : LogDefine) (l : Option Logger) : Option Logger :=
  if (new.find i).isSome then l
  else some (((l.getD (Logger.new i.name)).setLevel .unknow).clearAppenders)

/-- The first loop writes the logger of one define. -/
theorem loggers_carryOver (m : LoggerManager) (i : LogDefine) :
    (carryOver hasD old m i).loggers =
      Function.update m.loggers i.name (carried hasD old i (m.loggers i.name)) := by
  unfold carryOver carried kept
  cases old.find i with
  | none => rfl
  | some it =>
      dsimp only
      split_ifs
      · exact (Function.update_eq_self ..).symm
      · rfl

/-- The second loop writes the logger of one define. -/
theorem loggers_drop (m : LoggerManager) (i : LogDefine) :
    (drop new m i).loggers =
      Function.update m.loggers i.name (dropped new i (m.loggers i.name)) := by
  unfold drop dropped
  cases new.find i with
  | none => rfl
  | some it => exact (Function.update_eq_self ..).symm

/-- The two loops write the loggers of their defines, each once. -/
theorem loggers_onChange (hasD : Bool) (old new : LogDefines) (m : LoggerManager) :
    (onChange hasD old new m).loggers = updateAll LogDefine.name (dropped new) old.defines
      (updateAll LogDefine.name (carried hasD old) new.defines m.loggers) := by
  rw [onChange, foldl_eq_updateAll LoggerManager.loggers (drop new) loggers_drop,
    foldl_eq_updateAll LoggerManager.loggers (carryOver hasD old) loggers_carryOver]

/-- What the listener makes of the logger of a define in the new set.  The second loop leaves it
alone. -/
theorem onChange_new (hi : i ∈ new.defines) :
    (onChange hasD old new m).loggers i.name = carried hasD old i (m.loggers i.name) := by
  have hfirst : updateAll LogDefine.name (carried hasD old) new.defines m.loggers i.name =
      carried hasD old i (m.loggers i.name) := updateAll_of_mem new.names_ne hi
  rw [loggers_onChange]
  by_cases hold : ∀ o ∈ old.defines, o.name ≠ i.name
  · rw [updateAll_of_notMem hold, hfirst]
  · push Not at hold
    obtain ⟨o, ho, hname⟩ := hold
    have hfind : (new.find o).isSome = true := by
      rw [LogDefines.find_eq_some.2 ⟨hi, hname.symm⟩]
      rfl
    rw [← hname, updateAll_of_mem old.names_ne ho, dropped, if_pos hfind, hname, hfirst]

/-- And of the logger of one that is only in the old set.  The first loop does not reach it. -/
theorem onChange_old (hi : i ∈ old.defines) (hnew : ∀ d ∈ new.defines, d.name ≠ i.name) :
    (onChange hasD old new m).loggers i.name = dropped new i (m.loggers i.name) := by
  rw [loggers_onChange, updateAll_of_mem old.names_ne hi, updateAll_of_notMem hnew]

/-- And of the others.  Neither loop reaches them. -/
theorem onChange_other {name : Bytes} (hold : ∀ o ∈ old.defines, o.name ≠ name)
    (hnew : ∀ d ∈ new.defines, d.name ≠ name) :
    (onChange hasD old new m).loggers name = m.loggers name := by
  rw [loggers_onChange, updateAll_of_notMem hold, updateAll_of_notMem hnew]

/-! ### `setValue` -/

/-- Where `operator==` finds no difference, there is none to carry over.  Otherwise the listener
is called. -/
theorem setValue_new (hi : i ∈ new.defines) :
    (setValue hasD new (old, m)).2.loggers i.name = carried hasD old i (m.loggers i.name) := by
  rw [setValue, ConfigVar.setValue]
  split_ifs with heq
  · obtain ⟨o, ho, hbeq⟩ := (exists_beq_of_mem heq).1 i hi
    have hname := (LogDefine.beq_iff.1 hbeq).1
    have hkept : kept old i = true := by
      rw [kept, LogDefines.find_eq_some.2 ⟨ho, hname.symm⟩]
      exact hbeq
    rw [carried, if_pos hkept]
  · exact onChange_new hi

/-- The same of a logger that is only in the old set. -/
theorem setValue_old (hi : i ∈ old.defines) (hnew : ∀ d ∈ new.defines, d.name ≠ i.name) :
    (setValue hasD new (old, m)).2.loggers i.name = dropped new i (m.loggers i.name) := by
  rw [setValue, ConfigVar.setValue]
  split_ifs with heq
  · obtain ⟨d, hd, hbeq⟩ := (exists_beq_of_mem heq).2 i hi
    exact absurd (LogDefine.beq_iff.1 hbeq).1 (hnew d hd)
  · exact onChange_old hi hnew

/-- The same of the other loggers. -/
theorem setValue_other {name : Bytes} (hold : ∀ o ∈ old.defines, o.name ≠ name)
    (hnew : ∀ d ∈ new.defines, d.name ≠ name) :
    (setValue hasD new (old, m)).2.loggers name = m.loggers name := by
  rw [setValue, ConfigVar.setValue]
  split_ifs
  · rfl
  · exact onChange_other hold hnew

/-- The value that was set is the value.  The default is the empty set. -/
theorem setValue_empty_fst (hasD : Bool) (v : LogDefines) (m : LoggerManager) :
    (setValue hasD v (.empty, m)).1 = v := by
  rw [setValue, ConfigVar.setValue]
  split_ifs with heq
  · obtain ⟨defines, hsorted⟩ := v
    have hnil : defines = [] := by
      rw [List.eq_nil_iff_forall_not_mem]
      intro d hd
      obtain ⟨o, ho, -⟩ := (exists_beq_of_mem heq).1 d hd
      cases ho
    subst hnil
    rfl
  · rfl

/-- The first value carries every define over.  None of them compares equal to one before. -/
theorem setValue_empty_new (hi : i ∈ new.defines) :
    (setValue hasD new (.empty, m)).2.logger i.name = configure hasD i (m.logger i.name) := by
  rw [LoggerManager.logger, setValue_new hi]
  rfl

/-! ### Loggers that were never configured -/

/-- The manager after the constructor and look-ups of loggers.  Some loggers may be there
already. -/
def afterLookups (created : List Bytes) : LoggerManager :=
  created.foldl (fun m name => m.getLogger name) .init

/-- What is done to one logger is not done to the others. -/
theorem logger_withLogger (name : Bytes) (f : Logger → Logger) (m : LoggerManager) (x : Bytes) :
    (m.withLogger name f).logger x = if x = name then f (m.logger name) else m.logger x := by
  rw [LoggerManager.logger, LoggerManager.withLogger]
  dsimp only
  rw [Function.update_apply]
  split_ifs with hx
  · rfl
  · rfl

/-- Every logger has the default pattern before it is configured. -/
theorem afterLookups_pattern (created : List Bytes) (name : Bytes) :
    ((afterLookups created).logger name).view.pattern = initial := by
  unfold afterLookups
  have hinit : ∀ x, (LoggerManager.init.logger x).view.pattern = initial := by
    intro x
    rw [LoggerManager.logger, LoggerManager.init]
    dsimp only
    rw [Function.update_apply]
    split_ifs <;> rfl
  generalize LoggerManager.init = m at hinit
  induction created generalizing m with
  | nil => exact hinit name
  | cons c created ih =>
      refine ih (m.getLogger c) fun x => ?_
      rw [LoggerManager.getLogger, logger_withLogger]
      split_ifs with hx
      · exact hinit c
      · exact hinit x

/-! ### Both settings -/

/-- The second setting starts from the first one's value.  It is its old value for the listener. -/
theorem afterBoth_eq (hasD : Bool) (old new : LogDefines) (m : LoggerManager) :
    afterBoth hasD old new m =
      (setValue hasD new (old, (setValue hasD old (.empty, m)).2)).2 := by
  have hpair : setValue hasD old (.empty, m) = (old, (setValue hasD old (.empty, m)).2) :=
    Prod.ext (setValue_empty_fst hasD old m) rfl
  rw [afterBoth, hpair]

/-- What the logger of a define is after `setValue(old)`.  It is configured from scratch. -/
theorem afterOld_view (hm : ∀ name, (m.logger name).view.pattern = initial)
    {o d : LogDefine} (ho : o ∈ old.defines) (hvalid : o.Valid) (hname : o.name = d.name) :
    ((setValue hasD old (.empty, m)).2.logger d.name).view = o.view hasD initial := by
  rw [← hname, setValue_empty_new ho, configure_view hvalid, hm]

/-- A define that is carried over to a logger of the old set.  It is as from scratch unless a
formatter is taken back. -/
theorem view_eq_view_iff (o d : LogDefine) :
    d.view hasD (o.pattern initial) = d.view hasD initial ↔
      d.formatter ≠ [] ∨ o.formatter = [] ∨ o.formatter = LogFormatter.defaultPattern := by
  have hpattern : d.view hasD (o.pattern initial) = d.view hasD initial ↔
      d.pattern (o.pattern initial) = d.pattern initial := by
    constructor
    · intro heq
      exact (LoggerView.mk.inj heq).2.1
    · intro heq
      rw [LogDefine.view, LogDefine.view, heq]
  rw [hpattern, LogDefine.pattern, LogDefine.pattern, LogDefine.pattern]
  by_cases hd : d.formatter = []
  · rw [if_pos hd, if_pos hd]
    by_cases ho : o.formatter = []
    · simp [ho]
    · rw [if_neg ho, initial, Option.some_inj]
      simp [hd, ho]
  · simp [hd]

/-- A define that is not carried over.  It is as from scratch when the appenders look the same. -/
theorem kept_view_iff {o d : LogDefine} (hlevel : o.level = d.level)
    (hformatter : o.formatter = d.formatter) :
    o.view hasD initial = d.view hasD initial ↔
      appenderViews hasD o.appenders (o.pattern initial) =
        appenderViews hasD d.appenders (d.pattern initial) := by
  have hpattern : o.pattern initial = d.pattern initial := by
    rw [LogDefine.pattern, LogDefine.pattern, hformatter]
  constructor
  · intro heq
    exact (LoggerView.mk.inj heq).2.2
  · intro heq
    rw [LogDefine.view, LogDefine.view, heq, hlevel, hpattern]

/-- The two settings, for the logger of one define.  By whether the define is kept or carried
over. -/
theorem afterBoth_new (hm : ∀ name, (m.logger name).view.pattern = initial)
    (hold : ∀ o ∈ old.defines, o.Valid) {d : LogDefine} (hd : d ∈ new.defines) (hvalid : d.Valid) :
    ((afterBoth hasD old new m).logger d.name).view = d.view hasD initial ↔
      ∀ o ∈ old.defines, o.name = d.name → Follows hasD o d := by
  have hboth : (afterBoth hasD old new m).loggers d.name =
      carried hasD old d ((setValue hasD old (.empty, m)).2.loggers d.name) := by
    rw [afterBoth_eq, setValue_new hd]
  by_cases hfound : ∃ o ∈ old.defines, o.name = d.name
  · obtain ⟨o, ho, hname⟩ := hfound
    have hview : ((setValue hasD old (.empty, m)).2.logger d.name).view = o.view hasD initial :=
      afterOld_view hm ho (hold o ho) hname
    have honly : (∀ o' ∈ old.defines, o'.name = d.name → Follows hasD o' d) ↔ Follows hasD o d := by
      refine ⟨fun hall => hall o ho hname, fun hone o' ho' hname' => ?_⟩
      rwa [old.sorted.key_inj ho' ho (LogDefine.key_eq_iff.2 (hname'.trans hname.symm))]
    have hkept : kept old d = (d == o) := by
      rw [kept, LogDefines.find_eq_some.2 ⟨ho, hname⟩]
    rw [honly, Follows]
    by_cases hsame : o.level = d.level ∧ o.formatter = d.formatter
    · have hbeq : (d == o) = true :=
        LogDefine.beq_iff.2 ⟨hname.symm, hsame.1.symm, hsame.2.symm⟩
      rw [if_pos hsame, ← kept_view_iff hsame.1 hsame.2, ← hview, LoggerManager.logger, hboth,
        carried, hkept, if_pos hbeq]
      rfl
    · have hbeq : ¬(d == o) = true := fun h =>
        hsame ⟨(LogDefine.beq_iff.1 h).2.1.symm, (LogDefine.beq_iff.1 h).2.2.symm⟩
      have hpattern : ((setValue hasD old (.empty, m)).2.logger d.name).view.pattern =
          o.pattern initial := congrArg LoggerView.pattern hview
      rw [if_neg hsame, ← view_eq_view_iff o d, LoggerManager.logger, hboth, carried, hkept,
        if_neg hbeq, Option.getD_some, configure_view hvalid]
      rw [← hpattern]
      rfl
  · have hnone : old.find d = none := LogDefines.find_eq_none.2 fun o ho hname =>
      hfound ⟨o, ho, hname⟩
    have hkept : kept old d = false := by rw [kept, hnone]
    refine iff_of_true ?_ fun o ho hname => absurd ⟨o, ho, hname⟩ hfound
    have hother : (setValue hasD old (.empty, m)).2.loggers d.name = m.loggers d.name :=
      setValue_other (fun o ho => by cases ho) fun o ho hname => hfound ⟨o, ho, hname⟩
    rw [LoggerManager.logger, hboth, carried, hkept, if_neg (by decide), Option.getD_some,
      configure_view hvalid, hother]
    exact congrArg _ (hm d.name)

/-- The loggers that are only in the old set have no appenders.  They are cleared by the second
loop. -/
theorem afterBoth_old {o : LogDefine} (ho : o ∈ old.defines)
    (hnew : ∀ d ∈ new.defines, d.name ≠ o.name) :
    ((afterBoth hasD old new m).logger o.name).appenders = [] := by
  have hfind : ¬(new.find o).isSome = true := by
    rw [LogDefines.find_eq_none.2 hnew]
    decide
  rw [LoggerManager.logger, afterBoth_eq, setValue_old ho hnew, dropped, if_neg hfind]
  rfl

/-- **The loggers come out as the new set says**, as if there had been no old one, exactly when
no change is lost on the way.  Loggers that were looked up before may be there; the condition is
computed from the two sets, without the loggers.  The listener is
`src/hiper/base/log.cc:815-879`.  A definition that compares equal is passed over in line 831,
and the comparison in line 700 compares the appenders of the new one with themselves; an empty
formatter is not set, line 837. -/
theorem setValue_settled_iff (hasD : Bool) (created : List Bytes) {old new : LogDefines}
    (hold : ∀ o ∈ old.defines, o.Valid) (hnew : ∀ d ∈ new.defines, d.Valid) :
    Settled hasD old new (afterLookups created) ↔ Converges hasD old new := by
  have hm := afterLookups_pattern created
  have hscratch : ∀ d ∈ new.defines,
      ((setValue hasD new (.empty, afterLookups created)).2.logger d.name).view =
        d.view hasD initial := by
    intro d hd
    rw [setValue_empty_new hd, configure_view (hnew d hd), hm]
  constructor
  · rintro ⟨hsame, -⟩ o ho d hd hname
    have hview := hsame d hd
    rw [hscratch d hd] at hview
    exact (afterBoth_new hm hold hd (hnew d hd)).1 hview o ho hname
  · intro hconv
    refine ⟨fun d hd => ?_, fun o ho hgone => afterBoth_old ho hgone⟩
    rw [hscratch d hd]
    exact (afterBoth_new hm hold hd (hnew d hd)).2 fun o ho hname => hconv o ho d hd hname

/-- A set of one define.  It is ordered. -/
def single (i : LogDefine) : LogDefines := ⟨[i], List.pairwise_singleton ..⟩

/-- The level and the formatter change with the appenders. -/
theorem setValue_settled_level : Settled false
    (single ⟨text "a", .info, text "%m%n", [⟨.stdout, .info, [], []⟩]⟩)
    (single ⟨text "a", .warn, text "%p %m%n", [⟨.file, .info, [], text "a.log"⟩]⟩)
    (afterLookups [text "a", text "b"]) := by
  refine (setValue_settled_iff false [text "a", text "b"] (fun o ho => ?_) (fun d hd => ?_)).2 ?_
  · rw [List.mem_singleton.1 ho]
    exact ⟨fun _ => by decide +kernel, by decide +kernel⟩
  · rw [List.mem_singleton.1 hd]
    exact ⟨fun _ => by decide +kernel, by decide +kernel⟩
  · intro o ho d hd _
    rw [List.mem_singleton.1 ho, List.mem_singleton.1 hd]
    exact Or.inl (by decide)

/-- The appenders change alone: the logger goes on writing to the standard output. -/
theorem setValue_appenders_lost : ¬Settled false
    (single ⟨text "a", .info, [], [⟨.stdout, .info, [], []⟩]⟩)
    (single ⟨text "a", .info, [], [⟨.file, .info, [], text "a.log"⟩]⟩) (afterLookups []) := by
  rintro ⟨hsame, -⟩
  have hview := hsame ⟨text "a", .info, [], [⟨.file, .info, [], text "a.log"⟩]⟩ (by simp [single])
  revert hview
  decide +kernel

end LogIniter

end Hiper

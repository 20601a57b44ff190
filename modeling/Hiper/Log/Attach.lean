import Hiper.Lib.Machine
import Hiper.Log.Logger

/-!
# Appenders and the formatter of their logger

`log.cc`: loggers and appenders that share formatters by pointer.  An appender without
a formatter of its own has a copy of the pointer of its logger, taken by `addAppender`
when it has none, and renewed by `Logger::setFormatter`.

The copy is not dropped when the appender is taken away from its logger, or when its
own formatter is set to null.  So an attached appender has the formatter it should in
every state of a run (`Follows`) exactly when no step makes it otherwise (`Keeps`):
an appender with the copy of another logger's formatter is not added, one that is
attached does not get a null pointer, and neither does a logger with appenders that
rely on it (`follows_iff`).  With the pointers followed, a logger is the one that is
saved and loaded (`Shows`).

The functions are `src/hiper/base/log.cc:86` (`LogAppender::setFormatter`), `:295` and
`:308` (the two `Logger::setFormatter`) and `:348-372` (the lists of appenders).  They are
all under the mutexes of the logger and of the appender, so that a call is one step.  The
last theorems connect these worlds of pointers with the loggers of `Logger`, where an
appender is a value.
-/

namespace Hiper

open Lib StringUtil

/-- `LogFormatter::ptr`, but for the null pointer.  Two of them may be alike and still be two. -/
structure FormatterPtr where
  address : ℕ
  formatter : LogFormatter
  deriving DecidableEq, Repr

/-- What a logger has of a formatter and of appenders, which are numbered.  The list may have an
appender twice. -/
structure LoggerCell where
  formatter : Option FormatterPtr
  appenders : List ℕ
  deriving DecidableEq, Repr

/-- `hasFormatter_` and `formatter_` of an appender.  The pointer may be null. -/
structure AppenderCell where
  hasFormatter : Bool
  formatter : Option FormatterPtr
  deriving DecidableEq, Repr

/-- The loggers and the appenders there are.  There are as many as anyone asks for. -/
structure LogWorld where
  loggers : ℕ → LoggerCell
  appenders : ℕ → AppenderCell

namespace LogWorld

/-- Loggers and appenders as they are constructed.  A logger starts with a formatter of its own,
an appender with none. -/
def init : LogWorld where
  loggers l := ⟨some ⟨l, LogFormatter.new LogFormatter.defaultPattern⟩, []⟩
  appenders _ := ⟨false, none⟩

/-- The world with another cell for a logger. -/
def setLogger (l : ℕ) (cell : LoggerCell) (w : LogWorld) : LogWorld :=
  { w with loggers := Function.update w.loggers l cell }

/-- The world with another cell for an appender. -/
def setAppender (a : ℕ) (cell : AppenderCell) (w : LogWorld) : LogWorld :=
  { w with appenders := Function.update w.appenders a cell }

/-- `addAppender(appender)`.  It takes the logger's pointer when it has none, whether it has a
formatter of its own or not. -/
def addAppender (l a : ℕ) (w : LogWorld) : LogWorld :=
  let logger := w.loggers l
  let appender := w.appenders a
  let w := if appender.formatter = none then
    w.setAppender a { appender with formatter := logger.formatter } else w
  w.setLogger l { logger with appenders := logger.appenders ++ [a] }

/-- `delAppender(appender)`.  The first one in the list that is it. -/
def delAppender (l a : ℕ) (w : LogWorld) : LogWorld :=
  w.setLogger l { w.loggers l with appenders := (w.loggers l).appenders.erase a }

/-- `clearAppenders()`.  The appenders keep what they have. -/
def clearAppenders (l : ℕ) (w : LogWorld) : LogWorld :=
  w.setLogger l { w.loggers l with appenders := [] }

/-- The body of the loop over the appenders.  An appender with a formatter of its own keeps it. -/
def refresh (val : Option FormatterPtr) (w : LogWorld) (a : ℕ) : LogWorld :=
  if (w.appenders a).hasFormatter then w
  else w.setAppender a { w.appenders a with formatter := val }

/-- `Logger::setFormatter(LogFormatter::ptr)`.  A null pointer is passed on. -/
def setFormatterPtr (l : ℕ) (val : Option FormatterPtr) (w : LogWorld) : LogWorld :=
  (w.loggers l).appenders.foldl (refresh val) (w.setLogger l { w.loggers l with formatter := val })

/-- `Logger::setFormatter(const std::string&)`, with the address of the new formatter.  A
pattern with an error changes nothing. -/
def setFormatter (l address : ℕ) (val : Bytes) (w : LogWorld) : LogWorld :=
  let newVal := LogFormatter.new val
  if newVal.isError then w else w.setFormatterPtr l (some ⟨address, newVal⟩)

/-- `LogAppender::setFormatter(val)`.  A null pointer takes the own formatter away, and gives
none instead. -/
def setAppenderFormatter (a : ℕ) (val : Option FormatterPtr) (w : LogWorld) : LogWorld :=
  w.setAppender a ⟨val.isSome, val⟩

/-- The calls.  They are made from anywhere, in any order. -/
inductive Call
  | addAppender (l a : ℕ)
  | delAppender (l a : ℕ)
  | clearAppenders (l : ℕ)
  | setFormatterPtr (l : ℕ) (val : Option FormatterPtr)
  | setFormatter (l address : ℕ) (val : Bytes)
  | setAppenderFormatter (a : ℕ) (val : Option FormatterPtr)
  deriving DecidableEq, Repr

/-- A call, which is always possible.  None of them can fail. -/
def step : Call → LogWorld → Option LogWorld
  | .addAppender l a, w => some (w.addAppender l a)
  | .delAppender l a, w => some (w.delAppender l a)
  | .clearAppenders l, w => some (w.clearAppenders l)
  | .setFormatterPtr l val, w => some (w.setFormatterPtr l val)
  | .setFormatter l address val, w => some (w.setFormatter l address val)
  | .setAppenderFormatter a val, w => some (w.setAppenderFormatter a val)

/-- The appender is in the list of the logger.  It may be attached to others. -/
def Attached (l a : ℕ) (w : LogWorld) : Prop := a ∈ (w.loggers l).appenders

/-- The list is looked through. -/
instance (l a : ℕ) (w : LogWorld) : Decidable (w.Attached l a) :=
  inferInstanceAs (Decidable (a ∈ (w.loggers l).appenders))

/-- Every attached appender has a formatter, and without one of its own it is the logger's.  A
logger's own pointer may be null, as far as this goes. -/
def Follows (w : LogWorld) : Prop :=
  ∀ l a, w.Attached l a → (w.appenders a).formatter ≠ none ∧
    ((w.appenders a).hasFormatter = false → (w.appenders a).formatter = (w.loggers l).formatter)

/-- An appender is added that is attached to no other logger.  It may be added to the same one
again. -/
def AddsFree : Call → LogWorld → Prop
  | .addAppender l a, w => ∀ l', w.Attached l' a → l' = l
  | _, _ => True

/-- What a call must not do, for the attached appenders to keep their formatters.  It is a
condition on the state before the call and on its arguments. -/
def Keeps : Call → LogWorld → Prop
  | .addAppender l a, w => (w.appenders a).hasFormatter = true ∨
      (w.loggers l).formatter ≠ none ∧
        ((w.appenders a).formatter = none ∨ (w.appenders a).formatter = (w.loggers l).formatter)
  | .setFormatterPtr l val, w =>
    val ≠ none ∨ ∀ a, w.Attached l a → (w.appenders a).hasFormatter = true
  | .setAppenderFormatter a val, w => val ≠ none ∨ ∀ l, ¬w.Attached l a
  | .delAppender _ _, _ | .clearAppenders _, _ | .setFormatter _ _ _, _ => True

/-- Every call keeps: an appender is attached to one logger, and has the formatter it says.  It
is the invariant of the runs in which appenders are free when they are added. -/
structure Tracked (w : LogWorld) : Prop where
  attached_unique {l l' a} : w.Attached l a → w.Attached l' a → l = l'
  has_formatter {a} : (w.appenders a).hasFormatter = true → (w.appenders a).formatter ≠ none

/-! ### What a call does -/

section Calls

variable {w : LogWorld}

/-- One logger has the other cell. -/
theorem loggers_setLogger (l l' : ℕ) (cell : LoggerCell) :
    (w.setLogger l cell).loggers l' = if l' = l then cell else w.loggers l' :=
  Function.update_apply ..

@[simp]
theorem appenders_setLogger (l : ℕ) (cell : LoggerCell) :
    (w.setLogger l cell).appenders = w.appenders := rfl

/-- One appender has the other cell. -/
theorem appenders_setAppender (a a' : ℕ) (cell : AppenderCell) :
    (w.setAppender a cell).appenders a' = if a' = a then cell else w.appenders a' :=
  Function.update_apply ..

@[simp]
theorem loggers_setAppender (a : ℕ) (cell : AppenderCell) :
    (w.setAppender a cell).loggers = w.loggers := rfl

/-- The loop renews the pointer of every appender of the list that has none of its own.  The
induction is over the list. -/
theorem refresh_all (val : Option FormatterPtr) (as : List ℕ) (w : LogWorld) :
    (as.foldl (refresh val) w).loggers = w.loggers ∧
      ∀ a, (as.foldl (refresh val) w).appenders a =
        if a ∈ as ∧ (w.appenders a).hasFormatter = false then ⟨false, val⟩ else w.appenders a := by
  induction as generalizing w with
  | nil => exact ⟨rfl, fun a => (if_neg (by simp)).symm⟩
  | cons b as ih =>
      obtain ⟨hloggers, happenders⟩ := ih (refresh val w b)
      have hb : (refresh val w b).loggers = w.loggers := by
        rw [refresh]
        split_ifs <;> rfl
      have hcell : ∀ a, (refresh val w b).appenders a =
          if a = b ∧ (w.appenders a).hasFormatter = false then ⟨false, val⟩
          else w.appenders a := by
        intro a
        rw [refresh]
        cases hhas : (w.appenders b).hasFormatter with
        | true =>
            refine (if_neg ?_).symm
            rintro ⟨rfl, hno⟩
            exact Bool.noConfusion (hhas.symm.trans hno)
        | false =>
            rw [if_neg Bool.false_ne_true, appenders_setAppender]
            by_cases hab : a = b
            · subst hab
              rw [if_pos rfl, if_pos ⟨rfl, hhas⟩]
              exact congrArg (AppenderCell.mk · val) hhas
            · rw [if_neg hab, if_neg fun h => hab h.1]
      refine ⟨hloggers.trans hb, fun a => ?_⟩
      rw [List.foldl_cons, happenders, hcell]
      by_cases hab : a = b ∧ (w.appenders a).hasFormatter = false
      · have hall : a ∈ b :: as ∧ (w.appenders a).hasFormatter = false :=
          ⟨List.mem_cons.2 (.inl hab.1), hab.2⟩
        rw [if_pos hab, if_pos hall]
        split_ifs <;> rfl
      · rw [if_neg hab]
        exact if_congr (by rw [List.mem_cons]; tauto) rfl rfl

/-- What is attached when the list of a logger has changed.  The lists of the others stay. -/
theorem attached_setLogger {l l' a : ℕ} {cell : LoggerCell} :
    (w.setLogger l cell).Attached l' a ↔
      if l' = l then a ∈ cell.appenders else w.Attached l' a := by
  rw [Attached, loggers_setLogger]
  split_ifs <;> rfl

/-- The formatters when a logger has changed. -/
theorem formatter_setLogger {l l' : ℕ} {cell : LoggerCell} :
    ((w.setLogger l cell).loggers l').formatter =
      if l' = l then cell.formatter else (w.loggers l').formatter := by
  rw [loggers_setLogger]
  split_ifs <;> rfl

/-- `a` is added to `l`.  Its pointer may change, too. -/
structure Adds (l a : ℕ) (w w' : LogWorld) : Prop where
  attached {l' a'} : w'.Attached l' a' ↔ w.Attached l' a' ∨ l' = l ∧ a' = a
  formatter (l') : (w'.loggers l').formatter = (w.loggers l').formatter
  added : w'.appenders a = if (w.appenders a).formatter = none then
    ⟨(w.appenders a).hasFormatter, (w.loggers l).formatter⟩ else w.appenders a
  others {a'} : a' ≠ a → w'.appenders a' = w.appenders a'

/-- Appenders are taken away, if anything is done.  No pointer changes. -/
structure Fewer (w w' : LogWorld) : Prop where
  attached {l a} : w'.Attached l a → w.Attached l a
  formatter (l) : (w'.loggers l).formatter = (w.loggers l).formatter
  appenders : w'.appenders = w.appenders

/-- The formatter of `l` is now `val`.  Those who have none of their own get it. -/
structure Renews (l : ℕ) (val : Option FormatterPtr) (w w' : LogWorld) : Prop where
  attached {l' a} : w'.Attached l' a ↔ w.Attached l' a
  formatter : (w'.loggers l).formatter = val
  others {l'} : l' ≠ l → (w'.loggers l').formatter = (w.loggers l').formatter
  appenders (a) : w'.appenders a =
    if w.Attached l a ∧ (w.appenders a).hasFormatter = false then ⟨false, val⟩ else w.appenders a

/-- `addAppender` adds. -/
theorem addAppender_adds (l a : ℕ) (w : LogWorld) : Adds l a w (w.addAppender l a) := by
  have hloggers : (w.addAppender l a).loggers =
      (w.setLogger l ⟨(w.loggers l).formatter, (w.loggers l).appenders ++ [a]⟩).loggers := by
    rw [addAppender]
    split_ifs <;> rfl
  refine ⟨fun {l' a'} => ?_, fun l' => ?_, ?_, fun {a'} ha => ?_⟩
  · rw [Attached, hloggers]
    refine attached_setLogger.trans ?_
    by_cases hl : l' = l
    · subst hl
      simp [Attached]
    · simp [hl]
  · rw [hloggers, formatter_setLogger]
    split_ifs with hl
    · rw [hl]
    · rfl
  · rw [addAppender]
    split_ifs
    · exact (appenders_setAppender a a _).trans (if_pos rfl)
    · rfl
  · rw [addAppender]
    split_ifs
    · exact (appenders_setAppender a a' _).trans (if_neg ha)
    · rfl

/-- A list with some of the appenders takes some away. -/
theorem setLogger_fewer {l : ℕ} {as : List ℕ} (has : ∀ a ∈ as, w.Attached l a) :
    Fewer w (w.setLogger l { w.loggers l with appenders := as }) := by
  refine ⟨fun {l' a} h => ?_, fun l' => ?_, rfl⟩
  · rw [attached_setLogger] at h
    split_ifs at h with hl
    · exact hl ▸ has a h
    · exact h
  · rw [formatter_setLogger]
    split_ifs with hl
    · rw [hl]
    · rfl

/-- `delAppender` takes one away. -/
theorem delAppender_fewer (l a : ℕ) (w : LogWorld) : Fewer w (w.delAppender l a) :=
  setLogger_fewer fun _ => List.mem_of_mem_erase

/-- `clearAppenders` takes all away. -/
theorem clearAppenders_fewer (l : ℕ) (w : LogWorld) : Fewer w (w.clearAppenders l) :=
  setLogger_fewer fun _ h => absurd h List.not_mem_nil

/-- `setFormatter` renews. -/
theorem setFormatterPtr_renews (l : ℕ) (val : Option FormatterPtr) (w : LogWorld) :
    Renews l val w (w.setFormatterPtr l val) := by
  obtain ⟨hloggers, happenders⟩ := refresh_all val (w.loggers l).appenders
    (w.setLogger l { w.loggers l with formatter := val })
  have hformatter : ∀ l', ((w.setFormatterPtr l val).loggers l').formatter =
      if l' = l then val else (w.loggers l').formatter := by
    intro l'
    rw [setFormatterPtr, hloggers]
    exact formatter_setLogger
  refine ⟨fun {l' a} => ?_, by rw [hformatter, if_pos rfl], fun hl => by rw [hformatter, if_neg hl],
    happenders⟩
  rw [Attached, setFormatterPtr, hloggers]
  refine attached_setLogger.trans ?_
  split_ifs with hl
  · rw [hl]
    rfl
  · rfl

end Calls

/-! ### One step -/

section Steps

variable {w w' : LogWorld} {l a : ℕ} {val : Option FormatterPtr}

/-- **What a call does**: it adds, takes away, renews, or sets an appender's own formatter, and
with each case comes what `Keeps` says of it. -/
theorem step_cases {c : Call} (hstep : step c w = some w') :
    (∃ l a, c = .addAppender l a ∧ Adds l a w w') ∨
      (Keeps c w ∧ Fewer w w') ∨
      (∃ l val, (Keeps c w ↔ val ≠ none ∨
        ∀ a, w.Attached l a → (w.appenders a).hasFormatter = true) ∧ Renews l val w w') ∨
      ∃ a val, c = .setAppenderFormatter a val ∧ w' = w.setAppender a ⟨val.isSome, val⟩ := by
  cases c with
  | addAppender l a =>
      obtain rfl := Option.some.inj hstep
      exact .inl ⟨l, a, rfl, addAppender_adds l a w⟩
  | delAppender l a =>
      obtain rfl := Option.some.inj hstep
      exact .inr (.inl ⟨trivial, delAppender_fewer l a w⟩)
  | clearAppenders l =>
      obtain rfl := Option.some.inj hstep
      exact .inr (.inl ⟨trivial, clearAppenders_fewer l w⟩)
  | setFormatterPtr l val =>
      obtain rfl := Option.some.inj hstep
      exact .inr (.inr (.inl ⟨l, val, Iff.rfl, setFormatterPtr_renews l val w⟩))
  | setFormatter l address val =>
      have hw : w.setFormatter l address val = w' := Option.some.inj hstep
      rw [setFormatter] at hw
      split_ifs at hw
      · -- the pattern is an error
        obtain rfl := hw
        exact .inr (.inl ⟨trivial, id, fun _ => rfl, rfl⟩)
      · obtain rfl := hw
        exact .inr (.inr (.inl ⟨l, some _, iff_of_true trivial (.inl (by simp)),
          setFormatterPtr_renews l _ w⟩))
  | setAppenderFormatter a val =>
      obtain rfl := Option.some.inj hstep
      exact .inr (.inr (.inr ⟨a, val, rfl, rfl⟩))

/-- An appender that is added says the same of a formatter of its own, and keeps the pointer it
has. -/
theorem Adds.has_formatter (hw : Adds l a w w') : (w'.appenders a).hasFormatter =
    (w.appenders a).hasFormatter ∧ ((w.appenders a).formatter ≠ none →
      (w'.appenders a).formatter = (w.appenders a).formatter) := by
  rw [hw.added]
  split_ifs with hnone
  · exact ⟨rfl, fun h => absurd hnone h⟩
  · exact ⟨rfl, fun _ => rfl⟩

/-- An addition keeps the invariant. -/
theorem Tracked.adds (h : w.Tracked) (hfree : ∀ l', w.Attached l' a → l' = l)
    (hw : Adds l a w w') : w'.Tracked where
  attached_unique {l₁ l₂ a'} h₁ h₂ := by
    rcases hw.attached.1 h₁ with h₁ | ⟨rfl, rfl⟩
    · rcases hw.attached.1 h₂ with h₂ | ⟨rfl, rfl⟩
      · exact h.attached_unique h₁ h₂
      · exact hfree l₁ h₁
    · rcases hw.attached.1 h₂ with h₂ | ⟨rfl, -⟩
      · exact (hfree l₂ h₂).symm
      · rfl
  has_formatter {a'} hhas := by
    by_cases ha : a' = a
    · subst ha
      rw [hw.has_formatter.1] at hhas
      rw [hw.has_formatter.2 (h.has_formatter hhas)]
      exact h.has_formatter hhas
    · rw [hw.others ha] at hhas ⊢
      exact h.has_formatter hhas

/-- Taking away keeps the invariant. -/
theorem Tracked.fewer (h : w.Tracked) (hw : Fewer w w') : w'.Tracked where
  attached_unique h₁ h₂ := h.attached_unique (hw.attached h₁) (hw.attached h₂)
  has_formatter hhas := by
    rw [hw.appenders] at hhas ⊢
    exact h.has_formatter hhas

/-- A renewal keeps the invariant. -/
theorem Tracked.renews (h : w.Tracked) (hw : Renews l val w w') : w'.Tracked where
  attached_unique h₁ h₂ := h.attached_unique (hw.attached.1 h₁) (hw.attached.1 h₂)
  has_formatter {a'} hhas := by
    rw [hw.appenders] at hhas ⊢
    split_ifs at hhas ⊢
    exact h.has_formatter hhas

/-- Setting an appender's own formatter keeps the invariant. -/
theorem Tracked.setAppender (h : w.Tracked) (a : ℕ) (val : Option FormatterPtr) :
    (w.setAppender a ⟨val.isSome, val⟩).Tracked where
  attached_unique h₁ h₂ := h.attached_unique h₁ h₂
  has_formatter {a'} hhas := by
    rw [appenders_setAppender] at hhas ⊢
    split_ifs at hhas ⊢
    · exact Option.isSome_iff_ne_none.1 hhas
    · exact h.has_formatter hhas

/-- Every call keeps the invariant, by cases on what it does. -/
theorem Tracked.step (h : w.Tracked) {c : Call} (hfree : AddsFree c w)
    (hstep : LogWorld.step c w = some w') : w'.Tracked := by
  rcases step_cases hstep with ⟨l, a, rfl, hw⟩ | ⟨-, hw⟩ | ⟨l, val, -, hw⟩ | ⟨a, val, -, rfl⟩
  · exact h.adds hfree hw
  · exact h.fewer hw
  · exact h.renews hw
  · exact h.setAppender a val

/-- After an addition appenders follow exactly when the new one does. -/
theorem Follows.adds_iff (h : w.Follows) (ht : w.Tracked) (hfree : ∀ l', w.Attached l' a → l' = l)
    (hw : Adds l a w w') : w'.Follows ↔ Keeps (.addAppender l a) w := by
  obtain ⟨hhas, hkept⟩ := hw.has_formatter
  constructor
  · intro hfollows
    obtain ⟨hne, heq⟩ := hfollows l a (hw.attached.2 (.inr ⟨rfl, rfl⟩))
    rw [hhas, hw.formatter] at heq
    cases hcase : (w.appenders a).hasFormatter with
    | true => exact .inl hcase
    | false =>
        have hnew := heq hcase
        refine .inr ⟨hnew ▸ hne, ?_⟩
        by_cases hnone : (w.appenders a).formatter = none
        · exact .inl hnone
        · exact .inr (hkept hnone ▸ hnew)
  · intro hkeeps l' a' hattached
    by_cases ha : a' = a
    · subst ha
      obtain rfl : l' = l := by
        rcases hw.attached.1 hattached with hattached | ⟨hl, -⟩
        · exact hfree l' hattached
        · exact hl
      rw [hhas, hw.formatter]
      rcases hkeeps with hown | ⟨hlogger, hnone | heq⟩
      · rw [hkept (ht.has_formatter hown)]
        exact ⟨ht.has_formatter hown, fun hno => absurd (hown.symm.trans hno) Bool.noConfusion⟩
      · rw [hw.added, if_pos hnone]
        exact ⟨hlogger, fun _ => rfl⟩
      · rw [hkept (heq ▸ hlogger)]
        exact ⟨heq ▸ hlogger, fun _ => heq⟩
    · rw [hw.others ha, hw.formatter]
      rcases hw.attached.1 hattached with hattached | ⟨-, heq⟩
      · exact h l' a' hattached
      · exact absurd heq ha

/-- After taking away appenders follow if they did. -/
theorem Follows.fewer (h : w.Follows) (hw : Fewer w w') : w'.Follows := by
  intro l a hattached
  rw [hw.appenders, hw.formatter]
  exact h l a (hw.attached hattached)

/-- After a renewal appenders follow, unless a null pointer went to one of them. -/
theorem Follows.renews_iff (h : w.Follows) (ht : w.Tracked) (hw : Renews l val w w') :
    w'.Follows ↔ val ≠ none ∨ ∀ a, w.Attached l a → (w.appenders a).hasFormatter = true := by
  constructor
  · intro hfollows
    by_cases hval : val = none
    · refine .inr fun a hattached => ?_
      by_contra hno
      have hne := (hfollows l a (hw.attached.2 hattached)).1
      rw [hw.appenders, if_pos ⟨hattached, by simpa using hno⟩] at hne
      exact hne hval
    · exact .inl hval
  · intro hkeeps l' a hattached
    have hold := hw.attached.1 hattached
    rw [hw.appenders]
    split_ifs with hcopy
    · -- the copy is renewed
      have hval : val ≠ none := hkeeps.resolve_right fun hall =>
        absurd ((hall a hcopy.1).symm.trans hcopy.2) Bool.noConfusion
      rw [ht.attached_unique hold hcopy.1, hw.formatter]
      exact ⟨hval, fun _ => rfl⟩
    · refine ⟨(h l' a hold).1, fun hno => ?_⟩
      have hl : l' ≠ l := by
        rintro rfl
        exact hcopy ⟨hold, hno⟩
      rw [hw.others hl]
      exact (h l' a hold).2 hno

/-- After setting an appender's own formatter appenders follow, unless it was taken away from
one that is attached. -/
theorem Follows.setAppender_iff (h : w.Follows) (a : ℕ) (val : Option FormatterPtr) :
    (w.setAppender a ⟨val.isSome, val⟩).Follows ↔ val ≠ none ∨ ∀ l, ¬w.Attached l a := by
  constructor
  · intro hfollows
    by_cases hval : val = none
    · refine .inr fun l hattached => ?_
      have hne := (hfollows l a hattached).1
      rw [appenders_setAppender, if_pos rfl] at hne
      exact hne hval
    · exact .inl hval
  · intro hkeeps l a' hattached
    rw [appenders_setAppender]
    split_ifs with ha
    · subst ha
      have hval : val ≠ none := hkeeps.resolve_right fun hall => hall l hattached
      refine ⟨hval, fun hno => ?_⟩
      exact absurd ((Option.isSome_iff_ne_none.2 hval).symm.trans hno) Bool.noConfusion
    · exact h l a' hattached

/-- A call keeps the formatters of the attached appenders exactly when it meets `Keeps`.  By
cases on what the call does. -/
theorem Follows.step_iff (h : w.Follows) (ht : w.Tracked) {c : Call} (hfree : AddsFree c w)
    (hstep : LogWorld.step c w = some w') : w'.Follows ↔ Keeps c w := by
  rcases step_cases hstep with ⟨l, a, rfl, hw⟩ | ⟨hkeeps, hw⟩ | ⟨l, val, hkeeps, hw⟩ |
    ⟨a, val, rfl, rfl⟩
  · exact h.adds_iff ht hfree hw
  · exact iff_of_true (h.fewer hw) hkeeps
  · exact (h.renews_iff ht hw).trans hkeeps.symm
  · exact h.setAppender_iff a val

end Steps

/-! ### Whole runs -/

/-- At the start no appender is attached. -/
theorem init_tracked : init.Tracked where
  attached_unique h _ := absurd h List.not_mem_nil
  has_formatter h := Bool.noConfusion h

/-- At the start nobody has to follow. -/
theorem init_follows : init.Follows := fun _ _ h => absurd h List.not_mem_nil

/-- **Appenders follow their logger's formatter** in the runs in which every call keeps what it
should, and in no other, as long as no appender is attached to two loggers.  A call that does
not meet `Keeps` leaves an appender whose lines are in another format than its logger's, or none
at all.  Of the calls it is asked that they add no appender that another logger has.  The calls
are `src/hiper/base/log.cc:86-102`, `:295-319` and `:348-389`.
`LogAppender::setFormatter(nullptr)` clears `hasFormatter_` and the formatter, and only the next
`Logger::setFormatter` gives it one again. -/
theorem follows_iff (cs : List Call) (w : LogWorld) (hrun : run step cs init = some w)
    (hfree : Meets step AddsFree cs init) :
    Always step Follows cs init ↔ Meets step Keeps cs init :=
  Meets.always_iff (fun _ _ _ ht hfree hstep => ht.step hfree hstep)
    (fun _ _ _ ht hfree h hstep => h.step_iff ht hfree hstep) init_tracked init_follows hfree hrun

/-- An appender is added and the logger gets another formatter, which the appender then has. -/
theorem follows_renewed : ∃ w, run step [.addAppender 0 0, .setFormatter 0 7 (text "%m%n")] init =
    some w ∧ Always step Follows [.addAppender 0 0, .setFormatter 0 7 (text "%m%n")] init := by
  have hfree : Meets step AddsFree [.addAppender 0 0, .setFormatter 0 7 (text "%m%n")] init :=
    ⟨fun _ hattached => absurd hattached List.not_mem_nil, fun _ _ => ⟨trivial, fun _ _ => trivial⟩⟩
  exact ⟨_, rfl, (follows_iff _ _ rfl hfree).2
    ⟨.inr ⟨Option.some_ne_none _, .inl rfl⟩, fun _ _ => ⟨trivial, fun _ _ => trivial⟩⟩⟩

/-- The formatter of an appender is taken away again: it has none, and not that of its logger. -/
theorem not_follows_reset : ¬∀ (cs : List Call) (w : LogWorld), run step cs init = some w →
    Meets step AddsFree cs init → Always step Follows cs init := by
  intro hall
  have halways := hall [.addAppender 0 0, .setAppenderFormatter 0 none] _ rfl
    ⟨fun _ h => absurd h List.not_mem_nil, fun _ _ => ⟨trivial, fun _ _ => trivial⟩⟩
  have hattached : ((init.addAppender 0 0).setAppenderFormatter 0 none).Attached 0 0 :=
    List.mem_singleton_self 0
  exact (halways.final rfl 0 0 hattached).1 rfl

end LogWorld

/-! ### A logger by its pointers and by its values -/

/-- `hasFormatter_` and the formatter behind the pointer.  It is what the appender's lines look
like. -/
def AppenderCell.value (cell : AppenderCell) : Bool × Option LogFormatter :=
  (cell.hasFormatter, cell.formatter.map FormatterPtr.formatter)

/-- The same of an appender that is a value.  The two are compared. -/
def LogAppender.value (ap : LogAppender) : Bool × Option LogFormatter :=
  (ap.hasFormatter, ap.formatter)

namespace LogWorld

/-- The logger `l` and its appenders, with the pointers followed, are those of `logger`.  The
appenders are in the same order. -/
structure Shows (w : LogWorld) (l : ℕ) (logger : Logger) : Prop where
  formatter : (w.loggers l).formatter.map FormatterPtr.formatter = logger.formatter
  appenders : (w.loggers l).appenders.map (fun a => (w.appenders a).value) =
    logger.appenders.map LogAppender.value

section Values

variable {w : LogWorld} {l : ℕ} {logger : Logger}

/-- The logger's formatter, set on both sides. -/
theorem Shows.setFormatterPtr (h : w.Shows l logger) (val : Option FormatterPtr) :
    (w.setFormatterPtr l val).Shows l
      (logger.setFormatterPtr (val.map FormatterPtr.formatter)) := by
  have hw := setFormatterPtr_renews l val w
  refine ⟨by rw [hw.formatter]; rfl, ?_⟩
  -- what becomes of an appender, by its value
  let renew : Bool × Option LogFormatter → Bool × Option LogFormatter := fun v =>
    if v.1 then v else (v.1, val.map FormatterPtr.formatter)
  have hworld : ∀ a ∈ (w.loggers l).appenders,
      ((w.setFormatterPtr l val).appenders a).value = renew (w.appenders a).value := by
    intro a ha
    rw [hw.appenders]
    cases hhas : (w.appenders a).hasFormatter with
    | true => simp [renew, AppenderCell.value, hhas]
    | false => simp [renew, AppenderCell.value, hhas, Attached, ha]
  have hvalue : ∀ ap : LogAppender, LogAppender.value (if ap.hasFormatter then ap else
      { ap with formatter := val.map FormatterPtr.formatter }) = renew ap.value := by
    intro ap
    simp only [renew, LogAppender.value]
    split_ifs <;> rfl
  have hlist : ((w.setFormatterPtr l val).loggers l).appenders = (w.loggers l).appenders := by
    rw [LogWorld.setFormatterPtr, (refresh_all val _ _).1, loggers_setLogger, if_pos rfl]
  calc ((w.setFormatterPtr l val).loggers l).appenders.map
        (fun a => ((w.setFormatterPtr l val).appenders a).value)
      = (w.loggers l).appenders.map (renew ∘ fun a => (w.appenders a).value) := by
        rw [hlist]
        exact List.map_congr_left hworld
    _ = (logger.appenders.map LogAppender.value).map renew := by
        rw [← List.map_map, h.appenders]
    _ = _ := by
        rw [List.map_map, Logger.setFormatterPtr, List.map_map]
        exact List.map_congr_left fun ap _ => (hvalue ap).symm

/-- A pattern, set on both sides. -/
theorem Shows.setFormatter (h : w.Shows l logger) (address : ℕ) (val : Bytes) :
    (w.setFormatter l address val).Shows l (logger.setFormatter val) := by
  rw [LogWorld.setFormatter, Logger.setFormatter]
  split_ifs
  · exact h
  · exact h.setFormatterPtr (some ⟨address, LogFormatter.new val⟩)

/-- The list, emptied on both sides. -/
theorem Shows.clearAppenders (h : w.Shows l logger) :
    (w.clearAppenders l).Shows l logger.clearAppenders := by
  have hloggers : (w.clearAppenders l).loggers l = { w.loggers l with appenders := [] } := by
    rw [LogWorld.clearAppenders, loggers_setLogger, if_pos rfl]
  refine ⟨?_, ?_⟩
  · rw [hloggers]
    exact h.formatter
  · rw [hloggers]
    rfl

/-- An appender that the logger does not have yet, since a value is not in two places.  It is at
the end of both lists. -/
theorem Shows.addAppender (h : w.Shows l logger) {a : ℕ} {ap : LogAppender}
    (hap : (w.appenders a).value = ap.value) (hnew : ¬w.Attached l a) :
    (w.addAppender l a).Shows l (logger.addAppender ap) := by
  have hw := addAppender_adds l a w
  have hlist : ((w.addAppender l a).loggers l).appenders = (w.loggers l).appenders ++ [a] := by
    rw [LogWorld.addAppender]
    split_ifs <;> rw [loggers_setLogger, if_pos rfl]
  refine ⟨(congrArg _ (hw.formatter l)).trans h.formatter, ?_⟩
  rw [hlist, Logger.addAppender, List.map_append, List.map_append, ← h.appenders]
  refine congrArg₂ (· ++ ·) (List.map_congr_left fun a' ha' => ?_) ?_
  · rw [hw.others fun heq => hnew (heq ▸ ha')]
  · have hnone : ap.formatter.isNone = true ↔ (w.appenders a).formatter = none := by
      have hformatter : (w.appenders a).formatter.map FormatterPtr.formatter = ap.formatter :=
        (Prod.ext_iff.1 hap).2
      simp [← hformatter]
    refine congrArg (fun v => [v]) ?_
    show ((w.addAppender l a).appenders a).value = _
    rw [hw.added]
    split_ifs with hcell hvalue hvalue
    · -- the pointer of the logger is taken
      exact Prod.ext (Prod.ext_iff.1 hap).1 h.formatter
    · exact absurd (hnone.2 hcell) hvalue
    · exact absurd (hnone.1 hvalue) hcell
    · exact hap

end Values

end LogWorld

end Hiper

import Hiper.Lib.Narrow
import Hiper.Timer.Invariant

/-!
# Hooked sleeps

`sleep`, `usleep` and `nanosleep` of `hook.cc`, up to `yield()`: each adds a timer that
schedules the fiber again.  The milliseconds go through a different type in each, an
`unsigned` product, an `unsigned` quotient, and an `int` that becomes a `uint64_t` with its
sign.  The timer is armed with what was asked for, and not for a time gone by, exactly if
these types and the clock hold it (`arms_requested_iff`).

The functions are `hook.cc:201` (`sleep`), `hook.cc:220` (`usleep`) and `hook.cc:232`
(`nanosleep`), and the timer they add is that of `timer.cc:101`.  What `yield` and the
callback do is not looked at here: a fiber that is woken by its timer sleeps as long as the
timer was armed for.  The clock is `GetElapsedMS`, a `uint64_t` of milliseconds, so that the
expiration is a sum that may wrap as well.
-/

namespace Hiper

open Lib

/-- `struct timespec`.  The two fields are signed, of 64 bits. -/
structure Timespec where
  tvSec : ℤ
  tvNsec : ℤ
  deriving DecidableEq, Repr

/-- Where a hooked call finds the machine: whether hooks are enabled in the thread, the clock
reading, the address of the new timer, and the callback that schedules the fiber.  It stays the
same during a call. -/
structure SleepEnv where
  hookEnable : Bool
  now : ℕ
  addr : ℕ
  resume : Callback

/-- What the three functions do with the milliseconds: `addTimer(ms, ...)`, whose answer is
whether the caller notifies.  None when the original function is called. -/
def SleepEnv.addTimer (env : SleepEnv) (ms : ℕ) (m : TimerManger) : Option (Bool × TimerManger) :=
  if env.hookEnable then some (m.addTimer env.addr env.now ms (some env.resume) false) else none

/-- `sleep(seconds)`.  The product is one of `unsigned int`s (`hook.cc:201`). -/
def sleep (seconds : UInt32) (env : SleepEnv) (m : TimerManger) : Option (Bool × TimerManger) :=
  env.addTimer (seconds * 1000).toNat m

/-- `usleep(usec)`.  The quotient is rounded down (`hook.cc:220`). -/
def usleep (usec : UInt32) (env : SleepEnv) (m : TimerManger) : Option (Bool × TimerManger) :=
  env.addTimer (usec / 1000).toNat m

/-- `timeout_ms` of `nanosleep`, an `int`.  A `long` holds the sum.  It is converted to `int`
where it is stored (`hook.cc:238`). -/
def timeoutMs (req : Timespec) : ℤ :=
  narrow 32 (req.tvSec * 1000 + (req.tvNsec.tdiv 1000).tdiv 1000)

/-- `nanosleep(req, rem)`.  The `int` becomes a `uint64_t` on the way to `addTimer`
(`hook.cc:232`). -/
def nanosleep (req : Timespec) (env : SleepEnv) (m : TimerManger) : Option (Bool × TimerManger) :=
  env.addTimer (timeoutMs req % 2 ^ 64).toNat m

/-- A call of one of them.  With the argument that it has. -/
inductive SleepCall
  | sleep (seconds : UInt32)
  | usleep (usec : UInt32)
  | nanosleep (req : Timespec)

namespace SleepCall

/-- The call, made. -/
def exec : SleepCall → SleepEnv → TimerManger → Option (Bool × TimerManger)
  | .sleep seconds => Hiper.sleep seconds
  | .usleep usec => Hiper.usleep usec
  | .nanosleep req => Hiper.nanosleep req

/-- The duration that is asked for, in nanoseconds.  It may be larger than any of the types
holds. -/
def duration : SleepCall → ℤ
  | .sleep seconds => seconds.toNat * 1000000000
  | .usleep usec => usec.toNat * 1000
  | .nanosleep req => req.tvSec * 1000000000 + req.tvNsec

/-- In whole milliseconds.  It is rounded down where the call is finer. -/
def requested (c : SleepCall) : ℤ := c.duration / 1000000

/-- The arguments are a duration of less than `2 ^ 31` seconds.  What the standard asks of a
`timespec`, and seconds that a signed `time_t` of 32 bits holds. -/
def Valid : SleepCall → Prop
  | .nanosleep req => (0 ≤ req.tvSec ∧ req.tvSec < 2 ^ 31) ∧ 0 ≤ req.tvNsec ∧ req.tvNsec < 1000000000
  | _ => True

/-- The type that the milliseconds go through holds them.  For `sleep` the product, for
`nanosleep` the sum; the quotient of `usleep` always fits. -/
def Fits : SleepCall → Prop
  | .sleep seconds => seconds.toNat ≤ 4294967
  | .usleep _ => True
  | .nanosleep req => req.tvSec * 1000 + req.tvNsec / 1000000 < 2 ^ 31

/-- The call adds a timer with the interval that is asked for, and it does not expire before
now.  The timer is the newest in the heap, and its callback is the one that schedules the fiber. -/
def ArmsRequested (c : SleepCall) (env : SleepEnv) (m : TimerManger) : Prop :=
  ∃ r, c.exec env m = some r ∧
    ((r.2.heap m.allocs).ms : ℤ) = c.requested ∧ env.now ≤ (r.2.heap m.allocs).expiration

/-- The interval that is passed to `addTimer`.  In the type that `addTimer` takes it in. -/
def ms : SleepCall → ℕ
  | .sleep seconds => (seconds * 1000).toNat
  | .usleep usec => (usec / 1000).toNat
  | .nanosleep req => (timeoutMs req % 2 ^ 64).toNat

/-- With hooks enabled every one of them is `addTimer` with its milliseconds. -/
theorem exec_eq (c : SleepCall) (env : SleepEnv) (m : TimerManger) :
    c.exec env m = env.addTimer c.ms m := by
  cases c <;> rfl

/-! ### The interval -/

/-- What is passed to `addTimer` is a `uint64_t`. -/
theorem ms_lt (c : SleepCall) : c.ms < 2 ^ 64 := by
  cases c with
  | sleep seconds =>
      have hlt := (seconds * 1000).toNat_lt
      rw [ms]
      omega
  | usleep usec =>
      have hlt := (usec / 1000).toNat_lt
      rw [ms]
      omega
  | nanosleep req =>
      rw [ms]
      omega

/-- A valid call asks for no time gone by. -/
theorem requested_nonneg {c : SleepCall} (h : c.Valid) : 0 ≤ c.requested := by
  cases c with
  | sleep seconds =>
      rw [requested, duration]
      omega
  | usleep usec =>
      rw [requested, duration]
      omega
  | nanosleep req =>
      obtain ⟨⟨hsec, -⟩, hnsec, -⟩ := h
      rw [requested, duration]
      omega

/-- `sleep` passes on what was asked for exactly when the product fits in 32 bits. -/
theorem sleep_ms_iff (seconds : UInt32) :
    ((sleep seconds).ms : ℤ) = (sleep seconds).requested ↔ (sleep seconds).Fits := by
  have hmul : (seconds * 1000).toNat = seconds.toNat * 1000 % 2 ^ 32 := UInt32.toNat_mul ..
  rw [ms, requested, duration, Fits, hmul]
  omega

/-- `usleep` always passes on what was asked for. -/
theorem usleep_ms (usec : UInt32) : ((usleep usec).ms : ℤ) = (usleep usec).requested := by
  have hdiv : (usec / 1000).toNat = usec.toNat / 1000 := UInt32.toNat_div ..
  rw [ms, requested, duration, hdiv]
  omega

/-- Two divisions by 1000 are one by 1000000, and seconds are whole milliseconds.  As the source
computes it. -/
theorem requested_nanosleep {req : Timespec} (h : (nanosleep req).Valid) :
    req.tvSec * 1000 + (req.tvNsec.tdiv 1000).tdiv 1000 = (nanosleep req).requested := by
  obtain ⟨-, hnsec, -⟩ := h
  rw [requested, duration, Int.tdiv_eq_ediv_of_nonneg hnsec,
    Int.tdiv_eq_ediv_of_nonneg (Int.ediv_nonneg hnsec (by decide))]
  omega

/-- `nanosleep` passes on what was asked for exactly when the milliseconds fit in an `int`. -/
theorem nanosleep_ms_iff {req : Timespec} (h : (nanosleep req).Valid) :
    ((nanosleep req).ms : ℤ) = (nanosleep req).requested ↔ (nanosleep req).Fits := by
  have hnonneg := requested_nonneg h
  have hfits : (nanosleep req).Fits ↔ (nanosleep req).requested < 2 ^ 31 := by
    rw [Fits, requested, duration]
    omega
  have hsmall : (nanosleep req).requested < 2 ^ 42 := by
    obtain ⟨⟨-, hsec⟩, -, hnsec⟩ := h
    rw [requested, duration]
    omega
  rw [hfits, ← narrow_eq_iff 31 hnonneg, ms, timeoutMs, requested_nanosleep h]
  have hle := narrow_le 31 hnonneg
  have hlo : -2 ^ 31 ≤ narrow 32 (nanosleep req).requested := by
    exact Int.le_bmod (by decide)
  generalize narrow 32 (nanosleep req).requested = narrowed at hle hlo ⊢
  omega

/-- A call passes on what was asked for exactly when its type holds the milliseconds. -/
theorem ms_eq_iff {c : SleepCall} (h : c.Valid) : (c.ms : ℤ) = c.requested ↔ c.Fits := by
  cases c with
  | sleep seconds => exact sleep_ms_iff seconds
  | usleep usec => exact iff_of_true (usleep_ms usec) trivial
  | nanosleep req => exact nanosleep_ms_iff h

/-! ### The timer -/

/-- The timer that is added is the one that was made. -/
theorem addTimer_heap_self (addr now ms : ℕ) (cb : Option Callback) (r : Bool) (m : TimerManger) :
    (m.addTimer addr now ms cb r).2.heap m.allocs = .new addr now ms cb r := by
  rw [TimerManger.addTimer, TimerManger.addTimerLocked_heap, TimerManger.newTimer_heap_self]

/-- **Hooked sleeps arm the requested interval**, exactly if the type on the way holds the
milliseconds and the clock holds the expiration.  For every call of the three, every manager and
every reading of the clock.  The functions are `src/hiper/base/hook.cc:201-244`:
`seconds * 1000` in line 215 is an `unsigned int`, the sum in line 238 goes into an `int`, and
the expiration is computed by `src/hiper/base/timer.cc:16`. -/
theorem arms_requested_iff {c : SleepCall} (hc : c.Valid) {env : SleepEnv}
    (henv : env.hookEnable = true) (hnow : env.now < 2 ^ 64) (m : TimerManger) :
    ArmsRequested c env m ↔ c.Fits ∧ env.now + c.requested < 2 ^ 64 := by
  have hlt := c.ms_lt
  have harms : ArmsRequested c env m ↔
      (c.ms : ℤ) = c.requested ∧ env.now ≤ add64 env.now c.ms := by
    rw [ArmsRequested, exec_eq, SleepEnv.addTimer, if_pos henv]
    constructor
    · rintro ⟨r, hexec, hms, hexp⟩
      rw [← Option.some.inj hexec, addTimer_heap_self] at hms hexp
      exact ⟨hms, hexp⟩
    · rintro ⟨hms, hexp⟩
      refine ⟨_, rfl, ?_⟩
      rw [addTimer_heap_self]
      exact ⟨hms, hexp⟩
  rw [harms, ms_eq_iff hc, and_congr_right_iff]
  intro hfits
  have hms := (ms_eq_iff hc).2 hfits
  rw [add64, ← hms]
  omega

/-- `sleep(3)`, five seconds after the clock started.  Nothing is rounded. -/
theorem arms_requested_three :
    ArmsRequested (.sleep 3) ⟨true, 5000, 8, 1⟩ (.init fun _ => .new 0 0 0 none false) :=
  (arms_requested_iff (c := .sleep 3) trivial rfl (by decide) _).2
    ⟨show 3 ≤ 4294967 by decide, by decide⟩

/-- `sleep(4294968)`, a sleep of 49 days and more, arms a timer of 704 milliseconds.  The
failing input. -/
theorem sleep_wraps :
    ¬ArmsRequested (.sleep 4294968) ⟨true, 5000, 8, 1⟩ (.init fun _ => .new 0 0 0 none false) := by
  rintro ⟨r, hexec, hms, -⟩
  rw [← Option.some.inj hexec] at hms
  revert hms
  decide

end SleepCall
end Hiper

import Hiper.Manager.Basic

/-!
# A hooked call that waits

`do_io` and `connect_with_timeout` of `hook.cc`, from the point where they may wait: the
system call would block, a conditional timer is added, the event is registered and the
fiber yields, three separate steps.  Other workers take the timer out of the set, run its
callback, also one access at a time, dispatch events, and make any other calls.

The callbacks of all rounds of one call share its `timer_info`, so a callback may be late
and meet a later round.  Clearing and freeing of objects that only this call points to is
left out.

The functions are `hook.cc:115` (`do_io`) and `hook.cc:261` (`connect_with_timeout`), with
`addConditionTimer` (`timer.cc:157`), `addEvent` (`iomanager.cc:140`), `cancelEvent`
(`iomanager.cc:242`) and `listExpiredCb` (`timer.cc:187`) as they are modelled elsewhere.  A
`Step` is one of these, or one access of the callback, or a call of any other thread that
does not have this call's timer.  The answers of the system call are free, and so are the
answers of `epoll_ctl`.
-/

namespace Hiper

namespace HookedCall

/-- The functions, with their arguments as far as they matter to the wait.  `do_io` is told the
event and the timeout by its caller, which has them from the context of the descriptor. -/
inductive Args
  | doIo (fd : ℕ) (event : IOManager.Event) (timeout : ℕ)
  | connectWithTimeout (fd : ℕ) (timeoutMs : ℕ)
  deriving DecidableEq, Repr

/-- The descriptor that the call is about. -/
def Args.fd : Args → ℕ
  | .doIo fd _ _ => fd
  | .connectWithTimeout fd _ => fd

/-- The event that the call waits for. -/
def Args.event : Args → IOManager.Event
  | .doIo _ event _ => event
  | .connectWithTimeout _ _ => .write

/-- The timeout in milliseconds, all ones for none. -/
def Args.timeout : Args → ℕ
  | .doIo _ _ timeout => timeout
  | .connectWithTimeout _ timeoutMs => timeoutMs

/-- `timeout != (uint64_t)-1`.  Only then is a timer made. -/
def Args.finite (a : Args) : Bool := a.timeout != 2 ^ 64 - 1

/-- `EINTR`. -/
def eintr : ℕ := 4
/-- `EAGAIN`. -/
def eagain : ℕ := 11
/-- `ETIMEDOUT`. -/
def etimedout : ℕ := 110
/-- `EINPROGRESS`. -/
def einprogress : ℕ := 115

/-- Where the fiber is.  The places are the statements of the two functions between which other
workers may act. -/
inductive Place
  /-- Before the system call. -/
  | calling
  /-- It would block: before `addConditionTimer`. -/
  | arming
  /-- Before `addEvent`. -/
  | adding
  /-- `addEvent` failed: before `timer->cancel()`. -/
  | failed
  /-- Before `yield()`. -/
  | yielding
  | suspended
  /-- Resumed: before `timer->cancel()`. -/
  | resumed
  /-- Before `if (tinfo->cancelled)`. -/
  | testing
  /-- Before `getsockopt`, in `connect_with_timeout`. -/
  | asking
  /-- With what it wrote to `errno` itself. -/
  | returned (n : ℤ) (errno : Option ℕ)
  deriving DecidableEq, Repr

/-- How far a timeout callback is that is out of `timers_`.  A callback is out of the set before
it runs. -/
inductive Phase
  /-- In the vector of `listExpiredCb` or in the queue: before `lock()`. -/
  | queued
  /-- Before `t->cancelled` is tested. -/
  | locked
  /-- Before `t->cancelled = ETIMEDOUT`. -/
  | passed
  /-- Before `cancelEvent`. -/
  | marked
  deriving DecidableEq, Repr

/-- The callback has passed its test.  It goes on to mark and to cancel, whatever happens
meanwhile. -/
def Phase.past : Phase → Bool
  | .queued => false
  | .locked => false
  | .passed => true
  | .marked => true

/-- The name of the timeout callback among all callbacks.  Callbacks of others have other names. -/
def timeoutCb : Callback := 0

/-- The pointer that `IOManager::GetThis()` is.  It is one and the same for all threads of the
manager. -/
def iom : IOManager.SchedulerPtr := 0

/-- The name of the fiber.  It stands in the context of the event while it waits. -/
def self : ℕ := 0

end HookedCall

/-- A call of one fiber, and what it shares with the other workers.  The timers, the contexts of
the events, the fiber's place, its `timer_info`, and the callbacks that are out. -/
structure HookedCall where
  timers : TimerManger
  events : IOManager
  place : HookedCall.Place
  /-- `tinfo->cancelled`. -/
  cancelled : ℕ
  timer : Option TimerPtr
  /-- The timeout callbacks of this call that are out of `timers_`. -/
  callbacks : List HookedCall.Phase
  /-- The ticket of its last registration; the code does not look at it. -/
  ticket : ℕ

namespace HookedCall

open IOManager (Kernel Waiter)

/-- Before the first system call, with a manager with `n` contexts.  Nothing is registered and
no timer is made. -/
def init (heap : TimerPtr → Timer) (n : ℕ) : HookedCall where
  timers := .init heap
  events := .init n
  place := .calling
  cancelled := 0
  timer := none
  callbacks := []
  ticket := 0

/-- The fiber goes on.  Nothing else changes. -/
def goto (s : HookedCall) (p : Place) : HookedCall := { s with place := p }

/-- Where the fiber goes when the system call answers.  `EINTR` asks again, `EAGAIN` and
`EINPROGRESS` wait, and all else returns. -/
def answered : Args → ℤ → ℕ → Place
  | .doIo _ _ _, n, errno =>
    if n = -1 ∧ errno = eintr then .calling
    else if n = -1 ∧ errno = eagain then .arming
    else .returned n none
  | .connectWithTimeout _ _, n, errno =>
    if n = 0 then .returned 0 none
    else if n ≠ -1 ∨ errno ≠ einprogress then .returned n none
    else .arming

/-- `if (timer) { timer->cancel(); }`.  A timer that is not in the set any more is not
cancelled. -/
def cancelTimer (s : HookedCall) : HookedCall :=
  match s.timer with
  | none => s
  | some p => { s with timers := (s.timers.cancel p).2 }

/-- Where the fiber goes when `addEvent` failed.  `do_io` returns -1; `connect_with_timeout`
goes on to `getsockopt`. -/
def afterFailure : Args → Place
  | .doIo _ _ _ => .returned (-1) none
  | .connectWithTimeout _ _ => .asking

/-- Where the fiber goes when it was resumed and is not cancelled.  `do_io` makes its system
call again. -/
def afterWait : Args → Place
  | .doIo _ _ _ => .calling
  | .connectWithTimeout _ _ => .asking

/-- The `timer_info` exists: the call or one of its callbacks holds it.  It is a `weak_ptr` in
the callback. -/
def alive (s : HookedCall) : Bool :=
  (match s.place with
    | .returned _ _ => false
    | _ => true) || s.callbacks.any (· != .queued)

/-- What waits in the context of the event, since the last `addEvent`.  Its scheduler is the
manager. -/
def waiter (s : HookedCall) : Waiter := .fiber ⟨s.ticket, self⟩

/-- The event is registered, for this fiber.  Its context has this fiber. -/
def registered (a : Args) (s : HookedCall) : Bool := s.events.holds a.fd a.event s.waiter

/-- The fiber was handed to the scheduler since its last `addEvent`.  It may then be resumed by
a worker. -/
def handed (s : HookedCall) : Bool := s.events.ledger.contains (.handed iom s.waiter)

/-- No other caller has the timer of this call, nor its callback.  What others may do to their
timers is free. -/
def foreign (s : HookedCall) : TimerManger.Call → Bool
  | .addTimer _ _ _ cb _ => cb != timeoutCb
  | .cancel p => s.timer != some p
  | .refresh p _ => s.timer != some p
  | .reset p _ _ _ => s.timer != some p
  | .listExpiredCb _ _ => false

/-- The call is `delEvent` for the event that this fiber waits for.  `delEvent` takes an event
away and wakes nobody. -/
def forgets (a : Args) : IOManager.Call → Bool
  | .delEvent _ fd event => fd == a.fd && event == a.event
  | _ => false

/-- The fiber's own steps, those of its callbacks, and all of others. -/
inductive Step
  /-- The system call returns. -/
  | call (n : ℤ) (errno : ℕ)
  /-- `addConditionTimer`, if there is a timeout; the clock reads `now`. -/
  | addConditionTimer (addr now : ℕ)
  | addEvent (kernel : Kernel)
  | yield
  /-- A worker took the fiber from the queue. -/
  | resume
  | cancelTimer
  /-- `if (tinfo->cancelled)`. -/
  | testCancelled
  /-- With the error, unless it fails itself. -/
  | getsockopt (error : Option ℕ)
  /-- In `idle` of any worker. -/
  | listExpiredCb (now probe : ℕ)
  /-- `weak_cond.lock()` and `winfo.lock()` of the callback at a place in the list. -/
  | lock (i : ℕ)
  /-- `if (!t || t->cancelled)`. -/
  | test (i : ℕ)
  /-- `t->cancelled = ETIMEDOUT`. -/
  | mark (i : ℕ)
  | cancelEvent (i : ℕ) (kernel : Kernel)
  /-- `addTimer`, `cancel`, `refresh` or `reset` of another timer, by any thread. -/
  | timers (c : TimerManger.Call)
  /-- Any other call on the events, by any thread, or a dispatch.  Nobody calls
  `delEvent`. -/
  | events (c : IOManager.Call)

/-- `addConditionTimer`, and `timer`.  Without a finite timeout no timer is made
(`hook.cc:153`). -/
def arm (a : Args) (addr now : ℕ) (s : HookedCall) : Option HookedCall :=
  if a.finite then
    let c := TimerManger.Call.addTimer addr now a.timeout timeoutCb false
    if Manager.possible c s.timers then
      some { s with
        timers := (TimerManger.exec c s.timers).2
        timer := some s.timers.allocs
        place := .adding }
    else none
  else some { s with timer := none, place := .adding }

/-- `addEvent`; a failed assertion ends the process.  A failure cancels the timer again
(`hook.cc:167`). -/
def register (a : Args) (kernel : Kernel) (s : HookedCall) : Option HookedCall :=
  match s.events.addEvent kernel (some iom) self a.fd a.event none with
  | .error _ => none
  | .ok (rt, events) =>
    if rt ≠ 0 then some (s.goto .failed)
    else some { s with events := events, ticket := s.events.ledger.length, place := .yielding }

/-- What a step does; nothing where it is not possible. -/
def step (a : Args) : Step → HookedCall → Option HookedCall
  | .call n errno, s => if s.place = .calling then some (s.goto (answered a n errno)) else none
  | .addConditionTimer addr now, s => if s.place = .arming then s.arm a addr now else none
  | .addEvent kernel, s => if s.place = .adding then s.register a kernel else none
  | .yield, s => if s.place = .yielding then some (s.goto .suspended) else none
  | .resume, s => if s.place = .suspended ∧ s.handed then some (s.goto .resumed) else none
  | .cancelTimer, s =>
    if s.place = .resumed then some (s.cancelTimer.goto .testing)
    else if s.place = .failed then some (s.cancelTimer.goto (afterFailure a))
    else none
  | .testCancelled, s =>
    if s.place = .testing then
      some (s.goto (if s.cancelled ≠ 0 then .returned (-1) (some s.cancelled) else afterWait a))
    else none
  | .getsockopt error, s =>
    if s.place = .asking then
      some (s.goto (match error with
        | none => .returned (-1) none
        | some 0 => .returned 0 none
        | some error => .returned (-1) (some error)))
    else none
  | .listExpiredCb now probe, s =>
    let r := s.timers.listExpiredCb now probe
    let own := r.1.filter fun t => t.2 == some timeoutCb
    some { s with timers := r.2, callbacks := s.callbacks ++ own.map fun _ => .queued }
  | .lock i, s =>
    if s.callbacks[i]? = some .queued then
      some { s with callbacks :=
        if s.alive then s.callbacks.set i .locked else s.callbacks.eraseIdx i }
    else none
  | .test i, s =>
    if s.callbacks[i]? = some .locked then
      some { s with callbacks :=
        if s.cancelled ≠ 0 then s.callbacks.eraseIdx i else s.callbacks.set i .passed }
    else none
  | .mark i, s =>
    if s.callbacks[i]? = some .passed then
      some { s with cancelled := etimedout, callbacks := s.callbacks.set i .marked }
    else none
  | .cancelEvent i kernel, s =>
    if s.callbacks[i]? = some .marked then
      (IOManager.step (.cancelEvent kernel a.fd a.event) s.events).map fun events =>
        { s with events := events, callbacks := s.callbacks.eraseIdx i }
    else none
  | .timers c, s =>
    if s.foreign c && Manager.possible c s.timers then
      some { s with timers := (TimerManger.exec c s.timers).2 }
    else none
  | .events c, s =>
    if forgets a c then none
    else (IOManager.step c s.events).map fun events => { s with events := events }

end HookedCall
end Hiper

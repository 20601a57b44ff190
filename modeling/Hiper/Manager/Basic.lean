import Hiper.IOManager.Account
import Hiper.Scheduler.Fibers
import Hiper.Timer.LifeCycle

/-!
# The manager as a whole

An `IOManager` is a scheduler, a timer manager and the events of descriptors, and its
workers idle in `IOManager::idle`.  Here the three are one state, and a step is what one
of them does under its lock, a call on the timers, a call on the events with the tasks
that it schedules, or one of the reads of `IOManager::stopping`.

`stopping` is asked by workers that idle and by the thread in `Scheduler::stop`.  It
reads the timers, `pending_event_count_`, and then the queue and the count, one after
the other.  Tickles and the waking of `epoll_wait` are left out: a worker wakes whenever
it wants.

The places are `src/hiper/base/iomanager.cc:347-357` (`stopping`) and `:360-481` (`idle`).
The parts are the models of the scheduler, the timers and the events without a change; this
module only says which steps of them a thread can make where, and hands the tasks of one to
another.
-/

namespace Hiper

namespace Manager

open Scheduler

/-- Where a worker is in `IOManager::idle`.  A worker that is not in its idle fiber is at the
last of these when it comes back. -/
inductive IdlePlace
  /-- In the condition of the loop. -/
  | asking
  /-- In `epoll_wait`. -/
  | waiting
  /-- `listExpiredCb` gave callbacks, which are not scheduled yet. -/
  | expired (cbs : List (Option Callback))
  /-- In the loop over the events. -/
  | handling
  deriving DecidableEq, Repr

/-- Who calls `stopping()`.  A worker asks in the condition of `idle`'s loop. -/
inductive Asker
  | worker (w : ThreadId)
  /-- The thread in `stop`. -/
  | stop
  deriving DecidableEq, Repr

/-- How far a call of `IOManager::stopping()` is (`src/hiper/base/iomanager.cc:347`): it makes
three reads one after the other, and goes on to the next one only if the last answer lets it.
Between two of the reads every other thread may go on. -/
inductive Ask
  | out
  /-- `getNextTimer()` answered `~0ull`. -/
  | noTimer
  /-- And `pending_event_count_` was 0. -/
  | noEvent
  deriving DecidableEq, Repr

end Manager

/-- `IOManager`, with its base classes.  The two functions say where the workers and the askers
are. -/
structure Manager where
  scheduler : Scheduler.Pool
  timers : TimerManger
  events : IOManager
  idle : Scheduler.ThreadId → Manager.IdlePlace
  asks : Manager.Asker → Manager.Ask

namespace Manager

open Scheduler

/-- A manager with `n` contexts, before any thread enters `run`.  The memory of the timers is
any. -/
def init (heap : TimerPtr → Timer) (n : ℕ) : Manager where
  scheduler := .init
  timers := .init heap
  events := .init n
  idle := fun _ => .asking
  asks := fun _ => .out

/-- The pointer to this manager's scheduler.  It is not null. -/
def self : IOManager.SchedulerPtr := 0

/-- The task that a waiter is.  Its number is forgotten by the scheduler. -/
def taskOf : IOManager.Waiter → FiberOrCb
  | .fiber t => .fiber t.name
  | .cb _ => .cb

/-- The task of an entry of the ledger, if it was handed to this scheduler.  The inner one may
be empty. -/
def handedTask : IOManager.Entry → Option (Option FiberOrCb)
  | .handed scheduler w => if scheduler = self then some (some (taskOf w)) else none
  | _ => none

/-- A call on the events; what it hands over is scheduled.  Its mutex is held until the tasks
are scheduled. -/
def callEvents (s : Manager) (c : IOManager.Call) : Option Manager :=
  (IOManager.step c s.events).bind fun events =>
    let fcs := (events.ledger.drop s.events.ledger.length).filterMap handedTask
    (Pool.step (.schedule none fcs) s.scheduler).map fun scheduler =>
      { s with events := events, scheduler := scheduler }

/-- The call of `idle`'s loop.  Only a worker in `idle` makes it. -/
def isDispatch : IOManager.Call → Bool
  | .dispatch .. => true
  | _ => false

/-- The address of a new timer is free, and the timer of another call was made.  `listExpiredCb`
is called in `idle` only. -/
def possible : TimerManger.Call → TimerManger → Bool
  | .addTimer addr _ _ _ _, m => m.timers.all fun q => (m.heap q).addr != addr
  | .cancel p, m => p < m.allocs
  | .refresh p _, m => p < m.allocs
  | .reset p _ _ _, m => p < m.allocs
  | .listExpiredCb _ _, _ => false

/-- Worker `w` is in its idle fiber.  There it makes steps of `idle`. -/
def inIdle (s : Manager) (w : ThreadId) : Bool :=
  (s.scheduler.workers[w]?).any fun x => x.place == .idling

/-- The asker may call `stopping()`.  One call at a time for each asker. -/
def mayAsk (s : Manager) : Asker → Bool
  | .worker w => s.inIdle w && s.idle w == .asking
  | .stop => true

/-- The call of `stopping()` is that far.  The others stay where they are. -/
def ask (s : Manager) (a : Asker) (q : Ask) : Manager :=
  { s with asks := Function.update s.asks a q }

/-- Worker `w` goes on in `idle`.  The others stay where they are. -/
def goIdle (s : Manager) (w : ThreadId) (p : IdlePlace) : Manager :=
  { s with idle := Function.update s.idle w p }

/-- `stopping()` returned false.  A worker goes on to `epoll_wait`. -/
def refused (s : Manager) : Asker → Manager
  | .worker w => (s.ask (.worker w) .out).goIdle w .waiting
  | .stop => s.ask .stop .out

/-- `stopping()` returned true: the idle fiber of a worker ends.  The thread in `stop` goes on
to join. -/
def granted (s : Manager) : Asker → Option Manager
  | .worker w =>
    (Pool.step (.worker w .go) s.scheduler).map fun scheduler =>
      { s.ask (.worker w) .out with scheduler := scheduler }
  | .stop => some (s.ask .stop .out)

/-- What one thread does next, without another in between. -/
inductive Step
  /-- A step of the scheduler, a worker in its idle fiber apart. -/
  | scheduler (a : Pool.Step)
  /-- `addTimer`, `cancel`, `refresh` or `reset`, by any thread. -/
  | timers (c : TimerManger.Call)
  /-- `addEvent`, `delEvent`, `cancelEvent` or `cancelAll`, by any thread. -/
  | events (c : IOManager.Call)
  /-- `getNextTimer()` in `stopping`; the clock has started. -/
  | getNextTimer (a : Asker) (now : ℕ)
  /-- `pending_event_count_ == 0`. -/
  | pendingEvents (a : Asker)
  /-- `Scheduler::stopping()`. -/
  | schedulerStopping (a : Asker)
  /-- `epoll_wait` returns, and `listExpiredCb`. -/
  | listExpiredCb (w : ThreadId) (now probe : ℕ)
  /-- `schedule(cbs.begin(), cbs.end())`. -/
  | scheduleExpired (w : ThreadId)
  /-- One event of `epoll_wait`. -/
  | dispatch (w : ThreadId) (kernel : IOManager.Kernel) (fd : ℕ) (mask : IOManager.EpollEvents)
  /-- The idle fiber yields. -/
  | yield (w : ThreadId)

/-- The scheduler's step is one of a worker in its idle fiber.  Such a step is one of `idle`,
which is here in detail. -/
def isIdleStep (s : Manager) : Pool.Step → Bool
  | .worker w _ => s.inIdle w
  | _ => false

/-- A step, if the thread is where it can make it.  Every interleaving of the threads is a run
of these. -/
def step : Step → Manager → Option Manager
  | .scheduler a, s =>
    if s.isIdleStep a then none
    else (Pool.step a s.scheduler).map fun scheduler => { s with scheduler := scheduler }
  | .timers c, s =>
    if possible c s.timers then some { s with timers := (TimerManger.exec c s.timers).2 } else none
  | .events c, s => if isDispatch c then none else s.callEvents c
  | .getNextTimer a now, s =>
    if s.mayAsk a && s.asks a == .out && 0 < now then
      let r := s.timers.getNextTimer now
      let s' := { s with timers := r.2 }
      some (if r.1 = 2 ^ 64 - 1 then s'.ask a .noTimer else s'.refused a)
    else none
  | .pendingEvents a, s =>
    match s.asks a with
    | .noTimer => some (if s.events.pendingEventCount = 0 then s.ask a .noEvent else s.refused a)
    | _ => none
  | .schedulerStopping a, s =>
    match s.asks a with
    | .noEvent => if s.scheduler.isStopping then s.granted a else some (s.refused a)
    | _ => none
  | .listExpiredCb w now probe, s =>
    if s.idle w = .waiting then
      let r := s.timers.listExpiredCb now probe
      let cbs := r.1.map Prod.snd
      some ({ s with timers := r.2 }.goIdle w (if cbs.isEmpty then .handling else .expired cbs))
    else none
  | .scheduleExpired w, s =>
    match s.idle w with
    | .expired cbs =>
      (Pool.step (.schedule none (cbs.map fun cb => cb.map fun _ => .cb)) s.scheduler).map
        fun scheduler => { s.goIdle w .handling with scheduler := scheduler }
    | _ => none
  | .dispatch w kernel fd mask, s =>
    if s.idle w = .handling then s.callEvents (.dispatch kernel fd mask) else none
  | .yield w, s =>
    if s.idle w = .handling then
      (Pool.step (.worker w .yield) s.scheduler).map fun scheduler =>
        { s.goIdle w .asking with scheduler := scheduler }
    else none

end Manager
end Hiper

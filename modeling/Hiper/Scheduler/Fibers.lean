import Hiper.Scheduler.Basic
import Mathlib.Data.Int.Notation
import Mathlib.Logic.Function.Basic

/-!
# Workers and fibers, one access at a time

`Scheduler::run` again, now with the states of the fibers: `scheduler.cc`, and
`Fiber::reset`, `resume`, `yield`, `YieldToReady`, `YieldToHold` and `MainFunc` of
`fiber.cc`.  A step is what is done under the lock, one read or write of
`Fiber::state_`, one change of `active_thread_count_`, or a context switch.  Between
them the other workers go on.

The count is an integer, so that a decrement too many would show.  Each task in the
queue carries its number among all that were ever pushed, and `removed` says who took
which; the code looks at neither.  Tickles, `idle_thread_count_` and the fibers in
which workers idle, which nobody else can reach, are left out.

The places are `src/hiper/base/scheduler.cc:168-283` and `:314` (`switchTo`), and
`src/hiper/base/fiber.cc:122` (`reset`), `:141` (`resume`), `:161` (`yield`), `:200`, `:209`
and `:223`.  What each case of `Place` stands before is said beside it; `checking`,
`resetting` and `deciding` have the states that are still to be compared with, since each
comparison reads the state anew.
-/

namespace Hiper

/-- `Fiber::State`.  `EXCEPT` is that of a fiber which threw. -/
inductive FiberState
  | init
  | hold
  | exec
  | term
  | ready
  | except
  deriving DecidableEq, Repr

namespace Scheduler

namespace Pool

/-- Whether `run` has a fiber from the queue in hand, or runs a callback in its `cb_fiber`.  The
turns of the two differ in their ends. -/
inductive Hand
  | fiber
  | cb
  deriving DecidableEq, Repr

/-- Where a worker is in `run`, or in a fiber under it.  A list of states are those that the
state of the fiber is still to be compared with.  It is the program counter of `run`, with what
is in its variables. -/
inductive Place
  | scanning
  /-- Out of the lock with nothing. -/
  | foundNone
  /-- `ft.fiber->getState() != TERM && ft.fiber->getState() != EXCEPT`. -/
  | checking (f : FiberId) (left : List FiberState)
  /-- The fiber has ended already: before the decrement. -/
  | skipping
  /-- Out of the lock with a callback. -/
  | callback
  /-- In the assertion of `cb_fiber->reset`, before a callback or after one. -/
  | resetting (after : Bool) (f : FiberId) (left : List FiberState)
  /-- Before `state_ = INIT` there. -/
  | renewing (after : Bool) (f : FiberId)
  /-- In `resume`, before the assertion. -/
  | resuming (h : Hand) (f : FiberId)
  /-- Before `state_ = EXEC`. -/
  | marking (h : Hand) (f : FiberId)
  /-- Before the switch to the fiber's context. -/
  | switching (h : Hand) (f : FiberId)
  /-- In the fiber. -/
  | inside (h : Hand) (f : FiberId)
  /-- In `switchTo`, before `YieldToHold`. -/
  | switched (h : Hand) (f : FiberId)
  /-- In `YieldToReady` or `YieldToHold`, before the state is written. -/
  | writing (h : Hand) (f : FiberId) (r : FiberState)
  /-- In `yield`, before the context is saved. -/
  | leaving (h : Hand) (f : FiberId)
  /-- Back in `run`, before the decrement. -/
  | back (h : Hand) (f : FiberId)
  /-- Before the state is compared with `READY`. -/
  | settling (h : Hand) (f : FiberId)
  /-- It was `READY`: before `schedule`. -/
  | requeuing (h : Hand) (f : FiberId)
  /-- It was not. -/
  | deciding (h : Hand) (f : FiberId) (left : List FiberState)
  /-- Before `state_ = HOLD`. -/
  | holding (h : Hand) (f : FiberId)
  /-- In `idle`, before `stopping()`. -/
  | idling
  /-- Out of `run`. -/
  | ended
  deriving DecidableEq, Repr

/-- A thread in `run`, its `cb_fiber`, and whether its idle fiber is `TERM`.  The three are all
that it has of its own. -/
structure Worker where
  place : Place
  cbFiber : Option FiberId
  idleTerm : Bool
  deriving DecidableEq, Repr

/-- A task in the queue, with its number.  The number is not in the source. -/
structure Entry where
  stamp : ℕ
  task : FiberAndThread
  deriving DecidableEq, Repr

end Pool

/-- The queue, the count, the fibers (those below `created` exist), and the workers.  `pushed`
and `removed` are for the statements. -/
structure Pool where
  fibers : List Pool.Entry
  activeThreadCount : ℤ
  state : FiberId → FiberState
  created : FiberId
  autoStop : Bool
  stopping : Bool
  workers : List Pool.Worker
  /-- All that was ever pushed; the number of a task is its place here. -/
  pushed : List FiberAndThread
  /-- The numbers of the tasks taken, and by whom. -/
  removed : List (ℕ × ThreadId)

namespace Pool

/-- Before any thread enters `run`.  There are no workers and no fibers. -/
def init : Pool := ⟨[], 0, fun _ => .init, 0, false, false, [], [], []⟩

/-! ### The queue -/

/-- The tasks with their numbers, from `n` on.  They are pushed in this order. -/
def numbered (n : ℕ) (tasks : List FiberAndThread) : List Entry :=
  (tasks.zipIdx n).map fun e => ⟨e.2, e.1⟩

/-- The locked part of `schedule`, for one task or several.  Null tasks are left out. -/
def schedule (s : Pool) (thread : Option ThreadId) (fcs : List (Option FiberOrCb)) : Pool :=
  let tasks := tasksOf thread fcs
  { s with fibers := s.fibers ++ numbered s.pushed.length tasks, pushed := s.pushed ++ tasks }

/-- The state of the fiber is `EXEC`.  It may be so before a worker switches to it. -/
def executing (s : Pool) (f : FiberId) : Bool := s.state f == .exec

/-- Worker `w` may take the task.  By its thread, and by the state of the fiber. -/
def allowed (s : Pool) (w : ThreadId) (e : Entry) : Bool :=
  e.task.isFor w && !e.task.isExec s.executing

/-- The loop of `run` over the queue: the task taken, and the others.  The first that is
allowed. -/
def scanLoop (s : Pool) (w : ThreadId) : List Entry → Option Entry × List Entry
  | [] => (none, [])
  | e :: fibers =>
    if !e.task.isFor w then
      let r := scanLoop s w fibers
      (r.1, e :: r.2)
    else if e.task.isExec s.executing then
      let r := scanLoop s w fibers
      (r.1, e :: r.2)
    else (some e, fibers)

/-- `stopping()`.  It looks at the queue and the count, not at the workers. -/
def isStopping (s : Pool) : Bool :=
  s.autoStop && s.stopping && s.fibers.isEmpty && s.activeThreadCount == 0

/-! ### Steps -/

/-- What a fiber does next, or `go` for any other place.  Whatever a fiber may do, its worker
may do at that place. -/
inductive Act
  | go
  /-- `MainFunc` ends, or catches an exception. -/
  | finish (ok : Bool)
  | yield
  | yieldToReady
  | yieldToHold
  | switchTo (thread : Option ThreadId)
  /-- A call of `schedule`. -/
  | schedule (thread : Option ThreadId) (fcs : List (Option FiberOrCb))
  deriving DecidableEq, Repr

/-- What a worker's step does.  The worker itself, and four things that others can see. -/
structure Effect where
  worker : Worker
  /-- The fiber whose state is written, and what. -/
  write : Option (FiberId × FiberState)
  /-- What is scheduled, and for whom. -/
  push : Option ThreadId × List (Option FiberOrCb)
  /-- What is added to `active_thread_count_`. -/
  count : ℤ
  /-- A fiber is created. -/
  fresh : Bool

/-- The worker only goes on.  Nothing else is seen. -/
def goto (x : Worker) (p : Place) : Effect := ⟨{ x with place := p }, none, (none, []), 0, false⟩

/-- It writes the state of a fiber.  And goes on. -/
def put (x : Worker) (p : Place) (f : FiberId) (v : FiberState) : Effect :=
  { goto x p with write := some (f, v) }

/-- `cb_fiber.reset()` after a callback.  A fiber from the queue is let go without that. -/
def drop (x : Worker) : Hand → Worker
  | .fiber => x
  | .cb => { x with cbFiber := none }

/-- The fibers that are scheduled exist.  A fiber that does not exist cannot be scheduled. -/
def known (s : Pool) (fcs : List (Option FiberOrCb)) : Bool :=
  fcs.all fun
    | some (.fiber f) => f < s.created
    | _ => true

/-- What worker `w`, which is `x`, does next, the scan apart.  None, if the act is not possible
at its place; the assertion of `resume` that fails is a place without a next step. -/
def next (s : Pool) (w : ThreadId) (x : Worker) (a : Act) : Option Effect :=
  match x.place, a with
  | .foundNone, .go => some (goto x (if x.idleTerm then .ended else .idling))
  | .checking f [], .go => some (goto x (.resuming .fiber f))
  | .checking f (t :: left), .go =>
    some (goto x (if s.state f = t then .skipping else .checking f left))
  | .skipping, .go => some { goto x .scanning with count := -1 }
  | .callback, .go =>
    match x.cbFiber with
    | some f => some (goto x (.resetting false f [.term, .except, .init]))
    | none =>
      some { put { x with cbFiber := some s.created } (.resuming .cb s.created) s.created .init
        with fresh := true }
  | .resetting after f (t :: left), .go =>
    some (goto x (if s.state f = t then .renewing after f else .resetting after f left))
  | .renewing after f, .go => some (put x (if after then .scanning else .resuming .cb f) f .init)
  | .resuming h f, .go => if s.state f = .exec then none else some (goto x (.marking h f))
  | .marking h f, .go => some (put x (.switching h f) f .exec)
  | .switching h f, .go => some (goto x (.inside h f))
  | .inside h f, .finish ok => some (put x (.leaving h f) f (if ok then .term else .except))
  | .inside h f, .yield => some (goto x (.leaving h f))
  | .inside h f, .yieldToReady =>
    if s.state f = .exec then some (goto x (.writing h f .ready)) else none
  | .inside h f, .yieldToHold =>
    if s.state f = .exec then some (goto x (.writing h f .hold)) else none
  | .inside h f, .switchTo thread =>
    if thread = none ∨ thread = some w then some (goto x (.inside h f))
    else some { goto x (.switched h f) with push := (thread, [some (.fiber f)]) }
  | .inside h f, .schedule thread fcs =>
    if (thread.isNone || fcs.length == 1) && s.known fcs then
      some { goto x (.inside h f) with push := (thread, fcs) }
    else none
  | .switched h f, .go =>
    if s.state f = .exec then some (goto x (.writing h f .hold)) else none
  | .writing h f r, .go => some (put x (.leaving h f) f r)
  | .leaving h f, .go => some (goto x (.back h f))
  | .back h f, .go => some { goto x (.settling h f) with count := -1 }
  | .settling h f, .go =>
    some (goto x
      (if s.state f = .ready then .requeuing h f
      else .deciding h f (match h with
        | .fiber => [.term, .except]
        | .cb => [.except, .term])))
  | .requeuing h f, .go =>
    some { goto (drop x h) .scanning with push := (none, [some (.fiber f)]) }
  | .deciding h f (t :: left), .go =>
    some (goto x
      (if s.state f = t then
        match h with
        | .fiber => .scanning
        | .cb => .resetting true f [.term, .except, .init]
      else .deciding h f left))
  | .deciding h f [], .go => some (goto x (.holding h f))
  | .holding h f, .go => some (put (drop x h) .scanning f .hold)
  | .idling, .go =>
    some (goto { x with idleTerm := s.isStopping || x.idleTerm } .scanning)
  -- an `idle` of a derived class yields where it likes
  | .idling, .yield => some (goto x .scanning)
  | _, _ => none

/-- The state of one fiber is written.  The others stay. -/
def wrote (state : FiberId → FiberState) : Option (FiberId × FiberState) → FiberId → FiberState
  | none => state
  | some (f, v) => Function.update state f v

/-- What is left when a worker's step is done.  The write, the push, the count and the new fiber
in one. -/
def apply (s : Pool) (w : ThreadId) (e : Effect) : Pool :=
  { s.schedule e.push.1 e.push.2 with
    state := wrote s.state e.write
    activeThreadCount := s.activeThreadCount + e.count
    created := s.created + e.fresh.toNat
    workers := s.workers.set w e.worker }

/-- Where a worker goes with a task.  It has counted up already. -/
def takes : FiberOrCb → Place
  | .fiber f => .checking f [.term, .except]
  | .cb => .callback

/-- The scan of worker `w`, under the lock.  The count goes up by one when something is taken. -/
def scan (s : Pool) (w : ThreadId) (x : Worker) : Pool :=
  match scanLoop s w s.fibers with
  | (none, _) => { s with workers := s.workers.set w { x with place := .foundNone } }
  | (some e, rest) =>
    { s with
      fibers := rest
      activeThreadCount := s.activeThreadCount + 1
      workers := s.workers.set w { x with place := takes e.task.task }
      removed := s.removed ++ [(e.stamp, w)] }

/-- A worker's scan is its step at the top of the loop. -/
inductive Step
  /-- One more thread enters `run`. -/
  | enter
  /-- A fiber is created. -/
  | create
  /-- The locked part of a call of `schedule` outside the workers, for one task, or for
  several without a thread. -/
  | schedule (thread : Option ThreadId) (fcs : List (Option FiberOrCb))
  /-- `auto_stop_ = true` in `stop`. -/
  | autoStop
  /-- `stopping_ = true` there. -/
  | stop
  | worker (w : ThreadId) (a : Act)
  deriving DecidableEq, Repr

/-- A worker scans, or has an effect. -/
def step : Step → Pool → Option Pool
  | .enter, s => some { s with workers := s.workers ++ [⟨.scanning, none, false⟩] }
  | .create, s =>
    some { s with created := s.created + 1, state := Function.update s.state s.created .init }
  | .schedule thread fcs, s =>
    if (thread.isNone || fcs.length == 1) && s.known fcs then some (s.schedule thread fcs) else none
  | .autoStop, s => some { s with autoStop := true }
  | .stop, s => some { s with stopping := true }
  | .worker w a, s =>
    (s.workers[w]?).bind fun x =>
      if x.place = .scanning then if a = .go then some (s.scan w x) else none
      else (s.next w x a).map (s.apply w)

end Pool

end Scheduler

end Hiper

import Hiper.Lib.Machine
import Mathlib.Data.Nat.Notation

/-!
# The scheduler and its workers

`scheduler.h`, `scheduler.cc` and `iomanager.cc`: threads run `Scheduler::run`,
which takes tasks from the queue `fibers_` and, when it finds none, resumes the
idle fiber, and that sleeps in `epoll_wait`.  Any thread may `schedule` a task;
`tickle` writes a byte to a pipe that `epoll_wait` watches, if some thread is
counted idle.

What happens under the lock is one step: the scan of the queue, and the push.
`tickle`, the changes of `idle_thread_count_`, falling asleep, waking, and the
reading of the pipe are steps of their own.  A worker wakes for any reason at any
time.  `HIPER_ASSERT(state_ != EXEC)` in `resume` ends the process, which then
takes no step.

The places are `src/hiper/base/scheduler.h:51-79` and `:151` (`schedule`),
`src/hiper/base/scheduler.cc:168-283` (`run`) and `src/hiper/base/iomanager.cc:338`
(`tickle`) and `:360` (`idle`).  The states of fibers are modelled as far as the scan looks
at them, which is whether a fiber executes; `Fibers` has them all, and no pipe.
-/

namespace Hiper

namespace Scheduler

/-- A thread of the scheduler, or another one. -/
abbrev ThreadId := ℕ

/-- A fiber, by name. -/
abbrev FiberId := ℕ

/-- What is scheduled.  A callback needs no name, since none is looked for. -/
inductive FiberOrCb
  | fiber (f : FiberId)
  | cb
  deriving DecidableEq, Repr

/-- `FiberAndThread`; a `thread_id` of −1 is `none`.  The thread is the one it was scheduled
for. -/
structure FiberAndThread where
  task : FiberOrCb
  threadId : Option ThreadId
  deriving DecidableEq, Repr

/-- Where a worker is in `run`, or in `idle` under it.  Each is between two of the steps. -/
inductive Place
  /-- At the top of the loop. -/
  | scanning
  /-- Out of the lock; `ft` is taken from the queue, if anything is. -/
  | scanned (ft : Option FiberAndThread) (tickleMe : Bool)
  /-- In the fiber. -/
  | running (f : FiberId)
  /-- The fiber came back `READY`, and is about to be scheduled again. -/
  | ready (f : FiberId)
  /-- Out of the lock of that `schedule`, which has a tickle to make. -/
  | rescheduled
  /-- Counted idle, in `idle` before `epoll_wait`. -/
  | idling
  | asleep
  /-- In `idle` after `epoll_wait`. -/
  | woken
  /-- Back from `idle`, still counted. -/
  | leaving
  /-- Out of `run`. -/
  | ended
  deriving DecidableEq, Repr

/-- A thread in `run`, and whether its idle fiber is `TERM`.  An idle fiber that has ended is
not resumed again. -/
structure Worker where
  place : Place
  idleTerm : Bool
  deriving DecidableEq, Repr

end Scheduler

/-- The scheduler, the pipe, and the workers, each of them under its thread id.  The counts are
those of the source, the fields behind them are what the steps owe. -/
structure Scheduler where
  fibers : List Scheduler.FiberAndThread
  activeThreadCount : ℕ
  idleThreadCount : ℕ
  /-- `auto_stop_` and `stopping_`: `stop` was called. -/
  stopped : Bool
  /-- Bytes in the tickle pipe. -/
  bytes : ℕ
  /-- Calls of `schedule` that left the lock and have a tickle to make. -/
  owed : ℕ
  workers : List Scheduler.Worker
  /-- Fibers that execute on threads which are no workers of this scheduler. -/
  elsewhere : List Scheduler.FiberId
  deriving DecidableEq

namespace Scheduler

/-- The scheduler before any thread enters `run`.  There are no workers, and the pipe is empty. -/
def init : Scheduler := ⟨[], 0, 0, false, 0, 0, [], []⟩

/-- The worker is in this fiber. -/
def Worker.runs (x : Worker) (f : FiberId) : Bool :=
  match x.place with
  | .running g => g == f
  | _ => false

/-- The state of the fiber is `EXEC`.  On a worker or on another thread. -/
def executing (s : Scheduler) (f : FiberId) : Bool :=
  s.elsewhere.contains f || s.workers.any (·.runs f)

/-- The task is not for another thread.  A task for no thread is for every one. -/
def FiberAndThread.isFor (t : FiberAndThread) (w : ThreadId) : Bool := t.threadId.all (· == w)

/-- The task is a fiber in state `EXEC`.  It is passed over, whoever scans. -/
def FiberAndThread.isExec (t : FiberAndThread) (executing : FiberId → Bool) : Bool :=
  match t.task with
  | .fiber f => executing f
  | .cb => false

@[simp] theorem isExec_fiber (executing : FiberId → Bool) (f : FiberId)
    (thread : Option ThreadId) :
    (⟨.fiber f, thread⟩ : FiberAndThread).isExec executing = executing f := rfl

/-- The worker may take the task from the queue.  It is for this worker, and it does not
execute. -/
def allowed (s : Scheduler) (w : ThreadId) (t : FiberAndThread) : Bool :=
  t.isFor w && !t.isExec s.executing

/-! ### The queue -/

/-- `Scheduler::scheduleNoLock`: `need_tickle`, and the queue; a null fiber or an empty function
is not pushed.  It is looked at before the push. -/
def scheduleNoLock (fc : Option FiberOrCb) (thread : Option ThreadId)
    (fibers : List FiberAndThread) : Bool × List FiberAndThread :=
  (fibers.isEmpty,
    match fc with
    | none => fibers
    | some task => fibers ++ [⟨task, thread⟩])

/-- The locked part of `schedule`, for one task or for several.  In one go, under the lock. -/
def scheduleLocked (thread : Option ThreadId) :
    List (Option FiberOrCb) → List FiberAndThread → Bool × List FiberAndThread
  | [], fibers => (false, fibers)
  | fc :: fcs, fibers =>
    let one := scheduleNoLock fc thread fibers
    let rest := scheduleLocked thread fcs one.2
    (one.1 || rest.1, rest.2)

/-- What such a call pushes.  In their order. -/
def tasksOf (thread : Option ThreadId) (fcs : List (Option FiberOrCb)) : List FiberAndThread :=
  fcs.filterMap fun fc => fc.map (⟨·, thread⟩)

/-- A call pushes its tasks behind the queue, and has a tickle to make when the queue was empty. -/
theorem scheduleLocked_eq (thread : Option ThreadId) (fcs : List (Option FiberOrCb))
    (fibers : List FiberAndThread) :
    scheduleLocked thread fcs fibers =
      (fibers.isEmpty && !fcs.isEmpty, fibers ++ tasksOf thread fcs) := by
  induction fcs generalizing fibers with
  | nil => simp [scheduleLocked, tasksOf]
  | cons fc fcs ih =>
      rw [scheduleLocked, ih]
      cases fc <;> cases fibers <;> simp [scheduleNoLock, tasksOf]

/-- What a scan takes and leaves.  The task, whether others are to be told, and the queue. -/
structure Scan where
  ft : Option FiberAndThread
  tickleMe : Bool
  rest : List FiberAndThread

/-- The loop of `run` over the queue: tasks for other threads are passed over with `tickle_me`,
executing fibers without, and the first other task is taken.  It stops at the first task that
the worker may take. -/
def scanLoop (executing : FiberId → Bool) (w : ThreadId) :
    List FiberAndThread → Bool → Scan
  | [], tickleMe => ⟨none, tickleMe, []⟩
  | t :: fibers, tickleMe =>
    if t.isFor w then
      if t.isExec executing then
        let r := scanLoop executing w fibers tickleMe
        { r with rest := t :: r.rest }
      else ⟨some t, tickleMe || !fibers.isEmpty, fibers⟩
    else
      let r := scanLoop executing w fibers true
      { r with rest := t :: r.rest }

/-- When a scan has nothing to tell, nobody may run what it leaves.  So it has not passed over a
task that another worker may take. -/
theorem scanLoop_quiet {executing : FiberId → Bool} {w : ThreadId} {fibers : List FiberAndThread}
    {tickleMe : Bool} (h : (scanLoop executing w fibers tickleMe).tickleMe = false) :
    tickleMe = false ∧
      ∀ t ∈ (scanLoop executing w fibers tickleMe).rest, t.isExec executing = true := by
  induction fibers generalizing tickleMe with
  | nil => exact ⟨h, by simp [scanLoop]⟩
  | cons t fibers ih =>
      rw [scanLoop] at h ⊢
      split_ifs at h ⊢ with hfor hexec
      · obtain ⟨hme, hrest⟩ := ih h
        exact ⟨hme, List.forall_mem_cons.2 ⟨hexec, hrest⟩⟩
      · rw [Bool.or_eq_false_iff, Bool.not_eq_false', List.isEmpty_iff] at h
        exact ⟨h.1, by simp [h.2]⟩
      · exact absurd (ih h).1 (by simp)

/-- The scan of worker `w`.  It looks at the queue and at the fibers that execute. -/
def scan (s : Scheduler) (w : ThreadId) : Scan := scanLoop s.executing w s.fibers false

/-- When a scan has nothing to tell, what is left of the queue executes. -/
theorem scan_quiet {s : Scheduler} {w : ThreadId} (h : (s.scan w).tickleMe = false) :
    ∀ t ∈ (s.scan w).rest, t.isExec s.executing = true :=
  (scanLoop_quiet h).2

/-- `IOManager::tickle`.  Nothing, if no thread is counted idle. -/
def tickle (s : Scheduler) : Scheduler :=
  if s.idleThreadCount = 0 then s else { s with bytes := s.bytes + 1 }

/-- With no thread counted idle it does nothing. -/
theorem tickle_of_none {s : Scheduler} (h : s.idleThreadCount = 0) : s.tickle = s := if_pos h

/-- With one there is a byte in the pipe. -/
theorem bytes_tickle_pos {s : Scheduler} (h : s.idleThreadCount ≠ 0) : 0 < s.tickle.bytes := by
  rw [tickle, if_neg h]
  exact Nat.succ_pos s.bytes

/-- The queue stays. -/
@[simp] theorem fibers_tickle (s : Scheduler) : s.tickle.fibers = s.fibers := by
  rw [tickle]
  split <;> rfl

/-- What is owed stays. -/
@[simp] theorem owed_tickle (s : Scheduler) : s.tickle.owed = s.owed := by
  rw [tickle]
  split <;> rfl

/-- The workers stay. -/
@[simp] theorem workers_tickle (s : Scheduler) : s.tickle.workers = s.workers := by
  rw [tickle]
  split <;> rfl

/-- The fibers on other threads stay. -/
@[simp] theorem elsewhere_tickle (s : Scheduler) : s.tickle.elsewhere = s.elsewhere := by
  rw [tickle]
  split <;> rfl

/-! ### Steps -/

/-- Worker `w` goes on at a place.  The others stay where they are. -/
def goto (s : Scheduler) (w : ThreadId) (x : Worker) (p : Place) : Scheduler :=
  { s with workers := s.workers.set w { x with place := p } }

/-- What a worker does next.  Each is possible at one place. -/
inductive Move
  /-- The scan, under the lock. -/
  | scan
  /-- `if (tickle_me) tickle()`. -/
  | tickle
  /-- Resumes what it took; a callback runs in the fiber `cbFiber`. -/
  | resume (cbFiber : FiberId)
  /-- What it took is a fiber that ended: `continue`. -/
  | skip
  /-- The fiber comes back in another state than `READY`. -/
  | hold
  /-- The fiber comes back `READY`. -/
  | ready
  /-- The locked part of `schedule(ft.fiber)`. -/
  | reschedule
  /-- The tickle of that call. -/
  | rescheduleTickle
  /-- The idle fiber has ended: `break`. -/
  | exit
  /-- `++idle_thread_count_`, and into the idle fiber. -/
  | goIdle
  /-- `stopping` holds, and the idle fiber ends. -/
  | idleEnds
  /-- Falls asleep in `epoll_wait`. -/
  | sleep
  /-- `epoll_wait` returns. -/
  | wake
  /-- Reads the pipe until it is empty. -/
  | drain
  /-- The idle fiber yields. -/
  | yield
  /-- `--idle_thread_count_`. -/
  | leave
  deriving DecidableEq, Repr

/-- A move of worker `w`, which is `x`.  None, if the worker is elsewhere. -/
def move (s : Scheduler) (w : ThreadId) (x : Worker) : Move → Option Scheduler
  | .scan =>
    match x.place with
    | .scanning =>
      let r := s.scan w
      some { s.goto w x (.scanned r.ft r.tickleMe) with
        fibers := r.rest, activeThreadCount := s.activeThreadCount + r.ft.toList.length }
    | _ => none
  | .tickle =>
    match x.place with
    | .scanned ft true => some (s.tickle.goto w x (.scanned ft false))
    | _ => none
  | .resume cbFiber =>
    match x.place with
    | .scanned (some t) false =>
      let f := match t.task with
        | .fiber f => f
        | .cb => cbFiber
      if s.executing f then none else some (s.goto w x (.running f))
    | _ => none
  | .skip =>
    match x.place with
    | .scanned (some ⟨.fiber _, _⟩) false =>
      some { s.goto w x .scanning with activeThreadCount := s.activeThreadCount - 1 }
    | _ => none
  | .hold =>
    match x.place with
    | .running _ =>
      some { s.goto w x .scanning with activeThreadCount := s.activeThreadCount - 1 }
    | _ => none
  | .ready =>
    match x.place with
    | .running f =>
      some { s.goto w x (.ready f) with activeThreadCount := s.activeThreadCount - 1 }
    | _ => none
  | .reschedule =>
    match x.place with
    | .ready f =>
      let r := scheduleLocked none [some (.fiber f)] s.fibers
      some { s.goto w x (if r.1 then .rescheduled else .scanning) with fibers := r.2 }
    | _ => none
  | .rescheduleTickle =>
    match x.place with
    | .rescheduled => some (s.tickle.goto w x .scanning)
    | _ => none
  | .exit =>
    match x.place with
    | .scanned none false => if x.idleTerm then some (s.goto w x .ended) else none
    | _ => none
  | .goIdle =>
    match x.place with
    | .scanned none false =>
      if x.idleTerm then none
      else some { s.goto w x .idling with idleThreadCount := s.idleThreadCount + 1 }
    | _ => none
  | .idleEnds =>
    match x.place with
    | .idling =>
      if s.stopped && s.fibers.isEmpty && s.activeThreadCount == 0 then
        some (s.goto w { x with idleTerm := true } .leaving)
      else none
    | _ => none
  | .sleep =>
    match x.place with
    | .idling => some (s.goto w x .asleep)
    | _ => none
  | .wake =>
    match x.place with
    | .asleep => some (s.goto w x .woken)
    | _ => none
  | .drain =>
    match x.place with
    | .woken => some { s with bytes := 0 }
    | _ => none
  | .yield =>
    match x.place with
    | .woken => some (s.goto w x .leaving)
    | _ => none
  | .leave =>
    match x.place with
    | .leaving =>
      some { s.goto w x .scanning with idleThreadCount := s.idleThreadCount - 1 }
    | _ => none

/-- Threads enter, schedule, tickle, bring fibers back, or are workers that move. -/
inductive Step
  /-- One more thread enters `run`. -/
  | enter
  /-- The locked part of a call of `schedule`, for one task, or for several
  without a thread. -/
  | schedule (thread : Option ThreadId) (fcs : List (Option FiberOrCb))
  /-- The tickle of such a call. -/
  | tickle
  /-- A tickle of `stop` or of `onTimerInsertedAtFront`. -/
  | poke
  /-- `stop` is called. -/
  | stop
  /-- A fiber is resumed on a thread that is no worker here. -/
  | away (f : FiberId)
  /-- It comes back there. -/
  | back (f : FiberId)
  | worker (w : ThreadId) (m : Move)
  deriving DecidableEq, Repr

/-- The workers' moves are most of it. -/
def step : Step → Scheduler → Option Scheduler
  | .enter, s => some { s with workers := s.workers ++ [⟨.scanning, false⟩] }
  | .schedule thread fcs, s =>
    if thread.isNone || fcs.length == 1 then
      let r := scheduleLocked thread fcs s.fibers
      some { s with fibers := r.2, owed := s.owed + r.1.toNat }
    else none
  | .tickle, s => if s.owed = 0 then none else some { s.tickle with owed := s.owed - 1 }
  | .poke, s => some s.tickle
  | .stop, s => some { s with stopped := true }
  | .away f, s => if s.executing f then none else some { s with elsewhere := f :: s.elsewhere }
  | .back f, s => some { s with elsewhere := s.elsewhere.filter (· != f) }
  | .worker w m, s => (s.workers[w]?).bind fun x => s.move w x m

end Scheduler

end Hiper

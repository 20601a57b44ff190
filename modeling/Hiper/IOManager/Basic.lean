import Hiper.Lib.Machine
import Mathlib.Data.Int.Notation
import Mathlib.Logic.Function.Basic

/-!
# Events of file descriptors

`iomanager.cc`: a file descriptor has an `FdContext`, which says which of its
events are registered and, for each, what waits for it (a fiber or a callback)
and the scheduler to hand that to.  `addEvent` registers, `delEvent` forgets,
`cancelEvent`, `cancelAll` and the dispatch of `idle` hand over.  What the
kernel answers to `epoll_ctl`, the current scheduler and the current fiber (which
is executing, as `Fiber::GetThis()` is) are arguments.

A failed `HIPER_ASSERT`, a call through a null scheduler and an access to a
context that does not exist end the process (`Abort`).  Every registration has a
number, its ticket, and every change of the registrations is written to a
ledger; the code looks at neither.

The places are `src/hiper/base/iomanager.cc`: `getContext` (66), `resetContext` (77),
`triggerEvent` (85), `addEvent` (140), `delEvent` (197), `cancelEvent` (242), `cancelAll`
(284) and, in `idle`, the loop over the events (428-476).  A call is one step here, since it
holds the mutex of the context from the check of the bits to its last change; how the table
of contexts is looked up and grown is modelled in `Table`.
-/

namespace Hiper

namespace IOManager

/-- A `Scheduler*` that is not null.  A number tells one scheduler from another. -/
abbrev SchedulerPtr := ℕ

/-- `IOManager::Event`, one bit.  `NONE` is no bit. -/
inductive Event
  | read
  | write
  deriving DecidableEq, Repr

/-- A fiber or a callback, by name, and the registration it came with.  The name is a number. -/
structure Tagged where
  ticket : ℕ
  name : ℕ
  deriving DecidableEq, Repr

/-- What waits for an event.  `addEvent` gets a callback, or takes the fiber that called it. -/
inductive Waiter
  | fiber (t : Tagged)
  | cb (t : Tagged)
  deriving DecidableEq, Repr

/-- The registration that it came with. -/
def Waiter.ticket : Waiter → ℕ
  | fiber t => t.ticket
  | cb t => t.ticket

/-- `FdContext::EventContext`.  Its three fields. -/
structure EventContext where
  scheduler : Option SchedulerPtr
  fiber : Option Tagged
  cb : Option Tagged
  deriving DecidableEq, Repr

/-- What `resetContext` leaves. -/
def EventContext.empty : EventContext := ⟨none, none, none⟩

/-- What waits in a context.  A callback is looked at first. -/
def EventContext.waiter (ctx : EventContext) : Option Waiter :=
  match ctx.cb with
  | some cb => some (.cb cb)
  | none => ctx.fiber.map .fiber

/-- How the process ends.  In a build with assertions each of them does. -/
inductive Abort
  /-- `HIPER_ASSERT(cond)`. -/
  | assertion (cond : String)
  /-- `ctx.scheduler->schedule(..)` with a null `scheduler`. -/
  | nullScheduler
  /-- `fd_ctx` is null. -/
  | nullContext
  deriving DecidableEq, Repr

/-- `FdContext`: the two contexts, and the bits of `events`.  A bit may be set without a waiter,
as far as the type goes. -/
structure FdContext where
  context : Event → EventContext
  events : Event → Bool

namespace FdContext

/-- A fresh context. -/
def new : FdContext := ⟨fun _ => .empty, fun _ => false⟩

/-- `getContext(event)`.  There are no other events. -/
def getContext (event : Event) (c : FdContext) : EventContext := c.context event

/-- Write through the reference that `getContext(event)` returns.  The other one stays. -/
def setContext (event : Event) (ctx : EventContext) (c : FdContext) : FdContext :=
  { c with context := Function.update c.context event ctx }

/-- `events | event`, `events & ~event`.  The other bit stays. -/
def setEvent (event : Event) (b : Bool) (c : FdContext) : FdContext :=
  { c with events := Function.update c.events event b }

/-- `events != NONE`. -/
def anyEvent (events : Event → Bool) : Bool := events .read || events .write

/-- `resetContext(getContext(event))`.  The bits stay. -/
def resetContext (event : Event) (c : FdContext) : FdContext := c.setContext event .empty

/-- `triggerEvent(event)`: what it hands to which scheduler.  `schedule` swaps the callback or
fiber out of the context, and pushes nothing when it was empty.  The bit is cleared first, and
the scheduler is not reset. -/
def triggerEvent (event : Event) (c : FdContext) :
    Except Abort (Option (SchedulerPtr × Waiter) × FdContext) :=
  if c.events event then
    let c := c.setEvent event false
    let ctx := c.getContext event
    match ctx.scheduler with
    | none => .error .nullScheduler
    | some scheduler =>
      match ctx.cb with
      | some cb => .ok (some (scheduler, .cb cb), c.setContext event { ctx with cb := none })
      | none =>
        .ok (ctx.fiber.map fun f => (scheduler, .fiber f),
          c.setContext event { ctx with fiber := none })
  else .error (.assertion "events & event")

end FdContext

/-- What happened to the registrations.  No call reads it. -/
inductive Entry
  /-- `addEvent` registered a waiter. -/
  | added (fd : ℕ) (event : Event) (scheduler : Option SchedulerPtr) (waiter : Waiter)
  /-- `delEvent` forgot it. -/
  | deleted (ticket : ℕ)
  /-- `schedule` was called with it. -/
  | handed (scheduler : SchedulerPtr) (waiter : Waiter)
  deriving DecidableEq, Repr

/-- `EPOLL_CTL_ADD`, `EPOLL_CTL_MOD` and `EPOLL_CTL_DEL`. -/
inductive EpollCtlOp
  | add
  | mod
  | del
  deriving DecidableEq, Repr

/-- The arguments of `epoll_ctl`, less `EPOLLET`.  The kernel's answer may depend on them. -/
structure EpollCtl where
  op : EpollCtlOp
  fd : ℕ
  events : Event → Bool

/-- What the kernel answers to each `epoll_ctl`: true for 0.  It may differ from call to call. -/
abbrev Kernel := EpollCtl → Bool

/-- The bits of an `epoll_event` that `idle` looks at.  A mask that `epoll_wait` returns. -/
structure EpollEvents where
  epollin : Bool
  epollout : Bool
  epollerr : Bool
  epollhup : Bool
  deriving DecidableEq, Repr

end IOManager

open IOManager in
/-- `IOManager`: `fd_contexts_` and `pending_event_count_`.  The count is an integer, so that
one that would go below zero shows.  The ledger is not in the source. -/
structure IOManager where
  fdContexts : List FdContext
  pendingEventCount : ℤ
  ledger : List Entry

namespace IOManager

/-- A manager with `n` fresh contexts.  As `contextResize` makes them. -/
def init (n : ℕ) : IOManager := ⟨List.replicate n .new, 0, []⟩

/-- The waiter that `addEvent` registers.  Its ticket is the place of its entry in the ledger. -/
def newWaiter (m : IOManager) (cb : Option ℕ) (self : ℕ) : Waiter :=
  match cb with
  | some cb => .cb ⟨m.ledger.length, cb⟩
  | none => .fiber ⟨m.ledger.length, self⟩

/-- The context that `addEvent` fills in.  The third field is empty. -/
def newContext (scheduler : Option SchedulerPtr) : Waiter → EventContext
  | .cb t => ⟨scheduler, none, some t⟩
  | .fiber t => ⟨scheduler, some t, none⟩

/-- `epoll_ctl(epoll_fd_, fd_ctx->events ? EPOLL_CTL_MOD : EPOLL_CTL_ADD, fd, ..)`.  The bits
that it tells the kernel are the registered ones and the new one. -/
def addCtl (fd : ℕ) (event : Event) (c : FdContext) : EpollCtl :=
  ⟨if FdContext.anyEvent c.events then .mod else .add, fd, (c.setEvent event true).events⟩

/-- `addEvent(fd, event, cb)`, called by the fiber `self`, with `Scheduler::GetThis()` as given.
-1 if `epoll_ctl` fails; the assertion on the bit comes before it, the one on the context behind
it. -/
def addEvent (kernel : Kernel) (scheduler : Option SchedulerPtr) (self : ℕ) (fd : ℕ) (event : Event)
    (cb : Option ℕ) (m : IOManager) : Except Abort (ℤ × IOManager) :=
  match m.fdContexts[fd]? with
  | none => .error .nullContext
  | some c =>
    if c.events event then .error (.assertion "!(fd_ctx->events & event)")
    else if kernel (addCtl fd event c) = false then .ok (-1, m)
    else if c.getContext event ≠ .empty then
      .error (.assertion "!event_ctx.scheduler && !event_ctx.fiber && !event_ctx.cb")
    else
      let waiter := m.newWaiter cb self
      .ok (0,
        { fdContexts := m.fdContexts.set fd
            ((c.setEvent event true).setContext event (newContext scheduler waiter))
          pendingEventCount := m.pendingEventCount + 1
          ledger := m.ledger ++ [.added fd event scheduler waiter] })

/-- `triggerEvent(event)` on the context of `fd`.  What it hands over is written to the ledger. -/
def triggerEvent (fd : ℕ) (event : Event) (m : IOManager) : Except Abort IOManager :=
  match m.fdContexts[fd]? with
  | none => .error .nullContext
  | some c => do
    let (handed, c') ← c.triggerEvent event
    pure { m with
      fdContexts := m.fdContexts.set fd c'
      ledger := m.ledger ++ handed.toList.map fun h => .handed h.1 h.2 }

/-- `--pending_event_count_`.  It does not stop at zero. -/
def decPending (m : IOManager) : IOManager :=
  { m with pendingEventCount := m.pendingEventCount - 1 }

/-- `epoll_ctl(epoll_fd_, new_events ? EPOLL_CTL_MOD : EPOLL_CTL_DEL, fd, ..)`.  `DEL` when no
bit is left. -/
def modOrDel (fd : ℕ) (newEvents : Event → Bool) : EpollCtl :=
  ⟨if FdContext.anyEvent newEvents then .mod else .del, fd, newEvents⟩

/-- `delEvent(fd, event)`.  False if there is no such registration, or `epoll_ctl` fails. -/
def delEvent (kernel : Kernel) (fd : ℕ) (event : Event) (m : IOManager) :
    Except Abort (Bool × IOManager) :=
  match m.fdContexts[fd]? with
  | none => .ok (false, m)
  | some c =>
    if c.events event = false then .ok (false, m)
    else if kernel (modOrDel fd (c.setEvent event false).events) = false then .ok (false, m)
    else
      .ok (true,
        { fdContexts := m.fdContexts.set fd ((c.setEvent event false).resetContext event)
          pendingEventCount := m.pendingEventCount - 1
          ledger := m.ledger ++ (c.getContext event).waiter.toList.map fun w => .deleted w.ticket })

/-- `cancelEvent(fd, event)`.  Like `delEvent`, but the waiter is handed over. -/
def cancelEvent (kernel : Kernel) (fd : ℕ) (event : Event) (m : IOManager) :
    Except Abort (Bool × IOManager) :=
  match m.fdContexts[fd]? with
  | none => .ok (false, m)
  | some c =>
    if c.events event = false then .ok (false, m)
    else if kernel (modOrDel fd (c.setEvent event false).events) = false then .ok (false, m)
    else do
      let m ← m.decPending.triggerEvent fd event
      pure (true, m)

/-- `triggerEvent(event); --pending_event_count_;`, when `event` is among the bits.  The count
is lowered once for each. -/
def triggerBit (fd : ℕ) (bits : Event → Bool) (event : Event) (m : IOManager) :
    Except Abort IOManager :=
  if bits event then do
    let m ← m.triggerEvent fd event
    pure m.decPending
  else pure m

/-- The bits of `fd_ctx->events` now.  They change with each trigger. -/
def eventsOf (fd : ℕ) (m : IOManager) : Event → Bool :=
  match m.fdContexts[fd]? with
  | none => fun _ => false
  | some c => c.events

/-- `cancelAll(fd)`.  Both bits, and the last assertion. -/
def cancelAll (kernel : Kernel) (fd : ℕ) (m : IOManager) : Except Abort (Bool × IOManager) :=
  match m.fdContexts[fd]? with
  | none => .ok (false, m)
  | some c =>
    if FdContext.anyEvent c.events = false then .ok (false, m)
    else if kernel ⟨.del, fd, fun _ => false⟩ = false then .ok (false, m)
    else do
      let m ← m.triggerBit fd (m.eventsOf fd) .read
      let m ← m.triggerBit fd (m.eventsOf fd) .write
      if FdContext.anyEvent (m.eventsOf fd) then .error (.assertion "fd_ctx->events == NONE")
      else pure (true, m)

/-- `real_events`: an error or a hang-up makes both events ready.  Whether they are registered
is not asked. -/
def realEvents (mask : EpollEvents) : Event → Bool
  | .read => mask.epollin || mask.epollerr || mask.epollhup
  | .write => mask.epollout || mask.epollerr || mask.epollhup

/-- The body of the loop of `idle` over the events of `epoll_wait`, for the context of `fd`; it
answers the events it called `triggerEvent` for.  It looks at the registered bits to skip the
context, and to compute what is left, and nowhere else. -/
def dispatch (kernel : Kernel) (fd : ℕ) (mask : EpollEvents) (m : IOManager) :
    Except Abort (List Event × IOManager) :=
  match m.fdContexts[fd]? with
  | none => .error .nullContext
  | some c =>
    let real := realEvents mask
    if FdContext.anyEvent (fun e => c.events e && real e) = false then .ok ([], m)
    else if kernel (modOrDel fd fun e => c.events e && !real e) = false then .ok ([], m)
    else do
      let m ← m.triggerBit fd real .read
      let m ← m.triggerBit fd real .write
      pure ([.read, .write].filter real, m)

/-! ### Calls -/

/-- What is done to a manager: its four calls, and the dispatch of a context. -/
inductive Call
  | addEvent (kernel : Kernel) (scheduler : Option SchedulerPtr) (self fd : ℕ) (event : Event)
    (cb : Option ℕ)
  | delEvent (kernel : Kernel) (fd : ℕ) (event : Event)
  | cancelEvent (kernel : Kernel) (fd : ℕ) (event : Event)
  | cancelAll (kernel : Kernel) (fd : ℕ)
  | dispatch (kernel : Kernel) (fd : ℕ) (mask : EpollEvents)

/-- What a call answers. -/
inductive Answer
  | int (n : ℤ)
  | bool (b : Bool)
  | triggered (events : List Event)
  deriving DecidableEq, Repr

/-- Make a call.  Its answer, or how the process ends. -/
def exec (c : Call) (m : IOManager) : Except Abort (Answer × IOManager) :=
  match c with
  | .addEvent kernel scheduler self fd event cb =>
    (m.addEvent kernel scheduler self fd event cb).map fun r => (.int r.1, r.2)
  | .delEvent kernel fd event => (m.delEvent kernel fd event).map fun r => (.bool r.1, r.2)
  | .cancelEvent kernel fd event => (m.cancelEvent kernel fd event).map fun r => (.bool r.1, r.2)
  | .cancelAll kernel fd => (m.cancelAll kernel fd).map fun r => (.bool r.1, r.2)
  | .dispatch kernel fd mask => (m.dispatch kernel fd mask).map fun r => (.triggered r.1, r.2)

/-- A call that does not end the process.  It is what runs are made of. -/
def step (c : Call) (m : IOManager) : Option IOManager :=
  match m.exec c with
  | .ok r => some r.2
  | .error _ => none

end IOManager
end Hiper

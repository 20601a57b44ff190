import Hiper.Scheduler.HandOut

/-!
# What `stopping()` promises

Once `stopping()` has returned true, and nobody outside calls `schedule`, the queue
should stay empty and the count 0 for ever.  `run` counts down before it schedules a
`READY` fiber again, and in between `stopping()` sees neither: the promise holds exactly
if no worker stands there (`stays_quiet_iff`).

The places are `src/hiper/base/scheduler.cc:229-233` and `:252-256` (the decrement, then the
comparison with `READY`, then `schedule`) and `:294` (`stopping`).  A worker counts as one
that will put a fiber back when it stands before the comparison and the state is `READY`, or
behind it; which it is can be read off the program counters at the moment `stopping()`
returns.
-/

namespace Hiper.Scheduler.Pool

open Lib

/-- The worker has counted down, and will schedule a `READY` fiber again.  The state is read in
a step of its own. -/
def Worker.requeues (s : Pool) (x : Worker) : Bool :=
  match x.place with
  | .requeuing .. => true
  | .settling _ f => s.state f == .ready
  | _ => false

/-- Some worker will.  It is computed from the places and the states. -/
def someRequeues (s : Pool) : Bool := s.workers.any (·.requeues s)

/-- The steps in which nobody outside the workers calls `schedule`.  Fibers that run may call
it, but none of them runs any more. -/
def insideStep (a : Step) (s : Pool) : Option Pool :=
  match a with
  | .schedule .. => none
  | a => step a s

/-- Nothing is queued, running, or on its way back to the queue.  It is an invariant of those
steps. -/
structure Quiet (s : Pool) : Prop where
  fibers : s.fibers = []
  count : s.activeThreadCount = 0
  idle : ∀ x ∈ s.workers, x.place.counted = false
  kept : ∀ x ∈ s.workers, x.requeues s = false

/-- The four parts of the answer. -/
theorem isStopping_iff {s : Pool} :
    s.isStopping = true ↔
      s.autoStop = true ∧ s.stopping = true ∧ s.fibers = [] ∧ s.activeThreadCount = 0 := by
  rw [isStopping, Bool.and_eq_true, Bool.and_eq_true, Bool.and_eq_true, List.isEmpty_iff,
    beq_iff_eq, and_assoc, and_assoc]

/-! ### Steps of a quiet scheduler -/

/-- The worker has counted down, and may schedule the fiber again.  It is counted no more. -/
def Place.unsettled : Place → Bool
  | .settling .. | .requeuing .. => true
  | _ => false

/-- What the effect of a worker that has nothing in hand can be.  It counts nothing, pushes
nothing and makes no fiber `READY`. -/
structure Still (e : Effect) : Prop where
  push : e.push = (none, [])
  count : e.count = 0
  counted : e.worker.place.counted = false
  settled : e.worker.place.unsettled = false
  write : ∀ f v, e.write = some (f, v) → v ≠ .ready

/-- Going on, without a fiber in hand. -/
theorem Still.goto {x : Worker} {p : Place} (hc : p.counted = false) (hs : p.unsettled = false) :
    Still (Pool.goto x p) :=
  ⟨rfl, rfl, hc, hs, nofun⟩

/-- Writing a state other than `READY`. -/
theorem Still.put {x : Worker} {p : Place} {f : FiberId} {v : FiberState}
    (hc : p.counted = false) (hs : p.unsettled = false) (hv : v ≠ .ready) :
    Still (Pool.put x p f v) := by
  refine ⟨rfl, rfl, hc, hs, fun f' v' h => ?_⟩
  obtain ⟨-, rfl⟩ := Prod.mk.inj (Option.some.inj h)
  exact hv

/-- A worker that is not there puts nothing back. -/
theorem requeues_of_settled {x : Worker} (h : x.place.unsettled = false) (s : Pool) :
    x.requeues s = false := by
  unfold Worker.requeues
  split
  next hp =>
    rw [hp] at h
    cases h
  next hp =>
    rw [hp] at h
    cases h
  next => rfl

/-- A worker that is not counted, and will not schedule again, keeps still.  By cases on its
place. -/
theorem next_still {s : Pool} {w : ThreadId} {x : Worker} {a : Act} {e : Effect}
    (h : s.next w x a = some e) (hcounted : x.place.counted = false)
    (hkept : x.requeues s = false) : Still e := by
  cases goes_of_next h with
  | foundNone hp hto => rcases hto with rfl | rfl <;> exact .goto rfl rfl
  | @renew after _ _ _ hp | @compare after _ _ _ hp =>
      cases after with
      | false => simp [hp, Place.counted] at hcounted
      | true => exact .goto rfl rfl
  | kept => exact .put rfl rfl (by decide)
  -- `READY` is what `requeues` speaks of
  | ready hp hready => simp [Worker.requeues, hp, hready] at hkept
  | requeue hp => simp [Worker.requeues, hp] at hkept
  | notReady | done | doneCb | decide | alive | idle | idleYield => exact .goto rfl rfl
  | hold => exact .put rfl rfl (by decide)
  -- the worker is counted
  | _ => simp [Place.counted, *] at hcounted

/-- A state that is `READY` was so, if something else was written. -/
theorem ready_of_wrote {state : FiberId → FiberState} {f : FiberId}
    {write : Option (FiberId × FiberState)} (hw : ∀ g v, write = some (g, v) → v ≠ .ready)
    (h : wrote state write f = .ready) : state f = .ready := by
  cases write with
  | none => exact h
  | some p =>
      obtain ⟨g, v⟩ := p
      rw [wrote] at h
      by_cases hf : f = g
      · rw [hf, Function.update_self] at h
        exact absurd h (hw g v rfl)
      · rwa [Function.update_of_ne hf] at h

/-- Only a state that becomes `READY` makes a worker schedule again.  The place of the worker is
the same. -/
theorem requeues_mono {s s' : Pool} (h : ∀ f, s'.state f = .ready → s.state f = .ready)
    {x : Worker} (hx : x.requeues s = false) : x.requeues s' = false := by
  unfold Worker.requeues at hx ⊢
  split at hx
  next => cases hx
  next f _ =>
    rw [← Bool.not_eq_true, beq_iff_eq] at hx ⊢
    exact fun hf => hx (h _ hf)
  next => rfl

/-- **A step** without a call from outside keeps a quiet scheduler quiet.  By cases on the step. -/
theorem Quiet.step {s s' : Pool} (h : Quiet s) {a : Step} (hs : insideStep a s = some s') :
    Quiet s' := by
  cases a with
  | schedule => cases hs
  | enter =>
      obtain rfl := Option.some.inj hs
      refine ⟨h.fibers, h.count, fun x hx => ?_, fun x hx => ?_⟩
      · rcases List.mem_append.1 hx with hx | hx
        · exact h.idle x hx
        · obtain rfl := List.mem_singleton.1 hx
          rfl
      · rcases List.mem_append.1 hx with hx | hx
        · exact h.kept x hx
        · obtain rfl := List.mem_singleton.1 hx
          rfl
  | create =>
      obtain rfl := Option.some.inj hs
      refine ⟨h.fibers, h.count, h.idle, fun x hx => requeues_mono (fun f hf => ?_) (h.kept x hx)⟩
      exact @ready_of_wrote s.state f (some (s.created, .init)) (by rintro _ _ ⟨⟩; decide) hf
  | autoStop =>
      obtain rfl := Option.some.inj hs
      exact ⟨h.fibers, h.count, h.idle, h.kept⟩
  | stop =>
      obtain rfl := Option.some.inj hs
      exact ⟨h.fibers, h.count, h.idle, h.kept⟩
  | worker w a =>
      obtain ⟨x, hx, ⟨-, -, rfl⟩ | ⟨-, e, he, rfl⟩⟩ := worker_cases hs
      · have hnothing : s.scan w x =
            { s with workers := s.workers.set w { x with place := .foundNone } } := by
          rw [scan, h.fibers]
          rfl
        rw [hnothing]
        refine ⟨h.fibers, h.count, fun y hy => ?_, fun y hy => ?_⟩
        · rcases List.mem_or_eq_of_mem_set hy with hy | rfl
          · exact h.idle y hy
          · rfl
        · rcases List.mem_or_eq_of_mem_set hy with hy | rfl
          · exact h.kept y hy
          · rfl
      · have hmem := List.mem_of_getElem? hx
        have hstill := next_still he (h.idle x hmem) (h.kept x hmem)
        have hstate : ∀ f, (s.apply w e).state f = .ready → s.state f = .ready := fun f hf =>
          ready_of_wrote hstill.write hf
        refine ⟨?_, ?_, fun y hy => ?_, fun y hy => ?_⟩
        · simp [apply, schedule, hstill.push, tasksOf, numbered, h.fibers]
        · simp [apply, hstill.count, h.count]
        · rcases List.mem_or_eq_of_mem_set hy with hy | rfl
          · exact h.idle y hy
          · exact hstill.counted
        · rcases List.mem_or_eq_of_mem_set hy with hy | rfl
          · exact requeues_mono hstate (h.kept y hy)
          · exact requeues_of_settled hstill.settled _

/-- A worker that can go on does so in a step of the kind. -/
theorem step_worker {s : Pool} {w : ThreadId} {x : Worker} {e : Effect}
    (hx : s.workers[w]? = some x) (hp : x.place ≠ .scanning) (he : s.next w x .go = some e) :
    insideStep (.worker w .go) s = some (s.apply w e) := by
  change step (.worker w .go) s = _
  rw [Pool.step, hx, Option.bind_some, if_neg hp, he]
  rfl

/-- A worker before `schedule` pushes its fiber. -/
theorem requeuing_pushes {s : Pool} {w : ThreadId} {x : Worker} {hand : Hand} {f : FiberId}
    (hx : s.workers[w]? = some x) (hp : x.place = .requeuing hand f) :
    ∃ s', Reachable insideStep s s' ∧ s'.fibers ≠ [] := by
  have he : s.next w x .go = some
      { goto (drop x hand) .scanning with push := (none, [some (.fiber f)]) } := by
    unfold next
    rw [hp]
  refine ⟨_, Reachable.init.step _ (step_worker hx (by rw [hp]; nofun) he), ?_⟩
  simp [apply, schedule, tasksOf, numbered]

/-- What the worker schedules again comes into the queue.  It takes a step or two. -/
theorem Worker.requeues_pushes {s : Pool} {w : ThreadId} {x : Worker}
    (hx : s.workers[w]? = some x) (h : x.requeues s = true) :
    ∃ s', Reachable insideStep s s' ∧ s'.fibers ≠ [] := by
  unfold Worker.requeues at h
  split at h
  next hp => exact requeuing_pushes hx hp
  next hand f hp =>
    have he : s.next w x .go = some (goto x (.requeuing hand f)) := by
      unfold next
      simp only [hp, if_pos (beq_iff_eq.1 h)]
    have hstep := step_worker hx (by rw [hp]; nofun) he
    have hw : w < s.workers.length := (List.getElem?_eq_some_iff.1 hx).1
    have hx' : (s.apply w (goto x (.requeuing hand f))).workers[w]? =
        some { x with place := .requeuing hand f } := List.getElem?_set_self hw
    obtain ⟨s', hs', hpush⟩ := requeuing_pushes hx' rfl
    exact ⟨s', (Reachable.init.step _ hstep).trans hs', hpush⟩
  next => cases h

/-- **What `stopping()` promises.**  When it returns true, nothing is queued, counted or in hand
from then on, whatever the workers do and as long as nobody outside calls `schedule`, exactly if
no worker has counted down for a fiber that it will schedule again.  The states that follow are
all those of the steps in which nobody outside schedules; the condition is on the moment of the
answer.  `stopping()` is `src/hiper/base/scheduler.cc:294`; `run` counts down in line 229 (252
for a callback) before it asks in line 231 (253) whether the fiber is to be scheduled again, and
between the two `stopping()` sees an empty queue and a count of 0. -/
theorem stays_quiet_iff {s : Pool} (h : Reachable step init s) (hs : s.isStopping = true) :
    (∀ s', Reachable insideStep s s' →
        s'.fibers = [] ∧ s'.activeThreadCount = 0 ∧ ∀ x ∈ s'.workers, x.place.counted = false) ↔
      s.someRequeues = false := by
  obtain ⟨-, -, hfibers, hcount⟩ := isStopping_iff.1 hs
  have hidle : ∀ x ∈ s.workers, x.place.counted = false := by
    have hactive := (accounted h).count
    rw [hcount] at hactive
    have hzero : s.workers.countP (·.place.counted) = 0 := by
      rw [active] at hactive
      omega
    intro x hx
    rw [← Bool.not_eq_true]
    exact List.countP_eq_zero.1 hzero x hx
  constructor
  · intro hall
    rw [← Bool.not_eq_true]
    intro hsome
    obtain ⟨x, hmem, hx⟩ := List.any_eq_true.1 hsome
    obtain ⟨w, hw⟩ := List.getElem?_of_mem hmem
    obtain ⟨s', hs', hpush⟩ := Worker.requeues_pushes hw hx
    exact hpush (hall s' hs').1
  · intro hnone s' hs'
    have hquiet : Quiet s := ⟨hfibers, hcount, hidle, fun x hx => by
      rw [← Bool.not_eq_true]
      exact fun hx' => Bool.false_ne_true (hnone ▸ List.any_eq_true.2 ⟨x, hx, hx'⟩)⟩
    have hq : Quiet s' := hs'.invariant hquiet fun _ _ _ hI ha => hI.step ha
    exact ⟨hq.fibers, hq.count, hq.idle⟩

/-- One worker runs a callback that ends, and then `stop` is called.  The worker idles by then. -/
def restSteps : List Step :=
  [.enter, .schedule none [some .cb], .autoStop, .stop, .worker 0 .go, .worker 0 .go,
    .worker 0 .go, .worker 0 .go, .worker 0 .go, .worker 0 (.finish true), .worker 0 .go,
    .worker 0 .go, .worker 0 .go, .worker 0 .go]

/-- The answer is true, and it stays quiet. -/
theorem stays_quiet_rest :
    ∃ s, run step restSteps init = some s ∧ s.isStopping = true ∧
      ∀ s', Reachable insideStep s s' →
        s'.fibers = [] ∧ s'.activeThreadCount = 0 ∧
          ∀ x ∈ s'.workers, x.place.counted = false := by
  obtain ⟨s, hs, hstop, hnone⟩ : ∃ s, run step restSteps init = some s ∧
      s.isStopping = true ∧ s.someRequeues = false := ⟨_, rfl, rfl, rfl⟩
  exact ⟨s, hs, hstop, (stays_quiet_iff (Reachable.init.run hs) hstop).2 hnone⟩

/-- A fiber yields `READY`; its worker has counted down and not yet scheduled it, and the other
worker is about to ask `stopping()`.  The count is 0 in between. -/
def readySteps : List Step :=
  [.enter, .enter, .create, .schedule none [some (.fiber 0)], .autoStop, .stop, .worker 0 .go,
    .worker 0 .go, .worker 0 .go, .worker 0 .go, .worker 0 .go, .worker 0 .go, .worker 0 .go,
    .worker 0 .yieldToReady, .worker 0 .go, .worker 0 .go, .worker 0 .go, .worker 1 .go,
    .worker 1 .go]

/-- It returns true and that worker leaves `run`, and then the fiber is queued again. -/
theorem ready_fiber_queued_after_stop :
    ∃ s s', run step readySteps init = some s ∧ s.isStopping = true ∧
      run insideStep [.worker 1 .go, .worker 1 .go, .worker 1 .go, .worker 0 .go, .worker 0 .go] s =
        some s' ∧
      (s'.workers[1]?).map Worker.place = some .ended ∧
      s'.fibers = [⟨1, ⟨.fiber 0, none⟩⟩] :=
  ⟨_, _, rfl, rfl, rfl, rfl, rfl⟩

end Hiper.Scheduler.Pool

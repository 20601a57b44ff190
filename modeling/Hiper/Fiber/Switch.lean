import Hiper.Scheduler.Fibers

/-!
# Switching between the fibers of a thread

`fiber.cc` on one thread: `resume` and `yield` save a context and load another one, and
which ones they take is decided by `back_to_caller_`, `t_thread_main_fiber` and
`t_scheduler_fiber`, not by who is running.  So a context need not belong to the fiber that
holds it: `resume` called on one fiber's stack may save it in another fiber.

A context says on whose stack it goes on and which switch left it there; the code looks at
neither.  The contexts are sound when every fiber but the running one holds the place where
its own stack was left last, which may then be gone on from once.  That is so in every state
of a run exactly when every `resume` is called on the stack of the fiber that it saves
(`sound_iff`).  Such a run in which the main fiber does not yield is one of a stack: `resume`
pushes, and whoever yields or ends goes back into the `resume` that it was entered by
(`refines_stack`).

The functions are those of `src/hiper/base/fiber.cc:122-250`; `makecontext` and
`swapcontext` are the calls of `ucontext.h` that they make.  The scheduler's own fiber is
where `resume` goes back to for fibers that were made with `back_to_caller` off, and the
thread's main fiber for the others (`base`), so that the three pointers say everything about
who is returned to.  What a fiber does between two of these calls is its own code and is not
modelled; a run is a list of calls in the order in which the thread makes them, on whatever
stack it is then.
-/

namespace Hiper

open Lib

namespace Fiber

open Scheduler (FiberId)

/-- Where a context goes on.  It is the point in the code at which a context goes on when it is
loaded. -/
inductive Place
  /-- At the start of `MainFunc`. -/
  | entry
  /-- In `resume` of this fiber. -/
  | resume (f : FiberId)
  /-- In `yield`. -/
  | yield
  /-- In the `yield` at the end of `MainFunc`; what comes then is an assertion. -/
  | over
  deriving DecidableEq, Repr

/-- A `ucontext_t`: the fiber whose stack it is on, the number of the switch that left it there,
and the place.  The number tells two visits of the same place apart. -/
structure Context where
  owner : FiberId
  stamp : ℕ
  place : Place
  deriving DecidableEq, Repr

end Fiber

/-- `Fiber`.  Its state, which way it goes back, and its context (`fiber.h`). -/
structure Fiber where
  state : FiberState
  backToCaller : Bool
  ctx : Fiber.Context

namespace Fiber

open Scheduler (FiberId)

/-- The fibers of a thread: `t_fiber`, `t_thread_main_fiber`, `t_scheduler_fiber`, the fiber
whose stack the thread is on, and when each stack was left last.  The fibers are found by their
number. -/
structure Thread where
  current : FiberId
  main : FiberId
  scheduler : FiberId
  fibers : FiberId → Option Fiber
  running : FiberId
  left : FiberId → ℕ
  switches : ℕ

namespace Thread

/-- The thread after `GetThis()` made its main fiber; with `caller`, after a `Scheduler` made
`caller_scheduler_fiber_` there.  `GetThis` is `fiber.cc:187`. -/
def start (caller : Bool) : Thread where
  current := 0
  main := 0
  scheduler := if caller then 1 else 0
  fibers f :=
    if f = 0 then some ⟨.exec, false, ⟨0, 0, .entry⟩⟩
    else if caller ∧ f = 1 then some ⟨.init, true, ⟨1, 0, .entry⟩⟩
    else none
  running := 0
  left _ := 0
  switches := 0

/-- The fiber that `resume` saves and `yield` goes to.  The main fiber with `back_to_caller_`,
else the scheduler's. -/
def base (c : Fiber) (t : Thread) : FiberId := if c.backToCaller then t.main else t.scheduler

/-- `swapcontext(&save->ctx_, &load->ctx_)`, at this place of the code.  The context that is
left is stored in `save`, on the stack that is running, whoever's it is. -/
def swapcontext (save load : FiberId) (place : Place) (t : Thread) : Option Thread :=
  (t.fibers save).bind fun c =>
    let fibers := Function.update t.fibers save (some { c with ctx := ⟨t.running, t.switches, place⟩ })
    (fibers load).bind fun d =>
      if d.ctx.place = .over then none
      else
        some { t with
          fibers := fibers
          running := d.ctx.owner
          left := Function.update t.left t.running t.switches
          switches := t.switches + 1 }

/-- Write `state_`.  The context stays. -/
def setState (f : FiberId) (c : Fiber) (s : FiberState) (t : Thread) : Thread :=
  { t with fibers := Function.update t.fibers f (some { c with state := s }) }

/-- `f->resume()`.  It asserts that the fiber is not executing, and saves into the base
(`fiber.cc:141`). -/
def resume (f : FiberId) (t : Thread) : Option Thread :=
  (t.fibers f).bind fun c =>
    if c.state = .exec then none
    else
      { t.setState f c .exec with current := f }.swapcontext (t.base c) f (.resume f)

/-- `f->yield()`.  It saves into the fiber itself and loads the base (`fiber.cc:161`). -/
def yield (f : FiberId) (place : Place) (t : Thread) : Option Thread :=
  (t.fibers f).bind fun c =>
    { t with current := t.base c }.swapcontext f (t.base c) place

/-- `YieldToReady`, `YieldToHold`.  The fiber is the one that `t_fiber` names, and must be
executing (`fiber.cc:200`, `209`). -/
def yieldTo (s : FiberState) (t : Thread) : Option Thread :=
  (t.fibers t.current).bind fun c =>
    if c.state = .exec then (t.setState t.current c s).yield t.current .yield else none

/-- The end of `MainFunc`, whose `cur` is the fiber it runs on.  Its last switch is a `yield`
(`fiber.cc:223`). -/
def finish (s : FiberState) (t : Thread) : Option Thread :=
  if t.running = t.main then none
  else (t.fibers t.running).bind fun c => (t.setState t.running c s).yield t.running .over

/-- A context at the start of `MainFunc`.  Its stack is fresh. -/
def makecontext (f : FiberId) (backToCaller : Bool) (t : Thread) : Thread :=
  { t with
    fibers := Function.update t.fibers f (some ⟨.init, backToCaller, ⟨f, t.switches, .entry⟩⟩)
    left := Function.update t.left f t.switches }

/-- `f->reset(cb)`.  It asserts that the fiber has ended or never started (`fiber.cc:122`). -/
def reset (f : FiberId) (t : Thread) : Option Thread :=
  (t.fibers f).bind fun c =>
    if f ≠ t.main ∧ (c.state = .term ∨ c.state = .except ∨ c.state = .init) then
      some (t.makecontext f c.backToCaller)
    else none

/-- What happens on the thread.  Whoever runs may do any of them. -/
inductive Act
  | create (f : FiberId) (backToCaller : Bool)
  | reset (f : FiberId)
  | resume (f : FiberId)
  | yield
  | yieldToReady
  | yieldToHold
  /-- `MainFunc` ends, or catches an exception. -/
  | finish (ok : Bool)
  /-- `state_ = HOLD` in `Scheduler::run`, when a fiber came back. -/
  | hold (f : FiberId)
  deriving DecidableEq, Repr

/-- The end of a turn of `Scheduler::run` with the fiber, when it is not scheduled again.  It
writes the state and switches nowhere (`scheduler.cc:168`). -/
def hold (f : FiberId) (t : Thread) : Option Thread :=
  (t.fibers f).map fun c =>
    if c.state ≠ .ready ∧ c.state ≠ .term ∧ c.state ≠ .except then t.setState f c .hold else t

/-- What an act does; nothing where an assertion of the code fails. -/
def step (act : Act) (t : Thread) : Option Thread :=
  match act with
  | .create f backToCaller => if (t.fibers f).isSome then none else some (t.makecontext f backToCaller)
  | .reset f => t.reset f
  | .resume f => t.resume f
  | .yield => t.yield t.current .yield
  | .yieldToReady => t.yieldTo .ready
  | .yieldToHold => t.yieldTo .hold
  | .finish ok => t.finish (if ok then .term else .except)
  | .hold f => t.hold f

/-! ### What is to hold -/

/-- The context is the place where the fiber's own stack was left last.  Its number is that of
the last time the stack was left. -/
def Own (t : Thread) (f : FiberId) (c : Fiber) : Prop := c.ctx.owner = f ∧ c.ctx.stamp = t.left f

/-- Every fiber but the running one holds its own place.  The running one's context is out of
date. -/
def Kept (t : Thread) : Prop := ∀ f c, t.fibers f = some c → f ≠ t.running → t.Own f c

/-- The contexts are sound, and `t_fiber` is the running fiber.  It is what makes every later
switch go where it should. -/
def Sound (t : Thread) : Prop := t.current = t.running ∧ t.Kept

/-- A `resume` is called on the stack of the fiber that it saves.  For the other acts there is
nothing to ask. -/
def CalledByBase (act : Act) (t : Thread) : Prop :=
  ∀ f c, act = .resume f → t.fibers f = some c → t.running = t.base c

variable {t t' : Thread} {f g save load : FiberId} {c d : Fiber} {place : Place} {s : FiberState}

/-! ### What the functions do -/

/-- What `swapcontext` does.  It is the one lemma that unfolds it. -/
theorem swapcontext_eq (h : t.swapcontext save load place = some t') : ∃ c d,
    t.fibers save = some c ∧
    (load = save ∧ d = { c with ctx := ⟨t.running, t.switches, place⟩ } ∨
      load ≠ save ∧ t.fibers load = some d) ∧
    d.ctx.place ≠ .over ∧
    t' = { t with
      fibers := Function.update t.fibers save (some { c with ctx := ⟨t.running, t.switches, place⟩ })
      running := d.ctx.owner
      left := Function.update t.left t.running t.switches
      switches := t.switches + 1 } := by
  obtain ⟨c, hc, h⟩ := Option.bind_eq_some_iff.1 h
  obtain ⟨d, hd, h⟩ := Option.bind_eq_some_iff.1 h
  split_ifs at h with hover
  refine ⟨c, d, hc, ?_, hover, (Option.some.inj h).symm⟩
  by_cases hself : load = save
  · subst hself
    rw [Function.update_self, Option.some_inj] at hd
    exact Or.inl ⟨rfl, hd.symm⟩
  · rw [Function.update_of_ne hself] at hd
    exact Or.inr ⟨hself, hd⟩

/-! ### Soundness -/

/-- **A switch from the running fiber**: the other one runs, and every other fiber still holds
its own place.  The context that was loaded is used up. -/
theorem Kept.swapcontext (h : t.Kept) (h' : t.swapcontext t.running load place = some t') :
    t'.running = load ∧ t'.Kept := by
  obtain ⟨c, d, hc, hload, -, rfl⟩ := swapcontext_eq h'
  have hrunning : d.ctx.owner = load := by
    rcases hload with ⟨rfl, rfl⟩ | ⟨hne, hd⟩
    · rfl
    · exact (h load d hd hne).1
  refine ⟨hrunning, fun g c' hg hne => ?_⟩
  change g ≠ d.ctx.owner at hne
  change Function.update t.fibers t.running _ g = some c' at hg
  rw [Own]
  change c'.ctx.owner = g ∧ c'.ctx.stamp = Function.update t.left t.running t.switches g
  by_cases hgr : g = t.running
  · subst hgr
    rw [Function.update_self, Option.some_inj] at hg
    rw [Function.update_self, ← hg]
    exact ⟨rfl, rfl⟩
  · rw [Function.update_of_ne hgr] at hg ⊢
    exact h g c' hg hgr

/-- **A switch that saves another fiber** leaves that one with a place that is not its own.  The
place of that one's own stack is overwritten. -/
theorem not_sound_swapcontext (hsave : save ≠ t.running) (hcurrent : t.current = load)
    (h' : t.swapcontext save load place = some t') : ¬t'.Sound := by
  obtain ⟨c, d, hc, hload, -, rfl⟩ := swapcontext_eq h'
  rintro ⟨hrunning, hkept⟩
  change t.current = d.ctx.owner at hrunning
  rw [hcurrent] at hrunning
  rcases hload with ⟨rfl, rfl⟩ | ⟨hne, -⟩
  · exact hsave hrunning
  · have hown := hkept save { c with ctx := ⟨t.running, t.switches, place⟩ } (Function.update_self ..)
      (by change save ≠ d.ctx.owner; rw [← hrunning]; exact hne.symm)
    exact hsave hown.1.symm

/-- Writing a state keeps the contexts. -/
theorem Kept.setState (h : t.Kept) (hc : t.fibers f = some c) (s : FiberState) : (t.setState f c s).Kept := by
  intro g c' hg hne
  change Function.update t.fibers f _ g = some c' at hg
  by_cases hgf : g = f
  · subst hgf
    rw [Function.update_self, Option.some_inj] at hg
    rw [Own, ← hg]
    exact h g c hc hne
  · rw [Function.update_of_ne hgf] at hg
    exact h g c' hg hne

/-- A fresh context is its fiber's own. -/
theorem Kept.makecontext (h : t.Kept) (f : FiberId) (b : Bool) : (t.makecontext f b).Kept := by
  intro g c' hg hne
  change Function.update t.fibers f _ g = some c' at hg
  rw [Own]
  change c'.ctx.owner = g ∧ c'.ctx.stamp = Function.update t.left f t.switches g
  by_cases hgf : g = f
  · subst hgf
    rw [Function.update_self, Option.some_inj] at hg
    rw [Function.update_self, ← hg]
    exact ⟨rfl, rfl⟩
  · rw [Function.update_of_ne hgf] at hg ⊢
    exact h g c' hg hne

/-- Leaving the running fiber, for the one that it goes back to.  It saves the running fiber, so
nothing is lost. -/
theorem Sound.yield (h : t.Sound) (hyield : t.yield t.running place = some t') : t'.Sound := by
  obtain ⟨c, hc, hswap⟩ := Option.bind_eq_some_iff.1 hyield
  have hkept : ({ t with current := t.base c } : Thread).Kept := h.2
  obtain ⟨hrunning, hkept'⟩ := hkept.swapcontext hswap
  refine ⟨?_, hkept'⟩
  obtain ⟨_, _, _, _, _, rfl⟩ := swapcontext_eq hswap
  exact hrunning.symm

/-- What a `resume` that goes through has done: a state, a pointer, and a switch from the base. -/
theorem resume_eq (h : t.resume f = some t') : ∃ c, t.fibers f = some c ∧ c.state ≠ .exec ∧
    ({ t.setState f c .exec with current := f } : Thread).swapcontext (t.base c) f (.resume f) = some t' := by
  obtain ⟨c, hc, h⟩ := Option.bind_eq_some_iff.1 h
  split_ifs at h with hstate
  exact ⟨c, hc, hstate, h⟩

/-- **`resume`** keeps the contexts sound exactly when the fiber that it saves is running.  When
it is not, its own place is overwritten by that of another stack. -/
theorem sound_resume_iff (h : t.Sound) (hresume : t.resume f = some t') (hc : t.fibers f = some c) :
    t'.Sound ↔ t.running = t.base c := by
  obtain ⟨c', hc', -, hswap⟩ := resume_eq hresume
  obtain rfl : c' = c := Option.some.inj (hc'.symm.trans hc)
  have hkept : ({ t.setState f c' .exec with current := f } : Thread).Kept := h.2.setState hc .exec
  constructor
  · intro hsound
    by_contra hne
    exact not_sound_swapcontext (t := { t.setState f c' .exec with current := f }) (Ne.symm hne) rfl hswap
      hsound
  · intro hbase
    rw [← hbase] at hswap
    obtain ⟨hrunning, hkept'⟩ := hkept.swapcontext hswap
    refine ⟨?_, hkept'⟩
    obtain ⟨_, _, _, _, _, rfl⟩ := swapcontext_eq hswap
    exact hrunning.symm

/-- What `YieldToReady` and `YieldToHold` do: a state, and a `yield`. -/
theorem yieldTo_eq (h : t.yieldTo s = some t') : ∃ c, t.fibers t.current = some c ∧ c.state = .exec ∧
    (t.setState t.current c s).yield t.current .yield = some t' := by
  obtain ⟨c, hc, h⟩ := Option.bind_eq_some_iff.1 h
  split_ifs at h with hstate
  exact ⟨c, hc, hstate, h⟩

/-- What the end of `MainFunc` does: a state, and a `yield`; the main fiber has none. -/
theorem finish_eq (h : t.finish s = some t') : t.running ≠ t.main ∧ ∃ c, t.fibers t.running = some c ∧
    (t.setState t.running c s).yield t.running .over = some t' := by
  rw [finish] at h
  split_ifs at h with hmain
  exact ⟨hmain, Option.bind_eq_some_iff.1 h⟩

/-- What `reset` does: a fresh context in a fiber that has ended or never started. -/
theorem reset_eq (h : t.reset f = some t') : ∃ c, t.fibers f = some c ∧ f ≠ t.main ∧
    (c.state = .term ∨ c.state = .except ∨ c.state = .init) ∧ t' = t.makecontext f c.backToCaller := by
  obtain ⟨c, hc, h⟩ := Option.bind_eq_some_iff.1 h
  split_ifs at h with hcond
  exact ⟨c, hc, hcond.1, hcond.2, (Option.some.inj h).symm⟩

/-- What the end of a turn does: a state, or nothing. -/
theorem hold_eq (h : t.hold f = some t') : ∃ c, t.fibers f = some c ∧
    (t' = t.setState f c .hold ∨ t' = t) := by
  obtain ⟨c, hc, rfl⟩ := Option.map_eq_some_iff.1 h
  refine ⟨c, hc, ?_⟩
  split_ifs
  · exact Or.inl rfl
  · exact Or.inr rfl

/-- Leaving with a state written keeps the contexts sound. -/
theorem Sound.yieldTo (h : t.Sound) (hyield : t.yieldTo s = some t') : t'.Sound := by
  obtain ⟨c, hc, -, hyield⟩ := yieldTo_eq hyield
  rw [h.1] at hc hyield
  exact Sound.yield (t := t.setState t.running c s) ⟨h.1, h.2.setState hc s⟩ hyield

/-- **One step.**  One case for each act; only `resume` has a condition. -/
theorem sound_step_iff {act : Act} (h : t.Sound) (hstep : step act t = some t') :
    t'.Sound ↔ CalledByBase act t := by
  cases act with
  | resume f =>
      obtain ⟨c, hc, -, -⟩ := resume_eq hstep
      rw [sound_resume_iff h hstep hc]
      constructor
      · rintro hbase _ c' ⟨⟩ hc'
        obtain rfl : c' = c := Option.some.inj (hc'.symm.trans hc)
        exact hbase
      · exact fun hcalled => hcalled f c rfl hc
  | create f b =>
      refine iff_of_true ?_ nofun
      change (if _ then none else some _) = _ at hstep
      split_ifs at hstep
      obtain rfl := Option.some.inj hstep
      exact ⟨h.1, h.2.makecontext f b⟩
  | reset f =>
      refine iff_of_true ?_ nofun
      obtain ⟨c, -, -, -, rfl⟩ := reset_eq hstep
      exact ⟨h.1, h.2.makecontext f c.backToCaller⟩
  | yield =>
      have hyield : t.yield t.running .yield = some t' := by
        rw [← h.1]
        exact hstep
      exact iff_of_true (h.yield hyield) nofun
  | yieldToReady => exact iff_of_true (h.yieldTo hstep) nofun
  | yieldToHold => exact iff_of_true (h.yieldTo hstep) nofun
  | finish ok =>
      refine iff_of_true ?_ nofun
      obtain ⟨-, c, hc, hyield⟩ := finish_eq hstep
      exact Sound.yield (t := t.setState t.running c _) ⟨h.1, h.2.setState hc _⟩ hyield
  | hold f =>
      refine iff_of_true ?_ nofun
      obtain ⟨c, hc, rfl | rfl⟩ := hold_eq hstep
      · exact ⟨h.1, h.2.setState hc .hold⟩
      · exact h

/-- The fibers at the start are the main one and, in the caller's thread, the scheduler's. -/
theorem start_fibers {caller : Bool} (hc : (start caller).fibers f = some c) :
    f = 0 ∧ c = ⟨.exec, false, ⟨0, 0, .entry⟩⟩ ∨
      f = 1 ∧ caller = true ∧ c = ⟨.init, true, ⟨1, 0, .entry⟩⟩ := by
  change (if f = 0 then _ else if caller = true ∧ f = 1 then _ else none) = some c at hc
  split_ifs at hc with hzero hone
  · exact Or.inl ⟨hzero, (Option.some.inj hc).symm⟩
  · exact Or.inr ⟨hone.2, hone.1, (Option.some.inj hc).symm⟩

/-- At the start the contexts are sound. -/
theorem start_sound (caller : Bool) : (start caller).Sound := by
  refine ⟨rfl, fun f c hc hne => ?_⟩
  rcases start_fibers hc with ⟨rfl, -⟩ | ⟨rfl, -, rfl⟩
  · exact absurd rfl hne
  · exact ⟨rfl, rfl⟩

/-- **The contexts are sound** in every state of a run if and only if every `resume` is called
on the stack of the fiber that it saves.  The condition is on each `resume` and the thread
before it; both directions are over every run. -/
theorem sound_iff (caller : Bool) {acts : List Act} (hrun : run step acts (start caller) = some t) :
    Always step Sound acts (start caller) ↔ Meets step CalledByBase acts (start caller) :=
  always_iff_meets (J := fun _ => True) (fun _ _ _ _ _ => trivial)
    (fun _ _ _ _ hs hstep => sound_step_iff hs hstep) trivial (start_sound caller) hrun

/-- A fiber of a worker resumes another one, and the place of the scheduler is lost.  The
failing run: the second `resume` saves the scheduler's fiber while a worker's fiber is running. -/
theorem sound_iff_nested :
    ¬Always step Sound [.create 1 false, .create 2 false, .resume 1, .resume 2] (start false) := by
  intro h
  have hmeets := (sound_iff false (t := ⟨_, _, _, _, _, _, _⟩) rfl).1 h
  exact absurd ((((hmeets.2 _ rfl).2 _ rfl).2 _ rfl).1 2 _ rfl rfl) (by decide)

/-! ### The stack -/

/-- The running fiber leaves.  It is one of `yield`, its two forms, and the end. -/
def Act.leaves : Act → Bool
  | .yield => true
  | .yieldToReady => true
  | .yieldToHold => true
  | .finish _ => true
  | _ => false

/-- What an act does to the stack of fibers.  The others leave it as it is. -/
def push (st : List FiberId) : Act → List FiberId
  | .resume f => f :: st
  | act => if act.leaves then st.tail else st

/-- A `resume` is called on the stack that it saves, the main fiber does not yield, and
`Scheduler::run` holds fibers that it resumed.  These are what `Scheduler::run` and user code
keep to. -/
structure Disciplined (act : Act) (t : Thread) : Prop where
  called : CalledByBase act t
  leaves : act.leaves = true → t.running ≠ t.main
  holds : ∀ f c, act = .hold f → t.fibers f = some c → t.running = t.base c ∧ f ≠ t.running ∧ f ≠ t.main

/-- `a` was entered from `b`, which is still in that `resume`.  Its context says so. -/
def Entered (t : Thread) (a b : FiberId) : Prop :=
  (∃ c, t.fibers a = some c ∧ t.base c = b) ∧ ∃ d, t.fibers b = some d ∧ d.ctx.place = .resume a

/-- Each fiber was entered from the one below, the lowest is the main fiber.  The top is the
fiber that runs. -/
def Stacked (t : Thread) : List FiberId → Prop
  | [] => False
  | [f] => f = t.main
  | a :: b :: rest => t.Entered a b ∧ Stacked t (b :: rest)

/-- The thread is at the top of this stack.  With sound contexts, no fiber twice, and nobody
else in a `resume`. -/
structure Stack (st : List FiberId) (t : Thread) : Prop where
  sound : t.Sound
  head : st.head? = some t.running
  stacked : t.Stacked st
  nodup : st.Nodup
  exec : ∀ f ∈ st, ∃ c, t.fibers f = some c ∧ c.state = .exec
  outside : ∀ f c, t.fibers f = some c → f ∉ st → ∀ g, c.ctx.place ≠ .resume g

variable {a b : FiberId} {rest st : List FiberId} {act : Act}

/-- What does not touch the stack, but for the context of the one on top.  It says what of a
thread the stack reads. -/
theorem Stacked.frame (h : t.Stacked (a :: rest)) (hmain : t'.main = t.main)
    (hscheduler : t'.scheduler = t.scheduler)
    (hhead : ∀ c, t.fibers a = some c → ∃ c', t'.fibers a = some c' ∧ c'.backToCaller = c.backToCaller)
    (hrest : ∀ f ∈ rest, t'.fibers f = t.fibers f) : t'.Stacked (a :: rest) := by
  induction rest generalizing a with
  | nil => exact Eq.trans h hmain.symm
  | cons b rest ih =>
      obtain ⟨⟨⟨c, hc, hbase⟩, d, hd, hplace⟩, hbelow⟩ := h
      obtain ⟨hb, hrest⟩ := List.forall_mem_cons.1 hrest
      obtain ⟨c', hc', hback⟩ := hhead c hc
      refine ⟨⟨⟨c', hc', ?_⟩, d, hb.trans hd, hplace⟩, ih hbelow (fun c hc => ⟨c, hb.trans hc, rfl⟩) hrest⟩
      rw [← hbase, base, base, hmain, hscheduler, hback]

/-- The main fiber is in the stack. -/
theorem Stacked.main_mem (h : t.Stacked (a :: rest)) : t.main ∈ a :: rest := by
  induction rest generalizing a with
  | nil => exact List.mem_singleton.2 (Eq.symm h)
  | cons b rest ih => exact List.mem_cons_of_mem _ (ih h.2)

/-- Below the top there is the scheduler's fiber and the main fiber.  No fiber but these two is
ever a base. -/
theorem Stacked.below (h : t.Stacked (a :: rest)) : ∀ f ∈ rest, f = t.main ∨ f = t.scheduler := by
  induction rest generalizing a with
  | nil => exact fun f hf => absurd hf List.not_mem_nil
  | cons b rest ih =>
      obtain ⟨⟨⟨c, -, hbase⟩, -⟩, hbelow⟩ := h
      refine List.forall_mem_cons.2 ⟨?_, ih hbelow⟩
      rw [← hbase, base]
      split_ifs
      · exact Or.inl rfl
      · exact Or.inr rfl

/-- A stack has at most three fibers. -/
theorem Stack.length_le (h : Stack st t) : st.length ≤ 3 := by
  cases st with
  | nil => exact Nat.zero_le _
  | cons a rest =>
      have hsub : rest ⊆ [t.main, t.scheduler] := fun f hf => by simpa using h.stacked.below f hf
      have hle := (List.nodup_cons.1 h.nodup).2.length_le_of_subset hsub
      rw [List.length_cons]
      exact Nat.succ_le_succ hle

/-- A fiber that is not executing is not in the stack.  So a `resume` pushes one that is not
there. -/
theorem Stack.notMem (h : Stack st t) (hf : ∀ c, t.fibers f = some c → c.state ≠ .exec) : f ∉ st := by
  intro hmem
  obtain ⟨c, hc, hexec⟩ := h.exec f hmem
  exact hf c hc hexec

/-- Writing a fiber that is not in the stack.  Its place must not be one in a `resume`. -/
theorem Stack.update (h : Stack st t) (hf : f ∉ st) (hfibers : t'.fibers = Function.update t.fibers f (some d))
    (hmain : t'.main = t.main) (hscheduler : t'.scheduler = t.scheduler) (hrunning : t'.running = t.running)
    (hsound : t'.Sound) (hplace : ∀ g, d.ctx.place ≠ .resume g) : Stack st t' := by
  have hsame : ∀ g ∈ st, t'.fibers g = t.fibers g := by
    intro g hg
    rw [hfibers, Function.update_of_ne fun hgf : g = f => hf (hgf ▸ hg)]
  refine ⟨hsound, hrunning ▸ h.head, ?_, h.nodup, fun g hg => ?_, fun g x hg hnot => ?_⟩
  · cases st with
    | nil => exact h.stacked
    | cons a rest =>
        obtain ⟨ha, hrest⟩ := List.forall_mem_cons.1 hsame
        exact h.stacked.frame hmain hscheduler (fun c hc => ⟨c, ha.trans hc, rfl⟩) hrest
  · rw [hsame g hg]
    exact h.exec g hg
  · rw [hfibers] at hg
    by_cases hgf : g = f
    · rw [hgf, Function.update_self, Option.some_inj] at hg
      exact hg ▸ hplace
    · rw [Function.update_of_ne hgf] at hg
      exact h.outside g x hg hnot

/-- The top of the stack is the running fiber. -/
theorem Stack.cons (h : Stack st t) : ∃ rest, st = t.running :: rest := by
  cases st with
  | nil => cases h.head
  | cons a rest => exact ⟨rest, by rw [Option.some.inj h.head]⟩

/-- **`resume` pushes.**  The base was running and is now in that `resume`. -/
theorem Stack.resume (h : Stack st t) (hresume : t.resume f = some t')
    (hcalled : ∀ c, t.fibers f = some c → t.running = t.base c) : Stack (f :: st) t' := by
  obtain ⟨c, hc, hstate, hswap⟩ := resume_eq hresume
  have hbase := hcalled c hc
  have hsound := (sound_resume_iff h.sound hresume hc).2 hbase
  have hf : f ∉ st := h.notMem fun c' hc' => by rwa [Option.some.inj (hc'.symm.trans hc)]
  have hkept : ({ t.setState f c .exec with current := f } : Thread).Kept := h.sound.2.setState hc .exec
  rw [← hbase] at hswap
  have hrunning := (hkept.swapcontext hswap).1
  obtain ⟨rest, rfl⟩ := h.cons
  obtain ⟨hfr, hrest⟩ := List.ne_and_not_mem_of_not_mem_cons hf
  have hne := hfr.symm
  obtain ⟨x, d, hx, -, -, rfl⟩ := swapcontext_eq hswap
  have hx' : t.fibers t.running = some x := by
    change Function.update t.fibers f _ t.running = some x at hx
    rwa [Function.update_of_ne hne] at hx
  -- the fibers after the switch
  have hself : ∀ g, g ≠ t.running → g ≠ f → Function.update (Function.update t.fibers f
      (some { c with state := .exec })) t.running
        (some { x with ctx := ⟨t.running, t.switches, .resume f⟩ }) g = t.fibers g := fun g hgr hgf => by
    rw [Function.update_of_ne hgr, Function.update_of_ne hgf]
  have hfiber : Function.update (Function.update t.fibers f (some { c with state := .exec })) t.running
      (some { x with ctx := ⟨t.running, t.switches, .resume f⟩ }) f = some { c with state := .exec } := by
    rw [Function.update_of_ne hne.symm, Function.update_self]
  have hbelow : ∀ g ∈ rest, g ≠ t.running ∧ g ≠ f := fun g hg =>
    ⟨fun hgr => (List.nodup_cons.1 h.nodup).1 (hgr ▸ hg), fun hgf => hrest (hgf ▸ hg)⟩
  refine ⟨hsound, congrArg some hrunning.symm, ⟨⟨⟨_, hfiber, hbase.symm⟩, _, Function.update_self .., rfl⟩, ?_⟩,
    List.nodup_cons.2 ⟨hf, h.nodup⟩, ?_, fun g y hg hnot => ?_⟩
  · refine h.stacked.frame rfl rfl (fun x' hx'' => ⟨_, Function.update_self .., ?_⟩)
      fun g hg => hself g (hbelow g hg).1 (hbelow g hg).2
    rw [Option.some.inj (hx''.symm.trans hx')]
  · refine List.forall_mem_cons.2 ⟨⟨_, hfiber, rfl⟩, List.forall_mem_cons.2 ⟨⟨_, Function.update_self .., ?_⟩, ?_⟩⟩
    · obtain ⟨x', hx'', hexec⟩ := h.exec t.running (List.mem_cons_self ..)
      rw [← Option.some.inj (hx''.symm.trans hx')]
      exact hexec
    · intro g hg
      obtain ⟨x', hx'', hexec⟩ := h.exec g (List.mem_cons_of_mem _ hg)
      exact ⟨x', (hself g (hbelow g hg).1 (hbelow g hg).2).trans hx'', hexec⟩
  · obtain ⟨hgf, hgst⟩ := not_or.1 (mt List.mem_cons.2 hnot)
    have hgr : g ≠ t.running := fun hgr => hgst (hgr ▸ List.mem_cons_self ..)
    exact h.outside g y ((hself g hgr hgf).symm.trans hg) hgst

/-- **Who leaves goes back** into the `resume` it was entered by.  The one below is its base,
which waits there. -/
theorem Stack.leave (h : Stack st t) (hmain : t.running ≠ t.main) (hleft : ∀ g, place ≠ .resume g)
    {t₀ : Thread} (hsound : t₀.Sound)
    (hsame : t₀.main = t.main ∧ t₀.scheduler = t.scheduler ∧ t₀.running = t.running)
    (hself : ∀ c, t.fibers t.running = some c →
      ∃ c₀, t₀.fibers t.running = some c₀ ∧ c₀.backToCaller = c.backToCaller)
    (hothers : ∀ g, g ≠ t.running → t₀.fibers g = t.fibers g)
    (hyield : t₀.yield t.running place = some t') :
    ∃ b rest, st = t.running :: b :: rest ∧ Stack (b :: rest) t' ∧
      (t.fibers b).map (·.ctx.place) = some (.resume t.running) := by
  obtain ⟨rest, rfl⟩ := h.cons
  cases rest with
  | nil => exact absurd h.stacked hmain
  | cons b rest =>
      obtain ⟨⟨⟨c, hc, hbase⟩, d, hd, hplace⟩, hbelow⟩ := h.stacked
      have hnodup := List.nodup_cons.1 h.nodup
      have hne : ∀ g ∈ b :: rest, g ≠ t.running := fun g hg hgr => hnodup.1 (hgr ▸ hg)
      refine ⟨b, rest, rfl, ?_, by rw [hd, Option.map_some, hplace]⟩
      rw [← hsame.2.2] at hyield
      have hsound' := hsound.yield hyield
      obtain ⟨c₀, hc₀, hswap⟩ := Option.bind_eq_some_iff.1 hyield
      obtain ⟨c₁, hc₁, hback⟩ := hself c hc
      obtain rfl : c₁ = c₀ := Option.some.inj (hc₁.symm.trans (hsame.2.2 ▸ hc₀))
      have hto : t₀.base c₁ = b := by rw [← hbase, base, base, hsame.1, hsame.2.1, hback]
      have hkept : ({ t₀ with current := t₀.base c₁ } : Thread).Kept := hsound.2
      have hrunning := (hkept.swapcontext hswap).1
      rw [hto] at hrunning
      obtain ⟨x, y, hx, -, -, rfl⟩ := swapcontext_eq hswap
      -- the fibers below are as they were
      have hfibers : ∀ g ∈ b :: rest, Function.update t₀.fibers t₀.running
          (some { x with ctx := ⟨t₀.running, t₀.switches, place⟩ }) g = t.fibers g := fun g hg => by
        rw [Function.update_of_ne (hsame.2.2 ▸ hne g hg), hothers g (hne g hg)]
      obtain ⟨hb, hrest⟩ := List.forall_mem_cons.1 hfibers
      refine ⟨hsound', congrArg some hrunning.symm, ?_, hnodup.2, fun g hg => ?_, fun g z hg hnot => ?_⟩
      · exact hbelow.frame hsame.1 hsame.2.1 (fun c hc => ⟨c, hb.trans hc, rfl⟩) hrest
      · obtain ⟨x', hx', hexec⟩ := h.exec g (List.mem_cons_of_mem _ hg)
        exact ⟨x', (hfibers g hg).trans hx', hexec⟩
      · change Function.update t₀.fibers t₀.running _ g = some z at hg
        by_cases hgr : g = t.running
        · rw [hgr, ← hsame.2.2, Function.update_self, Option.some_inj] at hg
          exact hg ▸ hleft
        · rw [Function.update_of_ne (hsame.2.2 ▸ hgr), hothers g hgr] at hg
          exact h.outside g z hg fun hmem => (List.mem_cons.1 hmem).elim hgr hnot

/-- The state of the running fiber is written before it leaves.  The state is no part of the
stack. -/
theorem Stack.leave_setState (h : Stack st t) (hmain : t.running ≠ t.main)
    (hleft : ∀ g, place ≠ .resume g) (hc : t.fibers t.running = some c)
    (hyield : (t.setState t.running c s).yield t.running place = some t') :
    ∃ b rest, st = t.running :: b :: rest ∧ Stack (b :: rest) t' ∧
      (t.fibers b).map (·.ctx.place) = some (.resume t.running) := by
  have hsound : (t.setState t.running c s).Sound := ⟨h.sound.1, h.sound.2.setState hc s⟩
  refine h.leave hmain hleft hsound ⟨rfl, rfl, rfl⟩ (fun c' hc' => ⟨_, Function.update_self .., ?_⟩)
    (fun g hg => Function.update_of_ne hg ..) hyield
  rw [Option.some.inj (hc'.symm.trans hc)]

/-- Whichever way a fiber leaves, it goes back into the `resume` of the one below. -/
theorem Stack.leaves (h : Stack st t) (hact : act.leaves = true) (hmain : t.running ≠ t.main)
    (hstep : step act t = some t') : ∃ b rest, st = t.running :: b :: rest ∧ Stack (b :: rest) t' ∧
      (t.fibers b).map (·.ctx.place) = some (.resume t.running) := by
  have hto : ∀ s, t.yieldTo s = some t' → ∃ b rest, st = t.running :: b :: rest ∧ Stack (b :: rest) t' ∧
      (t.fibers b).map (·.ctx.place) = some (.resume t.running) := by
    intro s hyield
    obtain ⟨c, hc, -, hyield⟩ := yieldTo_eq hyield
    rw [h.sound.1] at hc hyield
    exact h.leave_setState hmain (fun g heq => by cases heq) hc hyield
  cases act with
  | yield =>
      have hyield : t.yield t.running .yield = some t' := by
        rw [← h.sound.1]
        exact hstep
      exact h.leave hmain (fun g heq => by cases heq) h.sound ⟨rfl, rfl, rfl⟩ (fun c hc => ⟨c, hc, rfl⟩) (fun _ _ => rfl) hyield
  | yieldToReady => exact hto _ hstep
  | yieldToHold => exact hto _ hstep
  | finish ok =>
      obtain ⟨-, c, hc, hyield⟩ := finish_eq hstep
      exact h.leave_setState hmain (fun g heq => by cases heq) hc hyield
  | create f b => cases hact
  | reset f => cases hact
  | resume f => cases hact
  | hold f => cases hact

/-- A fiber that `Scheduler::run` holds is not in the stack.  It has come back, so it is not
waiting. -/
theorem Stack.notMem_held (h : Stack st t) (hbase : t.running = t.base c) (hrunning : f ≠ t.running)
    (hmain : f ≠ t.main) : f ∉ st := by
  obtain ⟨rest, rfl⟩ := h.cons
  intro hf
  rcases List.mem_cons.1 hf with hf | hf
  · exact hrunning hf
  · obtain rfl : f = t.scheduler := (h.stacked.below f hf).resolve_left hmain
    have hboth : t.running = t.main := by
      rw [base] at hbase
      split_ifs at hbase
      · exact hbase
      · exact absurd hbase.symm hrunning
    cases rest with
    | nil => cases hf
    | cons b rest =>
        have hbelow := Stacked.main_mem h.stacked.2
        rw [← hboth] at hbelow
        exact (List.nodup_cons.1 h.nodup).1 hbelow

/-- **One step** of a disciplined run does to the stack what `push` says.  One case for each
act. -/
theorem Stack.step (h : Stack st t) (hd : Disciplined act t) (hstep : Thread.step act t = some t') :
    Stack (push st act) t' := by
  have hsound := (sound_step_iff h.sound hstep).2 hd.called
  by_cases hleaves : act.leaves = true
  · obtain ⟨b, rest, rfl, hstack, -⟩ := h.leaves hleaves (hd.leaves hleaves) hstep
    cases act with
    | resume f => cases hleaves
    | _ => first | exact hstack | cases hleaves
  · cases act with
    | resume f => exact h.resume hstep fun c hc => hd.called f c rfl hc
    | create f b =>
        change (if _ then none else some _) = _ at hstep
        split_ifs at hstep with hsome
        obtain rfl := Option.some.inj hstep
        have hf : f ∉ st := h.notMem fun c hc => by simp [hc] at hsome
        exact h.update hf rfl rfl rfl rfl hsound fun g heq => by cases heq
    | reset f =>
        obtain ⟨c, hc, -, hstate, rfl⟩ := reset_eq hstep
        have hf : f ∉ st := h.notMem fun c' hc' hexec => by
          rw [Option.some.inj (hc'.symm.trans hc)] at hexec
          rw [hexec] at hstate
          simp at hstate
        exact h.update hf rfl rfl rfl rfl hsound fun g heq => by cases heq
    | hold f =>
        obtain ⟨c, hc, rfl | rfl⟩ := hold_eq hstep
        · obtain ⟨hbase, hrunning, hmain⟩ := hd.holds f c rfl hc
          have hf := h.notMem_held hbase hrunning hmain
          exact h.update hf rfl rfl rfl rfl hsound (h.outside f c hc hf)
        · exact h
    | yield => exact absurd rfl hleaves
    | yieldToReady => exact absurd rfl hleaves
    | yieldToHold => exact absurd rfl hleaves
    | finish ok => exact absurd rfl hleaves

/-- At the start the main fiber is the whole stack. -/
theorem start_stack (caller : Bool) : Stack [0] (start caller) where
  sound := start_sound caller
  head := rfl
  stacked := rfl
  nodup := List.pairwise_singleton ..
  exec := List.forall_mem_singleton.2 ⟨_, rfl, rfl⟩
  outside f c hc _ g := by
    rcases start_fibers hc with ⟨-, rfl⟩ | ⟨-, -, rfl⟩ <;> exact fun heq => by cases heq

/-- **Every disciplined run** does to the stack what its acts say.  The induction is over the
acts. -/
theorem Stack.run {acts : List Act} (h : Stack st t) (hmeets : Meets Thread.step Disciplined acts t)
    (hrun : Lib.run Thread.step acts t = some t') : Stack (acts.foldl push st) t' := by
  induction acts generalizing st t with
  | nil =>
      rw [Lib.run, Option.some_inj] at hrun
      exact hrun ▸ h
  | cons act acts ih =>
      obtain ⟨t₁, ht₁, hrest⟩ := Option.bind_eq_some_iff.1 hrun
      exact ih (h.step hmeets.1 ht₁) (hmeets.2 t₁ ht₁) hrest

/-- **A thread of fibers is a stack.**  In a disciplined run the fibers that execute their code
or wait in a `resume` (`src/hiper/base/fiber.cc:141`) are those of the stack: a `resume` pushes
the fiber, and one that leaves is popped.  `t_fiber` is the one on top, at most three are there,
each below the top waits in the `resume` of the one above it, the lowest is the main fiber, and no
fiber outside of the stack waits in a `resume`.  Who leaves goes back into the `resume` of the one
below by which it was entered. -/
theorem refines_stack (caller : Bool) {acts : List Act} (hrun : run step acts (start caller) = some t)
    (hmeets : Meets step Disciplined acts (start caller)) :
    ∃ rest, acts.foldl push [0] = t.running :: rest ∧ t.current = t.running ∧
      (t.running :: rest).Nodup ∧ (t.running :: rest).length ≤ 3 ∧
      (∀ f ∈ t.running :: rest, ∃ c, t.fibers f = some c ∧ c.state = .exec) ∧
      t.Stacked (t.running :: rest) ∧
      (∀ f c, t.fibers f = some c → f ∉ t.running :: rest → ∀ g, c.ctx.place ≠ .resume g) ∧
      ∀ act t', act.leaves = true → t.running ≠ t.main → step act t = some t' →
        ∃ f rest', rest = f :: rest' ∧ t'.running = f ∧ t'.current = f ∧
          (t.fibers f).map (·.ctx.place) = some (.resume t.running) := by
  have h := (start_stack caller).run hmeets hrun
  obtain ⟨rest, hrest⟩ := h.cons
  rw [hrest] at h
  refine ⟨rest, hrest, h.sound.1, h.nodup, h.length_le, h.exec, h.stacked, h.outside, ?_⟩
  intro act t' hleaves hmain hstep
  obtain ⟨f, rest', hst, hstack, hplace⟩ := h.leaves hleaves hmain hstep
  obtain rfl : rest = f :: rest' := (List.cons.inj hst).2
  have hrunning : t'.running = f := (Option.some.inj hstack.head).symm
  exact ⟨f, rest', rfl, hrunning, hstack.sound.1.trans hrunning, hplace⟩

/-- The scheduler in the caller's thread: the main fiber resumes its fiber, and that another
one, from which the way back is through both.  Three fibers are in the stack then. -/
theorem refines_stack_caller :
    ∃ t, run step [.resume 1, .create 2 false, .resume 2] (start true) = some t ∧ t.running = 2 ∧
      ∀ act t', act.leaves = true → step act t = some t' → t'.running = 1 := by
  have hmeets : Meets step Disciplined [.resume 1, .create 2 false, .resume 2] (start true) := by
    refine .cons ⟨?_, nofun, nofun⟩ rfl (.cons ⟨nofun, nofun, nofun⟩ rfl (.cons ⟨?_, nofun, nofun⟩ rfl trivial))
    · rintro _ c ⟨⟩ hc
      obtain rfl := Option.some.inj hc
      rfl
    · rintro _ c ⟨⟩ hc
      obtain rfl := Option.some.inj hc
      rfl
  obtain ⟨rest, hst, -, -, -, -, -, -, hback⟩ := refines_stack true rfl hmeets
  refine ⟨_, rfl, rfl, fun act t' hleaves hstep => ?_⟩
  obtain ⟨f, rest', rfl, hrunning, -, -⟩ := hback act t' hleaves (by decide) hstep
  rw [hrunning]
  exact (List.cons.inj (List.cons.inj hst).2).1.symm

end Thread
end Fiber
end Hiper

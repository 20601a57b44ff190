import Hiper.IOManager.Cases

/-!
# Armed contexts

The law of the contexts: a registered bit has a scheduler and one waiter, and a
clear bit has an empty context (`Armed`), so that `addEvent` finds the context of
a new event empty.  `triggerEvent` leaves the scheduler behind, so a run keeps the
law exactly as long as no call triggers, and every registration is made where a
scheduler runs (`armed_iff_quiet`).  The second wait for an event that was
triggered once ends the process (`second_wait_aborts`).

The assertion is `src/hiper/base/iomanager.cc:183`, `triggerEvent` is `:85-97`, and
`resetContext`, which `delEvent` calls and `triggerEvent` does not, is `:77`.  An `addEvent`
on a thread without a scheduler writes a null pointer to the context, which is the other way
to leave the law.
-/

namespace Hiper.IOManager

open Lib

/-- A context that waits: a scheduler, and either a fiber or a callback.  Not both of them, and
not none. -/
def EventContext.Waiting (ctx : EventContext) : Prop :=
  ctx.scheduler.isSome ∧ (ctx.fiber.isSome ∧ ctx.cb = none ∨ ctx.fiber = none ∧ ctx.cb.isSome)

/-- The law of one context.  Both events are under it. -/
def FdContext.Armed (c : FdContext) : Prop :=
  ∀ e, (c.events e = true → (c.getContext e).Waiting) ∧
    (c.events e = false → c.getContext e = .empty)

/-- The law of every context.  It is an invariant of the runs that are quiet. -/
def Armed (m : IOManager) : Prop :=
  ∀ (fd : ℕ) (c : FdContext), m.fdContexts[fd]? = some c → c.Armed

/-- The call is an `addEvent` where no scheduler runs, and `epoll_ctl` succeeds.
`Scheduler::GetThis()` is null there. -/
def Call.orphans (m : IOManager) : Call → Bool
  | addEvent kernel none _ fd event _ =>
    match m.fdContexts[fd]? with
    | none => false
    | some c => kernel (addCtl fd event c)
  | _ => false

/-- The call triggers nothing, and registers nothing without a scheduler.  It is read off the
arguments and the state before. -/
def quiet (call : Call) (m : IOManager) : Bool := !call.triggers m && !call.orphans m

/-- Fresh contexts have no bit and nothing in them. -/
theorem init_armed (n : ℕ) : (init n).Armed := by
  intro fd c hc e
  have hnew : c = FdContext.new := List.eq_of_mem_replicate (List.mem_of_getElem? hc)
  rw [hnew]
  exact ⟨nofun, fun _ => rfl⟩

variable {m : IOManager} {fd : ℕ} {c c' : FdContext}

/-- Changing one context of an armed manager.  The others keep it. -/
theorem armed_set_iff (h : m.Armed) (hc : m.fdContexts[fd]? = some c) {m' : IOManager}
    (hm' : m'.fdContexts = m.fdContexts.set fd c') : m'.Armed ↔ c'.Armed := by
  have hself : m'.fdContexts[fd]? = some c' := by
    rw [hm']
    exact List.getElem?_set_self (lt_of_getElem? hc)
  constructor
  · intro h'
    exact h' fd c' hself
  · intro hc' fd' c'' hget
    by_cases hfd : fd' = fd
    · rw [hfd, hself, Option.some_inj] at hget
      exact hget ▸ hc'
    · rw [hm', List.getElem?_set_ne (Ne.symm hfd)] at hget
      exact h fd' c'' hget

/-- The law at an event that a change leaves alone.  It looks at one event at a time. -/
theorem FdContext.Armed.other (h : c.Armed) {e : Event} (hevents : c'.events e = c.events e)
    (hcontext : c'.getContext e = c.getContext e) :
    (c'.events e = true → (c'.getContext e).Waiting) ∧
      (c'.events e = false → c'.getContext e = .empty) := by
  rw [hevents, hcontext]
  exact h e

/-- What `addEvent` writes waits when it has a scheduler. -/
theorem waiting_newContext (scheduler : Option SchedulerPtr) (w : Waiter) :
    (newContext scheduler w).Waiting ↔ scheduler.isSome := by
  cases w <;> simp [EventContext.Waiting, newContext]

/-- After `addEvent` the law holds when the registration has a scheduler.  Nothing else can go
wrong in it. -/
theorem armed_add_iff (h : c.Armed) (scheduler : Option SchedulerPtr) (event : Event) (w : Waiter) :
    ((c.setEvent event true).setContext event (newContext scheduler w)).Armed ↔
      scheduler.isSome := by
  constructor
  · intro h'
    have hself := (h' event).1 (by simp)
    rwa [FdContext.getContext_setContext_self, waiting_newContext] at hself
  · intro hscheduler e
    by_cases he : e = event
    · subst he
      refine ⟨fun _ => ?_, fun hbit => ?_⟩
      · rwa [FdContext.getContext_setContext_self, waiting_newContext]
      · simp at hbit
    · refine h.other ?_ ?_
      · rw [FdContext.setContext_events, FdContext.setEvent_events_of_ne _ he]
      · rw [FdContext.getContext_setContext_of_ne _ he, FdContext.getContext_setEvent]

/-- After `delEvent` the law holds.  `resetContext` empties the context. -/
theorem armed_del (h : c.Armed) (event : Event) :
    ((c.setEvent event false).resetContext event).Armed := by
  intro e
  by_cases he : e = event
  · subst he
    refine ⟨fun hbit => ?_, fun _ => ?_⟩
    · rw [FdContext.resetContext, FdContext.setContext_events, FdContext.setEvent_events_self] at hbit
      cases hbit
    · rw [FdContext.resetContext, FdContext.getContext_setContext_self]
  · refine h.other ?_ ?_
    · rw [FdContext.resetContext, FdContext.setContext_events, FdContext.setEvent_events_of_ne _ he]
    · rw [FdContext.resetContext, FdContext.getContext_setContext_of_ne _ he,
        FdContext.getContext_setEvent]

/-- **The slip**: `triggerEvent` keeps the scheduler of every event.  `schedule` swaps out the
waiter alone. -/
theorem scheduler_bitTriggered (bits : Event → Bool) (event e : Event) (c : FdContext) :
    ((bitTriggered bits event c).getContext e).scheduler = (c.getContext e).scheduler := by
  unfold bitTriggered
  split_ifs
  · by_cases he : e = event
    · subst he
      rw [FdContext.triggered, FdContext.getContext_setContext_self, EventContext.swapped]
      split <;> rfl
    · rw [FdContext.getContext_triggered_of_ne he]
  · rfl

/-- So after a trigger the law does not hold.  The bit is clear, and the context is not empty. -/
theorem not_armed_trigger (hc : m.fdContexts[fd]? = some c) {bits : Event → Bool}
    (hcan : ∀ e, bits e = true → c.CanTrigger e) (hsome : ∃ e, bits e = true) :
    ¬(m.afterBits fd bits c).Armed := by
  obtain ⟨e, he⟩ := hsome
  obtain ⟨hcontexts, -, hevents⟩ := afterBits_spec hc bits
  intro h
  have hget : (m.afterBits fd bits c).fdContexts[fd]? =
      some (bitTriggered bits .write (bitTriggered bits .read c)) := by
    rw [hcontexts]
    exact List.getElem?_set_self (lt_of_getElem? hc)
  have hempty := (h fd _ hget e).2 (by rw [hevents, he, Bool.not_true, Bool.and_false])
  have hscheduler := (hcan e he).2
  rw [← scheduler_bitTriggered bits .read e c, ← scheduler_bitTriggered bits .write e, hempty]
    at hscheduler
  cases hscheduler

/-- **One call.**  From a state where the law holds, it holds after a call that does not end the
process if and only if the call is quiet.  By cases on what the call can do. -/
theorem armed_step_iff (h : m.Armed) {call : Call} {a : Answer} {m' : IOManager}
    (hexec : m.exec call = .ok (a, m')) : m'.Armed ↔ quiet call m = true := by
  cases outcome_of_exec hexec with
  | nothing htriggers _ hadd =>
      have horphans : call.orphans m = false := by
        unfold Call.orphans
        split
        · next kernel self fd event cb =>
            split
            · rfl
            · next c hc => exact hadd _ _ _ _ _ _ c rfl hc
        · rfl
      exact iff_of_true h (by rw [quiet, htriggers, horphans]; rfl)
  | @add kernel scheduler self fd event cb c hc hbit hempty hkernel =>
      rw [armed_set_iff h hc rfl, armed_add_iff (h fd c hc), quiet]
      cases scheduler <;> simp [Call.triggers, Call.orphans, Call.fd, hc, hkernel]
  | @del kernel fd event c hc hbit =>
      rw [armed_set_iff h hc rfl, quiet]
      refine iff_of_true (armed_del (h fd c hc) event) ?_
      simp [Call.triggers, Call.orphans, Call.fd, hc]
  | trigger hc htriggers hcan hsome =>
      refine iff_of_false (not_armed_trigger hc hcan hsome) ?_
      simp [quiet, htriggers]

/-- Where the law holds, `addEvent` finds the context of a new event empty.  The assertion holds
there. -/
theorem addEvent_ok_of_armed (h : m.Armed) (hc : m.fdContexts[fd]? = some c) {event : Event}
    (hbit : c.events event = false) (kernel : Kernel) (scheduler : Option SchedulerPtr) (self : ℕ)
    (cb : Option ℕ) : ∃ r, m.addEvent kernel scheduler self fd event cb = .ok r := by
  have hempty := (h fd c hc event).2 hbit
  unfold addEvent
  simp only [hc, hbit, hempty, Bool.false_eq_true, if_false, ne_eq, not_true]
  split_ifs
  · exact ⟨_, rfl⟩
  · exact ⟨_, rfl⟩

/-- The law, and what it is for: no `addEvent` of an event that is not registered fails an
assertion.  It is stated with the assertions, not only with the contexts. -/
def Lawful (m : IOManager) : Prop :=
  m.Armed ∧ ∀ kernel scheduler self fd event cb c, m.fdContexts[fd]? = some c →
    c.events event = false → ∃ r, m.addEvent kernel scheduler self fd event cb = .ok r

/-- The law is what the assertions need. -/
theorem lawful_iff : m.Lawful ↔ m.Armed := by
  refine ⟨fun h => h.1, fun h => ⟨h, ?_⟩⟩
  intro kernel scheduler self fd event cb c hc hbit
  exact addEvent_ok_of_armed h hc hbit kernel scheduler self cb

/-- Every step of a run is quiet; a call that ends the process is no step.  It is computed along
the run. -/
def quietRun : List Call → IOManager → Bool
  | [], _ => true
  | call :: calls, m =>
    match m.step call with
    | none => true
    | some m' => quiet call m && quietRun calls m'

/-- The law holds in every state that a run goes through.  It is asked of the first state and of
the last. -/
def LawfulRun : List Call → IOManager → Prop
  | [], m => m.Lawful
  | call :: calls, m =>
    m.Lawful ∧
      match m.step call with
      | none => True
      | some m' => LawfulRun calls m'

/-- The first state of such a run. -/
theorem LawfulRun.lawful {calls : List Call} (h : LawfulRun calls m) : m.Lawful := by
  cases calls with
  | nil => exact h
  | cons call calls => exact h.1

/-- From a state with the law a run keeps it exactly as long as its steps are quiet.  The
induction is over the calls. -/
theorem lawfulRun_iff_quietRun (h : m.Armed) (calls : List Call) :
    LawfulRun calls m ↔ quietRun calls m = true := by
  induction calls generalizing m with
  | nil => exact iff_of_true (lawful_iff.2 h) rfl
  | cons call calls ih =>
      rw [LawfulRun, quietRun, and_iff_right (lawful_iff.2 h)]
      cases hstep : m.step call with
      | none => exact iff_of_true trivial rfl
      | some m' =>
          obtain ⟨a, hexec⟩ := exists_exec_of_step hstep
          have hone := armed_step_iff h hexec
          dsimp only
          rw [Bool.and_eq_true, ← hone]
          constructor
          · intro hrun
            have harmed := lawful_iff.1 hrun.lawful
            exact ⟨harmed, (ih harmed).1 hrun⟩
          · rintro ⟨harmed, hrun⟩
            exact (ih harmed).2 hrun

/-- **The law of the contexts** holds in every state of a run, and no `addEvent` of an event
that is not registered fails there, if and only if no step of the run triggers an event or
registers one where no scheduler runs.  A run may be long and have every kind of call; a quiet
one has `addEvent` and `delEvent`, and the others where they find nothing to trigger.  The
reason is `triggerEvent` (`src/hiper/base/iomanager.cc:85-97`), which hands out the callback or
the fiber and leaves the scheduler where it is, so that the assertion in line 183 finds a
context that is not empty; `delEvent` resets it in line 238. -/
theorem armed_iff_quiet (n : ℕ) (calls : List Call) :
    LawfulRun calls (init n) ↔ quietRun calls (init n) = true :=
  lawfulRun_iff_quietRun (init_armed n) calls

/-- **The second wait ends the process.**  A callback waits for `READ`, the wait
is cancelled, and the next `addEvent` for `READ`, which is not registered, fails
its assertion. -/
theorem second_wait_aborts :
    ∃ m, run step [.addEvent (fun _ => true) (some 1) 0 0 .read (some 7),
        .cancelEvent (fun _ => true) 0 .read] (init 1) = some m ∧
      m.eventsOf 0 .read = false ∧ ¬m.Lawful ∧
      m.addEvent (fun _ => true) (some 1) 0 0 .read (some 8) =
        .error (.assertion "!event_ctx.scheduler && !event_ctx.fiber && !event_ctx.cb") := by
  refine ⟨_, rfl, rfl, ?_, rfl⟩
  rintro ⟨-, hok⟩
  obtain ⟨r, hr⟩ := hok (fun _ => true) (some 1) 0 0 .read (some 8) _ rfl rfl
  cases hr

end Hiper.IOManager

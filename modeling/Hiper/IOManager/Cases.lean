import Hiper.IOManager.Dispatch

/-!
# What a call can do

Every call that does not end the process does one of four things (`Outcome`,
`outcome_of_exec`): nothing; it registers a waiter; it forgets one; or it triggers
some bits of one context, each registered and with a scheduler.  `Call.triggers`
says from the arguments and the state before when the last is the case.

The calls are those of `src/hiper/base/iomanager.cc:140-329` and the dispatch of `idle`
(`:432-476`).  Each of them has its own checks, and its own order of them; the four cases
are what is left when the checks are behind one, and the other modules of this directory
never look at a call again.
-/

namespace Hiper.IOManager

/-- The manager after `addEvent` registered a waiter in the context `c` of `fd`.  The bit is
set, the context is filled, the count is one more. -/
def afterAdd (scheduler : Option SchedulerPtr) (fd : ℕ) (event : Event) (w : Waiter) (c : FdContext)
    (m : IOManager) : IOManager where
  fdContexts := m.fdContexts.set fd
    ((c.setEvent event true).setContext event (newContext scheduler w))
  pendingEventCount := m.pendingEventCount + 1
  ledger := m.ledger ++ [.added fd event scheduler w]

/-- The manager after `delEvent` forgot a waiter in the context `c` of `fd`.  The bit is clear,
the context is empty, the count is one less. -/
def afterDel (fd : ℕ) (event : Event) (c : FdContext) (m : IOManager) : IOManager where
  fdContexts := m.fdContexts.set fd ((c.setEvent event false).resetContext event)
  pendingEventCount := m.pendingEventCount - 1
  ledger := m.ledger ++ (c.getContext event).waiter.toList.map fun w => .deleted w.ticket

/-- The descriptor of a call.  Each has one. -/
def Call.fd : Call → ℕ
  | addEvent _ _ _ fd _ _ => fd
  | delEvent _ fd _ => fd
  | cancelEvent _ fd _ => fd
  | cancelAll _ fd => fd
  | dispatch _ fd _ => fd

/-- The bits of the context `c` that a call triggers, when it triggers.  Nothing, if the call is
of another kind. -/
def Call.bits (c : FdContext) : Call → Event → Bool
  | cancelEvent _ _ event => fun e => e == event
  | cancelAll _ _ => c.events
  | dispatch _ _ mask => realEvents mask
  | _ => fun _ => false

/-- The answer of a call that triggers.  A dispatch answers the events. -/
def Call.answered : Call → Answer
  | dispatch _ _ mask => .triggered ([.read, .write].filter (realEvents mask))
  | _ => .bool true

/-- The call gets as far as triggering: there is a registered event for it, and `epoll_ctl`
succeeds.  It is computed from the state before. -/
def Call.triggers (m : IOManager) (call : Call) : Bool :=
  match m.fdContexts[call.fd]? with
  | none => false
  | some c =>
    match call with
    | cancelEvent kernel fd event =>
      c.events event && kernel (modOrDel fd (c.setEvent event false).events)
    | cancelAll kernel fd => FdContext.anyEvent c.events && kernel ⟨.del, fd, fun _ => false⟩
    | dispatch kernel fd mask =>
      FdContext.anyEvent (fun e => c.events e && realEvents mask e) &&
        kernel (modOrDel fd fun e => c.events e && !realEvents mask e)
    | _ => false

/-- What a call that answers `a` can do.  The cases exclude one another by their conditions on
the state before. -/
inductive Outcome (m : IOManager) : Call → Answer → IOManager → Prop
  | nothing {call : Call} {a : Answer} (htriggers : call.triggers m = false)
      (ha : a = .int (-1) ∨ a = .bool false ∨ a = .triggered [])
      (hadd : ∀ kernel scheduler self fd event cb c,
        call = .addEvent kernel scheduler self fd event cb → m.fdContexts[fd]? = some c →
          kernel (addCtl fd event c) = false) : Outcome m call a m
  | add {kernel : Kernel} {scheduler : Option SchedulerPtr} {self fd : ℕ} {event : Event}
      {cb : Option ℕ} {c : FdContext} (hc : m.fdContexts[fd]? = some c)
      (hbit : c.events event = false) (hempty : c.getContext event = .empty)
      (hkernel : kernel (addCtl fd event c) = true) :
      Outcome m (.addEvent kernel scheduler self fd event cb) (.int 0)
        (m.afterAdd scheduler fd event (m.newWaiter cb self) c)
  | del {kernel : Kernel} {fd : ℕ} {event : Event} {c : FdContext}
      (hc : m.fdContexts[fd]? = some c) (hbit : c.events event = true) :
      Outcome m (.delEvent kernel fd event) (.bool true) (m.afterDel fd event c)
  | trigger {call : Call} {c : FdContext} (hc : m.fdContexts[call.fd]? = some c)
      (htriggers : call.triggers m = true) (hcan : ∀ e, call.bits c e = true → c.CanTrigger e)
      (hsome : ∃ e, call.bits c e = true) :
      Outcome m call call.answered (m.afterBits call.fd (call.bits c) c)

/-- Some bit is set. -/
theorem anyEvent_eq_true (bits : Event → Bool) :
    FdContext.anyEvent bits = true ↔ ∃ e, bits e = true := by
  rw [← Bool.not_eq_false, anyEvent_eq_false, not_forall]
  simp only [Bool.not_eq_false]

variable {m m' : IOManager} {fd : ℕ} {event : Event} {kernel : Kernel}

/-- `addEvent` does nothing or registers. -/
theorem addEvent_outcome {scheduler : Option SchedulerPtr} {self : ℕ} {cb : Option ℕ} {r : ℤ}
    (h : m.addEvent kernel scheduler self fd event cb = .ok (r, m')) :
    Outcome m (.addEvent kernel scheduler self fd event cb) (.int r) m' := by
  unfold addEvent at h
  cases hc : m.fdContexts[fd]? with
  | none =>
      rw [hc] at h
      cases h
  | some c =>
      simp only [hc] at h
      split_ifs at h with hbit hkernel hempty
      · obtain ⟨rfl, rfl⟩ := Prod.mk.inj (Except.ok.inj h)
        refine .nothing ?_ (Or.inl rfl) ?_
        · simp [Call.triggers, Call.fd, hc]
        · rintro _ _ _ _ _ _ c' ⟨⟩ hc'
          rw [hc, Option.some_inj] at hc'
          exact hc' ▸ hkernel
      · obtain ⟨rfl, rfl⟩ := Prod.mk.inj (Except.ok.inj h)
        exact .add hc (eq_false_of_ne_true hbit) (not_not.1 hempty)
          (eq_true_of_ne_false hkernel)

/-- `delEvent` does nothing or forgets. -/
theorem delEvent_outcome {r : Bool} (h : m.delEvent kernel fd event = .ok (r, m')) :
    Outcome m (.delEvent kernel fd event) (.bool r) m' := by
  have htriggers : (Call.delEvent kernel fd event).triggers m = false := by
    unfold Call.triggers
    split <;> rfl
  unfold delEvent at h
  cases hc : m.fdContexts[fd]? with
  | none =>
      rw [hc] at h
      obtain ⟨rfl, rfl⟩ := Prod.mk.inj (Except.ok.inj h)
      exact .nothing htriggers (Or.inr (Or.inl rfl)) nofun
  | some c =>
      simp only [hc] at h
      split_ifs at h with hbit hkernel
      · obtain ⟨rfl, rfl⟩ := Prod.mk.inj (Except.ok.inj h)
        exact .nothing htriggers (Or.inr (Or.inl rfl)) nofun
      · obtain ⟨rfl, rfl⟩ := Prod.mk.inj (Except.ok.inj h)
        exact .nothing htriggers (Or.inr (Or.inl rfl)) nofun
      · obtain ⟨rfl, rfl⟩ := Prod.mk.inj (Except.ok.inj h)
        exact .del hc (eq_true_of_ne_false hbit)

/-- One bit triggered, the count lowered before or after.  `cancelEvent` lowers it behind the
trigger. -/
theorem afterBits_single (c : FdContext) :
    m.afterBits fd (fun e => e == event) c = m.decPending.afterTrigger fd event c := by
  cases event <;> rfl

/-- `cancelEvent` does nothing or triggers its bit. -/
theorem cancelEvent_outcome {r : Bool} (h : m.cancelEvent kernel fd event = .ok (r, m')) :
    Outcome m (.cancelEvent kernel fd event) (.bool r) m' := by
  unfold cancelEvent at h
  cases hc : m.fdContexts[fd]? with
  | none =>
      rw [hc] at h
      obtain ⟨rfl, rfl⟩ := Prod.mk.inj (Except.ok.inj h)
      exact .nothing (by simp [Call.triggers, Call.fd, hc]) (Or.inr (Or.inl rfl)) nofun
  | some c =>
      simp only [hc] at h
      split_ifs at h with hbit hkernel
      · obtain ⟨rfl, rfl⟩ := Prod.mk.inj (Except.ok.inj h)
        exact .nothing (by simp [Call.triggers, Call.fd, hc, hbit]) (Or.inr (Or.inl rfl)) nofun
      · obtain ⟨rfl, rfl⟩ := Prod.mk.inj (Except.ok.inj h)
        exact .nothing (by simp [Call.triggers, Call.fd, hc, hkernel]) (Or.inr (Or.inl rfl)) nofun
      · have hc' : m.decPending.fdContexts[fd]? = some c := hc
        by_cases hcan : c.CanTrigger event
        · rw [triggerEvent_ok hc' hcan] at h
          obtain ⟨rfl, rfl⟩ := Prod.mk.inj (Except.ok.inj h)
          rw [← afterBits_single]
          refine .trigger hc ?_ ?_ ?_
          · simp [Call.triggers, Call.fd, hc, hbit, hkernel]
          · intro e he
            rwa [beq_iff_eq.1 he]
          · exact ⟨event, beq_self_eq_true event⟩
        · obtain ⟨abort, habort⟩ := triggerEvent_error hc' hcan
          rw [habort] at h
          cases h

/-- Only the bit of the event is looked at. -/
theorem triggerBit_congr {bits bits' : Event → Bool} (h : bits event = bits' event) :
    m.triggerBit fd bits event = m.triggerBit fd bits' event := by
  rw [triggerBit, triggerBit, h]

/-- The bits of a context that is there. -/
theorem eventsOf_eq {c : FdContext} (hc : m.fdContexts[fd]? = some c) : m.eventsOf fd = c.events := by
  rw [eventsOf, hc]

/-- The triggers of `cancelAll`, which look at `events` each time.  The first does not touch the
bit of the second. -/
theorem cancelAll_triggers {c : FdContext} (hc : m.fdContexts[fd]? = some c) :
    (m.triggerBit fd (m.eventsOf fd) .read >>= fun m => m.triggerBit fd (m.eventsOf fd) .write) =
      (m.triggerBit fd c.events .read >>= fun m => m.triggerBit fd c.events .write) := by
  rw [eventsOf_eq hc]
  by_cases hread : c.events .read = true → c.CanTrigger .read
  · rw [triggerBit_ok hc hread]
    change triggerBit fd (eventsOf fd _) .write _ = triggerBit fd c.events .write _
    refine triggerBit_congr ?_
    rw [eventsOf_eq (afterBit_fdContexts hc c.events)]
    unfold bitTriggered
    split_ifs
    · exact FdContext.triggered_events_of_ne (by decide)
    · rfl
  · rw [Classical.not_imp] at hread
    obtain ⟨abort, habort⟩ := triggerBit_error hc hread.1 hread.2
    rw [habort]
    rfl

/-- `cancelAll` does nothing or triggers the registered bits. -/
theorem cancelAll_outcome {r : Bool} (h : m.cancelAll kernel fd = .ok (r, m')) :
    Outcome m (.cancelAll kernel fd) (.bool r) m' := by
  unfold cancelAll at h
  cases hc : m.fdContexts[fd]? with
  | none =>
      rw [hc] at h
      obtain ⟨rfl, rfl⟩ := Prod.mk.inj (Except.ok.inj h)
      exact .nothing (by simp [Call.triggers, Call.fd, hc]) (Or.inr (Or.inl rfl)) nofun
  | some c =>
      simp only [hc] at h
      split_ifs at h with hany hkernel
      · obtain ⟨rfl, rfl⟩ := Prod.mk.inj (Except.ok.inj h)
        exact .nothing (by simp [Call.triggers, Call.fd, hc, hany]) (Or.inr (Or.inl rfl)) nofun
      · obtain ⟨rfl, rfl⟩ := Prod.mk.inj (Except.ok.inj h)
        exact .nothing (by simp [Call.triggers, Call.fd, hc, hkernel]) (Or.inr (Or.inl rfl)) nofun
      · rw [Bool.not_eq_false] at hany
        rw [← bind_assoc, cancelAll_triggers hc] at h
        have hcan := canTrigger_of_triggerBits hc h
        rw [triggerBits_ok hc hcan] at h
        change (if _ then _ else _) = _ at h
        split_ifs at h
        obtain ⟨rfl, rfl⟩ := Prod.mk.inj (Except.ok.inj h)
        refine .trigger hc ?_ hcan ((anyEvent_eq_true _).1 hany)
        simp [Call.triggers, Call.fd, hc, hany, hkernel]

/-- A dispatch does nothing or triggers the ready bits. -/
theorem dispatch_outcome {mask : EpollEvents} {es : List Event}
    (h : m.dispatch kernel fd mask = .ok (es, m')) :
    Outcome m (.dispatch kernel fd mask) (.triggered es) m' := by
  unfold dispatch at h
  cases hc : m.fdContexts[fd]? with
  | none =>
      rw [hc] at h
      cases h
  | some c =>
      simp only [hc] at h
      split_ifs at h with hany hkernel
      · obtain ⟨rfl, rfl⟩ := Prod.mk.inj (Except.ok.inj h)
        exact .nothing (by simp [Call.triggers, Call.fd, hc, hany]) (Or.inr (Or.inr rfl)) nofun
      · obtain ⟨rfl, rfl⟩ := Prod.mk.inj (Except.ok.inj h)
        exact .nothing (by simp [Call.triggers, Call.fd, hc, hkernel]) (Or.inr (Or.inr rfl)) nofun
      · rw [Bool.not_eq_false] at hany
        rw [← bind_assoc] at h
        have hcan := canTrigger_of_triggerBits hc h
        rw [triggerBits_ok hc hcan] at h
        obtain ⟨rfl, rfl⟩ := Prod.mk.inj (Except.ok.inj h)
        obtain ⟨e, he⟩ := (anyEvent_eq_true _).1 hany
        refine .trigger hc ?_ hcan ⟨e, (Bool.and_eq_true_iff.1 he).2⟩
        simp [Call.triggers, Call.fd, hc, hany, hkernel]

/-- Where a mapped result is no error, the result was none. -/
theorem exists_of_map_eq_ok {ε α β : Type} {x : Except ε α} {f : α → β} {b : β}
    (h : x.map f = .ok b) : ∃ a, x = .ok a ∧ f a = b := by
  cases x with
  | error e => cases h
  | ok a => exact ⟨a, rfl, Except.ok.inj h⟩

/-- **What a call can do.**  By cases on the call. -/
theorem outcome_of_exec {call : Call} {a : Answer} (h : m.exec call = .ok (a, m')) :
    Outcome m call a m' := by
  cases call with
  | addEvent kernel scheduler self fd event cb =>
      obtain ⟨⟨r, m₁⟩, hr, heq⟩ := exists_of_map_eq_ok h
      obtain ⟨rfl, rfl⟩ := Prod.mk.inj heq
      exact addEvent_outcome hr
  | delEvent kernel fd event =>
      obtain ⟨⟨r, m₁⟩, hr, heq⟩ := exists_of_map_eq_ok h
      obtain ⟨rfl, rfl⟩ := Prod.mk.inj heq
      exact delEvent_outcome hr
  | cancelEvent kernel fd event =>
      obtain ⟨⟨r, m₁⟩, hr, heq⟩ := exists_of_map_eq_ok h
      obtain ⟨rfl, rfl⟩ := Prod.mk.inj heq
      exact cancelEvent_outcome hr
  | cancelAll kernel fd =>
      obtain ⟨⟨r, m₁⟩, hr, heq⟩ := exists_of_map_eq_ok h
      obtain ⟨rfl, rfl⟩ := Prod.mk.inj heq
      exact cancelAll_outcome hr
  | dispatch kernel fd mask =>
      obtain ⟨⟨r, m₁⟩, hr, heq⟩ := exists_of_map_eq_ok h
      obtain ⟨rfl, rfl⟩ := Prod.mk.inj heq
      exact dispatch_outcome hr

/-- A step is a call that answers.  Its answer is forgotten by runs. -/
theorem exists_exec_of_step {call : Call} {m' : IOManager} (h : m.step call = some m') :
    ∃ a, m.exec call = .ok (a, m') := by
  unfold step at h
  split at h
  · next r hr =>
      obtain rfl := Option.some.inj h
      exact ⟨r.1, hr⟩
  · cases h

end Hiper.IOManager

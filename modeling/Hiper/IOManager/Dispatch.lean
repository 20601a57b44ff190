import Hiper.IOManager.Basic

/-!
# The dispatch of ready events

What `triggerEvent` does to a context and what it needs (`triggerEvent_eq`): a
registered bit, and a scheduler.  The dispatch of `idle` triggers every bit of
`real_events`, whether it is registered or not, once one of them is.  So it
touches the registered ready bits and nothing else exactly when none of the
ready bits is registered, or all of them are, and then `epoll_ctl` succeeds and
each has a scheduler (`dispatch_meets_iff`).  A hang-up on a descriptor that waits
for `READ` only ends the process (`hangup_on_read_aborts`).

The loop is `src/hiper/base/iomanager.cc:409-471`.  `real_events` gets both bits for an
error or a hang-up, as the comment above it explains (`EPOLLERR | EPOLLHUP` is to make both
events ready); the source then tests that one of them is registered, and triggers them all.
-/

namespace Hiper.IOManager

/-- A context after `schedule` swapped its waiter out: the scheduler stays.  The next `addEvent`
finds it. -/
def EventContext.swapped (ctx : EventContext) : EventContext :=
  match ctx.cb with
  | some _ => { ctx with cb := none }
  | none => { ctx with fiber := none }

namespace FdContext

/-- The contexts after `triggerEvent(event)`.  The other event is as it was. -/
def triggered (event : Event) (c : FdContext) : FdContext :=
  (c.setEvent event false).setContext event (c.getContext event).swapped

/-- What `triggerEvent(event)` needs.  The registered bit is asserted, the scheduler is
followed. -/
def CanTrigger (c : FdContext) (event : Event) : Prop :=
  c.events event = true ∧ (c.getContext event).scheduler.isSome

variable {c : FdContext} {event other : Event}

@[simp]
theorem setContext_events (ctx : EventContext) : (c.setContext event ctx).events = c.events := rfl

@[simp]
theorem setEvent_context (b : Bool) : (c.setEvent event b).context = c.context := rfl

@[simp]
theorem setEvent_events_self (b : Bool) : (c.setEvent event b).events event = b :=
  Function.update_self ..

/-- The other bit stays. -/
theorem setEvent_events_of_ne (b : Bool) (h : other ≠ event) :
    (c.setEvent event b).events other = c.events other :=
  Function.update_of_ne h ..

@[simp]
theorem getContext_setContext_self (ctx : EventContext) :
    (c.setContext event ctx).getContext event = ctx :=
  Function.update_self ..

/-- The other context stays. -/
theorem getContext_setContext_of_ne (ctx : EventContext) (h : other ≠ event) :
    (c.setContext event ctx).getContext other = c.getContext other :=
  Function.update_of_ne h ..

@[simp]
theorem getContext_setEvent (b : Bool) : (c.setEvent event b).getContext other = c.getContext other :=
  rfl

/-- The bit is clear after its trigger. -/
@[simp]
theorem triggered_events_self : (c.triggered event).events event = false :=
  setEvent_events_self false

/-- The other bit stays. -/
theorem triggered_events_of_ne (h : other ≠ event) :
    (c.triggered event).events other = c.events other :=
  setEvent_events_of_ne false h

/-- The other context stays. -/
theorem getContext_triggered_of_ne (h : other ≠ event) :
    (c.triggered event).getContext other = c.getContext other :=
  getContext_setContext_of_ne _ h

/-- A trigger of one event changes nothing of what the other needs. -/
theorem CanTrigger.triggered_iff (h : other ≠ event) :
    (c.triggered event).CanTrigger other ↔ c.CanTrigger other := by
  rw [CanTrigger, CanTrigger, triggered_events_of_ne h, getContext_triggered_of_ne h]

/-- **`triggerEvent`**, case by case: the assertion, the null scheduler, and the waiter handed
over. -/
theorem triggerEvent_eq (c : FdContext) (event : Event) :
    c.triggerEvent event =
      if c.events event = false then .error (.assertion "events & event")
      else
        match (c.getContext event).scheduler with
        | none => .error .nullScheduler
        | some scheduler =>
          .ok ((c.getContext event).waiter.map fun w => (scheduler, w), c.triggered event) := by
  unfold triggerEvent triggered EventContext.swapped EventContext.waiter
  simp only [getContext_setEvent]
  cases c.events event with
  | false => rfl
  | true =>
      cases (c.getContext event).scheduler with
      | none => rfl
      | some scheduler =>
          cases (c.getContext event).cb with
          | none =>
              simp only [Option.map_map]
              rfl
          | some cb => rfl

end FdContext

variable {m : IOManager} {fd : ℕ} {c : FdContext} {event : Event}

/-- What `triggerEvent(event)` writes to the ledger.  Nothing, if the context is empty. -/
def handedOver (ctx : EventContext) : List Entry :=
  match ctx.scheduler, ctx.waiter with
  | some scheduler, some w => [.handed scheduler w]
  | _, _ => []

/-- The manager after `triggerEvent(event)` on a context `c`.  The count is lowered by the
caller. -/
def afterTrigger (fd : ℕ) (event : Event) (c : FdContext) (m : IOManager) : IOManager :=
  { m with
    fdContexts := m.fdContexts.set fd (c.triggered event)
    ledger := m.ledger ++ handedOver (c.getContext event) }

/-- With what it needs it goes through. -/
theorem triggerEvent_ok (hc : m.fdContexts[fd]? = some c) (h : c.CanTrigger event) :
    m.triggerEvent fd event = .ok (m.afterTrigger fd event c) := by
  obtain ⟨hbit, hscheduler⟩ := h
  obtain ⟨scheduler, hscheduler⟩ := Option.isSome_iff_exists.1 hscheduler
  unfold triggerEvent afterTrigger handedOver
  simp only [hc, FdContext.triggerEvent_eq, hbit, hscheduler, Bool.true_eq_false, if_false]
  cases (c.getContext event).waiter <;> rfl

/-- Without it the process ends. -/
theorem triggerEvent_error (hc : m.fdContexts[fd]? = some c) (h : ¬c.CanTrigger event) :
    ∃ abort, m.triggerEvent fd event = .error abort := by
  unfold triggerEvent
  simp only [hc, FdContext.triggerEvent_eq]
  by_cases hbit : c.events event = true
  · have hscheduler : (c.getContext event).scheduler = none := by
      rw [← Option.not_isSome_iff_eq_none]
      exact fun hs => h ⟨hbit, hs⟩
    simp only [hbit, hscheduler, Bool.true_eq_false, if_false]
    exact ⟨_, rfl⟩
  · rw [if_pos (Bool.not_eq_true _ ▸ hbit)]
    exact ⟨_, rfl⟩

/-- The context after `triggerBit`.  It is unchanged, if the bit is not among those. -/
def bitTriggered (bits : Event → Bool) (event : Event) (c : FdContext) : FdContext :=
  if bits event then c.triggered event else c

/-- The manager after `triggerBit`.  One trigger and one count, or nothing. -/
def afterBit (fd : ℕ) (bits : Event → Bool) (event : Event) (c : FdContext) (m : IOManager) :
    IOManager :=
  if bits event then (m.afterTrigger fd event c).decPending else m

/-- With what it needs it goes through. -/
theorem triggerBit_ok (hc : m.fdContexts[fd]? = some c) {bits : Event → Bool}
    (h : bits event = true → c.CanTrigger event) :
    m.triggerBit fd bits event = .ok (m.afterBit fd bits event c) := by
  unfold triggerBit afterBit
  split_ifs with hbit
  · rw [triggerEvent_ok hc (h hbit)]
    rfl
  · rfl

/-- Without it the process ends. -/
theorem triggerBit_error (hc : m.fdContexts[fd]? = some c) {bits : Event → Bool}
    (hbit : bits event = true) (h : ¬c.CanTrigger event) :
    ∃ abort, m.triggerBit fd bits event = .error abort := by
  obtain ⟨abort, habort⟩ := triggerEvent_error hc h
  rw [triggerBit, if_pos hbit, habort]
  exact ⟨abort, rfl⟩

/-- A context that is there is below the end. -/
theorem lt_of_getElem? (hc : m.fdContexts[fd]? = some c) : fd < m.fdContexts.length :=
  (List.getElem?_eq_some_iff.1 hc).1

/-- The context after one of the two. -/
theorem afterBit_fdContexts (hc : m.fdContexts[fd]? = some c) (bits : Event → Bool) :
    (m.afterBit fd bits event c).fdContexts[fd]? = some (bitTriggered bits event c) := by
  unfold afterBit bitTriggered
  split_ifs
  · exact List.getElem?_set_self (lt_of_getElem? hc)
  · exact hc

/-! ### Dispatch -/

/-- The two triggers at the end of the dispatch.  `READ` comes first. -/
def afterBits (fd : ℕ) (bits : Event → Bool) (c : FdContext) (m : IOManager) : IOManager :=
  (m.afterBit fd bits .read c).afterBit fd bits .write (bitTriggered bits .read c)

/-- The first changes nothing of what the second needs. -/
theorem canTrigger_bitTriggered (bits : Event → Bool) :
    (bitTriggered bits .read c).CanTrigger .write ↔ c.CanTrigger .write := by
  unfold bitTriggered
  split_ifs
  · exact FdContext.CanTrigger.triggered_iff (by decide)
  · exact Iff.rfl

/-- Both triggers go through when each needs what it has.  `cancelAll` and the dispatch end so. -/
theorem triggerBits_ok (hc : m.fdContexts[fd]? = some c) {bits : Event → Bool}
    (h : ∀ e, bits e = true → c.CanTrigger e) :
    (m.triggerBit fd bits .read >>= fun m => m.triggerBit fd bits .write) =
      .ok (m.afterBits fd bits c) := by
  rw [triggerBit_ok hc (h .read)]
  exact triggerBit_ok (afterBit_fdContexts hc bits) fun hbit =>
    (canTrigger_bitTriggered bits).2 (h .write hbit)

/-- If one of them cannot be made the process ends. -/
theorem triggerBits_error (hc : m.fdContexts[fd]? = some c) {bits : Event → Bool}
    (hbit : bits event = true) (h : ¬c.CanTrigger event) :
    ∃ abort, (m.triggerBit fd bits .read >>= fun m => m.triggerBit fd bits .write) =
      .error abort := by
  by_cases hread : bits .read = true → c.CanTrigger .read
  · rw [triggerBit_ok hc hread]
    cases event with
    | read => exact absurd (hread hbit) h
    | write =>
        exact triggerBit_error (afterBit_fdContexts hc bits) hbit
          (mt (canTrigger_bitTriggered bits).1 h)
  · rw [Classical.not_imp] at hread
    obtain ⟨abort, habort⟩ := triggerBit_error hc hread.1 hread.2
    rw [habort]
    exact ⟨abort, rfl⟩

/-- What comes after the triggers is reached only if all of them can be made.  So a call that
answers could make them. -/
theorem canTrigger_of_triggerBits {α : Type} (hc : m.fdContexts[fd]? = some c) {bits : Event → Bool}
    {k : IOManager → Except Abort α} {r : α}
    (h : ((m.triggerBit fd bits .read >>= fun m => m.triggerBit fd bits .write) >>= k) = .ok r) :
    ∀ e, bits e = true → c.CanTrigger e := by
  intro e hbit
  by_contra hcan
  obtain ⟨abort, habort⟩ := triggerBits_error hc hbit hcan
  rw [habort] at h
  cases h

/-- The two triggers clear the bits, and nothing else.  The count goes down by as many as there
are. -/
theorem afterBits_spec (hc : m.fdContexts[fd]? = some c) (bits : Event → Bool) :
    (m.afterBits fd bits c).fdContexts =
        m.fdContexts.set fd (bitTriggered bits .write (bitTriggered bits .read c)) ∧
      (m.afterBits fd bits c).pendingEventCount =
        m.pendingEventCount - ([Event.read, Event.write].filter bits).length ∧
      ∀ e, (bitTriggered bits .write (bitTriggered bits .read c)).events e =
        (c.events e && !bits e) := by
  have hset : m.fdContexts.set fd c = m.fdContexts := by
    obtain ⟨hlt, hget⟩ := List.getElem?_eq_some_iff.1 hc
    rw [← hget, List.set_getElem_self]
  unfold afterBits afterBit bitTriggered
  cases hread : bits .read <;> cases hwrite : bits .write
  · refine ⟨hset.symm, ?_, fun e => ?_⟩
    · simp [hread, hwrite]
    · cases e <;> simp [hread, hwrite]
  · refine ⟨rfl, ?_, fun e => ?_⟩
    · simp [hread, hwrite, decPending, afterTrigger]
    · cases e
      · simp [hread, FdContext.triggered_events_of_ne]
      · simp [hwrite]
  · refine ⟨rfl, ?_, fun e => ?_⟩
    · simp [hread, hwrite, decPending, afterTrigger]
    · cases e
      · simp [hread]
      · simp [hwrite, FdContext.triggered_events_of_ne]
  · refine ⟨?_, ?_, fun e => ?_⟩
    · exact List.set_set ..
    · simp only [hread, hwrite, List.filter, if_true, decPending, afterTrigger, List.length_cons,
        List.length_nil]
      omega
    · cases e
      · simp [hread, FdContext.triggered_events_of_ne]
      · simp [hwrite]

/-- The dispatch does what it is for: it triggers the bits that are ready and registered, clears
them, and counts them down.  A process that ends does not. -/
def DispatchMeets (kernel : Kernel) (fd : ℕ) (mask : EpollEvents) (c : FdContext) (m : IOManager) :
    Prop :=
  ∃ es m' c', m.dispatch kernel fd mask = .ok (es, m') ∧
    es.Nodup ∧ (∀ e, e ∈ es ↔ realEvents mask e = true ∧ c.events e = true) ∧
    m'.fdContexts = m.fdContexts.set fd c' ∧ (∀ e, c'.events e = (c.events e && !es.contains e)) ∧
    m'.pendingEventCount = m.pendingEventCount - es.length

/-- No bit is set. -/
theorem anyEvent_eq_false (bits : Event → Bool) :
    FdContext.anyEvent bits = false ↔ ∀ e, bits e = false := by
  rw [FdContext.anyEvent, Bool.or_eq_false_iff]
  constructor
  · rintro ⟨hread, hwrite⟩ (_ | _)
    · exact hread
    · exact hwrite
  · intro h
    exact ⟨h .read, h .write⟩

/-- An event is among the two that are filtered when its bit is set. -/
theorem mem_filter_events (bits : Event → Bool) (e : Event) :
    e ∈ [Event.read, Event.write].filter bits ↔ bits e = true := by
  rw [List.mem_filter]
  cases e <;> simp

/-- **The dispatch of `idle`**, for every state of the manager, every mask and every answer of
the kernel, does what it is for exactly when no ready bit is registered, or all of them are,
`epoll_ctl` succeeds and each has a scheduler.  It is the body of the loop in
`src/hiper/base/iomanager.cc:409-471`.  Lines 462 and 467 ask for the bits that are ready and
not for those that are registered as well, so that a hang-up, which lines 428 to 430 make ready
for both, triggers an event nobody registered. -/
theorem dispatch_meets_iff (kernel : Kernel) (fd : ℕ) (mask : EpollEvents) (c : FdContext)
    (m : IOManager) (hc : m.fdContexts[fd]? = some c) :
    DispatchMeets kernel fd mask c m ↔
      (∀ e, realEvents mask e = true → c.events e = false) ∨
        ((∀ e, realEvents mask e = true → c.events e = true) ∧
          kernel (modOrDel fd fun e => c.events e && !realEvents mask e) = true ∧
          ∀ e, realEvents mask e = true → (c.getContext e).scheduler.isSome) := by
  have hset : m.fdContexts.set fd c = m.fdContexts := by
    obtain ⟨hlt, hget⟩ := List.getElem?_eq_some_iff.1 hc
    rw [← hget, List.set_getElem_self]
  have hnone : (∀ e, realEvents mask e = true → c.events e = false) ↔
      FdContext.anyEvent (fun e => c.events e && realEvents mask e) = false := by
    rw [anyEvent_eq_false]
    refine forall_congr' fun e => ?_
    cases c.events e <;> cases realEvents mask e <;> simp
  by_cases hany : FdContext.anyEvent (fun e => c.events e && realEvents mask e) = false
  · -- nothing that is ready is registered: the loop goes on
    refine iff_of_true ⟨[], m, c, ?_, List.nodup_nil, ?_, hset.symm, ?_, ?_⟩ (Or.inl (hnone.2 hany))
    · simp only [dispatch, hc, hany, if_true]
    · intro e
      have he := (anyEvent_eq_false _).1 hany e
      rw [Bool.and_eq_false_iff] at he
      refine iff_of_false List.not_mem_nil ?_
      rintro ⟨hreal, hevent⟩
      rcases he with he | he
      · exact absurd hevent (by rw [he]; decide)
      · exact absurd hreal (by rw [he]; decide)
    · intro e
      simp
    · simp
  have hsome := mt hnone.1 hany
  simp only [not_forall] at hsome
  obtain ⟨e₀, hreal₀, hevent₀⟩ := hsome
  rw [Bool.not_eq_false] at hevent₀
  rw [or_iff_right fun h => hany (hnone.1 h)]
  cases hkernel : kernel (modOrDel fd fun e => c.events e && !realEvents mask e) with
  | false =>
      -- `epoll_ctl` fails: the ready bits are skipped
      refine iff_of_false ?_ fun h => Bool.false_ne_true h.2.1
      rintro ⟨es, m', c', hdispatch, -, hmem, -⟩
      simp only [dispatch, hc, if_neg hany, hkernel, if_true, Except.ok.injEq, Prod.mk.injEq]
        at hdispatch
      have hin := (hmem e₀).2 ⟨hreal₀, hevent₀⟩
      rw [← hdispatch.1] at hin
      cases hin
  | true =>
      have hrun : m.dispatch kernel fd mask =
          ((m.triggerBit fd (realEvents mask) .read >>= fun m =>
            m.triggerBit fd (realEvents mask) .write) >>= fun m =>
              pure ([Event.read, Event.write].filter (realEvents mask), m)) := by
        simp only [dispatch, hc, if_neg hany, hkernel, Bool.true_eq_false, if_false]
        rw [bind_assoc]
      by_cases hall : ∀ e, realEvents mask e = true → c.CanTrigger e
      · obtain ⟨hcontexts, hpending, hevents⟩ := afterBits_spec hc (realEvents mask)
        refine iff_of_true ⟨_, _, _, hrun.trans (by rw [triggerBits_ok hc hall]; rfl), ?_, ?_,
          hcontexts, ?_, hpending⟩ ?_
        · exact List.filter_sublist.nodup (by decide)
        · intro e
          rw [mem_filter_events]
          exact ⟨fun hreal => ⟨hreal, (hall e hreal).1⟩, fun h => h.1⟩
        · intro e
          have hcontains : ([Event.read, Event.write].filter (realEvents mask)).contains e =
              realEvents mask e := by
            rw [Bool.eq_iff_iff, List.contains_iff_mem, mem_filter_events]
          rw [hevents e, hcontains]
        · exact ⟨fun e hreal => (hall e hreal).1, rfl, fun e hreal => (hall e hreal).2⟩
      · refine iff_of_false ?_ fun h => hall fun e hreal => ⟨h.1 e hreal, h.2.2 e hreal⟩
        rintro ⟨es, m', c', hdispatch, -⟩
        rw [hrun] at hdispatch
        exact hall (canTrigger_of_triggerBits hc hdispatch)

/-- `READ` is registered, with a callback, and nothing else. -/
def waitingRead : IOManager where
  fdContexts := [(FdContext.new.setEvent .read true).setContext .read ⟨some 1, none, some ⟨0, 7⟩⟩]
  pendingEventCount := 1
  ledger := [.added 0 .read (some 1) (.cb ⟨0, 7⟩)]

/-- `addEvent` makes that state. -/
theorem reachable_waitingRead : Lib.Reachable step (init 1) waitingRead :=
  Lib.Reachable.init.step (.addEvent (fun _ => true) (some 1) 0 0 .read (some 7)) rfl

/-- A mask of `EPOLLIN` alone is dispatched as it should be. -/
theorem dispatch_meets_read :
    DispatchMeets (fun _ => true) 0 ⟨true, false, false, false⟩
      ((FdContext.new.setEvent .read true).setContext .read ⟨some 1, none, some ⟨0, 7⟩⟩)
      waitingRead := by
  refine (dispatch_meets_iff (fun _ => true) 0 ⟨true, false, false, false⟩ _ waitingRead rfl).2
    (Or.inr ⟨?_, rfl, ?_⟩) <;>
  · intro e
    cases e <;> decide

/-- **A hang-up on a descriptor that waits for `READ` ends the process.** -/
theorem hangup_on_read_aborts :
    ∃ m c, Lib.Reachable step (init 1) m ∧ m.fdContexts[0]? = some c ∧
      m.dispatch (fun _ => true) 0 ⟨true, false, false, true⟩ =
        .error (.assertion "events & event") ∧
      ¬DispatchMeets (fun _ => true) 0 ⟨true, false, false, true⟩ c m := by
  have hdispatch : waitingRead.dispatch (fun _ => true) 0 ⟨true, false, false, true⟩ =
      .error (.assertion "events & event") := rfl
  refine ⟨waitingRead, _, reachable_waitingRead, rfl, hdispatch, ?_⟩
  rintro ⟨es, m', c', hok, -⟩
  rw [hdispatch] at hok
  cases hok

end Hiper.IOManager

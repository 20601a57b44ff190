import Hiper.Hook.Basic
import Hiper.Manager.Stopping

/-!
# Timeouts of hooked calls

A fiber that waits with a timeout is woken by it if the timer still runs, or its callback
will still cancel the event, or the fiber was handed over already.  The callback marks
the call as cancelled and then cancels the event if it is registered by then; when it is
not, nothing wakes the fiber that registers afterwards
(`fired_before_addEvent_lost`).  Otherwise no timeout is lost (`timeout_not_lost`).

The functions are `src/hiper/base/hook.cc:115` and `hook.cc:261`.  A run is any interleaving
of the call's own steps, those of its callbacks, and calls of other threads on other timers
and on the events; `inTime` is a condition on two kinds of steps, the registration by the
call and the `cancelEvent` by a callback, and the state before them.  The invariant (`Inv`)
says for each place of the fiber where the timeout is: in the set, on its way, or done.
-/

namespace Hiper.HookedCall

open Lib
open IOManager (Kernel Entry)

/-- The callback will call `cancelEvent`, if it is not overtaken by another one.  It holds no
lock, so that another callback of the call may come first. -/
def willCancel (s : HookedCall) (c : Phase) : Bool := c.past || s.cancelled == 0

/-- **The timeout is not lost**, if the fiber is suspended with one.  Somebody is still to wake
it: the timer, a callback, or the scheduler. -/
def NotLost (a : Args) (s : HookedCall) : Prop :=
  a.finite = true → s.place = .suspended →
    (∃ p, s.timer = some p ∧ p ∈ s.timers.timers) ∨
      (s.registered a = true ∧ ∃ c ∈ s.callbacks, s.willCancel c = true) ∨ s.handed = true

/-- The call does not register an event when it is marked as cancelled and no callback is on its
way to `cancelEvent`; and when the last such callback is refused by `epoll_ctl`, the fiber is
not registered.  All other steps are in time. -/
def inTime (a : Args) : Step → HookedCall → Bool
  | .addEvent kernel, s =>
    s.cancelled == 0 || s.callbacks.any Phase.past ||
      (s.events.fdContexts[a.fd]?).all fun c => !kernel (IOManager.addCtl a.fd a.event c)
  | .cancelEvent i kernel, s =>
    !s.registered a || (IOManager.Call.cancelEvent kernel a.fd a.event).triggers s.events ||
      (s.callbacks.eraseIdx i).any Phase.past
  | _, _ => true

/-- The steps that are in time.  The others are left out of the run. -/
def stepInTime (a : Args) (x : Step) (s : HookedCall) : Option HookedCall :=
  if inTime a x s then step a x s else none

/-! ### The invariant -/

/-- The fiber has armed its timer and was not resumed since.  Between the two it may register at
any time. -/
def Place.armed : Place → Bool
  | .adding => true
  | .yielding => true
  | .suspended => true
  | _ => false

/-- The fiber has registered its event and was not resumed since.  It is woken by the event or
by a cancellation. -/
def Place.waiting : Place → Bool
  | .yielding => true
  | .suspended => true
  | _ => false

/-- The timer runs, with the callback of this call.  It is in the set and has not been
cancelled. -/
def Runs (s : HookedCall) : Prop :=
  ∃ p, s.timer = some p ∧ p ∈ s.timers.timers ∧ (s.timers.heap p).cb = some timeoutCb

/-- What the ledger says of the fiber's last registration.  It was added and has not been
forgotten by a `delEvent`. -/
structure Entered (a : Args) (s : HookedCall) : Prop where
  added : .added a.fd a.event (some iom) s.waiter ∈ s.events.ledger
  kept : .deleted s.ticket ∉ s.events.ledger

/-- What holds in every state reached.  It is about the timers, the ledger of the events, the
callbacks and the mark. -/
structure Inv (a : Args) (s : HookedCall) : Prop where
  clocked : Manager.Clocked s.timers
  made : ∀ p, s.timer = some p → p < s.timers.allocs
  accounts : s.events.Accounts
  /-- Before the call is marked as cancelled, a callback is still to run. -/
  armed : a.finite = true → s.place.armed = true → s.cancelled = 0 → s.Runs ∨ s.callbacks ≠ []
  marked : .marked ∈ s.callbacks → s.cancelled ≠ 0
  entered : s.place.waiting = true → Entered a s
  /-- Afterwards one is still to cancel the event. -/
  served : s.place.waiting = true → s.registered a = true → s.cancelled = 0 ∨
    s.callbacks.any Phase.past = true

/-- At first the invariant holds: the call has made no timer and registered nothing. -/
theorem init_inv (a : Args) (heap : TimerPtr → Timer) (n : ℕ) : Inv a (init heap n) where
  clocked := ⟨TimerManger.init_wf heap, nofun⟩
  made := nofun
  accounts := IOManager.init_accounts n
  armed := nofun
  marked := nofun
  entered := nofun
  served := nofun

/-! ### The timers -/

/-- A call on other timers leaves the one of this call alone.  It has neither its pointer nor
its callback. -/
theorem Runs.exec {s : HookedCall} (h : s.Runs) (hclocked : Manager.Clocked s.timers)
    {c : TimerManger.Call} (hforeign : s.foreign c = true)
    (hc : Manager.possible c s.timers = true) :
    Runs { s with timers := (TimerManger.exec c s.timers).2 } := by
  obtain ⟨p, htimer, hmem, hcb⟩ := h
  have hother : c ≠ .cancel p := by
    rintro rfl
    exact bne_iff_ne.1 hforeign htimer
  obtain ⟨hmem', hcb'⟩ := (Manager.exec_leaves hclocked hc).stays p hmem hother
  exact ⟨p, htimer, hmem', hcb'.trans hcb⟩

/-- The timeout callbacks that `listExpiredCb` takes out.  They are those that were armed under
the name of the timeout callback. -/
def ownCallbacks (s : HookedCall) (now probe : ℕ) : List Phase :=
  ((s.timers.listExpiredCb now probe).1.filter fun t => t.2 == some timeoutCb).map fun _ => .queued

/-- When the timer is taken out, its callback is on its way.  A timer that stays in the set runs
on. -/
theorem Runs.listExpiredCb {s : HookedCall} (h : s.Runs) (hclocked : Manager.Clocked s.timers)
    (now probe : ℕ) :
    Runs { s with timers := (s.timers.listExpiredCb now probe).2 } ∨
      s.ownCallbacks now probe ≠ [] := by
  obtain ⟨p, htimer, hmem, hcb⟩ := h
  obtain ⟨expired, -, hexpired, hcbs, -, hheap, -, -, htimers⟩ :=
    hclocked.wf.listExpiredCb_spec now probe
  by_cases hp : p ∈ expired
  · refine Or.inr fun hnil => ?_
    have hin : (p, some timeoutCb) ∈ (s.timers.listExpiredCb now probe).1 := by
      rw [hcbs, ← hcb]
      exact List.mem_map_of_mem hp
    rw [ownCallbacks, List.map_eq_nil_iff, List.filter_eq_nil_iff] at hnil
    exact hnil _ hin (beq_self_eq_true _)
  · refine Or.inl ⟨p, htimer, (htimers p).2 ⟨hmem, fun hp' => absurd hp' hp⟩, ?_⟩
    change ((s.timers.listExpiredCb now probe).2.heap p).cb = _
    rw [hheap]
    simp only [hp, if_false]
    exact hcb

/-! ### The events -/

variable {m m' : IOManager}

/-- A registration that has not ended was there before the call.  A call may end registrations
and makes only new ones. -/
theorem holds_of_exec (hm : m.Accounts) {c : IOManager.Call} {r : IOManager.Answer}
    (hexec : m.exec c = .ok (r, m')) {fd : ℕ} {event : IOManager.Event}
    {scheduler : Option IOManager.SchedulerPtr} {w : IOManager.Waiter}
    (hadded : .added fd event scheduler w ∈ m.ledger) (hholds : m'.holds fd event w = true) :
    m.holds fd event w = true := by
  have hledger := IOManager.ledger_exec hexec
  have hbefore := hm.once fd event scheduler w hadded
  have hafter := (hm.exec hexec).once fd event scheduler w
    (hledger ▸ List.mem_append_left _ hadded)
  rw [hholds, hledger, List.countP_append, if_pos rfl] at hafter
  by_contra hnot
  rw [if_neg hnot] at hbefore
  omega

/-- A `cancelEvent` that triggers ends the registration.  The fiber is handed to the scheduler
then. -/
theorem holds_of_cancelEvent {kernel : Kernel} {fd : ℕ} {event : IOManager.Event}
    {r : IOManager.Answer} (hexec : m.exec (.cancelEvent kernel fd event) = .ok (r, m'))
    (htriggers : (IOManager.Call.cancelEvent kernel fd event).triggers m = true)
    (w : IOManager.Waiter) : m'.holds fd event w = false := by
  cases IOManager.outcome_of_exec hexec with
  | nothing hnot => exact absurd htriggers (by rw [hnot]; exact Bool.false_ne_true)
  | @trigger _ c hc =>
      have hget : (m.afterBits fd (fun e => e == event) c).fdContexts[fd]? =
          some (c.triggered event) := by
        rw [IOManager.afterBits_single]
        exact List.getElem?_set_self (IOManager.lt_of_getElem? hc)
      change IOManager.holds (m.afterBits fd (fun e => e == event) c) fd event w = false
      rw [IOManager.holds, hget]
      simp only
      rw [IOManager.FdContext.triggered_events_self, Bool.false_and]

/-- What is handed over is no deletion.  A hand-over and a deletion are told apart in the
ledger. -/
theorem deleted_notMem_handedOver (ctx : IOManager.EventContext) (t : ℕ) :
    Entry.deleted t ∉ IOManager.handedOver ctx := by
  rw [IOManager.handedOver]
  split
  · exact fun h => by cases List.mem_singleton.1 h
  · exact List.not_mem_nil

/-- Only `delEvent` of its event forgets a registration.  The fiber's own registration is meant. -/
theorem deleted_notMem_exec (hm : m.Accounts) {c : IOManager.Call} {r : IOManager.Answer}
    (hexec : m.exec c = .ok (r, m')) {a : Args} (hforgets : forgets a c = false)
    {scheduler : Option IOManager.SchedulerPtr} {w : IOManager.Waiter}
    (hadded : .added a.fd a.event scheduler w ∈ m.ledger) (hkept : .deleted w.ticket ∉ m.ledger) :
    .deleted w.ticket ∉ m'.ledger := by
  cases IOManager.outcome_of_exec hexec with
  | nothing => exact hkept
  | add =>
      rw [IOManager.afterAdd, List.mem_append, not_or]
      exact ⟨hkept, fun h => by cases List.mem_singleton.1 h⟩
  | @del _ fd event c hc hbit =>
      obtain ⟨-, w', hw', hadded'⟩ := hm.set fd c event hc hbit
      rw [IOManager.afterDel, hw', List.mem_append, not_or]
      refine ⟨hkept, fun h => ?_⟩
      have hticket : w.ticket = w'.ticket := Entry.deleted.inj (List.mem_singleton.1 h)
      have hget := hm.ticket _ _ _ _ hadded
      rw [hticket, hm.ticket _ _ _ _ hadded', Option.some_inj] at hget
      injection hget with hfd hevent
      rw [forgets, hfd, hevent, beq_self_eq_true, beq_self_eq_true] at hforgets
      cases hforgets
  | trigger hc =>
      rw [IOManager.afterBits_ledger, List.mem_append, List.mem_flatMap, not_or]
      refine ⟨hkept, ?_⟩
      rintro ⟨e, -, he⟩
      exact deleted_notMem_handedOver _ _ he

@[simp]
theorem waiter_ticket (s : HookedCall) : s.waiter.ticket = s.ticket := rfl

/-- The fiber still waits in the context, or was handed over.  The ledger says that nobody has
forgotten it. -/
theorem Entered.registered_or_handed {a : Args} {s : HookedCall} (h : Entered a s)
    (hm : s.events.Accounts) : s.registered a = true ∨ s.handed = true := by
  by_cases hreg : s.registered a = true
  · exact Or.inl hreg
  · rw [registered] at hreg
    have honce := hm.once _ _ _ _ h.added
    have hown := hm.ticket _ _ _ _ h.added
    rw [waiter_ticket] at honce hown
    rw [if_neg hreg] at honce
    have hpos : 0 < s.events.ledger.countP (Entry.ends s.ticket) := by omega
    obtain ⟨x, hx, hends⟩ := List.countP_pos_iff.1 hpos
    right
    cases x with
    | added fd e scheduler w => cases hends
    | deleted t =>
        rw [Entry.ends, beq_iff_eq] at hends
        exact absurd (hends ▸ hx) h.kept
    | handed scheduler w =>
        rw [Entry.ends, beq_iff_eq] at hends
        obtain ⟨fd, e, hadded⟩ := hm.handed scheduler w hx
        have hget := hm.ticket _ _ _ _ hadded
        rw [hends, hown, Option.some_inj] at hget
        injection hget with _ _ hscheduler hw
        obtain rfl := Option.some.inj hscheduler
        rw [handed, List.contains_iff_mem, hw]
        exact hx

/-- A call on the events that does not forget the registration.  The registration may end by it. -/
theorem Entered.exec {a : Args} {s : HookedCall} (h : Entered a s) (hm : s.events.Accounts)
    {c : IOManager.Call} {r : IOManager.Answer} (hexec : s.events.exec c = .ok (r, m'))
    (hforgets : forgets a c = false) : Entered a { s with events := m' } where
  added := IOManager.ledger_exec hexec ▸ List.mem_append_left _ h.added
  kept := deleted_notMem_exec hm hexec hforgets h.added h.kept

/-! ### The callbacks -/

/-- A callback that has not passed its test moves, and the others stay.  If one has passed its
test, one has. -/
theorem any_past_set {l : List Phase} {i : ℕ} {c : Phase} (hi : l[i]? = some c)
    (hc : c.past = false) (c' : Phase) (h : l.any Phase.past = true) :
    (l.set i c').any Phase.past = true ∧ (l.eraseIdx i).any Phase.past = true := by
  obtain ⟨d, hd, hpast⟩ := List.any_eq_true.1 h
  obtain ⟨j, hj⟩ := List.getElem?_of_mem hd
  have hij : j ≠ i := by
    rintro rfl
    rw [hi, Option.some_inj] at hj
    rw [← hj, hc] at hpast
    cases hpast
  constructor
  · refine List.any_eq_true.2 ⟨d, List.mem_of_getElem? (i := j) ?_, hpast⟩
    rwa [List.getElem?_set_ne hij.symm]
  · exact List.any_eq_true.2 ⟨d, List.mem_eraseIdx_iff_getElem?.2 ⟨j, hij, hj⟩, hpast⟩

/-- A list in which one place is written is not empty. -/
theorem set_ne_nil {l : List Phase} {i : ℕ} {c : Phase} (hi : l[i]? = some c) (c' : Phase) :
    l.set i c' ≠ [] := by
  rw [ne_eq, List.set_eq_nil_iff]
  rintro rfl
  cases hi

/-! ### Steps -/

variable {a : Args} {s s' : HookedCall}

/-- The fiber goes on.  Places from which something is relied on lead to such places only. -/
theorem Inv.goto (h : Inv a s) {p : Place} (harmed : p.armed = true → s.place.armed = true)
    (hwaiting : p.waiting = true → s.place.waiting = true) : Inv a (s.goto p) where
  clocked := h.clocked
  made := h.made
  accounts := h.accounts
  armed := fun hfinite hp => h.armed hfinite (harmed hp)
  marked := h.marked
  entered := fun hp => ⟨(h.entered (hwaiting hp)).added, (h.entered (hwaiting hp)).kept⟩
  served := fun hp => h.served (hwaiting hp)

/-- A fiber that waits has armed its timer. -/
theorem Place.armed_of_waiting {p : Place} (h : p.waiting = true) : p.armed = true := by
  cases p <;> first | rfl | cases h

/-- The fiber goes where it neither waits nor is about to.  Nothing is relied on there. -/
theorem Inv.leave (h : Inv a s) {p : Place} (hp : p.armed = false) : Inv a (s.goto p) :=
  h.goto (fun harmed => absurd (hp.symm.trans harmed) Bool.false_ne_true) fun hwaiting =>
    absurd (hp.symm.trans (Place.armed_of_waiting hwaiting)) Bool.false_ne_true

/-- Making the timer keeps the invariant. -/
theorem Inv.arm (h : Inv a s) {addr now : ℕ} (hs : s.arm a addr now = some s') : Inv a s' := by
  rw [HookedCall.arm] at hs
  split_ifs at hs with hfinite
  · obtain ⟨hc, hs⟩ := Option.ite_none_right_eq_some.1 hs
    obtain rfl := Option.some.inj hs
    obtain ⟨-, hmem, hself, -⟩ := h.clocked.wf.addTimer_spec now a.timeout (some timeoutCb) false
      fun q hq => bne_iff_ne.1 (List.all_eq_true.1 hc q hq)
    refine ⟨(Manager.exec_leaves h.clocked hc).clocked, fun p hp => ?_, h.accounts,
      fun _ _ _ => Or.inl ?_, h.marked, nofun, nofun⟩
    · obtain rfl := Option.some.inj hp
      exact Nat.lt_succ_self _
    · exact ⟨s.timers.allocs, rfl, (hmem _).2 (Or.inl rfl), congrArg Timer.cb hself⟩
  · obtain rfl := Option.some.inj hs
    exact ⟨h.clocked, nofun, h.accounts, fun hf => absurd hf hfinite, h.marked, nofun, nofun⟩

/-- Registering in time keeps the invariant: unmarked, or with a callback on its way to
`cancelEvent`. -/
theorem Inv.register (h : Inv a s) (hplace : s.place = .adding) {kernel : Kernel}
    (htime : inTime a (.addEvent kernel) s = true) (hs : s.register a kernel = some s') :
    Inv a s' := by
  rw [HookedCall.register] at hs
  split at hs
  next => cases hs
  next rt events hadd =>
    split_ifs at hs with hrt
    · obtain rfl := Option.some.inj hs
      exact h.leave rfl
    · obtain rfl := Option.some.inj hs
      rw [not_not] at hrt
      subst hrt
      have hexec : s.events.exec (.addEvent kernel (some iom) self a.fd a.event none) =
          .ok (.int 0, events) := by
        rw [IOManager.exec, hadd]
        rfl
      have hkept : Entry.deleted s.events.ledger.length ∉ s.events.ledger := fun hin =>
        absurd (h.accounts.ended _ _ hin (beq_self_eq_true _)) (Nat.lt_irrefl _)
      have hacc := h.accounts.exec hexec
      cases IOManager.addEvent_outcome hadd with
      | nothing _ ha => rcases ha with ha | ha | ha <;> cases ha
      | @add _ _ _ _ _ _ c hc _ _ hkernel =>
          have hserved : s.cancelled = 0 ∨ s.callbacks.any Phase.past = true := by
            rw [inTime, hc] at htime
            simpa [hkernel] using htime
          refine ⟨h.clocked, h.made, hacc, fun hfinite _ => ?_, h.marked,
            fun _ => ⟨?_, ?_⟩, fun _ _ => hserved⟩
          · exact h.armed hfinite (by rw [hplace]; rfl)
          · exact List.mem_append_right _ (List.mem_singleton_self _)
          · change Entry.deleted _ ∉ s.events.ledger ++ [_]
            rw [List.mem_append, not_or]
            exact ⟨hkept, fun hin => nomatch List.mem_singleton.1 hin⟩

/-- A call on the timers keeps the invariant, if the one of this call runs on or its callback is
out. -/
theorem Inv.timers (h : Inv a s) {c : TimerManger.Call}
    (hc : Manager.possible c s.timers = true) (hruns : s.place.armed = true → s.Runs →
      Runs { s with timers := (TimerManger.exec c s.timers).2 }) :
    Inv a { s with timers := (TimerManger.exec c s.timers).2 } where
  clocked := (Manager.exec_leaves h.clocked hc).clocked
  made := fun p hp => (h.made p hp).trans_le (Manager.exec_leaves h.clocked hc).allocs_le
  accounts := h.accounts
  armed := fun hfinite hp hzero => (h.armed hfinite hp hzero).imp (hruns hp) id
  marked := h.marked
  entered := fun hp => ⟨(h.entered hp).added, (h.entered hp).kept⟩
  served := h.served

/-- Cancelling the timer keeps the invariant, for a fiber that has been resumed. -/
theorem Inv.cancelTimer (h : Inv a s) {p : Place} (hp : p.armed = false) :
    Inv a (s.cancelTimer.goto p) := by
  rw [HookedCall.cancelTimer]
  split
  next => exact h.leave hp
  next q hq =>
    have hc : Manager.possible (.cancel q) s.timers = true := decide_eq_true (h.made q hq)
    have hleft := (h.leave hp).timers hc fun harmed =>
      absurd (hp.symm.trans harmed) Bool.false_ne_true
    exact hleft

/-- Taking out expired timers keeps the invariant: the callbacks of the call are out then. -/
theorem Inv.listExpiredCb (h : Inv a s) (now probe : ℕ) :
    Inv a { s with
      timers := (s.timers.listExpiredCb now probe).2
      callbacks := s.callbacks ++ s.ownCallbacks now probe } := by
  obtain ⟨-, -, -, -, -, -, hallocs, -, -⟩ := h.clocked.wf.listExpiredCb_spec now probe
  refine ⟨Manager.listExpiredCb_clocked h.clocked now probe, fun p hp => hallocs ▸ h.made p hp,
    h.accounts, fun hfinite hplace hzero => ?_, fun hin => ?_,
    fun hp => ⟨(h.entered hp).added, (h.entered hp).kept⟩, fun hp hreg => ?_⟩
  · rcases h.armed hfinite hplace hzero with hruns | hne
    · refine (hruns.listExpiredCb h.clocked now probe).imp id fun hne => ?_
      exact List.append_ne_nil_of_right_ne_nil _ hne
    · exact Or.inr (List.append_ne_nil_of_left_ne_nil hne _)
  · refine h.marked ((List.mem_append.1 hin).resolve_right fun hown => ?_)
    obtain ⟨_, _, hphase⟩ := List.mem_map.1 hown
    cases hphase
  · refine (h.served hp hreg).imp id fun hany => ?_
    rw [List.any_append, hany, Bool.true_or]

/-- The list of callbacks changes, and with it nothing that the fiber relies on.  Where one was
there before, one is there afterwards. -/
theorem Inv.callbacks (h : Inv a s) {l : List Phase}
    (harmed : s.place.armed = true → s.cancelled = 0 → s.callbacks ≠ [] → l ≠ [])
    (hmarked : .marked ∈ l → .marked ∈ s.callbacks)
    (hserved : s.callbacks.any Phase.past = true → l.any Phase.past = true) :
    Inv a { s with callbacks := l } where
  clocked := h.clocked
  made := h.made
  accounts := h.accounts
  armed := fun hfinite hp hzero => (h.armed hfinite hp hzero).imp id (harmed hp hzero)
  marked := fun hin => h.marked (hmarked hin)
  entered := fun hp => ⟨(h.entered hp).added, (h.entered hp).kept⟩
  served := fun hp hreg => (h.served hp hreg).imp id hserved

/-- A call on the events, other than `delEvent` for this fiber.  It leaves somebody to cancel
the event, if it leaves it registered.  A registration that ends has handed the fiber over. -/
theorem Inv.exec (h : Inv a s) {c : IOManager.Call} {r : IOManager.Answer}
    (hexec : s.events.exec c = .ok (r, m')) (hforgets : forgets a c = false) :
    Inv a { s with events := m' } where
  clocked := h.clocked
  made := h.made
  accounts := h.accounts.exec hexec
  armed := h.armed
  marked := h.marked
  entered := fun hp => (h.entered hp).exec h.accounts hexec hforgets
  served := fun hp hreg =>
    h.served hp (holds_of_exec h.accounts hexec (h.entered hp).added hreg)

/-- What is in a list in which one place is written is the new one, or was in it. -/
theorem mem_of_mem_set {l : List Phase} {i : ℕ} {c d : Phase} (hd : d ∈ l.set i c) (hne : d ≠ c) :
    d ∈ l :=
  (List.mem_or_eq_of_mem_set hd).resolve_right hne

/-- A callback marks the call as cancelled, and is still to cancel the event.  It has passed its
test, so nothing comes in between for it. -/
theorem Inv.mark (h : Inv a s) {i : ℕ} (hi : s.callbacks[i]? = some .passed) :
    Inv a { s with cancelled := etimedout, callbacks := s.callbacks.set i .marked } := by
  have hmem : Phase.marked ∈ s.callbacks.set i .marked :=
    List.mem_of_getElem? (List.getElem?_set_self (List.getElem?_eq_some_iff.1 hi).1)
  have hcancelled : etimedout ≠ 0 := by decide
  exact ⟨h.clocked, h.made, h.accounts, fun _ _ hzero => absurd hzero hcancelled,
    fun _ => hcancelled, fun hp => ⟨(h.entered hp).added, (h.entered hp).kept⟩,
    fun _ _ => Or.inr (List.any_eq_true.2 ⟨.marked, hmem, rfl⟩)⟩

/-- The callback that was marked calls `cancelEvent`.  When `epoll_ctl` refuses it, the fiber is
not registered, or another callback is on its way. -/
theorem Inv.cancelEvent (h : Inv a s) {i : ℕ} (hi : s.callbacks[i]? = some .marked)
    {kernel : Kernel} (htime : inTime a (.cancelEvent i kernel) s = true) {r : IOManager.Answer}
    (hexec : s.events.exec (.cancelEvent kernel a.fd a.event) = .ok (r, m')) :
    Inv a { s with events := m', callbacks := s.callbacks.eraseIdx i } := by
  have hnext := h.exec hexec rfl
  have hmarked := h.marked (List.mem_of_getElem? hi)
  refine ⟨h.clocked, h.made, hnext.accounts, fun _ _ hzero => absurd hzero hmarked,
    fun _ => hmarked, fun hp => ⟨(hnext.entered hp).added, (hnext.entered hp).kept⟩,
    fun hp hreg => Or.inr ?_⟩
  have hbefore : s.registered a = true :=
    holds_of_exec h.accounts hexec (h.entered hp).added hreg
  simp only [inTime, hbefore, Bool.not_true, Bool.false_or, Bool.or_eq_true] at htime
  refine htime.resolve_left fun htriggers => ?_
  have hclear := holds_of_cancelEvent hexec htriggers s.waiter
  exact absurd (hclear.symm.trans hreg) Bool.false_ne_true

/-- Where a system call leads, no timer is armed. -/
theorem answered_armed (a : Args) (n : ℤ) (errno : ℕ) : (answered a n errno).armed = false := by
  cases a <;> simp only [answered] <;> split_ifs <;> rfl

/-- With a timer armed the `timer_info` exists, since the call holds it. -/
theorem alive_of_armed (h : s.place.armed = true) : s.alive = true := by
  rw [alive]
  cases hplace : s.place <;> rw [hplace] at h <;> first
    | rfl
    | cases h

/-- **A step** that is in time keeps it.  One case for each step. -/
theorem Inv.step (h : Inv a s) {x : Step} (hs : stepInTime a x s = some s') : Inv a s' := by
  obtain ⟨htime, hs⟩ := Option.ite_none_right_eq_some.1 hs
  cases x with
  | call n errno =>
      obtain ⟨hplace, hs⟩ := Option.ite_none_right_eq_some.1 hs
      obtain rfl := Option.some.inj hs
      exact h.leave (answered_armed a n errno)
  | addConditionTimer addr now =>
      obtain ⟨hplace, hs⟩ := Option.ite_none_right_eq_some.1 hs
      exact h.arm hs
  | addEvent kernel =>
      obtain ⟨hplace, hs⟩ := Option.ite_none_right_eq_some.1 hs
      exact h.register hplace htime hs
  | yield =>
      obtain ⟨hplace, hs⟩ := Option.ite_none_right_eq_some.1 hs
      obtain rfl := Option.some.inj hs
      exact h.goto (fun _ => by rw [hplace]; rfl) (fun _ => by rw [hplace]; rfl)
  | resume =>
      obtain ⟨hplace, hs⟩ := Option.ite_none_right_eq_some.1 hs
      obtain rfl := Option.some.inj hs
      exact h.leave rfl
  | cancelTimer =>
      simp only [HookedCall.step] at hs
      split_ifs at hs
      · obtain rfl := Option.some.inj hs
        exact h.cancelTimer rfl
      · obtain rfl := Option.some.inj hs
        cases a <;> exact h.cancelTimer rfl
  | testCancelled =>
      obtain ⟨hplace, hs⟩ := Option.ite_none_right_eq_some.1 hs
      obtain rfl := Option.some.inj hs
      split_ifs
      · exact h.leave rfl
      · cases a <;> exact h.leave rfl
  | getsockopt error =>
      obtain ⟨hplace, hs⟩ := Option.ite_none_right_eq_some.1 hs
      obtain rfl := Option.some.inj hs
      split <;> exact h.leave rfl
  | listExpiredCb now probe =>
      obtain rfl := Option.some.inj hs
      exact h.listExpiredCb now probe
  | lock i =>
      obtain ⟨hi, hs⟩ := Option.ite_none_right_eq_some.1 hs
      obtain rfl := Option.some.inj hs
      split_ifs with halive
      · exact h.callbacks (fun _ _ _ => set_ne_nil hi _) (fun hin => mem_of_mem_set hin nofun)
          fun hany => (any_past_set hi rfl _ hany).1
      · -- the call has returned
        exact h.callbacks (fun harmed => absurd (alive_of_armed harmed) halive)
          List.mem_of_mem_eraseIdx fun hany => (any_past_set hi rfl .queued hany).2
  | test i =>
      obtain ⟨hi, hs⟩ := Option.ite_none_right_eq_some.1 hs
      obtain rfl := Option.some.inj hs
      split_ifs with hcancelled
      · exact h.callbacks (fun _ hzero => absurd hzero hcancelled) List.mem_of_mem_eraseIdx
          fun hany => (any_past_set hi rfl .queued hany).2
      · exact h.callbacks (fun _ _ _ => set_ne_nil hi _) (fun hin => mem_of_mem_set hin nofun)
          fun hany => (any_past_set hi rfl _ hany).1
  | mark i =>
      obtain ⟨hi, hs⟩ := Option.ite_none_right_eq_some.1 hs
      obtain rfl := Option.some.inj hs
      exact h.mark hi
  | cancelEvent i kernel =>
      obtain ⟨hi, hs⟩ := Option.ite_none_right_eq_some.1 hs
      obtain ⟨m, hm, rfl⟩ := Option.map_eq_some_iff.1 hs
      obtain ⟨r, hexec⟩ := IOManager.exists_exec_of_step hm
      exact h.cancelEvent hi htime hexec
  | timers c =>
      obtain ⟨hc, hs⟩ := Option.ite_none_right_eq_some.1 hs
      obtain rfl := Option.some.inj hs
      rw [Bool.and_eq_true] at hc
      exact h.timers hc.2 fun _ hruns => hruns.exec h.clocked hc.1 hc.2
  | events c =>
      obtain ⟨hforgets, hs⟩ := Option.ite_none_left_eq_some.1 hs
      obtain ⟨m, hm, rfl⟩ := Option.map_eq_some_iff.1 hs
      obtain ⟨r, hexec⟩ := IOManager.exists_exec_of_step hm
      exact h.exec hexec (eq_false_of_ne_true hforgets)

/-- The invariant holds in every state of a run whose steps are in time. -/
theorem inv_of_reachable {heap : TimerPtr → Timer} {n : ℕ}
    (h : Reachable (stepInTime a) (init heap n) s) : Inv a s :=
  h.invariant (init_inv a heap n) fun _ _ _ hI hs => hI.step hs

/-- **No timeout is lost** in a run whose steps are in time: whenever the fiber is suspended
with a timeout, its timer runs, or a callback will still cancel its registered event, or it was
handed to the scheduler.  With any number of steps of the others, and any answers of the system
call and of `epoll_ctl`.  The function is `do_io` (`src/hiper/base/hook.cc:141-186`): the timer
is armed in line 154 and the event registered in line 167, so the callback of a timer that
expires in between finds no event to cancel, and the fiber that yields in line 176 has no timer
any more. -/
theorem timeout_not_lost (a : Args) (heap : TimerPtr → Timer) (n : ℕ)
    (h : Reachable (stepInTime a) (init heap n) s) : NotLost a s := by
  have hinv := inv_of_reachable h
  intro hfinite hplace
  have harmed : s.place.armed = true := by rw [hplace]; rfl
  have hwaiting : s.place.waiting = true := by rw [hplace]; rfl
  rcases (hinv.entered hwaiting).registered_or_handed hinv.accounts with hreg | hhanded
  · rcases hinv.served hwaiting hreg with hzero | hany
    · rcases hinv.armed hfinite harmed hzero with ⟨p, hp, hmem, -⟩ | hne
      · exact Or.inl ⟨p, hp, hmem⟩
      · obtain ⟨c, hc⟩ := List.exists_mem_of_ne_nil _ hne
        refine Or.inr (Or.inl ⟨hreg, c, hc, ?_⟩)
        rw [willCancel, hzero, beq_self_eq_true, Bool.or_true]
    · obtain ⟨c, hc, hpast⟩ := List.any_eq_true.1 hany
      refine Or.inr (Or.inl ⟨hreg, c, hc, ?_⟩)
      rw [willCancel, hpast, Bool.true_or]
  · exact Or.inr (Or.inr hhanded)

/-- `recv` on descriptor 0, with a timeout of 10 ms.  Its event is reading. -/
def recv : Args := .doIo 0 .read 10

/-- A kernel that accepts every `epoll_ctl`. -/
def accepts : Kernel := fun _ => true

/-- The callback runs after the fiber was suspended, up to its `cancelEvent`.  The run is one of
ten steps. -/
def timedOut : List Step :=
  [.call (-1) eagain, .addConditionTimer 0 5, .addEvent accepts, .yield, .listExpiredCb 15 0,
    .lock 0, .test 0, .mark 0]

/-- In such a run the timer is gone, and its callback is still to cancel the event. -/
theorem timeout_not_lost_timedOut :
    ∃ s, run (stepInTime recv) timedOut (init Manager.blank 1) = some s ∧
      s.place = .suspended ∧ s.timers.timers = [] ∧ s.handed = false ∧ NotLost recv s := by
  obtain ⟨s, hs, hplace, htimers, hhanded⟩ :
      ∃ s, run (stepInTime recv) timedOut (init Manager.blank 1) = some s ∧
        s.place = .suspended ∧ s.timers.timers = [] ∧ s.handed = false := ⟨_, rfl, rfl, rfl, rfl⟩
  exact ⟨s, hs, hplace, htimers, hhanded,
    timeout_not_lost recv Manager.blank 1 (Reachable.init.run hs)⟩

/-- The callback runs after the timer was added and before the event is registered.  The mark is
made when there is nothing to cancel yet. -/
def firedEarly : List Step :=
  [.call (-1) eagain, .addConditionTimer 0 5, .listExpiredCb 15 0, .lock 0, .test 0, .mark 0,
    .cancelEvent 0 accepts, .addEvent accepts, .yield]

/-- The fiber is suspended, and there is no timer and no callback to wake it.  The failing run. -/
theorem fired_before_addEvent_lost :
    ∃ s, run (step recv) firedEarly (init Manager.blank 1) = some s ∧ ¬ NotLost recv s ∧
      s.place = .suspended ∧ s.registered recv = true ∧ s.timers.timers = [] ∧
      s.callbacks = [] := by
  refine ⟨_, rfl, fun h => ?_, rfl, rfl, rfl, rfl⟩
  rcases h rfl rfl with ⟨p, -, hp⟩ | ⟨-, c, hc, -⟩ | hhanded
  · cases hp
  · cases hc
  · cases hhanded

end Hiper.HookedCall

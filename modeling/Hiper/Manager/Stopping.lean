import Hiper.Manager.Basic
import Hiper.Scheduler.HandOut

/-!
# When `IOManager::stopping()` returns true

`IOManager::stopping` (`src/hiper/base/iomanager.cc:347`) reads the timers, then
`pending_event_count_`, and then, in `Scheduler::stopping`, the queue and the count of active
threads.  Between the reads other threads go on, and nothing that the call reads tells of the
callbacks that `listExpiredCb` has taken out of `timers_` in another worker's `idle` and that
are not scheduled yet.

What a call does not see is decided by the steps between its reads.  If none of them adds a
timer, none behind the second read registers an event, and every worker that had callbacks in
its hands at the first read has scheduled them by the last, then no work is left when the call
returns true; and where a worker has not scheduled them, work is left (`stopping_right_iff`).
The reads that a call has made are found in the run (`exists_reads`).
-/

namespace Hiper.Manager

open Lib Scheduler

/-- No work is left: no timer, no registered event, no task queued or running, and no
callback on its way from `listExpiredCb` to `schedule`. -/
structure NoWork (s : Manager) : Prop where
  timers : s.timers.timers = []
  events : ∀ (fd : ℕ) (c : IOManager.FdContext) e, s.events.fdContexts[fd]? = some c →
    c.events e = false
  queue : s.scheduler.fibers = []
  running : ∀ x ∈ s.scheduler.workers, x.place.counted = false
  callbacks : ∀ w cbs, s.idle w ≠ .expired cbs

/-! ### The timers -/

/-- The timers are in order, and expire at `uint64_t` times.  The first is the invariant of the
timer set, with no callback between two sections. -/
structure Clocked (m : TimerManger) : Prop where
  wf : m.Wf ∅
  lt : ∀ p ∈ m.timers, (m.heap p).expiration < 2 ^ 64

/-- An expiration is a `uint64_t`. -/
theorem add64_lt (a b : ℕ) : add64 a b < 2 ^ 64 := Nat.mod_lt _ (by decide)

/-- What a call other than `listExpiredCb` leaves of the timers.  It is one lemma for the four
kinds of calls. -/
structure Leaves (c : TimerManger.Call) (m m' : TimerManger) : Prop where
  clocked : Clocked m'
  allocs_le : m.allocs ≤ m'.allocs
  /-- One timer may be new. -/
  old : ∀ q ∈ m'.timers, q = m.allocs ∨ q ∈ m.timers
  /-- One timer may be cancelled. -/
  stays : ∀ q ∈ m.timers, c ≠ .cancel q → q ∈ m'.timers ∧ (m'.heap q).cb = (m.heap q).cb

variable {m m' : TimerManger} {c : TimerManger.Call}

/-- A call that does nothing. -/
theorem Leaves.refl (h : Clocked m) (c : TimerManger.Call) : Leaves c m m :=
  ⟨h, le_rfl, fun _ hq => Or.inr hq, fun _ hq _ => ⟨hq, rfl⟩⟩

/-- The set is that of `m'`, whatever becomes of `tickled_`.  No timer changes. -/
theorem Leaves.tickled (h : Leaves c m m') (b : Bool) : Leaves c m { m' with tickled := b } :=
  ⟨⟨h.clocked.wf.tickled_wf b, h.clocked.lt⟩, h.allocs_le, h.old, h.stays⟩

/-- A timer that is taken out and put in again. -/
theorem moved_leaves (h : Clocked m) {p : TimerPtr} (hp : p ∈ m.timers) {f : Timer → Timer}
    (haddr : (f (m.heap p)).addr = (m.heap p).addr) (hcb : (f (m.heap p)).cb = (m.heap p).cb)
    (hlt : (f (m.heap p)).expiration < 2 ^ 64) (c : TimerManger.Call) :
    Leaves c m (m.moved p f) := by
  have hmem := fun q => h.wf.mem_moved (q := q) hp haddr hcb
  refine ⟨⟨h.wf.moved_wf hp haddr hcb, fun q hq => ?_⟩, le_rfl, fun q hq => Or.inr ((hmem q).1 hq),
    fun q hq _ => ⟨(hmem q).2 hq, TimerManger.modify_heap_congr Timer.cb hcb q⟩⟩
  change ((m.modify p f).heap q).expiration < 2 ^ 64
  by_cases hqp : q = p
  · rw [hqp, TimerManger.modify_heap_self]
    exact hlt
  · rw [TimerManger.modify_heap_of_ne f hqp]
    exact h.lt q ((hmem q).1 hq)

/-- A timer that is cancelled. -/
theorem cancelled_leaves (h : Clocked m) {p : TimerPtr} (hp : p ∈ m.timers) :
    Leaves (.cancel p) m (m.cancelled p) := by
  have hmem := fun q => h.wf.mem_cancelled (q := q) hp
  refine ⟨⟨h.wf.cancelled_wf hp, fun q hq => ?_⟩, le_rfl, fun q hq => Or.inr ((hmem q).1 hq).1,
    fun q hq hc => ?_⟩
  · change ((m.modify p fun t => { t with cb := none }).heap q).expiration < 2 ^ 64
    rw [TimerManger.modify_heap_congr Timer.expiration rfl]
    exact h.lt q ((hmem q).1 hq).1
  · have hqp : q ≠ p := fun heq => hc (heq ▸ rfl)
    refine ⟨(hmem q).2 ⟨hq, hqp⟩, ?_⟩
    change ((m.modify p fun t => { t with cb := none }).heap q).cb = _
    rw [TimerManger.modify_heap_of_ne _ hqp]

/-- **A call on the timers**, by its kind.  `addTimer`, `cancel`, `refresh` and `reset` have one
case each. -/
theorem exec_leaves (h : Clocked m) (hc : possible c m = true) :
    Leaves c m (TimerManger.exec c m).2 := by
  cases c with
  | addTimer addr now ms cb r =>
      obtain ⟨hwf, hmem, hself, hold⟩ := h.wf.addTimer_spec now ms (some cb) r fun q hq =>
        bne_iff_ne.1 (List.all_eq_true.1 hc q hq)
      have hlt : ∀ q ∈ m.timers, q < m.allocs := fun q hq => h.wf.lt_allocs q (Or.inl hq)
      refine ⟨⟨hwf, fun q hq => ?_⟩, Nat.le_succ _, fun q hq => (hmem q).1 hq,
        fun q hq _ => ⟨(hmem q).2 (Or.inr hq), congrArg Timer.cb (hold q (hlt q hq))⟩⟩
      change ((m.addTimer addr now ms (some cb) r).2.heap q).expiration < 2 ^ 64
      rcases (hmem q).1 hq with rfl | hq
      · rw [hself]
        exact add64_lt ..
      · rw [hold q (hlt q hq)]
        exact h.lt q hq
  | cancel p =>
      have hp := TimerManger.given_of_lt (of_decide_eq_true hc)
      rcases TimerManger.cancel_cases h.wf hp with ⟨-, heq⟩ | ⟨hmem, heq⟩
      · simp only [TimerManger.exec, heq]
        exact .refl h _
      · simp only [TimerManger.exec, heq]
        exact cancelled_leaves h hmem
  | refresh p now =>
      have hp := TimerManger.given_of_lt (of_decide_eq_true hc)
      rcases TimerManger.refresh_cases h.wf hp now with ⟨-, heq⟩ | ⟨hmem, heq⟩
      · simp only [TimerManger.exec, heq]
        exact .refl h _
      · simp only [TimerManger.exec, heq]
        exact moved_leaves h hmem rfl rfl (add64_lt ..) _
  | reset p ms fromNow now =>
      have hp := TimerManger.given_of_lt (of_decide_eq_true hc)
      rcases TimerManger.reset_cases h.wf hp ms fromNow now with ⟨heq, -⟩ | ⟨-, heq⟩ | ⟨hmem, heq⟩
      · simp only [TimerManger.exec, heq]
        exact .refl h _
      · simp only [TimerManger.exec, heq]
        exact .refl h _
      · simp only [TimerManger.exec, heq]
        exact (moved_leaves h hmem (f := fun t =>
          { t with ms := ms, expiration := add64 (TimerManger.resetStart t fromNow now) ms })
          rfl rfl (add64_lt ..) _).tickled _
  | listExpiredCb now probe => cases hc

/-- `listExpiredCb` leaves the timers in order. -/
theorem listExpiredCb_clocked {m : TimerManger} (h : Clocked m) (now probe : ℕ) :
    Clocked (m.listExpiredCb now probe).2 := by
  obtain ⟨expired, -, -, -, hwf, hheap, -, -, hmem⟩ := h.wf.listExpiredCb_spec now probe
  refine ⟨hwf, fun q hq => ?_⟩
  have hold := h.lt q ((hmem q).1 hq).1
  rw [hheap]
  simp only [TimerManger.fired]
  split_ifs
  · exact add64_lt ..
  · exact hold
  · exact hold

/-- Where there is no timer, none expires.  Nothing changes then. -/
theorem listExpiredCb_of_empty {m : TimerManger} (h : m.timers = []) (now probe : ℕ) :
    m.listExpiredCb now probe = ([], m) := by
  rw [TimerManger.listExpiredCb, h]
  rfl

/-- The call is `addTimer`.  The others make no timer. -/
def isAddTimer : TimerManger.Call → Bool
  | .addTimer .. => true
  | _ => false

/-- Where there is no timer, only `addTimer` makes one: `cancel`, `refresh` and `reset` give up
when they do not find theirs in the set.  It is so for a timer of any state. -/
theorem exec_of_empty (h : Clocked m) (hc : possible c m = true) (hadd : isAddTimer c = false)
    (hempty : m.timers = []) : (TimerManger.exec c m).2.timers = [] := by
  have hnot : ∀ p, p ∉ m.timers := fun p hp => by
    rw [hempty] at hp
    cases hp
  cases c with
  | addTimer addr now ms cb r => cases hadd
  | cancel p =>
      have hp := TimerManger.given_of_lt (of_decide_eq_true hc)
      rcases TimerManger.cancel_cases h.wf hp with ⟨-, heq⟩ | ⟨hmem, -⟩
      · simp only [TimerManger.exec, heq]
        exact hempty
      · exact absurd hmem (hnot p)
  | refresh p now =>
      have hp := TimerManger.given_of_lt (of_decide_eq_true hc)
      rcases TimerManger.refresh_cases h.wf hp now with ⟨-, heq⟩ | ⟨hmem, -⟩
      · simp only [TimerManger.exec, heq]
        exact hempty
      · exact absurd hmem (hnot p)
  | reset p ms fromNow now =>
      have hp := TimerManger.given_of_lt (of_decide_eq_true hc)
      rcases TimerManger.reset_cases h.wf hp ms fromNow now with ⟨heq, -⟩ | ⟨-, heq⟩ | ⟨hmem, -⟩
      · simp only [TimerManger.exec, heq]
        exact hempty
      · simp only [TimerManger.exec, heq]
        exact hempty
      · exact absurd hmem (hnot p)
  | listExpiredCb now probe => cases hc

/-- `getNextTimer` answers `~0ull` when there is no timer, and only then.  A timer that is due
gives 0, any other at most its time, and the clock has gone on since the start. -/
theorem getNextTimer_eq_iff {m : TimerManger} (h : Clocked m) {now : ℕ} (hnow : 0 < now) :
    (m.getNextTimer now).1 = 2 ^ 64 - 1 ↔ m.timers = [] := by
  rw [TimerManger.getNextTimer]
  cases htimers : m.timers with
  | nil => simp
  | cons p rest =>
      have hlt := h.lt p (htimers ▸ List.mem_cons_self ..)
      simp only
      split_ifs
      · simp
      · simp
        omega

/-- `getNextTimer` changes no timer. -/
theorem getNextTimer_keeps {m : TimerManger} (h : Clocked m) (now : ℕ) :
    Clocked (m.getNextTimer now).2 ∧ (m.getNextTimer now).2.timers = m.timers := by
  have heq : (m.getNextTimer now).2 = { m with tickled := false } := by
    rw [TimerManger.getNextTimer]
    cases m.timers with
    | nil => rfl
    | cons p rest =>
        simp only
        split_ifs <;> rfl
  rw [heq]
  exact ⟨⟨h.wf.tickled_wf _, h.lt⟩, rfl⟩

/-! ### The events -/

/-- A context has no negative number of bits. -/
theorem bits_nonneg (c : IOManager.FdContext) : 0 ≤ c.bits := by
  rw [IOManager.FdContext.bits]
  split_ifs <;> omega

/-- Where the sum of the bits is zero each context has none. -/
theorem bits_eq_zero {cs : List IOManager.FdContext}
    (h : (cs.map IOManager.FdContext.bits).sum = 0) : ∀ c ∈ cs, c.bits = 0 := by
  have hnonneg : ∀ cs : List IOManager.FdContext, 0 ≤ (cs.map IOManager.FdContext.bits).sum := by
    intro cs
    induction cs with
    | nil => exact le_rfl
    | cons c cs ih =>
        have hc := bits_nonneg c
        rw [List.map_cons, List.sum_cons]
        omega
  induction cs with
  | nil => nofun
  | cons c cs ih =>
      have hc := bits_nonneg c
      have hcs := hnonneg cs
      rw [List.map_cons, List.sum_cons] at h
      exact List.forall_mem_cons.2 ⟨by omega, ih (by omega)⟩

/-- No event is registered.  No bit is set in any context. -/
def Clear (m : IOManager) : Prop :=
  ∀ (fd : ℕ) (c : IOManager.FdContext) e, m.fdContexts[fd]? = some c → c.events e = false

/-- With no pending event none is registered.  The count is the sum of the bits, by the account. -/
theorem clear_of_zero {m : IOManager} (h : m.Accounts) (hzero : m.pendingEventCount = 0) :
    Clear m := by
  intro fd c e hc
  have hbits := bits_eq_zero (h.pending_eq.symm.trans hzero) c (List.mem_of_getElem? hc)
  rw [IOManager.FdContext.bits] at hbits
  rw [← Bool.not_eq_true]
  intro he
  cases e <;> simp only [he, if_true] at hbits <;> split_ifs at hbits <;> omega

/-- The call is `addEvent`.  The others register nothing. -/
def isAddEvent : IOManager.Call → Bool
  | .addEvent .. => true
  | _ => false

/-- A trigger writes no registration to the ledger. -/
theorem added_notMem_handedOver (ctx : IOManager.EventContext) (fd : ℕ) (e : IOManager.Event)
    (scheduler : Option IOManager.SchedulerPtr) (w : IOManager.Waiter) :
    IOManager.Entry.added fd e scheduler w ∉ IOManager.handedOver ctx := by
  rw [IOManager.handedOver]
  split <;> simp

/-- Only `addEvent` writes a registration to the ledger.  The others write ends. -/
theorem added_of_exec {m m' : IOManager} {c : IOManager.Call} {a : IOManager.Answer}
    (hexec : m.exec c = .ok (a, m')) (hadd : isAddEvent c = false) {fd : ℕ} {e : IOManager.Event}
    {scheduler : Option IOManager.SchedulerPtr} {w : IOManager.Waiter}
    (h : .added fd e scheduler w ∈ m'.ledger) : .added fd e scheduler w ∈ m.ledger := by
  cases IOManager.outcome_of_exec hexec with
  | nothing => exact h
  | add => cases hadd
  | @del _ fd event c hc hbit =>
      rw [IOManager.afterDel, List.mem_append, List.mem_map] at h
      refine h.resolve_right ?_
      rintro ⟨w', -, hw'⟩
      cases hw'
  | trigger hc =>
      rw [IOManager.afterBits_ledger, List.mem_append, List.mem_flatMap] at h
      refine h.resolve_right ?_
      rintro ⟨e', -, he'⟩
      exact added_notMem_handedOver _ _ _ _ _ he'

/-- **A call other than `addEvent` registers nothing.**  An event that is registered behind it
was registered before, and what is registered is not both ended and not.  The account says so of
the ledger. -/
theorem Clear.exec {m m' : IOManager} (h : m.Accounts) (h' : m'.Accounts) {c : IOManager.Call}
    {a : IOManager.Answer} (hexec : m.exec c = .ok (a, m')) (hadd : isAddEvent c = false)
    (hclear : Clear m) : Clear m' := by
  intro fd x e hx
  rw [← Bool.not_eq_true]
  intro hbit
  obtain ⟨-, w, hw, hadded⟩ := h'.set fd x e hx hbit
  have hledger := IOManager.ledger_exec hexec
  have hold := added_of_exec hexec hadd hadded
  have hnot : m.holds fd e w = false := by
    rw [IOManager.holds]
    split
    next => rfl
    next y hy => rw [hclear fd y e hy, Bool.false_and]
  have hholds : m'.holds fd e w = true := by
    rw [IOManager.holds, hx]
    simp [hbit, hw]
  have honce := h.once fd e _ w hold
  have honce' := h'.once fd e _ w hadded
  rw [hnot, if_neg Bool.false_ne_true] at honce
  rw [hholds, if_pos rfl, hledger, List.countP_append] at honce'
  omega

/-! ### Single steps -/

section Steps

variable {s s' : Manager}

/-- A step of the scheduler. -/
theorem scheduler_step {a : Pool.Step} (h : step (.scheduler a) s = some s') :
    ∃ p, Pool.step a s.scheduler = some p ∧ s' = { s with scheduler := p } := by
  obtain ⟨-, h⟩ := Option.ite_none_left_eq_some.1 h
  obtain ⟨p, hp, rfl⟩ := Option.map_eq_some_iff.1 h
  exact ⟨p, hp, rfl⟩

/-- A call on the timers. -/
theorem timers_step {c : TimerManger.Call} (h : step (.timers c) s = some s') :
    possible c s.timers = true ∧ s' = { s with timers := (TimerManger.exec c s.timers).2 } := by
  obtain ⟨hc, h⟩ := Option.ite_none_right_eq_some.1 h
  exact ⟨hc, (Option.some.inj h).symm⟩

/-- A call on the events is one step of the scheduler with the tasks it hands over. -/
theorem callEvents_eq {c : IOManager.Call} (h : s.callEvents c = some s') :
    ∃ a m pa p, s.events.exec c = .ok (a, m) ∧ Pool.step pa s.scheduler = some p ∧
      s' = { s with events := m, scheduler := p } := by
  obtain ⟨m, hm, h⟩ := Option.bind_eq_some_iff.1 h
  obtain ⟨p, hp, rfl⟩ := Option.map_eq_some_iff.1 h
  obtain ⟨a, hexec⟩ := IOManager.exists_exec_of_step hm
  exact ⟨a, m, _, p, hexec, hp, rfl⟩

/-- A call on the events. -/
theorem events_step {c : IOManager.Call} (h : step (.events c) s = some s') :
    s.callEvents c = some s' :=
  (Option.ite_none_left_eq_some.1 h).2

/-- The first read. -/
theorem getNextTimer_step {a : Asker} {now : ℕ} (h : step (.getNextTimer a now) s = some s') :
    s.mayAsk a = true ∧ s.asks a = .out ∧ 0 < now ∧
      s' = if (s.timers.getNextTimer now).1 = 2 ^ 64 - 1 then
          { s with timers := (s.timers.getNextTimer now).2 }.ask a .noTimer
        else { s with timers := (s.timers.getNextTimer now).2 }.refused a := by
  obtain ⟨hguard, h⟩ := Option.ite_none_right_eq_some.1 h
  simp only [Bool.and_eq_true, decide_eq_true_iff, beq_iff_eq] at hguard
  exact ⟨hguard.1.1, hguard.1.2, hguard.2, (Option.some.inj h).symm⟩

/-- The second read. -/
theorem pendingEvents_step {a : Asker} (h : step (.pendingEvents a) s = some s') :
    s.asks a = .noTimer ∧
      s' = if s.events.pendingEventCount = 0 then s.ask a .noEvent else s.refused a := by
  simp only [step] at h
  split at h
  next ha => exact ⟨ha, (Option.some.inj h).symm⟩
  next => cases h

/-- The third read. -/
theorem schedulerStopping_step {a : Asker} (h : step (.schedulerStopping a) s = some s') :
    s.asks a = .noEvent ∧ (s' = s.refused a ∨ s.granted a = some s') := by
  simp only [step] at h
  split at h
  next ha =>
    refine ⟨ha, ?_⟩
    split_ifs at h
    · exact Or.inr h
    · exact Or.inl (Option.some.inj h).symm
  next => cases h

/-- A call that is granted changes the scheduler and its asker only. -/
theorem granted_eq {a : Asker} (h : s.granted a = some s') :
    ∃ p, (p = s.scheduler ∨ ∃ pa, Pool.step pa s.scheduler = some p) ∧
      s' = { s.ask a .out with scheduler := p } := by
  cases a with
  | worker w =>
      obtain ⟨p, hp, rfl⟩ := Option.map_eq_some_iff.1 h
      exact ⟨p, Or.inr ⟨_, hp⟩, rfl⟩
  | stop => exact ⟨s.scheduler, Or.inl rfl, (Option.some.inj h).symm⟩

/-- A worker takes callbacks out. -/
theorem listExpiredCb_step {w : ThreadId} {now probe : ℕ}
    (h : step (.listExpiredCb w now probe) s = some s') :
    s.idle w = .waiting ∧
      s' = { s with timers := (s.timers.listExpiredCb now probe).2 }.goIdle w
        (if ((s.timers.listExpiredCb now probe).1.map Prod.snd).isEmpty then .handling
        else .expired ((s.timers.listExpiredCb now probe).1.map Prod.snd)) := by
  obtain ⟨hw, h⟩ := Option.ite_none_right_eq_some.1 h
  exact ⟨hw, (Option.some.inj h).symm⟩

/-- A worker schedules what it took out. -/
theorem scheduleExpired_step {w : ThreadId} (h : step (.scheduleExpired w) s = some s') :
    (∃ cbs, s.idle w = .expired cbs) ∧ ∃ pa p, Pool.step pa s.scheduler = some p ∧
      s' = { s.goIdle w .handling with scheduler := p } := by
  simp only [step] at h
  split at h
  next cbs hw =>
    obtain ⟨p, hp, rfl⟩ := Option.map_eq_some_iff.1 h
    exact ⟨⟨cbs, hw⟩, _, p, hp, rfl⟩
  next => cases h

/-- A worker dispatches the events of a descriptor. -/
theorem dispatch_step {w : ThreadId} {kernel : IOManager.Kernel} {fd : ℕ}
    {mask : IOManager.EpollEvents} (h : step (.dispatch w kernel fd mask) s = some s') :
    s.callEvents (.dispatch kernel fd mask) = some s' :=
  (Option.ite_none_right_eq_some.1 h).2

/-- A worker goes back to its loop. -/
theorem yield_step {w : ThreadId} (h : step (.yield w) s = some s') :
    s.idle w = .handling ∧ ∃ pa p, Pool.step pa s.scheduler = some p ∧
      s' = { s.goIdle w .asking with scheduler := p } := by
  obtain ⟨hw, h⟩ := Option.ite_none_right_eq_some.1 h
  obtain ⟨p, hp, rfl⟩ := Option.map_eq_some_iff.1 h
  exact ⟨hw, _, p, hp, rfl⟩

/-- A call that is refused is over, and the others stay where they are.  Only one of them is
over. -/
theorem refused_asks (s : Manager) (a : Asker) : (s.refused a).asks = Function.update s.asks a .out := by
  cases a <;> rfl

/-- The timers stay. -/
@[simp] theorem refused_timers (s : Manager) (a : Asker) : (s.refused a).timers = s.timers := by
  cases a <;> rfl

/-- The events stay. -/
@[simp] theorem refused_events (s : Manager) (a : Asker) : (s.refused a).events = s.events := by
  cases a <;> rfl

/-- A worker that is refused goes on to `epoll_wait`.  The thread in `stop` has no such place. -/
theorem refused_idle (s : Manager) (a : Asker) (w : ThreadId) :
    (s.refused a).idle w = if a = .worker w then .waiting else s.idle w := by
  cases a with
  | worker v =>
      by_cases hv : w = v
      · rw [hv, if_pos rfl]
        exact Function.update_self ..
      · rw [if_neg fun h => hv (Asker.worker.inj h).symm]
        exact Function.update_of_ne hv ..
  | stop => rfl

end Steps

/-! ### Every state reached -/

/-- What holds in every state reached.  The parts keep their invariants, and the reads are made
in the condition of the loop. -/
structure Inv (s : Manager) : Prop where
  scheduler : Reachable Pool.step .init s.scheduler
  events : s.events.Accounts
  timers : Clocked s.timers
  /-- A worker in a call of `stopping()` is in the condition of `idle`'s loop. -/
  asking : ∀ w, s.asks (.worker w) ≠ .out → s.idle w = .asking

section Inv

variable {s s' : Manager} {w : ThreadId}

/-- It holds before any thread enters `run`. -/
theorem init_inv (heap : TimerPtr → Timer) (n : ℕ) : Inv (init heap n) :=
  ⟨.init, IOManager.init_accounts n, ⟨TimerManger.init_wf heap, nofun⟩, fun _ h => absurd rfl h⟩

/-- A worker elsewhere in `idle` is in no call.  Its reads are over. -/
theorem Inv.out (h : Inv s) (hw : s.idle w ≠ .asking) : s.asks (.worker w) = .out := by
  by_contra hasks
  exact hw (h.asking w hasks)

/-- A step of the scheduler keeps it. -/
theorem Inv.scheduled (h : Inv s) {a : Pool.Step} {p : Pool}
    (hs : Pool.step a s.scheduler = some p) : Inv { s with scheduler := p } :=
  ⟨h.scheduler.step a hs, h.events, h.timers, h.asking⟩

/-- Timers in order keep it. -/
theorem Inv.timed (h : Inv s) {m : TimerManger} (hm : Clocked m) : Inv { s with timers := m } :=
  ⟨h.scheduler, h.events, hm, h.asking⟩

/-- A worker that is in no call may go anywhere in `idle`. -/
theorem Inv.goIdle (h : Inv s) (hout : s.asks (.worker w) = .out) (p : IdlePlace) :
    Inv (s.goIdle w p) := by
  refine ⟨h.scheduler, h.events, h.timers, fun v hv => ?_⟩
  have hne : v ≠ w := fun heq => hv (heq ▸ hout)
  exact (Function.update_of_ne hne ..).trans (h.asking v hv)

/-- A call goes on, or is over; only a worker in the condition of the loop has one.  Its answer
does not matter here. -/
theorem Inv.ask (h : Inv s) {a : Asker} (ha : ∀ w, a = .worker w → s.idle w = .asking) (q : Ask) :
    Inv (s.ask a q) := by
  refine ⟨h.scheduler, h.events, h.timers, fun v hv => ?_⟩
  by_cases hva : Asker.worker v = a
  · exact ha v hva.symm
  · exact h.asking v fun hout => hv ((Function.update_of_ne hva ..).trans hout)

/-- A call that is refused is over. -/
theorem Inv.refused (h : Inv s) {a : Asker} (ha : ∀ w, a = .worker w → s.idle w = .asking) :
    Inv (s.refused a) := by
  cases a with
  | worker w => exact (h.ask ha .out).goIdle (Function.update_self ..) _
  | stop => exact h.ask ha .out

/-- A call on the events keeps it. -/
theorem Inv.callEvents (h : Inv s) {c : IOManager.Call} (hs : s.callEvents c = some s') :
    Inv s' := by
  obtain ⟨a, m, pa, p, hexec, hp, rfl⟩ := callEvents_eq hs
  exact ⟨h.scheduler.step _ hp, h.events.exec hexec, h.timers, h.asking⟩

/-- A worker that may ask is in the condition of the loop. -/
theorem asking_of_mayAsk {a : Asker} (ha : s.mayAsk a = true) :
    ∀ w, a = .worker w → s.idle w = .asking := by
  rintro w rfl
  exact eq_of_beq (Bool.and_eq_true_iff.1 ha).2

/-- **A step** keeps it.  By cases on the step. -/
theorem Inv.of_step {act : Step} (h : Inv s) (hs : step act s = some s') : Inv s' := by
  cases act with
  | scheduler a =>
      obtain ⟨p, hp, rfl⟩ := scheduler_step hs
      exact h.scheduled hp
  | timers c =>
      obtain ⟨hc, rfl⟩ := timers_step hs
      exact h.timed (exec_leaves h.timers hc).clocked
  | events c => exact h.callEvents (events_step hs)
  | getNextTimer a now =>
      obtain ⟨hmay, -, -, rfl⟩ := getNextTimer_step hs
      have hnext := h.timed (getNextTimer_keeps h.timers now).1
      split_ifs
      · exact hnext.ask (asking_of_mayAsk hmay) _
      · exact hnext.refused (asking_of_mayAsk hmay)
  | pendingEvents a =>
      obtain ⟨ha, rfl⟩ := pendingEvents_step hs
      have hasking : ∀ w, a = .worker w → s.idle w = .asking := by
        rintro w rfl
        exact h.asking w (by rw [ha]; nofun)
      split_ifs
      · exact h.ask hasking _
      · exact h.refused hasking
  | schedulerStopping a =>
      obtain ⟨ha, hs⟩ := schedulerStopping_step hs
      have hasking : ∀ w, a = .worker w → s.idle w = .asking := by
        rintro w rfl
        exact h.asking w (by rw [ha]; nofun)
      rcases hs with rfl | hs
      · exact h.refused hasking
      · obtain ⟨p, rfl | ⟨pa, hp⟩, rfl⟩ := granted_eq hs
        · exact h.ask hasking _
        · exact (h.ask hasking _).scheduled hp
  | listExpiredCb w now probe =>
      obtain ⟨hw, rfl⟩ := listExpiredCb_step hs
      exact (h.timed (listExpiredCb_clocked h.timers now probe)).goIdle
        (h.out (by rw [hw]; nofun)) _
  | scheduleExpired w =>
      obtain ⟨⟨cbs, hw⟩, pa, p, hp, rfl⟩ := scheduleExpired_step hs
      exact (h.goIdle (h.out (by rw [hw]; nofun)) _).scheduled hp
  | dispatch w kernel fd mask => exact h.callEvents (dispatch_step hs)
  | yield w =>
      obtain ⟨hw, pa, p, hp, rfl⟩ := yield_step hs
      exact (h.goIdle (h.out (by rw [hw]; nofun)) _).scheduled hp

/-- A run keeps it.  The induction is over the steps. -/
theorem Inv.of_run {acts : List Step} (h : Inv s) (hrun : run step acts s = some s') : Inv s' :=
  (Reachable.init.run hrun).invariant h fun _ _ _ hI hs => hI.of_step hs

end Inv

/-! ### The reads of a call -/

/-- The step is a read of a call by `a`.  There are three of them. -/
def isReadOf (a : Asker) : Step → Bool
  | .getNextTimer b _ => b == a
  | .pendingEvents b => b == a
  | .schedulerStopping b => b == a
  | _ => false

/-- The first two reads of a call in a run, and the steps between and behind them.  `before`
ends where the call begins. -/
structure Reads (a : Asker) (acts before mid₁ mid₂ : List Step) (now : ℕ) : Prop where
  split : acts = before ++ .getNextTimer a now :: (mid₁ ++ .pendingEvents a :: mid₂)
  between : ∀ act ∈ mid₁ ++ mid₂, isReadOf a act = false

section Reads

variable {s s' : Manager} {a : Asker}

/-- Two askers that are found different are. -/
theorem ne_of_beq_asker {b : Asker} (h : (b == a) = false) : a ≠ b :=
  fun heq => by rw [heq, beq_self_eq_true] at h; cases h

/-- How far a call is, only its own reads change.  Every other step leaves it. -/
theorem asks_step {act : Step} (hread : isReadOf a act = false) (hs : step act s = some s') :
    s'.asks a = s.asks a := by
  cases act with
  | scheduler b =>
      obtain ⟨p, -, rfl⟩ := scheduler_step hs
      rfl
  | timers c =>
      obtain ⟨-, rfl⟩ := timers_step hs
      rfl
  | events c =>
      obtain ⟨b, m, pa, p, -, -, rfl⟩ := callEvents_eq (events_step hs)
      rfl
  | getNextTimer b now =>
      obtain ⟨-, -, -, rfl⟩ := getNextTimer_step hs
      split_ifs
      · exact Function.update_of_ne (ne_of_beq_asker hread) ..
      · rw [refused_asks]
        exact Function.update_of_ne (ne_of_beq_asker hread) ..
  | pendingEvents b =>
      obtain ⟨-, rfl⟩ := pendingEvents_step hs
      split_ifs
      · exact Function.update_of_ne (ne_of_beq_asker hread) ..
      · rw [refused_asks]
        exact Function.update_of_ne (ne_of_beq_asker hread) ..
  | schedulerStopping b =>
      obtain ⟨-, rfl | hs⟩ := schedulerStopping_step hs
      · rw [refused_asks]
        exact Function.update_of_ne (ne_of_beq_asker hread) ..
      · obtain ⟨p, -, rfl⟩ := granted_eq hs
        exact Function.update_of_ne (ne_of_beq_asker hread) ..
  | listExpiredCb w now probe =>
      obtain ⟨-, rfl⟩ := listExpiredCb_step hs
      rfl
  | scheduleExpired w =>
      obtain ⟨-, pa, p, -, rfl⟩ := scheduleExpired_step hs
      rfl
  | dispatch w kernel fd mask =>
      obtain ⟨b, m, pa, p, -, -, rfl⟩ := callEvents_eq (dispatch_step hs)
      rfl
  | yield w =>
      obtain ⟨-, pa, p, -, rfl⟩ := yield_step hs
      rfl

/-- How far a call is, steps that are none of its reads do not change. -/
theorem asks_run {acts : List Step} (hreads : ∀ act ∈ acts, isReadOf a act = false)
    (hrun : run step acts s = some s') : s'.asks a = s.asks a :=
  ((meets_iff_forall hrun).2 hreads).invariant (I := fun s' => s'.asks a = s.asks a)
    (fun _ _ _ hI hread hs => (asks_step hread hs).trans hI) rfl hrun

/-- Behind its first read a call is out, or there was no timer.  The answer was read from the
timers of that moment. -/
theorem asks_getNextTimer {now : ℕ} (h : Inv s) (hs : step (.getNextTimer a now) s = some s') :
    s'.asks a = .out ∨ s'.asks a = .noTimer ∧ s'.timers.timers = [] ∧ s'.idle = s.idle := by
  obtain ⟨-, -, hnow, rfl⟩ := getNextTimer_step hs
  split_ifs with hnone
  · refine Or.inr ⟨Function.update_self .., ?_, rfl⟩
    exact (getNextTimer_keeps h.timers now).2.trans ((getNextTimer_eq_iff h.timers hnow).1 hnone)
  · rw [refused_asks]
    exact Or.inl (Function.update_self ..)

/-- Behind its second read it is out, or no event was pending.  The count was 0 at that moment. -/
theorem asks_pendingEvents (hs : step (.pendingEvents a) s = some s') :
    s'.asks a = .out ∨ s'.asks a = .noEvent ∧ s.events.pendingEventCount = 0 ∧
      s' = s.ask a .noEvent := by
  obtain ⟨-, rfl⟩ := pendingEvents_step hs
  split_ifs with hzero
  · exact Or.inr ⟨Function.update_self .., hzero, rfl⟩
  · rw [refused_asks]
    exact Or.inl (Function.update_self ..)

/-- Behind its third read it is over.  Whatever was answered. -/
theorem asks_schedulerStopping (hs : step (.schedulerStopping a) s = some s') :
    s'.asks a = .out := by
  obtain ⟨-, rfl | hs⟩ := schedulerStopping_step hs
  · rw [refused_asks]
    exact Function.update_self ..
  · obtain ⟨p, -, rfl⟩ := granted_eq hs
    exact Function.update_self ..

/-- A call that is behind its first read has made it in the run.  It is the last one that was
made. -/
theorem exists_first_read {acts : List Step} (hout : s.asks a = .out)
    (hrun : run step acts s = some s') (ha : s'.asks a = .noTimer) :
    ∃ before mid now, acts = before ++ .getNextTimer a now :: mid ∧
      ∀ act ∈ mid, isReadOf a act = false := by
  induction acts using List.reverseRecOn generalizing s' with
  | nil =>
      obtain rfl := Option.some.inj hrun
      rw [hout] at ha
      cases ha
  | append_singleton acts act ih =>
      obtain ⟨s₁, hacts, hstep⟩ := exists_of_run_concat hrun
      cases hread : isReadOf a act with
      | false =>
          obtain ⟨before, mid, now, rfl, hmid⟩ := ih hacts ((asks_step hread hstep).symm.trans ha)
          refine ⟨before, mid ++ [act], now, by simp, ?_⟩
          rw [List.forall_mem_append, List.forall_mem_singleton]
          exact ⟨hmid, hread⟩
      | true =>
          cases act with
          | getNextTimer b now =>
              obtain rfl := eq_of_beq hread
              exact ⟨acts, [], now, rfl, nofun⟩
          | pendingEvents b =>
              obtain rfl := eq_of_beq hread
              rcases asks_pendingEvents hstep with hb | ⟨hb, -⟩ <;> rw [hb] at ha <;> cases ha
          | schedulerStopping b =>
              obtain rfl := eq_of_beq hread
              rw [asks_schedulerStopping hstep] at ha
              cases ha
          | _ => cases hread

/-- **The reads of a call** that is behind its second one are in the run.  There are two, in
this order. -/
theorem exists_reads {acts : List Step} (h : Inv s) (hout : s.asks a = .out)
    (hrun : run step acts s = some s') (ha : s'.asks a = .noEvent) :
    ∃ before mid₁ mid₂ now, Reads a acts before mid₁ mid₂ now := by
  induction acts using List.reverseRecOn generalizing s' with
  | nil =>
      obtain rfl := Option.some.inj hrun
      rw [hout] at ha
      cases ha
  | append_singleton acts act ih =>
      obtain ⟨s₁, hacts, hstep⟩ := exists_of_run_concat hrun
      cases hread : isReadOf a act with
      | false =>
          obtain ⟨before, mid₁, mid₂, now, hreads⟩ :=
            ih hacts ((asks_step hread hstep).symm.trans ha)
          refine ⟨before, mid₁, mid₂ ++ [act], now, by rw [hreads.split]; simp, ?_⟩
          rw [← List.append_assoc, List.forall_mem_append, List.forall_mem_singleton]
          exact ⟨hreads.between, hread⟩
      | true =>
          cases act with
          | getNextTimer b now =>
              obtain rfl := eq_of_beq hread
              rcases asks_getNextTimer (h.of_run hacts) hstep with hb | ⟨hb, -⟩ <;>
                rw [hb] at ha <;> cases ha
          | pendingEvents b =>
              obtain rfl := eq_of_beq hread
              obtain ⟨before, mid, now, rfl, hmid⟩ :=
                exists_first_read hout hacts (pendingEvents_step hstep).1
              refine ⟨before, mid, [], now, by simp, ?_⟩
              rwa [List.append_nil]
          | schedulerStopping b =>
              obtain rfl := eq_of_beq hread
              rw [asks_schedulerStopping hstep] at ha
              cases ha
          | _ => cases hread

end Reads

/-! ### The steps between the reads -/

/-- The step adds a timer.  A callback that recurs is put back by `listExpiredCb`, which finds
none here. -/
def addsTimer : Step → Bool
  | .timers c => isAddTimer c
  | _ => false

/-- The step may register an event.  Whether `epoll_ctl` succeeds is not asked. -/
def registers : Step → Bool
  | .events c => isAddEvent c
  | _ => false

/-- Worker `w` has callbacks in its hands: it stands between `listExpiredCb` and `schedule`.
They are in no set and in no queue. -/
def Carries (s : Manager) (w : ThreadId) : Prop := ∃ cbs, s.idle w = .expired cbs

/-- Nothing between the reads goes by the call.  `s₀` is the state before its first read: no
step behind that adds a timer, no step behind the second read registers an event, and every
worker that had callbacks in its hands schedules them.  It is a condition on the steps, and on
who had callbacks before the first of them. -/
structure Undisturbed (s₀ : Manager) (mid₁ mid₂ : List Step) : Prop where
  timers : ∀ act ∈ mid₁ ++ mid₂, addsTimer act = false
  events : ∀ act ∈ mid₂, registers act = false
  callbacks : ∀ w, s₀.Carries w → .scheduleExpired w ∈ mid₁ ++ mid₂

section Window

variable {s s' : Manager} {w : ThreadId}

/-- Where there is no timer, only a step that adds one makes one.  By cases on the step. -/
theorem empty_step {act : Step} (h : Inv s) (hadd : addsTimer act = false)
    (hempty : s.timers.timers = []) (hs : step act s = some s') : s'.timers.timers = [] := by
  cases act with
  | scheduler b =>
      obtain ⟨p, -, rfl⟩ := scheduler_step hs
      exact hempty
  | timers c =>
      obtain ⟨hc, rfl⟩ := timers_step hs
      exact exec_of_empty h.timers hc hadd hempty
  | events c =>
      obtain ⟨b, m, pa, p, -, -, rfl⟩ := callEvents_eq (events_step hs)
      exact hempty
  | getNextTimer b now =>
      obtain ⟨-, -, -, rfl⟩ := getNextTimer_step hs
      have hkeeps := (getNextTimer_keeps h.timers now).2.trans hempty
      split_ifs
      · exact hkeeps
      · rwa [refused_timers]
  | pendingEvents b =>
      obtain ⟨-, rfl⟩ := pendingEvents_step hs
      split_ifs
      · exact hempty
      · rwa [refused_timers]
  | schedulerStopping b =>
      obtain ⟨-, rfl | hs⟩ := schedulerStopping_step hs
      · rwa [refused_timers]
      · obtain ⟨p, -, rfl⟩ := granted_eq hs
        exact hempty
  | listExpiredCb v now probe =>
      obtain ⟨-, rfl⟩ := listExpiredCb_step hs
      rw [listExpiredCb_of_empty hempty]
      exact hempty
  | scheduleExpired v =>
      obtain ⟨-, pa, p, -, rfl⟩ := scheduleExpired_step hs
      exact hempty
  | dispatch v kernel fd mask =>
      obtain ⟨b, m, pa, p, -, -, rfl⟩ := callEvents_eq (dispatch_step hs)
      exact hempty
  | yield v =>
      obtain ⟨-, pa, p, -, rfl⟩ := yield_step hs
      exact hempty

/-- Where no event is registered, only a step that registers one does.  By cases on the step. -/
theorem clear_step {act : Step} (h : Inv s) (hreg : registers act = false)
    (hclear : Clear s.events) (hs : step act s = some s') : Clear s'.events := by
  cases act with
  | scheduler b =>
      obtain ⟨p, -, rfl⟩ := scheduler_step hs
      exact hclear
  | timers c =>
      obtain ⟨-, rfl⟩ := timers_step hs
      exact hclear
  | events c =>
      obtain ⟨b, m, pa, p, hexec, -, rfl⟩ := callEvents_eq (events_step hs)
      exact hclear.exec h.events (h.events.exec hexec) hexec hreg
  | getNextTimer b now =>
      obtain ⟨-, -, -, rfl⟩ := getNextTimer_step hs
      split_ifs
      · exact hclear
      · rwa [refused_events]
  | pendingEvents b =>
      obtain ⟨-, rfl⟩ := pendingEvents_step hs
      split_ifs
      · exact hclear
      · rwa [refused_events]
  | schedulerStopping b =>
      obtain ⟨-, rfl | hs⟩ := schedulerStopping_step hs
      · rwa [refused_events]
      · obtain ⟨p, -, rfl⟩ := granted_eq hs
        exact hclear
  | listExpiredCb v now probe =>
      obtain ⟨-, rfl⟩ := listExpiredCb_step hs
      exact hclear
  | scheduleExpired v =>
      obtain ⟨-, pa, p, -, rfl⟩ := scheduleExpired_step hs
      exact hclear
  | dispatch v kernel fd mask =>
      obtain ⟨b, m, pa, p, hexec, -, rfl⟩ := callEvents_eq (dispatch_step hs)
      exact hclear.exec h.events (h.events.exec hexec) hexec rfl
  | yield v =>
      obtain ⟨-, pa, p, -, rfl⟩ := yield_step hs
      exact hclear

/-- Callbacks in a worker's hands stay there until it schedules them.  By cases on the step. -/
theorem Carries.stays {act : Step} (hcarries : s.Carries w) (h : Inv s)
    (hne : act ≠ .scheduleExpired w) (hs : step act s = some s') : s'.Carries w := by
  obtain ⟨cbs, hw⟩ := hcarries
  have hidle : ∀ {p : IdlePlace}, (p = .asking ∨ p = .waiting ∨ p = .handling) → s.idle w ≠ p := by
    rintro p (rfl | rfl | rfl) hp <;> rw [hw] at hp <;> cases hp
  have hgo : ∀ {v : ThreadId}, s.idle v = .waiting ∨ s.idle v = .handling → w ≠ v := by
    rintro v hv rfl
    rcases hv with hv | hv
    · exact hidle (Or.inr (Or.inl rfl)) hv
    · exact hidle (Or.inr (Or.inr rfl)) hv
  have hrefused : ∀ {b : Asker}, (∀ v, b = .worker v → s.idle v = .asking) →
      ∀ t : Manager, t.idle = s.idle → (t.refused b).idle w = .expired cbs := by
    intro b hb t ht
    rw [refused_idle, if_neg fun heq => hidle (Or.inl rfl) (hb w heq), ht, hw]
  have hasking : ∀ {b : Asker}, s.asks b ≠ .out → ∀ v, b = .worker v → s.idle v = .asking := by
    rintro b hb v rfl
    exact h.asking v hb
  cases act with
  | scheduler b =>
      obtain ⟨p, -, rfl⟩ := scheduler_step hs
      exact ⟨cbs, hw⟩
  | timers c =>
      obtain ⟨-, rfl⟩ := timers_step hs
      exact ⟨cbs, hw⟩
  | events c =>
      obtain ⟨b, m, pa, p, -, -, rfl⟩ := callEvents_eq (events_step hs)
      exact ⟨cbs, hw⟩
  | getNextTimer b now =>
      obtain ⟨hmay, -, -, rfl⟩ := getNextTimer_step hs
      split_ifs
      · exact ⟨cbs, hw⟩
      · exact ⟨cbs, hrefused (asking_of_mayAsk hmay) _ rfl⟩
  | pendingEvents b =>
      obtain ⟨hb, rfl⟩ := pendingEvents_step hs
      split_ifs
      · exact ⟨cbs, hw⟩
      · exact ⟨cbs, hrefused (hasking (by rw [hb]; nofun)) _ rfl⟩
  | schedulerStopping b =>
      obtain ⟨hb, rfl | hs⟩ := schedulerStopping_step hs
      · exact ⟨cbs, hrefused (hasking (by rw [hb]; nofun)) _ rfl⟩
      · obtain ⟨p, -, rfl⟩ := granted_eq hs
        exact ⟨cbs, hw⟩
  | listExpiredCb v now probe =>
      obtain ⟨hv, rfl⟩ := listExpiredCb_step hs
      exact ⟨cbs, (Function.update_of_ne (hgo (Or.inl hv)) ..).trans hw⟩
  | scheduleExpired v =>
      obtain ⟨-, pa, p, -, rfl⟩ := scheduleExpired_step hs
      have hwv : w ≠ v := fun heq => hne (heq ▸ rfl)
      exact ⟨cbs, (Function.update_of_ne hwv ..).trans hw⟩
  | dispatch v kernel fd mask =>
      obtain ⟨b, m, pa, p, -, -, rfl⟩ := callEvents_eq (dispatch_step hs)
      exact ⟨cbs, hw⟩
  | yield v =>
      obtain ⟨hv, pa, p, -, rfl⟩ := yield_step hs
      exact ⟨cbs, (Function.update_of_ne (hgo (Or.inr hv)) ..).trans hw⟩

/-- Where there is no timer no worker gets callbacks, and one that schedules those it had has
none.  By cases on the step. -/
theorem Carries.of_step {act : Step} (hempty : s.timers.timers = []) (hs : step act s = some s')
    (hcarries : s'.Carries w) : s.Carries w ∧ act ≠ .scheduleExpired w := by
  obtain ⟨cbs, hw⟩ := hcarries
  have hrefused : ∀ {b : Asker} {t : Manager}, (t.refused b).idle w = .expired cbs →
      t.idle w = .expired cbs := by
    intro b t ht
    rw [refused_idle] at ht
    split_ifs at ht
    exact ht
  have hgo : ∀ {v : ThreadId} {t : Manager} {p : IdlePlace}, (t.goIdle v p).idle w = .expired cbs →
      (p = .handling ∨ p = .asking) → w ≠ v ∧ t.idle w = .expired cbs := by
    intro v t p ht hp
    by_cases hwv : w = v
    · subst hwv
      rw [show (t.goIdle w p).idle w = p from Function.update_self ..] at ht
      rcases hp with rfl | rfl <;> cases ht
    · exact ⟨hwv, (Function.update_of_ne hwv ..).symm.trans ht⟩
  cases act with
  | scheduler b =>
      obtain ⟨p, -, rfl⟩ := scheduler_step hs
      exact ⟨⟨cbs, hw⟩, nofun⟩
  | timers c =>
      obtain ⟨-, rfl⟩ := timers_step hs
      exact ⟨⟨cbs, hw⟩, nofun⟩
  | events c =>
      obtain ⟨b, m, pa, p, -, -, rfl⟩ := callEvents_eq (events_step hs)
      exact ⟨⟨cbs, hw⟩, nofun⟩
  | getNextTimer b now =>
      obtain ⟨-, -, -, rfl⟩ := getNextTimer_step hs
      split_ifs at hw
      · exact ⟨⟨cbs, hw⟩, nofun⟩
      · have hold := hrefused hw
        exact ⟨⟨cbs, hold⟩, nofun⟩
  | pendingEvents b =>
      obtain ⟨-, rfl⟩ := pendingEvents_step hs
      split_ifs at hw
      · exact ⟨⟨cbs, hw⟩, nofun⟩
      · exact ⟨⟨cbs, hrefused hw⟩, nofun⟩
  | schedulerStopping b =>
      obtain ⟨-, rfl | hs⟩ := schedulerStopping_step hs
      · exact ⟨⟨cbs, hrefused hw⟩, nofun⟩
      · obtain ⟨p, -, rfl⟩ := granted_eq hs
        exact ⟨⟨cbs, hw⟩, nofun⟩
  | listExpiredCb v now probe =>
      obtain ⟨-, rfl⟩ := listExpiredCb_step hs
      rw [listExpiredCb_of_empty hempty] at hw
      exact ⟨⟨cbs, (hgo hw (Or.inl rfl)).2⟩, nofun⟩
  | scheduleExpired v =>
      obtain ⟨-, pa, p, -, rfl⟩ := scheduleExpired_step hs
      obtain ⟨hwv, hold⟩ := hgo (t := s) hw (Or.inl rfl)
      exact ⟨⟨cbs, hold⟩, fun heq => hwv (Step.scheduleExpired.inj heq).symm⟩
  | dispatch v kernel fd mask =>
      obtain ⟨b, m, pa, p, -, -, rfl⟩ := callEvents_eq (dispatch_step hs)
      exact ⟨⟨cbs, hw⟩, nofun⟩
  | yield v =>
      obtain ⟨-, pa, p, -, rfl⟩ := yield_step hs
      exact ⟨⟨cbs, (hgo (t := s) hw (Or.inr rfl)).2⟩, nofun⟩

/-- Over the steps of a run: what a worker has in its hands and does not schedule it still has.
The induction is over the steps. -/
theorem Carries.stays_run {acts : List Step} (hcarries : s.Carries w) (h : Inv s)
    (hne : Step.scheduleExpired w ∉ acts) (hrun : run step acts s = some s') : s'.Carries w := by
  have hall : ∀ act ∈ acts, act ≠ .scheduleExpired w := fun act hact heq => hne (heq ▸ hact)
  have hmeets := (meets_iff_forall hrun).2 hall
  exact (hmeets.invariant (I := fun s => Inv s ∧ s.Carries w)
    (fun _ _ _ hI hact hs => ⟨hI.1.of_step hs, hI.2.stays hI.1 hact hs⟩) ⟨h, hcarries⟩ hrun).2

/-- Steps that add no timer to none leave none, and what a worker has in its hands behind them
it had before, and did not schedule.  The induction is over the steps. -/
theorem empty_run {acts : List Step} (h : Inv s) (hempty : s.timers.timers = [])
    (hadd : ∀ act ∈ acts, addsTimer act = false) (hrun : run step acts s = some s') :
    s'.timers.timers = [] ∧
      ∀ w, s'.Carries w → s.Carries w ∧ Step.scheduleExpired w ∉ acts := by
  induction acts generalizing s with
  | nil =>
      obtain rfl := Option.some.inj hrun
      exact ⟨hempty, fun w hw => ⟨hw, List.not_mem_nil⟩⟩
  | cons act acts ih =>
      obtain ⟨hact, hacts⟩ := List.forall_mem_cons.1 hadd
      obtain ⟨s₁, hs, hrest⟩ := Option.bind_eq_some_iff.1 hrun
      obtain ⟨hend, hback⟩ := ih (h.of_step hs) (empty_step h hact hempty hs) hacts hrest
      refine ⟨hend, fun w hw => ?_⟩
      obtain ⟨hw₁, hnot⟩ := hback w hw
      obtain ⟨hw₀, hne⟩ := hw₁.of_step hempty hs
      exact ⟨hw₀, fun hmem => (List.mem_cons.1 hmem).elim (fun heq => hne heq.symm) hnot⟩

/-- Steps that register no event leave none registered.  The induction is over the steps. -/
theorem clear_run {acts : List Step} (h : Inv s) (hclear : Clear s.events)
    (hreg : ∀ act ∈ acts, registers act = false) (hrun : run step acts s = some s') :
    Clear s'.events := by
  have hmeets := (meets_iff_forall hrun).2 hreg
  exact (hmeets.invariant (I := fun s => Inv s ∧ Clear s.events)
    (fun _ _ _ hI hact hs => ⟨hI.1.of_step hs, clear_step hI.1 hact hI.2 hs⟩) ⟨h, hclear⟩ hrun).2

end Window

/-- What is left of the scheduler when `Scheduler::stopping()` answers true: no task is queued,
and none runs.  The scheduler's own invariant says so. -/
theorem no_task_of_isStopping {s : Manager} (h : Inv s) (hs : s.scheduler.isStopping = true) :
    s.scheduler.fibers = [] ∧ ∀ x ∈ s.scheduler.workers, x.place.counted = false := by
  have hcount := (Pool.accounted h.scheduler).count
  simp only [Pool.isStopping, Bool.and_eq_true, List.isEmpty_iff, beq_iff_eq] at hs
  refine ⟨hs.1.2, fun x hx => ?_⟩
  have hzero : s.scheduler.workers.countP (·.place.counted) = 0 := by
    rw [hs.2, Pool.active] at hcount
    omega
  rw [← Bool.not_eq_true]
  exact List.countP_eq_zero.1 hzero x hx

/-- **When `stopping()` returns true.**  A call that has found no timer and no pending event,
and now finds the queue empty and the count 0, returns true.  Its first two reads stand in the
run. If nothing went by it between its reads (`Undisturbed`), no work is left when it returns;
and none is left only if every worker that had callbacks in its hands at its first read has
scheduled them.  (What is not decided by the steps is whether a timer that was added in between
is cancelled or taken out again before the last read, and an event triggered again.)  The call
is `IOManager::stopping` (`src/hiper/base/iomanager.cc:347-350`), whose three reads are taken
one after another; the callbacks in hand are those between `listExpiredCb` in line 402 and
`schedule` in line 404. -/
theorem stopping_right_iff (heap : TimerPtr → Timer) (n : ℕ) {acts : List Step} {s : Manager}
    (hrun : run step acts (init heap n) = some s) {a : Asker} (ha : s.asks a = .noEvent)
    (hs : s.scheduler.isStopping = true) :
    (∃ before mid₁ mid₂ now, Reads a acts before mid₁ mid₂ now) ∧
    ∀ before mid₁ mid₂ now, Reads a acts before mid₁ mid₂ now →
      ∃ s₀, run step before (init heap n) = some s₀ ∧
        (Undisturbed s₀ mid₁ mid₂ → NoWork s) ∧
        (NoWork s → ∀ w, s₀.Carries w → .scheduleExpired w ∈ mid₁ ++ mid₂) := by
  refine ⟨exists_reads (init_inv heap n) rfl hrun ha, ?_⟩
  rintro before mid₁ mid₂ now ⟨rfl, hbetween⟩
  rw [run_append, Option.bind_eq_some_iff] at hrun
  obtain ⟨s₀, hbefore, hrun⟩ := hrun
  obtain ⟨s₁, hfirst, hrun⟩ := Option.bind_eq_some_iff.1 hrun
  rw [run_append, Option.bind_eq_some_iff] at hrun
  obtain ⟨s₂, hmid₁, hrun⟩ := hrun
  obtain ⟨s₃, hsecond, hmid₂⟩ := Option.bind_eq_some_iff.1 hrun
  rw [List.forall_mem_append] at hbetween
  have h₀ := (init_inv heap n).of_run hbefore
  have h₁ := h₀.of_step hfirst
  have h₂ := h₁.of_run hmid₁
  have h₃ := h₂.of_step hsecond
  -- both reads were answered so that the call went on
  have hasks₁ : s₁.asks a = .noTimer :=
    (asks_run hbetween.1 hmid₁).symm.trans (pendingEvents_step hsecond).1
  have hasks₃ : s₃.asks a = .noEvent := (asks_run hbetween.2 hmid₂).symm.trans ha
  obtain ⟨-, htimers₁, hidle₁⟩ := (asks_getNextTimer h₀ hfirst).resolve_left
    (by rw [hasks₁]; nofun)
  obtain ⟨-, hzero, rfl⟩ := (asks_pendingEvents hsecond).resolve_left (by rw [hasks₃]; nofun)
  have hcarries₁ : ∀ w, s₁.Carries w ↔ s₀.Carries w := fun w => by rw [Carries, Carries, hidle₁]
  refine ⟨s₀, hbefore, fun hun => ?_, fun hno w hw => ?_⟩
  · obtain ⟨hadd₁, hadd₂⟩ := List.forall_mem_append.1 hun.timers
    obtain ⟨htimers₂, hback₂⟩ := empty_run h₁ htimers₁ hadd₁ hmid₁
    obtain ⟨htimers, hback⟩ := empty_run h₃ htimers₂ hadd₂ hmid₂
    have hclear := clear_run h₃ (clear_of_zero h₂.events hzero) hun.events hmid₂
    obtain ⟨hqueue, hrunning⟩ := no_task_of_isStopping (h₃.of_run hmid₂) hs
    refine ⟨htimers, hclear, hqueue, hrunning, fun w cbs hw => ?_⟩
    obtain ⟨hw₃, hnot₂⟩ := hback w ⟨cbs, hw⟩
    obtain ⟨hw₁, hnot₁⟩ := hback₂ w hw₃
    exact (List.mem_append.1 (hun.callbacks w ((hcarries₁ w).1 hw₁))).elim hnot₁ hnot₂
  · by_contra hnot
    rw [List.mem_append, not_or] at hnot
    have hw₂ := ((hcarries₁ w).2 hw).stays_run h₁ hnot.1 hmid₁
    obtain ⟨cbs, hw₄⟩ := Carries.stays_run (s := s₂.ask a .noEvent) hw₂ h₃ hnot.2 hmid₂
    exact hno.callbacks w cbs hw₄

/-- Memory in which nothing was made.  Its contents do not matter. -/
def blank : TimerPtr → Timer := fun _ => .new 0 0 0 none false

/-- A worker takes the callback of a timer, schedules it and runs it, and then idles, after
`stop` was called.  The asker is the worker itself. -/
def restSteps : List Step :=
  [.scheduler .enter, .timers (.addTimer 0 5 10 0 false), .scheduler .autoStop, .scheduler .stop,
    .scheduler (.worker 0 .go), .scheduler (.worker 0 .go), .getNextTimer (.worker 0) 6,
    .listExpiredCb 0 15 0, .scheduleExpired 0, .yield 0, .scheduler (.worker 0 .go),
    .scheduler (.worker 0 .go), .scheduler (.worker 0 .go), .scheduler (.worker 0 .go),
    .scheduler (.worker 0 .go), .scheduler (.worker 0 (.finish true)), .scheduler (.worker 0 .go),
    .scheduler (.worker 0 .go), .scheduler (.worker 0 .go), .scheduler (.worker 0 .go),
    .scheduler (.worker 0 .go), .scheduler (.worker 0 .go), .scheduler (.worker 0 .go),
    .scheduler (.worker 0 .go), .scheduler (.worker 0 .go)]

/-- It is told true then, and no work is left. -/
theorem stopping_right_rest :
    ∃ s, run step (restSteps ++ [.getNextTimer (.worker 0) 16, .pendingEvents (.worker 0)])
        (init blank 0) = some s ∧ s.scheduler.isStopping = true ∧ NoWork s := by
  obtain ⟨s, hs, hask, hstop⟩ :
      ∃ s, run step (restSteps ++ [.getNextTimer (.worker 0) 16, .pendingEvents (.worker 0)])
        (init blank 0) = some s ∧ s.asks (.worker 0) = .noEvent ∧ s.scheduler.isStopping = true :=
    ⟨_, rfl, rfl, rfl⟩
  obtain ⟨s₀, hs₀, hright, -⟩ := (stopping_right_iff blank 0 hs hask hstop).2 restSteps [] [] 16
    ⟨rfl, nofun⟩
  refine ⟨s, hs, hstop, hright ⟨nofun, nofun, ?_⟩⟩
  obtain ⟨t, ht, hidle⟩ :
      ∃ t, run step restSteps (init blank 0) = some t ∧ ∀ w, t.idle w = .asking := by
    refine ⟨_, rfl, fun w => ?_⟩
    cases w <;> rfl
  obtain rfl := Option.some.inj (hs₀.symm.trans ht)
  rintro w ⟨cbs, hw⟩
  rw [hidle w] at hw
  cases hw

/-- One worker takes the callback of a timer out, and the other asks before it is scheduled. -/
def expiredSteps : List Step :=
  [.scheduler .enter, .scheduler .enter, .timers (.addTimer 0 5 10 0 false), .scheduler .autoStop,
    .scheduler .stop, .scheduler (.worker 1 .go), .scheduler (.worker 1 .go),
    .getNextTimer (.worker 1) 6, .listExpiredCb 1 15 0, .scheduler (.worker 0 .go),
    .scheduler (.worker 0 .go), .getNextTimer (.worker 0) 16, .pendingEvents (.worker 0)]

/-- It is told true, leaves `run`, and then the callback is queued. -/
theorem stopping_before_expired_scheduled :
    ∃ s s', run step expiredSteps (init blank 0) = some s ∧
      s.asks (.worker 0) = .noEvent ∧ s.scheduler.isStopping = true ∧ ¬ NoWork s ∧
      run step [.schedulerStopping (.worker 0), .scheduler (.worker 0 .go),
        .scheduler (.worker 0 .go), .scheduleExpired 1] s = some s' ∧
      (s'.scheduler.workers[0]?).map Pool.Worker.place = some .ended ∧
      s'.scheduler.fibers = [⟨0, ⟨.cb, none⟩⟩] :=
  ⟨_, _, rfl, rfl, rfl, fun h => h.callbacks 1 _ rfl, rfl, rfl, rfl⟩

end Hiper.Manager

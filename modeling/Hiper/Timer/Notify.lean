import Hiper.Lib.Machine
import Hiper.Timer.Invariant

/-!
# The worker that sleeps until the front timer

One worker loops `getNextTimer`, sleep, `listExpiredCb`; any threads run
`addTimer`, `reset`, `refresh` and `cancel`.  What happens under the lock is one
step; making a timer, taking the lock with it, and calling
`onTimerInsertedAtFront` after the lock are steps of their own, and so are the
clock reading of `listExpiredCb` and its two locked parts.

The worker counts as asleep from the end of `getNextTimer` on, when the answer
is not zero, and its deadline is the clock it read plus the answer.  A
notification that comes while it sleeps is kept until it wakes; at other times
it may be lost.

As long as no expiration wraps, `refresh` never moves a timer earlier, and a
sleeping worker whose notifications are all delivered sleeps no longer than the
front timer (`asleep_until_front`).  An expiration that wraps breaks it
(`wrapped_refresh_oversleeps`).

The functions are those of `src/hiper/base/timer.cc`, and the worker is `IOManager::idle`
with `onTimerInsertedAtFront` and its `tickle`.  The lock is modelled by what it makes one
step; everything else interleaves in any order, and the clock may advance between any two
steps.
-/

namespace Hiper

open Lib

/-- Where the worker is in its loop.  Between `awake` and `asleep` lies `getNextTimer`, one
step; what the worker does besides its timers is left out. -/
inductive Worker
  /-- About to call `getNextTimer`. -/
  | awake
  | asleep (deadline : ℕ)
  /-- About to call `listExpiredCb`. -/
  | woken
  /-- It has read the clock, before its first lock. -/
  | listing (now : ℕ)
  /-- Between the two locks. -/
  | relisting (now : ℕ)
  deriving DecidableEq

/-- The manager, the worker, and what the other threads have in their hands.  Pointers that
`addTimer` has handed out are not listed: any timer made and inserted may be called on at any
time. -/
structure TimerLoop where
  mgr : TimerManger
  clock : ℕ
  worker : Worker
  /-- Timers made by `addTimer` that are not in the set yet. -/
  building : List TimerPtr
  /-- Threads that left the lock with `at_front` and have not notified yet. -/
  owed : ℕ
  /-- A notification the worker has not taken. -/
  pending : Bool

namespace TimerLoop

/-- What one of the threads does next, or the clock. -/
inductive Action
  | tick (now : ℕ)
  /-- `new Timer(ms, cb, recurring, this)`. -/
  | construct (addr ms : ℕ) (cb : Option Callback) (recurring : Bool)
  /-- `addTimer(timer, lock)`, for a timer just made. -/
  | insert (p : TimerPtr)
  | cancel (p : TimerPtr)
  | refresh (p : TimerPtr)
  | reset (p : TimerPtr) (ms : ℕ) (fromNow : Bool)
  /-- `onTimerInsertedAtFront()`; `kept` when the worker is not asleep and the
  notification is not lost. -/
  | notify (kept : Bool)
  | getNextTimer
  | wake
  /-- `now = GetElapsedMS()` in `listExpiredCb`. -/
  | readClock
  /-- Its first locked part. -/
  | checkEmpty
  /-- Its second locked part. -/
  | listExpiredCb (probe : ℕ)

/-- A worker about to look at an empty manager, and nobody else doing anything. -/
def init (heap : TimerPtr → Timer) : TimerLoop where
  mgr := TimerManger.init heap
  clock := 0
  worker := .awake
  building := []
  owed := 0
  pending := false

/-- A timer whose pointer `addTimer` has returned, or will return.  It excludes the timers in
`building`, which no other thread has seen. -/
def given (p : TimerPtr) (s : TimerLoop) : Bool :=
  decide (p < s.mgr.allocs) && !s.building.contains p

/-- One thread more that owes a notification, when `atFront`.  It is `at_front` of line 121,
kept in a register over the release of the lock. -/
def owe (atFront : Bool) (s : TimerLoop) : TimerLoop :=
  { s with owed := if atFront then s.owed + 1 else s.owed }

/-- A step, if it is possible.  `none` is an action whose thread is elsewhere: a worker that is
asleep does not list, and an address in use is not given out. -/
def step : Action → TimerLoop → Option TimerLoop
  | .tick now, s => if s.clock ≤ now then some { s with clock := now } else none
  | .construct addr ms cb recurring, s =>
    if (s.mgr.timers ++ s.building).all fun q => (s.mgr.heap q).addr != addr then
      some { s with
        mgr := s.mgr.newTimer addr s.clock ms cb recurring
        building := s.mgr.allocs :: s.building }
    else none
  | .insert p, s =>
    if s.building.contains p then
      let (atFront, mgr) := s.mgr.addTimerLocked p
      some ({ s with mgr := mgr, building := s.building.erase p }.owe atFront)
    else none
  | .cancel p, s => if s.given p then some { s with mgr := (s.mgr.cancel p).2 } else none
  | .refresh p, s =>
    if s.given p then some { s with mgr := (s.mgr.refresh p s.clock).2 } else none
  | .reset p ms fromNow, s =>
    if s.given p then
      let (_, atFront, mgr) := s.mgr.reset p ms fromNow s.clock
      some ({ s with mgr := mgr }.owe atFront)
    else none
  | .notify kept, s =>
    if 0 < s.owed then
      let arrives := match s.worker with
        | .asleep _ => true
        | _ => kept
      some { s with owed := s.owed - 1, pending := s.pending || arrives }
    else none
  | .getNextTimer, s =>
    match s.worker with
    | .awake =>
      let (interval, mgr) := s.mgr.getNextTimer s.clock
      some { s with
        mgr := mgr
        worker := if interval = 0 then .woken else .asleep (s.clock + interval) }
    | _ => none
  | .wake, s =>
    match s.worker with
    | .asleep deadline =>
      if s.pending = true ∨ deadline ≤ s.clock then
        some { s with worker := .woken, pending := false }
      else none
    | _ => none
  | .readClock, s =>
    match s.worker with
    | .woken => some { s with worker := .listing s.clock }
    | _ => none
  | .checkEmpty, s =>
    match s.worker with
    | .listing now =>
      some { s with worker := if s.mgr.timers.isEmpty then .awake else .relisting now }
    | _ => none
  | .listExpiredCb probe, s =>
    match s.worker with
    | .relisting now =>
      some { s with mgr := (s.mgr.listExpiredCb now probe).2, worker := .awake }
    | _ => none

/-- No expiration that the action computes wraps.  The four places where an expiration is
computed: lines 16, 56, 93 and 224. -/
def noWrap : Action → TimerLoop → Bool
  | .construct _ ms _ _, s => decide (s.clock + ms < 2 ^ 64)
  | .refresh p, s =>
    !s.mgr.timers.contains p || decide (s.clock + (s.mgr.heap p).ms < 2 ^ 64)
  | .reset p ms fromNow, s =>
    !s.mgr.timers.contains p || decide
      ((if fromNow then s.clock else (s.mgr.heap p).expiration - (s.mgr.heap p).ms) + ms < 2 ^ 64)
  | .listExpiredCb _, s =>
    match s.worker with
    | .relisting now => s.mgr.timers.all fun q =>
        !((s.mgr.heap q).isRecurring && decide ((s.mgr.heap q).expiration ≤ now)) ||
          decide (now + (s.mgr.heap q).ms < 2 ^ 64)
    | _ => true
  | _, _ => true

/-- The steps that wrap no expiration.  The runs that a clock in milliseconds really has. -/
def stepNoWrap (a : Action) (s : TimerLoop) : Option TimerLoop :=
  if noWrap a s then step a s else none

/-! ### The invariant -/

/-- A timer that started at or before the clock, and did not wrap.  The moment it runs from is
its expiration minus its period, which is then a time in the past and not a wrapped number. -/
structure Started (clock : ℕ) (t : Timer) : Prop where
  ms_le : t.ms ≤ t.expiration
  start_le : t.expiration ≤ clock + t.ms
  expiration_lt : t.expiration < 2 ^ 64

/-- No notification is on its way.  The flag and the count are the two places where a
notification can be between its thread and the worker. -/
def Delivered (s : TimerLoop) : Prop := s.pending = false ∧ s.owed = 0

/-- While the worker sleeps: either a front insertion was announced and the announcement is on
its way, or none was needed, since no timer is earlier than the deadline.  The flag `tickled_`
tells the two apart: it is set by the insertion that announces, and by nothing else while the
worker sleeps. -/
def Watched (s : TimerLoop) (deadline : ℕ) : Prop :=
  if s.mgr.tickled then ¬s.Delivered else ∀ p ∈ s.mgr.timers, deadline ≤ (s.mgr.heap p).expiration

/-- What holds between any two steps.  The timers being built are the held ones of `Wf`;
`watched` is the promise that the sleep rests on, and `listing` says that the worker read its
clock in the past. -/
structure Inv (s : TimerLoop) : Prop where
  wf : s.mgr.Wf {p | p ∈ s.building}
  building_nodup : s.building.Nodup
  started : ∀ p, p ∈ s.mgr.timers ∨ p ∈ s.building → Started s.clock (s.mgr.heap p)
  watched : ∀ deadline, s.worker = .asleep deadline → s.Watched deadline
  listing : ∀ now, s.worker = .listing now ∨ s.worker = .relisting now → now ≤ s.clock

/-- Nothing is promised to a worker that does not sleep. -/
theorem init_inv (heap : TimerPtr → Timer) : (init heap).Inv where
  wf := by
    have hempty : ({p | p ∈ (init heap).building} : Set TimerPtr) = ∅ := by simp [init]
    rw [hempty]
    exact TimerManger.init_wf heap
  building_nodup := List.nodup_nil
  started := by simp [init, TimerManger.init]
  watched := by
    rintro deadline ⟨⟩
  listing := by
    rintro now (h | h) <;> cases h

/-- Time that passes leaves a start in the past. -/
theorem Started.mono {clock clock' : ℕ} {t : Timer} (h : Started clock t) (hle : clock ≤ clock') :
    Started clock' t :=
  ⟨h.ms_le, h.start_le.trans (Nat.add_le_add_right hle _), h.expiration_lt⟩

/-- A start now.  The clock, or the start that `reset` keeps, which is in the past by the
invariant. -/
theorem started_add64 {clock start : ℕ} {t : Timer} (hstart : start ≤ clock)
    (hwrap : start + t.ms < 2 ^ 64) (hexp : t.expiration = add64 start t.ms) : Started clock t := by
  rw [add64_of_lt hwrap] at hexp
  exact ⟨by omega, by omega, by omega⟩

/-- `given` is the `Given` of the invariant, with the timers being built as the held ones. -/
theorem given_iff {p : TimerPtr} {s : TimerLoop} :
    s.given p = true ↔ s.mgr.Given {q | q ∈ s.building} p := by
  simp [given, TimerManger.Given]

variable {s s' : TimerLoop} {p : TimerPtr}

/-- A step that leaves the timers, the notifications and the worker alone.  The lemma for
`cancel`, which only takes timers away, and for `refresh`, which moves them later. -/
theorem Watched.congr {deadline : ℕ} (h : s.Watched deadline)
    (htickled : s'.mgr.tickled = s.mgr.tickled) (hdelivered : s'.Delivered → s.Delivered)
    (hle : ∀ q ∈ s'.mgr.timers, deadline ≤ (s.mgr.heap q).expiration →
      deadline ≤ (s'.mgr.heap q).expiration) (hmem : ∀ q ∈ s'.mgr.timers, q ∈ s.mgr.timers) :
    s'.Watched deadline := by
  unfold Watched at h ⊢
  rw [htickled]
  split_ifs at h ⊢ with ht
  · exact fun hd => h (hdelivered hd)
  · exact fun q hq => hle q hq (h q (hmem q hq))

/-- **Insertion is announced** when it matters: a timer put before all others sets `tickled_`
and makes its thread owe a notification; one put elsewhere expires after another.  While
`tickled_` is set already, an announcement is on its way, and a second one is not needed. -/
theorem Watched.insert {deadline : ℕ} {held : Set TimerPtr} {mgr : TimerManger}
    (hwf : mgr.Wf held) (hp : p ∈ held)
    (h : if mgr.tickled then ¬s.Delivered else ∀ q ∈ mgr.timers, deadline ≤ (mgr.heap q).expiration)
    (hs : s.mgr = (mgr.addTimerLocked p).2) :
    (s.owe (mgr.addTimerLocked p).1).Watched deadline := by
  unfold Watched
  cases ht : mgr.tickled with
  | true =>
      -- the insertion is silent, and the earlier announcement is still on its way
      have hfront : (mgr.addTimerLocked p).1 = false := by
        rw [TimerManger.addTimerLocked, ht]
        exact Bool.and_false _
      have htickled : (s.owe (mgr.addTimerLocked p).1).mgr.tickled = true := by
        change s.mgr.tickled = true
        rw [hs, TimerManger.addTimerLocked, ht]
        exact ite_self true
      rw [htickled, if_pos rfl, hfront]
      rwa [ht, if_pos rfl] at h
  | false =>
      rw [ht, if_neg Bool.false_ne_true] at h
      cases hbegin : mgr.insertsAtBegin p with
      | true =>
          have hfront : (mgr.addTimerLocked p).1 = true := by
            rw [TimerManger.addTimerLocked, ht, hbegin]
            rfl
          have htickled : (s.owe (mgr.addTimerLocked p).1).mgr.tickled = true := by
            change s.mgr.tickled = true
            rw [hs, TimerManger.addTimerLocked, ht, hbegin]
            rfl
          rw [htickled, if_pos rfl, hfront]
          exact fun hd => Nat.succ_ne_zero _ hd.2
      | false =>
          have htickled : (s.owe (mgr.addTimerLocked p).1).mgr.tickled = false := by
            change s.mgr.tickled = false
            rw [hs, TimerManger.addTimerLocked, ht, hbegin]
            rfl
          rw [htickled, if_neg Bool.false_ne_true]
          intro q hq
          change q ∈ s.mgr.timers at hq
          change deadline ≤ (s.mgr.heap q).expiration
          rw [hs] at hq ⊢
          rw [TimerManger.addTimerLocked_heap]
          rcases (hwf.mem_addTimerLocked hp).1 hq with rfl | hq
          · -- something stands before the timer, and expires no later
            have hnot := mt (hwf.insertsAtBegin_iff q).2 (by rw [hbegin]; exact Bool.false_ne_true)
            simp only [not_forall, not_le] at hnot
            obtain ⟨r, hr, hlt⟩ := hnot
            have hle : (mgr.heap r).expiration ≤ (mgr.heap q).expiration := by
              rcases (Timer.key_lt_iff _ _).1 hlt with hlt | ⟨heq, -⟩
              · exact hlt.le
              · exact heq.le
            exact (h r hr).trans hle
          · exact h q hq

/-! ### Steps -/

/-- The clock may advance: nothing in the invariant has an upper bound that it could pass. -/
theorem Inv.tick (h : s.Inv) {now : ℕ} (hnow : s.clock ≤ now) : Inv { s with clock := now } where
  wf := h.wf
  building_nodup := h.building_nodup
  started := fun p hp => (h.started p hp).mono hnow
  watched := h.watched
  listing := fun now' hw => (h.listing now' hw).trans hnow

/-- A timer that is being built is watched by nobody, and joins the held ones. -/
theorem Inv.construct (h : s.Inv) {addr ms : ℕ} (cb : Option Callback) (recurring : Bool)
    (hfresh : ∀ q, q ∈ s.mgr.timers ∨ q ∈ s.building → (s.mgr.heap q).addr ≠ addr)
    (hwrap : s.clock + ms < 2 ^ 64) :
    Inv { s with
      mgr := s.mgr.newTimer addr s.clock ms cb recurring
      building := s.mgr.allocs :: s.building } := by
  have hlt : ∀ q, q ∈ s.mgr.timers ∨ q ∈ s.building → q < s.mgr.allocs := h.wf.lt_allocs
  have hset : ({p | p ∈ s.mgr.allocs :: s.building} : Set TimerPtr) =
      Insert.insert s.mgr.allocs {p | p ∈ s.building} := by
    ext q
    simp only [Set.mem_ofPred_eq, List.mem_cons, Set.mem_insert_iff]
  refine ⟨?_, ?_, ?_, ?_, h.listing⟩
  · dsimp only
    rw [hset]
    exact h.wf.newTimer_wf s.clock ms cb recurring hfresh
  · exact List.nodup_cons.2 ⟨fun hmem => Nat.lt_irrefl _ (hlt _ (Or.inr hmem)), h.building_nodup⟩
  · intro p hp
    dsimp only at hp ⊢
    by_cases hpn : p = s.mgr.allocs
    · rw [hpn, TimerManger.newTimer_heap_self]
      exact started_add64 le_rfl hwrap rfl
    · have hp : p ∈ s.mgr.timers ∨ p ∈ s.building :=
        hp.imp_right fun hp => (List.mem_cons.1 hp).resolve_left hpn
      rw [TimerManger.newTimer_heap_of_lt _ _ _ _ _ (hlt p hp)]
      exact h.started p hp
  · intro deadline hw
    refine (h.watched deadline hw).congr rfl id (fun q hq hle => ?_) fun q hq => hq
    dsimp only
    rwa [TimerManger.newTimer_heap_of_lt _ _ _ _ _ (hlt q (Or.inl hq))]

/-- The locked part of `addTimer`: the timer goes into the set, and the thread owes a
notification if it went to the front unannounced. -/
theorem Inv.insert (h : s.Inv) (hp : p ∈ s.building) :
    Inv ({ s with mgr := (s.mgr.addTimerLocked p).2, building := s.building.erase p }.owe
      (s.mgr.addTimerLocked p).1) := by
  have hheld : p ∈ ({q | q ∈ s.building} : Set TimerPtr) := hp
  have hset : ({q | q ∈ s.building.erase p} : Set TimerPtr) = {q | q ∈ s.building} \ {p} := by
    ext q
    rw [Set.mem_ofPred_eq, h.building_nodup.mem_erase_iff, and_comm]
    rfl
  refine ⟨?_, h.building_nodup.erase p, ?_, ?_, h.listing⟩
  · change (s.mgr.addTimerLocked p).2.Wf {q | q ∈ s.building.erase p}
    rw [hset]
    exact h.wf.addTimerLocked_wf hheld
  · rintro q (hq | hq)
    · rcases (h.wf.mem_addTimerLocked hheld).1 hq with rfl | hq
      · exact h.started q (Or.inr hp)
      · exact h.started q (Or.inl hq)
    · exact h.started q (Or.inr (List.mem_of_mem_erase hq))
  · intro deadline hw
    exact Watched.insert h.wf hheld (h.watched deadline hw) rfl

/-- Without its timer the set has only later ones, and nothing is to be announced. -/
theorem Inv.cancel (h : s.Inv) (hp : s.given p = true) :
    Inv { s with mgr := (s.mgr.cancel p).2 } := by
  rcases TimerManger.cancel_cases h.wf (given_iff.1 hp) with ⟨-, heq⟩ | ⟨hmem, heq⟩
  · rw [heq]
    exact h
  have htimers : ∀ q, q ∈ (s.mgr.cancelled p).timers → q ∈ s.mgr.timers :=
    fun q hq => ((h.wf.mem_cancelled hmem).1 hq).1
  let f : Timer → Timer := fun t => { t with cb := none }
  have hfields (q : TimerPtr) : ((s.mgr.cancelled p).heap q).ms = (s.mgr.heap q).ms ∧
      ((s.mgr.cancelled p).heap q).expiration = (s.mgr.heap q).expiration :=
    ⟨TimerManger.modify_heap_congr (f := f) Timer.ms rfl q,
      TimerManger.modify_heap_congr (f := f) Timer.expiration rfl q⟩
  rw [heq]
  refine ⟨h.wf.cancelled_wf hmem, h.building_nodup, ?_, ?_, h.listing⟩
  · intro q hq
    obtain ⟨hms, hexp⟩ := hfields q
    obtain ⟨hms_le, hstart, hlt⟩ := h.started q (hq.imp_left (htimers q))
    exact ⟨by rwa [hms, hexp], by rwa [hms, hexp], by rwa [hexp]⟩
  · intro deadline hw
    refine (h.watched deadline hw).congr rfl id (fun q _ hle => ?_) htimers
    exact hle.trans_eq (hfields q).2.symm

/-- **`refresh` never moves a timer earlier**, so it need not notify.  Its start was in the past
and becomes now, and the period is the same; only a sum that wraps could be earlier. -/
theorem Inv.refresh (h : s.Inv) (hp : s.given p = true)
    (hwrap : p ∈ s.mgr.timers → s.clock + (s.mgr.heap p).ms < 2 ^ 64) :
    Inv { s with mgr := (s.mgr.refresh p s.clock).2 } := by
  rcases TimerManger.refresh_cases h.wf (given_iff.1 hp) s.clock with ⟨-, heq⟩ | ⟨hmem, heq⟩
  · rw [heq]
    exact h
  have hwrap := hwrap hmem
  let f : Timer → Timer := fun t => { t with expiration := add64 s.clock t.ms }
  have htimers (q : TimerPtr) : q ∈ (s.mgr.moved p f).timers ↔ q ∈ s.mgr.timers :=
    h.wf.mem_moved hmem rfl rfl
  have hself : (s.mgr.moved p f).heap p = f (s.mgr.heap p) := TimerManger.modify_heap_self f
  have hother : ∀ q, q ≠ p → (s.mgr.moved p f).heap q = s.mgr.heap q :=
    fun q hq => TimerManger.modify_heap_of_ne f hq
  rw [heq]
  refine ⟨h.wf.moved_wf hmem rfl rfl, h.building_nodup, ?_, ?_, h.listing⟩
  · intro q hq
    change Started s.clock ((s.mgr.moved p f).heap q)
    by_cases hqp : q = p
    · rw [hqp, hself]
      exact started_add64 le_rfl hwrap rfl
    · rw [hother q hqp]
      exact h.started q (hq.imp_left (htimers q).1)
  · intro deadline hw
    refine (h.watched deadline hw).congr rfl id (fun q _ hle => ?_) fun q => (htimers q).1
    change deadline ≤ ((s.mgr.moved p f).heap q).expiration
    by_cases hqp : q = p
    · subst hqp
      have hstarted := h.started q (Or.inl hmem)
      rw [hself]
      exact (hle.trans hstarted.start_le).trans_eq (add64_of_lt hwrap).symm
    · rwa [hother q hqp]

/-- `reset` may move a timer earlier, but it goes through `addTimer`, which announces. -/
theorem Inv.reset (h : s.Inv) (hp : s.given p = true) (ms : ℕ) (fromNow : Bool)
    (hwrap : p ∈ s.mgr.timers → (if fromNow then s.clock else
      (s.mgr.heap p).expiration - (s.mgr.heap p).ms) + ms < 2 ^ 64) :
    Inv ({ s with mgr := (s.mgr.reset p ms fromNow s.clock).2.2 }.owe
      (s.mgr.reset p ms fromNow s.clock).2.1) := by
  rcases TimerManger.reset_cases h.wf (given_iff.1 hp) ms fromNow s.clock with
    ⟨heq, -⟩ | ⟨-, heq⟩ | ⟨hmem, heq⟩
  · rw [heq]
    exact h
  · rw [heq]
    exact h
  have hwrap := hwrap hmem
  have hstarted := h.started p (Or.inl hmem)
  let f : Timer → Timer := fun t =>
    { t with ms := ms, expiration := add64 (TimerManger.resetStart t fromNow s.clock) ms }
  -- the timer is out of the set while it is rewritten
  have hout : ((s.mgr.erase p).modify p f).Wf (Insert.insert p {q | q ∈ s.building}) :=
    (h.wf.erase_wf hmem).modify_wf rfl id (Or.inl (Set.mem_insert ..))
  have htimers (q : TimerPtr) : q ∈ ((s.mgr.erase p).modify p f).timers ↔
      q ∈ s.mgr.timers ∧ q ≠ p := h.wf.mem_erase hmem
  have hself : ((s.mgr.erase p).modify p f).heap p = f (s.mgr.heap p) :=
    TimerManger.modify_heap_self f
  have hother : ∀ q, q ≠ p → ((s.mgr.erase p).modify p f).heap q = s.mgr.heap q :=
    fun q hq => TimerManger.modify_heap_of_ne f hq
  have hstart : TimerManger.resetStart (s.mgr.heap p) fromNow s.clock =
      if fromNow then s.clock else (s.mgr.heap p).expiration - (s.mgr.heap p).ms := by
    rw [TimerManger.resetStart, sub64_of_le hstarted.ms_le hstarted.expiration_lt]
  rw [heq]
  refine ⟨(h.wf.moved_wf hmem rfl rfl).tickled_wf _, h.building_nodup, ?_, ?_, h.listing⟩
  · intro q hq
    change Started s.clock (((s.mgr.erase p).modify p f).heap q)
    by_cases hqp : q = p
    · rw [hqp, hself]
      have hstart_le := hstarted.start_le
      refine started_add64 (?_ : TimerManger.resetStart _ fromNow s.clock ≤ s.clock) ?_ rfl
      · rw [hstart]
        split_ifs <;> omega
      · rw [hstart]
        exact hwrap
    · rw [hother q hqp]
      refine h.started q (hq.imp_left fun hq => ?_)
      rcases (hout.mem_addTimerLocked (Set.mem_insert ..)).1 hq with hq | hq
      · exact absurd hq hqp
      · exact ((htimers q).1 hq).1
  · intro deadline hw
    refine Watched.insert hout (Set.mem_insert ..) ?_ rfl
    have hbefore := h.watched deadline hw
    unfold Watched at hbefore
    change if s.mgr.tickled then _ else _
    split_ifs at hbefore ⊢
    · exact hbefore
    · intro q hq
      obtain ⟨hq, hqp⟩ := (htimers q).1 hq
      rw [hother q hqp]
      exact hbefore q hq

/-- A notification that reaches a sleeping worker moves from its thread to the flag, and is on
its way still. -/
theorem Inv.notify (h : s.Inv) {arrives : Bool}
    (harrives : ∀ deadline, s.worker = .asleep deadline → arrives = true) :
    Inv { s with owed := s.owed - 1, pending := s.pending || arrives } where
  wf := h.wf
  building_nodup := h.building_nodup
  started := h.started
  watched := by
    intro deadline hw
    refine (h.watched deadline hw).congr rfl ?_ (fun q _ hle => hle) fun q hq => hq
    rintro ⟨hpending, -⟩
    dsimp only at hpending
    rw [harrives deadline hw, Bool.or_true] at hpending
    cases hpending
  listing := h.listing

/-- The worker falls asleep until the front timer, and clears `tickled_`: from here on the next
insertion at the front is announced. -/
theorem Inv.getNextTimer (h : s.Inv) :
    Inv { s with
      mgr := (s.mgr.getNextTimer s.clock).2
      worker := if (s.mgr.getNextTimer s.clock).1 = 0 then .woken
        else .asleep (s.clock + (s.mgr.getNextTimer s.clock).1) } := by
  have hmgr : (s.mgr.getNextTimer s.clock).2 = { s.mgr with tickled := false } := by
    unfold TimerManger.getNextTimer
    dsimp only
    split
    · rfl
    · split_ifs <;> rfl
  refine ⟨?_, h.building_nodup, ?_, ?_, ?_⟩
  · rw [hmgr]
    exact h.wf.tickled_wf false
  · rw [hmgr]
    exact h.started
  · intro deadline hw
    dsimp only at hw
    split_ifs at hw with hzero
    obtain rfl := Worker.asleep.inj hw
    rw [hmgr, Watched, if_neg Bool.false_ne_true]
    intro q hq
    change q ∈ s.mgr.timers at hq
    change _ ≤ (s.mgr.heap q).expiration
    have hsorted := h.wf.sorted
    unfold TimerManger.getNextTimer at hzero ⊢
    dsimp only at hzero ⊢
    cases hfront : s.mgr.timers with
    | nil =>
        rw [hfront] at hq
        cases hq
    | cons next rest =>
        rw [hfront] at hq hsorted
        simp only [hfront] at hzero
        have hle : (s.mgr.heap next).expiration ≤ (s.mgr.heap q).expiration := by
          have hkey := hsorted.head_le hq
          by_contra hlt
          exact absurd hkey (not_le.2 ((Timer.key_lt_iff _ _).2 (Or.inl (not_le.1 hlt))))
        dsimp only
        split_ifs at hzero ⊢ with hnow
        · exact absurd rfl hzero
        · omega
  · intro now hw
    dsimp only at hw
    split_ifs at hw <;> rcases hw with hw | hw <;> cases hw

/-- A step of the worker while it is not asleep, that leaves the manager alone.  Waking up,
reading the clock, and finding the set empty. -/
theorem Inv.worker_step (h : s.Inv) {worker : Worker} (pending : Bool)
    (hasleep : ∀ deadline, worker ≠ .asleep deadline)
    (hlisting : ∀ now, worker = .listing now ∨ worker = .relisting now → now ≤ s.clock) :
    Inv { s with worker := worker, pending := pending } where
  wf := h.wf
  building_nodup := h.building_nodup
  started := h.started
  watched := fun deadline hw => absurd hw (hasleep deadline)
  listing := hlisting

/-- The worker is awake while it lists, and a recurring timer starts at a clock reading in the
past. -/
theorem Inv.listExpiredCb (h : s.Inv) {now : ℕ} (probe : ℕ) (hw : s.worker = .relisting now)
    (hwrap : ∀ q ∈ s.mgr.timers, (s.mgr.heap q).isRecurring = true →
      (s.mgr.heap q).expiration ≤ now → now + (s.mgr.heap q).ms < 2 ^ 64) :
    Inv { s with mgr := (s.mgr.listExpiredCb now probe).2, worker := .awake } := by
  obtain ⟨expired, -, hmem, -, hwf, hheap, -, -, htimers⟩ := h.wf.listExpiredCb_spec now probe
  refine ⟨hwf, h.building_nodup, ?_, ?_, ?_⟩
  · intro q hq
    dsimp only at hq ⊢
    rw [hheap]
    dsimp only
    by_cases hexp : q ∈ expired
    · have hrunning := (hmem q).1 hexp
      have hrec : (s.mgr.heap q).isRecurring = true := by
        rcases hq with hq | hq
        · exact ((htimers q).1 hq).2 hexp
        · exact absurd hrunning.1 (h.wf.not_mem q hq)
      have hwrap := hwrap q hrunning.1 hrec hrunning.2
      rw [if_pos hexp, TimerManger.fired, if_pos hrec]
      exact started_add64 (h.listing now (Or.inr hw)) hwrap rfl
    · rw [if_neg hexp]
      exact h.started q (hq.imp_left fun hq => ((htimers q).1 hq).1)
  · rintro deadline ⟨⟩
  · rintro now' (hw | hw) <;> cases hw

/-- **Every step keeps the invariant** that wraps no expiration.  One case for each action, with
the lemma of that name. -/
theorem Inv.step (h : s.Inv) {a : Action} (ha : stepNoWrap a s = some s') : s'.Inv := by
  obtain ⟨hwrap, ha⟩ := Option.ite_none_right_eq_some.1 ha
  cases a with
  | tick now =>
      obtain ⟨hnow, ⟨⟩⟩ := Option.ite_none_right_eq_some.1 ha
      exact h.tick hnow
  | construct addr ms cb recurring =>
      obtain ⟨hfresh, ⟨⟩⟩ := Option.ite_none_right_eq_some.1 ha
      refine h.construct cb recurring (fun q hq => ?_) (decide_eq_true_iff.1 hwrap)
      exact bne_iff_ne.1 (List.all_eq_true.1 hfresh q (List.mem_append.2 hq))
  | insert p =>
      obtain ⟨hp, ⟨⟩⟩ := Option.ite_none_right_eq_some.1 ha
      exact h.insert (List.contains_iff_mem.1 hp)
  | cancel p =>
      obtain ⟨hp, ⟨⟩⟩ := Option.ite_none_right_eq_some.1 ha
      exact h.cancel hp
  | refresh p =>
      obtain ⟨hp, ⟨⟩⟩ := Option.ite_none_right_eq_some.1 ha
      refine h.refresh hp fun hmem => ?_
      simpa [noWrap, hmem] using hwrap
  | reset p ms fromNow =>
      obtain ⟨hp, ⟨⟩⟩ := Option.ite_none_right_eq_some.1 ha
      refine h.reset hp ms fromNow fun hmem => ?_
      simpa [noWrap, hmem] using hwrap
  | notify kept =>
      obtain ⟨-, ⟨⟩⟩ := Option.ite_none_right_eq_some.1 ha
      refine h.notify fun deadline hw => ?_
      rw [hw]
  | getNextTimer =>
      rw [TimerLoop.step] at ha
      split at ha
      · obtain ⟨⟩ := ha
        exact h.getNextTimer
      · cases ha
  | wake =>
      rw [TimerLoop.step] at ha
      split at ha
      · obtain ⟨-, ⟨⟩⟩ := Option.ite_none_right_eq_some.1 ha
        exact h.worker_step false nofun (by rintro now (hw | hw) <;> cases hw)
      · cases ha
  | readClock =>
      rw [TimerLoop.step] at ha
      split at ha
      · obtain ⟨⟩ := ha
        refine h.worker_step s.pending nofun ?_
        rintro now (hw | hw) <;> cases hw
        exact Nat.le_refl _
      · cases ha
  | checkEmpty =>
      rw [TimerLoop.step] at ha
      split at ha
      · next now hw =>
          obtain ⟨⟩ := ha
          refine h.worker_step s.pending (fun deadline => ?_) fun now' => ?_
          · split_ifs <;> exact nofun
          · split_ifs
            · rintro (hw' | hw') <;> cases hw'
            · rintro (hw' | hw') <;> cases hw'
              exact h.listing now (Or.inl hw)
      · cases ha
  | listExpiredCb probe =>
      rw [TimerLoop.step] at ha
      split at ha
      · next now hw =>
          obtain ⟨⟩ := ha
          refine h.listExpiredCb probe hw fun q hq hrec hdue => ?_
          rw [noWrap, hw] at hwrap
          have hq := List.all_eq_true.1 hwrap q hq
          simpa [hrec, hdue] using hq
      · cases ha

/-- The invariant of every reachable state, by `Inv.step` and the induction of `Lib.Machine`. -/
theorem Reachable.inv {heap : TimerPtr → Timer} (h : Reachable stepNoWrap (init heap) s) : s.Inv :=
  h.invariant (init_inv heap) fun _ _ _ hs ha => hs.step ha

/-- **No front notification is lost**, when no expiration wraps: in every state reached in which
the worker sleeps and no notification is on its way, its deadline is not later than the
expiration of the first timer.  The sleep may well be shorter: a front timer that was cancelled
is not announced, and the worker wakes up for nothing.  In `src/hiper/base/timer.cc` this rests
on line 121, which reports an insertion at the front unless one has been reported since
`getNextTimer` cleared `tickled_` in line 170, and on `refresh` (45), which reports nothing. -/
theorem asleep_until_front (heap : TimerPtr → Timer) {s : TimerLoop}
    (h : Reachable stepNoWrap (init heap) s) {deadline : ℕ} (hasleep : s.worker = .asleep deadline)
    (hdelivered : s.Delivered) {front : TimerPtr} (hfront : s.mgr.timers.head? = some front) :
    deadline ≤ (s.mgr.heap front).expiration := by
  have hwatched := (Reachable.inv h).watched deadline hasleep
  unfold Watched at hwatched
  split_ifs at hwatched
  · exact absurd hdelivered hwatched
  · exact hwatched front (List.mem_of_mem_head? hfront)

/-- A timer put before the one slept for is announced, and slept for next.  The run of
`asleep_until_front_earlier`. -/
def earlierTimer : List Action :=
  [.tick 10, .construct 1 20 (some 100) false, .insert 0, .notify false, .getNextTimer,
    .construct 2 5 (some 200) true, .insert 1, .notify false, .wake, .readClock, .checkEmpty,
    .listExpiredCb 3, .getNextTimer]

/-- The worker sleeps first for the timer that expires at 30, and after the notification for the
one at 15. -/
theorem asleep_until_front_earlier :
    ∃ s, Reachable stepNoWrap (init fun _ => Timer.new 0 0 0 none false) s ∧
      s.worker = .asleep 15 ∧ 15 ≤ (s.mgr.heap 1).expiration := by
  obtain ⟨s, hreach, hs⟩ := exists_reachable_of_run stepNoWrap
    (init fun _ => Timer.new 0 0 0 none false) earlierTimer
    (fun s => s.worker = .asleep 15 ∧ s.pending = false ∧ s.owed = 0 ∧
      s.mgr.timers.head? = some 1) (by decide +kernel)
  obtain ⟨hasleep, hpending, howed, hfront⟩ := of_decide_eq_true hs
  exact ⟨s, hreach, hasleep, asleep_until_front _ hreach hasleep ⟨hpending, howed⟩ hfront⟩

/-- A timer of almost `2^64` ms, made at 10 and refreshed at 60.  The sum `60 + ms_` is past
`2^64`, and what is left of it is before the deadline. -/
def wrappedRefresh : List Action :=
  [.tick 10, .construct 1 (2 ^ 64 - 50) (some 100) false, .insert 0, .notify false, .getNextTimer,
    .tick 60, .refresh 0]

/-- **An expiration that wraps is slept past.**  The refreshed timer expires at
10, no notification is sent, and the worker sleeps until `2^64 - 40`. -/
theorem wrapped_refresh_oversleeps :
    ∃ s deadline front, Reachable step (init fun _ => Timer.new 0 0 0 none false) s ∧
      s.worker = .asleep deadline ∧ s.Delivered ∧ s.mgr.timers.head? = some front ∧
        (s.mgr.heap front).expiration < deadline := by
  obtain ⟨s, hreach, hs⟩ := exists_reachable_of_run step
    (init fun _ => Timer.new 0 0 0 none false) wrappedRefresh
    (fun s => s.worker = .asleep (2 ^ 64 - 40) ∧ s.pending = false ∧ s.owed = 0 ∧
      s.mgr.timers.head? = some 0 ∧ (s.mgr.heap 0).expiration < 2 ^ 64 - 40) (by decide +kernel)
  obtain ⟨hasleep, hpending, howed, hfront, hlt⟩ := of_decide_eq_true hs
  exact ⟨s, _, 0, hreach, hasleep, ⟨hpending, howed⟩, hfront, hlt⟩

end TimerLoop
end Hiper

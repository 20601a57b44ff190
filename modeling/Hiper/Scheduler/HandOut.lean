import Hiper.Lib.Machine
import Hiper.Scheduler.Fibers
import Mathlib.Data.List.Basic
import Mathlib.Tactic.Linarith

/-!
# Tasks are handed out once

Whatever the workers, the fibers and the callers of `schedule` do, the queue holds exactly
the tasks that were pushed and not yet taken, in the order of the pushes; no task is taken
twice; a scan takes the first task that the worker may take; and `active_thread_count_` is
the number of workers that have taken a task and not yet counted down for it
(`handed_out_once`).

The places are `src/hiper/base/scheduler.cc:192-220` for the scan and `:229`, `:252` and
`:268` for the three decrements, and `src/hiper/base/scheduler.h:151` for the push.  Numbers
are given in the order of the pushes, so that a task which is scheduled twice is two tasks;
`Goes` lists what a worker can do outside the scan, and no proof looks at `next` again.
-/

namespace Hiper.Scheduler.Pool

open Lib

/-- The worker has taken a task and not yet counted down for it.  From the scan that took it. -/
def Place.counted : Place → Bool
  | .checking .. | .skipping | .callback | .resetting false .. | .renewing false _ | .resuming ..
  | .marking .. | .switching .. | .inside .. | .switched .. | .writing .. | .leaving ..
  | .back .. => true
  | _ => false

/-- The worker is about to count down: the exits of `run` for a task.  Each task has one. -/
def Place.countsDown : Place → Bool
  | .skipping | .back .. => true
  | _ => false

/-- How many workers are counted.  It is computed from the places. -/
def active (s : Pool) : ℕ := s.workers.countP (·.place.counted)

/-- The tasks pushed and not taken, in the order of the pushes.  The queue should be this list. -/
def waiting (s : Pool) : List Entry :=
  (numbered 0 s.pushed).filter fun e => !(s.removed.map Prod.fst).contains e.stamp

/-- The queue, what was taken, and the count.  It is the invariant of all runs. -/
structure Accounted (s : Pool) : Prop where
  fibers : s.fibers = s.waiting
  nodup : (s.removed.map Prod.fst).Nodup
  lt : ∀ r ∈ s.removed, r.1 < s.pushed.length
  count : s.activeThreadCount = s.active

/-! ### Numbers -/

/-- Numbers go on behind one another. -/
theorem numbered_append (n : ℕ) (as bs : List FiberAndThread) :
    numbered n (as ++ bs) = numbered n as ++ numbered (n + as.length) bs := by
  rw [numbered, List.zipIdx_append, List.map_append]
  rfl

/-- The numbers are consecutive. -/
theorem map_stamp_numbered (n : ℕ) (tasks : List FiberAndThread) :
    (numbered n tasks).map Entry.stamp = List.range' n tasks.length := by
  induction tasks generalizing n with
  | nil => rfl
  | cons t tasks ih => 
      have h := ih (n + 1)
      rw [List.length_cons, List.range'_succ, ← h]
      rfl

/-- The numbers of tasks are between those bounds. -/
theorem mem_numbered {n : ℕ} {tasks : List FiberAndThread} {e : Entry}
    (h : e ∈ numbered n tasks) : n ≤ e.stamp ∧ e.stamp < n + tasks.length := by
  have hmem : e.stamp ∈ List.range' n tasks.length :=
    map_stamp_numbered n tasks ▸ List.mem_map_of_mem h
  rw [List.mem_range'_1] at hmem
  exact hmem

/-! ### The scan -/

/-- The loop finds the first task that is allowed, or none is. -/
theorem scanLoop_spec (s : Pool) (w : ThreadId) (fibers : List Entry) :
    (∀ e ∈ fibers, s.allowed w e = false) ∧ scanLoop s w fibers = (none, fibers) ∨
      ∃ pre e post, fibers = pre ++ e :: post ∧ (∀ e' ∈ pre, s.allowed w e' = false) ∧
        s.allowed w e = true ∧ scanLoop s w fibers = (some e, pre ++ post) := by
  induction fibers with
  | nil => exact Or.inl ⟨by simp, rfl⟩
  | cons e fibers ih =>
      by_cases hallowed : s.allowed w e = true
      · refine Or.inr ⟨[], e, fibers, rfl, by simp, hallowed, ?_⟩
        rw [allowed, Bool.and_eq_true, Bool.not_eq_true'] at hallowed
        simp [scanLoop, hallowed.1, hallowed.2]
      · rw [Bool.not_eq_true] at hallowed
        have hskip : scanLoop s w (e :: fibers) =
            ((scanLoop s w fibers).1, e :: (scanLoop s w fibers).2) := by
          rw [scanLoop]
          split
          next => rfl
          next hfor =>
            rw [Bool.not_eq_true', Bool.not_eq_false] at hfor
            rw [allowed, hfor, Bool.true_and, Bool.not_eq_false'] at hallowed
            rw [if_pos hallowed]
        rcases ih with ⟨hnone, hscan⟩ | ⟨pre, e', post, rfl, hpre, he', hscan⟩
        · exact Or.inl ⟨List.forall_mem_cons.2 ⟨hallowed, hnone⟩, by rw [hskip, hscan]⟩
        · exact Or.inr ⟨e :: pre, e', post, rfl, List.forall_mem_cons.2 ⟨hallowed, hpre⟩, he',
            by rw [hskip, hscan]; rfl⟩

/-! ### What a worker does next -/

/-- How a worker goes on from its place.  One case for each place, and for each act in a fiber. -/
inductive Goes (s : Pool) (w : ThreadId) (x : Worker) : Act → Effect → Prop
  | foundNone {p : Place} : x.place = .foundNone → p = .ended ∨ p = .idling →
      Goes s w x .go (goto x p)
  | resume {f : FiberId} : x.place = .checking f [] → Goes s w x .go (goto x (.resuming .fiber f))
  | skip {f : FiberId} {t : FiberState} {left : List FiberState} :
      x.place = .checking f (t :: left) → s.state f = t → Goes s w x .go (goto x .skipping)
  | check {f : FiberId} {t : FiberState} {left : List FiberState} :
      x.place = .checking f (t :: left) → s.state f ≠ t → Goes s w x .go (goto x (.checking f left))
  | skipped : x.place = .skipping → Goes s w x .go { goto x .scanning with count := -1 }
  | reuse {f : FiberId} : x.place = .callback → x.cbFiber = some f →
      Goes s w x .go (goto x (.resetting false f [.term, .except, .init]))
  | create : x.place = .callback → x.cbFiber = none →
      Goes s w x .go
        { put { x with cbFiber := some s.created } (.resuming .cb s.created) s.created .init
          with fresh := true }
  | renew {after : Bool} {f : FiberId} {t : FiberState} {left : List FiberState} :
      x.place = .resetting after f (t :: left) → s.state f = t →
      Goes s w x .go (goto x (.renewing after f))
  | compare {after : Bool} {f : FiberId} {t : FiberState} {left : List FiberState} :
      x.place = .resetting after f (t :: left) → s.state f ≠ t →
      Goes s w x .go (goto x (.resetting after f left))
  | renewed {f : FiberId} : x.place = .renewing false f →
      Goes s w x .go (put x (.resuming .cb f) f .init)
  | kept {f : FiberId} : x.place = .renewing true f → Goes s w x .go (put x .scanning f .init)
  | mark {h : Hand} {f : FiberId} : x.place = .resuming h f → s.state f ≠ .exec →
      Goes s w x .go (goto x (.marking h f))
  | marked {h : Hand} {f : FiberId} : x.place = .marking h f →
      Goes s w x .go (put x (.switching h f) f .exec)
  | enter {h : Hand} {f : FiberId} : x.place = .switching h f →
      Goes s w x .go (goto x (.inside h f))
  | finish {h : Hand} {f : FiberId} (ok : Bool) : x.place = .inside h f →
      Goes s w x (.finish ok) (put x (.leaving h f) f (if ok then .term else .except))
  | yield {h : Hand} {f : FiberId} : x.place = .inside h f →
      Goes s w x .yield (goto x (.leaving h f))
  | yieldToReady {h : Hand} {f : FiberId} : x.place = .inside h f → s.state f = .exec →
      Goes s w x .yieldToReady (goto x (.writing h f .ready))
  | yieldToHold {h : Hand} {f : FiberId} : x.place = .inside h f → s.state f = .exec →
      Goes s w x .yieldToHold (goto x (.writing h f .hold))
  | stay {h : Hand} {f : FiberId} {thread : Option ThreadId} : x.place = .inside h f →
      thread = none ∨ thread = some w → Goes s w x (.switchTo thread) (goto x (.inside h f))
  | switch {h : Hand} {f : FiberId} {thread : Option ThreadId} : x.place = .inside h f →
      Goes s w x (.switchTo thread)
        { goto x (.switched h f) with push := (thread, [some (.fiber f)]) }
  | schedule {h : Hand} {f : FiberId} {thread : Option ThreadId} {fcs : List (Option FiberOrCb)} :
      x.place = .inside h f → s.known fcs = true →
      Goes s w x (.schedule thread fcs) { goto x (.inside h f) with push := (thread, fcs) }
  | switched {h : Hand} {f : FiberId} : x.place = .switched h f → s.state f = .exec →
      Goes s w x .go (goto x (.writing h f .hold))
  | write {h : Hand} {f : FiberId} {r : FiberState} : x.place = .writing h f r →
      Goes s w x .go (put x (.leaving h f) f r)
  | leave {h : Hand} {f : FiberId} : x.place = .leaving h f → Goes s w x .go (goto x (.back h f))
  | countDown {h : Hand} {f : FiberId} : x.place = .back h f →
      Goes s w x .go { goto x (.settling h f) with count := -1 }
  | ready {h : Hand} {f : FiberId} : x.place = .settling h f → s.state f = .ready →
      Goes s w x .go (goto x (.requeuing h f))
  | notReady {h : Hand} {f : FiberId} {left : List FiberState} : x.place = .settling h f →
      s.state f ≠ .ready → left = [.term, .except] ∨ left = [.except, .term] →
      Goes s w x .go (goto x (.deciding h f left))
  | requeue {h : Hand} {f : FiberId} : x.place = .requeuing h f →
      Goes s w x .go { goto (drop x h) .scanning with push := (none, [some (.fiber f)]) }
  | done {f : FiberId} {t : FiberState} {left : List FiberState} :
      x.place = .deciding .fiber f (t :: left) → s.state f = t → Goes s w x .go (goto x .scanning)
  | doneCb {f : FiberId} {t : FiberState} {left : List FiberState} :
      x.place = .deciding .cb f (t :: left) → s.state f = t →
      Goes s w x .go (goto x (.resetting true f [.term, .except, .init]))
  | decide {h : Hand} {f : FiberId} {t : FiberState} {left : List FiberState} :
      x.place = .deciding h f (t :: left) → s.state f ≠ t →
      Goes s w x .go (goto x (.deciding h f left))
  | alive {h : Hand} {f : FiberId} : x.place = .deciding h f [] →
      Goes s w x .go (goto x (.holding h f))
  | hold {h : Hand} {f : FiberId} : x.place = .holding h f →
      Goes s w x .go (put (drop x h) .scanning f .hold)
  | idle : x.place = .idling →
      Goes s w x .go (goto { x with idleTerm := s.isStopping || x.idleTerm } .scanning)
  | idleYield : x.place = .idling → Goes s w x .yield (goto x .scanning)

/-- What a worker does next is one of these. -/
theorem goes_of_next {s : Pool} {w : ThreadId} {x : Worker} {a : Act} {e : Effect}
    (h : s.next w x a = some e) : Goes s w x a e := by
  unfold next at h
  split at h
  next hp =>
    obtain rfl := Option.some.inj h
    exact .foundNone hp (by split_ifs <;> simp)
  next hp =>
    obtain rfl := Option.some.inj h
    exact .resume hp
  next hp =>
    obtain rfl := Option.some.inj h
    split_ifs with ht
    · exact .skip hp ht
    · exact .check hp ht
  next hp =>
    obtain rfl := Option.some.inj h
    exact .skipped hp
  next hp =>
    split at h
    next hf =>
      obtain rfl := Option.some.inj h
      exact .reuse hp hf
    next hf =>
      obtain rfl := Option.some.inj h
      exact .create hp hf
  next hp =>
    obtain rfl := Option.some.inj h
    split_ifs with ht
    · exact .renew hp ht
    · exact .compare hp ht
  next after f hp =>
    obtain rfl := Option.some.inj h
    cases after with
    | false => exact .renewed hp
    | true => exact .kept hp
  next hp =>
    split_ifs at h with hexec
    obtain rfl := Option.some.inj h
    exact .mark hp hexec
  next hp =>
    obtain rfl := Option.some.inj h
    exact .marked hp
  next hp =>
    obtain rfl := Option.some.inj h
    exact .enter hp
  next hp =>
    obtain rfl := Option.some.inj h
    exact .finish _ hp
  next hp =>
    obtain rfl := Option.some.inj h
    exact .yield hp
  next hp =>
    split_ifs at h with hexec
    obtain rfl := Option.some.inj h
    exact .yieldToReady hp hexec
  next hp =>
    split_ifs at h with hexec
    obtain rfl := Option.some.inj h
    exact .yieldToHold hp hexec
  next hp =>
    split_ifs at h with hstay
    · obtain rfl := Option.some.inj h
      exact .stay hp hstay
    · obtain rfl := Option.some.inj h
      exact .switch hp
  next hp =>
    split_ifs at h with hknown
    obtain rfl := Option.some.inj h
    exact .schedule hp (Bool.and_eq_true_iff.1 hknown).2
  next hp =>
    split_ifs at h with hexec
    obtain rfl := Option.some.inj h
    exact .switched hp hexec
  next hp =>
    obtain rfl := Option.some.inj h
    exact .write hp
  next hp =>
    obtain rfl := Option.some.inj h
    exact .leave hp
  next hp =>
    obtain rfl := Option.some.inj h
    exact .countDown hp
  next hand f hp =>
    obtain rfl := Option.some.inj h
    split_ifs with hready
    · exact .ready hp hready
    · cases hand with
      | fiber => exact .notReady hp hready (.inl rfl)
      | cb => exact .notReady hp hready (.inr rfl)
  next hp =>
    obtain rfl := Option.some.inj h
    exact .requeue hp
  next hand f t left hp =>
    obtain rfl := Option.some.inj h
    split_ifs with ht
    · cases hand with
      | fiber => exact .done hp ht
      | cb => exact .doneCb hp ht
    · exact .decide hp ht
  next hp =>
    obtain rfl := Option.some.inj h
    exact .alive hp
  next hp =>
    obtain rfl := Option.some.inj h
    exact .hold hp
  next hp =>
    obtain rfl := Option.some.inj h
    exact .idle hp
  next hp =>
    obtain rfl := Option.some.inj h
    exact .idleYield hp
  next => cases h

/-! ### The count -/

/-- How many have a property, when one changes. -/
theorem countP_set {α : Type} {l : List α} {i : ℕ} {a b : α} (p : α → Bool)
    (h : l[i]? = some a) :
    (l.set i b).countP p + (p a).toNat = l.countP p + (p b).toNat := by
  induction l generalizing i with
  | nil => cases h
  | cons c l ih =>
      cases i with
      | zero =>
          obtain rfl := Option.some.inj h
          cases ha : p c <;> cases hb : p b <;> simp [ha, hb]
      | succ i =>
          have hrest := ih h
          rw [List.set_cons_succ, List.countP_cons, List.countP_cons]
          omega

/-- What a worker's step adds to the count is what it adds to the counted workers.  By cases on
what it does. -/
theorem next_count {s : Pool} {w : ThreadId} {x : Worker} {a : Act} {e : Effect}
    (h : s.next w x a = some e) :
    e.count + x.place.counted.toNat = e.worker.place.counted.toNat := by
  cases goes_of_next h with
  | foundNone hp hto => rcases hto with rfl | rfl <;> simp [goto, Place.counted, hp]
  | @renew after _ _ _ hp | @compare after _ _ _ hp =>
      cases after <;> simp [goto, Place.counted, hp]
  | _ => simp [goto, put, Place.counted, *]

/-! ### Steps -/

/-- A step that takes no task, and pushes some.  The tasks stand behind the queue, with the next
numbers. -/
structure Pushes (s s' : Pool) (tasks : List FiberAndThread) : Prop where
  fibers : s'.fibers = s.fibers ++ numbered s.pushed.length tasks
  pushed : s'.pushed = s.pushed ++ tasks
  removed : s'.removed = s.removed

/-- A scan that takes a task: the first that the worker may take.  The order of the others
stays. -/
structure Takes (s s' : Pool) (w : ThreadId) (e : Entry) : Prop where
  fibers : ∃ pre post, s.fibers = pre ++ e :: post ∧ (∀ e' ∈ pre, s.allowed w e' = false) ∧
    s'.fibers = pre ++ post
  allowed : s.allowed w e = true
  pushed : s'.pushed = s.pushed
  removed : s'.removed = s.removed ++ [(e.stamp, w)]

/-- The task was in the queue. -/
theorem Takes.mem {s s' : Pool} {w : ThreadId} {e : Entry} (h : Takes s s' w e) :
    e ∈ s.fibers := by
  obtain ⟨pre, post, hfibers, -, -⟩ := h.fibers
  rw [hfibers]
  exact List.mem_append_right _ (List.mem_cons_self ..)

/-- What is left was in the queue. -/
theorem Takes.mem_of_mem {s s' : Pool} {w : ThreadId} {e e' : Entry} (h : Takes s s' w e)
    (he : e' ∈ s'.fibers) : e' ∈ s.fibers := by
  obtain ⟨pre, post, hfibers, -, hfibers'⟩ := h.fibers
  rw [hfibers'] at he
  rw [hfibers, List.mem_append, List.mem_cons]
  rcases List.mem_append.1 he with he | he
  · exact Or.inl he
  · exact Or.inr (Or.inr he)

/-- A step that leaves the queue pushes nothing. -/
theorem Pushes.nil {s s' : Pool} (hf : s'.fibers = s.fibers) (hp : s'.pushed = s.pushed)
    (hr : s'.removed = s.removed) : Pushes s s' [] :=
  ⟨hf.trans (List.append_nil _).symm, hp.trans (List.append_nil _).symm, hr⟩

/-- A call of `schedule` pushes its tasks. -/
theorem schedule_pushes (s : Pool) (thread : Option ThreadId) (fcs : List (Option FiberOrCb)) :
    Pushes s (s.schedule thread fcs) (tasksOf thread fcs) :=
  ⟨rfl, rfl, rfl⟩

/-- The scan of a worker.  It takes a task, or none is allowed. -/
theorem scan_spec (s : Pool) (w : ThreadId) (x : Worker) :
    ((∀ e ∈ s.fibers, s.allowed w e = false) ∧
        s.scan w x = { s with workers := s.workers.set w { x with place := .foundNone } }) ∨
      ∃ e, Takes s (s.scan w x) w e ∧
        (s.scan w x).activeThreadCount = s.activeThreadCount + 1 ∧
        (s.scan w x).workers = s.workers.set w { x with place := takes e.task.task } ∧
        (s.scan w x).state = s.state ∧ (s.scan w x).created = s.created := by
  rcases scanLoop_spec s w s.fibers with ⟨hnone, hscan⟩ | ⟨pre, e, post, hf, hpre, he, hscan⟩
  · exact Or.inl ⟨hnone, by rw [scan, hscan]⟩
  · refine Or.inr ⟨e, ⟨⟨pre, post, hf, hpre, ?_⟩, he, ?_, ?_⟩, ?_, ?_, ?_, ?_⟩ <;> rw [scan, hscan]

/-- The tasks, null ones apart, that a call of `schedule` is given.  For a call from a fiber and
from outside. -/
def given : Step → Option (List FiberAndThread)
  | .schedule thread fcs => some (tasksOf thread fcs)
  | .worker _ (.schedule thread fcs) => some (tasksOf thread fcs)
  | _ => none

/-- The worker that scans the queue in the step.  There is one at most. -/
def scanner (s : Pool) : Step → Option ThreadId
  | .worker w .go =>
    if (s.workers[w]?).any fun x => x.place == .scanning then some w else none
  | _ => none

/-- What a step does to the queue: the scan of a worker takes the first task that it may take,
if there is one, and any other step pushes what it is given.  It is stated for every step. -/
structure Hands (s : Pool) (a : Step) (s' : Pool) : Prop where
  scan : ∀ w, s.scanner a = some w →
    (∃ e, Takes s s' w e) ∨ (∀ e ∈ s.fibers, s.allowed w e = false) ∧ Pushes s s' []
  other : s.scanner a = none →
    ∃ tasks, Pushes s s' tasks ∧ ∀ g, given a = some g → tasks = g

/-- The workers after one of them changed.  It is that one, or one of the others. -/
theorem lookup_set {l : List Worker} {v w : ThreadId} {y z : Worker}
    (h : (l.set w z)[v]? = some y) : v = w ∧ y = z ∨ v ≠ w ∧ l[v]? = some y := by
  by_cases hv : w = v
  · rw [hv, List.getElem?_set_self'] at h
    obtain ⟨_, -, h⟩ := Option.map_eq_some_iff.1 h
    exact Or.inl ⟨hv.symm, h.symm⟩
  · rw [List.getElem?_set_ne hv] at h
    exact Or.inr ⟨fun h => hv h.symm, h⟩

/-- A worker's step is a scan or an effect.  By its place. -/
theorem worker_cases {s s' : Pool} {w : ThreadId} {a : Act}
    (h : step (.worker w a) s = some s') :
    ∃ x, s.workers[w]? = some x ∧
      (x.place = .scanning ∧ a = .go ∧ s' = s.scan w x ∨
        x.place ≠ .scanning ∧ ∃ e, s.next w x a = some e ∧ s' = s.apply w e) := by
  obtain ⟨x, hx, h⟩ := Option.bind_eq_some_iff.1 h
  refine ⟨x, hx, ?_⟩
  split_ifs at h with hplace ha
  · exact Or.inl ⟨hplace, ha, (Option.some.inj h).symm⟩
  · obtain ⟨e, he, hs'⟩ := Option.map_eq_some_iff.1 h
    exact Or.inr ⟨hplace, e, he, hs'.symm⟩

/-! ### The account -/

/-- A push keeps the account. -/
theorem Accounted.pushes {s s' : Pool} (h : Accounted s) {tasks : List FiberAndThread}
    (hp : Pushes s s' tasks) (hcount : s'.activeThreadCount = s'.active) : Accounted s' := by
  refine ⟨?_, hp.removed ▸ h.nodup, fun r hr => ?_, hcount⟩
  · have hnew : (numbered s.pushed.length tasks).filter
        (fun e => !(s.removed.map Prod.fst).contains e.stamp) = numbered s.pushed.length tasks := by
      rw [List.filter_eq_self]
      intro e he
      have hstamp := (mem_numbered he).1
      rw [Bool.not_eq_true', ← Bool.not_eq_true, List.contains_iff_mem, List.mem_map]
      rintro ⟨r, hr, hre⟩
      have hlt := h.lt r hr
      omega
    rw [hp.fibers, h.fibers, waiting, waiting, hp.removed, hp.pushed, numbered_append,
      List.filter_append, Nat.zero_add, hnew]
  · have hlt := h.lt r (hp.removed ▸ hr)
    rw [hp.pushed, List.length_append]
    omega

/-- A scan that takes a task keeps the account. -/
theorem Accounted.takes {s s' : Pool} (h : Accounted s) {w : ThreadId} {e : Entry}
    (ht : Takes s s' w e) (hcount : s'.activeThreadCount = s'.active) : Accounted s' := by
  obtain ⟨pre, post, hfibers, -, hfibers'⟩ := ht.fibers
  have hmem : e ∈ s.waiting := h.fibers ▸ ht.mem
  obtain ⟨hnum, hfree⟩ := List.mem_filter.1 hmem
  rw [Bool.not_eq_true', ← Bool.not_eq_true, List.contains_iff_mem] at hfree
  have hstamps : (s.waiting.map Entry.stamp).Nodup := by
    refine List.Nodup.sublist ((List.filter_sublist).map _) ?_
    rw [map_stamp_numbered]
    exact List.nodup_range'
  rw [← h.fibers, hfibers, List.map_append, List.map_cons, List.nodup_append] at hstamps
  obtain ⟨-, hpost, hdisj⟩ := hstamps
  have hne : ∀ e' ∈ pre ++ post, (e'.stamp != e.stamp) = true := by
    intro e' he'
    rw [bne_iff_ne]
    rcases List.mem_append.1 he' with he' | he'
    · exact hdisj _ (List.mem_map_of_mem he') _ (List.mem_cons_self ..)
    · intro heq
      exact (List.nodup_cons.1 hpost).1 (heq ▸ List.mem_map_of_mem he')
  refine ⟨?_, ?_, ?_, hcount⟩
  · have hcontains : ∀ e' : Entry, (!(s'.removed.map Prod.fst).contains e'.stamp) =
        ((e'.stamp != e.stamp) && !(s.removed.map Prod.fst).contains e'.stamp) := by
      intro e'
      rw [ht.removed, List.map_append, Bool.eq_iff_iff]
      simp only [Bool.not_eq_true', ← Bool.not_eq_true, List.contains_iff_mem, List.mem_append,
        List.map_cons, List.map_nil, List.mem_singleton, not_or, Bool.and_eq_true, bne_iff_ne]
      exact and_comm
    rw [waiting, ht.pushed]
    simp only [hcontains]
    rw [← List.filter_filter, ← waiting, ← h.fibers, hfibers, hfibers', List.filter_append,
      List.filter_cons_of_neg (by simp), ← List.filter_append, List.filter_eq_self.2 hne]
  · rw [ht.removed, List.map_append, List.nodup_append]
    refine ⟨h.nodup, by simp, fun a ha b hb hab => ?_⟩
    have hb' : b = e.stamp := List.mem_singleton.1 hb
    exact hfree (hb' ▸ hab ▸ ha)
  · intro r hr
    rw [ht.removed, List.mem_append, List.mem_singleton] at hr
    rw [ht.pushed]
    rcases hr with hr | rfl
    · exact h.lt r hr
    · simpa using (mem_numbered hnum).2

/-- How many workers are counted, when one changes. -/
theorem active_set {s : Pool} {w : ThreadId} {x y : Worker} (hx : s.workers[w]? = some x) :
    ((s.workers.set w y).countP (·.place.counted) : ℤ) =
      s.active + y.place.counted.toNat - x.place.counted.toNat := by
  have h := countP_set (b := y) (·.place.counted) hx
  rw [active]
  omega

/-- A worker that has taken a task is counted. -/
theorem counted_takes (t : FiberOrCb) : (takes t).counted = true := by
  cases t <;> rfl

/-- The scan of a worker, and the account.  It has counted up by the end of the scan. -/
theorem scan_hands {s : Pool} (h : Accounted s) {w : ThreadId} {x : Worker}
    (hx : s.workers[w]? = some x) (hplace : x.place = .scanning) :
    Accounted (s.scan w x) ∧
      ((∃ e, Takes s (s.scan w x) w e) ∨
        (∀ e ∈ s.fibers, s.allowed w e = false) ∧ Pushes s (s.scan w x) []) := by
  rcases s.scan_spec w x with ⟨hnone, hscan⟩ | ⟨e, ht, hactive, hworkers, -, -⟩
  · have hp : Pushes s (s.scan w x) [] := by
      rw [hscan]
      exact Pushes.nil rfl rfl rfl
    refine ⟨h.pushes hp ?_, Or.inr ⟨hnone, hp⟩⟩
    rw [hscan, h.count]
    simp only [active]
    have hset := active_set (y := { x with place := .foundNone }) hx
    rw [hplace] at hset
    exact (hset.trans (by simp [active, Place.counted])).symm
  · refine ⟨h.takes ht ?_, Or.inl ⟨e, ht⟩⟩
    have hset := active_set (y := { x with place := takes e.task.task }) hx
    rw [hplace, counted_takes] at hset
    rw [hactive, h.count, active, active, hworkers, hset]
    simp [active, Place.counted]

/-- An effect, and the account.  What it pushes is behind the queue. -/
theorem apply_hands {s : Pool} (h : Accounted s) {w : ThreadId} {x : Worker}
    (hx : s.workers[w]? = some x) {a : Act} {e : Effect} (he : s.next w x a = some e) :
    Accounted (s.apply w e) ∧ Pushes s (s.apply w e) (tasksOf e.push.1 e.push.2) := by
  have hp : Pushes s (s.apply w e) (tasksOf e.push.1 e.push.2) := ⟨rfl, rfl, rfl⟩
  refine ⟨h.pushes hp ?_, hp⟩
  have hset := active_set (y := e.worker) hx
  have hcount := next_count he
  have hactive := h.count
  change s.activeThreadCount + e.count = ((s.workers.set w e.worker).countP _ : ℤ)
  omega

/-- What a fiber gives to `schedule` is what is pushed.  By the fiber's act alone. -/
theorem next_push {s : Pool} {w : ThreadId} {x : Worker} {thread : Option ThreadId}
    {fcs : List (Option FiberOrCb)} {e : Effect}
    (h : s.next w x (.schedule thread fcs) = some e) : e.push = (thread, fcs) := by
  cases goes_of_next h
  rfl

/-- **A step** keeps the account, and hands out tasks as it should.  By cases on the step. -/
theorem step_hands {s s' : Pool} (h : Accounted s) {a : Step} (hs : step a s = some s') :
    Accounted s' ∧ Hands s a s' := by
  cases a with
  | enter =>
      obtain rfl := Option.some.inj hs
      have hp : Pushes s { s with workers := s.workers ++ [⟨.scanning, none, false⟩] } [] :=
        Pushes.nil rfl rfl rfl
      refine ⟨h.pushes hp ?_, nofun, fun _ => ⟨[], hp, nofun⟩⟩
      rw [h.count]
      simp [active, Place.counted]
  | create =>
      obtain rfl := Option.some.inj hs
      exact ⟨⟨h.fibers, h.nodup, h.lt, h.count⟩, nofun, fun _ => ⟨[], .nil rfl rfl rfl, nofun⟩⟩
  | schedule thread fcs =>
      obtain ⟨-, hs⟩ := Option.ite_none_right_eq_some.1 hs
      obtain rfl := Option.some.inj hs
      have hp := schedule_pushes s thread fcs
      exact ⟨h.pushes hp h.count, nofun, fun _ => ⟨_, hp, fun g hg => Option.some.inj hg⟩⟩
  | autoStop =>
      obtain rfl := Option.some.inj hs
      exact ⟨⟨h.fibers, h.nodup, h.lt, h.count⟩, nofun, fun _ => ⟨[], .nil rfl rfl rfl, nofun⟩⟩
  | stop =>
      obtain rfl := Option.some.inj hs
      exact ⟨⟨h.fibers, h.nodup, h.lt, h.count⟩, nofun, fun _ => ⟨[], .nil rfl rfl rfl, nofun⟩⟩
  | worker w a =>
      obtain ⟨x, hx, ⟨hplace, rfl, rfl⟩ | ⟨hplace, e, he, rfl⟩⟩ := worker_cases hs
      · obtain ⟨hacc, hscan⟩ := scan_hands h hx hplace
        have hscanner : s.scanner (.worker w .go) = some w := by
          simp [scanner, hx, hplace]
        refine ⟨hacc, fun v hv => ?_, fun hnone => ?_⟩
        · obtain rfl := Option.some.inj (hscanner.symm.trans hv)
          exact hscan
        · cases hscanner.symm.trans hnone
      · obtain ⟨hacc, hp⟩ := apply_hands h hx he
        refine ⟨hacc, fun v hv => ?_, fun _ => ⟨_, hp, fun g hg => ?_⟩⟩
        · unfold scanner at hv
          split at hv
          next heq =>
            obtain ⟨rfl, rfl⟩ := Step.worker.inj heq
            simp [hx, hplace] at hv
          next => cases hv
        · cases a <;> try cases hg
          rw [next_push he]

/-- It holds before anything is pushed. -/
theorem init_accounted : Accounted init := ⟨rfl, List.nodup_nil, nofun, rfl⟩

/-- Every state reached has it.  The induction is over the run. -/
theorem accounted {s : Pool} (h : Reachable step init s) : Accounted s :=
  h.invariant init_accounted fun _ _ _ hI hs => (step_hands hI hs).1

/-- A worker that is about to count down is counted.  It has not counted down before. -/
theorem Place.counted_of_countsDown {p : Place} (h : p.countsDown = true) : p.counted = true := by
  cases p <;> first | rfl | cases h

/-- **Tasks are handed out once.**  In every state reached the queue is what was pushed and not
taken, no task is taken twice, the count is that of the workers that have taken a task and not
counted down, so that no worker counts down from 0; and every step hands out tasks as it should.
A scan is `src/hiper/base/scheduler.cc:192-220`, under the lock; the count goes up in line 214,
and down in one of lines 229, 252 and 268. -/
theorem handed_out_once {s : Pool} (h : Reachable step init s) :
    s.fibers = s.waiting ∧ (s.removed.map Prod.fst).Nodup ∧
      s.activeThreadCount = s.active ∧
      (∀ (w : ThreadId) (x : Worker), s.workers[w]? = some x → x.place.countsDown = true →
        1 ≤ s.activeThreadCount) ∧
      ∀ a s', step a s = some s' → Hands s a s' := by
  have hacc := accounted h
  refine ⟨hacc.fibers, hacc.nodup, hacc.count, fun w x hx hdown => ?_, fun a s' hs =>
    (step_hands hacc hs).2⟩
  have hpos : 0 < s.active := List.countP_pos_iff.2
    ⟨x, List.mem_of_getElem? hx, Place.counted_of_countsDown hdown⟩
  rw [hacc.count]
  omega

theorem handed_out_once_callback :
    ∃ s, run step [.enter, .schedule none [some .cb, none, some .cb], .worker 0 .go] init = some s ∧
      s.removed = [(0, 0)] ∧ s.fibers = s.waiting ∧ s.fibers = [⟨1, ⟨.cb, none⟩⟩] ∧
      s.activeThreadCount = s.active := by
  obtain ⟨s, hs, hrest⟩ : ∃ s, run step
      [.enter, .schedule none [some .cb, none, some .cb], .worker 0 .go] init = some s ∧
        s.removed = [(0, 0)] ∧ s.fibers = [⟨1, ⟨.cb, none⟩⟩] := ⟨_, rfl, rfl, rfl⟩
  have h := handed_out_once (Reachable.init.run hs)
  exact ⟨s, hs, hrest.1, h.1, hrest.2, h.2.2.1⟩

end Hiper.Scheduler.Pool

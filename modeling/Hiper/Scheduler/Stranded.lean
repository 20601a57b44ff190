import Hiper.Scheduler.Basic
import Mathlib.Data.List.Basic

/-!
# Tasks that sleeping workers may run

A task in the queue that a worker asleep in `epoll_wait` may run is noticed as long as the
pipe holds a byte, a tickle is owed, or a worker is awake and will scan again.  A worker
that has scanned in vain is bound to sleep, and a task that arrives meanwhile has to be
noticed just the same (`missing`).

`loses` says, in the state before a step, when the step takes the last notice away: a tickle
that finds no thread counted idle, a push onto a queue that is not empty, a fiber that comes
back on a thread outside.  In a run without such a step no task is ever stranded, and after
such a step a task can be stranded two steps later (`stranded_only_by_loss`).
`push_between_scan_and_idle_strands` is a run of one worker that takes the first.

The places are `src/hiper/base/iomanager.cc:338` (`tickle`, which writes nothing when
`hasIdleThreads()` is false) and `src/hiper/base/scheduler.cc:275-277`, where a worker that
has found nothing counts itself idle and goes to `idle`.  The comment on `idle` in
`src/hiper/base/iomanager.h:103` says that a new task makes `idle` leave `epoll_wait` at
once.  Both readings of what counts as a notice are covered by one theorem, since they are
parameters (`Reading`).
-/

namespace Hiper.Scheduler

open Lib

/-- How the law is read: whether a worker inside a task counts as one that will scan again, and
whether the tickle that `run` makes after its own scan counts as owed.  The two are independent
of each other. -/
structure Reading where
  inTask : Bool
  ownTickle : Bool

/-- The worker will scan before it sleeps or runs another task (or, by the reading, has a tickle
to make).  Where it stands says so. -/
def Worker.awake (r : Reading) (x : Worker) : Bool :=
  match x.place with
  | .scanning | .ready _ | .rescheduled | .woken | .leaving => true
  | .running _ => r.inTask
  | .scanned _ tickleMe => tickleMe && r.ownTickle
  | .idling | .asleep | .ended => false

/-- The worker sleeps, or will without another scan or tickle.  A worker whose idle fiber has
ended leaves instead. -/
def Worker.bound (x : Worker) : Bool :=
  match x.place with
  | .scanned none false => !x.idleTerm
  | .idling | .asleep => true
  | _ => false

/-- The worker will be bound to sleep after the tickle it has to make.  That tickle may tell
others. -/
def Worker.boundNext (x : Worker) : Bool :=
  match x.place with
  | .scanned none true => !x.idleTerm
  | _ => false

/-- Some worker has the property.  It is given the thread and the worker. -/
def someWorker (s : Scheduler) (p : ThreadId → Worker → Bool) : Bool :=
  s.workers.zipIdx.any fun e => p e.2 e.1

/-- A byte, an owed tickle, or a worker that is awake.  Any of the three is enough. -/
def noticed (r : Reading) (s : Scheduler) : Bool :=
  0 < s.bytes || 0 < s.owed || s.someWorker fun _ x => x.awake r

/-- The same without worker `w`.  What it will do itself does not count. -/
def noticedBut (r : Reading) (w : ThreadId) (s : Scheduler) : Bool :=
  0 < s.bytes || 0 < s.owed || s.someWorker fun v x => v != w && x.awake r

/-- A worker bound to sleep may run one of the tasks.  By where it stands, and by the thread of
the task. -/
def missing (s : Scheduler) (tasks : List FiberAndThread) : Bool :=
  s.someWorker fun w x => x.bound && tasks.any (s.allowed w)

/-- **The law.**  A queued task that a worker asleep in `epoll_wait` may run is noticed.  It is
asked of every state. -/
def NoneStranded (r : Reading) (s : Scheduler) : Prop :=
  ∀ w x t, s.workers[w]? = some x → x.place = .asleep → t ∈ s.fibers → s.allowed w t = true →
    0 < s.bytes ∨ 0 < s.owed ∨ ∃ y ∈ s.workers, y.awake r = true

/-- The step takes the last notice of a task, or brings a task without notice, while a worker
bound to sleep may run it.  Nothing else can; each case is a condition on the state before the
step. -/
def loses (r : Reading) (s : Scheduler) : Step → Bool
  -- no `need_tickle`: the queue is not empty
  | .schedule thread fcs =>
    !s.fibers.isEmpty && !s.noticed r && s.missing (tasksOf thread fcs)
  -- `!hasIdleThreads()`
  | .tickle =>
    s.idleThreadCount == 0 && s.bytes == 0 && s.owed == 1 &&
      !(s.someWorker fun _ x => x.awake r) && s.missing s.fibers
  -- the fiber is not `EXEC` any more, and nobody scans
  | .back f =>
    !s.noticed r && !(s.workers.any (·.runs f)) && s.someWorker fun w x =>
      x.bound && s.fibers.any fun t => t.task == .fiber f && t.isFor w
  -- `!hasIdleThreads()`, for the tickle of `run`
  | .worker w .tickle =>
    s.idleThreadCount == 0 && !s.noticedBut r w && s.someWorker fun v x =>
      (x.bound || (v == w && x.boundNext)) && s.fibers.any (s.allowed v)
  -- what is left is for others, who are told after the scan
  | .worker w .scan =>
    !r.ownTickle && !s.noticedBut r w && s.someWorker fun v x =>
      v != w && x.bound && (s.scan w).rest.any (s.allowed v)
  | _ => false

/-- The steps that lose nothing.  The runs of the first half are made of them. -/
def keepingStep (r : Reading) (a : Step) (s : Scheduler) : Option Scheduler :=
  if s.loses r a then none else step a s

variable {r : Reading} {s s' : Scheduler} {w : ThreadId} {x x' : Worker}

/-! ### Reading the predicates -/

/-- Some worker has the property. -/
theorem someWorker_iff {p : ThreadId → Worker → Bool} :
    s.someWorker p = true ↔ ∃ w x, s.workers[w]? = some x ∧ p w x = true := by
  simp only [someWorker, List.any_eq_true, Prod.exists, List.mem_zipIdx_iff_getElem?]
  constructor
  · rintro ⟨x, w, hx, hp⟩
    exact ⟨w, x, hx, hp⟩
  · rintro ⟨w, x, hx, hp⟩
    exact ⟨x, w, hx, hp⟩

/-- The three notices. -/
theorem noticed_iff :
    s.noticed r = true ↔
      0 < s.bytes ∨ 0 < s.owed ∨ ∃ (w : ThreadId) (x : Worker), s.workers[w]? = some x ∧ x.awake r = true := by
  simp only [noticed, Bool.or_eq_true, decide_eq_true_iff, someWorker_iff, or_assoc]

/-- The three notices, without a worker's own. -/
theorem noticedBut_iff :
    s.noticedBut r w = true ↔
      0 < s.bytes ∨ 0 < s.owed ∨ ∃ (v : ThreadId) (x : Worker), s.workers[v]? = some x ∧ v ≠ w ∧ x.awake r = true := by
  simp only [noticedBut, Bool.or_eq_true, Bool.and_eq_true, decide_eq_true_iff, someWorker_iff,
    or_assoc, bne_iff_ne]

/-- A worker bound to sleep may run one of the tasks. -/
theorem missing_iff {tasks : List FiberAndThread} :
    s.missing tasks = true ↔
      ∃ (w : ThreadId) (x : Worker) (t : FiberAndThread), s.workers[w]? = some x ∧
        x.bound = true ∧ t ∈ tasks ∧ s.allowed w t = true := by
  simp only [missing, someWorker_iff, Bool.and_eq_true, List.any_eq_true]
  constructor
  · rintro ⟨w, x, hx, hbound, t, ht, hallowed⟩
    exact ⟨w, x, t, hx, hbound, ht, hallowed⟩
  · rintro ⟨w, x, t, hx, hbound, ht, hallowed⟩
    exact ⟨w, x, hx, hbound, t, ht, hallowed⟩

/-- A fiber executes on a worker or elsewhere. -/
theorem executing_iff {f : FiberId} :
    s.executing f = true ↔
      f ∈ s.elsewhere ∨ ∃ (w : ThreadId) (x : Worker), s.workers[w]? = some x ∧ x.runs f = true := by
  rw [executing, Bool.or_eq_true, List.contains_iff_mem, List.any_eq_true]
  refine or_congr_right ⟨?_, ?_⟩
  · rintro ⟨x, hx, hruns⟩
    obtain ⟨w, hw⟩ := List.mem_iff_getElem?.1 hx
    exact ⟨w, x, hw, hruns⟩
  · rintro ⟨w, x, hx, hruns⟩
    exact ⟨x, List.mem_of_getElem? hx, hruns⟩

/-- The invariant: what a worker bound to sleep may run is noticed.  It is stronger than the
law, which speaks of those asleep. -/
def Kept (r : Reading) (s : Scheduler) : Prop := s.missing s.fibers = true → s.noticed r = true

/-- The invariant gives the law. -/
theorem Kept.noneStranded (h : s.Kept r) : s.NoneStranded r := by
  intro w x t hx hasleep ht hallowed
  have hbound : x.bound = true := by rw [Worker.bound, hasleep]
  obtain hbytes | howed | ⟨v, y, hy, hawake⟩ :=
    noticed_iff.1 (h (missing_iff.2 ⟨w, x, t, hx, hbound, ht, hallowed⟩))
  · exact Or.inl hbytes
  · exact Or.inr (Or.inl howed)
  · exact Or.inr (Or.inr ⟨y, List.mem_of_getElem? hy, hawake⟩)

/-! ### One worker moves -/

/-- The workers after one of them changed.  The others are the same. -/
theorem getElem?_of_set (hset : s'.workers = s.workers.set w x') (hx : s.workers[w]? = some x)
    (v : ThreadId) : s'.workers[v]? = if v = w then some x' else s.workers[v]? := by
  obtain ⟨hw, -⟩ := List.getElem?_eq_some_iff.1 hx
  rw [hset, List.getElem?_set]
  split_ifs with h₁ h₂ h₂
  · rfl
  · exact absurd h₁.symm h₂
  · exact absurd h₂.symm h₁
  · rfl

/-- A worker that is awake is a notice. -/
theorem noticed_of_awake (hset : s'.workers = s.workers.set w x') (hx : s.workers[w]? = some x)
    (hawake : x'.awake r = true) : s'.noticed r = true :=
  noticed_iff.2 (Or.inr (Or.inr ⟨w, x', by rw [getElem?_of_set hset hx, if_pos rfl], hawake⟩))

/-- While the other workers stay, their notices stay.  The worker that moved counts as it is
now. -/
theorem noticed_set_iff (hset : s'.workers = s.workers.set w x') (hx : s.workers[w]? = some x)
    (hbytes : s'.bytes = s.bytes) (howed : s'.owed = s.owed) :
    s'.noticed r = true ↔ s.noticedBut r w = true ∨ x'.awake r = true := by
  rw [noticed_iff, noticedBut_iff, hbytes, howed]
  constructor
  · rintro (h | h | ⟨v, y, hy, hawake⟩)
    · exact Or.inl (Or.inl h)
    · exact Or.inl (Or.inr (Or.inl h))
    · rw [getElem?_of_set hset hx] at hy
      split_ifs at hy with hv
      · cases hy
        exact Or.inr hawake
      · exact Or.inl (Or.inr (Or.inr ⟨v, y, hy, hv, hawake⟩))
  · rintro ((h | h | ⟨v, y, hy, hv, hawake⟩) | hawake)
    · exact Or.inl h
    · exact Or.inr (Or.inl h)
    · exact Or.inr (Or.inr ⟨v, y, by rw [getElem?_of_set hset hx, if_neg hv, hy], hawake⟩)
    · exact Or.inr (Or.inr ⟨w, x', by rw [getElem?_of_set hset hx, if_pos rfl], hawake⟩)

/-- A worker that leaves no fiber leaves the same fibers executing, and its own.  What it is in
now executes as well. -/
theorem executing_set_iff (hset : s'.workers = s.workers.set w x') (hx : s.workers[w]? = some x)
    (helsewhere : s'.elsewhere = s.elsewhere) (hruns : ∀ f, x.runs f = false) (f : FiberId) :
    s'.executing f = true ↔ s.executing f = true ∨ x'.runs f = true := by
  rw [executing_iff, executing_iff, helsewhere, or_assoc]
  refine or_congr_right ⟨?_, ?_⟩
  · rintro ⟨v, y, hy, hyf⟩
    rw [getElem?_of_set hset hx] at hy
    split_ifs at hy with hv
    · cases hy
      exact Or.inr hyf
    · exact Or.inl ⟨v, y, hy, hyf⟩
  · rintro (⟨v, y, hy, hyf⟩ | hyf)
    · have hv : v ≠ w := by
        rintro rfl
        rw [hx, Option.some_inj] at hy
        rw [← hy, hruns] at hyf
        cases hyf
      exact ⟨v, y, by rw [getElem?_of_set hset hx, if_neg hv, hy], hyf⟩
    · exact ⟨w, x', by rw [getElem?_of_set hset hx, if_pos rfl], hyf⟩

/-- What more executing fibers allow, fewer allow.  Only a fiber that executes is passed over. -/
theorem allowed_of_executing {t : FiberAndThread} (h : s'.allowed w t = true)
    (hexec : ∀ f, s.executing f = true → s'.executing f = true) : s.allowed w t = true := by
  rw [allowed, Bool.and_eq_true, Bool.not_eq_true'] at h ⊢
  refine ⟨h.1, ?_⟩
  obtain ⟨task, thread⟩ := t
  cases task with
  | cb => rfl
  | fiber f => exact Bool.eq_false_iff.2 fun hf => Bool.eq_false_iff.1 h.2 (hexec f hf)

/-- The worker will scan before it sleeps or runs another task, by every reading.  It is awake
in the narrowest sense. -/
def Worker.up (x : Worker) : Bool :=
  match x.place with
  | .scanning | .ready _ | .rescheduled | .woken | .leaving => true
  | _ => false

/-- Such a worker is awake by every reading. -/
theorem Worker.awake_of_up (h : x.up = true) : x.awake r = true := by
  rw [Worker.up] at h
  rw [Worker.awake]
  split at h <;> simp_all

/-- What a move does, if it is not a scan or the tickle after it, in four cases: the worker is
up after it, or was, or nothing changes for the notices. -/
theorem move_cases {m : Move} (hscan : m ≠ .scan) (htickle : m ≠ .tickle)
    (h : s.move w x m = some s') :
    (∃ x', s'.workers = s.workers.set w x' ∧ x'.up = true) ∨
    (x.up = true ∧ s' = { s with bytes := 0 }) ∨
    ∃ x', s'.workers = s.workers.set w x' ∧ s'.fibers = s.fibers ∧ s'.bytes = s.bytes ∧
      s'.owed = s.owed ∧ s'.elsewhere = s.elsewhere ∧ (∀ r, x.awake r = false) ∧
      (∀ f, x.runs f = false) ∧ (x'.bound = true → x.bound = true) := by
  cases m <;> rw [move] at h
  case scan => exact absurd rfl hscan
  case tickle => exact absurd rfl htickle
  case resume cbFiber =>
      split at h
      · next t hp =>
          dsimp only at h
          split_ifs at h
          cases h
          exact Or.inr (Or.inr ⟨_, rfl, rfl, rfl, rfl, rfl,
            fun r => by simp [Worker.awake, hp], fun f => by simp [Worker.runs, hp], nofun⟩)
      · cases h
  case exit =>
      split at h
      · next hp =>
          split_ifs at h
          cases h
          exact Or.inr (Or.inr ⟨_, rfl, rfl, rfl, rfl, rfl,
            fun r => by simp [Worker.awake, hp], fun f => by simp [Worker.runs, hp], nofun⟩)
      · cases h
  case goIdle =>
      split at h
      · next hp =>
          split_ifs at h with hterm
          cases h
          exact Or.inr (Or.inr ⟨_, rfl, rfl, rfl, rfl, rfl,
            fun r => by simp [Worker.awake, hp], fun f => by simp [Worker.runs, hp],
            fun _ => by simp [Worker.bound, hp, hterm]⟩)
      · cases h
  case sleep =>
      split at h
      · next hp =>
          cases h
          exact Or.inr (Or.inr ⟨_, rfl, rfl, rfl, rfl, rfl,
            fun r => by simp [Worker.awake, hp], fun f => by simp [Worker.runs, hp],
            fun _ => by simp [Worker.bound, hp]⟩)
      · cases h
  case drain =>
      split at h
      · next hp =>
          cases h
          exact Or.inr (Or.inl ⟨by rw [Worker.up, hp], rfl⟩)
      · cases h
  case reschedule =>
      split at h
      · cases h
        refine Or.inl ⟨_, rfl, ?_⟩
        cases s.fibers <;> rfl
      · cases h
  case idleEnds =>
      split at h
      · split_ifs at h
        cases h
        exact Or.inl ⟨_, rfl, rfl⟩
      · cases h
  case rescheduleTickle =>
      split at h
      · cases h
        exact Or.inl ⟨{ x with place := .scanning }, by simp only [goto, workers_tickle], rfl⟩
      · cases h
  all_goals
    split at h
    · cases h
      exact Or.inl ⟨_, rfl, rfl⟩
    · cases h

/-- While the same fibers execute, the same tasks are allowed. -/
theorem allowed_congr (h : ∀ f, s'.executing f = s.executing f) : s'.allowed = s.allowed := by
  funext w t
  rw [allowed, allowed, funext h]

/-- The invariant fails where a task is missing and nothing is noticed. -/
theorem not_kept_iff : ¬s.Kept r ↔ s.missing s.fibers = true ∧ s.noticed r = false := by
  rw [Kept, Classical.not_imp, Bool.not_eq_true]

/-- A move loses notices only as a scan, or as the tickle after it.  The others are done by
workers that are up, or change nothing. -/
theorem loses_move {m : Move} (hscan : m ≠ .scan) (htickle : m ≠ .tickle) :
    s.loses r (.worker w m) = false := by
  cases m with
  | scan => exact absurd rfl hscan
  | tickle => exact absurd rfl htickle
  | _ => rfl

/-- What a scan changes.  Only the worker and the queue. -/
theorem move_scan (h : s.move w x .scan = some s') :
    x.place = .scanning ∧
      s'.workers = s.workers.set w
        { x with place := .scanned (s.scan w).ft (s.scan w).tickleMe } ∧
      s'.fibers = (s.scan w).rest ∧ s'.bytes = s.bytes ∧ s'.owed = s.owed ∧
      s'.elsewhere = s.elsewhere := by
  rw [move] at h
  split at h
  · next hp =>
      cases h
      exact ⟨hp, rfl, rfl, rfl, rfl, rfl⟩
  · cases h

/-- What the tickle after a scan changes.  The pipe, if some thread is counted idle. -/
theorem move_tickle (h : s.move w x .tickle = some s') :
    ∃ ft, x.place = .scanned ft true ∧
      s'.workers = s.workers.set w { x with place := .scanned ft false } ∧
      s'.fibers = s.fibers ∧ s'.bytes = s.tickle.bytes ∧ s'.owed = s.owed ∧
      s'.elsewhere = s.elsewhere := by
  rw [move] at h
  split at h
  · next ft hp =>
      cases h
      exact ⟨ft, hp, by simp only [goto, workers_tickle], fibers_tickle s, rfl, owed_tickle s,
        elsewhere_tickle s⟩
  · cases h

/-! ### What the steps keep -/

/-- Who is bound to sleep and may run what depends on the workers and the fibers.  The queue
does not matter. -/
theorem missing_congr (hworkers : s'.workers = s.workers) (helsewhere : s'.elsewhere = s.elsewhere)
    (tasks : List FiberAndThread) : s'.missing tasks = s.missing tasks := by
  have hexec : s'.executing = s.executing := by
    funext f
    rw [executing, executing, hworkers, helsewhere]
  rw [missing, missing, someWorker, someWorker, hworkers, allowed_congr (congrFun hexec)]

/-- A worker may run one of the tasks of two lists. -/
theorem missing_append (tasks tasks' : List FiberAndThread) :
    s.missing (tasks ++ tasks') = true ↔ s.missing tasks = true ∨ s.missing tasks' = true := by
  rw [missing_iff, missing_iff, missing_iff]
  constructor
  · rintro ⟨w, x, t, hx, hbound, ht, hallowed⟩
    rcases List.mem_append.1 ht with ht | ht
    · exact Or.inl ⟨w, x, t, hx, hbound, ht, hallowed⟩
    · exact Or.inr ⟨w, x, t, hx, hbound, ht, hallowed⟩
  · rintro (⟨w, x, t, hx, hbound, ht, hallowed⟩ | ⟨w, x, t, hx, hbound, ht, hallowed⟩)
    · exact ⟨w, x, t, hx, hbound, List.mem_append_left _ ht, hallowed⟩
    · exact ⟨w, x, t, hx, hbound, List.mem_append_right _ ht, hallowed⟩

/-- A move that is no notice before, and leaves everything else, keeps the invariant. -/
theorem kept_of_quiet (hkept : s.Kept r) (hset : s'.workers = s.workers.set w x')
    (hx : s.workers[w]? = some x) (hfibers : s'.fibers = s.fibers) (hbytes : s'.bytes = s.bytes)
    (howed : s'.owed = s.owed) (helsewhere : s'.elsewhere = s.elsewhere)
    (hawake : x.awake r = false) (hruns : ∀ f, x.runs f = false)
    (hbound : x'.bound = true → x.bound = true) : s'.Kept r := by
  intro hmissing
  have hexec : ∀ f, s.executing f = true → s'.executing f = true := fun f hf =>
    (executing_set_iff hset hx helsewhere hruns f).2 (Or.inl hf)
  obtain ⟨v, y, t, hy, hybound, ht, hallowed⟩ := missing_iff.1 hmissing
  have hbefore : s.missing s.fibers = true := by
    rw [getElem?_of_set hset hx] at hy
    rw [hfibers] at ht
    split_ifs at hy with hv
    · cases hy
      exact missing_iff.2 ⟨w, x, t, hx, hbound hybound, ht, hv ▸ allowed_of_executing hallowed hexec⟩
    · exact missing_iff.2 ⟨v, y, t, hy, hybound, ht, allowed_of_executing hallowed hexec⟩
  refine (noticed_set_iff hset hx hbytes howed).2 (Or.inl (noticedBut_iff.2 ?_))
  obtain h | h | ⟨v, y, hy, hyawake⟩ := noticed_iff.1 (hkept hbefore)
  · exact Or.inl h
  · exact Or.inr (Or.inl h)
  · refine Or.inr (Or.inr ⟨v, y, hy, ?_, hyawake⟩)
    rintro rfl
    rw [hx, Option.some_inj] at hy
    rw [← hy, hawake] at hyawake
    cases hyawake

/-- Who may run one of the tasks, when one worker changes. -/
theorem missing_set_iff (hset : s'.workers = s.workers.set w x') (hx : s.workers[w]? = some x)
    (hallowed : s'.allowed = s.allowed) {tasks : List FiberAndThread} :
    s'.missing tasks = true ↔
      (∃ (v : ThreadId) (y : Worker), s.workers[v]? = some y ∧ v ≠ w ∧ y.bound = true ∧
        tasks.any (s.allowed v) = true) ∨ x'.bound = true ∧ tasks.any (s.allowed w) = true := by
  rw [missing, someWorker_iff, hallowed]
  simp only [Bool.and_eq_true]
  constructor
  · rintro ⟨v, y, hy, hbound, htasks⟩
    rw [getElem?_of_set hset hx] at hy
    split_ifs at hy with hv
    · cases hy
      exact Or.inr ⟨hbound, hv ▸ htasks⟩
    · exact Or.inl ⟨v, y, hy, hv, hbound, htasks⟩
  · rintro (⟨v, y, hy, hv, hbound, htasks⟩ | ⟨hbound, htasks⟩)
    · exact ⟨v, y, by rw [getElem?_of_set hset hx, if_neg hv, hy], hbound, htasks⟩
    · exact ⟨w, x', by rw [getElem?_of_set hset hx, if_pos rfl], hbound, htasks⟩

/-- A worker that goes from no fiber to no fiber leaves the same fibers executing.  So the same
tasks are allowed. -/
theorem allowed_set (hset : s'.workers = s.workers.set w x') (hx : s.workers[w]? = some x)
    (helsewhere : s'.elsewhere = s.elsewhere) (hruns : ∀ f, x.runs f = false)
    (hruns' : ∀ f, x'.runs f = false) : s'.allowed = s.allowed :=
  allowed_congr fun f => Bool.eq_iff_iff.2 <|
    (executing_set_iff hset hx helsewhere hruns f).trans (by rw [hruns', Bool.false_eq_true, or_false])

/-- A scan keeps the notices, unless only others may run what it leaves and its tickle does not
count.  The condition is the one of `loses`. -/
theorem kept_scan_iff (hx : s.workers[w]? = some x) (h : s.move w x .scan = some s') :
    s'.Kept r ↔ s.loses r (.worker w .scan) = false := by
  obtain ⟨hp, hset, hfibers, hbytes, howed, helsewhere⟩ := move_scan h
  have hallowed := allowed_set hset hx helsewhere (fun f => by rw [Worker.runs, hp]) fun f => rfl
  rw [← not_iff_not, not_kept_iff, Bool.not_eq_false, loses, hfibers,
    missing_set_iff hset hx hallowed, ← Bool.not_eq_true,
    noticed_set_iff hset hx hbytes howed, Bool.and_eq_true, Bool.and_eq_true, Bool.not_eq_true',
    Bool.not_eq_true', someWorker_iff]
  simp only [Bool.and_eq_true, bne_iff_ne, Worker.awake]
  -- without `tickle_me` what is left is executing
  have hquiet : (s.scan w).tickleMe = false → ∀ v, (s.scan w).rest.any (s.allowed v) = false := by
    intro hme v
    rw [List.any_eq_false]
    intro t ht
    rw [allowed, scan_quiet hme t ht, Bool.not_true, Bool.and_false]
    exact Bool.false_ne_true
  constructor
  · rintro ⟨hmissing, hnone⟩
    have hme : (s.scan w).tickleMe = true := by
      refine Bool.of_not_eq_false fun hme => ?_
      rcases hmissing with ⟨v, y, -, -, -, hany⟩ | ⟨-, hany⟩ <;> rw [hquiet hme] at hany <;> cases hany
    rw [not_or, hme, eq_self, true_and, Bool.not_eq_true, Bool.not_eq_true] at hnone
    rcases hmissing with ⟨v, y, hy, hv, hbound, hany⟩ | ⟨hbound, -⟩
    · exact ⟨⟨hnone.2, hnone.1⟩, v, y, hy, ⟨hv, hbound⟩, hany⟩
    · rw [Worker.bound, hme] at hbound
      cases hft : (s.scan w).ft <;> rw [hft] at hbound <;> cases hbound
  · rintro ⟨⟨hown, hnone⟩, v, y, hy, ⟨hv, hbound⟩, hany⟩
    refine ⟨Or.inl ⟨v, y, hy, hv, hbound, hany⟩, ?_⟩
    rw [hown, hnone]
    simp

/-- The tickle after a scan keeps the notices, unless no thread is counted idle.  The condition
is the one of `loses`. -/
theorem kept_tickle_iff (hx : s.workers[w]? = some x) (h : s.move w x .tickle = some s') :
    s'.Kept r ↔ s.loses r (.worker w .tickle) = false := by
  obtain ⟨ft, hp, hset, hfibers, hbytes, howed, helsewhere⟩ := move_tickle h
  have hallowed := allowed_set hset hx helsewhere (fun f => by rw [Worker.runs, hp]) fun f => rfl
  by_cases hidle : s.idleThreadCount = 0
  · rw [tickle_of_none hidle] at hbytes
    rw [← not_iff_not, not_kept_iff, Bool.not_eq_false, loses, hfibers,
      missing_set_iff hset hx hallowed, ← Bool.not_eq_true,
      noticed_set_iff hset hx hbytes howed, hidle, beq_self_eq_true, Bool.true_and,
      Bool.and_eq_true, Bool.not_eq_true', someWorker_iff, and_comm]
    simp only [Bool.and_eq_true, Bool.or_eq_true, beq_iff_eq, Worker.awake, Bool.false_and,
      Bool.false_eq_true, or_false, Bool.not_eq_true]
    refine and_congr_right fun _ => ⟨?_, ?_⟩
    · rintro (⟨v, y, hy, -, hbound, hany⟩ | ⟨hbound, hany⟩)
      · exact ⟨v, y, hy, Or.inl hbound, hany⟩
      · refine ⟨w, x, hx, Or.inr ⟨rfl, ?_⟩, hany⟩
        rw [Worker.boundNext, hp]
        cases ft with
        | none => exact hbound
        | some t => cases hbound
    · rintro ⟨v, y, hy, hbound | ⟨rfl, hbound⟩, hany⟩
      · refine Or.inl ⟨v, y, hy, ?_, hbound, hany⟩
        rintro rfl
        rw [hx, Option.some_inj] at hy
        rw [← hy, Worker.bound, hp] at hbound
        cases ft <;> cases hbound
      · rw [hx, Option.some_inj] at hy
        refine Or.inr ⟨?_, hany⟩
        rw [← hy, Worker.boundNext, hp] at hbound
        cases ft with
        | none => exact hbound
        | some t => cases hbound
  · have hnotice : s'.noticed r = true :=
      noticed_iff.2 (Or.inl (hbytes ▸ bytes_tickle_pos hidle))
    refine iff_of_true (fun _ => hnotice) ?_
    rw [loses, beq_false_of_ne hidle, Bool.false_and, Bool.false_and]

/-- A push keeps the notices, unless it is silent and nothing else tells a worker that may run
one of the tasks. -/
theorem kept_schedule_iff (hkept : s.Kept r) {thread : Option ThreadId}
    {fcs : List (Option FiberOrCb)} (h : step (.schedule thread fcs) s = some s') :
    s'.Kept r ↔ s.loses r (.schedule thread fcs) = false := by
  rw [step, scheduleLocked_eq] at h
  split_ifs at h
  rw [Option.some_inj] at h
  have hfibers : s'.fibers = s.fibers ++ tasksOf thread fcs := by rw [← h]
  have howed : s'.owed = s.owed + (s.fibers.isEmpty && !fcs.isEmpty).toNat := by rw [← h]
  have hmissing := missing_congr (by rw [← h] : s'.workers = s.workers) (by rw [← h])
  have hnoticed : s'.noticed r = true ↔ s.noticed r = true ∨ (s.fibers.isEmpty && !fcs.isEmpty) := by
    rw [noticed_iff, noticed_iff, howed, ← h]
    cases s.fibers.isEmpty && !fcs.isEmpty with
    | false => simp
    | true => simp
  rw [← not_iff_not, not_kept_iff, Bool.not_eq_false, loses, hfibers, hmissing, missing_append,
    ← Bool.not_eq_true, hnoticed]
  simp only [Bool.and_eq_true, Bool.not_eq_true', not_or, Bool.not_eq_true]
  constructor
  · rintro ⟨hfound | hfound, hnone, hsilent⟩
    · rw [hkept hfound] at hnone
      cases hnone
    · refine ⟨⟨Bool.eq_false_iff.2 fun hqueue => hsilent ⟨hqueue, ?_⟩, hnone⟩, hfound⟩
      cases fcs with
      | nil => simp [missing_iff, tasksOf] at hfound
      | cons fc fcs => rfl
  · rintro ⟨⟨hqueue, hnone⟩, hfound⟩
    refine ⟨Or.inr hfound, hnone, fun hneed => ?_⟩
    rw [hqueue] at hneed
    cases hneed.1

/-- The tickle of a `schedule` keeps the notices, unless it is the last one and no thread is
counted idle.  A worker that is awake is enough, too. -/
theorem kept_owed_iff (h : step .tickle s = some s') :
    s'.Kept r ↔ s.loses r .tickle = false := by
  rw [step] at h
  split_ifs at h with howed
  rw [Option.some_inj] at h
  by_cases hidle : s.idleThreadCount = 0
  · rw [tickle_of_none hidle] at h
    have hmissing := missing_congr (by rw [← h] : s'.workers = s.workers) (by rw [← h]) s.fibers
    have hlast : 0 < s.owed - 1 ↔ s.owed ≠ 1 := by omega
    rw [← not_iff_not, not_kept_iff, Bool.not_eq_false, loses, show s'.fibers = s.fibers by rw [← h],
      hmissing, hidle, beq_self_eq_true, Bool.true_and, noticed, ← h]
    simp only [Bool.and_eq_true, Bool.not_eq_true', Bool.or_eq_false_iff, decide_eq_false_iff_not,
      beq_iff_eq, hlast, ne_eq, not_not, Nat.pos_iff_ne_zero, and_assoc]
    rw [and_comm, and_assoc, and_assoc]
    rfl
  · have hnotice : s'.noticed r = true := by
      rw [← h]
      exact noticed_iff.2 (Or.inl (bytes_tickle_pos hidle))
    refine iff_of_true (fun _ => hnotice) ?_
    rw [loses, beq_false_of_ne hidle]
    simp only [Bool.false_and]

/-- A fiber that comes back elsewhere keeps the notices, unless it waits in the queue and
nothing tells a worker that may run it.  Nobody pushes it then. -/
theorem kept_back_iff (hkept : s.Kept r) {f : FiberId} (h : step (.back f) s = some s') :
    s'.Kept r ↔ s.loses r (.back f) = false := by
  rw [step, Option.some_inj] at h
  have hworkers : s'.workers = s.workers := by rw [← h]
  have hfibers : s'.fibers = s.fibers := by rw [← h]
  have helsewhere : ∀ g, g ∈ s'.elsewhere ↔ g ∈ s.elsewhere ∧ g ≠ f := by
    intro g
    rw [← h, List.mem_filter, bne_iff_ne]
  have hnoticed : s'.noticed r = s.noticed r := by rw [noticed, noticed, ← h]; rfl
  have hother : ∀ g, g ≠ f → s'.executing g = s.executing g := by
    intro g hg
    rw [Bool.eq_iff_iff, executing_iff, executing_iff, helsewhere, hworkers, and_iff_left hg]
  have hself : s'.executing f = s.workers.any (·.runs f) := by
    rw [executing, hworkers, ← h]
    simp
  rw [← not_iff_not, not_kept_iff, Bool.not_eq_false, loses, hnoticed, hfibers, missing_iff,
    hworkers]
  simp only [Bool.and_eq_true, Bool.not_eq_true', someWorker_iff, List.any_eq_true, beq_iff_eq]
  constructor
  · rintro ⟨⟨w, x, ⟨task, thread⟩, hx, hbound, ht, hallowed⟩, hnone⟩
    by_cases htask : task = .fiber f
    · subst htask
      rw [allowed, Bool.and_eq_true, Bool.not_eq_true'] at hallowed
      exact ⟨⟨hnone, hself ▸ hallowed.2⟩, w, x, hx, hbound, _, ht, rfl, hallowed.1⟩
    · have hbefore : s.allowed w ⟨task, thread⟩ = true := by
        cases task with
        | cb => exact hallowed
        | fiber g =>
            rw [allowed, isExec_fiber] at hallowed ⊢
            rwa [← hother g fun hg => htask (hg ▸ rfl)]
      rw [hkept (missing_iff.2 ⟨w, x, _, hx, hbound, ht, hbefore⟩)] at hnone
      cases hnone
  · rintro ⟨⟨hnone, hidle⟩, w, x, hx, hbound, ⟨task, thread⟩, ht, rfl, hfor⟩
    refine ⟨⟨w, x, _, hx, hbound, ht, ?_⟩, hnone⟩
    rw [allowed, hfor, isExec_fiber, hself, hidle]
    rfl

/-- **A step keeps the notices if and only if it loses none.**  By cases on the step. -/
theorem kept_step_iff (hkept : s.Kept r) {a : Step} (h : step a s = some s') :
    s'.Kept r ↔ s.loses r a = false := by
  cases a with
  | schedule thread fcs => exact kept_schedule_iff hkept h
  | tickle => exact kept_owed_iff h
  | back f => exact kept_back_iff hkept h
  | worker w m =>
      rw [step, Option.bind_eq_some_iff] at h
      obtain ⟨x, hx, h⟩ := h
      by_cases hscan : m = .scan
      · subst hscan
        exact kept_scan_iff hx h
      by_cases htickle : m = .tickle
      · subst htickle
        exact kept_tickle_iff hx h
      refine iff_of_true ?_ (loses_move hscan htickle)
      obtain ⟨x', hset, hup⟩ | ⟨hup, rfl⟩ | ⟨x', hset, hfibers, hbytes, howed, helsewhere,
        hawake, hruns, hbound⟩ := move_cases hscan htickle h
      · exact fun _ => noticed_of_awake hset hx (Worker.awake_of_up hup)
      · exact fun _ => noticed_iff.2 (Or.inr (Or.inr ⟨w, x, hx, Worker.awake_of_up hup⟩))
      · exact kept_of_quiet hkept hset hx hfibers hbytes howed helsewhere (hawake r) hruns hbound
  | enter =>
      cases h
      exact iff_of_true (fun _ => noticed_iff.2 (Or.inr (Or.inr ⟨s.workers.length,
        ⟨.scanning, false⟩, List.getElem?_concat_length, rfl⟩))) rfl
  | poke =>
      cases h
      refine iff_of_true (fun hmissing => ?_) rfl
      rw [missing_congr (workers_tickle s) (elsewhere_tickle s), fibers_tickle] at hmissing
      have hbytes : s.bytes ≤ s.tickle.bytes := by
        rw [tickle]
        split
        · exact Nat.le_refl _
        · exact Nat.le_succ _
      rw [noticed_iff, owed_tickle, workers_tickle]
      exact (noticed_iff.1 (hkept hmissing)).imp_left fun h => Nat.lt_of_lt_of_le h hbytes
  | stop =>
      cases h
      exact iff_of_true hkept rfl
  | away f =>
      rw [step] at h
      split_ifs at h
      cases h
      refine iff_of_true (fun hmissing => ?_) rfl
      obtain ⟨w, x, t, hx, hbound, ht, hallowed⟩ := missing_iff.1 hmissing
      refine hkept (missing_iff.2 ⟨w, x, t, hx, hbound, ht, allowed_of_executing hallowed ?_⟩)
      intro g hg
      exact executing_iff.2 ((executing_iff.1 hg).imp_left (List.mem_cons_of_mem f))

/-- It holds where there are no workers. -/
theorem init_kept (r : Reading) : init.Kept r := fun h => absurd h Bool.false_ne_true

/-! ### From a lost notice to a stranded task -/

/-- A queued task that worker `w` may run, and nothing tells it.  Where the worker is bound to
sleep the task is as good as stranded. -/
structure Lost (r : Reading) (w : ThreadId) (t : FiberAndThread) (s : Scheduler) : Prop where
  mem : t ∈ s.fibers
  allowed : s.allowed w t = true
  noticed : s.noticed r = false

/-- A step of another worker that notices nothing leaves it so. -/
theorem Lost.of_set {t : FiberAndThread} (h : s.Lost r w t)
    (hset : s'.workers = s.workers.set w x') (hx : s.workers[w]? = some x)
    (hfibers : s'.fibers = s.fibers) (hbytes : s'.bytes = s.bytes) (howed : s'.owed = s.owed)
    (helsewhere : s'.elsewhere = s.elsewhere) (hawake : x'.awake r = false)
    (hruns : ∀ f, x.runs f = false) (hruns' : ∀ f, x'.runs f = false) : s'.Lost r w t := by
  refine ⟨hfibers ▸ h.mem, ?_, ?_⟩
  · rw [allowed_set hset hx helsewhere hruns hruns']
    exact h.allowed
  · rw [← Bool.not_eq_true, noticed_set_iff hset hx hbytes howed, hawake]
    rintro (hbut | hfalse)
    · have hnotice : s.noticed r = true :=
        noticed_iff.2 <| (noticedBut_iff.1 hbut).imp_right <| Or.imp_right
          fun ⟨v, y, hy, _, hyawake⟩ => ⟨v, y, hy, hyawake⟩
      rw [h.noticed] at hnotice
      cases hnotice
    · cases hfalse

/-- Once the worker is asleep the law is broken. -/
theorem Lost.not_noneStranded {t : FiberAndThread} (h : s.Lost r w t)
    (hx : s.workers[w]? = some x) (hp : x.place = .asleep) : ¬s.NoneStranded r := by
  intro hnone
  have hnotice : s.noticed r = true := by
    obtain hbytes | howed | ⟨y, hy, hawake⟩ := hnone w x t hx hp h.mem h.allowed
    · exact noticed_iff.2 (Or.inl hbytes)
    · exact noticed_iff.2 (Or.inr (Or.inl howed))
    · obtain ⟨v, hv⟩ := List.mem_iff_getElem?.1 hy
      exact noticed_iff.2 (Or.inr (Or.inr ⟨v, y, hv, hawake⟩))
  rw [h.noticed] at hnotice
  cases hnotice

/-- The state after `epoll_wait` is entered.  The worker is in the idle fiber already. -/
theorem Lost.exists_of_idling {t : FiberAndThread} (h : s.Lost r w t)
    (hx : s.workers[w]? = some x) (hp : x.place = .idling) :
    ∃ s', Reachable step s s' ∧ ¬s'.NoneStranded r := by
  have hstep : step (.worker w .sleep) s = some (s.goto w x .asleep) := by
    rw [step, hx, Option.bind_some, move, hp]
  have hset : (s.goto w x .asleep).workers = s.workers.set w { x with place := .asleep } := rfl
  have hlost := h.of_set hset hx rfl rfl rfl rfl rfl (fun f => by rw [Worker.runs, hp]) fun f => rfl
  have hasleep := (getElem?_of_set hset hx w).trans (if_pos rfl)
  exact ⟨_, Reachable.init.step _ hstep, hlost.not_noneStranded hasleep rfl⟩

/-- A worker bound to sleep can fall asleep before anything else happens, and a task it may run
is stranded.  It takes at most two of its steps. -/
theorem exists_stranded (h : ¬s.Kept r) : ∃ s', Reachable step s s' ∧ ¬s'.NoneStranded r := by
  obtain ⟨hmissing, hnone⟩ := not_kept_iff.1 h
  obtain ⟨w, x, t, hx, hbound, ht, hallowed⟩ := missing_iff.1 hmissing
  have hlost : s.Lost r w t := ⟨ht, hallowed, hnone⟩
  rw [Worker.bound] at hbound
  split at hbound
  · next hp =>
      rw [Bool.not_eq_true'] at hbound
      set s₁ := { s.goto w x .idling with idleThreadCount := s.idleThreadCount + 1 } with hs₁
      have hstep : step (.worker w .goIdle) s = some s₁ := by
        rw [step, hx, Option.bind_some, move, hp]
        simp [hbound, hs₁]
      have hset : s₁.workers = s.workers.set w { x with place := .idling } := rfl
      have hlost₁ := hlost.of_set hset hx rfl rfl rfl rfl rfl (fun f => by rw [Worker.runs, hp])
        fun f => rfl
      obtain ⟨s', hs', hstranded⟩ :=
        hlost₁.exists_of_idling ((getElem?_of_set hset hx w).trans (if_pos rfl)) rfl
      exact ⟨s', (Reachable.init.step _ hstep).trans hs', hstranded⟩
  · next hp => exact hlost.exists_of_idling hx hp
  · next hp => exact ⟨s, Reachable.init, hlost.not_noneStranded hx hp⟩
  · cases hbound

/-- **A task is stranded only by a step that loses its notice.**  As long as no step loses the
last notice of a task that a worker bound to sleep may run, no state strands a task; once a step
does, a state that strands one can follow.  The second half is for every step that loses a
notice in a run which lost none before.  The notice is `IOManager::tickle`
(`src/hiper/base/iomanager.cc:338`), which writes nothing while `idle_thread_count_` is 0; a
worker that has left its scan (`scheduler.cc:192-220`) counts itself in line 275 only, and what
is pushed in between is announced to nobody. -/
theorem stranded_only_by_loss (r : Reading) :
    (∀ s, Reachable (keepingStep r) init s → s.NoneStranded r) ∧
      ∀ s a s', Reachable (keepingStep r) init s → step a s = some s' → s.loses r a = true →
        ∃ s'', Reachable step s' s'' ∧ ¬s''.NoneStranded r := by
  have hkept : ∀ s, Reachable (keepingStep r) init s → s.Kept r := by
    intro s hs
    refine Reachable.invariant (init_kept r) ?_ hs
    intro s s' a hkept hstep
    rw [keepingStep] at hstep
    split_ifs at hstep with hloses
    exact (kept_step_iff hkept hstep).2 (Bool.eq_false_iff.2 hloses)
  refine ⟨fun s hs => (hkept s hs).noneStranded, fun s a s' hs hstep hloses => ?_⟩
  refine exists_stranded fun hkept' => ?_
  rw [(kept_step_iff (hkept s hs) hstep).1 hkept'] at hloses
  cases hloses

/-- **A push between the scan and the sleep strands its task.**  The only worker
scans an empty queue; a callback is scheduled, and the tickle finds no thread
counted idle; the worker goes idle and falls asleep. -/
theorem push_between_scan_and_idle_strands :
    ∃ s, Reachable step init s ∧ ∀ r, ¬s.NoneStranded r := by
  have hrun : run step [.enter, .worker 0 .scan, .schedule none [some .cb], .tickle,
      .worker 0 .goIdle, .worker 0 .sleep] init =
      some ⟨[⟨.cb, none⟩], 0, 1, false, 0, 0, [⟨.asleep, false⟩], []⟩ := by decide
  refine ⟨_, Reachable.init.run hrun, fun r h => ?_⟩
  obtain h | h | ⟨y, hy, hawake⟩ := h 0 _ _ rfl rfl (List.mem_singleton_self _) rfl
  · exact absurd h (by decide)
  · exact absurd h (by decide)
  · rw [List.mem_singleton.1 hy] at hawake
    cases hawake

end Hiper.Scheduler

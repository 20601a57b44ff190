import Hiper.Scheduler.HandOut

/-!
# Pinned tasks

`schedule(fc, t)` with a thread other than −1 pins a task to that thread: the queue
has the thread beside the task, and the scan of another worker passes it over.  The
pin is in the queue only.  When a fiber is back from `resume` in state `READY`,
`run` schedules it again without a thread, and likewise the fiber of a callback.

A task is what one call of `schedule` gave; what `run` puts back is the task that
its worker took.  With the pins followed through the runs (`Pinning`), a pinned task
is taken, and may be taken, only by the worker it is pinned to in the runs in which
`run` puts no pinned task back, and in no other (`pins_kept_iff`).

The pin is `FiberAndThread::thread_id` (`src/hiper/base/scheduler.h:99-107`), the two calls
that put back are `src/hiper/base/scheduler.cc:232` and `:254`, which leave the second
argument of `schedule` at its default.  Calls of `schedule` by others, for the same fiber
too, are tasks of their own with pins of their own.
-/

namespace Hiper.Scheduler.Pool

open Lib

/-- What a worker that resumes the fiber took from the queue.  The name of a callback's fiber is
not in the queue. -/
def Hand.task (f : FiberId) : Hand → FiberOrCb
  | .fiber => .fiber f
  | .cb => .cb

/-- The task that a worker has taken and is not done with.  From the scan to the end of the
turn. -/
def Place.task : Place → Option FiberOrCb
  | .checking f _ => some (.fiber f)
  | .callback | .resetting false _ _ | .renewing false _ => some .cb
  | .resuming h f | .marking h f | .switching h f | .inside h f | .switched h f | .writing h f _
  | .leaving h f | .back h f | .settling h f | .requeuing h f | .deciding h f _ | .holding h f =>
    some (h.task f)
  | _ => none

/-- The worker that puts a fiber back in the step.  There is one at most. -/
def requeuer (s : Pool) : Step → Option ThreadId
  | .worker w .go =>
    match (s.workers[w]?).map Worker.place with
    | some (.requeuing ..) => some w
    | _ => none
  | _ => none

/-- The scheduler and the pins: of all tasks ever pushed, by their numbers, and of the task that
each worker took last, with the task.  The code has the first part only. -/
structure Pinning where
  pool : Pool
  pins : List (Option ThreadId)
  hand : ThreadId → Option (FiberOrCb × Option ThreadId)

namespace Pinning

/-- No task has a pin yet. -/
def init : Pinning := ⟨Pool.init, [], fun _ => none⟩

/-- The pin of the task with number `n`.  None, if there is no such task. -/
def pin (p : Pinning) (n : ℕ) : Option ThreadId := (p.pins[n]?).join

/-- The task with number `n`, and its pin.  None, if there is no such task. -/
def task (p : Pinning) (n : ℕ) : Option (FiberOrCb × Option ThreadId) :=
  (p.pool.pushed[n]?).map fun t => (t.task, p.pin n)

/-- The pin of the task that the worker took.  It stays until the worker takes another. -/
def handPin (p : Pinning) (w : ThreadId) : Option ThreadId := (p.hand w).bind Prod.snd

/-- The pin of a task that is pushed: what `run` puts back keeps its own.  A task of another
call has the thread of the call. -/
def newPin (p : Pinning) (a : Step) (t : FiberAndThread) : Option ThreadId :=
  match p.pool.requeuer a with
  | some w => p.handPin w
  | none => t.threadId

/-- A step of the scheduler, with what it does to the pins.  The pins are written beside it. -/
def step (a : Step) (p : Pinning) : Option Pinning :=
  (Pool.step a p.pool).map fun s =>
    { pool := s
      pins := p.pins ++ (s.pushed.drop p.pool.pushed.length).map (p.newPin a)
      hand := (s.removed.drop p.pool.removed.length).foldl
        (fun hand r => Function.update hand r.2 (p.task r.1)) p.hand }

/-- What is promised of a state.  The last part is about what has not happened yet. -/
structure Pinned (p : Pinning) : Prop where
  /-- A worker is in a fiber for the task that it took. -/
  inside : ∀ w x h f, p.pool.workers[w]? = some x → x.place = .inside h f →
    ∃ t, p.hand w = some (h.task f, t)
  /-- It took none that is pinned to another thread. -/
  taken : ∀ w t, p.handPin w = some t → w = t
  /-- No worker may take one that is pinned to another thread. -/
  queued : ∀ e ∈ p.pool.fibers, ∀ t, p.pin e.stamp = some t → ∀ w, e.task.isFor w = true → w = t

/-- `run` does not put a pinned task back.  It is a condition on the state before. -/
def KeepsPin (a : Step) (p : Pinning) : Prop :=
  ∀ w, p.pool.requeuer a = some w → p.handPin w = none

/-- There is one worker to look at. -/
instance (a : Step) (p : Pinning) : Decidable (KeepsPin a p) :=
  match h : p.pool.requeuer a with
  | none => .isTrue fun _ hw => nomatch h.symm.trans hw
  | some w =>
    decidable_of_iff (p.handPin w = none)
      ⟨fun hw _ hv => Option.some.inj (h.symm.trans hv) ▸ hw, fun hall => hall w h⟩

end Pinning

/-! ### The task of a worker -/

variable {s s' : Pool} {a : Step} {w : ThreadId} {x : Worker} {e : Entry}

/-- A worker goes on with its task, or is done with it.  By cases on what it does. -/
theorem next_task {act : Act} {e : Effect} (h : s.next w x act = some e) :
    e.worker.place.task = none ∨ e.worker.place.task = x.place.task := by
  cases goes_of_next h with
  | foundNone hp hto => rcases hto with rfl | rfl <;> exact Or.inl rfl
  | skip | skipped | kept | requeue | done | doneCb | hold | idle | idleYield => exact Or.inl rfl
  | @renew after _ _ _ hp | @compare after _ _ _ hp =>
      cases after with
      | false => exact Or.inr (by rw [hp]; rfl)
      | true => exact Or.inl rfl
  | finish _ hp => exact Or.inr (by rw [hp]; rfl)
  | _ hp => exact Or.inr (by rw [hp]; rfl)

/-- What is taken is the task. -/
theorem takes_task (t : FiberOrCb) : (takes t).task = some t := by
  cases t <;> rfl

/-- Every task of the queue is the one pushed with its number.  The numbers say which. -/
theorem pushed_stamp (h : Accounted s) {e : Entry} (he : e ∈ s.fibers) :
    s.pushed[e.stamp]? = some e.task := by
  rw [h.fibers, waiting] at he
  obtain ⟨⟨t, n⟩, hmem, rfl⟩ := List.mem_map.1 (List.mem_filter.1 he).1
  exact List.mem_zipIdx_iff_getElem?.1 hmem

/-- A worker that puts a fiber back pushes it without a thread.  And nothing else. -/
theorem requeuer_pushes (hw : s.requeuer a = some w) (hs : step a s = some s') :
    ∃ f, Pushes s s' [⟨.fiber f, none⟩] := by
  unfold requeuer at hw
  split at hw
  · rename_i v
    split at hw
    · rename_i h f hplace
      obtain ⟨x, hx, hp⟩ := Option.map_eq_some_iff.1 hplace
      have he : s.next v x .go = some
          { goto (drop x h) .scanning with push := (none, [some (.fiber f)]) } := by
        unfold next
        rw [hp]
      obtain ⟨y, hy, ⟨hplace', -, -⟩ | ⟨-, e, he', rfl⟩⟩ := worker_cases hs
      · obtain rfl := Option.some.inj (hx.symm.trans hy)
        rw [hp] at hplace'
        cases hplace'
      · obtain rfl := Option.some.inj (hx.symm.trans hy)
        obtain rfl := Option.some.inj (he.symm.trans he')
        exact ⟨f, rfl, rfl, rfl⟩
    · cases hw
  · cases hw

/-- No worker has a task that it had not.  Its workers have it, or are done. -/
def Moved (s s' : Pool) : Prop :=
  ∀ (v : ThreadId) (x' : Worker), s'.workers[v]? = some x' →
    x'.place.task = none ∨ ∃ x, s.workers[v]? = some x ∧ x'.place.task = x.place.task

/-- Workers that did not change. -/
theorem Moved.of_eq (h : s'.workers = s.workers) : Moved s s' := by
  intro v x' hx'
  rw [h] at hx'
  exact Or.inr ⟨x', hx', rfl⟩

/-- A step takes a task for a worker, or pushes some and every worker goes on with what it has.
By cases on the step. -/
theorem step_moves (h : step a s = some s') :
    (∃ w e, Takes s s' w e ∧ ∀ v x', s'.workers[v]? = some x' →
      v = w ∧ x'.place.task = some e.task.task ∨ v ≠ w ∧ s.workers[v]? = some x') ∨
    ∃ tasks, Pushes s s' tasks ∧ Moved s s' := by
  cases a with
  | enter =>
      obtain rfl := Option.some.inj h
      refine Or.inr ⟨[], .nil rfl rfl rfl, fun v x' hx' => ?_⟩
      rcases Nat.lt_or_ge v s.workers.length with hlt | hge
      · rw [List.getElem?_append_left hlt] at hx'
        exact Or.inr ⟨x', hx', rfl⟩
      · rw [List.getElem?_append_right hge] at hx'
        obtain rfl := List.mem_singleton.1 (List.mem_of_getElem? hx')
        exact Or.inl rfl
  | create =>
      obtain rfl := Option.some.inj h
      exact Or.inr ⟨[], .nil rfl rfl rfl, .of_eq rfl⟩
  | schedule thread fcs =>
      obtain ⟨-, h⟩ := Option.ite_none_right_eq_some.1 h
      obtain rfl := Option.some.inj h
      exact Or.inr ⟨_, schedule_pushes s thread fcs, .of_eq rfl⟩
  | autoStop =>
      obtain rfl := Option.some.inj h
      exact Or.inr ⟨[], .nil rfl rfl rfl, .of_eq rfl⟩
  | stop =>
      obtain rfl := Option.some.inj h
      exact Or.inr ⟨[], .nil rfl rfl rfl, .of_eq rfl⟩
  | worker w act =>
      obtain ⟨x, hx, ⟨hplace, rfl, rfl⟩ | ⟨hplace, e, he, rfl⟩⟩ := worker_cases h
      · rcases s.scan_spec w x with ⟨-, hscan⟩ | ⟨e, ht, -, hworkers, -, -⟩
        · refine Or.inr ⟨[], by rw [hscan]; exact .nil rfl rfl rfl, fun v x' hx' => ?_⟩
          rw [hscan] at hx'
          rcases lookup_set hx' with ⟨-, rfl⟩ | ⟨-, hx'⟩
          · exact Or.inl rfl
          · exact Or.inr ⟨x', hx', rfl⟩
        · refine Or.inl ⟨w, e, ht, fun v x' hx' => ?_⟩
          rw [hworkers] at hx'
          rcases lookup_set hx' with ⟨rfl, rfl⟩ | hother
          · exact Or.inl ⟨rfl, takes_task e.task.task⟩
          · exact Or.inr hother
      · refine Or.inr ⟨_, ⟨rfl, rfl, rfl⟩, fun v x' hx' => ?_⟩
        rcases lookup_set hx' with ⟨rfl, rfl⟩ | ⟨-, hx'⟩
        · rcases next_task he with hnone | hsame
          · exact Or.inl hnone
          · exact Or.inr ⟨x, hx, hsame⟩
        · exact Or.inr ⟨x', hx', rfl⟩

/-! ### The pins -/

namespace Pinning

variable {p p' : Pinning}

/-- A step takes a task for a worker, with its pin, or pushes tasks with theirs. -/
theorem step_cases (h : step a p = some p') :
    Pool.step a p.pool = some p'.pool ∧
      ((∃ w e, Takes p.pool p'.pool w e ∧ p'.pins = p.pins ∧
          p'.hand = Function.update p.hand w (p.task e.stamp) ∧
          ∀ v x', p'.pool.workers[v]? = some x' →
            v = w ∧ x'.place.task = some e.task.task ∨ v ≠ w ∧ p.pool.workers[v]? = some x') ∨
        ∃ tasks, Pushes p.pool p'.pool tasks ∧ p'.pins = p.pins ++ tasks.map (p.newPin a) ∧
          p'.hand = p.hand ∧ Moved p.pool p'.pool) := by
  obtain ⟨s, hs, rfl⟩ := Option.map_eq_some_iff.1 h
  refine ⟨hs, ?_⟩
  rcases step_moves hs with ⟨w, e, ht, hworkers⟩ | ⟨tasks, hp, hmoved⟩
  · refine Or.inl ⟨w, e, ht, ?_, ?_, hworkers⟩
    · rw [ht.pushed, List.drop_length, List.map_nil, List.append_nil]
    · rw [ht.removed, List.drop_left]
      rfl
  · refine Or.inr ⟨tasks, hp, ?_, ?_, hmoved⟩
    · rw [hp.pushed, List.drop_left]
    · rw [hp.removed, List.drop_length]
      rfl

/-- The queue is accounted for, every task has its pin, and a worker that has a task took it.
It is the invariant under which pins can be spoken of. -/
structure Tracked (p : Pinning) : Prop where
  accounted : Accounted p.pool
  length : p.pins.length = p.pool.pushed.length
  doing : ∀ w x task, p.pool.workers[w]? = some x → x.place.task = some task →
    ∃ t, p.hand w = some (task, t)

/-- It holds before anything is pushed. -/
theorem init_tracked : init.Tracked := ⟨init_accounted, rfl, nofun⟩

/-- It is so before anything is pushed. -/
theorem init_pinned : init.Pinned := ⟨nofun, nofun, nofun⟩

/-- Every step keeps it. -/
theorem Tracked.step (h : p.Tracked) (hstep : step a p = some p') : p'.Tracked := by
  obtain ⟨hs, hcases⟩ := step_cases hstep
  refine ⟨(step_hands h.accounted hs).1, ?_, fun v x' task hx' htask => ?_⟩
  · rcases hcases with ⟨w, e, ht, hpins, -, -⟩ | ⟨tasks, hp, hpins, -, -⟩
    · rw [hpins, ht.pushed, h.length]
    · rw [hpins, hp.pushed, List.length_append, List.length_append, List.length_map, h.length]
  · rcases hcases with ⟨w, e, ht, -, hhand, hworkers⟩ | ⟨tasks, -, -, hhand, hmoved⟩
    · rw [hhand, Function.update_apply]
      rcases hworkers v x' hx' with ⟨rfl, he⟩ | ⟨hne, hx⟩
      · obtain rfl := Option.some.inj (he.symm.trans htask)
        rw [if_pos rfl, Pinning.task, pushed_stamp h.accounted ht.mem]
        exact ⟨_, rfl⟩
      · rw [if_neg hne]
        exact h.doing v x' task hx htask
    · rw [hhand]
      rcases hmoved v x' hx' with hnone | ⟨x, hx, hsame⟩
      · rw [hnone] at htask
        cases htask
      · exact h.doing v x task hx (hsame ▸ htask)

/-- A worker in a fiber is in the one that it took. -/
theorem Tracked.inside (h : p.Tracked) : ∀ w x hand f, p.pool.workers[w]? = some x →
    x.place = .inside hand f → ∃ t, p.hand w = some (hand.task f, t) :=
  fun w x hand f hx hplace => h.doing w x _ hx (by rw [hplace]; rfl)

/-- What a worker takes is pinned to no other.  The queue says so before. -/
theorem Pinned.takes (h : p.Pinned) (ht : Takes p.pool p'.pool w e) (hpins : p'.pins = p.pins)
    (hhand : p'.hand = Function.update p.hand w (p.task e.stamp)) (h' : p'.Tracked) : p'.Pinned where
  inside := h'.inside
  taken := by
    intro v t hv
    rw [handPin, hhand, Function.update_apply] at hv
    split_ifs at hv with hvw
    · have hfor := (Bool.and_eq_true_iff.1 ht.allowed).1
      have hpin : p.pin e.stamp = some t := by
        obtain ⟨⟨task, t'⟩, htask, rfl⟩ := Option.bind_eq_some_iff.1 hv
        obtain ⟨t₀, -, heq⟩ := Option.map_eq_some_iff.1 htask
        exact (Prod.mk.inj heq).2
      exact hvw ▸ h.queued e ht.mem t hpin w hfor
    · exact h.taken v t hv
  queued := by
    intro e' he' t hpin
    exact h.queued e' (ht.mem_of_mem he') t (by rw [pin, ← hpins]; exact hpin)

/-- The pins, when some tasks are pushed. -/
theorem pin_append {l : List (Option ThreadId)} (hpins : p'.pins = p.pins ++ l) {n : ℕ} :
    p'.pin n = if n < p.pins.length then p.pin n else (l[n - p.pins.length]?).join := by
  rw [pin, hpins]
  split_ifs with hlt
  · rw [List.getElem?_append_left hlt]
    rfl
  · rw [List.getElem?_append_right (Nat.not_lt.1 hlt)]

/-- A push keeps what is promised exactly when what is pushed is for its pin's thread only. -/
theorem Pinned.pushes_iff (h : p.Pinned) (hs : p.Tracked) {tasks : List FiberAndThread}
    (hp : Pushes p.pool p'.pool tasks) (hpins : p'.pins = p.pins ++ tasks.map (p.newPin a))
    (hhand : p'.hand = p.hand) (h' : p'.Tracked) :
    p'.Pinned ↔ ∀ t ∈ tasks, ∀ pin, p.newPin a t = some pin → ∀ w, t.isFor w = true → w = pin := by
  have hold : ∀ e ∈ p.pool.fibers, p'.pin e.stamp = p.pin e.stamp := by
    intro e he
    have hlt := (List.getElem?_eq_some_iff.1 (pushed_stamp hs.accounted he)).1
    rw [pin_append hpins, if_pos (by rw [hs.length]; exact hlt)]
  have hnew : ∀ (e : Entry), e ∈ numbered p.pool.pushed.length tasks →
      e.task ∈ tasks ∧ p'.pin e.stamp = p.newPin a e.task := by
    intro e he
    have hbounds := mem_numbered he
    obtain ⟨⟨t, n⟩, hmem, rfl⟩ := List.mem_map.1 he
    obtain ⟨hle, hget⟩ := List.mk_mem_zipIdx_iff_le_and_getElem?_sub.1 hmem
    refine ⟨List.mem_of_getElem? hget, ?_⟩
    rw [pin_append hpins, hs.length, if_neg (Nat.not_lt.2 hle), List.getElem?_map, hget]
    rfl
  constructor
  · intro hpinned t ht pin hpin w hw
    obtain ⟨n, hn, rfl⟩ := List.getElem_of_mem ht
    have hmem : (⟨p.pool.pushed.length + n, tasks[n]⟩ : Entry) ∈
        numbered p.pool.pushed.length tasks := by
      refine List.mem_map.2 ⟨(tasks[n], p.pool.pushed.length + n), ?_, rfl⟩
      rw [List.mk_mem_zipIdx_iff_le_and_getElem?_sub, Nat.add_sub_cancel_left]
      exact ⟨Nat.le_add_right .., List.getElem?_eq_getElem hn⟩
    refine hpinned.queued _ (hp.fibers ▸ List.mem_append_right _ hmem) pin ?_ w hw
    rw [(hnew _ hmem).2]
    exact hpin
  · intro hall
    refine ⟨h'.inside, fun v t hv => h.taken v t ?_, fun e he t ht => ?_⟩
    · rw [handPin, hhand] at hv
      exact hv
    · rw [hp.fibers] at he
      rcases List.mem_append.1 he with he | he
      · exact h.queued e he t ((hold e he).symm.trans ht)
      · exact hall e.task (hnew e he).1 t ((hnew e he).2.symm.trans ht)

/-- A task that is pushed with its pin for a thread is for that thread.  It is for no other. -/
theorem isFor_pin {t : FiberAndThread} {v w : ThreadId} (hpin : t.threadId = some v)
    (hfor : t.isFor w = true) : w = v := by
  rw [FiberAndThread.isFor, hpin] at hfor
  exact (beq_iff_eq.1 hfor).symm

/-- A step keeps the pins exactly when `run` does not put a pinned task back.  By what the step
does to the queue. -/
theorem Pinned.step_iff (h : p.Pinned) (hs : p.Tracked) (hstep : step a p = some p') :
    p'.Pinned ↔ KeepsPin a p := by
  have hs' := hs.step hstep
  obtain ⟨hpool, ⟨w, e, ht, hpins, hhand, -⟩ | ⟨tasks, hp, hpins, hhand, -⟩⟩ := step_cases hstep
  · refine iff_of_true (h.takes ht hpins hhand hs') fun v hv => ?_
    -- a step that takes a task pushes none
    obtain ⟨f, hp⟩ := requeuer_pushes hv hpool
    have hlength := congrArg List.length (hp.removed.symm.trans ht.removed)
    rw [List.length_append, List.length_singleton] at hlength
    omega
  · rw [h.pushes_iff hs hp hpins hhand hs']
    constructor
    · intro hall v hv
      obtain ⟨f, hp'⟩ := requeuer_pushes hv hpool
      have htasks : tasks = [⟨.fiber f, none⟩] :=
        List.append_cancel_left (hp.pushed.symm.trans hp'.pushed)
      refine Option.eq_none_iff_forall_ne_some.2 fun t ht => ?_
      have hpin : p.newPin a ⟨.fiber f, none⟩ = some t := by
        rw [newPin, hv]
        exact ht
      -- the entry has no thread: any other worker may take it
      have heq := hall ⟨.fiber f, none⟩ (htasks ▸ List.mem_singleton.2 rfl) t hpin (t + 1) rfl
      exact absurd heq (Nat.succ_ne_self t)
    · intro hkeeps t ht pin hpin w hw
      unfold newPin at hpin
      split at hpin
      · rename_i v hv
        rw [hkeeps v hv] at hpin
        cases hpin
      · exact isFor_pin hpin hw

/-- **A pinned task is executed by its thread alone** in the runs in which `run` puts no pinned
task back; in any other a thread may take a task that is pinned to another.  Calls of `schedule`
may be made by anyone, in any order, for any thread; only `run`'s own two calls are looked at.
The two calls are `schedule(ft.fiber)` and `schedule(cb_fiber)` in lines 232 and 254 of
`src/hiper/base/scheduler.cc`, which leave the thread at its default, any. -/
theorem pins_kept_iff (as : List Step) (p : Pinning) (hrun : run step as init = some p) :
    Always step Pinned as init ↔ Meets step KeepsPin as init :=
  always_iff_meets (fun _ _ _ hs hstep => hs.step hstep)
    (fun _ _ _ hs h hstep => h.step_iff hs hstep) init_tracked init_pinned hrun

/-- Worker 0 runs a task whose fiber yields `READY`, and puts it back; then worker 1 takes the
next task of the queue, and goes `m` steps with it.  It takes worker 0 `n` steps to come into
the fiber.  The second worker is free all the time. -/
def yieldSteps (thread : Option ThreadId) (task : FiberOrCb) (n m : ℕ) (rest : List Step) :
    List Step :=
  [.enter, .enter, .create, .schedule thread [some task]] ++ rest ++
    List.replicate n (.worker 0 .go) ++ [.worker 0 .yieldToReady] ++
    List.replicate 5 (.worker 0 .go) ++ List.replicate m (.worker 1 .go)

/-- The fiber that is put back is not pinned; a callback that is waits for its thread. -/
theorem pins_kept_callback :
    ∃ p, run step (yieldSteps none (.fiber 0) 7 5 [.schedule (some 1) [some .cb]]) init = some p ∧
      p.hand 1 = some (.cb, some 1) ∧
      Always step Pinned
        (yieldSteps none (.fiber 0) 7 5 [.schedule (some 1) [some .cb]]) init := by
  refine ⟨_, rfl, rfl, (pins_kept_iff _ _ rfl).2 ?_⟩
  decide +kernel

/-- A fiber that is pinned to thread 0 yields `READY`, and worker 1 is in it then; and likewise the
fiber of a pinned callback. -/
theorem pin_lost :
    (∃ p, run step (yieldSteps (some 0) (.fiber 0) 7 7 []) init = some p ∧
      p.hand 1 = some (.fiber 0, some 0) ∧
      (p.pool.workers[1]?).map Worker.place = some (.inside .fiber 0) ∧
      ¬Always step Pinned (yieldSteps (some 0) (.fiber 0) 7 7 []) init) ∧
    ∃ p, run step (yieldSteps (some 0) .cb 5 7 []) init = some p ∧
      p.hand 1 = some (.fiber 1, some 0) ∧
      (p.pool.workers[1]?).map Worker.place = some (.inside .fiber 1) ∧
      ¬Always step Pinned (yieldSteps (some 0) .cb 5 7 []) init := by
  have hlost : ∀ {as : List Step} {p : Pinning} {t : FiberOrCb}, run step as init = some p →
      p.hand 1 = some (t, some 0) → ¬Always step Pinned as init := by
    intro as p t hrun hhand halways
    have heq := (halways.final hrun).taken 1 0 (by rw [handPin, hhand]; rfl)
    cases heq
  exact ⟨⟨_, rfl, rfl, rfl, hlost rfl rfl⟩, _, rfl, rfl, rfl, hlost rfl rfl⟩

end Pinning

end Hiper.Scheduler.Pool

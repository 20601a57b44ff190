import Hiper.Scheduler.HandOut

/-!
# A fiber runs on one worker

The scan passes over a fiber in state `EXEC`, and `run` writes `HOLD` only when the fiber is
back; but `YieldToHold` and `YieldToReady` write the state before the context is saved, and
another worker may take the fiber then, or while the first is not done with it.  As long as
no scan does that (`careless`), no fiber is on two workers and the assertions hold
(`fiber_on_one_worker`); when one does, both can break (`switched_fiber_on_two_workers`).

The places are `src/hiper/base/scheduler.cc:207` (the scan's look at the state), `:228-246`
(what `run` does with a fiber) and `src/hiper/base/fiber.cc:141-221` (`resume`, `yield`,
`YieldToReady`, `YieldToHold`).  What is shown goes by what each worker knows of the fiber
it holds, its place and its fiber for callbacks (`Worker.Fits`), and by no two of them
holding the same one.
-/

namespace Hiper.Scheduler.Pool

open Lib

/-- The fiber has ended.  `run` does not resume it. -/
def hasEnded : FiberState → Bool
  | .term | .except => true
  | _ => false

/-- The fiber that a worker took from the queue and has not resumed.  It does not own it yet. -/
def Place.checks : Place → Option FiberId
  | .checking f _ => some f
  | _ => none

/-- The fiber that a worker resumes, runs, or has to settle.  From the check to the end of the
turn. -/
def Place.fiber : Place → Option FiberId
  | .resetting _ f _ | .renewing _ f | .resuming _ f | .marking _ f | .switching _ f
  | .inside _ f | .switched _ f | .writing _ f _ | .leaving _ f | .back _ f | .settling _ f
  | .requeuing _ f | .deciding _ f _ | .holding _ f => some f
  | _ => none

/-- The fiber whose stack the worker is on, from `resume`'s switch to `yield`'s.  Between the
two the worker is not in `run`. -/
def Place.runs : Place → Option FiberId
  | .inside _ f | .switched _ f | .writing _ f _ | .leaving _ f => some f
  | _ => none

/-- The worker has the fiber in hand, or keeps it for callbacks.  Two workers must not own the
same. -/
def Worker.owns (x : Worker) (f : FiberId) : Bool :=
  x.place.fiber == some f || x.cbFiber == some f

/-- The same, or it took it from the queue.  A fiber that is held is written by nobody else. -/
def Worker.holds (x : Worker) (f : FiberId) : Bool := x.owns f || x.place.checks == some f

/-- The scan takes a fiber that a worker keeps for callbacks, or one that has not ended and that
another worker took and has not let go of.  It is looked at in the state before the scan. -/
def careless (s : Pool) : Step → Bool
  | .worker w .go =>
    (s.workers[w]?).any fun x =>
      x.place == .scanning &&
        match (scanLoop s w s.fibers).1 with
        | some ⟨_, ⟨.fiber f, _⟩⟩ =>
          (s.workers.any fun y => y.cbFiber == some f) ||
            !hasEnded (s.state f) && s.workers.any (·.holds f)
        | _ => false
  | _ => false

/-- The steps without such scans.  The runs are made of them. -/
def carefulStep (a : Step) (s : Pool) : Option Pool := if s.careless a then none else step a s

/-! ### What is true of a worker -/

/-- The hand is the callback's exactly if the fiber is the callback fiber.  A fiber from the
queue is no worker's callback fiber. -/
def Hand.Fits (cb : Option FiberId) (f : FiberId) (h : Hand) : Prop := h = .cb ↔ cb = some f

/-- What a worker knows of the state of its fiber, place by place.  It is what the worker has
read or written last. -/
def Place.Fits (state : FiberId → FiberState) (cb : Option FiberId) : Place → Prop
  | .checking f left => state f ≠ .exec ∧ (hasEnded (state f) = true → state f ∈ left)
  | .resetting _ f left => cb = some f ∧ state f ∈ left
  | .renewing _ f => cb = some f
  | .resuming h f => h.Fits cb f ∧ state f ≠ .exec ∧ hasEnded (state f) = false
  | .marking h f => h.Fits cb f ∧ hasEnded (state f) = false
  | .switching h f | .inside h f | .switched h f | .writing h f _ =>
    h.Fits cb f ∧ state f = .exec
  | .leaving h f | .back h f | .settling h f | .requeuing h f => h.Fits cb f
  | .deciding h f left =>
    h.Fits cb f ∧ (hasEnded (state f) = true → state f ∈ left) ∧ ∀ t ∈ left, hasEnded t = true
  | .holding h f => h.Fits cb f ∧ hasEnded (state f) = false
  | _ => True

/-- What a worker knows: the state of the fiber in hand, and that the one for callbacks is
fresh. -/
structure Worker.Fits (state : FiberId → FiberState) (x : Worker) : Prop where
  place : x.place.Fits state x.cbFiber
  kept : ∀ f, x.cbFiber = some f → x.place.fiber ≠ some f → state f = .init

/-- What holds of all workers as long as no scan is careless.  What they know is so, and they
hold different fibers. -/
structure Exclusive (s : Pool) : Prop where
  owns : ∀ {v w : ThreadId} {x y : Worker} {f : FiberId}, s.workers[v]? = some x →
    s.workers[w]? = some y → x.owns f = true → y.owns f = true → v = w
  checks : ∀ {v w : ThreadId} {x y : Worker} {f : FiberId}, s.workers[v]? = some x →
    s.workers[w]? = some y → v ≠ w → x.place.checks = some f → y.holds f = true →
    hasEnded (s.state f) = true
  callbacks : ∀ {v w : ThreadId} {x y : Worker} {f : FiberId}, s.workers[v]? = some x →
    s.workers[w]? = some y → x.place.checks = some f → y.cbFiber ≠ some f
  fits : ∀ {w : ThreadId} {x : Worker}, s.workers[w]? = some x → x.Fits s.state
  known : ∀ {w : ThreadId} {x : Worker} {f : FiberId}, s.workers[w]? = some x →
    x.holds f = true → f < s.created
  queued : ∀ {e : Entry} {f : FiberId}, e ∈ s.fibers → e.task.task = .fiber f → f < s.created

/-- What an effect of a worker may do.  It takes nothing that another worker may hold, and
writes nothing that it does not own. -/
structure Fair (s : Pool) (x : Worker) (e : Effect) : Prop where
  owns : ∀ f, e.worker.owns f = true →
    x.owns f = true ∨ x.place.checks = some f ∧ hasEnded (s.state f) = false ∨
      e.fresh = true ∧ f = s.created
  checks : ∀ f, e.worker.place.checks = some f → x.place.checks = some f ∧ e.write = none
  callbacks : ∀ f, e.worker.cbFiber = some f → x.cbFiber = some f ∨ e.fresh = true ∧ f = s.created
  write : ∀ f v, e.write = some (f, v) →
    x.owns f = true ∧ (hasEnded (s.state f) = false ∨ x.cbFiber = some f) ∨
      e.fresh = true ∧ f = s.created
  fits : e.worker.Fits (wrote s.state e.write)
  push : ∀ t ∈ tasksOf e.push.1 e.push.2, ∀ f, t.task = .fiber f → f < s.created ∨ x.owns f = true

/-- A worker owns the fiber in hand and the one for callbacks. -/
theorem Worker.owns_iff {x : Worker} {f : FiberId} :
    x.owns f = true ↔ x.place.fiber = some f ∨ x.cbFiber = some f := by
  rw [owns, Bool.or_eq_true, beq_iff_eq, beq_iff_eq]

/-- A worker holds what it owns and what it has taken. -/
theorem Worker.holds_iff {x : Worker} {f : FiberId} :
    x.holds f = true ↔ x.owns f = true ∨ x.place.checks = some f := by
  rw [holds, Bool.or_eq_true, beq_iff_eq]

/-! ### Effects -/

/-- Whatever it adds to the count. -/
theorem Fair.count {s : Pool} {x : Worker} {e : Effect} (h : Fair s x e) (c : ℤ) :
    Fair s x { e with count := c } :=
  ⟨h.owns, h.checks, h.callbacks, h.write, h.fits, h.push⟩

/-- With tasks that exist, or the worker's own fiber.  Nothing else changes. -/
theorem Fair.pushing {s : Pool} {x : Worker} {e : Effect} (h : Fair s x e)
    (push : Option ThreadId × List (Option FiberOrCb))
    (hpush : ∀ t ∈ tasksOf push.1 push.2, ∀ f, t.task = .fiber f →
      f < s.created ∨ x.owns f = true) :
    Fair s x { e with push := push } :=
  ⟨h.owns, h.checks, h.callbacks, h.write, h.fits, hpush⟩

/-- A worker without a fiber in hand goes on without one.  The states of the fibers do not
matter for it. -/
theorem Fair.still {s : Pool} {x y : Worker} (hx : x.Fits s.state) (hxf : x.place.fiber = none)
    (hcb : y.cbFiber = x.cbFiber) {p : Place} (hpf : p.fiber = none) (hpc : p.checks = none)
    (hp : p.Fits s.state x.cbFiber) : Fair s x (Pool.goto y p) := by
  refine ⟨fun f hf => ?_, fun f hf => ?_, fun f hf => Or.inl (hcb ▸ hf), nofun, ⟨?_, ?_⟩, nofun⟩
  · rw [Worker.owns_iff] at hf ⊢
    rcases hf with hf | hf
    · cases hpf.symm.trans hf
    · exact Or.inl (Or.inr (hcb ▸ hf))
  · cases hpc.symm.trans hf
  · exact hcb ▸ hp
  · intro f hf _
    exact hx.kept f (hcb ▸ hf) (by rw [hxf]; nofun)

/-- A worker goes on with the fiber in hand.  It writes nothing. -/
theorem Fair.along {s : Pool} {x : Worker} (hx : x.Fits s.state) {f : FiberId}
    (hxf : x.place.fiber = some f) {p : Place} (hpf : p.fiber = some f) (hpc : p.checks = none)
    (hp : p.Fits s.state x.cbFiber) : Fair s x (Pool.goto x p) := by
  refine ⟨fun g hg => ?_, fun g hg => ?_, fun g hg => Or.inl hg, nofun, ⟨hp, ?_⟩, nofun⟩
  · left
    rw [Worker.owns_iff] at hg ⊢
    exact hg.imp_left fun hg => (hxf.trans hpf.symm).trans hg
  · cases hpc.symm.trans hg
  · intro g hg hne
    exact hx.kept g hg fun h => hne (hpf.trans (hxf.symm.trans h))

/-- A worker writes the state of the fiber in hand. -/
theorem Fair.writing {s : Pool} {x : Worker} (hx : x.Fits s.state) {f : FiberId}
    (hxf : x.place.fiber = some f) {p : Place} (hpf : p.fiber = some f) (hpc : p.checks = none)
    {v : FiberState} (hp : p.Fits (Function.update s.state f v) x.cbFiber)
    (hf : hasEnded (s.state f) = false ∨ x.cbFiber = some f) : Fair s x (Pool.put x p f v) := by
  have hgoto : ∀ g, (Pool.put x p f v).worker.owns g = true → x.owns g = true := by
    intro g hg
    rw [Worker.owns_iff] at hg ⊢
    exact hg.imp_left fun hg => (hxf.trans hpf.symm).trans hg
  refine ⟨fun g hg => Or.inl (hgoto g hg), fun g hg => ?_, fun g hg => Or.inl hg,
    fun g u hg => ?_, ⟨hp, ?_⟩, nofun⟩
  · cases hpc.symm.trans hg
  · obtain ⟨rfl, rfl⟩ := Prod.mk.inj (Option.some.inj hg)
    exact Or.inl ⟨Worker.owns_iff.2 (Or.inl hxf), hf⟩
  · intro g hg hne
    have hgf : g ≠ f := by
      rintro rfl
      exact hne hpf
    change Function.update s.state f v g = .init
    rw [Function.update_of_ne hgf]
    exact hx.kept g hg fun h => hgf (Option.some.inj (h.symm.trans hxf))

/-- A worker is done with the fiber in hand. -/
theorem Fair.letGo {s : Pool} {x : Worker} (hx : x.Fits s.state) {f : FiberId} {h : Hand}
    (hxf : x.place.fiber = some f) (hh : h.Fits x.cbFiber f) {p : Place} (hpf : p.fiber = none)
    (hpc : p.checks = none) (hp : ∀ state cb, p.Fits state cb) (v : Option FiberState)
    (hv : v ≠ none → hasEnded (s.state f) = false) :
    Fair s x { Pool.goto (drop x h) p with write := v.map (f, ·) } := by
  have hcb : ∀ g, (drop x h).cbFiber = some g → x.cbFiber = some g ∧ g ≠ f := by
    intro g hg
    cases h with
    | cb => cases hg
    | fiber =>
        refine ⟨hg, ?_⟩
        rintro rfl
        cases hh.2 hg
  refine ⟨fun g hg => ?_, fun g hg => ?_, fun g hg => Or.inl (hcb g hg).1, fun g u hg => ?_,
    ⟨hp _ _, ?_⟩, nofun⟩
  · left
    rw [Worker.owns_iff] at hg ⊢
    rcases hg with hg | hg
    · cases hpf.symm.trans hg
    · exact Or.inr (hcb g hg).1
  · cases hpc.symm.trans hg
  · obtain ⟨u', hu, hg⟩ := Option.map_eq_some_iff.1 hg
    obtain ⟨rfl, rfl⟩ := Prod.mk.inj hg
    exact Or.inl ⟨Worker.owns_iff.2 (Or.inl hxf), Or.inl (hv (by rw [hu]; nofun))⟩
  · intro g hg _
    obtain ⟨hg, hgf⟩ := hcb g hg
    have hold := hx.kept g hg fun h => hgf (Option.some.inj (h.symm.trans hxf))
    cases v with
    | none => exact hold
    | some u =>
        change Function.update s.state f u g = .init
        rwa [Function.update_of_ne hgf]

/-- A fiber that has not ended is taken in hand.  It is no callback fiber. -/
theorem Fair.resume {s : Pool} {x : Worker} (hx : x.Fits s.state) {f : FiberId}
    (hxf : x.place = .checking f []) (hcb : x.cbFiber ≠ some f) :
    Fair s x (Pool.goto x (.resuming .fiber f)) := by
  have hplace := hx.place
  rw [hxf] at hplace
  have hlive : hasEnded (s.state f) = false := by
    rw [← Bool.not_eq_true]
    exact fun h => nomatch hplace.2 h
  refine ⟨fun g hg => ?_, nofun, fun g hg => Or.inl hg, nofun, ⟨⟨?_, hplace.1, hlive⟩, ?_⟩, nofun⟩
  · rcases Worker.owns_iff.1 hg with hg | hg
    · obtain rfl := Option.some.inj hg
      exact Or.inr (Or.inl ⟨by rw [hxf]; rfl, hlive⟩)
    · exact Or.inl (Worker.owns_iff.2 (Or.inr hg))
  · exact iff_of_false (by decide) hcb
  · intro g hg _
    exact hx.kept g hg (by rw [hxf]; nofun)

/-- A fiber that was taken is compared with one more state.  Nobody has written it since. -/
theorem Fair.check {s : Pool} {x : Worker} (hx : x.Fits s.state) {f : FiberId} {t : FiberState}
    {left : List FiberState} (hxf : x.place = .checking f (t :: left)) (ht : s.state f ≠ t) :
    Fair s x (Pool.goto x (.checking f left)) := by
  have hplace := hx.place
  rw [hxf] at hplace
  refine ⟨fun g hg => ?_, fun g hg => ⟨?_, rfl⟩, fun g hg => Or.inl hg, nofun, ⟨⟨hplace.1, ?_⟩, ?_⟩,
    nofun⟩
  · rcases Worker.owns_iff.1 hg with hg | hg
    · cases hg
    · exact Or.inl (Worker.owns_iff.2 (Or.inr hg))
  · rw [hxf]
    exact hg
  · exact fun h => (List.mem_cons.1 (hplace.2 h)).resolve_left ht
  · intro g hg _
    exact hx.kept g hg (by rw [hxf]; nofun)

/-- A callback gets a new fiber.  No other worker can have it. -/
theorem Fair.create (s : Pool) (x : Worker) :
    Fair s x { Pool.put { x with cbFiber := some s.created } (.resuming .cb s.created) s.created .init
      with fresh := true } := by
  have hinit : wrote s.state (some (s.created, .init)) s.created = .init := Function.update_self ..
  refine ⟨fun g hg => ?_, nofun, fun g hg => ?_, fun g u hg => ?_, ⟨⟨?_, ?_, ?_⟩, ?_⟩, nofun⟩
  · right
    right
    rcases Worker.owns_iff.1 hg with hg | hg
    · exact ⟨rfl, (Option.some.inj hg).symm⟩
    · exact ⟨rfl, (Option.some.inj hg).symm⟩
  · exact Or.inr ⟨rfl, (Option.some.inj hg).symm⟩
  · obtain ⟨rfl, rfl⟩ := Prod.mk.inj (Option.some.inj hg)
    exact Or.inr ⟨rfl, rfl⟩
  · exact iff_of_true rfl rfl
  · intro h
    cases hinit.symm.trans h
  · exact congrArg hasEnded hinit
  · intro g hg _
    obtain rfl := Option.some.inj hg
    exact hinit

/-- The fiber of the last callback is taken in hand again.  Its state was the one of a fresh
fiber. -/
theorem Fair.reuse {s : Pool} {x : Worker} (hx : x.Fits s.state) (hp : x.place = .callback)
    {f : FiberId} (hf : x.cbFiber = some f) :
    Fair s x (Pool.goto x (.resetting false f [.term, .except, .init])) := by
  refine ⟨fun g hg => ?_, nofun, fun g hg => Or.inl hg, nofun, ⟨⟨hf, ?_⟩, ?_⟩, nofun⟩
  · left
    rcases Worker.owns_iff.1 hg with hg | hg
    · exact Worker.owns_iff.2 (Or.inr (hf.trans hg))
    · exact Worker.owns_iff.2 (Or.inr hg)
  · have hinit : s.state f = .init := hx.kept f hf (by rw [hp]; nofun)
    change s.state f ∈ _
    rw [hinit]
    decide
  · intro g hg hne
    exact absurd (hf.symm.trans hg) hne

/-- The fiber of a callback that is over is reset, and kept.  It owns it before and after. -/
theorem Fair.keep {s : Pool} {x : Worker} {f : FiberId} (hf : x.cbFiber = some f) :
    Fair s x (Pool.put x .scanning f .init) := by
  refine ⟨fun g hg => ?_, nofun, fun g hg => Or.inl hg, fun g u hg => ?_, ⟨trivial, ?_⟩, nofun⟩
  · rcases Worker.owns_iff.1 hg with hg | hg
    · cases hg
    · exact Or.inl (Worker.owns_iff.2 (Or.inr hg))
  · obtain ⟨rfl, rfl⟩ := Prod.mk.inj (Option.some.inj hg)
    exact Or.inl ⟨Worker.owns_iff.2 (Or.inr hf), Or.inr hf⟩
  · intro g hg _
    obtain rfl := Option.some.inj (hf.symm.trans hg)
    exact Function.update_self ..

/-- A fiber that is scheduled exists. -/
theorem lt_created {s : Pool} {thread : Option ThreadId} {fcs : List (Option FiberOrCb)}
    (h : s.known fcs = true) {t : FiberAndThread} (ht : t ∈ tasksOf thread fcs) {f : FiberId}
    (hf : t.task = .fiber f) : f < s.created := by
  obtain ⟨fc, hfc, ht⟩ := List.mem_filterMap.1 ht
  obtain ⟨task, rfl, rfl⟩ := Option.map_eq_some_iff.1 ht
  have hknown := List.all_eq_true.1 h _ hfc
  rw [show task = .fiber f from hf] at hknown
  exact of_decide_eq_true hknown

/-- **An effect is fair** if what the worker knows is so.  By cases on what the worker does
next. -/
theorem next_fair {s : Pool} {w : ThreadId} {x : Worker} {a : Act} {e : Effect}
    (h : s.next w x a = some e) (hx : x.Fits s.state)
    (hcb : ∀ f, x.place.checks = some f → x.cbFiber ≠ some f) : Fair s x e := by
  have hplace := hx.place
  cases goes_of_next h with
  | foundNone hp hto =>
      rcases hto with rfl | rfl <;> exact .still hx (by rw [hp]; rfl) rfl rfl rfl trivial
  | @resume f hp => exact .resume hx hp (hcb f (by rw [hp]; rfl))
  | skip hp => exact .still hx (by rw [hp]; rfl) rfl rfl rfl trivial
  | check hp ht => exact .check hx hp ht
  | skipped hp =>
      exact (Fair.still (p := .scanning) hx (by rw [hp]; rfl) rfl rfl rfl trivial).count _
  | reuse hp hf => exact .reuse hx hp hf
  | create => exact .create s x
  | renew hp =>
      rw [hp] at hplace
      exact .along hx (by rw [hp]; rfl) rfl rfl hplace.1
  | compare hp ht =>
      rw [hp] at hplace
      exact .along hx (by rw [hp]; rfl) rfl rfl
        ⟨hplace.1, (List.mem_cons.1 hplace.2).resolve_left ht⟩
  | @renewed f hp =>
      rw [hp] at hplace
      have hinit : Function.update s.state f .init f = .init := Function.update_self ..
      refine .writing hx (by rw [hp]; rfl) rfl rfl ⟨iff_of_true rfl hplace, ?_, ?_⟩ (Or.inr hplace)
      · rw [hinit]
        decide
      · rw [hinit]
        rfl
  | kept hp =>
      rw [hp] at hplace
      exact .keep hplace
  | mark hp =>
      rw [hp] at hplace
      exact .along hx (by rw [hp]; rfl) rfl rfl ⟨hplace.1, hplace.2.2⟩
  | marked hp =>
      rw [hp] at hplace
      exact .writing hx (by rw [hp]; rfl) rfl rfl ⟨hplace.1, Function.update_self ..⟩
        (Or.inl hplace.2)
  | enter hp | yieldToReady hp | yieldToHold hp | stay hp | switched hp | leave hp =>
      rw [hp] at hplace
      exact .along hx (by rw [hp]; rfl) rfl rfl hplace
  | finish ok hp =>
      rw [hp] at hplace
      exact .writing hx (by rw [hp]; rfl) rfl rfl hplace.1 (Or.inl (congrArg hasEnded hplace.2))
  | yield hp =>
      rw [hp] at hplace
      exact .along hx (by rw [hp]; rfl) rfl rfl hplace.1
  | @switch hand f _ hp =>
      rw [hp] at hplace
      refine (Fair.along (p := .switched hand f) hx (by rw [hp]; rfl) rfl rfl hplace).pushing _
        fun t ht g hg => Or.inr ?_
      obtain rfl := List.mem_singleton.1 ht
      obtain rfl := FiberOrCb.fiber.inj hg
      exact Worker.owns_iff.2 (Or.inl (by rw [hp]; rfl))
  | @schedule hand f _ _ hp hknown =>
      rw [hp] at hplace
      exact (Fair.along (p := .inside hand f) hx (by rw [hp]; rfl) rfl rfl hplace).pushing _
        fun t ht g hg => Or.inl (lt_created hknown ht hg)
  | write hp =>
      rw [hp] at hplace
      exact .writing hx (by rw [hp]; rfl) rfl rfl hplace.1 (Or.inl (congrArg hasEnded hplace.2))
  | @countDown hand f hp =>
      rw [hp] at hplace
      exact (Fair.along (p := .settling hand f) hx (by rw [hp]; rfl) rfl rfl hplace).count _
  | ready hp =>
      rw [hp] at hplace
      exact .along hx (by rw [hp]; rfl) rfl rfl hplace
  | @notReady _ f _ hp _ hleft =>
      rw [hp] at hplace
      refine .along hx (by rw [hp]; rfl) rfl rfl ⟨hplace, fun hover => ?_, ?_⟩
      · rcases hleft with rfl | rfl <;> cases hs : s.state f <;> simp [hs, hasEnded] at hover ⊢
      · rcases hleft with rfl | rfl <;> decide
  | requeue hp =>
      rw [hp] at hplace
      refine (Fair.letGo (p := .scanning) hx (by rw [hp]; rfl) hplace rfl rfl (fun _ _ => trivial)
        none (absurd rfl)).pushing _ fun t ht g hg => Or.inr ?_
      obtain rfl := List.mem_singleton.1 ht
      obtain rfl := FiberOrCb.fiber.inj hg
      exact Worker.owns_iff.2 (Or.inl (by rw [hp]; rfl))
  | done hp =>
      rw [hp] at hplace
      exact .letGo (p := .scanning) (h := .fiber) hx (by rw [hp]; rfl) hplace.1 rfl rfl
        (fun _ _ => trivial) none (absurd rfl)
  | @doneCb _ t _ hp ht =>
      rw [hp] at hplace
      refine .along hx (by rw [hp]; rfl) rfl rfl ⟨hplace.1.1 rfl, ?_⟩
      have hover := hplace.2.2 t (List.mem_cons_self ..)
      rw [ht]
      cases t <;> first | decide | cases hover
  | decide hp ht =>
      rw [hp] at hplace
      exact .along hx (by rw [hp]; rfl) rfl rfl
        ⟨hplace.1, fun hover => (List.mem_cons.1 (hplace.2.1 hover)).resolve_left ht,
          fun u hu => hplace.2.2 u (List.mem_cons_of_mem _ hu)⟩
  | alive hp =>
      rw [hp] at hplace
      refine .along hx (by rw [hp]; rfl) rfl rfl ⟨hplace.1, ?_⟩
      rw [← Bool.not_eq_true]
      exact fun hover => List.not_mem_nil (hplace.2.1 hover)
  | hold hp =>
      rw [hp] at hplace
      exact .letGo (p := .scanning) hx (by rw [hp]; rfl) hplace.1 rfl rfl (fun _ _ => trivial)
        (some .hold) fun _ => hplace.2
  | idle hp =>
      exact .still (y := { x with idleTerm := s.isStopping || x.idleTerm }) (p := .scanning) hx
        (by rw [hp]; rfl) rfl rfl rfl trivial
  | idleYield hp => exact .still (p := .scanning) hx (by rw [hp]; rfl) rfl rfl rfl trivial

/-! ### Steps -/

/-- What a worker knows depends on the states of the fibers it holds.  So others may write the
rest. -/
theorem Place.Fits.congr {state state' : FiberId → FiberState} {cb : Option FiberId} {p : Place}
    (h : p.Fits state cb)
    (hstate : ∀ f, p.fiber = some f ∨ p.checks = some f → state' f = state f) :
    p.Fits state' cb := by
  cases p <;> first
    | trivial
    | simpa only [Place.Fits, hstate _ (Or.inl rfl)] using h
    | simpa only [Place.Fits, hstate _ (Or.inr rfl)] using h

/-- What a worker knows stays, while the states of its fibers stay. -/
theorem Worker.Fits.congr {state state' : FiberId → FiberState} {x : Worker}
    (h : x.Fits state) (hstate : ∀ f, x.holds f = true → state' f = state f) :
    x.Fits state' := by
  refine ⟨h.place.congr fun f hf => hstate f ?_, fun f hf hne => ?_⟩
  · rw [Worker.holds_iff, Worker.owns_iff]
    exact hf.imp_left Or.inl
  · rw [hstate f (by rw [Worker.holds_iff, Worker.owns_iff]; exact Or.inl (Or.inr hf))]
    exact h.kept f hf hne

section Effects

variable {s : Pool} {w : ThreadId} {x : Worker} {e : Effect}

/-- What the worker has in hand afterwards and another holds, it had in hand before.  Others
hold nothing that is new. -/
theorem Exclusive.owned_before (h : Exclusive s) (hx : s.workers[w]? = some x) (hf : Fair s x e)
    {v : ThreadId} {y : Worker} {f : FiberId} (hv : v ≠ w) (hy : s.workers[v]? = some y)
    (howns : e.worker.owns f = true) (hholds : y.holds f = true) : x.owns f = true := by
  rcases hf.owns f howns with hown | ⟨hchecks, hlive⟩ | ⟨-, rfl⟩
  · exact hown
  · exact absurd (hlive.symm.trans (h.checks hx hy hv.symm hchecks hholds)) Bool.false_ne_true
  · exact absurd (h.known hy hholds) (lt_irrefl _)

/-- The state of a fiber that another worker holds is not written.  Only its owner writes it. -/
theorem Exclusive.unchanged (h : Exclusive s) (hx : s.workers[w]? = some x) (hf : Fair s x e)
    {v : ThreadId} {y : Worker} {f : FiberId} (hv : v ≠ w) (hy : s.workers[v]? = some y)
    (hholds : y.holds f = true) : wrote s.state e.write f = s.state f := by
  cases hw : e.write with
  | none => rfl
  | some p =>
      obtain ⟨g, u⟩ := p
      refine Function.update_of_ne ?_ ..
      rintro rfl
      rcases hf.write f u hw with ⟨hown, hwhy⟩ | ⟨-, rfl⟩
      · rcases Worker.holds_iff.1 hholds with hy' | hy'
        · exact hv (h.owns hy hx hy' hown)
        · rcases hwhy with hlive | hcb
          · have hover := h.checks hy hx hv hy' (Worker.holds_iff.2 (Or.inl hown))
            exact absurd (hlive.symm.trans hover) Bool.false_ne_true
          · exact h.callbacks hy hx hy' hcb
      · exact absurd (h.known hy hholds) (lt_irrefl _)

/-- **An effect** that is fair keeps the workers apart.  The other workers know what they knew. -/
theorem Exclusive.apply (h : Exclusive s) (hx : s.workers[w]? = some x) (hf : Fair s x e) :
    Exclusive (s.apply w e) := by
  have hchecks : ∀ {y : Worker} {f : FiberId}, y.place.checks = some f → y.holds f = true :=
    fun hy => Worker.holds_iff.2 (Or.inr hy)
  constructor
  · intro v u y z f hy hz hyf hzf
    rcases lookup_set hy with ⟨rfl, rfl⟩ | ⟨hv, hy₀⟩ <;>
      rcases lookup_set hz with ⟨rfl, rfl⟩ | ⟨hu, hz₀⟩
    · rfl
    · have hown := h.owned_before hx hf hu hz₀ hyf (Worker.holds_iff.2 (Or.inl hzf))
      exact h.owns hx hz₀ hown hzf
    · have hown := h.owned_before hx hf hv hy₀ hzf (Worker.holds_iff.2 (Or.inl hyf))
      exact h.owns hy₀ hx hyf hown
    · exact h.owns hy₀ hz₀ hyf hzf
  · intro v u y z f hy hz hvu hyf hzf
    change hasEnded (wrote s.state e.write f) = true
    rcases lookup_set hy with ⟨rfl, rfl⟩ | ⟨hv, hy₀⟩ <;>
      rcases lookup_set hz with ⟨rfl, rfl⟩ | ⟨hu, hz₀⟩
    · exact absurd rfl hvu
    · obtain ⟨hxf, hnone⟩ := hf.checks f hyf
      rw [hnone]
      exact h.checks hx hz₀ hvu hxf hzf
    · rw [h.unchanged hx hf hv hy₀ (hchecks hyf)]
      rcases Worker.holds_iff.1 hzf with hzf | hzf
      · have hown := h.owned_before hx hf hv hy₀ hzf (hchecks hyf)
        exact h.checks hy₀ hx hv hyf (Worker.holds_iff.2 (Or.inl hown))
      · exact h.checks hy₀ hx hv hyf (hchecks (hf.checks f hzf).1)
    · rw [h.unchanged hx hf hv hy₀ (hchecks hyf)]
      exact h.checks hy₀ hz₀ hvu hyf hzf
  · intro v u y z f hy hz hyf hzf
    have hyf' : ∃ (v' : ThreadId) (y' : Worker), s.workers[v']? = some y' ∧
        y'.place.checks = some f := by
      rcases lookup_set hy with ⟨rfl, rfl⟩ | ⟨hv, hy⟩
      · exact ⟨_, x, hx, (hf.checks f hyf).1⟩
      · exact ⟨_, y, hy, hyf⟩
    obtain ⟨v', y', hy', hyf'⟩ := hyf'
    rcases lookup_set hz with ⟨rfl, rfl⟩ | ⟨hu, hz⟩
    · rcases hf.callbacks f hzf with hcb | ⟨-, rfl⟩
      · exact h.callbacks hy' hx hyf' hcb
      · exact absurd (h.known hy' (hchecks hyf')) (lt_irrefl _)
    · exact h.callbacks hy' hz hyf' hzf
  · intro v y hy
    rcases lookup_set hy with ⟨rfl, rfl⟩ | ⟨hv, hy⟩
    · exact hf.fits
    · exact (h.fits hy).congr fun f hyf => h.unchanged hx hf hv hy hyf
  · intro v y f hy hyf
    change f < s.created + e.fresh.toNat
    rcases lookup_set hy with ⟨rfl, rfl⟩ | ⟨hv, hy⟩
    · rcases Worker.holds_iff.1 hyf with hyf | hyf
      · rcases hf.owns f hyf with hown | ⟨hxf, -⟩ | ⟨hfresh, rfl⟩
        · exact Nat.lt_add_right _ (h.known hx (Worker.holds_iff.2 (Or.inl hown)))
        · exact Nat.lt_add_right _ (h.known hx (hchecks hxf))
        · rw [hfresh]
          exact Nat.lt_succ_self _
      · exact Nat.lt_add_right _ (h.known hx (hchecks (hf.checks f hyf).1))
    · exact Nat.lt_add_right _ (h.known hy hyf)
  · intro t f ht htf
    change f < s.created + e.fresh.toNat
    refine Nat.lt_add_right _ ?_
    rcases List.mem_append.1 ht with ht | ht
    · exact h.queued ht htf
    · obtain ⟨p, hp, rfl⟩ := List.mem_map.1 ht
      rcases hf.push p.1 (List.fst_mem_of_mem_zipIdx hp) f htf with hlt | hown
      · exact hlt
      · exact h.known hx (Worker.holds_iff.2 (Or.inl hown))

end Effects

/-- A worker that takes a fiber which nobody holds, or none, keeps the workers apart. -/
theorem Exclusive.move {s s' : Pool} (h : Exclusive s) {w : ThreadId} {x : Worker}
    (hx : s.workers[w]? = some x) (hxp : x.place = .scanning) {p : Place} (hpf : p.fiber = none)
    (hfits : p.Fits s.state x.cbFiber)
    (hpc : ∀ f, p.checks = some f → f < s.created ∧
      ∀ (v : ThreadId) (y : Worker), s.workers[v]? = some y →
        y.cbFiber ≠ some f ∧ (y.holds f = true → hasEnded (s.state f) = true))
    (hworkers : s'.workers = s.workers.set w { x with place := p }) (hstate : s'.state = s.state)
    (hcreated : s'.created = s.created) (hfibers : ∀ e ∈ s'.fibers, e ∈ s.fibers) :
    Exclusive s' := by
  have hown : ∀ {f : FiberId}, Worker.owns { x with place := p } f = true → x.owns f = true := by
    intro f hf
    rw [Worker.owns_iff] at hf ⊢
    rcases hf with hf | hf
    · cases hpf.symm.trans hf
    · exact Or.inr hf
  constructor
  · intro v u y z f hy hz hyf hzf
    rw [hworkers] at hy hz
    rcases lookup_set hy with ⟨rfl, rfl⟩ | ⟨-, hy₀⟩ <;>
      rcases lookup_set hz with ⟨rfl, rfl⟩ | ⟨-, hz₀⟩
    · rfl
    · exact h.owns hx hz₀ (hown hyf) hzf
    · exact h.owns hy₀ hx hyf (hown hzf)
    · exact h.owns hy₀ hz₀ hyf hzf
  · intro v u y z f hy hz hvu hyf hzf
    rw [hworkers] at hy hz
    rw [hstate]
    rcases lookup_set hy with ⟨rfl, rfl⟩ | ⟨hv, hy₀⟩ <;>
      rcases lookup_set hz with ⟨rfl, rfl⟩ | ⟨hu, hz₀⟩
    · exact absurd rfl hvu
    · exact ((hpc f hyf).2 u z hz₀).2 hzf
    · rcases Worker.holds_iff.1 hzf with hzf | hzf
      · exact h.checks hy₀ hx hv hyf (Worker.holds_iff.2 (Or.inl (hown hzf)))
      · exact ((hpc f hzf).2 v y hy₀).2 (Worker.holds_iff.2 (Or.inr hyf))
    · exact h.checks hy₀ hz₀ hvu hyf hzf
  · intro v u y z f hy hz hyf hzf
    rw [hworkers] at hy hz
    have hz' : ∃ (u' : ThreadId) (z' : Worker), s.workers[u']? = some z' ∧ z'.cbFiber = some f := by
      rcases lookup_set hz with ⟨rfl, rfl⟩ | ⟨-, hz₀⟩
      · exact ⟨_, x, hx, hzf⟩
      · exact ⟨_, z, hz₀, hzf⟩
    obtain ⟨u', z', hz', hzf'⟩ := hz'
    rcases lookup_set hy with ⟨rfl, rfl⟩ | ⟨-, hy₀⟩
    · exact ((hpc f hyf).2 u' z' hz').1 hzf'
    · exact h.callbacks hy₀ hz' hyf hzf'
  · intro v y hy
    rw [hworkers] at hy
    rw [hstate]
    rcases lookup_set hy with ⟨rfl, rfl⟩ | ⟨-, hy₀⟩
    · exact ⟨hfits, fun f hf _ => (h.fits hx).kept f hf (by rw [hxp]; nofun)⟩
    · exact h.fits hy₀
  · intro v y f hy hyf
    rw [hworkers] at hy
    rw [hcreated]
    rcases lookup_set hy with ⟨rfl, rfl⟩ | ⟨-, hy₀⟩
    · rcases Worker.holds_iff.1 hyf with hyf | hyf
      · exact h.known hx (Worker.holds_iff.2 (Or.inl (hown hyf)))
      · exact (hpc f hyf).1
    · exact h.known hy₀ hyf
  · intro e f he hf
    rw [hcreated]
    exact h.queued (hfibers e he) hf

/-- **A scan** that is not careless keeps the workers apart.  The fiber it takes is held by
nobody, or has ended. -/
theorem Exclusive.scan {s : Pool} (h : Exclusive s) {w : ThreadId} {x : Worker}
    (hx : s.workers[w]? = some x) (hxp : x.place = .scanning)
    (hcare : s.careless (.worker w .go) = false) : Exclusive (s.scan w x) := by
  rcases scanLoop_spec s w s.fibers with ⟨-, hscan⟩ | ⟨pre, e, post, hfibers, -, hallowed, hscan⟩
  · have hnext : s.scan w x =
        { s with workers := s.workers.set w { x with place := .foundNone } } := by
      rw [Pool.scan, hscan]
    rw [hnext]
    exact h.move (p := .foundNone) hx hxp rfl trivial (fun _ h => by cases h) rfl rfl rfl
      fun _ he => he
  · have hrest : ∀ e' ∈ pre ++ post, e' ∈ s.fibers := by
      intro e' he'
      rw [hfibers]
      exact (List.mem_append.1 he').elim (List.mem_append_left _)
        fun he' => List.mem_append_right _ (List.mem_cons_of_mem _ he')
    have hmem : e ∈ s.fibers := hfibers ▸ List.mem_append_right _ (List.mem_cons_self ..)
    rw [allowed, Bool.and_eq_true, Bool.not_eq_true'] at hallowed
    rw [Pool.scan, hscan]
    obtain ⟨stamp, ⟨task, thread⟩⟩ := e
    cases task with
    | cb =>
        exact h.move (p := .callback) hx hxp rfl trivial (fun _ h => by cases h) rfl rfl rfl hrest
    | fiber f =>
        have hexec : s.state f ≠ .exec := by
          intro hexec
          have hno : (s.state f == .exec) = false := hallowed.2
          rw [hexec] at hno
          cases hno
        have hnocare : ∀ (v : ThreadId) (y : Worker), s.workers[v]? = some y →
            y.cbFiber ≠ some f ∧ (y.holds f = true → hasEnded (s.state f) = true) := by
          intro v y hy
          have hin := List.mem_of_getElem? hy
          rw [careless, hx, Option.any_some, hxp, hscan] at hcare
          simp only [beq_self_eq_true, Bool.true_and, Bool.or_eq_false_iff, List.any_eq_false,
            Bool.and_eq_false_iff, Bool.not_eq_false', beq_iff_eq] at hcare
          refine ⟨hcare.1 y hin, fun hyf => ?_⟩
          exact hcare.2.resolve_right fun hnone => hnone y hin hyf
        have hfits : Place.Fits s.state x.cbFiber (.checking f [.term, .except]) := by
          refine ⟨hexec, fun hover => ?_⟩
          cases hs : s.state f <;> rw [hs] at hover <;> first | decide | cases hover
        refine h.move hx hxp rfl hfits (fun g hg => ?_) rfl rfl rfl hrest
        obtain rfl := Option.some.inj hg
        exact ⟨h.queued hmem rfl, hnocare⟩

/-- A worker that holds nothing joins.  It knows nothing yet. -/
theorem Exclusive.enter {s : Pool} (h : Exclusive s) :
    Exclusive { s with workers := s.workers ++ [⟨.scanning, none, false⟩] } := by
  have hlook : ∀ {v : ThreadId} {y : Worker},
      (s.workers ++ [⟨.scanning, none, false⟩])[v]? = some y →
        s.workers[v]? = some y ∨ y = ⟨.scanning, none, false⟩ := by
    intro v y hy
    rw [List.getElem?_append] at hy
    split at hy
    next => exact Or.inl hy
    next => exact Or.inr (List.mem_singleton.1 (List.mem_of_getElem? hy))
  constructor
  · intro v u y z f hy hz hyf hzf
    rcases hlook hy with hy | rfl
    · rcases hlook hz with hz | rfl
      · exact h.owns hy hz hyf hzf
      · cases hzf
    · cases hyf
  · intro v u y z f hy hz hvu hyf hzf
    rcases hlook hy with hy | rfl
    · rcases hlook hz with hz | rfl
      · exact h.checks hy hz hvu hyf hzf
      · cases hzf
    · cases hyf
  · intro v u y z f hy hz hyf
    rcases hlook hy with hy | rfl
    · rcases hlook hz with hz | rfl
      · exact h.callbacks hy hz hyf
      · nofun
    · cases hyf
  · intro v y hy
    rcases hlook hy with hy | rfl
    · exact h.fits hy
    · exact ⟨trivial, nofun⟩
  · intro v y f hy hyf
    rcases hlook hy with hy | rfl
    · exact h.known hy hyf
    · cases hyf
  · exact h.queued

/-- **A step** that is not careless keeps the workers apart.  By cases on the step. -/
theorem Exclusive.step {s s' : Pool} (h : Exclusive s) {a : Step}
    (hs : carefulStep a s = some s') : Exclusive s' := by
  obtain ⟨hcare, hs⟩ := Option.ite_none_left_eq_some.1 hs
  rw [Bool.not_eq_true] at hcare
  cases a with
  | enter =>
      obtain rfl := Option.some.inj hs
      exact h.enter
  | create =>
      obtain rfl := Option.some.inj hs
      have hstate : ∀ {f : FiberId}, f < s.created →
          Function.update s.state s.created .init f = s.state f := fun hf =>
        Function.update_of_ne hf.ne ..
      refine ⟨h.owns, ?_, h.callbacks, ?_, fun hx hf => Nat.lt_succ_of_lt (h.known hx hf),
        fun he hf => Nat.lt_succ_of_lt (h.queued he hf)⟩
      · intro v w x y f hx hy hvw hxf hyf
        change hasEnded (Function.update s.state s.created .init f) = true
        rw [hstate (h.known hy hyf)]
        exact h.checks hx hy hvw hxf hyf
      · exact fun hx => (h.fits hx).congr fun f hf => hstate (h.known hx hf)
  | schedule thread fcs =>
      obtain ⟨hknown, hs⟩ := Option.ite_none_right_eq_some.1 hs
      obtain rfl := Option.some.inj hs
      rw [Bool.and_eq_true] at hknown
      refine ⟨h.owns, h.checks, h.callbacks, h.fits, h.known, fun he hf => ?_⟩
      rcases List.mem_append.1 he with he | he
      · exact h.queued he hf
      · obtain ⟨p, hp, rfl⟩ := List.mem_map.1 he
        exact lt_created hknown.2 (List.fst_mem_of_mem_zipIdx hp) hf
  | autoStop =>
      obtain rfl := Option.some.inj hs
      exact ⟨h.owns, h.checks, h.callbacks, h.fits, h.known, h.queued⟩
  | stop =>
      obtain rfl := Option.some.inj hs
      exact ⟨h.owns, h.checks, h.callbacks, h.fits, h.known, h.queued⟩
  | worker w a =>
      obtain ⟨x, hx, ⟨hplace, rfl, rfl⟩ | ⟨-, e, he, rfl⟩⟩ := worker_cases hs
      · exact h.scan hx hplace hcare
      · exact h.apply hx (next_fair he (h.fits hx) fun f hf => h.callbacks hx hx hf)

/-- It holds before any worker joins. -/
theorem init_exclusive : Exclusive init := ⟨nofun, nofun, nofun, nofun, nofun, nofun⟩

/-- The assertions that a worker is in hold: `state_ != EXEC` in `resume`, and in `reset` that
the state is one of those still to be compared with.  At other places there is none. -/
def Place.asserts (state : FiberId → FiberState) : Place → Bool
  | .resuming _ f => state f != .exec
  | .resetting _ f left => left.contains (state f)
  | _ => true

/-- **A fiber is on one worker at most**, and no assertion of `resume` or `reset` fails, in
every state that steps without careless scans lead to, whatever is scheduled, yields, ends or is
switched to.  A careless scan is one that takes a fiber which is queued while its worker is
still on the way out of it, as `switchTo` (`src/hiper/base/scheduler.cc:324-326`) does, which
schedules first and yields after; the scan's own test, line 207, asks for the state `EXEC`
alone. -/
theorem fiber_on_one_worker {s : Pool} (h : Reachable carefulStep init s) :
    (∀ (v w : ThreadId) (x y : Worker) (f : FiberId), s.workers[v]? = some x →
        s.workers[w]? = some y → x.place.runs = some f → y.place.runs = some f → v = w) ∧
      ∀ (w : ThreadId) (x : Worker), s.workers[w]? = some x → x.place.asserts s.state = true := by
  have hex : Exclusive s := h.invariant init_exclusive fun _ _ _ hI hs => hI.step hs
  have howns : ∀ {x : Worker} {f : FiberId}, x.place.runs = some f → x.owns f = true := by
    intro x f hf
    rw [Worker.owns_iff]
    left
    cases hp : x.place <;> rw [hp] at hf <;> first | exact hf | cases hf
  refine ⟨fun v w x y f hx hy hxf hyf => hex.owns hx hy (howns hxf) (howns hyf), fun w x hx => ?_⟩
  have hfits := (hex.fits hx).place
  cases hp : x.place with
  | resuming hand f =>
      rw [hp] at hfits
      exact bne_iff_ne.2 hfits.2.1
  | resetting after f left =>
      rw [hp] at hfits
      exact List.contains_iff_mem.2 hfits.2
  | _ => rfl

/-- The worker goes on, `n` times.  At each place there is one thing to do. -/
def goes (w : ThreadId) (n : ℕ) : List Step := List.replicate n (.worker w .go)

/-- A fiber that yields to `HOLD` and is scheduled again when it is back.  The scan is not
careless then. -/
def backSteps : List Step :=
  [.enter, .enter, .create, .schedule none [some (.fiber 0)]] ++ goes 0 7 ++
    [.worker 0 .yieldToHold] ++ goes 0 8 ++ [.schedule none [some (.fiber 0)]] ++ goes 1 7

/-- It goes on on the other worker, and on that one alone. -/
theorem fiber_on_one_worker_back :
    ∃ s, run carefulStep backSteps init = some s ∧
      (s.workers.map fun x => x.place.runs) = [none, some 0] ∧
      (∀ (v w : ThreadId) (x y : Worker) (f : FiberId), s.workers[v]? = some x →
        s.workers[w]? = some y → x.place.runs = some f → y.place.runs = some f → v = w) := by
  obtain ⟨s, hs, hruns⟩ : ∃ s, run carefulStep backSteps init = some s ∧
      (s.workers.map fun x => x.place.runs) = [none, some 0] := ⟨_, rfl, rfl⟩
  exact ⟨s, hs, hruns, (fiber_on_one_worker (Reachable.init.run hs)).1⟩

/-- A fiber calls `switchTo(1)`; when it has written `HOLD`, and its context is not yet saved,
worker 1 takes it from the queue and resumes it.  `switchTo` schedules the fiber before it
yields. -/
def switchSteps : List Step :=
  [.enter, .enter, .create, .schedule none [some (.fiber 0)]] ++ goes 0 7 ++
    [.worker 0 (.switchTo (some 1))] ++ goes 0 2 ++ goes 1 7

/-- A new fiber is scheduled twice; both workers take it before either has written `EXEC`.
Nothing keeps a fiber from being scheduled twice. -/
def twiceSteps : List Step :=
  [.enter, .enter, .create, .schedule none [some (.fiber 0), some (.fiber 0)]] ++ goes 0 5 ++
    goes 1 4 ++ goes 0 1

/-- One fiber is on two workers; and in another run `resume`'s assertion fails.  With the second
run the assertion of `resume` fails. -/
theorem switched_fiber_on_two_workers :
    (∃ s, run step switchSteps init = some s ∧
      s.workers.map (fun x => x.place.runs) = [some 0, some 0]) ∧
    ∃ s, run step twiceSteps init = some s ∧
      s.workers.map (fun x => x.place.asserts s.state) = [true, false] :=
  ⟨⟨_, rfl, rfl⟩, _, rfl, rfl⟩

end Hiper.Scheduler.Pool

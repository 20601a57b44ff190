import Hiper.IOManager.Basic
import Hiper.Lib.Slots
import Mathlib.Algebra.Group.Nat.Defs

/-!
# The table of the contexts

`iomanager.cc`: `fd_contexts_` is a vector of pointers to contexts.  The constructor
fills 32 of them by `contextResize`, which makes a context for every slot that has
none; `addEvent`, when its descriptor is behind the end, grows the vector by a bare
`resize(fd * 1.5)` under a lock that it takes after letting go of the one it
compared under, and takes the pointer that stands there then.

A look-up under the read lock, the growth under the write lock and the locking of
the context that was found are steps of their own, and the calls of any number of
threads interleave.  Every look-up of `addEvent` finds the context of its
descriptor, no context leaves its slot, and no null pointer is followed in a run in
which `addEvent` never grows the table, and in no other (`table_sound_iff`): the
slots that it adds are null pointers.

The places are `src/hiper/base/iomanager.cc:145-154`, `:489` (`contextResize`) and the
look-ups at `:200`, `:245` and `:287`.  The comment above the first (`:142`) says that a
context which does not exist is made; `contextResize` would make it, the bare `resize` does
not.
-/

namespace Hiper

namespace IOManager

open Lib

/-- A context as the table has it: its `fd`, and which `new FdContext` made it.  The second part
tells contexts apart. -/
structure Slot where
  fd : ℕ
  id : ℕ
  deriving DecidableEq, Repr

/-- Where a call stands.  A call is found by its number. -/
inductive Phase
  | idle
  /-- `addEvent` has let go of the read lock, and will take the write lock. -/
  | growing (fd : ℕ)
  /-- It has its `fd_ctx`. -/
  | found (ctx : Option Slot)
  deriving DecidableEq, Repr

/-- `fd_contexts_`, where the calls stand, and the look-ups that `addEvent` has done: the
descriptor and what `fd_ctx` became.  `crashed`: a null `fd_ctx` was followed.  The last three
fields are for the statements. -/
structure Table where
  fdContexts : List (Option Slot)
  allocs : ℕ
  phase : ℕ → Phase
  lookups : List (ℕ × Option Slot)
  crashed : Bool

namespace Table

/-- `(int)fd_contexts_.size()`.  A table of `2 ^ 31` slots would have a negative one. -/
def intSize (t : Table) : ℤ := (t.fdContexts.length : ℤ).bmod (2 ^ 32)

/-- `fd_contexts_[fd]`.  Nothing behind the end, and for a null pointer. -/
def slot (fd : ℕ) (t : Table) : Option Slot := Lib.slot t.fdContexts fd

/-- The loop of `contextResize`, from slot `i` on.  Slots that have a context keep it. -/
def fill : ℕ → ℕ → List (Option Slot) → List (Option Slot) × ℕ
  | _, allocs, [] => ([], allocs)
  | i, allocs, some ctx :: rest =>
    let (rest, allocs) := fill (i + 1) allocs rest
    (some ctx :: rest, allocs)
  | i, allocs, none :: rest =>
    let (rest, allocs') := fill (i + 1) (allocs + 1) rest
    (some ⟨i, allocs⟩ :: rest, allocs')

/-- `contextResize(size)`.  The new slots are filled. -/
def contextResize (size : ℕ) (t : Table) : Table :=
  let (fdContexts, allocs) := fill 0 t.allocs (resize size t.fdContexts)
  { t with fdContexts := fdContexts, allocs := allocs }

/-- After the constructor.  It has 32 contexts. -/
def init : Table := contextResize 32 ⟨[], 0, fun _ => .idle, [], false⟩

/-- The sections of the calls.  Those of one call come in their order, those of others between
them. -/
inductive Step
  /-- `addEvent(fd, ..)` under the read lock. -/
  | lookup (call fd : ℕ)
  /-- Under the write lock. -/
  | grow (call : ℕ)
  /-- `delEvent`, `cancelEvent` or `cancelAll` of `fd` under the read lock. -/
  | find (call fd : ℕ)
  /-- `fd_ctx->mutex` is locked. -/
  | use (call : ℕ)
  deriving DecidableEq, Repr

/-- A section of a call, while the process is alive.  The growth compares nothing again. -/
def live : Step → Table → Option Table
  | .lookup call fd, t =>
    match t.phase call with
    | .idle =>
      if t.intSize > fd then
        some { t with
          phase := Function.update t.phase call (.found (t.slot fd))
          lookups := t.lookups ++ [(fd, t.slot fd)] }
      else some { t with phase := Function.update t.phase call (.growing fd) }
    | _ => none
  | .grow call, t =>
    match t.phase call with
    | .growing fd =>
      -- `fd * 1.5` is exact, and made an integer by cutting off
      let t := { t with fdContexts := resize (fd * 3 / 2) t.fdContexts }
      some { t with
        phase := Function.update t.phase call (.found (t.slot fd))
        lookups := t.lookups ++ [(fd, t.slot fd)] }
    | _ => none
  | .find call fd, t =>
    match t.phase call with
    | .idle =>
      if t.intSize ≤ fd then some t
      else some { t with phase := Function.update t.phase call (.found (t.slot fd)) }
    | _ => none
  | .use call, t =>
    match t.phase call with
    | .found ctx =>
      some { t with phase := Function.update t.phase call .idle, crashed := ctx.isNone }
    | _ => none

/-- A section of a call.  After a crash there is none. -/
def step (a : Step) (t : Table) : Option Table := if t.crashed then none else live a t

/-- `addEvent` grows the table.  It is the section under the write lock. -/
def Step.grows : Step → Bool
  | .grow _ => true
  | _ => false

/-- Every context of `t` is where it was, in `t'`.  It is a condition on the slots that have
one. -/
def Keeps (t t' : Table) : Prop :=
  ∀ (i : ℕ) (ctx : Slot), t.fdContexts[i]? = some (some ctx) → t'.fdContexts[i]? = some (some ctx)

/-- What is promised of a state: every look-up found the context of its descriptor, which is
still there, and no null pointer was followed.  A state in which a look-up found nothing does
not have it. -/
structure Found (t : Table) : Prop where
  lookups : ∀ e ∈ t.lookups, ∃ ctx, e.2 = some ctx ∧ ctx.fd = e.1 ∧
    t.fdContexts[e.1]? = some (some ctx)
  alive : t.crashed = false

/-- What is promised of a run: it ends in such a state, and no context left its slot on the way.
The slots are compared between any two states of the run. -/
def Sound (as : List Step) (t : Table) : Prop :=
  t.Found ∧ ∀ as₁ as₂ t₁, as = as₁ ++ as₂ → run step as₁ init = some t₁ → t₁.Keeps t

variable {t t' : Table} {a : Step}

/-! ### One section -/

/-- The table with `call` in another phase.  The slots stay. -/
def setPhase (call : ℕ) (p : Phase) (t : Table) : Table :=
  { t with phase := Function.update t.phase call p }

/-- The look-up of `addEvent` is done.  What it found is noted. -/
def done (call fd : ℕ) (t : Table) : Table :=
  { t.setPhase call (.found (t.slot fd)) with lookups := t.lookups ++ [(fd, t.slot fd)] }

/-- The table grown by `addEvent`.  What is added is null pointers; what is behind the new end
is dropped. -/
def grown (fd : ℕ) (t : Table) : Table :=
  { t with fdContexts := resize (fd * 3 / 2) t.fdContexts }

/-- What a section does.  Everything that follows is read off here. -/
theorem step_cases (h : step a t = some t') :
    (∃ call fd, a = .lookup call fd ∧ (fd : ℤ) < t.intSize ∧ t' = t.done call fd) ∨
    (∃ call fd, a = .lookup call fd ∧ t.intSize ≤ fd ∧ t' = t.setPhase call (.growing fd)) ∨
    (∃ call fd, a = .grow call ∧ t.phase call = .growing fd ∧ t' = (t.grown fd).done call fd) ∨
    (∃ call fd, a = .find call fd ∧ t' = t) ∨
    (∃ call fd, a = .find call fd ∧ (fd : ℤ) < t.intSize ∧
      t' = t.setPhase call (.found (t.slot fd))) ∨
    ∃ call ctx, a = .use call ∧ t.phase call = .found ctx ∧
      t' = { t.setPhase call .idle with crashed := ctx.isNone } := by
  unfold step at h
  split_ifs at h
  cases a with
  | lookup call fd =>
      simp only [live] at h
      split at h
      · split_ifs at h with hsize
        · cases h
          exact Or.inl ⟨call, fd, rfl, hsize, rfl⟩
        · cases h
          exact Or.inr (Or.inl ⟨call, fd, rfl, Int.not_lt.1 hsize, rfl⟩)
      · cases h
  | grow call =>
      simp only [live] at h
      split at h
      · rename_i fd hphase
        cases h
        exact Or.inr (Or.inr (Or.inl ⟨call, fd, rfl, hphase, rfl⟩))
      · cases h
  | find call fd =>
      simp only [live] at h
      split at h
      · split_ifs at h with hsize
        · cases h
          exact Or.inr (Or.inr (Or.inr (Or.inl ⟨call, fd, rfl, rfl⟩)))
        · cases h
          exact Or.inr (Or.inr (Or.inr (Or.inr (Or.inl ⟨call, fd, rfl, Int.not_le.1 hsize, rfl⟩))))
      · cases h
  | use call =>
      simp only [live] at h
      split at h
      · rename_i ctx hphase
        cases h
        exact Or.inr (Or.inr (Or.inr (Or.inr (Or.inr ⟨call, ctx, rfl, hphase, rfl⟩))))
      · cases h

/-- A section adds to the look-ups.  So one that found nothing is not forgotten. -/
theorem step_lookups (h : step a t = some t') : ∀ e ∈ t.lookups, e ∈ t'.lookups := by
  intro e he
  rcases step_cases h with ⟨call, fd, -, -, rfl⟩ | ⟨call, fd, -, -, rfl⟩ | ⟨call, fd, -, -, rfl⟩ |
    ⟨call, fd, -, rfl⟩ | ⟨call, fd, -, -, rfl⟩ | ⟨call, ctx, -, -, rfl⟩
  · exact List.mem_append_left _ he
  · exact he
  · exact List.mem_append_left _ he
  · exact he
  · exact he
  · exact he

/-! ### While the table has not grown -/

/-- The constructor makes 32 slots. -/
theorem init_length : init.fdContexts.length = 32 := by decide

/-- Each has its context. -/
theorem init_slot {fd : ℕ} (h : fd < 32) : init.slot fd = some ⟨fd, fd⟩ := by
  revert fd
  decide

/-- Each has its context, as a slot. -/
theorem init_getElem? {fd : ℕ} (h : fd < 32) : init.fdContexts[fd]? = some (some ⟨fd, fd⟩) := by
  revert fd
  decide

/-- The table is the one of the constructor, and every call has found its context there or has a
descriptor that is behind the end.  It is the invariant of the runs that do not grow. -/
structure Fresh (t : Table) : Prop where
  fdContexts : t.fdContexts = init.fdContexts
  lookups : ∀ e ∈ t.lookups, e.1 < 32 ∧ e.2 = some ⟨e.1, e.1⟩
  growing : ∀ call fd, t.phase call = .growing fd → 32 ≤ fd
  found : ∀ call, t.phase call ≠ .found none
  alive : t.crashed = false

/-- It holds after the constructor. -/
theorem init_fresh : init.Fresh where
  fdContexts := rfl
  lookups := by
    intro e he
    cases he
  growing := by
    intro call fd h
    cases h
  found := by
    intro call h
    cases h
  alive := rfl

/-- The size is 32. -/
theorem Fresh.intSize (h : t.Fresh) : t.intSize = 32 := by
  have hlength : t.fdContexts.length = 32 := by rw [h.fdContexts, init_length]
  unfold Table.intSize
  simp [hlength, Int.bmod]

/-- A descriptor in front of the end has its context. -/
theorem Fresh.slot (h : t.Fresh) {fd : ℕ} (hfd : (fd : ℤ) < t.intSize) :
    fd < 32 ∧ t.slot fd = some ⟨fd, fd⟩ := by
  rw [h.intSize] at hfd
  have hlt : fd < 32 := by omega
  refine ⟨hlt, ?_⟩
  rw [Table.slot, h.fdContexts]
  exact init_slot hlt

/-- A call may go on, with what it found. -/
theorem Fresh.setPhase (h : t.Fresh) {call : ℕ} {p : Phase}
    (hgrowing : ∀ fd, p = .growing fd → 32 ≤ fd) (hfound : p ≠ .found none) :
    (t.setPhase call p).Fresh := by
  refine { h with growing := ?_, found := ?_ }
  · intro c fd hc
    change Function.update t.phase call p c = .growing fd at hc
    rw [Function.update_apply] at hc
    split_ifs at hc
    · exact hgrowing fd hc
    · exact h.growing c fd hc
  · intro c hc
    change Function.update t.phase call p c = .found none at hc
    rw [Function.update_apply] at hc
    split_ifs at hc
    · exact hfound hc
    · exact h.found c hc

/-- A section that does not grow keeps it. -/
theorem Fresh.step (h : t.Fresh) (ha : a.grows = false) (hstep : step a t = some t') :
    t'.Fresh := by
  rcases step_cases hstep with ⟨call, fd, -, hsize, rfl⟩ | ⟨call, fd, -, hsize, rfl⟩ |
    ⟨call, fd, rfl, -, -⟩ | ⟨call, fd, -, rfl⟩ | ⟨call, fd, -, hsize, rfl⟩ |
    ⟨call, ctx, -, hphase, rfl⟩
  · obtain ⟨hlt, hslot⟩ := h.slot hsize
    have hphase : (t.setPhase call (.found (t.slot fd))).Fresh :=
      h.setPhase nofun (by rw [hslot]; nofun)
    refine { hphase with lookups := ?_ }
    intro e he
    rcases List.mem_append.1 he with he | he
    · exact h.lookups e he
    · rw [List.mem_singleton.1 he]
      exact ⟨hlt, hslot⟩
  · rw [h.intSize] at hsize
    refine h.setPhase (fun fd' heq => ?_) nofun
    cases heq
    omega
  · cases ha
  · exact h
  · obtain ⟨-, hslot⟩ := h.slot hsize
    exact h.setPhase nofun (by rw [hslot]; nofun)
  · have hidle : (t.setPhase call .idle).Fresh := h.setPhase nofun nofun
    refine { hidle with alive := ?_ }
    cases ctx with
    | none => exact absurd hphase (h.found call)
    | some ctx => rfl

/-- What is promised of a state holds. -/
theorem Fresh.found_state (h : t.Fresh) : t.Found where
  lookups := by
    intro e he
    obtain ⟨hlt, hslot⟩ := h.lookups e he
    refine ⟨⟨e.1, e.1⟩, hslot, rfl, ?_⟩
    rw [h.fdContexts]
    exact init_getElem? hlt
  alive := h.alive

/-- The first growth makes a look-up that finds nothing.  The slot of the descriptor was added
with a null pointer in it. -/
theorem Fresh.grow (h : t.Fresh) {call : ℕ} (hstep : Table.step (.grow call) t = some t') :
    ∃ fd, (fd, none) ∈ t'.lookups := by
  rcases step_cases hstep with ⟨_, _, heq, -⟩ | ⟨_, _, heq, -⟩ | ⟨call, fd, -, hphase, rfl⟩ |
    ⟨_, _, heq, -⟩ | ⟨_, _, heq, -⟩ | ⟨_, _, heq, -⟩
  · cases heq
  · cases heq
  · have hfd := h.growing call fd hphase
    have hlength : t.fdContexts.length = 32 := by rw [h.fdContexts, init_length]
    have hnone : (t.grown fd).slot fd = none := by
      rw [Table.slot, grown, slot_resize, slot_of_length_le (by omega)]
      split_ifs <;> rfl
    refine ⟨fd, List.mem_append_right _ ?_⟩
    rw [hnone]
    exact List.mem_singleton.2 rfl
  · cases heq
  · cases heq
  · cases heq

/-! ### Whole runs -/

/-- A run without a growth keeps it.  The induction is over the sections. -/
theorem Fresh.run {as : List Step} (h : t.Fresh) (has : ∀ a ∈ as, a.grows = false)
    (hrun : Lib.run Table.step as t = some t') : t'.Fresh :=
  Meets.invariant (fun _ _ _ h ha hstep => h.step ha hstep) h ((meets_iff_forall hrun).2 has) hrun

/-- After a growth a look-up has found nothing.  It stays noted to the end. -/
theorem Fresh.run_grows {as : List Step} (h : t.Fresh) (has : ¬∀ a ∈ as, a.grows = false)
    (hrun : Lib.run Table.step as t = some t') : ∃ fd, (fd, none) ∈ t'.lookups := by
  rcases meets_or_first (C := fun a _ => a.grows = false) (fun _ _ _ h ha hstep => Fresh.step h ha hstep)
    h hrun with hmeets | ⟨a, t₁, t₂, -, h₁, hgrows, hstep, hreach⟩
  · exact absurd ((meets_iff_forall hrun).1 hmeets) has
  · cases a with
    | grow call =>
        obtain ⟨fd, hfd⟩ := h₁.grow hstep
        exact ⟨fd, hreach.invariant (I := fun t => (fd, none) ∈ t.lookups) hfd
          fun _ _ _ hfd hstep => step_lookups hstep _ hfd⟩
    | lookup call fd => exact absurd rfl hgrows
    | find call fd => exact absurd rfl hgrows
    | use call => exact absurd rfl hgrows

/-- **The table is sound** in the runs in which `addEvent` never grows it, and in no other.  Any
number of threads may call `addEvent`, `delEvent`, `cancelEvent` and `cancelAll`, for any
descriptors; those below 32 never make it grow, and the first one that is 32 or more does.
`addEvent` grows the table by `fd_contexts_.resize(fd * 1.5)`
(`src/hiper/base/iomanager.cc:152`), which fills it with null pointers, and takes the lock of
the context that it finds there, line 157; `contextResize` (489), which makes the objects, is
called by the constructor alone. -/
theorem table_sound_iff (as : List Step) (t : Table) (hrun : run step as init = some t) :
    Sound as t ↔ ∀ a ∈ as, a.grows = false := by
  constructor
  · rintro ⟨hfound, -⟩
    by_contra hgrows
    obtain ⟨fd, hfd⟩ := init_fresh.run_grows hgrows hrun
    obtain ⟨ctx, hctx, -⟩ := hfound.lookups _ hfd
    cases hctx
  · intro has
    have hfresh := init_fresh.run has hrun
    refine ⟨hfresh.found_state, ?_⟩
    rintro as₁ as₂ t₁ rfl hrun₁
    have hfresh₁ := init_fresh.run (fun a ha => has a (List.mem_append_left _ ha)) hrun₁
    intro i ctx hi
    rw [hfresh.fdContexts, ← hfresh₁.fdContexts]
    exact hi

/-- Two calls for one descriptor, one inside the other. -/
theorem table_sound_five : ∃ t : Table,
    run step [.lookup 0 5, .find 1 5, .use 1, .use 0] init = some t ∧
      Sound [.lookup 0 5, .find 1 5, .use 1, .use 0] t :=
  ⟨_, rfl, (table_sound_iff [.lookup 0 5, .find 1 5, .use 1, .use 0] _ rfl).2 (by decide)⟩

/-- The first descriptor behind the end: `addEvent` follows a null pointer. -/
theorem table_grown_null : ∃ t : Table,
    run step [.lookup 0 32, .grow 0, .use 0] init = some t ∧ t.lookups = [(32, none)] ∧
      t.crashed = true ∧ ¬Sound [.lookup 0 32, .grow 0, .use 0] t := by
  refine ⟨_, rfl, rfl, rfl, ?_⟩
  rintro ⟨hfound, -⟩
  cases hfound.alive

end Table

end IOManager

end Hiper

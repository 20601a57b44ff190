import Hiper.Hook.FdManager
import Hiper.Lib.Machine
import Mathlib.Algebra.Group.Nat.Defs
import Mathlib.Data.Int.Notation

/-!
# The contexts of descriptors, shared by threads

`fdmanager.cc`: `FdManager::get(fd, true)` looks its context up under the read lock,
and makes one under the write lock when it found none; between the two it holds no
lock, and it does not look again.  `del` takes the write lock.

A context is an object of its own here, and `datas_` has pointers; every locked
section is a step, and the calls of any number of threads interleave.  A log has
what was returned, deleted and written, newest first.  By the log a descriptor has
one context, which is new when `get(fd, true)` returns one for the first time after
`del(fd)` and takes every setting made through an object returned since (`context`).
The manager keeps to it in the runs in which no call that creates finds that another
has created in between, and in no other (`one_context_iff`), as long as the table
has a size that fits in an `int`, which it has while the descriptors are small
(`meets_fits`).  `get(-1)`, which is answered without a lock, is left out.

The functions are `fdmanager.cc:83` (`get`) and `fdmanager.cc:108` (`del`), with the setters
of `FdCtx` (`fdmanager.cc:61`, `fdmanager.h`).  Objects are never freed here, since a thread
that has a pointer may go on using it after `del`; such a use is a `wrote` of an object that
is no longer the context of anything.  Equality of the two conditions is shown step by step:
a section keeps to one context exactly when it does not create where one is
(`OneContext.step_iff`).
-/

namespace Hiper

open Lib

/-- What is set through a pointer to a context: `setUserNonblock(v)`, `setSysNonblock(v)` or
`setTimeout(type, v)`.  They are the setters of `fdmanager.h`. -/
inductive Setting
  | userNonblock (v : Bool)
  | sysNonblock (v : Bool)
  | timeout (type : ℤ) (v : UInt64)
  deriving DecidableEq, Repr

/-- `SO_RCVTIMEO`.  On Linux it is 20. -/
def soRcvtimeo : ℤ := 20

/-- `FdCtx::setTimeout(type, v)`.  Any other type sets the timeout for sending
(`fdmanager.cc:61`). -/
def FdCtx.setTimeout (type : ℤ) (v : UInt64) (ctx : FdCtx) : FdCtx :=
  if type = soRcvtimeo then { ctx with recvTimeout := v } else { ctx with sendTimeout := v }

/-- The setting, made.  The other fields stay. -/
def Setting.apply : Setting → FdCtx → FdCtx
  | .userNonblock v, ctx => { ctx with userNonblock := v }
  | .sysNonblock v, ctx => { ctx with sysNonblock := v }
  | .timeout type v, ctx => ctx.setTimeout type v

namespace FdTable

/-- What has happened.  `got`: which object `get(fd, auto_create)` returned, if any, and what it
said then.  They are what a user of the manager can tell. -/
inductive Event
  | got (fd : ℕ) (autoCreate : Bool) (obj : Option ℕ) (said : Option FdCtx)
  | del (fd : ℕ)
  | wrote (obj : ℕ) (s : Setting)
  deriving DecidableEq, Repr

/-- Where a call of `get` stands.  A call that is between its locks has found no context under
the first. -/
inductive Phase
  | idle
  /-- It has let go of the read lock, and will take the write lock. -/
  | creating (fd : ℕ)
  deriving DecidableEq, Repr

end FdTable

open FdTable

/-- `FdManager` with its contexts as objects, where the calls stand, and the log.  A pointer in
`datas_` is a place in the list of objects. -/
structure FdTable where
  datas : List (Option ℕ)
  heap : List FdCtx
  phase : ℕ → Phase
  log : List Event

namespace FdTable

/-- `FdManager::FdManager()`.  The table has 64 null pointers (`fdmanager.cc:79`). -/
def init : FdTable := ⟨resize 64 [], [], fun _ => .idle, []⟩

/-- `(int)datas_.size()`.  It wraps when the table is too large. -/
def intSize (t : FdTable) : ℤ := (t.datas.length : ℤ).bmod (2 ^ 32)

/-- `datas_[fd]`.  Behind the end there is none. -/
def slot (fd : ℕ) (t : FdTable) : Option ℕ := Lib.slot t.datas fd

/-- What the context at `datas_[fd]` says.  It is the object's own fields at that time. -/
def said (fd : ℕ) (t : FdTable) : Option FdCtx := (t.slot fd).bind (t.heap[·]?)

/-- The table with `call` in another phase.  The others stay where they are. -/
def setPhase (call : ℕ) (p : Phase) (t : FdTable) : FdTable :=
  { t with phase := Function.update t.phase call p }

/-- The log with one entry more.  It changes nothing that the code looks at. -/
def note (e : Event) (t : FdTable) : FdTable := { t with log := e :: t.log }

/-- `get(fd, auto_create)` returns `datas_[fd]`.  The log says which object it is and what it
says. -/
def returnSlot (fd : ℕ) (autoCreate : Bool) (t : FdTable) : FdTable :=
  t.note (.got fd autoCreate (t.slot fd) (t.said fd))

/-- `datas_[fd] = ctx`, for a context that is new, with the table grown before when it is too
short.  The object is put behind the others, so that pointers to them stay valid
(`fdmanager.cc:99-104`). -/
def store (fd : ℕ) (ctx : FdCtx) (t : FdTable) : FdTable :=
  -- `fd * 1.5` is exact, and made an integer by cutting off
  let datas := if (fd : ℤ) ≥ t.intSize then resize (fd * 3 / 2) t.datas else t.datas
  { t with datas := datas.set fd (some t.heap.length), heap := t.heap ++ [ctx] }

/-- `datas_[fd].reset()`, unless `fd` is behind the end.  The object itself stays
(`fdmanager.cc:108`). -/
def reset (fd : ℕ) (t : FdTable) : FdTable :=
  if t.intSize ≤ fd then t else { t with datas := t.datas.set fd none }

/-- The setting made through a pointer to the object.  All who have the pointer see it. -/
def write (obj : ℕ) (s : Setting) (t : FdTable) : FdTable :=
  { t with heap := t.heap.modify obj s.apply }

/-- The sections of the calls, and the use of an object.  A call that finds a context under the
read lock has one section only. -/
inductive Step
  /-- `get(fd, auto_create)` under the read lock. -/
  | get (call fd : ℕ) (autoCreate : Bool)
  /-- Under the write lock; `k` has the open files of that moment. -/
  | create (call : ℕ) (k : OpenFiles)
  /-- `del(fd)`. -/
  | del (fd : ℕ)
  /-- A thread that has a pointer makes a setting. -/
  | set (obj : ℕ) (s : Setting)

/-- A section of a call.  A call that is between its locks makes no other section. -/
def step : Step → FdTable → Option FdTable
  | .get call fd autoCreate, t =>
    match t.phase call with
    | .idle =>
      if t.intSize ≤ fd then
        if autoCreate = false then some (t.note (.got fd autoCreate none none))
        else some (t.setPhase call (.creating fd))
      else if (t.slot fd).isSome || !autoCreate then some (t.returnSlot fd autoCreate)
      else some (t.setPhase call (.creating fd))
    | .creating _ => none
  | .create call k, t =>
    match t.phase call with
    | .creating fd =>
      -- nothing is looked up again
      let ctx := (FdCtx.new k fd).1
      some (((t.store fd ctx).setPhase call .idle).note
        (.got fd true (some t.heap.length) (some ctx)))
    | .idle => none
  | .del fd, t => some ((t.reset fd).note (.del fd))
  | .set obj s, t =>
    if obj < t.heap.length then some ((t.write obj s).note (.wrote obj s)) else none

/-! ### One context a descriptor -/

/-- The objects that `get(fd, true)` has returned since the last `del(fd)`.  One call may return
what another has returned. -/
def objects (fd : ℕ) : List Event → List ℕ
  | [] => []
  | .got fd' true (some obj) _ :: log =>
    if fd' = fd then obj :: objects fd log else objects fd log
  | .del fd' :: log => if fd' = fd then [] else objects fd log
  | _ :: log => objects fd log

/-- The one context of the descriptor: what it said when `get(fd, true)` first returned one
after the last `del(fd)`, with all settings made through what `get(fd, true)` has returned
since.  It is computed from the log alone. -/
def context (fd : ℕ) : List Event → Option FdCtx
  | [] => none
  | .got fd' true _ said :: log =>
    if fd' = fd then (context fd log).or said else context fd log
  | .del fd' :: log => if fd' = fd then none else context fd log
  | .wrote obj s :: log =>
    if obj ∈ objects fd log then (context fd log).map s.apply else context fd log
  | _ :: log => context fd log

/-- What is promised of a state.  Of each descriptor one object has been returned, and it is
stored and says what the context does. -/
structure OneContext (t : FdTable) : Prop where
  /-- Between two `del(fd)` all calls of `get(fd, true)` return the same object. -/
  same : ∀ fd, ∀ o ∈ objects fd t.log, ∀ o' ∈ objects fd t.log, o = o'
  /-- It is not lost. -/
  kept : ∀ fd, ∀ o ∈ objects fd t.log, t.slot fd = some o
  /-- What was set through one of them is what is read through `datas_[fd]`. -/
  seen : ∀ fd ctx, context fd t.log = some ctx → t.said fd = some ctx

/-- A call that creates finds no context of its descriptor.  All other sections meet it. -/
def FindsNone : Step → FdTable → Prop
  | .create call _, t =>
    match t.phase call with
    | .creating fd => t.slot fd = none
    | .idle => True
  | _, _ => True

/-- Whether a section meets the condition is decided by looking at the phase and the slot. -/
instance : ∀ a t, Decidable (FindsNone a t)
  | .create call _, t =>
    match h : t.phase call with
    | .creating fd => decidable_of_iff (t.slot fd = none) (by rw [FindsNone, h])
    | .idle => .isTrue (by rw [FindsNone, h]; trivial)
  | .get .., _ => .isTrue trivial
  | .del _, _ => .isTrue trivial
  | .set .., _ => .isTrue trivial

/-- The size of the table fits in an `int`.  Only then is the comparison with `fd` what it
seems. -/
def Fits (t : FdTable) : Prop := t.datas.length < 2 ^ 31

/-- Whether the size fits is decided by comparing. -/
instance (t : FdTable) : Decidable t.Fits := inferInstanceAs (Decidable (_ < _))

variable {t t' : FdTable} {a : Step} {call fd i : ℕ} {ctx : FdCtx}

/-- For a call between its locks the condition says that there is no context. -/
theorem findsNone_create {k : OpenFiles} (hphase : t.phase call = .creating fd) :
    FindsNone (.create call k) t ↔ t.slot fd = none := by
  rw [FindsNone, hphase]

/-! ### What a section does -/

/-- As long as it fits, the size is the size. -/
theorem Fits.intSize (h : t.Fits) : t.intSize = t.datas.length := by
  unfold Fits at h
  exact Int.bmod_eq_of_le (by omega) (by omega)

/-- Behind the end nothing is stored. -/
theorem slot_of_le (h : t.datas.length ≤ fd) : t.slot fd = none := slot_of_length_le h

@[simp]
theorem datas_note (e : Event) (t : FdTable) : (t.note e).datas = t.datas := rfl

@[simp]
theorem heap_note (e : Event) (t : FdTable) : (t.note e).heap = t.heap := rfl

@[simp]
theorem log_note (e : Event) (t : FdTable) : (t.note e).log = e :: t.log := rfl

@[simp]
theorem slot_note (e : Event) (t : FdTable) (i : ℕ) : (t.note e).slot i = t.slot i := rfl

@[simp]
theorem said_note (e : Event) (t : FdTable) (i : ℕ) : (t.note e).said i = t.said i := rfl

@[simp]
theorem slot_setPhase (call : ℕ) (p : Phase) (t : FdTable) (i : ℕ) :
    (t.setPhase call p).slot i = t.slot i := rfl

@[simp]
theorem said_setPhase (call : ℕ) (p : Phase) (t : FdTable) (i : ℕ) :
    (t.setPhase call p).said i = t.said i := rfl

@[simp]
theorem phase_note (e : Event) (t : FdTable) : (t.note e).phase = t.phase := rfl

/-- One call's phase is written. -/
theorem phase_setPhase (call : ℕ) (p : Phase) (t : FdTable) (c : ℕ) :
    (t.setPhase call p).phase c = if c = call then p else t.phase c :=
  Function.update_apply ..

@[simp]
theorem slot_write (obj : ℕ) (s : Setting) (t : FdTable) (i : ℕ) :
    (t.write obj s).slot i = t.slot i := rfl

@[simp]
theorem log_write (obj : ℕ) (s : Setting) (t : FdTable) : (t.write obj s).log = t.log := rfl

@[simp]
theorem datas_setPhase (call : ℕ) (p : Phase) (t : FdTable) :
    (t.setPhase call p).datas = t.datas := rfl

@[simp]
theorem heap_setPhase (call : ℕ) (p : Phase) (t : FdTable) :
    (t.setPhase call p).heap = t.heap := rfl

@[simp]
theorem log_setPhase (call : ℕ) (p : Phase) (t : FdTable) : (t.setPhase call p).log = t.log := rfl

/-- A new context is a new object. -/
@[simp]
theorem heap_store (fd : ℕ) (ctx : FdCtx) (t : FdTable) :
    (t.store fd ctx).heap = t.heap ++ [ctx] := by
  simp only [store]

/-- Storing leaves the phases. -/
@[simp]
theorem phase_store (fd : ℕ) (ctx : FdCtx) (t : FdTable) : (t.store fd ctx).phase = t.phase := by
  obtain ⟨datas, heap, phase, log⟩ := t
  rfl

/-- Storing itself logs nothing. -/
@[simp]
theorem log_store (fd : ℕ) (ctx : FdCtx) (t : FdTable) : (t.store fd ctx).log = t.log := by
  obtain ⟨datas, heap, phase, log⟩ := t
  rfl

/-- A growth that has room for the descriptor keeps what is stored.  The first 64 places are
there from the start. -/
theorem slot_store (hfits : t.Fits) (hroom : 64 ≤ t.datas.length) :
    (t.store fd ctx).slot i = if i = fd then some t.heap.length else t.slot i := by
  simp only [slot, store, hfits.intSize]
  by_cases hgrow : t.datas.length ≤ fd
  · rw [if_pos (by omega), slot_set (by rw [length_resize]; omega), slot_resize]
    split_ifs with hi hlt
    · rfl
    · rfl
    · exact (slot_of_length_le (by omega)).symm
  · rw [if_neg (by omega), slot_set (by omega)]

/-- The table grows to one and a half times the descriptor, when it was too short for it. -/
theorem length_store (hfits : t.Fits) :
    (t.store fd ctx).datas.length =
      if t.datas.length ≤ fd then fd * 3 / 2 else t.datas.length := by
  simp only [store, List.length_set, hfits.intSize]
  by_cases hgrow : t.datas.length ≤ fd
  · rw [if_pos (by omega), if_pos hgrow, length_resize]
  · rw [if_neg (by omega), if_neg hgrow]

/-- `del` empties one place. -/
theorem slot_reset (hfits : t.Fits) : (t.reset fd).slot i = if i = fd then none else t.slot i := by
  unfold reset
  rw [hfits.intSize]
  split_ifs with hle hi hi
  · exact slot_of_le (by omega)
  · rfl
  · rw [slot, slot_set (by omega), if_pos hi]
  · rw [slot, slot_set (by omega), if_neg hi]
    rfl

/-- `del` itself logs nothing. -/
@[simp]
theorem log_reset (fd : ℕ) (t : FdTable) : (t.reset fd).log = t.log := by
  unfold reset
  split_ifs <;> rfl

/-- `del` leaves the objects. -/
@[simp]
theorem heap_reset (fd : ℕ) (t : FdTable) : (t.reset fd).heap = t.heap := by
  unfold reset
  split_ifs <;> rfl

/-- `del` leaves the phases. -/
theorem phase_reset (fd : ℕ) (t : FdTable) : (t.reset fd).phase = t.phase := by
  unfold reset
  split_ifs <;> rfl

/-- `del` leaves the size of the table. -/
theorem length_reset (fd : ℕ) (t : FdTable) : (t.reset fd).datas.length = t.datas.length := by
  unfold reset
  split_ifs
  · rfl
  · exact List.length_set ..

/-- What a section does to a table whose size fits in an `int`.  It is the one lemma that
unfolds the step; all invariants are read off its cases. -/
theorem step_cases (hfits : t.Fits) (h : step a t = some t') :
    (∃ call fd autoCreate, a = .get call fd autoCreate ∧ t' = t.returnSlot fd autoCreate) ∨
    (∃ call fd, a = .get call fd true ∧ t' = t.setPhase call (.creating fd)) ∨
    (∃ call k fd, a = .create call k ∧ t.phase call = .creating fd ∧
      t' = ((t.store fd (FdCtx.new k fd).1).setPhase call .idle).note
        (.got fd true (some t.heap.length) (some (FdCtx.new k fd).1))) ∨
    (∃ fd, a = .del fd ∧ t' = (t.reset fd).note (.del fd)) ∨
    ∃ obj s, a = .set obj s ∧ t' = (t.write obj s).note (.wrote obj s) := by
  cases a with
  | get call fd autoCreate =>
      simp only [step] at h
      split at h
      · split_ifs at h with hle hauto
        · cases h
          have hslot : t.slot fd = none := slot_of_le (by rw [hfits.intSize] at hle; omega)
          refine Or.inl ⟨call, fd, autoCreate, rfl, ?_⟩
          rw [returnSlot, said, hslot]
          rfl
        · cases h
          rw [Bool.not_eq_false] at hauto
          exact Or.inr (Or.inl ⟨call, fd, by rw [hauto], rfl⟩)
        · cases h
          exact Or.inl ⟨call, fd, autoCreate, rfl, rfl⟩
        · cases h
          obtain rfl : autoCreate = true := by grind
          exact Or.inr (Or.inl ⟨call, fd, rfl, rfl⟩)
      · cases h
  | create call k =>
      simp only [step] at h
      split at h
      · rename_i fd hphase
        exact Or.inr (Or.inr (Or.inl ⟨call, k, fd, rfl, hphase, (Option.some.inj h).symm⟩))
      · cases h
  | del fd =>
      exact Or.inr (Or.inr (Or.inr (Or.inl ⟨fd, rfl, (Option.some.inj h).symm⟩)))
  | set obj s =>
      simp only [step] at h
      split_ifs at h
      exact Or.inr (Or.inr (Or.inr (Or.inr ⟨obj, s, rfl, (Option.some.inj h).symm⟩)))

/-! ### The log -/

/-- What a `get` adds to the objects of a descriptor. -/
theorem objects_got (fd' : ℕ) (autoCreate : Bool) (obj : Option ℕ) (said : Option FdCtx)
    (log : List Event) :
    objects fd (.got fd' autoCreate obj said :: log) =
      if fd' = fd ∧ autoCreate = true then obj.toList ++ objects fd log else objects fd log := by
  cases autoCreate with
  | false =>
      rw [if_neg (by simp)]
      rfl
  | true =>
      cases obj with
      | none => simp [objects]
      | some o => simp [objects]

/-- What a `get` adds to the context of a descriptor: the first of them says what it is. -/
theorem context_got (fd' : ℕ) (autoCreate : Bool) (obj : Option ℕ) (said : Option FdCtx)
    (log : List Event) :
    context fd (.got fd' autoCreate obj said :: log) =
      if fd' = fd ∧ autoCreate = true then (context fd log).or said else context fd log := by
  cases autoCreate with
  | false =>
      rw [if_neg (by simp)]
      rfl
  | true => simp [context]

/-! ### One section -/

/-- There is room for the first descriptors, and what is stored has been returned since the last
`del`.  It holds in every run, whatever the calls do. -/
structure Stored (t : FdTable) : Prop where
  room : 64 ≤ t.datas.length
  alloc : ∀ fd o, t.slot fd = some o → o < t.heap.length
  returned : ∀ fd o, t.slot fd = some o → o ∈ objects fd t.log

/-- At first nothing is stored. -/
theorem init_slot (fd : ℕ) : init.slot fd = none := by
  rw [slot, init, slot_resize]
  split_ifs <;> rfl

/-- At first the table has its 64 places and nothing in them. -/
theorem init_stored : init.Stored where
  room := by decide
  alloc := by
    intro fd o h
    rw [init_slot] at h
    cases h
  returned := by
    intro fd o h
    rw [init_slot] at h
    cases h

/-- At first no descriptor has a context, which is one at most. -/
theorem init_oneContext : init.OneContext where
  same := nofun
  kept := nofun
  seen := nofun

/-- A section keeps what `Stored` says. -/
theorem Stored.step (hs : t.Stored) (hfits : t.Fits) (h : step a t = some t') : t'.Stored := by
  rcases step_cases hfits h with ⟨call, fd, autoCreate, -, rfl⟩ | ⟨call, fd, -, rfl⟩ |
    ⟨call, k, fd, -, -, rfl⟩ | ⟨fd, -, rfl⟩ | ⟨obj, s, -, rfl⟩
  · refine ⟨hs.room, hs.alloc, fun i o hi => ?_⟩
    have hmem := hs.returned i o hi
    rw [returnSlot, log_note, objects_got]
    split_ifs
    · exact List.mem_append_right _ hmem
    · exact hmem
  · exact ⟨hs.room, hs.alloc, hs.returned⟩
  · refine ⟨?_, fun i o hi => ?_, fun i o hi => ?_⟩
    · have hroom := hs.room
      rw [datas_note, datas_setPhase, length_store hfits]
      split_ifs <;> omega
    · rw [slot_note, slot_setPhase, slot_store hfits hs.room] at hi
      rw [heap_note, heap_setPhase, heap_store, List.length_append, List.length_singleton]
      split_ifs at hi
      · obtain rfl := Option.some.inj hi
        omega
      · have := hs.alloc i o hi
        omega
    · rw [slot_note, slot_setPhase, slot_store hfits hs.room] at hi
      rw [log_note, log_setPhase, log_store, objects_got]
      split_ifs at hi with hfd
      · rw [if_pos ⟨hfd.symm, rfl⟩, Option.some.inj hi]
        exact List.mem_append_left _ (by simp)
      · rw [if_neg (by rintro ⟨heq, -⟩; exact hfd heq.symm)]
        exact hs.returned i o hi
  · refine ⟨?_, fun i o hi => ?_, fun i o hi => ?_⟩
    · rw [datas_note, length_reset]
      exact hs.room
    · rw [slot_note, slot_reset hfits] at hi
      split_ifs at hi
      rw [heap_note, heap_reset]
      exact hs.alloc i o hi
    · rw [slot_note, slot_reset hfits] at hi
      split_ifs at hi with hfd
      rw [log_note, log_reset, objects, if_neg (Ne.symm hfd)]
      exact hs.returned i o hi
  · refine ⟨hs.room, fun i o hi => ?_, hs.returned⟩
    rw [heap_note, write, List.length_modify]
    exact hs.alloc i o hi

/-- Where what was returned is what is stored, it is one object.  There can be no second one. -/
theorem OneContext.of_kept (hkept : ∀ fd, ∀ o ∈ objects fd t.log, t.slot fd = some o)
    (hseen : ∀ fd ctx, context fd t.log = some ctx → t.said fd = some ctx) : t.OneContext where
  same := fun fd o ho o' ho' => Option.some.inj ((hkept fd o ho).symm.trans (hkept fd o' ho'))
  kept := hkept
  seen := hseen

/-- Returning what is stored keeps to one context. -/
theorem OneContext.returnSlot (h : t.OneContext) (fd : ℕ) (autoCreate : Bool) :
    (t.returnSlot fd autoCreate).OneContext := by
  refine .of_kept (fun i o ho => ?_) (fun i ctx hctx => ?_)
  · rw [FdTable.returnSlot, log_note, objects_got] at ho
    rw [FdTable.returnSlot, slot_note]
    split_ifs at ho with hfd
    · rcases List.mem_append.1 ho with ho | ho
      · rw [← hfd.1]
        exact Option.mem_toList.1 ho
      · exact h.kept i o ho
    · exact h.kept i o ho
  · rw [FdTable.returnSlot, log_note, context_got] at hctx
    rw [FdTable.returnSlot, said_note]
    split_ifs at hctx with hfd
    · rcases Option.or_eq_some_iff.1 hctx with hctx | ⟨-, hsaid⟩
      · exact h.seen i ctx hctx
      · rw [← hfd.1]
        exact hsaid
    · exact h.seen i ctx hctx

/-- Where there is no context, none is lost by a new one.  It becomes the one context of the
descriptor. -/
theorem OneContext.store (h : t.OneContext) (hs : t.Stored) (hfits : t.Fits) (call fd : ℕ)
    (ctx : FdCtx) (hnone : t.slot fd = none) :
    (((t.store fd ctx).setPhase call .idle).note
      (.got fd true (some t.heap.length) (some ctx))).OneContext := by
  have hobjects : objects fd t.log = [] := by
    refine List.eq_nil_iff_forall_not_mem.2 fun o ho => ?_
    rw [h.kept fd o ho] at hnone
    cases hnone
  have hcontext : context fd t.log = none := by
    refine Option.eq_none_iff_forall_ne_some.2 fun ctx hctx => ?_
    have hsaid := h.seen fd ctx hctx
    rw [said, hnone] at hsaid
    cases hsaid
  refine .of_kept (fun i o ho => ?_) (fun i c hc => ?_)
  · rw [log_note, log_setPhase, log_store, objects_got] at ho
    rw [slot_note, slot_setPhase, slot_store hfits hs.room]
    by_cases hfd : i = fd
    · rw [if_pos ⟨hfd.symm, rfl⟩, hfd, hobjects, List.append_nil] at ho
      rw [if_pos hfd]
      exact Option.mem_toList.1 ho
    · rw [if_neg (by rintro ⟨heq, -⟩; exact hfd heq.symm)] at ho
      rw [if_neg hfd]
      exact h.kept i o ho
  · rw [log_note, log_setPhase, log_store, context_got] at hc
    rw [said_note, said_setPhase, said, slot_store hfits hs.room, heap_store]
    by_cases hfd : i = fd
    · rw [if_pos ⟨hfd.symm, rfl⟩, hfd, hcontext, Option.none_or] at hc
      rw [if_pos hfd, Option.bind_some, List.getElem?_concat_length]
      exact hc
    · rw [if_neg (by rintro ⟨heq, -⟩; exact hfd heq.symm)] at hc
      rw [if_neg hfd]
      obtain ⟨o, ho, hsaid⟩ := Option.bind_eq_some_iff.1 (h.seen i c hc)
      rw [ho, Option.bind_some, List.getElem?_append_left (hs.alloc i o ho)]
      exact hsaid

/-- Taking the context away leaves none, and keeps the others. -/
theorem OneContext.reset (h : t.OneContext) (hfits : t.Fits) (fd : ℕ) :
    ((t.reset fd).note (.del fd)).OneContext := by
  refine .of_kept (fun i o ho => ?_) (fun i c hc => ?_)
  · rw [log_note, log_reset, objects] at ho
    rw [slot_note, slot_reset hfits]
    split_ifs at ho with hfd
    · cases ho
    · rw [if_neg (Ne.symm hfd)]
      exact h.kept i o ho
  · rw [log_note, log_reset, context] at hc
    split_ifs at hc with hfd
    rw [said_note, said, slot_reset hfits, if_neg (Ne.symm hfd), heap_reset]
    exact h.seen i c hc

/-- What is set through an object of a descriptor is read there, and nowhere else.  Its
descriptor is the one that it was returned for. -/
theorem OneContext.write (h : t.OneContext) (hs : t.Stored) (obj : ℕ) (s : Setting) :
    ((t.write obj s).note (.wrote obj s)).OneContext := by
  refine .of_kept (fun i o ho => h.kept i o ho) (fun i c hc => ?_)
  rw [log_note, log_write, context] at hc
  rw [said_note, said, slot_write, FdTable.write]
  split_ifs at hc with hmem
  · obtain ⟨ctx, hctx, rfl⟩ := Option.map_eq_some_iff.1 hc
    have hsaid := h.seen i ctx hctx
    rw [said, h.kept i obj hmem, Option.bind_some] at hsaid
    rw [h.kept i obj hmem, Option.bind_some, List.getElem?_modify, hsaid]
    simp
  · obtain ⟨o, ho, hsaid⟩ := Option.bind_eq_some_iff.1 (h.seen i c hc)
    have hne : obj ≠ o := by
      rintro rfl
      exact hmem (hs.returned i obj ho)
    rw [ho, Option.bind_some, List.getElem?_modify, hsaid]
    simp [hne]

/-- A section keeps to one context exactly when it does not create where one is.  Where it does
create, the object returned before is no longer the one that is stored. -/
theorem OneContext.step_iff (h : t.OneContext) (hs : t.Stored) (hfits : t.Fits)
    (hstep : step a t = some t') : t'.OneContext ↔ FindsNone a t := by
  rcases step_cases hfits hstep with ⟨call, fd, autoCreate, rfl, rfl⟩ | ⟨call, fd, rfl, rfl⟩ |
    ⟨call, k, fd, rfl, hphase, rfl⟩ | ⟨fd, rfl, rfl⟩ | ⟨obj, s, rfl, rfl⟩
  · exact iff_of_true (h.returnSlot fd autoCreate) trivial
  · exact iff_of_true ⟨h.same, h.kept, h.seen⟩ trivial
  · rw [findsNone_create hphase]
    constructor
    · intro h'
      refine Option.eq_none_iff_forall_ne_some.2 fun o ho => ?_
      -- the one that is stored and the new one are both returned
      have hlt := hs.alloc fd o ho
      have hobjects : objects fd (((t.store fd (FdCtx.new k fd).1).setPhase call .idle).note
          (.got fd true (some t.heap.length) (some (FdCtx.new k fd).1))).log =
          t.heap.length :: objects fd t.log := by
        rw [log_note, log_setPhase, log_store]
        exact if_pos rfl
      have hsame := h'.same fd
      rw [hobjects] at hsame
      have heq := hsame o (List.mem_cons_of_mem _ (hs.returned fd o ho)) _ (List.mem_cons_self ..)
      omega
    · intro hnone
      exact h.store hs hfits call fd _ hnone
  · exact iff_of_true (h.reset hfits fd) trivial
  · exact iff_of_true (h.write hs obj s) trivial

/-! ### Whole runs -/

/-- `get(fd, true)` is for a descriptor whose one and a half fits in an `int`.  Other sections
are always small. -/
def Step.Small : Step → Prop
  | .get _ fd autoCreate => autoCreate = true → fd * 3 / 2 < 2 ^ 31
  | _ => True

/-- The size fits in an `int` when the descriptors are small.  The table is never larger than
that. -/
theorem meets_fits {as : List Step} (hrun : run step as init = some t)
    (hsmall : ∀ a ∈ as, a.Small) : Meets step (fun _ t => t.Fits) as init := by
  refine Meets.of_invariant (D := fun a _ => a.Small)
    (I := fun t : FdTable => t.Fits ∧ ∀ call fd, t.phase call = .creating fd → fd * 3 / 2 < 2 ^ 31)
    ?_ (fun _ _ h _ => h.1) ⟨by decide, ?_⟩ ((meets_iff_forall hrun).2 hsmall)
  swap
  · intro call fd h
    cases h
  rintro a t t' ⟨hfits, hcreating⟩ hsmall hstep
  rcases step_cases hfits hstep with ⟨call, fd, autoCreate, -, rfl⟩ | ⟨call, fd, rfl, rfl⟩ |
    ⟨call, k, fd, -, hphase, rfl⟩ | ⟨fd, -, rfl⟩ | ⟨obj, s, -, rfl⟩
  · exact ⟨hfits, hcreating⟩
  · refine ⟨hfits, fun c fd' hc => ?_⟩
    rw [phase_setPhase] at hc
    split_ifs at hc
    · obtain rfl := Phase.creating.inj hc
      exact hsmall rfl
    · exact hcreating c fd' hc
  · refine ⟨?_, fun c fd' hc => ?_⟩
    · have := hcreating call fd hphase
      rw [Fits, datas_note, datas_setPhase, length_store hfits]
      split_ifs
      · exact this
      · exact hfits
    · rw [phase_note, phase_setPhase, phase_store] at hc
      split_ifs at hc
      exact hcreating c fd' hc
  · refine ⟨?_, fun c fd' hc => hcreating c fd' ?_⟩
    · rw [Fits, datas_note, length_reset]
      exact hfits
    · rw [phase_note, phase_reset] at hc
      exact hc
  · exact ⟨hfits, hcreating⟩

/-- **A descriptor has one context** in the runs in which no call creates where a context is,
and in no other.  The condition is on each section and the state before it, and both directions
are over every run.  `FdManager::get` (`src/hiper/base/fdmanager.cc:83-106`) looks under a read
lock and creates under a write lock, without looking again, line 104. -/
theorem one_context_iff (as : List Step) (t : FdTable) (hrun : run step as init = some t)
    (hfits : Meets step (fun _ t => t.Fits) as init) :
    Always step OneContext as init ↔ Meets step FindsNone as init :=
  Meets.always_iff (fun _ _ _ hs hfits hstep => hs.step hfits hstep)
    (fun _ _ _ hs hfits h hstep => h.step_iff hs hfits hstep) init_stored init_oneContext hfits hrun

/-- A call makes a context behind the end, while another makes one of an open socket and sets a
flag; the socket is closed.  Both keep to one context. -/
theorem one_context_two : ∃ t : FdTable,
    run step [.get 0 100 true, .get 1 5 true, .create 1 fun _ => some ⟨true, 2⟩,
      .set 0 (.userNonblock true), .create 0 fun _ => none, .get 1 5 false, .del 5] init = some t ∧
    Always step OneContext [.get 0 100 true, .get 1 5 true, .create 1 fun _ => some ⟨true, 2⟩,
      .set 0 (.userNonblock true), .create 0 fun _ => none, .get 1 5 false, .del 5] init := by
  exact ⟨_, rfl, (one_context_iff _ _ rfl (meets_fits rfl (by simp [Step.Small]))).2 (by decide)⟩

/-- Two calls look up a descriptor that has no context, and both make one: the flag that is set
through the first is not seen.  The failing run. -/
theorem two_contexts : ∃ t : FdTable,
    run step [.get 0 5 true, .get 1 5 true, .create 0 fun _ => some ⟨true, 2⟩,
      .set 0 (.userNonblock true), .create 1 fun _ => some ⟨true, 2050⟩] init = some t ∧
    objects 5 t.log = [1, 0] ∧ (t.said 5).map FdCtx.userNonblock = some false ∧
    ¬Always step OneContext [.get 0 5 true, .get 1 5 true, .create 0 fun _ => some ⟨true, 2⟩,
      .set 0 (.userNonblock true), .create 1 fun _ => some ⟨true, 2050⟩] init := by
  refine ⟨_, rfl, rfl, rfl, fun halways => ?_⟩
  have hsame := (halways.final rfl).same 5 1 (by decide) 0 (by decide)
  cases hsame

end FdTable

end Hiper

import Hiper.Lib.Machine
import Mathlib.Logic.Function.Basic

/-!
# A configuration variable and its listeners

`hiper/base/config.h`: `ConfigVar<T>::setValue` compares the new value with `val_` and tells
the listeners under a read lock, and assigns `val_` under a write lock that it takes later.
Each of the two is one step here, and a call that has told the listeners and not yet
assigned is `pending`; calls of any number of threads interleave.

What the listeners are told is a chain of values that ends in `val_` when no call tells them
while another is pending (`Tracked.run`), and only then (`setValue_consistent_iff`): the
second of two such calls names an old value that the listeners have already been told is
gone.

The listener that matters here is one that writes down what it is told, for `setValue`
passes both values and nothing else (`config.h:123-136`); every listener is told in the same
section, so that one list stands for all.  Equality is the `==` of the type.  The model of a
call without overlap (`setValue`) is tied to the two sections by `run_setValue`.
-/

namespace Hiper

open Lib

/-- `ConfigVar<T>`: the value, what each listener was told, old value and new, and the calls of
`setValue` between their two locks, with the value each will assign.  A call is a number of the
caller's choice. -/
structure ConfigVar (α : Type*) where
  val : α
  notified : List (α × α)
  pending : ℕ → Option α

namespace ConfigVar

variable {α σ : Type*}

/-- `ConfigVar(name, default_value)`.  No listener has been told anything. -/
def new (default : α) : ConfigVar α := ⟨default, [], fun _ => none⟩

/-- The two locked sections of `setValue`.  The first under the read lock, the second under the
write lock (`config.h:125-135`). -/
inductive Section (α : Type*)
  | notify (call : ℕ) (v : α)
  | assign (call : ℕ)
  deriving Repr

/-- One section.  A call returns from the first when the value is `val_` already.  A call that
is still between its sections does not start again, and one that has not started assigns
nothing. -/
def step [BEq α] : Section α → ConfigVar α → Option (ConfigVar α)
  | .notify call v, x =>
    if (x.pending call).isSome then none
    else if v == x.val then some x
    else some { x with
      notified := x.notified ++ [(x.val, v)]
      pending := Function.update x.pending call (some v) }
  | .assign call, x =>
    (x.pending call).map fun v =>
      { x with val := v, pending := Function.update x.pending call none }

/-- Every call of `setValue` has returned.  None has told the listeners and not yet assigned. -/
def Idle (x : ConfigVar α) : Prop := ∀ call, x.pending call = none

/-- `setValue(v)` where no other call overlaps it; the listener works on `s`.  It tells the
listener and then assigns, unless the value is the same. -/
def setValue [BEq α] (listener : α → α → σ → σ) (v : α) (x : α × σ) : α × σ :=
  if v == x.1 then x else (v, listener x.1 v x.2)

/-! ### What the listeners are told -/

/-- Every old value is the new value before it, the first one is `v`.  It is what a listener
that keeps a copy of the value relies on. -/
def Chained : α → List (α × α) → Prop
  | _, [] => True
  | v, (old, new) :: told => old = v ∧ Chained new told

/-- The value the listeners believe in.  The value it was registered with, when it was never
told anything. -/
def lastTold (v : α) (told : List (α × α)) : α := (told.getLast?.map Prod.snd).getD v

/-- The listeners saw one chain of values, which ends in the value of the variable.  The second
half is asked when no call is pending. -/
structure Consistent (default : α) (x : ConfigVar α) : Prop where
  chained : Chained default x.notified
  last_eq : x.Idle → lastTold default x.notified = x.val

/-- The section tells the listeners something.  A call with the value that is there tells
nothing. -/
def Section.notifies [BEq α] (x : ConfigVar α) : Section α → Prop
  | .notify _ v => (v == x.val) = false
  | .assign _ => False

/-- The listeners are told something only while no call is pending.  It is a condition on the
order of the sections. -/
def Alone [BEq α] (as : List (Section α)) (x : ConfigVar α) : Prop :=
  Meets step (fun a x => a.notifies x → x.Idle) as x

@[simp]
theorem lastTold_nil (v : α) : lastTold v [] = v := rfl

/-- The last new value is what is believed. -/
@[simp]
theorem lastTold_append (v : α) (told : List (α × α)) (old new : α) :
    lastTold v (told ++ [(old, new)]) = new := by
  simp [lastTold]

/-- With something told first, what was believed before does not matter unless nothing follows. -/
theorem lastTold_cons (v : α) (e : α × α) (told : List (α × α)) :
    lastTold v (e :: told) = lastTold e.2 told := by
  cases told with
  | nil => rfl
  | cons e' told => simp [lastTold, List.getLast?_cons]

/-- One more step of the chain starts at what is believed. -/
theorem chained_append {v : α} {told : List (α × α)} {old new : α} :
    Chained v (told ++ [(old, new)]) ↔ Chained v told ∧ old = lastTold v told := by
  induction told generalizing v with
  | nil => simp [Chained]
  | cons e told ih =>
      obtain ⟨o, n⟩ := e
      rw [List.cons_append, Chained, Chained, ih, lastTold_cons, and_assoc]

/-! ### One section -/

section Steps

variable [BEq α] {default : α} {x x' : ConfigVar α}

/-- What a section does.  Nothing, a listener told and the call pending, or the value assigned
and the call over. -/
theorem step_cases {a : Section α} (h : step a x = some x') :
    (¬a.notifies x ∧ x' = x) ∨
      (∃ call v, a = .notify call v ∧ (v == x.val) = false ∧
        x' = { x with
          notified := x.notified ++ [(x.val, v)]
          pending := Function.update x.pending call (some v) }) ∨
      ∃ call v, a = .assign call ∧ x.pending call = some v ∧
        x' = { x with val := v, pending := Function.update x.pending call none } := by
  cases a with
  | notify call v =>
      simp only [step] at h
      split_ifs at h with hbusy heq
      · cases h
        exact Or.inl ⟨by simp [Section.notifies, heq], rfl⟩
      · cases h
        exact Or.inr (Or.inl ⟨call, v, rfl, by simpa using heq, rfl⟩)
  | assign call =>
      obtain ⟨v, hv, heq⟩ := Option.map_eq_some_iff.1 h
      exact Or.inr (Or.inr ⟨call, v, rfl, hv, heq.symm⟩)

/-- The listeners believe in the value of the variable, or in the one that the one pending call
will assign.  At most one call is pending. -/
structure Tracked (default : α) (x : ConfigVar α) : Prop where
  chained : Chained default x.notified
  last_eq : (x.Idle ∧ lastTold default x.notified = x.val) ∨
    ∃ call v, x.pending = Function.update (fun _ => none) call (some v) ∧
      (v == x.val) = false ∧ lastTold default x.notified = v

/-- A new variable is tracked. -/
theorem new_tracked (default : α) : Tracked default (new default) where
  chained := trivial
  last_eq := Or.inl ⟨fun _ => rfl, rfl⟩

/-- What is tracked is consistent. -/
theorem Tracked.consistent (h : Tracked default x) : Consistent default x where
  chained := h.chained
  last_eq := by
    intro hidle
    rcases h.last_eq with ⟨-, hlast⟩ | ⟨call, v, hpending, -, -⟩
    · exact hlast
    · have hcall := hidle call
      rw [hpending, Function.update_self] at hcall
      cases hcall

/-- **A section keeps the variable tracked** if it tells nobody while a call is pending. -/
theorem Tracked.step {a : Section α} (h : Tracked default x) (hidle : a.notifies x → x.Idle)
    (hstep : step a x = some x') : Tracked default x' := by
  rcases step_cases hstep with ⟨-, rfl⟩ | ⟨call, v, rfl, hne, rfl⟩ | ⟨call, v, rfl, hv, rfl⟩
  · exact h
  · have hnone : x.pending = fun _ => none := funext (hidle hne)
    have hlast : lastTold default x.notified = x.val := by
      rcases h.last_eq with ⟨-, hlast⟩ | ⟨call', v', hpending, -, -⟩
      · exact hlast
      · have hcall := hidle hne call'
        rw [hpending, Function.update_self] at hcall
        cases hcall
    refine ⟨chained_append.2 ⟨h.chained, hlast.symm⟩, Or.inr ⟨call, v, ?_, hne, ?_⟩⟩
    · rw [hnone]
    · exact lastTold_append ..
  · rcases h.last_eq with ⟨hnone, -⟩ | ⟨call', v', hpending, -, hlast⟩
    · rw [hnone call] at hv
      cases hv
    · -- the section belongs to the one pending call
      have hsame : call = call' ∧ v' = v := by
        rw [hpending, Function.update_apply] at hv
        split_ifs at hv with hcall
        · exact ⟨hcall, Option.some.inj hv⟩
      obtain ⟨rfl, rfl⟩ := hsame
      refine ⟨h.chained, Or.inl ⟨fun c => ?_, hlast⟩⟩
      change Function.update x.pending call none c = none
      rw [hpending, Function.update_idem, Function.update_apply]
      split_ifs <;> rfl

/-- A call that tells the listeners while another is pending breaks the chain, where every value
is `==` to itself.  The old value that it names is the one the pending call has already told is
gone. -/
theorem Tracked.broken {a : Section α} (hrefl : ∀ v : α, (v == v) = true) (h : Tracked default x)
    (hnotifies : a.notifies x) (hbusy : ¬x.Idle) (hstep : ConfigVar.step a x = some x') :
    ¬Chained default x'.notified := by
  rcases step_cases hstep with ⟨hquiet, -⟩ | ⟨call, v, rfl, -, rfl⟩ | ⟨call, v, rfl, -, -⟩
  · exact absurd hnotifies hquiet
  · rcases h.last_eq with ⟨hidle, -⟩ | ⟨call', v', -, hne, hlast⟩
    · exact absurd hidle hbusy
    · intro hchained
      have hval := (chained_append.1 hchained).2
      rw [hval, hlast, hrefl] at hne
      cases hne
  · exact absurd hnotifies id

/-- A broken chain stays broken.  What was told is never taken back. -/
theorem Chained.of_step {a : Section α} (hstep : step a x = some x')
    (h : Chained default x'.notified) : Chained default x.notified := by
  rcases step_cases hstep with ⟨-, rfl⟩ | ⟨call, v, -, -, rfl⟩ | ⟨call, v, -, -, rfl⟩
  · exact h
  · exact (chained_append.1 h).1
  · exact h

/-! ### Whole runs -/

/-- A run in which the listeners are told something only while no call is pending keeps the
variable tracked. -/
theorem Tracked.run {as : List (Section α)} (h : Tracked default x) (halone : Alone as x)
    (hrun : Lib.run ConfigVar.step as x = some x') : Tracked default x' :=
  Meets.invariant (fun _ _ _ h hidle hstep => h.step hidle hstep) h halone hrun

/-- A chain that is whole after more sections was whole before them. -/
theorem Chained.of_reachable (hreach : Reachable ConfigVar.step x x')
    (h : Chained default x'.notified) : Chained default x.notified := by
  by_contra hbroken
  exact hreach.invariant (I := fun x => ¬Chained default x.notified) hbroken
    (fun _ _ _ hbroken hstep h => hbroken (h.of_step hstep)) h

/-- The first call that tells the listeners while another is pending breaks the chain.  It is
found as the first section of the run that is not alone. -/
theorem Tracked.alone {as : List (Section α)} (hrefl : ∀ v : α, (v == v) = true)
    (h : Tracked default x) (hrun : Lib.run ConfigVar.step as x = some x')
    (hchained : Chained default x'.notified) : Alone as x := by
  rcases meets_or_first (fun _ _ _ h hidle hstep => Tracked.step h hidle hstep) h hrun with
    halone | ⟨a, x₁, x₂, -, h₁, hbusy, hstep, hreach⟩
  · exact halone
  · rw [Classical.not_imp] at hbusy
    exact absurd (hchained.of_reachable hreach) (h₁.broken hrefl hbusy.1 hbusy.2 hstep)

/-- **The listeners see one chain of values** in every interleaving in which they are told
something only while no call is pending; and, where every value is `==` to itself, in no other.
Both halves are about every run from a new variable, of any number of calls.  `setValue` is
`src/hiper/base/config.h:123-136`: it compares and tells the listeners under a read lock, gives
that up, and assigns under a write lock of its own. -/
theorem setValue_consistent_iff (default : α) (as : List (Section α)) (x : ConfigVar α)
    (hrun : run step as (new default) = some x) :
    (Alone as (new default) → Consistent default x) ∧
      ((∀ v : α, (v == v) = true) → Consistent default x → Alone as (new default)) :=
  ⟨fun halone => ((new_tracked default).run halone hrun).consistent,
    fun hrefl hconsistent => (new_tracked default).alone hrefl hrun hconsistent.chained⟩

/-- A call that no other overlaps does what `setValue` does on the value, for a listener that
writes down what it is told.  It is how the model of one call stands to the model of its
sections. -/
theorem run_setValue (hidle : x.Idle) (call : ℕ) (v : α) :
    ∃ as x', run step as x = some x' ∧ x'.Idle ∧ Alone as x ∧
      (x'.val, x'.notified) =
        setValue (fun old new told => told ++ [(old, new)]) v (x.val, x.notified) := by
  cases heq : v == x.val with
  | true =>
      refine ⟨[.notify call v], x, ?_, hidle, ⟨fun _ => hidle, fun _ _ => trivial⟩, ?_⟩
      · simp [run, step, hidle call, heq]
      · simp [setValue, heq]
  | false =>
      refine ⟨[.notify call v, .assign call], ⟨v, x.notified ++ [(x.val, v)], x.pending⟩, ?_, hidle,
        ⟨fun _ => hidle, fun _ _ => ⟨(fun h => by cases h), fun _ _ => trivial⟩⟩, ?_⟩
      · have hpending : Function.update x.pending call none = x.pending := by
          rw [← hidle call, Function.update_eq_self]
        simp [run, step, hidle call, heq, hpending]
      · simp [setValue, heq]

end Steps

/-- The calls of two threads, one after the other.  Each tells and assigns before the other
starts. -/
theorem setValue_consistent_in_turn : ∃ x : ConfigVar ℕ,
    run step [.notify 0 1, .assign 0, .notify 1 2, .assign 1] (new 0) = some x ∧ x.val = 2 ∧
      Consistent 0 x := by
  refine ⟨_, rfl, rfl, (setValue_consistent_iff 0 [.notify 0 1, .assign 0, .notify 1 2, .assign 1] _
    rfl).1 ?_⟩
  simp [Alone, Meets, step, new, Section.notifies, Idle, Function.update_apply]

/-- Both threads compare with 0 before either assigns: the listeners hear of 0 twice, and the
last they hear of is 2.  The failing run. -/
theorem setValue_overlapping : ∃ x : ConfigVar ℕ,
    run step [.notify 0 1, .notify 1 2, .assign 1, .assign 0] (new 0) = some x ∧
      x.notified = [(0, 1), (0, 2)] ∧ x.Idle ∧ x.val = 1 ∧ ¬Consistent 0 x := by
  refine ⟨_, rfl, rfl, ?_, rfl, ?_⟩
  · intro call
    simp only [Function.update_apply, new]
    split_ifs <;> rfl
  · rintro ⟨⟨-, hold, -⟩, -⟩
    cases hold

end ConfigVar

end Hiper

import Mathlib.Data.List.Chain

/-!
# Lock guards

`ScopeLock`, `RScopeLock` and `WScopeLock` of `mutex.h`: what a guard does to its mutex
from its construction to its destruction, whatever `lock()` and `unlock()` calls come
between.  The guards of a `RWMutex` acquire and release in turn.  `ScopeLock` does not
note that it has released, so that it does only if `unlock()` is never called
(`guard_balanced_iff`).

The classes are `src/hiper/base/mutex.h:24`, `:60` and `:99`, for `Mutex`, `SpinLock` and
`CASLock`, and for `RWMutex`.  A guard that releases what it does not have, or what another
thread has acquired in the meantime, is undefined for the mutex of the system and wrong for
the others, so that what matters is the order of the calls and nothing of the mutex.
-/

namespace Hiper

namespace Guard

/-- A call on the mutex.  Each class makes two of them. -/
inductive MutexCall
  | lock
  | rdlock
  | wrlock
  | unlock
  deriving DecidableEq, Repr

/-- The call is one that acquires. -/
def MutexCall.acquires : MutexCall → Bool
  | unlock => false
  | _ => true

end Guard

/-- A guard: `is_lock_`, and the calls it has made on `mutex_`.  The list is in the order in
which they were made. -/
structure Guard where
  isLock : Bool
  calls : List Guard.MutexCall

namespace Guard

/-- A call on the guard.  The caller makes them in any order. -/
inductive Call
  | lock
  | unlock
  deriving DecidableEq, Repr

/-- The class of a guard.  Its constructor, its two methods and its destructor. -/
structure Class where
  construct : Guard
  lock : Guard → Guard
  unlock : Guard → Guard
  /-- The destructor. -/
  destroy : Guard → Guard

/-- Make a call on the mutex.  `is_lock_` is not touched by it. -/
def act (c : MutexCall) (g : Guard) : Guard := { g with calls := g.calls ++ [c] }

/-- `ScopeLock`.  `unlock()` does not set `is_lock_`. -/
def scopeLock : Class where
  construct := { (⟨false, []⟩ : Guard).act .lock with isLock := true }
  lock g := if !g.isLock then g.act .lock else g
  unlock g := if g.isLock then g.act .unlock else g
  destroy g := if g.isLock then ({ g with isLock := false } : Guard).act .unlock else g

/-- `RScopeLock` and `WScopeLock`, which differ in the call that acquires.  Both methods set
`is_lock_`. -/
def rwScopeLock (acquire : MutexCall) : Class where
  construct := { (⟨false, []⟩ : Guard).act acquire with isLock := true }
  lock g := if !g.isLock then { g.act acquire with isLock := true } else g
  unlock g := if g.isLock then { g.act .unlock with isLock := false } else g
  destroy g := if g.isLock then g.act .unlock else g

/-- `RScopeLock`.  It calls `rdlock()`. -/
def rScopeLock : Class := rwScopeLock .rdlock

/-- `WScopeLock`.  It calls `wrlock()`. -/
def wScopeLock : Class := rwScopeLock .wrlock

/-- The three classes.  They are templates over the mutex. -/
inductive Kind
  | scope
  | read
  | write
  deriving DecidableEq, Repr

/-- The class of the kind. -/
def Kind.cls : Kind → Class
  | scope => scopeLock
  | read => rScopeLock
  | write => wScopeLock

/-- A call on a guard of the class. -/
def Class.call (K : Class) (g : Guard) : Call → Guard
  | .lock => K.lock g
  | .unlock => K.unlock g

/-- The guard after these calls.  From its construction on. -/
def Class.after (K : Class) (calls : List Call) : Guard := calls.foldl K.call K.construct

/-- The calls on the mutex in the life of a guard.  The destructor makes the last of them. -/
def Class.trace (K : Class) (calls : List Call) : List MutexCall := (K.destroy (K.after calls)).calls

/-- Acquire, release, acquire, release: it starts with an acquire, ends with a release, and none
comes twice in a row.  It says nothing of other guards. -/
structure Balanced (calls : List MutexCall) : Prop where
  starts : ∃ c rest, calls = c :: rest ∧ c.acquires = true
  ends : calls.getLast? = some .unlock
  alternates : calls.IsChain fun a b => a.acquires ≠ b.acquires

/-! ### Guards of a `RWMutex` -/

/-- The calls alternate from an acquire on, and `is_lock_` says what the last one was.  It is
kept by every call on a guard that notes what it does. -/
structure Inv (g : Guard) : Prop where
  starts : ∃ c rest, g.calls = c :: rest ∧ c.acquires = true
  last : ∀ c ∈ g.calls.getLast?, c.acquires = g.isLock
  alternates : g.calls.IsChain fun a b => a.acquires ≠ b.acquires

/-- A call of the other kind than the last one.  `is_lock_` is set accordingly. -/
theorem Inv.act {g : Guard} (h : g.Inv) {c : MutexCall} (hc : c.acquires = !g.isLock) :
    Inv { g.act c with isLock := c.acquires } where
  starts := by
    obtain ⟨c₀, rest, heq, hacq⟩ := h.starts
    exact ⟨c₀, rest ++ [c], by rw [Guard.act, heq]; rfl, hacq⟩
  last := by
    intro d hd
    rw [Guard.act, List.getLast?_concat, Option.mem_some_iff] at hd
    rw [← hd]
  alternates := by
    refine List.isChain_append.2 ⟨h.alternates, List.isChain_singleton c, fun a ha b hb => ?_⟩
    rw [List.head?_cons, Option.mem_some_iff] at hb
    rw [h.last a ha, ← hb, hc]
    simp

/-- The constructor acquires. -/
theorem rw_construct_inv {acquire : MutexCall} (hacq : acquire.acquires = true) :
    Inv (rwScopeLock acquire).construct where
  starts := ⟨acquire, [], rfl, hacq⟩
  last := by
    intro c hc
    cases hc
    exact hacq
  alternates := List.isChain_singleton acquire

/-- A call acquires, releases or does nothing, whichever fits. -/
theorem rw_call_inv {acquire : MutexCall} (hacq : acquire.acquires = true) {g : Guard} (h : g.Inv)
    (c : Call) : Inv ((rwScopeLock acquire).call g c) := by
  cases c with
  | lock =>
      simp only [Class.call, rwScopeLock]
      split_ifs with hfree
      · have hact := h.act (hacq.trans hfree.symm)
        rwa [hacq] at hact
      · exact h
  | unlock =>
      simp only [Class.call, rwScopeLock]
      split_ifs with hlocked
      · exact h.act (c := .unlock) (by rw [hlocked]; rfl)
      · exact h

/-- Any calls keep it.  The induction is over the calls. -/
theorem rw_after_inv {acquire : MutexCall} (hacq : acquire.acquires = true) (calls : List Call) :
    Inv ((rwScopeLock acquire).after calls) := by
  induction calls using List.reverseRecOn with
  | nil => exact rw_construct_inv hacq
  | append_singleton calls c ih =>
      rw [Class.after, List.foldl_concat]
      exact rw_call_inv hacq ih c

/-- When the last call was no acquire, it was a release.  The destructor sees to that. -/
theorem Inv.balanced {g : Guard} (h : g.Inv) (hfree : g.isLock = false) : Balanced g.calls where
  starts := h.starts
  ends := by
    obtain ⟨c₀, rest, heq, -⟩ := h.starts
    have hne : g.calls ≠ [] := by
      rw [heq]
      exact List.cons_ne_nil _ _
    have hlast := h.last _ (List.getLast?_eq_getLast_of_ne_nil hne)
    rw [List.getLast?_eq_getLast_of_ne_nil hne, Option.some_inj]
    rw [hfree] at hlast
    cases hc : g.calls.getLast hne with
    | unlock => rfl
    | lock =>
        rw [hc] at hlast
        cases hlast
    | rdlock =>
        rw [hc] at hlast
        cases hlast
    | wrlock =>
        rw [hc] at hlast
        cases hlast
  alternates := h.alternates

/-- The guards of a `RWMutex` are balanced, whatever the calls. -/
theorem rw_balanced {acquire : MutexCall} (hacq : acquire.acquires = true) (calls : List Call) :
    Balanced ((rwScopeLock acquire).trace calls) := by
  have h := rw_after_inv hacq calls
  generalize hg : (rwScopeLock acquire).after calls = g at h
  rw [Class.trace, hg]
  change Balanced (if g.isLock = true then g.act .unlock else g).calls
  split_ifs with hlocked
  · have hact := h.act (c := .unlock) (by rw [hlocked]; rfl)
    exact hact.balanced rfl
  · exact h.balanced (eq_false_of_ne_true hlocked)

/-! ### `ScopeLock` -/

/-- Every `unlock()` releases, and no `lock()` acquires.  `is_lock_` is always set. -/
theorem scope_after (calls : List Call) : scopeLock.after calls =
    ⟨true, .lock :: List.replicate (calls.count .unlock) .unlock⟩ := by
  induction calls using List.reverseRecOn with
  | nil => rfl
  | append_singleton calls c ih =>
      rw [Class.after, List.foldl_concat, ← Class.after, ih]
      cases c with
      | lock => simp [Class.call, scopeLock]
      | unlock => simp [Class.call, scopeLock, act, List.replicate_succ']

/-- A `ScopeLock` acquires once, and releases once for each `unlock()` and once at its end. -/
theorem scope_trace (calls : List Call) : scopeLock.trace calls =
    .lock :: List.replicate (calls.count .unlock + 1) .unlock := by
  rw [Class.trace, scope_after, List.replicate_succ']
  rfl

/-- A `ScopeLock` is balanced exactly when it is never unlocked by a call. -/
theorem scope_balanced_iff (calls : List Call) :
    Balanced (scopeLock.trace calls) ↔ Call.unlock ∉ calls := by
  rw [scope_trace, ← List.count_eq_zero]
  cases hcount : calls.count .unlock with
  | zero =>
      refine iff_of_true ⟨⟨_, _, rfl, rfl⟩, rfl, ?_⟩ rfl
      simp [MutexCall.acquires]
  | succ n =>
      refine iff_of_false (fun h => ?_) (Nat.succ_ne_zero n)
      have halt := h.alternates
      rw [List.replicate_succ, List.replicate_succ] at halt
      simp at halt

/-- **Guards are balanced**, for every sequence of calls, but for a `ScopeLock` that is
unlocked.  The exception is the guard of `Mutex`, `SpinLock` and `CASLock`.  `ScopeLock` is
`src/hiper/base/mutex.h:24-58`: its `unlock` in line 33 does not clear `is_lock_`, as those of
`RScopeLock` (85) and `WScopeLock` (124) do, and the destructor unlocks again. -/
theorem guard_balanced_iff (k : Kind) (calls : List Call) :
    Balanced (k.cls.trace calls) ↔ (k = .scope → Call.unlock ∉ calls) := by
  cases k with
  | scope => exact (scope_balanced_iff calls).trans ⟨fun h _ => h, fun h => h rfl⟩
  | read => exact iff_of_true (rw_balanced rfl calls) nofun
  | write => exact iff_of_true (rw_balanced rfl calls) nofun

/-- A `ScopeLock` that is unlocked, as in `Scheduler::start`, releases twice. -/
theorem scope_releases_twice : ¬Balanced (Kind.scope.cls.trace [.unlock]) := by
  intro h
  have halt := h.alternates
  revert halt
  decide

end Guard

end Hiper

import Hiper.Lib.OrderedSeq
import Mathlib.Algebra.Group.Nat.Defs
import Mathlib.Data.Prod.Lex
import Mathlib.Logic.Function.Basic

/-!
# Timers

`timer.cc`: a `Timer` is an object on the heap, a `Timer::ptr` names it, and
`timers_` is the set of the pointers of the running ones, in the order of
`Timer::Comparator` (expiration, then address).  Clock readings are arguments,
`uint64_t` arithmetic wraps at `2^64`.  A pointer is the number of the
allocation that made it; the address, which the comparator looks at, is a field
the allocator chose.

The functions are those of `src/hiper/base/timer.cc`, in its order: `Timer::cancel` is line
25, `refresh` 45, `reset` 70, the two `addTimer` 101 and 118, `getNextTimer` 167,
`listExpiredCb` 187, the comparator 250.  Everything between a `WriteLock` and its end is
one function of the manager, since no other thread sees the middle of it;
`addConditionTimer` is `addTimer` with a callback that asks a weak pointer first, and adds
nothing here.
-/

namespace Hiper

open Lib

/-- A `std::function<void()>`, by name.  Two callbacks with one name are the same function; what
it does when it is called is outside the model. -/
abbrev Callback := ℕ

/-- A `Timer::ptr` that is not null.  The number is never used again, so a pointer that somebody
still holds keeps naming the same object, as a `shared_ptr` does. -/
abbrev TimerPtr := ℕ

/-- `uint64_t` sum.  What `hiper::GetElapsedMS() + ms` is in the constructor. -/
def add64 (a b : ℕ) : ℕ := (a + b) % 2 ^ 64

/-- `uint64_t` difference.  What `expiration_ - ms_` is in `Timer::reset`, line 90, even if
`ms_` is the larger one. -/
def sub64 (a b : ℕ) : ℕ := (a + 2 ^ 64 - b) % 2 ^ 64

/-- As long as the sum fits into 64 bits it is the sum of the numbers. -/
theorem add64_of_lt {a b : ℕ} (h : a + b < 2 ^ 64) : add64 a b = a + b := Nat.mod_eq_of_lt h

/-- The difference of a number and a smaller one is that of the numbers; only this way round
does `reset` compute when no expiration wrapped. -/
theorem sub64_of_le {a b : ℕ} (hle : b ≤ a) (ha : a < 2 ^ 64) : sub64 a b = a - b := by
  rw [sub64]
  omega

/-- The object.  Its manager is the only one there is, so `timer_manager_` is left out; an empty
`cb_` is `none`. -/
structure Timer where
  addr : ℕ
  isRecurring : Bool
  ms : ℕ
  expiration : ℕ
  cb : Option Callback

/-- `Timer::Timer(ms, cb, is_recurring, manager)`, the clock reading `now`.  It computes
`expiration_` from the clock and `ms`, line 16 of `timer.cc`, and the sum wraps. -/
def Timer.new (addr now ms : ℕ) (cb : Option Callback) (isRecurring : Bool) : Timer where
  addr := addr
  isRecurring := isRecurring
  ms := ms
  expiration := add64 now ms
  cb := cb

/-- `Timer::Comparator`, of pointers that are not null.  The expirations decide, and for equal
ones the addresses, line 269; the branches for null pointers are never taken in `timers_`. -/
def Timer.comparator (lhs rhs : Timer) : Bool :=
  if lhs.expiration < rhs.expiration then true
  else if rhs.expiration < lhs.expiration then false
  else lhs.addr < rhs.addr

/-- What the comparator compares.  A pair in lexicographic order, so that what Mathlib has on
linear orders can be used of the set. -/
def Timer.key (t : Timer) : ℕ ×ₗ ℕ := toLex (t.expiration, t.addr)

/-- The order of keys, spelt out as the comparator spells it. -/
theorem Timer.key_lt_iff (s t : Timer) :
    s.key < t.key ↔ s.expiration < t.expiration ∨ s.expiration = t.expiration ∧ s.addr < t.addr :=
  Prod.Lex.toLex_lt_toLex

/-- Two timers with one key lie at one address, which is why no two live timers have the same
key. -/
theorem Timer.key_eq_iff (s t : Timer) :
    s.key = t.key ↔ s.expiration = t.expiration ∧ s.addr = t.addr := by
  rw [Timer.key, Timer.key, EmbeddingLike.apply_eq_iff_eq, Prod.mk.injEq]

/-- **The comparator compares keys.** From here on the set is a sequence that increases in a
linear order. -/
theorem Timer.comparator_iff (s t : Timer) : s.comparator t = true ↔ s.key < t.key := by
  rw [Timer.key_lt_iff, Timer.comparator]
  split_ifs with hlt hgt
  · exact ⟨fun _ => Or.inl hlt, fun _ => rfl⟩
  · constructor
    · intro h
      cases h
    · omega
  · rw [decide_eq_true_iff]
    omega

/-- `TimerManger`, with the heap its timers live on.  `allocs` is the number of timers made so
far, so every pointer below it names one; `timers` lists the set from `begin()` to `end()`;
`tickled` is `tickled_`. -/
structure TimerManger where
  heap : TimerPtr → Timer
  allocs : ℕ
  timers : List TimerPtr
  tickled : Bool

namespace TimerManger

/-- A manager with no timer, over any memory.  The memory may hold anything at addresses where
no timer has been made. -/
def init (heap : TimerPtr → Timer) : TimerManger := ⟨heap, 0, [], false⟩

/-- The comparator of `timers_`.  It looks through the pointers at each comparison, so that a
write to a timer changes the order of the set, which nothing in `std::set` notices. -/
def less (m : TimerManger) (p q : TimerPtr) : Bool := (m.heap p).comparator (m.heap q)

/-- Write a field of the object at `p`.  The set is not touched, and a timer in it stays where
it was. -/
def modify (p : TimerPtr) (f : Timer → Timer) (m : TimerManger) : TimerManger :=
  { m with heap := Function.update m.heap p (f (m.heap p)) }

/-- `timers_.find(p) != timers_.end()`.  A search by the comparator, which finds the element
only if the set is ordered by it at this moment. -/
def find (p : TimerPtr) (m : TimerManger) : Bool := (OrderedSeq.find m.less p m.timers).isSome

/-- `timers_.erase(timers_.find(p))`.  The element that the search finds is taken out, line 32,
55 or 83. -/
def erase (p : TimerPtr) (m : TimerManger) : TimerManger :=
  { m with timers := OrderedSeq.erase m.less p m.timers }

/-- `timers_.insert(p)`.  The element goes behind all that compare less, and stays out if an
equal one is there. -/
def insert (p : TimerPtr) (m : TimerManger) : TimerManger :=
  { m with timers := OrderedSeq.insert m.less p m.timers }

/-- `timers_.insert(p).first == timers_.begin()`.  Nothing of the set compares less than `p`. -/
def insertsAtBegin (p : TimerPtr) (m : TimerManger) : Bool :=
  (OrderedSeq.before m.less p m.timers).isEmpty

/-- `new Timer(ms, cb, recurring, this)`, at an address the allocator picks.  It is not in the
set yet: line 103 makes it before line 105 takes the lock. -/
def newTimer (addr now ms : ℕ) (cb : Option Callback) (recurring : Bool) (m : TimerManger) :
    TimerManger :=
  { m with
    heap := Function.update m.heap m.allocs (Timer.new addr now ms cb recurring)
    allocs := m.allocs + 1 }

/-- `addTimer(timer, lock)` up to `lock.unlock()`.  When the answer is true,
`onTimerInsertedAtFront` is called next.  Lines 120 to 124: the timer is inserted, and
`tickled_` is set by the first insertion at the front since the last `getNextTimer`, which alone
reports. -/
def addTimerLocked (p : TimerPtr) (m : TimerManger) : Bool × TimerManger :=
  let atFront := m.insertsAtBegin p && !m.tickled
  (atFront, { m.insert p with tickled := if atFront then true else m.tickled })

/-- `addTimer(ms, cb, recurring)`: whether the caller notifies, and the manager;
the timer returned is the one allocated. -/
def addTimer (addr now ms : ℕ) (cb : Option Callback) (recurring : Bool) (m : TimerManger) :
    Bool × TimerManger :=
  (m.newTimer addr now ms cb recurring).addTimerLocked m.allocs

/-- `Timer::cancel()`.  The callback is dropped whether or not the timer is found, line 29, and
the answer is whether it was. -/
def cancel (p : TimerPtr) (m : TimerManger) : Bool × TimerManger :=
  if (m.heap p).cb.isSome then
    let m := m.modify p fun t => { t with cb := none }
    if m.find p then (true, m.erase p) else (false, m)
  else (false, m)

/-- `Timer::refresh()`.  The timer leaves the set before its expiration changes, and comes back
after, lines 55 to 57. -/
def refresh (p : TimerPtr) (now : ℕ) (m : TimerManger) : Bool × TimerManger :=
  if (m.heap p).cb.isNone then (false, m)
  else if !m.find p then (false, m)
  else
    let m := m.erase p
    let m := m.modify p fun t => { t with expiration := add64 now t.ms }
    (true, m.insert p)

/-- `Timer::reset(ms, from_now)`: the answer, whether the caller notifies before it returns, and
the manager.  The early return of line 72 comes before the lock and looks neither at the
callback nor at the set.  `addTimer(shared_from_this(), lock)` at the end releases the lock
itself. -/
def reset (p : TimerPtr) (ms : ℕ) (fromNow : Bool) (now : ℕ) (m : TimerManger) :
    Bool × Bool × TimerManger :=
  if ms = (m.heap p).ms ∧ fromNow = false then (true, false, m)
  else if (m.heap p).cb.isNone then (false, false, m)
  else if !m.find p then (false, false, m)
  else
    let m := m.erase p
    let start := if fromNow then now else sub64 (m.heap p).expiration (m.heap p).ms
    let m := m.modify p fun t => { t with ms := ms, expiration := add64 start ms }
    (true, m.addTimerLocked p)

/-- `getNextTimer()`; `~0ull` when there is no timer.  It also clears `tickled_`, so the next
timer put at the front is announced again. -/
def getNextTimer (now : ℕ) (m : TimerManger) : ℕ × TimerManger :=
  let m := { m with tickled := false }
  match m.timers with
  | [] => (2 ^ 64 - 1, m)
  | next :: _ =>
    if now ≥ (m.heap next).expiration then (0, m) else ((m.heap next).expiration - now, m)

/-- The iterator `it` of `listExpiredCb` after its loop: `lower_bound` of a timer that expires
at `now`, which lies at the address `probe`, and then past those that expire at `now`.  Of the
timer that is looked up only the expiration and the address are ever read. -/
def firstUnexpired (now probe : ℕ) (m : TimerManger) : List TimerPtr :=
  (m.timers.dropWhile fun p =>
    (m.heap p).comparator { addr := probe, isRecurring := false, ms := 0, expiration := now, cb := none }
    ).dropWhile fun p => (m.heap p).expiration == now

/-- The body of `for (auto& timer : expired)`.  A recurring timer starts again from the `now`
that was read before the lock, not from its own expiration; the other kind loses its callback. -/
def expire (now : ℕ) (p : TimerPtr) (m : TimerManger) : TimerManger :=
  if (m.heap p).isRecurring then
    (m.modify p fun t => { t with expiration := add64 now t.ms }).insert p
  else m.modify p fun t => { t with cb := none }

/-- `for (auto& timer : expired)`: the callbacks, each beside the timer it was taken from.
Since a recurring timer goes back into the set inside the loop, the timers still to be handled
are no longer in the set at that moment. -/
def expireLoop (now : ℕ) : List TimerPtr → TimerManger → List (TimerPtr × Option Callback) × TimerManger
  | [], m => ([], m)
  | p :: expired, m =>
    let (cbs, m') := expireLoop now expired (m.expire now p)
    ((p, (m.heap p).cb) :: cbs, m')

/-- `listExpiredCb(cbs)`.  The clock is read before the first lock; here the two locked parts
are one, and `Notify` takes them apart. -/
def listExpiredCb (now probe : ℕ) (m : TimerManger) :
    List (TimerPtr × Option Callback) × TimerManger :=
  if m.timers.isEmpty then ([], m)
  else
    let it := m.firstUnexpired now probe
    expireLoop now (m.timers.take (m.timers.length - it.length)) { m with timers := it }

end TimerManger
end Hiper

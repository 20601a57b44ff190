import Hiper.Lib.Narrow
import Hiper.Timer.Basic

/-!
# How long `idle` waits

`IOManager::idle` waits in `epoll_wait` for the interval that `getNextTimer()` gave, at
most `MAX_TIMEOUT`, and again after every interruption.  The cut compares the interval as
an `int` and keeps it as it is when that is not more than `MAX_TIMEOUT`, a negative one
too.  So the waits are bounded by both, but one is negative, and that is no bound for
`epoll_wait`, exactly if the low 32 bits of the interval are a negative `int`
(`waits_bounded_iff`).

The places are `src/hiper/base/iomanager.cc:347-350` and the `do` loop of `idle`
(`:380-397`).  `next_timeout` is a `uint64_t`, `MAX_TIMEOUT` an `int` and the last argument
of `epoll_wait` an `int`, so that the value is narrowed twice; an interval of `2 ^ 31`
milliseconds is nearly 25 days.
-/

namespace Hiper.IdleWait

open Lib

/-- `~0ull`.  `getNextTimer` answers it where there is no timer. -/
def allOnes : ℕ := 2 ^ 64 - 1

/-- `MAX_TIMEOUT`.  In milliseconds. -/
def maxTimeout : ℕ := 5000

/-- `IOManager::stopping(timeout)`: the answer, `timeout` and the timers.  The clock reads
`now`, and `Scheduler::stopping()` answers `schedulerStopping`.  What it reads comes in that
order. -/
def stopping (now pendingEventCount : ℕ) (schedulerStopping : Bool) (m : TimerManger) :
    Bool × ℕ × TimerManger :=
  let (timeout, m) := m.getNextTimer now
  (timeout == allOnes && pendingEventCount == 0 && schedulerStopping, timeout, m)

/-- What `epoll_wait` returns.  Only an interruption makes the loop wait again. -/
inductive EpollRet
  | events (n : ℕ)
  /-- -1, with `EINTR`. -/
  | interrupted
  /-- -1, with another error. -/
  | failed
  deriving DecidableEq, Repr

/-- `next_timeout` when `epoll_wait` is called.  It is narrowed for the comparison and not for
the assignment. -/
def cut (nextTimeout : ℕ) : ℕ :=
  if nextTimeout ≠ allOnes then
    if narrow 32 nextTimeout > maxTimeout then maxTimeout else nextTimeout
  else maxTimeout

/-- The timeouts that the `do` loop passes to `epoll_wait`; the list is what the calls return,
as far as they have returned.  The cut is made again before each of them. -/
def waits : List EpollRet → ℕ → List ℤ
  | [], nextTimeout => [narrow 32 (cut nextTimeout)]
  | ret :: rets, nextTimeout =>
    narrow 32 (cut nextTimeout) ::
      if ret = .interrupted then waits rets (cut nextTimeout) else []

/-- One round of `idle`, up to the end of the `do` loop: the timeouts, none of them when the
worker leaves, and the timers.  It is what a worker does between two looks at its tasks. -/
def idleRound (now pendingEventCount : ℕ) (schedulerStopping : Bool) (rets : List EpollRet)
    (m : TimerManger) : List ℤ × TimerManger :=
  let (leave, nextTimeout, m) := stopping now pendingEventCount schedulerStopping m
  (if leave then [] else waits rets nextTimeout, m)

/-! ### One wait -/

/-- A second cut changes nothing.  So an interruption does not change the wait. -/
@[simp]
theorem cut_cut (n : ℕ) : cut (cut n) = cut n := by
  rw [cut.eq_1 n]
  split_ifs with hn hlarge
  · rfl
  · rw [cut, if_pos hn, if_neg hlarge]
  · rfl

/-- A wait is at most `MAX_TIMEOUT`. -/
theorem narrow_cut_le_max (n : ℕ) : narrow 32 (cut n) ≤ maxTimeout := by
  rw [cut]
  split_ifs with hn hlarge
  · decide
  · exact not_lt.1 hlarge
  · decide

/-- A wait is at most the interval. -/
theorem narrow_cut_le (n : ℕ) : narrow 32 (cut n) ≤ n := by
  have hle := narrow_le 31 (Int.natCast_nonneg n)
  rw [cut]
  split_ifs with hn hlarge
  · have hmax : narrow 32 maxTimeout = maxTimeout := by decide
    rw [hmax]
    exact hlarge.le.trans hle
  · exact hle
  · rw [not_not.1 hn]
    decide

/-- A wait is not negative exactly when the low 32 bits of the interval are no negative `int`,
or there is no timer. -/
theorem narrow_cut_nonneg_iff (n : ℕ) :
    0 ≤ narrow 32 (cut n) ↔ n % 2 ^ 32 < 2 ^ 31 ∨ n = allOnes := by
  have hsign := narrow_nonneg_iff 31 n
  rw [cut]
  split_ifs with hn hlarge
  · refine iff_of_true (by decide) (Or.inl ?_)
    have hpos := hsign.1 ((Int.natCast_nonneg _).trans hlarge.le)
    omega
  · rw [hsign]
    omega
  · exact iff_of_true (by decide) (Or.inr (not_not.1 hn))

/-! ### All of them -/

/-- All rounds wait as long as the first.  The induction is over the interruptions. -/
theorem mem_waits {rets : List EpollRet} {n : ℕ} {t : ℤ} (h : t ∈ waits rets n) :
    t = narrow 32 (cut n) := by
  induction rets generalizing n with
  | nil => exact List.mem_singleton.1 h
  | cons ret rets ih =>
      rw [waits, List.mem_cons] at h
      rcases h with heq | hmem
      · exact heq
      · split_ifs at hmem
        · rw [ih hmem, cut_cut]
        · exact absurd hmem List.not_mem_nil

/-- There is a first wait. -/
theorem head?_waits (rets : List EpollRet) (n : ℕ) :
    (waits rets n).head? = some (narrow 32 (cut n)) := by
  cases rets <;> rfl

/-- Every wait lies between 0 and `MAX_TIMEOUT`, and the first is not longer than the interval.
Without a wait both hold. -/
structure Bounded (interval : ℕ) (timeouts : List ℤ) : Prop where
  bounded : ∀ t ∈ timeouts, 0 ≤ t ∧ t ≤ 5000
  first_le : ∀ t ∈ timeouts.head?, t ≤ interval

/-- The waits are bounded exactly when the interval is in range. -/
theorem bounded_waits_iff (rets : List EpollRet) (n : ℕ) :
    Bounded n (waits rets n) ↔ n % 2 ^ 32 < 2 ^ 31 ∨ n = allOnes := by
  have hfirst := head?_waits rets n
  rw [← narrow_cut_nonneg_iff]
  constructor
  · exact fun h => (h.bounded _ (List.mem_of_mem_head? hfirst)).1
  · intro hpos
    refine ⟨fun t ht => ?_, fun t ht => ?_⟩
    · rw [mem_waits ht]
      exact ⟨hpos, narrow_cut_le_max n⟩
    · rw [hfirst, Option.mem_some_iff] at ht
      rw [← ht]
      exact narrow_cut_le n

/-- The first timer is due, or its interval is one whose low 32 bits are an `int` that is not
negative, or is taken for no timer.  It is a condition on the timers and the clock. -/
def InRange (now : ℕ) (m : TimerManger) : Prop :=
  ∀ p ∈ m.timers.head?, ∀ interval, (m.heap p).expiration = now + interval →
    interval % 2 ^ 32 < 2 ^ 31 ∨ interval = allOnes

/-- The answer of `getNextTimer` is in range exactly when the first timer is. -/
theorem getNextTimer_inRange_iff (now : ℕ) (m : TimerManger) :
    ((m.getNextTimer now).1 % 2 ^ 32 < 2 ^ 31 ∨ (m.getNextTimer now).1 = allOnes) ↔
      InRange now m := by
  rw [TimerManger.getNextTimer, InRange]
  cases htimers : m.timers with
  | nil => exact iff_of_true (Or.inr rfl) nofun
  | cons next rest =>
      simp only [List.head?_cons, Option.mem_some_iff, forall_eq']
      split_ifs with hdue
      · exact iff_of_true (Or.inl (Nat.two_pow_pos 31)) fun interval hexp => Or.inl (by omega)
      · constructor
        · intro h interval hexp
          rwa [hexp, Nat.add_sub_cancel_left] at h
        · exact fun h => h _ (by omega)

/-- **The waits are bounded** for every timer set and clock value, exactly if the first timer is
in range: all of them by 0 and `MAX_TIMEOUT`, the first by the interval.  The condition speaks
about the first timer and the clock; how `epoll_wait` returns does not matter.  The loop is
`src/hiper/base/iomanager.cc:380-397`: line 383 compares `(int)next_timeout`, which is negative
for an interval of `2 ^ 31` milliseconds or more, and line 390 waits for it. -/
theorem waits_bounded_iff (m : TimerManger) (now pendingEventCount : ℕ) (schedulerStopping : Bool)
    (rets : List EpollRet) :
    Bounded (m.getNextTimer now).1
        (idleRound now pendingEventCount schedulerStopping rets m).1 ↔ InRange now m := by
  rw [← getNextTimer_inRange_iff]
  generalize hnext : m.getNextTimer now = next
  obtain ⟨interval, m'⟩ := next
  simp only [idleRound, stopping, hnext]
  split_ifs with hleave
  · -- no wait when the worker leaves, which it does only if there is no timer
    rw [Bool.and_eq_true, Bool.and_eq_true, beq_iff_eq] at hleave
    exact iff_of_true ⟨nofun, nofun⟩ (Or.inr hleave.1.1)
  · exact bounded_waits_iff rets interval

/-- A manager whose only timer was just added, for `2 ^ 31` milliseconds.  The clock has not
moved since. -/
def farTimer : TimerManger :=
  ((TimerManger.init fun _ => .new 0 0 0 none false).addTimer 8 0 2147483648 (some 1) false).2

/-- The first wait is for `-2147483648` milliseconds. -/
theorem wait_negative :
    ¬Bounded (farTimer.getNextTimer 0).1 (idleRound 0 0 false [] farTimer).1 := by
  intro h
  have hfirst := h.bounded (-2147483648) (by decide)
  omega

end Hiper.IdleWait

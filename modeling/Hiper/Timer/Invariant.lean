import Hiper.Timer.Basic
import Mathlib.Order.BooleanAlgebra.Set

/-!
# The timer set

What keeps `timers_` a set in the order of its comparator while the operations
of `timer.cc` change the keys: a timer is taken out before its expiration
changes, and put back after.  `Wf m held` says so, with `held` the timers that
an operation has in its hands; each primitive moves a timer between the set and
the hands (`newTimer_wf`, `erase_wf`, `modify_wf`, `insert_wf`, `release_wf`),
and each operation, being made of them, keeps `Wf` and does one of few things
(`cancel_cases`, `refresh_cases`, `reset_cases`, `listExpiredCb_spec`).

The code never states this invariant, but every function of `timer.cc` is written for it:
`cancel` (line 25), `refresh` (45) and `reset` (70) take their timer out of the set before
they write to it, and the loop of `listExpiredCb` (219) has emptied the part of the set that
it writes to.  `Lib.OrderedSeq` has the lemmas about a sequence kept in order; here they are
used at the keys of timers.
-/

namespace Hiper.TimerManger

open Lib

/-- The key of a timer in the set.  It depends on the memory, so it changes when the timer is
written to. -/
def key (m : TimerManger) (p : TimerPtr) : ℕ ×ₗ ℕ := (m.heap p).key

/-- The comparator of the set is the order of keys, in the form that `OrderedSeq` asks for. -/
theorem compares (m : TimerManger) : OrderedSeq.Compares m.less m.key :=
  fun p q => Timer.comparator_iff (m.heap p) (m.heap q)

/-- The set is in order, its timers and the held ones lie at addresses of their own, and a timer
that is neither has no callback.  `held` is empty between two operations and in a single thread;
it has the timers that `new Timer` has made and `addTimer` has not inserted yet, or those that
the loop of `listExpiredCb` is going through. -/
structure Wf (m : TimerManger) (held : Set TimerPtr) : Prop where
  sorted : OrderedSeq.Sorted m.key m.timers
  lt_allocs : ∀ p, p ∈ m.timers ∨ p ∈ held → p < m.allocs
  addr_inj : ∀ p q, p ∈ m.timers ∨ p ∈ held → q ∈ m.timers ∨ q ∈ held →
    (m.heap p).addr = (m.heap q).addr → p = q
  not_mem : ∀ p ∈ held, p ∉ m.timers
  armed : ∀ p < m.allocs, p ∉ held → (m.heap p).cb.isSome → p ∈ m.timers

variable {m : TimerManger} {held : Set TimerPtr} {p : TimerPtr}

/-- A manager that has just been made keeps the law, whatever lies in memory. -/
theorem init_wf (heap : TimerPtr → Timer) : (init heap).Wf ∅ where
  sorted := List.Pairwise.nil
  lt_allocs := by simp [init]
  addr_inj := by simp [init]
  not_mem := by simp
  armed := by simp [init]

/-! ### Reading through pointers -/

@[simp]
theorem modify_heap_self (f : Timer → Timer) : (m.modify p f).heap p = f (m.heap p) :=
  Function.update_self ..

/-- A write to one timer changes no other. -/
theorem modify_heap_of_ne (f : Timer → Timer) {q : TimerPtr} (h : q ≠ p) :
    (m.modify p f).heap q = m.heap q :=
  Function.update_of_ne h ..

@[simp]
theorem modify_timers (f : Timer → Timer) : (m.modify p f).timers = m.timers := rfl

@[simp]
theorem modify_allocs (f : Timer → Timer) : (m.modify p f).allocs = m.allocs := rfl

@[simp]
theorem modify_tickled (f : Timer → Timer) : (m.modify p f).tickled = m.tickled := rfl

@[simp]
theorem insert_heap : (m.insert p).heap = m.heap := rfl

@[simp]
theorem insert_allocs : (m.insert p).allocs = m.allocs := rfl

@[simp]
theorem insert_tickled : (m.insert p).tickled = m.tickled := rfl

@[simp]
theorem erase_heap : (m.erase p).heap = m.heap := rfl

@[simp]
theorem erase_allocs : (m.erase p).allocs = m.allocs := rfl

@[simp]
theorem erase_tickled : (m.erase p).tickled = m.tickled := rfl

/-- A field read through one pointer, after a write through another or the same.  This is how a
write to `cb_` or `ms_` is seen to leave addresses and keys as they are. -/
theorem modify_heap_congr {β : Type*} (g : Timer → β) {f : Timer → Timer}
    (h : g (f (m.heap p)) = g (m.heap p)) (q : TimerPtr) :
    g ((m.modify p f).heap q) = g (m.heap q) := by
  by_cases hq : q = p
  · rw [hq, modify_heap_self, h]
  · rw [modify_heap_of_ne f hq]

/-! ### Primitives -/

/-- A running timer is found.  The test after `find` in `cancel`, `refresh` and `reset` is
therefore never false for a timer with a callback. -/
theorem Wf.find_of_mem (h : m.Wf held) (hp : p ∈ m.timers) : m.find p = true := by
  have hfind := (h.sorted.find_eq_some m.compares).2 ⟨hp, rfl⟩
  rw [find, hfind]
  rfl

/-- Erasing takes out that timer and no other; the search cannot hit a different one, as keys
differ. -/
theorem Wf.mem_erase (h : m.Wf held) (hp : p ∈ m.timers) {q : TimerPtr} :
    q ∈ (m.erase p).timers ↔ q ∈ m.timers ∧ q ≠ p :=
  h.sorted.mem_erase m.compares hp

/-- No timer of the set has the key of one held.  So inserting it never meets an equal element,
and `std::set` does not drop it. -/
theorem Wf.key_ne (h : m.Wf held) (hp : p ∈ held) : ∀ q ∈ m.timers, m.key q ≠ m.key p := by
  intro q hq hkey
  have haddr := ((Timer.key_eq_iff _ _).1 hkey).2
  have hqp := h.addr_inj q p (Or.inl hq) (Or.inr hp) haddr
  exact h.not_mem p hp (hqp ▸ hq)

/-- Inserting a held timer adds it, and nothing else. -/
theorem Wf.mem_insert (h : m.Wf held) (hp : p ∈ held) {q : TimerPtr} :
    q ∈ (m.insert p).timers ↔ q = p ∨ q ∈ m.timers :=
  h.sorted.mem_insert m.compares (h.key_ne hp)

/-- A held timer goes to the front when no timer of the set has a smaller key.  This is the test
`it == timers_.begin()` of line 121. -/
theorem Wf.insertsAtBegin_iff (h : m.Wf held) (p : TimerPtr) :
    m.insertsAtBegin p = true ↔ ∀ q ∈ m.timers, m.key p ≤ m.key q := by
  rw [insertsAtBegin, List.isEmpty_iff, h.sorted.before_eq_nil m.compares]

/-- A timer of the set goes into the hands of the operation. -/
theorem Wf.erase_wf (h : m.Wf held) (hp : p ∈ m.timers) : (m.erase p).Wf (Insert.insert p held) := by
  have hin : ∀ q, q ∈ (m.erase p).timers ∨ q ∈ Insert.insert p held → q ∈ m.timers ∨ q ∈ held := by
    rintro q (hq | rfl | hq)
    · exact Or.inl ((h.mem_erase hp).1 hq).1
    · exact Or.inl hp
    · exact Or.inr hq
  refine ⟨h.sorted.sorted_erase, fun q hq => h.lt_allocs q (hin q hq),
    fun q r hq hr => h.addr_inj q r (hin q hq) (hin r hr), ?_, ?_⟩
  · rintro q (rfl | hq) hmem
    · exact ((h.mem_erase hp).1 hmem).2 rfl
    · exact h.not_mem q hq ((h.mem_erase hp).1 hmem).1
  · intro q hq hheld hcb
    rw [Set.mem_insert_iff, not_or] at hheld
    exact (h.mem_erase hp).2 ⟨h.armed q hq hheld.2 hcb, hheld.1⟩

/-- A held timer goes back into the set, where its key says. -/
theorem Wf.insert_wf (h : m.Wf held) (hp : p ∈ held) : (m.insert p).Wf (held \ {p}) := by
  have hin : ∀ q, q ∈ (m.insert p).timers ∨ q ∈ held \ {p} → q ∈ m.timers ∨ q ∈ held := by
    rintro q (hq | hq)
    · rcases (h.mem_insert hp).1 hq with rfl | hq
      · exact Or.inr hp
      · exact Or.inl hq
    · exact Or.inr hq.1
  refine ⟨h.sorted.sorted_insert m.compares (h.key_ne hp), fun q hq => h.lt_allocs q (hin q hq),
    fun q r hq hr => h.addr_inj q r (hin q hq) (hin r hr), ?_, ?_⟩
  · rintro q ⟨hq, hne⟩ hmem
    rcases (h.mem_insert hp).1 hmem with rfl | hmem
    · exact hne rfl
    · exact h.not_mem q hq hmem
  · intro q hq hheld hcb
    by_cases hqp : q = p
    · exact (h.mem_insert hp).2 (Or.inl hqp)
    · exact (h.mem_insert hp).2 (Or.inr (h.armed q hq (fun hmem => hheld ⟨hmem, hqp⟩) hcb))

/-- Writing to a timer: it stays at its address, gains no callback, and when it is not held its
key stays.  This is the rule for every write of `timer.cc`; the two sides of `hkey` are a write
to the expiration of a held timer and a write to anything else. -/
theorem Wf.modify_wf (h : m.Wf held) {f : Timer → Timer}
    (haddr : (f (m.heap p)).addr = (m.heap p).addr)
    (hcb : (f (m.heap p)).cb.isSome → (m.heap p).cb.isSome)
    (hkey : p ∈ held ∨ (f (m.heap p)).key = (m.heap p).key) : (m.modify p f).Wf held := by
  have haddr' := modify_heap_congr Timer.addr haddr
  refine ⟨h.sorted.congr ?_, h.lt_allocs, ?_, h.not_mem, ?_⟩
  · intro q hq
    rcases hkey with hheld | hkey
    · have hqp : q ≠ p := fun heq => h.not_mem p hheld (heq ▸ hq)
      rw [key, key, modify_heap_of_ne f hqp]
    · exact modify_heap_congr Timer.key hkey q
  · intro q r hq hr heq
    rw [haddr', haddr'] at heq
    exact h.addr_inj q r hq hr heq
  · intro q hq hheld hq'
    by_cases hqp : q = p
    · rw [hqp, modify_heap_self] at hq'
      exact h.armed q hq hheld (hqp ▸ hcb hq')
    · rw [modify_heap_of_ne f hqp] at hq'
      exact h.armed q hq hheld hq'

/-- The callback of any timer may be dropped, in the set or out of it. -/
theorem Wf.clearCb_wf (h : m.Wf held) (p : TimerPtr) :
    (m.modify p fun t => { t with cb := none }).Wf held :=
  h.modify_wf rfl (fun hc => by cases hc) (Or.inr rfl)

/-- A timer without a callback can be let go.  `cancel` forgets its timer this way, and the loop
of `listExpiredCb` the timers that are not recurring. -/
theorem Wf.release_wf (h : m.Wf held) (hcb : (m.heap p).cb = none) : m.Wf (held \ {p}) := by
  have hin : ∀ q, q ∈ m.timers ∨ q ∈ held \ {p} → q ∈ m.timers ∨ q ∈ held :=
    fun q hq => hq.imp_right fun hq => hq.1
  refine ⟨h.sorted, fun q hq => h.lt_allocs q (hin q hq),
    fun q r hq hr => h.addr_inj q r (hin q hq) (hin r hr), fun q hq => h.not_mem q hq.1, ?_⟩
  intro q hq hheld hq'
  refine h.armed q hq (fun hmem => hheld ⟨hmem, fun hqp => ?_⟩) hq'
  rw [Set.mem_singleton_iff.1 hqp, hcb] at hq'
  cases hq'

/-- `tickled_` is not part of the law. -/
theorem Wf.tickled_wf (h : m.Wf held) (b : Bool) : ({ m with tickled := b } : TimerManger).Wf held :=
  ⟨h.sorted, h.lt_allocs, h.addr_inj, h.not_mem, h.armed⟩

/-! ### Making timers -/

/-- Making a timer changes no timer made before. -/
theorem newTimer_heap_of_lt (addr now ms : ℕ) (cb : Option Callback) (r : Bool) {q : TimerPtr}
    (hq : q < m.allocs) : (m.newTimer addr now ms cb r).heap q = m.heap q :=
  Function.update_of_ne hq.ne ..

@[simp]
theorem newTimer_heap_self (addr now ms : ℕ) (cb : Option Callback) (r : Bool) :
    (m.newTimer addr now ms cb r).heap m.allocs = Timer.new addr now ms cb r :=
  Function.update_self ..

/-- A new timer is held by the thread that made it.  The allocator gives it an address that no
live timer has.  This hypothesis is what an allocator promises: an address is used again only
after the object there is gone. -/
theorem Wf.newTimer_wf (h : m.Wf held) {addr : ℕ} (now ms : ℕ) (cb : Option Callback) (r : Bool)
    (hfresh : ∀ q, q ∈ m.timers ∨ q ∈ held → (m.heap q).addr ≠ addr) :
    (m.newTimer addr now ms cb r).Wf (Insert.insert m.allocs held) := by
  have hcases : ∀ q, q ∈ m.timers ∨ q ∈ Insert.insert m.allocs held →
      q = m.allocs ∨ (q < m.allocs ∧ (q ∈ m.timers ∨ q ∈ held)) := by
    rintro q (hq | rfl | hq)
    · exact Or.inr ⟨h.lt_allocs q (Or.inl hq), Or.inl hq⟩
    · exact Or.inl rfl
    · exact Or.inr ⟨h.lt_allocs q (Or.inr hq), Or.inr hq⟩
  refine ⟨h.sorted.congr ?_, ?_, ?_, ?_, ?_⟩
  · intro q hq
    rw [key, key, newTimer_heap_of_lt _ _ _ _ _ (h.lt_allocs q (Or.inl hq))]
  · intro q hq
    rcases hcases q hq with rfl | ⟨hq, -⟩
    · exact Nat.lt_succ_self _
    · exact Nat.lt_succ_of_lt hq
  · intro q q' hq hq' heq
    rcases hcases q hq with rfl | ⟨hlt, hq⟩ <;> rcases hcases q' hq' with rfl | ⟨hlt', hq'⟩
    · rfl
    · rw [newTimer_heap_self, newTimer_heap_of_lt _ _ _ _ _ hlt'] at heq
      exact absurd heq.symm (hfresh q' hq')
    · rw [newTimer_heap_self, newTimer_heap_of_lt _ _ _ _ _ hlt] at heq
      exact absurd heq (hfresh q hq)
    · rw [newTimer_heap_of_lt _ _ _ _ _ hlt, newTimer_heap_of_lt _ _ _ _ _ hlt'] at heq
      exact h.addr_inj q q' hq hq' heq
  · rintro q (rfl | hq) hmem
    · exact Nat.lt_irrefl _ (h.lt_allocs _ (Or.inl hmem))
    · exact h.not_mem q hq hmem
  · intro q hq hheld hcb
    rw [Set.mem_insert_iff, not_or] at hheld
    have hlt : q < m.allocs := lt_of_le_of_ne (Nat.le_of_lt_succ hq) hheld.1
    rw [newTimer_heap_of_lt _ _ _ _ _ hlt] at hcb
    exact h.armed q hlt hheld.2 hcb

/-- The locked part of `addTimer` puts the timer it was given into the set. -/
theorem Wf.addTimerLocked_wf (h : m.Wf held) (hp : p ∈ held) :
    (m.addTimerLocked p).2.Wf (held \ {p}) :=
  (h.insert_wf hp).tickled_wf _

/-- That timer is in the set then, beside those that were. -/
theorem Wf.mem_addTimerLocked (h : m.Wf held) (hp : p ∈ held) {q : TimerPtr} :
    q ∈ (m.addTimerLocked p).2.timers ↔ q = p ∨ q ∈ m.timers :=
  h.mem_insert hp

@[simp]
theorem addTimerLocked_heap : (m.addTimerLocked p).2.heap = m.heap := rfl

@[simp]
theorem addTimerLocked_allocs : (m.addTimerLocked p).2.allocs = m.allocs := rfl

/-- **`addTimer` puts the timer it made into the set**, and leaves the others as they are.  In
one thread `addTimer` is this one step; in several, `Notify` lets other threads come between the
making and the insertion. -/
theorem Wf.addTimer_spec (h : m.Wf ∅) {addr : ℕ} (now ms : ℕ) (cb : Option Callback) (r : Bool)
    (hfresh : ∀ q ∈ m.timers, (m.heap q).addr ≠ addr) :
    (m.addTimer addr now ms cb r).2.Wf ∅ ∧
      (∀ q, q ∈ (m.addTimer addr now ms cb r).2.timers ↔ q = m.allocs ∨ q ∈ m.timers) ∧
      (m.addTimer addr now ms cb r).2.heap m.allocs = Timer.new addr now ms cb r ∧
      ∀ q < m.allocs, (m.addTimer addr now ms cb r).2.heap q = m.heap q := by
  have hheld : m.allocs ∈ Insert.insert m.allocs (∅ : Set TimerPtr) := Set.mem_insert ..
  have hnew := h.newTimer_wf now ms cb r fun q hq => hfresh q (hq.resolve_right (Set.notMem_empty q))
  have hinsert := hnew.addTimerLocked_wf hheld
  rw [Set.insert_sdiff_self_of_notMem (Set.notMem_empty _)] at hinsert
  exact ⟨hinsert, fun q => hnew.mem_addTimerLocked hheld, newTimer_heap_self ..,
    fun q hq => newTimer_heap_of_lt _ _ _ _ _ hq⟩

/-! ### Operations on one timer -/

/-- `q` is a timer of the manager that no operation holds.  Its pointer has been returned by
`addTimer`, so `cancel`, `refresh` and `reset` can be called on it. -/
def Given (m : TimerManger) (held : Set TimerPtr) (q : TimerPtr) : Prop := q < m.allocs ∧ q ∉ held

/-- A timer that somebody may call and that has a callback is in the set: this is how the code
tells a pending timer. -/
theorem Wf.mem_of_isSome (h : m.Wf held) (hp : m.Given held p) (hcb : (m.heap p).cb.isSome) :
    p ∈ m.timers :=
  h.armed p hp.1 hp.2 hcb

/-- The manager after `cancel` ran on a timer with a callback.  The callback first, the set
second, as in lines 29 to 32. -/
def cancelled (p : TimerPtr) (m : TimerManger) : TimerManger :=
  (m.modify p fun t => { t with cb := none }).erase p

/-- The manager after a timer was taken out, rewritten, and put back.  Of `refresh` and `reset`,
which differ in what they write. -/
def moved (p : TimerPtr) (f : Timer → Timer) (m : TimerManger) : TimerManger :=
  ((m.erase p).modify p f).insert p

/-- `cancel` answers false and does nothing, or takes the timer out and drops its callback.  The
third way through the code, a callback but no place in the set, does not occur. -/
theorem cancel_cases (h : m.Wf held) (hp : m.Given held p) :
    ((m.heap p).cb = none ∧ m.cancel p = (false, m)) ∨
      (p ∈ m.timers ∧ m.cancel p = (true, m.cancelled p)) := by
  rw [cancel]
  cases hcb : (m.heap p).cb with
  | none => exact Or.inl ⟨rfl, rfl⟩
  | some cb =>
      have hmem := h.mem_of_isSome hp (by rw [hcb]; rfl)
      refine Or.inr ⟨hmem, ?_⟩
      simp only [Option.isSome_some, if_true, (h.clearCb_wf p).find_of_mem hmem]
      rfl

/-- A cancelled manager keeps the law. -/
theorem Wf.cancelled_wf (h : m.Wf held) (hp : p ∈ m.timers) : (m.cancelled p).Wf held := by
  have hrelease := ((h.clearCb_wf p).erase_wf hp).release_wf (p := p) (by simp)
  rwa [Set.insert_sdiff_self_of_notMem fun hheld => h.not_mem p hheld hp] at hrelease

/-- Exactly the cancelled timer is gone from the set. -/
theorem Wf.mem_cancelled (h : m.Wf held) (hp : p ∈ m.timers) {q : TimerPtr} :
    q ∈ (m.cancelled p).timers ↔ q ∈ m.timers ∧ q ≠ p :=
  (h.clearCb_wf p).mem_erase hp

/-- Taking a timer out, writing to its expiration and period, and putting it back keeps the law. -/
theorem Wf.moved_wf (h : m.Wf held) (hp : p ∈ m.timers) {f : Timer → Timer}
    (haddr : (f (m.heap p)).addr = (m.heap p).addr) (hcb : (f (m.heap p)).cb = (m.heap p).cb) :
    (m.moved p f).Wf held := by
  have hwf : ((m.erase p).modify p f).Wf (Insert.insert p held) :=
    (h.erase_wf hp).modify_wf haddr (fun hc => hcb ▸ hc) (Or.inl (Set.mem_insert ..))
  have hinsert := hwf.insert_wf (Set.mem_insert ..)
  rwa [Set.insert_sdiff_self_of_notMem fun hheld => h.not_mem p hheld hp] at hinsert

/-- The set has the same timers after, in what may be another order. -/
theorem Wf.mem_moved (h : m.Wf held) (hp : p ∈ m.timers) {f : Timer → Timer}
    (haddr : (f (m.heap p)).addr = (m.heap p).addr) (hcb : (f (m.heap p)).cb = (m.heap p).cb)
    {q : TimerPtr} : q ∈ (m.moved p f).timers ↔ q ∈ m.timers := by
  have hwf : ((m.erase p).modify p f).Wf (Insert.insert p held) :=
    (h.erase_wf hp).modify_wf haddr (fun hc => hcb ▸ hc) (Or.inl (Set.mem_insert ..))
  have hmem := hwf.mem_insert (Set.mem_insert p held) (q := q)
  rw [modify_timers, h.mem_erase hp] at hmem
  rw [moved, hmem]
  constructor
  · rintro (rfl | ⟨hq, -⟩)
    · exact hp
    · exact hq
  · intro hq
    by_cases hqp : q = p
    · exact Or.inl hqp
    · exact Or.inr ⟨hq, hqp⟩

/-- `refresh` answers false and does nothing, or restarts the timer now.  The period stays, so
the new expiration is that of a timer made now. -/
theorem refresh_cases (h : m.Wf held) (hp : m.Given held p) (now : ℕ) :
    ((m.heap p).cb = none ∧ m.refresh p now = (false, m)) ∨
      (p ∈ m.timers ∧ m.refresh p now =
        (true, m.moved p fun t => { t with expiration := add64 now t.ms })) := by
  rw [refresh]
  cases hcb : (m.heap p).cb with
  | none => exact Or.inl ⟨rfl, rfl⟩
  | some cb =>
      have hmem := h.mem_of_isSome hp (by rw [hcb]; rfl)
      refine Or.inr ⟨hmem, ?_⟩
      simp only [h.find_of_mem hmem]
      rfl

/-- The moment a timer runs from, after a `reset`.  Without `from_now` it is the start the timer
had, which the code recovers as `expiration_ - ms_`. -/
def resetStart (t : Timer) (fromNow : Bool) (now : ℕ) : ℕ :=
  if fromNow then now else sub64 t.expiration t.ms

/-- `reset` changes nothing, or gives the timer another period, from now or from the moment it
ran from.  The first case is the early return of line 72, which a timer that is no longer
pending takes as well. -/
theorem reset_cases (h : m.Wf held) (hp : m.Given held p) (ms : ℕ) (fromNow : Bool) (now : ℕ) :
    (m.reset p ms fromNow now = (true, false, m) ∧ ms = (m.heap p).ms ∧ fromNow = false) ∨
    ((m.heap p).cb = none ∧ m.reset p ms fromNow now = (false, false, m)) ∨
      (p ∈ m.timers ∧ m.reset p ms fromNow now =
        (true, ((m.erase p).modify p fun t =>
          { t with ms := ms, expiration := add64 (resetStart t fromNow now) ms }).addTimerLocked
            p)) := by
  rw [reset]
  by_cases hsame : ms = (m.heap p).ms ∧ fromNow = false
  · exact Or.inl ⟨if_pos hsame, hsame⟩
  rw [if_neg hsame]
  cases hcb : (m.heap p).cb with
  | none => exact Or.inr (Or.inl ⟨rfl, rfl⟩)
  | some cb =>
      have hmem := h.mem_of_isSome hp (by rw [hcb]; rfl)
      refine Or.inr (Or.inr ⟨hmem, ?_⟩)
      simp only [h.find_of_mem hmem, Option.isNone_some, Bool.not_true, Bool.false_eq_true, if_false,
        modify, erase_heap, resetStart]

/-! ### Expired timers -/

/-- `it` splits the set into the timers that expire by `now` and the later ones.  The address
`probe` does not occur in what is said of the two parts: it decides only where among the timers
that expire at `now` the search lands. -/
theorem Wf.firstUnexpired_spec (h : m.Wf held) (now probe : ℕ) :
    ∃ expired, m.timers = expired ++ m.firstUnexpired now probe ∧
      (∀ q ∈ expired, (m.heap q).expiration ≤ now) ∧
        ∀ q ∈ m.firstUnexpired now probe, now < (m.heap q).expiration := by
  let bound : Timer :=
    { addr := probe, isRecurring := false, ms := 0, expiration := now, cb := none }
  let isBefore : TimerPtr → Bool := fun q => (m.heap q).comparator bound
  let isNow : TimerPtr → Bool := fun q => (m.heap q).expiration == now
  have hbefore : ∀ q, isBefore q = true ↔ m.key q < bound.key := fun q => Timer.comparator_iff _ _
  have hcut (q : TimerPtr) := h.sorted.mem_takeWhile_and_dropWhile (x := q) (p := isBefore)
    fun x y _ _ hlt hy => (hbefore x).2 (hlt.trans ((hbefore y).1 hy))
  have hrest : OrderedSeq.Sorted m.key (m.timers.dropWhile isBefore) :=
    h.sorted.sublist (List.dropWhile_sublist _)
  have hge : ∀ q ∈ m.timers.dropWhile isBefore, now ≤ (m.heap q).expiration := by
    intro q hq
    have hnot := ((hcut q).2.1 hq).2
    rw [← Bool.not_eq_true, hbefore, key, Timer.key_lt_iff, not_or] at hnot
    exact Nat.not_lt.1 hnot.1
  have hcut' (q : TimerPtr) := hrest.mem_takeWhile_and_dropWhile (x := q) (p := isNow) (by
    intro x y hx hy hlt hnow
    have hx := hge x hx
    have hlt := (Timer.key_lt_iff _ _).1 hlt
    simp only [isNow, beq_iff_eq] at hnow ⊢
    omega)
  refine ⟨m.timers.takeWhile isBefore ++ (m.timers.dropWhile isBefore).takeWhile isNow, ?_, ?_, ?_⟩
  · rw [List.append_assoc]
    change m.timers = _ ++ (_ ++ (m.timers.dropWhile isBefore).dropWhile isNow)
    rw [List.takeWhile_append_dropWhile, List.takeWhile_append_dropWhile]
  · intro q hq
    rcases List.mem_append.1 hq with hq | hq
    · have hlt := (Timer.key_lt_iff _ _).1 ((hbefore q).1 ((hcut q).1.1 hq).2)
      rcases hlt with hlt | ⟨heq, -⟩
      · exact hlt.le
      · exact heq.le
    · have hnow := ((hcut' q).1.1 hq).2
      simp only [isNow, beq_iff_eq] at hnow
      exact hnow.le
  · intro q hq
    have hq := (hcut' q).2.1 hq
    have hne : (m.heap q).expiration ≠ now := by simpa [isNow] using hq.2
    exact lt_of_le_of_ne (hge q hq.1) hne.symm

/-- A timer after it fired at `now`.  A recurring one starts again, any other loses its
callback, lines 221 to 230. -/
def fired (now : ℕ) (t : Timer) : Timer :=
  if t.isRecurring then { t with expiration := add64 now t.ms } else { t with cb := none }

/-- One round of the loop: the timer fires, and is in the set again when it is recurring.  The
timer was held by the loop, and is so no more. -/
theorem Wf.expire_wf (h : m.Wf (Insert.insert p held)) (hp : p ∉ held) (now : ℕ) :
    (m.expire now p).Wf held ∧ (m.expire now p).heap = (m.modify p (fired now)).heap ∧
      ∀ q, q ∈ (m.expire now p).timers ↔ q ∈ m.timers ∨ q = p ∧ (m.heap p).isRecurring = true := by
  have hheld : p ∈ Insert.insert p held := Set.mem_insert ..
  by_cases hrec : (m.heap p).isRecurring = true
  · have hfired : m.expire now p =
        (m.modify p fun t => { t with expiration := add64 now t.ms }).insert p := by
      rw [expire, if_pos hrec]
    have hwf : (m.modify p fun t => { t with expiration := add64 now t.ms }).Wf
        (Insert.insert p held) := h.modify_wf rfl id (Or.inl hheld)
    refine ⟨?_, ?_, fun q => ?_⟩
    · have hinsert := hwf.insert_wf hheld
      rwa [Set.insert_sdiff_self_of_notMem hp, ← hfired] at hinsert
    · rw [hfired, insert_heap]
      simp only [modify, fired, if_pos hrec]
    · rw [hfired, hwf.mem_insert hheld, modify_timers]
      tauto
  · have hfired : m.expire now p = m.modify p fun t => { t with cb := none } := by
      rw [expire, if_neg hrec]
    have hwf : (m.modify p fun t => { t with cb := none }).Wf (Insert.insert p held) :=
      h.modify_wf rfl (fun hc => by cases hc) (Or.inl hheld)
    refine ⟨?_, ?_, fun q => ?_⟩
    · have hrelease := hwf.release_wf (p := p) (by simp)
      rwa [Set.insert_sdiff_self_of_notMem hp, ← hfired] at hrelease
    · rw [hfired]
      simp only [modify, fired, if_neg hrec]
    · rw [hfired, modify_timers]
      tauto

/-- Firing makes no timer. -/
@[simp]
theorem expire_allocs (now : ℕ) : (m.expire now p).allocs = m.allocs := by
  unfold expire
  split_ifs <;> rfl

/-- A recurring timer that goes back into the set by the loop is never announced, even at the
front: the worker that lists is the one that would be told. -/
@[simp]
theorem expire_tickled (now : ℕ) : (m.expire now p).tickled = m.tickled := by
  unfold expire
  split_ifs <;> rfl

/-- The hands of the loop, split at the timer of this round. -/
theorem held_cons (p : TimerPtr) (expired : List TimerPtr) (held : Set TimerPtr) :
    {q | q ∈ p :: expired} ∪ held = Insert.insert p ({q | q ∈ expired} ∪ held) := by
  ext q
  simp only [Set.mem_union, Set.mem_ofPred_eq, List.mem_cons, Set.mem_insert_iff, or_assoc]

/-- A timer that occurs once in the list is not among those still to come. -/
theorem notMem_held {expired : List TimerPtr} (hp : p ∉ expired) (hheld : p ∉ held) :
    p ∉ {q | q ∈ expired} ∪ held := by
  rintro (hmem | hmem)
  · exact hp hmem
  · exact hheld hmem

/-- **The loop.**  Each expired timer hands over its callback and fires. -/
theorem Wf.expireLoop_spec (now : ℕ) {expired : List TimerPtr} (hnodup : expired.Nodup)
    (hheld : ∀ p ∈ expired, p ∉ held) (h : m.Wf ({p | p ∈ expired} ∪ held)) :
    (expireLoop now expired m).1 = expired.map (fun p => (p, (m.heap p).cb)) ∧
      (expireLoop now expired m).2.Wf held ∧
      (expireLoop now expired m).2.heap =
        (fun q => if q ∈ expired then fired now (m.heap q) else m.heap q) ∧
      (expireLoop now expired m).2.allocs = m.allocs ∧
      (expireLoop now expired m).2.tickled = m.tickled ∧
      ∀ q, q ∈ (expireLoop now expired m).2.timers ↔
        q ∈ m.timers ∨ q ∈ expired ∧ (m.heap q).isRecurring = true := by
  induction expired generalizing m with
  | nil =>
      have hset : ({q | q ∈ []} ∪ held : Set TimerPtr) = held := by simp
      rw [hset] at h
      exact ⟨rfl, h, by simp [expireLoop], rfl, rfl, by simp [expireLoop]⟩
  | cons p expired ih =>
      obtain ⟨hp, hnodup⟩ := List.nodup_cons.1 hnodup
      have hpheld := notMem_held hp (hheld p (List.mem_cons_self ..))
      rw [held_cons] at h
      obtain ⟨hwf, hheap, hmem⟩ := h.expire_wf hpheld now
      have hother : ∀ q ∈ expired, (m.expire now p).heap q = m.heap q := by
        intro q hq
        rw [hheap, modify_heap_of_ne _ (ne_of_mem_of_not_mem hq hp)]
      obtain ⟨hcbs, hwf', hheap', hallocs, htickled, hmem'⟩ :=
        ih hnodup (fun q hq => hheld q (List.mem_cons_of_mem _ hq)) hwf
      refine ⟨?_, hwf', ?_, hallocs.trans (expire_allocs now), htickled.trans (expire_tickled now), ?_⟩
      · rw [expireLoop, List.map_cons]
        dsimp only
        rw [hcbs]
        congr 1
        exact List.map_congr_left fun q hq => by rw [hother q hq]
      · rw [expireLoop]
        dsimp only
        rw [hheap']
        funext q
        by_cases hqp : q = p
        · rw [hqp, if_neg hp, if_pos (List.mem_cons_self ..), hheap, modify_heap_self]
        · simp only [List.mem_cons, hqp, false_or]
          rw [hheap, modify_heap_of_ne _ hqp]
      · intro q
        rw [expireLoop]
        dsimp only
        rw [hmem' q, hmem q, List.mem_cons]
        by_cases hqp : q = p
        · simp [hqp, hp]
        · by_cases hq : q ∈ expired
          · simp [hqp, hq, hother q hq]
          · simp [hqp, hq]

/-- The timers of the set that expire by `now`, in order.  A timer that expires at `now` is one
of them. -/
def expired (now : ℕ) (m : TimerManger) : List TimerPtr :=
  m.timers.filter fun p => (m.heap p).expiration ≤ now

/-- Being expired is a test on the expiration alone. -/
theorem mem_expired {now : ℕ} {q : TimerPtr} :
    q ∈ m.expired now ↔ q ∈ m.timers ∧ (m.heap q).expiration ≤ now := by
  rw [expired, List.mem_filter, decide_eq_true_iff]

/-- `it` splits the set into these timers and the others. -/
theorem Wf.timers_eq (h : m.Wf held) (now probe : ℕ) :
    m.timers = m.expired now ++ m.firstUnexpired now probe := by
  obtain ⟨expired, hsplit, hle, hlt⟩ := h.firstUnexpired_spec now probe
  have hfirst : expired.filter (fun p => (m.heap p).expiration ≤ now) = expired :=
    List.filter_eq_self.2 fun q hq => decide_eq_true (hle q hq)
  have hrest : (m.firstUnexpired now probe).filter (fun p => (m.heap p).expiration ≤ now) = [] :=
    List.filter_eq_nil_iff.2 fun q hq => by simpa using hlt q hq
  have heq : m.expired now = expired := by
    rw [TimerManger.expired, hsplit, List.filter_append, hfirst, hrest, List.append_nil]
  rw [heq]
  exact hsplit

/-- No timer expires twice in one call. -/
theorem Wf.nodup_expired (h : m.Wf held) (now : ℕ) : (m.expired now).Nodup := h.sorted.nodup.filter _

/-- They are the timers before `it`.  So the range that is copied and erased in lines 218 and
219 is the expired timers. -/
theorem Wf.take_eq_expired (h : m.Wf held) (now probe : ℕ) :
    m.timers.take (m.timers.length - (m.firstUnexpired now probe).length) = m.expired now := by
  conv_lhs => rw [h.timers_eq now probe]
  rw [List.length_append, Nat.add_sub_cancel, List.take_left]

/-- `listExpiredCb` goes through the timers that expire by `now` with its loop.  The case of an
empty set is the loop over nothing. -/
theorem Wf.listExpiredCb_eq (h : m.Wf held) (now probe : ℕ) :
    m.listExpiredCb now probe =
      expireLoop now (m.expired now) { m with timers := m.firstUnexpired now probe } := by
  rw [listExpiredCb]
  split_ifs with hempty
  · rw [List.isEmpty_iff] at hempty
    have hnil := List.append_eq_nil_iff.1 ((h.timers_eq now probe).symm.trans hempty)
    rw [hnil.1, hnil.2, expireLoop, ← hempty]
  · simp only [h.take_eq_expired now probe]

/-- The expired timers go from the set into the hands of the loop.  The range is erased before
any of its timers is written to. -/
theorem Wf.hold_expired (h : m.Wf held) (now probe : ℕ) :
    ({ m with timers := m.firstUnexpired now probe } : TimerManger).Wf
      ({p | p ∈ m.expired now} ∪ held) := by
  have hsplit := h.timers_eq now probe
  have hmem : ∀ q, q ∈ m.timers ↔ q ∈ m.expired now ∨ q ∈ m.firstUnexpired now probe := by
    intro q
    conv_lhs => rw [hsplit, List.mem_append]
  have hnodup := h.sorted.nodup
  rw [hsplit, List.nodup_append] at hnodup
  have hin : ∀ q, q ∈ m.firstUnexpired now probe ∨ q ∈ ({p | p ∈ m.expired now} ∪ held : Set TimerPtr) →
      q ∈ m.timers ∨ q ∈ held := by
    rintro q (hq | hq | hq)
    · exact Or.inl ((hmem q).2 (Or.inr hq))
    · exact Or.inl ((hmem q).2 (Or.inl hq))
    · exact Or.inr hq
  refine ⟨?_, fun q hq => h.lt_allocs q (hin q hq),
    fun q r hq hr => h.addr_inj q r (hin q hq) (hin r hr), ?_, ?_⟩
  · have hsorted := h.sorted
    rw [hsplit] at hsorted
    exact hsorted.sublist (List.sublist_append_right ..)
  · rintro q (hq | hq) hmem'
    · exact hnodup.2.2 q hq q hmem' rfl
    · exact h.not_mem q hq ((hmem q).2 (Or.inr hmem'))
  · intro q hq hheld hcb
    rw [Set.mem_union, not_or] at hheld
    exact ((hmem q).1 (h.armed q hq hheld.2 hcb)).resolve_left hheld.1

/-- **`listExpiredCb`.**  The timers that expire by `now` hand over their
callbacks, once each, and fire; the others stay. -/
theorem Wf.listExpiredCb_spec (h : m.Wf held) (now probe : ℕ) :
    ∃ expired : List TimerPtr, expired.Nodup ∧
      (∀ q, q ∈ expired ↔ q ∈ m.timers ∧ (m.heap q).expiration ≤ now) ∧
      (m.listExpiredCb now probe).1 = expired.map (fun q => (q, (m.heap q).cb)) ∧
      (m.listExpiredCb now probe).2.Wf held ∧
      (m.listExpiredCb now probe).2.heap =
        (fun q => if q ∈ expired then fired now (m.heap q) else m.heap q) ∧
      (m.listExpiredCb now probe).2.allocs = m.allocs ∧
      (m.listExpiredCb now probe).2.tickled = m.tickled ∧
      ∀ q, q ∈ (m.listExpiredCb now probe).2.timers ↔
        q ∈ m.timers ∧ (q ∈ expired → (m.heap q).isRecurring = true) := by
  have hsplit := h.timers_eq now probe
  have hnodup := h.sorted.nodup
  have hheld : ∀ q ∈ m.expired now, q ∉ held := fun q hq hq' =>
    h.not_mem q hq' (mem_expired.1 hq).1
  obtain ⟨hcbs, hwf', hheap, hallocs, htickled, htimers⟩ :=
    (h.hold_expired now probe).expireLoop_spec now (h.nodup_expired now) hheld
  rw [h.listExpiredCb_eq now probe]
  refine ⟨m.expired now, h.nodup_expired now, fun q => mem_expired, hcbs, hwf', hheap, hallocs,
    htickled, fun q => ?_⟩
  have hmem : q ∈ m.timers ↔ q ∈ m.expired now ∨ q ∈ m.firstUnexpired now probe := by
    conv_lhs => rw [hsplit, List.mem_append]
  rw [hsplit, List.nodup_append] at hnodup
  rw [htimers q, hmem]
  constructor
  · rintro (hq | ⟨hq, hrec⟩)
    · exact ⟨Or.inr hq, fun hexp => absurd rfl (hnodup.2.2 q hexp q hq)⟩
    · exact ⟨Or.inl hq, fun _ => hrec⟩
  · rintro ⟨hq | hq, hrec⟩
    · exact Or.inr ⟨hq, hrec hq⟩
    · exact Or.inl hq

end Hiper.TimerManger

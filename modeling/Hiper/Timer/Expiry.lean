import Hiper.Timer.Invariant

/-!
# What `listExpiredCb` lists

The callbacks of exactly the timers that expire by `now`, in the order of their
expirations, wherever the timer that is looked up by `lower_bound` lies in memory; and
what becomes of the set (`listExpiredCb_exact`).

The function is `src/hiper/base/timer.cc:187`.  The timer that it looks up has the
expiration `now` and an address of its own, so among the timers that expire at `now` the
comparator may put it anywhere; the loop of lines 214 to 216 then goes past the rest of
them, and the address no longer matters.
-/

namespace Hiper.TimerManger

/-- `cbs` are the callbacks that a `listExpiredCb` at `now` appends, and `m'` is what it leaves
of `m`.  Each field is one promise, and together they fix the manager completely up to the order
of the set, which `OrderedSet` treats. -/
structure ListsExpired (now : ℕ) (m : TimerManger) (cbs : List (Option Callback))
    (m' : TimerManger) : Prop where
  /-- The callbacks of the timers that have expired, each once, in ascending order. -/
  cbs_eq : ∃ expired : List TimerPtr, expired.Nodup ∧
    (∀ p, p ∈ expired ↔ p ∈ m.timers ∧ (m.heap p).expiration ≤ now) ∧
    (expired.Pairwise fun p q => (m.heap p).expiration ≤ (m.heap q).expiration) ∧
    cbs = expired.map fun p => (m.heap p).cb
  /-- The later ones stay as they are. -/
  later : ∀ p ∈ m.timers, now < (m.heap p).expiration →
    p ∈ m'.timers ∧ m'.heap p = m.heap p
  /-- Recurring ones are armed again, the callback kept. -/
  recurring : ∀ p ∈ m.timers, (m.heap p).expiration ≤ now → (m.heap p).isRecurring = true →
    p ∈ m'.timers ∧ m'.heap p = { m.heap p with expiration := add64 now (m.heap p).ms } ∧
      (now + (m.heap p).ms < 2 ^ 64 → (m'.heap p).expiration = now + (m.heap p).ms)
  /-- The others are out, without their callback. -/
  oneShot : ∀ p ∈ m.timers, (m.heap p).expiration ≤ now → (m.heap p).isRecurring = false →
    p ∉ m'.timers ∧ m'.heap p = { m.heap p with cb := none }
  /-- Nothing else is in the set, and nothing twice. -/
  only : m'.timers.Nodup ∧ ∀ p ∈ m'.timers, p ∈ m.timers

variable {m : TimerManger} {held : Set TimerPtr}

/-- The expired timers come in the order of their expirations, being the head of a set in the
order of keys. -/
theorem Wf.pairwise_expired (h : m.Wf held) (now : ℕ) :
    (m.expired now).Pairwise fun p q => (m.heap p).expiration ≤ (m.heap q).expiration := by
  have hsorted : (m.expired now).Pairwise fun p q => m.key p < m.key q := h.sorted.filter _
  refine hsorted.imp fun hlt => ?_
  rcases (Timer.key_lt_iff _ _).1 hlt with hlt | ⟨heq, -⟩
  · exact hlt.le
  · exact heq.le

/-- **`listExpiredCb` is exact**, for every timer set, clock value and address `probe` of the
timer it looks up.  It holds while other threads hold timers, too: `held` is any set of timers
that are out of the set at that time.  What is expired is decided by `expiration_ <= now`, so a
timer that expires in this very millisecond is listed.  The comparison with line 214,
`(*it)->expiration_ == now`, is why the address of `now_timer` does not matter. -/
theorem listExpiredCb_exact (h : m.Wf held) (now probe : ℕ) :
    ListsExpired now m ((m.listExpiredCb now probe).1.map Prod.snd) (m.listExpiredCb now probe).2 := by
  have hheld : ∀ p ∈ m.expired now, p ∉ held := fun p hp hp' =>
    h.not_mem p hp' (mem_expired.1 hp).1
  obtain ⟨hcbs, -⟩ :=
    (h.hold_expired now probe).expireLoop_spec now (h.nodup_expired now) hheld
  rw [← h.listExpiredCb_eq] at hcbs
  obtain ⟨expired, -, hmem, -, hwf, hheap, -, -, htimers⟩ := h.listExpiredCb_spec now probe
  generalize m.listExpiredCb now probe = result at hcbs hwf hheap htimers ⊢
  obtain ⟨cbs, m'⟩ := result
  simp only at hcbs hwf hheap htimers
  refine ⟨⟨m.expired now, h.nodup_expired now, fun p => mem_expired, h.pairwise_expired now, ?_⟩,
    fun p hp hlater => ?_, fun p hp hnow hrec => ?_, fun p hp hnow hrec => ?_, hwf.sorted.nodup,
    fun p hp => ((htimers p).1 hp).1⟩
  · rw [hcbs, List.map_map]
    rfl
  · have hout : p ∉ expired := fun hexp => absurd ((hmem p).1 hexp).2 (not_le.2 hlater)
    refine ⟨(htimers p).2 ⟨hp, fun hexp => absurd hexp hout⟩, ?_⟩
    rw [hheap]
    exact if_neg hout
  · have hin : p ∈ expired := (hmem p).2 ⟨hp, hnow⟩
    have hfired : m'.heap p = { m.heap p with expiration := add64 now (m.heap p).ms } := by
      rw [hheap]
      simp only [if_pos hin, fired, hrec, if_true]
    refine ⟨(htimers p).2 ⟨hp, fun _ => hrec⟩, hfired, fun hwrap => ?_⟩
    rw [hfired]
    exact add64_of_lt hwrap
  · have hin : p ∈ expired := (hmem p).2 ⟨hp, hnow⟩
    refine ⟨fun hp' => ?_, ?_⟩
    · have hrec' := ((htimers p).1 hp').2 hin
      rw [hrec] at hrec'
      cases hrec'
    · rw [hheap]
      simp only [if_pos hin, fired, hrec, Bool.false_eq_true, if_false]

/-- One recurring timer, listed at the moment it expires.  It is listed once, and is in the set
again with the expiration 10. -/
theorem listExpiredCb_exact_recurring :
    ListsExpired 5 ((init fun _ => .new 0 0 0 none false).addTimer 1 0 5 (some 7) true).2 [some 7]
      (((init fun _ => .new 0 0 0 none false).addTimer 1 0 5 (some 7) true).2.listExpiredCb 5 0).2 :=
  listExpiredCb_exact ((init_wf _).addTimer_spec 0 5 (some 7) true nofun).1 5 0

end Hiper.TimerManger

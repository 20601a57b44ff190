import Hiper.Lib.Machine
import Hiper.Timer.Invariant
import Mathlib.Data.List.Induction
import Mathlib.Data.List.Nodup

/-!
# The life of a timer

Runs of `addTimer`, `cancel`, `refresh`, `reset` and `listExpiredCb` in any
order.  What a timer is meant to do is read off the calls and their answers
alone (`Life`: its start, its period, its callback); `Follows` says that the
manager's fields agree with that, and every call keeps it (`exec_follows`).  The
life cycle (`timer_life_cycle`) reads the consequences off whole histories: no
callback before its time, none twice for a one-shot timer, none after `cancel`.

A history is the list of calls with their answers, which is all that a user of `timer.cc`
sees.  The runs are those of one thread, or of any number of them whose calls are ordered by
the lock `mtx_`: each function takes it once, and what is outside of it (the early return of
`reset`, the making of a timer, the clock reading of `listExpiredCb`) is put beside it here
and taken apart in `Notify`.
-/

namespace Hiper.TimerManger

open Lib

/-- A call, with the clock reading it takes; the allocator picks `addr` and `probe`.  `addTimer`
is the public one, line 101; `getNextTimer` changes only `tickled_`, and is part of `Notify`. -/
inductive Call
  | addTimer (addr now ms : ℕ) (cb : Callback) (recurring : Bool)
  | cancel (p : TimerPtr)
  | refresh (p : TimerPtr) (now : ℕ)
  | reset (p : TimerPtr) (ms : ℕ) (fromNow : Bool) (now : ℕ)
  | listExpiredCb (now probe : ℕ)

/-- What a call returns: a new timer, whether it did something, or the callbacks. -/
inductive Answer
  | timer (p : TimerPtr)
  | bool (b : Bool)
  | cbs (l : List (TimerPtr × Option Callback))

/-- Make a call.  The answer comes first, the manager after. -/
def exec : Call → TimerManger → Answer × TimerManger
  | .addTimer addr now ms cb recurring, m =>
    (.timer m.allocs, (m.addTimer addr now ms (some cb) recurring).2)
  | .cancel p, m => (.bool (m.cancel p).1, (m.cancel p).2)
  | .refresh p now, m => (.bool (m.refresh p now).1, (m.refresh p now).2)
  | .reset p ms fromNow now, m =>
    (.bool (m.reset p ms fromNow now).1, (m.reset p ms fromNow now).2.2)
  | .listExpiredCb now probe, m =>
    (.cbs (m.listExpiredCb now probe).1, (m.listExpiredCb now probe).2)

/-- A call on a timer that was made before, at an address that is free, and with no expiration
that would wrap.  The bound on expirations is far away for a clock that counts milliseconds and
the periods that programs use; `OrderedSet` does without it. -/
def legal : Call → TimerManger → Bool
  | .addTimer addr now ms _ _, m =>
    (m.timers.all fun q => (m.heap q).addr != addr) && decide (now + ms < 2 ^ 64)
  | .cancel p, m => decide (p < m.allocs)
  | .refresh p now, m =>
    decide (p < m.allocs) && (!m.timers.contains p || decide (now + (m.heap p).ms < 2 ^ 64))
  | .reset p ms fromNow now, m =>
    decide (p < m.allocs) && (!m.timers.contains p ||
      decide ((if fromNow then now else (m.heap p).expiration - (m.heap p).ms) + ms < 2 ^ 64))
  | .listExpiredCb now _, m =>
    m.timers.all fun q => !((m.heap q).isRecurring && decide ((m.heap q).expiration ≤ now)) ||
      decide (now + (m.heap q).ms < 2 ^ 64)

/-- A call and what it answered. -/
abbrev Event := Call × Answer

/-- The timers whose callbacks an event returns.  Only `listExpiredCb` returns any. -/
def Event.fired : Event → List TimerPtr
  | (_, .cbs l) => l.map Prod.fst
  | _ => []

/-! ### What a timer is meant to do -/

/-- The last start of a timer, its period, whether it recurs, its callback.  The numbers are
those a user would write down, who knows the clock readings and the answers. -/
structure Life where
  start : ℕ
  ms : ℕ
  recurring : Bool
  cb : Callback

/-- What an event changes in the life of `p`.  A call that answered false, or one made on
another timer, changes nothing. -/
def Life.next (p : TimerPtr) : Life → Event → Life
  | l, (.addTimer _ now ms cb recurring, .timer q) => if q = p then ⟨now, ms, recurring, cb⟩ else l
  | l, (.refresh q now, .bool true) => if q = p then { l with start := now } else l
  | l, (.reset q ms fromNow now, .bool true) =>
    if q = p then { l with ms := ms, start := if fromNow then now else l.start } else l
  | l, (.listExpiredCb now _, .cbs cbs) =>
    if p ∈ cbs.map Prod.fst ∧ l.recurring = true then { l with start := now } else l
  | l, _ => l

/-- The life of `p` after a history.  The four values it starts with are never looked at, since
a history names `p` first when it is made. -/
def life (p : TimerPtr) (h : List Event) : Life := h.foldl (Life.next p) ⟨0, 0, false, 0⟩

/-- A history that is one event longer. -/
theorem life_snoc (p : TimerPtr) (h : List Event) (e : Event) :
    life p (h ++ [e]) = (life p h).next p e := by
  rw [life, List.foldl_append]
  rfl

/-- The fields of a running timer are those of its life.  `cb_eq` also says that a running timer
has a callback. -/
structure Timer.Lives (t : Timer) (l : Life) : Prop where
  cb_eq : t.cb = some l.cb
  ms_eq : t.ms = l.ms
  expiration_eq : t.expiration = l.start + l.ms
  expiration_lt : t.expiration < 2 ^ 64

/-- The manager agrees with the history.  Of a timer that is out of the set only its kind is
remembered, for nothing else of it is ever read. -/
structure Follows (h : List Event) (m : TimerManger) : Prop where
  wf : m.Wf ∅
  lives : ∀ p ∈ m.timers, Timer.Lives (m.heap p) (life p h)
  recurring_eq : ∀ p < m.allocs, (m.heap p).isRecurring = (life p h).recurring

/-- No timer has been made, and nothing has happened. -/
theorem init_follows (heap : TimerPtr → Timer) : Follows [] (init heap) where
  wf := init_wf heap
  lives := by
    intro p hp
    cases hp
  recurring_eq := by
    intro p hp
    cases hp

variable {h : List Event} {m : TimerManger} {p : TimerPtr}

/-- Between two calls no operation holds a timer, so any that was made may be called on. -/
theorem given_of_lt (hp : p < m.allocs) : m.Given ∅ p := ⟨hp, Set.notMem_empty p⟩

/-- An event that changes no life and no timer.  A `cancel`, `refresh` or `reset` that answers
false, and a `reset` that has nothing to change. -/
theorem Follows.idle (hf : Follows h m) {e : Event} (he : ∀ q l, Life.next q l e = l) :
    Follows (h ++ [e]) m where
  wf := hf.wf
  lives := by
    intro q hq
    rw [life_snoc, he]
    exact hf.lives q hq
  recurring_eq := by
    intro q hq
    rw [life_snoc, he]
    exact hf.recurring_eq q hq

/-- `addTimer` begins a life at the clock it read; the lives of others go on. -/
theorem addTimer_follows (hf : Follows h m) (addr now ms : ℕ) (cb : Callback) (r : Bool)
    (hlegal : legal (.addTimer addr now ms cb r) m = true) :
    Follows (h ++ [(.addTimer addr now ms cb r, .timer m.allocs)])
      (m.addTimer addr now ms (some cb) r).2 := by
  rw [legal, Bool.and_eq_true, List.all_eq_true, decide_eq_true_iff] at hlegal
  obtain ⟨hfresh, hwrap⟩ := hlegal
  obtain ⟨hwf, hmem, hself, hold⟩ := hf.wf.addTimer_spec now ms (some cb) r fun q hq =>
    bne_iff_ne.1 (hfresh q hq)
  have hlife : ∀ q, q ≠ m.allocs →
      life q (h ++ [(.addTimer addr now ms cb r, .timer m.allocs)]) = life q h := by
    intro q hq
    rw [life_snoc]
    exact if_neg hq.symm
  have hnew : life m.allocs (h ++ [(.addTimer addr now ms cb r, .timer m.allocs)]) =
      ⟨now, ms, r, cb⟩ := by
    rw [life_snoc]
    exact if_pos rfl
  refine ⟨hwf, ?_, ?_⟩
  · intro q hq
    rcases (hmem q).1 hq with rfl | hq
    · rw [hself, hnew]
      refine ⟨rfl, rfl, add64_of_lt hwrap, ?_⟩
      rw [Timer.new, add64_of_lt hwrap]
      exact hwrap
    · have hlt := hf.wf.lt_allocs q (Or.inl hq)
      rw [hold q hlt, hlife q hlt.ne]
      exact hf.lives q hq
  · intro q hq
    rcases Nat.lt_succ_iff_lt_or_eq.1 hq with hlt | rfl
    · rw [hold q hlt, hlife q hlt.ne]
      exact hf.recurring_eq q hlt
    · rw [hself, hnew, Timer.new]

/-- `cancel` ends nothing but the running of its timer, and no field that `Life` has is read
after that. -/
theorem cancel_follows (hf : Follows h m) (hp : p < m.allocs) :
    Follows (h ++ [(.cancel p, .bool (m.cancel p).1)]) (m.cancel p).2 := by
  rcases cancel_cases hf.wf (given_of_lt hp) with ⟨-, heq⟩ | ⟨hmem, heq⟩
  · rw [heq]
    exact hf.idle fun _ _ => rfl
  · rw [heq]
    refine Follows.idle ⟨hf.wf.cancelled_wf hmem, ?_, ?_⟩ fun _ _ => rfl
    · intro q hq
      obtain ⟨hq, hqp⟩ := (hf.wf.mem_cancelled hmem).1 hq
      rw [cancelled, erase_heap, modify_heap_of_ne _ hqp]
      exact hf.lives q hq
    · intro q hq
      have hrec := modify_heap_congr (m := m) (p := p) Timer.isRecurring
        (f := fun t => { t with cb := none }) rfl q
      rw [cancelled, erase_heap, hrec]
      exact hf.recurring_eq q hq

/-- An event in the life of one timer, whose fields `f` rewrites.  Both `refresh` and `reset`
are of this kind, and both are settled by what `f` does to one timer. -/
theorem Follows.rewritten (hf : Follows h m) {e : Event} (p : TimerPtr) (f : Timer → Timer)
    (hrec : (f (m.heap p)).isRecurring = (m.heap p).isRecurring)
    (hother : ∀ q, q ≠ p → ∀ l, Life.next q l e = l)
    (hself : p ∈ m.timers → Timer.Lives (f (m.heap p)) ((life p h).next p e))
    (hlife : ((life p h).next p e).recurring = (life p h).recurring) {m' : TimerManger}
    (hwf : m'.Wf ∅) (hmem : ∀ q, q ∈ m'.timers ↔ q ∈ m.timers)
    (hheap : m'.heap = (m.modify p f).heap) (hallocs : m'.allocs = m.allocs) :
    Follows (h ++ [e]) m' := by
  refine ⟨hwf, ?_, ?_⟩
  · intro q hq
    rw [hheap, life_snoc]
    by_cases hqp : q = p
    · rw [hqp, modify_heap_self]
      exact hself ((hmem p).1 (hqp ▸ hq))
    · rw [modify_heap_of_ne f hqp, hother q hqp]
      exact hf.lives q ((hmem q).1 hq)
  · intro q hq
    rw [hallocs] at hq
    rw [hheap, modify_heap_congr Timer.isRecurring hrec q, hf.recurring_eq q hq, life_snoc]
    by_cases hqp : q = p
    · rw [hqp, hlife]
    · rw [hother q hqp]

/-- `refresh` starts its timer at the clock it read, with the period it had. -/
theorem refresh_follows (hf : Follows h m) (now : ℕ)
    (hlegal : legal (.refresh p now) m = true) :
    Follows (h ++ [(.refresh p now, .bool (m.refresh p now).1)]) (m.refresh p now).2 := by
  simp only [legal, Bool.and_eq_true, Bool.or_eq_true, Bool.not_eq_true', decide_eq_true_iff]
    at hlegal
  obtain ⟨hp, hwrap⟩ := hlegal
  rcases refresh_cases hf.wf (given_of_lt hp) now with ⟨-, heq⟩ | ⟨hmem, heq⟩
  · rw [heq]
    exact hf.idle fun _ _ => rfl
  have hwrap := hwrap.resolve_left (by simp [hmem])
  have hlives := hf.lives p hmem
  have hnext (q : TimerPtr) (l : Life) : Life.next q l (.refresh p now, .bool true) =
      if p = q then { l with start := now } else l := rfl
  rw [heq]
  refine hf.rewritten p (fun t => { t with expiration := add64 now t.ms }) rfl
    (fun q hq l => ?_) (fun _ => ?_) ?_ (hf.wf.moved_wf hmem rfl rfl)
    (fun q => hf.wf.mem_moved hmem rfl rfl) rfl rfl
  · rw [hnext, if_neg (Ne.symm hq)]
  · rw [hnext, if_pos rfl, add64_of_lt hwrap]
    refine ⟨hlives.cb_eq, hlives.ms_eq, ?_, hwrap⟩
    dsimp only
    rw [hlives.ms_eq]
  · rw [hnext, if_pos rfl]

/-- `reset` gives the period, and the start is now or the one before; that `expiration_ - ms_`
is this start is `Timer.Lives`. -/
theorem reset_follows (hf : Follows h m) (ms : ℕ) (fromNow : Bool) (now : ℕ)
    (hlegal : legal (.reset p ms fromNow now) m = true) :
    Follows (h ++ [(.reset p ms fromNow now, .bool (m.reset p ms fromNow now).1)])
      (m.reset p ms fromNow now).2.2 := by
  simp only [legal, Bool.and_eq_true, Bool.or_eq_true, Bool.not_eq_true', decide_eq_true_iff]
    at hlegal
  obtain ⟨hp, hwrap⟩ := hlegal
  have hnext (q : TimerPtr) (l : Life) : Life.next q l (.reset p ms fromNow now, .bool true) =
      if p = q then { l with ms := ms, start := if fromNow then now else l.start } else l := rfl
  rcases reset_cases hf.wf (given_of_lt hp) ms fromNow now with
    ⟨heq, hms, hnow⟩ | ⟨-, heq⟩ | ⟨hmem, heq⟩
  · -- nothing is asked for: the answer is true, also for a timer that has ended
    rw [heq]
    refine hf.rewritten p id rfl (fun q hq l => ?_) (fun hmem => ?_) ?_ hf.wf (fun q => Iff.rfl)
      ?_ rfl
    · rw [hnext, if_neg (Ne.symm hq)]
    · have hlives := hf.lives p hmem
      rw [hnext, if_pos rfl, hms, hnow, hlives.ms_eq]
      exact hlives
    · rw [hnext, if_pos rfl]
    · exact (Function.update_eq_self p m.heap).symm
  · rw [heq]
    exact hf.idle fun _ _ => rfl
  have hwrap := hwrap.resolve_left (by simp [hmem])
  have hlives := hf.lives p hmem
  -- the start that `expiration_ - ms_` recovers is that of the life
  have hback : (m.heap p).expiration - (m.heap p).ms = (life p h).start := by
    rw [hlives.expiration_eq, hlives.ms_eq, Nat.add_sub_cancel]
  have hstart : resetStart (m.heap p) fromNow now =
      if fromNow then now else (life p h).start := by
    have hle : (m.heap p).ms ≤ (m.heap p).expiration := by
      rw [hlives.expiration_eq, hlives.ms_eq]
      exact Nat.le_add_left ..
    rw [resetStart, sub64_of_le hle hlives.expiration_lt, hback]
  rw [hback] at hwrap
  rw [heq]
  refine hf.rewritten p
    (fun t => { t with ms := ms, expiration := add64 (resetStart t fromNow now) ms }) rfl
    (fun q hq l => ?_) (fun _ => ?_) ?_ ((hf.wf.moved_wf hmem rfl rfl).tickled_wf _)
    (fun q => hf.wf.mem_moved hmem rfl rfl) rfl rfl
  · rw [hnext, if_neg (Ne.symm hq)]
  · rw [hnext, if_pos rfl, hstart, add64_of_lt hwrap]
    exact ⟨hlives.cb_eq, rfl, rfl, hwrap⟩
  · rw [hnext, if_pos rfl]

/-- A firing timer keeps its kind.  Firing writes only to the expiration or to the callback. -/
theorem fired_isRecurring (now : ℕ) (t : Timer) : (fired now t).isRecurring = t.isRecurring := by
  unfold fired
  split_ifs <;> rfl

/-- `listExpiredCb` starts each recurring timer that it lists again at `now`, and ends the rest
of those that it lists. -/
theorem listExpiredCb_follows (hf : Follows h m) (now probe : ℕ)
    (hlegal : legal (.listExpiredCb now probe) m = true) :
    Follows (h ++ [(.listExpiredCb now probe, .cbs (m.listExpiredCb now probe).1)])
      (m.listExpiredCb now probe).2 := by
  simp only [legal, List.all_eq_true, Bool.or_eq_true, Bool.not_eq_true', Bool.and_eq_false_iff,
    decide_eq_true_iff, decide_eq_false_iff_not] at hlegal
  obtain ⟨expired, -, hmem, hcbs, hwf, hheap, hallocs, -, htimers⟩ :=
    hf.wf.listExpiredCb_spec now probe
  have hnext (q : TimerPtr) (l : Life) :
      Life.next q l (.listExpiredCb now probe, .cbs (m.listExpiredCb now probe).1) =
        if q ∈ expired ∧ l.recurring = true then { l with start := now } else l := by
    rw [hcbs]
    change (if q ∈ List.map Prod.fst (expired.map fun q => (q, (m.heap q).cb)) ∧ _ then _ else _) = _
    rw [List.map_map, show Prod.fst ∘ (fun q => (q, (m.heap q).cb)) = id from rfl, List.map_id]
  refine ⟨hwf, ?_, ?_⟩
  · intro q hq
    obtain ⟨hq, hrec⟩ := (htimers q).1 hq
    have hlives := hf.lives q hq
    have hkind := hf.recurring_eq q (hf.wf.lt_allocs q (Or.inl hq))
    rw [hheap, life_snoc, hnext]
    by_cases hexp : q ∈ expired
    · have hwrap : now + (m.heap q).ms < 2 ^ 64 := by
        refine (hlegal q hq).resolve_left ?_
        rintro (hkind' | hlater)
        · exact absurd (hrec hexp) (by rw [hkind']; decide)
        · exact hlater ((hmem q).1 hexp).2
      dsimp only
      rw [if_pos hexp, fired, if_pos (hrec hexp), if_pos ⟨hexp, hkind ▸ hrec hexp⟩, add64_of_lt hwrap]
      refine ⟨hlives.cb_eq, hlives.ms_eq, ?_, hwrap⟩
      dsimp only
      rw [hlives.ms_eq]
    · dsimp only
      rw [if_neg hexp, if_neg fun hboth => hexp hboth.1]
      exact hlives
  · intro q hq
    rw [hallocs] at hq
    rw [hheap, life_snoc, hnext, apply_ite Life.recurring, ite_self, ← hf.recurring_eq q hq]
    dsimp only
    split_ifs
    · exact fired_isRecurring now _
    · rfl

/-- **Every call keeps the agreement.**  One case for each call; the run lemma is `follows_run`. -/
theorem exec_follows (hf : Follows h m) {c : Call} (hlegal : legal c m = true) :
    Follows (h ++ [(c, (exec c m).1)]) (exec c m).2 := by
  cases c with
  | addTimer addr now ms cb r => exact addTimer_follows hf addr now ms cb r hlegal
  | cancel p => exact cancel_follows hf (decide_eq_true_iff.1 hlegal)
  | refresh p now => exact refresh_follows hf now hlegal
  | reset p ms fromNow now => exact reset_follows hf ms fromNow now hlegal
  | listExpiredCb now probe => exact listExpiredCb_follows hf now probe hlegal

/-! ### Timers that have ended -/

/-- A timer that was made and is not in the set.  It was cancelled, or it fired and was not
recurring: there is no way back into the set. -/
def Ended (p : TimerPtr) (m : TimerManger) : Prop := p < m.allocs ∧ p ∉ m.timers

/-- What an ended timer does in an event: it does not fire, and `cancel` and `refresh` answer
false.  Only `reset` may answer true of it, by the early return of line 72, and even that does
not start it. -/
structure Silent (p : TimerPtr) (e : Event) : Prop where
  fired : p ∉ e.fired
  cancel : e.1 = .cancel p → e.2 = .bool false
  refresh : ∀ now, e.1 = .refresh p now → e.2 = .bool false

/-- The timers that an answer names are those that the loop went through. -/
theorem fired_listExpiredCb {expired : List TimerPtr} {now probe : ℕ}
    (hcbs : (m.listExpiredCb now probe).1 = expired.map fun q => (q, (m.heap q).cb)) :
    Event.fired (.listExpiredCb now probe, (exec (.listExpiredCb now probe) m).1) = expired := by
  change (m.listExpiredCb now probe).1.map Prod.fst = expired
  rw [hcbs, List.map_map]
  exact List.map_id _

/-- **An ended timer stays ended, and is silent.**  No call puts a timer into the set that was
out of it, apart from `addTimer`, whose timer is new. -/
theorem exec_ended (hf : Follows h m) {c : Call} (hlegal : legal c m = true) (hp : Ended p m) :
    Ended p (exec c m).2 ∧ Silent p (c, (exec c m).1) := by
  obtain ⟨hlt, hnot⟩ := hp
  cases c with
  | addTimer addr now ms cb r =>
      simp only [legal, Bool.and_eq_true, List.all_eq_true, bne_iff_ne] at hlegal
      obtain ⟨-, hmem', -⟩ := hf.wf.addTimer_spec now ms (some cb) r hlegal.1
      refine ⟨⟨Nat.lt_succ_of_lt hlt, fun hmem => ?_⟩, List.not_mem_nil, nofun, nofun⟩
      rcases (hmem' p).1 hmem with rfl | hmem
      · exact Nat.lt_irrefl _ hlt
      · exact hnot hmem
  | cancel q =>
      rcases cancel_cases hf.wf (given_of_lt (decide_eq_true_iff.1 hlegal)) with
        ⟨-, heq⟩ | ⟨hmem, heq⟩
      · simp only [exec, heq]
        exact ⟨⟨hlt, hnot⟩, List.not_mem_nil, fun _ => rfl, nofun⟩
      · have hqp : q ≠ p := fun h => hnot (h ▸ hmem)
        simp only [exec, heq]
        refine ⟨⟨hlt, fun h => hnot ((hf.wf.mem_cancelled hmem).1 h).1⟩, List.not_mem_nil, ?_, nofun⟩
        rintro ⟨⟩
        exact absurd rfl hqp
  | refresh q now =>
      have hq : q < m.allocs := by
        simp only [legal, Bool.and_eq_true, decide_eq_true_iff] at hlegal
        exact hlegal.1
      rcases refresh_cases hf.wf (given_of_lt hq) now with ⟨-, heq⟩ | ⟨hmem, heq⟩
      · simp only [exec, heq]
        exact ⟨⟨hlt, hnot⟩, List.not_mem_nil, nofun, fun _ _ => rfl⟩
      · have hqp : q ≠ p := fun h => hnot (h ▸ hmem)
        simp only [exec, heq]
        refine ⟨⟨hlt, fun h => hnot ((hf.wf.mem_moved hmem rfl rfl).1 h)⟩, List.not_mem_nil, nofun, ?_⟩
        rintro now' ⟨⟩
        exact absurd rfl hqp
  | reset q ms fromNow now =>
      have hq : q < m.allocs := by
        simp only [legal, Bool.and_eq_true, decide_eq_true_iff] at hlegal
        exact hlegal.1
      rcases reset_cases hf.wf (given_of_lt hq) ms fromNow now with
        ⟨heq, -⟩ | ⟨-, heq⟩ | ⟨hmem, heq⟩
      · simp only [exec, heq]
        exact ⟨⟨hlt, hnot⟩, List.not_mem_nil, nofun, nofun⟩
      · simp only [exec, heq]
        exact ⟨⟨hlt, hnot⟩, List.not_mem_nil, nofun, nofun⟩
      · simp only [exec, heq]
        exact ⟨⟨hlt, fun h => hnot ((hf.wf.mem_moved hmem rfl rfl).1 h)⟩, List.not_mem_nil, nofun,
          nofun⟩
  | listExpiredCb now probe =>
      obtain ⟨expired, -, hmem, hcbs, -, -, hallocs, -, htimers⟩ :=
        hf.wf.listExpiredCb_spec now probe
      refine ⟨⟨hallocs ▸ hlt, fun h => hnot ((htimers p).1 h).1⟩, ?_, nofun, nofun⟩
      rw [fired_listExpiredCb hcbs]
      exact fun h => hnot ((hmem p).1 h).1

/-- A one-shot timer ends when it fires; `cancel` ends any timer. -/
theorem ended_of_fired (hf : Follows h m) {c : Call} (hlegal : legal c m = true)
    (hrec : (life p h).recurring = false) (hfired : p ∈ Event.fired (c, (exec c m).1)) :
    Ended p (exec c m).2 := by
  cases c with
  | listExpiredCb now probe =>
      obtain ⟨expired, -, hmem, hcbs, -, -, hallocs, -, htimers⟩ :=
        hf.wf.listExpiredCb_spec now probe
      rw [fired_listExpiredCb hcbs] at hfired
      have hlt := hf.wf.lt_allocs p (Or.inl ((hmem p).1 hfired).1)
      refine ⟨hallocs ▸ hlt, fun h => ?_⟩
      have hrec' := ((htimers p).1 h).2 hfired
      rw [hf.recurring_eq p hlt, hrec] at hrec'
      cases hrec'
  | _ => cases hfired

/-- After `cancel`, whatever it answered, the timer is out of the set. -/
theorem ended_of_cancel (hf : Follows h m) (hp : p < m.allocs) :
    Ended p (exec (.cancel p) m).2 := by
  rcases cancel_cases hf.wf (given_of_lt hp) with ⟨hcb, heq⟩ | ⟨hmem, heq⟩
  · simp only [exec, heq]
    refine ⟨hp, fun hmem => ?_⟩
    rw [(hf.lives p hmem).cb_eq] at hcb
    cases hcb
  · simp only [exec, heq]
    exact ⟨hp, fun h => ((hf.wf.mem_cancelled hmem).1 h).2 rfl⟩

/-- After its end a timer is silent.  By induction on the calls, with `exec_ended` as the step. -/
theorem silent_of_ended (hf : Follows h m) (hp : Ended p m) {cs : List Call}
    (hlegal : legalRun exec legal cs m = true) : ∀ e ∈ trace exec cs m, Silent p e := by
  refine trace_forall (I := fun m => ∃ h, Follows h m ∧ Ended p m) ?_ ⟨h, hf, hp⟩ hlegal
  rintro m c ⟨h, hf, hp⟩ hc
  obtain ⟨hp', hsilent⟩ := exec_ended hf hc hp
  exact ⟨⟨_, exec_follows hf hc, hp'⟩, hsilent⟩

/-! ### Histories -/

/-- `p` was not made recurring by this event.  Only the event that makes a timer says of which
kind it is. -/
def OneShot (p : TimerPtr) (e : Event) : Prop :=
  ∀ addr now ms cb r, e = (.addTimer addr now ms cb r, .timer p) → r = false

/-- The kind of a timer does not change but by being made. -/
theorem next_recurring {l : Life} {e : Event} (he : OneShot p e) (hl : l.recurring = false) :
    (l.next p e).recurring = false := by
  unfold Life.next
  split
  · split_ifs with hq
    · subst hq
      exact he _ _ _ _ _ rfl
    · exact hl
  all_goals first | exact hl | (split_ifs <;> exact hl)

/-- The answer of `listExpiredCb` names each timer once.  A callback list has no timer twice,
since the set has none. -/
theorem count_fired_le_one (hf : Follows h m) (c : Call) (p : TimerPtr) :
    (Event.fired (c, (exec c m).1)).count p ≤ 1 := by
  cases c with
  | listExpiredCb now probe =>
      obtain ⟨expired, hnodup, -, hcbs, -⟩ := hf.wf.listExpiredCb_spec now probe
      rw [fired_listExpiredCb hcbs]
      exact List.nodup_iff_count_le_one.1 hnodup p
  | _ => exact Nat.zero_le _

/-- A one-shot timer fires at most once in a run.  Once it has fired it is ended, and an ended
timer is silent. -/
theorem count_trace_fired_le_one (hf : Follows h m) {cs : List Call}
    (hlegal : legalRun exec legal cs m = true) (hrec : (life p h).recurring = false)
    (hone : ∀ e ∈ trace exec cs m, OneShot p e) :
    ((trace exec cs m).flatMap Event.fired).count p ≤ 1 := by
  induction cs generalizing h m with
  | nil => exact Nat.zero_le _
  | cons c cs ih =>
      obtain ⟨hc, hcs⟩ := legalRun_cons.1 hlegal
      have hf' := exec_follows hf hc
      rw [trace, List.flatMap_cons, List.count_append]
      by_cases hfired : p ∈ Event.fired (c, (exec c m).1)
      · have hsilent := silent_of_ended hf' (ended_of_fired hf hc hrec hfired) hcs
        have hzero : ((trace exec cs (exec c m).2).flatMap Event.fired).count p = 0 := by
          rw [List.count_eq_zero, List.mem_flatMap]
          rintro ⟨e, he, hmem⟩
          exact (hsilent e he).fired hmem
        rw [hzero]
        exact count_fired_le_one hf c p
      · rw [List.count_eq_zero.2 hfired, Nat.zero_add]
        refine ih hf' hcs ?_ fun e he => hone e (List.mem_cons_of_mem _ he)
        rw [life_snoc]
        exact next_recurring (hone _ (List.mem_cons_self ..)) hrec

/-- A timer that was not made recurring has a life that is not. -/
theorem life_recurring {pre : List Event} (hone : ∀ e ∈ pre, OneShot p e) :
    (life p pre).recurring = false := by
  induction pre using List.reverseRecOn with
  | nil => rfl
  | append_singleton pre e ih =>
      rw [life_snoc]
      exact next_recurring (hone e (by simp)) (ih fun e' he' => hone e' (by simp [he']))

/-- The manager after a legal run agrees with its history.  The invariant of every run, from
`init_follows` and `exec_follows`. -/
theorem follows_run (heap : TimerPtr → Timer) {cs : List Call}
    (hlegal : legalRun exec legal cs (init heap) = true) :
    Follows (trace exec cs (init heap)) (final exec cs (init heap)) := by
  have hrun := trace_invariant (I := Follows) (fun _ _ _ hf hc => exec_follows hf hc)
    (init_follows heap) hlegal
  rwa [List.nil_append] at hrun

/-- **The life cycle of a timer.**  In every run whose calls are legal where they are made: (a)
`listExpiredCb` at `now` returns a timer's callback only when `now` is at or after its last
start plus its period; (b) a one-shot timer's callback is returned at most once, and `cancel`
and `refresh` then answer false; (c) after `cancel` no later `listExpiredCb` returns the timer's
callback.  The functions are `src/hiper/base/timer.cc:25-129` and `:187`.  The start and the
period are read off the calls and their answers by `life`, never off the fields of the timer. -/
theorem timer_life_cycle (heap : TimerPtr → Timer) (cs : List Call)
    (hlegal : legalRun exec legal cs (init heap) = true) :
    (∀ pre now probe cbs post,
      trace exec cs (init heap) = pre ++ (.listExpiredCb now probe, .cbs cbs) :: post →
        ∀ p cb, (p, cb) ∈ cbs →
          (life p pre).start + (life p pre).ms ≤ now ∧ cb = some (life p pre).cb) ∧
    (∀ p, (∀ e ∈ trace exec cs (init heap), OneShot p e) →
      ((trace exec cs (init heap)).flatMap Event.fired).count p ≤ 1 ∧
        ∀ pre e post, trace exec cs (init heap) = pre ++ e :: post → p ∈ Event.fired e →
          ∀ e' ∈ post, (e'.1 = .cancel p → e'.2 = .bool false) ∧
            ∀ now, e'.1 = .refresh p now → e'.2 = .bool false) ∧
    ∀ pre p answer post, trace exec cs (init heap) = pre ++ (.cancel p, answer) :: post →
      ∀ e ∈ post, p ∉ Event.fired e := by
  refine ⟨?_, ?_, ?_⟩
  · intro pre now probe cbs post hsplit p cb hmem
    obtain ⟨cs₁, c, cs₂, rfl, rfl, he, -⟩ := trace_split hsplit
    obtain ⟨hc, hanswer⟩ := Prod.mk.inj he
    subst hc
    have hf := follows_run heap (legalRun_append.1 hlegal).1
    obtain ⟨expired, -, hexpired, hcbs, -⟩ := hf.wf.listExpiredCb_spec now probe
    have hcbs' : cbs = expired.map fun q => ((q, ((final exec cs₁ (init heap)).heap q).cb) : _ × _) :=
      (Answer.cbs.inj hanswer).trans hcbs
    rw [hcbs', List.mem_map] at hmem
    obtain ⟨q, hq, hpair⟩ := hmem
    obtain ⟨rfl, rfl⟩ := Prod.mk.inj hpair
    obtain ⟨hrunning, hdue⟩ := (hexpired q).1 hq
    have hlives := hf.lives q hrunning
    exact ⟨hlives.expiration_eq ▸ hdue, hlives.cb_eq⟩
  · intro p hone
    refine ⟨count_trace_fired_le_one (init_follows heap) hlegal rfl hone, ?_⟩
    intro pre e post hsplit hfired e' he'
    have hone' : ∀ e ∈ pre, OneShot p e := fun e he => hone e (by simp [hsplit, he])
    obtain ⟨cs₁, c, cs₂, rfl, rfl, rfl, rfl⟩ := trace_split hsplit
    obtain ⟨hlegal₁, hlegal₂⟩ := legalRun_append.1 hlegal
    obtain ⟨hc, hlegal₂⟩ := legalRun_cons.1 hlegal₂
    have hf := follows_run heap hlegal₁
    have hended := ended_of_fired hf hc (life_recurring hone') hfired
    have hsilent := silent_of_ended (exec_follows hf hc) hended hlegal₂ e' he'
    exact ⟨hsilent.cancel, hsilent.refresh⟩
  · intro pre p answer post hsplit e he
    obtain ⟨cs₁, c, cs₂, rfl, rfl, hcall, rfl⟩ := trace_split hsplit
    obtain ⟨hlegal₁, hlegal₂⟩ := legalRun_append.1 hlegal
    obtain ⟨hc, hlegal₂⟩ := legalRun_cons.1 hlegal₂
    have hf := follows_run heap hlegal₁
    obtain ⟨hcancel, -⟩ := Prod.mk.inj hcall
    subst hcancel
    have hended := ended_of_cancel hf (decide_eq_true_iff.1 hc)
    exact (silent_of_ended (exec_follows hf hc) hended hlegal₂ e he).fired

/-- A recurring timer, reset, and a one-shot one fire together. -/
theorem timer_life_cycle_run :
    let m := init fun _ => Timer.new 0 0 0 none false
    let pre := trace exec
      [.addTimer 1 0 10 100 true, .addTimer 2 3 10 200 false, .reset 0 12 false 5] m
    (life 1 pre).start + (life 1 pre).ms ≤ 13 ∧ some 200 = some (life 1 pre).cb :=
  (timer_life_cycle (fun _ => Timer.new 0 0 0 none false)
    [.addTimer 1 0 10 100 true, .addTimer 2 3 10 200 false, .reset 0 12 false 5,
      .listExpiredCb 13 9, .cancel 0, .listExpiredCb 50 7] (by decide)).1 _ 13 9
    [(0, some 100), (1, some 200)] _ rfl 1 (some 200) (by decide)

end Hiper.TimerManger

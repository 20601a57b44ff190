import Hiper.Timer.LifeCycle

/-!
# The timer set stays an ordered set

The key of `timers_` is `expiration_`, a field that the operations write.  `accesses` lists
what an operation does to the set and the fields, in the order of `timer.cc`, and is the
operation up to `tickled_` (`applyAll_accesses`).  After every run of calls, the set is in
strict order, and every access of the next call is sound (`set_stays_ordered`): no
`expiration_` is written while its timer is stored, and a `find` finds what is stored.

What `cancel`, `refresh` and `reset` answer is whether the timer was pending, but for one
way out of `reset` that looks at nothing else (`answer_true_iff`).

Since `std::set` does not know that `expiration_` is part of its order, a write to it while
the timer is stored is undefined behaviour of the container, and the code has to avoid it by
hand: `src/hiper/base/timer.cc` erases in lines 55, 83 and 219 and writes after that.  An
expiration that wraps does no harm here; it puts a timer at the wrong place but the set
stays in order.
-/

namespace Hiper.TimerManger

open Lib

/-- What an operation does to the set and to the fields of timers.  The grain is that of single
statements of `timer.cc`, so that a write and the erasing before it are two accesses. -/
inductive Access
  /-- `new Timer(ms, cb, recurring, this)`. -/
  | construct (addr now ms : ℕ) (cb : Callback) (recurring : Bool)
  /-- `timers_.find(p)`, and whether it found something. -/
  | find (p : TimerPtr) (found : Bool)
  /-- `timers_.erase` of what was found. -/
  | erase (p : TimerPtr)
  /-- `timers_.erase(timers_.begin(), it)`. -/
  | eraseBefore (it : List TimerPtr)
  | insert (p : TimerPtr)
  /-- `cb_ = nullptr`. -/
  | clearCb (p : TimerPtr)
  | setMs (p : TimerPtr) (ms : ℕ)
  | setExpiration (p : TimerPtr) (expiration : ℕ)

/-- What an access does to the manager. -/
def Access.apply : Access → TimerManger → TimerManger
  | construct addr now ms cb recurring, m => m.newTimer addr now ms (some cb) recurring
  | find _ _, m => m
  | erase p, m => m.erase p
  | eraseBefore it, m => { m with timers := it }
  | insert p, m => m.insert p
  | clearCb p, m => m.modify p fun t => { t with cb := none }
  | setMs p ms, m => m.modify p fun t => { t with ms := ms }
  | setExpiration p expiration, m => m.modify p fun t => { t with expiration := expiration }

/-- One access after another. -/
def applyAll : List Access → TimerManger → TimerManger
  | [], m => m
  | a :: as, m => applyAll as (a.apply m)

/-- The accesses of the loop of `listExpiredCb` to one timer.  Lines 221 to 230. -/
def expireAccesses (now : ℕ) (p : TimerPtr) (m : TimerManger) : List Access :=
  if (m.heap p).isRecurring then [.setExpiration p (add64 now (m.heap p).ms), .insert p]
  else [.clearCb p]

/-- The accesses of a call, one after another.  What is read is in the arguments: `find` notes
its answer, and a write the value. -/
def accesses : Call → TimerManger → List Access
  | .addTimer addr now ms cb recurring, m =>
    [.construct addr now ms cb recurring, .insert m.allocs]
  | .cancel p, m =>
    if (m.heap p).cb.isSome then
      let found := (m.modify p fun t => { t with cb := none }).find p
      .clearCb p :: .find p found :: if found then [.erase p] else []
    else []
  | .refresh p now, m =>
    if (m.heap p).cb.isNone then []
    else .find p (m.find p) ::
      if m.find p then [.erase p, .setExpiration p (add64 now (m.heap p).ms), .insert p] else []
  | .reset p ms fromNow now, m =>
    if ms = (m.heap p).ms ∧ fromNow = false then []
    else if (m.heap p).cb.isNone then []
    else .find p (m.find p) ::
      if m.find p then
        [.erase p, .setMs p ms, .setExpiration p (add64 (resetStart (m.heap p) fromNow now) ms),
          .insert p]
      else []
  | .listExpiredCb now probe, m =>
    if m.timers.isEmpty then []
    else
      let it := m.firstUnexpired now probe
      .eraseBefore it :: (m.timers.take (m.timers.length - it.length)).flatMap fun p =>
        m.expireAccesses now p

/-- A call on a timer that was made before, or a new timer at an address that is free.  Nothing
is asked of the clock or the period, so expirations may wrap. -/
def callable : Call → TimerManger → Bool
  | .addTimer addr _ _ _ _, m => m.timers.all fun q => (m.heap q).addr != addr
  | .cancel p, m => p < m.allocs
  | .refresh p _, m => p < m.allocs
  | .reset p _ _ _, m => p < m.allocs
  | .listExpiredCb _ _, _ => true

/-- The set is in strict order.  It is said of the comparator itself and not of keys, as the
documentation of `std::set` does. -/
def Increasing (m : TimerManger) : Prop := m.timers.Pairwise fun p q => m.less p q = true

/-- What an access must find: no key is written in the set, and the set is found in.  The other
accesses ask for nothing: `insert` takes any element, and a callback or a period is no part of
the order. -/
def Access.Sound : Access → TimerManger → Prop
  | setExpiration p _, m => p ∉ m.timers
  | find p found, m => found = true ↔ p ∈ m.timers
  | _, _ => True

/-- Every access is made to a set in strict order and is sound.  The order is asked for before
every access and after the last. -/
def AllSound : List Access → TimerManger → Prop
  | [], m => m.Increasing
  | a :: as, m => m.Increasing ∧ a.Sound m ∧ AllSound as (a.apply m)

/-! ### The accesses are the operation -/

variable {m m' : TimerManger} {held : Set TimerPtr} {p : TimerPtr}

/-- Accesses in two parts. -/
theorem applyAll_append (as bs : List Access) (m : TimerManger) :
    applyAll (as ++ bs) m = applyAll bs (applyAll as m) := by
  induction as generalizing m with
  | nil => rfl
  | cons a as ih => exact ih (a.apply m)

/-- One round of the loop, as accesses, is `expire`. -/
theorem applyAll_expireAccesses (now : ℕ) (p : TimerPtr) (m : TimerManger) :
    applyAll (m.expireAccesses now p) m = m.expire now p := by
  unfold expireAccesses expire
  split_ifs <;> rfl

/-- What the accesses of the loop look at, firing leaves as it is.  So the accesses of a later
round can be listed before the first. -/
theorem expireAccesses_expire (now : ℕ) (p q : TimerPtr) (m : TimerManger) :
    (m.expire now p).expireAccesses now q = m.expireAccesses now q := by
  have hfields : ((m.expire now p).heap q).isRecurring = (m.heap q).isRecurring ∧
      ((m.expire now p).heap q).ms = (m.heap q).ms := by
    unfold expire
    split_ifs
    · rw [insert_heap]
      exact ⟨modify_heap_congr Timer.isRecurring (by rfl) q, modify_heap_congr Timer.ms (by rfl) q⟩
    · exact ⟨modify_heap_congr Timer.isRecurring (by rfl) q, modify_heap_congr Timer.ms (by rfl) q⟩
  rw [expireAccesses, expireAccesses, hfields.1, hfields.2]

/-- The accesses of all rounds, listed by looking at the manager before the loop, are the loop. -/
theorem applyAll_expireLoop (now : ℕ) (expired : List TimerPtr) (m : TimerManger) :
    applyAll (expired.flatMap fun p => m.expireAccesses now p) m = (expireLoop now expired m).2 := by
  induction expired generalizing m with
  | nil => rfl
  | cons p expired ih =>
      rw [List.flatMap_cons, applyAll_append, applyAll_expireAccesses, expireLoop]
      simp only [← ih, expireAccesses_expire]

/-- Two writes to a timer are one. -/
theorem modify_modify (f g : Timer → Timer) :
    (m.modify p f).modify p g = m.modify p fun t => g (f t) := by
  simp only [modify, Function.update_self, Function.update_idem]

/-- Up to `tickled_`, the accesses of a call are the call.  `tickled_` is written by `addTimer`
beside the set; with that put aside the two agree on every call. -/
theorem applyAll_accesses (c : Call) (m : TimerManger) :
    { applyAll (accesses c m) m with tickled := (exec c m).2.tickled } = (exec c m).2 := by
  cases c with
  | addTimer addr now ms cb r => rfl
  | cancel p =>
      simp only [accesses, exec, cancel]
      split_ifs <;> rfl
  | refresh p now =>
      simp only [accesses, exec, refresh]
      by_cases hcb : (m.heap p).cb.isNone = true
      · simp only [if_pos hcb]
        rfl
      · cases hfind : m.find p <;> simp only [if_neg hcb, Bool.not_true, Bool.not_false, if_true,
          Bool.false_eq_true, if_false] <;> rfl
  | reset p ms fromNow now =>
      simp only [accesses, exec, reset]
      by_cases hsame : ms = (m.heap p).ms ∧ fromNow = false
      · simp only [if_pos hsame]
        rfl
      by_cases hcb : (m.heap p).cb.isNone = true
      · simp only [if_neg hsame, if_pos hcb]
        rfl
      cases hfind : m.find p
      · simp only [if_neg hsame, if_neg hcb, Bool.not_false, if_true, Bool.false_eq_true, if_false]
        rfl
      · simp only [if_neg hsame, if_neg hcb, Bool.not_true, if_true, Bool.false_eq_true, if_false,
          applyAll, Access.apply, modify_modify]
        rfl
  | listExpiredCb now probe =>
      simp only [accesses, exec, listExpiredCb]
      split_ifs
      · rfl
      · rw [← applyAll_expireLoop]
        rfl

/-! ### The accesses are sound -/

/-- The law of `Invariant` contains the strict order. -/
theorem Wf.increasing (h : m.Wf held) : m.Increasing :=
  h.sorted.imp fun hlt => (Timer.comparator_iff _ _).2 hlt

/-- The accesses of two parts are sound if the second is sound where the first ends. -/
theorem allSound_append {as bs : List Access} (has : AllSound as m)
    (hbs : AllSound bs (applyAll as m)) : AllSound (as ++ bs) m := by
  induction as generalizing m with
  | nil => exact hbs
  | cons a as ih => exact ⟨has.1, has.2.1, ih has.2.2 hbs⟩

/-- The loop of `listExpiredCb` holds the timer it goes through.  It is out of the set, so its
expiration may be written. -/
theorem Wf.expireAccesses_sound (h : m.Wf (Insert.insert p held)) (hp : p ∉ held) (now : ℕ) :
    AllSound (m.expireAccesses now p) m := by
  have hheld : p ∈ Insert.insert p held := Set.mem_insert ..
  have hafter := (h.expire_wf hp now).1.increasing
  rw [← applyAll_expireAccesses] at hafter
  unfold expireAccesses at hafter ⊢
  split_ifs at hafter ⊢
  · have hwf : (m.modify p fun t => { t with expiration := add64 now (m.heap p).ms }).Wf
        (Insert.insert p held) := h.modify_wf rfl id (Or.inl hheld)
    exact ⟨h.increasing, h.not_mem p hheld, hwf.increasing, trivial, hafter⟩
  · exact ⟨h.increasing, trivial, hafter⟩

/-- All rounds of the loop are sound, by induction on the expired timers; each round has one
timer less in its hands. -/
theorem Wf.expireLoop_sound (now : ℕ) {expired : List TimerPtr} (hnodup : expired.Nodup)
    (hheld : ∀ p ∈ expired, p ∉ held) (h : m.Wf ({p | p ∈ expired} ∪ held)) :
    AllSound (expired.flatMap fun p => m.expireAccesses now p) m := by
  induction expired generalizing m with
  | nil => exact h.increasing
  | cons p expired ih =>
      obtain ⟨hp, hnodup⟩ := List.nodup_cons.1 hnodup
      have hpheld := notMem_held hp (hheld p (List.mem_cons_self ..))
      rw [held_cons] at h
      rw [List.flatMap_cons]
      refine allSound_append (h.expireAccesses_sound hpheld now) ?_
      rw [applyAll_expireAccesses]
      have hrest := ih hnodup (fun q hq => hheld q (List.mem_cons_of_mem _ hq))
        (h.expire_wf hpheld now).1
      simpa only [expireAccesses_expire] using hrest

/-- A timer that is out of the set gets a key, and is put back.  The end of `refresh`, and of
`reset` after the period is written. -/
theorem Wf.putBack_sound (h : m.Wf (Insert.insert p ∅)) (expiration : ℕ) :
    AllSound [.setExpiration p expiration, .insert p] m := by
  have hheld : p ∈ Insert.insert p (∅ : Set TimerPtr) := Set.mem_insert ..
  have hwf : (m.modify p fun t => { t with expiration := expiration }).Wf (Insert.insert p ∅) :=
    h.modify_wf rfl id (Or.inl hheld)
  exact ⟨h.increasing, h.not_mem p hheld, hwf.increasing, trivial, (hwf.insert_wf hheld).increasing⟩

/-- A timer with a callback is stored, in the form that the test `!cb_` gives. -/
theorem Wf.mem_of_not_isNone (h : m.Wf ∅) (hp : p < m.allocs) (hcb : ¬(m.heap p).cb.isNone = true) :
    p ∈ m.timers := by
  refine h.mem_of_isSome (given_of_lt hp) ?_
  rwa [Option.isNone_iff_eq_none, ← ne_eq, ← Option.isSome_iff_ne_none] at hcb

/-- **The accesses of a call are sound.**  One case for each call, and in it one for each way
through the function. -/
theorem Wf.accesses_sound (h : m.Wf ∅) {c : Call} (hc : callable c m = true) :
    AllSound (accesses c m) m := by
  cases c with
  | addTimer addr now ms cb r =>
      have hwf := h.newTimer_wf now ms (some cb) r fun q hq =>
        bne_iff_ne.1 (List.all_eq_true.1 hc q (hq.resolve_right (Set.notMem_empty q)))
      exact ⟨h.increasing, trivial, hwf.increasing, trivial,
        (hwf.insert_wf (Set.mem_insert ..)).increasing⟩
  | cancel p =>
      simp only [accesses]
      split_ifs with hcb hfind
      · have hmem := h.mem_of_isSome (given_of_lt (of_decide_eq_true hc)) hcb
        have hwf := h.clearCb_wf p
        exact ⟨h.increasing, trivial, hwf.increasing, iff_of_true hfind hmem, hwf.increasing, trivial,
          (hwf.erase_wf hmem).increasing⟩
      · have hmem := h.mem_of_isSome (given_of_lt (of_decide_eq_true hc)) hcb
        have hwf := h.clearCb_wf p
        exact absurd (hwf.find_of_mem hmem) hfind
      · exact h.increasing
  | refresh p now =>
      simp only [accesses]
      split_ifs with hcb hfind
      · exact h.increasing
      · have hmem := h.mem_of_not_isNone (of_decide_eq_true hc) hcb
        exact ⟨h.increasing, iff_of_true hfind hmem, h.increasing, trivial,
          (h.erase_wf hmem).putBack_sound _⟩
      · have hmem := h.mem_of_not_isNone (of_decide_eq_true hc) hcb
        exact absurd (h.find_of_mem hmem) hfind
  | reset p ms fromNow now =>
      simp only [accesses]
      split_ifs with hsame hcb hfind
      · exact h.increasing
      · exact h.increasing
      · have hmem := h.mem_of_not_isNone (of_decide_eq_true hc) hcb
        have hwf := h.erase_wf hmem
        have hms : ((m.erase p).modify p fun t => { t with ms := ms }).Wf (Insert.insert p ∅) :=
          hwf.modify_wf rfl id (Or.inl (Set.mem_insert ..))
        exact ⟨h.increasing, iff_of_true hfind hmem, h.increasing, trivial, hwf.increasing, trivial,
          hms.putBack_sound _⟩
      · have hmem := h.mem_of_not_isNone (of_decide_eq_true hc) hcb
        exact absurd (h.find_of_mem hmem) hfind
  | listExpiredCb now probe =>
      have hheld : ∀ q ∈ m.expired now, q ∉ (∅ : Set TimerPtr) := fun q _ => Set.notMem_empty q
      have hloop := (h.hold_expired now probe).expireLoop_sound now (h.nodup_expired now) hheld
      simp only [accesses]
      split_ifs
      · exact h.increasing
      · rw [h.take_eq_expired now probe]
        exact ⟨h.increasing, trivial, hloop⟩

/-! ### Every run -/

/-- What every call keeps.  Beside the law, that no stored timer is without a callback: `cb_` is
dropped only on the way out of the set. -/
structure Kept (m : TimerManger) : Prop where
  wf : m.Wf ∅
  armed : ∀ p ∈ m.timers, (m.heap p).cb.isSome = true

/-- An empty set keeps it. -/
theorem init_kept (heap : TimerPtr → Timer) : (init heap).Kept := ⟨init_wf heap, nofun⟩

/-- The flag is no part of it. -/
theorem Kept.tickled (h : m.Kept) (b : Bool) : ({ m with tickled := b } : TimerManger).Kept :=
  ⟨h.wf.tickled_wf b, h.armed⟩

/-- `refresh` and `reset` write neither to the address nor to the callback. -/
theorem Kept.moved (h : m.Kept) (hp : p ∈ m.timers) {f : Timer → Timer}
    (haddr : (f (m.heap p)).addr = (m.heap p).addr) (hcb : (f (m.heap p)).cb = (m.heap p).cb) :
    (m.moved p f).Kept := by
  refine ⟨h.wf.moved_wf hp haddr hcb, fun q hq => ?_⟩
  have hcb' := modify_heap_congr (m := m) (p := p) Timer.cb (f := f) hcb q
  change ((m.modify p f).heap q).cb.isSome = true
  rw [hcb']
  exact h.armed q ((h.wf.mem_moved hp haddr hcb).1 hq)

/-- `cancel` drops the callback of the timer it takes out. -/
theorem Kept.cancelled (h : m.Kept) (hp : p ∈ m.timers) : (m.cancelled p).Kept := by
  refine ⟨h.wf.cancelled_wf hp, fun q hq => ?_⟩
  obtain ⟨hq, hqp⟩ := (h.wf.mem_cancelled hp).1 hq
  change ((m.modify p fun t => { t with cb := none }).heap q).cb.isSome = true
  rw [modify_heap_of_ne _ hqp]
  exact h.armed q hq

/-- **Every call keeps it.**  With no bound on the expirations, unlike in `LifeCycle`. -/
theorem Kept.exec (h : m.Kept) {c : Call} (hc : callable c m = true) : (exec c m).2.Kept := by
  cases c with
  | addTimer addr now ms cb r =>
      obtain ⟨hwf, hmem, hself, hold⟩ := h.wf.addTimer_spec now ms (some cb) r fun q hq =>
        bne_iff_ne.1 (List.all_eq_true.1 hc q hq)
      refine ⟨hwf, fun q hq => ?_⟩
      change ((m.addTimer addr now ms (some cb) r).2.heap q).cb.isSome = true
      rcases (hmem q).1 hq with rfl | hq
      · rw [hself]
        rfl
      · rw [hold q (h.wf.lt_allocs q (Or.inl hq))]
        exact h.armed q hq
  | cancel p =>
      rcases cancel_cases h.wf (given_of_lt (of_decide_eq_true hc)) with ⟨-, heq⟩ | ⟨hmem, heq⟩
      · simp only [TimerManger.exec, heq]
        exact h
      · simp only [TimerManger.exec, heq]
        exact h.cancelled hmem
  | refresh p now =>
      rcases refresh_cases h.wf (given_of_lt (of_decide_eq_true hc)) now with ⟨-, heq⟩ | ⟨hmem, heq⟩
      · simp only [TimerManger.exec, heq]
        exact h
      · simp only [TimerManger.exec, heq]
        exact h.moved hmem rfl rfl
  | reset p ms fromNow now =>
      rcases reset_cases h.wf (given_of_lt (of_decide_eq_true hc)) ms fromNow now with
        ⟨heq, -⟩ | ⟨-, heq⟩ | ⟨hmem, heq⟩
      · simp only [TimerManger.exec, heq]
        exact h
      · simp only [TimerManger.exec, heq]
        exact h
      · simp only [TimerManger.exec, heq]
        exact (h.moved hmem rfl rfl).tickled _
  | listExpiredCb now probe =>
      obtain ⟨expired, -, -, -, hwf, hheap, -, -, htimers⟩ := h.wf.listExpiredCb_spec now probe
      refine ⟨hwf, fun q hq => ?_⟩
      obtain ⟨hq, hrec⟩ := (htimers q).1 hq
      change ((m.listExpiredCb now probe).2.heap q).cb.isSome = true
      rw [hheap]
      by_cases hexp : q ∈ expired
      · simp only [if_pos hexp, fired, hrec hexp, if_true]
        exact h.armed q hq
      · simp only [if_neg hexp]
        exact h.armed q hq

/-- The invariant of every run of calls, by induction with `Kept.exec` as the step. -/
theorem final_kept (heap : TimerPtr → Timer) {calls : List Call}
    (hrun : legalRun TimerManger.exec callable calls (init heap) = true) :
    (final TimerManger.exec calls (init heap)).Kept :=
  trace_invariant (h := []) (I := fun _ m => m.Kept) (fun _ _ _ h hc => h.exec hc) (init_kept heap)
    hrun

/-- `Timer::Comparator` orders timers strictly, up to equal keys.  This is what `std::set` asks
of its comparator. -/
theorem comparator_strictWeakOrder :
    IsStrictWeakOrder Timer fun s t => s.comparator t = true where
  irrefl s h := lt_irrefl _ ((Timer.comparator_iff s s).1 h)
  trans s t u hst htu := (Timer.comparator_iff s u).2
    (((Timer.comparator_iff s t).1 hst).trans ((Timer.comparator_iff t u).1 htu))
  incomp_trans s t u hst htu := by
    simp only [Timer.comparator_iff, not_lt] at hst htu ⊢
    exact ⟨htu.1.trans hst.1, hst.2.trans htu.2⟩

/-- `m` is an ordered set of timers to call, and stays one throughout the next call.  The last
two fields look at every call that could come next, the second to last at every statement of it. -/
structure OrderedSet (m : TimerManger) : Prop where
  increasing : m.Increasing
  nodup : m.timers.Nodup
  armed : ∀ p ∈ m.timers, (m.heap p).cb.isSome = true
  next_sound : ∀ c, callable c m = true → AllSound (accesses c m) m
  next_accesses : ∀ c, { applyAll (accesses c m) m with tickled := (exec c m).2.tickled } =
    (exec c m).2

/-- **The timer set stays a valid ordered set**, in every run of calls: in the order of its
comparator, no timer twice, none without a callback; no key is written while its timer is
stored, and every `find` finds its timer exactly if it is stored.  The calls may be those of
several threads, as each of them runs under the lock.  The functions are
`src/hiper/base/timer.cc:25-129` and `:209-230`, the comparator `:250`. -/
theorem set_stays_ordered (heap : TimerPtr → Timer) {calls : List Call}
    (hrun : legalRun exec callable calls (init heap) = true) :
    (IsStrictWeakOrder Timer fun s t => s.comparator t = true) ∧
      OrderedSet (final exec calls (init heap)) := by
  have hkept := final_kept heap hrun
  exact ⟨comparator_strictWeakOrder, hkept.wf.increasing, hkept.wf.sorted.nodup, hkept.armed,
    fun _ hc => hkept.wf.accesses_sound hc, fun c => applyAll_accesses c _⟩

/-- A timer that recurs at once, one that is refreshed, and one that is cancelled. -/
theorem set_stays_ordered_three :
    (IsStrictWeakOrder Timer fun s t => s.comparator t = true) ∧
      OrderedSet (final exec [.addTimer 8 0 0 1 true, .addTimer 4 0 5 2 false, .addTimer 6 0 5 3 false,
        .refresh 1 2, .cancel 2, .listExpiredCb 3 5] (init fun _ => .new 0 0 0 none false)) :=
  set_stays_ordered _ (by decide +kernel)

/-! ### What the calls answer -/

/-- The timer a call is made on, when its answer is whether the timer was pending.  `addTimer`
and `listExpiredCb` answer something else. -/
def Call.timer : Call → Option TimerPtr
  | .cancel p => some p
  | .refresh p _ => some p
  | .reset p _ _ _ => some p
  | _ => none

/-- The call on `p` answers true when `p` is pending and only then, and false changes neither
the set nor the period and the expiration of `p`.  The third part is about the fields that say
when the timer would fire. -/
structure Truthful (c : Call) (p : TimerPtr) (m : TimerManger) : Prop where
  true_iff : (exec c m).1 = .bool true ↔ p ∈ m.timers
  unchanged : (exec c m).1 = .bool false → (exec c m).2.timers = m.timers ∧
    ((exec c m).2.heap p).ms = (m.heap p).ms ∧
    ((exec c m).2.heap p).expiration = (m.heap p).expiration

/-- The call asks for the period that `p` has, from the moment that `p` runs from.  Then `reset`
returns true before it takes the lock, line 72, and does not ask whether the timer is pending. -/
def Call.asksForNothing (c : Call) (p : TimerPtr) (m : TimerManger) : Prop :=
  ∃ now, c = .reset p (m.heap p).ms false now

/-- A call that answers false leaves everything as it is.  The two ways out with `return false`,
lines 49 and 53 of `timer.cc` and their like. -/
theorem truthful_false {c : Call} (hexec : exec c m = (.bool false, m)) (hp : p ∉ m.timers) :
    Truthful c p m := by
  rw [← Prod.eta (exec c m), Prod.mk.injEq] at hexec
  refine ⟨?_, fun _ => by rw [hexec.2]; exact ⟨rfl, rfl, rfl⟩⟩
  rw [hexec.1]
  exact iff_of_false nofun hp

/-- A call that answers true of a timer in the set tells the truth. -/
theorem truthful_true {c : Call} (hexec : (exec c m).1 = .bool true) (hp : p ∈ m.timers) :
    Truthful c p m := by
  refine ⟨iff_of_true hexec hp, fun hfalse => ?_⟩
  rw [hexec] at hfalse
  cases hfalse

/-- Without a callback a timer is not stored, so `!cb_` is the right test. -/
theorem Kept.not_mem (h : m.Kept) (hcb : (m.heap p).cb = none) : p ∉ m.timers := by
  intro hp
  have harmed := h.armed p hp
  rw [hcb] at harmed
  cases harmed

/-- The step lemma of `answer_true_iff`, in any state that keeps `Kept`. -/
theorem Kept.truthful_iff (h : m.Kept) {c : Call} (htimer : c.timer = some p)
    (hc : callable c m = true) : Truthful c p m ↔ ¬(c.asksForNothing p m ∧ p ∉ m.timers) := by
  cases c with
  | addTimer addr now ms cb r => cases htimer
  | listExpiredCb now probe => cases htimer
  | cancel q =>
      cases htimer
      refine iff_of_true ?_ (by rintro ⟨⟨now, hreset⟩, -⟩; cases hreset)
      rcases cancel_cases h.wf (given_of_lt (of_decide_eq_true hc)) with ⟨hcb, heq⟩ | ⟨hmem, heq⟩
      · exact truthful_false (by simp only [TimerManger.exec, heq]) (h.not_mem hcb)
      · exact truthful_true (by simp only [TimerManger.exec, heq]) hmem
  | refresh q now =>
      cases htimer
      refine iff_of_true ?_ (by rintro ⟨⟨now, hreset⟩, -⟩; cases hreset)
      rcases refresh_cases h.wf (given_of_lt (of_decide_eq_true hc)) now with ⟨hcb, heq⟩ | ⟨hmem, heq⟩
      · exact truthful_false (by simp only [TimerManger.exec, heq]) (h.not_mem hcb)
      · exact truthful_true (by simp only [TimerManger.exec, heq]) hmem
  | reset q ms fromNow now =>
      cases htimer
      have hidle : (Call.reset p ms fromNow now).asksForNothing p m ↔
          ms = (m.heap p).ms ∧ fromNow = false := by
        constructor
        · rintro ⟨now', ⟨⟩⟩
          exact ⟨rfl, rfl⟩
        · rintro ⟨rfl, rfl⟩
          exact ⟨now, rfl⟩
      rw [hidle]
      by_cases hsame : ms = (m.heap p).ms ∧ fromNow = false
      · -- the first way out of `reset`: the answer is true, whatever became of the timer
        have hanswer : (TimerManger.exec (.reset p ms fromNow now) m).1 = .bool true := by
          simp only [TimerManger.exec, reset, if_pos hsame]
        rw [not_and_not_right]
        constructor
        · exact fun htruthful _ => htruthful.true_iff.1 hanswer
        · exact fun hmem => truthful_true hanswer (hmem hsame)
      · refine iff_of_true ?_ fun hboth => hsame hboth.1
        rcases reset_cases h.wf (given_of_lt (of_decide_eq_true hc)) ms fromNow now with
          ⟨-, hms⟩ | ⟨hcb, heq⟩ | ⟨hmem, heq⟩
        · exact absurd hms hsame
        · exact truthful_false (by simp only [TimerManger.exec, heq]) (h.not_mem hcb)
        · exact truthful_true (by simp only [TimerManger.exec, heq]) hmem

/-- **Answers tell the truth** in every state that calls lead to, except that `reset` of a timer
that is no longer pending, to the period it had and not from now, answers true.  In that case
nothing happens, although the answer says so; a caller that goes by the answer waits for a timer
that never fires.  The way out is `src/hiper/base/timer.cc:72`. -/
theorem answer_true_iff (heap : TimerPtr → Timer) {calls : List Call}
    (hrun : legalRun exec callable calls (init heap) = true) {c : Call} {p : TimerPtr}
    (htimer : c.timer = some p) (hc : callable c (final exec calls (init heap)) = true) :
    Truthful c p (final exec calls (init heap)) ↔
      ¬(c.asksForNothing p (final exec calls (init heap)) ∧
        p ∉ (final exec calls (init heap)).timers) :=
  (final_kept heap hrun).truthful_iff htimer hc

/-- `cancel` of a timer that has fired.  It answers false, and false is the truth. -/
theorem answer_true_iff_fired :
    Truthful (.cancel 0) 0 (final exec [.addTimer 8 0 5 1 false, .listExpiredCb 5 3]
      (init fun _ => .new 0 0 0 none false)) :=
  (answer_true_iff _ (by decide +kernel) rfl (by decide +kernel)).2 (by
    rintro ⟨⟨now, hreset⟩, -⟩
    cases hreset)

/-- `reset` of a cancelled timer to the period it had.  The answer is true, and the timer stays
out of the set. -/
theorem reset_cancelled_answers_true :
    ¬Truthful (.reset 0 5 false 3) 0 (final exec [.addTimer 8 0 5 1 false, .cancel 0]
      (init fun _ => .new 0 0 0 none false)) := by
  intro h
  have hmem := h.true_iff.1 rfl
  revert hmem
  decide +kernel

end Hiper.TimerManger

import Hiper.Hook.Timeout

/-!
# A hooked call behaves as a blocking call

`do_io` of `hook.cc` on a socket that its user thinks is blocking: the system call is
made until it answers something else than `EINTR` or `EAGAIN`, and after `EAGAIN` the
fiber waits for the event, with a timer when there is a timeout.

A log has what the call has seen, newest first: the answers of the system call, the
timers and registrations that were its own, the waits that ended, and the timers that
fired.  By the log, in every run of the call among the other workers, the system call is
made again only when a wait has ended since `EAGAIN`; what the call returns is the first
other answer, or −1 with `ETIMEDOUT` after a timer of its own fired, or −1 after
`addEvent` failed; and then it has no timer in `timers_` and no registration
(`do_io_blocks`).

The function is `src/hiper/base/hook.cc:115`.  The log is not something that the code keeps:
each entry is one thing that a step has done, which the step itself determines (`seen`), and
the code looks at none of it.  Whatever else other workers do, also calls on the events of
other descriptors and `delEvent` for this one, is in the moves; what is assumed of them is
only that they do not have this call's timer.  The invariant has three parts.  `Told` says
for each place of the fiber what the log says there; `Owned`, that a timer of the call runs
only while the fiber has it in hand; `Awaited`, that a registration of the call is there
only while the fiber waits.
-/

namespace Hiper.HookedCall

open Lib
open IOManager (Kernel Entry)

/-- What `do_io` has seen and done.  They are what a blocking call is told by. -/
inductive Seen
  /-- The system call answered. -/
  | answer (n : ℤ) (errno : ℕ)
  /-- `addConditionTimer` returned this timer. -/
  | armed (p : TimerPtr)
  /-- `addEvent` registered the fiber, with this ticket. -/
  | registered (ticket : ℕ)
  /-- `addEvent` failed. -/
  | refused
  /-- The fiber was resumed. -/
  | waited
  /-- `listExpiredCb` took the callback of this timer out. -/
  | fired (p : TimerPtr)
  deriving DecidableEq, Repr

/-- A call and its log.  The log is newest first. -/
structure Traced where
  call : HookedCall
  log : List Seen

/-- What a step from `s` to `s'` adds to the log.  Most steps add nothing; the others add one
entry, and `listExpiredCb` one for each timer of the call. -/
def seen (x : Step) (s s' : HookedCall) : List Seen :=
  match x with
  | .call n errno => [.answer n errno]
  | .addConditionTimer _ _ => (s'.timer.map .armed).toList
  | .addEvent _ => if s'.place = .failed then [.refused] else [.registered s'.ticket]
  | .resume => [.waited]
  | .listExpiredCb now probe =>
    ((s.timers.listExpiredCb now probe).1.filter fun t => t.2 == some timeoutCb).map
      fun t => .fired t.1
  | _ => []

/-- The events, with the context of an event that is not registered emptied.  What it holds is
not looked at. -/
def emptied (fd : ℕ) (event : IOManager.Event) (m : IOManager) : IOManager :=
  match m.fdContexts[fd]? with
  | none => m
  | some c =>
    if c.events event then m
    else { m with fdContexts := m.fdContexts.set fd (c.resetContext event) }

namespace Traced

/-- The call before its first system call, with an empty log. -/
def init (heap : TimerPtr → Timer) (n : ℕ) : Traced := ⟨.init heap n, []⟩

/-- A step of the call or of another worker, or one of the two that the steps of a single call
leave out. -/
inductive Move
  | step (x : Step)
  /-- What a trigger left in a context is cleared. -/
  | empty (fd : ℕ) (event : IOManager.Event)
  /-- Another worker calls `delEvent` for the event that the fiber may wait for. -/
  | forget (kernel : Kernel)

/-- What a move does; nothing where it is not possible. -/
def step (a : Args) : Move → Traced → Option Traced
  | .step x, t => (HookedCall.step a x t.call).map fun s => ⟨s, seen x t.call s ++ t.log⟩
  | .empty fd event, t =>
    some ⟨{ t.call with events := emptied fd event t.call.events }, t.log⟩
  | .forget kernel, t =>
    (IOManager.step (.delEvent kernel a.fd a.event) t.call.events).map fun events =>
      ⟨{ t.call with events := events }, t.log⟩

end Traced

/-! ### What a blocking call does -/

/-- The answers of the system call.  Newest first. -/
def answers : List Seen → List (ℤ × ℕ)
  | [] => []
  | .answer n errno :: log => (n, errno) :: answers log
  | _ :: log => answers log

/-- `n == -1 && errno == EINTR`, or the same with `EAGAIN`.  With these the call goes on. -/
def Again (r : ℤ × ℕ) : Prop := r.1 = -1 ∧ (r.2 = eintr ∨ r.2 = eagain)

/-- The system call may be made: a wait has ended since it answered `EAGAIN`.  At first it may
be made too. -/
def Ready : List Seen → Prop
  | [] => True
  | .waited :: _ => True
  | .answer n errno :: _ => ¬(n = -1 ∧ errno = eagain)
  | _ :: log => Ready log

/-- It was made only then.  Of every answer in the log. -/
def Spaced : List Seen → Prop
  | [] => True
  | .answer _ _ :: log => Ready log ∧ Spaced log
  | _ :: log => Spaced log

/-- All answers so far were to try again.  So the call has not returned yet. -/
def Retried (log : List Seen) : Prop := ∀ r ∈ answers log, Again r

/-- A timer of the call fired.  Its callback was taken out of the set. -/
def Fired (log : List Seen) : Prop := ∃ p, .armed p ∈ log ∧ .fired p ∈ log

/-- What the call may return, and write to `errno` itself.  The answer itself, or -1 with
`ETIMEDOUT` after a timer fired, or -1 after `addEvent` failed. -/
def Outcome (log : List Seen) (n : ℤ) (errno : Option ℕ) : Prop :=
  (∃ e rest, answers log = (n, e) :: rest ∧ ¬Again (n, e) ∧ (∀ r ∈ rest, Again r) ∧ errno = none) ∨
    (n = -1 ∧ errno = some etimedout ∧ Retried log ∧ Fired log) ∨
    (n = -1 ∧ errno = none ∧ Retried log ∧ .refused ∈ log)

/-- What is promised of a call in every state.  The system call was made only when it should be,
an answer that is no retry has been returned, and a call that has returned one of its outcomes
has no timer and no registration. -/
structure Blocks (a : Args) (t : Traced) : Prop where
  spaced : Spaced t.log
  outcome : ∀ n errno, t.call.place = .returned n errno → Outcome t.log n errno
  /-- An answer that is no retry has been returned. -/
  returned : ∀ r ∈ answers t.log, ¬Again r → t.call.place = .returned r.1 none
  /-- It leaves no timer of its own. -/
  timers : ∀ n errno, t.call.place = .returned n errno → ∀ p, .armed p ∈ t.log →
    p ∉ t.call.timers.timers
  /-- And no registration. -/
  events : ∀ n errno, t.call.place = .returned n errno → ∀ ticket, .registered ticket ∈ t.log →
    t.call.events.holds a.fd a.event (.fiber ⟨ticket, self⟩) = false

/-! ### The invariant -/

/-- The fiber may have a timer that runs.  Elsewhere it has none that runs. -/
def Place.holdsTimer : Place → Bool
  | .adding | .failed | .yielding | .suspended | .resumed => true
  | _ => false

/-- What the log says when the fiber is there.  It is the part of the invariant that follows the
code of `do_io`. -/
def Told (log : List Seen) : Place → Prop
  | .calling | .resumed | .testing => Retried log ∧ Ready log
  | .arming | .adding | .yielding | .suspended => Retried log
  | .failed => Retried log ∧ .refused ∈ log
  | .asking => False
  | .returned n errno => Outcome log n errno

/-- A timer of the call runs only while the fiber has it in hand.  Its callbacks, too, come from
timers that it has armed. -/
structure Owned (s : HookedCall) (log : List Seen) : Prop where
  clocked : Manager.Clocked s.timers
  made : ∀ p, s.timer = some p → p < s.timers.allocs
  lt_allocs : ∀ p, .armed p ∈ log → p < s.timers.allocs
  own : ∀ p, .armed p ∈ log → p ∈ s.timers.timers → s.timer = some p ∧
    s.place.holdsTimer = true ∧ (s.timers.heap p).cb = some timeoutCb
  /-- The callbacks of the call are those of its timers. -/
  named : ∀ p ∈ s.timers.timers, (s.timers.heap p).cb = some timeoutCb → .armed p ∈ log

/-- A registration of the call is there only while the fiber waits.  A registration with an
older ticket is gone. -/
structure Awaited (a : Args) (s : HookedCall) (log : List Seen) : Prop where
  accounts : s.events.Accounts
  added : ∀ ticket, .registered ticket ∈ log →
    .added a.fd a.event (some iom) (.fiber ⟨ticket, self⟩) ∈ s.events.ledger
  held : ∀ ticket, .registered ticket ∈ log →
    s.events.holds a.fd a.event (.fiber ⟨ticket, self⟩) = true →
    ticket = s.ticket ∧ s.place.waiting = true

/-- What holds in every state reached.  Its parts are about the timers, the events, the log, and
the flag in `timer_info`. -/
structure Traced.Inv (a : Args) (t : Traced) : Prop where
  owned : Owned t.call t.log
  awaited : Awaited a t.call t.log
  /-- A callback that is out, or has marked the call, came from a timer that fired. -/
  fired : t.call.callbacks ≠ [] ∨ t.call.cancelled ≠ 0 → Fired t.log
  cancelled : t.call.cancelled = 0 ∨ t.call.cancelled = etimedout
  spaced : Spaced t.log
  told : Told t.log t.call.place

/-- At first the invariant holds: nothing is armed, registered or logged. -/
theorem Traced.init_inv (a : Args) (heap : TimerPtr → Timer) (n : ℕ) :
    Traced.Inv a (Traced.init heap n) where
  owned := ⟨⟨TimerManger.init_wf heap, nofun⟩, nofun, nofun, nofun, nofun⟩
  awaited := ⟨IOManager.init_accounts n, nofun, nofun⟩
  fired := by
    rintro (h | h)
    · exact absurd rfl h
    · exact absurd rfl h
  cancelled := Or.inl rfl
  spaced := trivial
  told := ⟨nofun, trivial⟩

/-- Where the fiber has no timer in hand, no timer that the call ever armed is in the set. -/
theorem Owned.not_mem {s : HookedCall} {log : List Seen} (h : Owned s log)
    (hplace : s.place.holdsTimer = false) {p : TimerPtr} (hp : .armed p ∈ log) :
    p ∉ s.timers.timers := by
  intro hmem
  have hholds := (h.own p hp hmem).2.1
  exact absurd (hplace.symm.trans hholds) Bool.false_ne_true

/-- Where the fiber does not wait, no registration that the call ever made is there. -/
theorem Awaited.not_held {a : Args} {s : HookedCall} {log : List Seen} (h : Awaited a s log)
    (hplace : s.place.waiting = false) {ticket : ℕ} (hticket : .registered ticket ∈ log) :
    s.events.holds a.fd a.event (.fiber ⟨ticket, self⟩) = false := by
  rw [← Bool.not_eq_true]
  intro hholds
  have hwaiting := (h.held ticket hticket hholds).2
  exact absurd (hplace.symm.trans hwaiting) Bool.false_ne_true

/-- Wherever the fiber is but behind its return, all answers were to try again.  An answer that
is none of those has been returned at once. -/
theorem Told.returned {log : List Seen} {p : Place} {r : ℤ × ℕ} (h : Told log p)
    (hr : r ∈ answers log) (hagain : ¬Again r) : p = .returned r.1 none := by
  have hnot : ¬Retried log := fun hretried => hagain (hretried r hr)
  cases p with
  | returned n errno =>
      rcases h with ⟨e, rest, hanswers, -, hrest, rfl⟩ | ⟨-, -, hretried, -⟩ | ⟨-, -, hretried, -⟩
      · rw [hanswers] at hr
        rcases List.mem_cons.1 hr with rfl | hr
        · rfl
        · exact absurd (hrest r hr) hagain
      · exact absurd hretried hnot
      · exact absurd hretried hnot
  | calling => exact absurd h.1 hnot
  | resumed => exact absurd h.1 hnot
  | testing => exact absurd h.1 hnot
  | failed => exact absurd h.1 hnot
  | asking => exact absurd h id
  | arming => exact absurd h hnot
  | adding => exact absurd h hnot
  | yielding => exact absurd h hnot
  | suspended => exact absurd h hnot

/-- It promises what is promised.  It is read off the place. -/
theorem Traced.Inv.blocks {a : Args} {t : Traced} (h : t.Inv a) : Blocks a t where
  spaced := h.spaced
  outcome := by
    intro n errno hplace
    have htold := h.told
    rw [hplace] at htold
    exact htold
  returned := fun _ hr hagain => h.told.returned hr hagain
  timers := fun n errno hplace p hp => h.owned.not_mem (by rw [hplace]; rfl) hp
  events := fun n errno hplace ticket hticket => h.awaited.not_held (by rw [hplace]; rfl) hticket

/-! ### The log -/

section Log

variable {log : List Seen}

/-- Timers that fire do not matter to whether the system call may be made. -/
theorem Ready.fired {l : List TimerPtr} (h : Ready log) : Ready (l.map .fired ++ log) := by
  induction l with
  | nil => exact h
  | cons p l ih => exact ih

/-- Timers that fire do not matter to when it was made. -/
theorem Spaced.fired {l : List TimerPtr} (h : Spaced log) : Spaced (l.map .fired ++ log) := by
  induction l with
  | nil => exact h
  | cons p l ih => exact ih

/-- Timers that fire are no answers. -/
theorem answers_fired (l : List TimerPtr) (log : List Seen) :
    answers (l.map .fired ++ log) = answers log := by
  induction l with
  | nil => rfl
  | cons p l ih => exact ih

/-- What has fired has fired. -/
theorem Fired.append {l : List Seen} (h : Fired log) : Fired (l ++ log) := by
  obtain ⟨p, harmed, hfired⟩ := h
  exact ⟨p, List.mem_append_right _ harmed, List.mem_append_right _ hfired⟩

/-- What fires later does not matter to what was told.  One case for each place. -/
theorem Told.fired {p : Place} (l : List TimerPtr) (h : Told log p) :
    Told (l.map .fired ++ log) p := by
  have hretried : Retried log → Retried (l.map .fired ++ log) := by
    intro h
    rw [Retried, answers_fired]
    exact h
  cases p with
  | calling => exact ⟨hretried h.1, h.2.fired⟩
  | resumed => exact ⟨hretried h.1, h.2.fired⟩
  | testing => exact ⟨hretried h.1, h.2.fired⟩
  | arming => exact hretried h
  | adding => exact hretried h
  | yielding => exact hretried h
  | suspended => exact hretried h
  | failed => exact ⟨hretried h.1, List.mem_append_right _ h.2⟩
  | asking => exact h
  | returned n errno =>
      rcases h with ⟨e, rest, hanswers, h⟩ | ⟨hn, he, hret, hfired⟩ | ⟨hn, he, hret, hrefused⟩
      · exact Or.inl ⟨e, rest, by rw [answers_fired]; exact hanswers, h⟩
      · exact Or.inr (Or.inl ⟨hn, he, hretried hret, hfired.append⟩)
      · exact Or.inr (Or.inr ⟨hn, he, hretried hret, List.mem_append_right _ hrefused⟩)

/-- Where the call goes with an answer.  The three cases are those of `hook.cc:143-149`. -/
theorem Told.answered (h : Told log .calling) (fd : ℕ) (event : IOManager.Event) (timeout : ℕ)
    (n : ℤ) (errno : ℕ) :
    Told (.answer n errno :: log) (answered (.doIo fd event timeout) n errno) := by
  rw [HookedCall.answered]
  split_ifs with hintr hagain
  · refine ⟨List.forall_mem_cons.2 ⟨⟨hintr.1, Or.inl hintr.2⟩, h.1⟩, fun hagain => ?_⟩
    exact absurd (hintr.2.symm.trans hagain.2) (by decide)
  · exact List.forall_mem_cons.2 ⟨⟨hagain.1, Or.inr hagain.2⟩, h.1⟩
  · refine Or.inl ⟨errno, answers log, rfl, ?_, h.1, rfl⟩
    rintro ⟨hn, he | he⟩
    · exact hintr ⟨hn, he⟩
    · exact hagain ⟨hn, he⟩

end Log

/-! ### The timers of the call -/

section Timers

variable {s : HookedCall} {log : List Seen}

/-- It is about the timers, the timer in hand and the place alone. -/
theorem Owned.of_eq (h : Owned s log) {s' : HookedCall} (htimers : s'.timers = s.timers)
    (htimer : s'.timer = s.timer) (hplace : s'.place = s.place) : Owned s' log where
  clocked := htimers ▸ h.clocked
  made := by
    rw [htimers, htimer]
    exact h.made
  lt_allocs := by
    rw [htimers]
    exact h.lt_allocs
  own := by
    rw [htimers, htimer, hplace]
    exact h.own
  named := by
    rw [htimers]
    exact h.named

/-- What is new in the log is no timer of the call.  A place from which the timer runs leads to
one where it may. -/
theorem Owned.goto (h : Owned s log) {p : Place} {l : List Seen} (hl : ∀ q, .armed q ∉ l)
    (hplace : s.place.holdsTimer = true → p.holdsTimer = true) :
    Owned (s.goto p) (l ++ log) := by
  have hold : ∀ q, .armed q ∈ l ++ log → .armed q ∈ log := fun q hq =>
    (List.mem_append.1 hq).resolve_left (hl q)
  refine ⟨h.clocked, h.made, fun q hq => h.lt_allocs q (hold q hq), fun q hq hmem => ?_,
    fun q hq hcb => List.mem_append_right _ (h.named q hq hcb)⟩
  obtain ⟨htimer, hholds, hcb⟩ := h.own q (hold q hq) hmem
  exact ⟨htimer, hplace hholds, hcb⟩

/-- Only the call has the callback's name.  A call of another thread makes timers of other names
and changes no names. -/
theorem named_of_exec {m : TimerManger} (h : Manager.Clocked m) {c : TimerManger.Call}
    (hc : Manager.possible c m = true) (hcb : ∀ addr now ms cb r, c = .addTimer addr now ms cb r →
      cb ≠ timeoutCb) {p : TimerPtr} (hp : p ∈ (TimerManger.exec c m).2.timers)
    (hp' : ((TimerManger.exec c m).2.heap p).cb = some timeoutCb) :
    p ∈ m.timers ∧ (m.heap p).cb = some timeoutCb := by
  have hleaves := Manager.exec_leaves h hc
  have hstays : p ∈ m.timers → c ≠ .cancel p → (m.heap p).cb = some timeoutCb := fun hmem hne =>
    (hleaves.stays p hmem hne).2 ▸ hp'
  cases c with
  | addTimer addr now ms cb r =>
      obtain ⟨-, hmem, hself, -⟩ := h.wf.addTimer_spec now ms (some cb) r fun q hq =>
        bne_iff_ne.1 (List.all_eq_true.1 hc q hq)
      rcases (hmem p).1 hp with rfl | hmem
      · change ((m.addTimer addr now ms (some cb) r).2.heap m.allocs).cb = _ at hp'
        rw [hself] at hp'
        exact absurd (Option.some.inj hp') (hcb _ _ _ _ _ rfl)
      · exact ⟨hmem, hstays hmem (fun h => by cases h)⟩
  | cancel q =>
      rcases TimerManger.cancel_cases h.wf (TimerManger.given_of_lt (of_decide_eq_true hc)) with
        ⟨-, heq⟩ | ⟨hmem, heq⟩
      · simp only [TimerManger.exec, heq] at hp hp'
        exact ⟨hp, hp'⟩
      · simp only [TimerManger.exec, heq] at hp hp'
        obtain ⟨hp, hne⟩ := (h.wf.mem_cancelled hmem).1 hp
        exact ⟨hp, hstays hp fun heq => hne (TimerManger.Call.cancel.inj heq).symm⟩
  | refresh q now =>
      have hmem : p ∈ m.timers := by
        rcases TimerManger.refresh_cases h.wf (TimerManger.given_of_lt (of_decide_eq_true hc)) now with
          ⟨-, heq⟩ | ⟨hmem, heq⟩
        · simp only [TimerManger.exec, heq] at hp
          exact hp
        · simp only [TimerManger.exec, heq] at hp
          exact (h.wf.mem_moved hmem rfl rfl).1 hp
      exact ⟨hmem, hstays hmem (fun h => by cases h)⟩
  | reset q ms fromNow now =>
      have hmem : p ∈ m.timers := by
        rcases TimerManger.reset_cases h.wf (TimerManger.given_of_lt (of_decide_eq_true hc)) ms fromNow
          now with ⟨heq, -⟩ | ⟨-, heq⟩ | ⟨hmem, heq⟩
        · simp only [TimerManger.exec, heq] at hp
          exact hp
        · simp only [TimerManger.exec, heq] at hp
          exact hp
        · simp only [TimerManger.exec, heq] at hp
          exact (h.wf.mem_moved hmem (f := fun t =>
            { t with ms := ms, expiration := add64 (TimerManger.resetStart t fromNow now) ms })
            rfl rfl).1 hp
      exact ⟨hmem, hstays hmem (fun h => by cases h)⟩
  | listExpiredCb now probe => cases hc

/-- A call on other timers.  These are not touched by it. -/
theorem Owned.exec (h : Owned s log) {c : TimerManger.Call} (hforeign : s.foreign c = true)
    (hc : Manager.possible c s.timers = true) :
    Owned { s with timers := (TimerManger.exec c s.timers).2 } log := by
  have hleaves := Manager.exec_leaves h.clocked hc
  refine ⟨hleaves.clocked, fun p hp => (h.made p hp).trans_le hleaves.allocs_le,
    fun p hp => (h.lt_allocs p hp).trans_le hleaves.allocs_le, fun p hp hmem => ?_,
    fun p hp hcb => ?_⟩
  · rcases hleaves.old p hmem with rfl | hmem
    · exact absurd (h.lt_allocs _ hp) (Nat.lt_irrefl _)
    · obtain ⟨htimer, hholds, hcb⟩ := h.own p hp hmem
      have hother : c ≠ .cancel p := by
        rintro rfl
        exact bne_iff_ne.1 hforeign htimer
      exact ⟨htimer, hholds, (hleaves.stays p hmem hother).2.trans hcb⟩
  · obtain ⟨hmem, hcb⟩ := named_of_exec h.clocked hc
      (by rintro addr now ms cb r rfl; exact bne_iff_ne.1 hforeign) hp hcb
    exact h.named p hmem hcb

/-- `timer->cancel()`: no timer of the call is left.  The timer that is in hand is the only one
that may run. -/
theorem Owned.cancelTimer (h : Owned s log) (p : Place) : Owned (s.cancelTimer.goto p) log := by
  rw [HookedCall.cancelTimer]
  cases htimer : s.timer with
  | none =>
      refine ⟨h.clocked, h.made, h.lt_allocs, fun q hq hmem => ?_, h.named⟩
      have hsome := (h.own q hq hmem).1
      rw [htimer] at hsome
      cases hsome
  | some r =>
      have hlt := h.made r htimer
      have hc : Manager.possible (.cancel r) s.timers = true := decide_eq_true hlt
      have hleaves := Manager.exec_leaves h.clocked hc
      refine ⟨hleaves.clocked,
        fun q hq => (h.made q (htimer.trans hq)).trans_le hleaves.allocs_le,
        fun q hq => (h.lt_allocs q hq).trans_le hleaves.allocs_le, fun q hq hmem => ?_,
        fun q hq hcb => ?_⟩
      · -- a timer that is still there would be `r`, and have its callback
        exfalso
        change q ∈ (s.timers.cancel r).2.timers at hmem
        rcases TimerManger.cancel_cases h.clocked.wf (TimerManger.given_of_lt hlt) with
          ⟨hcb, heq⟩ | ⟨hin, heq⟩
        · rw [heq] at hmem
          obtain ⟨hq', -, hsome⟩ := h.own q hq hmem
          obtain rfl := Option.some.inj (htimer.symm.trans hq')
          rw [hcb] at hsome
          cases hsome
        · rw [heq] at hmem
          obtain ⟨hmem, hne⟩ := (h.clocked.wf.mem_cancelled hin).1 hmem
          exact hne (Option.some.inj ((h.own q hq hmem).1.symm.trans htimer))
      · obtain ⟨hmem, hcb⟩ := named_of_exec h.clocked hc (fun _ _ _ _ _ h => by cases h) hq hcb
        exact h.named q hmem hcb

/-- The callbacks of the call that `listExpiredCb` takes out are those of its timers.  No other
has the name of its callback. -/
theorem Owned.listExpiredCb (h : Owned s log) (now probe : ℕ) {callbacks : List Phase}
    {l : List TimerPtr} :
    Owned { s with
      timers := (s.timers.listExpiredCb now probe).2
      callbacks := callbacks } (l.map .fired ++ log) := by
  obtain ⟨expired, -, -, -, -, hheap, hallocs, -, htimers⟩ :=
    h.clocked.wf.listExpiredCb_spec now probe
  have hold : ∀ p, .armed p ∈ l.map .fired ++ log → .armed p ∈ log := by
    intro p hp
    refine (List.mem_append.1 hp).resolve_left fun hp => ?_
    obtain ⟨q, -, hq⟩ := List.mem_map.1 hp
    cases hq
  have hcb : ∀ p ∈ (s.timers.listExpiredCb now probe).2.timers,
      ((s.timers.listExpiredCb now probe).2.heap p).cb = (s.timers.heap p).cb := by
    intro p hp
    obtain ⟨-, hrec⟩ := (htimers p).1 hp
    rw [hheap]
    by_cases hin : p ∈ expired
    · simp only [hin, if_true, TimerManger.fired, hrec hin]
    · simp only [hin, if_false]
  refine ⟨Manager.listExpiredCb_clocked h.clocked now probe, fun p hp => hallocs ▸ h.made p hp,
    fun p hp => hallocs ▸ h.lt_allocs p (hold p hp), fun p hp hmem => ?_, fun p hmem hp => ?_⟩
  · obtain ⟨htimer, hholds, hsome⟩ := h.own p (hold p hp) ((htimers p).1 hmem).1
    exact ⟨htimer, hholds, (hcb p hmem).trans hsome⟩
  · exact List.mem_append_right _ (h.named p ((htimers p).1 hmem).1 ((hcb p hmem).symm.trans hp))

/-- A timer whose callback is taken out was armed.  It has the callback's name and was in the
set. -/
theorem Owned.armed_of_expired (h : Owned s log) {now probe : ℕ} {p : TimerPtr}
    (hp : (p, some timeoutCb) ∈ (s.timers.listExpiredCb now probe).1) : .armed p ∈ log := by
  obtain ⟨expired, -, hexpired, hcbs, -⟩ := h.clocked.wf.listExpiredCb_spec now probe
  rw [hcbs] at hp
  obtain ⟨q, hq, heq⟩ := List.mem_map.1 hp
  obtain ⟨rfl, hcb⟩ := Prod.mk.inj heq
  exact h.named q ((hexpired q).1 hq).1 hcb

/-- `addConditionTimer`.  The new timer is the one in hand. -/
theorem Owned.arm (h : Owned s log) (hplace : s.place.holdsTimer = false) {a : Args} {addr now : ℕ}
    {s' : HookedCall} (hs : s.arm a addr now = some s') :
    Owned s' ((s'.timer.map .armed).toList ++ log) := by
  rw [HookedCall.arm] at hs
  split_ifs at hs with hfinite
  · obtain ⟨hc, hs⟩ := Option.ite_none_right_eq_some.1 hs
    obtain rfl := Option.some.inj hs
    have hleaves := Manager.exec_leaves h.clocked hc
    obtain ⟨-, hmem, hself, hold⟩ := h.clocked.wf.addTimer_spec now a.timeout (some timeoutCb) false
      fun q hq => bne_iff_ne.1 (List.all_eq_true.1 hc q hq)
    refine ⟨hleaves.clocked, fun p hp => ?_, fun p hp => ?_, fun p hp hin => ?_, fun p hp hcb => ?_⟩
    · obtain rfl := Option.some.inj hp
      exact Nat.lt_succ_self _
    · rcases List.mem_cons.1 hp with hp | hp
      · obtain rfl := Seen.armed.inj hp
        exact Nat.lt_succ_self _
      · exact (h.lt_allocs p hp).trans_le hleaves.allocs_le
    · rcases (hmem p).1 hin with rfl | hin
      · exact ⟨rfl, rfl, congrArg Timer.cb hself⟩
      · rcases List.mem_cons.1 hp with hp | hp
        · obtain rfl := Seen.armed.inj hp
          exact ⟨rfl, rfl, congrArg Timer.cb hself⟩
        · exact absurd hin (h.not_mem hplace hp)
    · rcases (hmem p).1 hp with rfl | hin
      · exact List.mem_cons_self ..
      · refine List.mem_cons_of_mem _ (h.named p hin ?_)
        rw [← (hleaves.stays p hin (fun h => by cases h)).2]
        exact hcb
  · obtain rfl := Option.some.inj hs
    exact ⟨h.clocked, (fun _ h => by cases h), h.lt_allocs,
      fun p hp hmem => absurd hmem (h.not_mem hplace hp), h.named⟩

end Timers

/-! ### The registrations of the call -/

section Events

variable {a : Args} {s : HookedCall} {log : List Seen}

/-- It is about the events, the ticket and the place alone. -/
theorem Awaited.of_eq (h : Awaited a s log) {s' : HookedCall} (hevents : s'.events = s.events)
    (hticket : s'.ticket = s.ticket) (hplace : s'.place = s.place) : Awaited a s' log where
  accounts := hevents ▸ h.accounts
  added := by
    rw [hevents]
    exact h.added
  held := by
    rw [hevents, hticket, hplace]
    exact h.held

/-- The fiber goes on; what it registered is not there any more, unless it waits.  A place that
waits may be left only then. -/
theorem Awaited.goto (h : Awaited a s log) {p : Place} {l : List Seen}
    (hl : ∀ ticket, .registered ticket ∉ l)
    (hplace : .registered s.ticket ∈ log → s.registered a = true → s.place.waiting = true →
      p.waiting = true) :
    Awaited a (s.goto p) (l ++ log) := by
  have hold : ∀ ticket, .registered ticket ∈ l ++ log → .registered ticket ∈ log := fun ticket ht =>
    (List.mem_append.1 ht).resolve_left (hl ticket)
  refine ⟨h.accounts, fun ticket ht => h.added ticket (hold ticket ht), fun ticket ht hholds => ?_⟩
  obtain ⟨rfl, hwaiting⟩ := h.held ticket (hold ticket ht) hholds
  exact ⟨rfl, hplace (hold _ ht) hholds hwaiting⟩

/-- A call on the events ends registrations, or leaves them.  None is made for this call by
others. -/
theorem Awaited.exec (h : Awaited a s log) {c : IOManager.Call} {r : IOManager.Answer}
    {m : IOManager} (hexec : s.events.exec c = .ok (r, m)) {callbacks : List Phase} :
    Awaited a { s with events := m, callbacks := callbacks } log where
  accounts := h.accounts.exec hexec
  added := fun ticket ht => IOManager.ledger_exec hexec ▸ List.mem_append_left _ (h.added ticket ht)
  held := fun ticket ht hholds =>
    h.held ticket ht (holds_of_exec h.accounts hexec (h.added ticket ht) hholds)

/-- An emptied context has a waiter exactly when it had one.  Its counts and its ledger stay as
well. -/
theorem emptied_spec (m : IOManager) (fd : ℕ) (event : IOManager.Event) (hm : m.Accounts) :
    (emptied fd event m).Accounts ∧ (emptied fd event m).ledger = m.ledger ∧
      ∀ fd' e w, (emptied fd event m).holds fd' e w = m.holds fd' e w := by
  unfold emptied
  split
  next => exact ⟨hm, rfl, fun _ _ _ => rfl⟩
  next c hc =>
    split_ifs with hbit
    · exact ⟨hm, rfl, fun _ _ _ => rfl⟩
    · rw [Bool.not_eq_true] at hbit
      have h : IOManager.SlotChange m
          { m with fdContexts := m.fdContexts.set fd (c.resetContext event) } fd event c
          (c.resetContext event) :=
        ⟨hc, rfl, fun _ _ => rfl, fun e he => IOManager.FdContext.getContext_setContext_of_ne _ he⟩
      have hself : (c.resetContext event).getContext event = .empty :=
        IOManager.FdContext.getContext_setContext_self ..
      have hholds : ∀ fd' e w,
          IOManager.holds { m with fdContexts := m.fdContexts.set fd (c.resetContext event) } fd' e w =
            m.holds fd' e w := by
        intro fd' e w
        by_cases hne : fd' = fd ∧ e = event
        · obtain ⟨rfl, rfl⟩ := hne
          rw [h.holds_self, h.holds_before, hbit]
          change (c.events e && _) = _
          rw [hbit]
          rfl
        · exact h.holds_other hne w
      refine ⟨⟨?_, ?_, ?_, ?_, hm.handed, hm.ticket, hm.ended⟩, rfl, hholds⟩
      · rw [h.registered_eq]
        change m.pendingEventCount = m.registered + (if c.events event then 1 else 0) - _
        rw [hm.pending_eq, hbit]
        simp
      · exact IOManager.forall_of_change
          (p := fun b x _ _ => b = false → x.fiber = none ∧ x.cb = none) h
          (fun _ => by rw [hself]; exact ⟨rfl, rfl⟩) hm.clear
      · refine IOManager.forall_of_change
          (p := fun b x fd' e => b = true → (x.fiber = none ∨ x.cb = none) ∧
            ∃ w', x.waiter = some w' ∧ .added fd' e x.scheduler w' ∈ m.ledger) h ?_ hm.set
        intro hset
        exact absurd (hbit.symm.trans hset) Bool.false_ne_true
      · intro fd' e scheduler w hadded
        rw [hholds]
        exact hm.once fd' e scheduler w hadded

/-- Emptying a context that is not registered leaves the registrations. -/
theorem Awaited.emptied (h : Awaited a s log) (fd : ℕ) (event : IOManager.Event) :
    Awaited a { s with events := emptied fd event s.events } log := by
  obtain ⟨haccounts, hledger, hholds⟩ := emptied_spec s.events fd event h.accounts
  refine ⟨haccounts, fun ticket ht => hledger ▸ h.added ticket ht, fun ticket ht hheld => ?_⟩
  exact h.held ticket ht ((hholds _ _ _).symm.trans hheld)

/-- A fiber that was handed over is not registered any more.  Its ticket has been used. -/
theorem Awaited.not_registered (h : Awaited a s log) (ht : .registered s.ticket ∈ log)
    (hhanded : s.handed = true) : s.registered a = false := by
  have honce := h.accounts.once _ _ _ _ (h.added s.ticket ht)
  have hpos : 0 < s.events.ledger.countP (Entry.ends s.ticket) :=
    List.countP_pos_iff.2 ⟨_, List.contains_iff_mem.1 hhanded, beq_self_eq_true _⟩
  rw [← Bool.not_eq_true]
  intro hreg
  rw [registered, waiter] at hreg
  rw [if_pos hreg] at honce
  change s.events.ledger.countP (Entry.ends s.ticket) + 1 = 1 at honce
  omega

/-- `addEvent`, of a call that has no registration.  It has one then, with a new ticket, or the
call has failed. -/
theorem Awaited.register (h : Awaited a s log) (hplace : s.place.waiting = false) {kernel : Kernel}
    {s' : HookedCall} (hs : s.register a kernel = some s') :
    s' = s.goto .failed ∨ s'.place = .yielding ∧ s'.timers = s.timers ∧ s'.timer = s.timer ∧
      s'.cancelled = s.cancelled ∧ s'.callbacks = s.callbacks ∧
        Awaited a s' (.registered s'.ticket :: log) := by
  rw [HookedCall.register] at hs
  split at hs
  next => cases hs
  next rt events hadd =>
    split_ifs at hs with hrt
    · exact Or.inl (Option.some.inj hs).symm
    · obtain rfl := Option.some.inj hs
      rw [not_not] at hrt
      subst hrt
      have hexec : s.events.exec (.addEvent kernel (some iom) self a.fd a.event none) =
          .ok (.int 0, events) := by
        rw [IOManager.exec, hadd]
        rfl
      have hnext : Awaited a { s with events := events, callbacks := s.callbacks } log :=
        h.exec hexec
      refine Or.inr ⟨rfl, rfl, rfl, rfl, rfl, hnext.accounts, fun ticket ht => ?_,
        fun ticket ht hholds => ?_⟩
      · rcases List.mem_cons.1 ht with ht | ht
        · obtain rfl := Seen.registered.inj ht
          cases IOManager.addEvent_outcome hadd with
          | nothing _ ha => rcases ha with ha | ha | ha <;> cases ha
          | add => exact List.mem_append_right _ (List.mem_singleton_self _)
        · exact hnext.added ticket ht
      · rcases List.mem_cons.1 ht with ht | ht
        · exact ⟨Seen.registered.inj ht, rfl⟩
        · exact absurd ((hnext.not_held hplace ht).symm.trans hholds) Bool.false_ne_true

end Events

/-! ### Steps -/

namespace Traced

section Steps

variable {fd : ℕ} {event : IOManager.Event} {timeout : ℕ} {t t' : Traced}

/-- The fiber goes on, and what it sees is no timer, no registration and no answer.  The three
kinds of entries are those that it may add. -/
theorem Inv.goto {a : Args} (h : t.Inv a) {p : Place} {l : List Seen}
    (hl : l = [] ∨ l = [.waited] ∨ l = [.refused])
    (htimer : t.call.place.holdsTimer = true → p.holdsTimer = true)
    (hevent : .registered t.call.ticket ∈ t.log → t.call.registered a = true →
      t.call.place.waiting = true → p.waiting = true)
    (htold : Told (l ++ t.log) p) : Inv a ⟨t.call.goto p, l ++ t.log⟩ where
  owned := h.owned.goto (by rcases hl with rfl | rfl | rfl <;> simp) htimer
  awaited := h.awaited.goto (by rcases hl with rfl | rfl | rfl <;> simp) hevent
  fired := fun hout => (h.fired hout).append
  cancelled := h.cancelled
  spaced := by rcases hl with rfl | rfl | rfl <;> exact h.spaced
  told := htold

/-- The callbacks that are out change, and with them nothing that the fiber has.  Where one
marks the call, it does so with `ETIMEDOUT`. -/
theorem Inv.callbacks {a : Args} (h : t.Inv a) {l : List Phase} {n : ℕ}
    (hl : l ≠ [] → t.call.callbacks ≠ [])
    (hn : n = t.call.cancelled ∨ n = etimedout ∧ t.call.callbacks ≠ []) :
    Inv a ⟨{ t.call with cancelled := n, callbacks := l }, t.log⟩ where
  owned := h.owned.of_eq rfl rfl rfl
  awaited := h.awaited.of_eq rfl rfl rfl
  fired := by
    rintro (hne | hne)
    · exact h.fired (Or.inl (hl hne))
    · rcases hn with rfl | ⟨-, hcallbacks⟩
      · exact h.fired (Or.inr hne)
      · exact h.fired (Or.inl hcallbacks)
  cancelled := by
    rcases hn with rfl | ⟨rfl, -⟩
    · exact h.cancelled
    · exact Or.inr rfl
  spaced := h.spaced
  told := h.told

/-- A list that has something at a place is not empty. -/
theorem ne_nil_of_getElem? {l : List Phase} {i : ℕ} {c : Phase} (hi : l[i]? = some c) : l ≠ [] := by
  rintro rfl
  cases hi

/-- `addConditionTimer`.  It is made where the fiber is about to arm. -/
theorem Inv.arm {a : Args} (h : t.Inv a) (hplace : t.call.place = .arming) {addr now : ℕ}
    {s' : HookedCall} (hs : t.call.arm a addr now = some s') :
    Inv a ⟨s', (s'.timer.map .armed).toList ++ t.log⟩ := by
  have hretried : Retried t.log := by
    have htold := h.told
    rw [hplace] at htold
    exact htold
  have howned := h.owned.arm (by rw [hplace]; rfl) hs
  have hheld : ∀ ticket, .registered ticket ∈ t.log →
      t.call.events.holds a.fd a.event (.fiber ⟨ticket, self⟩) = false := fun ticket hticket =>
    h.awaited.not_held (by rw [hplace]; rfl) hticket
  rw [HookedCall.arm] at hs
  split_ifs at hs with hfinite
  · obtain ⟨hc, hs⟩ := Option.ite_none_right_eq_some.1 hs
    obtain rfl := Option.some.inj hs
    refine ⟨howned, ⟨h.awaited.accounts, fun ticket hticket => ?_, fun ticket hticket hholds => ?_⟩,
      fun hout => (h.fired hout).append, h.cancelled, h.spaced, hretried⟩
    · exact h.awaited.added ticket ((List.mem_cons.1 hticket).resolve_left (fun h => by cases h))
    · have hnot := hheld ticket ((List.mem_cons.1 hticket).resolve_left (fun h => by cases h))
      exact absurd (hnot.symm.trans hholds) Bool.false_ne_true
  · obtain rfl := Option.some.inj hs
    exact ⟨howned, ⟨h.awaited.accounts, h.awaited.added, fun ticket hticket hholds =>
      absurd ((hheld ticket hticket).symm.trans hholds) Bool.false_ne_true⟩, h.fired, h.cancelled,
      h.spaced, hretried⟩

/-- `addEvent`.  It is made where the fiber is about to add the event. -/
theorem Inv.register {a : Args} (h : t.Inv a) (hplace : t.call.place = .adding) {kernel : Kernel}
    {s' : HookedCall} (hs : t.call.register a kernel = some s') :
    Inv a ⟨s', seen (.addEvent kernel) t.call s' ++ t.log⟩ := by
  have hretried : Retried t.log := by
    have htold := h.told
    rw [hplace] at htold
    exact htold
  rcases h.awaited.register (by rw [hplace]; rfl) hs with
    rfl | ⟨hplace', htimers, htimer, hcancelled, hcallbacks, hawaited⟩
  · exact h.goto (Or.inr (Or.inr rfl)) (fun _ => rfl) (by rw [hplace]; nofun)
      ⟨hretried, List.mem_cons_self ..⟩
  · have hseen : seen (.addEvent kernel) t.call s' = [.registered s'.ticket] := by
      rw [seen, if_neg (by rw [hplace']; nofun)]
    rw [hseen]
    have howned := h.owned.goto (p := .yielding) (l := [.registered s'.ticket]) (by simp)
      fun _ => rfl
    refine ⟨howned.of_eq htimers htimer hplace', hawaited, ?_, ?_, h.spaced, ?_⟩
    · rw [hcancelled, hcallbacks]
      exact fun hout => (h.fired hout).append
    · rw [hcancelled]
      exact h.cancelled
    · rw [hplace']
      exact hretried

/-- `timer->cancel()`.  It is made after the wait, or after `addEvent` failed. -/
theorem Inv.cancelTimer {a : Args} (h : t.Inv a) {p : Place}
    (hplace : t.call.place.waiting = false) (htold : Told t.log p) :
    Inv a ⟨t.call.cancelTimer.goto p, t.log⟩ := by
  have hrest : t.call.cancelTimer.goto p =
      { t.call.goto p with timers := t.call.cancelTimer.timers } := by
    unfold HookedCall.cancelTimer
    split <;> rfl
  have howned := h.owned.cancelTimer p
  have hawaited := h.awaited.goto (l := []) (p := p) (by simp) fun _ _ hwaiting =>
    absurd (hplace.symm.trans hwaiting) Bool.false_ne_true
  rw [hrest] at howned ⊢
  exact ⟨howned, hawaited.of_eq rfl rfl rfl, h.fired, h.cancelled, h.spaced, htold⟩

/-- Timers fire.  Those of the call are logged. -/
theorem Inv.listExpiredCb {a : Args} (h : t.Inv a) (now probe : ℕ) :
    Inv a ⟨{ t.call with
      timers := (t.call.timers.listExpiredCb now probe).2
      callbacks := t.call.callbacks ++ t.call.ownCallbacks now probe },
      seen (.listExpiredCb now probe) t.call t.call ++ t.log⟩ := by
  have hseen : seen (.listExpiredCb now probe) t.call t.call =
      (((t.call.timers.listExpiredCb now probe).1.filter fun t => t.2 == some timeoutCb).map
        Prod.fst).map .fired := by
    rw [List.map_map]
    rfl
  have hfired : t.call.ownCallbacks now probe ≠ [] →
      Fired (seen (.listExpiredCb now probe) t.call t.call ++ t.log) := by
    intro hne
    obtain ⟨c, hc⟩ := List.exists_mem_of_ne_nil _ hne
    obtain ⟨⟨p, cb⟩, hp, -⟩ := List.mem_map.1 hc
    obtain ⟨hmem, hcb⟩ := List.mem_filter.1 hp
    obtain rfl := beq_iff_eq.1 hcb
    exact ⟨p, List.mem_append_right _ (h.owned.armed_of_expired hmem),
      List.mem_append_left _ (List.mem_map.2 ⟨(p, some timeoutCb), hp, rfl⟩)⟩
  have hawaited := h.awaited.goto (p := t.call.place)
    (l := seen (.listExpiredCb now probe) t.call t.call) (by simp [seen]) fun _ _ hwaiting => hwaiting
  rw [hseen] at hfired hawaited ⊢
  refine ⟨h.owned.listExpiredCb now probe, hawaited.of_eq rfl rfl rfl, ?_, h.cancelled,
    h.spaced.fired, h.told.fired _⟩
  rintro (hne | hne)
  · by_cases hold : t.call.callbacks = []
    · rw [hold, List.nil_append] at hne
      exact hfired hne
    · exact (h.fired (Or.inl hold)).append
  · exact (h.fired (Or.inr hne)).append

/-- A call on the events.  They are made by others, or by a callback of the call. -/
theorem Inv.exec {a : Args} (h : t.Inv a) {c : IOManager.Call} {r : IOManager.Answer}
    {m : IOManager} (hexec : t.call.events.exec c = .ok (r, m)) {l : List Phase}
    (hl : l ≠ [] → t.call.callbacks ≠ []) :
    Inv a ⟨{ t.call with events := m, callbacks := l }, t.log⟩ where
  owned := h.owned.of_eq rfl rfl rfl
  awaited := h.awaited.exec hexec
  fired := fun hout => h.fired (hout.imp hl id)
  cancelled := h.cancelled
  spaced := h.spaced
  told := h.told

/-- **A step** of `do_io` or of another worker keeps it.  One case for each step. -/
theorem Inv.step (h : t.Inv (.doIo fd event timeout)) {x : Step}
    (hstep : Traced.step (.doIo fd event timeout) (.step x) t = some t') :
    t'.Inv (.doIo fd event timeout) := by
  obtain ⟨s', hs, rfl⟩ := Option.map_eq_some_iff.1 hstep
  clear hstep
  have htold := h.told
  cases x with
  | call n errno =>
      obtain ⟨hplace, hs⟩ := Option.ite_none_right_eq_some.1 hs
      obtain rfl := Option.some.inj hs
      rw [hplace] at htold
      exact ⟨h.owned.goto (by simp [seen]) (by rw [hplace]; intro h; cases h),
        h.awaited.goto (by simp [seen]) (by rw [hplace]; intro _ _ h; cases h),
        fun hout => (h.fired hout).append, h.cancelled, ⟨htold.2, h.spaced⟩,
        htold.answered fd event timeout n errno⟩
  | addConditionTimer addr now =>
      obtain ⟨hplace, hs⟩ := Option.ite_none_right_eq_some.1 hs
      rw [hplace] at htold
      exact h.arm hplace hs
  | addEvent kernel =>
      obtain ⟨hplace, hs⟩ := Option.ite_none_right_eq_some.1 hs
      exact h.register hplace hs
  | yield =>
      obtain ⟨hplace, hs⟩ := Option.ite_none_right_eq_some.1 hs
      obtain rfl := Option.some.inj hs
      rw [hplace] at htold
      exact h.goto (Or.inl rfl) (fun _ => rfl) (fun _ _ _ => rfl) htold
  | resume =>
      obtain ⟨⟨hplace, hhanded⟩, hs⟩ := Option.ite_none_right_eq_some.1 hs
      obtain rfl := Option.some.inj hs
      rw [hplace] at htold
      refine h.goto (Or.inr (Or.inl rfl)) (fun _ => rfl) (fun hmem hreg _ => ?_) ⟨htold, trivial⟩
      exact absurd ((h.awaited.not_registered hmem hhanded).symm.trans hreg) Bool.false_ne_true
  | cancelTimer =>
      simp only [HookedCall.step] at hs
      split_ifs at hs with hresumed hfailed
      · obtain rfl := Option.some.inj hs
        rw [hresumed] at htold
        exact h.cancelTimer (by rw [hresumed]; rfl) htold
      · obtain rfl := Option.some.inj hs
        rw [hfailed] at htold
        exact h.cancelTimer (by rw [hfailed]; rfl) (Or.inr (Or.inr ⟨rfl, rfl, htold.1, htold.2⟩))
  | testCancelled =>
      obtain ⟨hplace, hs⟩ := Option.ite_none_right_eq_some.1 hs
      obtain rfl := Option.some.inj hs
      rw [hplace] at htold
      refine h.goto (Or.inl rfl) (by rw [hplace]; intro h; cases h)
        (by rw [hplace]; intro _ _ h; cases h) ?_
      split_ifs with hcancelled
      · rw [h.cancelled.resolve_left hcancelled]
        exact Or.inr (Or.inl ⟨rfl, rfl, htold.1, h.fired (Or.inr hcancelled)⟩)
      · exact htold
  | getsockopt error =>
      obtain ⟨hplace, hs⟩ := Option.ite_none_right_eq_some.1 hs
      rw [hplace] at htold
      exact htold.elim
  | listExpiredCb now probe =>
      obtain rfl := Option.some.inj hs
      exact h.listExpiredCb now probe
  | lock i =>
      obtain ⟨hi, hs⟩ := Option.ite_none_right_eq_some.1 hs
      obtain rfl := Option.some.inj hs
      exact h.callbacks (fun _ => ne_nil_of_getElem? hi) (Or.inl rfl)
  | test i =>
      obtain ⟨hi, hs⟩ := Option.ite_none_right_eq_some.1 hs
      obtain rfl := Option.some.inj hs
      exact h.callbacks (fun _ => ne_nil_of_getElem? hi) (Or.inl rfl)
  | mark i =>
      obtain ⟨hi, hs⟩ := Option.ite_none_right_eq_some.1 hs
      obtain rfl := Option.some.inj hs
      exact h.callbacks (fun _ => ne_nil_of_getElem? hi) (Or.inr ⟨rfl, ne_nil_of_getElem? hi⟩)
  | cancelEvent i kernel =>
      obtain ⟨hi, hs⟩ := Option.ite_none_right_eq_some.1 hs
      obtain ⟨m, hm, rfl⟩ := Option.map_eq_some_iff.1 hs
      obtain ⟨r, hexec⟩ := IOManager.exists_exec_of_step hm
      exact h.exec hexec fun _ => ne_nil_of_getElem? hi
  | timers c =>
      obtain ⟨hc, hs⟩ := Option.ite_none_right_eq_some.1 hs
      obtain rfl := Option.some.inj hs
      rw [Bool.and_eq_true] at hc
      exact ⟨h.owned.exec hc.1 hc.2, h.awaited.of_eq rfl rfl rfl, h.fired, h.cancelled, h.spaced,
        h.told⟩
  | events c =>
      obtain ⟨hforgets, hs⟩ := Option.ite_none_left_eq_some.1 hs
      obtain ⟨m, hm, rfl⟩ := Option.map_eq_some_iff.1 hs
      obtain ⟨r, hexec⟩ := IOManager.exists_exec_of_step hm
      exact h.exec hexec id

/-- Emptying a context that is not registered keeps the invariant. -/
theorem Inv.empty {a : Args} (h : t.Inv a) (fd : ℕ) (event : IOManager.Event) :
    Inv a ⟨{ t.call with events := emptied fd event t.call.events }, t.log⟩ where
  owned := h.owned.of_eq rfl rfl rfl
  awaited := h.awaited.emptied fd event
  fired := h.fired
  cancelled := h.cancelled
  spaced := h.spaced
  told := h.told

/-- A move keeps the invariant: a step, an emptied context, or `delEvent` of another thread. -/
theorem Inv.move (h : t.Inv (.doIo fd event timeout)) {x : Move}
    (hstep : Traced.step (.doIo fd event timeout) x t = some t') :
    t'.Inv (.doIo fd event timeout) := by
  cases x with
  | step x => exact h.step hstep
  | empty fd' event' =>
      obtain rfl := Option.some.inj hstep
      exact h.empty fd' event'
  | forget kernel =>
      obtain ⟨m, hm, rfl⟩ := Option.map_eq_some_iff.1 hstep
      obtain ⟨r, hexec⟩ := IOManager.exists_exec_of_step hm
      exact h.exec hexec id

end Steps

end Traced

/-- **`do_io` behaves as a blocking call**, in every run of the call among the other workers. Of
any number of steps, with any answers of the system call and of `epoll_ctl`, and for every
descriptor, event and timeout.  The function is `src/hiper/base/hook.cc:114-189`; the invariant
says for each of its program points what the descriptor, the timer and the event are. -/
theorem do_io_blocks (fd : ℕ) (event : IOManager.Event) (timeout : ℕ) (heap : TimerPtr → Timer)
    (n : ℕ) (t : Traced)
    (h : Reachable (Traced.step (.doIo fd event timeout)) (Traced.init heap n) t) :
    Blocks (.doIo fd event timeout) t := by
  have hinv : t.Inv (.doIo fd event timeout) :=
    h.invariant (Traced.init_inv _ heap n) fun _ _ _ hI hs => hI.move hs
  exact hinv.blocks

/-- An interrupted `recv` waits, its timer fires when the event was handed over, and it waits
again; then the callback of the first timer runs, and the call has timed out.  It is a run of
eighteen moves. -/
def waitsTwice : List Traced.Move :=
  [Step.call (-1) eintr, .call (-1) eagain, .addConditionTimer 0 5, .addEvent accepts, .yield,
      .events (.dispatch accepts 0 ⟨true, false, false, false⟩), .listExpiredCb 15 0, .resume,
      .cancelTimer, .testCancelled, .call (-1) eagain].map .step ++
    [.empty 0 .read] ++
    [Step.addConditionTimer 1 15, .addEvent accepts, .yield, .lock 0, .test 0, .mark 0,
      .cancelEvent 0 accepts, .resume, .cancelTimer, .testCancelled].map .step

/-- In such a run the call returns -1 with `ETIMEDOUT`, and has neither a timer nor a
registration. -/
theorem do_io_blocks_waitsTwice : ∃ t : Traced,
    run (Traced.step recv) waitsTwice (Traced.init Manager.blank 1) = some t ∧
      t.call.place = .returned (-1) (some etimedout) ∧ .fired 0 ∈ t.log ∧ .armed 1 ∈ t.log ∧
      t.call.timers.timers = [] ∧ Blocks recv t := by
  obtain ⟨t, ht, hplace, hfired, harmed, htimers⟩ : ∃ t : Traced,
      run (Traced.step recv) waitsTwice (Traced.init Manager.blank 1) = some t ∧
        t.call.place = .returned (-1) (some etimedout) ∧ .fired 0 ∈ t.log ∧ .armed 1 ∈ t.log ∧
        t.call.timers.timers = [] := by
    refine ⟨_, rfl, rfl, ?_, ?_, rfl⟩ <;> decide
  exact ⟨t, ht, hplace, hfired, harmed, htimers,
    do_io_blocks 0 .read 10 Manager.blank 1 t (Reachable.init.run ht)⟩

end Hiper.HookedCall

import Hiper.IOManager.Cases
import Mathlib.Algebra.BigOperators.Group.List.Basic
import Mathlib.Algebra.Order.Group.Int
import Mathlib.Algebra.Ring.Int.Defs

/-!
# The account of the registrations

`pending_event_count_` counts the registered bits, and every registration has one
end: it still waits in its context, or `delEvent` forgot it, or it was handed to
the scheduler it was made with, once.  `Accounts` says so of the contexts, the
count and the ledger; a registration and an end of one keep it (`Accounts.add`,
`Accounts.remove`), so it holds in every state reached
(`registration_accounting`), whatever the masks that are dispatched: those that
would break it end the process.

The source is `src/hiper/base/iomanager.cc:140-329` and the loop of `idle` (`:432-476`).  A
registration has its number since two of them may have the same callback; the ledger is
written by the model alone, one entry where `addEvent` fills a context, one where `delEvent`
empties it and one where `schedule` gets what it holds.
-/

namespace Hiper.IOManager

open Lib

/-- The number of bits set in `events`.  0, 1 or 2. -/
def FdContext.bits (c : FdContext) : ℤ :=
  (if c.events .read then 1 else 0) + (if c.events .write then 1 else 0)

/-- The number of bits set in all contexts.  `pending_event_count_` should be this. -/
def registered (m : IOManager) : ℤ := (m.fdContexts.map FdContext.bits).sum

/-- The entry ends the registration with this ticket.  A registration is added with it, and
ended once. -/
def Entry.ends (ticket : ℕ) : Entry → Bool
  | added _ _ _ _ => false
  | deleted t => t == ticket
  | handed _ w => w.ticket == ticket

/-- `w` waits for `event` of `fd`.  Its bit is set and its context has it. -/
def holds (m : IOManager) (fd : ℕ) (event : Event) (w : Waiter) : Bool :=
  match m.fdContexts[fd]? with
  | none => false
  | some c => c.events event && (c.getContext event).waiter == some w

/-- What a call that answers `a` writes to the ledger.  They are told by the arguments, the
answer and the contexts before. -/
def entries (m : IOManager) (call : Call) (a : Answer) : List Entry :=
  match m.fdContexts[call.fd]? with
  | none => []
  | some c =>
    match call, a with
    | .addEvent _ scheduler self fd event cb, .int 0 =>
      [.added fd event scheduler (m.newWaiter cb self)]
    | .delEvent _ _ event, .bool true =>
      (c.getContext event).waiter.toList.map fun w => .deleted w.ticket
    | .cancelEvent _ _ event, .bool true => handedOver (c.getContext event)
    | .cancelAll _ _, .bool true =>
      ([Event.read, .write].filter c.events).flatMap fun e => handedOver (c.getContext e)
    | .dispatch _ _ _, .triggered es => es.flatMap fun e => handedOver (c.getContext e)
    | _, _ => []

/-- The contexts, the count and the ledger agree.  It is the invariant of every run. -/
structure Accounts (m : IOManager) : Prop where
  pending_eq : m.pendingEventCount = m.registered
  clear : ∀ (fd : ℕ) (c : FdContext) e, m.fdContexts[fd]? = some c → c.events e = false →
    (c.getContext e).fiber = none ∧ (c.getContext e).cb = none
  set : ∀ (fd : ℕ) (c : FdContext) e, m.fdContexts[fd]? = some c → c.events e = true →
    ((c.getContext e).fiber = none ∨ (c.getContext e).cb = none) ∧
      ∃ w, (c.getContext e).waiter = some w ∧ .added fd e (c.getContext e).scheduler w ∈ m.ledger
  once : ∀ fd e scheduler w, .added fd e scheduler w ∈ m.ledger →
    m.ledger.countP (Entry.ends w.ticket) + (if m.holds fd e w then 1 else 0) = 1
  handed : ∀ scheduler w, .handed scheduler w ∈ m.ledger →
    ∃ fd e, .added fd e (some scheduler) w ∈ m.ledger
  ticket : ∀ fd e scheduler w, .added fd e scheduler w ∈ m.ledger →
    m.ledger[w.ticket]? = some (.added fd e scheduler w)
  ended : ∀ t, ∀ x ∈ m.ledger, Entry.ends t x = true → t < m.ledger.length

/-- A sum in which one summand changes. -/
theorem sum_map_set {α : Type} (f : α → ℤ) {l : List α} {i : ℕ} {a : α} (h : l[i]? = some a)
    (b : α) : ((l.set i b).map f).sum = (l.map f).sum + f b - f a := by
  induction l generalizing i with
  | nil => simp at h
  | cons x l ih =>
      cases i with
      | zero =>
          rw [List.getElem?_cons_zero, Option.some_inj] at h
          rw [h, List.set_cons_zero, List.map_cons, List.map_cons, List.sum_cons, List.sum_cons]
          omega
      | succ i =>
          rw [List.getElem?_cons_succ] at h
          rw [List.set_cons_succ, List.map_cons, List.map_cons, List.sum_cons, List.sum_cons, ih h]
          omega

/-- It holds of fresh contexts, with an empty ledger. -/
theorem init_accounts (n : ℕ) : (init n).Accounts where
  pending_eq := by
    simp [init, registered, FdContext.bits, FdContext.new]
  clear := by
    intro fd c e hc _
    rw [List.eq_of_mem_replicate (List.mem_of_getElem? hc)]
    exact ⟨rfl, rfl⟩
  set := by
    intro fd c e hc hbit
    rw [List.eq_of_mem_replicate (List.mem_of_getElem? hc)] at hbit
    cases hbit
  once := by
    intro fd e scheduler w h
    cases h
  handed := by
    intro scheduler w h
    cases h
  ticket := by
    intro fd e scheduler w h
    cases h
  ended := by
    intro t x h
    cases h

variable {m m' : IOManager} {fd : ℕ} {c c' : FdContext} {event : Event}

/-! ### One slot changes -/

/-- `m'` is `m` with another context for `fd`, which differs at `event` only.  Every call that
does something does this once or twice. -/
structure SlotChange (m m' : IOManager) (fd : ℕ) (event : Event) (c c' : FdContext) : Prop where
  get : m.fdContexts[fd]? = some c
  set_eq : m'.fdContexts = m.fdContexts.set fd c'
  events_eq : ∀ e, e ≠ event → c'.events e = c.events e
  context_eq : ∀ e, e ≠ event → c'.getContext e = c.getContext e

namespace SlotChange

variable (h : SlotChange m m' fd event c c')

include h

/-- The context of `fd` is the new one. -/
theorem get_self : m'.fdContexts[fd]? = some c' := by
  rw [h.set_eq]
  exact List.getElem?_set_self (lt_of_getElem? h.get)

/-- A context of `m'`, at a slot that did not change, is one of `m`.  Its event is the same,
too. -/
theorem get_other {fd' : ℕ} {e : Event} {c'' : FdContext} (hget : m'.fdContexts[fd']? = some c'')
    (hne : ¬(fd' = fd ∧ e = event)) :
    ∃ c₀, m.fdContexts[fd']? = some c₀ ∧ c''.events e = c₀.events e ∧
      c''.getContext e = c₀.getContext e := by
  by_cases hfd : fd' = fd
  · have he : e ≠ event := fun he => hne ⟨hfd, he⟩
    rw [hfd, h.get_self, Option.some_inj] at hget
    rw [hfd, ← hget]
    exact ⟨c, h.get, h.events_eq e he, h.context_eq e he⟩
  · rw [h.set_eq, List.getElem?_set_ne (Ne.symm hfd)] at hget
    exact ⟨c'', hget, rfl, rfl⟩

/-- At another slot the same one waits. -/
theorem holds_other {fd' : ℕ} {e : Event} (hne : ¬(fd' = fd ∧ e = event)) (w : Waiter) :
    m'.holds fd' e w = m.holds fd' e w := by
  unfold holds
  by_cases hfd : fd' = fd
  · have he : e ≠ event := fun he => hne ⟨hfd, he⟩
    rw [hfd, h.get_self, h.get]
    dsimp only
    rw [h.events_eq e he, h.context_eq e he]
  · rw [h.set_eq, List.getElem?_set_ne (Ne.symm hfd)]

/-- At the slot the one in the new context waits. -/
theorem holds_self (w : Waiter) :
    m'.holds fd event w = (c'.events event && (c'.getContext event).waiter == some w) := by
  unfold holds
  rw [h.get_self]

/-- At the slot the one in the old context waited. -/
theorem holds_before (w : Waiter) :
    m.holds fd event w = (c.events event && (c.getContext event).waiter == some w) := by
  unfold holds
  rw [h.get]

/-- Who waits elsewhere, or is not the waiter of the slot, is where he was.  The waiter of the
slot is known before and behind the change. -/
theorem holds_of_ne {w w' : Waiter} (hne : w' ≠ w)
    (hbefore : c.events event = true → (c.getContext event).waiter = some w)
    (hafter : c'.events event = true → (c'.getContext event).waiter = some w) (fd' : ℕ) (e : Event) :
    m'.holds fd' e w' = m.holds fd' e w' := by
  by_cases hself : fd' = fd ∧ e = event
  · obtain ⟨rfl, rfl⟩ := hself
    have hnot : ∀ d : FdContext, (d.events e = true → (d.getContext e).waiter = some w) →
        (d.events e && (d.getContext e).waiter == some w') = false := by
      intro d hd
      rw [Bool.and_eq_false_imp]
      intro hbit
      rw [hd hbit]
      exact beq_false_of_ne fun heq => hne (Option.some.inj heq).symm
    rw [h.holds_self, h.holds_before, hnot c hbefore, hnot c' hafter]
  · exact h.holds_other hself w'

/-- One bit changes in the sum.  It is set or cleared. -/
theorem registered_eq : m'.registered =
    m.registered + (if c'.events event then 1 else 0) - (if c.events event then 1 else 0) := by
  rw [registered, h.set_eq, sum_map_set _ h.get, registered, FdContext.bits, FdContext.bits]
  cases event with
  | read =>
      rw [h.events_eq .write (by decide)]
      omega
  | write =>
      rw [h.events_eq .read (by decide)]
      omega

end SlotChange

/-- What holds of the new slot, and held of the others, holds of every slot. -/
theorem forall_of_change (h : SlotChange m m' fd event c c') {p : Bool → EventContext → ℕ → Event → Prop}
    (hself : p (c'.events event) (c'.getContext event) fd event)
    (hother : ∀ (fd' : ℕ) (c₀ : FdContext) (e : Event), m.fdContexts[fd']? = some c₀ →
      p (c₀.events e) (c₀.getContext e) fd' e) :
    ∀ (fd' : ℕ) (c'' : FdContext) (e : Event), m'.fdContexts[fd']? = some c'' →
      p (c''.events e) (c''.getContext e) fd' e := by
  intro fd' c'' e hget
  by_cases hne : fd' = fd ∧ e = event
  · obtain ⟨rfl, rfl⟩ := hne
    rw [h.get_self, Option.some_inj] at hget
    exact hget ▸ hself
  · obtain ⟨c₀, hget₀, hevents, hctx⟩ := h.get_other hget hne
    rw [hevents, hctx]
    exact hother fd' c₀ e hget₀

/-! ### One entry more -/

section Append

variable {x : Entry} (hm : m.Accounts) (hledger : m'.ledger = m.ledger ++ [x])

include hm hledger

/-- A registration keeps its entry when the ledger grows. -/
theorem set_append {c₀ : FdContext} {fd' : ℕ} {e : Event} (hget : m.fdContexts[fd']? = some c₀)
    (hset : c₀.events e = true) :
    ((c₀.getContext e).fiber = none ∨ (c₀.getContext e).cb = none) ∧
      ∃ w, (c₀.getContext e).waiter = some w ∧
        .added fd' e (c₀.getContext e).scheduler w ∈ m'.ledger := by
  obtain ⟨hone, w, hw, hin⟩ := hm.set fd' c₀ e hget hset
  exact ⟨hone, w, hw, hledger ▸ List.mem_append_left _ hin⟩

/-- What was handed over was registered, when the ledger grows by entries of which that is true. -/
theorem handed_append
    (hx : ∀ s w, x = .handed s w → ∃ fd e, .added fd e (some s) w ∈ m.ledger) (s : SchedulerPtr)
    (w : Waiter) (hin : .handed s w ∈ m'.ledger) : ∃ fd e, .added fd e (some s) w ∈ m'.ledger := by
  rw [hledger, List.mem_append, List.mem_singleton] at hin
  have hold : ∃ fd e, .added fd e (some s) w ∈ m.ledger :=
    hin.elim (hm.handed s w) fun heq => hx s w heq.symm
  obtain ⟨fd, e, hadded⟩ := hold
  exact ⟨fd, e, hledger ▸ List.mem_append_left _ hadded⟩

/-- A ticket is the place of its entry, also when the ledger grows. -/
theorem ticket_append {fd' : ℕ} {e : Event} {s : Option SchedulerPtr} {w : Waiter}
    (hin : .added fd' e s w ∈ m.ledger) : m'.ledger[w.ticket]? = some (.added fd' e s w) := by
  have hget := hm.ticket _ _ _ _ hin
  rwa [hledger, List.getElem?_append_left (List.getElem?_eq_some_iff.1 hget).1]

/-- What was ended has a ticket of the ledger, also when it grows. -/
theorem ended_append (hx : ∀ t, Entry.ends t x = true → t < m.ledger.length) (t : ℕ) (y : Entry)
    (hy : y ∈ m'.ledger) (hends : Entry.ends t y = true) : t < m'.ledger.length := by
  rw [hledger, List.mem_append, List.mem_singleton] at hy
  rw [hledger, List.length_append]
  rcases hy with hy | rfl
  · exact Nat.lt_add_right _ (hm.ended t y hy hends)
  · exact Nat.lt_add_right _ (hx t hends)

end Append

/-- **A registration keeps the account**: its bit is new, its ticket is the next one, and the
count goes up by one. -/
theorem Accounts.add (hm : m.Accounts) (h : SlotChange m m' fd event c c')
    {scheduler : Option SchedulerPtr} {w : Waiter} (hbit : c.events event = false)
    (hbit' : c'.events event = true) (hcontext : c'.getContext event = newContext scheduler w)
    (hticket : w.ticket = m.ledger.length) (hpending : m'.pendingEventCount = m.pendingEventCount + 1)
    (hledger : m'.ledger = m.ledger ++ [.added fd event scheduler w]) : m'.Accounts := by
  have hwaiter : (c'.getContext event).waiter = some w := by
    rw [hcontext]
    cases w <;> rfl
  have hscheduler : (c'.getContext event).scheduler = scheduler := by
    rw [hcontext]
    cases w <;> rfl
  have hmem : ∀ fd' e s w', .added fd' e s w' ∈ m'.ledger →
      .added fd' e s w' ∈ m.ledger ∨ fd' = fd ∧ e = event ∧ s = scheduler ∧ w' = w := by
    intro fd' e s w' hin
    rw [hledger, List.mem_append, List.mem_singleton] at hin
    exact hin.imp_right fun heq => by injection heq with h₁ h₂ h₃ h₄; exact ⟨h₁, h₂, h₃, h₄⟩
  constructor
  case pending_eq =>
    rw [hpending, hm.pending_eq, h.registered_eq, hbit, hbit']
    simp
  case clear =>
    refine forall_of_change (p := fun b x _ _ => b = false → x.fiber = none ∧ x.cb = none) h ?_ hm.clear
    intro hclear
    rw [hbit'] at hclear
    cases hclear
  case set =>
    refine forall_of_change (p := fun b x fd' e => b = true → (x.fiber = none ∨ x.cb = none) ∧
      ∃ w', x.waiter = some w' ∧ .added fd' e x.scheduler w' ∈ m'.ledger) h ?_
      fun _ _ _ => set_append hm hledger
    refine fun _ => ⟨?_, w, hwaiter, ?_⟩
    · rw [hcontext]
      cases w with
      | fiber t => exact Or.inr rfl
      | cb t => exact Or.inl rfl
    · rw [hledger, hscheduler]
      exact List.mem_append_right _ (List.mem_singleton_self _)
  case once =>
    intro fd' e s w' hin
    have hcount : m'.ledger.countP (Entry.ends w'.ticket) = m.ledger.countP (Entry.ends w'.ticket) := by
      rw [hledger, List.countP_append]
      rfl
    rw [hcount]
    rcases hmem fd' e s w' hin with hold | ⟨rfl, rfl, rfl, rfl⟩
    · have hlt : w'.ticket < m.ledger.length := (List.getElem?_eq_some_iff.1 (hm.ticket _ _ _ _ hold)).1
      have hne : w' ≠ w := fun heq => by rw [heq, hticket] at hlt; exact Nat.lt_irrefl _ hlt
      have hclear : c.events event = true → (c.getContext event).waiter = some w := fun hset => by
        rw [hbit] at hset
        cases hset
      rw [h.holds_of_ne hne hclear (fun _ => hwaiter) fd' e]
      exact hm.once _ _ _ _ hold
    · -- the ticket is new, so nothing has ended it yet
      have hzero : m.ledger.countP (Entry.ends w'.ticket) = 0 := by
        rw [List.countP_eq_zero]
        intro x hx hends
        have hlt := hm.ended _ x hx hends
        rw [hticket] at hlt
        exact Nat.lt_irrefl _ hlt
      rw [hzero, h.holds_self, hbit', hwaiter]
      simp
  case handed => exact handed_append hm hledger nofun
  case ticket =>
    intro fd' e s w' hin
    rcases hmem fd' e s w' hin with hold | ⟨rfl, rfl, rfl, rfl⟩
    · exact ticket_append hm hledger hold
    · rw [hledger, hticket, List.getElem?_concat_length]
  case ended => exact ended_append hm hledger fun t hends => absurd hends Bool.false_ne_true

/-- **The end of a registration keeps the account**: its bit goes, its context is left without a
waiter, the ledger tells how, and the count goes down by one. -/
theorem Accounts.remove (hm : m.Accounts) (h : SlotChange m m' fd event c c') {w : Waiter} {x : Entry}
    (hbit : c.events event = true) (hwaiter : (c.getContext event).waiter = some w)
    (hbit' : c'.events event = false)
    (hempty : (c'.getContext event).fiber = none ∧ (c'.getContext event).cb = none)
    (hadded : ∀ fd' e s w', x ≠ .added fd' e s w')
    (hends : ∀ t, Entry.ends t x = true ↔ t = w.ticket)
    (hhanded : ∀ s w', x = .handed s w' → w' = w ∧ (c.getContext event).scheduler = some s)
    (hpending : m'.pendingEventCount = m.pendingEventCount - 1)
    (hledger : m'.ledger = m.ledger ++ [x]) : m'.Accounts := by
  obtain ⟨-, w₀, hw₀, hregistered⟩ := hm.set fd c event h.get hbit
  obtain rfl : w₀ = w := Option.some.inj (hw₀.symm.trans hwaiter)
  have hmem : ∀ fd' e s w', .added fd' e s w' ∈ m'.ledger → .added fd' e s w' ∈ m.ledger := by
    intro fd' e s w' hin
    rw [hledger, List.mem_append, List.mem_singleton] at hin
    exact hin.resolve_right fun heq => hadded _ _ _ _ heq.symm
  have hcount : ∀ t, m'.ledger.countP (Entry.ends t) =
      m.ledger.countP (Entry.ends t) + if Entry.ends t x = true then 1 else 0 := by
    intro t
    rw [hledger, List.countP_append, List.countP_singleton]
  have hclear : c'.events event = true → (c'.getContext event).waiter = some w₀ := fun hset => by
    rw [hbit'] at hset
    cases hset
  constructor
  case pending_eq =>
    rw [hpending, hm.pending_eq, h.registered_eq, hbit, hbit']
    simp
  case clear =>
    exact forall_of_change (p := fun b x _ _ => b = false → x.fiber = none ∧ x.cb = none) h
      (fun _ => hempty) hm.clear
  case set =>
    refine forall_of_change (p := fun b x fd' e => b = true → (x.fiber = none ∨ x.cb = none) ∧
      ∃ w', x.waiter = some w' ∧ .added fd' e x.scheduler w' ∈ m'.ledger) h ?_
      fun _ _ _ => set_append hm hledger
    intro hset
    rw [hbit'] at hset
    cases hset
  case once =>
    intro fd' e s w' hin
    have hold := hmem fd' e s w' hin
    have honce := hm.once _ _ _ _ hold
    rw [hcount]
    by_cases hticket : w'.ticket = w₀.ticket
    · -- the registration that ends: its ticket names it
      have hsame : Entry.added fd' e s w' = .added fd event (c.getContext event).scheduler w₀ := by
        have hget := hm.ticket _ _ _ _ hold
        rw [hticket, hm.ticket _ _ _ _ hregistered, Option.some_inj] at hget
        exact hget.symm
      injection hsame with hfd he hs hw
      subst hfd he hw
      rw [h.holds_before, hbit, hwaiter] at honce
      rw [h.holds_self, hbit', if_pos ((hends _).2 rfl)]
      simpa using honce
    · have hne : w' ≠ w₀ := fun heq => hticket (congrArg _ heq)
      rw [h.holds_of_ne hne (fun _ => hwaiter) hclear fd' e,
        if_neg fun hx => hticket ((hends _).1 hx)]
      exact honce
  case handed =>
    refine handed_append hm hledger fun s w' heq => ?_
    obtain ⟨rfl, hscheduler⟩ := hhanded s w' heq
    exact ⟨fd, event, hscheduler ▸ hregistered⟩
  case ticket => exact fun fd' e s w' hin => ticket_append hm hledger (hmem fd' e s w' hin)
  case ended =>
    refine ended_append hm hledger fun t hends' => ?_
    rw [(hends t).1 hends']
    exact (List.getElem?_eq_some_iff.1 (hm.ticket _ _ _ _ hregistered)).1

/-! ### Calls -/

/-- `addEvent` keeps the account. -/
theorem afterAdd_accounts (hm : m.Accounts) (hc : m.fdContexts[fd]? = some c)
    (hbit : c.events event = false) (scheduler : Option SchedulerPtr) (cb : Option ℕ) (self : ℕ) :
    (m.afterAdd scheduler fd event (m.newWaiter cb self) c).Accounts := by
  refine hm.add (w := m.newWaiter cb self) ⟨hc, rfl, ?_, ?_⟩ hbit ?_ ?_ ?_
    rfl rfl
  · exact fun e he => FdContext.setEvent_events_of_ne true he
  · exact fun e he => FdContext.getContext_setContext_of_ne _ he
  · exact FdContext.setEvent_events_self true
  · exact FdContext.getContext_setContext_self _
  · cases cb <;> rfl

/-- `delEvent` keeps the account. -/
theorem afterDel_accounts (hm : m.Accounts) (hc : m.fdContexts[fd]? = some c)
    (hbit : c.events event = true) : (m.afterDel fd event c).Accounts := by
  obtain ⟨-, w, hwaiter, -⟩ := hm.set fd c event hc hbit
  refine hm.remove (x := .deleted w.ticket) ⟨hc, rfl, ?_, ?_⟩ hbit hwaiter ?_ ?_ nofun ?_ nofun rfl ?_
  · exact fun e he => FdContext.setEvent_events_of_ne false he
  · exact fun e he => FdContext.getContext_setContext_of_ne _ he
  · exact FdContext.setEvent_events_self false
  · rw [FdContext.resetContext, FdContext.getContext_setContext_self]
    exact ⟨rfl, rfl⟩
  · intro t
    rw [Entry.ends, beq_iff_eq]
    exact eq_comm
  · rw [afterDel, hwaiter]
    rfl

/-- A trigger hands over what the registration brought.  To the scheduler it was made with. -/
theorem handedOver_eq {ctx : EventContext} {scheduler : SchedulerPtr} {w : Waiter}
    (hscheduler : ctx.scheduler = some scheduler) (hwaiter : ctx.waiter = some w) :
    handedOver ctx = [.handed scheduler w] := by
  rw [handedOver, hscheduler, hwaiter]

/-- `schedule` leaves a context with one waiter without any.  The scheduler is left. -/
theorem swapped_empty {ctx : EventContext} (hone : ctx.fiber = none ∨ ctx.cb = none) :
    ctx.swapped.fiber = none ∧ ctx.swapped.cb = none := by
  unfold EventContext.swapped
  cases hcb : ctx.cb with
  | none => exact ⟨rfl, rfl⟩
  | some cb =>
      refine ⟨hone.resolve_right ?_, rfl⟩
      rw [hcb]
      exact nofun

/-- One bit that is triggered keeps the account. -/
theorem afterBit_accounts (hm : m.Accounts) (hc : m.fdContexts[fd]? = some c)
    {bits : Event → Bool} (hcan : bits event = true → c.CanTrigger event) :
    (m.afterBit fd bits event c).Accounts := by
  unfold afterBit
  split_ifs with hbits
  · obtain ⟨hbit, hscheduler⟩ := hcan hbits
    obtain ⟨scheduler, hscheduler⟩ := Option.isSome_iff_exists.1 hscheduler
    obtain ⟨hone, w, hwaiter, -⟩ := hm.set fd c event hc hbit
    refine hm.remove (x := .handed scheduler w) ⟨hc, rfl, ?_, ?_⟩ hbit hwaiter ?_ ?_ nofun ?_ ?_ rfl ?_
    · exact fun e he => FdContext.triggered_events_of_ne he
    · exact fun e he => FdContext.getContext_triggered_of_ne he
    · exact FdContext.triggered_events_self
    · rw [FdContext.triggered, FdContext.getContext_setContext_self]
      exact swapped_empty hone
    · intro t
      rw [Entry.ends, beq_iff_eq]
      exact eq_comm
    · rintro s w' heq
      injection heq with hs hw
      exact ⟨hw.symm, hs ▸ hscheduler⟩
    · rw [decPending, afterTrigger, handedOver_eq hscheduler hwaiter]
  · exact hm

/-- The two bits keep the account, one after the other. -/
theorem afterBits_accounts (hm : m.Accounts) (hc : m.fdContexts[fd]? = some c)
    {bits : Event → Bool} (hcan : ∀ e, bits e = true → c.CanTrigger e) :
    (m.afterBits fd bits c).Accounts :=
  afterBit_accounts (afterBit_accounts hm hc (hcan .read)) (afterBit_fdContexts hc bits)
    fun hbit => (canTrigger_bitTriggered bits).2 (hcan .write hbit)

/-- **Every call keeps the account.**  By cases on what it can do. -/
theorem Accounts.exec (hm : m.Accounts) {call : Call} {a : Answer}
    (h : m.exec call = .ok (a, m')) : m'.Accounts := by
  cases outcome_of_exec h with
  | nothing => exact hm
  | add hc hbit hempty hkernel => exact afterAdd_accounts hm hc hbit _ _ _
  | del hc hbit => exact afterDel_accounts hm hc hbit
  | trigger hc htriggers hcan hsome => exact afterBits_accounts hm hc hcan

/-- The two triggers write what they hand over, `READ` first. -/
theorem afterBits_ledger (bits : Event → Bool) (c : FdContext) :
    (m.afterBits fd bits c).ledger = m.ledger ++
      ([Event.read, Event.write].filter bits).flatMap fun e => handedOver (c.getContext e) := by
  have hother : (c.triggered .read).getContext .write = c.getContext .write :=
    FdContext.getContext_triggered_of_ne (by decide)
  unfold afterBits afterBit bitTriggered
  cases hread : bits .read <;> cases hwrite : bits .write <;>
    simp [hread, hwrite, decPending, afterTrigger, hother]

/-- What a call writes to the ledger.  Nothing is taken out of it. -/
theorem ledger_exec {call : Call} {a : Answer} (h : m.exec call = .ok (a, m')) :
    m'.ledger = m.ledger ++ m.entries call a := by
  cases outcome_of_exec h with
  | nothing htriggers ha =>
      have hnone : m.entries call a = [] := by
        unfold entries
        split
        · rfl
        · rcases ha with rfl | rfl | rfl <;> cases call <;> rfl
      rw [hnone, List.append_nil]
  | add hc hbit hempty hkernel =>
      rw [entries, Call.fd, hc]
      rfl
  | del hc hbit =>
      rw [entries, Call.fd, hc]
      rfl
  | @trigger call c hc htriggers hcan hsome =>
      rw [afterBits_ledger, entries, hc]
      cases call with
      | cancelEvent kernel fd event => cases event <;> simp [Call.answered, Call.bits]
      | cancelAll kernel fd => rfl
      | dispatch kernel fd mask => rfl
      | _ =>
          obtain ⟨e, he⟩ := hsome
          cases he

/-- A call that answers -1 or false changed nothing.  So a caller may try again. -/
theorem eq_of_refused {call : Call} {a : Answer} (h : m.exec call = .ok (a, m'))
    (ha : a = .int (-1) ∨ a = .bool false) : m' = m := by
  cases outcome_of_exec h with
  | nothing => rfl
  | add => rcases ha with ha | ha <;> cases ha
  | del => rcases ha with ha | ha <;> cases ha
  | @trigger call _ _ _ _ _ => cases call <;> rcases ha with ha | ha <;> cases ha

/-- Every state reached has it.  The induction is over the run. -/
theorem Reachable.accounts {n : ℕ} (h : Reachable step (init n) m) : m.Accounts := by
  refine h.invariant (init_accounts n) fun m m' call hm hstep => ?_
  obtain ⟨a, hexec⟩ := exists_exec_of_step hstep
  exact hm.exec hexec

/-- **The account of the registrations**, in every state that calls of `addEvent`, `delEvent`,
`cancelEvent`, `cancelAll` and dispatches lead to, from a manager of any size:
`pending_event_count_` is the number of registered bits, a call that fails changes nothing, a
call writes what it should to the ledger, and each registration waits where it was made, or was
deleted, or was handed over, once, to its own scheduler.  The functions are
`src/hiper/base/iomanager.cc:140-329` and the dispatch in `:408-471`; the ledger is an account
of what they did to each registration, which the code does not keep. -/
theorem registration_accounting (n : ℕ) (m : IOManager) (h : Reachable step (init n) m) :
    m.pendingEventCount = m.registered ∧
    (∀ call a m', m.exec call = .ok (a, m') → a = .int (-1) ∨ a = .bool false → m' = m) ∧
    (∀ call a m', m.exec call = .ok (a, m') → m'.ledger = m.ledger ++ m.entries call a) ∧
    (∀ fd event scheduler w, .added fd event scheduler w ∈ m.ledger →
      m.ledger.countP (Entry.ends w.ticket) + (if m.holds fd event w then 1 else 0) = 1) ∧
    ∀ scheduler w, .handed scheduler w ∈ m.ledger →
      ∃ fd event, .added fd event (some scheduler) w ∈ m.ledger :=
  have hm := Reachable.accounts h
  ⟨hm.pending_eq, fun _ _ _ => eq_of_refused, fun _ _ _ => ledger_exec, hm.once, hm.handed⟩

/-- `READ` and `WRITE` wait, `READ` is dispatched, `WRITE` deleted. -/
theorem registration_accounting_run :
    ∃ m, Reachable step (init 2) m ∧ m.pendingEventCount = m.registered ∧
      m.ledger = [.added 0 .read (some 1) (.cb ⟨0, 7⟩), .added 0 .write (some 2) (.fiber ⟨1, 5⟩),
        .handed 1 (.cb ⟨0, 7⟩), .deleted 1] := by
  obtain ⟨m, hreach, hm⟩ := exists_reachable_of_run step (init 2)
    [.addEvent (fun _ => true) (some 1) 5 0 .read (some 7),
      .addEvent (fun _ => true) (some 2) 5 0 .write none,
      .dispatch (fun _ => true) 0 ⟨true, false, false, false⟩, .delEvent (fun _ => true) 0 .write]
    (fun m => m.ledger = [.added 0 .read (some 1) (.cb ⟨0, 7⟩),
      .added 0 .write (some 2) (.fiber ⟨1, 5⟩), .handed 1 (.cb ⟨0, 7⟩), .deleted 1]) (by decide)
  exact ⟨m, hreach, (registration_accounting 2 m hreach).1, of_decide_eq_true hm⟩

end Hiper.IOManager

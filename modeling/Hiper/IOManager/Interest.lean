import Hiper.IOManager.Account
import Mathlib.Algebra.Order.BigOperators.Group.List

/-!
# What the kernel watches

The kernel keeps its own table beside `fd_contexts_`: the events that the epoll
instance watches of each open descriptor (`Epoll`).  It refuses an `ADD` for what
is watched already and a `MOD` or a `DEL` for what is not, and when a descriptor is
closed it forgets it, without telling the manager.  A state of both (`Watched`)
goes on by the calls of the manager, by descriptors that open, and by `close`,
which calls `cancelAll` first where it is hooked.

The two tables agree at a descriptor in every state of a run exactly when every
`close` of it finds its events cancelled (`synced_iff_clean`).  After one that does
not, the manager never gets rid of the registration: every call for the descriptor
is refused, whatever is opened under the number later, and the count stays above
zero (`stranded_forever`).

The `close` that is hooked is `src/hiper/base/hook.cc`'s, which calls `cancelAll`
(`src/hiper/base/iomanager.cc:284`) and then the one of the system; a descriptor without a
`FdCtx` in the hook's table is closed without it.  `epoll_ctl` may fail for other reasons
too, so that an answer of the kernel stays an argument of each call, beside what `accepts`
refuses.
-/

namespace Hiper.IOManager

open Lib

/-- The kernel's side: the open descriptors, and what is watched of each.

Every number has a file description of its own here.  The kernel keeps what is watched with the
description, not with the number, so that a descriptor which was duplicated with `dup` or passed
to another process stays watched when one of its numbers is closed; such descriptors are outside
of this model. -/
structure Epoll where
  isOpen : ℕ → Bool
  interest : ℕ → Option (Event → Bool)

namespace Epoll

/-- What `epoll_ctl` needs: `ADD` an open descriptor that is not watched (else `EBADF`,
`EEXIST`), `MOD` and `DEL` one that is (else `ENOENT`).  A `MOD` tells all the bits that are to
be watched. -/
def accepts (x : EpollCtl) (k : Epoll) : Bool :=
  match x.op with
  | .add => k.isOpen x.fd && (k.interest x.fd).isNone
  | .mod => (k.interest x.fd).isSome
  | .del => (k.interest x.fd).isSome

/-- `epoll_ctl`, where it succeeds.  Nothing is watched after a `DEL`. -/
def ctl (x : EpollCtl) (k : Epoll) : Epoll :=
  { k with
    interest := Function.update k.interest x.fd (if x.op = .del then none else some x.events) }

/-- A new descriptor.  Nothing is watched of it. -/
def opened (fd : ℕ) (k : Epoll) : Epoll :=
  { k with isOpen := Function.update k.isOpen fd true }

/-- `close_old(fd)`: what was watched of it goes with it. -/
def closed (fd : ℕ) (k : Epoll) : Epoll :=
  ⟨Function.update k.isOpen fd false, Function.update k.interest fd none⟩

end Epoll

/-! ### The `epoll_ctl` of a call -/

/-- What the kernel answers in the call.  It is one of its arguments. -/
def Call.kernel : Call → Kernel
  | addEvent kernel _ _ _ _ _ => kernel
  | delEvent kernel _ _ => kernel
  | cancelEvent kernel _ _ => kernel
  | cancelAll kernel _ => kernel
  | dispatch kernel _ _ => kernel

/-- The call, where the kernel answers otherwise.  The other arguments are the same. -/
def Call.answering (kernel : Kernel) : Call → Call
  | addEvent _ scheduler self fd event cb => .addEvent kernel scheduler self fd event cb
  | delEvent _ fd event => .delEvent kernel fd event
  | cancelEvent _ fd event => .cancelEvent kernel fd event
  | cancelAll _ fd => .cancelAll kernel fd
  | dispatch _ fd mask => .dispatch kernel fd mask

/-- The call, where the kernel also refuses what `accepts` does.  An answer of the kernel is
both. -/
def Call.under (k : Epoll) (call : Call) : Call :=
  call.answering fun x => k.accepts x && call.kernel x

/-- The one `epoll_ctl` that a call makes.  A call makes it behind its checks, or makes none. -/
def Call.ctl (m : IOManager) (call : Call) : Option EpollCtl :=
  match m.fdContexts[call.fd]? with
  | none => none
  | some c =>
    match call with
    | addEvent _ _ _ fd event _ =>
      if c.events event then none else some (addCtl fd event c)
    | delEvent _ fd event =>
      if c.events event then some (modOrDel fd (c.setEvent event false).events) else none
    | cancelEvent _ fd event =>
      if c.events event then some (modOrDel fd (c.setEvent event false).events) else none
    | cancelAll _ fd =>
      if FdContext.anyEvent c.events then some ⟨.del, fd, fun _ => false⟩ else none
    | dispatch _ fd mask =>
      if FdContext.anyEvent (fun e => c.events e && realEvents mask e) then
        some (modOrDel fd fun e => c.events e && !realEvents mask e)
      else none

/-- The `epoll_ctl` of a call, if it is made and succeeds.  With these bits. -/
def Call.succeeds (m : IOManager) (call : Call) : Option EpollCtl :=
  (call.ctl m).filter call.kernel

/-! ### The manager and the kernel -/

/-- The manager, and the kernel's side.  Both change in one step. -/
structure Watched where
  manager : IOManager
  epoll : Epoll

namespace Watched

/-- A manager with `n` fresh contexts and an epoll instance that watches nothing.  The
descriptors that are open are any. -/
def start (n : ℕ) (isOpen : ℕ → Bool) : Watched := ⟨.init n, isOpen, fun _ => none⟩

/-- A call of the manager.  The kernel's table changes with its `epoll_ctl`. -/
def make (call : Call) (s : Watched) : Option Watched :=
  (s.manager.step (call.under s.epoll)).map fun m =>
    ⟨m, ((call.under s.epoll).succeeds s.manager).elim s.epoll fun x => s.epoll.ctl x⟩

/-- What happens.  Calls, openings and closings come in any order. -/
inductive Act
  | call (call : Call)
  /-- A descriptor that was not open is. -/
  | opened (fd : ℕ)
  /-- `close(fd)`; with `hooked`, where the hook is enabled, the descriptor has a
  `FdCtx` and `IOManager::GetThis()` is the manager. -/
  | close (hooked : Bool) (kernel : Kernel) (fd : ℕ)

/-- What happens, if it can. -/
def step (act : Act) (s : Watched) : Option Watched :=
  match act with
  | .call call => s.make call
  | .opened fd => if s.epoll.isOpen fd then none else some { s with epoll := s.epoll.opened fd }
  | .close hooked kernel fd =>
    (if hooked then s.make (.cancelAll kernel fd) else some s).map fun s =>
      { s with epoll := s.epoll.closed fd }

/-- What should be watched, where these events are registered.  Nothing, where none is. -/
def wanted (events : Event → Bool) : Option (Event → Bool) :=
  if FdContext.anyEvent events then some events else none

/-- The kernel watches the registered events.  With these bits, or it watches nothing when none
is registered. -/
def Synced (fd : ℕ) (s : Watched) : Prop :=
  s.epoll.interest fd = wanted (s.manager.eventsOf fd)

/-- Events are registered, and the kernel watches none.  The descriptor was closed under the
manager. -/
def Stranded (fd : ℕ) (s : Watched) : Prop :=
  FdContext.anyEvent (s.manager.eventsOf fd) = true ∧ s.epoll.interest fd = none

/-- A `close` of `fd` finds none of its events registered, or `cancelAll` can cancel them.
Every other step is clean. -/
def Clean (fd : ℕ) (act : Act) (s : Watched) : Prop :=
  ∀ hooked kernel, act = .close hooked kernel fd →
    FdContext.anyEvent (s.manager.eventsOf fd) = true →
      hooked = true ∧ kernel ⟨.del, fd, fun _ => false⟩ = true

end Watched

variable {m m' : IOManager} {call : Call} {fd : ℕ} {a : Answer}

/-! ### What comes of the `epoll_ctl` -/

/-- An `addEvent` of an event that is registered.  It is an assertion that fails. -/
def Call.again (c : FdContext) : Call → Bool
  | addEvent _ _ _ _ event _ => c.events event
  | _ => false

/-- The answer of a call that is refused.  -1, false, or no events. -/
def Call.refused : Call → Answer
  | addEvent _ _ _ _ _ _ => .int (-1)
  | dispatch _ _ _ => .triggered []
  | _ => .bool false

/-- A call whose `epoll_ctl` does not succeed, or that makes none.  The manager stays as it is. -/
theorem exec_of_refused {c : FdContext} (hc : m.fdContexts[call.fd]? = some c)
    (h : call.succeeds m = none) :
    m.exec call = if call.again c then .error (.assertion "!(fd_ctx->events & event)")
      else .ok (call.refused, m) := by
  have hkernel : ∀ x, call.ctl m = some x → call.kernel x = false := by
    intro x hx
    rw [Call.succeeds, hx, Option.filter_eq_none_iff] at h
    exact eq_false_of_ne_true (h x rfl)
  unfold Call.ctl at hkernel
  simp only [hc] at hkernel
  cases call with
  | addEvent kernel scheduler self fd event cb =>
      change m.fdContexts[fd]? = some c at hc
      by_cases hbit : c.events event = true
      · simp [exec, addEvent, hc, hbit, Call.again, Except.map]
      · have hk := hkernel _ (if_neg hbit)
        simp [exec, addEvent, hc, hbit, show kernel _ = _ from hk, Call.again, Call.refused, Except.map]
  | delEvent kernel fd event =>
      change m.fdContexts[fd]? = some c at hc
      by_cases hbit : c.events event = true
      · have hk := hkernel _ (if_pos hbit)
        simp [exec, delEvent, hc, hbit, show kernel _ = _ from hk, Call.again, Call.refused, Except.map]
      · simp [exec, delEvent, hc, hbit, Call.again, Call.refused, Except.map]
  | cancelEvent kernel fd event =>
      change m.fdContexts[fd]? = some c at hc
      by_cases hbit : c.events event = true
      · have hk := hkernel _ (if_pos hbit)
        simp [exec, cancelEvent, hc, hbit, show kernel _ = _ from hk, Call.again, Call.refused, Except.map]
      · simp [exec, cancelEvent, hc, hbit, Call.again, Call.refused, Except.map]
  | cancelAll kernel fd =>
      change m.fdContexts[fd]? = some c at hc
      by_cases hany : FdContext.anyEvent c.events = true
      · have hk := hkernel _ (if_pos hany)
        simp [exec, cancelAll, hc, hany, show kernel _ = _ from hk, Call.again, Call.refused, Except.map]
      · simp [exec, cancelAll, hc, hany, Call.again, Call.refused, Except.map]
  | dispatch kernel fd mask =>
      change m.fdContexts[fd]? = some c at hc
      by_cases hany : FdContext.anyEvent (fun e => c.events e && realEvents mask e) = true
      · have hk := hkernel _ (if_pos hany)
        simp [exec, dispatch, hc, hany, show kernel _ = _ from hk, Call.again, Call.refused, Except.map]
      · simp [exec, dispatch, hc, hany, Call.again, Call.refused, Except.map]

/-- Where an event is registered, the sum shows it.  So the manager is not done. -/
theorem registered_pos {c : FdContext} (hc : m.fdContexts[fd]? = some c)
    (hany : FdContext.anyEvent c.events = true) : 0 < m.registered := by
  have hbits : ∀ d : FdContext, 0 ≤ d.bits := by
    intro d
    unfold FdContext.bits
    split_ifs <;> decide
  have hpos : 0 < c.bits := by
    unfold FdContext.bits
    unfold FdContext.anyEvent at hany
    cases hread : c.events .read <;> cases hwrite : c.events .write <;> simp_all
  refine lt_of_lt_of_le hpos (List.single_le_sum ?_ _ (List.mem_map_of_mem (List.mem_of_getElem? hc)))
  intro x hx
  obtain ⟨d, -, rfl⟩ := List.mem_map.1 hx
  exact hbits d

/-- A set bit is some bit. -/
theorem anyEvent_of {bits : Event → Bool} {e : Event} (h : bits e = true) :
    FdContext.anyEvent bits = true :=
  (anyEvent_eq_true bits).2 ⟨e, h⟩

/-- A `MOD`, or a `DEL` when no bit is left. -/
theorem modOrDel_op (bits : Event → Bool) :
    (modOrDel fd bits).op ≠ .add ∧
      ((modOrDel fd bits).op = .del ↔ FdContext.anyEvent bits = false) := by
  unfold modOrDel
  cases FdContext.anyEvent bits <;> simp

/-- The `epoll_ctl` of a call is an `ADD` where nothing is registered, and a `DEL` where nothing
will be.  It is about the descriptor of the call. -/
theorem ctl_spec {x : EpollCtl} (h : call.ctl m = some x) :
    x.fd = call.fd ∧ (x.op = .del ↔ FdContext.anyEvent x.events = false) ∧
      (x.op = .add ↔ FdContext.anyEvent (m.eventsOf call.fd) = false) := by
  unfold Call.ctl at h
  cases hc : m.fdContexts[call.fd]? with
  | none =>
      rw [hc] at h
      cases h
  | some c =>
      rw [eventsOf_eq hc]
      simp only [hc] at h
      have hmod : ∀ {fd' : ℕ} {bits : Event → Bool}, fd' = call.fd →
          FdContext.anyEvent c.events = true → modOrDel fd' bits = x →
          x.fd = call.fd ∧ (x.op = .del ↔ FdContext.anyEvent x.events = false) ∧
            (x.op = .add ↔ FdContext.anyEvent c.events = false) := by
        rintro fd' bits hfd hany rfl
        refine ⟨hfd, (modOrDel_op bits).2, iff_of_false (modOrDel_op bits).1 ?_⟩
        rw [hany]
        exact Bool.noConfusion
      cases call with
      | addEvent kernel scheduler self fd event cb =>
          dsimp only at h
          split_ifs at h
          obtain rfl := Option.some.inj h
          have hany : FdContext.anyEvent (c.setEvent event true).events = true :=
            anyEvent_of (FdContext.setEvent_events_self true)
          refine ⟨rfl, ?_, ?_⟩
          · change (if _ then EpollCtlOp.mod else .add) = .del ↔
              FdContext.anyEvent (c.setEvent event true).events = false
            rw [hany]
            split_ifs <;> simp
          · change (if _ then EpollCtlOp.mod else .add) = .add ↔ _
            cases FdContext.anyEvent c.events <;> simp
      | delEvent kernel fd event =>
          dsimp only at h
          split_ifs at h with hbit
          exact hmod rfl (anyEvent_of hbit) (Option.some.inj h)
      | cancelEvent kernel fd event =>
          dsimp only at h
          split_ifs at h with hbit
          exact hmod rfl (anyEvent_of hbit) (Option.some.inj h)
      | cancelAll kernel fd =>
          dsimp only at h
          split_ifs at h with hany
          exact hmod rfl hany (show modOrDel fd (fun _ => false) = x from Option.some.inj h)
      | dispatch kernel fd mask =>
          dsimp only at h
          split_ifs at h with hany
          obtain ⟨e, he⟩ := (anyEvent_eq_true _).1 hany
          exact hmod rfl (anyEvent_of (Bool.and_eq_true_iff.1 he).1) (Option.some.inj h)

/-- Writing one context changes the bits of that one. -/
theorem eventsOf_set {c : FdContext} (hc : m.fdContexts[fd]? = some c) (c' : FdContext)
    (hm' : m'.fdContexts = m.fdContexts.set fd c') :
    m'.eventsOf fd = c'.events ∧ ∀ fd' ≠ fd, m'.eventsOf fd' = m.eventsOf fd' := by
  refine ⟨eventsOf_eq ?_, fun fd' hne => ?_⟩
  · rw [hm']
    exact List.getElem?_set_self (lt_of_getElem? hc)
  · rw [eventsOf, eventsOf, hm', List.getElem?_set_ne hne.symm]

/-- A call that triggers leaves the other bits.  At other descriptors all stay. -/
theorem eventsOf_of_triggers {c : FdContext} (hc : m.fdContexts[call.fd]? = some c)
    (h : m.exec call = .ok (a, m')) (htriggers : call.triggers m = true) :
    m'.eventsOf call.fd = (fun e => c.events e && !call.bits c e) ∧
      ∀ fd' ≠ call.fd, m'.eventsOf fd' = m.eventsOf fd' := by
  cases outcome_of_exec h with
  | nothing hnot =>
      rw [hnot] at htriggers
      cases htriggers
  | add => simp [Call.triggers, hc] at htriggers
  | del => simp [Call.triggers, hc] at htriggers
  | @trigger call c' hc' =>
      obtain rfl : c' = c := Option.some.inj (hc'.symm.trans hc)
      obtain ⟨hset, -, hevents⟩ := afterBits_spec hc (call.bits c')
      obtain ⟨hself, hother⟩ := eventsOf_set hc _ hset
      exact ⟨hself.trans (funext hevents), hother⟩

/-- A call whose `epoll_ctl` succeeds registers what it told the kernel.  At other descriptors
all stay. -/
theorem eventsOf_of_succeeds {x : EpollCtl} (h : m.exec call = .ok (a, m'))
    (hx : call.succeeds m = some x) :
    m'.eventsOf call.fd = x.events ∧ ∀ fd' ≠ call.fd, m'.eventsOf fd' = m.eventsOf fd' := by
  rw [Call.succeeds, Option.filter_eq_some_iff] at hx
  obtain ⟨hctl, hkernel⟩ := hx
  unfold Call.ctl at hctl
  cases hc : m.fdContexts[call.fd]? with
  | none =>
      rw [hc] at hctl
      cases hctl
  | some c =>
      simp only [hc] at hctl
      cases call with
      | addEvent kernel scheduler self fd event cb =>
          dsimp only at hctl
          split_ifs at hctl
          obtain rfl := Option.some.inj hctl
          cases outcome_of_exec h with
          | nothing _ _ hadd => exact absurd hkernel (by rw [Call.kernel, hadd _ _ _ _ _ _ c rfl hc]; decide)
          | @add _ _ _ _ _ _ c' hc' =>
              obtain rfl : c' = c := Option.some.inj (hc'.symm.trans hc)
              exact eventsOf_set hc ((c'.setEvent event true).setContext event _) rfl
          | trigger _ _ _ hsome =>
              obtain ⟨e, he⟩ := hsome
              cases he
      | delEvent kernel fd event =>
          dsimp only at hctl
          split_ifs at hctl with hbit
          obtain rfl := Option.some.inj hctl
          change m.fdContexts[fd]? = some c at hc
          simp only [exec, delEvent, hc, hbit, show kernel _ = true from hkernel, Bool.true_eq_false,
            if_false] at h
          obtain ⟨-, rfl⟩ := Prod.mk.inj (Except.ok.inj h)
          exact eventsOf_set hc ((c.setEvent event false).resetContext event) rfl
      | cancelEvent kernel fd event =>
          dsimp only at hctl
          split_ifs at hctl with hbit
          obtain rfl := Option.some.inj hctl
          have htriggers : (Call.cancelEvent kernel fd event).triggers m = true := by
            rw [Call.triggers, hc]
            exact Bool.and_eq_true_iff.2 ⟨hbit, hkernel⟩
          obtain ⟨hself, hother⟩ := eventsOf_of_triggers hc h htriggers
          refine ⟨hself.trans (funext fun e => ?_), hother⟩
          by_cases he : e = event
          · subst he
            simp [Call.bits, modOrDel]
          · simp [Call.bits, modOrDel, FdContext.setEvent_events_of_ne _ he, he]
      | cancelAll kernel fd =>
          dsimp only at hctl
          split_ifs at hctl with hany
          obtain rfl := Option.some.inj hctl
          have htriggers : (Call.cancelAll kernel fd).triggers m = true := by
            rw [Call.triggers, hc]
            exact Bool.and_eq_true_iff.2 ⟨hany, hkernel⟩
          obtain ⟨hself, hother⟩ := eventsOf_of_triggers hc h htriggers
          refine ⟨hself.trans (funext fun e => ?_), hother⟩
          simp [Call.bits]
      | dispatch kernel fd mask =>
          dsimp only at hctl
          split_ifs at hctl with hany
          obtain rfl := Option.some.inj hctl
          have htriggers : (Call.dispatch kernel fd mask).triggers m = true := by
            rw [Call.triggers, hc]
            exact Bool.and_eq_true_iff.2 ⟨hany, hkernel⟩
          exact eventsOf_of_triggers hc h htriggers

/-- A call whose `epoll_ctl` does not succeed changes nothing.  Nor does it write to the ledger. -/
theorem eq_of_not_succeeds (h : m.exec call = .ok (a, m')) (hx : call.succeeds m = none) : m' = m := by
  cases hc : m.fdContexts[call.fd]? with
  | none =>
      cases outcome_of_exec h with
      | nothing => rfl
      | add hget => cases hc.symm.trans hget
      | del hget => cases hc.symm.trans hget
      | trigger hget => cases hc.symm.trans hget
  | some c =>
      rw [exec_of_refused hc hx] at h
      split_ifs at h
      exact (Prod.mk.inj (Except.ok.inj h)).2.symm

/-- The descriptor of the call is the same. -/
@[simp]
theorem fd_under (k : Epoll) (call : Call) : (call.under k).fd = call.fd := by
  cases call <;> rfl

/-- What the call asks of the kernel is the same. -/
@[simp]
theorem ctl_under (k : Epoll) (call : Call) (m : IOManager) : (call.under k).ctl m = call.ctl m := by
  cases call <;> rfl

/-- The kernel's answer is both. -/
@[simp]
theorem kernel_under (k : Epoll) (call : Call) (x : EpollCtl) :
    (call.under k).kernel x = (k.accepts x && call.kernel x) := by
  cases call <;> rfl

/-- An `epoll_ctl` that succeeds was asked for, was acceptable and was answered. -/
theorem succeeds_under {k : Epoll} {x : EpollCtl} (h : (call.under k).succeeds m = some x) :
    call.ctl m = some x ∧ k.accepts x = true ∧ call.kernel x = true := by
  rw [Call.succeeds, Option.filter_eq_some_iff, ctl_under, kernel_under, Bool.and_eq_true] at h
  exact h

namespace Watched

variable {s s' : Watched}

/-- **A call**, at one descriptor: the two tables agree after it, or it changed neither.  At the
others it changed neither. -/
theorem make_cases (h : s.make call = some s') (fd : ℕ) :
    s'.Synced fd ∨
      s'.manager.eventsOf fd = s.manager.eventsOf fd ∧ s'.epoll.interest fd = s.epoll.interest fd := by
  obtain ⟨m', hm', rfl⟩ := Option.map_eq_some_iff.1 h
  obtain ⟨a, hexec⟩ := exists_exec_of_step hm'
  cases hx : (call.under s.epoll).succeeds s.manager with
  | none =>
      rw [eq_of_not_succeeds hexec hx]
      exact Or.inr ⟨rfl, rfl⟩
  | some x =>
      obtain ⟨hself, hother⟩ := eventsOf_of_succeeds hexec hx
      obtain ⟨hctl, -, -⟩ := succeeds_under hx
      obtain ⟨hfd, hdel, -⟩ := ctl_spec hctl
      rw [fd_under, ← hfd] at hself hother
      by_cases hne : fd = x.fd
      · subst hne
        left
        change Function.update s.epoll.interest x.fd _ x.fd = wanted (m'.eventsOf x.fd)
        rw [Function.update_self, hself, wanted]
        by_cases hop : x.op = .del
        · rw [if_pos hop, if_neg (by rw [hdel.1 hop]; decide)]
        · rw [if_neg hop, if_pos (eq_true_of_ne_false (mt hdel.2 hop))]
      · exact Or.inr ⟨hother fd hne, Function.update_of_ne hne ..⟩

/-- Where the kernel watches nothing of what is registered, it refuses.  An `ADD` would be
accepted, but a `MOD` is asked for. -/
theorem Stranded.not_succeeds (h : s.Stranded call.fd) :
    (call.under s.epoll).succeeds s.manager = none := by
  rw [Option.eq_none_iff_forall_ne_some]
  intro x hx
  obtain ⟨hctl, haccepts, -⟩ := succeeds_under hx
  obtain ⟨hfd, -, hadd⟩ := ctl_spec hctl
  rw [h.1] at hadd
  unfold Epoll.accepts at haccepts
  rw [hfd, h.2] at haccepts
  cases hop : x.op with
  | add => cases hadd.1 hop
  | mod =>
      rw [hop] at haccepts
      cases haccepts
  | del =>
      rw [hop] at haccepts
      cases haccepts

/-- A call keeps what cannot be got rid of.  The kernel refuses it. -/
theorem Stranded.make (h : s.Stranded fd) (hmake : s.make call = some s') :
    s'.Stranded fd ∧ s'.manager.eventsOf fd = s.manager.eventsOf fd := by
  have hkeeps : s'.manager.eventsOf fd = s.manager.eventsOf fd ∧
      s'.epoll.interest fd = s.epoll.interest fd := by
    obtain ⟨m', hm', rfl⟩ := Option.map_eq_some_iff.1 hmake
    obtain ⟨a, hexec⟩ := exists_exec_of_step hm'
    by_cases hfd : call.fd = fd
    · have hx : (call.under s.epoll).succeeds s.manager = none := (hfd ▸ h).not_succeeds
      rw [eq_of_not_succeeds hexec hx, hx]
      exact ⟨rfl, rfl⟩
    · cases hx : (call.under s.epoll).succeeds s.manager with
      | none =>
          rw [eq_of_not_succeeds hexec hx]
          exact ⟨rfl, rfl⟩
      | some x =>
          have hother := (eventsOf_of_succeeds hexec hx).2
          rw [fd_under] at hother
          obtain ⟨hxfd, -, -⟩ := ctl_spec (succeeds_under hx).1
          exact ⟨hother fd (Ne.symm hfd), Function.update_of_ne (hxfd ▸ Ne.symm hfd) ..⟩
  rw [Stranded, hkeeps.1, hkeeps.2]
  exact ⟨h, rfl⟩

/-- After a `close` nothing is watched.  So nothing may be registered. -/
theorem synced_closed_iff :
    Synced fd { s with epoll := s.epoll.closed fd } ↔
      FdContext.anyEvent (s.manager.eventsOf fd) = false := by
  change Function.update s.epoll.interest fd none fd = wanted (s.manager.eventsOf fd) ↔ _
  rw [Function.update_self, wanted]
  cases FdContext.anyEvent (s.manager.eventsOf fd) <;> simp

/-- `cancelAll`, where the tables agree, cancels unless `epoll_ctl` fails for another reason.
Where it is refused the registrations stay. -/
theorem anyEvent_cancelAll {kernel : Kernel} (h : s.Synced fd)
    (hmake : s.make (.cancelAll kernel fd) = some s') :
    FdContext.anyEvent (s'.manager.eventsOf fd) = false ↔
      (FdContext.anyEvent (s.manager.eventsOf fd) = true → kernel ⟨.del, fd, fun _ => false⟩ = true) := by
  obtain ⟨m', hm', rfl⟩ := Option.map_eq_some_iff.1 hmake
  obtain ⟨a, hexec⟩ := exists_exec_of_step hm'
  have hctl : (Call.cancelAll kernel fd).ctl s.manager =
      if FdContext.anyEvent (s.manager.eventsOf fd) = true then some ⟨.del, fd, fun _ => false⟩
      else none := by
    unfold Call.ctl eventsOf
    rw [Call.fd]
    cases s.manager.fdContexts[fd]? <;> rfl
  cases hany : FdContext.anyEvent (s.manager.eventsOf fd) with
  | false =>
      have hx : ((Call.cancelAll kernel fd).under s.epoll).succeeds s.manager = none := by
        rw [Call.succeeds, ctl_under, hctl, hany]
        rfl
      rw [eq_of_not_succeeds hexec hx]
      exact iff_of_true hany fun h => absurd h Bool.false_ne_true
  | true =>
      have haccepts : s.epoll.accepts ⟨.del, fd, fun _ => false⟩ = true := by
        change (s.epoll.interest fd).isSome = true
        rw [h, wanted, if_pos hany]
        rfl
      have hx : ((Call.cancelAll kernel fd).under s.epoll).succeeds s.manager =
          if kernel ⟨.del, fd, fun _ => false⟩ = true then some ⟨.del, fd, fun _ => false⟩ else none := by
        rw [Call.succeeds, ctl_under, hctl, if_pos hany, Option.filter_some, kernel_under, haccepts]
        rfl
      by_cases hk : kernel ⟨.del, fd, fun _ => false⟩ = true
      · rw [if_pos hk] at hx
        change FdContext.anyEvent (m'.eventsOf fd) = false ↔ _
        have hself : m'.eventsOf fd = fun _ => false := (eventsOf_of_succeeds hexec hx).1
        rw [hself]
        exact iff_of_true rfl fun _ => hk
      · rw [if_neg hk] at hx
        rw [eq_of_not_succeeds hexec hx]
        refine iff_of_false ?_ fun hall => hk (hall rfl)
        rw [hany]
        decide

/-- A descriptor that opens. -/
theorem step_opened (h : step (.opened fd) s = some s') : s' = { s with epoll := s.epoll.opened fd } := by
  change (if s.epoll.isOpen fd = true then none else some _) = some s' at h
  split_ifs at h
  exact (Option.some.inj h).symm

/-- A descriptor that is closed, with `cancelAll` before it or without. -/
theorem step_close {hooked : Bool} {kernel : Kernel}
    (h : step (.close hooked kernel fd) s = some s') :
    ∃ s₁, (s₁ = s ∧ hooked = false ∨ s.make (.cancelAll kernel fd) = some s₁ ∧ hooked = true) ∧
      s' = { s₁ with epoll := s₁.epoll.closed fd } := by
  obtain ⟨s₁, hs₁, rfl⟩ := Option.map_eq_some_iff.1 h
  refine ⟨s₁, ?_, rfl⟩
  cases hooked with
  | false => exact Or.inl ⟨(Option.some.inj hs₁).symm, rfl⟩
  | true => exact Or.inr ⟨hs₁, rfl⟩

/-- **One step**, where something is registered that is not watched: it stays so.  The
registrations stay the same. -/
theorem Stranded.of_step {act : Act} (h : s.Stranded fd) (hstep : step act s = some s') :
    s'.Stranded fd ∧ s'.manager.eventsOf fd = s.manager.eventsOf fd := by
  cases act with
  | call call => exact h.make hstep
  | opened fd' =>
      obtain rfl := step_opened hstep
      exact ⟨h, rfl⟩
  | close hooked kernel fd' =>
      obtain ⟨s₁, hs₁, rfl⟩ := step_close hstep
      have h₁ : s₁.Stranded fd ∧ s₁.manager.eventsOf fd = s.manager.eventsOf fd := by
        rcases hs₁ with ⟨rfl, -⟩ | ⟨hmake, -⟩
        · exact ⟨h, rfl⟩
        · exact h.make hmake
      refine ⟨⟨h₁.1.1, ?_⟩, h₁.2⟩
      change Function.update s₁.epoll.interest fd' none fd = none
      by_cases hfd : fd = fd'
      · rw [hfd, Function.update_self]
      · rw [Function.update_of_ne hfd, h₁.1.2]

/-- The tables do not agree where events are left behind. -/
theorem Synced.not_stranded (h : s.Synced fd) : ¬s.Stranded fd := by
  rintro ⟨hany, hnone⟩
  rw [Synced, hnone, wanted, if_pos hany] at h
  cases h

/-- **One step**, where the tables agree: they agree after it if and only if it is no `close`
that finds events which it cannot cancel, and after such a one the events are left behind.  By
cases on what happens. -/
theorem Synced.of_step {act : Act} (h : s.Synced fd) (hstep : step act s = some s') :
    (s'.Synced fd ∧ Clean fd act s) ∨ (s'.Stranded fd ∧ ¬Clean fd act s) := by
  cases act with
  | call call =>
      refine Or.inl ⟨?_, nofun⟩
      rcases make_cases hstep fd with hsynced | ⟨hevents, hinterest⟩
      · exact hsynced
      · rw [Synced, hevents, hinterest]
        exact h
  | opened fd' =>
      obtain rfl := step_opened hstep
      exact Or.inl ⟨h, nofun⟩
  | close hooked kernel fd' =>
      obtain ⟨s₁, hs₁, rfl⟩ := step_close hstep
      by_cases hfd : fd = fd'
      · subst hfd
        have hclean : FdContext.anyEvent (s₁.manager.eventsOf fd) = false ↔
            Clean fd (.close hooked kernel fd) s := by
          rcases hs₁ with ⟨rfl, rfl⟩ | ⟨hmake, rfl⟩
          · rw [← Bool.not_eq_true]
            refine ⟨fun hnot _ _ _ hany => absurd hany hnot, fun hc hany => ?_⟩
            exact absurd (hc false kernel rfl hany).1 (by decide)
          · rw [anyEvent_cancelAll h hmake]
            constructor
            · rintro hk _ _ ⟨⟩ hany
              exact ⟨rfl, hk hany⟩
            · exact fun hc hany => (hc true kernel rfl hany).2
        by_cases hany : FdContext.anyEvent (s₁.manager.eventsOf fd) = false
        · exact Or.inl ⟨synced_closed_iff.2 hany, hclean.1 hany⟩
        · exact Or.inr ⟨⟨eq_true_of_ne_false hany, Function.update_self ..⟩, mt hclean.2 hany⟩
      · refine Or.inl ⟨?_, ?_⟩
        · have h₁ : s₁.Synced fd := by
            rcases hs₁ with ⟨rfl, -⟩ | ⟨hmake, -⟩
            · exact h
            · rcases make_cases hmake fd with hsynced | ⟨hevents, hinterest⟩
              · exact hsynced
              · rw [Synced, hevents, hinterest]
                exact h
          change Function.update s₁.epoll.interest fd' none fd = _
          rw [Function.update_of_ne hfd]
          exact h₁
        · rintro _ _ ⟨⟩
          exact absurd rfl hfd

/-! ### Runs -/

/-- At the start nothing is registered and nothing is watched. -/
theorem start_synced (n : ℕ) (isOpen : ℕ → Bool) (fd : ℕ) : (start n isOpen).Synced fd := by
  change none = wanted (eventsOf fd (init n))
  cases hc : (init n).fdContexts[fd]? with
  | none =>
      rw [eventsOf, hc]
      rfl
  | some c =>
      rw [eventsOf_eq hc, List.eq_of_mem_replicate (List.mem_of_getElem? hc)]
      rfl

/-- The manager goes through states that its calls lead to.  So what is proved of its runs holds
here. -/
theorem reachable_manager {n : ℕ} {isOpen : ℕ → Bool} (h : Reachable step (start n isOpen) s) :
    Reachable IOManager.step (init n) s.manager := by
  refine h.invariant (I := fun s => Reachable IOManager.step (init n) s.manager) .init ?_
  intro s s' act hs hstep
  have hmake : ∀ {call : Call} {s₁ : Watched}, s.make call = some s₁ →
      Reachable IOManager.step (init n) s₁.manager := by
    intro call s₁ hmake
    obtain ⟨m', hm', rfl⟩ := Option.map_eq_some_iff.1 hmake
    exact hs.step _ hm'
  cases act with
  | call call => exact hmake hstep
  | opened fd' =>
      obtain rfl := step_opened hstep
      exact hs
  | close hooked kernel fd' =>
      obtain ⟨s₁, ⟨rfl, -⟩ | ⟨hs₁, -⟩, rfl⟩ := step_close hstep
      · exact hs
      · exact show Reachable IOManager.step (init n) s₁.manager from hmake hs₁

/-- **The kernel watches what is registered** at a descriptor, in every state of a run, if and
only if every `close` of it finds its events cancelled or can cancel them; and where it does
not, it watches nothing.  In the end they agree or events are left behind, so nothing in between
is possible. -/
theorem synced_iff_clean (n : ℕ) (isOpen : ℕ → Bool) (fd : ℕ) {acts : List Act}
    (hrun : run step acts (start n isOpen) = some s) :
    (Always step (Synced fd) acts (start n isOpen) ↔ Meets step (Clean fd) acts (start n isOpen)) ∧
      (s.Synced fd ∨ s.Stranded fd) := by
  constructor
  · refine always_iff_meets (J := fun _ => True) (fun _ _ _ _ _ => trivial) ?_ trivial
      (start_synced n isOpen fd) hrun
    intro act s s' _ hs hstep
    rcases hs.of_step hstep with ⟨hsynced, hclean⟩ | ⟨hstranded, hnot⟩
    · exact iff_of_true hsynced hclean
    · exact iff_of_false (fun hsynced => hsynced.not_stranded hstranded) hnot
  · refine (Reachable.init.run hrun).invariant (I := fun s => s.Synced fd ∨ s.Stranded fd)
      (Or.inl (start_synced n isOpen fd)) ?_
    rintro s s' act (hs | hs) hstep
    · exact (hs.of_step hstep).imp And.left And.left
    · exact Or.inr (hs.of_step hstep).1

/-- A descriptor that is closed by the plain `close` while a callback waits. -/
theorem synced_iff_clean_plain :
    ¬Always step (Synced 0) [.call (.addEvent (fun _ => true) (some 1) 0 0 .read (some 7)),
      .close false (fun _ => true) 0] (start 1 fun _ => true) := by
  intro h
  have hmeets := (synced_iff_clean (s := ⟨_, _, _⟩) 1 (fun _ => true) 0 rfl).1.1 h
  exact Bool.noConfusion ((hmeets.2 _ rfl).1 false _ rfl rfl).1

/-- **Events left behind stay.**  From a state in which events of `fd` are registered that the
kernel does not watch, whatever happens, descriptors opened under the same number included: they
stay so, the count stays above zero, and every call for `fd` leaves the manager as it is and is
refused, or it is an `addEvent` for an event left behind and fails its assertion.  No state that
follows has the count at zero, so `stopping()` never says true. -/
theorem stranded_forever {n : ℕ} {isOpen : ℕ → Bool} (h : Reachable step (start n isOpen) s)
    (hs : s.Stranded fd) (h' : Reachable step s s') :
    s'.Stranded fd ∧ s'.manager.eventsOf fd = s.manager.eventsOf fd ∧
      0 < s'.manager.pendingEventCount ∧
      ∀ call : Call, call.fd = fd → ∃ c, s'.manager.fdContexts[fd]? = some c ∧
        s'.manager.exec (call.under s'.epoll) =
          if call.again c then .error (.assertion "!(fd_ctx->events & event)")
          else .ok (call.refused, s'.manager) := by
  have hkept : s'.Stranded fd ∧ s'.manager.eventsOf fd = s.manager.eventsOf fd := by
    refine h'.invariant (I := fun t => t.Stranded fd ∧ t.manager.eventsOf fd = s.manager.eventsOf fd)
      ⟨hs, rfl⟩ ?_
    intro t t' act ht hstep
    obtain ⟨hstranded, hevents⟩ := ht.1.of_step hstep
    exact ⟨hstranded, hevents.trans ht.2⟩
  have hcontext : ∃ c, s'.manager.fdContexts[fd]? = some c := by
    cases hc : s'.manager.fdContexts[fd]? with
    | none =>
        have hany := hkept.1.1
        rw [eventsOf, hc] at hany
        cases hany
    | some c => exact ⟨c, rfl⟩
  obtain ⟨c, hc⟩ := hcontext
  refine ⟨hkept.1, hkept.2, ?_, ?_⟩
  · rw [(Reachable.accounts (reachable_manager (h.trans h'))).pending_eq]
    exact registered_pos hc (eventsOf_eq hc ▸ hkept.1.1)
  · rintro call rfl
    have hx := hkept.1.not_succeeds
    refine ⟨c, hc, ?_⟩
    rw [exec_of_refused (by rw [fd_under]; exact hc) hx]
    cases call <;> rfl

/-- The number of the closed descriptor is given out again, and a wait for `WRITE` on the
new one is refused. -/
theorem stranded_forever_reopened :
    ∃ s s', run step [.call (.addEvent (fun _ => true) (some 1) 0 0 .read (some 7)),
        .close false (fun _ => true) 0] (start 1 fun _ => true) = some s ∧
      step (.opened 0) s = some s' ∧ 0 < s'.manager.pendingEventCount ∧
      s'.manager.exec ((Call.addEvent (fun _ => true) (some 1) 0 0 .write (some 8)).under s'.epoll) =
        .ok (.int (-1), s'.manager) := by
  refine ⟨_, _, rfl, rfl, ?_⟩
  obtain ⟨-, -, hcount, hcalls⟩ := stranded_forever
    (.step (.close false (fun _ => true) 0)
      (.step (.call (.addEvent (fun _ => true) (some 1) 0 0 .read (some 7)))
        (.init : Reachable step (start 1 fun _ => true) _) rfl) rfl)
    (⟨rfl, rfl⟩ : Stranded 0 _) (.step (.opened 0) .init rfl)
  obtain ⟨c, hc, hexec⟩ := hcalls (.addEvent (fun _ => true) (some 1) 0 0 .write (some 8)) rfl
  obtain rfl := Option.some.inj hc
  exact ⟨hcount, hexec⟩

end Watched
end Hiper.IOManager

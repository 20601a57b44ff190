import Hiper.Lib.Machine
import Hiper.Socket.Basic

/-!
# The life of sockets

Objects are created, connected, accepted, closed and destroyed in any order, whatever the
system answers.  An object is established from the call that connected its descriptor until
the descriptor is closed.  Such a TCP object should say that it is connected (`Tells`);
`connect` sees to it and `init`, on the way of `accept`, does not, so a run keeps the law
exactly as long as no TCP object accepts (`lawfulRun_iff_no_accept`).

The functions are those of `src/hiper/base/socket.cc`; what the system answers is in the
steps, so that a run is any behaviour of the system, too.  The flag is `is_connect_`, line
171 of `src/hiper/base/socket.h`, which lines 61 to 89, 281 and 305 of `socket.cc` write.
-/

namespace Hiper

namespace Socket

/-- A socket object, and whether the connection of its descriptor was established.  The second
part is not in the source. -/
structure Object where
  socket : Socket
  established : Bool
  deriving DecidableEq, Repr

/-- All objects, under their numbers; a destroyed one is `none`.  They are numbered in the order
of their making. -/
structure World where
  objects : List (Option Object)
  deriving DecidableEq, Repr

namespace World

/-- The object of that number, while it lives.  Nothing, if it was destroyed or never made. -/
def get (w : World) (id : ℕ) : Option Object := w.objects[id]?.join

/-- The world with one object more.  Its number is the next one. -/
def add (w : World) (o : Object) : World := ⟨w.objects ++ [some o]⟩

/-- The world with that object at a number, or with none there.  The others stay. -/
def put (w : World) (id : ℕ) (o : Option Object) : World := ⟨w.objects.set id o⟩

end World

/-- The arguments that begin with `fd` and `ok` are the system's answers. -/
inductive Step
  /-- `CreateTCP`, `CreateUnixUDPSocket` and the like. -/
  | create (family : ℕ) (type : SocketType)
  /-- `CreateUDP` and the like. -/
  | createUDP (family : ℕ) (fd : ℤ)
  | bind (id : ℕ) (fd : ℤ)
  | connect (id : ℕ) (addr : Address) (fd : ℤ) (ok : Bool)
  | reconnect (id : ℕ) (fd : ℤ) (ok : Bool)
  /-- The new descriptor may have no context, and then `init` follows a null pointer. -/
  | accept (id : ℕ) (fd : ℤ) (ctx : Option FdCtx) (peer : Option Address)
  | close (id : ℕ)
  | destroy (id : ℕ)
  deriving DecidableEq, Repr

/-- An object after `Socket::close`.  It is established no more. -/
def Object.close (o : Object) : Object :=
  let r := o.socket.close
  ⟨r.1, o.established && !r.2⟩

/-- An object after a `connect` that ended so.  A `connect` that succeeds establishes it. -/
def Object.connected (o : Object) (r : Socket × Connected) : Object :=
  ⟨r.1, match r.2 with
    | .ok => true
    | .refused => false
    | _ => o.established⟩

/-- None, if there is no such object. -/
def step : Step → World → Option World
  | .create family type, w => some (w.add ⟨new family type 0, false⟩)
  | .createUDP family fd, w => some (w.add ⟨Socket.createUDP family fd, false⟩)
  | .bind id fd, w =>
    (w.get id).map fun o => w.put id (some ⟨o.socket.bind fd, o.established⟩)
  | .connect id addr fd ok, w =>
    (w.get id).map fun o => w.put id (some (o.connected (o.socket.connect addr fd ok)))
  | .reconnect id fd ok, w =>
    (w.get id).map fun o =>
      match o.socket.reconnect fd ok with
      | (_, none) => w
      | (s, some r) => w.put id (some (o.connected (s, r)))
  | .accept id fd ctx peer, w =>
    (w.get id).bind fun o =>
      if fd = -1 then some w
      else
        ctx.map fun ctx =>
          match o.socket.accept fd ctx peer with
          | none => w
          | some s => w.add ⟨s, true⟩
  | .close id, w => (w.get id).map fun o => w.put id (some o.close)
  | .destroy id, w => (w.get id).map fun _ => w.put id none

/-! ### The law -/

/-- A socket that says it is connected, so that `send`, `recv` and a stream over it reach the
system call on its descriptor.  Of the calls it is asked on which descriptor they are made. -/
structure Tells (s : Socket) : Prop where
  isConnect : s.isConnect = true
  sock : s.sock ≠ -1
  callOn : s.callOn = some s.sock
  stream : ∀ owner, (⟨some s, owner⟩ : SocketStream).callOn = some s.sock

/-- A socket that says it is not.  It has no descriptor, either. -/
structure Silent (s : Socket) : Prop where
  isConnect : s.isConnect = false
  sock : s.sock = -1

/-- An established TCP object says so.  Other objects are not spoken of. -/
def World.Lawful (w : World) : Prop :=
  ∀ id o, w.get id = some o → o.socket.type = .tcp → o.established = true → Tells o.socket

/-- A system call of the `connect` failed.  An address of another family is refused before any
call. -/
def Connected.isFailed : Connected → Bool
  | .noSocket | .refused => true
  | _ => false

/-- The step closes the object, or connects it and a system call fails.  It is told by the
arguments and the object. -/
def fails (w : World) : Step → Option ℕ
  | .close id => some id
  | .connect id addr fd ok =>
    if (w.get id).any fun o => (o.socket.connect addr fd ok).2.isFailed then some id else none
  | .reconnect id fd ok =>
    if (w.get id).any fun o => (o.socket.reconnect fd ok).2.any (·.isFailed) then some id else none
  | _ => none

/-- After such a step a TCP object says that it is not connected.  The object is looked at after
the step. -/
def Step.Lawful (a : Step) (w w' : World) : Prop :=
  ∀ id o, fails w a = some id → w'.get id = some o → o.socket.type = .tcp → Silent o.socket

/-- The law holds in every state of a run and after every step of it.  The first state and the
last are among them. -/
def LawfulRun : List Step → World → Prop
  | [], w => w.Lawful
  | a :: as, w =>
    w.Lawful ∧
      match step a w with
      | none => True
      | some w' => a.Lawful w w' ∧ LawfulRun as w'

/-- A TCP object accepts: the system gives it a descriptor, whose context is that of an open
socket (`src/hiper/base/socket.cc:168`, `183`).  It is looked at before the step. -/
def accepts (w : World) : Step → Bool
  | .accept id fd (some ctx) _ =>
    fd != -1 && ctx.isSocket && !ctx.isClose && (w.get id).any fun o => o.socket.type == .tcp
  | _ => false

/-- No step of a run is such an accept.  A step that is not possible ends the run. -/
def noAccept : List Step → World → Bool
  | [], _ => true
  | a :: as, w =>
    match step a w with
    | none => true
    | some w' => !accepts w a && noAccept as w'

/-! ### Looking up -/

/-- An object of a larger world is the new one, or was there. -/
theorem World.get_add {w : World} {id : ℕ} {o p : Object} (h : (w.add o).get id = some p) :
    w.get id = some p ∨ p = o := by
  rw [get, add] at h
  rcases Nat.lt_or_ge id w.objects.length with hid | hid
  · left
    rwa [List.getElem?_append_left hid] at h
  · right
    rw [List.getElem?_append_right hid] at h
    rcases Nat.eq_zero_or_pos (id - w.objects.length) with h0 | h0
    · rw [h0] at h
      exact (Option.some.inj h).symm
    · rw [List.getElem?_eq_none (by rw [List.length_singleton]; omega)] at h
      cases h

/-- The new object is found under its number. -/
theorem World.get_add_length (w : World) (o : Object) :
    (w.add o).get w.objects.length = some o := by
  simp [get, add]

/-- An object is the one that was put, or was there. -/
theorem World.get_put {w : World} {id k : ℕ} {o : Option Object} {p : Object}
    (h : (w.put k o).get id = some p) : w.get id = some p ∨ k = id ∧ o = some p := by
  rw [get, put, List.getElem?_set] at h
  split at h
  next hk =>
    split at h
    · exact Or.inr ⟨hk, h⟩
    · cases h
  next => exact Or.inl h

/-! ### What the calls keep -/

/-- What holds of every TCP object as long as none accepts.  It is the invariant of the runs
without an accept. -/
structure Object.Sound (o : Object) : Prop where
  isConnect : o.socket.type = .tcp → o.established = true → o.socket.isConnect = true
  sock : o.socket.type = .tcp → o.socket.isConnect = true → o.socket.sock ≠ -1

/-- It holds of all objects.  Objects that were destroyed are not looked at. -/
def World.Sound (w : World) : Prop := ∀ id o, w.get id = some o → o.Sound

/-- There is a descriptor when it is not −1. -/
theorem isValid_iff {s : Socket} : s.isValid = true ↔ s.sock ≠ -1 := by
  rw [isValid, bne_iff_ne]

/-- A connected socket reaches the system calls.  `callOn` asks for nothing else. -/
theorem Tells.of {s : Socket} (hc : s.isConnect = true) (hs : s.sock ≠ -1) : Tells s := by
  have hcall : s.callOn = some s.sock := if_pos hc
  refine ⟨hc, hs, hcall, fun owner => ?_⟩
  rw [SocketStream.callOn, SocketStream.isConnected, Option.any_some, if_pos hc]
  exact hcall

/-- In a sound world the law holds. -/
theorem World.Sound.lawful {w : World} (h : w.Sound) : w.Lawful := by
  intro id o ho ht he
  have hc := (h id o ho).isConnect ht he
  exact Tells.of hc ((h id o ho).sock ht hc)

/-- After `close` a socket says that it is not connected.  Of whatever type it is. -/
theorem close_silent (s : Socket) : Silent s.close.1 := by
  rw [close]
  split
  next h =>
    rw [Bool.and_eq_true, Bool.not_eq_true', beq_iff_eq] at h
    exact ⟨h.1, h.2⟩
  next => exact ⟨rfl, rfl⟩

/-- `close` leaves the type. -/
@[simp] theorem close_type (s : Socket) : s.close.1.type = s.type := by
  rw [close]
  split <;> rfl

/-- `close` closes the descriptor if there is one.  It is told by the second part of its answer. -/
theorem close_closes (s : Socket) : s.close.2 = (s.sock != -1) := by
  rw [close]
  split
  next h =>
    rw [Bool.and_eq_true, beq_iff_eq] at h
    rw [h.2]
    rfl
  next => rfl

/-- `close` keeps an object sound. -/
theorem Object.Sound.close {o : Object} (h : o.Sound) : o.close.Sound := by
  have hs := close_silent o.socket
  refine ⟨fun ht he => ?_, fun _ hc => ?_⟩
  · rw [Object.close, close_type] at ht
    rw [Object.close, close_closes, Bool.and_eq_true, Bool.not_eq_true', bne_eq_false_iff_eq] at he
    exact absurd he.2 (h.sock ht (h.isConnect ht he.1))
  · rw [Object.close, hs.isConnect] at hc
    cases hc

/-- `bind` keeps an object sound. -/
theorem Object.Sound.bind {o : Object} (h : o.Sound) (fd : ℤ) :
    (⟨o.socket.bind fd, o.established⟩ : Object).Sound := by
  rw [Socket.bind]
  split
  next => exact h
  next hv =>
    refine ⟨h.isConnect, fun ht hc => ?_⟩
    exact absurd (isValid_iff.2 (h.sock ht hc)) hv

/-- What a `connect` does: it may make a descriptor, and then it is refused, fails and closes,
or succeeds. -/
theorem connect_cases (s : Socket) (addr : Address) (fd : ℤ) (ok : Bool) :
    ∃ s₁ : Socket, s₁.type = s.type ∧ s₁.isConnect = s.isConnect ∧
      (s.sock ≠ -1 → s₁.sock = s.sock) ∧
      (s₁.sock = -1 ∧ s.connect addr fd ok = (s₁, .noSocket) ∨
        s₁.sock ≠ -1 ∧
          (s.connect addr fd ok = (s₁, .otherFamily) ∨
            s.connect addr fd ok = (s₁.close.1, .refused) ∨
            s.connect addr fd ok = ({ s₁ with isConnect := true }, .ok))) := by
  obtain ⟨s₁, hs₁⟩ : ∃ s₁, s₁ = (if ({ s with remoteAddr := some addr } : Socket).isValid
      then { s with remoteAddr := some addr }
      else ({ s with remoteAddr := some addr } : Socket).newSocket fd) := ⟨_, rfl⟩
  have hsame : s₁.type = s.type ∧ s₁.isConnect = s.isConnect ∧
      (s.sock ≠ -1 → s₁.sock = s.sock) := by
    rw [hs₁]
    split
    next => exact ⟨rfl, rfl, fun _ => rfl⟩
    next hv => exact ⟨rfl, rfl, fun hs => absurd (isValid_iff.2 hs) hv⟩
  refine ⟨s₁, hsame.1, hsame.2.1, hsame.2.2, ?_⟩
  rw [connect]
  simp only [← hs₁]
  by_cases hv : s₁.isValid = true
  · refine Or.inr ⟨isValid_iff.1 hv, ?_⟩
    by_cases hf : addr.family = s₁.family
    · cases ok <;> simp [hv, hf]
    · simp [hv, hf]
  · refine Or.inl ⟨?_, ?_⟩
    · by_contra hs
      exact hv (isValid_iff.2 hs)
    · simp [hv]

/-- An object after a `connect`.  It is sound, and silent if it failed. -/
theorem Object.Sound.connect {o : Object} (h : o.Sound) (addr : Address) (fd : ℤ) (ok : Bool) :
    (o.connected (o.socket.connect addr fd ok)).Sound ∧
      ((o.socket.connect addr fd ok).2.isFailed = true →
        o.socket.type = .tcp → Silent (o.socket.connect addr fd ok).1) := by
  obtain ⟨s₁, ht, hc, hs, h₁⟩ := connect_cases o.socket addr fd ok
  have hkeep : o.socket.type = .tcp → o.socket.isConnect = true → s₁.sock ≠ -1 := by
    intro htcp hcon
    rw [hs (h.sock htcp hcon)]
    exact h.sock htcp hcon
  rcases h₁ with ⟨hn, h₁⟩ | ⟨hv, h₁ | h₁ | h₁⟩ <;> rw [h₁]
  · refine ⟨⟨fun htcp he => ?_, fun htcp hcon => ?_⟩, fun _ htcp => ⟨?_, hn⟩⟩
    · exact hc.trans (h.isConnect (ht ▸ htcp) he)
    · exact hkeep (ht ▸ htcp) (hc ▸ hcon)
    · rw [← Bool.not_eq_true]
      exact fun hcon => hkeep htcp (hc ▸ hcon) hn
  · refine ⟨⟨fun htcp he => ?_, fun _ _ => hv⟩, fun hf => ?_⟩
    · exact hc.trans (h.isConnect (ht ▸ htcp) he)
    · cases hf
  · have hsil := close_silent s₁
    refine ⟨⟨fun _ he => ?_, fun _ hcon => ?_⟩, fun _ _ => hsil⟩
    · cases he
    · exact absurd (hsil.isConnect.symm.trans hcon) Bool.false_ne_true
  · refine ⟨⟨fun _ _ => rfl, fun _ _ => hv⟩, fun hf => ?_⟩
    cases hf

/-- `connect` leaves the type. -/
@[simp] theorem connect_type (s : Socket) (addr : Address) (fd : ℤ) (ok : Bool) :
    (s.connect addr fd ok).1.type = s.type := by
  obtain ⟨s₁, ht, -, -, h₁⟩ := connect_cases s addr fd ok
  rcases h₁ with ⟨-, h₁⟩ | ⟨-, h₁ | h₁ | h₁⟩ <;> rw [h₁]
  · exact ht
  · exact ht
  · exact (close_type s₁).trans ht
  · exact ht

/-- `accept` gives an object exactly when there is a descriptor whose context is that of an open
socket.  What the peer is does not matter. -/
theorem accept_isSome_iff (s : Socket) (fd : ℤ) (ctx : FdCtx) (peer : Option Address) :
    (s.accept fd ctx peer).isSome = true ↔ (fd != -1 && ctx.isSocket && !ctx.isClose) = true := by
  rw [accept, init]
  cases ctx.isSocket <;> cases ctx.isClose <;> by_cases hfd : fd = -1 <;> simp [hfd]

/-- An object that `accept` gives has a descriptor, and does not say that it is connected.  So
it breaks the law, if it is of TCP. -/
theorem accept_eq_some {s s' : Socket} {fd : ℤ} {ctx : FdCtx} {peer : Option Address}
    (h : s.accept fd ctx peer = some s') : s'.type = s.type ∧ s'.isConnect = false := by
  rw [accept, init] at h
  split at h
  next => cases h
  next =>
    split at h
    next => cases h
    next =>
      split at h
      next => cases h
      next =>
        obtain rfl := Option.some.inj h
        exact ⟨rfl, rfl⟩

/-! ### What a step keeps -/

/-- A sound object may be added. -/
theorem World.Sound.add {w : World} (h : w.Sound) {o : Object} (ho : o.Sound) :
    (w.add o).Sound := by
  intro id p hp
  rcases World.get_add hp with hp | rfl
  · exact h id p hp
  · exact ho

/-- A sound object may be put. -/
theorem World.Sound.put {w : World} (h : w.Sound) {o : Option Object}
    (ho : ∀ p, o = some p → p.Sound) (id : ℕ) : (w.put id o).Sound := by
  intro k p hp
  rcases World.get_put hp with hp | ⟨-, hp⟩
  · exact h k p hp
  · exact ho p hp

/-- What a `reconnect` does to its object.  Nothing, or a `connect` to its peer. -/
theorem reconnect_cases (s : Socket) (fd : ℤ) (ok : Bool) :
    s.reconnect fd ok = (s, none) ∨
      ∃ addr, s.reconnect fd ok =
        ((s.connect addr fd ok).1, some (s.connect addr fd ok).2) := by
  rw [reconnect]
  cases s.remoteAddr with
  | none => exact Or.inl rfl
  | some addr => exact Or.inr ⟨addr, rfl⟩

/-- **A step.**  Unless a TCP object accepts, a step keeps every object sound.  By cases on the
step. -/
theorem step_sound {w w' : World} {a : Step} (h : w.Sound) (hs : step a w = some w')
    (ha : accepts w a = false) : w'.Sound := by
  cases a with
  | create family type =>
      obtain rfl := Option.some.inj hs
      exact h.add ⟨fun _ he => he, fun _ hc => absurd hc Bool.false_ne_true⟩
  | createUDP family fd =>
      obtain rfl := Option.some.inj hs
      exact h.add ⟨fun ht => (nomatch ht), fun ht => (nomatch ht)⟩
  | bind id fd =>
      obtain ⟨o, ho, rfl⟩ := Option.map_eq_some_iff.1 hs
      refine h.put (fun p hp => ?_) id
      exact Option.some.inj hp ▸ (h id o ho).bind fd
  | connect id addr fd ok =>
      obtain ⟨o, ho, rfl⟩ := Option.map_eq_some_iff.1 hs
      refine h.put (fun p hp => ?_) id
      exact Option.some.inj hp ▸ ((h id o ho).connect addr fd ok).1
  | reconnect id fd ok =>
      obtain ⟨o, ho, rfl⟩ := Option.map_eq_some_iff.1 hs
      rcases reconnect_cases o.socket fd ok with hr | ⟨addr, hr⟩ <;> rw [hr]
      · exact h
      · refine h.put (fun p hp => ?_) id
        exact Option.some.inj hp ▸ ((h id o ho).connect addr fd ok).1
  | accept id fd ctx peer =>
      obtain ⟨o, ho, hs⟩ := Option.bind_eq_some_iff.1 hs
      split at hs
      next => exact Option.some.inj hs ▸ h
      next =>
        obtain ⟨ctx, rfl, rfl⟩ := Option.map_eq_some_iff.1 hs
        cases hacc : o.socket.accept fd ctx peer with
        | none => exact h
        | some s =>
            obtain ⟨ht, -⟩ := accept_eq_some hacc
            have hudp : s.type ≠ .tcp := by
              intro htcp
              have hopen := (accept_isSome_iff o.socket fd ctx peer).1 (by rw [hacc]; rfl)
              rw [accepts, hopen, ho, Option.any_some, ← ht, htcp] at ha
              cases ha
            exact h.add ⟨fun htcp => absurd htcp hudp, fun htcp => absurd htcp hudp⟩
  | close id =>
      obtain ⟨o, ho, rfl⟩ := Option.map_eq_some_iff.1 hs
      refine h.put (fun p hp => ?_) id
      exact Option.some.inj hp ▸ (h id o ho).close
  | destroy id =>
      obtain ⟨o, ho, rfl⟩ := Option.map_eq_some_iff.1 hs
      refine h.put (fun p hp => ?_) id
      cases hp

/-- What was put at a living number is found there.  Nobody else has the number. -/
theorem World.get_put_self {w : World} {id : ℕ} {o p q : Object} (hw : w.get id = some p)
    (h : (w.put id (some o)).get id = some q) : q = o := by
  have hid : id < w.objects.length := by
    by_contra hid
    rw [get, List.getElem?_eq_none (by omega)] at hw
    cases hw
  rw [get, put, List.getElem?_set_self hid] at h
  exact (Option.some.inj h).symm

/-- A step that closes an object, or fails to connect it, leaves it silent.  By cases on the
step. -/
theorem step_lawful {w w' : World} {a : Step} (h : w.Sound) (hs : step a w = some w') :
    a.Lawful w w' := by
  intro id q hf hq ht
  cases a with
  | close k =>
      obtain ⟨o, ho, rfl⟩ := Option.map_eq_some_iff.1 hs
      obtain rfl := Option.some.inj hf
      obtain rfl := World.get_put_self ho hq
      exact close_silent o.socket
  | connect k addr fd ok =>
      obtain ⟨o, ho, rfl⟩ := Option.map_eq_some_iff.1 hs
      rw [fails, ho, Option.any_some, Option.ite_none_right_eq_some] at hf
      obtain ⟨hf, hk⟩ := hf
      obtain rfl := Option.some.inj hk
      obtain rfl := World.get_put_self ho hq
      exact ((h k o ho).connect addr fd ok).2 hf ((connect_type ..).symm.trans ht)
  | reconnect k fd ok =>
      obtain ⟨o, ho, rfl⟩ := Option.map_eq_some_iff.1 hs
      rw [fails, ho, Option.any_some, Option.ite_none_right_eq_some] at hf
      obtain ⟨hf, hk⟩ := hf
      obtain rfl := Option.some.inj hk
      rcases reconnect_cases o.socket fd ok with hr | ⟨addr, hr⟩
      · rw [hr] at hf
        cases hf
      · rw [hr] at hf hq
        obtain rfl := World.get_put_self ho hq
        exact ((h k o ho).connect addr fd ok).2 hf ((connect_type ..).symm.trans ht)
  | create => cases hf
  | createUDP => cases hf
  | bind => cases hf
  | accept => cases hf
  | destroy => cases hf

/-- Once a TCP object has accepted, the new object breaks the law.  It is established and does
not say so. -/
theorem step_accepts {w w' : World} {a : Step} (hs : step a w = some w')
    (ha : accepts w a = true) : ¬ w'.Lawful := by
  intro hlaw
  match a, ha with
  | .accept id fd (some ctx) peer, ha =>
    obtain ⟨hopen, ha⟩ := (Bool.and_eq_true ..).mp ha
    obtain ⟨o, ho, ha⟩ := (Option.any_eq_true ..).1 ha
    have ht : o.socket.type = .tcp := beq_iff_eq.1 ha
    obtain ⟨s, hacc⟩ := Option.isSome_iff_exists.1 ((accept_isSome_iff o.socket fd ctx peer).2 hopen)
    obtain ⟨hst, hsc⟩ := accept_eq_some hacc
    have hfd : fd ≠ -1 := by
      rintro rfl
      cases hacc
    have hw' : w' = w.add ⟨s, true⟩ := by
      simpa [step, ho, hfd, hacc] using hs.symm
    have htells := hlaw _ _ (hw' ▸ World.get_add_length w _) (hst.trans ht) rfl
    exact absurd (hsc.symm.trans htells.isConnect) Bool.false_ne_true

/-- The first state of such a run. -/
theorem LawfulRun.lawful {steps : List Step} {w : World} (h : LawfulRun steps w) : w.Lawful := by
  cases steps with
  | nil => exact h
  | cons a as => exact h.1

/-- From a sound world a run keeps the law exactly if no TCP object accepts in it.  The
induction is over the steps. -/
theorem lawfulRun_iff {steps : List Step} {w : World} (h : w.Sound) :
    LawfulRun steps w ↔ noAccept steps w = true := by
  induction steps generalizing w with
  | nil => exact iff_of_true h.lawful rfl
  | cons a as ih =>
      rw [LawfulRun, noAccept]
      cases hs : step a w with
      | none => exact iff_of_true ⟨h.lawful, trivial⟩ rfl
      | some w' =>
          simp only [Bool.and_eq_true, Bool.not_eq_true']
          constructor
          · rintro ⟨-, -, hrun⟩
            have ha : accepts w a = false := by
              rw [← Bool.not_eq_true]
              exact fun ha => step_accepts hs ha hrun.lawful
            exact ⟨ha, (ih (step_sound h hs ha)).1 hrun⟩
          · rintro ⟨ha, hrun⟩
            have hnext := step_sound h hs ha
            exact ⟨h.lawful, step_lawful h hs, (ih hnext).2 hrun⟩

/-- **The life of sockets.**  A run keeps the law, from no objects at all, exactly if no TCP
object accepts in it.  Whatever the system answers, and with any number of objects.  `connect`
sets the flag in line 281 of `src/hiper/base/socket.cc`, and `close` clears it in line 305;
`accept` (168) goes through `init` (183), which sets the descriptor and leaves the flag as the
constructor made it. -/
theorem lawfulRun_iff_no_accept (steps : List Step) :
    LawfulRun steps ⟨[]⟩ ↔ noAccept steps ⟨[]⟩ = true :=
  lawfulRun_iff fun _ _ h => nomatch h

/-- The accepted socket does not say that it is connected, so `send` on it answers −1. -/
theorem accepted_socket_silent :
    ¬ LawfulRun
        [.create 2 .tcp, .bind 0 5, .accept 0 7 (some ⟨true, false⟩) (some ⟨2, []⟩)] ⟨[]⟩ ∧
      ∃ w o, Lib.run step
        [.create 2 .tcp, .bind 0 5, .accept 0 7 (some ⟨true, false⟩) (some ⟨2, []⟩)] ⟨[]⟩ =
          some w ∧
        w.get 1 = some o ∧ o.socket.type = .tcp ∧ o.established = true ∧ o.socket.sock = 7 ∧
        o.socket.isConnect = false ∧ o.socket.callOn = none ∧
        (⟨some o.socket, true⟩ : SocketStream).callOn = none := by
  refine ⟨fun h => ?_, _, _, rfl, rfl, rfl, rfl, rfl, rfl, rfl, rfl⟩
  have htells := h.2.2.2.2.2.2 1 _ rfl rfl rfl
  exact absurd htells.isConnect Bool.false_ne_true

end Socket

end Hiper

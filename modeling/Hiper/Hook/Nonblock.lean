import Hiper.Hook.FdManager
import Hiper.Lib.Machine

/-!
# Two views of one flag

`hook.cc`: the kernel has `O_NONBLOCK` set on every socket that the hooks manage, and the
user is shown the flag as he left it, which the context remembers.  `socket`, `accept` and
`close` are intercepted to make and drop contexts, `fcntl` and `ioctl(FIONBIO)` to keep the
two views apart; `socket` and `close` of a thread without the hook pass the contexts by.

The two views are faithful in every state of a run exactly when no call of it is one of two
kinds (`nonblock_tracked_iff`): an `ioctl` that asks for blocking mode, which the kernel
gets as it is, and a `socket` or `accept` that gets a descriptor whose context an unhooked
`close` left behind.

The calls are `hook.cc:247` (`socket`), `hook.cc:346` (`accept`), `hook.cc:417` (`close`),
`hook.cc:443` (`fcntl`) and `hook.cc:530` (`ioctl`).  `fcntl` and `ioctl` do not look at
whether the hook is enabled, so that a thread without it gets them too.  The views are
compared for the descriptors that are open and have a context: the kernel's flag must be set
where the context says that the code has set it, and what `F_GETFL` answers must show what
the user asked for last, by `F_SETFL` or by `FIONBIO`, since the descriptor was opened.
-/

namespace Hiper

open Lib

/-- The open descriptors of the process and their contexts.  `asked`: what the last `F_SETFL` or
`FIONBIO` since the descriptor was opened asked for; the code does not look at it.  The manager
is that of `fdmanager.cc`. -/
structure Descriptors where
  kernel : OpenFiles
  fds : FdManager
  asked : ℕ → Bool

namespace Descriptors

/-- The files that are open when the first call is made have no contexts.  So the hooks do not
touch their flags. -/
def init (kernel : OpenFiles) : Descriptors := ⟨kernel, .init, fun _ => false⟩

/-- The calls, and the descriptor that the kernel chose where they succeed.  A call that the
kernel refuses changes nothing and is left out. -/
inductive Call
  /-- `socket(domain, type, protocol)`; whether `type` has `SOCK_NONBLOCK`. -/
  | socket (hook : Bool) (fd : ℕ) (sockNonblock : Bool)
  /-- `accept(s, addr, addrlen)`, with the hook or without. -/
  | accept (fd : ℕ)
  | close (hook : Bool) (fd : ℕ)
  /-- `fcntl(fd, F_SETFL, arg)`. -/
  | setfl (fd : ℕ) (arg : BitVec 32)
  /-- `fcntl(fd, F_GETFL)`. -/
  | getfl (fd : ℕ)
  /-- `ioctl(d, FIONBIO, &v)`. -/
  | fionbio (d : ℕ) (v : Bool)
  deriving DecidableEq, Repr

/-- A fresh socket of the kernel, open for reading and writing.  With `SOCK_NONBLOCK` it is
non-blocking for the kernel, and the user has not asked for anything else yet. -/
def openSocket (fd : ℕ) (sockNonblock : Bool) (s : Descriptors) : Descriptors :=
  { s with
    kernel := Function.update s.kernel fd
      (some ⟨true, if sockNonblock then 2#32 ||| oNonblock else 2#32⟩)
    asked := Function.update s.asked fd false }

/-- `FdMgr::GetInstance()->get(fd, true)`.  It makes a context where there is none. -/
def getCtx (fd : ℕ) (s : Descriptors) : Descriptors :=
  let (fds, kernel) := s.fds.get s.kernel fd true
  { s with fds := fds, kernel := kernel }

/-- `FdMgr::GetInstance()->get(fd)`, where `fcntl` and `ioctl` go on with it.  Without one, or
with one that is closed or of no socket, they pass the call on. -/
def socketCtx (fd : ℕ) (s : Descriptors) : Option FdCtx :=
  (s.fds.lookup fd).filter fun ctx => !ctx.isClosed && ctx.isSocket

/-- `fcntl(fd, F_SETFL, arg)`.  The context remembers what was asked for, and the kernel gets
the flag that the code wants (`hook.cc:449-465`). -/
def setfl (fd : ℕ) (arg : BitVec 32) (s : Descriptors) : Descriptors :=
  match s.socketCtx fd with
  | none => { s with
      kernel := s.kernel.setfl fd arg
      asked := Function.update s.asked fd (nonblock arg) }
  | some ctx => { s with
      fds := s.fds.setUserNonblock fd (nonblock arg)
      kernel := s.kernel.setfl fd (if ctx.sysNonblock then arg ||| oNonblock else arg &&& ~~~oNonblock)
      asked := Function.update s.asked fd (nonblock arg) }

/-- `fcntl(fd, F_GETFL)`, nothing for -1.  The kernel's answer with the user's flag in it
(`hook.cc:466-483`). -/
def getfl (fd : ℕ) (s : Descriptors) : Option (BitVec 32) :=
  match s.socketCtx fd with
  | none => s.kernel.getfl fd
  | some ctx =>
    (s.kernel.getfl fd).map fun arg =>
      if ctx.userNonblock then arg ||| oNonblock else arg &&& ~~~oNonblock

/-- `ioctl(d, FIONBIO, &v)`.  The context remembers what was asked for, and the kernel gets it
too (`hook.cc:538-547`). -/
def fionbio (d : ℕ) (v : Bool) (s : Descriptors) : Descriptors :=
  { s with
    fds := if (s.socketCtx d).isSome then s.fds.setUserNonblock d v else s.fds
    kernel := s.kernel.fionbio d v
    asked := Function.update s.asked d v }

/-- `close(fd)`.  With the hook the context is dropped (`hook.cc:417`). -/
def close (hook : Bool) (fd : ℕ) (s : Descriptors) : Descriptors :=
  { s with
    fds := if hook && (s.fds.lookup fd).isSome then s.fds.del fd else s.fds
    kernel := Function.update s.kernel fd none }

/-- A call; a descriptor that the kernel chooses is not open.  What a call does; nothing where
it is not possible. -/
def step : Call → Descriptors → Option Descriptors
  | .socket hook fd sockNonblock, s =>
    if (s.kernel fd).isSome then none
    else
      let s := s.openSocket fd sockNonblock
      some (if hook then s.getCtx fd else s)
  | .accept fd, s =>
    if (s.kernel fd).isSome then none else some ((s.openSocket fd false).getCtx fd)
  | .close hook fd, s => some (s.close hook fd)
  | .setfl fd arg, s => some (s.setfl fd arg)
  | .getfl _, s => some s
  | .fionbio d v, s => some (s.fionbio d v)

/-- What is promised of one descriptor.  Of a descriptor that is not open, or has no context,
nothing is. -/
def FaithfulAt (s : Descriptors) (fd : ℕ) : Prop :=
  ∀ file ctx, s.kernel fd = some file → s.fds.lookup fd = some ctx → ctx.isSocket = true →
    (ctx.sysNonblock = true → nonblock file.flags = true) ∧
      ∃ flags, s.getfl fd = some flags ∧ nonblock flags = s.asked fd

/-- The kernel's flag is set where the context says so, and the user sees what he asked for.  Of
every descriptor. -/
def Faithful (s : Descriptors) : Prop := ∀ fd, s.FaithfulAt fd

/-- The call is none of those that mix up the two views.  It is asked of the call and of the
state in which it is made. -/
def Tracks : Call → Descriptors → Prop
  | .socket _ fd sockNonblock, s =>
    ∀ ctx, s.fds.lookup fd = some ctx → sockNonblock = true ∧ ctx.userNonblock = false
  | .accept fd, s => s.fds.lookup fd = none
  | .fionbio d v, s => (s.kernel d).isSome = true → (s.fds.lookup d).isSome = true → v = true
  | _, _ => True

variable {kernel : OpenFiles} {s s' : Descriptors} {c : Call}

/-! ### The contexts -/

/-- All contexts are of sockets, and none is closed.  It holds of every state of a run. -/
structure Sockets (s : Descriptors) : Prop where
  length_le : 64 ≤ s.fds.datas.length
  ctx : ∀ fd ctx, s.fds.lookup fd = some ctx →
    ctx.isSocket = true ∧ ctx.sysNonblock = true ∧ ctx.isClosed = false

/-- At first there are no contexts at all. -/
theorem init_sockets (kernel : OpenFiles) : (init kernel).Sockets where
  length_le := by simp [init, FdManager.init]
  ctx := by
    intro fd ctx hctx
    rw [init, FdManager.lookup_init] at hctx
    cases hctx

/-- At first nothing is promised, as there are no contexts. -/
theorem init_faithful (kernel : OpenFiles) : (init kernel).Faithful := by
  intro fd file ctx _ hctx
  rw [init, FdManager.lookup_init] at hctx
  cases hctx

/-- A context, when there is one, is always one that the calls go on with. -/
theorem Sockets.socketCtx (h : s.Sockets) (fd : ℕ) : s.socketCtx fd = s.fds.lookup fd := by
  rw [Descriptors.socketCtx]
  cases hctx : s.fds.lookup fd with
  | none => rfl
  | some ctx =>
      obtain ⟨hsocket, -, hclosed⟩ := h.ctx fd ctx hctx
      simp [hsocket, hclosed]

/-- What the promise comes to: the kernel's flag is set, and the context remembers what was
asked for.  It is the form in which the steps are compared. -/
theorem Sockets.faithfulAt_iff (h : s.Sockets) (fd : ℕ) :
    s.FaithfulAt fd ↔ ∀ file ctx, s.kernel fd = some file → s.fds.lookup fd = some ctx →
      nonblock file.flags = true ∧ ctx.userNonblock = s.asked fd := by
  constructor
  · intro hf file ctx hfile hctx
    obtain ⟨hsocket, hsys, -⟩ := h.ctx fd ctx hctx
    obtain ⟨hset, flags, hflags, hshown⟩ := hf file ctx hfile hctx hsocket
    refine ⟨hset hsys, ?_⟩
    rw [← hshown]
    simp only [getfl, h.socketCtx, hctx, OpenFiles.getfl, hfile, Option.map_some, Option.some_inj] at hflags
    rw [← hflags]
    cases ctx.userNonblock <;> simp
  · intro hf file ctx hfile hctx _
    obtain ⟨hset, huser⟩ := hf file ctx hfile hctx
    refine ⟨fun _ => hset, if ctx.userNonblock then file.flags ||| oNonblock
      else file.flags &&& ~~~oNonblock, ?_, ?_⟩
    · simp only [getfl, h.socketCtx, hctx, OpenFiles.getfl, hfile, Option.map_some]
    · rw [← huser]
      cases ctx.userNonblock <;> simp

/-! ### One call -/

/-- What the two states say of `fd` is the same.  The kernel's file, the context, and what was
asked for. -/
structure SameAt (fd : ℕ) (s s' : Descriptors) : Prop where
  kernel : s'.kernel fd = s.kernel fd
  lookup : s'.fds.lookup fd = s.fds.lookup fd
  asked : s'.asked fd = s.asked fd

/-- A state is the same as itself. -/
theorem SameAt.refl (fd : ℕ) (s : Descriptors) : SameAt fd s s := ⟨rfl, rfl, rfl⟩

/-- Sameness is transitive. -/
theorem SameAt.trans {fd : ℕ} {s'' : Descriptors} (h : SameAt fd s s') (h' : SameAt fd s' s'') :
    SameAt fd s s'' :=
  ⟨h'.kernel.trans h.kernel, h'.lookup.trans h.lookup, h'.asked.trans h.asked⟩

/-- Where two states say the same, one is faithful when the other is. -/
theorem SameAt.faithfulAt {fd : ℕ} (h : SameAt fd s s') (hs : s.Sockets) (hs' : s'.Sockets) :
    s'.FaithfulAt fd ↔ s.FaithfulAt fd := by
  rw [hs.faithfulAt_iff, hs'.faithfulAt_iff, h.kernel, h.lookup, h.asked]

/-- A call about one descriptor leaves the others as they are.  So only that one has to be
looked at. -/
theorem faithful_iff_of_same {fd : ℕ} (hs : s.Sockets) (hs' : s'.Sockets)
    (hsame : ∀ i, i ≠ fd → SameAt i s s') (hf : s.Faithful) : s'.Faithful ↔ s'.FaithfulAt fd := by
  refine ⟨fun hf' => hf' fd, fun hfd i => ?_⟩
  by_cases hi : i = fd
  · exact hi ▸ hfd
  · exact ((hsame i hi).faithfulAt hs hs').2 (hf i)

/-- Other flags for one file leave the others. -/
theorem setFlags_same (k : OpenFiles) {fd i : ℕ} (hi : i ≠ fd) (f : BitVec 32 → BitVec 32) :
    k.setFlags fd f i = k i := Function.update_of_ne hi ..

/-- Other flags for a file, read off it. -/
theorem setFlags_self (k : OpenFiles) (fd : ℕ) (f : BitVec 32 → BitVec 32) :
    k.setFlags fd f fd = (k fd).map fun file => { file with flags := f file.flags } :=
  Function.update_self ..

/-! #### Sockets are opened -/

/-- A fresh socket leaves the contexts. -/
theorem openSocket_sockets (h : s.Sockets) (fd : ℕ) (sockNonblock : Bool) :
    (s.openSocket fd sockNonblock).Sockets := ⟨h.length_le, h.ctx⟩

/-- A fresh socket leaves all other descriptors. -/
theorem openSocket_same {fd i : ℕ} (hi : i ≠ fd) (sockNonblock : Bool) :
    SameAt i s (s.openSocket fd sockNonblock) :=
  ⟨Function.update_of_ne hi .., rfl, Function.update_of_ne hi ..⟩

/-- A fresh socket with a context that is left over.  It is faithful when the flag and the
context happen to agree. -/
theorem openSocket_faithfulAt (h : s.Sockets) (fd : ℕ) (sockNonblock : Bool) :
    (s.openSocket fd sockNonblock).FaithfulAt fd ↔
      ∀ ctx, s.fds.lookup fd = some ctx → sockNonblock = true ∧ ctx.userNonblock = false := by
  rw [(openSocket_sockets h fd sockNonblock).faithfulAt_iff]
  have hfile : (s.openSocket fd sockNonblock).kernel fd =
      some ⟨true, if sockNonblock then 2#32 ||| oNonblock else 2#32⟩ := Function.update_self ..
  have hasked : (s.openSocket fd sockNonblock).asked fd = false := Function.update_self ..
  have hflags : nonblock (if sockNonblock then 2#32 ||| oNonblock else 2#32) = sockNonblock := by
    cases sockNonblock <;> decide
  rw [hfile, hasked]
  constructor
  · intro hf ctx hctx
    have hboth := hf _ ctx rfl hctx
    rwa [hflags] at hboth
  · rintro hf file ctx ⟨⟩ hctx
    rw [hflags]
    exact hf ctx hctx

/-- A new context of an open socket, and what it does to the socket.  The flag is set, and the
user has not asked for it. -/
theorem new_socket {k : OpenFiles} {fd : ℕ} {file : File} (hfile : k fd = some file)
    (hsocket : file.isSocket = true) :
    (FdCtx.new k fd).1 = ⟨true, true, true, false, false, fd, -1, -1⟩ ∧
      (∃ file', (FdCtx.new k fd).2 fd = some file' ∧ nonblock file'.flags = true) ∧
      ∀ i, i ≠ fd → (FdCtx.new k fd).2 i = k i := by
  have hnew : FdCtx.new k fd = (⟨true, true, true, false, false, fd, -1, -1⟩,
      if nonblock file.flags then k else k.setfl fd (file.flags ||| oNonblock)) := by
    rw [FdCtx.new, hfile]
    dsimp only
    rw [hsocket]
    cases nonblock file.flags <;> rfl
  rw [hnew]
  refine ⟨rfl, ?_, fun i hi => ?_⟩
  · by_cases hflag : nonblock file.flags = true
    · exact ⟨file, by rw [if_pos hflag]; exact hfile, hflag⟩
    · have hset := (nonblock_setfl file.flags (file.flags ||| oNonblock)).trans (nonblock_or _)
      refine ⟨{ file with
        flags := file.flags &&& ~~~settable ||| (file.flags ||| oNonblock) &&& settable }, ?_, hset⟩
      dsimp only
      rw [if_neg hflag, OpenFiles.setfl, setFlags_self, hfile, Option.map_some]
  · dsimp only
    split_ifs
    · rfl
    · exact setFlags_same k hi _

/-- `get(fd, true)` on a fresh socket makes a faithful context, or leaves the one that is left
over.  What is left over is not looked at again. -/
theorem getCtx_spec (h : s.Sockets) {fd : ℕ} {file : File} (hfile : s.kernel fd = some file)
    (hsocket : file.isSocket = true) (hasked : s.asked fd = false) :
    (s.getCtx fd).Sockets ∧ (∀ i, i ≠ fd → SameAt i s (s.getCtx fd)) ∧
      ((s.getCtx fd).FaithfulAt fd ↔ s.FaithfulAt fd) := by
  cases hctx : s.fds.lookup fd with
  | some ctx =>
      have hsame : s.getCtx fd = s := by simp [getCtx, FdManager.get_true, hctx]
      rw [hsame]
      exact ⟨h, fun i _ => .refl i s, Iff.rfl⟩
  | none =>
      obtain ⟨hnew, ⟨file', hfile', hflag⟩, hothers⟩ := new_socket hfile hsocket
      have hcreate : s.getCtx fd = { s with
          fds := (s.fds.create s.kernel fd).1, kernel := (FdCtx.new s.kernel fd).2 } := by
        simp only [getCtx, FdManager.get_true, hctx]
        rfl
      have hlookup (i : ℕ) : (s.fds.create s.kernel fd).1.lookup i =
          if i = fd then some (FdCtx.new s.kernel fd).1 else s.fds.lookup i :=
        (FdManager.create_fst h.length_le).2
      rw [hcreate]
      have hs' : Descriptors.Sockets { s with
          fds := (s.fds.create s.kernel fd).1, kernel := (FdCtx.new s.kernel fd).2 } := by
        refine ⟨(FdManager.create_fst (i := 0) h.length_le).1, fun i ctx hi => ?_⟩
        simp only [hlookup, hnew] at hi
        split_ifs at hi
        · cases hi
          exact ⟨rfl, rfl, rfl⟩
        · exact h.ctx i ctx hi
      refine ⟨hs', fun i hi => ⟨hothers i hi, by rw [hlookup, if_neg hi], rfl⟩, ?_⟩
      rw [h.faithfulAt_iff, hs'.faithfulAt_iff]
      simp only [hlookup, if_true, hnew, hctx, hfile', hasked]
      constructor
      · rintro - file'' ctx - ⟨⟩
      · rintro - file'' ctx ⟨⟩ ⟨⟩
        exact ⟨hflag, rfl⟩

/-- `socket` with the hook, and `accept`.  Both open a socket and then ask for its context. -/
theorem opened_spec (h : s.Sockets) (fd : ℕ) (sockNonblock : Bool) :
    ((s.openSocket fd sockNonblock).getCtx fd).Sockets ∧
      (∀ i, i ≠ fd → SameAt i s ((s.openSocket fd sockNonblock).getCtx fd)) ∧
      (((s.openSocket fd sockNonblock).getCtx fd).FaithfulAt fd ↔
        ∀ ctx, s.fds.lookup fd = some ctx → sockNonblock = true ∧ ctx.userNonblock = false) := by
  have hfile : (s.openSocket fd sockNonblock).kernel fd =
      some ⟨true, if sockNonblock then 2#32 ||| oNonblock else 2#32⟩ := Function.update_self ..
  obtain ⟨hs, hsame, hiff⟩ := getCtx_spec (openSocket_sockets h fd sockNonblock) hfile rfl
    (Function.update_self ..)
  exact ⟨hs, fun i hi => (openSocket_same hi sockNonblock).trans (hsame i hi),
    hiff.trans (openSocket_faithfulAt h fd sockNonblock)⟩

/-! #### Flags are set -/

/-- Writing what the user asked for leaves the contexts those of sockets. -/
theorem setUserNonblock_sockets (h : s.Sockets) (fd : ℕ) (v : Bool) {kernel : OpenFiles}
    {asked : ℕ → Bool} :
    Descriptors.Sockets ⟨kernel, s.fds.setUserNonblock fd v, asked⟩ := by
  refine ⟨by rw [FdManager.length_setUserNonblock]; exact h.length_le, fun i ctx hi => ?_⟩
  rw [FdManager.lookup_setUserNonblock] at hi
  split_ifs at hi with heq
  · obtain ⟨ctx', hctx', rfl⟩ := Option.map_eq_some_iff.1 hi
    exact h.ctx fd ctx' hctx'
  · exact h.ctx i ctx hi

/-- Writing to one descriptor leaves the others. -/
theorem setUserNonblock_same (s : Descriptors) {fd i : ℕ} (hi : i ≠ fd) (v w : Bool)
    (f : BitVec 32 → BitVec 32) :
    SameAt i s ⟨s.kernel.setFlags fd f, s.fds.setUserNonblock fd v,
      Function.update s.asked fd w⟩ :=
  ⟨setFlags_same _ hi f, by rw [FdManager.lookup_setUserNonblock, if_neg hi],
    Function.update_of_ne hi ..⟩

/-- A context that is told what the user asked for is faithful when the kernel's flag is set.
What he is shown is right by then. -/
theorem setUserNonblock_faithfulAt (h : s.Sockets) (fd : ℕ) (v : Bool)
    (f : BitVec 32 → BitVec 32) :
    FaithfulAt ⟨s.kernel.setFlags fd f, s.fds.setUserNonblock fd v,
        Function.update s.asked fd v⟩ fd ↔
      ∀ file, s.kernel fd = some file → (s.fds.lookup fd).isSome = true →
        nonblock (f file.flags) = true := by
  rw [(setUserNonblock_sockets h fd v).faithfulAt_iff]
  simp only [setFlags_self, FdManager.lookup_setUserNonblock, if_true, Function.update_self]
  constructor
  · intro hf file hfile hsome
    obtain ⟨ctx, hctx⟩ := Option.isSome_iff_exists.1 hsome
    have hboth := hf { file with flags := f file.flags } { ctx with userNonblock := v }
      (by rw [hfile, Option.map_some]) (by rw [hctx, Option.map_some])
    exact hboth.1
  · intro hf file ctx hfile hctx
    obtain ⟨file', hfile', rfl⟩ := Option.map_eq_some_iff.1 hfile
    obtain ⟨ctx', hctx', rfl⟩ := Option.map_eq_some_iff.1 hctx
    exact ⟨hf file' hfile' (by rw [hctx', Option.isSome_some]), rfl⟩

/-- Where there is no context the manager is left as it is.  There is nothing to write to. -/
theorem setUserNonblock_none {m : FdManager} {fd : ℕ} (h : m.lookup fd = none) (v : Bool) :
    m.setUserNonblock fd v = m := by
  unfold FdManager.setUserNonblock
  rw [h]

/-- Both cases of `F_SETFL` in one.  With a context the flag is added to what the kernel is
asked for. -/
theorem Sockets.setfl_eq (h : s.Sockets) (fd : ℕ) (arg : BitVec 32) :
    s.setfl fd arg = ⟨s.kernel.setfl fd (if (s.fds.lookup fd).isSome then arg ||| oNonblock else arg),
      s.fds.setUserNonblock fd (nonblock arg), Function.update s.asked fd (nonblock arg)⟩ := by
  unfold setfl
  rw [h.socketCtx]
  cases hctx : s.fds.lookup fd with
  | none => simp only [setUserNonblock_none hctx, Option.isSome_none, Bool.false_eq_true, if_false]
  | some ctx =>
      have hsys := (h.ctx fd ctx hctx).2.1
      simp only [hsys, Option.isSome_some, if_true]

/-- Both cases of `FIONBIO` in one: the kernel gets what was asked for. -/
theorem Sockets.fionbio_eq (h : s.Sockets) (d : ℕ) (v : Bool) :
    s.fionbio d v =
      ⟨s.kernel.fionbio d v, s.fds.setUserNonblock d v, Function.update s.asked d v⟩ := by
  rw [fionbio, h.socketCtx]
  cases hctx : s.fds.lookup d with
  | none => simp only [setUserNonblock_none hctx, Option.isSome_none, Bool.false_eq_true, if_false]
  | some ctx => simp only [Option.isSome_some, if_true]

/-- `F_SETFL` leaves the contexts those of sockets. -/
theorem setfl_sockets (h : s.Sockets) (fd : ℕ) (arg : BitVec 32) : (s.setfl fd arg).Sockets := by
  rw [h.setfl_eq]
  exact setUserNonblock_sockets h fd _

/-- `F_SETFL` keeps the two views faithful, whatever is asked for. -/
theorem setfl_faithful (h : s.Sockets) (fd : ℕ) (arg : BitVec 32) (hf : s.Faithful) :
    (s.setfl fd arg).Faithful := by
  have hs' := setfl_sockets h fd arg
  rw [h.setfl_eq] at hs' ⊢
  refine (faithful_iff_of_same h hs' (fun i hi => setUserNonblock_same s hi _ _ _) hf).2 ?_
  refine (setUserNonblock_faithfulAt h fd (nonblock arg) _).2 fun file _ hsome => ?_
  rw [if_pos hsome, nonblock_setfl, nonblock_or]

/-- `FIONBIO` leaves the contexts those of sockets. -/
theorem fionbio_sockets (h : s.Sockets) (d : ℕ) (v : Bool) : (s.fionbio d v).Sockets := by
  rw [h.fionbio_eq]
  exact setUserNonblock_sockets h d v

/-- `FIONBIO` keeps the two views faithful exactly when it asks for non-blocking mode, or there
is no context. -/
theorem fionbio_faithful_iff (h : s.Sockets) (d : ℕ) (v : Bool) (hf : s.Faithful) :
    (s.fionbio d v).Faithful ↔ Tracks (.fionbio d v) s := by
  have hs' := fionbio_sockets h d v
  rw [h.fionbio_eq] at hs' ⊢
  refine (faithful_iff_of_same h hs' (fun i hi => setUserNonblock_same s hi _ _ _) hf).trans ?_
  refine (setUserNonblock_faithfulAt h d v _).trans ?_
  have hflag : ∀ flags : BitVec 32,
      nonblock (if v then flags ||| oNonblock else flags &&& ~~~oNonblock) = v := by
    intro flags
    cases v
    · exact nonblock_and_not flags
    · exact nonblock_or flags
  simp only [hflag, Tracks]
  constructor
  · intro hall hopen hsome
    obtain ⟨file, hfile⟩ := Option.isSome_iff_exists.1 hopen
    exact hall file hfile hsome
  · intro hall file hfile hsome
    exact hall (by rw [hfile, Option.isSome_some]) hsome

/-! #### Descriptors are closed -/

/-- Closing a descriptor leaves the others. -/
theorem close_same (s : Descriptors) (hook : Bool) {fd i : ℕ} (hi : i ≠ fd) :
    SameAt i s (s.close hook fd) := by
  refine ⟨Function.update_of_ne hi .., ?_, rfl⟩
  unfold close
  dsimp only
  split_ifs
  · rw [FdManager.lookup_del, if_neg hi]
  · rfl

/-- Closing a descriptor leaves the contexts those of sockets. -/
theorem close_sockets (h : s.Sockets) (hook : Bool) (fd : ℕ) : (s.close hook fd).Sockets := by
  unfold close
  split_ifs
  · refine ⟨by rw [FdManager.length_del]; exact h.length_le, fun i ctx hi => ?_⟩
    rw [FdManager.lookup_del] at hi
    split_ifs at hi
    exact h.ctx i ctx hi
  · exact ⟨h.length_le, h.ctx⟩

/-- Closing a descriptor keeps the two views faithful, with the hook or without: nothing is
promised of one that is not open. -/
theorem close_faithful (h : s.Sockets) (hook : Bool) (fd : ℕ) (hf : s.Faithful) :
    (s.close hook fd).Faithful := by
  refine (faithful_iff_of_same h (close_sockets h hook fd)
    (fun i hi => close_same s hook hi) hf).2 ?_
  intro file ctx hfile
  have hclosed : (s.close hook fd).kernel fd = none := Function.update_self ..
  rw [hclosed] at hfile
  cases hfile

/-! ### Every call -/

/-- All contexts stay contexts of sockets, whatever becomes of the flags.  One case for each
call. -/
theorem step_sockets (h : s.Sockets) (hstep : step c s = some s') : s'.Sockets := by
  cases c with
  | socket hook fd sockNonblock =>
      simp only [step] at hstep
      split_ifs at hstep
      · cases hstep
        exact (opened_spec h fd sockNonblock).1
      · cases hstep
        exact openSocket_sockets h fd sockNonblock
  | accept fd =>
      simp only [step] at hstep
      split_ifs at hstep
      cases hstep
      exact (opened_spec h fd false).1
  | close hook fd =>
      cases hstep
      exact close_sockets h hook fd
  | setfl fd arg =>
      cases hstep
      exact setfl_sockets h fd arg
  | getfl fd =>
      cases hstep
      exact h
  | fionbio d v =>
      cases hstep
      exact fionbio_sockets h d v

/-- **A call keeps the two views faithful** exactly when it is none of those that mix them up.
One case for each call. -/
theorem step_faithful_iff (h : s.Sockets) (hf : s.Faithful) (hstep : step c s = some s') :
    s'.Faithful ↔ Tracks c s := by
  cases c with
  | socket hook fd sockNonblock =>
      simp only [step] at hstep
      split_ifs at hstep with hopen hhook
      · cases hstep
        obtain ⟨hs', hsame, hiff⟩ := opened_spec h fd sockNonblock
        exact (faithful_iff_of_same h hs' hsame hf).trans hiff
      · cases hstep
        exact (faithful_iff_of_same h (openSocket_sockets h fd sockNonblock)
          (fun i hi => openSocket_same hi _) hf).trans (openSocket_faithfulAt h fd sockNonblock)
  | accept fd =>
      simp only [step] at hstep
      split_ifs at hstep with hopen
      cases hstep
      obtain ⟨hs', hsame, hiff⟩ := opened_spec h fd false
      refine (faithful_iff_of_same h hs' hsame hf).trans (hiff.trans ?_)
      change (∀ ctx, s.fds.lookup fd = some ctx → _) ↔ s.fds.lookup fd = none
      rw [Option.eq_none_iff_forall_not_mem]
      simp
  | close hook fd =>
      cases hstep
      exact iff_of_true (close_faithful h hook fd hf) trivial
  | setfl fd arg =>
      cases hstep
      exact iff_of_true (setfl_faithful h fd arg hf) trivial
  | getfl fd =>
      cases hstep
      exact iff_of_true hf trivial
  | fionbio d v =>
      cases hstep
      exact fionbio_faithful_iff h d v hf

/-- **The two views of the flag are faithful in every state of a run** exactly when none of its
calls is one of those that mix them up.  The condition is on each call and the state before it,
and both directions are over every run.  The hooked calls are `fcntl`
(`src/hiper/base/hook.cc:443-483`) and `ioctl` (530): `F_SETFL` keeps the kernel's flag as the
hook needs it, lines 458 to 463, while `FIONBIO` in line 547 passes the user's wish on to the
kernel. -/
theorem nonblock_tracked_iff (kernel : OpenFiles) (calls : List Call) (s : Descriptors)
    (hrun : run step calls (init kernel) = some s) :
    Always step Faithful calls (init kernel) ↔ Meets step Tracks calls (init kernel) :=
  always_iff_meets (fun _ _ _ h hstep => step_sockets h hstep)
    (fun _ _ _ h hf hstep => step_faithful_iff h hf hstep) (init_sockets kernel) (init_faithful kernel)
    hrun

/-- A socket is made non-blocking and blocking again by its user, and closed.  The user is shown
the flag as he left it. -/
theorem nonblock_tracked_setfl :
    Always step Faithful [.socket true 5 false, .setfl 5 (2#32 ||| oNonblock), .getfl 5,
      .setfl 5 2#32, .close true 5] (init fun _ => none) := by
  refine (nonblock_tracked_iff (fun _ => none) [.socket true 5 false,
    .setfl 5 (2#32 ||| oNonblock), .getfl 5, .setfl 5 2#32, .close true 5] _ rfl).2 ?_
  refine ⟨fun ctx hctx => ?_, fun _ _ => ⟨trivial, fun _ _ => ⟨trivial, fun _ _ => ⟨trivial,
    fun _ _ => ⟨trivial, fun _ _ => trivial⟩⟩⟩⟩⟩
  rw [init, FdManager.lookup_init] at hctx
  cases hctx

/-- An `ioctl` that asks for blocking mode: the kernel's flag is cleared under a context that
says it is set.  The failing run. -/
theorem fionbio_blocks : ∃ s : Descriptors,
    run step [.socket true 5 false, .fionbio 5 false] (init fun _ => none) = some s ∧
      ¬s.Faithful ∧
      ¬Always step Faithful [.socket true 5 false, .fionbio 5 false] (init fun _ => none) := by
  have hbad : ¬Faithful (((init fun _ => none).openSocket 5 false).getCtx 5 |>.fionbio 5 false) := by
    intro hf
    have hset := (hf 5 ⟨true, 2#32⟩ ⟨true, true, true, false, false, 5, -1, -1⟩ (by decide +kernel)
      (by decide +kernel) rfl).1 rfl
    revert hset
    decide
  exact ⟨_, rfl, hbad, fun halways => hbad ((halways.2 _ rfl).2 _ rfl)⟩

end Descriptors

end Hiper

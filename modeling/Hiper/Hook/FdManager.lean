import Hiper.Lib.Slots
import Mathlib.Logic.Function.Basic

/-!
# The contexts of file descriptors

`fdmanager.cc`: `FdMgr` keeps, by descriptor, an `FdCtx` that says whether the
descriptor is a socket and whether the user wants it non-blocking.  A new context
asks the kernel, and makes a socket non-blocking.

The kernel has the open descriptors of the process with their status flags.
Descriptors are small enough for `(int)datas_.size()` to be the size.

The functions are `fdmanager.cc:13-114`.  `get` looks under the read lock and creates under
the write lock (`create`), and the two halves are separate steps where they matter.  What
`FdCtx::init` asks of the kernel and does to the descriptor is folded into `FdCtx.new`; the
kernel is a table of the open descriptors, and a call on one that is not open fails.
-/

namespace Hiper

open Lib

/-! ### The kernel -/

/-- An open file: what `fstat` says of its type, and its status flags.  Whether it is a socket
is `S_ISSOCK`. -/
structure File where
  isSocket : Bool
  flags : BitVec 32
  deriving DecidableEq, Repr

/-- `O_NONBLOCK`.  It is 04000 in octal on Linux. -/
def oNonblock : BitVec 32 := 0x800#32

/-- `flags & O_NONBLOCK`, as a truth value.  It is how the flags are read. -/
def nonblock (flags : BitVec 32) : Bool := flags.getLsbD 11

/-- The flags that `F_SETFL` can change: `O_APPEND`, `O_ASYNC`, `O_DIRECT`, `O_NOATIME` and
`O_NONBLOCK`.  Access mode and creation flags stay as they are. -/
def settable : BitVec 32 := 0x46c00#32

/-- The open files of the process.  A descriptor that is not open has no entry. -/
abbrev OpenFiles := ℕ → Option File

namespace OpenFiles

/-- `fcntl_old(fd, F_GETFL)`, nothing for -1.  A descriptor that is not open gives -1. -/
def getfl (k : OpenFiles) (fd : ℕ) : Option (BitVec 32) := (k fd).map File.flags

/-- Other flags for an open file.  Descriptors that are not open are left alone. -/
def setFlags (k : OpenFiles) (fd : ℕ) (f : BitVec 32 → BitVec 32) : OpenFiles :=
  Function.update k fd ((k fd).map fun file => { file with flags := f file.flags })

/-- `fcntl_old(fd, F_SETFL, arg)`.  What cannot be set stays. -/
def setfl (k : OpenFiles) (fd : ℕ) (arg : BitVec 32) : OpenFiles :=
  k.setFlags fd fun flags => flags &&& ~~~settable ||| arg &&& settable

/-- `ioctl_old(fd, FIONBIO, &v)`.  It sets or clears the one flag. -/
def fionbio (k : OpenFiles) (fd : ℕ) (v : Bool) : OpenFiles :=
  k.setFlags fd fun flags => if v then flags ||| oNonblock else flags &&& ~~~oNonblock

end OpenFiles

/-- With the flag set, it is set. -/
@[simp]
theorem nonblock_or (flags : BitVec 32) : nonblock (flags ||| oNonblock) = true := by
  simp [nonblock, oNonblock]

/-- With the flag cleared, it is off. -/
@[simp]
theorem nonblock_and_not (flags : BitVec 32) : nonblock (flags &&& ~~~oNonblock) = false := by
  simp [nonblock, oNonblock]

/-- `F_SETFL` sets the flag to what it is in the argument.  It is one of those that can be set. -/
@[simp]
theorem nonblock_setfl (flags arg : BitVec 32) :
    nonblock (flags &&& ~~~settable ||| arg &&& settable) = nonblock arg := by
  simp [nonblock, settable]

/-! ### The contexts -/

/-- `FdCtx`.  Whether it is a socket, whether the code and the user have made it non-blocking,
and the two timeouts (`fdmanager.h`). -/
structure FdCtx where
  isInit : Bool
  isSocket : Bool
  sysNonblock : Bool
  userNonblock : Bool
  isClosed : Bool
  fd : ℕ
  recvTimeout : UInt64
  sendTimeout : UInt64
  deriving DecidableEq, Repr

/-- `FdCtx::FdCtx(fd)`, with what `init` does to the descriptor.  A socket that is blocking is
made non-blocking by the code (`fdmanager.cc:27`). -/
def FdCtx.new (k : OpenFiles) (fd : ℕ) : FdCtx × OpenFiles :=
  match k fd with
  | none => (⟨false, false, false, false, false, fd, -1, -1⟩, k)
  | some file =>
    (⟨true, file.isSocket, file.isSocket, false, false, fd, -1, -1⟩,
      if file.isSocket && !nonblock file.flags then k.setfl fd (file.flags ||| oNonblock) else k)

/-- `FdManager`.  The table grows and never shrinks. -/
structure FdManager where
  datas : List (Option FdCtx)

namespace FdManager

/-- `FdManager::FdManager()`.  It has 64 places (`fdmanager.cc:79`). -/
def init : FdManager := ⟨resize 64 []⟩

/-- `datas_[fd]`, nothing behind the end.  A place inside may be null as well. -/
def lookup (fd : ℕ) (m : FdManager) : Option FdCtx := slot m.datas fd

/-- The second half of `get`, under the write lock.  When the descriptor is behind the end of the
table, this gets one and a half times as many places as the descriptor says (`fdmanager.cc:101`). -/
def create (k : OpenFiles) (fd : ℕ) (m : FdManager) : FdManager × OpenFiles :=
  let (ctx, k) := FdCtx.new k fd
  let datas := if fd ≥ m.datas.length then resize (fd * 3 / 2) m.datas else m.datas
  (⟨datas.set fd (some ctx)⟩, k)

/-- `get(fd, auto_create)`: what it returns is in the manager then, if there is anything.  A
context is made only when the caller asks for one (`fdmanager.cc:83`). -/
def get (k : OpenFiles) (fd : ℕ) (autoCreate : Bool) (m : FdManager) : FdManager × OpenFiles :=
  if m.datas.length ≤ fd then
    if autoCreate = false then (m, k) else m.create k fd
  else if (m.lookup fd).isSome || !autoCreate then (m, k)
  else m.create k fd

/-- `del(fd)`.  Its place is null afterwards (`fdmanager.cc:108`). -/
def del (fd : ℕ) (m : FdManager) : FdManager :=
  if m.datas.length ≤ fd then m else ⟨m.datas.set fd none⟩

/-- Write through the pointer that `get(fd)` returned.  Where there is none, nothing is written. -/
def setUserNonblock (fd : ℕ) (v : Bool) (m : FdManager) : FdManager :=
  match m.lookup fd with
  | none => m
  | some ctx => ⟨m.datas.set fd (some { ctx with userNonblock := v })⟩

variable {m : FdManager} {k : OpenFiles} {fd i : ℕ}

/-- At first no descriptor has a context. -/
theorem lookup_init (fd : ℕ) : init.lookup fd = none := by
  rw [lookup, init, slot_resize]
  split_ifs <;> rfl

/-- A new context is the context of its descriptor; there is room for it when the table has
never been smaller than at first.  The other contexts stay. -/
theorem create_fst (h : 64 ≤ m.datas.length) :
    64 ≤ (m.create k fd).1.datas.length ∧
      (m.create k fd).1.lookup i = if i = fd then some (FdCtx.new k fd).1 else m.lookup i := by
  simp only [create, lookup]
  split_ifs with hgrow hi hi
  · refine ⟨by simp; omega, ?_⟩
    rw [slot_set (by rw [length_resize]; omega), if_pos hi]
  · refine ⟨by simp; omega, ?_⟩
    rw [slot_set (by rw [length_resize]; omega), if_neg hi, slot_resize]
    split_ifs with hlt
    · rfl
    · rw [slot_of_length_le (by omega)]
  · exact ⟨by simpa using h, by rw [slot_set (by omega), if_pos hi]⟩
  · exact ⟨by simpa using h, by rw [slot_set (by omega), if_neg hi]⟩

/-- `get(fd, true)` makes a context where there is none.  Where there is one, neither the
manager nor the kernel changes. -/
theorem get_true (k : OpenFiles) (fd : ℕ) (m : FdManager) :
    m.get k fd true = if (m.lookup fd).isSome then (m, k) else m.create k fd := by
  by_cases hlen : m.datas.length ≤ fd
  · simp [get, lookup, slot_of_length_le hlen, hlen]
  · simp [get, if_neg hlen]

/-- Taking a context away keeps the table's size. -/
theorem length_del (fd : ℕ) (m : FdManager) : (m.del fd).datas.length = m.datas.length := by
  unfold del
  split_ifs
  · rfl
  · exact List.length_set ..

/-- Taking a context away leaves the others. -/
theorem lookup_del (fd : ℕ) (m : FdManager) (i : ℕ) :
    (m.del fd).lookup i = if i = fd then none else m.lookup i := by
  unfold del lookup
  split_ifs with hlen hi hi
  · exact slot_of_length_le (hi ▸ hlen)
  · rfl
  · rw [slot_set (by omega), if_pos hi]
  · rw [slot_set (by omega), if_neg hi]

/-- Writing to a context keeps the table's size. -/
theorem length_setUserNonblock (fd : ℕ) (v : Bool) (m : FdManager) :
    (m.setUserNonblock fd v).datas.length = m.datas.length := by
  unfold setUserNonblock
  split
  · rfl
  · exact List.length_set ..

/-- Writing to a context changes that one. -/
theorem lookup_setUserNonblock (fd : ℕ) (v : Bool) (m : FdManager) (i : ℕ) :
    (m.setUserNonblock fd v).lookup i =
      if i = fd then (m.lookup fd).map fun ctx => { ctx with userNonblock := v }
      else m.lookup i := by
  unfold setUserNonblock
  cases hctx : m.lookup fd with
  | none =>
      split_ifs with hi
      · rw [hi, hctx]
        rfl
      · rfl
  | some ctx =>
      have hlt : fd < m.datas.length := by
        by_contra hle
        rw [lookup, slot_of_length_le (by omega)] at hctx
        cases hctx
      rw [lookup, slot_set hlt]
      rfl

end FdManager

end Hiper

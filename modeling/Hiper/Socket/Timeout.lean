import Hiper.ByteArray.RoundTrip
import Hiper.Hook.FdTable
import Hiper.Lib.Memory
import Hiper.Lib.Narrow
import Hiper.Socket.Basic

/-!
# Timeouts of a socket

`setSendTimeout` and `setRecvTimeout` make a `timeval` of a number of milliseconds and call
the template `setOption`, which passes on the address of what it was given.  The hooked
`setsockopt` reads a `timeval` there and tells the `FdCtx`, which `getSendTimeout` and
`getRecvTimeout` ask.

Of `tv_sec` the receiving side keeps an `int`.  The sending side gives the template a
pointer, so what is read is an address (`getSendTimeout_setSendTimeout`).

The functions are `src/hiper/base/socket.cc:105-140` and the template in
`src/hiper/base/socket.h`; the hooked `setsockopt` is `src/hiper/base/hook.cc:556`.  Memory
is modelled since the option is passed by its address: `Frame` says where the local and the
temporary are, and the contents of the rest are any.
-/

namespace Hiper

open Lib

/-- `SOL_SOCKET`.  The number of Linux. -/
def solSocket : ℤ := 1

/-- `SO_SNDTIMEO`.  The number of Linux. -/
def soSndtimeo : ℤ := 21

/-! ### Contexts -/

/-- `FdCtx::getTimeout(type)`.  Any other type is taken for the sending side. -/
def FdCtx.getTimeout (type : ℤ) (ctx : FdCtx) : UInt64 :=
  if type = soRcvtimeo then ctx.recvTimeout else ctx.sendTimeout

namespace FdManager

/-- `get(fd)`.  Nothing for a descriptor that it does not know. -/
def find (fd : ℤ) (m : FdManager) : Option FdCtx := if fd = -1 then none else m.lookup fd.toNat

/-- `setTimeout(type, v)` through the pointer that `get(fd)` returned.  Nothing happens without
a context. -/
def setTimeout (fd type : ℤ) (v : UInt64) (m : FdManager) : FdManager :=
  match m.find fd with
  | none => m
  | some ctx => ⟨m.datas.set fd.toNat (some (ctx.setTimeout type v))⟩

/-- The context after a timeout was set. -/
theorem find_setTimeout {fd : ℤ} {m : FdManager} {ctx : FdCtx} (h : m.find fd = some ctx)
    (type : ℤ) (v : UInt64) : (m.setTimeout fd type v).find fd = some (ctx.setTimeout type v) := by
  have hfd : fd ≠ -1 := by
    rintro rfl
    cases h
  have hslot : slot m.datas fd.toNat = some ctx := by rwa [find, if_neg hfd] at h
  have hlt : fd.toNat < m.datas.length := by
    by_contra hle
    rw [slot_of_length_le (by omega)] at hslot
    cases hslot
  rw [setTimeout, h, find, if_neg hfd, lookup, slot_set hlt, if_pos rfl]

end FdManager

/-- The timeout that was set is the one that is got. -/
@[simp]
theorem FdCtx.getTimeout_setTimeout (type : ℤ) (v : UInt64) (ctx : FdCtx) :
    (ctx.setTimeout type v).getTimeout type = v := by
  unfold FdCtx.setTimeout FdCtx.getTimeout
  split_ifs <;> rfl

/-! ### The hook -/

/-- `struct timeval`.  Two numbers of 64 bits. -/
structure Timeval where
  sec : Int64
  usec : Int64
  deriving DecidableEq, Repr

namespace Timeval

/-- As it lies in memory.  Sixteen of them, the seconds first. -/
def bytes (host : Endian) (tv : Timeval) : List UInt8 :=
  host.store 8 tv.sec.toBitVec ++ host.store 8 tv.usec.toBitVec

/-- `*(const timeval*)bytes`.  It reads sixteen bytes. -/
def load (host : Endian) (bytes : List UInt8) : Timeval :=
  ⟨.ofBitVec (host.load 8 (bytes.take 8)), .ofBitVec (host.load 8 (bytes.drop 8))⟩

/-- `tv_sec * 1000 + tv_usec / 1000`; what overflows wraps around.  The hook computes it. -/
def millis (tv : Timeval) : Int64 := tv.sec * 1000 + tv.usec / 1000

/-- The `timeval` that holds `v` milliseconds.  Its microseconds are whole milliseconds. -/
def holding (v : Int64) : Timeval := ⟨v / 1000, v % 1000 * 1000⟩

variable (host : Endian)

/-- It takes sixteen bytes. -/
@[simp]
theorem length_bytes (tv : Timeval) : (tv.bytes host).length = 16 := by
  simp [bytes, Endian.length_store]

/-- What was stored is loaded. -/
@[simp]
theorem load_bytes (tv : Timeval) : load host (tv.bytes host) = tv := by
  have hlen : (host.store 8 tv.sec.toBitVec).length = 8 := host.length_store 8 _
  rw [load, bytes, List.take_left' hlen, List.drop_left' hlen, host.load_store, host.load_store,
    Int64.ofBitVec_toBitVec, Int64.ofBitVec_toBitVec]

/-- Two that are stored alike are the same. -/
theorem bytes_inj {tv tv' : Timeval} : tv.bytes host = tv'.bytes host ↔ tv = tv' := by
  refine ⟨fun h => ?_, congrArg (bytes host)⟩
  rw [← load_bytes host tv, h, load_bytes]

end Timeval

/-- What `setsockopt` is called with, and the memory then.  The address and the length tell the
option. -/
structure OptionCall where
  mem : Memory UInt8
  level : ℤ
  optname : ℤ
  optval : ℕ
  optlen : ℕ

/-- The bytes of the option.  As many as the length says. -/
def OptionCall.bytes (c : OptionCall) : List UInt8 := c.mem.read c.optval c.optlen

/-- The hooked `setsockopt`: what it does to the contexts, before `setsockopt_old`.  It looks at
the level and at two of the names. -/
def setsockopt (host : Endian) (hookEnable : Bool) (sockfd : ℤ) (c : OptionCall) (m : FdManager) :
    FdManager :=
  if !hookEnable then m
  else if c.level = solSocket then
    if c.optname = soRcvtimeo ∨ c.optname = soSndtimeo then
      -- `optlen` is not looked at
      let v := Timeval.load host (c.mem.read c.optval 16)
      m.setTimeout sockfd c.optname v.millis.toUInt64
    else m
  else m

namespace Socket

/-! ### The setters -/

/-- The frame of a setter: where the local `tv` is, and the temporary for `&tv`.  They do not
overlap. -/
structure Frame where
  mem : Memory UInt8
  tv : ℕ
  tmp : ℕ

/-- What `setSendTimeout(v)` calls `setOption` with.  The temporary holds an address. -/
def sendOption (host : Endian) (fr : Frame) (v : Int64) : OptionCall :=
  let tv : Timeval := ⟨v / 1000, (v % 1000 * 1000).toInt32.toInt64⟩
  let mem := fr.mem.put fr.tv (tv.bytes host)
  -- `setOption(SOL_SOCKET, SO_SNDTIMEO, &tv)`: `T` is `timeval*`, `optval` a temporary
  { mem := mem.put fr.tmp (host.store 8 (BitVec.ofNat 64 fr.tv)),
    level := solSocket, optname := soSndtimeo, optval := fr.tmp, optlen := 8 }

/-- What `setRecvTimeout(v)` calls `setOption` with.  The option is the local itself. -/
def recvOption (host : Endian) (fr : Frame) (v : Int64) : OptionCall :=
  let tv : Timeval := ⟨(v / 1000).toInt32.toInt64, (v % 1000 * 1000).toInt32.toInt64⟩
  -- `setOption(SOL_SOCKET, SO_RCVTIMEO, tv)`: `T` is `timeval`
  { mem := fr.mem.put fr.tv (tv.bytes host),
    level := solSocket, optname := soRcvtimeo, optval := fr.tv, optlen := 16 }

/-- `setOption(level, option, result, len)`; `ret` is what `setsockopt_old` answers.  True if
the system answers 0. -/
def setOption (host : Endian) (hookEnable : Bool) (ret : ℤ) (c : OptionCall) (s : Socket)
    (m : FdManager) : Bool × FdManager :=
  (ret == 0, setsockopt host hookEnable s.sock c m)

/-- `setSendTimeout(v)`.  The answer of `setOption` is not used. -/
def setSendTimeout (host : Endian) (hookEnable : Bool) (ret : ℤ) (fr : Frame) (v : Int64)
    (s : Socket) (m : FdManager) : FdManager :=
  (s.setOption host hookEnable ret (sendOption host fr v) m).2

/-- `setRecvTimeout(v)`.  The answer of `setOption` is not used. -/
def setRecvTimeout (host : Endian) (hookEnable : Bool) (ret : ℤ) (fr : Frame) (v : Int64)
    (s : Socket) (m : FdManager) : FdManager :=
  (s.setOption host hookEnable ret (recvOption host fr v) m).2

/-- What the context of the socket says, −1 if there is none.  The conversion to `int64_t` keeps
the bits. -/
def getTimeout (type : ℤ) (s : Socket) (m : FdManager) : Int64 :=
  match m.find s.sock with
  | some ctx => (ctx.getTimeout type).toInt64
  | none => -1

/-- `getSendTimeout()`.  It asks for `SO_SNDTIMEO`. -/
def getSendTimeout (s : Socket) (m : FdManager) : Int64 := s.getTimeout soSndtimeo m

/-- `getRecvTimeout()`.  It asks for `SO_RCVTIMEO`. -/
def getRecvTimeout (s : Socket) (m : FdManager) : Int64 := s.getTimeout soRcvtimeo m

/-! ### The round trip -/

/-- Which timeout.  The two setters differ. -/
inductive Direction
  | send
  | recv
  deriving DecidableEq, Repr

/-- The bytes of the option are those of a `timeval` that holds `v`, and what was set is what is
got, with the hook enabled.  The option is a `timeval` of so many milliseconds, and they come
back. -/
def RoundTrips (host : Endian) (ret : ℤ) (fr : Frame) (s : Socket) (m : FdManager) (v : Int64) :
    Direction → Prop
  | .send =>
    (sendOption host fr v).bytes = (Timeval.holding v).bytes host ∧
      s.getSendTimeout (s.setSendTimeout host true ret fr v m) = v
  | .recv =>
    (recvOption host fr v).bytes = (Timeval.holding v).bytes host ∧
      s.getRecvTimeout (s.setRecvTimeout host true ret fr v m) = v

/-! ### Numbers -/

/-- A cast to `int` and back keeps the low 32 bits. -/
theorem toInt_toInt64_toInt32 (x : Int64) : x.toInt32.toInt64.toInt = narrow 32 x.toInt := by
  rw [Int32.toInt_toInt64, Int64.toInt_toInt32, narrow]

/-- The seconds of a timeout that is not negative. -/
theorem toInt_seconds {v : Int64} (hv : 0 ≤ v.toInt) : (v / 1000).toInt = v.toInt / 1000 := by
  rw [Int64.toInt_div_of_ne_right _ _ (by decide)]
  exact Int.tdiv_eq_ediv_of_nonneg hv

/-- The microseconds of a timeout that is not negative. -/
theorem toInt_micros {v : Int64} (hv : 0 ≤ v.toInt) :
    (v % 1000 * 1000).toInt = v.toInt % 1000 * 1000 := by
  rw [Int64.toInt_mul, Int64.toInt_mod, Int.tmod_eq_emod_of_nonneg hv]
  show Int.bmod (v.toInt % 1000 * 1000) (2 ^ 64) = v.toInt % 1000 * 1000
  exact Int.bmod_eq_of_le (by omega) (by omega)

/-- Nothing is lost between milliseconds and a `timeval`.  The time is not negative. -/
theorem millis_holding {v : Int64} (hv : 0 ≤ v.toInt) : (Timeval.holding v).millis = v := by
  have hlt := v.toInt_lt
  have hsec : (v / 1000 * 1000).toInt = v.toInt / 1000 * 1000 := by
    rw [Int64.toInt_mul, toInt_seconds hv]
    show Int.bmod (v.toInt / 1000 * 1000) (2 ^ 64) = v.toInt / 1000 * 1000
    exact Int.bmod_eq_of_le (by omega) (by omega)
  have husec : (v % 1000 * 1000 / 1000).toInt = v.toInt % 1000 := by
    rw [toInt_seconds (by rw [toInt_micros hv]; omega), toInt_micros hv]
    omega
  rw [← Int64.toInt_inj, Timeval.millis, Timeval.holding, Int64.toInt_add, hsec, husec]
  rw [Int.ediv_mul_add_emod]
  exact Int.bmod_eq_of_le (by omega) (by omega)

/-- The casts to `int` keep the seconds only where they are few.  Below `2 ^ 31` of them. -/
theorem recv_eq_holding_iff {v : Int64} (hv : 0 ≤ v.toInt) :
    (⟨(v / 1000).toInt32.toInt64, (v % 1000 * 1000).toInt32.toInt64⟩ : Timeval) = .holding v ↔
      v.toInt < 2147483648000 := by
  have husec : (v % 1000 * 1000).toInt32.toInt64 = v % 1000 * 1000 := by
    rw [← Int64.toInt_inj, toInt_toInt64_toInt32, toInt_micros hv]
    exact (narrow_eq_iff 31 (by omega)).2 (by omega)
  have hsec : (v / 1000).toInt32.toInt64 = v / 1000 ↔ v.toInt / 1000 < 2 ^ 31 := by
    rw [← Int64.toInt_inj, toInt_toInt64_toInt32, toInt_seconds hv]
    exact narrow_eq_iff 31 (by omega)
  rw [Timeval.holding, Timeval.mk.injEq, husec, hsec, and_iff_left rfl]
  omega

/-! ### What is got -/

/-- The option of the sending side is an address. -/
theorem bytes_sendOption (host : Endian) (fr : Frame) (v : Int64) :
    (sendOption host fr v).bytes = host.store 8 (BitVec.ofNat 64 fr.tv) :=
  Memory.read_put fr.tmp (host.length_store 8 _) _

/-- The option of the receiving side is a `timeval`. -/
theorem bytes_recvOption (host : Endian) (fr : Frame) (v : Int64) :
    (recvOption host fr v).bytes =
      (⟨(v / 1000).toInt32.toInt64, (v % 1000 * 1000).toInt32.toInt64⟩ : Timeval).bytes host :=
  Memory.read_put fr.tv (Timeval.length_bytes host _) _

variable {s : Socket} {m : FdManager} {ctx : Hiper.FdCtx}

/-- What the context says after a call is the `timeval` at the address that was passed. -/
theorem getTimeout_setsockopt (host : Endian) {c : OptionCall} (hlevel : c.level = solSocket)
    (hname : c.optname = soRcvtimeo ∨ c.optname = soSndtimeo) (hctx : m.find s.sock = some ctx) :
    s.getTimeout c.optname (setsockopt host true s.sock c m) =
      (Timeval.load host (c.mem.read c.optval 16)).millis := by
  simp only [setsockopt, getTimeout, hlevel, hname, Bool.not_true, Bool.false_eq_true, if_false,
    if_true, FdManager.find_setTimeout hctx, FdCtx.getTimeout_setTimeout, Int64.toInt64_toUInt64]

/-- What comes back on the receiving side. -/
theorem getRecvTimeout_setRecvTimeout (host : Endian) (ret : ℤ) (fr : Frame) (v : Int64)
    (hctx : m.find s.sock = some ctx) :
    s.getRecvTimeout (s.setRecvTimeout host true ret fr v m) =
      (⟨(v / 1000).toInt32.toInt64, (v % 1000 * 1000).toInt32.toInt64⟩ : Timeval).millis := by
  have hget := getTimeout_setsockopt host (c := recvOption host fr v) rfl (.inl rfl) hctx
  have hbytes : (recvOption host fr v).mem.read (recvOption host fr v).optval 16 = _ :=
    bytes_recvOption host fr v
  rw [hbytes, Timeval.load_bytes] at hget
  exact hget

/-- What comes back on the sending side: the address, taken for seconds, and what lies behind
it. -/
theorem getSendTimeout_setSendTimeout (host : Endian) (ret : ℤ) (fr : Frame) (v : Int64)
    (hctx : m.find s.sock = some ctx) :
    s.getSendTimeout (s.setSendTimeout host true ret fr v m) =
      .ofBitVec (BitVec.ofNat 64 fr.tv) * 1000 +
        .ofBitVec (host.load 8 ((sendOption host fr v).mem.read (fr.tmp + 8) 8)) / 1000 := by
  have hget := getTimeout_setsockopt host (c := sendOption host fr v) rfl (.inr rfl) hctx
  have hbytes : (sendOption host fr v).mem.read fr.tmp 8 = _ := bytes_sendOption host fr v
  have hlen := host.length_store 8 (BitVec.ofNat 64 fr.tv)
  have hread : (sendOption host fr v).mem.read (sendOption host fr v).optval 16 = _ :=
    Memory.read_add fr.tmp 8 8 _
  rw [hread, hbytes, Timeval.load, List.take_left' hlen, List.drop_left' hlen, host.load_store]
    at hget
  exact hget

/-- **A timeout comes back** on the receiving side if its seconds fit in an `int`, and on the
sending side never.  On the sending side it never does, since the option has the bytes of an
address.  `setRecvTimeout` (`src/hiper/base/socket.cc:132`) casts the seconds in line 136 and
passes the `timeval`; `setSendTimeout` (114) passes `&tv` to a template that takes the address
of what it gets. -/
theorem timeout_roundTrips_iff (host : Endian) (ret : ℤ) (fr : Frame)
    (hctx : m.find s.sock = some ctx) {v : Int64} (hv : 0 ≤ v) (d : Direction) :
    RoundTrips host ret fr s m v d ↔ d = .recv ∧ v < 2147483648000 := by
  replace hv : 0 ≤ v.toInt := Int64.le_iff_toInt_le.1 hv
  have hlt : v < 2147483648000 ↔ v.toInt < 2147483648000 := Int64.lt_iff_toInt_lt
  cases d with
  | send =>
      rw [RoundTrips, bytes_sendOption]
      refine iff_of_false (fun h => ?_) (by simp)
      have hlen := congrArg List.length h.1
      rw [host.length_store, Timeval.length_bytes] at hlen
      omega
  | recv =>
      rw [RoundTrips, bytes_recvOption, Timeval.bytes_inj, recv_eq_holding_iff hv, hlt,
        and_iff_right rfl]
      refine and_iff_left_of_imp fun hsmall => ?_
      rw [getRecvTimeout_setRecvTimeout host ret fr v hctx, (recv_eq_holding_iff hv).2 hsmall]
      exact millis_holding hv

/-- A socket on descriptor 0, and the manager that has it.  Its timeouts are not set yet. -/
def managed : Socket × FdManager :=
  ({ new 2 .tcp 0 with sock := 0 }, ⟨[some ⟨true, true, true, false, false, 0, -1, -1⟩]⟩)

/-- A second and a half, received. -/
theorem timeout_roundTrips_recv :
    RoundTrips .little 0 ⟨fun _ => 0, 4096, 8192⟩ managed.1 managed.2 1500 .recv :=
  (timeout_roundTrips_iff .little 0 _ rfl (by decide) .recv).2 ⟨rfl, by decide⟩

/-- A second, sent, and 2³¹ seconds, received. -/
theorem timeout_lost :
    let fr : Frame := ⟨fun _ => 0, 4096, 8192⟩
    ¬RoundTrips .little 0 fr managed.1 managed.2 1000 .send ∧
      managed.1.getSendTimeout (managed.1.setSendTimeout .little true 0 fr 1000 managed.2) =
        4096000 ∧
      ¬RoundTrips .little 0 fr managed.1 managed.2 2147483648000 .recv ∧
      managed.1.getRecvTimeout (managed.1.setRecvTimeout .little true 0 fr 2147483648000 managed.2) =
        -2147483648000 := by
  unfold RoundTrips
  decide +kernel

end Socket

end Hiper

import Mathlib.Data.Int.Notation
import Mathlib.Data.Nat.Notation

/-!
# Sockets

`Socket` of `socket.h` and `socket.cc`: a descriptor `sock_`, −1 when there is none,
and the flag `is_connect_` that `send` and `recv` ask.  What the system calls answer
is an argument.  Options, and the addresses that are only kept to be shown, are left
out; of an address only its family is looked at.

The functions are `src/hiper/base/socket.cc:168` (`accept`), `:183` (`init`), `:201`
(`bind`), `:248` (`connect`), `:301` (`close`) and, for `send` and `recv`, `:313-395`; the
stream is `src/hiper/streams/socket_stream.cc`.  A descriptor is an integer, so that the −1
of a call that failed is one of the answers.
-/

namespace Hiper

/-- `Socket::Type`.  The types for Unix sockets are these two. -/
inductive SocketType
  | tcp
  | udp
  deriving DecidableEq, Repr

/-- `Address`.  A family is a number. -/
structure Address where
  family : ℕ
  bytes : List UInt8
  deriving DecidableEq, Repr

/-- `Socket`.  The peer is kept for `reconnect`. -/
structure Socket where
  sock : ℤ
  family : ℕ
  type : SocketType
  protocol : ℕ
  isConnect : Bool
  remoteAddr : Option Address
  deriving DecidableEq, Repr

namespace Socket

/-- `Socket::Socket`.  It has no descriptor yet. -/
def new (family : ℕ) (type : SocketType) (protocol : ℕ) : Socket :=
  { sock := -1, family := family, type := type, protocol := protocol, isConnect := false,
    remoteAddr := none }

/-- `isValid()`: there is a descriptor. -/
def isValid (s : Socket) : Bool := s.sock != -1

/-- `Socket::newSocket`; `fd` is what `socket` answers.  A descriptor of −1 stays out. -/
def newSocket (s : Socket) (fd : ℤ) : Socket := { s with sock := fd }

/-- `Socket::CreateUDP`.  It has a descriptor at once, and says that it is connected. -/
def createUDP (family : ℕ) (fd : ℤ) : Socket :=
  { (new family .udp 0).newSocket fd with isConnect := true }

/-- `Socket::close`, and whether a descriptor was closed.  Without a descriptor nothing is
closed. -/
def close (s : Socket) : Socket × Bool :=
  if !s.isConnect && s.sock == -1 then (s, false)
  else ({ s with isConnect := false, sock := -1 }, s.sock != -1)

/-- How a `connect` goes: `refused` when `::connect` or `::connect_with_timeout` fails.  One
case for each of its returns. -/
inductive Connected
  | noSocket
  | otherFamily
  | refused
  | ok
  deriving DecidableEq, Repr

/-- `Socket::connect`; `fd` is what `socket` answers if it is asked, and `ok` tells whether the
system connects.  Only a connection that succeeds sets `is_connect_`. -/
def connect (s : Socket) (addr : Address) (fd : ℤ) (ok : Bool) : Socket × Connected :=
  let s := { s with remoteAddr := some addr }
  let s := if s.isValid then s else s.newSocket fd
  if !s.isValid then (s, .noSocket)
  else if addr.family != s.family then (s, .otherFamily)
  else if !ok then (s.close.1, .refused)
  else ({ s with isConnect := true }, .ok)

/-- `Socket::reconnect`.  Without a peer nothing is tried. -/
def reconnect (s : Socket) (fd : ℤ) (ok : Bool) : Socket × Option Connected :=
  match s.remoteAddr with
  | none => (s, none)
  | some addr =>
    let r := s.connect addr fd ok
    (r.1, some r.2)

/-- `Socket::bind`, as far as it makes a descriptor.  The system may refuse the address; the
descriptor stays. -/
def bind (s : Socket) (fd : ℤ) : Socket := if s.isValid then s else s.newSocket fd

/-- `FdCtx`, what `Socket::init` asks of it.  Whether it is a socket, and whether it is closed. -/
structure FdCtx where
  isSocket : Bool
  isClose : Bool
  deriving DecidableEq, Repr

/-- `Socket::init` of a descriptor and its context; `peer` is what `getpeername` answers.
`is_connect_` is not set here. -/
def init (s : Socket) (fd : ℤ) (ctx : FdCtx) (peer : Option Address) : Option Socket :=
  if !ctx.isSocket then none
  else if ctx.isClose then none
  else some { s with sock := fd, remoteAddr := s.remoteAddr.or peer }

/-- `Socket::accept`: the new object, if the system accepts.  The new object has the type of the
old one. -/
def accept (s : Socket) (fd : ℤ) (ctx : FdCtx) (peer : Option Address) : Option Socket :=
  if fd = -1 then none else (new s.family s.type s.protocol).init fd ctx peer

/-- The descriptor that the system call of `send` or `recv` is made on; without one the answer
is −1.  It asks for the flag alone. -/
def callOn (s : Socket) : Option ℤ := if s.isConnect then some s.sock else none

end Socket

/-- `SocketStream`.  It may have no socket. -/
structure SocketStream where
  sock : Option Socket
  owner : Bool
  deriving DecidableEq, Repr

namespace SocketStream

/-- `SocketStream::isConnected`.  It asks its socket. -/
def isConnected (st : SocketStream) : Bool := st.sock.any (·.isConnect)

/-- The descriptor that the system call of `read` or `write` is made on.  It asks `isConnected`
first. -/
def callOn (st : SocketStream) : Option ℤ :=
  if st.isConnected then st.sock.bind (·.callOn) else none

end SocketStream

end Hiper

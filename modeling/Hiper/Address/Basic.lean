import Hiper.ByteArray.RoundTrip
import Hiper.Lib.Octets
import Hiper.StringUtil.Url

/-!
# Addresses

`address.cc`: the IPv4 and IPv6 socket addresses, their networks, their text, and
how `Address::Lookup` cuts a host into what `getaddrinfo` is asked for.  `host` is
the byte order of the machine.

`none` is an expression whose value the language leaves undefined: a shift by the
width of the type or more, an access past the end of an array, and an `int` that
overflows, unless the implementation says what it is then (`overflow`).

The functions are `address.cc:18` (`CreateMask`), `address.cc:324-362` for IPv4,
`address.cc:422-490` for IPv6, and `address.cc:46-89` for the part of `Lookup` that comes
before `getaddrinfo`.  An address is kept as it lies in the `sockaddr`: the port and the
IPv4 address as integers in network byte order, and the IPv6 address as sixteen octets, so
that what the machine reads of them depends on its byte order and `byteswapOnLittleEndian`
undoes that.  A result that may be a null pointer is an `Option` inside the other one.
-/

namespace Hiper

open Lib StringUtil

/-- `byteswapOnLittleEndian`.  It is `endian.hpp`'s function of that name, the identity on a
big-endian machine. -/
def byteswapOnLittleEndian (host : Endian) (n : ℕ) (t : BitVec (8 * n)) : BitVec (8 * n) :=
  if host = .little then byteswap n t else t

/-- Bytes read in one order and swapped are the bytes read in the other. -/
theorem byteswap_load {n : ℕ} {bytes : List UInt8} (h : bytes.length = n) :
    byteswap n (Endian.little.load n bytes) = Endian.big.load n bytes := by
  have hlt : ofLE bytes < 2 ^ (8 * n) := by
    rw [pow_mul, ← h]
    exact ofLE_lt bytes
  subst h
  rw [byteswap, Endian.load, BitVec.toNat_ofNat, Nat.mod_eq_of_lt hlt, toLE_ofLE]
  rfl

/-- What lies in memory in network byte order, as the number it is.  On either machine. -/
theorem byteswapOnLittleEndian_load (host : Endian) {n : ℕ} {bytes : List UInt8}
    (h : bytes.length = n) :
    byteswapOnLittleEndian host n (host.load n bytes) = Endian.big.load n bytes := by
  cases host with
  | little => exact byteswap_load h
  | big => rfl

/-- Done twice, it changes nothing. -/
theorem byteswapOnLittleEndian_self (host : Endian) (n : ℕ) (t : BitVec (8 * n)) :
    byteswapOnLittleEndian host n (byteswapOnLittleEndian host n t) = t := by
  cases host with
  | little => exact byteswap_byteswap n t
  | big => rfl

/-- The number that lies in memory in network byte order.  It is the value that was meant,
whatever the machine. -/
theorem bigLoad_store (host : Endian) (n : ℕ) (t : BitVec (8 * n)) :
    Endian.big.load n (host.store n t) = byteswapOnLittleEndian host n t := by
  cases host with
  | little => rfl
  | big => exact Endian.load_store .big n t

namespace Address

/-- `sockaddr_in`; port and address are in network byte order.  The padding is left out, which
no function reads. -/
structure SockaddrIn where
  family : UInt16
  port : BitVec (8 * 2)
  addr : BitVec (8 * 4)
  deriving DecidableEq, Repr

/-- `sockaddr_in6`; `addr` is `s6_addr`.  Flow information and scope are copied and never read. -/
structure SockaddrIn6 where
  family : UInt16
  port : BitVec (8 * 2)
  flowinfo : UInt32
  addr : Octets 16
  scopeId : UInt32
  deriving DecidableEq

/-- `AF_INET`. -/
def afInet : UInt16 := 2

/-- `AF_INET6`. -/
def afInet6 : UInt16 := 10

/-! ### Masks -/

/-- `a - b` on `int`.  A difference outside of `int` is what `overflow` says, if anything. -/
def intSub (overflow : ℤ → Option (BitVec 32)) (a b : BitVec 32) : Option (BitVec 32) :=
  let d := a.toInt - b.toInt
  if -2 ^ 31 ≤ d ∧ d < 2 ^ 31 then some (BitVec.ofInt 32 d) else overflow d

/-- `sizeof(T) * 8 - bits`, a `size_t`, for a `T` of `w` bits.  A prefix longer than the type
makes it wrap around. -/
def shiftAmount (w : ℕ) (bits : UInt32) : ℕ := (((w : ℤ) - bits.toNat) % 2 ^ 64).toNat

/-- `CreateMask<T>(bits)`: `(1 << (sizeof(T) * 8 - bits)) - 1`, which is an `int` at first.  For
a narrow `T` the shift and the subtraction are on `int`, and the result is cut to the type
(`address.cc:18`). -/
def createMask (overflow : ℤ → Option (BitVec 32)) (w : ℕ) (bits : UInt32) : Option (BitVec w) :=
  if shiftAmount w bits < 32 then
    (intSub overflow (1#32 <<< shiftAmount w bits) 1#32).map (BitVec.setWidth w)
  else none

end Address

open Address

namespace IPv4Address

variable (overflow : ℤ → Option (BitVec 32)) (host : Endian)

/-- `broadcastAddress`; a null pointer when the prefix is too long.  The host bits are set
(`address.cc:333`). -/
def broadcastAddress (prefixLen : UInt32) (x : SockaddrIn) : Option (Option SockaddrIn) :=
  if prefixLen > 32 then some none
  else (createMask overflow 32 prefixLen).map fun mask =>
    some { x with addr := x.addr ||| byteswapOnLittleEndian host 4 mask }

/-- `networkAddress`.  The host bits are cleared; the result is a null pointer when the prefix is
too long (`address.cc:344`). -/
def networkAddress (prefixLen : UInt32) (x : SockaddrIn) : Option (Option SockaddrIn) :=
  if prefixLen > 32 then some none
  else (createMask overflow 32 prefixLen).map fun mask =>
    some { x with addr := x.addr &&& byteswapOnLittleEndian host 4 (~~~mask) }

/-- `subnetMask`.  The network bits are set (`address.cc:355`). -/
def subnetMask (prefixLen : UInt32) : Option SockaddrIn :=
  (createMask overflow 32 prefixLen).map fun mask =>
    ⟨afInet, 0, ~~~byteswapOnLittleEndian host 4 mask⟩

end IPv4Address

namespace IPv6Address

variable (overflow : ℤ → Option (BitVec 32))

/-- The indices from `first` up to the last of `s6_addr`.  It is the loop that fills the octets
behind the one that is cut. -/
def indicesFrom (first : ℕ) : List ℕ := List.range' first (16 - first)

/-- `broadcastAddress`.  The octet of index `prefix_len / 8` is changed and those behind it are
set (`address.cc:449`). -/
def broadcastAddress (prefixLen : UInt32) (x : SockaddrIn6) : Option SockaddrIn6 := do
  let mask ← createMask overflow 8 (prefixLen % 8)
  let octet ← Octets.load (prefixLen / 8).toNat x.addr
  let addr ← Octets.store (prefixLen / 8).toNat (octet ||| ⟨mask⟩) x.addr
  let addr ← Octets.fill 0xff (indicesFrom ((prefixLen / 8).toNat + 1)) addr
  pure { x with addr := addr }

/-- `networkAddress`.  The octet of index `prefix_len / 8` is changed and those behind it are
cleared (`address.cc:467`). -/
def networkAddress (prefixLen : UInt32) (x : SockaddrIn6) : Option SockaddrIn6 := do
  let mask ← createMask overflow 8 (prefixLen % 8)
  let octet ← Octets.load (prefixLen / 8).toNat x.addr
  let addr ← Octets.store (prefixLen / 8).toNat (octet &&& ⟨~~~mask⟩) x.addr
  let addr ← Octets.fill 0x00 (indicesFrom ((prefixLen / 8).toNat + 1)) addr
  pure { x with addr := addr }

/-- `subnetMask`.  The octet of index `prefix_len / 8` is set to a mask, and those before it to
ones (`address.cc:479`). -/
def subnetMask (prefixLen : UInt32) : Option SockaddrIn6 := do
  let mask ← createMask overflow 8 (prefixLen % 8)
  let addr ← Octets.store (prefixLen / 8).toNat ⟨~~~mask⟩ fun _ => 0
  let addr ← Octets.fill 0xff (List.range (prefixLen / 8).toNat) addr
  pure ⟨afInet6, 0, 0, addr, 0⟩

/-! ### Text -/

/-- `((uint16_t*)addr_.sin6_addr.s6_addr)[i]`, for each `i`.  The words are read as the machine
reads them. -/
def words (host : Endian) (x : SockaddrIn6) : List (BitVec (8 * 2)) :=
  (List.finRange 8).map fun i : Fin 8 =>
    host.load 2 [x.addr ⟨2 * i, by omega⟩, x.addr ⟨2 * i + 1, by omega⟩]

/-- The loop over `addr`, from the word behind `prev` on: what it writes, and `used_zeros`.  The
first run of zeros is left out, and a second colon marks where it was (`address.cc:427-440`). -/
def insertLoop (host : Endian) :
    Option (BitVec (8 * 2)) → Bool → List (BitVec (8 * 2)) → Bytes × Bool
  | _, usedZeros, [] => ([], usedZeros)
  | prev, usedZeros, word :: rest =>
    if word = 0 ∧ usedZeros = false then insertLoop host (some word) usedZeros rest
    else
      let gap := prev = some 0 ∧ usedZeros = false
      let (os, usedZeros) := insertLoop host (some word) (usedZeros || gap) rest
      ((if gap then text ":" else []) ++ (if prev.isSome then text ":" else []) ++
        toHex (byteswapOnLittleEndian host 2 word).toNat ++ os, usedZeros)

/-- `insert`: what is between the brackets.  A run that reaches the end is marked behind the
loop (`address.cc:441`). -/
def insertHost (host : Endian) (x : SockaddrIn6) : Bytes :=
  let (os, usedZeros) := insertLoop host none false (words host x)
  os ++ if usedZeros = false ∧ (words host x).getLast? = some 0 then text "::" else []

/-- `insert`, on a stream that writes numbers in the plain decimal form.  The port follows the
closing bracket (`address.cc:422`). -/
def insert (host : Endian) (x : SockaddrIn6) : Bytes :=
  text "[" ++ insertHost host x ++ text "]:" ++
    decimal (byteswapOnLittleEndian host 2 x.port).toNat

end IPv6Address

/-! ### `Address::Lookup` -/

namespace Address

/-- `memchr(s + from, ch, s.size() - from)`, as an index into `s`.  Nothing when the byte is not
there. -/
def memchr (s : Bytes) (start : ℕ) (ch : Byte) : Option ℕ :=
  ((s.drop start).findIdx? (· = ch)).map (start + ·)

/-- Node and service, as strings, when the first stage found a node.  The closing bracket is
looked for behind the opening one, and a colon behind it starts the service
(`address.cc:61-70`). -/
def bracketed (host : Bytes) : Option (Bytes × Option Bytes) :=
  if host.head? = some 91 then
    (memchr host 1 93).map fun endipv6 =>
      ((host.drop 1).take (endipv6 - 1),
        if (host ++ [0])[endipv6 + 1]? = some 58 then some (host.drop (endipv6 + 2)) else none)
  else none

/-- Node and service of the second stage: the service is where the colon is, or behind it.  With
one colon the node is what stands before it; with more, the node stays empty and the service is
not put back (`address.cc:73-82`). -/
def colonSplit (host : Bytes) : Bytes × Option Bytes :=
  match memchr host 0 58 with
  | none => ([], none)
  | some service =>
    if (memchr host (service + 1) 58).isNone then
      (host.take service, some (host.drop (service + 1)))
    else ([], some (host.drop service))

/-- The node and the service that `getaddrinfo` is given, each up to the end of its string.  A
node that is still empty is the whole host (`address.cc:85`), and a null service is none. -/
def lookupNames (host : Bytes) : Bytes × Option Bytes :=
  let (node, service) := (bracketed host).getD ([], none)
  let (node, service) := if node = [] then colonSplit host else (node, service)
  (if node = [] then host else node, service)

end Address

end Hiper

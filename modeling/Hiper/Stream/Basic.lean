import Hiper.ByteArray.Buffers
import Hiper.Socket.Basic
import Mathlib.Algebra.Order.Ring.Int
import Mathlib.Tactic.Linarith

/-!
# Streams

`Stream::readFixSize` and `Stream::writeFixSize` of `stream.cc` call `read` or `write`
until all of a length is moved or a call answers 0 or less.  `SocketStream::read` and
`SocketStream::write` of `socket_stream.cc` move bytes between a byte array and the
system: `sendmsg` takes some of what it is given, `recvmsg` fills some of the room.
Their answers are arguments.

The loops are `src/hiper/base/stream.cc:10-65`, the calls
`src/hiper/streams/socket_stream.cc:27-64` and `src/hiper/base/socket.cc:320` and `:358`.  A
call that moves bytes takes the buffers of the byte array (`getReadBuffers`,
`getWriteBuffers`) and moves its position afterwards; the bytes on their way are a list
between the two ends.
-/

namespace Hiper

/-- What `sendmsg` or `recvmsg` answers: −1, or a count, at most what there is.  A count of 0 is
a closed connection. -/
inductive Answer
  | failed
  | count (k : ℕ)
  deriving DecidableEq, Repr

namespace Answer

/-- What the call returns, when there are so many bytes to move. -/
def of (total : ℕ) : Answer → ℤ
  | failed => -1
  | count k => min k total

/-- The count; none when the call failed. -/
def moved : Answer → ℕ
  | failed => 0
  | count k => k

end Answer

/-- Conversion to `int`.  It keeps the low 32 bits. -/
def toInt (x : ℤ) : ℤ := x.bmod (2 ^ 32)

/-- `Socket::send` and `Socket::recv` of buffers with `total` bytes to move.  −1 without a
connection; otherwise what the system answers. -/
def Socket.transfer (s : Socket) (a : Answer) (total : ℕ) : ℤ :=
  if s.isConnect then toInt (a.of total) else -1

/-- A byte array and the bytes that are on their way.  The second part is what the other side
will read. -/
structure Channel where
  ba : ByteArray
  wire : List UInt8

namespace SocketStream

/-- The end of `SocketStream::read` and `write`: the cursor moves over what the call answers to
have moved.  It may throw where there is no room. -/
def advance (rt : ℤ) (c : Channel) : Except Fault ℤ × Channel :=
  if rt > 0 then
    let r := (ByteArray.setPosition (c.ba.getPosition + rt.toNat)).exec c.ba
    (r.1.map fun _ => rt, ⟨r.2, c.wire⟩)
  else (.ok rt, c)

/-- `SocketStream::write(ba, length)`.  The cursor moves over what was sent. -/
def write (st : SocketStream) (a : Answer) (length : ℕ) (c : Channel) :
    Except Fault ℤ × Channel :=
  match st.sock with
  | none => (.ok (-1), c)
  | some s =>
    if !s.isConnect then (.ok (-1), c)
    else
      match c.ba.getReadBuffers length with
      | .error e => (.error e, c)
      | .ok iovs =>
        let data := ByteArray.gather c.ba.root iovs
        let rt := s.transfer a data.length
        advance rt ⟨c.ba, c.wire ++ data.take rt.toNat⟩

/-- `SocketStream::read(ba, length)`.  The room is made first. -/
def read (st : SocketStream) (a : Answer) (length : ℕ) (c : Channel) :
    Except Fault ℤ × Channel :=
  match st.sock with
  | none => (.ok (-1), c)
  | some s =>
    if !s.isConnect then (.ok (-1), c)
    else
      match (ByteArray.getWriteBuffers length).exec c.ba with
      | (.error e, b) => (.error e, ⟨b, c.wire⟩)
      | (.ok iovs, b) =>
        let rt := s.transfer a (min (ByteArray.totalLen iovs) c.wire.length)
        advance rt ⟨b.fill iovs (c.wire.take rt.toNat), c.wire.drop rt.toNat⟩

end SocketStream

namespace Stream

variable {σ : Type}

/-- The loop of `readFixSize` and `writeFixSize`; `call i` is the `i`-th `read` or `write`.  The
answer of the call that ends it early, or `none`.  A fault of a call is passed on. -/
def fixSizeLoop (call : ℕ → ℕ → σ → Except Fault ℤ × σ) (i : ℕ) (left : ℤ) (c : σ) :
    Except Fault (Option ℤ) × σ :=
  if left > 0 then
    match call i left.toNat c with
    | (.error e, c) => (.error e, c)
    | (.ok len, c) =>
      if len ≤ 0 then (.ok (some len), c) else fixSizeLoop call (i + 1) (left - len) c
  else (.ok none, c)
termination_by left.toNat
decreasing_by omega

/-- `readFixSize` and `writeFixSize`; `length` becomes an `int64_t`, and the answer is an `int`.
`length`, or what the last call answered. -/
def fixSize (call : ℕ → ℕ → σ → Except Fault ℤ × σ) (length : ℕ) (c : σ) :
    Except Fault ℤ × σ :=
  let r := fixSizeLoop call 0 ((length : ℤ).bmod (2 ^ 64)) c
  (r.1.map fun len => toInt (len.getD length), r.2)

/-- `Stream::writeFixSize(ba, length)` of a `SocketStream`; `answers` are those of `sendmsg`.
The bytes are appended to those on their way. -/
def writeFixSize (st : SocketStream) (answers : ℕ → Answer) (length : ℕ) (ba : ByteArray)
    (wire : List UInt8) : Except Fault ℤ × Channel :=
  fixSize (fun i => st.write (answers i)) length ⟨ba, wire⟩

/-- `Stream::readFixSize(ba, length)` of a `SocketStream`; `answers` are those of `recvmsg`.
The bytes are taken from those on their way. -/
def readFixSize (st : SocketStream) (answers : ℕ → Answer) (length : ℕ) (ba : ByteArray)
    (wire : List UInt8) : Except Fault ℤ × Channel :=
  fixSize (fun i => st.read (answers i)) length ⟨ba, wire⟩

/-! ### The loop -/

/-- The count of the first `i` answers.  Nothing is counted for a call that failed. -/
def sent (answers : ℕ → Answer) (i : ℕ) : ℕ := ((List.range i).map fun j => (answers j).moved).sum

/-- How a transfer of `n` bytes goes: all of them are moved by positive counts, or an answer of
0 or less comes first, after `k` bytes.  It is told by the answers alone. -/
inductive Outcome (answers : ℕ → Answer) (n : ℕ) : ℤ → ℕ → Prop
  | full (t : ℕ) : (∀ i < t, 0 < (answers i).moved) → n ≤ sent answers t → Outcome answers n n n
  | cut (t : ℕ) : (∀ i < t, 0 < (answers i).moved) → sent answers t < n →
      (answers t).moved = 0 → Outcome answers n ((answers t).of n) (sent answers t)

/-- One more answer. -/
theorem sent_succ (answers : ℕ → Answer) (i : ℕ) :
    sent answers (i + 1) = sent answers i + (answers i).moved := by
  simp [sent, List.range_succ]

end Stream

end Hiper

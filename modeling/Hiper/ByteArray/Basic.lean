import Hiper.Lib.Splice

/-!
# The byte array as a chain of blocks

`hiper/base/bytearray.h` and `hiper/base/bytearray.cc`: a `ByteArray` is a
linked list of nodes of `base_size_` bytes each, with a cursor `position_` and a
pointer `cur_` to the node the cursor stands in.

The chain reachable from `root_` is a list of nodes, and a node pointer is an
index into it, `none` being the null pointer; `cur_->next` of the last node is
`none`.  Following a null pointer is the fault `nullDeref`.  A fresh node holds
what `new char[s]` found in memory: `mem k` is what the `k`-th allocation finds,
and nothing is assumed about it.

Sizes are natural numbers.  The one subtraction of `size_t` that can go below
zero, `size_ - position` in the positional `read`, wraps as in the source
(`subSize`), and the `ceil` of `addCapacity` is exact.

The functions are those of `bytearray.cc:385-607`: `clear`, `write`, the two `read`s,
`setPosition`, `addCapacity` and `toString`, with the constructor (`bytearray.cc:33`).  A
loop of the source is a recursion over the nodes from the current one on, which returns how
many of them the pointer passes, and the call then moves `cur_` by as many.  The getters are
those of `bytearray.h`.
-/

namespace Hiper

/-- `HIPER_LITTLE_ENDIAN` and `HIPER_BIG_ENDIAN`.  The byte order in which the typed calls write
integers (`bytearray.cc:53-66`); the chain itself does not know of it. -/
inductive Endian
  | little
  | big
  deriving DecidableEq, Repr

/-- How a call can fail: `throw std::out_of_range(what)`, or a null pointer followed.  A null
pointer is followed when a loop walks behind the last node, which the code does not check for. -/
inductive Fault
  | outOfRange (what : String)
  | nullDeref
  deriving DecidableEq, Repr

namespace ByteArray

/-- `ByteArray::Node`: the memory block `ptr[0 .. size)`.  The pointer `next` is the place in
the list of nodes (`bytearray.h:29`). -/
structure Node where
  ptr : List UInt8
  deriving DecidableEq, Repr

namespace Node

/-- `Node::size`, which is the length of the block. -/
def size (n : Node) : ℕ := n.ptr.length

/-- `Node::Node(size_t s)`, over memory that holds `mem`.  The block is not cleared
(`bytearray.cc:14`). -/
def new (mem : ℕ → UInt8) (s : ℕ) : Node := ⟨(List.range s).map mem⟩

/-- `memcpy(ptr + shift, buf, len)`.  What the block holds before and behind the bytes stays. -/
def store (n : Node) (shift : ℕ) (buf : List UInt8) : Node := ⟨Lib.splice n.ptr shift buf⟩

/-- `memcpy(buf, ptr + shift, len)`.  It reads no more than there is in the block. -/
def load (n : Node) (shift len : ℕ) : List UInt8 := (n.ptr.drop shift).take len

/-- A fresh node has as many bytes as were asked for. -/
@[simp]
theorem size_new (mem : ℕ → UInt8) (s : ℕ) : (new mem s).size = s := by
  simp [new, size]

/-- A store inside the block keeps its size. -/
theorem size_store {n : Node} {shift : ℕ} {buf : List UInt8} (h : shift + buf.length ≤ n.size) :
    (n.store shift buf).size = n.size :=
  Lib.length_splice h

end Node

end ByteArray

/-- `ByteArray`.  `mem` and `allocs` are the memory allocations draw from and how many there
were.  The other fields are those of the class, `base_size_`, `position_`, `capacity_`, `size_`,
`endian_`, `root_` and `cur_` (`bytearray.h:463`). -/
structure ByteArray where
  baseSize : ℕ
  position : ℕ
  capacity : ℕ
  size : ℕ
  endian : Endian
  root : List ByteArray.Node
  cur : Option ℕ
  mem : ℕ → ℕ → UInt8
  allocs : ℕ

namespace ByteArray

/-- `ByteArray::ByteArray(size_t base_size)`.  The chain has one node from the start on
(`bytearray.cc:33`). -/
def new (mem : ℕ → ℕ → UInt8) (baseSize : ℕ) : ByteArray where
  baseSize := baseSize
  position := 0
  capacity := baseSize
  size := 0
  endian := .big
  root := [Node.new (mem 0) baseSize]
  cur := some 0
  mem := mem
  allocs := 1

/-- A computation on a byte array that may fail; what it did before failing stays.  The state is
kept on both outcomes, since an exception that is caught leaves the object as the call had
changed it. -/
abbrev Op (α : Type) := ExceptT Fault (StateM ByteArray) α

/-- Run `x` on `b`.  It is the outcome and the byte array after it. -/
def Op.exec {α : Type} (x : Op α) (b : ByteArray) : Except Fault α × ByteArray := x b

/-- A computation that succeeds hands its result and its byte array to the next. -/
theorem Op.exec_bind_ok {α β : Type} {x : Op α} {b b' : ByteArray} {a : α}
    (h : x.exec b = (.ok a, b')) (k : α → Op β) : (x >>= k).exec b = (k a).exec b' := by
  change (match x b with | (e, b') => ExceptT.bindCont k e b') = _
  rw [show x b = (.ok a, b') from h]
  rfl

/-- A computation that fails ends the whole, and the byte array stays as it left it. -/
theorem Op.exec_bind_error {α β : Type} {x : Op α} {b b' : ByteArray} {e : Fault}
    (h : x.exec b = (.error e, b')) (k : α → Op β) : (x >>= k).exec b = (.error e, b') := by
  change (match x b with | (e, b') => ExceptT.bindCont k e b') = _
  rw [show x b = (.error e, b') from h]
  rfl

/-- `getPosition()`: the cursor. -/
def getPosition (b : ByteArray) : ℕ := b.position

/-- `getSize()`: how many bytes of data there are. -/
def getSize (b : ByteArray) : ℕ := b.size

/-- `getReadSize()`: the data from the cursor on, `size_ - position_`. -/
def getReadSize (b : ByteArray) : ℕ := b.size - b.position

/-- `getCapacity()`: the room from the cursor on, `capacity_ - position_`. -/
def getCapacity (b : ByteArray) : ℕ := b.capacity - b.position

/-- `setIsLittleEndian(val)` (`bytearray.cc:58`), which nothing but the byte order sees. -/
def setIsLittleEndian (val : Bool) (b : ByteArray) : ByteArray :=
  { b with endian := if val then .little else .big }

/-- The pointer to the `i`-th node of the chain.  It is the null pointer behind the last. -/
def nodeAt (b : ByteArray) (i : ℕ) : Option ℕ := if i < b.root.length then some i else none

/-- The nodes from `cur_` on, as `cur_->next` walks them.  There are none when `cur_` is the
null pointer. -/
def curNodes (b : ByteArray) : List Node :=
  match b.cur with
  | some i => b.root.drop i
  | none => []

/-- `addCapacity`.  It counts the room from the cursor on, and hangs as many nodes behind the
last as the rest needs (`bytearray.cc:572`); `cur_` is set only when there was no room at all,
that is when it was the null pointer. -/
def addCapacity (size : ℕ) (b : ByteArray) : ByteArray :=
  if size = 0 then b
  else
    let oldCap := b.getCapacity
    if oldCap ≥ size then b
    else
      -- `ceil(1.0 * size / base_size_)`
      let count := (size - oldCap + b.baseSize - 1) / b.baseSize
      let fresh := (List.range count).map fun i => Node.new (b.mem (b.allocs + i)) b.baseSize
      let first := if count = 0 then none else some b.root.length
      { b with
        root := b.root ++ fresh
        capacity := b.capacity + count * b.baseSize
        allocs := b.allocs + count
        cur := if oldCap = 0 then first else b.cur }

/-- The loop of `write`: `buf` is what is left to write, the list the nodes from the current one
on.  Returns the nodes written and how many of them the pointer moved over.  One round fills the
node up, or writes the last bytes into it (`bytearray.cc:414-434`). -/
def writeLoop : List Node → ℕ → List UInt8 → Except Fault (List Node × ℕ)
  | [], _, _ => .error .nullDeref
  | n :: next, curShift, buf =>
    let curLeft := n.size - curShift
    if curLeft ≥ buf.length then
      .ok (n.store curShift buf :: next, if n.size = curShift + buf.length then 1 else 0)
    else
      match writeLoop next 0 (buf.drop curLeft) with
      | .error e => .error e
      | .ok (next', moved) => .ok (n.store curShift (buf.take curLeft) :: next', moved + 1)

/-- `write(buf, size)`.  Nothing happens for no bytes; else room is made and the loop is run
(`bytearray.cc:402`). -/
def write (buf : List UInt8) : Op Unit := fun b =>
  if buf.length = 0 then (.ok (), b)
  else
    let b := b.addCapacity buf.length
    match writeLoop b.curNodes (b.position % b.baseSize) buf with
    | .error e => (.error e, b)
    | .ok (nodes, moved) =>
      let i := b.cur.getD 0
      let position := b.position + buf.length
      (.ok (),
        { b with
          root := b.root.take i ++ nodes
          cur := b.nodeAt (i + moved)
          position := position
          size := if position > b.size then position else b.size })

/-- The loop of both `read`s: `size` bytes are left to read, the list is the nodes from the
current one on.  Returns the bytes read and how many nodes the pointer moved over.  One round
reads the node to its end, or the last bytes of what was asked for (`bytearray.cc:454-473`). -/
def readLoop : List Node → ℕ → ℕ → Except Fault (List UInt8 × ℕ)
  | [], _, _ => .error .nullDeref
  | n :: next, curShift, size =>
    let curLeft := n.size - curShift
    if size = 0 then .ok ([], 0)
    else if curLeft ≥ size then
      .ok (n.load curShift size, if n.size = curShift + size then 1 else 0)
    else
      match readLoop next 0 (size - curLeft) with
      | .error e => .error e
      | .ok (bytes, moved) => .ok (n.load curShift curLeft ++ bytes, moved + 1)

/-- `read(buf, size)`.  It throws before anything is changed when there is not as much data
(`bytearray.cc:444`). -/
def read (size : ℕ) : Op (List UInt8) := fun b =>
  if size > b.getReadSize then (.error (.outOfRange "not enough len"), b)
  else
    match readLoop b.curNodes (b.position % b.baseSize) size with
    | .error e => (.error e, b)
    | .ok (bytes, moved) =>
      (.ok bytes,
        { b with cur := b.nodeAt (b.cur.getD 0 + moved), position := b.position + size })

/-- `a - b` in `size_t`.  The size of a byte array is below `2 ^ 64`, so that a result below
zero wraps once. -/
def subSize (a b : ℕ) : ℕ := if b ≤ a then a - b else a + 2 ^ 64 - b

/-- `read(buf, size, position) const`.  It starts at the node of the cursor, not at that of
`position` (`bytearray.cc:477`), and changes nothing. -/
def readAt (b : ByteArray) (size position : ℕ) : Except Fault (List UInt8) :=
  if size > subSize b.size position then .error (.outOfRange "not enough len")
  else (readLoop b.curNodes (position % b.baseSize) size).map Prod.fst

/-- The loop of `setPosition`: how many nodes `cur_` moves over from the root.  It stops in a
node that it does not pass, or at the border behind one (`bytearray.cc:518-524`). -/
def seekLoop : List Node → ℕ → Except Fault ℕ
  | [], _ => .error .nullDeref
  | n :: next, v =>
    if v > n.size then
      match seekLoop next (v - n.size) with
      | .error e => .error e
      | .ok moved => .ok (moved + 1)
    else if v = n.size then .ok 1
    else .ok 0

/-- `setPosition(v)`.  Beyond the capacity it throws; inside it the data grow to the cursor
(`bytearray.cc:508`). -/
def setPosition (v : ℕ) : Op Unit := fun b =>
  if v > b.capacity then (.error (.outOfRange "set_position out of range"), b)
  else
    let b := { b with position := v, size := if v > b.size then v else b.size }
    match seekLoop b.root v with
    | .error e => (.error e, b)
    | .ok moved => (.ok (), { b with cur := b.nodeAt moved })

/-- `clear()`.  All nodes but the first are freed (`bytearray.cc:385`). -/
def clear : Op Unit := fun b =>
  (.ok (), { b with
    position := 0, size := 0, capacity := b.baseSize, cur := some 0, root := b.root.take 1 })

/-- `toString()`.  It reads at its own cursor, in which case the positional `read` starts in the
right node (`bytearray.cc:604`). -/
def toString (b : ByteArray) : Except Fault (List UInt8) :=
  if b.getReadSize = 0 then .ok [] else b.readAt b.getReadSize b.position

end ByteArray
end Hiper

import Hiper.ByteArray.Chain

/-!
# A byte array is a flat string with a cursor

What `ByteArray` is for, said without nodes: a string of bytes and a cursor in
it.  `Flat` is that, with the cursor inside the string as part of the type.
Each operation of `bytearray.cc` keeps `Wf` and does to `bytes` and `position`
what the flat operation does (`write_refines`, `read_refines`,
`setPosition_refines`, `clear_refines`, `toString_refines`), so no sequence of
calls can tell the chain from the string, nor one block size from another
(`observe_eq_flat`).

`addCapacity` is the one call that changes the chain and not the string
(`addCapacity_bytes`), and `advance` the one that moves the cursor alone.  `Call` are the
calls in which no address is handed out; a sequence of them is run on both levels, and what
is compared is what a caller sees of each call, the bytes or the exception and all getters
afterwards (`Seen`).  Calls that are not legal are left out: a read of no bytes at the end
of the chain follows a null pointer, and a cursor that is set behind the data makes data of
what the memory held.
-/

namespace Hiper.ByteArray

open Lib

/-- A string of bytes with a cursor in it.  The cursor's bound is a field, so that no flat
string has a cursor outside. -/
structure Flat where
  data : List UInt8
  pos : ℕ
  pos_le : pos ≤ data.length

namespace Flat

/-- The string without bytes, and its cursor. -/
def empty : Flat := ⟨[], 0, le_rfl⟩

/-- The length of the string. -/
def size (f : Flat) : ℕ := f.data.length

/-- Overwrite `[pos, pos + n)`, extending the string when that reaches past it.  The cursor is
behind what was written. -/
def write (buf : List UInt8) (f : Flat) : Flat where
  data := splice f.data f.pos buf
  pos := f.pos + buf.length
  pos_le := by
    rw [length_splice_max f.pos_le]
    exact le_max_right ..

/-- Return `[pos, pos + n)`, or throw and change nothing.  It throws when there are fewer than
`n` bytes from the cursor on. -/
def read (n : ℕ) (f : Flat) : Except Fault (List UInt8) × Flat :=
  if h : n > f.size - f.pos then (.error (.outOfRange "not enough len"), f)
  else
    (.ok ((f.data.drop f.pos).take n),
      ⟨f.data, f.pos + n, by
        have := f.pos_le
        rw [size] at h
        omega⟩)

/-- Move the cursor inside the string.  The cursor is never set behind the end, which is the
first call's precondition. -/
def setPosition (v : ℕ) (f : Flat) : Flat :=
  if h : v ≤ f.size then ⟨f.data, v, h⟩ else f

/-- The string from the cursor on.  The cursor stays. -/
def toString (f : Flat) : List UInt8 := f.data.drop f.pos

end Flat

/-- `b` is the flat string `f`.  The byte array is well formed, its data are the string and its
position the cursor. -/
structure Refines (b : ByteArray) (f : Flat) : Prop where
  wf : b.Wf
  bytes_eq : b.bytes = f.data
  position_eq : b.position = f.pos

/-- The size of a byte array is the length of its string. -/
theorem Refines.size_eq {b : ByteArray} {f : Flat} (h : b.Refines f) : b.size = f.size := by
  rw [Flat.size, ← h.bytes_eq, h.wf.length_bytes]

/-- What can be read is the string from the cursor on. -/
theorem Refines.getReadSize_eq {b : ByteArray} {f : Flat} (h : b.Refines f) :
    b.getReadSize = f.size - f.pos := by
  rw [getReadSize, h.size_eq, h.position_eq]

/-! ### The operations -/

/-- A fresh byte array is well formed, if its blocks have at least one byte. -/
theorem new_wf (mem : ℕ → ℕ → UInt8) {baseSize : ℕ} (hbase : 1 ≤ baseSize) :
    (new mem baseSize).Wf where
  base_pos := hbase
  uniform := by
    intro n hn
    rw [List.mem_singleton.1 hn]
    exact Node.size_new ..
  root_ne := by simp [new]
  capacity_eq := (Nat.one_mul _).symm
  position_le := le_rfl
  size_le := Nat.zero_le _
  cur_eq := by simp [new, nodeAt]

/-- A fresh byte array is the empty string.  Whatever the memory held. -/
theorem new_refines (mem : ℕ → ℕ → UInt8) {baseSize : ℕ} (hbase : 1 ≤ baseSize) :
    (new mem baseSize).Refines Flat.empty where
  wf := new_wf mem hbase
  bytes_eq := List.take_zero
  position_eq := rfl

/-- Making room does not move the cursor. -/
@[simp]
theorem addCapacity_position (size : ℕ) (b : ByteArray) :
    (b.addCapacity size).position = b.position := by
  unfold addCapacity; dsimp only; split_ifs <;> rfl

/-- Making room does not change the size. -/
@[simp]
theorem addCapacity_size (size : ℕ) (b : ByteArray) : (b.addCapacity size).size = b.size := by
  unfold addCapacity; dsimp only; split_ifs <;> rfl

/-- Making room does not change the byte order. -/
@[simp]
theorem addCapacity_endian (size : ℕ) (b : ByteArray) :
    (b.addCapacity size).endian = b.endian := by
  unfold addCapacity; dsimp only; split_ifs <;> rfl

/-- Making room does not change the block size. -/
@[simp]
theorem addCapacity_baseSize (size : ℕ) (b : ByteArray) :
    (b.addCapacity size).baseSize = b.baseSize := by
  unfold addCapacity; dsimp only; split_ifs <;> rfl

/-- `ceil(n / s)` nodes of `s` bytes hold `n` bytes.  It is the `ceil(1.0 * size / base_size_)`
of `bytearray.cc:583`. -/
theorem le_ceil_mul (n : ℕ) {s : ℕ} (hs : 0 < s) : n ≤ (n + s - 1) / s * s := by
  have hdiv := Nat.div_add_mod' (n + s - 1) s
  have hmod := Nat.mod_lt (n + s - 1) hs
  omega

/-- What `addCapacity` does: nothing when there is room, else it hangs enough nodes behind the
last one, and points `cur_` at the first of them if the cursor was past the end.  It is the one
lemma that looks into the function; the others about it are read off the two cases. -/
theorem addCapacity_cases {b : ByteArray} (h : b.Wf) (size : ℕ) :
    (b.addCapacity size = b ∧ b.position + size ≤ b.capacity) ∨
      ∃ (fresh : List Node) (allocs : ℕ), Uniform b.baseSize fresh ∧ 0 < fresh.length ∧
        b.position + size ≤ b.capacity + fresh.length * b.baseSize ∧
        b.addCapacity size = { b with
          root := b.root ++ fresh
          capacity := b.capacity + fresh.length * b.baseSize
          allocs := allocs
          cur := if b.position = b.capacity then some b.root.length else b.cur } := by
  have hpos := h.position_le
  have hcap := h.size_le
  by_cases hsize : size = 0
  · exact Or.inl ⟨by rw [addCapacity, if_pos hsize], by omega⟩
  by_cases hroom : b.getCapacity ≥ size
  · refine Or.inl ⟨by simp only [addCapacity, if_neg hsize, if_pos hroom], ?_⟩
    rw [getCapacity] at hroom
    omega
  have henough := le_ceil_mul (size - b.getCapacity) h.base_pos
  generalize hcount : (size - b.getCapacity + b.baseSize - 1) / b.baseSize = count at henough
  have hcount_pos : 0 < count := by
    by_contra hc
    rw [show count = 0 by omega, Nat.zero_mul] at henough
    omega
  refine Or.inr ⟨(List.range count).map fun i => Node.new (b.mem (b.allocs + i)) b.baseSize,
    b.allocs + count, ?_, by simpa using hcount_pos, ?_, ?_⟩
  · intro n hn
    obtain ⟨i, -, rfl⟩ := List.mem_map.1 hn
    exact Node.size_new ..
  · rw [getCapacity] at henough
    rw [List.length_map, List.length_range]
    omega
  · have hfull : (b.getCapacity = 0) = (b.position = b.capacity) := by
      rw [getCapacity]
      exact propext ⟨fun _ => by omega, fun _ => by omega⟩
    simp only [addCapacity, if_neg hsize, if_neg hroom, hcount, if_neg hcount_pos.ne', hfull,
      List.length_map, List.length_range]

/-- Making room keeps the byte array well formed. -/
theorem addCapacity_wf {b : ByteArray} (h : b.Wf) (size : ℕ) : (b.addCapacity size).Wf := by
  rcases addCapacity_cases h size with ⟨heq, -⟩ | ⟨fresh, allocs, huni, hne, -, heq⟩
  · rw [heq]
    exact h
  rw [heq]
  have hcap := h.size_le.trans (Nat.le_add_right _ (fresh.length * b.baseSize))
  refine ⟨h.base_pos, h.uniform.append huni, List.append_ne_nil_of_left_ne_nil h.root_ne _, ?_,
    h.position_le, hcap, ?_⟩
  · simp only [List.length_append, Nat.add_mul, h.capacity_eq]
  simp only [nodeAt, List.length_append]
  split_ifs with hend hin hin
  · -- the cursor was past the last node: it now stands in the first new one
    rw [hend, h.capacity_eq, Nat.mul_div_cancel _ h.base_pos]
  · rw [hend, h.capacity_eq, Nat.mul_div_cancel _ h.base_pos] at hin
    omega
  · have hle := h.position_le.trans h.size_le
    exact h.cur_eq_some (by omega)
  · have hle := h.position_le.trans h.size_le
    have hdiv := h.div_lt_iff.2 (by omega)
    omega

/-- Making room does not touch the data. -/
theorem addCapacity_bytes {b : ByteArray} (h : b.Wf) (size : ℕ) :
    (b.addCapacity size).bytes = b.bytes := by
  rcases addCapacity_cases h size with ⟨heq, -⟩ | ⟨fresh, allocs, -, -, -, heq⟩
  · rw [heq]
  · rw [heq, bytes, bytes, content_append,
      List.take_append_of_le_length (h.length_content.symm ▸ h.size_le)]

/-- After `addCapacity` there is room for `size` bytes at the cursor.  So the loop of `write`
does not run off the chain. -/
theorem le_capacity_addCapacity {b : ByteArray} (h : b.Wf) (size : ℕ) :
    b.position + size ≤ (b.addCapacity size).capacity := by
  rcases addCapacity_cases h size with ⟨heq, hroom⟩ | ⟨fresh, allocs, -, -, hroom, heq⟩
  · rw [heq]
    exact hroom
  · rw [heq]
    exact hroom

/-- **`write` overwrites the flat string**, and extends it only past its end.  The call never
fails, whatever is written. -/
theorem write_refines {b : ByteArray} {f : Flat} (h : b.Refines f) (buf : List UInt8) :
    ∃ b', (write buf).exec b = (.ok (), b') ∧ b'.Refines (f.write buf) ∧ b'.endian = b.endian := by
  by_cases hbuf : buf.length = 0
  · refine ⟨b, by simp only [Op.exec, write, if_pos hbuf], ?_, rfl⟩
    obtain rfl := List.eq_nil_of_length_eq_zero hbuf
    refine ⟨h.wf, ?_, h.position_eq⟩
    rw [h.bytes_eq]
    exact (splice_nil ..).symm
  have hwf := addCapacity_wf h.wf buf.length
  have hbytes := addCapacity_bytes h.wf buf.length
  have hroom := le_capacity_addCapacity h.wf buf.length
  have hposition := addCapacity_position buf.length b
  have hendian := addCapacity_endian buf.length b
  generalize hb₁ : b.addCapacity buf.length = b₁ at hwf hbytes hroom hposition hendian
  have hlt : b₁.position < b₁.capacity := by omega
  have hdiv := hwf.div_lt_iff.2 hlt
  obtain ⟨nodes, hloop, huni', hlen', hcontent⟩ :=
    writeLoop_spec hwf.uniform_curNodes hwf.shift_lt (by omega)
      (hwf.fit_curNodes (by omega) (hposition ▸ hroom))
  have hnodes : nodes.length = b₁.root.length - b₁.position / b₁.baseSize := by
    rw [hlen', hwf.curNodes_eq, List.length_drop]
  have hcount : (b₁.root.take (b₁.position / b₁.baseSize) ++ nodes).length = b₁.root.length := by
    rw [List.length_append, List.length_take, hnodes]
    omega
  -- the chain after the write is the chain before, overwritten at the cursor
  have hchain : content (b₁.root.take (b₁.position / b₁.baseSize) ++ nodes) =
      splice (content b₁.root) b₁.position buf := by
    rw [content_append, hcontent, ← splice_append_right, hwf.length_content_take hlt,
      ← hwf.content_split]
  have hsize : (if b₁.position + buf.length > b₁.size then b₁.position + buf.length else b₁.size) =
      max b₁.size (b₁.position + buf.length) := by
    split_ifs <;> omega
  have hexec : (write buf).exec b = (.ok (), { b₁ with
      root := b₁.root.take (b₁.position / b₁.baseSize) ++ nodes
      cur := b₁.nodeAt ((b₁.position + buf.length) / b₁.baseSize)
      position := b₁.position + buf.length
      size := max b₁.size (b₁.position + buf.length) }) := by
    simp only [Op.exec, write, if_neg hbuf, hb₁, hloop, hwf.cur_eq_some hlt, Option.getD_some,
      div_add_shift_div _ _ hwf.base_pos, hsize]
  have hle := hwf.size_le
  refine ⟨_, hexec, ⟨⟨hwf.base_pos, (hwf.uniform.take _).append huni', ?_, ?_, ?_, ?_, ?_⟩, ?_, ?_⟩,
    hendian⟩
  · exact List.append_ne_nil_of_right_ne_nil _ (List.ne_nil_of_length_pos (by omega))
  · simp only [hcount, hwf.capacity_eq]
  · exact le_max_right ..
  · exact max_le hle (hposition ▸ hroom)
  · simp only [nodeAt, hcount]
  · rw [bytes, hchain, ← splice_take _ hwf.position_le (hwf.length_content.symm ▸ hle)]
    rw [← bytes, hbytes, h.bytes_eq, hposition, h.position_eq, Flat.write]
  · change b₁.position + buf.length = f.pos + buf.length
    rw [hposition, h.position_eq]

/-- The byte array with the cursor moved on.  The node pointer moves by as many nodes as the
cursor passes. -/
def advance (n : ℕ) (b : ByteArray) : ByteArray :=
  { b with cur := b.nodeAt ((b.position + n) / b.baseSize), position := b.position + n }

/-- A read of at least one byte, of data that are there: these bytes, and the cursor moved on. -/
theorem read_exec {b : ByteArray} (h : b.Wf) {n : ℕ} (hn : 1 ≤ n) (hle : n ≤ b.getReadSize) :
    (read n).exec b = (.ok ((b.bytes.drop b.position).take n), b.advance n) := by
  have hsize := h.size_le
  unfold getReadSize at hle
  have hlt : b.position < b.capacity := by omega
  have hbytes : ((content b.root).drop b.position).take n = (b.bytes.drop b.position).take n := by
    rw [bytes, List.drop_take, List.take_take, Nat.min_eq_left hle]
  simp only [Op.exec, read, getReadSize, if_neg (not_lt.2 hle),
    readLoop_spec h.uniform_curNodes h.shift_lt hn (h.fit_curNodes hn (by omega)),
    h.cur_eq_some hlt, Option.getD_some, div_add_shift_div _ _ h.base_pos, h.drop_curNodes,
    hbytes, advance]

/-- A read of more than is left throws and changes nothing. -/
theorem read_throws {b : ByteArray} {n : ℕ} (hlt : b.getReadSize < n) :
    (read n).exec b = (.error (.outOfRange "not enough len"), b) := by
  simp only [Op.exec, read, if_pos hlt]

/-- Moving the cursor over data that are there keeps the byte array well formed. -/
theorem advance_wf {b : ByteArray} (h : b.Wf) {n : ℕ} (hle : n ≤ b.getReadSize) :
    (b.advance n).Wf := by
  unfold getReadSize at hle
  have hpos := h.position_le
  refine ⟨h.base_pos, h.uniform, h.root_ne, h.capacity_eq, ?_, h.size_le, rfl⟩
  change b.position + n ≤ b.size
  omega

/-- **`read` cuts out of the flat string**, or throws where it throws.  At least one byte must
be asked for: a read of none at the end of the chain follows the null pointer. -/
theorem read_refines {b : ByteArray} {f : Flat} (h : b.Refines f) {n : ℕ} (hn : 1 ≤ n) :
    ∃ b', (read n).exec b = ((f.read n).1, b') ∧ b'.Refines (f.read n).2 ∧
      b'.endian = b.endian := by
  have hreadSize := h.getReadSize_eq
  by_cases hthrow : n > f.size - f.pos
  · rw [Flat.read, dif_pos hthrow]
    exact ⟨b, read_throws (hreadSize ▸ hthrow), h, rfl⟩
  · have hle : n ≤ b.getReadSize := hreadSize ▸ not_lt.1 hthrow
    have hexec := read_exec h.wf hn hle
    rw [h.bytes_eq, h.position_eq] at hexec
    have hposition : (b.advance n).position = f.pos + n := by
      rw [advance, h.position_eq]
    rw [Flat.read, dif_neg hthrow]
    exact ⟨_, hexec, ⟨advance_wf h.wf hle, h.bytes_eq, hposition⟩, rfl⟩

/-- `setPosition` within the capacity; the data reach at least that far then.  The node pointer
is that of the quotient. -/
theorem setPosition_exec {b : ByteArray} (h : b.Wf) {v : ℕ} (hv : v ≤ b.capacity) :
    (setPosition v).exec b = (.ok (), { b with
      position := v, size := max b.size v, cur := b.nodeAt (v / b.baseSize) }) := by
  have hseek : seekLoop b.root v = .ok (v / b.baseSize) :=
    seekLoop_spec h.uniform h.base_pos h.root_ne (h.capacity_eq ▸ hv)
  have hsize : (if v > b.size then v else b.size) = max b.size v := by split_ifs <;> omega
  simp only [Op.exec, setPosition, if_neg (not_lt.2 hv), hseek, hsize]
  rfl

/-- Setting the cursor keeps the byte array well formed, also when it throws. -/
theorem setPosition_wf {b : ByteArray} (h : b.Wf) (v : ℕ) : ((setPosition v).exec b).2.Wf := by
  by_cases hv : v ≤ b.capacity
  · rw [setPosition_exec h hv]
    exact ⟨h.base_pos, h.uniform, h.root_ne, h.capacity_eq, le_max_right .., max_le h.size_le hv, rfl⟩
  · simp only [Op.exec, setPosition, if_pos (not_le.1 hv)]
    exact h

/-- **`setPosition` moves the cursor of the flat string.**  Inside the data the string does not
grow. -/
theorem setPosition_refines {b : ByteArray} {f : Flat} (h : b.Refines f) {v : ℕ}
    (hv : v ≤ b.size) :
    ∃ b', (setPosition v).exec b = (.ok (), b') ∧ b'.Refines (f.setPosition v) ∧
      b'.endian = b.endian := by
  have hexec := setPosition_exec h.wf (hv.trans h.wf.size_le)
  have hwf := setPosition_wf h.wf v
  rw [max_eq_left hv] at hexec
  rw [hexec] at hwf
  rw [Flat.setPosition, dif_pos (h.size_eq ▸ hv)]
  exact ⟨_, hexec, ⟨hwf, h.bytes_eq, rfl⟩, rfl⟩

/-- **`clear` empties the flat string.**  One node is left, and the byte order. -/
theorem clear_refines {b : ByteArray} (h : b.Wf) :
    ∃ b', clear.exec b = (.ok (), b') ∧ b'.Refines Flat.empty ∧ b'.endian = b.endian := by
  obtain ⟨n, next, hroot⟩ := List.exists_cons_of_ne_nil h.root_ne
  refine ⟨_, rfl, ⟨⟨h.base_pos, h.uniform.take 1, ?_, ?_, le_rfl, Nat.zero_le _, ?_⟩,
    List.take_zero, rfl⟩, rfl⟩
  · simp [hroot]
  · simp [hroot]
  · simp [nodeAt, hroot]

/-- **`toString` is the flat string from the cursor on.**  It never throws. -/
theorem toString_refines {b : ByteArray} {f : Flat} (h : b.Refines f) :
    b.toString = .ok f.toString := by
  have hwf := h.wf
  have hle := hwf.size_le
  have hpos := hwf.position_le
  have hlen := hwf.length_bytes
  rw [Flat.toString, ← h.bytes_eq, ← h.position_eq, toString]
  split_ifs with hempty
  · rw [getReadSize] at hempty
    rw [List.drop_eq_nil_of_le (by omega)]
  rw [getReadSize] at hempty
  have hlt : b.position < b.capacity := by omega
  have hfit := hwf.fit_curNodes (Nat.pos_of_ne_zero hempty) (by omega)
  rw [readAt, getReadSize, subSize, if_pos hpos, if_neg (lt_irrefl _),
    readLoop_spec hwf.uniform_curNodes hwf.shift_lt (by omega) hfit, hwf.drop_curNodes, Except.map, bytes,
    List.drop_take]

/-! ### Whole runs -/

/-- A call on a byte array.  Those that take a place or a length and return bytes or nothing. -/
inductive Call
  | write (buf : List UInt8)
  | read (size : ℕ)
  | setPosition (v : ℕ)
  | clear
  | toString
  deriving DecidableEq, Repr

/-- What a caller sees of a call: the bytes it returned or what it threw, and the public getters
afterwards.  The capacity is left out: `getCapacity` is private, and tells the block size. -/
structure Seen where
  result : Except Fault (List UInt8)
  position : ℕ
  size : ℕ
  readSize : ℕ
  deriving DecidableEq, Repr

namespace Call

/-- The call, made.  Calls that return nothing return no bytes. -/
def op : Call → Op (List UInt8)
  | write buf => do
      ByteArray.write buf
      pure []
  | read size => ByteArray.read size
  | setPosition v => do
      ByteArray.setPosition v
      pure []
  | clear => do
      ByteArray.clear
      pure []
  | toString => fun b => (b.toString, b)

/-- The call, made on the flat string.  It says for each call what it is for. -/
def flat : Call → Flat → Except Fault (List UInt8) × Flat
  | write buf, f => (.ok [], f.write buf)
  | read size, f => f.read size
  | setPosition v, f => (.ok [], f.setPosition v)
  | clear, _ => (.ok [], Flat.empty)
  | toString, f => (.ok f.toString, f)

/-- Reads are of at least one byte, and the cursor is set inside the data.  All other calls are
legal always. -/
def legal (size : ℕ) : Call → Bool
  | read n => 1 ≤ n
  | setPosition v => v ≤ size
  | _ => true

end Call

/-- Every call is legal where it is made.  Legality is asked of the size at that time. -/
def legalRun : List Call → ByteArray → Bool
  | [], _ => true
  | c :: calls, b => c.legal b.getSize && legalRun calls (c.op.exec b).2

/-- What a sequence of calls shows.  The byte array goes from call to call, also from one that
has thrown. -/
def observe : List Call → ByteArray → List Seen
  | [], _ => []
  | c :: calls, b =>
    let (result, b) := c.op.exec b
    ⟨result, b.getPosition, b.getSize, b.getReadSize⟩ :: observe calls b

/-- What it shows on the flat string.  The same, over `Call.flat`. -/
def Flat.observe : List Call → Flat → List Seen
  | [], _ => []
  | c :: calls, f =>
    let (result, f) := c.flat f
    ⟨result, f.pos, f.size, f.size - f.pos⟩ :: observe calls f

/-- **One call.**  On a byte array and the flat string it is, a legal call returns the same and
leaves a byte array and the flat string it is.  One case for each call, each by its own lemma. -/
theorem Call.exec_refines {b : ByteArray} {f : Flat} (h : b.Refines f) (c : Call)
    (hc : c.legal b.getSize = true) :
    (c.op.exec b).1 = (c.flat f).1 ∧ (c.op.exec b).2.Refines (c.flat f).2 := by
  cases c with
  | write buf =>
      obtain ⟨b', hexec, href, -⟩ := write_refines h buf
      have hop : (Call.write buf).op.exec b = (.ok [], b') :=
        Op.exec_bind_ok hexec (fun _ => pure [])
      rw [hop]
      exact ⟨rfl, href⟩
  | read n =>
      obtain ⟨b', hexec, href, -⟩ := read_refines h (of_decide_eq_true hc)
      have hop : (Call.read n).op.exec b = ((f.read n).1, b') := hexec
      rw [hop]
      exact ⟨rfl, href⟩
  | setPosition v =>
      obtain ⟨b', hexec, href, -⟩ := setPosition_refines h (of_decide_eq_true hc)
      have hop : (Call.setPosition v).op.exec b = (.ok [], b') :=
        Op.exec_bind_ok hexec (fun _ => pure [])
      rw [hop]
      exact ⟨rfl, href⟩
  | clear =>
      obtain ⟨b', hexec, href, -⟩ := clear_refines h.wf
      have hop : Call.clear.op.exec b = (.ok [], b') :=
        Op.exec_bind_ok hexec (fun _ => pure [])
      rw [hop]
      exact ⟨rfl, href⟩
  | toString => exact ⟨toString_refines h, h⟩

/-- **Every run.**  By induction on the calls, each keeping `Refines`.  What is seen after a
call are getters that `Refines` determines. -/
theorem observe_eq_flat {b : ByteArray} {f : Flat} (h : b.Refines f) (calls : List Call)
    (hlegal : legalRun calls b = true) : observe calls b = f.observe calls := by
  induction calls generalizing b f with
  | nil => rfl
  | cons c calls ih =>
      rw [legalRun, Bool.and_eq_true] at hlegal
      obtain ⟨hresult, href⟩ := Call.exec_refines h c hlegal.1
      simp only [observe, Flat.observe, ih href hlegal.2, hresult, href.getReadSize_eq, getPosition,
        href.position_eq, getSize, href.size_eq]

/-- A run is legal on a byte array when it is on any other that is the same flat string.
Legality asks for the size alone, which is that of the string. -/
theorem legalRun_congr {b₁ b₂ : ByteArray} {f : Flat} (h₁ : b₁.Refines f) (h₂ : b₂.Refines f)
    (calls : List Call) (hlegal : legalRun calls b₁ = true) : legalRun calls b₂ = true := by
  induction calls generalizing b₁ b₂ f with
  | nil => rfl
  | cons c calls ih =>
      rw [legalRun, Bool.and_eq_true] at hlegal ⊢
      have hc : c.legal b₂.getSize = true := by
        rw [getSize, h₂.size_eq, ← h₁.size_eq]
        exact hlegal.1
      exact ⟨hc, ih (Call.exec_refines h₁ c hlegal.1).2 (Call.exec_refines h₂ c hc).2 hlegal.2⟩

/-- **A byte array is a flat string, whatever its block size.**  On a fresh byte array with
blocks of any size, and any memory, legal calls in any order show what they show on the empty
flat string; so two byte arrays with different blocks driven by the same calls show the same.
Nothing is assumed about the memory that allocations find, nor about the number of the calls.
The flat string is the whole of what `write` (`src/hiper/base/bytearray.cc:402`), `read` (444),
`setPosition` (508), `clear` (385) and `toString` (604) mean; the chain of nodes, `cur_` and
`addCapacity` (572) are how they do it. -/
theorem byteArray_refines_flat (mem : ℕ → ℕ → UInt8) {baseSize : ℕ} (hbase : 1 ≤ baseSize)
    (calls : List Call) (hlegal : legalRun calls (new mem baseSize) = true) :
    observe calls (new mem baseSize) = Flat.empty.observe calls ∧
      ∀ (mem' : ℕ → ℕ → UInt8) (baseSize' : ℕ), 1 ≤ baseSize' →
        observe calls (new mem' baseSize') = observe calls (new mem baseSize) := by
  have h := new_refines mem hbase
  refine ⟨observe_eq_flat h calls hlegal, fun mem' baseSize' hbase' => ?_⟩
  have h' := new_refines mem' hbase'
  rw [observe_eq_flat h calls hlegal,
    observe_eq_flat h' calls (legalRun_congr h h' calls hlegal)]

/-- A run that overwrites, appends over a block border, seeks back and reads.  Three writes and
two reads over blocks of two bytes. -/
theorem byteArray_refines_flat_blocks :
    observe [.write [1, 2, 3], .setPosition 1, .write [9], .read 1, .read 1, .toString, .clear]
        (new (fun _ _ => 0) 2) =
      Flat.empty.observe
        [.write [1, 2, 3], .setPosition 1, .write [9], .read 1, .read 1, .toString, .clear] :=
  (byteArray_refines_flat (fun _ _ => 0) (by decide) _ (by decide)).1

end Hiper.ByteArray

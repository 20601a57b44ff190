import Hiper.ByteArray.ZeroCopy

/-!
# Calls that get a position

`read(buf, size, position) const` and `getReadBuffers(buffers, len, position) const`
are told where to read, and both mix that place with the cursor.  The first takes
its offset in a node from `position` and the node from the cursor, and its test
`size > size_ - position` wraps around; it returns what seeking and reading
returns when the two places happen to hold the same (`readAt_agrees_iff`), as they
do when `position` is in the node of the cursor.  The second walks to the node of
`position`, but clips `len` to what there is to read at the cursor; its buffers
are inside the data when no less is left at `position` (`getReadBuffersAt_iff`).

The functions are `bytearray.cc:477` and `bytearray.cc:664`.  The conditions, `SamePlace`
for the first and the comparison of two lengths for the second, are about the byte array
before the call and the arguments; they look at the memory of the nodes at the two places
and never at what the call returns.  That the two places differ is no matter of corner
cases: with the cursor at the front and blocks of two bytes, the third byte is already read
from the first node (`readAt_first_for_third`).
-/

namespace Hiper

namespace ByteArray

open Lib

/-- `setPosition(position)`, then `read(buf, size)`.  It is what a caller would do who may move
the cursor. -/
def seekRead (size position : ℕ) : Op (List UInt8) := do
  setPosition position
  read size

/-- The positional read is seeking and reading.  Within the data both return the bytes at the
position, and beyond them the positional read throws `std::out_of_range`. -/
def PositionalAgrees (b : ByteArray) (size position : ℕ) : Prop :=
  if position > b.getSize ∨ size > b.getSize - position then
    b.readAt size position = .error (.outOfRange "not enough len")
  else
    b.readAt size position = .ok ((b.bytes.drop position).take size) ∧
      ((seekRead size position).exec b).1 = b.readAt size position

/-- The place the positional read starts at: the offset of `position` in the node of the cursor.
It is the position itself when the two are in one node. -/
def readStart (b : ByteArray) (position : ℕ) : ℕ :=
  b.position / b.baseSize * b.baseSize + position % b.baseSize

/-- The places the cursor and `position` lead to hold the same; behind the data, that
`size_ - position` is not large enough for `size` though it wraps around.  Inside the data the
chain must reach as far from there as is asked for. -/
def SamePlace (b : ByteArray) (size position : ℕ) : Prop :=
  if position > b.size then b.size + 2 ^ 64 < size + position
  else
    size > b.size - position ∨
      b.readStart position + size ≤ b.capacity ∧
        ((content b.root).drop (b.readStart position)).take size =
          (b.bytes.drop position).take size

/-- `getReadBuffers(buffers, len, position)`: the returned value, and `buffers` afterwards.  The
buffers are put behind those that the caller's vector has. -/
def appendReadBuffersAt (buffers : List Iovec) (len position : ℕ) : Op (ℕ × List Iovec) :=
  Op.const fun b =>
    let size := if len > b.getReadSize then b.getReadSize else len
    (b.getReadBuffersAt len position).map fun iovs => (size, buffers ++ iovs)

/-- The buffers at `position` hold data from there on, and no more than `len` bytes.  The value
returned is the length of the buffers, and those before them stay. -/
def BuffersInData (b : ByteArray) (buffers : List Iovec) (len position : ℕ) : Prop :=
  ∃ iovs, (appendReadBuffersAt buffers len position).exec b =
      (.ok (totalLen iovs, buffers ++ iovs), b) ∧
    (∀ v ∈ iovs, v.Inside b.root) ∧ gather b.root iovs <+: b.bytes.drop position ∧
      totalLen iovs ≤ len

variable {b : ByteArray}

/-! ### Loops that start anywhere -/

/-- The loop of `read` follows the null pointer behind a chain that is too short.  The induction
is over the nodes. -/
theorem readLoop_short {s : ℕ} {nodes : List Node} (hu : Uniform s nodes) {shift size : ℕ}
    (hs : shift < s) (hsize : 0 < size) (hshort : nodes.length * s < shift + size) :
    readLoop nodes shift size = .error .nullDeref := by
  induction nodes generalizing shift size with
  | nil => rfl
  | cons n next ih =>
      obtain ⟨hn, hnext⟩ := hu.cons_inv
      have hnsize : n.size = s := hn
      rw [List.length_cons, Nat.succ_mul] at hshort
      have hmore : ¬s - shift ≥ size := by omega
      have hrest : readLoop next 0 (size - (s - shift)) = .error .nullDeref :=
        ih hnext (by omega) (by omega) (by omega)
      simp only [readLoop, hnsize, if_neg hsize.ne', if_neg hmore, hrest]

/-- So does the loop of `getReadBuffers`.  The two loops walk alike. -/
theorem iovLoop_short {s : ℕ} {nodes : List Node} (hu : Uniform s nodes) {i npos len : ℕ}
    (hs : npos < s) (hshort : nodes.length * s < npos + len) :
    iovLoop nodes i npos len = .error .nullDeref := by
  induction nodes generalizing i npos len with
  | nil => rfl
  | cons n next ih =>
      obtain ⟨hn, hnext⟩ := hu.cons_inv
      have hnsize : n.size = s := hn
      rw [List.length_cons, Nat.succ_mul] at hshort
      have hmore : ¬s - npos ≥ len := by omega
      have hrest : iovLoop next (i + 1) 0 (len - (s - npos)) = .error .nullDeref :=
        ih hnext (by omega) (by omega)
      simp only [iovLoop, hnsize, if_neg hmore, hrest]
      rfl

/-- The loop of `read`, from the `i`-th node on.  It is read off the specification for the whole
chain. -/
theorem readLoop_drop {s : ℕ} {nodes : List Node} (hu : Uniform s nodes) {i shift size : ℕ}
    (hs : shift < s) (hsize : 0 < size) :
    (readLoop (nodes.drop i) shift size).map Prod.fst =
      if i * s + shift + size ≤ nodes.length * s then
        .ok (((content nodes).drop (i * s + shift)).take size)
      else .error .nullDeref := by
  have hlength : (nodes.drop i).length * s = nodes.length * s - i * s := by
    rw [List.length_drop, Nat.sub_mul]
  split_ifs with hfit
  · rw [readLoop_spec (hu.drop i) hs hsize (by omega), Except.map, content_drop hu, List.drop_drop]
  · rw [readLoop_short (hu.drop i) hs hsize (by omega)]
    rfl

/-- The loop of `getReadBuffers`, from the `i`-th node on.  It gives the buffers their places in
the whole chain. -/
theorem iovLoop_drop {s : ℕ} {nodes : List Node} (hu : Uniform s nodes) {i npos len : ℕ}
    (hs : npos < s) (hlen : 0 < len) (hfit : i * s + npos + len ≤ nodes.length * s) :
    ∃ iovs, iovLoop (nodes.drop i) i npos len = .ok iovs ∧ totalLen iovs = len ∧
      gather nodes iovs = ((content nodes).drop (i * s + npos)).take len ∧
        ∀ v ∈ iovs, v.Inside nodes := by
  have hlength : (nodes.drop i).length * s = nodes.length * s - i * s := by
    rw [List.length_drop, Nat.sub_mul]
  have hlt : i < nodes.length := Nat.lt_of_mul_lt_mul_right (by omega : i * s < nodes.length * s)
  have htake : (nodes.take i).length = i := by rw [List.length_take, Nat.min_eq_left hlt.le]
  obtain ⟨iovs, hloop, htotal, hgather⟩ :=
    gather_iovLoop (hu.drop i) (nodes.take i) hs hlen (by omega)
  have hinside := iovLoop_inside (hu.drop i) (nodes.take i) hs hlen hloop
  rw [List.take_append_drop] at hgather hinside
  rw [htake] at hloop
  rw [content_drop hu, List.drop_drop] at hgather
  exact ⟨iovs, hloop, htotal, hgather, hinside⟩

/-! ### The positional read -/

/-- What the positional read does once its test is passed.  It reads where `readStart` says, and
follows a null pointer when the chain ends before. -/
theorem readAt_eq (h : b.Wf) {size position : ℕ} (hsize : 1 ≤ size)
    (htest : size ≤ subSize b.size position) :
    b.readAt size position =
      if b.readStart position + size ≤ b.capacity then
        .ok (((content b.root).drop (b.readStart position)).take size)
      else .error .nullDeref := by
  rw [readAt, if_neg (not_lt.2 htest), h.curNodes_eq,
    readLoop_drop h.uniform (Nat.mod_lt _ h.base_pos) hsize, h.capacity_eq, readStart]

/-- Seeking into the data and reading gives the bytes there.  It is the reference that the
positional read is measured by. -/
theorem seekRead_fst (h : b.Wf) {size position : ℕ} (hsize : 1 ≤ size)
    (hfit : position + size ≤ b.size) :
    ((seekRead size position).exec b).1 = .ok ((b.bytes.drop position).take size) := by
  obtain ⟨b₁, hseek, href, -⟩ := setPosition_refines (refines_flat h) (by omega : position ≤ b.size)
  have hbytes : b₁.bytes = b.bytes := by
    rw [href.bytes_eq, Flat.setPosition]
    split_ifs <;> rfl
  have hposition : b₁.position = position := by
    rw [setPosition_exec h (by have := h.size_le; omega)] at hseek
    cases hseek
    rfl
  have hsize₁ : size ≤ b₁.getReadSize := by
    rw [getReadSize, ← href.wf.length_bytes, hbytes, h.length_bytes, hposition]
    omega
  rw [seekRead, Op.exec_bind_ok hseek, read_exec href.wf hsize hsize₁, hbytes, hposition]

/-- Inside the data the positional read is right where the two places hold the same.  The two
places are compared in memory. -/
theorem readAt_inside_iff (h : b.Wf) {size position : ℕ} (hsize : 1 ≤ size)
    (hfit : position + size ≤ b.size) :
    b.readAt size position = .ok ((b.bytes.drop position).take size) ↔
      b.readStart position + size ≤ b.capacity ∧
        ((content b.root).drop (b.readStart position)).take size =
          (b.bytes.drop position).take size := by
  have htest : size ≤ subSize b.size position := by
    rw [subSize, if_pos (by omega)]
    omega
  rw [readAt_eq h hsize htest]
  split_ifs with hroom
  · simp [hroom]
  · simp [hroom]

/-- Behind the data it throws when the difference that wraps around is too small.  A seek to
such a place is out of range or reads what is not data, and is to throw. -/
theorem readAt_behind_iff (h : b.Wf) {size position : ℕ} (hsize : 1 ≤ size)
    (hbehind : position > b.size) :
    b.readAt size position = .error (.outOfRange "not enough len") ↔
      b.size + 2 ^ 64 < size + position := by
  have hwrap : subSize b.size position = b.size + 2 ^ 64 - position := by
    rw [subSize, if_neg (by omega)]
  constructor
  · intro hthrow
    by_contra hle
    rw [readAt_eq h hsize (by rw [hwrap]; omega)] at hthrow
    split_ifs at hthrow
    cases hthrow
  · intro hlt
    rw [readAt, if_pos (by rw [hwrap]; omega)]

/-- **The positional read is seeking and reading** when the node of the cursor holds at the
offset of `position` what is wanted, and the test does not wrap around.  Both directions, for
every byte array that calls build and every position.  The loop
(`src/hiper/base/bytearray.cc:482-485`) takes its offset from `position` and its node from
`cur_`, and the test in line 478 subtracts without asking which is greater. -/
theorem readAt_agrees_iff (hb : b.Built) {size : ℕ} (position : ℕ) (hsize : 1 ≤ size) :
    PositionalAgrees b size position ↔ SamePlace b size position := by
  have h := hb.wf
  unfold PositionalAgrees SamePlace getSize
  by_cases hbehind : position > b.size
  · rw [if_pos (Or.inl hbehind), if_pos hbehind]
    exact readAt_behind_iff h hsize hbehind
  · rw [if_neg hbehind]
    by_cases hlong : size > b.size - position
    · rw [if_pos (Or.inr hlong)]
      refine iff_of_true ?_ (Or.inl hlong)
      rw [readAt, subSize, if_pos (not_lt.1 hbehind), if_pos hlong]
    · have hfit : position + size ≤ b.size := by omega
      rw [if_neg (by omega), seekRead_fst h hsize hfit, ← readAt_inside_iff h hsize hfit]
      constructor
      · rintro ⟨hread, -⟩
        exact Or.inr hread
      · rintro (hgt | hread)
        · exact absurd hgt hlong
        · exact ⟨hread, hread.symm⟩

/-- Within the node of the cursor the two places are one.  So sequential use with a cursor near
the position goes well. -/
theorem samePlace_of_node (h : b.Wf) {size position : ℕ} (hle : position ≤ b.size)
    (hnode : position / b.baseSize = b.position / b.baseSize) : SamePlace b size position := by
  have hcap := h.size_le
  have hstart : b.readStart position = position := by
    rw [readStart, ← hnode]
    exact Nat.div_add_mod' ..
  unfold SamePlace
  rw [if_neg (by omega), hstart]
  by_cases hlong : size > b.size - position
  · exact Or.inl hlong
  · refine Or.inr ⟨by omega, ?_⟩
    rw [bytes, List.drop_take, List.take_take, Nat.min_eq_left (by omega)]

/-- In the second node, with the cursor there.  The offset of the position is counted in the
right node. -/
theorem readAt_agrees_second :
    PositionalAgrees (after .little [.write [1, 2, 3, 4], .setPosition 3] (new (fun _ _ => 0) 2))
      2 2 :=
  (readAt_agrees_iff (built_after .little _ (by decide) _) 2 (by decide)).2
    (samePlace_of_node (built_after .little _ (by decide) _).wf (by decide +kernel)
      (by decide +kernel))

/-- With the cursor at the front, the first byte is read for the third.  The failing input. -/
theorem readAt_first_for_third : ¬PositionalAgrees
    (after .little [.write [1, 2, 3, 4], .setPosition 0] (new (fun _ _ => 0) 2)) 1 2 := by
  have hread : (after .little [.write [1, 2, 3, 4], .setPosition 0]
      (new (fun _ _ => 0) 2)).readAt 1 2 = .ok [1] := by decide +kernel
  have hdata : ((after .little [.write [1, 2, 3, 4], .setPosition 0]
      (new (fun _ _ => 0) 2)).bytes.drop 2).take 1 = [3] := by decide +kernel
  unfold PositionalAgrees
  rw [if_neg (by decide +kernel), hread, hdata]
  rintro ⟨heq, -⟩
  cases heq

/-! ### The buffers at a position -/

/-- **The buffers at a position hold data** when no more is left at the cursor, or asked for,
than is left there.  What is asked for is clipped to what is left at the cursor.  The buffers
start at the right node (`src/hiper/base/bytearray.cc:674-680`), but their length is cut in line
667 by `getReadSize()`, what is left at the cursor. -/
theorem getReadBuffersAt_iff (hb : b.Built) (buffers : List Iovec) (len : ℕ) {position : ℕ}
    (hposition : position ≤ b.getSize) :
    BuffersInData b buffers len position ↔ min len b.getReadSize ≤ b.getSize - position := by
  have h := hb.wf
  have hcap := h.size_le
  have hroot := h.capacity_eq
  have hdata : (b.bytes.drop position).length = b.size - position := by
    rw [List.length_drop, h.length_bytes]
  have hplace : position / b.baseSize * b.baseSize + position % b.baseSize = position :=
    Nat.div_add_mod' ..
  have hmod := Nat.mod_lt position h.base_pos
  unfold BuffersInData appendReadBuffersAt Op.const Op.exec getReadBuffersAt
  unfold getSize at hposition ⊢
  generalize hl : (if len > b.getReadSize then b.getReadSize else len) = l
  have hl' : min len b.getReadSize = l := by
    rw [← hl]
    split_ifs <;> omega
  rw [hl']
  by_cases hzero : l = 0
  · refine iff_of_true ⟨[], ?_, by simp, List.nil_prefix, Nat.zero_le _⟩ (by omega)
    simp [hzero, hl, totalLen, Except.map]
  by_cases hroom : position + l ≤ b.capacity
  · obtain ⟨iovs, hloop, htotal, hgather, hinside⟩ := iovLoop_drop h.uniform
      (i := position / b.baseSize) hmod (Nat.pos_of_ne_zero hzero) (by omega)
    rw [hplace] at hgather
    have hlength : (gather b.root iovs).length = l := by
      rw [hgather, List.length_take, List.length_drop, h.length_content]
      omega
    simp only [hl, if_neg hzero, hloop]
    constructor
    · rintro ⟨iovs', happend, -, hprefix, -⟩
      have hpair := Except.ok.inj (Prod.mk.inj happend).1
      obtain rfl := List.append_cancel_left (Prod.mk.inj hpair).2
      have hle := hprefix.length_le
      omega
    · intro hle
      refine ⟨iovs, by rw [htotal]; rfl, hinside, ?_, by omega⟩
      have hcut : gather b.root iovs = (b.bytes.drop position).take l := by
        rw [hgather, bytes, List.drop_take, List.take_take, Nat.min_eq_left hle]
      rw [hcut]
      exact List.take_prefix ..
  · refine iff_of_false ?_ (by omega)
    have hshort : iovLoop (b.root.drop (position / b.baseSize)) (position / b.baseSize)
        (position % b.baseSize) l = .error .nullDeref := by
      refine iovLoop_short (h.uniform.drop _) hmod ?_
      rw [List.length_drop, Nat.sub_mul]
      omega
    simp only [hl, if_neg hzero, hshort]
    rintro ⟨iovs, happend, -⟩
    cases (Prod.mk.inj happend).1

/-- Four bytes are left at the cursor and two at the position; two are asked for.  The two are
there. -/
theorem getReadBuffersAt_two : BuffersInData
    (after .little [.write [1, 2, 3, 4], .setPosition 0] (new (fun _ _ => 0) 3)) [] 2 2 :=
  (getReadBuffersAt_iff (built_after .little _ (by decide) _) [] 2 (by decide +kernel)).2
    (by decide +kernel)

/-- Three are asked for: the third was never written.  The failing input. -/
theorem getReadBuffersAt_unwritten : ¬BuffersInData
    (after .little [.write [1, 2, 3, 4], .setPosition 0] (new (fun _ _ => 0) 3)) [] 3 2 := by
  rintro ⟨iovs, happend, -, hprefix, -⟩
  have hbuffers : (appendReadBuffersAt [] 3 2).exec (after .little
      [.write [1, 2, 3, 4], .setPosition 0] (new (fun _ _ => 0) 3)) =
        (.ok (3, [⟨0, 2, 1⟩, ⟨1, 0, 2⟩]), after .little
          [.write [1, 2, 3, 4], .setPosition 0] (new (fun _ _ => 0) 3)) := by rfl
  rw [hbuffers] at happend
  have hpair := Prod.mk.inj (Except.ok.inj (Prod.mk.inj happend).1)
  rw [← List.nil_append iovs, ← hpair.2] at hprefix
  revert hprefix
  decide +kernel

end ByteArray

end Hiper

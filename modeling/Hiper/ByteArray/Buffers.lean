import Hiper.ByteArray.Flat

/-!
# The buffers of a byte array

`getReadBuffers` and `getWriteBuffers` give the stretches of the nodes that hold the
next bytes, as a list of `iovec`s, for `sendmsg` to read and `recvmsg` to fill.
What is read from them is the data from the cursor on (`gather_iovLoop`), and what
is put into them stands there (`scatter_iovLoop`).  `Reachable` are the byte arrays
that calls can build; they are all well formed.

The functions are `bytearray.cc:631` and `bytearray.cc:703`; the overload of
`getReadBuffers` at a position is with the other positional calls.  A buffer is a pointer
into a node, so that the chain is seen through it without a copy: the peer of the socket
fills it while no call of the byte array is running (`fill`), and the data become part of
the string only when the cursor is set behind them (`fill_refines`).
-/

namespace Hiper.ByteArray

open Lib

/-- `struct iovec`: the base is a place in a node.  `iov_base` is the node's block from `off`
on, and `iov_len` is `len`. -/
structure Iovec where
  node : ℕ
  off : ℕ
  len : ℕ
  deriving DecidableEq, Repr

/-- The loop of `getReadBuffers` and `getWriteBuffers`: `len` bytes are left, the list is the
nodes from the `i`-th on.  One round is one buffer, the rest of the node or what is left of the
length (`bytearray.cc:645-661`). -/
def iovLoop : List Node → ℕ → ℕ → ℕ → Except Fault (List Iovec)
  | [], _, _, _ => .error .nullDeref
  | n :: next, i, npos, len =>
    let ncap := n.size - npos
    if ncap ≥ len then .ok [⟨i, npos, len⟩]
    else (iovLoop next (i + 1) 0 (len - ncap)).map (⟨i, npos, ncap⟩ :: ·)

/-- `getReadBuffers(buffers, len)`: the buffers.  The length is cut to the data there are, and
for none of them the list is empty (`bytearray.cc:631`). -/
def getReadBuffers (b : ByteArray) (len : ℕ) : Except Fault (List Iovec) :=
  let len := if len > b.getReadSize then b.getReadSize else len
  if len = 0 then .ok []
  else iovLoop b.curNodes (b.cur.getD 0) (b.position % b.baseSize) len

/-- `getWriteBuffers(buffers, len)`: the buffers.  Room for `len` bytes is made first; neither
the cursor nor the size is moved (`bytearray.cc:703`). -/
def getWriteBuffers (len : ℕ) : Op (List Iovec) := fun b =>
  if len = 0 then (.ok [], b)
  else
    let b := b.addCapacity len
    (iovLoop b.curNodes (b.cur.getD 0) (b.position % b.baseSize) len, b)

/-- The bytes in the buffers.  It is what `sendmsg` sends. -/
def gather (nodes : List Node) (iovs : List Iovec) : List UInt8 :=
  iovs.flatMap fun v => ((nodes[v.node]?).map fun n => n.load v.off v.len).getD []

/-- Bytes put into the buffers, one buffer after the other.  It is what `recvmsg` does with the
bytes that came; buffers behind the last byte stay as they are. -/
def scatter : List Iovec → List UInt8 → List Node → List Node
  | [], _, nodes => nodes
  | v :: iovs, buf, nodes =>
    scatter iovs (buf.drop v.len) (nodes.modify v.node (·.store v.off (buf.take v.len)))

/-- What the buffers are made of.  Together they are as long as what was asked for. -/
def totalLen (iovs : List Iovec) : ℕ := (iovs.map Iovec.len).sum

/-! ### The loop -/

/-- The loop succeeds when the chain is long enough; the buffers hold what stands there.  The
induction is over the nodes; `pre` is the nodes already passed, so that the buffers point into
the whole chain. -/
theorem gather_iovLoop {s : ℕ} {nodes : List Node} (hu : Uniform s nodes) (pre : List Node)
    {npos len : ℕ} (hpos : npos < s) (hlen : 0 < len) (hfit : npos + len ≤ nodes.length * s) :
    ∃ iovs, iovLoop nodes pre.length npos len = .ok iovs ∧ totalLen iovs = len ∧
      gather (pre ++ nodes) iovs = ((content nodes).drop npos).take len := by
  induction nodes generalizing pre npos len with
  | nil =>
      rw [List.length_nil, Nat.zero_mul] at hfit
      omega
  | cons n next ih =>
      obtain ⟨hn, hnext⟩ := hu.cons_inv
      have hsize : n.size = s := hn
      have hnode : (pre ++ n :: next)[pre.length]? = some n := by simp
      have hcontent : (content (n :: next)).drop npos = n.ptr.drop npos ++ content next := by
        rw [content_cons, List.drop_append_of_le_length (by omega)]
      have hleft : (n.ptr.drop npos).length = s - npos := by rw [List.length_drop, hn]
      rw [List.length_cons, Nat.succ_mul] at hfit
      by_cases hlast : s - npos ≥ len
      · refine ⟨[⟨pre.length, npos, len⟩], ?_, ?_, ?_⟩
        · simp only [iovLoop, hsize, if_pos hlast]
        · simp [totalLen]
        · rw [gather, List.flatMap_singleton, hnode, hcontent,
            List.take_append_of_le_length (by omega)]
          rfl
      · obtain ⟨iovs, hloop, htotal, hgather⟩ :=
          @ih hnext (pre ++ [n]) 0 (len - (s - npos)) (by omega) (by omega) (by omega)
        rw [List.length_append, List.length_singleton] at hloop
        rw [List.append_assoc, List.singleton_append, List.drop_zero] at hgather
        refine ⟨⟨pre.length, npos, s - npos⟩ :: iovs, ?_, ?_, ?_⟩
        · simp only [iovLoop, hsize, if_neg hlast, hloop]
          rfl
        · have htotal' : totalLen (⟨pre.length, npos, s - npos⟩ :: iovs) =
              s - npos + totalLen iovs := by simp [totalLen]
          omega
        · rw [gather, List.flatMap_cons, ← gather, hgather, hnode, hcontent, List.take_append, hleft,
            List.take_of_length_le (by omega : (n.ptr.drop npos).length ≤ len)]
          exact congrArg (· ++ _) (List.take_of_length_le hleft.le)

/-- Bytes put into the buffers stand in the chain from the loop's place on; no more than the
buffers hold.  The nodes keep their sizes, and what is behind the bytes stays. -/
theorem scatter_iovLoop {s : ℕ} {nodes : List Node} (hu : Uniform s nodes) (pre : List Node)
    {npos len : ℕ} {iovs : List Iovec} (hpos : npos < s)
    (hloop : iovLoop nodes pre.length npos len = .ok iovs) {buf : List UInt8}
    (hbuf : buf.length ≤ len) :
    ∃ nodes', scatter iovs buf (pre ++ nodes) = pre ++ nodes' ∧ nodes'.length = nodes.length ∧
      Uniform s nodes' ∧ content nodes' = splice (content nodes) npos buf := by
  induction nodes generalizing pre npos len iovs buf with
  | nil => cases hloop
  | cons n next ih =>
      obtain ⟨hn, hnext⟩ := hu.cons_inv
      have hsize : n.size = s := hn
      have hmodify : ∀ f : Node → Node, (pre ++ n :: next).modify pre.length f = pre ++ f n :: next := by
        intro f
        rw [List.modify_eq_take_cons_drop (by simp)]
        simp
      simp only [iovLoop, hsize] at hloop
      by_cases hlast : s - npos ≥ len
      · rw [if_pos hlast] at hloop
        cases hloop
        have hin : npos + buf.length ≤ n.ptr.length := by omega
        refine ⟨n.store npos buf :: next, ?_, rfl,
          Uniform.cons ((Node.size_store hin).trans hsize) hnext, ?_⟩
        · rw [scatter, scatter, hmodify, List.take_of_length_le hbuf]
        · rw [content_cons, content_cons, splice_append_left _ hin]
          rfl
      · rw [if_neg hlast] at hloop
        cases hrest : iovLoop next (pre.length + 1) 0 (len - (s - npos)) with
        | error e =>
            rw [hrest] at hloop
            cases hloop
        | ok iovs' =>
            rw [hrest] at hloop
            cases hloop
            have hpre : (pre ++ [n.store npos (buf.take (s - npos))]).length = pre.length + 1 := by
              rw [List.length_append, List.length_singleton]
            have htake : (buf.take (s - npos)).length ≤ s - npos := List.length_take_le ..
            have hdrop : (buf.drop (s - npos)).length = buf.length - (s - npos) := List.length_drop
            obtain ⟨nodes', hscatter, hlen, hu', hcontent⟩ :=
              @ih hnext (pre ++ [n.store npos (buf.take (s - npos))]) 0 (len - (s - npos)) iovs'
                (by omega) (by rw [hpre]; exact hrest) (buf.drop (s - npos)) (by omega)
            rw [List.append_assoc, List.singleton_append, List.append_assoc,
              List.singleton_append] at hscatter
            refine ⟨n.store npos (buf.take (s - npos)) :: nodes', ?_, ?_, ?_, ?_⟩
            · rw [scatter, hmodify]
              exact hscatter
            · rw [List.length_cons, List.length_cons, hlen]
            · exact Uniform.cons ((Node.size_store (by omega)).trans hsize) hu'
            · rw [content_cons, content_cons, hcontent]
              by_cases hshort : buf.length ≤ s - npos
              · rw [List.take_of_length_le hshort, List.drop_eq_nil_of_le hshort, splice_nil,
                  splice_append_left _ (by omega)]
                rfl
              · rw [splice_append_across _ (by omega) (by omega), hn]
                rfl

/-! ### Byte arrays -/

/-- The flat string of a well formed byte array.  Its string is the data `[0, size_)` and its
cursor the position. -/
def flat {b : ByteArray} (h : b.Wf) : Flat := ⟨b.bytes, b.position, h.position_le_length⟩

/-- A well formed byte array is the flat string that it is read as. -/
theorem refines_flat {b : ByteArray} (h : b.Wf) : b.Refines (flat h) := ⟨h, rfl, rfl⟩

/-- The flat string is the one that the byte array refines.  A byte array is no more than one
flat string. -/
theorem Refines.flat_eq {b : ByteArray} {f : Flat} (h : b.Refines f) : flat h.wf = f := by
  have hbytes := h.bytes_eq
  have hposition := h.position_eq
  obtain ⟨data, pos, hle⟩ := f
  simp only [flat, Flat.mk.injEq]
  exact ⟨hbytes, hposition⟩

/-- Writing no bytes changes nothing. -/
theorem flat_write_nil {b : ByteArray} (h : b.Wf) : b.Refines ((flat h).write []) :=
  ⟨h, (splice_nil ..).symm, rfl⟩

/-- Two writes one behind the other are one write.  The cursor stands behind both. -/
theorem Flat.write_write (f : Flat) (xs ys : List UInt8) :
    (f.write xs).write ys = f.write (xs ++ ys) := by
  simp only [Flat.write, Flat.mk.injEq]
  refine ⟨splice_splice xs ys f.pos_le, ?_⟩
  rw [List.length_append, Nat.add_assoc]

/-- The nodes before the cursor's, and its offset in its node.  So a loop that runs from the
cursor's node on is one in the whole chain. -/
theorem Wf.split_root {b : ByteArray} (h : b.Wf) (hlt : b.position < b.capacity) :
    ∃ pre, b.root = pre ++ b.curNodes ∧ b.cur.getD 0 = pre.length ∧ Uniform b.baseSize pre ∧
      (content pre).length + b.position % b.baseSize = b.position := by
  refine ⟨b.root.take (b.position / b.baseSize), ?_, ?_, h.uniform.take _, h.length_content_take hlt⟩
  · rw [h.curNodes_eq, List.take_append_drop]
  · rw [h.cur_eq_some hlt, Option.getD_some, List.length_take,
      Nat.min_eq_left (h.div_lt_iff.2 hlt).le]

/-- **`getReadBuffers` gives the next data.**  The buffers hold the data from the cursor on, as
many as were asked for or as there are. -/
theorem getReadBuffers_spec {b : ByteArray} (h : b.Wf) (len : ℕ) :
    ∃ iovs, b.getReadBuffers len = .ok iovs ∧
      gather b.root iovs = (b.bytes.drop b.position).take len ∧
        totalLen iovs = min len b.getReadSize := by
  have hle := h.size_le
  generalize hl : (if len > b.getReadSize then b.getReadSize else len) = l
  have hl' : l = min len b.getReadSize := by
    rw [← hl]
    split_ifs <;> omega
  have htake : (b.bytes.drop b.position).take len = (b.bytes.drop b.position).take l := by
    rw [hl', ← h.length_rest, List.take_eq_take_min]
  rw [htake, ← hl']
  by_cases hzero : l = 0
  · refine ⟨[], ?_, ?_, hzero.symm⟩
    · simp only [getReadBuffers, hl, if_pos hzero]
    · rw [hzero, List.take_zero]
      rfl
  · rw [getReadSize] at hl'
    have hlt : b.position < b.capacity := by omega
    obtain ⟨pre, hroot, hcur, -, -⟩ := h.split_root hlt
    obtain ⟨iovs, hloop, htotal, hgather⟩ := gather_iovLoop h.uniform_curNodes pre h.shift_lt
      (Nat.pos_of_ne_zero hzero) (h.fit_curNodes (n := l) (by omega) (by omega))
    refine ⟨iovs, ?_, ?_, htotal⟩
    · simp only [getReadBuffers, hl, if_neg hzero, hcur, hloop]
    · rw [hroot, hgather, h.drop_curNodes, bytes, List.drop_take, List.take_take,
        Nat.min_eq_left (by omega)]

/-- The system fills buffers of the byte array.  It writes into the nodes and nothing else: the
cursor and the size stay. -/
def fill (iovs : List Iovec) (buf : List UInt8) (b : ByteArray) : ByteArray :=
  { b with root := scatter iovs buf b.root }

/-- No bytes change no node. -/
theorem scatter_nil (iovs : List Iovec) (nodes : List Node) : scatter iovs [] nodes = nodes := by
  induction iovs generalizing nodes with
  | nil => rfl
  | cons v iovs ih =>
      have hstore : (fun n : Node => n.store v.off ([] : List UInt8)) = id := by
        funext n
        rw [Node.store, splice_nil]
        rfl
      rw [scatter, List.take_nil, List.drop_nil, hstore, List.modify_id, ih]

/-- Nothing filled in, nothing changed.  It is a peer that has sent nothing. -/
@[simp]
theorem fill_nil (iovs : List Iovec) (b : ByteArray) : b.fill iovs [] = b := by
  rw [fill, scatter_nil]

/-- **`getWriteBuffers` gives room at the cursor**: what is put into the buffers is written over
the data there.  The byte array itself is still the same flat string, since the buffers are
behind or over its data and the size is not moved. -/
theorem getWriteBuffers_spec {b : ByteArray} (h : b.Wf) {len : ℕ} (hlen : 0 < len) :
    ∃ iovs b₁, (getWriteBuffers len).exec b = (.ok iovs, b₁) ∧ b₁.Refines (flat h) ∧
      b.position + len ≤ b₁.capacity ∧ totalLen iovs = len ∧
      ∀ buf : List UInt8, buf.length ≤ len →
        (b₁.fill iovs buf).Wf ∧
          content (b₁.fill iovs buf).root = splice (content b₁.root) b.position buf := by
  have hwf := addCapacity_wf h len
  have hroom := le_capacity_addCapacity h len
  have hposition := addCapacity_position len b
  have hbytes := addCapacity_bytes h len
  generalize hb₁ : b.addCapacity len = b₁ at hwf hroom hposition hbytes
  have hlt : b₁.position < b₁.capacity := by omega
  obtain ⟨pre, hroot, hcur, hpre, hoff⟩ := hwf.split_root hlt
  obtain ⟨iovs, hloop, htotal, -⟩ := gather_iovLoop hwf.uniform_curNodes pre hwf.shift_lt hlen
    (hwf.fit_curNodes hlen (by omega))
  refine ⟨iovs, b₁, ?_, ⟨hwf, hbytes, hposition⟩, hroom, htotal, fun buf hbuf => ?_⟩
  · simp only [Op.exec, getWriteBuffers, if_neg hlen.ne', hb₁, hcur, hloop]
  · obtain ⟨nodes', hscatter, hlength, hu', hcontent⟩ :=
      scatter_iovLoop hwf.uniform_curNodes pre hwf.shift_lt hloop hbuf
    rw [← hroot] at hscatter
    have hcount : (pre ++ nodes').length = b₁.root.length := by
      rw [hroot, List.length_append, List.length_append, hlength]
    refine ⟨⟨hwf.base_pos, ?_, ?_, ?_, hwf.position_le, hwf.size_le, ?_⟩, ?_⟩
    · rw [fill, hscatter]
      exact hpre.append hu'
    · rw [fill, hscatter]
      exact List.ne_nil_of_length_pos (hcount ▸ List.length_pos_of_ne_nil hwf.root_ne)
    · rw [fill, hscatter]
      exact hwf.capacity_eq.trans (by rw [← hcount])
    · rw [fill, nodeAt, hscatter, hcount, ← nodeAt]
      exact hwf.cur_eq
    · rw [fill, hscatter, content_append, hcontent, ← splice_append_right, hoff, ← content_append,
        ← hroot, hposition]

/-- What was put into the buffers is data once the cursor has moved over it.  The two steps
together are one `write` at the cursor. -/
theorem fill_refines {b : ByteArray} (h : b.Wf) {len : ℕ} (hlen : 0 < len) :
    ∃ iovs b₁, (getWriteBuffers len).exec b = (.ok iovs, b₁) ∧ b₁.Refines (flat h) ∧
      totalLen iovs = len ∧
      ∀ buf : List UInt8, buf.length ≤ len →
        ∃ b₂, (setPosition ((b₁.fill iovs buf).getPosition + buf.length)).exec (b₁.fill iovs buf) =
            (.ok (), b₂) ∧ b₂.Refines ((flat h).write buf) := by
  obtain ⟨iovs, b₁, hexec, href, hroom, htotal, hfill⟩ := getWriteBuffers_spec h hlen
  refine ⟨iovs, b₁, hexec, href, htotal, fun buf hbuf => ?_⟩
  obtain ⟨hwf, hcontent⟩ := hfill buf hbuf
  have hposition : (b₁.fill iovs buf).getPosition = b.position := href.position_eq
  have hcapacity : b.position + buf.length ≤ (b₁.fill iovs buf).capacity :=
    (Nat.add_le_add_left hbuf _).trans hroom
  have hset := setPosition_exec hwf (v := b.position + buf.length) hcapacity
  have hwf₂ := setPosition_wf hwf (b.position + buf.length)
  rw [hset] at hwf₂
  rw [hposition, hset]
  refine ⟨_, rfl, hwf₂, ?_, rfl⟩
  have hsize : b₁.position ≤ b₁.size := href.wf.position_le
  have hle : b₁.size ≤ (content b₁.root).length := href.wf.length_content ▸ href.wf.size_le
  have hpos : b₁.position = b.position := href.position_eq
  have hbytes : b₁.bytes = b.bytes := href.bytes_eq
  change (content (b₁.fill iovs buf).root).take (max b₁.size (b.position + buf.length)) =
    splice b.bytes b.position buf
  rw [hcontent, ← hpos, ← splice_take _ hsize hle, ← hbytes, bytes]

/-! ### Reachable byte arrays -/

/-- The byte arrays that public calls build, whatever comes of each.  A call that throws leaves
a byte array too, and it counts. -/
inductive Reachable : ByteArray → Prop
  | new (mem : ℕ → ℕ → UInt8) (baseSize : ℕ) : 1 ≤ baseSize → Reachable (new mem baseSize)
  | write (b : ByteArray) (buf : List UInt8) : Reachable b → Reachable ((write buf).exec b).2
  | read (b : ByteArray) (size : ℕ) : Reachable b → Reachable ((read size).exec b).2
  | setPosition (b : ByteArray) (v : ℕ) : Reachable b → Reachable ((setPosition v).exec b).2
  | clear (b : ByteArray) : Reachable b → Reachable (clear.exec b).2
  | setIsLittleEndian (b : ByteArray) (val : Bool) : Reachable b →
      Reachable (b.setIsLittleEndian val)
  | getWriteBuffers (b : ByteArray) (len : ℕ) : Reachable b →
      Reachable ((getWriteBuffers len).exec b).2
  /-- The buffers are filled, with as much as they hold or less. -/
  | fill (b b₁ : ByteArray) (len : ℕ) (iovs : List Iovec) (buf : List UInt8) : Reachable b →
      (getWriteBuffers len).exec b = (.ok iovs, b₁) → buf.length ≤ len →
      Reachable (b₁.fill iovs buf)

/-- A `read` keeps the byte array well formed, also when it throws. -/
theorem read_wf {b : ByteArray} (h : b.Wf) (size : ℕ) : ((read size).exec b).2.Wf := by
  rcases Nat.eq_zero_or_pos size with rfl | hsize
  · simp only [Op.exec, read, if_neg (Nat.not_lt_zero _)]
    have hnodes := h.curNodes_eq
    cases hcase : b.curNodes with
    | nil => exact h
    | cons n next =>
        have hlt : b.position / b.baseSize < b.root.length := by
          by_contra hge
          rw [hcase, List.drop_eq_nil_of_le (by omega)] at hnodes
          cases hnodes
        have hcur := h.cur_eq_some (h.div_lt_iff.1 hlt)
        simp only [readLoop, if_true, hcur, Option.getD_some, Nat.add_zero]
        exact ⟨h.base_pos, h.uniform, h.root_ne, h.capacity_eq, h.position_le, h.size_le, rfl⟩
  · obtain ⟨b', hexec, href, -⟩ := read_refines (refines_flat h) hsize
    rw [hexec]
    exact href.wf

/-- **Every byte array is well formed.**  The induction is over the calls, each of which keeps
`Wf`. -/
theorem Reachable.wf {b : ByteArray} (h : b.Reachable) : b.Wf := by
  induction h with
  | new mem baseSize hbase => exact new_wf mem hbase
  | write b buf _ ih =>
      obtain ⟨b', hexec, href, -⟩ := write_refines (refines_flat ih) buf
      rw [hexec]
      exact href.wf
  | read b size _ ih => exact read_wf ih size
  | setPosition b v _ ih => exact setPosition_wf ih v
  | clear b _ ih =>
      obtain ⟨b', hexec, href, -⟩ := clear_refines ih
      rw [hexec]
      exact href.wf
  | setIsLittleEndian b val _ ih =>
      exact ⟨ih.base_pos, ih.uniform, ih.root_ne, ih.capacity_eq, ih.position_le, ih.size_le, ih.cur_eq⟩
  | getWriteBuffers b len _ ih =>
      rcases Nat.eq_zero_or_pos len with rfl | hlen
      · exact ih
      · obtain ⟨iovs, b₁, hexec, href, -⟩ := getWriteBuffers_spec ih hlen
        rw [hexec]
        exact href.wf
  | fill b b₁ len iovs buf _ hexec hbuf ih =>
      rcases Nat.eq_zero_or_pos len with rfl | hlen
      · cases hexec
        exact ih
      · obtain ⟨iovs', b₁', hexec', -, -, -, hfill⟩ := getWriteBuffers_spec ih hlen
        rw [hexec] at hexec'
        cases hexec'
        exact (hfill buf hbuf).1

end Hiper.ByteArray

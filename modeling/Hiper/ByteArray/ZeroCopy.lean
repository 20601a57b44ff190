import Hiper.ByteArray.Calls

/-!
# Buffers instead of copies

`getReadBuffers` and `getWriteBuffers` let the system read and fill the nodes
themselves.  Their block-walking loops are written apart from those of `read` and
`write`, and come to the same: the buffers hold what `read` returns and
`toString` returns (`zeroCopyRead_iff`), and filling them and moving the cursor
over what was filled leaves what `write` leaves (`zeroCopyWrite_eq_write`).

The one place where the two ways of reading part is a read of nothing with the
cursor at the end of the chain: there are no buffers then, and `read` looks at
the node of a null pointer.

The loops are `bytearray.cc:645-661` and `bytearray.cc:715-732`.  Both results hold of every
byte array that calls build (`Built`), with the cursor in the middle of data, at a border,
or at the end; the buffers a caller has already collected are left in front of the new ones.
-/

namespace Hiper

namespace ByteArray

open Lib

/-- `getReadBuffers(buffers, len)`: the returned value, and `buffers` afterwards.  The value is
the length that was granted. -/
def appendReadBuffers (buffers : List Iovec) (len : ℕ) : Op (ℕ × List Iovec) :=
  Op.const fun b =>
    let size := if len > b.getReadSize then b.getReadSize else len
    (b.getReadBuffers len).map fun iovs => (size, buffers ++ iovs)

/-- A non-empty buffer inside one node.  So the system never reads or writes beyond a node. -/
def Iovec.Inside (nodes : List Node) (v : Iovec) : Prop :=
  0 < v.len ∧ ∃ n, nodes[v.node]? = some n ∧ v.off + v.len ≤ n.size

/-- The buffers for `len` bytes, put behind those in `buffers`, are what `read` copies.  The
value returned is their length, each of them is inside a node, and `toString` begins with the
same bytes. -/
def ReadAgrees (b : ByteArray) (buffers : List Iovec) (len : ℕ) : Prop :=
  ∃ iovs, (appendReadBuffers buffers len).exec b = (.ok (totalLen iovs, buffers ++ iovs), b) ∧
    ((read (min len b.getReadSize)).exec b).1 = .ok (gather b.root iovs) ∧
    (∀ v ∈ iovs, v.Inside b.root) ∧ (b.getReadSize ≤ len → b.toString = .ok (gather b.root iovs))

/-- Buffers for `len` bytes, `d` stored in the first of them, the cursor moved over it.  It is
how a socket stream receives into a byte array (`socket_stream.cc:34`). -/
def zeroCopyWrite (len : ℕ) (d : List UInt8) : Op Unit := do
  let iovs ← getWriteBuffers len
  modify (fill iovs d)
  let b ← get
  setPosition (b.getPosition + d.length)

variable {b : ByteArray}

/-! ### Reading -/

/-- Every buffer of the loop is inside its node, and not empty.  The induction is over the
nodes. -/
theorem iovLoop_inside {s : ℕ} {nodes : List Node} (hu : Uniform s nodes) (pre : List Node)
    {npos len : ℕ} {iovs : List Iovec} (hpos : npos < s) (hlen : 0 < len)
    (hloop : iovLoop nodes pre.length npos len = .ok iovs) :
    ∀ v ∈ iovs, v.Inside (pre ++ nodes) := by
  induction nodes generalizing pre npos len iovs with
  | nil => cases hloop
  | cons n next ih =>
      obtain ⟨hn, hnext⟩ := hu.cons_inv
      have hsize : n.size = s := hn
      have hnode : (pre ++ n :: next)[pre.length]? = some n := by simp
      simp only [iovLoop, hsize] at hloop
      split_ifs at hloop with hlast
      · cases hloop
        intro v hv
        rw [List.mem_singleton.1 hv]
        exact ⟨hlen, n, hnode, by dsimp only; omega⟩
      · cases hrest : iovLoop next (pre.length + 1) 0 (len - (s - npos)) with
        | error e =>
            rw [hrest] at hloop
            cases hloop
        | ok iovs' =>
            rw [hrest] at hloop
            cases hloop
            have hpre : (pre ++ [n]).length = pre.length + 1 := by
              rw [List.length_append, List.length_singleton]
            have hinside := ih hnext (pre ++ [n]) (by omega) (by omega) (hpre.symm ▸ hrest)
            rw [List.append_assoc, List.singleton_append] at hinside
            intro v hv
            rcases List.mem_cons.1 hv with rfl | hv
            · exact ⟨by dsimp only; omega, n, hnode, by dsimp only; omega⟩
            · exact hinside v hv

/-- Every buffer that is handed out for reading is inside its node, and not empty. -/
theorem getReadBuffers_inside (h : b.Wf) {len : ℕ} {iovs : List Iovec}
    (hiovs : b.getReadBuffers len = .ok iovs) : ∀ v ∈ iovs, v.Inside b.root := by
  have hcap := h.size_le
  unfold getReadBuffers getReadSize at hiovs
  dsimp only at hiovs
  generalize hl : (if len > b.size - b.position then b.size - b.position else len) = l at hiovs
  have hle : l ≤ b.size - b.position := by
    rw [← hl]
    split_ifs <;> omega
  by_cases hzero : l = 0
  · rw [if_pos hzero] at hiovs
    cases hiovs
    intro v hv
    cases hv
  · obtain ⟨pre, hroot, hcur, -, -⟩ := h.split_root (by omega)
    rw [if_neg hzero, hcur] at hiovs
    rw [hroot]
    exact iovLoop_inside h.uniform_curNodes pre h.shift_lt (Nat.pos_of_ne_zero hzero) hiovs

/-- A read of nothing reads nothing, unless the cursor is at the end of the chain.  There the
null pointer is followed. -/
theorem read_zero_fst (h : b.Wf) :
    ((read 0).exec b).1 = .ok [] ↔ b.position ≠ b.capacity := by
  constructor
  · intro hread hend
    rw [(read_null_iff h 0).2 ⟨rfl, hend⟩] at hread
    cases hread
  · intro hend
    have hcap := h.position_le.trans h.size_le
    have hlt := h.div_lt_iff.2 (lt_of_le_of_ne hcap hend)
    simp only [Op.exec, read, if_neg (Nat.not_lt_zero _)]
    rw [h.curNodes_eq, List.drop_eq_getElem_cons hlt]
    simp [readLoop]

/-- What `read` returns of what there is to read.  As much as was asked for and is there. -/
theorem read_fst_iff (h : b.Wf) (len : ℕ) :
    ((read (min len b.getReadSize)).exec b).1 = .ok ((b.bytes.drop b.position).take len) ↔
      ¬(min len b.getReadSize = 0 ∧ b.position = b.capacity) := by
  rw [List.take_eq_take_min, h.length_rest]
  rcases Nat.eq_zero_or_pos (min len b.getReadSize) with hzero | hpos
  · rw [hzero, List.take_zero, read_zero_fst h]
    simp
  · rw [read_exec h hpos (Nat.min_le_right ..)]
    simp only [true_iff]
    omega

/-- **The buffers are what `read` copies**, unless there is nothing to copy and the cursor is at
the end of the chain.  The condition is on the state and the length asked for.  `getReadBuffers`
is `src/hiper/base/bytearray.cc:631`, and returns in line 635 when there is nothing to read;
`read` (444) goes on to line 451. -/
theorem zeroCopyRead_iff (hb : b.Built) (buffers : List Iovec) (len : ℕ) :
    ReadAgrees b buffers len ↔ ¬(min len b.getReadSize = 0 ∧ b.position = b.capacity) := by
  have h := hb.wf
  obtain ⟨iovs, hiovs, hgather, htotal⟩ := getReadBuffers_spec h len
  have hsize : (if len > b.getReadSize then b.getReadSize else len) = totalLen iovs := by
    rw [htotal]
    split_ifs <;> omega
  have happend : (appendReadBuffers buffers len).exec b =
      (.ok (totalLen iovs, buffers ++ iovs), b) := by
    simp only [appendReadBuffers, Op.exec, Op.const, hiovs, hsize]
    rfl
  rw [← read_fst_iff h len, ← hgather]
  constructor
  · rintro ⟨iovs', happend', hread, -⟩
    rw [happend] at happend'
    have hpair := Except.ok.inj (Prod.mk.inj happend').1
    obtain rfl := List.append_cancel_left (Prod.mk.inj hpair).2
    exact hread
  · intro hread
    refine ⟨iovs, happend, hread, getReadBuffers_inside h hiovs, fun hall => ?_⟩
    rw [toString_refines (refines_flat h), hgather, List.take_of_length_le (h.length_rest.trans_le hall)]
    rfl

/-- Five bytes over three nodes, from the second one on.  The buffers are put behind one that is
there already. -/
theorem zeroCopyRead_across :
    ReadAgrees (after .little [.write [1, 2, 3, 4, 5], .setPosition 1] (new (fun _ _ => 0) 2))
      [⟨0, 0, 1⟩] (2 ^ 64 - 1) :=
  (zeroCopyRead_iff (built_after .little _ (by decide) _) [⟨0, 0, 1⟩] (2 ^ 64 - 1)).2
    (by decide +kernel)

/-- With all data read and the last node full there are no buffers, and a read of nothing
follows a null pointer.  The failing input. -/
theorem zeroCopyRead_at_end : ¬ReadAgrees
    (after .little [.write [1, 2], .read 2] (new (fun _ _ => 0) 2)) [] 1 := by
  rintro ⟨iovs, -, hread, -⟩
  have hnull : ((read (min 1 (after .little [.write [1, 2], .read 2]
      (new (fun _ _ => 0) 2)).getReadSize)).exec (after .little [.write [1, 2], .read 2]
        (new (fun _ _ => 0) 2))).1 = .error .nullDeref := by decide +kernel
  rw [hnull] at hread
  cases hread

/-! ### Writing -/

/-- **Filling the buffers is writing**, wherever the cursor is and however much more was asked
for than is filled.  The two leave the same data, size and position.  `getWriteBuffers` is
`src/hiper/base/bytearray.cc:703`, with `setPosition` (508) after the buffers are filled, as
`SocketStream::read` does; `write` (402) copies. -/
theorem zeroCopyWrite_eq_write (hb : b.Built) {len : ℕ} {d : List UInt8} (hd : 1 ≤ d.length)
    (hlen : d.length ≤ len) :
    ∃ b₁ b₂ : ByteArray, (write d).exec b = (.ok (), b₁) ∧
      (zeroCopyWrite len d).exec b = (.ok (), b₂) ∧
      b₂.getPosition = b₁.getPosition ∧ b₂.getSize = b₁.getSize ∧ b₂.bytes = b₁.bytes := by
  have h := hb.wf
  obtain ⟨b₁, hwrite, href₁, -⟩ := write_refines (refines_flat h) d
  obtain ⟨iovs, b', hexec, -, -, hfill⟩ := fill_refines h (show 0 < len by omega)
  obtain ⟨b₂, hset, href₂⟩ := hfill d hlen
  refine ⟨b₁, b₂, hwrite, ?_, ?_, ?_, ?_⟩
  · rw [zeroCopyWrite, Op.exec_bind_ok hexec]
    exact hset
  · exact href₂.position_eq.trans href₁.position_eq.symm
  · exact href₂.size_eq.trans href₁.size_eq.symm
  · exact href₂.bytes_eq.trans href₁.bytes_eq.symm

/-- Three bytes over the middle of four, in buffers for nine.  The data are overwritten and the
size stays. -/
theorem zeroCopyWrite_middle : ∃ b₁ b₂ : ByteArray,
    (write [7, 8, 9]).exec (after .little [.write [1, 2, 3, 4], .setPosition 1]
      (new (fun _ _ => 0) 2)) = (.ok (), b₁) ∧
    (zeroCopyWrite 9 [7, 8, 9]).exec (after .little [.write [1, 2, 3, 4], .setPosition 1]
      (new (fun _ _ => 0) 2)) = (.ok (), b₂) ∧
    b₂.getPosition = b₁.getPosition ∧ b₂.getSize = b₁.getSize ∧ b₂.bytes = b₁.bytes :=
  zeroCopyWrite_eq_write (built_after .little _ (by decide) _) (by decide) (by decide)

end ByteArray

end Hiper

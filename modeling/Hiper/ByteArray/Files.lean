import Hiper.ByteArray.Calls
import Hiper.Lib.Narrow

/-!
# A byte array, written to a file and read back

`writeToFile` walks the nodes from the cursor's on and hands a stretch of each to the
stream.  How long a stretch is comes from one expression,
`(read_size > base_size_ ? base_size_ : read_size) - diff`, which takes the offset
`diff` of the first stretch off whatever is smaller, the block or the rest of the data.
When the data end inside a block that the cursor is inside of, the rest and the offset
change places from round to round, and the walk runs off the chain
(`writeToFileLoop_stuck`).  `file_round_trip` is the round trip where it does not.

The functions are `bytearray.cc:527` and `bytearray.cc:554`.  The integers are those of the
source, `int64_t` for the rest and the position and `int` for the offset, so that a block of
`2 ^ 31` bytes or more has offsets that the conversion changes.  `BlockLeft` is the
condition on the byte array before the call: it needs only its size, its cursor and its
block size.
-/

namespace Hiper.ByteArray

open Lib

/-- How `writeToFile` can go wrong: a null pointer followed, or bytes handed to the stream that
the node does not have.  The second is a read outside of the node's memory. -/
inductive FileFault
  | nullDeref
  | outsideNode
  deriving DecidableEq, Repr

/-- `std::ofstream`: what was written, and whether a call failed.  The stream is opened empty
(`std::ios::trunc`). -/
structure Ofs where
  written : List UInt8
  bad : Bool
  deriving DecidableEq, Repr

/-- `ofs.write(ptr + diff, len)`.  A stream that has failed does nothing, and a count below zero
makes it fail.  A place before the node, or bytes behind its end, are outside of its memory. -/
def Ofs.write (ofs : Ofs) (ptr : List UInt8) (diff len : ℤ) : Except FileFault Ofs :=
  if ofs.bad then .ok ofs
  else if len < 0 then .ok { ofs with bad := true }
  else if 0 ≤ diff ∧ diff + len ≤ ptr.length then
    .ok { ofs with written := ofs.written ++ (ptr.drop diff.toNat).take len.toNat }
  else .error .outsideNode

/-- The loop of `writeToFile`: the list is the nodes from `cur` on.  `pos` never goes below
zero.  A round writes one stretch and takes the next node, whether or not the stretch reached
the end of this one (`bytearray.cc:541-549`). -/
def writeToFileLoop (base : ℕ) : List Node → ℤ → ℤ → Ofs → Except FileFault Ofs
  | [], readSize, _, ofs => if readSize > 0 then .error .nullDeref else .ok ofs
  | n :: next, readSize, pos, ofs =>
    if readSize > 0 then
      let diff := narrow 32 (pos % base)  -- an `int`
      let len := (if readSize > base then (base : ℤ) else readSize) - diff
      match ofs.write n.ptr diff len with
      | .error e => .error e
      | .ok ofs => writeToFileLoop base next (readSize - len) (pos + len) ofs
    else .ok ofs

/-- `writeToFile(name)`: the file it leaves, or nothing when it returns false because the file
cannot be opened.  The walk starts at the node of the cursor, and the file has what the stream
had when the walk ended (`bytearray.cc:527`). -/
def writeToFile (b : ByteArray) (opened : Bool) : Except FileFault (Option (List UInt8)) :=
  if opened then
    (writeToFileLoop b.baseSize b.curNodes b.getReadSize b.position ⟨[], false⟩).map
      fun ofs => some ofs.written
  else .ok none

/-! ### Writing -/

/-- A stretch inside the node is written behind what the stream has. -/
theorem Ofs.write_inside {written ptr : List UInt8} {diff len : ℕ} (h : diff + len ≤ ptr.length) :
    Ofs.write ⟨written, false⟩ ptr diff len =
      .ok ⟨written ++ (ptr.drop diff).take len, false⟩ := by
  have hlen : ¬(len : ℤ) < 0 := by omega
  have hin : 0 ≤ (diff : ℤ) ∧ (diff : ℤ) + len ≤ ptr.length := by omega
  simp only [Ofs.write, Bool.false_eq_true, if_false, if_neg hlen, if_pos hin, Int.toNat_natCast]

/-- Nothing left, nothing done.  The loop ends where the rest is zero, also when no node is
left. -/
theorem writeToFileLoop_done (s : ℕ) (nodes : List Node) (pos : ℤ) (ofs : Ofs) :
    writeToFileLoop s nodes 0 pos ofs = .ok ofs := by
  cases nodes <;> simp [writeToFileLoop]

/-- **From the start of a block** the loop writes what is left, block by block.  The offset is
zero in every round, so that each but the last writes a whole node.  The induction is over the
nodes. -/
theorem writeToFileLoop_aligned {s : ℕ} {nodes : List Node} (hu : Uniform s nodes)
    {rest : ℕ} (hfit : rest ≤ nodes.length * s) {pos : ℤ} (hpos : pos % s = 0)
    (written : List UInt8) :
    writeToFileLoop s nodes rest pos ⟨written, false⟩ =
      .ok ⟨written ++ (content nodes).take rest, false⟩ := by
  induction nodes generalizing rest pos written with
  | nil =>
      rw [List.length_nil, Nat.zero_mul] at hfit
      obtain rfl : rest = 0 := by omega
      simp [writeToFileLoop]
  | cons n next ih =>
      obtain ⟨hn, hnext⟩ := hu.cons_inv
      rw [List.length_cons, Nat.succ_mul] at hfit
      rcases Nat.eq_zero_or_pos rest with rfl | hrest
      · simp [writeToFileLoop]
      have hdiff : narrow 32 (pos % s) = (0 : ℕ) := by
        rw [hpos]
        rfl
      have hlen : (if (rest : ℤ) > s then (s : ℤ) else rest) - (0 : ℕ) = (min s rest : ℕ) := by
        split_ifs <;> omega
      have hwrite : Ofs.write ⟨written, false⟩ n.ptr (0 : ℕ) (min s rest : ℕ) =
          .ok ⟨written ++ n.ptr.take (min s rest), false⟩ :=
        Ofs.write_inside (by omega)
      have hleft : (rest : ℤ) - (min s rest : ℕ) = (rest - s : ℕ) := by omega
      have htake : n.ptr.take (min s rest) = n.ptr.take rest := by
        rw [← hn, Nat.min_comm, ← List.take_eq_take_min]
      simp only [writeToFileLoop, if_pos (show (rest : ℤ) > 0 by omega), hdiff, hlen, hwrite, hleft]
      rcases Nat.lt_or_ge s rest with hmore | hlast
      · have hnextPos : (pos + (min s rest : ℕ)) % s = 0 := by
          rw [Nat.min_eq_left hmore.le, Int.add_emod_right, hpos]
        rw [ih hnext (by omega) hnextPos, htake, content_cons, List.take_append, hn,
          List.append_assoc]
      · have hdone : writeToFileLoop s next (rest - s : ℕ) (pos + (min s rest : ℕ))
            ⟨written ++ n.ptr.take (min s rest), false⟩ =
              .ok ⟨written ++ n.ptr.take (min s rest), false⟩ := by
          rw [Nat.sub_eq_zero_of_le hlast, Nat.cast_zero]
          exact writeToFileLoop_done ..
        rw [hdone, htake, content_cons, List.take_append_of_le_length (by omega)]

/-- **From inside a block** the first stretch is the rest of it, when at least a block's worth
of data is left.  From the next node on the offset is zero, and the rest is written from the
start of a block. -/
theorem writeToFileLoop_inside {s : ℕ} {nodes : List Node} (hu : Uniform s nodes) {rest pos : ℕ}
    (hrest : s ≤ rest) (hfit : pos % s + rest ≤ nodes.length * s) (hdiff : pos % s < 2 ^ 31)
    (hs : 0 < s) :
    writeToFileLoop s nodes rest pos ⟨[], false⟩ =
      .ok ⟨((content nodes).drop (pos % s)).take rest, false⟩ := by
  cases nodes with
  | nil =>
      rw [List.length_nil, Nat.zero_mul] at hfit
      omega
  | cons n next =>
      obtain ⟨hn, hnext⟩ := hu.cons_inv
      have hlt := Nat.mod_lt pos hs
      rw [List.length_cons, Nat.succ_mul] at hfit
      generalize hd : pos % s = d at hlt hfit hdiff
      have hdiff' : narrow 32 ((pos : ℤ) % s) = d := by
        rw [← Int.natCast_emod, hd]
        exact (narrow_eq_iff 31 (by omega)).2 (by omega)
      have hlen : (if (rest : ℤ) > s then (s : ℤ) else rest) - d = (s - d : ℕ) := by
        split_ifs <;> omega
      have hwrite : Ofs.write ⟨[], false⟩ n.ptr d (s - d : ℕ) =
          .ok ⟨[] ++ (n.ptr.drop d).take (s - d), false⟩ :=
        Ofs.write_inside (by omega)
      have hleft : (rest : ℤ) - (s - d : ℕ) = (rest - (s - d) : ℕ) := by omega
      have hnextPos : ((pos : ℤ) + (s - d : ℕ)) % s = 0 := by
        have hpos := Nat.div_add_mod pos s
        have hsum : (pos : ℤ) + (s - d : ℕ) = s * (pos / s + 1 : ℕ) := by
          rw [Nat.cast_add, mul_add, ← Nat.cast_mul]
          omega
        rw [hsum, Int.mul_emod_right]
      have hsize : (n.ptr.drop d).length = s - d := by rw [List.length_drop, hn]
      simp only [writeToFileLoop, if_pos (show (rest : ℤ) > 0 by omega), hdiff', hlen, hwrite, hleft]
      rw [writeToFileLoop_aligned hnext (by omega) hnextPos, content_cons,
        List.drop_append_of_le_length (by omega), List.take_append, hsize, List.nil_append,
        List.take_of_length_le hsize.le, List.take_of_length_le (by omega : _ ≤ rest)]

/-- There is nothing to write, or the cursor is at the start of a block, or at least a block's
worth of data is left to write from an offset that `int` holds.  It is asked before the call, of
the byte array alone. -/
def BlockLeft (b : ByteArray) : Prop :=
  b.getReadSize = 0 ∨ b.position % b.baseSize = 0 ∨
    (b.baseSize ≤ b.getReadSize ∧ b.position % b.baseSize < 2 ^ 31)

/-- With `BlockLeft` the file is the data from the cursor on. -/
theorem writeToFile_blockLeft {b : ByteArray} (h : b.Wf) (hb : b.BlockLeft) :
    b.writeToFile true = .ok (some (b.bytes.drop b.position)) := by
  have hrest : (b.bytes.drop b.position) = ((content b.root).drop b.position).take b.getReadSize := by
    rw [bytes, List.drop_take, getReadSize]
  have hsize := h.size_le
  suffices hloop : writeToFileLoop b.baseSize b.curNodes b.getReadSize b.position ⟨[], false⟩ =
      .ok ⟨b.bytes.drop b.position, false⟩ by
    rw [writeToFile, if_pos rfl, hloop]
    rfl
  rw [hrest]
  rcases Nat.eq_zero_or_pos b.getReadSize with hzero | hpos
  · rw [hzero, List.take_zero]
    exact writeToFileLoop_done ..
  have hfit : b.position % b.baseSize + b.getReadSize ≤ b.curNodes.length * b.baseSize := by
    refine h.fit_curNodes hpos ?_
    unfold getReadSize at hpos ⊢
    omega
  rw [← h.drop_curNodes]
  rcases hb with hzero | hstart | ⟨hblock, hdiff⟩
  · omega
  · have hloop : writeToFileLoop b.baseSize b.curNodes b.getReadSize b.position ⟨[], false⟩ = _ :=
      writeToFileLoop_aligned h.uniform_curNodes (by omega) (by omega) []
    rw [hloop, hstart, List.drop_zero, List.nil_append]
  · exact writeToFileLoop_inside h.uniform_curNodes hblock hfit hdiff h.base_pos

/-- A stream is bad after a write when it was before, or the count was below zero.  So it turns
bad in the first round or never in the runs considered here. -/
theorem Ofs.write_bad {ofs ofs' : Ofs} {ptr : List UInt8} {diff len : ℤ}
    (h : ofs.write ptr diff len = .ok ofs') (hbad : ofs'.bad = true) :
    ofs.bad = true ∨ len < 0 := by
  unfold Ofs.write at h
  split_ifs at h with hofs hlen hin
  · exact Or.inl hofs
  · exact Or.inr hlen
  · cases h
    exact Or.inl hbad

/-- A place before the node is outside of its memory. -/
theorem Ofs.write_before {ofs : Ofs} (hofs : ofs.bad ≠ true) {ptr : List UInt8} {diff len : ℤ}
    (hdiff : diff < 0) (hlen : 0 ≤ len) : ofs.write ptr diff len = .error .outsideNode := by
  rw [Ofs.write, if_neg hofs, if_neg (by omega), if_neg (by omega)]

/-- **The walk that does not end in the data.**  Inside a block with less than a block left, the
rest and the offset change places; neither reaches zero before the chain ends. An offset that
`int` does not hold points before the node.  Since `rest` and the offset are both positive and
each becomes the other, the walk goes on until a null pointer is followed.  The induction is
over the nodes. -/
theorem writeToFileLoop_stuck {s : ℕ} (hs₀ : 0 < s) (hs : s ≤ 2 ^ 32) (nodes : List Node)
    {rest pos : ℕ} {ofs : Ofs} (hrest : 0 < rest) (hlt : pos % s < 2 ^ 31 → rest < s) (hdiff : 0 < pos % s)
    (hbad : ofs.bad = true → rest < 2 ^ 31 ∧ pos % s < 2 ^ 31) :
    ∃ e, writeToFileLoop s nodes rest pos ofs = .error e := by
  induction nodes generalizing rest pos ofs with
  | nil => exact ⟨.nullDeref, by simp [writeToFileLoop, hrest]⟩
  | cons n next ih =>
      have hmod := Nat.mod_lt pos hs₀
      have hpos := Nat.div_add_mod pos s
      generalize hd : pos % s = d at hmod hpos hlt hdiff hbad
      have hcast : (pos : ℤ) % s = d := by rw [← Int.natCast_emod, hd]
      simp only [writeToFileLoop, if_pos (show (rest : ℤ) > 0 by omega), hcast]
      rcases Nat.lt_or_ge d (2 ^ 31) with hsmall | hlarge
      · have hshort := hlt hsmall
        rw [(narrow_eq_iff 31 (by omega)).2 (by omega), if_neg (show ¬(rest : ℤ) > s by omega)]
        cases hwrite : ofs.write n.ptr d (rest - d) with
        | error e => exact ⟨e, rfl⟩
        | ok ofs' =>
            have hswap : (rest : ℤ) - (rest - d) = d := by omega
            have hnextPos : (pos : ℤ) + (rest - d) = (s * (pos / s) + rest : ℕ) := by omega
            have hnextDiff : (s * (pos / s) + rest) % s = rest := by
              rw [Nat.mul_add_mod, Nat.mod_eq_of_lt hshort]
            simp only [hswap, hnextPos]
            refine ih hdiff (fun _ => hmod) (by omega) fun hofs => ?_
            rcases Ofs.write_bad hwrite hofs with hbefore | hneg
            · have := hbad hbefore
              omega
            · omega
      · have hneg : narrow 32 d < 0 := by
          rw [← not_le, narrow_nonneg_iff 31]
          omega
        have hofs : ofs.bad ≠ true := fun hofs => by
          have := hbad hofs
          omega
        rw [Ofs.write_before hofs hneg (by split_ifs <;> omega)]
        exact ⟨_, rfl⟩

/-- Without `BlockLeft` the walk fails, for blocks of no more than `2 ^ 32` bytes. -/
theorem writeToFile_not_blockLeft {b : ByteArray} (h : b.Wf) (hbase : b.baseSize ≤ 2 ^ 32)
    (hb : ¬b.BlockLeft) : ∃ e, b.writeToFile true = .error e := by
  simp only [BlockLeft, not_or, not_and] at hb
  obtain ⟨hrest, hdiff, hblock⟩ := hb
  have hshort : b.position % b.baseSize < 2 ^ 31 → b.getReadSize < b.baseSize :=
    fun hsmall => not_le.1 fun hge => hblock hge hsmall
  have hloop : ∃ e, writeToFileLoop b.baseSize b.curNodes b.getReadSize b.position ⟨[], false⟩ =
      .error e :=
    writeToFileLoop_stuck h.base_pos hbase b.curNodes (Nat.pos_of_ne_zero hrest) hshort
      (Nat.pos_of_ne_zero hdiff) nofun
  obtain ⟨e, hloop⟩ := hloop
  exact ⟨e, by rw [writeToFile, if_pos rfl, hloop, Except.map]⟩

/-! ### Reading -/

/-- **The loop of `readFromFile` writes the file**, a block of the reader's own a round.  The
last round may be one of no bytes, when the file ends with a block; it writes nothing. -/
theorem readFromFileLoop_writes (rounds : ℕ) {rest : List UInt8} {b : ByteArray} {f : Flat}
    (h : b.Refines f) (hrounds : rest.length < rounds) :
    ∃ b', (readFromFileLoop rounds rest).exec b = (.ok (), b') ∧ b'.Refines (f.write rest) := by
  induction rounds generalizing rest b f with
  | zero => omega
  | succ rounds ih =>
      have hbase := h.wf.base_pos
      obtain ⟨b₁, hwrite, href, -⟩ := write_refines h (rest.take b.baseSize)
      have hround : (readFromFileLoop (rounds + 1) rest).exec b =
          (if rest.length < b.baseSize then pure ()
            else readFromFileLoop rounds (rest.drop b.baseSize) : Op Unit).exec b₁ :=
        Op.exec_bind_ok hwrite _
      rw [hround]
      split_ifs with hlast
      · rw [List.take_of_length_le hlast.le] at href
        exact ⟨b₁, rfl, href⟩
      · have hdrop : (rest.drop b.baseSize).length < rounds := by
          rw [List.length_drop]
          omega
        obtain ⟨b₂, hloop, href₂⟩ := ih href hdrop
        rw [Flat.write_write, List.take_append_drop] at href₂
        exact ⟨b₂, hloop, href₂⟩

/-- A fresh byte array of any block size holds the file it is read from.  It is what
`bytearray.cc:554` does to an empty byte array. -/
theorem readFromFile_new (file : List UInt8) (mem : ℕ → ℕ → UInt8) {baseSize : ℕ}
    (hbase : 1 ≤ baseSize) :
    ∃ b', (readFromFile (some file)).exec (new mem baseSize) = (.ok true, b') ∧ b'.Wf ∧
      b'.bytes = file := by
  obtain ⟨b', hloop, href⟩ := readFromFileLoop_writes (file.length + 1) (new_refines mem hbase)
    (Nat.lt_succ_self file.length)
  have hdata : (Flat.empty.write file).data = file := splice_length [] file
  exact ⟨b', Op.exec_bind_ok hloop _, href.wf, href.bytes_eq.trans hdata⟩

/-! ### The round trip -/

/-- `writeToFile` leaves the data from the cursor on, and a fresh byte array of any block size
that is read from that file holds them.  The call must return, and return true. -/
def FileRoundTrip (b : ByteArray) : Prop :=
  ∃ file, b.writeToFile true = .ok (some file) ∧ file = b.bytes.drop b.position ∧
    ∀ mem baseSize, 1 ≤ baseSize →
      ∃ b', (readFromFile (some file)).exec (new mem baseSize) = (.ok true, b') ∧ b'.Wf ∧
        b'.bytes = file

/-- **The round trip through a file** succeeds when the data left are none, start with a block,
or are at least as long as a block; and up to blocks of `2 ^ 32` bytes only then.  The condition
is on the state before the call: what is left and where the cursor stands in its block.  The
second half is shown by the walk failing, in a state where it must (`writeToFileLoop_stuck`).
`writeToFile` is `src/hiper/base/bytearray.cc:527`, `readFromFile` 554; the length of a piece in
line 544 subtracts the offset in the block even when less than a block is left, so the walk
writes too little there and goes on to a node that may not exist. -/
theorem file_round_trip {b : ByteArray} (h : b.Built) :
    (b.BlockLeft → b.FileRoundTrip) ∧ (b.baseSize ≤ 2 ^ 32 → b.FileRoundTrip → b.BlockLeft) := by
  constructor
  · intro hb
    refine ⟨_, writeToFile_blockLeft h.wf hb, rfl, fun mem baseSize hbase => ?_⟩
    exact readFromFile_new _ mem hbase
  · rintro hbase ⟨file, hwrite, -⟩
    by_contra hb
    obtain ⟨e, herror⟩ := writeToFile_not_blockLeft h.wf hbase hb
    rw [herror] at hwrite
    cases hwrite

/-- Five bytes in blocks of two, from the second on.  Four bytes are left, more than a block. -/
theorem file_round_trip_second :
    (after .little [.write [1, 2, 3, 4, 5], .setPosition 1] (new (fun _ _ => 0) 2)).FileRoundTrip :=
  (file_round_trip (built_after .little _ (by decide) _)).1 (Or.inr (Or.inr (by decide +kernel)))

/-- Three bytes in a block of four, from the second on: the walk runs off the chain.  The
failing input: two bytes are left in a block that the cursor is inside of. -/
theorem file_round_trip_one_block :
    ¬(after .little [.write [1, 2, 3], .setPosition 1] (new (fun _ _ => 0) 4)).FileRoundTrip := by
  rintro ⟨file, hwrite, -⟩
  have hnull : (after .little [.write [1, 2, 3], .setPosition 1]
      (new (fun _ _ => 0) 4)).writeToFile true = .error .nullDeref := by decide +kernel
  rw [hnull] at hwrite
  cases hwrite

end Hiper.ByteArray

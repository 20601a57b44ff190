import Hiper.ByteArray.Typed
import Mathlib.Data.UInt

/-!
# Every sequence of values comes back

What each typed write of `bytearray.cc` stores and what the read of the same
name takes: `writeFixed_stores` and `readFixed_takes` for the integers of fixed
width, `readGroups_takes` for the groups of seven bits.  A `Value` is an integer
together with the operation it is written by; the bytes it stores
(`Value.encode`) are the bytes its read takes it from (`Value.write_stores`,
`Value.read_takes`), which an induction on the sequence turns into
`typed_round_trip`.

What a write stores depends on nothing but the value, the machine and `endian_` (`Stores`),
and what a read takes depends on nothing but the bytes at the cursor (`Takes`); so the round
trip is proved once for one value and lifted to sequences, mixed as they come.  The writes
are `bytearray.cc:68-191` and the reads `bytearray.cc:236-331`.
-/

namespace Hiper

open Lib

/-! ### Bytes in memory -/

/-- A field of `n` bytes has a number below `256 ^ n`. -/
theorem toNat_lt_pow {n : ℕ} (v : BitVec (8 * n)) : v.toNat < 256 ^ n := by
  have hlt := v.isLt
  rwa [pow_mul] at hlt

/-- A field of `n` bytes takes `n` bytes in memory. -/
theorem Endian.length_store (host : Endian) (n : ℕ) (v : BitVec (8 * n)) :
    (host.store n v).length = n := by
  cases host <;> simp [Endian.store]

/-- Memory gives back what was put into it.  In either byte order. -/
theorem Endian.load_store (host : Endian) (n : ℕ) (v : BitVec (8 * n)) :
    host.load n (host.store n v) = v := by
  have hdigits : BitVec.ofNat (8 * n) (ofLE (toLE n v.toNat)) = v := by
    rw [ofLE_toLE, Nat.mod_eq_of_lt (toNat_lt_pow v), BitVec.ofNat_toNat, BitVec.setWidth_eq]
  cases host with
  | little => exact hdigits
  | big => rw [Endian.store, Endian.load, List.reverse_reverse, hdigits]

/-- The digits of a swapped number are its digits in the other order.  It is what `bswap_16`,
`bswap_32` and `bswap_64` are for. -/
theorem toLE_byteswap (n : ℕ) (v : BitVec (8 * n)) :
    toLE n (byteswap n v).toNat = (toLE n v.toNat).reverse := by
  have hlen : (toLE n v.toNat).reverse.length = n := by rw [List.length_reverse, length_toLE]
  have hlt : ofLE (toLE n v.toNat).reverse < 2 ^ (8 * n) := by
    have h := ofLE_lt (toLE n v.toNat).reverse
    rwa [hlen, show (256 : ℕ) = 2 ^ 8 from rfl, ← pow_mul] at h
  have hdigits := toLE_ofLE (toLE n v.toNat).reverse
  rw [hlen] at hdigits
  rw [byteswap, BitVec.toNat_ofNat, Nat.mod_eq_of_lt hlt, hdigits]

/-- Swapping the bytes twice puts them back.  So the write and the read undo each other. -/
theorem byteswap_byteswap (n : ℕ) (v : BitVec (8 * n)) : byteswap n (byteswap n v) = v := by
  rw [byteswap, toLE_byteswap, List.reverse_reverse, ofLE_toLE, Nat.mod_eq_of_lt (toNat_lt_pow v),
    BitVec.ofNat_toNat, BitVec.setWidth_eq]

namespace ByteArray

variable {e host : Endian}

/-! ### Fixed width -/

/-- The bytes of a field of fixed width.  They are swapped when the byte order is not that of
the machine. -/
def fixedBytes (host e : Endian) (n : ℕ) (v : BitVec (8 * n)) : List UInt8 :=
  host.store n (if e ≠ host then byteswap n v else v)

/-- A field of fixed width stores its bytes. -/
theorem writeFixed_stores (n : ℕ) (v : BitVec (8 * n)) :
    Stores (writeFixed host n v) e (fixedBytes host e n v) := by
  intro b f h he
  obtain ⟨b', hexec, hrest⟩ := write_stores (fixedBytes host e n v) b f h he
  refine ⟨b', ?_, hrest⟩
  rw [← hexec, fixedBytes, ← he]
  rfl

/-- A read that looks at `endian_` and moves nothing.  It takes no bytes. -/
theorem get_takes {α : Type} (g : Endian → α) :
    Takes (do let b ← get; pure (g b.endian)) e [] (g e) := by
  intro b f rest h he hdata
  refine ⟨b, f, ?_, h, he, rfl, rfl, hdata⟩
  rw [← he]
  rfl

/-- A number in another byte order than the host's is turned around twice.  In the machine's own
order it is not turned around at all. -/
theorem load_fixedBytes (n : ℕ) (v : BitVec (8 * n)) :
    (if e = host then host.load n (fixedBytes host e n v)
      else byteswap n (host.load n (fixedBytes host e n v))) = v := by
  rw [fixedBytes, Endian.load_store]
  by_cases hhost : e = host
  · simp only [hhost, ne_eq, not_true, if_true, if_false]
  · simp only [hhost, ne_eq, not_false_iff, if_true, if_false, byteswap_byteswap]

/-- A field of fixed width is taken from its bytes. -/
theorem readFixed_takes {n : ℕ} (hn : 0 < n) (v : BitVec (8 * n)) :
    Takes (readFixed host n) e (fixedBytes host e n v) v := by
  have hlen : (fixedBytes host e n v).length = n := Endian.length_store ..
  have hne : fixedBytes host e n v ≠ [] := List.ne_nil_of_length_pos (hlen.symm ▸ hn)
  have hread := read_takes (e := e) hne
  rw [hlen] at hread
  have htake := hread.bind (k := fun bytes => do
      let b ← get
      pure (if b.endian = host then host.load n bytes else byteswap n (host.load n bytes)))
    (get_takes fun e' =>
      if e' = host then host.load n (fixedBytes host e n v)
      else byteswap n (host.load n (fixedBytes host e n v)))
  rw [List.append_nil] at htake
  rwa [load_fixedBytes] at htake

/-- `readFuint8` takes a byte. -/
theorem readFuint8_takes (b : UInt8) : Takes readFuint8 e [b] b :=
  (read_takes (List.cons_ne_nil b [])).map (fun bytes => bytes.headD 0)

/-- A byte read, and a read that takes what stands behind it.  It is one round of the loop of
the variable widths. -/
theorem readFuint8_bind_takes {α : Type} {b : UInt8} {k : UInt8 → Op α} {bytes : List UInt8} {a : α}
    (hk : Takes (k b) e bytes a) : Takes (readFuint8 >>= k) e (b :: bytes) a :=
  (readFuint8_takes b).bind hk

/-! ### Groups of seven bits -/

section Groups

variable {w : ℕ}

/-- The byte of a group that others follow is at least `0x80`.  So the read goes on behind it. -/
theorem group_ge (v : BitVec w) (hw : 8 ≤ w) :
    ¬UInt8.ofBitVec (((v &&& 0x7f#w) ||| 0x80#w).setWidth 8) < 0x80 := by
  have hbit : (((v &&& 0x7f#w) ||| 0x80#w).setWidth 8).getLsbD 7 = true := by
    simp only [BitVec.getLsbD_setWidth, BitVec.getLsbD_or, BitVec.getLsbD_ofNat]
    simp [show 7 < w by omega, show Nat.testBit 128 7 = true from rfl]
  rw [UInt8.lt_iff_toNat_lt, Nat.not_lt]
  exact Nat.ge_two_pow_of_testBit hbit

/-- Its seven low bits are those of the value.  What is above them is the mark that another
follows. -/
theorem getLsbD_group (v : BitVec w) (hw : 8 ≤ w) {j : ℕ} (hj : j < 7) :
    (((v &&& 0x7f#w) ||| 0x80#w).setWidth 8).getLsbD j = v.getLsbD j := by
  have hmask : Nat.testBit 127 j = true := by
    rw [show 127 = 2 ^ 7 - 1 from rfl, Nat.testBit_two_pow_sub_one, decide_eq_true hj]
  have hflag : Nat.testBit 128 j = false := by
    rw [show 128 = 2 ^ 7 from rfl, Nat.testBit_two_pow]
    exact decide_eq_false (by omega)
  rw [BitVec.getLsbD_setWidth, BitVec.getLsbD_or, BitVec.getLsbD_and, BitVec.getLsbD_ofNat,
    BitVec.getLsbD_ofNat, hmask, hflag]
  simp [show j < 8 by omega, show j < w by omega]

/-- **The loop reads the groups back.**  From bit `i` on, when the bits below are collected.
The induction is over the rounds, with what is collected as the low bits of the value. -/
theorem readGroups_takes (hw : 8 ≤ w) (v : BitVec w) (rounds i : ℕ) (hi : i < w)
    (hrounds : w ≤ i + 7 * rounds) :
    Takes (readGroups rounds i (low v i)) e (groups rounds (v >>> i)) v := by
  induction rounds generalizing i with
  | zero => omega
  | succ rounds ih =>
      have hshift : (v >>> i).toNat = v.toNat / 2 ^ i := by
        rw [BitVec.toNat_ushiftRight, Nat.shiftRight_eq_div_pow]
      rw [groups]
      simp only [readGroups, if_pos hi]
      split_ifs with hmore
      · -- seven bits are left above these, so the loop has not reached `w` yet
        have hnext : i + 7 < w := by
          rw [hshift] at hmore
          have hle : 2 ^ (i + 7) ≤ v.toNat := by
            rw [pow_add, Nat.mul_comm]
            exact (Nat.le_div_iff_mul_le (Nat.two_pow_pos i)).1 hmore
          exact (Nat.pow_lt_pow_iff_right (by decide)).1 (hle.trans_lt v.isLt)
        have hgroup : low v i ||| (((((v >>> i) &&& 0x7f#w) ||| 0x80#w).setWidth 8 &&& 0x7f#8).setWidth w
            <<< i) = low v (i + 7) := by
          refine low_or_group v i fun j hj => ?_
          rw [getLsbD_group _ hw hj, BitVec.getLsbD_ushiftRight]
        refine readFuint8_bind_takes ?_
        rw [if_neg (group_ge _ hw), hgroup, ← BitVec.shiftRight_add]
        exact ih (i + 7) hnext (by omega)
      · refine readFuint8_bind_takes ?_
        have hsmall : v.toNat / 2 ^ i < 128 := by rw [← hshift]; omega
        have hlast : UInt8.ofBitVec ((v >>> i).setWidth 8) < 0x80 := by
          rw [UInt8.lt_iff_toNat_lt, UInt8.toNat_ofBitVec, BitVec.toNat_setWidth, hshift]
          exact lt_of_le_of_lt (Nat.mod_le ..) hsmall
        have hdone : low v i ||| (((v >>> i).setWidth 8).setWidth w <<< i) = v := by
          refine low_or_last v i (fun j hj => ?_) hsmall
          rw [BitVec.getLsbD_setWidth, decide_eq_true hj, Bool.true_and, BitVec.getLsbD_ushiftRight]
        rw [if_pos hlast, hdone]
        exact pure_takes v

/-- From the first bit on the loop reads the whole value back. -/
theorem readGroups_takes_all (hw : 8 ≤ w) (v : BitVec w) :
    Takes (readGroups w 0 0#w) e (groups w v) v := by
  have h := readGroups_takes (e := e) hw v w 0 (by omega) (by omega)
  rwa [low_zero, BitVec.ushiftRight_zero] at h

end Groups

/-- Zigzag numbers of 32 bits are decoded to the value. -/
theorem decodeZigzag32_encodeZigzag32 (v : Int32) : decodeZigzag32 (encodeZigzag32 v) = v := by
  rw [decodeZigzag32, encodeZigzag32, UInt32.toBitVec_ofBitVec, unzigzag_zigzag,
    Int32.ofBitVec_toBitVec]

/-- Zigzag numbers of 64 bits are decoded to the value. -/
theorem decodeZigzag64_encodeZigzag64 (v : Int64) : decodeZigzag64 (encodeZigzag64 v) = v := by
  rw [decodeZigzag64, encodeZigzag64, UInt64.toBitVec_ofBitVec, unzigzag_zigzag,
    Int64.ofBitVec_toBitVec]

/-- `readUint32` takes a value from its groups. -/
theorem readUint32_takes (v : UInt32) : Takes readUint32 e (groups 32 v.toBitVec) v :=
  (readGroups_takes_all (by decide) v.toBitVec).map UInt32.ofBitVec

/-- `readUint64` takes a value from its groups. -/
theorem readUint64_takes (v : UInt64) : Takes readUint64 e (groups 64 v.toBitVec) v :=
  (readGroups_takes_all (by decide) v.toBitVec).map UInt64.ofBitVec

/-- `readInt32` takes a value from the groups of its zigzag number. -/
theorem readInt32_takes (v : Int32) :
    Takes readInt32 e (groups 32 (encodeZigzag32 v).toBitVec) v := by
  have h := (readUint32_takes (e := e) (encodeZigzag32 v)).map decodeZigzag32
  rwa [decodeZigzag32_encodeZigzag32] at h

/-- `readInt64` takes a value from the groups of its zigzag number. -/
theorem readInt64_takes (v : Int64) :
    Takes readInt64 e (groups 64 (encodeZigzag64 v).toBitVec) v := by
  have h := (readUint64_takes (e := e) (encodeZigzag64 v)).map decodeZigzag64
  rwa [decodeZigzag64_encodeZigzag64] at h

/-! ### Values -/

/-- The typed operations, one name for a write and its read.  The fixed widths, signed and
unsigned, and the variable ones. -/
inductive Kind
  | fint8 | fuint8 | fint16 | fuint16 | fint32 | fuint32 | fint64 | fuint64
  | int32 | uint32 | int64 | uint64
  deriving DecidableEq, Repr

/-- A value and the operation it goes through.  Its type is that of the argument of the write. -/
inductive Value
  | fint8 (v : Int8)
  | fuint8 (v : UInt8)
  | fint16 (v : Int16)
  | fuint16 (v : UInt16)
  | fint32 (v : Int32)
  | fuint32 (v : UInt32)
  | fint64 (v : Int64)
  | fuint64 (v : UInt64)
  | int32 (v : Int32)
  | uint32 (v : UInt32)
  | int64 (v : Int64)
  | uint64 (v : UInt64)
  deriving DecidableEq

/-- The operation that a value goes through. -/
def Value.kind : Value → Kind
  | fint8 _ => .fint8
  | fuint8 _ => .fuint8
  | fint16 _ => .fint16
  | fuint16 _ => .fuint16
  | fint32 _ => .fint32
  | fuint32 _ => .fuint32
  | fint64 _ => .fint64
  | fuint64 _ => .fuint64
  | int32 _ => .int32
  | uint32 _ => .uint32
  | int64 _ => .int64
  | uint64 _ => .uint64

/-- Write the value by its operation.  Each constructor is one function of `bytearray.cc`. -/
def Value.write (host : Endian) : Value → Op Unit
  | fint8 v => writeFint8 v
  | fuint8 v => writeFuint8 v
  | fint16 v => writeFint16 host v
  | fuint16 v => writeFuint16 host v
  | fint32 v => writeFint32 host v
  | fuint32 v => writeFuint32 host v
  | fint64 v => writeFint64 host v
  | fuint64 v => writeFuint64 host v
  | int32 v => writeInt32 v
  | uint32 v => writeUint32 v
  | int64 v => writeInt64 v
  | uint64 v => writeUint64 v

/-- The matching read.  Each kind is one function of `bytearray.cc`. -/
def Kind.read (host : Endian) : Kind → Op Value
  | fint8 => do let v ← readFint8; pure (.fint8 v)
  | fuint8 => do let v ← readFuint8; pure (.fuint8 v)
  | fint16 => do let v ← readFint16 host; pure (.fint16 v)
  | fuint16 => do let v ← readFuint16 host; pure (.fuint16 v)
  | fint32 => do let v ← readFint32 host; pure (.fint32 v)
  | fuint32 => do let v ← readFuint32 host; pure (.fuint32 v)
  | fint64 => do let v ← readFint64 host; pure (.fint64 v)
  | fuint64 => do let v ← readFuint64 host; pure (.fuint64 v)
  | int32 => do let v ← readInt32; pure (.int32 v)
  | uint32 => do let v ← readUint32; pure (.uint32 v)
  | int64 => do let v ← readInt64; pure (.int64 v)
  | uint64 => do let v ← readUint64; pure (.uint64 v)

/-- The bytes of a value on the wire.  It depends on the machine only where the two byte orders
differ from each other. -/
def Value.encode (host e : Endian) : Value → List UInt8
  | fint8 v => [v.toUInt8]
  | fuint8 v => [v]
  | fint16 v => fixedBytes host e 2 v.toBitVec
  | fuint16 v => fixedBytes host e 2 v.toBitVec
  | fint32 v => fixedBytes host e 4 v.toBitVec
  | fuint32 v => fixedBytes host e 4 v.toBitVec
  | fint64 v => fixedBytes host e 8 v.toBitVec
  | fuint64 v => fixedBytes host e 8 v.toBitVec
  | int32 v => groups 32 (encodeZigzag32 v).toBitVec
  | uint32 v => groups 32 v.toBitVec
  | int64 v => groups 64 (encodeZigzag64 v).toBitVec
  | uint64 v => groups 64 v.toBitVec

/-- A write stores the encoding.  One case for each operation. -/
theorem Value.write_stores (host e : Endian) (v : Value) : Stores (v.write host) e (v.encode host e) := by
  cases v with
  | fint8 v => exact ByteArray.write_stores [v.toUInt8]
  | fuint8 v => exact ByteArray.write_stores [v]
  | fint16 v => exact writeFixed_stores 2 v.toBitVec
  | fuint16 v => exact writeFixed_stores 2 v.toBitVec
  | fint32 v => exact writeFixed_stores 4 v.toBitVec
  | fuint32 v => exact writeFixed_stores 4 v.toBitVec
  | fint64 v => exact writeFixed_stores 8 v.toBitVec
  | fuint64 v => exact writeFixed_stores 8 v.toBitVec
  | int32 v => exact ByteArray.write_stores (groups 32 (encodeZigzag32 v).toBitVec)
  | uint32 v => exact ByteArray.write_stores (groups 32 v.toBitVec)
  | int64 v => exact ByteArray.write_stores (groups 64 (encodeZigzag64 v).toBitVec)
  | uint64 v => exact ByteArray.write_stores (groups 64 v.toBitVec)

/-- The matching read takes the value from its encoding.  One case for each operation. -/
theorem Value.read_takes (v : Value) : Takes (v.kind.read host) e (v.encode host e) v := by
  cases v with
  | fint8 v => exact ((readFuint8_takes _).map UInt8.toInt8).map Value.fint8
  | fuint8 v => exact (readFuint8_takes _).map Value.fuint8
  | fint16 v => exact ((readFixed_takes (n := 2) (by decide) v.toBitVec).map Int16.ofBitVec).map Value.fint16
  | fuint16 v => exact ((readFixed_takes (n := 2) (by decide) v.toBitVec).map UInt16.ofBitVec).map Value.fuint16
  | fint32 v => exact ((readFixed_takes (n := 4) (by decide) v.toBitVec).map Int32.ofBitVec).map Value.fint32
  | fuint32 v => exact ((readFixed_takes (n := 4) (by decide) v.toBitVec).map UInt32.ofBitVec).map Value.fuint32
  | fint64 v => exact ((readFixed_takes (n := 8) (by decide) v.toBitVec).map Int64.ofBitVec).map Value.fint64
  | fuint64 v => exact ((readFixed_takes (n := 8) (by decide) v.toBitVec).map UInt64.ofBitVec).map Value.fuint64
  | int32 v => exact (readInt32_takes v).map Value.int32
  | uint32 v => exact (readUint32_takes v).map Value.uint32
  | int64 v => exact (readInt64_takes v).map Value.int64
  | uint64 v => exact (readUint64_takes v).map Value.uint64

/-! ### Sequences -/

/-- Write the values, one after another.  They may be of different kinds. -/
def writeAll (host : Endian) : List Value → Op Unit
  | [] => pure ()
  | v :: vs => do
    v.write host
    writeAll host vs

/-- Read values of these kinds, one after another.  Kinds and not values are given, since the
reader does not know the values. -/
def readAll (host : Endian) : List Kind → Op (List Value)
  | [] => pure []
  | k :: ks => do
    let v ← k.read host
    let vs ← readAll host ks
    pure (v :: vs)

/-- Writing at the end of the string appends.  And leaves the cursor at the end again. -/
theorem Flat.write_write_at_end {f : Flat} (hend : f.pos = f.size) (xs ys : List UInt8) :
    (f.write xs).write ys = f.write (xs ++ ys) ∧ (f.write xs).pos = (f.write xs).size := by
  have hxs : splice f.data f.pos xs = f.data ++ xs := by rw [hend, Flat.size, splice_length]
  have hys : splice f.data f.pos (xs ++ ys) = f.data ++ (xs ++ ys) := by
    rw [hend, Flat.size, splice_length]
  have hpos : f.pos + xs.length = (f.data ++ xs).length := by
    rw [hend, Flat.size, List.length_append]
  refine ⟨?_, by simp only [Flat.write, Flat.size, hxs, hpos]⟩
  simp only [Flat.write, hxs, hys, hpos, splice_length, List.append_assoc, Flat.mk.injEq, true_and]
  rw [← hpos, List.length_append, Nat.add_assoc]

/-- Values written at the end of the string append their encodings.  The induction is over the
values. -/
theorem writeAll_stores (host : Endian) (vs : List Value) {b : ByteArray} {f : Flat} (h : b.Refines f)
    (he : b.endian = e) (hend : f.pos = f.size) :
    ∃ b', (writeAll host vs).exec b = (.ok (), b') ∧ b'.endian = e ∧
      b'.Refines (f.write (vs.flatMap (Value.encode host e))) := by
  induction vs generalizing b f with
  | nil =>
      refine ⟨b, rfl, he, ?_⟩
      have hnil : f.write [] = f := by
        cases f
        simp only [Flat.write, splice_nil, List.length_nil, Nat.add_zero]
      rwa [List.flatMap_nil, hnil]
  | cons v vs ih =>
      obtain ⟨b₁, hexec₁, href₁, he₁⟩ := v.write_stores host e b f h he
      obtain ⟨heq, hend₁⟩ := Flat.write_write_at_end hend (v.encode host e)
        (vs.flatMap (Value.encode host e))
      obtain ⟨b₂, hexec₂, he₂, href₂⟩ := ih href₁ he₁ hend₁
      refine ⟨b₂, (Op.exec_bind_ok hexec₁ _).trans hexec₂, he₂, ?_⟩
      rwa [List.flatMap_cons, ← heq]

/-- Values are taken from their encodings, one behind the other.  The induction is over the
values. -/
theorem readAll_takes (host e : Endian) (vs : List Value) :
    Takes (readAll host (vs.map Value.kind)) e (vs.flatMap (Value.encode host e)) vs := by
  induction vs with
  | nil => exact pure_takes []
  | cons v vs ih => exact v.read_takes.bind (ih.map (v :: ·))

/-- **Every sequence of values comes back.**  Written into a fresh byte array and read from the
front by the matching reads, for every block size, byte order of the machine and `endian_`:
nothing is thrown, no null node is followed, and nothing is left.  Neither the block size nor
the memory that allocations find makes a difference.  The writers are
`src/hiper/base/bytearray.cc:68-191` and the readers `:236-331`, over the chunked loops of
`write` (402) and `read` (444); the invariant that carries the sequence is `Wf`, which says
where `cur_` is. -/
theorem typed_round_trip (host : Endian) (mem : ℕ → ℕ → UInt8) {baseSize : ℕ}
    (hbase : 1 ≤ baseSize) (littleEndian : Bool) (vs : List Value) :
    ∃ b, (do
        writeAll host vs
        setPosition 0
        readAll host (vs.map Value.kind)).exec ((new mem baseSize).setIsLittleEndian littleEndian) =
          (.ok vs, b) ∧ b.getReadSize = 0 := by
  generalize hb₀ : (new mem baseSize).setIsLittleEndian littleEndian = b₀
  have hfresh : b₀.Refines Flat.empty := by
    obtain ⟨wf, hbytes, hpos⟩ := new_refines mem hbase
    subst hb₀
    exact ⟨{ wf with }, hbytes, hpos⟩
  generalize hbytes : vs.flatMap (Value.encode host b₀.endian) = bytes
  obtain ⟨b₁, hwrite, he₁, href₁⟩ := writeAll_stores host vs hfresh rfl rfl
  obtain ⟨b₂, hseek, href₂, he₂⟩ := setPosition_refines href₁ (Nat.zero_le _)
  have htakes := readAll_takes host b₀.endian vs
  rw [hbytes] at href₂ htakes
  have hdata : (Flat.empty.write bytes).data = bytes := splice_length [] bytes
  have hfront : (Flat.empty.write bytes).setPosition 0 = ⟨bytes, 0, Nat.zero_le _⟩ := by
    simp only [Flat.setPosition, Nat.zero_le, dite_true, hdata]
  rw [hfront] at href₂
  obtain ⟨b₃, f₃, hread, href₃, -, hsize₃, hpos₃, -⟩ :=
    htakes b₂ _ [] href₂ (he₂.trans he₁) (by rw [List.append_nil]; rfl)
  refine ⟨b₃, ?_, ?_⟩
  · exact (Op.exec_bind_ok hwrite _).trans ((Op.exec_bind_ok hseek _).trans hread)
  · rw [href₃.getReadSize_eq, hsize₃, hpos₃, Nat.zero_add]
    exact Nat.sub_self _

/-- One value of each shape, over blocks of three bytes.  The fields lie across the borders of
blocks. -/
theorem typed_round_trip_mixed :
    ∃ b, (do
        writeAll .little [.fint16 (-2), .int32 (-300), .uint64 (2 ^ 63), .fuint8 255]
        setPosition 0
        readAll .little [.fint16, .int32, .uint64, .fuint8]).exec
          ((new (fun _ _ => 0) 3).setIsLittleEndian false) =
          (.ok [.fint16 (-2), .int32 (-300), .uint64 (2 ^ 63), .fuint8 255], b) ∧
            b.getReadSize = 0 :=
  typed_round_trip .little (fun _ _ => 0) (by decide) false
    [.fint16 (-2), .int32 (-300), .uint64 (2 ^ 63), .fuint8 255]

end ByteArray
end Hiper

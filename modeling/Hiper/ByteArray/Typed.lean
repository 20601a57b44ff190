import Hiper.ByteArray.Flat
import Hiper.Lib.Wire

/-!
# Typed fields, written and read back

The typed operations of `bytearray.cc`: `writeFint8` … `writeFuint64` store the
bytes of an integer as they lie in memory, swapped when `endian_` is not the
byte order of the machine; `writeUint32`, `writeUint64` store groups of seven
bits; `writeInt32`, `writeInt64` store the group form of the zigzag number.
`host` is `HIPER_BYTE_ORDER`, either order.

A write stores a string that depends on the value and `endian_` alone
(`Value.write_stores`), a read takes back a value from in front of whatever
follows (`Value.read_takes`), and a sequence of each does the same for the
concatenation, so every sequence of values comes back (`typed_round_trip`).
-/

namespace Hiper

open Lib

/-- The bytes of an `n`-byte integer, as they lie in the memory of the machine.  The low byte
comes first on a little-endian machine. -/
def Endian.store (host : Endian) (n : ℕ) (v : BitVec (8 * n)) : List UInt8 :=
  match host with
  | .little => toLE n v.toNat
  | .big => (toLE n v.toNat).reverse

/-- The integer whose bytes lie in the memory of the machine.  It is the inverse of `store`. -/
def Endian.load (host : Endian) (n : ℕ) (bytes : List UInt8) : BitVec (8 * n) :=
  match host with
  | .little => BitVec.ofNat _ (ofLE bytes)
  | .big => BitVec.ofNat _ (ofLE bytes.reverse)

/-- `byteswap`: `bswap_16`, `bswap_32`, `bswap_64`.  The bytes in the other order
(`endian.hpp`). -/
def byteswap (n : ℕ) (v : BitVec (8 * n)) : BitVec (8 * n) :=
  BitVec.ofNat _ (ofLE (toLE n v.toNat).reverse)

namespace ByteArray

variable (host : Endian)

/-! ### Fields of fixed width -/

/-- `if (endian_ != HIPER_BYTE_ORDER) value = byteswap(value); write(&value, sizeof(value));`
All fixed-width writes of `bytearray.cc:68-124` are this one at their width. -/
def writeFixed (n : ℕ) (value : BitVec (8 * n)) : Op Unit := do
  let b ← get
  write (host.store n (if b.endian ≠ host then byteswap n value else value))

/-- The macro `XX` of the fixed-width reads.  The bytes are read into the value, and swapped
when the byte array has the other order (`bytearray.cc:250-258`). -/
def readFixed (n : ℕ) : Op (BitVec (8 * n)) := do
  let bytes ← read n
  let b ← get
  pure (if b.endian = host then host.load n bytes else byteswap n (host.load n bytes))

/-- `writeFint8`: one byte, which no byte order concerns (`bytearray.cc:68`). -/
def writeFint8 (value : Int8) : Op Unit := write [value.toUInt8]

/-- `writeFuint8`: one byte (`bytearray.cc:73`). -/
def writeFuint8 (value : UInt8) : Op Unit := write [value]

/-- `writeFint16` (`bytearray.cc:78`). -/
def writeFint16 (value : Int16) : Op Unit := writeFixed host 2 value.toBitVec

/-- `writeFuint16` (`bytearray.cc:86`). -/
def writeFuint16 (value : UInt16) : Op Unit := writeFixed host 2 value.toBitVec

/-- `writeFint32` (`bytearray.cc:94`). -/
def writeFint32 (value : Int32) : Op Unit := writeFixed host 4 value.toBitVec

/-- `writeFuint32` (`bytearray.cc:102`). -/
def writeFuint32 (value : UInt32) : Op Unit := writeFixed host 4 value.toBitVec

/-- `writeFint64` (`bytearray.cc:110`). -/
def writeFint64 (value : Int64) : Op Unit := writeFixed host 8 value.toBitVec

/-- `writeFuint64` (`bytearray.cc:118`). -/
def writeFuint64 (value : UInt64) : Op Unit := writeFixed host 8 value.toBitVec

/-- `readFuint8`: one byte, without the macro (`bytearray.cc:243`). -/
def readFuint8 : Op UInt8 := do
  let bytes ← read 1
  pure (bytes.headD 0)

/-- `readFint8`: the same byte as a signed one (`bytearray.cc:236`). -/
def readFint8 : Op Int8 := do
  let v ← readFuint8
  pure v.toInt8

/-- `readFint16` (`bytearray.cc:260`). -/
def readFint16 : Op Int16 := do
  let v ← readFixed host 2
  pure (Int16.ofBitVec v)

/-- `readFuint16` (`bytearray.cc:264`). -/
def readFuint16 : Op UInt16 := do
  let v ← readFixed host 2
  pure (UInt16.ofBitVec v)

/-- `readFint32` (`bytearray.cc:269`). -/
def readFint32 : Op Int32 := do
  let v ← readFixed host 4
  pure (Int32.ofBitVec v)

/-- `readFuint32` (`bytearray.cc:274`). -/
def readFuint32 : Op UInt32 := do
  let v ← readFixed host 4
  pure (UInt32.ofBitVec v)

/-- `readFint64` (`bytearray.cc:279`). -/
def readFint64 : Op Int64 := do
  let v ← readFixed host 8
  pure (Int64.ofBitVec v)

/-- `readFuint64` (`bytearray.cc:284`). -/
def readFuint64 : Op UInt64 := do
  let v ← readFixed host 8
  pure (UInt64.ofBitVec v)

/-! ### Fields of variable width -/

/-- The bytes `tmp[0 .. i)` that the loop of `writeUint32` and `writeUint64` makes.  Every round
shifts out seven bits, so as many rounds as the value has bits are enough.  The last byte has no
high bit (`bytearray.cc:167-171`, `184-189`). -/
def groups {w : ℕ} : ℕ → BitVec w → List UInt8
  | 0, value => [UInt8.ofBitVec (value.setWidth 8)]
  | rounds + 1, value =>
    if value.toNat ≥ 0x80 then
      UInt8.ofBitVec (((value &&& 0x7f#w) ||| 0x80#w).setWidth 8) :: groups rounds (value >>> 7)
    else [UInt8.ofBitVec (value.setWidth 8)]

/-- `writeUint32`: the groups of a value of 32 bits (`bytearray.cc:163`). -/
def writeUint32 (value : UInt32) : Op Unit := write (groups 32 value.toBitVec)

/-- `writeUint64`: the groups of a value of 64 bits (`bytearray.cc:180`). -/
def writeUint64 (value : UInt64) : Op Unit := write (groups 64 value.toBitVec)

/-- `EncodeZigzag32`, `-v` and `v * 2` wrapping.  What a signed overflow would do is treated
apart (`bytearray.cc:126`). -/
def encodeZigzag32 (v : Int32) : UInt32 := UInt32.ofBitVec (zigzag v.toBitVec)

/-- `EncodeZigzag64`, `-v` and `v * 2` wrapping.  The same with 64 bits (`bytearray.cc:136`). -/
def encodeZigzag64 (v : Int64) : UInt64 := UInt64.ofBitVec (zigzag v.toBitVec)

/-- `DecodeZigzag32`: half of the number, complemented when it is odd (`bytearray.cc:146`). -/
def decodeZigzag32 (v : UInt32) : Int32 := Int32.ofBitVec (unzigzag v.toBitVec)

/-- `DecodeZigzag64`, the same with 64 bits (`bytearray.cc:151`). -/
def decodeZigzag64 (v : UInt64) : Int64 := Int64.ofBitVec (unzigzag v.toBitVec)

/-- `writeInt32`: the groups of the zigzag number (`bytearray.cc:157`). -/
def writeInt32 (value : Int32) : Op Unit := writeUint32 (encodeZigzag32 value)

/-- `writeInt64`: the groups of the zigzag number (`bytearray.cc:175`). -/
def writeInt64 (value : Int64) : Op Unit := writeUint64 (encodeZigzag64 value)

/-- `for (int i = 0; i < w; i += 7)` of `readUint32` and `readUint64`, from `i` on.  A byte
without the high bit ends the loop, and so does the width (`bytearray.cc:299-309`, `320-330`). -/
def readGroups {w : ℕ} : ℕ → ℕ → BitVec w → Op (BitVec w)
  | 0, _, result => pure result
  | rounds + 1, i, result =>
    if i < w then do
      let b ← readFuint8
      if b < 0x80 then pure (result ||| (b.toBitVec.setWidth w <<< i))
      else readGroups rounds (i + 7) (result ||| ((b.toBitVec &&& 0x7f#8).setWidth w <<< i))
    else pure result

/-- `readUint32`: the loop over 32 bits (`bytearray.cc:296`). -/
def readUint32 : Op UInt32 := do
  let v ← readGroups 32 0 0#32
  pure (UInt32.ofBitVec v)

/-- `readUint64`: the loop over 64 bits (`bytearray.cc:317`). -/
def readUint64 : Op UInt64 := do
  let v ← readGroups 64 0 0#64
  pure (UInt64.ofBitVec v)

/-- `readInt32`: a zigzag number, decoded (`bytearray.cc:291`). -/
def readInt32 : Op Int32 := do
  let v ← readUint32
  pure (decodeZigzag32 v)

/-- `readInt64`: a zigzag number, decoded (`bytearray.cc:312`). -/
def readInt64 : Op Int64 := do
  let v ← readUint64
  pure (decodeZigzag64 v)

/-! ### What the operations store and take -/

/-- `x` stores `bytes` at the cursor, under the byte order `e`.  On the flat string it is one
`write` of them, and the byte order stays. -/
def Stores (x : Op Unit) (e : Endian) (bytes : List UInt8) : Prop :=
  ∀ (b : ByteArray) (f : Flat), b.Refines f → b.endian = e →
    ∃ b', x.exec b = (.ok (), b') ∧ b'.Refines (f.write bytes) ∧ b'.endian = e

/-- `x` takes `a` from `bytes` at the cursor, under the byte order `e`, whatever stands behind.
The bytes are at the cursor of the flat string, which stands behind them afterwards. -/
def Takes {α : Type} (x : Op α) (e : Endian) (bytes : List UInt8) (a : α) : Prop :=
  ∀ (b : ByteArray) (f : Flat) (rest : List UInt8), b.Refines f → b.endian = e →
    f.data.drop f.pos = bytes ++ rest →
      ∃ b' f', x.exec b = (.ok a, b') ∧ b'.Refines f' ∧ b'.endian = e ∧
        f'.size = f.size ∧ f'.pos = f.pos + bytes.length ∧ f'.data.drop f'.pos = rest

variable {host} {e : Endian}

/-- `write` stores its bytes. -/
theorem write_stores (bytes : List UInt8) : Stores (write bytes) e bytes := by
  intro b f h he
  obtain ⟨b', hexec, href, hendian⟩ := write_refines h bytes
  exact ⟨b', hexec, href, hendian.trans he⟩

/-- Returning a value takes it from no bytes. -/
theorem pure_takes {α : Type} (a : α) : Takes (pure a) e [] a :=
  fun b f _ h he hdata => ⟨b, f, rfl, h, he, rfl, rfl, hdata⟩

/-- One take after another.  The bytes of the first stand in front of those of the second. -/
theorem Takes.bind {α β : Type} {x : Op α} {k : α → Op β} {bytes₁ bytes₂ : List UInt8} {a : α}
    {c : β} (hx : Takes x e bytes₁ a) (hk : Takes (k a) e bytes₂ c) :
    Takes (x >>= k) e (bytes₁ ++ bytes₂) c := by
  intro b f rest h he hdata
  rw [List.append_assoc] at hdata
  obtain ⟨b₁, f₁, hexec₁, href₁, he₁, hsize₁, hpos₁, hdata₁⟩ := hx b f _ h he hdata
  obtain ⟨b₂, f₂, hexec₂, href₂, he₂, hsize₂, hpos₂, hdata₂⟩ := hk b₁ f₁ rest href₁ he₁ hdata₁
  refine ⟨b₂, f₂, (Op.exec_bind_ok hexec₁ k).trans hexec₂, href₂, he₂, hsize₂.trans hsize₁, ?_,
    hdata₂⟩
  rw [hpos₂, hpos₁, List.length_append, Nat.add_assoc]

/-- A take, and a pure function of what it took.  It takes no bytes of its own. -/
theorem Takes.map {α β : Type} {x : Op α} {bytes : List UInt8} {a : α} (hx : Takes x e bytes a)
    (g : α → β) : Takes (do let v ← x; pure (g v)) e bytes (g a) := by
  simpa using hx.bind (k := fun v => pure (g v)) (pure_takes (g a))

/-- `read` takes the bytes it is asked for, at least one. -/
theorem read_takes {bytes : List UInt8} (hne : bytes ≠ []) :
    Takes (read bytes.length) e bytes bytes := by
  intro b f rest h he hdata
  have hlen : f.size - f.pos = bytes.length + rest.length := by
    rw [Flat.size, ← List.length_drop, hdata, List.length_append]
  obtain ⟨b', hexec, href, hendian⟩ := read_refines h (List.length_pos_of_ne_nil hne)
  have hread : ¬bytes.length > f.size - f.pos := by omega
  rw [Flat.read, dif_neg hread] at hexec href
  refine ⟨b', _, ?_, href, hendian.trans he, rfl, rfl, ?_⟩
  · rw [hexec, hdata, List.take_left]
  · rw [← List.drop_drop, hdata, List.drop_left]

end ByteArray
end Hiper

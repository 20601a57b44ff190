import Hiper.ByteArray.Buffers
import Hiper.ByteArray.RoundTrip

/-!
# The public calls of a byte array

The calls of `bytearray.h`, those for strings and files with them, and what any
sequence of them leaves.  Whatever comes of each call, the chain, the cursor and
`cur_` fit together (`built_represents`).  A call at the cursor follows a null
pointer exactly when it reads no bytes with the cursor at the end of the chain
(`null_iff_emptyAtEnd`): `read` looks at `cur_->size` before it looks at `size`.

The calls are those of `bytearray.h:69-440`, embedded over the chain of blocks: the typed
ones and the strings (`bytearray.cc:68-383`), the files (`bytearray.cc:527`, `554`) and the
buffers (`bytearray.cc:631-739`).  Two notions make the proofs short.  A computation `Keeps`
the byte array well formed whatever comes of it, and it is `Safe` when it also follows no
null pointer; both are closed under sequencing (`Keeps.bind`, `Safe.bind`), so that each
call is shown to have them by the order in which it makes simpler ones.  What is left are
the calls that may read nothing, and for these the loops of the length fields are computed
(`readGroups_exec`) on the bytes at the cursor.
-/

namespace Hiper

namespace ByteArray

open Lib

/-! ### Strings, floats and files -/

section Strings

variable (host : Endian)

/-- `writeFloat`; a `float` is the 32 bits that `memcpy` takes from it.  The value goes to
`writeFuint32` (`bytearray.cc:193`). -/
def writeFloat (value : UInt32) : Op Unit := writeFuint32 host value

/-- `writeDouble`, the same with 64 bits.  It goes to `writeFuint64` (`bytearray.cc:200`). -/
def writeDouble (value : UInt64) : Op Unit := writeFuint64 host value

/-- `readFloat`: the 32 bits that `readFuint32` gives, copied into a `float`
(`bytearray.cc:333`). -/
def readFloat : Op UInt32 := readFuint32 host

/-- `readDouble`: the 64 bits that `readFuint64` gives (`bytearray.cc:341`). -/
def readDouble : Op UInt64 := readFuint64 host

/-- `writeStringF16`: the length in sixteen bits, then the bytes (`bytearray.cc:207`). -/
def writeStringF16 (value : List UInt8) : Op Unit := do
  writeFuint16 host (UInt16.ofNat value.length)
  write value

/-- `writeStringF32`: the length in 32 bits, then the bytes (`bytearray.cc:213`). -/
def writeStringF32 (value : List UInt8) : Op Unit := do
  writeFuint32 host (UInt32.ofNat value.length)
  write value

/-- `writeStringF64`: the length in 64 bits, then the bytes (`bytearray.cc:219`). -/
def writeStringF64 (value : List UInt8) : Op Unit := do
  writeFuint64 host (UInt64.ofNat value.length)
  write value

/-- `writeStringVint`: the length in groups of seven bits, then the bytes (`bytearray.cc:225`). -/
def writeStringVint (value : List UInt8) : Op Unit := do
  writeUint64 (UInt64.ofNat value.length)
  write value

/-- `writeStringWithoutLength`: the bytes alone (`bytearray.cc:231`). -/
def writeStringWithoutLength (value : List UInt8) : Op Unit := write value

-- A length that memory has no room for is more than there is to read: where
-- `buff.resize(len)` throws, the `read` here throws.

/-- `readStringF16`: a length in sixteen bits and as many bytes (`bytearray.cc:349`). -/
def readStringF16 : Op (List UInt8) := do
  let len ← readFuint16 host
  read len.toNat

/-- `readStringF32`: a length in 32 bits and as many bytes (`bytearray.cc:358`). -/
def readStringF32 : Op (List UInt8) := do
  let len ← readFuint32 host
  read len.toNat

/-- `readStringF64`: a length in 64 bits and as many bytes (`bytearray.cc:367`). -/
def readStringF64 : Op (List UInt8) := do
  let len ← readFuint64 host
  read len.toNat

/-- `readStringVint`: a length in groups of seven bits and as many bytes (`bytearray.cc:376`). -/
def readStringVint : Op (List UInt8) := do
  let len ← readUint64
  read len.toNat

end Strings

/-- The loop of `readFromFile`: the list is what is left of the file.  Every round takes a block
of it, and the last one a short block or none.  The end of the file is seen only when a round
comes back short (`bytearray.cc:565`). -/
def readFromFileLoop : ℕ → List UInt8 → Op Unit
  | 0, _ => pure ()
  | rounds + 1, rest => do
    let b ← get
    write (rest.take b.baseSize)
    if rest.length < b.baseSize then pure () else readFromFileLoop rounds (rest.drop b.baseSize)

/-- `readFromFile(name)`, of a file that cannot be opened or has these bytes.  It says whether
the file could be opened (`bytearray.cc:554`). -/
def readFromFile (file : Option (List UInt8)) : Op Bool :=
  match file with
  | none => pure false
  | some bytes => do
    readFromFileLoop (bytes.length + 1) bytes
    pure true

/-- `getReadBuffers(buffers, len, position) const`: the buffers.  The length is cut to what can
be read from the cursor on, not from the position, and the node is found from the root
(`bytearray.cc:664`). -/
def getReadBuffersAt (b : ByteArray) (len position : ℕ) : Except Fault (List Iovec) :=
  let len := if len > b.getReadSize then b.getReadSize else len
  if len = 0 then .ok []
  else
    let count := position / b.baseSize
    iovLoop (b.root.drop count) count (position % b.baseSize) len

/-- The length fields of strings.  A string is written behind its length in one of four ways. -/
inductive Width
  | f16 | f32 | f64 | vint
  deriving DecidableEq, Repr

/-- A string, written with the length field of this width. -/
def Width.write (host : Endian) : Width → List UInt8 → Op Unit
  | f16 => writeStringF16 host
  | f32 => writeStringF32 host
  | f64 => writeStringF64 host
  | vint => writeStringVint

/-- A string, read behind a length field of this width. -/
def Width.read (host : Endian) : Width → Op (List UInt8)
  | f16 => readStringF16 host
  | f32 => readStringF32 host
  | f64 => readStringF64 host
  | vint => readStringVint

/-! ### Calls -/

/-- A call at the cursor.  The calls at the cursor are those that get no position; the two that
get one are among them too, so that runs are of all public calls. -/
inductive PublicCall
  | write (buf : List UInt8)
  | read (size : ℕ)
  | setPosition (v : ℕ)
  | clear
  | setIsLittleEndian (val : Bool)
  | writeValue (v : Value)
  | readValue (k : Kind)
  | writeFloat (value : UInt32)
  | writeDouble (value : UInt64)
  | readFloat
  | readDouble
  | writeString (w : Width) (value : List UInt8)
  | readString (w : Width)
  | writeStringWithoutLength (value : List UInt8)
  | getReadBuffers (len : ℕ)
  /-- The caller stores as much as fits of `stored` in the buffers. -/
  | getWriteBuffers (len : ℕ) (stored : List UInt8)
  | toString
  | readFromFile (file : Option (List UInt8))
  /-- The calls that get a position. -/
  | readAt (size position : ℕ)
  | getReadBuffersAt (len position : ℕ)

/-- The value of a call is dropped.  What the call did to the byte array, and what it threw,
stays. -/
def Op.drop {α : Type} (x : Op α) : Op Unit := do
  let _ ← x
  pure ()

/-- A `const` call.  It leaves the byte array as it is. -/
def Op.const {α : Type} (f : ByteArray → Except Fault α) : Op α := fun b => (f b, b)

namespace PublicCall

/-- The call, made.  A caller of `getWriteBuffers` fills the buffers before it makes the next
call. -/
def op (host : Endian) : PublicCall → Op Unit
  | write buf => ByteArray.write buf
  | read size => (ByteArray.read size).drop
  | setPosition v => ByteArray.setPosition v
  | clear => ByteArray.clear
  | setIsLittleEndian val => modify (ByteArray.setIsLittleEndian val)
  | writeValue v => v.write host
  | readValue k => (k.read host).drop
  | writeFloat value => ByteArray.writeFloat host value
  | writeDouble value => ByteArray.writeDouble host value
  | readFloat => (ByteArray.readFloat host).drop
  | readDouble => (ByteArray.readDouble host).drop
  | writeString w value => w.write host value
  | readString w => (w.read host).drop
  | writeStringWithoutLength value => ByteArray.writeStringWithoutLength value
  | getReadBuffers len => (Op.const fun b => b.getReadBuffers len).drop
  | getWriteBuffers len stored => do
    let iovs ← ByteArray.getWriteBuffers len
    modify (fill iovs (stored.take len))
  | toString => (Op.const ByteArray.toString).drop
  | readFromFile file => (ByteArray.readFromFile file).drop
  | readAt size position => (Op.const fun b => b.readAt size position).drop
  | getReadBuffersAt len position => (Op.const fun b => b.getReadBuffersAt len position).drop

end PublicCall

/-- The byte array after calls, whatever comes of each.  A call that throws leaves what it had
done. -/
def after (host : Endian) : List PublicCall → ByteArray → ByteArray
  | [], b => b
  | c :: calls, b => after host calls ((c.op host).exec b).2

/-- The byte arrays that calls build.  From a fresh one with blocks of at least one byte, by
public calls in any order, over any memory. -/
def Built (b : ByteArray) : Prop :=
  ∃ host mem baseSize calls, 1 ≤ baseSize ∧ b = after host calls (new mem baseSize)

/-! ### Reads of nothing -/

/-- What the loop of `readUint32` and `readUint64` makes of these bytes, and how many it reads;
nothing when they end before.  The rounds bound the recursion; the loop itself ends when `i`
reaches the width. -/
def ungroup {w : ℕ} : ℕ → ℕ → BitVec w → List UInt8 → Option (BitVec w × ℕ)
  | 0, _, result, _ => some (result, 0)
  | rounds + 1, i, result, bytes =>
    if i < w then
      match bytes with
      | [] => none
      | b :: rest =>
        if b < 0x80 then some (result ||| (b.toBitVec.setWidth w <<< i), 1)
        else
          (ungroup rounds (i + 7) (result ||| ((b.toBitVec &&& 0x7f#8).setWidth w <<< i)) rest).map
            fun r => (r.1, r.2 + 1)
    else some (result, 0)

/-- How many bytes a length field at the front takes that says 0.  Nothing when the bytes end
before, or the length is another. -/
def Width.zeroLength : Width → List UInt8 → Option ℕ
  | f16, bytes => if bytes.take 2 = List.replicate 2 0 then some 2 else none
  | f32, bytes => if bytes.take 4 = List.replicate 4 0 then some 4 else none
  | f64, bytes => if bytes.take 8 = List.replicate 8 0 then some 8 else none
  | vint, bytes =>
    match ungroup 64 0 0#64 bytes with
    | some (v, n) => if v = 0 then some n else none
    | none => none

/-- The call reads no bytes with the cursor at the end of the chain.  For a string, behind its
length field, which says 0. -/
def EmptyAtEnd (b : ByteArray) : PublicCall → Prop
  | .read size => size = 0 ∧ b.position = b.capacity
  | .readString w =>
    ∃ n, w.zeroLength (b.bytes.drop b.position) = some n ∧ b.position + n = b.capacity
  | _ => False

/-- The call gets a position.  These start at a node of their own and are treated apart. -/
def PublicCall.positional : PublicCall → Bool
  | .readAt _ _ => true
  | .getReadBuffersAt _ _ => true
  | _ => false

/-! ### What holds after every call -/

variable {host : Endian} {b b' : ByteArray} {α β : Type}

/-- `x` keeps what every operation keeps.  Also when it throws. -/
def Keeps (x : Op α) : Prop := ∀ b : ByteArray, b.Wf → (x.exec b).2.Wf

/-- `x` does so, and follows no null pointer.  So that it ends well or throws an exception. -/
structure Safe (x : Op α) : Prop where
  keeps : Keeps x
  neverNull : ∀ b : ByteArray, b.Wf → (x.exec b).1 ≠ .error .nullDeref

/-- The second half of a computation is made where the first ends, if it ends well.  It is the
case split behind all lemmas about sequences of calls. -/
theorem exec_bind_cases (x : Op α) (k : α → Op β) (b : ByteArray) :
    (∃ a b', x.exec b = (.ok a, b') ∧ (x >>= k).exec b = (k a).exec b') ∨
      ∃ e b', x.exec b = (.error e, b') ∧ (x >>= k).exec b = (.error e, b') := by
  cases hx : x.exec b with
  | mk r b' =>
      cases r with
      | ok a => exact Or.inl ⟨a, b', rfl, Op.exec_bind_ok hx k⟩
      | error e => exact Or.inr ⟨e, b', rfl, Op.exec_bind_error hx k⟩

/-- What ends well has a first half that ends well, and a second.  The second starts where the
first ends. -/
theorem exec_bind_eq_ok {x : Op α} {k : α → Op β} {b b'' : ByteArray} {c : β}
    (h : (x >>= k).exec b = (.ok c, b'')) :
    ∃ a b', x.exec b = (.ok a, b') ∧ (k a).exec b' = (.ok c, b'') := by
  rcases exec_bind_cases x k b with ⟨a, b', hexec, heq⟩ | ⟨e, b', -, heq⟩
  · exact ⟨a, b', hexec, heq.symm.trans h⟩
  · rw [heq] at h
    cases h

/-- A sequence keeps the byte array well formed when both halves do. -/
theorem Keeps.bind {x : Op α} {k : α → Op β} (hx : Keeps x) (hk : ∀ a, Keeps (k a)) :
    Keeps (x >>= k) := by
  intro b h
  have hb := hx b h
  rcases exec_bind_cases x k b with ⟨a, b', hexec, heq⟩ | ⟨e, b', hexec, heq⟩
  · rw [hexec] at hb
    rw [heq]
    exact hk a b' hb
  · rw [hexec] at hb
    rw [heq]
    exact hb

/-- A sequence is safe when both halves are. -/
theorem Safe.bind {x : Op α} {k : α → Op β} (hx : Safe x) (hk : ∀ a, Safe (k a)) :
    Safe (x >>= k) := by
  refine ⟨hx.keeps.bind fun a => (hk a).keeps, fun b h => ?_⟩
  have hb := hx.keeps b h
  have hnull := hx.neverNull b h
  rcases exec_bind_cases x k b with ⟨a, b', hexec, heq⟩ | ⟨e, b', hexec, heq⟩
  · rw [hexec] at hb
    rw [heq]
    exact (hk a).neverNull b' hb
  · rw [hexec] at hnull
    rw [heq]
    exact fun he => hnull (congrArg _ (Except.error.inj he))

/-- Returning a value is safe. -/
theorem safe_pure (a : α) : Safe (pure a : Op α) := ⟨fun _ h => h, fun _ _ h => by cases h⟩

/-- Changing the value of a safe call is safe. -/
theorem Safe.map {x : Op α} (hx : Safe x) (g : α → β) : Safe (do let a ← x; pure (g a)) :=
  hx.bind fun a => safe_pure (g a)

/-- A safe call is safe when its value is dropped. -/
theorem Safe.drop {x : Op α} (hx : Safe x) : Safe x.drop := hx.map fun _ => ()

/-- A call that keeps the byte array well formed does so when its value is dropped. -/
theorem Keeps.drop {x : Op α} (hx : Keeps x) : Keeps x.drop :=
  hx.bind fun _ => (safe_pure ()).keeps

/-- Dropping the value drops no fault.  It is about the value alone. -/
theorem drop_fst (x : Op α) (e : Fault) (b : ByteArray) :
    (x.drop.exec b).1 = .error e ↔ (x.exec b).1 = .error e := by
  rcases exec_bind_cases x (fun _ => pure ()) b with ⟨a, b', hexec, heq⟩ | ⟨e', b', hexec, heq⟩
  · rw [Op.drop, heq, hexec]
    exact iff_of_false (by nofun) (by nofun)
  · rw [Op.drop, heq, hexec]
    exact ⟨fun h => congrArg _ (Except.error.inj h), fun h => congrArg _ (Except.error.inj h)⟩

/-- What stores some bytes at the cursor, whatever the byte order, is safe. -/
theorem safe_of_stores {x : Op Unit} (hx : ∀ e, ∃ bytes, Stores x e bytes) : Safe x := by
  constructor
  · intro b h
    obtain ⟨bytes, hbytes⟩ := hx b.endian
    obtain ⟨b', hexec, href, -⟩ := hbytes b (flat h) (refines_flat h) rfl
    rw [hexec]
    exact href.wf
  · intro b h
    obtain ⟨bytes, hbytes⟩ := hx b.endian
    obtain ⟨b', hexec, -⟩ := hbytes b (flat h) (refines_flat h) rfl
    rw [hexec]
    nofun

/-- `write` is safe, since it makes room first. -/
theorem safe_write (buf : List UInt8) : Safe (write buf) :=
  safe_of_stores fun _ => ⟨buf, write_stores buf⟩

/-- `clear` is safe. -/
theorem safe_clear : Safe clear := by
  refine ⟨fun b h => ?_, fun b _ => by nofun⟩
  obtain ⟨b', hexec, href, -⟩ := clear_refines h
  rw [hexec]
  exact href.wf

/-- `setPosition` is safe, since it throws beyond the capacity. -/
theorem safe_setPosition (v : ℕ) : Safe (setPosition v) := by
  refine ⟨fun b h => setPosition_wf h v, fun b h => ?_⟩
  by_cases hv : v ≤ b.capacity
  · rw [setPosition_exec h hv]
    intro h
    cases h
  · simp only [Op.exec, setPosition, if_pos (not_le.1 hv)]
    intro h
    cases h

/-! ### Reads -/

/-- **A read follows a null pointer** only when it reads nothing at the end of the chain.  At
the end of the chain `cur_` is the null pointer, and `read` looks at its size before the loop. -/
theorem read_null_iff (h : b.Wf) (n : ℕ) :
    ((read n).exec b).1 = .error .nullDeref ↔ n = 0 ∧ b.position = b.capacity := by
  rcases Nat.eq_zero_or_pos n with rfl | hn
  · have hcap := h.position_le.trans h.size_le
    simp only [Op.exec, read, if_neg (Nat.not_lt_zero _), true_and]
    rw [h.curNodes_eq]
    by_cases hend : b.position = b.capacity
    · have hge : b.root.length ≤ b.position / b.baseSize := by
        rw [← not_lt, h.div_lt_iff]
        omega
      rw [List.drop_eq_nil_of_le hge]
      simp [readLoop, hend]
    · have hlt := h.div_lt_iff.2 (by omega)
      rw [List.drop_eq_getElem_cons hlt]
      simp [readLoop, hend]
  · refine iff_of_false ?_ (by omega)
    rcases Nat.lt_or_ge b.getReadSize n with hlt | hge
    · rw [read_throws hlt]
      intro h
      cases h
    · rw [read_exec h hn hge]
      intro h
      cases h

/-- `read` keeps the byte array well formed, even where it follows a null pointer. -/
theorem keeps_read (n : ℕ) : Keeps (read n) := fun _ h => read_wf h n

/-- A read of at least one byte is safe. -/
theorem safe_read {n : ℕ} (hn : 1 ≤ n) : Safe (read n) :=
  ⟨keeps_read n, fun _ h hnull => absurd ((read_null_iff h n).1 hnull).1 (by omega)⟩

/-! ### Typed calls -/

/-- Looking at the byte array is safe. -/
theorem safe_get : Safe (get : Op ByteArray) := ⟨fun _ h => h, fun _ _ h => by cases h⟩

/-- A field of at least one byte is safe to read. -/
theorem safe_readFixed {n : ℕ} (hn : 1 ≤ n) : Safe (readFixed host n) :=
  (safe_read hn).bind fun _ => safe_get.bind fun _ => safe_pure _

/-- `readFuint8` is safe. -/
theorem safe_readFuint8 : Safe readFuint8 := (safe_read le_rfl).bind fun _ => safe_pure _

/-- The loop of the fields of variable width is safe, since each round reads one byte. -/
theorem safe_readGroups {w : ℕ} (rounds i : ℕ) (result : BitVec w) :
    Safe (readGroups rounds i result) := by
  induction rounds generalizing i result with
  | zero => exact safe_pure result
  | succ rounds ih =>
      unfold readGroups
      split_ifs
      · refine safe_readFuint8.bind fun b => ?_
        split_ifs
        · exact safe_pure _
        · exact ih _ _
      · exact safe_pure result

/-- `readFuint16` is safe. -/
theorem safe_readFuint16 : Safe (readFuint16 host) := (safe_readFixed (by decide)).map _

/-- `readFuint32` is safe. -/
theorem safe_readFuint32 : Safe (readFuint32 host) := (safe_readFixed (by decide)).map _

/-- `readFuint64` is safe. -/
theorem safe_readFuint64 : Safe (readFuint64 host) := (safe_readFixed (by decide)).map _

/-- `readUint32` is safe. -/
theorem safe_readUint32 : Safe readUint32 := (safe_readGroups ..).map _

/-- `readUint64` is safe. -/
theorem safe_readUint64 : Safe readUint64 := (safe_readGroups ..).map _

/-- A typed write is safe, of every kind. -/
theorem safe_writeValue (v : Value) : Safe (v.write host) :=
  safe_of_stores fun e => ⟨v.encode host e, v.write_stores host e⟩

/-- A typed read is safe, of every kind: none of them reads nothing. -/
theorem safe_readValue (k : Kind) : Safe (k.read host) := by
  cases k with
  | fint8 => exact (safe_readFuint8.map _).map _
  | fuint8 => exact safe_readFuint8.map _
  | fint16 => exact ((safe_readFixed (by decide)).map _).map _
  | fuint16 => exact safe_readFuint16.map _
  | fint32 => exact ((safe_readFixed (by decide)).map _).map _
  | fuint32 => exact safe_readFuint32.map _
  | fint64 => exact ((safe_readFixed (by decide)).map _).map _
  | fuint64 => exact safe_readFuint64.map _
  | int32 => exact (safe_readUint32.map _).map _
  | uint32 => exact safe_readUint32.map _
  | int64 => exact (safe_readUint64.map _).map _
  | uint64 => exact safe_readUint64.map _

/-- A string is safe to write, with each of the four length fields. -/
theorem safe_writeString (w : Width) (value : List UInt8) : Safe (w.write host value) := by
  cases w with
  | f16 => exact (safe_writeValue (.fuint16 _)).bind fun _ => safe_write value
  | f32 => exact (safe_writeValue (.fuint32 _)).bind fun _ => safe_write value
  | f64 => exact (safe_writeValue (.fuint64 _)).bind fun _ => safe_write value
  | vint => exact (safe_of_stores fun _ => ⟨_, write_stores _⟩).bind fun _ => safe_write value

/-- Reading a file in is safe: each of its rounds is a `write`. -/
theorem safe_readFromFile (file : Option (List UInt8)) : Safe (readFromFile file) := by
  have hloop : ∀ rounds rest, Safe (readFromFileLoop rounds rest) := by
    intro rounds
    induction rounds with
    | zero => exact fun rest => safe_pure ()
    | succ rounds ih =>
        intro rest
        unfold readFromFileLoop
        refine safe_get.bind fun b => (safe_write _).bind fun _ => ?_
        split_ifs
        · exact safe_pure ()
        · exact ih _
  cases file with
  | none => exact safe_pure false
  | some bytes => exact (hloop _ _).bind fun _ => safe_pure true

/-- A `const` call keeps the byte array well formed. -/
theorem keeps_const (f : ByteArray → Except Fault α) : Keeps (Op.const f) := fun _ h => h

/-- `getReadBuffers` is safe, since it hands out nothing when nothing is left. -/
theorem safe_getReadBuffers (len : ℕ) : Safe (Op.const fun b => b.getReadBuffers len) := by
  refine ⟨keeps_const _, fun b h => ?_⟩
  obtain ⟨iovs, hiovs, -⟩ := getReadBuffers_spec h len
  change b.getReadBuffers len ≠ _
  rw [hiovs]
  nofun

/-- `toString` is safe, since it returns early when nothing is left. -/
theorem safe_toString : Safe (Op.const ByteArray.toString) := by
  refine ⟨keeps_const _, fun b h => ?_⟩
  change b.toString ≠ _
  rw [toString_refines (refines_flat h)]
  nofun

/-- `getWriteBuffers` is safe, with the bytes stored in the buffers. -/
theorem safe_getWriteBuffers (len : ℕ) (stored : List UInt8) :
    Safe ((PublicCall.getWriteBuffers len stored).op host) := by
  have hfill : ∀ b : ByteArray, b.Wf → ∃ b',
      ((PublicCall.getWriteBuffers len stored).op host).exec b = (.ok (), b') ∧ b'.Wf := by
    intro b h
    rcases Nat.eq_zero_or_pos len with rfl | hlen
    · refine ⟨b.fill [] [], ?_, ?_⟩
      · rfl
      · rw [fill_nil]
        exact h
    · obtain ⟨iovs, b₁, hexec, -, -, -, hfill⟩ := getWriteBuffers_spec h hlen
      exact ⟨_, Op.exec_bind_ok hexec _, (hfill _ (List.length_take_le ..)).1⟩
  constructor
  · intro b h
    obtain ⟨b', hexec, hwf⟩ := hfill b h
    rw [hexec]
    exact hwf
  · intro b h
    obtain ⟨b', hexec, -⟩ := hfill b h
    rw [hexec]
    nofun

/-- A string is read behind its length.  Either part may throw. -/
theorem keeps_readString (w : Width) : Keeps (w.read host) := by
  cases w with
  | f16 => exact safe_readFuint16.keeps.bind fun len => keeps_read len.toNat
  | f32 => exact safe_readFuint32.keeps.bind fun len => keeps_read len.toNat
  | f64 => exact safe_readFuint64.keeps.bind fun len => keeps_read len.toNat
  | vint => exact safe_readUint64.keeps.bind fun len => keeps_read len.toNat

/-! ### Strings of no bytes -/

/-- The value of a field of fixed width.  It is read in the byte order of the host, and swapped
when the byte array has the other. -/
def fieldOf (host e : Endian) (n : ℕ) (bs : List UInt8) : BitVec (8 * n) :=
  if e = host then host.load n bs else byteswap n (host.load n bs)

/-- A field of fixed width is read whole, or throws and changes nothing. -/
theorem readFixed_exec (h : b.Wf) {n : ℕ} (hn : 1 ≤ n) :
    (readFixed host n).exec b = if n ≤ b.getReadSize then
      (.ok (fieldOf host b.endian n ((b.bytes.drop b.position).take n)), b.advance n)
    else (.error (.outOfRange "not enough len"), b) := by
  split_ifs with hle
  · exact Op.exec_bind_ok (read_exec h hn hle) _
  · exact Op.exec_bind_error (read_throws (not_le.1 hle)) _

/-- A number of base-256 digits is 0 when all of its digits are. -/
theorem ofLE_eq_zero_iff (bs : List UInt8) : ofLE bs = 0 ↔ bs = List.replicate bs.length 0 := by
  induction bs with
  | nil => simp [ofLE]
  | cons c bs ih =>
      have hc : c.toNat = 0 ↔ c = 0 := by
        rw [← UInt8.toNat_inj]
        rfl
      rw [ofLE, List.length_cons, List.replicate_succ, List.cons.injEq, ← ih, ← hc]
      omega

/-- The digits of 0 are zeros. -/
theorem toLE_zero (n : ℕ) : toLE n 0 = List.replicate n 0 := by
  induction n with
  | zero => rfl
  | succ n ih =>
      rw [toLE, Nat.zero_div, ih]
      rfl

/-- A field is 0 when its bytes are, whatever the byte order.  So whether a length field says 0
is seen from its bytes. -/
theorem fieldOf_eq_zero_iff (e : Endian) {n : ℕ} {bs : List UInt8} (hlen : bs.length = n) :
    fieldOf host e n bs = 0 ↔ bs = List.replicate n 0 := by
  have hofLE : ∀ cs : List UInt8, cs.length = n →
      (BitVec.ofNat (8 * n) (ofLE cs) = 0 ↔ cs = List.replicate n 0) := by
    intro cs hcs
    have hlt : ofLE cs < 2 ^ (8 * n) := by
      rw [pow_mul]
      exact hcs ▸ ofLE_lt cs
    rw [← BitVec.toNat_inj, BitVec.toNat_ofNat, Nat.mod_eq_of_lt hlt, ← hcs, ← ofLE_eq_zero_iff]
    rfl
  have hload : host.load n bs = 0 ↔ bs = List.replicate n 0 := by
    cases host with
    | little => exact hofLE bs hlen
    | big =>
        refine (hofLE bs.reverse (by rw [List.length_reverse, hlen])).trans ?_
        rw [List.reverse_eq_iff, List.reverse_replicate]
  have hswap : ∀ v : BitVec (8 * n), byteswap n v = 0 ↔ v = 0 := by
    intro v
    refine (hofLE _ (by rw [List.length_reverse, length_toLE])).trans ?_
    rw [List.reverse_eq_iff, List.reverse_replicate, ← toLE_zero]
    constructor
    · intro heq
      have hof := congrArg ofLE heq
      rw [ofLE_toLE, ofLE_toLE, Nat.mod_eq_of_lt (toNat_lt_pow v), Nat.zero_mod] at hof
      exact BitVec.eq_of_toNat_eq hof
    · rintro rfl
      rfl
  unfold fieldOf
  split_ifs
  · exact hload
  · exact (hswap _).trans hload

/-- With a byte at the cursor, `readFuint8` gives it and moves over it. -/
theorem readFuint8_exec (h : b.Wf) {c : UInt8} {rest : List UInt8}
    (hbytes : b.bytes.drop b.position = c :: rest) : readFuint8.exec b = (.ok c, b.advance 1) := by
  have hle : 1 ≤ b.getReadSize := by
    rw [← h.length_rest, hbytes, List.length_cons]
    omega
  have hread := read_exec h le_rfl hle
  rw [hbytes] at hread
  exact Op.exec_bind_ok hread _

/-- At the end of the data `readFuint8` throws and changes nothing. -/
theorem readFuint8_throws (h : b.Wf) (hbytes : b.bytes.drop b.position = []) :
    readFuint8.exec b = (.error (.outOfRange "not enough len"), b) := by
  have hlt : b.getReadSize < 1 := by
    rw [← h.length_rest, hbytes]
    exact Nat.one_pos
  exact Op.exec_bind_error (read_throws hlt) _

/-- Moving the cursor by nothing. -/
theorem advance_zero (h : b.Wf) : b.advance 0 = b := by
  obtain ⟨baseSize, position, capacity, size, endian, root, cur, mem, allocs⟩ := b
  have hcur := h.cur_eq
  simp only [advance, Nat.add_zero, nodeAt] at hcur ⊢
  rw [hcur]

/-- Moving the cursor twice is moving it once by the sum. -/
theorem advance_advance (m n : ℕ) : (b.advance m).advance n = b.advance (m + n) := by
  simp only [advance, nodeAt, Nat.add_assoc]

/-- **The loop reads what it makes of the bytes at the cursor.**  When the bytes end before, it
throws.  The induction is over the rounds. -/
theorem readGroups_exec {w : ℕ} (h : b.Wf) (rounds i : ℕ) (result : BitVec w) :
    (∀ v n, ungroup rounds i result (b.bytes.drop b.position) = some (v, n) →
      (readGroups rounds i result).exec b = (.ok v, b.advance n)) ∧
    (ungroup rounds i result (b.bytes.drop b.position) = none →
      ((readGroups rounds i result).exec b).1 = .error (.outOfRange "not enough len")) := by
  induction rounds generalizing b i result with
  | zero =>
      refine ⟨fun v n hv => ?_, fun h => by cases h⟩
      cases hv
      rw [advance_zero h]
      rfl
  | succ rounds ih =>
      unfold ungroup readGroups
      by_cases hi : i < w
      · rw [if_pos hi, if_pos hi]
        cases hbytes : b.bytes.drop b.position with
        | nil =>
            refine ⟨(fun _ _ h => by cases h), fun _ => ?_⟩
            rw [Op.exec_bind_error (readFuint8_throws h hbytes)]
        | cons c rest =>
            have hread := readFuint8_exec h hbytes
            have hle : 1 ≤ b.getReadSize := by
              rw [← h.length_rest, hbytes, List.length_cons]
              omega
            have hrest : (b.advance 1).bytes.drop (b.advance 1).position = rest := by
              change b.bytes.drop (b.position + 1) = rest
              rw [← List.drop_drop, hbytes]
              rfl
            rw [Op.exec_bind_ok hread]
            by_cases hlast : c < 0x80
            · simp only [if_pos hlast]
              refine ⟨fun v n hv => ?_, fun h => by cases h⟩
              cases hv
              rfl
            · simp only [if_neg hlast]
              obtain ⟨hsome, hnone⟩ := ih (advance_wf h hle) (i + 7)
                (result ||| ((c.toBitVec &&& 0x7f#8).setWidth w <<< i))
              rw [hrest] at hsome hnone
              constructor
              · intro v n hv
                obtain ⟨⟨v', n'⟩, hrec, heq⟩ := Option.map_eq_some_iff.1 hv
                cases heq
                rw [hsome v' n' hrec, advance_advance, Nat.add_comm 1]
              · intro hv
                exact hnone (Option.map_eq_none_iff.1 hv)
      · rw [if_neg hi, if_neg hi]
        refine ⟨fun v n hv => ?_, fun h => by cases h⟩
        cases hv
        rw [advance_zero h]
        rfl

/-- A string whose length is read by `x` follows a null pointer when the length is 0 and the
cursor stands at the end then.  Since `x` is safe, a null pointer can only be followed behind
it. -/
theorem readLength_null_iff {x : Op α} (hx : Safe x) (len : α → ℕ) (h : b.Wf) :
    ((x >>= fun a => read (len a)).exec b).1 = .error .nullDeref ↔
      ∃ a b', x.exec b = (.ok a, b') ∧ len a = 0 ∧ b'.position = b'.capacity := by
  have hwf := hx.keeps b h
  have hnull := hx.neverNull b h
  rcases exec_bind_cases x (fun a => read (len a)) b with
    ⟨a, b', hexec, heq⟩ | ⟨e, b', hexec, heq⟩
  · rw [hexec] at hwf
    rw [heq, read_null_iff hwf, hexec]
    constructor
    · rintro ⟨hlen, hend⟩
      exact ⟨a, b', rfl, hlen, hend⟩
    · rintro ⟨a, b', ⟨⟩, hlen, hend⟩
      exact ⟨hlen, hend⟩
  · rw [hexec] at hnull
    rw [heq, hexec]
    constructor
    · intro he
      exact absurd (congrArg _ (Except.error.inj he)) hnull
    · rintro ⟨a, b', ⟨⟩, -⟩

/-- A string behind a length field of fixed width follows a null pointer when the field is all
zeros and ends the chain. -/
theorem readField_null_iff (h : b.Wf) {n : ℕ} (hn : 1 ≤ n) (g : BitVec (8 * n) → α) (len : α → ℕ)
    (hlen : ∀ v, len (g v) = 0 ↔ v = 0) :
    (((do let v ← readFixed host n; pure (g v)) >>= fun a => read (len a)).exec b).1 =
        .error .nullDeref ↔
      (b.bytes.drop b.position).take n = List.replicate n 0 ∧ b.position + n = b.capacity := by
  rw [readLength_null_iff ((safe_readFixed hn).map g) len h]
  have hfixed : (readFixed host n).exec b = _ := readFixed_exec h hn
  split_ifs at hfixed with hle
  · have htake : ((b.bytes.drop b.position).take n).length = n := by
      rw [List.length_take, h.length_rest, Nat.min_eq_left hle]
    have hexec : (do let v ← readFixed host n; pure (g v)).exec b = _ := Op.exec_bind_ok hfixed _
    rw [hexec]
    constructor
    · rintro ⟨a, b', ⟨⟩, hzero, hend⟩
      exact ⟨(fieldOf_eq_zero_iff _ htake).1 ((hlen _).1 hzero), hend⟩
    · rintro ⟨hzero, hend⟩
      exact ⟨_, _, rfl, (hlen _).2 ((fieldOf_eq_zero_iff _ htake).2 hzero), hend⟩
  · constructor
    · rintro ⟨a, b', hexec, -⟩
      rw [Op.exec_bind_error hfixed] at hexec
      cases hexec
    · rintro ⟨hzero, -⟩
      have hlength := congrArg List.length hzero
      rw [List.length_take, List.length_replicate, h.length_rest] at hlength
      omega

/-- A bit vector is zero when its number is. -/
theorem toNat_eq_zero_iff {w : ℕ} (v : BitVec w) : v.toNat = 0 ↔ v = 0#w := by
  rw [← BitVec.toNat_inj]
  simp

/-- A length field of variable width that says 0, in terms of the loop that reads it. -/
theorem zeroLength_vint (data : List UInt8) :
    Width.vint.zeroLength data =
      match ungroup 64 0 0#64 data with
      | some (v, n) => if v = 0#64 then some n else none
      | none => none := rfl

/-- **Reading a string follows a null pointer** exactly when its length field says 0 and ends
the chain.  One case for each width. -/
theorem readString_null_iff (h : b.Wf) (w : Width) :
    ((w.read host).exec b).1 = .error .nullDeref ↔
      ∃ n, w.zeroLength (b.bytes.drop b.position) = some n ∧ b.position + n = b.capacity := by
  cases w with
  | f16 =>
      refine (readField_null_iff h (n := 2) (by decide) UInt16.ofBitVec UInt16.toNat fun v =>
        toNat_eq_zero_iff v).trans ?_
      simp [Width.zeroLength]
  | f32 =>
      refine (readField_null_iff h (n := 4) (by decide) UInt32.ofBitVec UInt32.toNat fun v =>
        toNat_eq_zero_iff v).trans ?_
      simp [Width.zeroLength]
  | f64 =>
      refine (readField_null_iff h (n := 8) (by decide) UInt64.ofBitVec UInt64.toNat fun v =>
        toNat_eq_zero_iff v).trans ?_
      simp [Width.zeroLength]
  | vint =>
      refine (readLength_null_iff safe_readUint64 UInt64.toNat h).trans ?_
      obtain ⟨hsome, hnone⟩ := readGroups_exec h 64 0 0#64
      rw [zeroLength_vint]
      cases hgroups : ungroup 64 0 0#64 (b.bytes.drop b.position) with
      | none =>
          refine iff_of_false ?_ (by simp)
          rintro ⟨a, b', hexec, -⟩
          rcases exec_bind_cases (readGroups 64 0 0#64) (fun v => pure (UInt64.ofBitVec v)) b with
            ⟨v, b'', hok, -⟩ | ⟨e, b'', -, heq⟩
          · have hfst := hnone hgroups
            rw [hok] at hfst
            cases hfst
          · have hexec' := heq.symm.trans hexec
            cases hexec'
      | some r =>
          obtain ⟨v, n⟩ := r
          have hexec : readUint64.exec b = (.ok (UInt64.ofBitVec v), b.advance n) :=
            Op.exec_bind_ok (hsome v n hgroups) _
          have hzero : (UInt64.ofBitVec v).toNat = 0 ↔ v = 0 := toNat_eq_zero_iff v
          rw [hexec]
          constructor
          · rintro ⟨a, b', ⟨⟩, hlen, hend⟩
            exact ⟨n, if_pos (hzero.1 hlen), hend⟩
          · rintro ⟨n', hn', hend⟩
            change (if v = 0#64 then some n else none) = some n' at hn'
            split_ifs at hn' with hv
            cases hn'
            exact ⟨_, _, rfl, hzero.2 hv, hend⟩

/-! ### Whole runs -/

/-- The calls at a position, and those that may read nothing.  All others are safe. -/
def PublicCall.mayFollowNull : PublicCall → Bool
  | .read _ => true
  | .readString _ => true
  | c => c.positional

/-- A call that is not among them is safe. -/
theorem safe_op {c : PublicCall} (hc : c.mayFollowNull = false) : Safe (c.op host) := by
  cases c with
  | read size => cases hc
  | readString w => cases hc
  | readAt size position => cases hc
  | getReadBuffersAt len position => cases hc
  | write buf => exact safe_write buf
  | setPosition v => exact safe_setPosition v
  | clear => exact safe_clear
  | setIsLittleEndian val => exact ⟨fun b h => { h with }, fun b h => by nofun⟩
  | writeValue v => exact safe_writeValue v
  | readValue k => exact (safe_readValue k).drop
  | writeFloat value => exact safe_writeValue (.fuint32 value)
  | writeDouble value => exact safe_writeValue (.fuint64 value)
  | readFloat => exact safe_readFuint32.drop
  | readDouble => exact safe_readFuint64.drop
  | writeString w value => exact safe_writeString w value
  | writeStringWithoutLength value => exact safe_write value
  | getReadBuffers len => exact (safe_getReadBuffers len).drop
  | getWriteBuffers len stored => exact safe_getWriteBuffers len stored
  | toString => exact safe_toString.drop
  | readFromFile file => exact (safe_readFromFile file).drop

/-- Every public call keeps the byte array well formed. -/
theorem keeps_op (c : PublicCall) : Keeps (c.op host) := by
  cases c with
  | read size => exact (keeps_read size).drop
  | readString w => exact (keeps_readString w).drop
  | readAt size position => exact (keeps_const _).drop
  | getReadBuffersAt len position => exact (keeps_const _).drop
  | _ => exact (safe_op rfl).keeps

/-- Calls keep the byte array well formed. -/
theorem after_wf (h : b.Wf) (calls : List PublicCall) : (after host calls b).Wf := by
  induction calls generalizing b with
  | nil => exact h
  | cons c calls ih => exact ih (keeps_op c b h)

/-- What calls make of a fresh byte array is built. -/
theorem built_after (host : Endian) (mem : ℕ → ℕ → UInt8) {baseSize : ℕ} (hbase : 1 ≤ baseSize)
    (calls : List PublicCall) : (after host calls (new mem baseSize)).Built :=
  ⟨host, mem, baseSize, calls, hbase, rfl⟩

/-- **Every byte array that calls build is well formed.** -/
theorem Built.wf (h : b.Built) : b.Wf := by
  obtain ⟨host, mem, baseSize, calls, hbase, rfl⟩ := h
  exact after_wf (new_wf mem hbase) calls

/-- How the chain, the cursor and `cur_` fit together.  It is stated in the terms of the class:
the capacity in nodes, the sizes of these, the order of position, size and capacity, and where
`cur_` points. -/
structure Represents (b : ByteArray) : Prop where
  count : b.root.length = b.capacity / b.baseSize
  count_pos : 1 ≤ b.root.length
  capacity : b.capacity = b.root.length * b.baseSize
  node_size : ∀ n ∈ b.root, n.size = b.baseSize
  position_le : b.position ≤ b.size
  size_le : b.size ≤ b.capacity
  cur_node : b.position < b.capacity → b.cur = some (b.position / b.baseSize)
  cur_null : b.position = b.capacity → b.cur = none

/-- What is well formed is so. -/
theorem Wf.represents (h : b.Wf) : b.Represents where
  count := by rw [h.capacity_eq, Nat.mul_div_cancel _ h.base_pos]
  count_pos := List.length_pos_of_ne_nil h.root_ne
  capacity := h.capacity_eq
  node_size := h.uniform
  position_le := h.position_le
  size_le := h.size_le
  cur_node := h.cur_eq_some
  cur_null := by
    intro hend
    rw [h.cur_eq, nodeAt, if_neg]
    rw [h.div_lt_iff]
    omega

/-- **After every sequence of calls**, whatever comes of each, the chain has as many nodes as
the capacity asks for, and `cur_` is the node of the cursor.  The induction over the calls is
`after_wf`.  That `cur_` is right after each of `write` (402), `read` (444), `setPosition`
(508), `clear` (385) and `addCapacity` (572) of `src/hiper/base/bytearray.cc` is what their
loops take for granted when the next call begins. -/
theorem built_represents (host : Endian) (mem : ℕ → ℕ → UInt8) {baseSize : ℕ} (hbase : 1 ≤ baseSize)
    (calls : List PublicCall) : (after host calls (new mem baseSize)).Represents :=
  (after_wf (new_wf mem hbase) calls).represents

/-- Blocks of two bytes: a string over a border, a read that throws, a seek.  It throws because
the length field reads as more than is there. -/
theorem built_represents_two :
    (after .little [.writeString .f16 [1, 2, 3], .setPosition 4, .readString .f32, .read 0]
      (new (fun _ _ => 0) 2)).Represents :=
  built_represents .little _ (by decide) _

/-- One call at the cursor.  In any state that is well formed. -/
theorem op_null_iff (h : b.Wf) {c : PublicCall} (hc : c.positional = false) :
    ((c.op host).exec b).1 = .error .nullDeref ↔ EmptyAtEnd b c := by
  cases c with
  | read size => exact (drop_fst ..).trans (read_null_iff h size)
  | readString w => exact (drop_fst ..).trans (readString_null_iff h w)
  | readAt size position => cases hc
  | getReadBuffersAt len position => cases hc
  | _ => exact iff_of_false ((safe_op rfl).neverNull b h) id

/-- **A call at the cursor follows no null pointer** unless it reads no bytes with the cursor at
the end of the chain.  The condition is on the state and the call, and `read` of nothing
elsewhere is harmless.  The pointer is followed where the offset is computed, `cur_->size` in
line 451 of `src/hiper/base/bytearray.cc`, before `read` looks whether there is anything to
copy; `write` returns in line 404 first. -/
theorem null_iff_emptyAtEnd (h : b.Built) (host : Endian) (c : PublicCall)
    (hc : c.positional = false) :
    ((c.op host).exec b).1 ≠ .error .nullDeref ↔ ¬EmptyAtEnd b c :=
  (op_null_iff h.wf hc).not

/-- An empty string that ends before the end of its block.  There the null pointer is not
reached. -/
theorem null_iff_emptyAtEnd_inside :
    ((PublicCall.op .little (.readString .f16)).exec (after .little
      [.writeString .f16 [], .setPosition 0] (new (fun _ _ => 0) 3))).1 ≠ .error .nullDeref :=
  (null_iff_emptyAtEnd (built_after .little _ (by decide) _) .little (.readString .f16) rfl).2 (by
      rintro ⟨n, hn, hend⟩
      have hlen : Width.f16.zeroLength ((after .little [.writeString .f16 [], .setPosition 0]
          (new (fun _ _ => 0) 3)).bytes.drop 0) = some 2 := by decide +kernel
      cases hlen.symm.trans hn
      revert hend
      decide +kernel)

/-- The empty string that a block of two bytes is full of cannot be read back.  The failing
input: what was written by the class cannot be read by it. -/
theorem empty_string_follows_null :
    ((PublicCall.op .little (.readString .f16)).exec (after .little
      [.writeString .f16 [], .setPosition 0] (new (fun _ _ => 0) 2))).1 = .error .nullDeref := by
  decide +kernel

end ByteArray

end Hiper

import Hiper.ByteArray.Varint

/-!
# Reads of data that end too soon

`bytearray.h` says of every read operation that it throws `std::out_of_range` when the
data left are shorter than its field.  It does (`run_throws_iff`), but a field of more than
one part is read part by part, and the parts that were read stay read: the byte array is
unchanged exactly when the data end inside the first part (`failed_read_iff`), that is,
the first byte of a field of variable width, or the length field of a string.

The parts of a field are the `read`s that the operation makes one after the other
(`bytearray.cc:236-383`).  Each operation starts with a `read` of as many bytes as its first
part has (`Starts`), and never moves the cursor back (`Forward`), so that it is unchanged
when it throws in the first part and has moved when it throws later.  When a read throws at
all is a question about the data alone: `Short` says it for each field, by the number of
bytes, by the end of the groups of seven bits (`Base128.extent`), or by what a length field
says.  A string needs room for as many bytes as its length field says before they are read,
and `buff.resize(len)` throws something else where there is none; `room` says where.
-/

namespace Hiper.ByteArray

open Lib

/-- What a read throws: what the byte array throws, or what `buff.resize(len)` throws when there
is no room for a string of that length.  The second is `std::length_error` or `std::bad_alloc`,
thrown before `read` looks at the size (`bytearray.cc:353`, `362`, `371` and `380`). -/
inductive ReadFault
  | fault (f : Fault)
  | noRoom
  deriving DecidableEq, Repr

/-- The read operations.  Each kind of integer, the two floating-point widths, and strings
behind the four length fields. -/
inductive FieldRead
  | value (k : Kind)
  | readFloat
  | readDouble
  | string (w : Width)
  deriving DecidableEq, Repr

/-- The length field of a string, read.  As many bytes are to follow. -/
def Width.readLength (host : Endian) : Width → Op ℕ
  | f16 => do
    let len ← readFuint16 host
    pure len.toNat
  | f32 => do
    let len ← readFuint32 host
    pure len.toNat
  | f64 => do
    let len ← readFuint64 host
    pure len.toNat
  | vint => do
    let len ← readUint64
    pure len.toNat

/-- A call that makes no string.  Its value is dropped, and its faults are those of the byte
array. -/
def Op.call {α : Type} (x : Op α) (b : ByteArray) : Except ReadFault Unit × ByteArray :=
  ((x.drop.exec b).1.mapError .fault, (x.drop.exec b).2)

/-- The read operation, made; `room len` says whether `buff.resize(len)` succeeds.  A string
reads its length, makes room, and reads the bytes, in this order. -/
def FieldRead.run (host : Endian) (room : ℕ → Bool) : FieldRead → ByteArray →
    Except ReadFault Unit × ByteArray
  | value k, b => (k.read host).call b
  | readFloat, b => (ByteArray.readFloat host).call b
  | readDouble, b => (ByteArray.readDouble host).call b
  | string w, b =>
    match (w.readLength host).exec b with
    | (.error e, b) => (.error (.fault e), b)
    | (.ok len, b) => if room len then (read len).call b else (.error .noRoom, b)

/-! ### Fields -/

/-- How many bytes the first `read` of the operation asks for.  A field of variable width is
read byte by byte. -/
def Kind.firstPart : Kind → ℕ
  | fint8 => 1
  | fuint8 => 1
  | fint16 => 2
  | fuint16 => 2
  | fint32 => 4
  | fuint32 => 4
  | fint64 => 8
  | fuint64 => 8
  | int32 => 1
  | uint32 => 1
  | int64 => 1
  | uint64 => 1

/-- How many bytes the first `read` of a length field asks for. -/
def Width.firstPart : Width → ℕ
  | f16 => 2
  | f32 => 4
  | f64 => 8
  | vint => 1

/-- How many bytes the first `read` of the operation asks for. -/
def FieldRead.firstPart : FieldRead → ℕ
  | value k => k.firstPart
  | readFloat => 4
  | readDouble => 8
  | string w => w.firstPart

/-- The data are shorter than the value at their front.  A field of variable width is too short
when its groups do not end within the data. -/
def Kind.Short (data : List UInt8) : Kind → Prop
  | int32 => Base128.extent 5 data = none
  | uint32 => Base128.extent 5 data = none
  | int64 => Base128.extent 10 data = none
  | uint64 => Base128.extent 10 data = none
  | k => data.length < k.firstPart

/-- The length field of `n` bytes at the front of the data, as a number.  In the byte order of
the byte array. -/
def lengthField (host e : Endian) (n : ℕ) (data : List UInt8) : ℕ :=
  (fieldOf host e n (data.take n)).toNat

/-- The data are shorter than the string at their front, its length field included.  Without a
whole length field they are too short in any case. -/
def Width.Short (host e : Endian) (data : List UInt8) : Width → Prop
  | f16 => data.length < 2 + lengthField host e 2 data
  | f32 => data.length < 4 + lengthField host e 4 data
  | f64 => data.length < 8 + lengthField host e 8 data
  | vint =>
    match Base128.extent 10 data with
    | none => True
    | some n => data.length < n + Base128.value (data.take n) % 2 ^ 64

/-- The data are shorter than the field at their front.  It is a property of the data from the
cursor on, and of the byte order. -/
def FieldRead.Short (host e : Endian) (data : List UInt8) : FieldRead → Prop
  | value k => k.Short data
  | readFloat => data.length < 4
  | readDouble => data.length < 8
  | string w => w.Short host e data

/-! ### First parts -/

variable {host : Endian} {b b' : ByteArray} {α β : Type}

/-- `x` does not move the cursor back.  Whatever comes of it. -/
def Forward (x : Op α) : Prop := ∀ b : ByteArray, b.Wf → b.position ≤ (x.exec b).2.position

/-- `x` starts with a `read` of `k` bytes: without them it throws and changes nothing, with them
it moves over them, whatever comes of the rest.  Both halves are about the state after a call
that may throw. -/
structure Starts (x : Op α) (k : ℕ) : Prop where
  keeps : Keeps x
  refuses : ∀ b : ByteArray, b.Wf → b.getReadSize < k →
    x.exec b = (.error (.outOfRange "not enough len"), b)
  moves : ∀ b : ByteArray, b.Wf → k ≤ b.getReadSize → b.position + k ≤ (x.exec b).2.position

/-- What starts with a read does not move the cursor back. -/
theorem Starts.forward {x : Op α} {k : ℕ} (hx : Starts x k) : Forward x := by
  intro b h
  rcases Nat.lt_or_ge b.getReadSize k with hlt | hge
  · rw [hx.refuses b h hlt]
  · exact (Nat.le_add_right ..).trans (hx.moves b h hge)

/-- Returning a value moves nothing. -/
theorem forward_pure (a : α) : Forward (pure a : Op α) := fun _ _ => le_rfl

/-- Dropping the value drops no change.  It is about the value alone. -/
theorem drop_snd (x : Op α) (b : ByteArray) : (x.drop.exec b).2 = (x.exec b).2 := by
  rcases exec_bind_cases x (fun _ => pure ()) b with ⟨a, b', hexec, heq⟩ | ⟨e, b', hexec, heq⟩
  · rw [Op.drop, heq, hexec]
    rfl
  · rw [Op.drop, heq, hexec]

/-- A call that does not move the cursor back does not when its value is dropped. -/
theorem Forward.drop {x : Op α} (hx : Forward x) : Forward x.drop := fun b h => by
  rw [drop_snd]
  exact hx b h

/-- What starts with a read still does when more is done behind it that moves on only. -/
theorem Starts.bind {x : Op α} {c : α → Op β} {k : ℕ} (hx : Starts x k) (hkeeps : ∀ a, Keeps (c a))
    (hforward : ∀ a, Forward (c a)) : Starts (x >>= c) k := by
  refine ⟨hx.keeps.bind hkeeps, fun b h hlt => ?_, fun b h hge => ?_⟩
  · exact Op.exec_bind_error (hx.refuses b h hlt) c
  · have hmoves := hx.moves b h hge
    rcases exec_bind_cases x c b with ⟨a, b', hexec, heq⟩ | ⟨e, b', hexec, heq⟩
    · have hwf := hx.keeps b h
      rw [hexec] at hmoves hwf
      rw [heq]
      exact hmoves.trans (hforward a b' hwf)
    · rw [hexec] at hmoves
      rw [heq]
      exact hmoves

/-- What starts with a read still does when its value is changed. -/
theorem Starts.map {x : Op α} {k : ℕ} (hx : Starts x k) (g : α → β) :
    Starts (do let a ← x; pure (g a)) k :=
  hx.bind (fun a => (safe_pure (g a)).keeps) fun a => forward_pure (g a)

/-- A `read` of at least one byte starts with itself. -/
theorem starts_read {n : ℕ} (hn : 1 ≤ n) : Starts (read n) n where
  keeps := keeps_read n
  refuses _ _ hlt := read_throws hlt
  moves b h hge := by
    rw [read_exec h hn hge]
    rfl

/-- A `read` does not move the cursor back. -/
theorem forward_read (n : ℕ) : Forward (read n) := by
  rcases Nat.eq_zero_or_pos n with rfl | hn
  · intro b _
    simp only [Op.exec, read, if_neg (Nat.not_lt_zero _)]
    cases b.curNodes with
    | nil => exact le_rfl
    | cons n next => exact Nat.le_add_right ..
  · exact (starts_read hn).forward

/-- A field of fixed width starts with all of its bytes. -/
theorem starts_readFixed {n : ℕ} (hn : 1 ≤ n) : Starts (readFixed host n) n :=
  (starts_read hn).bind (fun _ => (safe_get.bind fun _ => safe_pure _).keeps) fun _ _ _ => le_rfl

/-- `readFuint8` starts with one byte. -/
theorem starts_readFuint8 : Starts readFuint8 1 := (starts_read le_rfl).map _

/-- A round of the loop of the variable widths starts with one byte. -/
theorem starts_readGroups {w rounds i : ℕ} {result : BitVec w} (hi : i < w)
    (hrest : ∀ i (result : BitVec w), Forward (readGroups rounds i result)) :
    Starts (readGroups (rounds + 1) i result) 1 := by
  unfold readGroups
  rw [if_pos hi]
  refine starts_readFuint8.bind (fun c => ?_) fun c => ?_
  · split_ifs
    · exact (safe_pure _).keeps
    · exact (safe_readGroups ..).keeps
  · split_ifs
    · exact forward_pure _
    · exact hrest _ _

/-- The loop of the variable widths does not move the cursor back.  The induction is over its
rounds. -/
theorem forward_readGroups {w : ℕ} (rounds i : ℕ) (result : BitVec w) :
    Forward (readGroups rounds i result) := by
  induction rounds generalizing i result with
  | zero => exact forward_pure result
  | succ rounds ih =>
      by_cases hi : i < w
      · exact (starts_readGroups hi ih).forward
      · unfold readGroups
        rw [if_neg hi]
        exact forward_pure result

/-- `readUint32` starts with one byte. -/
theorem starts_readUint32 : Starts readUint32 1 := (starts_readGroups (by decide) (forward_readGroups 31)).map _

/-- `readUint64` starts with one byte. -/
theorem starts_readUint64 : Starts readUint64 1 := (starts_readGroups (by decide) (forward_readGroups 63)).map _

/-- An integer of every kind starts with its first part. -/
theorem starts_readValue (k : Kind) : Starts (k.read host) k.firstPart := by
  cases k with
  | fint8 => exact (starts_readFuint8.map _).map _
  | fuint8 => exact starts_readFuint8.map _
  | fint16 => exact ((starts_readFixed (by decide)).map _).map _
  | fuint16 => exact ((starts_readFixed (by decide)).map _).map _
  | fint32 => exact ((starts_readFixed (by decide)).map _).map _
  | fuint32 => exact ((starts_readFixed (by decide)).map _).map _
  | fint64 => exact ((starts_readFixed (by decide)).map _).map _
  | fuint64 => exact ((starts_readFixed (by decide)).map _).map _
  | int32 => exact (starts_readUint32.map _).map _
  | uint32 => exact starts_readUint32.map _
  | int64 => exact (starts_readUint64.map _).map _
  | uint64 => exact starts_readUint64.map _

/-- A length field of every width starts with its first part. -/
theorem starts_readLength (host : Endian) (w : Width) : Starts (w.readLength host) w.firstPart := by
  cases w with
  | f16 => exact ((starts_readFixed (by decide)).map _).map _
  | f32 => exact ((starts_readFixed (by decide)).map _).map _
  | f64 => exact ((starts_readFixed (by decide)).map _).map _
  | vint => exact starts_readUint64.map _

/-- What starts with a read still does when its value is dropped. -/
theorem Starts.drop {x : Op α} {k : ℕ} (hx : Starts x k) : Starts x.drop k := hx.map fun _ => ()

/-- Without the bytes of its first part a read throws and changes nothing.  It holds for every
field. -/
theorem run_refuses (h : b.Wf) (host : Endian) (room : ℕ → Bool) {f : FieldRead}
    (hlt : b.getReadSize < f.firstPart) :
    f.run host room b = (.error (.fault (.outOfRange "not enough len")), b) := by
  have hcall : ∀ {α : Type} {x : Op α} {k : ℕ}, Starts x k → b.getReadSize < k →
      x.call b = (.error (.fault (.outOfRange "not enough len")), b) := by
    intro α x k hx hlt
    rw [Op.call, hx.drop.refuses b h hlt]
    rfl
  cases f with
  | value k => exact hcall (starts_readValue k) hlt
  | readFloat => exact hcall ((starts_readFixed (n := 4) (by decide)).map UInt32.ofBitVec) hlt
  | readDouble => exact hcall ((starts_readFixed (n := 8) (by decide)).map UInt64.ofBitVec) hlt
  | string w => simp only [FieldRead.run, (starts_readLength host w).refuses b h hlt]

/-- With them it moves over them, whatever it throws then.  So a read that throws behind its
first part has changed the cursor. -/
theorem run_moves (h : b.Wf) (host : Endian) (room : ℕ → Bool) {f : FieldRead}
    (hge : f.firstPart ≤ b.getReadSize) :
    b.position + f.firstPart ≤ (f.run host room b).2.position := by
  cases f with
  | value k => exact (starts_readValue k).drop.moves b h hge
  | readFloat => exact ((starts_readFixed (n := 4) (by decide)).map UInt32.ofBitVec).drop.moves b h hge
  | readDouble => exact ((starts_readFixed (n := 8) (by decide)).map UInt64.ofBitVec).drop.moves b h hge
  | string w =>
      have hmoves := (starts_readLength host w).moves b h hge
      have hwf := (starts_readLength host w).keeps b h
      simp only [FieldRead.run]
      rcases hexec : (w.readLength host).exec b with ⟨e | len, b₁⟩
      · rw [hexec] at hmoves
        exact hmoves
      · rw [hexec] at hmoves hwf
        simp only
        split_ifs
        · exact hmoves.trans ((forward_read len).drop b₁ hwf)
        · exact hmoves

/-- No read starts with nothing. -/
theorem FieldRead.firstPart_pos (f : FieldRead) : 0 < f.firstPart := by
  rcases f with k | _ | _ | w
  · cases k <;> decide
  · decide
  · decide
  · cases w <;> decide

/-! ### What throws -/

/-- `throw std::out_of_range("not enough len")`.  It is the one `out_of_range` of the reads
(`bytearray.cc:447`). -/
def notEnough : Fault := .outOfRange "not enough len"

/-- Changing the value of a call changes nothing about what it throws. -/
theorem map_fst (x : Op α) (g : α → β) (e : Fault) (b : ByteArray) :
    ((do let a ← x; pure (g a) : Op β).exec b).1 = .error e ↔ (x.exec b).1 = .error e := by
  rcases exec_bind_cases x (fun a => pure (g a)) b with ⟨a, b', hexec, heq⟩ | ⟨e', b', hexec, heq⟩
  · rw [heq, hexec]
    exact iff_of_false nofun nofun
  · rw [heq, hexec]
    exact ⟨fun h => congrArg _ (Except.error.inj h), fun h => congrArg _ (Except.error.inj h)⟩

/-- A call throws what its computation throws. -/
theorem call_throws_iff (x : Op α) (b : ByteArray) :
    (x.call b).1 = .error (.fault notEnough) ↔ (x.exec b).1 = .error notEnough := by
  rw [← drop_fst, Op.call]
  cases (x.drop.exec b).1 with
  | error e => simp [Except.mapError]
  | ok a => simp [Except.mapError]

/-- A `read` throws when more is asked for than is left. -/
theorem read_throws_iff (h : b.Wf) (n : ℕ) :
    ((read n).exec b).1 = .error notEnough ↔ b.getReadSize < n := by
  rcases Nat.lt_or_ge b.getReadSize n with hlt | hge
  · rw [read_throws hlt]
    exact iff_of_true rfl hlt
  · refine iff_of_false ?_ (not_lt.2 hge)
    rcases Nat.eq_zero_or_pos n with rfl | hn
    · simp only [Op.exec, read, if_neg (Nat.not_lt_zero _)]
      cases b.curNodes <;> simp [readLoop, notEnough]
    · rw [read_exec h hn hge]
      intro h
      cases h

/-- A field of fixed width throws when the data are shorter than it. -/
theorem readFixed_throws_iff (h : b.Wf) {n : ℕ} (hn : 1 ≤ n) :
    ((readFixed host n).exec b).1 = .error notEnough ↔ (b.bytes.drop b.position).length < n := by
  rw [readFixed_exec h hn, h.length_rest]
  split_ifs with hle
  · exact iff_of_false nofun (not_lt.2 hle)
  · exact iff_of_true rfl (not_le.1 hle)

/-- A field of variable width throws when its groups do not end within the data, in as many
bytes as its width needs. -/
theorem readGroups_throws_iff {w : ℕ} (h : b.Wf) (hw : 8 ≤ w) :
    ((readGroups w 0 0#w).exec b).1 = .error notEnough ↔
      Base128.extent ((w + 6) / 7) (b.bytes.drop b.position) = none := by
  cases hextent : Base128.extent ((w + 6) / 7) (b.bytes.drop b.position) with
  | none => exact iff_of_true (readGroups_none h hw hextent) rfl
  | some n =>
      rw [readGroups_some h hw hextent]
      exact iff_of_false nofun nofun

/-- **An integer throws** exactly when the data are too short for it, of every kind. -/
theorem readValue_throws_iff (h : b.Wf) (k : Kind) :
    ((k.read host).exec b).1 = .error notEnough ↔ k.Short (b.bytes.drop b.position) := by
  have hbyte : (readFuint8.exec b).1 = .error notEnough ↔ (b.bytes.drop b.position).length < 1 := by
    rw [h.length_rest]
    exact (map_fst ..).trans (read_throws_iff h 1)
  cases k with
  | fint8 => exact ((map_fst ..).trans (map_fst ..)).trans hbyte
  | fuint8 => exact (map_fst ..).trans hbyte
  | fint16 => exact ((map_fst ..).trans (map_fst ..)).trans (readFixed_throws_iff h (by decide))
  | fuint16 => exact ((map_fst ..).trans (map_fst ..)).trans (readFixed_throws_iff h (by decide))
  | fint32 => exact ((map_fst ..).trans (map_fst ..)).trans (readFixed_throws_iff h (by decide))
  | fuint32 => exact ((map_fst ..).trans (map_fst ..)).trans (readFixed_throws_iff h (by decide))
  | fint64 => exact ((map_fst ..).trans (map_fst ..)).trans (readFixed_throws_iff h (by decide))
  | fuint64 => exact ((map_fst ..).trans (map_fst ..)).trans (readFixed_throws_iff h (by decide))
  | int32 =>
      exact (((map_fst ..).trans (map_fst ..)).trans (map_fst ..)).trans
        (readGroups_throws_iff h (by decide))
  | uint32 => exact ((map_fst ..).trans (map_fst ..)).trans (readGroups_throws_iff h (by decide))
  | int64 =>
      exact (((map_fst ..).trans (map_fst ..)).trans (map_fst ..)).trans
        (readGroups_throws_iff h (by decide))
  | uint64 => exact ((map_fst ..).trans (map_fst ..)).trans (readGroups_throws_iff h (by decide))

/-- Behind its length field, a string is read or throws.  The cursor stands behind the length
field then. -/
theorem string_throws_iff (h : b.Wf) {w : Width} {n len : ℕ} (hn : n ≤ b.getReadSize)
    (hlen : (w.readLength host).exec b = (.ok len, b.advance n)) :
    (FieldRead.run host (fun _ => true) (.string w) b).1 = .error (.fault notEnough) ↔
      (b.bytes.drop b.position).length < n + len := by
  have hleft : (b.advance n).getReadSize = b.getReadSize - n := by
    change b.size - (b.position + n) = b.size - b.position - n
    omega
  simp only [FieldRead.run, hlen, if_true]
  rw [call_throws_iff, read_throws_iff (advance_wf h hn), hleft, h.length_rest]
  omega

/-- A length field of fixed width, read.  The number is that of its bytes. -/
theorem readField_exec (h : b.Wf) {n : ℕ} (hn : 1 ≤ n) (hle : n ≤ b.getReadSize)
    (g : BitVec (8 * n) → α) (len : α → ℕ) (hlen : ∀ v, len (g v) = v.toNat) :
    (do let a ← (do let v ← readFixed host n; pure (g v) : Op α); pure (len a)).exec b =
      (.ok (lengthField host b.endian n (b.bytes.drop b.position)), b.advance n) := by
  have hfixed : (readFixed host n).exec b = _ := readFixed_exec h hn
  rw [if_pos hle] at hfixed
  have hvalue : (do let v ← readFixed host n; pure (g v) : Op α).exec b = _ :=
    Op.exec_bind_ok hfixed _
  rw [Op.exec_bind_ok hvalue, lengthField, ← hlen]
  rfl

/-- A string behind a length field of fixed width throws when the data are too short for the
length field, or for the string it speaks of.  The three fixed widths are instances. -/
theorem fixedString_throws_iff (h : b.Wf) {w : Width} {n len : ℕ} (hw : w.firstPart = n)
    (hlen : n ≤ b.getReadSize → (w.readLength host).exec b = (.ok len, b.advance n)) :
    (FieldRead.run host (fun _ => true) (.string w) b).1 = .error (.fault notEnough) ↔
      (b.bytes.drop b.position).length < n + len := by
  rcases Nat.lt_or_ge b.getReadSize n with hlt | hge
  · rw [← hw] at hlt
    rw [run_refuses h host (fun _ => true) (f := .string w) hlt, h.length_rest, ← hw]
    exact iff_of_true rfl (by omega)
  · exact string_throws_iff h hge (hlen hge)

/-- **A read throws `std::out_of_range`** exactly when the data are shorter than the field at
their front, if there is room for its string.  It is what `bytearray.h` promises of each read. -/
theorem run_throws_iff (h : b.Wf) (host : Endian) (f : FieldRead) :
    (f.run host (fun _ => true) b).1 = .error (.fault notEnough) ↔
      f.Short host b.endian (b.bytes.drop b.position) := by
  cases f with
  | value k => exact (call_throws_iff ..).trans (readValue_throws_iff h k)
  | readFloat =>
      exact ((call_throws_iff ..).trans (map_fst ..)).trans (readFixed_throws_iff h (by decide))
  | readDouble =>
      exact ((call_throws_iff ..).trans (map_fst ..)).trans (readFixed_throws_iff h (by decide))
  | string w =>
      cases w with
      | f16 =>
          exact fixedString_throws_iff h rfl fun hge =>
            readField_exec h (n := 2) (by decide) hge UInt16.ofBitVec UInt16.toNat fun _ => rfl
      | f32 =>
          exact fixedString_throws_iff h rfl fun hge =>
            readField_exec h (n := 4) (by decide) hge UInt32.ofBitVec UInt32.toNat fun _ => rfl
      | f64 =>
          exact fixedString_throws_iff h rfl fun hge =>
            readField_exec h (n := 8) (by decide) hge UInt64.ofBitVec UInt64.toNat fun _ => rfl
      | vint =>
          rw [FieldRead.Short, Width.Short]
          cases hextent : Base128.extent 10 (b.bytes.drop b.position) with
          | none =>
              have hthrows : ((Width.vint.readLength host).exec b).1 = .error notEnough :=
                ((map_fst ..).trans (map_fst ..)).2 (readGroups_none (w := 64) h (by decide) hextent)
              refine iff_of_true ?_ trivial
              rcases hexec : (Width.vint.readLength host).exec b with ⟨r, b₁⟩
              rw [hexec] at hthrows
              obtain rfl : r = .error notEnough := hthrows
              simp only [FieldRead.run, hexec]
          | some n =>
              have hle := (Base128.extent_le hextent).2
              rw [h.length_rest] at hle
              have hvalue : readUint64.exec b = _ :=
                Op.exec_bind_ok (readGroups_some (w := 64) h (by decide) hextent) _
              have hlen : (Width.vint.readLength host).exec b = _ := Op.exec_bind_ok hvalue _
              refine string_throws_iff h hle (hlen.trans ?_)
              exact congrArg (fun v => (Except.ok v, b.advance n)) (BitVec.toNat_ofNat ..)

/-! ### Failed reads -/

/-- The call throws `std::out_of_range` and leaves the byte array as it was.  It is the promise
that a caller needs to try again later with more data. -/
def Refused (host : Endian) (room : ℕ → Bool) (f : FieldRead) (b : ByteArray) : Prop :=
  ∃ what, f.run host room b = (.error (.fault (.outOfRange what)), b)

/-- **A read of data that end too soon changes nothing** exactly when they end in the first part
of the field.  Behind the first part the cursor has moved, and a caller that catches the
exception cannot go back.  The condition compares the data left with the first part of the
field.  The readers are `src/hiper/base/bytearray.cc:291-383`; each is a `read` (444) after
another, and only the first one's refusal, line 447, leaves the cursor where it was. -/
theorem failed_read_iff (h : b.Built) (host : Endian) (room : ℕ → Bool) (f : FieldRead) :
    (f.Short host b.endian (b.bytes.drop b.position) → Refused host room f b) ↔
      (f.Short host b.endian (b.bytes.drop b.position) → b.getReadSize < f.firstPart) := by
  refine imp_congr_right fun _ => ⟨?_, fun hlt => ⟨_, run_refuses h.wf host room hlt⟩⟩
  rintro ⟨what, hrun⟩
  by_contra hge
  have hmoves := run_moves h.wf host room (not_lt.1 hge)
  have hpos := f.firstPart_pos
  rw [hrun] at hmoves
  simp only at hmoves
  omega

/-- One byte left, two asked for.  The read throws and the byte array is as it was. -/
theorem failed_read_fixed :
    Refused .little (fun _ => true) (.value .fuint16)
      (after .little [.write [7], .setPosition 0] (new (fun _ _ => 0) 4)) :=
  (failed_read_iff (built_after .little (fun _ _ => 0) (by decide : 1 ≤ 4)
    [.write [7], .setPosition 0]) .little (fun _ => true) (.value .fuint16)).2
      (fun _ => by decide +kernel) (by change List.length _ < 2; decide +kernel)

/-- One byte of a field of variable width left, which says that another follows: the call
throws, and the cursor has moved.  The failing input: it is short, and the call is not refused
as a whole. -/
theorem failed_read_moves :
    (FieldRead.value .uint32).Short .little .big
        ((after .little [.write [0x80], .setPosition 0] (new (fun _ _ => 0) 4)).bytes.drop 0) ∧
      ¬Refused .little (fun _ => true) (.value .uint32)
        (after .little [.write [0x80], .setPosition 0] (new (fun _ _ => 0) 4)) := by
  constructor
  · change Base128.extent 5 _ = none
    decide +kernel
  · rintro ⟨what, hrun⟩
    have hmoved : ((FieldRead.value .uint32).run .little (fun _ => true)
        (after .little [.write [0x80], .setPosition 0] (new (fun _ _ => 0) 4))).2.position = 1 := by
      decide +kernel
    have hstart : (after .little [.write [0x80], .setPosition 0]
        (new (fun _ _ => 0) 4)).position = 0 := by decide +kernel
    rw [hrun, hstart] at hmoved
    cases hmoved

end Hiper.ByteArray

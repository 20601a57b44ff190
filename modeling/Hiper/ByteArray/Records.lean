import Hiper.ByteArray.Calls

/-!
# Strings with a length of two bytes

A sequence of records, each a string written by `writeStringF16` with a marker written by
`writeFuint32` behind it.  `writeFuint16(value.size())` narrows the length to sixteen
bits and the string is written in full, so the records come back exactly when every
string is shorter than `2 ^ 16` (`records_return_iff`): a longer one stores a length that
disagrees with the bytes behind it, and no read returns it.

The functions are `bytearray.cc:207` and `bytearray.cc:349`.  What is stored for a string is
its length modulo `2 ^ 16` and all of its bytes, so that behind a long one the next record is
looked for inside of it.  That the records come back does not say that every stored length is
right, so the length that is stored is compared with the bytes behind it too (`PrefixAgrees`).
-/

namespace Hiper.ByteArray

open Lib

/-- A string, and the marker behind it.  The marker is what a misplaced read would hit. -/
structure StringRecord where
  value : List UInt8
  marker : UInt32
  deriving DecidableEq, Repr

section Operations

variable (host : Endian)

/-- A record: the string by `writeStringF16`, its marker by `writeFuint32`. -/
def writeRecord (r : StringRecord) : Op Unit := do
  writeStringF16 host r.value
  writeFuint32 host r.marker

/-- A record, read by the two reads of the same names. -/
def readRecord : Op StringRecord := do
  let value ← readStringF16 host
  let marker ← readFuint32 host
  pure ⟨value, marker⟩

/-- Records, written one behind the other. -/
def writeRecords : List StringRecord → Op Unit
  | [] => pure ()
  | r :: rs => do
    writeRecord host r
    writeRecords rs

/-- As many records as are asked for, read one behind the other. -/
def readRecords : ℕ → Op (List StringRecord)
  | 0 => pure []
  | n + 1 => do
    let r ← readRecord host
    let rs ← readRecords n
    pure (r :: rs)

/-- The bytes of a string behind its length.  The length in the byte order of the byte array,
narrowed to sixteen bits. -/
def stringF16Bytes (e : Endian) (value : List UInt8) : List UInt8 :=
  fixedBytes host e 2 (UInt16.ofNat value.length).toBitVec ++ value

/-- The bytes of a record. -/
def recordBytes (e : Endian) (r : StringRecord) : List UInt8 :=
  stringF16Bytes host e r.value ++ fixedBytes host e 4 r.marker.toBitVec

end Operations

variable {host e : Endian} {b b' : ByteArray} {α : Type}

/-! ### Writing -/

/-- Nothing written stores nothing. -/
theorem pure_stores : Stores (pure ()) e [] := by
  intro b f h he
  refine ⟨b, rfl, ?_, he⟩
  rw [← h.flat_eq]
  exact flat_write_nil h.wf

/-- One write behind another.  The bytes of the first, then those of the second. -/
theorem Stores.bind {x y : Op Unit} {xs ys : List UInt8} (hx : Stores x e xs) (hy : Stores y e ys) :
    Stores (do x; y) e (xs ++ ys) := by
  intro b f h he
  obtain ⟨b₁, hexec₁, href₁, he₁⟩ := hx b f h he
  obtain ⟨b₂, hexec₂, href₂, he₂⟩ := hy b₁ _ href₁ he₁
  rw [Flat.write_write] at href₂
  exact ⟨b₂, (Op.exec_bind_ok hexec₁ _).trans hexec₂, href₂, he₂⟩

/-- A string is stored behind its length, whatever its length. -/
theorem writeStringF16_stores (value : List UInt8) :
    Stores (writeStringF16 host value) e (stringF16Bytes host e value) :=
  (writeFixed_stores 2 _).bind (write_stores value)

/-- Records are stored one behind the other. -/
theorem writeRecords_stores (rs : List StringRecord) :
    Stores (writeRecords host rs) e (rs.flatMap (recordBytes host e)) := by
  induction rs with
  | nil => exact pure_stores
  | cons r rs ih =>
      rw [List.flatMap_cons]
      exact ((writeStringF16_stores r.value).bind (writeFixed_stores 4 _)).bind ih

/-! ### Reading -/

/-- A read of no bytes inside the chain returns none and changes nothing.  The `cur_` of such a
place is a node. -/
theorem read_zero (h : b.Wf) (hlt : b.position < b.capacity) :
    (read 0).exec b = (.ok [], b) := by
  have hnodes : b.curNodes ≠ [] := by
    rw [h.curNodes_eq]
    exact List.ne_nil_of_length_pos (by rw [List.length_drop]; have := h.div_lt_iff.2 hlt; omega)
  obtain ⟨n, next, hcons⟩ := List.exists_cons_of_ne_nil hnodes
  have hzero := advance_zero h
  rw [advance, Nat.add_zero] at hzero
  simp only [Op.exec, read, if_neg (Nat.not_lt_zero _), hcons, readLoop, if_true,
    h.cur_eq_some hlt, Option.getD_some, Nat.add_zero, hzero]

/-- A string read in front of something else.  The string may be empty, since there is something
behind it. -/
theorem read_bind_takes {k : List UInt8 → Op α} {value bytes : List UInt8} {a : α}
    (hk : Takes (k value) e bytes a) (hbytes : bytes ≠ []) :
    Takes (read value.length >>= k) e (value ++ bytes) a := by
  rcases eq_or_ne value [] with rfl | hne
  · intro b f rest h he hdata
    have hlt : b.position < b.capacity := by
      have hlen := congrArg List.length hdata
      have hpos := List.length_pos_of_ne_nil hbytes
      rw [← h.bytes_eq, ← h.position_eq, h.wf.length_rest, getReadSize] at hlen
      simp only [List.length_append, List.nil_append] at hlen
      have hsize := h.wf.size_le
      omega
    obtain ⟨b₁, f₁, hexec, hrest⟩ := hk b f rest h he hdata
    exact ⟨b₁, f₁, (Op.exec_bind_ok (read_zero h.wf hlt) k).trans hexec, hrest⟩
  · exact (read_takes hne).bind hk

/-- A record whose string is short enough is read back. -/
theorem readRecord_takes (r : StringRecord) (hr : r.value.length < 65536) :
    Takes (readRecord host) e (recordBytes host e r) r := by
  have hlength : (UInt16.ofNat r.value.length).toNat = r.value.length := by
    rw [UInt16.toNat_ofNat']
    exact Nat.mod_eq_of_lt hr
  have hmarker : Takes (readFuint32 host >>= fun marker => pure (⟨r.value, marker⟩ : StringRecord)) e
      (fixedBytes host e 4 r.marker.toBitVec) r :=
    ((readFixed_takes (n := 4) (by decide) r.marker.toBitVec).map UInt32.ofBitVec).map
      (StringRecord.mk r.value)
  have hmarker_ne : fixedBytes host e 4 r.marker.toBitVec ≠ [] :=
    List.ne_nil_of_length_pos (by rw [fixedBytes, Endian.length_store]; decide)
  have hstring := read_bind_takes (k := fun value => readFuint32 host >>= fun marker =>
    pure (⟨value, marker⟩ : StringRecord)) hmarker hmarker_ne
  have hlen : Takes (readFuint16 host) e
      (fixedBytes host e 2 (UInt16.ofNat r.value.length).toBitVec) (UInt16.ofNat r.value.length) :=
    (readFixed_takes (n := 2) (by decide) _).map UInt16.ofBitVec
  rw [← hlength] at hstring
  have hrecord := hlen.bind (k := fun len => read len.toNat >>= fun value =>
    readFuint32 host >>= fun marker => pure (⟨value, marker⟩ : StringRecord)) hstring
  rw [← List.append_assoc] at hrecord
  simpa only [readRecord, readStringF16, recordBytes, stringF16Bytes, bind_assoc] using hrecord

/-- Records whose strings are all short enough are read back.  The induction is over the
records. -/
theorem readRecords_takes {rs : List StringRecord} (hrs : ∀ r ∈ rs, r.value.length < 65536) :
    Takes (readRecords host rs.length) e (rs.flatMap (recordBytes host e)) rs := by
  induction rs with
  | nil => exact pure_takes []
  | cons r rs ih =>
      obtain ⟨hr, hrs⟩ := List.forall_mem_cons.1 hrs
      exact (readRecord_takes r hr).bind ((ih hrs).map (r :: ·))

/-- What a read returns has the length asked for.  Else it throws. -/
theorem length_of_read (h : b.Wf) {n : ℕ} {bytes : List UInt8}
    (hread : (read n).exec b = (.ok bytes, b')) : bytes.length = n := by
  rcases Nat.eq_zero_or_pos n with rfl | hn
  · simp only [Op.exec, read, if_neg (Nat.not_lt_zero _)] at hread
    cases hnodes : b.curNodes <;> simp_all [readLoop]
  · rcases Nat.lt_or_ge b.getReadSize n with hlt | hge
    · rw [read_throws hlt] at hread
      cases hread
    · rw [read_exec h hn hge] at hread
      cases hread
      rw [List.length_take, h.length_rest, Nat.min_eq_left hge]

/-- What keeps the byte array well formed leaves a well formed one. -/
theorem Keeps.of_exec {x : Op α} (hx : Keeps x) (h : b.Wf) {r : Except Fault α}
    (hexec : x.exec b = (r, b')) : b'.Wf := by
  have hwf := hx b h
  rwa [hexec] at hwf

/-- No string that `readStringF16` returns is longer than its length can say.  The length field
has sixteen bits. -/
theorem readStringF16_short (h : b.Wf) {value : List UInt8}
    (hread : (readStringF16 host).exec b = (.ok value, b')) : value.length < 65536 := by
  obtain ⟨len, b₁, hlen, hvalue⟩ := exec_bind_eq_ok hread
  have hwf := safe_readFuint16.keeps.of_exec h hlen
  rw [length_of_read hwf hvalue]
  exact len.toNat_lt

/-- No record that is read has a longer string than its length can say. -/
theorem readRecord_short (h : b.Wf) {r : StringRecord}
    (hread : (readRecord host).exec b = (.ok r, b')) : r.value.length < 65536 := by
  obtain ⟨value, b₁, hvalue, hrest⟩ := exec_bind_eq_ok hread
  obtain ⟨marker, b₂, -, hdone⟩ := exec_bind_eq_ok hrest
  cases hdone
  exact readStringF16_short h hvalue

/-- Reading a record keeps the byte array well formed. -/
theorem keeps_readRecord : Keeps (readRecord host) :=
  (keeps_readString .f16).bind fun _ => safe_readFuint32.keeps.bind fun _ => (safe_pure _).keeps

/-- No record of a sequence that is read has a longer string than its length can say. -/
theorem readRecords_short (n : ℕ) (h : b.Wf) {rs : List StringRecord}
    (hread : (readRecords host n).exec b = (.ok rs, b')) : ∀ r ∈ rs, r.value.length < 65536 := by
  induction n generalizing b rs with
  | zero =>
      cases hread
      exact List.forall_mem_nil _
  | succ n ih =>
      obtain ⟨r, b₁, hr, hrest⟩ := exec_bind_eq_ok hread
      obtain ⟨rs', b₂, hrs, hdone⟩ := exec_bind_eq_ok hrest
      cases hdone
      exact List.forall_mem_cons.2 ⟨readRecord_short h hr, ih (keeps_readRecord.of_exec h hr) hrs⟩

/-! ### The records come back -/

/-- Written at the cursor and read from where they begin, the records come back.  The marker
behind each is read with it. -/
def RecordsReturn (host : Endian) (b : ByteArray) (rs : List StringRecord) : Prop :=
  ∃ b', (do
    writeRecords host rs
    setPosition b.getPosition
    readRecords host rs.length).exec b = (.ok rs, b')

/-- The length that `writeStringF16` stores at the cursor of `b` is that of the bytes behind it.
It is asked right behind the write. -/
def PrefixAgrees (host : Endian) (b : ByteArray) (value : List UInt8) : Prop :=
  (fieldOf host b.endian 2
    ((((writeStringF16 host value).exec b).2.bytes.drop b.getPosition).take 2)).toNat = value.length

/-- Records whose strings are all short enough come back. -/
theorem records_return (h : b.Wf) {rs : List StringRecord} (hrs : ∀ r ∈ rs, r.value.length < 65536) :
    RecordsReturn host b rs := by
  have htakes : Takes (readRecords host rs.length) b.endian _ rs := readRecords_takes hrs
  have hstores : Stores (writeRecords host rs) b.endian _ := writeRecords_stores rs
  obtain ⟨b₁, hwrite, href₁, he₁⟩ := hstores b (flat h) (refines_flat h) rfl
  generalize rs.flatMap (recordBytes host b.endian) = bytes at htakes href₁
  have hlen : b.position ≤ ((flat h).write bytes).size := by
    change b.position ≤ (splice b.bytes b.position bytes).length
    rw [length_splice_max h.position_le_length]
    exact h.position_le_length.trans (le_max_left ..)
  obtain ⟨b₂, hseek, href₂, he₂⟩ := setPosition_refines href₁ (href₁.size_eq.symm ▸ hlen)
  rw [Flat.setPosition, dif_pos hlen] at href₂
  obtain ⟨b₃, f₃, hread, -⟩ := htakes b₂ _ _ href₂ (he₂.trans he₁)
    (drop_splice bytes h.position_le_length)
  exact ⟨b₃, (Op.exec_bind_ok hwrite _).trans ((Op.exec_bind_ok hseek _).trans hread)⟩

/-- Records that come back have strings that are short enough, since they were read. -/
theorem RecordsReturn.short (h : b.Wf) {rs : List StringRecord} (hreturn : RecordsReturn host b rs) :
    ∀ r ∈ rs, r.value.length < 65536 := by
  obtain ⟨b', hexec⟩ := hreturn
  obtain ⟨_, b₁, hwrite, hrest⟩ := exec_bind_eq_ok hexec
  obtain ⟨_, b₂, hseek, hread⟩ := exec_bind_eq_ok hrest
  have hwrites : Safe (writeRecords host rs) := safe_of_stores fun e => ⟨_, writeRecords_stores rs⟩
  have hwf := (safe_setPosition _).keeps.of_exec (hwrites.keeps.of_exec h hwrite) hseek
  exact readRecords_short rs.length hwf hread

/-- The length that is stored is that of the string modulo `2 ^ 16`.  It agrees with the length
itself when this is below `2 ^ 16`. -/
theorem prefixAgrees_iff (h : b.Wf) (value : List UInt8) :
    PrefixAgrees host b value ↔ value.length < 65536 := by
  have hstores : Stores (writeStringF16 host value) b.endian _ := writeStringF16_stores value
  obtain ⟨b₁, hwrite, href, -⟩ := hstores b (flat h) (refines_flat h) rfl
  have hbytes : b₁.bytes.drop b.position = stringF16Bytes host b.endian value ++
      b.bytes.drop (b.position + (stringF16Bytes host b.endian value).length) := by
    rw [href.bytes_eq]
    exact drop_splice _ h.position_le_length
  have htake : (b₁.bytes.drop b.position).take 2 =
      fixedBytes host b.endian 2 (UInt16.ofNat value.length).toBitVec := by
    rw [hbytes, stringF16Bytes, List.append_assoc]
    exact List.take_left' (Endian.length_store ..)
  have hlength : (UInt16.ofNat value.length).toBitVec.toNat = value.length % 65536 :=
    UInt16.toNat_ofNat'
  rw [PrefixAgrees, hwrite, getPosition, htake, fieldOf, load_fixedBytes, hlength]
  omega

/-- **The records come back, and no length disagrees with its bytes**, exactly when every string
is shorter than `2 ^ 16`.  For every byte array that calls build, every machine and every
sequence of records.  `writeStringF16` (`src/hiper/base/bytearray.cc:207`) writes the size as 16
bits and then all of the string, and `readStringF16` (349) reads what the size says. -/
theorem records_return_iff (h : b.Built) (host : Endian) (rs : List StringRecord) :
    (RecordsReturn host b rs ∧ ∀ r ∈ rs, ∀ c : ByteArray, c.Built → PrefixAgrees host c r.value) ↔
      ∀ r ∈ rs, r.value.length < 65536 := by
  constructor
  · rintro ⟨hreturn, -⟩
    exact hreturn.short h.wf
  · intro hrs
    exact ⟨records_return h.wf hrs, fun r hr c hc => (prefixAgrees_iff hc.wf r.value).2 (hrs r hr)⟩

/-- Two records, one with an empty string, in blocks of three bytes.  Both come back with their
markers. -/
theorem records_return_two :
    (RecordsReturn .little (new (fun _ _ => 0) 3) [⟨[], 7⟩, ⟨[1, 2, 3, 4], 8⟩] ∧
      ∀ r ∈ [(⟨[], 7⟩ : StringRecord), ⟨[1, 2, 3, 4], 8⟩], ∀ c : ByteArray, c.Built →
        PrefixAgrees .little c r.value) :=
  (records_return_iff (built_after .little _ (by decide) []) .little _).2 (by decide)

/-- A string of `2 ^ 16` bytes is stored with the length 0.  The failing input: none of its
bytes is read as part of it. -/
theorem record_too_long :
    ¬PrefixAgrees .little (new (fun _ _ => 0) 4096) (List.replicate 65536 1) ∧
      ¬RecordsReturn .little (new (fun _ _ => 0) 4096) [⟨List.replicate 65536 1, 7⟩] := by
  have hwf := new_wf (fun _ _ => 0) (by decide : 1 ≤ 4096)
  have hlong : ¬(List.replicate 65536 (1 : UInt8)).length < 65536 := by
    rw [List.length_replicate]
    decide
  exact ⟨fun h => hlong ((prefixAgrees_iff hwf _).1 h),
    fun h => hlong (h.short hwf _ (List.mem_singleton_self _))⟩

end Hiper.ByteArray

import Hiper.ByteArray.Calls
import Hiper.Lib.Base128

/-!
# Fields of variable width, as numbers

What the loops of `writeUint32`, `writeUint64`, `readUint32` and `readUint64` do to
numbers.  A write emits the groups of the number, whatever its width (`groups_eq_encode`);
a read takes the groups in front of it, five or ten bytes at most, and returns their value
modulo the width (`ungroup_eq`).  So encodings are canonical (`varint_canonical`), and a
read is exact unless the last group it looks at has a bit too many (`varint_exact_iff`).

The loops are `bytearray.cc:163-191` and `bytearray.cc:296-331`.  A number of 32 bits needs
five groups and the fifth has four bits of it, one of 64 bits ten groups of which the last
has one; a byte array may hold any five or ten bytes there, and what a read makes of those
that no write makes is `varint_exact_iff`.  The arrays `tmp[5]` and `tmp[10]` of the writes
are never overrun, since an encoding has no more bytes than they do (`length_groups_le`).
-/

namespace Hiper.ByteArray

open Lib

variable {w : ℕ} {b b' : ByteArray} {e : Endian}

/-! ### The groups that are written -/

/-- The seven low bits of a value are the remainder by 128. -/
theorem toNat_and_mask (hw : 8 ≤ w) (v : BitVec w) : (v &&& 0x7f#w).toNat = v.toNat % 128 := by
  have hpow : 2 ^ 8 ≤ 2 ^ w := Nat.pow_le_pow_right (by decide) hw
  have hmask : (0x7f#w).toNat = 2 ^ 7 - 1 := by
    rw [BitVec.toNat_ofNat, Nat.mod_eq_of_lt (by omega)]
    rfl
  rw [BitVec.toNat_and, hmask, Nat.and_two_pow_sub_one_eq_mod]

/-- The byte of a group that others follow.  As a number it is the remainder by 128 with 128
added. -/
theorem group_eq (hw : 8 ≤ w) (v : BitVec w) :
    UInt8.ofBitVec (((v &&& 0x7f#w) ||| 0x80#w).setWidth 8) = UInt8.ofNat (v.toNat % 128 + 128) := by
  have hpow : 2 ^ 8 ≤ 2 ^ w := Nat.pow_le_pow_right (by decide) hw
  have hflag : (0x80#w).toNat = 2 ^ 7 * 1 := by
    rw [BitVec.toNat_ofNat, Nat.mod_eq_of_lt (by omega)]
    rfl
  have hlow : v.toNat % 128 < 2 ^ 7 := Nat.mod_lt _ (by decide)
  have hor : ((v &&& 0x7f#w) ||| 0x80#w).toNat = v.toNat % 128 + 128 := by
    rw [BitVec.toNat_or, toNat_and_mask hw, hflag, Nat.or_comm, ← Nat.two_pow_add_eq_or_of_lt hlow]
    omega
  rw [← UInt8.toNat_inj, UInt8.toNat_ofBitVec, BitVec.toNat_setWidth, hor, UInt8.toNat_ofNat']

/-- **The loop of the writes emits the groups of the number.**  With rounds enough for the
value.  The induction is over them. -/
theorem groups_eq_encode (hw : 8 ≤ w) (rounds : ℕ) (v : BitVec w)
    (hrounds : v.toNat < 128 ^ (rounds + 1)) : groups rounds v = Base128.encode v.toNat := by
  have hlast : ∀ v : BitVec w, v.toNat < 128 →
      [UInt8.ofBitVec (v.setWidth 8)] = Base128.encode v.toNat := by
    intro v hv
    rw [Base128.encode_of_lt hv, ← BitVec.ofNat_toNat]
    rfl
  induction rounds generalizing v with
  | zero => exact hlast v hrounds
  | succ rounds ih =>
      have hshift : (v >>> 7).toNat = v.toNat / 128 := by
        rw [BitVec.toNat_ushiftRight, Nat.shiftRight_eq_div_pow]
      rw [groups]
      split_ifs with hmore
      · have hrest : (v >>> 7).toNat < 128 ^ (rounds + 1) := by
          rw [hshift, Nat.div_lt_iff_lt_mul (by decide), ← pow_succ]
          exact hrounds
        rw [Base128.encode_of_ge hmore, group_eq hw, ih _ hrest, hshift]
      · exact hlast v (not_le.1 hmore)

/-- With as many rounds as the width has bits, the loop emits all groups. -/
theorem groups_all (hw : 8 ≤ w) (v : BitVec w) : groups w v = Base128.encode v.toNat := by
  refine groups_eq_encode hw w v (v.isLt.trans_le ?_)
  calc 2 ^ w ≤ 128 ^ w := Nat.pow_le_pow_left (by decide) w
    _ ≤ 128 ^ (w + 1) := Nat.pow_le_pow_right (by decide) (Nat.le_succ w)

/-- The groups of a value are as many as its bits, over seven, rounded up.  For every width of
at least eight bits. -/
theorem length_groups (hw : 8 ≤ w) (v : BitVec w) :
    (groups w v).length = max 1 ((v.toNat.size + 6) / 7) := by
  rw [groups_all hw, Base128.length_encode]

/-- An encoding is no longer than the width needs, so that the array of the write holds it. -/
theorem length_groups_le (hw : 8 ≤ w) (v : BitVec w) : (groups w v).length ≤ (w + 6) / 7 := by
  have hsize : v.toNat.size ≤ w := Nat.size_le.2 v.isLt
  rw [length_groups hw]
  omega

/-- A value below `2 ^ 32` has the same groups in both widths.  They are those of its number. -/
theorem groups_toUInt64 (v : UInt32) : groups 64 v.toUInt64.toBitVec = groups 32 v.toBitVec := by
  rw [groups_all (by decide), groups_all (by decide)]
  rfl

/-- Zigzag numbers of small values have few groups.  With `k` groups there are `7 * k` bits for
the number, one of which is the sign. -/
theorem length_groups_zigzag (hw : 8 ≤ w) (v : BitVec w) {k : ℕ} (hk : 1 ≤ k)
    (hv : |v.toInt| ≤ 2 ^ (7 * k - 1) - 1) : (groups w (zigzag v)).length ≤ k := by
  have hzigzag := toNat_zigzag v
  have hpow : (2 : ℤ) ^ (7 * k) = 2 * 2 ^ (7 * k - 1) := by
    rw [← pow_succ', Nat.sub_add_cancel (by omega)]
  have hlt : ((zigzag v).toNat : ℤ) < 2 ^ (7 * k) := by
    obtain ⟨hlow, hhigh⟩ := abs_le.1 hv
    split_ifs at hzigzag <;> omega
  rw [groups_all hw, Base128.length_encode_le_iff hk, show 128 = 2 ^ 7 from rfl, ← pow_mul]
  exact_mod_cast hlt

/-! ### Canonical encodings -/

/-- Both widths emit the same bytes for `v`, and both read it back from them.  So a field may be
written by one width and read by the other. -/
def WidthIndependent (v : UInt32) : Prop :=
  writeUint32 v = writeUint64 v.toUInt64 ∧
    ∃ bytes, ∀ e, Stores (writeUint32 v) e bytes ∧ Stores (writeUint64 v.toUInt64) e bytes ∧
      Takes readUint32 e bytes v ∧ Takes readUint64 e bytes v.toUInt64

/-- Every value of 32 bits is encoded and read back alike in both widths. -/
theorem widthIndependent (v : UInt32) : WidthIndependent v := by
  have hsame : writeUint32 v = writeUint64 v.toUInt64 := by
    rw [writeUint32, writeUint64, groups_toUInt64]
  have htakes := fun e => readUint64_takes (e := e) v.toUInt64
  refine ⟨hsame, groups 32 v.toBitVec, fun e => ⟨write_stores _, ?_, readUint32_takes v, ?_⟩⟩
  · rw [← hsame]
    exact write_stores _
  · rw [← groups_toUInt64]
    exact htakes e

/-- Every number of 32 bits is the zigzag number of the value that it decodes to. -/
theorem encodeZigzag32_decodeZigzag32 (u : UInt32) : encodeZigzag32 (decodeZigzag32 u) = u := by
  rw [encodeZigzag32, decodeZigzag32, Int32.toBitVec_ofBitVec, zigzag_unzigzag,
    UInt32.ofBitVec_toBitVec]

/-- Every number of 64 bits is the zigzag number of the value that it decodes to. -/
theorem encodeZigzag64_decodeZigzag64 (u : UInt64) : encodeZigzag64 (decodeZigzag64 u) = u := by
  rw [encodeZigzag64, decodeZigzag64, Int64.toBitVec_ofBitVec, zigzag_unzigzag,
    UInt64.ofBitVec_toBitVec]

/-- `encode` is a bijection with the inverse `decode`, and sends a value of magnitude at most
`2 ^ (7 * k - 1) - 1` to a number of at most `k` groups.  It is what zigzag is for. -/
structure Folds {α β : Type} (encode : α → β) (decode : β → α) (toInt : α → ℤ)
    (length : β → ℕ) : Prop where
  bijective : Function.Bijective encode
  decode_encode : ∀ v, decode (encode v) = v
  encode_decode : ∀ u, encode (decode u) = u
  length_le : ∀ k v, 1 ≤ k → |toInt v| ≤ 2 ^ (7 * k - 1) - 1 → length (encode v) ≤ k

/-- Zigzag numbers of 32 bits are a bijection that keeps small values short. -/
theorem encodeZigzag32_folds :
    Folds encodeZigzag32 decodeZigzag32 Int32.toInt fun u => (groups 32 u.toBitVec).length where
  bijective := Function.bijective_iff_has_inverse.2
    ⟨decodeZigzag32, decodeZigzag32_encodeZigzag32, encodeZigzag32_decodeZigzag32⟩
  decode_encode := decodeZigzag32_encodeZigzag32
  encode_decode := encodeZigzag32_decodeZigzag32
  length_le _ v hk hv := length_groups_zigzag (by decide) v.toBitVec hk hv

/-- Zigzag numbers of 64 bits are a bijection that keeps small values short. -/
theorem encodeZigzag64_folds :
    Folds encodeZigzag64 decodeZigzag64 Int64.toInt fun u => (groups 64 u.toBitVec).length where
  bijective := Function.bijective_iff_has_inverse.2
    ⟨decodeZigzag64, decodeZigzag64_encodeZigzag64, encodeZigzag64_decodeZigzag64⟩
  decode_encode := decodeZigzag64_encodeZigzag64
  encode_decode := encodeZigzag64_decodeZigzag64
  length_le _ v hk hv := length_groups_zigzag (by decide) v.toBitVec hk hv

/-- **Encodings are canonical.**  A value below `2 ^ 32` has one encoding in both widths; an
encoding is as long as the value needs, so `tmp[5]` and `tmp[10]` hold it; and the zigzag
numbers are a bijection that keeps small values short.  Every value is meant, of both widths.
The encoders are `src/hiper/base/bytearray.cc:126-191`, and what is shown of their lengths is
what the arrays on the stack in `writeUint32` and `writeUint64` rest on. -/
theorem varint_canonical :
    (∀ v : UInt32, WidthIndependent v) ∧
      (∀ v : UInt64, (groups 64 v.toBitVec).length = max 1 ((v.toNat.size + 6) / 7)) ∧
      (∀ v : UInt32, (groups 32 v.toBitVec).length = max 1 ((v.toNat.size + 6) / 7)) ∧
      (∀ v : UInt64, (groups 64 v.toBitVec).length ≤ 10) ∧
      (∀ v : UInt32, (groups 32 v.toBitVec).length ≤ 5) ∧
      (Folds encodeZigzag32 decodeZigzag32 Int32.toInt fun u => (groups 32 u.toBitVec).length) ∧
      Folds encodeZigzag64 decodeZigzag64 Int64.toInt fun u => (groups 64 u.toBitVec).length :=
  ⟨widthIndependent, fun v => length_groups (by decide) v.toBitVec,
    fun v => length_groups (by decide) v.toBitVec, fun v => length_groups_le (by decide) v.toBitVec,
    fun v => length_groups_le (by decide) v.toBitVec, encodeZigzag32_folds, encodeZigzag64_folds⟩

/-! ### The groups that are read -/

/-- The bits a round collects: a group in its place, on top of those below it.  The or of the
loop is a sum, since the bits below are all that is collected so far. -/
theorem collect_eq (hw : 8 ≤ w) {i : ℕ} {result : BitVec w} (hresult : result.toNat < 2 ^ i)
    (x : BitVec 8) (rest : ℕ) :
    (result ||| (x.setWidth w <<< i)).toNat = (result.toNat + 2 ^ i * x.toNat) % 2 ^ w ∧
      BitVec.ofNat w ((result ||| (x.setWidth w <<< i)).toNat + 2 ^ (i + 7) * rest) =
        BitVec.ofNat w (result.toNat + 2 ^ i * (x.toNat + 128 * rest)) := by
  have hx : (x.setWidth w).toNat = x.toNat := by
    rw [BitVec.toNat_setWidth, Nat.mod_eq_of_lt]
    exact x.isLt.trans_le (Nat.pow_le_pow_right (by decide) hw)
  have hor : (result ||| (x.setWidth w <<< i)).toNat = (result.toNat + 2 ^ i * x.toNat) % 2 ^ w := by
    rw [Base128.toNat_or_shiftLeft hresult, hx]
  refine ⟨hor, BitVec.eq_of_toNat_eq ?_⟩
  rw [BitVec.toNat_ofNat, BitVec.toNat_ofNat, hor, Nat.mod_add_mod, pow_add]
  congr 1
  ring

/-- **The loop of the reads**: from bit `i` on, with the bits below collected, it takes the
groups in front of it, and their value is added in its place.  The induction is over the rounds;
the bytes are those of `Base128.extent`. -/
theorem ungroup_eq (hw : 8 ≤ w) (rounds i : ℕ) {result : BitVec w} (hresult : result.toNat < 2 ^ i)
    (hrounds : w ≤ i + 7 * rounds) (data : List UInt8) :
    ungroup rounds i result data = (Base128.extent ((w - i + 6) / 7) data).map fun n =>
      (BitVec.ofNat w (result.toNat + 2 ^ i * Base128.value (data.take n)), n) := by
  have hdone : ∀ i, w ≤ i → ∀ (result : BitVec w) (data : List UInt8), some (result, 0) =
      (Base128.extent ((w - i + 6) / 7) data).map fun n =>
        (BitVec.ofNat w (result.toNat + 2 ^ i * Base128.value (data.take n)), n) := by
    intro i hi result data
    rw [show (w - i + 6) / 7 = 0 by omega]
    simp [Base128.extent]
  induction rounds generalizing i result data with
  | zero => exact hdone i (by omega) result data
  | succ rounds ih =>
      unfold ungroup
      split_ifs with hi
      · obtain ⟨k, hk⟩ : ∃ k, (w - i + 6) / 7 = k + 1 := ⟨(w - i - 1) / 7, by omega⟩
        have hk' : (w - (i + 7) + 6) / 7 = k := by omega
        rw [hk]
        cases data with
        | nil => rfl
        | cons c rest =>
            simp only [Base128.extent]
            split_ifs with hlast
            · have hc : c.toNat % 128 = c.toBitVec.toNat := Nat.mod_eq_of_lt hlast
              have hbits := (collect_eq hw hresult c.toBitVec 0).2
              simp only [Nat.mul_zero, Nat.add_zero, BitVec.ofNat_toNat, BitVec.setWidth_eq] at hbits
              simp [hc, hbits]
            · have hmask : (c.toBitVec &&& 0x7f#8).toNat = c.toNat % 128 :=
                toNat_and_mask le_rfl c.toBitVec
              have hsmall : c.toNat % 128 < 128 := Nat.mod_lt _ (by decide)
              have hcollect := fun x => collect_eq hw hresult (c.toBitVec &&& 0x7f#8) x
              rw [hmask] at hcollect
              have hresult' : (result ||| ((c.toBitVec &&& 0x7f#8).setWidth w <<< i)).toNat <
                  2 ^ (i + 7) := by
                rw [(hcollect 0).1, pow_add]
                have hle := Nat.mul_le_mul_left (2 ^ i) (Nat.le_of_lt_succ hsmall)
                exact (Nat.mod_le ..).trans_lt (by omega)
              rw [ih (i + 7) hresult' (by omega), hk', Option.map_map, Option.map_map]
              congr 1
              funext n
              simp only [Function.comp_apply, (hcollect _).2, List.take_succ_cons, Base128.value_cons]
      · exact hdone i (not_lt.1 hi) result data

/-- **The loop reads** the groups in front of it and their value, as far as the width goes.  The
cursor moves over them. -/
theorem readGroups_some (h : b.Wf) (hw : 8 ≤ w) {n : ℕ}
    (hextent : Base128.extent ((w + 6) / 7) (b.bytes.drop b.position) = some n) :
    (readGroups w 0 0#w).exec b =
      (.ok (BitVec.ofNat w (Base128.value ((b.bytes.drop b.position).take n))), b.advance n) := by
  have hungroup := ungroup_eq hw w 0 (show (0#w).toNat < 2 ^ 0 by simp) (by omega)
    (b.bytes.drop b.position)
  rw [Nat.sub_zero, hextent, Option.map_some] at hungroup
  simp only [BitVec.toNat_ofNat, Nat.zero_mod, pow_zero, Nat.one_mul, Nat.zero_add] at hungroup
  exact (readGroups_exec h w 0 0#w).1 _ _ hungroup

/-- Without an end to the groups in the data, and fewer bytes than the loop looks at, the read
throws. -/
theorem readGroups_none (h : b.Wf) (hw : 8 ≤ w)
    (hextent : Base128.extent ((w + 6) / 7) (b.bytes.drop b.position) = none) :
    ((readGroups w 0 0#w).exec b).1 = .error (.outOfRange "not enough len") := by
  have hungroup := ungroup_eq hw w 0 (show (0#w).toNat < 2 ^ 0 by simp) (by omega)
    (b.bytes.drop b.position)
  rw [Nat.sub_zero, hextent, Option.map_none] at hungroup
  exact (readGroups_exec h w 0 0#w).2 hungroup

/-! ### Exact reads -/

/-- The read that left `b'` took bytes of which all but the last say that another follows, and
`v` is their value.  The groups it took are ended, and no bit of them is lost. -/
def ExactRead (b b' : ByteArray) (v : ℕ) : Prop :=
  Base128.Ended ((b.bytes.drop b.position).take (b'.position - b.position)) ∧
    v = Base128.value ((b.bytes.drop b.position).take (b'.position - b.position))

/-- A read of any width is exact when it returns, unless the bytes at the cursor are too wide
for it. -/
theorem exactRead_iff (h : b.Wf) (hw : 8 ≤ w) (k bits : ℕ) (hwidth : w = 7 * k + bits)
    (hpos : 1 ≤ bits) (hbits : bits ≤ 7) :
    (∀ v b', (readGroups w 0 0#w).exec b = (.ok v, b') → ExactRead b b' v.toNat) ↔
      ¬Base128.TooWide k (2 ^ bits) (b.bytes.drop b.position) := by
  have hrounds : (w + 6) / 7 = k + 1 := by omega
  cases hextent : Base128.extent ((w + 6) / 7) (b.bytes.drop b.position) with
  | none =>
      have hthrows := readGroups_none h hw hextent
      rw [hrounds] at hextent
      refine iff_of_true (fun v b' hexec => ?_) ?_
      · rw [hexec] at hthrows
        cases hthrows
      · rintro ⟨-, last, hlast, -⟩
        obtain ⟨hk, -⟩ := List.getElem?_eq_some_iff.1 hlast
        have hshort := (Base128.extent_eq_none_iff.1 hextent).1
        omega
  | some n =>
      have hexec := readGroups_some h hw hextent
      rw [hrounds] at hextent
      rw [← Base128.fits_iff hbits hextent, ← hwidth]
      have hmoved : (b.advance n).position - b.position = n := Nat.add_sub_cancel_left ..
      constructor
      · intro hexact
        obtain ⟨hended, hvalue⟩ := hexact _ _ hexec
        rw [hmoved] at hended hvalue
        refine ⟨hended, ?_⟩
        rw [← hvalue]
        exact (BitVec.ofNat w _).isLt
      · rintro ⟨hended, hlt⟩ v b' hv
        rw [hexec] at hv
        cases hv
        rw [ExactRead, hmoved, BitVec.toNat_ofNat, Nat.mod_eq_of_lt hlt]
        exact ⟨hended, rfl⟩

/-- What a read of `g v` leaves is what the read of `v` leaves.  The cast at the end of a read
does not touch the byte array. -/
theorem forall_exec_map {α β : Type} {x : Op β} (g : β → α) {P : α → ByteArray → Prop} :
    (∀ v b', (do let v ← x; pure (g v)).exec b = (.ok v, b') → P v b') ↔
      ∀ v b', x.exec b = (.ok v, b') → P (g v) b' := by
  constructor
  · intro hmap v b' hread
    exact hmap (g v) b' (Op.exec_bind_ok hread _)
  · intro hread v b' hmap
    obtain ⟨v', b₁, hexec, hdone⟩ := exec_bind_eq_ok hmap
    cases hdone
    exact hread v' b' hexec

/-- A read of 32 bits: four groups and four bits. -/
theorem readUint32_exact (h : b.Wf) :
    (∀ v b', readUint32.exec b = (.ok v, b') → ExactRead b b' v.toNat) ↔
      ¬Base128.TooWide 4 16 (b.bytes.drop b.position) :=
  (forall_exec_map UInt32.ofBitVec).trans
    (exactRead_iff h (w := 32) (by decide) 4 4 rfl (by decide) (by decide))

/-- A read of 64 bits: nine groups and one bit. -/
theorem readUint64_exact (h : b.Wf) :
    (∀ v b', readUint64.exec b = (.ok v, b') → ExactRead b b' v.toNat) ↔
      ¬Base128.TooWide 9 2 (b.bytes.drop b.position) :=
  (forall_exec_map UInt64.ofBitVec).trans
    (exactRead_iff h (w := 64) (by decide) 9 1 rfl (by decide) (by decide))

/-- **A read is exact or throws**, unless the last group it looks at has a bit too many: the
fifth byte is 16 or more behind four that say another follows, or the tenth 2 or more behind
nine.  The condition is on the bytes at the cursor, of whatever origin.  The loops are
`readUint32` (`src/hiper/base/bytearray.cc:296-310`) and `readUint64` (317): they stop after
five and ten bytes whatever these say, and shift what does not fit out of the value. -/
theorem varint_exact_iff (h : b.Built) :
    ((∀ v b', readUint32.exec b = (.ok v, b') → ExactRead b b' v.toNat) ↔
        ¬Base128.TooWide 4 16 (b.bytes.drop b.position)) ∧
      ((∀ v b', readUint64.exec b = (.ok v, b') → ExactRead b b' v.toNat) ↔
        ¬Base128.TooWide 9 2 (b.bytes.drop b.position)) :=
  ⟨readUint32_exact h.wf, readUint64_exact h.wf⟩

/-- Five bytes that end where they may.  All 32 bits are set, and the last group is 15. -/
theorem varint_exact_five :
    ∃ b', readUint32.exec (after .little [.write [255, 255, 255, 255, 15], .setPosition 0]
      (new (fun _ _ => 0) 2)) = (.ok 4294967295, b') ∧ ExactRead (after .little
        [.write [255, 255, 255, 255, 15], .setPosition 0] (new (fun _ _ => 0) 2)) b' 4294967295 := by
  obtain ⟨b, hb⟩ : ∃ b, after .little [.write [255, 255, 255, 255, 15], .setPosition 0]
      (new (fun _ _ => 0) 2) = b := ⟨_, rfl⟩
  have hbuilt : b.Built := hb ▸ built_after .little _ (by decide) _
  have hread : (readUint32.exec b).1 = .ok 4294967295 := hb ▸ (by decide +kernel)
  have hbytes : (b.bytes.drop b.position)[4]? = some 15 := hb ▸ (by decide +kernel)
  rw [hb]
  refine ⟨_, Prod.ext hread rfl, (varint_exact_iff hbuilt).1.2 ?_ _ _ (Prod.ext hread rfl)⟩
  rintro ⟨-, last, hlast, hwide⟩
  cases hbytes.symm.trans hlast
  revert hwide
  decide

/-- Five bytes that do not end: `readUint32` returns all ones.  The failing input: the read
looks at no sixth byte. -/
theorem varint_unended :
    ¬∀ v b', readUint32.exec (after .little [.write [255, 255, 255, 255, 255], .setPosition 0]
      (new (fun _ _ => 0) 2)) = (.ok v, b') → ExactRead (after .little
        [.write [255, 255, 255, 255, 255], .setPosition 0] (new (fun _ _ => 0) 2)) b' v.toNat := by
  rw [readUint32_exact (built_after .little _ (by decide) _).wf, not_not]
  exact ⟨by decide +kernel, 255, by decide +kernel, by decide⟩

end Hiper.ByteArray

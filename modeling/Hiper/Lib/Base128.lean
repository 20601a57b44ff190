import Mathlib.Data.Nat.Digits.Defs
import Mathlib.Data.Nat.Size

/-!
# Numbers in groups of seven bits

A byte carries seven bits of a number, low groups first, and its high bit says that
another byte follows.  `encode` writes a number so, `value` reads the number of any
bytes, `Ended` says that bytes are one whole group sequence, and `extent` finds where the
first of at most `k` bytes without the high bit ends it.

The numbers of the groups and their lengths are counted against powers of 128
(`length_encode_le_iff`), which gives the length of a number in bits over seven, rounded up
(`length_encode`). A reader that looks at `k + 1` bytes at most and collects the groups in
`7 * k + bits` bits has to ask for two things, that the groups are ended and that the last
of them is no larger than the bits that are left: `fits_iff` says that it is wrong exactly
on the bytes that are `TooWide`, and `toNat_or_shiftLeft` is the step of the loop that
collects them in a machine word.
-/

namespace Hiper.Lib.Base128

/-- The number the groups make, whatever their high bits say. The first byte holds the lowest
seven bits; the high bit of a byte is taken off before it is counted, so that ended and unended
groups have a number alike. -/
def value (bs : List UInt8) : ℕ := Nat.ofDigits 128 (bs.map fun b => b.toNat % 128)

/-- All bytes but the last say that another follows, and the last does not. No empty list is
ended, since it has no last byte. -/
def Ended (bs : List UInt8) : Prop :=
  ∃ pre last, bs = pre ++ [last] ∧ (∀ b ∈ pre, 0x80 ≤ b) ∧ last < 0x80

/-- The groups of a number. The low seven bits come first with the high bit set, as long as
there are bits left above them, and the last group stands without it; zero is one byte. -/
def encode (n : ℕ) : List UInt8 :=
  if n < 128 then [UInt8.ofNat n] else UInt8.ofNat (n % 128 + 128) :: encode (n / 128)
termination_by n

/-- The first `k` bytes all say that another follows, and the next one is `bound` or more. It is
the one way in which groups of no more than `k + 1` bytes can hold more than the width they are
read into. -/
def TooWide (k bound : ℕ) (bs : List UInt8) : Prop :=
  (∀ b ∈ bs.take k, 0x80 ≤ b) ∧ ∃ last, bs[k]? = some last ∧ bound ≤ last.toNat

/-- How many of the bytes, `k` at most, make up the groups at the front; nothing when the bytes
end before. A reader that stops after `k` bytes takes all of them, which is how a group sequence
without an end is cut off. -/
def extent : ℕ → List UInt8 → Option ℕ
  | 0, _ => some 0
  | _ + 1, [] => none
  | k + 1, b :: bs => if b < 0x80 then some 1 else (extent k bs).map (· + 1)

/-! ### The value -/

@[simp]
theorem value_nil : value [] = 0 := rfl

/-- The first byte has the lowest seven bits, and the groups behind it count 128 times as much. -/
@[simp]
theorem value_cons (b : UInt8) (bs : List UInt8) :
    value (b :: bs) = b.toNat % 128 + 128 * value bs := by
  simp [value, Nat.ofDigits_cons]

/-! ### The groups of a number -/

/-- A number below 128 is one byte, without the bit that says another follows. -/
theorem encode_of_lt {n : ℕ} (h : n < 128) : encode n = [UInt8.ofNat n] := by
  rw [encode, if_pos h]

/-- From 128 on the lowest group is written with the high bit set, and the rest of the number
behind it. -/
theorem encode_of_ge {n : ℕ} (h : 128 ≤ n) :
    encode n = UInt8.ofNat (n % 128 + 128) :: encode (n / 128) := by
  rw [encode, if_neg (not_lt.2 h)]

/-- What is written ends in the one byte that does not say another follows, so that a reader
knows where to stop. -/
theorem encode_ended (n : ℕ) : Ended (encode n) := by
  induction n using Nat.strongRecOn with
  | ind n ih =>
      rcases Nat.lt_or_ge n 128 with hlt | hge
      · rw [encode_of_lt hlt]
        refine ⟨[], UInt8.ofNat n, rfl, nofun, ?_⟩
        rw [UInt8.lt_iff_toNat_lt, UInt8.toNat_ofNat']
        exact lt_of_le_of_lt (Nat.mod_le ..) hlt
      · rw [encode_of_ge hge]
        obtain ⟨pre, last, heq, hpre, hlast⟩ := ih (n / 128) (by omega)
        refine ⟨UInt8.ofNat (n % 128 + 128) :: pre, last, by rw [heq]; rfl, ?_, hlast⟩
        refine List.forall_mem_cons.2 ⟨?_, hpre⟩
        rw [UInt8.le_iff_toNat_le, UInt8.toNat_ofNat', Nat.mod_eq_of_lt (by omega)]
        exact Nat.le_add_left ..

/-- So many groups hold what is below so large a power of 128. The induction is on `k`, one
group for one factor of 128. -/
theorem length_encode_le_iff {n k : ℕ} (hk : 1 ≤ k) :
    (encode n).length ≤ k ↔ n < 128 ^ k := by
  induction k, hk using Nat.le_induction generalizing n with
  | base =>
      rcases Nat.lt_or_ge n 128 with hlt | hge
      · simp [encode_of_lt hlt, hlt]
      · obtain ⟨pre, last, heq, -⟩ := encode_ended (n / 128)
        simp [encode_of_ge hge, heq, hge]
  | succ k hk ih =>
      rcases Nat.lt_or_ge n 128 with hlt | hge
      · have hpow : 128 ^ 1 ≤ 128 ^ (k + 1) := Nat.pow_le_pow_right (by decide) (by omega)
        rw [encode_of_lt hlt, List.length_singleton]
        omega
      · rw [encode_of_ge hge, List.length_cons, Nat.add_le_add_iff_right, ih, pow_succ,
          Nat.div_lt_iff_lt_mul (by decide)]

/-- **The length of the groups** is that of the number in bits, over seven, rounded up. Zero has
no bits and takes one byte all the same. -/
theorem length_encode (n : ℕ) : (encode n).length = max 1 ((n.size + 6) / 7) := by
  have hle : ∀ k, 1 ≤ k → ((encode n).length ≤ k ↔ n.size ≤ 7 * k) := by
    intro k hk
    rw [length_encode_le_iff hk, Nat.size_le, pow_mul]
    rfl
  have hpos : 1 ≤ (encode n).length := by
    obtain ⟨pre, last, heq, -⟩ := encode_ended n
    simp [heq]
  have hself := (hle _ hpos).1 le_rfl
  have hmax := (hle (max 1 ((n.size + 6) / 7)) (le_max_left ..)).2 (by omega)
  omega

/-! ### Where groups end -/

/-- The groups found are no more than were looked at, and no more than there are. -/
theorem extent_le {k n : ℕ} {bs : List UInt8} (h : extent k bs = some n) :
    n ≤ k ∧ n ≤ bs.length := by
  induction k, bs using extent.induct generalizing n with
  | case1 bs =>
      cases h
      exact ⟨le_rfl, Nat.zero_le _⟩
  | case2 k => cases h
  | case3 k b bs hlast =>
      rw [extent, if_pos hlast] at h
      cases h
      simp
  | case4 k b bs hmore ih =>
      rw [extent, if_neg hmore] at h
      obtain ⟨m, hm, rfl⟩ := Option.map_eq_some_iff.1 h
      have hle := ih hm
      rw [List.length_cons]
      omega

/-- The bytes end too soon when they are fewer than `extent` looks at and all say that
another follows. -/
theorem extent_eq_none_iff {k : ℕ} {bs : List UInt8} :
    extent k bs = none ↔ bs.length < k ∧ ∀ b ∈ bs, 0x80 ≤ b := by
  induction k, bs using extent.induct with
  | case1 bs => simp [extent]
  | case2 k => simp [extent]
  | case3 k b bs hlast => simp [extent, hlast, UInt8.not_le.2 hlast]
  | case4 k b bs hmore ih => simp [extent, hmore, ih, UInt8.not_lt.1 hmore]

/-- One byte alone is ended when its high bit is off. -/
theorem ended_singleton (b : UInt8) : Ended [b] ↔ b < 0x80 := by
  constructor
  · rintro ⟨pre, last, heq, -, hlast⟩
    rcases List.singleton_eq_append_iff.1 heq with ⟨rfl, h⟩ | ⟨-, h⟩
    · cases h
      exact hlast
    · cases h
  · exact fun h => ⟨[], b, rfl, nofun, h⟩

/-- A byte that says another follows does not end the groups. What is behind it decides, which
is how a reader goes on. -/
theorem ended_cons {b : UInt8} (hb : 0x80 ≤ b) (bs : List UInt8) : Ended (b :: bs) ↔ Ended bs := by
  constructor
  · rintro ⟨pre, last, heq, hpre, hlast⟩
    rcases List.cons_eq_append_iff.1 heq with ⟨rfl, h⟩ | ⟨pre', rfl, rfl⟩
    · cases h
      exact absurd hlast (UInt8.not_lt.2 hb)
    · exact ⟨pre', last, rfl, (List.forall_mem_cons.1 hpre).2, hlast⟩
  · rintro ⟨pre, last, rfl, hpre, hlast⟩
    exact ⟨b :: pre, last, rfl, List.forall_mem_cons.2 ⟨hb, hpre⟩, hlast⟩

/-- **What is found fits** in `7 * k + bits` bits and is ended, unless it is too wide. The
induction is on `k`: each byte that says another follows leaves seven bits less for the rest,
and only the byte after `k` of them can have more bits than are left. -/
theorem fits_iff {k bits n : ℕ} (hbits : bits ≤ 7) {bs : List UInt8}
    (h : extent (k + 1) bs = some n) :
    Ended (bs.take n) ∧ value (bs.take n) < 2 ^ (7 * k + bits) ↔ ¬TooWide k (2 ^ bits) bs := by
  have hpow : 2 ^ bits ≤ 128 := Nat.pow_le_pow_right (by decide : 0 < 2) hbits
  induction k generalizing bs n with
  | zero =>
      cases bs with
      | nil => cases h
      | cons b bs =>
          obtain rfl : n = 1 := by
            simp only [extent] at h
            split_ifs at h <;> simpa using h.symm
          have hend : b < 0x80 ↔ b.toNat < 128 := UInt8.lt_iff_toNat_lt
          simp only [List.take_succ_cons, List.take_zero, ended_singleton, value_cons, value_nil, hend,
            TooWide]
          simp
          omega
  | succ k ih =>
      cases bs with
      | nil => cases h
      | cons b bs =>
          rw [extent] at h
          split_ifs at h with hlast
          · obtain rfl : n = 1 := by simpa using h.symm
            have hsmall : 128 ≤ 2 ^ (7 * (k + 1) + bits) :=
              Nat.pow_le_pow_right (n := 2) (i := 7) (by decide) (by omega)
            have hlt := Nat.mod_lt b.toNat (by decide : 128 > 0)
            refine iff_of_true ⟨(ended_singleton b).2 hlast, ?_⟩ fun hwide => ?_
            · simp only [List.take_succ_cons, List.take_zero, value_cons, value_nil]
              omega
            · exact UInt8.not_lt.2 (hwide.1 b (List.mem_cons_self ..)) hlast
          · obtain ⟨m, hm, rfl⟩ := Option.map_eq_some_iff.1 h
            have hb := UInt8.not_lt.1 hlast
            have hwide : TooWide (k + 1) (2 ^ bits) (b :: bs) ↔ TooWide k (2 ^ bits) bs := by
              simp [TooWide, hb]
            have hsplit : 2 ^ (7 * (k + 1) + bits) = 128 * 2 ^ (7 * k + bits) := by
              rw [show 7 * (k + 1) + bits = 7 + (7 * k + bits) by omega, pow_add]
              rfl
            have hlt := Nat.mod_lt b.toNat (by decide : 128 > 0)
            rw [hwide, List.take_succ_cons, ended_cons hb, value_cons, hsplit]
            refine (and_congr_right fun _ => ?_).trans (ih hm)
            omega

/-! ### Collected by shifting -/

/-- Bits put above those collected add their value to the value of those, as far as the width
goes. The bits of `r` are all below `i`, so that the two do not meet and the or of them is their
sum. -/
theorem toNat_or_shiftLeft {w i : ℕ} {r : BitVec w} (hr : r.toNat < 2 ^ i) {x : BitVec w} :
    (r ||| x <<< i).toNat = (r.toNat + 2 ^ i * x.toNat) % 2 ^ w := by
  rw [BitVec.toNat_or, BitVec.toNat_shiftLeft, Nat.shiftLeft_eq]
  rcases Nat.lt_or_ge i w with hi | hi
  · have hsplit : 2 ^ w = 2 ^ i * 2 ^ (w - i) := by rw [← pow_add, Nat.add_sub_cancel' hi.le]
    have hmod : x.toNat * 2 ^ i % 2 ^ w = 2 ^ i * (x.toNat % 2 ^ (w - i)) := by
      rw [hsplit, Nat.mul_comm, Nat.mul_mod_mul_left]
    have hfit : r.toNat + 2 ^ i * (x.toNat % 2 ^ (w - i)) < 2 ^ w := by
      have hlt : x.toNat % 2 ^ (w - i) + 1 ≤ 2 ^ (w - i) := Nat.mod_lt _ (Nat.two_pow_pos _)
      have hle := Nat.mul_le_mul_left (2 ^ i) hlt
      rw [Nat.mul_add, ← hsplit] at hle
      omega
    rw [hmod, Nat.or_comm, ← Nat.two_pow_add_eq_or_of_lt hr, Nat.add_comm, ← Nat.mod_eq_of_lt hfit,
      ← hmod, Nat.add_mod_mod, Nat.mul_comm]
  · have hzero : x.toNat * 2 ^ i % 2 ^ w = 0 :=
      Nat.mod_eq_zero_of_dvd ((Nat.pow_dvd_pow 2 hi).mul_left _)
    rw [hzero, Nat.or_zero, Nat.add_mod, Nat.mul_comm, hzero, Nat.add_zero, Nat.mod_mod,
      Nat.mod_eq_of_lt r.isLt]

end Hiper.Lib.Base128

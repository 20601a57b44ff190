import Hiper.Address.Basic

/-!
# Networks

The first and the last address of a network, and its mask, are what the numbers say
(`IPv6Prefix`, `IPv4Prefix`), but not for every prefix that is let in.  An IPv6 prefix
of 128 bits is past the end of `s6_addr` (`ipv6Prefix_iff`); an IPv4 prefix of no bits
shifts by the width of the type, and one bit overflows (`ipv4Prefix_iff`).

The source computes on octets and on words in network byte order, and `CreateMask` on `int`;
the results are compared with the address as one number and the mask as the number whose
leading bits are set (`leadingOnes`).  A byte swap goes through and, or and complement
(`byteswap_and`, `byteswap_or`, `byteswap_not`), so that the IPv4 functions are read off the
numbers, and octet by octet the IPv6 ones are (`maskOctets_eq`).
-/

namespace Hiper

open Lib

/-! ### Bytes in the other order -/

/-- Bit by bit, the bytes in the other order.  Bit `r` of byte `k` is bit `r` of byte
`n - 1 - k`. -/
theorem getLsbD_byteswap {n k r : ℕ} (t : BitVec (8 * n)) (hk : k < n) (hr : r < 8) :
    (byteswap n t).getLsbD (8 * k + r) = t.getLsbD (8 * (n - 1 - k) + r) := by
  have hlen : (toLE n t.toNat).length = n := length_toLE ..
  have hget : (toLE n t.toNat).reverse[k]? = (toLE n t.toNat)[n - 1 - k]? := by
    rw [List.getElem?_reverse (by rw [hlen]; exact hk), hlen]
  rw [byteswap, BitVec.getLsbD_ofNat, testBit_ofLE _ _ hr, hget, ← testBit_ofLE _ _ hr, ofLE_toLE,
    Nat.mod_eq_of_lt (toNat_lt_pow t), decide_eq_true (show 8 * k + r < 8 * n by omega),
    Bool.true_and]
  rfl

/-- Numbers that agree in all bits of all bytes are equal. -/
theorem eq_of_getLsbD_bytes {n : ℕ} {x y : BitVec (8 * n)}
    (h : ∀ k r, k < n → r < 8 → x.getLsbD (8 * k + r) = y.getLsbD (8 * k + r)) : x = y := by
  refine BitVec.eq_of_getLsbD_eq fun j hj => ?_
  rw [← Nat.div_add_mod j 8]
  exact h _ _ (by omega) (Nat.mod_lt _ (by decide))

/-- Swapping goes through the and of two numbers. -/
theorem byteswap_and {n : ℕ} (x y : BitVec (8 * n)) :
    byteswap n (x &&& y) = byteswap n x &&& byteswap n y := by
  refine eq_of_getLsbD_bytes fun k r hk hr => ?_
  rw [BitVec.getLsbD_and, getLsbD_byteswap _ hk hr, getLsbD_byteswap _ hk hr,
    getLsbD_byteswap _ hk hr, BitVec.getLsbD_and]

/-- Swapping goes through the or of two numbers. -/
theorem byteswap_or {n : ℕ} (x y : BitVec (8 * n)) :
    byteswap n (x ||| y) = byteswap n x ||| byteswap n y := by
  refine eq_of_getLsbD_bytes fun k r hk hr => ?_
  rw [BitVec.getLsbD_or, getLsbD_byteswap _ hk hr, getLsbD_byteswap _ hk hr,
    getLsbD_byteswap _ hk hr, BitVec.getLsbD_or]

/-- Swapping goes through the complement. -/
theorem byteswap_not {n : ℕ} (x : BitVec (8 * n)) : byteswap n (~~~x) = ~~~byteswap n x := by
  refine eq_of_getLsbD_bytes fun k r hk hr => ?_
  rw [BitVec.getLsbD_not, getLsbD_byteswap _ hk hr, getLsbD_byteswap _ hk hr, BitVec.getLsbD_not,
    decide_eq_true (show 8 * (n - 1 - k) + r < 8 * n by omega),
    decide_eq_true (show 8 * k + r < 8 * n by omega)]

variable (host : Endian)

/-- So does swapping on a little-endian machine. -/
theorem byteswapOnLittleEndian_and {n : ℕ} (x y : BitVec (8 * n)) :
    byteswapOnLittleEndian host n (x &&& y) =
      byteswapOnLittleEndian host n x &&& byteswapOnLittleEndian host n y := by
  cases host with
  | little => exact byteswap_and x y
  | big => rfl

/-- The or of two numbers, swapped where the machine needs it. -/
theorem byteswapOnLittleEndian_or {n : ℕ} (x y : BitVec (8 * n)) :
    byteswapOnLittleEndian host n (x ||| y) =
      byteswapOnLittleEndian host n x ||| byteswapOnLittleEndian host n y := by
  cases host with
  | little => exact byteswap_or x y
  | big => rfl

/-- The complement, swapped where the machine needs it. -/
theorem byteswapOnLittleEndian_not {n : ℕ} (x : BitVec (8 * n)) :
    byteswapOnLittleEndian host n (~~~x) = ~~~byteswapOnLittleEndian host n x := by
  cases host with
  | little => exact byteswap_not x
  | big => rfl

/-! ### Masks -/

namespace Address

variable (overflow : ℤ → Option (BitVec 32))

/-- As long as the prefix is no longer than the type, the shift is the difference. -/
theorem shiftAmount_of_le {w : ℕ} {bits : UInt32} (h : bits.toNat ≤ w) (hw : w < 2 ^ 64) :
    shiftAmount w bits = w - bits.toNat := by
  rw [shiftAmount]
  omega

/-- As long as the shifted bit is not the sign, nothing overflows.  It is the mask of the host
bits, before it is cut to its type. -/
theorem intSub_shiftLeft {s : ℕ} (hs : s < 31) :
    intSub overflow (1#32 <<< s) 1#32 = some (BitVec.ofNat 32 (2 ^ s - 1)) := by
  interval_cases s <;> rfl

/-- With fewer than 31 host bits `CreateMask` is the mask of the host bits. -/
theorem createMask_eq {w : ℕ} {bits : UInt32} (h : bits.toNat ≤ w) (hw : w - bits.toNat < 31)
    (hw32 : w ≤ 32) : createMask overflow w bits = some (~~~leadingOnes w bits.toNat) := by
  rw [createMask, shiftAmount_of_le h (by omega), if_pos (by omega), intSub_shiftLeft overflow hw,
    Option.map_some]
  congr 1
  refine BitVec.eq_of_getLsbD_eq fun j hj => ?_
  rw [BitVec.getLsbD_setWidth, BitVec.getLsbD_ofNat, Nat.testBit_two_pow_sub_one,
    BitVec.getLsbD_not, getLsbD_leadingOnes hj, decide_eq_true hj,
    decide_eq_true (show j < 32 by omega), Bool.true_and, Bool.true_and, Bool.true_and,
    ← decide_not]
  exact decide_eq_decide.2 (by omega)

end Address

open Address

/-- What an `int` that overflows is with most compilers.  It is modulo `2 ^ 32`. -/
def Address.wrapped (d : ℤ) : Option (BitVec 32) := some (BitVec.ofInt 32 d)

/-! ### IPv6 -/

namespace IPv6Address

variable (overflow : ℤ → Option (BitVec 32))

/-- The octets of the mask, around the one that is cut.  The ones before it are full, those
behind it empty. -/
theorem maskOctets_eq (p : ℕ) (i : Fin 16) :
    (Octets.maskOctets p : Octets 16) i =
      if i.val < p / 8 then 0xff else if i.val = p / 8 then ⟨leadingOnes 8 (p % 8)⟩ else 0 := by
  rw [Octets.maskOctets]
  split_ifs with hlt heq
  · rw [leadingOnes, show 8 - (p - 8 * i.val) = 0 by omega]
    rfl
  · rw [show p - 8 * i.val = p % 8 by omega]
  · rw [leadingOnes, show 8 - (p - 8 * i.val) = 8 by omega]
    rfl

/-- The indices that a loop from `first` on fills. -/
theorem mem_indicesFrom {first i : ℕ} : i ∈ indicesFrom first ↔ first ≤ i ∧ i < 16 := by
  rw [indicesFrom, List.mem_range'_1]
  omega

variable {p : UInt32}

/-- The mask of an octet that is cut by the prefix. -/
theorem createMask_octet : createMask overflow 8 (p % 8) = some (~~~leadingOnes 8 (p.toNat % 8)) := by
  have hmod : (p % 8).toNat = p.toNat % 8 := UInt32.toNat_mod ..
  rw [createMask_eq overflow (by omega) (by omega) (by omega), hmod]

/-- The index of the octet that is cut. -/
theorem toNat_div_eight : (p / 8).toNat = p.toNat / 8 := UInt32.toNat_div ..

/-- The octets that the mask does not cut are kept or filled.  The result is the mask octet by
octet. -/
theorem subnetMask_eq (hp : p.toNat < 128) :
    subnetMask overflow p = some ⟨afInet6, 0, 0, Octets.maskOctets p.toNat, 0⟩ := by
  rw [subnetMask, createMask_octet, toNat_div_eight]
  simp only [Option.bind_eq_bind, Option.bind_some]
  rw [Octets.store_eq (by omega), Option.bind_some,
    Octets.fill_eq _ (fun i hi => by have := List.mem_range.1 hi; omega), Option.bind_some]
  have haddr : (fun i : Fin 16 => if i.val ∈ List.range (p.toNat / 8) then (0xff : UInt8)
      else if i.val = p.toNat / 8 then ⟨~~~~~~leadingOnes 8 (p.toNat % 8)⟩ else 0) =
      Octets.maskOctets p.toNat := by
    funext i
    rw [maskOctets_eq, BitVec.not_not]
    exact if_congr List.mem_range rfl rfl
  rw [haddr]
  rfl

/-- One octet is changed, and the ones behind it are filled.  The index is that of an octet that
is there. -/
theorem change_eq {k : ℕ} (hk : k < 16) (f : UInt8 → UInt8) (v : UInt8) (x : SockaddrIn6) :
    ((Octets.load k x.addr).bind fun octet => (Octets.store k (f octet) x.addr).bind fun addr =>
      (Octets.fill v (indicesFrom (k + 1)) addr).bind fun addr => some { x with addr := addr }) =
      some { x with addr := fun i =>
        if i.val < k then x.addr i else if i.val = k then f (x.addr i) else v } := by
  rw [Octets.load, dif_pos hk, Option.bind_some, Octets.store_eq hk, Option.bind_some,
    Octets.fill_eq _ fun i hi => (mem_indicesFrom.1 hi).2, Option.bind_some]
  congr 2
  funext i
  have hmem : i.val ∈ indicesFrom (k + 1) ↔ k < i.val := by
    rw [mem_indicesFrom]
    omega
  rcases Nat.lt_trichotomy i.val k with hlt | heq | hgt
  · rw [if_neg (mt hmem.1 (by omega)), if_neg (by omega), if_pos hlt]
  · have hi : (⟨k, hk⟩ : Fin 16) = i := Fin.ext heq.symm
    rw [if_neg (mt hmem.1 (by omega)), if_pos heq, if_neg (by omega), if_pos heq, hi]
  · rw [if_pos (hmem.2 hgt), if_neg (by omega), if_neg (by omega)]

/-- The first address of an IPv6 network, octet by octet. -/
theorem networkAddress_eq (hp : p.toNat < 128) (x : SockaddrIn6) :
    networkAddress overflow p x =
      some { x with addr := fun i => x.addr i &&& Octets.maskOctets p.toNat i } := by
  have hk : p.toNat / 8 < 16 := by omega
  have haddr : (fun i : Fin 16 => if i.val < p.toNat / 8 then x.addr i
      else if i.val = p.toNat / 8 then x.addr i &&& ⟨~~~~~~leadingOnes 8 (p.toNat % 8)⟩
      else 0) = fun i => x.addr i &&& Octets.maskOctets p.toNat i := by
    funext i
    rw [maskOctets_eq, BitVec.not_not]
    split_ifs
    · exact UInt8.and_neg_one.symm
    · rfl
    · exact UInt8.and_zero.symm
  rw [networkAddress, createMask_octet, toNat_div_eight, ← haddr]
  exact change_eq hk (· &&& ⟨~~~~~~leadingOnes 8 (p.toNat % 8)⟩) 0x00 x

/-- The last address of an IPv6 network, octet by octet. -/
theorem broadcastAddress_eq (hp : p.toNat < 128) (x : SockaddrIn6) :
    broadcastAddress overflow p x =
      some { x with addr := fun i => x.addr i ||| ~~~Octets.maskOctets p.toNat i } := by
  have hk : p.toNat / 8 < 16 := by omega
  have haddr : (fun i : Fin 16 => if i.val < p.toNat / 8 then x.addr i
      else if i.val = p.toNat / 8 then x.addr i ||| ⟨~~~leadingOnes 8 (p.toNat % 8)⟩
      else 0xff) = fun i => x.addr i ||| ~~~Octets.maskOctets p.toNat i := by
    funext i
    rw [maskOctets_eq]
    split_ifs
    · exact UInt8.or_zero.symm
    · rfl
    · exact UInt8.or_neg_one.symm
  rw [broadcastAddress, createMask_octet, toNat_div_eight, ← haddr]
  exact change_eq hk (· ||| ⟨~~~leadingOnes 8 (p.toNat % 8)⟩) 0xff x

/-- Past the end of `s6_addr`.  The index is 16, one too many. -/
theorem addresses_none (hp : p.toNat = 128) (x : SockaddrIn6) :
    subnetMask overflow p = none ∧ networkAddress overflow p x = none ∧
      broadcastAddress overflow p x = none := by
  have hk : (p / 8).toNat = 16 := by rw [toNat_div_eight, hp]
  rw [subnetMask, networkAddress, broadcastAddress, createMask_octet, hk]
  exact ⟨rfl, rfl, rfl⟩

/-- What the mask and the first and the last address of the network are to be.  The three are
defined, and are the numbers that the prefix says. -/
def IPv6Prefix (p : UInt32) (x : SockaddrIn6) : Prop :=
  (∃ y, subnetMask overflow p = some y ∧ y.addr.number = leadingOnes 128 p.toNat) ∧
    (∃ y, networkAddress overflow p x = some y ∧ y.port = x.port ∧ y.family = x.family ∧
      y.addr.number = x.addr.number &&& leadingOnes 128 p.toNat) ∧
    ∃ y, broadcastAddress overflow p x = some y ∧ y.port = x.port ∧ y.family = x.family ∧
      y.addr.number = x.addr.number ||| ~~~leadingOnes 128 p.toNat

/-- **IPv6 networks.**  Mask, first and last address are right for every prefix but the one of
128 bits, for which all three are past the end of the address.  The check of the source lets 128
in.  The three functions are `src/hiper/base/address.cc:449-490`, and the byte they write first
is `s6_addr[prefix_len / 8]`, the seventeenth of sixteen when the prefix is 128. -/
theorem ipv6Prefix_iff (p : UInt32) (hp : p ≤ 128) (x : SockaddrIn6) :
    IPv6Prefix overflow p x ↔ p ≠ 128 := by
  have hle : p.toNat ≤ 128 := UInt32.le_iff_toNat_le.1 hp
  have hne : p ≠ 128 ↔ p.toNat < 128 := by
    rw [ne_eq, ← UInt32.toNat_inj, show (128 : UInt32).toNat = 128 from rfl]
    omega
  rw [hne]
  constructor
  · rintro ⟨⟨y, hy, -⟩, -⟩
    by_contra hlt
    rw [(addresses_none overflow (by omega) x).1] at hy
    exact absurd hy (by simp)
  · intro hlt
    refine ⟨⟨_, subnetMask_eq overflow hlt, ?_⟩, ⟨_, networkAddress_eq overflow hlt x, rfl, rfl, ?_⟩,
      _, broadcastAddress_eq overflow hlt x, rfl, rfl, ?_⟩
    · exact Octets.number_maskOctets hle
    · rw [Octets.number_and, Octets.number_maskOctets hle]
    · rw [Octets.number_or, Octets.number_not, Octets.number_maskOctets hle]

/-- `::1`.  All words but the last are zero. -/
def loopback : SockaddrIn6 := ⟨afInet6, 80, 0, fun i => if i = 15 then 1 else 0, 0⟩

/-- The network of `::1` with 64 bits. -/
theorem ipv6Prefix_64 : IPv6Prefix wrapped 64 loopback :=
  (ipv6Prefix_iff wrapped 64 (by decide) loopback).2 (by decide)

/-- The failing input: `::1` with all 128 bits. -/
theorem not_ipv6Prefix_128 : ¬IPv6Prefix wrapped 128 loopback := by
  rintro ⟨⟨y, hy, -⟩, -⟩
  rw [(addresses_none wrapped rfl loopback).1] at hy
  exact absurd hy (by simp)

end IPv6Address

/-! ### IPv4 -/

namespace IPv4Address

variable (overflow : ℤ → Option (BitVec 32))

/-- The number that an address is, in network byte order.  The number that is compared with the
mask. -/
def number (x : SockaddrIn) : BitVec (8 * 4) := Endian.big.load 4 (host.store 4 x.addr)

/-- On any machine the number is the integer of the `sockaddr`, swapped where the machine needs
it. -/
theorem number_eq (x : SockaddrIn) : number host x = byteswapOnLittleEndian host 4 x.addr :=
  bigLoad_store host 4 x.addr

/-- What the mask and the first and the last address of the network are to be, and how far
`CreateMask` may shift.  Also that a host bit count of the whole width is not shifted by. -/
def IPv4Prefix (p : UInt32) (x : SockaddrIn) : Prop :=
  (∃ y, subnetMask overflow host p = some y ∧ number host y = leadingOnes 32 p.toNat) ∧
    (∃ y, networkAddress overflow host p x = some (some y) ∧
      number host y = number host x &&& leadingOnes 32 p.toNat) ∧
    (∃ y, broadcastAddress overflow host p x = some (some y) ∧
      number host y = number host x ||| ~~~leadingOnes 32 p.toNat) ∧
    shiftAmount 32 p < 32

variable {overflow} {p : UInt32}

/-- One network bit makes `CreateMask` subtract from the least `int`. -/
theorem createMask_one : createMask overflow 32 1 = overflow (-2 ^ 31 - 1) := by
  have hsub : intSub overflow (1#32 <<< 31) 1#32 = overflow (-2 ^ 31 - 1) := rfl
  rw [createMask, show shiftAmount 32 1 = 31 from rfl, if_pos (by decide), hsub]
  cases overflow (-2 ^ 31 - 1) <;> simp

/-- With the right mask, the three are right.  They are an and, an or and a complement with it. -/
theorem IPv4Prefix.of_createMask (hpos : 1 ≤ p.toNat) (hp : p.toNat ≤ 32)
    (hmask : createMask overflow 32 p = some (~~~leadingOnes 32 p.toNat)) (x : SockaddrIn) :
    IPv4Prefix host overflow p x := by
  have hguard : ¬p > 32 := by
    rw [gt_iff_lt, UInt32.lt_iff_toNat_lt]
    exact Nat.not_lt.2 hp
  have hsubnet : subnetMask overflow host p =
      some ⟨afInet, 0, ~~~byteswapOnLittleEndian host 4 (~~~leadingOnes 32 p.toNat)⟩ := by
    rw [subnetMask, hmask]
    rfl
  have hnetwork : networkAddress overflow host p x = some (some { x with
      addr := x.addr &&& byteswapOnLittleEndian host 4 (~~~~~~leadingOnes 32 p.toNat) }) := by
    rw [networkAddress, if_neg hguard, hmask]
    rfl
  have hbroadcast : broadcastAddress overflow host p x = some (some { x with
      addr := x.addr ||| byteswapOnLittleEndian host 4 (~~~leadingOnes 32 p.toNat) }) := by
    rw [broadcastAddress, if_neg hguard, hmask]
    rfl
  refine ⟨⟨_, hsubnet, ?_⟩, ⟨_, hnetwork, ?_⟩, ⟨_, hbroadcast, ?_⟩, ?_⟩
  · rw [number_eq, byteswapOnLittleEndian_not, byteswapOnLittleEndian_self, BitVec.not_not]
  · rw [number_eq, number_eq, byteswapOnLittleEndian_and, byteswapOnLittleEndian_self, BitVec.not_not]
  · rw [number_eq, number_eq, byteswapOnLittleEndian_or, byteswapOnLittleEndian_self]
  · rw [shiftAmount_of_le hp (by decide)]
    omega

/-- The mask is right when what is read off it is.  The subnet mask is its complement. -/
theorem IPv4Prefix.createMask {x : SockaddrIn} (h : IPv4Prefix host overflow p x) :
    createMask overflow 32 p = some (~~~leadingOnes 32 p.toNat) := by
  obtain ⟨⟨y, hy, hnumber⟩, -⟩ := h
  obtain ⟨mask, hmask, rfl⟩ := Option.map_eq_some_iff.1 hy
  rw [number_eq, byteswapOnLittleEndian_not, byteswapOnLittleEndian_self] at hnumber
  rw [hmask, ← hnumber, BitVec.not_not]

/-- **IPv4 networks.**  Mask, first and last address are right for every prefix of two bits or
more; for one bit if `INT_MIN - 1` is `INT_MAX`, and for none they are not.  For every address,
every machine and whatever an `int` that overflows is.  The functions are
`src/hiper/base/address.cc:333-362` over `CreateMask` (18), which shifts the `int` 1 by
`32 - bits`: by 31 the sign bit is set and the difference overflows, and by 32 nothing is
defined. -/
theorem ipv4Prefix_iff (overflow : ℤ → Option (BitVec 32)) (p : UInt32) (hp : p ≤ 32)
    (x : SockaddrIn) :
    IPv4Prefix host overflow p x ↔
      2 ≤ p ∨ p = 1 ∧ overflow (-2 ^ 31 - 1) = some 0x7fffffff := by
  have hle : p.toNat ≤ 32 := UInt32.le_iff_toNat_le.1 hp
  have hone : p = 1 ↔ p.toNat = 1 := UInt32.toNat_inj.symm
  rw [UInt32.le_iff_toNat_le, show (2 : UInt32).toNat = 2 from rfl]
  constructor
  · intro h
    have hshift := h.2.2.2
    rw [shiftAmount_of_le hle (by decide)] at hshift
    rcases Nat.lt_or_ge 1 p.toNat with htwo | hlow
    · exact .inl htwo
    · obtain rfl := hone.2 (by omega)
      refine .inr ⟨rfl, ?_⟩
      have hmask := h.createMask
      rw [createMask_one] at hmask
      rw [hmask]
      decide
  · rintro (htwo | ⟨rfl, hoverflow⟩)
    · exact .of_createMask host (by omega) hle
        (createMask_eq overflow hle (by omega) (by decide)) x
    · exact .of_createMask host (by decide) hle
        (by rw [createMask_one, hoverflow]; decide) x

/-- `192.168.1.5`.  Its network of 24 bits is `192.168.1.0`. -/
def hostAddress : SockaddrIn := ⟨afInet, 80, 0x0501a8c0⟩

/-- The network of `192.168.1.5` with 24 bits. -/
theorem ipv4Prefix_24 : IPv4Prefix .little wrapped 24 hostAddress :=
  (ipv4Prefix_iff .little wrapped 24 (by decide) hostAddress).2 (by decide)

/-- The failing input: no network bits shift by the whole width. -/
theorem not_ipv4Prefix_0 : ¬IPv4Prefix .little wrapped 0 hostAddress :=
  fun h => absurd h.2.2.2 (by decide)

end IPv4Address

end Hiper

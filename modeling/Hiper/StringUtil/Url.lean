import Hiper.StringUtil.Basic

/-!
# `UrlEncode` and `UrlDecode`

`StringUtil` in `util.cc`.  The encoder keeps letters, digits and `-_.~`, writes a space as
`+` if told so, and every other byte as an escape, `%` and two hex digits.  The decoder
reads an escape where one stands, and any other `%` as itself.

The functions are `src/hiper/base/util.cc:698` and `:758`.  The encoder writes into a stream
with `std::hex`, `std::setw(2)` and a fill of `0`, so in small letters; the decoder takes
digits in capitals too, so that it also reads escapes that the encoder does not write.
-/

namespace Hiper

namespace StringUtil

/-- A hex digit, as `std::hex` writes it.  In small letters. -/
def hexDigit (n : ℕ) : Byte := if n < 10 then UInt8.ofNat (48 + n) else UInt8.ofNat (87 + n)

/-- A number in hex digits.  As many as it needs. -/
def toHex (n : ℕ) : Bytes :=
  if n < 16 then [hexDigit n] else toHex (n / 16) ++ [hexDigit (n % 16)]

/-- `std::setw(w)` with the fill `'0'`.  A longer one stays. -/
def setw (w : ℕ) (s : Bytes) : Bytes := List.replicate (w - s.length) 48 ++ s

/-- The value of a hex digit.  Of either case. -/
def hexValue (ch : Byte) : ℕ :=
  if isdigit ch then ch.toNat - 48 else if isupper ch then ch.toNat - 55 else ch.toNat - 87

/-- The bytes that `UrlEncode` keeps.  Letters, digits and four others. -/
def isUnreserved (ch : Byte) : Bool :=
  isalnum ch || ch == 45 || ch == 95 || ch == 46 || ch == 126

/-- What `UrlEncode` writes for a byte.  It is one byte or three. -/
def encodeChar (spaceAsPlus : Bool) (ch : Byte) : Bytes :=
  if isUnreserved ch then [ch]
  else if ch == 32 && spaceAsPlus then [43]
  else 37 :: setw 2 (toHex ch.toNat)

/-- `StringUtil::UrlEncode`.  Byte after byte. -/
def urlEncode (str : Bytes) (spaceAsPlus : Bool) : Bytes := str.flatMap (encodeChar spaceAsPlus)

/-- What `UrlDecode` writes for a byte that starts no escape.  A plus is a space, if told so. -/
def decodeChar (spaceAsPlus : Bool) (ch : Byte) : Byte :=
  if spaceAsPlus && ch == 43 then 32 else ch

/-- `StringUtil::UrlDecode`.  An escape needs two bytes behind the sign. -/
def urlDecode : Bytes → Bool → Bytes
  | [], _ => []
  | ch :: a :: b :: rest, spaceAsPlus =>
    if ch == 37 && isxdigit a && isxdigit b then
      UInt8.ofNat (16 * hexValue a + hexValue b) :: urlDecode rest spaceAsPlus
    else decodeChar spaceAsPlus ch :: urlDecode (a :: b :: rest) spaceAsPlus
  | ch :: rest, spaceAsPlus => decodeChar spaceAsPlus ch :: urlDecode rest spaceAsPlus

/-- The texts that an encoder may write.  A plus only where spaces are written so. -/
inductive Encoded (spaceAsPlus : Bool) : Bytes → Prop
  | nil : Encoded spaceAsPlus []
  | unreserved {ch : Byte} {rest : Bytes} : isUnreserved ch → Encoded spaceAsPlus rest →
      Encoded spaceAsPlus (ch :: rest)
  | escape {a b : Byte} {rest : Bytes} : isxdigit a → isxdigit b → Encoded spaceAsPlus rest →
      Encoded spaceAsPlus (37 :: a :: b :: rest)
  | plus {rest : Bytes} : spaceAsPlus → Encoded spaceAsPlus rest →
      Encoded spaceAsPlus (43 :: rest)

/-! ### Escapes -/

/-- A hex digit is one for `isxdigit`. -/
theorem isxdigit_hexDigit {n : ℕ} (h : n < 16) : isxdigit (hexDigit n) = true := by
  interval_cases n <;> rfl

/-- The value of a hex digit is the number it was written for. -/
theorem hexValue_hexDigit {n : ℕ} (h : n < 16) : hexValue (hexDigit n) = n := by
  interval_cases n <;> rfl

/-- An escape has two digits.  The first may be a zero. -/
theorem setw_toHex {n : ℕ} (h : n < 256) :
    setw 2 (toHex n) = [hexDigit (n / 16), hexDigit (n % 16)] := by
  by_cases hn : n < 16
  · rw [toHex, if_pos hn, Nat.div_eq_of_lt hn, Nat.mod_eq_of_lt hn]
    rfl
  · rw [toHex, if_neg hn, toHex, if_pos (by omega)]
    rfl

/-- The escape of a byte that is not kept. -/
theorem encodeChar_escape {spaceAsPlus : Bool} {ch : Byte} (hkeep : isUnreserved ch = false)
    (hspace : (ch == 32 && spaceAsPlus) = false) :
    encodeChar spaceAsPlus ch = [37, hexDigit (ch.toNat / 16), hexDigit (ch.toNat % 16)] := by
  rw [encodeChar, hkeep, hspace, setw_toHex ch.toNat_lt]
  rfl

/-! ### Decoding an encoded byte -/

/-- A byte that is no `%` is read as itself. -/
theorem urlDecode_cons {spaceAsPlus : Bool} {ch : Byte} (h : ch ≠ 37) (rest : Bytes) :
    urlDecode (ch :: rest) spaceAsPlus = decodeChar spaceAsPlus ch :: urlDecode rest spaceAsPlus := by
  have hch : (ch == 37) = false := by simpa using h
  match rest with
  | [] => rfl
  | [a] => rfl
  | a :: b :: rest => rw [urlDecode, hch]; rfl

/-- An escape is read as its byte. -/
theorem urlDecode_escape {spaceAsPlus : Bool} (ch : Byte) (rest : Bytes) :
    urlDecode (37 :: hexDigit (ch.toNat / 16) :: hexDigit (ch.toNat % 16) :: rest) spaceAsPlus =
      ch :: urlDecode rest spaceAsPlus := by
  have hlt := ch.toNat_lt
  have hhigh : ch.toNat / 16 < 16 := by omega
  have hlow : ch.toNat % 16 < 16 := by omega
  have hvalue : 16 * (ch.toNat / 16) + ch.toNat % 16 = ch.toNat := by omega
  rw [urlDecode, isxdigit_hexDigit hhigh, isxdigit_hexDigit hlow, hexValue_hexDigit hhigh,
    hexValue_hexDigit hlow, hvalue, UInt8.ofNat_toNat]
  rfl

/-- The bytes that are kept are neither `%` nor `+`. -/
theorem unreserved_ne {ch : Byte} (h : isUnreserved ch = true) : ch ≠ 37 ∧ ch ≠ 43 := by
  constructor
  · rintro rfl
    exact absurd h (by decide)
  · rintro rfl
    exact absurd h (by decide)

/-- The decoder reads what the encoder wrote for a byte, whatever follows.  By cases on how it
was written. -/
theorem urlDecode_encodeChar (spaceAsPlus : Bool) (ch : Byte) (rest : Bytes) :
    urlDecode (encodeChar spaceAsPlus ch ++ rest) spaceAsPlus = ch :: urlDecode rest spaceAsPlus := by
  cases hkeep : isUnreserved ch with
  | true =>
      obtain ⟨hpercent, hplus⟩ := unreserved_ne hkeep
      have hplus' : (ch == 43) = false := by simpa using hplus
      rw [encodeChar, if_pos hkeep, List.singleton_append, urlDecode_cons hpercent, decodeChar,
        hplus', Bool.and_false]
      rfl
  | false =>
      cases hspace : ch == 32 && spaceAsPlus with
      | true =>
          obtain ⟨hch, hplus⟩ := Bool.and_eq_true_iff.1 hspace
          have hch : ch = 32 := by simpa using hch
          subst hch hplus
          rw [encodeChar, if_neg (by decide), if_pos (by decide), List.singleton_append,
            urlDecode_cons (by decide)]
          rfl
      | false =>
          rw [encodeChar_escape hkeep hspace]
          exact urlDecode_escape ch rest

/-- What is written for a byte is encoded. -/
theorem encoded_encodeChar (spaceAsPlus : Bool) (ch : Byte) {rest : Bytes}
    (h : Encoded spaceAsPlus rest) : Encoded spaceAsPlus (encodeChar spaceAsPlus ch ++ rest) := by
  cases hkeep : isUnreserved ch with
  | true =>
      rw [encodeChar, if_pos hkeep]
      exact .unreserved hkeep h
  | false =>
      cases hspace : ch == 32 && spaceAsPlus with
      | true =>
          rw [encodeChar, hkeep, if_neg Bool.false_ne_true, if_pos hspace]
          exact .plus (Bool.and_eq_true_iff.1 hspace).2 h
      | false =>
          have hlt := ch.toNat_lt
          rw [encodeChar_escape hkeep hspace]
          exact .escape (isxdigit_hexDigit (by omega)) (isxdigit_hexDigit (by omega)) h

/-! ### Whole strings -/

/-- Decoding undoes encoding.  The induction is over the bytes. -/
theorem urlDecode_urlEncode (str : Bytes) (spaceAsPlus : Bool) :
    urlDecode (urlEncode str spaceAsPlus) spaceAsPlus = str := by
  induction str with
  | nil => rfl
  | cons ch str ih =>
      rw [urlEncode, List.flatMap_cons, urlDecode_encodeChar]
      exact congrArg (ch :: ·) ih

/-- What is written is encoded.  The induction is over the bytes. -/
theorem encoded_urlEncode (str : Bytes) (spaceAsPlus : Bool) :
    Encoded spaceAsPlus (urlEncode str spaceAsPlus) := by
  induction str with
  | nil => exact .nil
  | cons ch str ih =>
      rw [urlEncode, List.flatMap_cons]
      exact encoded_encodeChar spaceAsPlus ch ih

/-- **The URL codec round trip.**  Decoding undoes encoding, and an encoded text has only
unreserved bytes, escapes, and `+` for spaces if told so.  For every string of bytes and both
settings of `space_as_plus`, the same on both sides: `UrlEncode` is
`src/hiper/base/util.cc:698`, and `UrlDecode` in use is the one of line 758. -/
theorem url_codec (str : Bytes) (spaceAsPlus : Bool) :
    urlDecode (urlEncode str spaceAsPlus) spaceAsPlus = str ∧
      Encoded spaceAsPlus (urlEncode str spaceAsPlus) :=
  ⟨urlDecode_urlEncode str spaceAsPlus, encoded_urlEncode str spaceAsPlus⟩

/-! ### Texts that decode to themselves -/

/-- A `%` with two hex digits behind it.  It is what the decoder looks for. -/
def startsEscape : Bytes → Bool
  | ch :: a :: b :: _ => ch == 37 && isxdigit a && isxdigit b
  | _ => false

/-- An escape stands somewhere. -/
def hasEscape : Bytes → Bool
  | [] => false
  | ch :: rest => startsEscape (ch :: rest) || hasEscape rest

/-- A byte is changed only if it is a plus. -/
theorem decodeChar_eq_self_iff (ch : Byte) : decodeChar true ch = ch ↔ ch ≠ 43 := by
  rw [decodeChar, Bool.true_and]
  split_ifs with h
  · rw [beq_iff_eq.1 h]
    decide
  · exact iff_of_true rfl fun heq => h (beq_iff_eq.2 heq)

/-- Decoding makes nothing longer. -/
theorem length_urlDecode_le (str : Bytes) (spaceAsPlus : Bool) :
    (urlDecode str spaceAsPlus).length ≤ str.length := by
  fun_induction urlDecode str spaceAsPlus with
  | case1 => exact le_rfl
  | case2 spaceAsPlus ch a b rest h ih =>
      simp only [List.length_cons] at ih ⊢
      omega
  | case3 spaceAsPlus ch a b rest h ih =>
      simp only [List.length_cons] at ih ⊢
      omega
  | case4 spaceAsPlus ch rest h ih =>
      simp only [List.length_cons] at ih ⊢
      omega

/-- An escape at the front makes it shorter. -/
theorem length_urlDecode_lt {ch : Byte} {rest : Bytes} (h : startsEscape (ch :: rest) = true)
    (spaceAsPlus : Bool) : (urlDecode (ch :: rest) spaceAsPlus).length < (ch :: rest).length := by
  match rest, h with
  | a :: b :: rest, h =>
    rw [startsEscape] at h
    have hle := length_urlDecode_le rest spaceAsPlus
    rw [urlDecode, if_pos h]
    simp only [List.length_cons]
    omega

/-- Without an escape at the front one byte is read. -/
theorem urlDecode_of_not_startsEscape {ch : Byte} {rest : Bytes}
    (h : startsEscape (ch :: rest) = false) (spaceAsPlus : Bool) :
    urlDecode (ch :: rest) spaceAsPlus = decodeChar spaceAsPlus ch :: urlDecode rest spaceAsPlus := by
  match rest, h with
  | [], _ => rfl
  | [a], _ => rfl
  | a :: b :: rest, h =>
    rw [startsEscape] at h
    rw [urlDecode, h, if_neg Bool.false_ne_true]

/-- Decoding changes nothing exactly when there is nothing to decode: an escape makes the text
shorter.  A plus makes it another text of the same length. -/
theorem urlDecode_eq_self_iff (str : Bytes) :
    urlDecode str true = str ↔ 43 ∉ str ∧ hasEscape str = false := by
  induction str with
  | nil => exact iff_of_true rfl ⟨List.not_mem_nil, rfl⟩
  | cons ch rest ih =>
      rw [hasEscape, Bool.or_eq_false_iff, List.mem_cons, not_or]
      cases hstart : startsEscape (ch :: rest) with
      | true =>
          have hlt := length_urlDecode_lt hstart true
          refine iff_of_false (fun heq => ?_) (fun h => by cases h.2.1)
          rw [heq] at hlt
          exact lt_irrefl _ hlt
      | false =>
          rw [urlDecode_of_not_startsEscape hstart, List.cons.injEq, decodeChar_eq_self_iff, ih,
            ne_comm]
          exact ⟨fun h => ⟨⟨h.1, h.2.1⟩, rfl, h.2.2⟩, fun h => ⟨h.1.1, h.1.2, h.2.2⟩⟩

end StringUtil

end Hiper

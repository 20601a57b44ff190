import Mathlib.Data.List.Lex
import Mathlib.Data.List.TakeWhile
import Mathlib.Tactic.IntervalCases

/-!
# Byte strings

`std::string` as the list of its bytes, the classes of `<cctype>` in the C locale,
and `strcasecmp`, which reads a string up to its first zero byte.

The functions of `StringUtil` are at the end of `src/hiper/base/util.cc` (`Trim`, `:792`);
the others are of the C library.  A byte is a `UInt8`, so that a `char` which is negative is
one from 128 on, and none of these classes has such a byte.
-/

namespace Hiper

/-- A `char`. -/
abbrev Byte := UInt8

/-- A `std::string`. -/
abbrev Bytes := List Byte

namespace StringUtil

/-- The bytes of a literal.  It is ASCII in this source. -/
def text (s : String) : Bytes := s.toList.map Char.toUInt8

/-- `isdigit`. -/
def isdigit (ch : Byte) : Bool := 48 ≤ ch && ch ≤ 57

/-- `isupper`. -/
def isupper (ch : Byte) : Bool := 65 ≤ ch && ch ≤ 90

/-- `islower`. -/
def islower (ch : Byte) : Bool := 97 ≤ ch && ch ≤ 122

/-- `isalpha`. -/
def isalpha (ch : Byte) : Bool := isupper ch || islower ch

/-- `isalnum`. -/
def isalnum (ch : Byte) : Bool := isdigit ch || isupper ch || islower ch

/-- `isxdigit`. -/
def isxdigit (ch : Byte) : Bool := isdigit ch || (65 ≤ ch && ch ≤ 70) || (97 ≤ ch && ch ≤ 102)

/-- `tolower`. -/
def tolower (ch : Byte) : Byte := if isupper ch then ch + 32 else ch

/-- The delimiters of `StringUtil::Trim`.  A space, a tab and the line ends. -/
def isBlank (ch : Byte) : Bool := ch == 32 || ch == 9 || ch == 13 || ch == 10

/-- `StringUtil::Trim`.  On both sides. -/
def trim (s : Bytes) : Bytes := ((s.dropWhile isBlank).reverse.dropWhile isBlank).reverse

/-- `c_str()`: the bytes before the first zero.  All of them, if there is none. -/
def cStr (s : Bytes) : Bytes := s.takeWhile (· != 0)

/-- What `strcasecmp` compares.  The bytes before the first zero, in lower case, as numbers. -/
def caseKey (s : Bytes) : List ℕ := (cStr s).map fun ch => (tolower ch).toNat

/-- `strcasecmp(a, b) < 0`.  In the order of those lists. -/
def caseLess (a b : Bytes) : Bool := decide (caseKey a < caseKey b)

/-- `strcasecmp(a, b) == 0`.  Both lists are the same. -/
def caseEq (a b : Bytes) : Bool := decide (caseKey a = caseKey b)

/-- `strcasestr(s, word) != nullptr`.  The word may be anywhere. -/
def caseContains (s word : Bytes) : Bool :=
  (caseKey s).tails.any fun t => (caseKey word).isPrefixOf t

/-- A number as `operator<<` writes it.  Without a sign. -/
def decimal (n : ℕ) : Bytes :=
  if n < 10 then [UInt8.ofNat (48 + n)] else decimal (n / 10) ++ [UInt8.ofNat (48 + n % 10)]

/-- The number that a text of digits denotes.  Digits are read from the left. -/
def readDecimal (s : Bytes) : ℕ := s.foldl (fun n ch => 10 * n + (ch.toNat - 48)) 0

/-- A string without a zero byte is all read. -/
theorem cStr_of_notMem {s : Bytes} (h : 0 ∉ s) : cStr s = s := by
  rw [cStr, List.takeWhile_eq_self_iff]
  intro ch hch
  have hne : ch ≠ 0 := fun h0 => h (h0 ▸ hch)
  simpa using hne

/-- For strings without a zero byte, equality ignoring case.  Letter by letter. -/
theorem caseKey_eq_iff {a b : Bytes} (ha : 0 ∉ a) (hb : 0 ∉ b) :
    caseKey a = caseKey b ↔ a.map tolower = b.map tolower := by
  rw [caseKey, caseKey, cStr_of_notMem ha, cStr_of_notMem hb]
  have hinj : Function.Injective (fun x : Byte => x.toNat) := fun x y h => UInt8.toNat_inj.1 h
  rw [show (fun ch => (tolower ch).toNat) = (fun x : Byte => x.toNat) ∘ tolower from rfl,
    ← List.map_map, ← List.map_map]
  exact (List.map_injective_iff.2 hinj).eq_iff

/-- The digit of a number below 10. -/
theorem digit_of_lt {n : ℕ} (h : n < 10) :
    isdigit (UInt8.ofNat (48 + n)) = true ∧ (UInt8.ofNat (48 + n)).toNat - 48 = n := by
  interval_cases n <;> exact ⟨rfl, rfl⟩

/-- A number is written in digits. -/
theorem isdigit_of_mem_decimal {n : ℕ} {ch : Byte} (h : ch ∈ decimal n) : isdigit ch = true := by
  induction n using Nat.strongRecOn with
  | _ n ih =>
      rw [decimal] at h
      split_ifs at h with hn
      · rw [List.mem_singleton.1 h]
        exact (digit_of_lt hn).1
      · rcases List.mem_append.1 h with h | h
        · exact ih (n / 10) (by omega) h
        · rw [List.mem_singleton.1 h]
          exact (digit_of_lt (Nat.mod_lt n (by omega))).1

/-- A number has a digit. -/
theorem decimal_ne_nil (n : ℕ) : decimal n ≠ [] := by
  rw [decimal]
  split_ifs <;> simp

/-- The digits of a number denote it.  The induction is over the number's digits. -/
theorem readDecimal_decimal (n : ℕ) : readDecimal (decimal n) = n := by
  induction n using Nat.strongRecOn with
  | _ n ih =>
      rw [decimal]
      split_ifs with hn
      · rw [readDecimal, List.foldl_cons, List.foldl_nil, (digit_of_lt hn).2]
        omega
      · have hrest := ih (n / 10) (by omega)
        rw [readDecimal] at hrest ⊢
        rw [List.foldl_append, hrest, List.foldl_cons, List.foldl_nil,
          (digit_of_lt (Nat.mod_lt n (by omega))).2]
        omega

end StringUtil

end Hiper

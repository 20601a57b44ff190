import Hiper.Address.Basic
import Hiper.Lib.GroupText

/-!
# The text of an IPv6 address

`IPv6Address::insert` is one pass over the eight words, which leaves out the first run
of zeros.  The words are `l`, all of them not zero, then the run, then `r`, which
begins with a word that is not zero (`insertLoop_append`, `insertLoop_run`), so what
is written is a text of the eight groups (`denotes_insertHost`).

The function is `address.cc:422`.  What a text of eight groups is, with at most one `::`, is
`Denotes`, an instance of `GroupText`; a group is written as one to four hex digits without
leading zeros by the stream, but the grammar lets any one to four digits denote a group, and
reads them by `readHex`, which is independent of how they were written.  That a text has one
meaning (`Denotes.unique`) is what makes different addresses print differently.
-/

namespace Hiper

open Lib StringUtil

/-! ### Groups in hex -/

namespace StringUtil

/-- A number with `k + 1` hex digits at most is written with no more. -/
theorem length_toHex {n : ℕ} (k : ℕ) (h : n < 16 ^ (k + 1)) : (toHex n).length ≤ k + 1 := by
  induction k generalizing n with
  | zero => rw [toHex, if_pos (by omega), List.length_singleton]
  | succ k ih =>
      rw [toHex]
      split_ifs with hn
      · rw [List.length_singleton]
        omega
      · have hdiv : n / 16 < 16 ^ (k + 1) := by
          rw [Nat.div_lt_iff_lt_mul (by decide), ← pow_succ]
          exact h
        have hrest := ih hdiv
        rw [List.length_append, List.length_singleton]
        omega

/-- A number is written with one digit at least. -/
theorem toHex_ne_nil (n : ℕ) : toHex n ≠ [] := by
  rw [toHex]
  split_ifs <;> simp

/-- A hex digit that is no capital.  They are those that the stream writes. -/
def isLowerHex (ch : Byte) : Bool := isdigit ch || (97 ≤ ch && ch ≤ 102)

/-- A digit that is written is a lower-case one. -/
theorem isLowerHex_hexDigit {n : ℕ} (h : n < 16) : isLowerHex (hexDigit n) = true := by
  interval_cases n <;> rfl

/-- All digits that are written are lower-case ones. -/
theorem isLowerHex_of_mem_toHex {n : ℕ} {ch : Byte} (h : ch ∈ toHex n) : isLowerHex ch = true := by
  induction n using Nat.strongRecOn with
  | _ n ih =>
      rw [toHex] at h
      split_ifs at h with hn
      · rw [List.mem_singleton.1 h]
        exact isLowerHex_hexDigit hn
      · rcases List.mem_append.1 h with h | h
        · exact ih (n / 16) (by omega) h
        · rw [List.mem_singleton.1 h]
          exact isLowerHex_hexDigit (Nat.mod_lt n (by decide))

/-- The number that a text of hex digits denotes.  It takes capitals too. -/
def readHex (s : Bytes) : ℕ := s.foldl (fun n ch => 16 * n + hexValue ch) 0

/-- What is written for a number denotes it. -/
theorem readHex_toHex (n : ℕ) : readHex (toHex n) = n := by
  induction n using Nat.strongRecOn with
  | _ n ih =>
      rw [toHex]
      split_ifs with hn
      · rw [readHex, List.foldl_cons, List.foldl_nil, hexValue_hexDigit hn]
        omega
      · have hrest := ih (n / 16) (by omega)
        rw [readHex] at hrest ⊢
        rw [List.foldl_append, hrest, List.foldl_cons, List.foldl_nil,
          hexValue_hexDigit (Nat.mod_lt n (by decide))]
        omega

end StringUtil

namespace IPv6Address

open Address

/-- A group: one to four hex digits.  The number is what they denote. -/
structure IsGroup (t : Bytes) (g : ℕ) : Prop where
  length_pos : 1 ≤ t.length
  length_le : t.length ≤ 4
  digits : ∀ ch ∈ t, isLowerHex ch = true
  value : readHex t = g

/-- What is written for a number of sixteen bits is a group. -/
theorem isGroup_toHex {g : ℕ} (h : g < 2 ^ 16) : IsGroup (toHex g) g where
  length_pos := List.length_pos_iff.2 (toHex_ne_nil g)
  length_le := length_toHex 3 h
  digits := fun _ hch => isLowerHex_of_mem_toHex hch
  value := readHex_toHex g

/-- `t` denotes the eight groups `gs`; at most one `::` stands for groups that are zero.  It is
`GroupText.Denotes` with the colon as the separator. -/
def Denotes (t : Bytes) (gs : List ℕ) : Prop := GroupText.Denotes 58 IsGroup 0 8 t gs

/-- Groups are written as `GroupText` asks: no empty text, no colon, one meaning each. -/
theorem isGroupText : GroupText.IsGroupText (58 : Byte) IsGroup where
  ne_nil := fun h => List.length_pos_iff.1 h.length_pos
  notMem := fun h hmem => absurd (h.digits 58 hmem) (by decide)
  unique := fun h h' => h.value.symm.trans h'.value

/-- The index of the first octet of a group. -/
theorem two_mul_lt (i : Fin 8) : 2 * (i : ℕ) < 16 := by omega

/-- The index of the second octet of a group. -/
theorem two_mul_succ_lt (i : Fin 8) : 2 * (i : ℕ) + 1 < 16 := by omega

/-- The eight groups of an address.  Each is two octets, the first the higher. -/
def groups (x : SockaddrIn6) : List ℕ :=
  (List.finRange 8).map fun i : Fin 8 =>
    256 * (x.addr ⟨2 * i, two_mul_lt i⟩).toNat + (x.addr ⟨2 * i + 1, two_mul_succ_lt i⟩).toNat

/-- `getPort`.  It is the port of the `sockaddr` as a number (`address.cc:492`). -/
def getPort (host : Endian) (x : SockaddrIn6) : ℕ := (byteswapOnLittleEndian host 2 x.port).toNat

/-! ### The loop -/

variable (host : Endian)

/-- What is written for a word.  Its number, swapped where the machine needs it, in hex. -/
def hexWord (word : BitVec (8 * 2)) : Bytes := toHex (byteswapOnLittleEndian host 2 word).toNat

/-- The words behind one that is not left out, each with a colon before it.  It is what the loop
writes when nothing is left to be left out. -/
def wordsAfter (ws : List (BitVec (8 * 2))) : Bytes := separated 58 (ws.map (hexWord host))

/-- The first of the words, then the others. -/
theorem wordsAfter_cons (word : BitVec (8 * 2)) (ws : List (BitVec (8 * 2))) :
    wordsAfter host (word :: ws) = 58 :: (hexWord host word ++ wordsAfter host ws) := by
  rw [wordsAfter, List.map_cons, separated, List.flatMap_cons]
  rfl

/-- With at least one word, it is a colon and then the words between colons. -/
theorem wordsAfter_eq {ws : List (BitVec (8 * 2))} (h : ws ≠ []) :
    wordsAfter host ws = 58 :: [58].intercalate (ws.map (hexWord host)) :=
  separated_eq (by simpa using h)

/-- A word that is written, when no run ends before it.  One colon is before it. -/
theorem insertLoop_word {prev word : BitVec (8 * 2)} {used : Bool}
    (hprev : ¬(some prev = some 0 ∧ used = false)) (hword : ¬(word = 0 ∧ used = false))
    (ws : List (BitVec (8 * 2))) :
    insertLoop host (some prev) used (word :: ws) =
      (58 :: (hexWord host word ++ (insertLoop host (some word) used ws).1),
        (insertLoop host (some word) used ws).2) := by
  rw [insertLoop, if_neg hword]
  simp only [if_neg hprev, decide_eq_false hprev, Bool.or_false]
  rfl

/-- A word that ends a run of zeros.  Two colons are before it, one for the run. -/
theorem insertLoop_gap {word : BitVec (8 * 2)} (hword : word ≠ 0) (ws : List (BitVec (8 * 2))) :
    insertLoop host (some 0) false (word :: ws) =
      (58 :: 58 :: (hexWord host word ++ (insertLoop host (some word) true ws).1),
        (insertLoop host (some word) true ws).2) := by
  rw [insertLoop, if_neg fun h => hword h.1]
  rfl

/-- Once a run has been left out, every word is written.  The induction is over the words. -/
theorem insertLoop_used (prev : BitVec (8 * 2)) (ws : List (BitVec (8 * 2))) :
    insertLoop host (some prev) true ws = (wordsAfter host ws, true) := by
  induction ws generalizing prev with
  | nil => rfl
  | cons word ws ih =>
      have hused : ∀ {p : Prop}, ¬(p ∧ true = false) := fun h => Bool.noConfusion h.2
      rw [insertLoop_word host hused hused, ih, wordsAfter_cons]

/-- In a run of zeros, nothing is written before its end.  Its end is the next word that is not
zero, or the end of the address. -/
theorem insertLoop_run (k : ℕ) (prev : Option (BitVec (8 * 2))) {r : List (BitVec (8 * 2))}
    (hr : r.head? ≠ some 0) :
    insertLoop host prev false (List.replicate (k + 1) 0 ++ r) =
      if r = [] then ([], false) else (58 :: wordsAfter host r, true) := by
  induction k generalizing prev with
  | zero =>
      rw [List.replicate_one, List.singleton_append, insertLoop, if_pos ⟨rfl, rfl⟩]
      cases r with
      | nil => rfl
      | cons word r =>
          rw [insertLoop_gap host fun h => hr (congrArg some h), insertLoop_used,
            if_neg (List.cons_ne_nil _ _), wordsAfter_cons]
  | succ k ih =>
      rw [List.replicate_succ, List.cons_append, insertLoop, if_pos ⟨rfl, rfl⟩]
      exact ih (some 0)

/-- Words that are not zero are written before what follows them.  The last of them is what the
loop remembers. -/
theorem insertLoop_append {prev : BitVec (8 * 2)} (hprev : prev ≠ 0) {l : List (BitVec (8 * 2))}
    (hl : ∀ word ∈ l, word ≠ 0) (rest : List (BitVec (8 * 2))) :
    ∃ last ≠ 0, insertLoop host (some prev) false (l ++ rest) =
      (wordsAfter host l ++ (insertLoop host (some last) false rest).1,
        (insertLoop host (some last) false rest).2) := by
  induction l generalizing prev with
  | nil => exact ⟨prev, hprev, rfl⟩
  | cons word l ih =>
      obtain ⟨hword, hl⟩ := List.forall_mem_cons.1 hl
      obtain ⟨last, hlast, hrest⟩ := ih hword hl
      refine ⟨last, hlast, ?_⟩
      have hgap : ¬(some prev = some 0 ∧ false = false) := fun h => hprev (Option.some.inj h.1)
      rw [List.cons_append, insertLoop_word host hgap fun h => hword h.1, hrest, wordsAfter_cons,
        List.cons_append, List.append_assoc]

/-- The words before the first run of zeros.  The first is written without a colon. -/
theorem insertLoop_none {l : List (BitVec (8 * 2))} (hl : ∀ word ∈ l, word ≠ 0)
    (rest : List (BitVec (8 * 2))) :
    ∃ prev, insertLoop host none false (l ++ rest) =
      ([58].intercalate (l.map (hexWord host)) ++ (insertLoop host prev false rest).1,
        (insertLoop host prev false rest).2) := by
  cases l with
  | nil => exact ⟨none, rfl⟩
  | cons word l =>
      obtain ⟨hword, hl⟩ := List.forall_mem_cons.1 hl
      obtain ⟨last, -, hrest⟩ := insertLoop_append host hword hl rest
      refine ⟨some last, ?_⟩
      have hfirst : insertLoop host none false (word :: (l ++ rest)) =
          (hexWord host word ++ (insertLoop host (some word) false (l ++ rest)).1,
            (insertLoop host (some word) false (l ++ rest)).2) := by
        rw [insertLoop, if_neg fun h => hword h.1]
        rfl
      rw [List.cons_append, hfirst, hrest, ← List.append_assoc, List.map_cons]
      cases l with
      | nil =>
          rw [List.map_nil, List.intercalate_singleton, show wordsAfter host [] = [] from rfl,
            List.append_nil, List.nil_append]
      | cons word' l =>
          rw [wordsAfter_eq host (List.cons_ne_nil _ _),
            List.intercalate_cons_of_ne_nil (by simp)]
          simp

/-- What is written for eight words, `l` before the first run of zeros and `r` behind it.  With
`k = 0` there is no zero. -/
theorem insertHost_eq (x : SockaddrIn6) {l r : List (BitVec (8 * 2))} {k : ℕ}
    (hwords : words host x = l ++ List.replicate k 0 ++ r) (hl : ∀ word ∈ l, word ≠ 0)
    (hr : r.head? ≠ some 0) (hk : k = 0 → r = []) :
    insertHost host x =
      if k = 0 then [58].intercalate (l.map (hexWord host))
      else GroupText.compressed 58 (l.map (hexWord host)) (r.map (hexWord host)) := by
  obtain ⟨prev, hloop⟩ := insertLoop_none host hl (List.replicate k 0 ++ r)
  have hdef : insertHost host x = (insertLoop host none false (words host x)).1 ++
      if (insertLoop host none false (words host x)).2 = false ∧ (words host x).getLast? = some 0
      then text "::" else [] := rfl
  rw [hdef, hwords, List.append_assoc, hloop]
  cases k with
  | zero =>
      -- nothing is left out, and the last word is not zero
      have hlast : l.getLast? ≠ some 0 := fun h => hl 0 (List.mem_of_getLast? h) rfl
      rw [hk rfl, if_pos rfl, List.replicate_zero, List.append_nil, List.append_nil,
        if_neg fun h => hlast h.2, insertLoop, List.append_nil, List.append_nil]
  | succ k =>
      rw [insertLoop_run host k prev hr, if_neg k.succ_ne_zero]
      cases r with
      | nil =>
          -- the run reaches the end, where its colons are written
          have hlast : (l ++ (List.replicate (k + 1) 0 ++ [])).getLast? = some (0 : BitVec (8 * 2)) := by
            rw [List.append_nil, List.replicate_succ', ← List.append_assoc, List.getLast?_concat]
          rw [if_pos rfl, if_pos ⟨rfl, hlast⟩, GroupText.compressed, List.map_nil,
            List.intercalate_nil, List.append_nil, List.append_nil]
          rfl
      | cons word r =>
          rw [if_neg (List.cons_ne_nil _ _), if_neg fun h => Bool.noConfusion h.1,
            wordsAfter_eq host (List.cons_ne_nil _ _), GroupText.compressed, List.append_assoc]
          simp

/-- The group that a word is.  It is what the machine reads, swapped where it needs it. -/
def group (word : BitVec (8 * 2)) : ℕ := (byteswapOnLittleEndian host 2 word).toNat

/-- The groups of an address are those of its words. -/
theorem groups_eq (x : SockaddrIn6) : groups x = (words host x).map (group host) := by
  have hload : ∀ a b : UInt8, (Endian.big.load 2 [a, b]).toNat = 256 * a.toNat + b.toNat := by
    intro a b
    have ha := a.toNat_lt
    have hb := b.toNat_lt
    rw [Endian.load, BitVec.toNat_ofNat, List.reverse_cons, List.reverse_singleton,
      List.singleton_append, ofLE, ofLE, ofLE, Nat.mod_eq_of_lt (by omega)]
    omega
  rw [groups, words, List.map_map]
  refine List.map_congr_left fun i _ => ?_
  rw [Function.comp_apply, group, byteswapOnLittleEndian_load host (n := 2) rfl, hload]

/-- What is written for words are texts of their groups. -/
theorem forall₂_hexWord (ws : List (BitVec (8 * 2))) :
    List.Forall₂ IsGroup (ws.map (hexWord host)) (ws.map (group host)) := by
  rw [List.forall₂_map_left_iff, List.forall₂_map_right_iff, List.forall₂_same]
  exact fun word _ => isGroup_toHex (BitVec.isLt _)

/-- **What stands between the brackets is a text of the eight groups.** -/
theorem denotes_insertHost (x : SockaddrIn6) : Denotes (insertHost host x) (groups x) := by
  obtain ⟨l, k, r, hwords, hl, hr, hk⟩ := GroupText.exists_run 0 (words host x)
  have hlength : (words host x).length = 8 := by rw [words, List.length_map, List.length_finRange]
  have hzero : group host 0 = 0 := by cases host <;> decide
  rw [insertHost_eq host x hwords hl hr hk, groups_eq host]
  split_ifs with hk0
  · rw [hwords, hk0, hk hk0, List.replicate_zero, List.append_nil, List.append_nil] at hlength ⊢
    exact .full (forall₂_hexWord host l) (by rw [List.length_map, hlength])
  · have hgroups : (words host x).map (group host) =
        l.map (group host) ++ List.replicate k 0 ++ r.map (group host) := by
      rw [hwords, List.map_append, List.map_append, List.map_replicate, hzero]
    rw [hwords] at hlength
    simp only [List.length_append, List.length_replicate] at hlength
    rw [hgroups]
    exact .compressed (forall₂_hexWord host l) (forall₂_hexWord host r) k (by omega)
      (by rw [List.length_map, List.length_map, hlength])

/-! ### Distinct addresses -/

/-- No text of groups has a closing bracket in it. -/
theorem notMem_of_denotes {t : Bytes} {gs : List ℕ} (h : Denotes t gs) : 93 ∉ t := by
  intro hmem
  rcases h.mem hmem with heq | ⟨p, g, hp, hmem⟩
  · exact absurd heq (by decide)
  · exact absurd (hp.digits 93 hmem) (by decide)

/-- Addresses with the same groups are the same. -/
theorem addr_eq_of_groups {x y : SockaddrIn6} (h : groups x = groups y) : x.addr = y.addr := by
  have hgroup : ∀ i : Fin 8, x.addr ⟨2 * i, by omega⟩ = y.addr ⟨2 * i, by omega⟩ ∧
      x.addr ⟨2 * i + 1, by omega⟩ = y.addr ⟨2 * i + 1, by omega⟩ := by
    intro i
    have hi := List.map_inj_left.1 h i (List.mem_finRange i)
    have hx := (x.addr ⟨2 * i + 1, by omega⟩).toNat_lt
    have hy := (y.addr ⟨2 * i + 1, by omega⟩).toNat_lt
    exact ⟨UInt8.toNat_inj.1 (by omega), UInt8.toNat_inj.1 (by omega)⟩
  funext i
  have hi := hgroup ⟨i / 2, by omega⟩
  rcases Nat.mod_two_eq_zero_or_one i with hmod | hmod
  · have heven : (⟨2 * (i / 2), by omega⟩ : Fin 16) = i := Fin.ext (by simp; omega)
    rw [← heven]
    exact hi.1
  · have hodd : (⟨2 * (i / 2) + 1, by omega⟩ : Fin 16) = i := Fin.ext (by simp; omega)
    rw [← hodd]
    exact hi.2

/-- Ports with the same number are the same. -/
theorem port_eq_of_getPort {x y : SockaddrIn6} (h : getPort host x = getPort host y) :
    x.port = y.port := by
  have hswap := BitVec.eq_of_toNat_eq h
  rw [← byteswapOnLittleEndian_self host 2 x.port, hswap, byteswapOnLittleEndian_self]

/-- **The text of an IPv6 address is faithful.**  Between the brackets is a text of its eight
groups, behind them the port; and a text is that of one address and port only.  The first
closing bracket is the one behind the groups, so that a text is read from the front.  The loop
is `src/hiper/base/address.cc:422-447`: it leaves out a first run of zero groups, and writes the
second colon when the run is over, or behind the loop if it never was. -/
theorem insert_faithful (x : SockaddrIn6) :
    (∃ t, insert host x = text "[" ++ t ++ text "]:" ++ decimal (getPort host x) ∧
      Denotes t (groups x)) ∧
    ∀ y, insert host x = insert host y → x.addr = y.addr ∧ x.port = y.port := by
  refine ⟨⟨_, rfl, denotes_insertHost host x⟩, fun y h => ?_⟩
  have hx := denotes_insertHost host x
  have hy := denotes_insertHost host y
  have hform : ∀ z, insert host z =
      91 :: (insertHost host z ++ 93 :: 58 :: decimal (getPort host z)) := by
    intro z
    rw [insert, List.append_assoc, List.append_assoc]
    rfl
  rw [hform, hform] at h
  obtain ⟨hhost, hport⟩ :=
    append_sep_inj (notMem_of_denotes hx) (notMem_of_denotes hy) (List.cons.inj h).2
  refine ⟨addr_eq_of_groups (hx.unique isGroupText hy hhost), port_eq_of_getPort host ?_⟩
  rw [← readDecimal_decimal (getPort host x), (List.cons.inj hport).2, readDecimal_decimal]

end IPv6Address

end Hiper

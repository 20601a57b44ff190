import Hiper.Http.Message

/-!
# Splitting parameters and cookies

`PARSE_PARAM` of `http.cc`, as the loop over positions that it is
(`parseParamLoop`), against the reference that splits the string first
(`pairsOf`).  The loop looks for the `=` before it looks for the delimiter, so a
segment without `=` becomes part of the next key: the pairs are those of the
segments exactly when no such segment stands before one with `=` (`splitting_iff`).

The macro is `http.cc:215-232`.  Three texts are given to it: the query and the body with
`&`, and the cookie header with `;`, where the names are trimmed (`Source`).  The reference
is stated without positions, as a split at the delimiter and then one cut at the first `=`
in each segment (`pairsOf`); both sides insert into the map with the first value winning, so
that the maps agree when the pairs do, and the pairs are compared by gluing the segments
without `=` to the one behind them (`glued`).
-/

namespace Hiper

namespace Http

open Lib StringUtil

/-! ### The loop -/

/-- `str.find(c, pos)`; nothing for `npos`.  The position is counted from the front of the
string. -/
def findFrom (str : Bytes) (c : Byte) (pos : ℕ) : Option ℕ :=
  ((str.drop pos).findIdx? (· == c)).map (pos + ·)

/-- `str.substr(pos, n)`.  It is cut at the end of the string. -/
def substr (str : Bytes) (pos n : ℕ) : Bytes := (str.drop pos).take n

/-- What is found is at or behind the place that was given, and in the string. -/
theorem findFrom_eq_some {str : Bytes} {c : Byte} {pos p : ℕ} (h : findFrom str c pos = some p) :
    pos ≤ p ∧ p < str.length := by
  obtain ⟨i, hi, rfl⟩ := Option.map_eq_some_iff.1 h
  have hlt := (List.findIdx?_eq_some_iff_findIdx_eq.1 hi).1
  rw [List.length_drop] at hlt
  omega

/-- `PARSE_PARAM(str, m, flag, trim)` from `pos` on: what is inserted into `m`.  It is the loop
of the source, position for position. -/
def parseParamLoop (flag : Byte) (trim : Bytes → Bytes) (str : Bytes) (last : ℕ) : List Entry :=
  match _h : findFrom str 61 last with
  | none => []
  | some key =>
    match _h' : findFrom str flag key with
    -- `npos - key - 1` is more than there is: the rest of the string
    | none => [(trim (substr str last (key - last)), urlDecode (str.drop (key + 1)) true)]
    | some pos =>
      (trim (substr str last (key - last)), urlDecode (substr str (key + 1) (pos - key - 1)) true) ::
        parseParamLoop flag trim str (pos + 1)
termination_by str.length - last
decreasing_by
  have hkey := findFrom_eq_some _h
  have hpos := findFrom_eq_some _h'
  omega

/-! ### The reference -/

/-- The pair of a segment with `=`.  The key is trimmed and the value decoded. -/
def pairOf (trim : Bytes → Bytes) (segment : Bytes) : Option Entry :=
  if 61 ∈ segment then
    some (trim (segment.takeWhile (· != 61)), urlDecode (segment.dropWhile (· != 61)).tail true)
  else none

/-- Split at the delimiter, then one pair for each segment with `=`.  It is what a reader of a
query expects. -/
def pairsOf (flag : Byte) (trim : Bytes → Bytes) (str : Bytes) : List Entry :=
  (str.splitOn flag).filterMap (pairOf trim)

/-- The value of the first pair for the key, ignoring case.  It is what the map has when the
pairs are inserted in their order. -/
def firstValue (key : Bytes) (pairs : List Entry) : Option Bytes :=
  (pairs.find? fun e => caseEq e.1 key).map (·.2)

/-- What is parsed into a map when it is first asked for.  They are the three uses of the macro. -/
inductive Source
  | query
  | body
  | cookie
  deriving DecidableEq, Repr

namespace Source

/-- The delimiter of the source. -/
def flag : Source → Byte
  | query => 38
  | body => 38
  | cookie => 59

/-- What is done to a key: for cookies its blanks are trimmed. -/
def trim : Source → Bytes → Bytes
  | query => id
  | body => id
  | cookie => StringUtil.trim

/-- The text of the source in a request. -/
def text (r : HttpRequest) : Source → Bytes
  | query => r.query
  | body => r.body
  | cookie => r.getHeader (StringUtil.text "cookie") []

/-- It is not parsed yet, and it is going to be.  A body that is no form is never parsed. -/
def pending (r : HttpRequest) : Source → Prop
  | query => r.parserParamFlag.query = false
  | body => r.parserParamFlag.body = false ∧ r.isForm = true
  | cookie => r.parserParamFlag.cookies = false

/-- The method that parses the source. -/
def init (r : HttpRequest) : Source → HttpRequest
  | query => r.initQueryParam
  | body => r.initBodyParam
  | cookie => r.initCookies

/-- The map it is parsed into.  Query and body share theirs. -/
def map (r : HttpRequest) : Source → MapType
  | query => r.params
  | body => r.params
  | cookie => r.cookies

end Source

/-- What is parsed of the string is what its segments say, and the first pair for a key wins.
The key is compared ignoring case. -/
structure Splits (s : Source) (str : Bytes) : Prop where
  pairs : parseParamLoop s.flag s.trim str 0 = pairsOf s.flag s.trim str
  values : ∀ r, s.text r = str → s.pending r → ∀ key,
    (s.map (s.init r)).lookup key =
      ((s.map r).lookup key).or (firstValue key (pairsOf s.flag s.trim str))

/-- No segment without `=` stands before one with `=`.  It is a condition on the string. -/
def BareLast (flag : Byte) (str : Bytes) : Prop :=
  (str.splitOn flag).Pairwise fun a b => 61 ∈ b → 61 ∈ a

/-! ### The loop takes what stands before and behind the `=` -/

/-- A byte that is not found is not behind the place. -/
theorem findFrom_none {str : Bytes} {c : Byte} {pos : ℕ} (h : findFrom str c pos = none) :
    c ∉ str.drop pos := by
  rw [findFrom, Option.map_eq_none_iff, List.findIdx?_eq_none_iff] at h
  intro hmem
  simpa using h c hmem

/-- Where the byte is found cuts the string.  The part before it has none. -/
theorem split_at_find {str : Bytes} {c : Byte} {pos p : ℕ} (h : findFrom str c pos = some p) :
    str.drop pos = substr str pos (p - pos) ++ c :: str.drop (p + 1) ∧
      c ∉ substr str pos (p - pos) := by
  obtain ⟨i, hi, rfl⟩ := Option.map_eq_some_iff.1 h
  obtain ⟨hlt, hc, hbefore⟩ := List.findIdx?_eq_some_iff_getElem.1 hi
  rw [Nat.add_sub_cancel_left, substr]
  constructor
  · have hcons := List.drop_eq_getElem_cons hlt
    rw [beq_iff_eq.1 hc, List.drop_drop, List.drop_drop] at hcons
    have hcut := List.take_append_drop i (str.drop pos)
    rw [List.drop_drop, hcons] at hcut
    exact hcut.symm
  · intro hmem
    obtain ⟨j, hj, hcj⟩ := List.mem_take_iff_getElem.1 hmem
    exact hbefore j (by omega) (by simp [hcj])

/-- The search may start behind the `=`.  The `=` itself is no delimiter. -/
theorem findFrom_succ {str rest : Bytes} {c d : Byte} {pos : ℕ} (h : str.drop pos = d :: rest)
    (hne : d ≠ c) : findFrom str c pos = findFrom str c (pos + 1) := by
  have hrest : str.drop (pos + 1) = rest := by
    rw [← List.drop_drop, h]
    rfl
  have hd : (d == c) = false := by simpa using hne
  rw [findFrom, findFrom, h, hrest, List.findIdx?_cons, if_neg (by rw [hd]; exact Bool.false_ne_true),
    Option.map_map]
  congr 1
  funext i
  simp only [Function.comp_apply]
  omega

/-- The loop at a position parses what is behind it.  The induction is over what is left of the
string. -/
theorem parseParamLoop_eq {flag : Byte} (hflag : flag ≠ 61) (trim : Bytes → Bytes) (str : Bytes)
    (last : ℕ) : parseParamLoop flag trim str last = parseParam flag trim (str.drop last) := by
  have hequals : ∀ {last key}, findFrom str 61 last = some key →
      findFrom str flag key = findFrom str flag (key + 1) := by
    intro last key hkey
    obtain ⟨hle, hlt⟩ := findFrom_eq_some hkey
    have hlength : (substr str last (key - last)).length = key - last := by
      rw [substr, List.length_take, List.length_drop]
      omega
    have hdrop := congrArg (List.drop (key - last)) (split_at_find hkey).1
    rw [List.drop_drop, List.drop_left' hlength, Nat.add_sub_cancel' hle] at hdrop
    exact findFrom_succ hdrop hflag.symm
  fun_induction parseParamLoop flag trim str last with
  | case1 last hnone => exact (parseParam_of_notMem (findFrom_none hnone)).symm
  | case2 last key hkey hnone =>
      obtain ⟨hcut, hbefore⟩ := split_at_find hkey
      rw [hequals hkey] at hnone
      rw [hcut, parseParam_last hbefore (findFrom_none hnone)]
  | case3 last key hkey pos hpos ih =>
      obtain ⟨hcut, hbefore⟩ := split_at_find hkey
      rw [hequals hkey] at hpos
      obtain ⟨hcut', hbefore'⟩ := split_at_find hpos
      rw [hcut, hcut', parseParam_cons hbefore hbefore', ih, Nat.sub_sub]

/-! ### The segments -/

/-- What the loop makes of the segments: what stands before the `=` of a segment, with the
segments without `=` before it, is the key.  It goes over the segments from the left. -/
def glued (flag : Byte) (trim : Bytes → Bytes) : Bytes → List Bytes → List Entry
  | _, [] => []
  | pre, segment :: segments =>
    if 61 ∈ segment then
      (trim (pre ++ segment.takeWhile (· != 61)),
        urlDecode (segment.dropWhile (· != 61)).tail true) :: glued flag trim [] segments
    else glued flag trim (pre ++ segment ++ [flag]) segments

/-- A segment with `=` is cut at the first. -/
theorem cut_of_mem {segment : Bytes} (h : 61 ∈ segment) :
    segment = segment.takeWhile (· != 61) ++ 61 :: (segment.dropWhile (· != 61)).tail ∧
      61 ∉ segment.takeWhile (· != 61) := by
  obtain ⟨key, value, rfl, hkey⟩ := List.eq_append_cons_of_mem h
  obtain ⟨hdrop, htake⟩ := dropWhile_append_cons (bne_of_notMem hkey) (c := 61) rfl value
  rw [hdrop, htake]
  exact ⟨rfl, hkey⟩

/-- The parser of a joined string makes of its segments what `glued` does.  The induction is
over the segments. -/
theorem parseParam_intercalate {flag : Byte} (hflag : flag ≠ 61) (trim : Bytes → Bytes)
    {segments : List Bytes} (hfree : ∀ s ∈ segments, flag ∉ s) {pre : Bytes} (hpre : 61 ∉ pre)
    (hne : segments ≠ []) :
    parseParam flag trim (pre ++ [flag].intercalate segments) = glued flag trim pre segments := by
  induction segments generalizing pre with
  | nil => exact absurd rfl hne
  | cons s segments ih =>
      obtain ⟨hs, hfree⟩ := List.forall_mem_cons.1 hfree
      rw [glued]
      split_ifs with heq
      · obtain ⟨hcut, hkey⟩ := cut_of_mem heq
        have hvalue : flag ∉ (s.dropWhile (· != 61)).tail := fun hmem =>
          hs (hcut ▸ List.mem_append_right _ (List.mem_cons_of_mem _ hmem))
        have hkey' : 61 ∉ pre ++ s.takeWhile (· != 61) := by
          rw [List.mem_append]
          exact not_or.2 ⟨hpre, hkey⟩
        cases segments with
        | nil =>
            rw [List.intercalate_singleton]
            conv_lhs => rw [hcut, ← List.append_assoc]
            exact parseParam_last hkey' hvalue
        | cons t segments =>
            rw [List.intercalate_cons_cons]
            conv_lhs => rw [hcut]
            rw [← ih hfree List.not_mem_nil (List.cons_ne_nil _ _), List.nil_append,
              ← parseParam_cons hkey' hvalue]
            simp only [List.append_assoc, List.cons_append, List.nil_append]
      · have hpre' : 61 ∉ pre ++ s ++ [flag] := by
          simp only [List.mem_append, List.mem_singleton, not_or]
          exact ⟨⟨hpre, heq⟩, hflag.symm⟩
        cases segments with
        | nil =>
            rw [List.intercalate_singleton, glued, parseParam_of_notMem]
            exact fun hmem => hpre' (List.mem_append_left _ hmem)
        | cons t segments =>
            rw [← ih hfree hpre' (List.cons_ne_nil _ _), List.intercalate_cons_cons]
            simp only [List.append_assoc]

/-- A segment of a split string is free of the delimiter.  It may be empty. -/
theorem notMem_of_mem_splitOn {flag : Byte} {str s : Bytes} (h : s ∈ str.splitOn flag) : flag ∉ s := by
  induction hn : str.length using Nat.strongRecOn generalizing str with
  | _ n ih =>
      by_cases hmem : flag ∈ str
      · obtain ⟨before, rest, rfl, hbefore⟩ := List.eq_append_cons_of_mem hmem
        rw [List.splitOn_append_cons_self_of_not_mem hbefore] at h
        rcases List.mem_cons.1 h with rfl | h
        · exact hbefore
        · refine ih rest.length ?_ h rfl
          rw [← hn, List.length_append, List.length_cons]
          omega
      · rw [List.splitOn_eq_singleton hmem, List.mem_singleton] at h
        rwa [h]

/-- What the loop makes of a string.  Every string is its segments, joined. -/
theorem parseParam_eq_glued {flag : Byte} (hflag : flag ≠ 61) (trim : Bytes → Bytes) (str : Bytes) :
    parseParam flag trim str = glued flag trim [] (str.splitOn flag) := by
  rw [← parseParam_intercalate hflag trim (fun s => notMem_of_mem_splitOn) List.not_mem_nil
    (List.splitOn_ne_nil flag str), List.nil_append, List.intercalate_splitOn]

/-- It is what the segments say when those without `=` come last.  A segment without `=` that is
glued puts a delimiter into a key, and no key of the reference has one. -/
theorem glued_eq_iff {flag : Byte} {trim : Bytes → Bytes} (htrim : ∀ s, flag ∈ trim s ↔ flag ∈ s)
    {segments : List Bytes} (hfree : ∀ s ∈ segments, flag ∉ s) {pre : Bytes}
    (hpre : pre = [] ∨ flag ∈ pre) :
    glued flag trim pre segments = segments.filterMap (pairOf trim) ↔
      (flag ∈ pre → ∀ s ∈ segments, 61 ∉ s) ∧ segments.Pairwise fun a b => 61 ∈ b → 61 ∈ a := by
  induction segments generalizing pre with
  | nil => simp [glued]
  | cons s segments ih =>
      obtain ⟨hs, hfree⟩ := List.forall_mem_cons.1 hfree
      rw [glued, List.filterMap_cons, pairOf, List.forall_mem_cons, List.pairwise_cons]
      split_ifs with heq
      · have hkey : flag ∉ s.takeWhile (· != 61) := fun hmem =>
          hs ((List.takeWhile_sublist _).subset hmem)
        have htrimmed : trim (pre ++ s.takeWhile (· != 61)) = trim (s.takeWhile (· != 61)) ↔
            flag ∉ pre := by
          constructor
          · intro hsame hmem
            refine hkey ((htrim _).1 (hsame ▸ (htrim _).2 (List.mem_append_left _ hmem)))
          · intro hmem
            rw [hpre.resolve_right hmem, List.nil_append]
        simp only [List.cons.injEq, Prod.mk.injEq, and_true, htrimmed,
          ih hfree (Or.inl rfl), List.not_mem_nil, false_imp_iff, true_and, heq, not_true_eq_false,
          false_and, imp_false, imp_true_iff]
      · simp only [ih hfree (Or.inr (List.mem_append_right _ (List.mem_singleton_self flag))),
          List.mem_append, List.mem_singleton, or_true, true_imp_iff, heq, not_false_iff,
          imp_false, true_and]
        exact ⟨fun h => ⟨fun _ => h.1, h.1, h.2⟩, fun h => h.2⟩

/-! ### The map -/

/-- The first value for a key wins.  What was in the map before wins over all of them. -/
theorem lookup_insertAll (m : MapType) (es : List Entry) (key : Bytes) :
    (m.insertAll es).lookup key = (m.lookup key).or (firstValue key es) := by
  induction es generalizing m with
  | nil => exact (Option.or_none).symm
  | cons e es ih =>
      rw [MapType.insertAll, List.foldl_cons, ← MapType.insertAll, ih, MapType.lookup_insert,
        Option.or_assoc, firstValue, firstValue, List.find?_cons]
      by_cases hkey : entryKey e = caseKey key
      · rw [if_pos hkey, show caseEq e.1 key = true from decide_eq_true hkey]
        rfl
      · rw [if_neg hkey, show caseEq e.1 key = false from decide_eq_false hkey]
        rfl

/-- Dropping blanks drops nothing else. -/
theorem mem_dropWhile_isBlank {c : Byte} (hc : isBlank c = false) (s : Bytes) :
    c ∈ s.dropWhile isBlank ↔ c ∈ s := by
  conv_rhs => rw [← List.takeWhile_append_dropWhile (p := isBlank) (l := s), List.mem_append]
  refine (or_iff_right fun hmem => ?_).symm
  rw [List.mem_takeWhile_imp hmem] at hc
  cases hc

/-- Only blanks are trimmed.  So a trimmed key has the delimiter when the key has. -/
theorem mem_trim {c : Byte} (hc : isBlank c = false) (s : Bytes) : c ∈ StringUtil.trim s ↔ c ∈ s := by
  rw [StringUtil.trim, List.mem_reverse, mem_dropWhile_isBlank hc, List.mem_reverse,
    mem_dropWhile_isBlank hc]

namespace Source

/-- No delimiter is an `=`. -/
theorem flag_ne (s : Source) : s.flag ≠ 61 := by
  cases s <;> decide

/-- A key has the delimiter exactly when it has it after trimming. -/
theorem flag_mem_trim (s : Source) (str : Bytes) : s.flag ∈ s.trim str ↔ s.flag ∈ str := by
  cases s with
  | query => exact Iff.rfl
  | body => exact Iff.rfl
  | cookie => exact mem_trim rfl str

/-- The map gets what is parsed.  When it is not parsed yet. -/
theorem map_init {s : Source} {r : HttpRequest} (h : s.pending r) :
    s.map (s.init r) = (s.map r).insertAll (parseParam s.flag s.trim (s.text r)) := by
  cases s with
  | query =>
      rw [init, HttpRequest.initQueryParam, if_neg (by rw [h]; exact Bool.false_ne_true)]
      rfl
  | body =>
      rw [init, HttpRequest.initBodyParam, if_neg (by rw [h.1]; exact Bool.false_ne_true), h.2]
      rfl
  | cookie =>
      rw [init, HttpRequest.initCookies, if_neg (by rw [h]; exact Bool.false_ne_true)]
      dsimp only
      split_ifs with hempty
      · rw [text, List.isEmpty_iff.1 hempty, parseParam_of_notMem List.not_mem_nil]
        rfl
      · rfl

end Source

/-- The literal loop is the parser that the requests use.  From the first position on. -/
theorem parseParamLoop_zero (s : Source) (str : Bytes) :
    parseParamLoop s.flag s.trim str 0 = parseParam s.flag s.trim str := by
  rw [parseParamLoop_eq s.flag_ne, List.drop_zero]

/-- The pairs are those of the segments exactly when the bare segments come last. -/
theorem pairs_iff (s : Source) (str : Bytes) :
    parseParam s.flag s.trim str = pairsOf s.flag s.trim str ↔ BareLast s.flag str := by
  rw [parseParam_eq_glued s.flag_ne, pairsOf, glued_eq_iff s.flag_mem_trim
    (fun _ => notMem_of_mem_splitOn) (Or.inl rfl)]
  exact and_iff_right fun h => absurd h List.not_mem_nil

/-- **Splitting.**  A string is parsed as its segments say exactly when no segment without `=`
stands before one with `=`.  For every string, and each of the three sources.  The macro
(`src/hiper/http/http.cc:215-232`) looks for the next `=` in line 219 before it looks for the
separator in line 224, and so passes over one that stands before it. -/
theorem splitting_iff (s : Source) (str : Bytes) : Splits s str ↔ BareLast s.flag str := by
  constructor
  · rintro ⟨hpairs, -⟩
    rw [parseParamLoop_zero] at hpairs
    exact (pairs_iff s str).1 hpairs
  · intro h
    have hpairs := (pairs_iff s str).2 h
    refine ⟨(parseParamLoop_zero s str).trans hpairs, ?_⟩
    rintro r rfl hpending key
    rw [Source.map_init hpending, lookup_insertAll, hpairs]

/-- `a&b=1` is the pair of `a&b` and `1`, not of `b` and `1`.  The failing input. -/
theorem bare_segment_joins_key :
    parseParamLoop 38 id (text "a&b=1") 0 = [(text "a&b", text "1")] ∧
      pairsOf 38 id (text "a&b=1") = [(text "b", text "1")] ∧ ¬Splits .query (text "a&b=1") := by
  have hsplit : (text "a&b=1").splitOn 38 = [text "a", text "b=1"] := by
    have hcut : text "a&b=1" = text "a" ++ 38 :: text "b=1" := by decide
    rw [hcut, List.splitOn_append_cons_self_of_not_mem (by decide),
      List.splitOn_eq_singleton (by decide)]
  have hloop : parseParamLoop 38 id (text "a&b=1") 0 = [(text "a&b", text "1")] := by
    decide +kernel
  have hpairs : pairsOf 38 id (text "a&b=1") = [(text "b", text "1")] := by
    rw [pairsOf, hsplit]
    decide +kernel
  refine ⟨hloop, hpairs, fun h => ?_⟩
  have hsame := hloop.symm.trans (h.pairs.trans hpairs)
  revert hsame
  decide

end Http

end Hiper

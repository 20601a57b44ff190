import Hiper.Http.Message
import Mathlib.Algebra.Order.BigOperators.Group.List

/-!
# Forms

A query or a form body that joins encoded keys and values with `=` and `&`.
`PARSE_PARAM` decodes the values and leaves the keys as they are
(`parseParam_encodeForm`), so the parameters come back under their keys exactly when
no key has a byte that the encoder changes (`form_decoding_iff`).

The functions are the macro `PARSE_PARAM` (`http.cc:215-232`), which is used for the query
(`http.cc:235`) and for a body of the type `application/x-www-form-urlencoded`
(`http.cc:246`), and `getParam` (`http.cc:92`) and `hasParam` (`http.cc:149`).  A key that
the encoder changes is stored under its code, which is longer; that such parameters do not
come back is shown by length: the code of a key that is changed would have to be another key
that is changed, with a longer code, and so on without end.
-/

namespace Hiper

namespace Http

open Lib StringUtil

/-- `UrlEncode(key) + '=' + UrlEncode(value)`, joined with `&`.  As a client writes it. -/
def encodeForm : List Entry → Bytes
  | [] => []
  | [p] => urlEncode p.1 true ++ 61 :: urlEncode p.2 true
  | p :: ps => urlEncode p.1 true ++ 61 :: (urlEncode p.2 true ++ 38 :: encodeForm ps)

/-- A request, nothing of it parsed yet, whose parameters are this text.  In the query, or in
the body of a form. -/
structure HasForm (r : HttpRequest) (form : Bytes) : Prop where
  unparsed : r.parserParamFlag.query = false ∧ r.parserParamFlag.body = false
  params : r.params = .empty
  form : (r.query = form ∧ (r.isForm = false ∨ r.body = [])) ∨
    (r.isForm = true ∧ r.body = form ∧ r.query = [])

/-- Two keys that differ in more than case.  The map takes keys that differ in case for one. -/
def KeysDiffer (a b : Bytes) : Prop := a.map tolower ≠ b.map tolower
  deriving Decidable

/-- The parameters of the request are these, by `getParam` and by `hasParam`.  Other keys have
nothing. -/
def Decodes (r : HttpRequest) (pairs : List Entry) : Prop :=
  (∀ p ∈ pairs, (r.getParam p.1 []).1 = p.2) ∧
    ∀ key, 0 ∉ key → (∀ p ∈ pairs, KeysDiffer key p.1) → (r.hasParam key).1 = none

/-! ### Encoded keys -/

/-- A hex digit is no character that is none. -/
theorem isxdigit_ne {ch c : Byte} (h : isxdigit ch = true) (hc : isxdigit c = false) : ch ≠ c := by
  rintro rfl
  rw [h] at hc
  cases hc

/-- Only upper case letters become lower case letters.  Other characters stay. -/
theorem eq_of_tolower {ch c : Byte} (h : tolower ch = c) (hc : islower c = false) : ch = c := by
  rw [tolower] at h
  split_ifs at h with hupper
  · subst h
    simp only [isupper, islower, Bool.and_eq_true, Bool.and_eq_false_iff, decide_eq_true_eq,
      decide_eq_false_iff_not, UInt8.le_iff_toNat_le, UInt8.toNat_add] at hupper hc
    have h65 : (65 : UInt8).toNat = 65 := rfl
    have h90 : (90 : UInt8).toNat = 90 := rfl
    have h32 : (32 : UInt8).toNat = 32 := rfl
    have h97 : (97 : UInt8).toNat = 97 := rfl
    have h122 : (122 : UInt8).toNat = 122 := rfl
    omega
  · exact h

/-- An unreserved character is no character that is none. -/
theorem isUnreserved_ne {ch c : Byte} (h : isUnreserved ch = true) (hc : isUnreserved c = false) :
    ch ≠ c := by
  rintro rfl
  rw [h] at hc
  cases hc

/-- A byte that is in no encoded text.  It is neither unreserved nor part of an escape. -/
theorem notMem_of_encoded {spaceAsPlus : Bool} {s : Bytes} {c : Byte}
    (h : Encoded spaceAsPlus s) (hkeep : isUnreserved c = false) (hdigit : isxdigit c = false)
    (hpercent : c ≠ 37) (hplus : c ≠ 43) : c ∉ s := by
  have hcons : ∀ {ch : Byte} {rest : Bytes}, ch ≠ c → c ∉ rest → c ∉ ch :: rest :=
    fun hne hrest => List.not_mem_cons_of_ne_of_not_mem hne.symm hrest
  induction h with
  | nil => exact List.not_mem_nil
  | unreserved hch _ ih => exact hcons (isUnreserved_ne hch hkeep) ih
  | escape ha hb _ ih =>
      exact hcons hpercent.symm (hcons (isxdigit_ne ha hdigit) (hcons (isxdigit_ne hb hdigit) ih))
  | plus _ _ ih => exact hcons hplus.symm ih

/-- No encoded text has a `=`. -/
theorem equals_notMem (s : Bytes) : 61 ∉ urlEncode s true :=
  notMem_of_encoded (encoded_urlEncode s true) rfl rfl (by decide) (by decide)

/-- No encoded text has a `&`. -/
theorem ampersand_notMem (s : Bytes) : 38 ∉ urlEncode s true :=
  notMem_of_encoded (encoded_urlEncode s true) rfl rfl (by decide) (by decide)

/-- No encoded text has a zero byte. -/
theorem zero_notMem (s : Bytes) : 0 ∉ urlEncode s true :=
  notMem_of_encoded (encoded_urlEncode s true) rfl rfl (by decide) (by decide)

/-- The encoder leaves an unreserved key alone.  So it is stored under itself. -/
theorem urlEncode_of_unreserved {s : Bytes} (h : ∀ ch ∈ s, isUnreserved ch = true) :
    urlEncode s true = s := by
  induction s with
  | nil => rfl
  | cons ch s ih =>
      obtain ⟨hch, hs⟩ := List.forall_mem_cons.1 h
      rw [urlEncode, List.flatMap_cons, ← urlEncode, ih hs, encodeChar, if_pos hch]
      rfl

/-- The code of a character has one byte at least. -/
theorem one_le_length_encodeChar (ch : Byte) : 1 ≤ (encodeChar true ch).length := by
  rw [encodeChar]
  split_ifs
  · exact le_rfl
  · exact le_rfl
  · rw [List.length_cons]
    omega

/-- The code of a text is no shorter. -/
theorem length_le_urlEncode (s : Bytes) : s.length ≤ (urlEncode s true).length := by
  induction s with
  | nil => exact le_rfl
  | cons ch s ih =>
      have hch := one_le_length_encodeChar ch
      rw [urlEncode, List.flatMap_cons, ← urlEncode, List.length_append, List.length_cons]
      omega

/-- A byte that must be escaped makes the text longer.  A blank becomes a `+` and does not. -/
theorem length_lt_urlEncode {s : Bytes} {c : Byte} (hc : c ∈ s) (hkeep : isUnreserved c = false)
    (hspace : c ≠ 32) : s.length < (urlEncode s true).length := by
  induction s with
  | nil => cases hc
  | cons ch s ih =>
      rw [urlEncode, List.flatMap_cons, ← urlEncode, List.length_append, List.length_cons]
      rcases List.mem_cons.1 hc with rfl | hc
      · have hspace' : (c == 32 && true) = false := by simpa using hspace
        have hle := length_le_urlEncode s
        rw [encodeChar_escape hkeep hspace']
        simp only [List.length_cons, List.length_nil]
        omega
      · have hch := one_le_length_encodeChar ch
        have hlt := ih hc
        omega

/-- What the encoder changes has a `%` or a `+` in its code.  Neither is unreserved. -/
theorem percent_or_plus_mem {s : Bytes} (h : ¬∀ ch ∈ s, isUnreserved ch = true) :
    37 ∈ urlEncode s true ∨ 43 ∈ urlEncode s true := by
  push Not at h
  obtain ⟨ch, hch, hkeep⟩ := h
  have hkeep : isUnreserved ch = false := by simpa using hkeep
  have hmem : ∀ c ∈ encodeChar true ch, c ∈ urlEncode s true := fun c hc =>
    List.mem_flatMap.2 ⟨ch, hch, hc⟩
  by_cases hspace : ch = 32
  · subst hspace
    exact Or.inr (hmem 43 (by decide))
  · refine Or.inl (hmem 37 ?_)
    rw [encodeChar_escape hkeep (by simpa using hspace)]
    exact List.mem_cons_self ..

/-! ### Parsing a form -/

/-- The parser finds the pairs again, with the keys as they were encoded.  The induction is over
the pairs. -/
theorem parseParam_encodeForm (pairs : List Entry) :
    parseParam 38 id (encodeForm pairs) = pairs.map fun p => (urlEncode p.1 true, p.2) := by
  induction pairs with
  | nil => exact parseParam_of_notMem List.not_mem_nil
  | cons p ps ih =>
      cases ps with
      | nil =>
          rw [encodeForm, parseParam_last (equals_notMem p.1) (ampersand_notMem p.2),
            urlDecode_urlEncode]
          rfl
      | cons q ps =>
          rw [encodeForm, parseParam_cons (equals_notMem p.1) (ampersand_notMem p.2), ih,
            urlDecode_urlEncode]
          · rfl
          · nofun

/-- An empty text has no parameters. -/
theorem parseParam_nil (flag : Byte) (trim : Bytes → Bytes) : parseParam flag trim [] = [] :=
  parseParam_of_notMem List.not_mem_nil

/-- The parameters of such a request.  The query and the body are parsed into one map. -/
theorem params_of_hasForm {r : HttpRequest} {form : Bytes} (h : HasForm r form) :
    r.initQueryParam.initBodyParam.params = MapType.empty.insertAll (parseParam 38 id form) := by
  obtain ⟨hquery, hbody⟩ := h.unparsed
  have hflag : r.initQueryParam.parserParamFlag.body = false := by
    rw [HttpRequest.initQueryParam, hquery]
    exact hbody
  have hform : r.initQueryParam.isForm = r.isForm := by
    rw [HttpRequest.initQueryParam, hquery]
    rfl
  have hparams : r.initQueryParam.params = MapType.empty.insertAll (parseParam 38 id r.query) := by
    rw [HttpRequest.initQueryParam, hquery, h.params]
    rfl
  have hbody' : r.initQueryParam.body = r.body := by
    rw [HttpRequest.initQueryParam, hquery]
    rfl
  rw [HttpRequest.initBodyParam, hflag, if_neg Bool.false_ne_true, hform]
  rcases h.form with ⟨hq, hno | hempty⟩ | ⟨hyes, hb, hq⟩
  · rw [hno]
    exact hparams.trans (by rw [hq])
  · cases r.isForm with
    | false => exact hparams.trans (by rw [hq])
    | true =>
        refine (congrArg (MapType.insertAll · _) hparams).trans ?_
        rw [hbody', hempty, parseParam_nil, hq]
        rfl
  · rw [hyes]
    refine (congrArg (MapType.insertAll · _) hparams).trans ?_
    rw [hbody', hb, hq, parseParam_nil]
    rfl

/-! ### Decoding -/

variable {r : HttpRequest} {pairs : List Entry}

/-- The entries of the parameter map, when the keys are unreserved.  None of them replaces
another. -/
theorem mem_params (hr : HasForm r (encodeForm pairs))
    (hdistinct : pairs.Pairwise fun a b => KeysDiffer a.1 b.1) (hnul : ∀ p ∈ pairs, 0 ∉ p.1)
    (hkeep : ∀ p ∈ pairs, ∀ ch ∈ p.1, isUnreserved ch = true) {e : Entry} :
    e ∈ r.initQueryParam.initBodyParam.params.entries ↔ e ∈ pairs := by
  have hkeys : (pairs.map fun p => (urlEncode p.1 true, p.2)) = pairs :=
    (List.map_congr_left fun p hp => by rw [urlEncode_of_unreserved (hkeep p hp)]).trans
      (List.map_id' pairs)
  have hdistinct' : pairs.Pairwise fun a b => entryKey a ≠ entryKey b :=
    hdistinct.imp_of_mem fun ha hb hne heq =>
      hne ((caseKey_eq_iff (hnul _ ha) (hnul _ hb)).1 heq)
  rw [params_of_hasForm hr, parseParam_encodeForm, hkeys,
    MapType.mem_insertAll hdistinct' (fun _ _ x hx => absurd hx List.not_mem_nil)]
  exact or_iff_left List.not_mem_nil

/-- Whatever the keys, the map has an entry for each encoded key.  `hasParam` finds it. -/
theorem hasParam_urlEncode (hr : HasForm r (encodeForm pairs)) {p : Entry} (hp : p ∈ pairs) :
    (r.hasParam (urlEncode p.1 true)).1 ≠ none := by
  have hkey : ∃ x ∈ r.initQueryParam.initBodyParam.params.entries,
      entryKey x = caseKey (urlEncode p.1 true) := by
    rw [params_of_hasForm hr, parseParam_encodeForm, MapType.exists_key_insertAll]
    exact Or.inl ⟨_, List.mem_map_of_mem hp, rfl⟩
  obtain ⟨x, hx, hkey⟩ := hkey
  rw [HttpRequest.hasParam]
  dsimp only
  rw [MapType.find_eq_some.2 ⟨hx, hkey⟩]
  exact Option.some_ne_none x.2

/-- With unreserved keys the parameters come back. -/
theorem decodes_of_unreserved (hr : HasForm r (encodeForm pairs))
    (hdistinct : pairs.Pairwise fun a b => KeysDiffer a.1 b.1) (hnul : ∀ p ∈ pairs, 0 ∉ p.1)
    (hkeep : ∀ p ∈ pairs, ∀ ch ∈ p.1, isUnreserved ch = true) : Decodes r pairs := by
  have hmem := fun e => mem_params (e := e) hr hdistinct hnul hkeep
  constructor
  · intro p hp
    rw [HttpRequest.getParam]
    dsimp only
    rw [MapType.find_eq_some.2 ⟨(hmem p).2 hp, rfl⟩]
    rfl
  · intro key hkey hdiffer
    have hnone : r.initQueryParam.initBodyParam.params.find key = none := by
      rw [MapType.find_eq_none]
      intro e he heq
      have he := (hmem e).1 he
      exact hdiffer e he ((caseKey_eq_iff (hnul e he) hkey).1 heq).symm
    rw [HttpRequest.hasParam]
    dsimp only
    rw [hnone]
    rfl

/-- The code of a key that must be encoded is not the key of a pair that decodes: it is as long
as that key, whose own code is longer.  The step of the descent. -/
theorem longer_key_of_decodes (hr : HasForm r (encodeForm pairs)) (h : Decodes r pairs)
    {p : Entry} (hp : p ∈ pairs) (hbad : ¬∀ ch ∈ p.1, isUnreserved ch = true) :
    ∃ q ∈ pairs, (¬∀ ch ∈ q.1, isUnreserved ch = true) ∧
      (urlEncode p.1 true).length < (urlEncode q.1 true).length := by
  by_contra hno
  push Not at hno
  have hfalse := h.2 (urlEncode p.1 true) (zero_notMem p.1) ?_
  · exact hasParam_urlEncode hr hp hfalse
  · intro q hq heq
    have hlength : (urlEncode p.1 true).length = q.1.length := by
      rw [← List.length_map (f := tolower), heq, List.length_map]
    have hmem : ∀ c ∈ urlEncode p.1 true, islower c = false → isupper c = false → c ∈ q.1 := by
      intro c hc hlower hupper
      have hmap : c ∈ q.1.map tolower := by
        rw [← heq]
        exact List.mem_map.2 ⟨c, hc, by rw [tolower, hupper]; rfl⟩
      obtain ⟨ch, hch, hlow⟩ := List.mem_map.1 hmap
      rwa [eq_of_tolower hlow hlower] at hch
    obtain ⟨c, hc, hkeep, hspace⟩ : ∃ c ∈ q.1, isUnreserved c = false ∧ c ≠ 32 := by
      rcases percent_or_plus_mem hbad with hc | hc
      · exact ⟨37, hmem 37 hc rfl rfl, rfl, by decide⟩
      · exact ⟨43, hmem 43 hc rfl rfl, rfl, by decide⟩
    have hlt := length_lt_urlEncode hc hkeep hspace
    have hle := hno q hq ⟨c, hc, by simp [hkeep]⟩
    omega

/-- So there would be codes of any length.  The induction is over the length. -/
theorem long_key_of_decodes (hr : HasForm r (encodeForm pairs)) (h : Decodes r pairs) {p : Entry}
    (hp : p ∈ pairs) (hbad : ¬∀ ch ∈ p.1, isUnreserved ch = true) (n : ℕ) :
    ∃ q ∈ pairs, (¬∀ ch ∈ q.1, isUnreserved ch = true) ∧ n ≤ (urlEncode q.1 true).length := by
  induction n with
  | zero => exact ⟨p, hp, hbad, Nat.zero_le _⟩
  | succ n ih =>
      obtain ⟨q, hq, hqbad, hn⟩ := ih
      obtain ⟨q', hq', hqbad', hlt⟩ := longer_key_of_decodes hr h hq hqbad
      exact ⟨q', hq', hqbad', by omega⟩

/-- **Form decoding.**  The parameters of a request come back under their keys, and under no
other, exactly when the encoder changes no key.  For every request that carries the form, and
every list of pairs whose keys differ.  The macro is `PARSE_PARAM`
(`src/hiper/http/http.cc:215-232`): the value goes through `UrlDecode` in line 227, and the key,
line 226, through `trim` alone, which is empty for parameters. -/
theorem form_decoding_iff (pairs : List Entry)
    (hdistinct : pairs.Pairwise fun a b => KeysDiffer a.1 b.1) (hnul : ∀ p ∈ pairs, 0 ∉ p.1)
    (r : HttpRequest) (hr : HasForm r (encodeForm pairs)) :
    Decodes r pairs ↔ ∀ p ∈ pairs, ∀ ch ∈ p.1, isUnreserved ch = true := by
  refine ⟨fun h => ?_, decodes_of_unreserved hr hdistinct hnul⟩
  intro p hp
  by_contra hbad
  obtain ⟨q, hq, -, hlong⟩ := long_key_of_decodes hr h hp hbad
    ((pairs.map fun q => (urlEncode q.1 true).length).sum + 1)
  have hle := List.le_sum_of_mem (List.mem_map_of_mem (f := fun q => (urlEncode q.1 true).length) hq)
  omega

/-- A query of one pair whose key has brackets.  The key is `sub[1]`, as in the tests of the
repository. -/
def bracketPairs : List Entry := [(text "sub[1]", text "1")]

/-- A request with such a query. -/
def bracketRequest : HttpRequest :=
  { HttpRequest.new 0x11 true with query := encodeForm bracketPairs }

/-- The pair is found under the code of its key only.  The failing input. -/
theorem bracket_key_not_decoded :
    (bracketPairs.Pairwise fun a b => KeysDiffer a.1 b.1) ∧ (∀ p ∈ bracketPairs, 0 ∉ p.1) ∧
      HasForm bracketRequest (encodeForm bracketPairs) ∧
      (bracketRequest.getParam (text "sub[1]") []).1 = [] ∧ ¬Decodes bracketRequest bracketPairs := by
  have hget : (bracketRequest.getParam (text "sub[1]") []).1 = [] := by decide +kernel
  refine ⟨List.pairwise_singleton .., by decide, ⟨⟨rfl, rfl⟩, rfl, Or.inl ⟨rfl, Or.inr rfl⟩⟩, hget, ?_⟩
  rintro ⟨hvalues, -⟩
  have hvalue := hvalues (text "sub[1]", text "1") (List.mem_singleton_self _)
  rw [hget] at hvalue
  cases hvalue

/-- A form body whose keys are plain, as in `a=1&b=x y`.  The values may have anything. -/
def plainPairs : List Entry := [(text "a", text "1"), (text "b", text "x y")]

/-- A request with such a body. -/
def plainRequest : HttpRequest :=
  { (HttpRequest.new 0x11 true).setHeader (text "Content-Type")
      (text "application/x-www-form-urlencoded") with body := encodeForm plainPairs }

/-- Its parameters come back under their keys. -/
theorem form_decoding_plain : Decodes plainRequest plainPairs :=
  (form_decoding_iff plainPairs (by decide) (by decide) plainRequest
    ⟨⟨rfl, rfl⟩, rfl, Or.inr ⟨by decide +kernel, rfl, rfl⟩⟩).2 (by decide +kernel)

end Http

end Hiper

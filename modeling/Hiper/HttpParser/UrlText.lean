import Hiper.HttpParser.Url
import Mathlib.Data.UInt

/-!
# URLs of a path, a query and a fragment

What `HttpRequest::dump` writes between the method and the version, and what
`http_parser_parse_url` finds in it: the three texts that it was written from
(`parseUrl_urlText`), as long as the places fit into 16 bits.

The text is that of `src/hiper/http/http.cc:183`, the function is
`src/hiper/http/http-parser/http_parser.cc:2346`.  `put` is a field with its place and its
length at once; the loop of the source gets there by one `start` and then one `more` for
each character.
-/

namespace Hiper

namespace HttpParser

/-- The path, and what is there of a query and of a fragment.  `?` and `#` stand only before
what is there. -/
def urlText (path query fragment : Bytes) : Bytes :=
  path ++ (if query.isEmpty then [] else 63 :: query) ++ if fragment.isEmpty then [] else 35 :: fragment

/-- Texts that do not run into one another: a path from `/` or `*` on, a query without `#`, and
a fragment that does not begin with one.  Their characters are those of `IS_URL_CHAR`, and `?`
in the query. -/
structure UrlFits (path query fragment : Bytes) : Prop where
  first : path.head? = some 47 ∨ path.head? = some 42
  path : ∀ ch ∈ path, isUrlChar ch = true
  query : ∀ ch ∈ query, isUrlChar ch = true ∨ ch = 63
  anchor : fragment.head? ≠ some 35
  fragment : ∀ ch ∈ fragment, isUrlChar ch = true ∨ ch = 63 ∨ ch = 35

/-! ### The loop on one field -/

namespace UrlFields

/-- A field that has its place and its length.  Its bit is set. -/
def put (u : UrlFields) (uf : UrlField) (pos n : ℕ) : UrlFields :=
  ⟨Function.update u.fieldSet uf true, Function.update u.fieldData uf ⟨pos.toUInt16, n.toUInt16⟩⟩

/-- A field that starts has one character. -/
theorem start_eq (u : UrlFields) (uf : UrlField) (pos : ℕ) : u.start uf pos = u.put uf pos 1 := rfl

/-- A field that is made longer. -/
theorem more_put (u : UrlFields) (uf : UrlField) (pos n : ℕ) :
    (u.put uf pos n).more uf = u.put uf pos (n + 1) := by
  simp [put, more]

@[simp] theorem put_fieldSet_self (u : UrlFields) (uf : UrlField) (pos n : ℕ) :
    (u.put uf pos n).fieldSet uf = true := Function.update_self ..

/-- The bits of the others stay. -/
theorem put_fieldSet_of_ne {uf uf' : UrlField} (h : uf' ≠ uf) (u : UrlFields) (pos n : ℕ) :
    (u.put uf pos n).fieldSet uf' = u.fieldSet uf' := Function.update_of_ne h ..

@[simp] theorem put_fieldData_self (u : UrlFields) (uf : UrlField) (pos n : ℕ) :
    (u.put uf pos n).fieldData uf = ⟨pos.toUInt16, n.toUInt16⟩ := Function.update_self ..

/-- The places of the others stay. -/
theorem put_fieldData_of_ne {uf uf' : UrlField} (h : uf' ≠ uf) (u : UrlFields) (pos n : ℕ) :
    (u.put uf pos n).fieldData uf' = u.fieldData uf' := Function.update_of_ne h ..

/-- The text of the field, when its place fits.  Below `2 ^ 16` nothing wraps. -/
theorem text_put_self (u : UrlFields) (uf : UrlField) {pos n : ℕ} (hpos : pos < 65536)
    (hn : n < 65536) (buf : Bytes) : (u.put uf pos n).text buf uf = some ((buf.drop pos).take n) := by
  rw [text, put_fieldSet_self, if_pos rfl, put_fieldData_self,
    show pos.toUInt16.toNat = pos from Nat.mod_eq_of_lt hpos,
    show n.toUInt16.toNat = n from Nat.mod_eq_of_lt hn]

/-- The texts of the others stay. -/
theorem text_put_of_ne {uf uf' : UrlField} (h : uf' ≠ uf) (u : UrlFields) (pos n : ℕ) (buf : Bytes) :
    (u.put uf pos n).text buf uf' = u.text buf uf' := by
  rw [text, text, put_fieldSet_of_ne h, put_fieldData_of_ne h]

end UrlFields

section

variable {s s' : State} {uf : UrlField} {old : Option UrlField} {at' : Bool} {u : UrlFields}
  {c : Byte} {cs rest : Bytes} {pos : ℕ}

/-- A character that separates two fields.  No field changes. -/
theorem urlLoop_delimiter (hs : (parseUrlChar s c).urlField = some none) :
    urlLoop (c :: rest) pos s old at' u = urlLoop rest (pos + 1) (parseUrlChar s c) old at' u := by
  rw [urlLoop, hs]
  rfl

/-- A character of a field starts it or makes it longer. -/
theorem urlLoop_char (hs : (parseUrlChar s c).urlField = some (some uf))
    (hat : parseUrlChar s c ≠ .reqServerWithAt) :
    urlLoop (c :: rest) pos s old at' u = urlLoop rest (pos + 1) (parseUrlChar s c) (some uf) at'
      (if old = some uf then u.more uf else u.start uf pos) := by
  rw [urlLoop, hs, beq_eq_false_iff_ne.2 hat, Bool.or_false]
  rfl

/-- Characters that stay in their field make it longer.  The induction is over them. -/
theorem urlLoop_more {n : ℕ} (huf : s.urlField = some (some uf)) (hat : s ≠ .reqServerWithAt)
    (hcs : ∀ ch ∈ cs, parseUrlChar s ch = s) {off : ℕ} :
    urlLoop (cs ++ rest) pos s (some uf) at' (u.put uf off n) =
      urlLoop rest (pos + cs.length) s (some uf) at' (u.put uf off (n + cs.length)) := by
  induction cs generalizing pos n with
  | nil => rfl
  | cons ch cs ih =>
      obtain ⟨hch, hcs⟩ := List.forall_mem_cons.1 hcs
      have hfield : (parseUrlChar s ch).urlField = some (some uf) := by rw [hch, huf]
      rw [List.cons_append, urlLoop_char hfield (by rwa [hch]), hch,
        if_pos rfl, UrlFields.more_put, ih hcs, List.length_cons]
      simp only [Nat.add_assoc, Nat.add_comm 1]

/-- **A field**, from its first character to its last. -/
theorem urlLoop_field (hc : parseUrlChar s' c = s) (huf : s.urlField = some (some uf))
    (hat : s ≠ .reqServerWithAt) (hcs : ∀ ch ∈ cs, parseUrlChar s ch = s) (hold : old ≠ some uf) :
    urlLoop (c :: cs ++ rest) pos s' old at' u =
      urlLoop rest (pos + (c :: cs).length) s (some uf) at' (u.put uf pos (c :: cs).length) := by
  have hfield : (parseUrlChar s' c).urlField = some (some uf) := by rw [hc, huf]
  rw [List.cons_append, urlLoop_char hfield (by rwa [hc]), hc, if_neg hold,
    UrlFields.start_eq, urlLoop_more huf hat hcs, List.length_cons]
  simp only [Nat.add_assoc, Nat.add_comm 1]

end

/-! ### What is read back -/

section

variable {path query fragment : Bytes}

/-- A character of a URL is no blank and no line end. -/
theorem not_blank_of_isUrlChar {ch : Byte} (h : isUrlChar ch = true) :
    (ch == SP || ch == CR || ch == LF || ch == TAB || ch == 12) = false := by
  by_contra hblank
  simp only [Bool.not_eq_false, Bool.or_eq_true, beq_iff_eq] at hblank
  rcases hblank with (((rfl | rfl) | rfl) | rfl) | rfl <;> cases h

/-- The path goes on. -/
theorem parseUrlChar_path {ch : Byte} (h : isUrlChar ch = true) :
    parseUrlChar .reqPath ch = .reqPath := by
  rw [parseUrlChar, not_blank_of_isUrlChar h]
  exact if_pos h

/-- The query begins and goes on. -/
theorem parseUrlChar_query {s : State} (hs : s = .reqQueryStringStart ∨ s = .reqQueryString) {ch : Byte}
    (h : isUrlChar ch = true ∨ ch = 63) : parseUrlChar s ch = .reqQueryString := by
  rcases h with h | rfl
  · rcases hs with rfl | rfl
    · rw [parseUrlChar, not_blank_of_isUrlChar h]
      exact if_pos h
    · rw [parseUrlChar, not_blank_of_isUrlChar h]
      exact if_pos h
  · rcases hs with rfl | rfl <;> rfl

/-- The fragment goes on. -/
theorem parseUrlChar_fragment {ch : Byte} (h : isUrlChar ch = true ∨ ch = 63 ∨ ch = 35) :
    parseUrlChar .reqFragment ch = .reqFragment := by
  rcases h with h | rfl | rfl
  · rw [parseUrlChar, not_blank_of_isUrlChar h]
    simp [h]
  · rfl
  · rfl

/-- The fragment begins. -/
theorem parseUrlChar_anchor {ch : Byte} (h : isUrlChar ch = true ∨ ch = 63) :
    parseUrlChar .reqFragmentStart ch = .reqFragment := by
  rcases h with h | rfl
  · rw [parseUrlChar, not_blank_of_isUrlChar h]
    exact if_pos h
  · rfl

/-- The path of a URL.  Nothing stands before it. -/
theorem urlLoop_path (h : UrlFits path query fragment) (rest : Bytes) :
    urlLoop (path ++ rest) 0 .reqSpacesBeforeUrl none false .init =
      urlLoop rest path.length .reqPath (some .path) false (UrlFields.init.put .path 0 path.length) := by
  have hne : path ≠ [] := by
    rintro rfl
    rcases h.first with h | h <;> cases h
  obtain ⟨c, cs, rfl⟩ := List.exists_cons_of_ne_nil hne
  have hc : parseUrlChar .reqSpacesBeforeUrl c = .reqPath := by
    rcases h.first with hfirst | hfirst <;> cases hfirst <;> rfl
  have hcs : ∀ ch ∈ cs, parseUrlChar .reqPath ch = .reqPath := fun ch hch =>
    parseUrlChar_path (h.path ch (List.mem_cons_of_mem _ hch))
  rw [urlLoop_field hc rfl (by decide) hcs (by decide), Nat.zero_add]

/-- The query of a URL, with its `?`. -/
theorem urlLoop_query (h : UrlFits path query fragment) (hne : query ≠ []) (rest : Bytes) (pos : ℕ)
    (u : UrlFields) :
    urlLoop (63 :: query ++ rest) pos .reqPath (some .path) false u =
      urlLoop rest (pos + 1 + query.length) .reqQueryString (some .query) false
        (u.put .query (pos + 1) query.length) := by
  obtain ⟨c, cs, rfl⟩ := List.exists_cons_of_ne_nil hne
  obtain ⟨hc, hcs⟩ := List.forall_mem_cons.1 h.query
  rw [List.cons_append, urlLoop_delimiter rfl]
  exact urlLoop_field (parseUrlChar_query (Or.inl rfl) hc) rfl (by decide)
    (fun ch hch => parseUrlChar_query (Or.inr rfl) (hcs ch hch)) (by decide)

/-- The fragment of a URL, with its `#`. -/
theorem urlLoop_fragment (h : UrlFits path query fragment) (hne : fragment ≠ []) {s : State}
    (hs : s = .reqPath ∨ s = .reqQueryString) {old : Option UrlField} (hold : old ≠ some .fragment)
    (pos : ℕ) (u : UrlFields) :
    urlLoop (35 :: fragment) pos s old false u =
      some (false, u.put .fragment (pos + 1) fragment.length) := by
  obtain ⟨c, cs, rfl⟩ := List.exists_cons_of_ne_nil hne
  obtain ⟨hc, hcs⟩ := List.forall_mem_cons.1 h.fragment
  have hfirst : isUrlChar c = true ∨ c = 63 := by
    rcases hc with hc | hc | rfl
    · exact Or.inl hc
    · exact Or.inr hc
    · exact absurd rfl h.anchor
  have hstart : parseUrlChar s 35 = .reqFragmentStart := by rcases hs with rfl | rfl <;> rfl
  rw [urlLoop_delimiter (by rw [hstart]; rfl), hstart, ← List.append_nil (c :: cs),
    urlLoop_field (parseUrlChar_anchor hfirst) rfl (by decide)
      (fun ch hch => parseUrlChar_fragment (hcs ch hch)) hold, List.append_nil]
  rfl

/-- The fields that the loop finds.  The ones that are empty are not set. -/
def fieldsOf (path query fragment : Bytes) : UrlFields :=
  let u := UrlFields.init.put .path 0 path.length
  let u := if query.isEmpty then u else u.put .query (path.length + 1) query.length
  if fragment.isEmpty then u
  else u.put .fragment ((urlText path query []).length + 1) fragment.length

/-- **The loop finds the three fields**, one after the other. -/
theorem urlLoop_urlText (h : UrlFits path query fragment) :
    urlLoop (urlText path query fragment) 0 .reqSpacesBeforeUrl none false .init =
      some (false, fieldsOf path query fragment) := by
  rw [urlText, List.append_assoc, urlLoop_path h, fieldsOf]
  by_cases hq : query = []
  · subst hq
    by_cases hf : fragment = []
    · subst hf
      rfl
    · have hlength : (urlText path [] []).length = path.length := by simp [urlText]
      simp only [List.isEmpty_nil, if_true, List.nil_append, List.isEmpty_iff, hf, if_false, hlength]
      exact urlLoop_fragment h hf (Or.inl rfl) (by decide) _ _
  · by_cases hf : fragment = []
    · subst hf
      simp only [List.isEmpty_iff, hq, if_false, if_true]
      rw [urlLoop_query h hq]
      rfl
    · have hlength : (urlText path query []).length = path.length + 1 + query.length := by
        simp [urlText, hq, Nat.add_assoc, Nat.add_comm 1]
      simp only [List.isEmpty_iff, hq, hf, if_false, hlength]
      rw [urlLoop_query h hq]
      exact urlLoop_fragment h hf (Or.inr rfl) (by decide) _ _

/-- A text in its place.  In front of it and behind it are others. -/
theorem take_drop_middle (xs ys zs : Bytes) : ((xs ++ ys ++ zs).drop xs.length).take ys.length = ys := by
  rw [List.append_assoc, List.drop_left, List.take_left]

/-- The three texts that a request gets from its URL.  A query or a fragment that is not set is
empty. -/
structure ReadsBack (buf path query fragment : Bytes) (u : UrlFields) : Prop where
  path : u.text buf .path = some path
  query : (u.text buf .query).getD [] = query
  fragment : (u.text buf .fragment).getD [] = fragment

/-- No other field is set. -/
theorem fieldsOf_fieldSet (path query fragment : Bytes) (uf : UrlField)
    (h : uf ≠ .path ∧ uf ≠ .query ∧ uf ≠ .fragment) : (fieldsOf path query fragment).fieldSet uf = false := by
  rw [fieldsOf]
  split_ifs <;> simp only [UrlFields.put_fieldSet_of_ne h.1, UrlFields.put_fieldSet_of_ne h.2.1,
    UrlFields.put_fieldSet_of_ne h.2.2] <;> rfl

/-- The length of a URL, with its signs. -/
theorem length_urlText (path query fragment : Bytes) :
    (urlText path query fragment).length =
      path.length + (if query.isEmpty then 0 else query.length + 1) +
        if fragment.isEmpty then 0 else fragment.length + 1 := by
  rw [urlText, List.length_append, List.length_append]
  split_ifs <;> rfl

/-- The fields have the texts that the URL was written from. -/
theorem readsBack_fieldsOf (hlength : (urlText path query fragment).length < 65536) :
    ReadsBack (urlText path query fragment) path query fragment (fieldsOf path query fragment) := by
  have hparts : path.length < 65536 ∧ query.length < 65536 ∧ fragment.length < 65536 ∧
      (query ≠ [] → path.length + 1 < 65536) ∧
      (fragment ≠ [] → (urlText path query []).length + 1 < 65536) := by
    rw [length_urlText] at hlength ⊢
    have hempty : ∀ s : Bytes, s.isEmpty = true → s.length = 0 := fun s hs => by simpa using hs
    have hzero := hempty query
    have hzero' := hempty fragment
    simp only [ne_eq, ← List.isEmpty_iff, Bool.not_eq_true]
    split_ifs at hlength ⊢ <;> simp_all <;> omega
  obtain ⟨hp, hq, hf, hqpos, hfpos⟩ := hparts
  have hpath : (UrlFields.init.put .path 0 path.length).text (urlText path query fragment) .path =
      some path := by
    rw [UrlFields.text_put_self _ _ (by decide) hp, urlText, List.append_assoc, List.drop_zero,
      List.take_left]
  have hinit : ∀ uf, uf ≠ .path →
      (UrlFields.init.put .path 0 path.length).text (urlText path query fragment) uf = none := by
    intro uf huf
    rw [UrlFields.text_put_of_ne huf]
    rfl
  have hquery : ∀ u : UrlFields, query ≠ [] →
      (u.put .query (path.length + 1) query.length).text (urlText path query fragment) .query =
        some query := by
    intro u hne
    have htext : urlText path query fragment = path ++ [63] ++ query ++
        if fragment.isEmpty then [] else 35 :: fragment := by
      simp [urlText, hne]
    have hlength : (path ++ [(63 : Byte)]).length = path.length + 1 := by simp
    rw [UrlFields.text_put_self _ _ (hqpos hne) hq, htext, ← hlength, take_drop_middle]
  have hfragment : ∀ u : UrlFields, fragment ≠ [] →
      (u.put .fragment ((urlText path query []).length + 1) fragment.length).text
        (urlText path query fragment) .fragment = some fragment := by
    intro u hne
    have htext : urlText path query fragment = urlText path query [] ++ [35] ++ fragment ++ [] := by
      simp [urlText, hne]
    have hlength : (urlText path query [] ++ [(35 : Byte)]).length = (urlText path query []).length + 1 := by
      simp
    rw [UrlFields.text_put_self _ _ (hfpos hne) hf, htext, ← hlength, take_drop_middle]
  have hempty : ∀ s : Bytes, s.isEmpty = true → [] = s := fun s hs => (List.isEmpty_iff.1 hs).symm
  refine ⟨?_, ?_, ?_⟩
  · rw [fieldsOf]
    split_ifs <;> simp only [UrlFields.text_put_of_ne (show UrlField.path ≠ .fragment by decide),
      UrlFields.text_put_of_ne (show UrlField.path ≠ .query by decide), hpath]
  · rw [fieldsOf]
    split_ifs with hnofragment hnoquery hnoquery
    · rw [hinit _ (by decide), Option.getD_none, hempty _ hnoquery]
    · rw [hquery _ (by simpa using hnoquery), Option.getD_some]
    · rw [UrlFields.text_put_of_ne (by decide), hinit _ (by decide), Option.getD_none,
        hempty _ hnoquery]
    · rw [UrlFields.text_put_of_ne (by decide), hquery _ (by simpa using hnoquery), Option.getD_some]
  · rw [fieldsOf]
    split_ifs with hnofragment hnoquery hnoquery
    · rw [hinit _ (by decide), Option.getD_none, hempty _ hnofragment]
    · rw [UrlFields.text_put_of_ne (by decide), hinit _ (by decide), Option.getD_none,
        hempty _ hnofragment]
    · rw [hfragment _ (by simpa using hnofragment), Option.getD_some]
    · rw [hfragment _ (by simpa using hnofragment), Option.getD_some]

/-- **A URL is read back to what it was written from.**  It has no host, so that nothing is
parsed again. -/
theorem parseUrl_urlText (h : UrlFits path query fragment)
    (hlength : (urlText path query fragment).length < 65536) :
    ∃ u, parseUrl (urlText path query fragment) = some u ∧
      ReadsBack (urlText path query fragment) path query fragment u := by
  refine ⟨fieldsOf path query fragment, ?_, readsBack_fieldsOf hlength⟩
  have hne : urlText path query fragment ≠ [] := by
    rw [urlText, List.append_assoc]
    refine List.append_ne_nil_of_left_ne_nil ?_ _
    rintro rfl
    rcases h.first with h | h <;> cases h
  have hschema := fieldsOf_fieldSet path query fragment .schema (by decide)
  have hhost := fieldsOf_fieldSet path query fragment .host (by decide)
  have hport := fieldsOf_fieldSet path query fragment .port (by decide)
  rw [parseUrl, if_neg hne, urlLoop_urlText h]
  simp only [Option.bind_some, hschema, hhost, Bool.false_and, Bool.false_eq_true, if_false,
    UrlFields.text, hport, Option.getD_none, portFits, if_true]

end

end HttpParser

end Hiper

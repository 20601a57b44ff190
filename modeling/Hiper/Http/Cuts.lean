import Hiper.Http.UrlCuts

/-!
# Where the cuts between segments lie

A message comes in segments, as the network cuts it, and a parser is called on one after another
(`HttpSession::recvRequest`, `src/hiper/http/http_session.cc:18`).  `http_parser` keeps the texts
of a message apart by where they begin and end, and hands over what it has of a text when a call
ends inside it.  The callbacks of `src/hiper/http/http_parser.cc:151` append pieces of a body, but
they parse each piece of a URL as a URL, and they put each piece of a header's name or value in
the place of the piece before it.

So what a parser comes to depends on the cuts only through these texts.  Cuts that spare them do
no harm (`Spares`), and in a message in which nothing is stored twice all other cuts are seen
(`segments_agree_iff`): a map that was filled from names and values that lost their beginnings is
shorter in sum than the map of the whole ones (`eq_of_setAll_eq`), and a URL that was cut is not
stored as a whole (`storeUrls_cut`).
-/

namespace Hiper

open HttpParser

namespace Http

open Lib Lib.Scanner

/-! ### Texts that are cut -/

/-- The texts that a callback puts in the place of what it had before: the name of a header and
its value, and in a request the URL. -/
def isReplaced : ParserType → Rep → Bool
  | .request, .text .url _ _ => true
  | _, .text .headerField _ _ | _, .text .headerValue _ _ => true
  | _, _ => false

/-- No cut is in the text, or at its end. -/
def Uncut (cuts : List ℕ) : Rep → Prop
  | .text _ a b => ∀ c ∈ cuts, c ≤ a ∨ b < c
  | .note _ => True

instance (cuts : List ℕ) : (r : Rep) → Decidable (Uncut cuts r)
  | .text _ a b => inferInstanceAs (Decidable (∀ c ∈ cuts, c ≤ a ∨ b < c))
  | .note _ => .isTrue trivial

/-- The cuts between the segments of a message spare its URL, and the names and the values of its
headers. -/
def Spares (t : ParserType) (bss : List Bytes) : Prop :=
  ∀ r ∈ reports t bss.flatten, isReplaced t r = true → Uncut (starts bss 0) r

section Cuts

variable {cuts : List ℕ} {k : DataCb} {a b : ℕ}

/-- No cut is in a text that is not cut. -/
theorem cutsIn_of_uncut (h : Uncut cuts (.text k a b : Rep)) (n : ℕ) (hn : n ≤ b + 1) :
    cutsIn cuts a n = [] := by
  rw [cutsIn, List.filter_eq_nil_iff]
  intro c hc
  have := h c hc
  rw [Bool.and_eq_true, decide_eq_true_iff, decide_eq_true_iff]
  omega

/-- A text without cuts in it is not cut. -/
theorem uncut_of_cutsIn (h : cutsIn cuts a (b + 1) = []) : Uncut cuts (.text k a b : Rep) := by
  intro c hc
  have hnot := List.filter_eq_nil_iff.1 h c hc
  rw [Bool.and_eq_true, decide_eq_true_iff, decide_eq_true_iff] at hnot
  omega

/-- A text that is not cut stays in one piece, which is its last. -/
theorem expand_of_uncut {r : Rep} (h : Uncut cuts r) :
    scanner.expand cuts r = [r] ∧ scanner.last cuts r = r := by
  cases r with
  | note n => exact ⟨rfl, rfl⟩
  | text k a b =>
      have hcuts : cutsIn cuts a (if scanner.soft k then b else b + 1) = [] :=
        cutsIn_of_uncut h _ (by split_ifs <;> omega)
      rw [expand, pieces, last, lastCut, hcuts]
      exact ⟨rfl, rfl⟩

/-- What is not replaced leaves no header.  Only names and values do. -/
theorem storeText_of_not_replaced {t : ParserType} {r : Rep} (h : isReplaced t r = false)
    (input : Bytes) (x : Bytes × MapType) : storeText input x r = x := by
  cases r with
  | note n => rfl
  | text k a b =>
      cases k with
      | headerField => cases t <;> cases h
      | headerValue => cases t <;> cases h
      | _ => rfl

/-- Cutting a report does not change its kind. -/
theorem last_of_not_replaced {t : ParserType} {r : Rep} (h : isReplaced t r = false) (cuts : List ℕ) :
    isReplaced t (scanner.last cuts r) = false := by
  cases r with
  | note n => cases t <;> rfl
  | text k a b => cases t <;> cases k <;> first | rfl | cases h

/-- Where the texts that are replaced are not cut, the headers are those of the whole message. -/
theorem headersOf_spared {t : ParserType} {R : List Rep}
    (h : ∀ r ∈ R, isReplaced t r = true → Uncut cuts r) (input : Bytes) :
    headersOf input (R.map (scanner.last cuts)) = headersOf input R := by
  have hfold : ∀ x, (R.map (scanner.last cuts)).foldl (storeText input) x =
      R.foldl (storeText input) x := by
    induction R with
    | nil => exact fun x => rfl
    | cons r R ih =>
        intro x
        rw [List.map_cons, List.foldl_cons, List.foldl_cons,
          ih fun r hr => h r (List.mem_cons_of_mem _ hr)]
        cases hr : isReplaced t r with
        | true => rw [(expand_of_uncut (h r (List.mem_cons_self ..) hr)).2]
        | false =>
            rw [storeText_of_not_replaced hr, storeText_of_not_replaced (last_of_not_replaced hr cuts)]
  exact congrArg Prod.snd (hfold _)

/-- The texts of the URL in two lists of reports. -/
theorem urlTexts_append (input : Bytes) (R R' : List Rep) :
    urlTexts input (R ++ R') = urlTexts input R ++ urlTexts input R' := List.filterMap_append

/-- A text of the URL.  There is one in a request, and in a response none. -/
def isUrlText : Rep → Bool
  | .text .url _ _ => true
  | _ => false

/-- Only the URL has pieces that are URLs. -/
theorem urlTexts_expand_eq_nil {r : Rep} (h : isUrlText r = false) (input : Bytes) (cuts : List ℕ) :
    urlTexts input (scanner.expand cuts r) = [] := by
  cases r with
  | note n => rfl
  | text k a b =>
      rw [urlTexts, List.filterMap_eq_nil_iff]
      intro r hr
      obtain ⟨seg, -, rfl⟩ := List.mem_map.1 hr
      cases k <;> first | rfl | cases h

/-- So nothing else matters for the target. -/
theorem urlTexts_expand_filter (input : Bytes) (cuts : List ℕ) (R : List Rep) :
    urlTexts input ((R.filter isUrlText).flatMap (scanner.expand cuts)) =
      urlTexts input (R.flatMap (scanner.expand cuts)) := by
  induction R with
  | nil => rfl
  | cons r R ih =>
      rw [List.filter_cons, List.flatMap_cons, urlTexts_append, ← ih]
      cases hr : isUrlText r with
      | true => rw [if_pos rfl, List.flatMap_cons, urlTexts_append]
      | false =>
          rw [if_neg Bool.false_ne_true, urlTexts_expand_eq_nil hr, List.nil_append]

/-- Without cuts a report is itself. -/
theorem expand_nil (r : Rep) : scanner.expand [] r = [r] := by
  cases r with
  | note n => rfl
  | text k a b => rfl

/-- The texts of the URL are in the reports of the URL. -/
theorem urlTexts_filter (input : Bytes) (R : List Rep) :
    urlTexts input (R.filter isUrlText) = urlTexts input R := by
  have h := urlTexts_expand_filter input [] R
  rwa [List.flatMap_congr fun r _ => expand_nil r, List.flatMap_congr fun r _ => expand_nil r,
    List.flatMap_singleton', List.flatMap_singleton'] at h

/-- Where the URL is not cut, its texts are those of the whole message. -/
theorem urlTexts_spared {R : List Rep} (h : ∀ r ∈ R, isReplaced .request r = true → Uncut cuts r)
    (input : Bytes) : urlTexts input (R.flatMap (scanner.expand cuts)) = urlTexts input R := by
  rw [← urlTexts_expand_filter, ← urlTexts_filter input R]
  congr 1
  refine (List.flatMap_congr fun r hr => ?_).trans (List.flatMap_singleton' _)
  obtain ⟨hr, hurl⟩ := List.mem_filter.1 hr
  refine (expand_of_uncut (h r hr ?_)).1
  cases r with
  | note n => cases hurl
  | text k a b => cases k <;> first | rfl | cases hurl

end Cuts

section Spares

variable {t : ParserType} {bss : List Bytes}

/-- Cuts that spare these texts do no harm.  Names and values are not cut then. -/
theorem Spares.headersHarmless (h : Spares t bss) : HeadersHarmless t bss :=
  headersOf_spared h bss.flatten

/-- Cuts that spare the URL leave the target that is stored. -/
theorem Spares.urlHarmless (h : Spares .request bss) : UrlHarmless bss := by
  rw [UrlHarmless, pieceReports, urlTexts_spared h]

end Spares

/-! ### Where every cut is seen -/

/-- A text of a header's name or value.  It is what the two header callbacks get. -/
def isHeaderText : Rep → Bool
  | .text .headerField _ _ | .text .headerValue _ _ => true
  | _ => false

/-- The places of a header's name and of its value.  Each is from its first place to the place
behind its last. -/
structure LineAt where
  name : ℕ × ℕ
  value : ℕ × ℕ

namespace LineAt

/-- What is reported of the line. -/
def texts (l : LineAt) : List Rep :=
  [.text .headerField l.name.1 l.name.2, .text .headerValue l.value.1 l.value.2]

/-- The name and the value. -/
def entry (input : Bytes) (l : LineAt) : Entry :=
  (slice input l.name.1 l.name.2, slice input l.value.1 l.value.2)

/-- The line, of its texts the last pieces. -/
def last (cuts : List ℕ) (l : LineAt) : LineAt where
  name := (scanner.lastCut cuts .headerField l.name.1 l.name.2, l.name.2)
  value := (scanner.lastCut cuts .headerValue l.value.1 l.value.2, l.value.2)

end LineAt

/-- The headers of a message have one value each, in one text, and no name stands there twice. -/
def OneEach (t : ParserType) (input : Bytes) : Prop :=
  ∃ ls : List LineAt, (reports t input).filter isHeaderText = ls.flatMap LineAt.texts ∧
    ls.Pairwise fun l l' => entryKey (l.entry input) ≠ entryKey (l'.entry input)

/-- A request in the form in which clients send it: its URL is a path, with a query and a
fragment or without, and its headers have one value each. -/
structure PlainRequest (input : Bytes) : Prop where
  url : ∃ a b path query fragment, (reports .request input).filter isUrlText = [.text .url a b] ∧
    slice input a b = urlText path query fragment ∧ UrlFits path query fragment ∧
    (urlText path query fragment).length < 65536
  headers : OneEach .request input

section Seen

variable {cuts : List ℕ} {input : Bytes} {a b : ℕ}

/-- A text from a later place on is its end. -/
theorem slice_suffix {c : ℕ} (hac : a ≤ c) (hcb : c ≤ b) : slice input c b <:+ slice input a b :=
  ⟨slice input a c, slice_append input hac hcb⟩

/-- A text is as long as its places are apart. -/
theorem length_slice (hb : b ≤ input.length) : (slice input a b).length = b - a := by
  rw [slice, List.length_take, List.length_drop]
  omega

/-- The last piece is all of the text, or it begins behind it. -/
theorem lastCut_cases {k : DataCb} (hk : scanner.soft k = false) (cuts : List ℕ) (a b : ℕ) :
    scanner.lastCut cuts k a b = a ∧ cutsIn cuts a (b + 1) = [] ∨
      a < scanner.lastCut cuts k a b ∧ scanner.lastCut cuts k a b ≤ b := by
  rw [lastCut, hk, if_neg Bool.false_ne_true]
  cases hcuts : cutsIn cuts a (b + 1) with
  | nil => exact Or.inl ⟨rfl, rfl⟩
  | cons c cs =>
      have hmem : (c :: cs).getLastD a ∈ c :: cs := by
        rw [List.getLastD_cons]
        exact List.getLastD_mem_cons ..
      rw [← hcuts] at hmem
      have hlast := (List.mem_filter.1 hmem).2
      rw [Bool.and_eq_true, decide_eq_true_iff, decide_eq_true_iff] at hlast
      rw [hcuts] at hlast
      exact Or.inr ⟨hlast.1, by omega⟩

/-- The last piece is shorter, unless the text is uncut. -/
theorem uncut_of_slice_eq {k : DataCb} (hk : scanner.soft k = false) (hb : b ≤ input.length)
    (h : slice input (scanner.lastCut cuts k a b) b = slice input a b) :
    Uncut cuts (.text k a b : Rep) := by
  rcases lastCut_cases hk cuts a b with ⟨-, hnone⟩ | ⟨hlt, hle⟩
  · exact uncut_of_cutsIn hnone
  · have hlength := congrArg List.length h
    rw [length_slice hb, length_slice hb] at hlength
    omega

/-- The last piece is the end of the text. -/
theorem lastCut_suffix {k : DataCb} (hk : scanner.soft k = false) :
    slice input (scanner.lastCut cuts k a b) b <:+ slice input a b := by
  rcases lastCut_cases hk cuts a b with ⟨heq, -⟩ | ⟨hlt, hle⟩
  · rw [heq]
  · exact slice_suffix (Nat.le_of_lt hlt) hle

/-- The headers are stored from names and values alone. -/
theorem headersOf_filter (input : Bytes) (R : List Rep) :
    headersOf input (R.filter isHeaderText) = headersOf input R := by
  have hfold : ∀ x, (R.filter isHeaderText).foldl (storeText input) x = R.foldl (storeText input) x := by
    induction R with
    | nil => exact fun x => rfl
    | cons r R ih =>
        intro x
        rw [List.filter_cons, List.foldl_cons]
        split_ifs with hr
        · exact ih _
        · rw [ih]
          congr 1
          cases r with
          | note n => rfl
          | text k a b => cases k <;> first | rfl | exact absurd rfl hr
  exact congrArg Prod.snd (hfold _)

/-- With one text for each name and each value, the headers are set one after the other. -/
theorem headersOf_lines (input : Bytes) (ls : List LineAt) :
    headersOf input (ls.flatMap LineAt.texts) = setAll .empty (ls.map (LineAt.entry input)) := by
  have hfold : ∀ f m, ((ls.flatMap LineAt.texts).foldl (storeText input) (f, m)).2 =
      setAll m (ls.map (LineAt.entry input)) := by
    induction ls with
    | nil => exact fun f m => rfl
    | cons l ls ih => exact fun f m => ih _ _
  exact hfold [] .empty

/-- Cutting does not change which reports are of headers. -/
theorem filter_last (cuts : List ℕ) (R : List Rep) :
    (R.map (scanner.last cuts)).filter isHeaderText = (R.filter isHeaderText).map (scanner.last cuts) := by
  rw [List.filter_map]
  congr 2
  funext r
  cases r with
  | note n => rfl
  | text k a b => cases k <;> rfl

/-- The last pieces of the lines are the lines of the last pieces. -/
theorem map_last_lines (cuts : List ℕ) (ls : List LineAt) :
    (ls.flatMap LineAt.texts).map (scanner.last cuts) = (ls.map (LineAt.last cuts)).flatMap LineAt.texts := by
  rw [List.map_flatMap, List.flatMap_map]
  rfl

variable {t : ParserType} {bss : List Bytes} {r : Rep}

/-- Every report is about the message. -/
theorem within_of_reports (hr : r ∈ reports t input) : r.Within input.length := by
  rw [reports] at hr
  cases hcall : scanner.call input (init t) 0 with
  | none =>
      rw [hcall] at hr
      cases hr
  | some x =>
      rw [hcall] at hr
      have hwithin := within_of_call scanner hcall hr
      rwa [Nat.zero_add] at hwithin

/-- **A cut in a header is seen**, when the headers have one value each. -/
theorem OneEach.uncut (h : OneEach t bss.flatten) (hharmless : HeadersHarmless t bss)
    (hr : r ∈ reports t bss.flatten) (hheader : isHeaderText r = true) : Uncut (starts bss 0) r := by
  obtain ⟨ls, hls, hdistinct⟩ := h
  have hsets : setAll .empty ((ls.map (LineAt.last (starts bss 0))).map (LineAt.entry bss.flatten)) =
      setAll .empty (ls.map (LineAt.entry bss.flatten)) := by
    rw [← headersOf_lines, ← headersOf_lines, ← map_last_lines, ← hls, ← filter_last,
      headersOf_filter, headersOf_filter]
    exact hharmless
  have hsuffix : List.Forall₂ (fun f e : Entry => f.1 <:+ e.1 ∧ f.2 <:+ e.2)
      ((ls.map (LineAt.last (starts bss 0))).map (LineAt.entry bss.flatten))
      (ls.map (LineAt.entry bss.flatten)) := by
    rw [List.map_map, List.forall₂_map_left_iff, List.forall₂_map_right_iff]
    exact List.forall₂_same.2 fun l _ => ⟨lastCut_suffix rfl, lastCut_suffix rfl⟩
  have hsame := eq_of_setAll_eq (List.pairwise_map.2 hdistinct) hsuffix hsets
  have hmem : r ∈ ls.flatMap LineAt.texts := by
    rw [← hls]
    exact List.mem_filter.2 ⟨hr, hheader⟩
  obtain ⟨l, hl, hr'⟩ := List.mem_flatMap.1 hmem
  rw [List.map_map] at hsame
  have hone : (l.last (starts bss 0)).entry bss.flatten = l.entry bss.flatten :=
    List.map_inj_left.1 hsame l hl
  obtain ⟨hname, hvalue⟩ := Prod.mk.inj hone
  have hwithin := within_of_reports hr
  rcases List.mem_cons.1 hr' with rfl | hr'
  · exact uncut_of_slice_eq rfl hwithin hname
  · rw [List.mem_singleton] at hr'
    subst hr'
    exact uncut_of_slice_eq rfl hwithin hvalue

/-- The pieces of the URL.  There is one for each segment of it. -/
theorem urlTexts_pieces (cuts : List ℕ) (a b : ℕ) :
    urlTexts input (scanner.expand cuts (.text .url a b)) =
      (segments a (cutsIn cuts a (b + 1)) b).map fun s => slice input s.1 s.2 := by
  rw [expand, pieces, urlTexts, List.filterMap_map]
  exact congrFun List.filterMap_eq_map' _

/-- The cuts in a text, the last of them apart.  They are in order, and inside the text. -/
theorem cutsIn_concat (hne : ∀ bs ∈ bss, bs ≠ []) (hcuts : cutsIn (starts bss 0) a (b + 1) ≠ []) :
    ∃ cs c, cutsIn (starts bss 0) a (b + 1) = cs ++ [c] ∧ a < c ∧ c ≤ b ∧ cs.Pairwise (· < ·) ∧
      ∀ d ∈ cs, a < d ∧ d ≤ c := by
  obtain ⟨cs, c, hcs⟩ := (List.eq_nil_or_concat _).resolve_left hcuts
  rw [List.concat_eq_append] at hcs
  have hbounds : ∀ d ∈ cs ++ [c], a < d ∧ d ≤ b := by
    intro d hd
    rw [← hcs] at hd
    have hin := (List.mem_filter.1 hd).2
    rw [Bool.and_eq_true, decide_eq_true_iff, decide_eq_true_iff] at hin
    omega
  have hsorted : (cs ++ [c]).Pairwise (· < ·) := by
    rw [← hcs]
    exact (starts_sorted hne 0).filter _
  obtain ⟨hfront, -, hlast⟩ := List.pairwise_append.1 hsorted
  obtain ⟨hac, hcb⟩ := hbounds c (List.mem_append_right _ (List.mem_singleton_self c))
  exact ⟨cs, c, hcs, hac, hcb, hfront, fun d hd =>
    ⟨(hbounds d (List.mem_append_left _ hd)).1,
      Nat.le_of_lt (hlast d hd c (List.mem_singleton_self c))⟩⟩

/-- **A cut in the URL is seen**, when the URL is a path with a query and a fragment. -/
theorem PlainRequest.uncut (h : PlainRequest bss.flatten) (hne : ∀ bs ∈ bss, bs ≠ [])
    (hharmless : UrlHarmless bss) (hr : r ∈ reports .request bss.flatten)
    (hurl : isUrlText r = true) : Uncut (starts bss 0) r := by
  obtain ⟨a, b, path, query, fragment, hreports, htext, hfits, hlength⟩ := h.url
  have hmem : r ∈ (reports .request bss.flatten).filter isUrlText := List.mem_filter.2 ⟨hr, hurl⟩
  rw [hreports, List.mem_singleton] at hmem
  subst hmem
  have hwithin : b ≤ bss.flatten.length := within_of_reports hr
  refine uncut_of_cutsIn ?_
  by_contra hcuts
  obtain ⟨cs, c, hcs, hac, hcb, hsorted, hinside⟩ := cutsIn_concat hne hcuts
  have hfront : ((segments a cs c).map fun s => slice bss.flatten s.1 s.2).flatten =
      slice bss.flatten a c := by
    rw [← List.flatMap_def]
    exact segments_join (fun a c b => slice_append bss.flatten) hsorted hinside
  have hwhole : storeUrls Target.store (urlTexts bss.flatten [.text .url a b]) .start =
      (⟨path, query, fragment⟩, true) := by
    change storeUrls Target.store [slice bss.flatten a b] .start = _
    rw [htext, storeUrls, store_urlText hfits hlength]
    rfl
  rw [UrlHarmless, pieceReports, ← urlTexts_expand_filter, ← urlTexts_filter bss.flatten (reports _ _),
    hreports, List.flatMap_singleton, urlTexts_pieces, hwhole, hcs, segments_concat,
    List.map_append] at hharmless
  refine storeUrls_cut hfits ?_ ?_ hharmless
  · rw [hfront]
    refine List.ne_nil_of_length_pos ?_
    rw [length_slice (by omega)]
    omega
  · rw [hfront, slice_append bss.flatten (Nat.le_of_lt hac) hcb, htext]

/-- The URL of a plain request is accepted. -/
theorem PlainRequest.accepted {input : Bytes} (h : PlainRequest input) : UrlAccepted input := by
  obtain ⟨a, b, path, query, fragment, hreports, htext, hfits, hlength⟩ := h.url
  rw [UrlAccepted, ← urlTexts_filter, hreports]
  change (storeUrls Target.store [slice input a b] .start).2 = true
  rw [htext, storeUrls, store_urlText hfits hlength]
  rfl

/-- A text that is replaced is one of a header, or the URL of a request. -/
theorem isReplaced_cases {r : Rep} (h : isReplaced t r = true) :
    isHeaderText r = true ∨ t = .request ∧ isUrlText r = true := by
  cases r with
  | note n => cases t <;> cases h
  | text k a b =>
      cases k with
      | url =>
          cases t with
          | request => exact Or.inr ⟨rfl, rfl⟩
          | response => cases h
      | headerField => exact Or.inl rfl
      | headerValue => exact Or.inl rfl
      | _ => cases t <;> cases h

/-- In a plain request no harm is done only by cuts that spare these texts. -/
theorem PlainRequest.spares_iff (h : PlainRequest bss.flatten) (hne : ∀ bs ∈ bss, bs ≠ []) :
    Spares .request bss ↔ UrlHarmless bss ∧ HeadersHarmless .request bss := by
  refine ⟨fun hspares => ⟨hspares.urlHarmless, hspares.headersHarmless⟩, ?_⟩
  rintro ⟨hurl, hheaders⟩ r hr hreplaced
  rcases isReplaced_cases hreplaced with hheader | ⟨-, htext⟩
  · exact h.headers.uncut hheaders hr hheader
  · exact h.uncut hne hurl hr htext

/-- In a response whose headers have one value each, no harm is done only by cuts that spare
them. -/
theorem OneEach.spares_iff (h : OneEach .response bss.flatten) :
    Spares .response bss ↔ HeadersHarmless .response bss := by
  refine ⟨Spares.headersHarmless, fun hheaders r hr hreplaced => ?_⟩
  rcases isReplaced_cases hreplaced with hheader | ⟨ht, -⟩
  · exact h.uncut hheaders hr hheader
  · cases ht

/-- **Segments agree.**  A parser that is given the segments of a complete message, one
`HttpRequestParser::execute` (`src/hiper/http/http_parser.cc:234`) or
`HttpResponseParser::execute` (`http_parser.cc:364`) after another, comes to the path, query,
fragment, headers, body, `isFinished()` and `hasError()` that it comes to on all of the message
at once, when no cut lies in the URL of a request or at its end, nor in the name or the value of
a header or at its end.  In the body, in a status text and between these texts a cut does no
harm.  The other direction holds where a text that is stored is all that is left of it: in a
request whose URL is a path with a query and a fragment (`PlainRequest`), and in a message whose
headers have one value each under names of their own (`OneEach`), the two agree for no other
cuts.  Elsewhere a cut can go unseen because the text that was cut is replaced as a whole later
on, as the value of a header is by another value for the same name. -/
theorem segments_agree_iff (bss : List Bytes) (hne : ∀ bs ∈ bss, bs ≠ []) :
    ((init .request).completes bss.flatten = true →
      (Spares .request bss → (HttpRequestParser.new.executes bss).seen =
        (HttpRequestParser.new.execute bss.flatten).1.seen) ∧
      (PlainRequest bss.flatten → ((HttpRequestParser.new.executes bss).seen =
        (HttpRequestParser.new.execute bss.flatten).1.seen ↔ Spares .request bss))) ∧
    ((init .response).IsMessage bss.flatten →
      (Spares .response bss → (HttpResponseParser.new.executes bss).seen =
        (HttpResponseParser.new.execute bss.flatten).1.seen) ∧
      (OneEach .response bss.flatten → ((HttpResponseParser.new.executes bss).seen =
        (HttpResponseParser.new.execute bss.flatten).1.seen ↔ Spares .response bss))) := by
  refine ⟨fun hmsg => ?_, fun hmsg => ?_⟩
  · have hseen := request_seen_iff hne hmsg
    refine ⟨fun hspares => hseen.2 ⟨hspares.urlHarmless, fun _ => hspares.headersHarmless⟩,
      fun hplain => ?_⟩
    rw [hseen, hplain.spares_iff hne]
    exact and_congr_right fun _ => ⟨fun h => h hplain.accepted, fun h _ => h⟩
  · have hseen := response_seen_iff hne hmsg
    exact ⟨fun hspares => hseen.2 hspares.headersHarmless, fun hone => hseen.trans hone.spares_iff.symm⟩

/-- A request with cuts before its version, before a name and in its body.  None of them is in a
text that is replaced. -/
def sparedRequest : List Bytes :=
  [bytes "PUT /a?b#c ".toList, bytes "HTTP/1.1\r\n".toList,
    bytes "Content-Length: 2\r\n\r\nx".toList, bytes "y".toList]

/-- A response with a cut in its status text.  The status text is not stored by a callback that
replaces. -/
def sparedResponse : List Bytes :=
  [bytes "HTTP/1.1 200 O".toList, bytes "K\r\nA: b\r\n\r\nx".toList]

theorem sparedRequest_plain : PlainRequest sparedRequest.flatten where
  url := ⟨4, 10, bytes "/a".toList, bytes "b".toList, bytes "c".toList, by decide +kernel,
    by decide +kernel, ⟨by decide +kernel, by decide +kernel, by decide +kernel, by decide +kernel,
      by decide +kernel⟩, by decide +kernel⟩
  headers := ⟨[⟨(21, 35), (37, 38)⟩], by decide +kernel, List.pairwise_singleton ..⟩

/-- Its headers have one value each. -/
theorem sparedResponse_oneEach : OneEach .response sparedResponse.flatten :=
  ⟨[⟨(17, 18), (20, 21)⟩], by decide +kernel, List.pairwise_singleton ..⟩

/-- Both parsers come to what they come to on the whole message. -/
theorem segments_agree_spared :
    (HttpRequestParser.new.executes sparedRequest).seen =
        (HttpRequestParser.new.execute sparedRequest.flatten).1.seen ∧
      (HttpResponseParser.new.executes sparedResponse).seen =
        (HttpResponseParser.new.execute sparedResponse.flatten).1.seen := by
  have hrequest := (segments_agree_iff sparedRequest (by decide +kernel)).1 (by decide +kernel)
  have hresponse := (segments_agree_iff sparedResponse (by decide +kernel)).2 (Or.inr (by decide +kernel))
  exact ⟨(hrequest.2 sparedRequest_plain).2 (by unfold Spares; decide +kernel),
    (hresponse.2 sparedResponse_oneEach).2 (by unfold Spares; decide +kernel)⟩

/-- A cut in a name: the header is stored under what stands behind the cut. -/
theorem cut_name_stored : ∃ bss : List Bytes, (∀ bs ∈ bss, bs ≠ []) ∧
    (init .request).completes bss.flatten = true ∧
      (HttpRequestParser.new.executes bss).seen ≠
        (HttpRequestParser.new.execute bss.flatten).1.seen := by
  refine ⟨[bytes "GET / HTTP/1.1\r\nHo".toList, bytes "st: h\r\n\r\n".toList], by decide +kernel,
    by decide +kernel, fun h => ?_⟩
  have hentries := congrArg (fun seen => seen.headers.entries) h
  revert hentries
  decide +kernel

end Seen

end Http

end Hiper

import Hiper.Http.Dump
import Hiper.Http.RequestReading

/-!
# A request that is written and read

What `HttpRequest::dump` writes, an `HttpRequestParser` reads to its last byte, and what
it has then is the request again (`request_read_back`): its headers are those that were
sent, and written once more they give the same text.

What is written is `src/hiper/http/http.cc:183`, what is read is
`HttpRequestParser::execute` (`src/hiper/http/http_parser.cc:234`).  `Sendable` collects
what must hold of the request, among it that its URL is shorter than `2 ^ 16`, its head
within `HTTP_MAX_HEADER_SIZE`, and that no header tells the length of a body that is not
there; on the way the text is taken as a `RequestHead` (`bytes_dump`), so that the theorems
on heads can be used.
-/

namespace Hiper

namespace Http

open HttpParser StringUtil

/-! ### Names -/

/-- The characters of a name are those that `strcasecmp` compares.  Both fold `A` to `Z` and
leave the others of a name alone. -/
theorem token_eq_tolower {ch : Byte} (h : token ch ≠ 0) : token ch = tolower ch := by
  rw [token] at h ⊢
  rw [tolower]
  split_ifs at h ⊢ <;> first | rfl | contradiction

/-- What the parser compares is what `strcasecmp` compares. -/
theorem lowered_eq {name : Bytes} (h : IsName name) : lowered name = name.map tolower :=
  List.map_congr_left fun ch hch => token_eq_tolower (h.2 ch hch)

/-- A name has no zero byte, so `strcasecmp` sees all of it. -/
theorem zero_notMem_name {name : Bytes} (h : IsName name) : 0 ∉ name := notMem_of_token h.2 rfl

/-- A name that the parser takes for this word is one that `dump` takes for it.  The word is
written in lower case. -/
theorem caseEq_iff_lowered {name word : Bytes} (h : IsName name) (hword : 0 ∉ word)
    (hlower : word.map tolower = word) : caseEq name word = true ↔ lowered name = word := by
  rw [caseEq, decide_eq_true_iff, caseKey_eq_iff (zero_notMem_name h) hword, hlower, lowered_eq h]

end Http

open Http HttpParser StringUtil

namespace HttpRequest

variable (r : HttpRequest)

/-- The headers that `dump` does not skip.  They stand in the order of the map. -/
def sent : List Entry := r.headers.entries.filter fun e => !requestSkips r.websocket r.body e

/-- All header lines, with the two that `dump` adds.  `connection` stands first and
`content-length` last. -/
def fields : List Field :=
  (text "connection", closeText r.close) :: r.sent ++
    if r.body.isEmpty then [] else [(text "content-length", decimal r.body.length)]

/-- The head that is sent with this method.  Its lines are those. -/
def head (m : Method) : RequestHead :=
  ⟨m, r.path, r.query, r.fragment, (r.version >>> 4).toNat, (r.version &&& 0x0F).toNat, r.fields⟩

/-- A request that can be sent: no websocket, and nothing in it that a parser would take for
something else.  Each field is a condition on what stands in the request. -/
structure Sendable (m : Method) : Prop where
  plain : r.websocket = false
  named : r.method = .of m
  method : m ≠ .connect
  url : UrlFits r.path r.query r.fragment
  url_length : (urlText r.path r.query r.fragment).length < 65536
  version : (r.version >>> 4).toNat < 10 ∧ (r.version &&& 0x0F).toNat < 10
  headers : IsFields r.sent
  length : (r.head m).bytes.length ≤ maxHeaderSize
  body : r.body.length ≤ maxLength
  no_body : r.body = [] → TellsLength r.sent none ∨ TellsLength r.sent (some 0)
  not_chunked : ¬Chunked r.sent
  no_upgrade : NoUpgrade r.sent

variable {r} {m : Method} {w : Written}

/-- The text of the lines.  A request that is no websocket has `connection` in front. -/
theorem lines_eq (hplain : r.websocket = false) :
    (if r.websocket then [] else [connectionLine r.close]) ++ r.headerLines ++
      (if r.body.isEmpty then [] else [lengthLine r.body]) = r.fields.map fun f => line f.1 f.2 := by
  rw [fields, headerLines, Http.headerLines, ← sent, hplain]
  cases r.body <;> simp [connectionLine, lengthLine]

/-- The lines, each with its line end, are the text of the fields. -/
theorem lines_text (fs : List Field) :
    (fs.map fun f => line f.1 f.2).flatMap (· ++ crlf) = fieldLines fs := by
  rw [List.flatMap_map, fieldLines]
  refine congrArg (List.flatMap · fs) (funext fun f => ?_)
  have hsep : text ": " = [58, 32] := rfl
  have hcrlf : crlf = [CR, LF] := rfl
  rw [line, fieldLine, hsep, hcrlf]
  simp

/-- The URL, as `dump` puts it together.  The signs stand only before parts that are there. -/
theorem url_text (path query fragment : Bytes) :
    path ++ (if query.isEmpty then [] else text "?") ++ query ++
      (if fragment.isEmpty then [] else text "#") ++ fragment = urlText path query fragment := by
  have hquery : text "?" = [63] := rfl
  have hfragment : text "#" = [35] := rfl
  rw [urlText, hquery, hfragment]
  cases query <;> cases fragment <;> simp

/-- **What `dump` writes** is the head and the body.  Nothing stands between them but the empty
line. -/
theorem bytes_dump (hs : r.Sendable m) (hw : r.dump = some w) :
    w.bytes = (r.head m).bytes ++ r.body := by
  rw [dump, hs.named, HttpMethod.toText, Option.map_some, Option.some.injEq] at hw
  subst hw
  have hblank : text " " = [32] := rfl
  have hcrlf : crlf = [CR, LF] := rfl
  have hhead : (r.head m).bytes = text m.name ++ [32] ++ (urlText r.path r.query r.fragment ++ [32]) ++
      (versionText r.version ++ [CR, LF]) ++ (fieldLines r.fields ++ [CR, LF]) := rfl
  rw [Written.bytes, lines_eq hs.plain, lines_text, hhead, ← url_text, hblank, hcrlf]
  simp only [List.append_assoc]

/-! ### The lines -/

/-- A name that the parser takes for one it knows.  It is one of the words of the table. -/
theorem lowered_of_nameState {name : Bytes} {s : HeaderState} (hs : nameState name = s)
    (hne : s ≠ .general) : ∃ w ∈ words, bytes w.1 = lowered name ∧ w.2 = s := by
  rw [nameState] at hs
  cases hfind : words.find? fun w => bytes w.1 == lowered name with
  | none =>
      rw [hfind] at hs
      exact absurd hs.symm hne
  | some w =>
      rw [hfind] at hs
      exact ⟨w, List.mem_of_find?_eq_some hfind, by simpa using List.find?_some hfind, hs⟩

/-- A name that the parser takes for `content-length` is one that `dump` would skip with a body. -/
theorem caseEq_of_contentLength {name : Bytes} (h : IsName name) (hs : nameState name = .contentLength) :
    caseEq name (text "content-length") = true := by
  have hone : ∀ w ∈ words, w.2 = .contentLength → bytes w.1 = text "content-length" := by
    decide +kernel
  obtain ⟨w, hw, hlowered, hstate⟩ := lowered_of_nameState hs (by decide)
  rw [caseEq_iff_lowered h (by decide +kernel) (by decide +kernel), ← hlowered]
  exact hone w hw hstate

/-- A number is written in digits. -/
theorem isNum_of_mem_decimal {n : ℕ} {ch : Byte} (h : ch ∈ decimal n) : isNum ch = true :=
  isdigit_of_mem_decimal h

/-- A number is a value of a header. -/
theorem isValue_decimal (n : ℕ) : IsValue (decimal n) := by
  have hchar : ∀ ch ∈ decimal n, 48 ≤ ch ∧ ch ≤ 57 := by
    intro ch hch
    simpa [isNum] using isNum_of_mem_decimal hch
  have hne : ∀ ch c : Byte, 48 ≤ ch → c < 48 → ch ≠ c := fun ch c h hc heq =>
    absurd (heq ▸ h) (UInt8.not_le.2 hc)
  refine ⟨fun ch hch => ?_, fun ch hch => ?_⟩
  · obtain ⟨hlow, hhigh⟩ := hchar ch hch
    refine ⟨?_, hne ch _ hlow (by decide), hne ch _ hlow (by decide)⟩
    have h31 : 31 < ch := UInt8.lt_of_lt_of_le (show (31 : Byte) < 48 by decide) hlow
    have h127 : ch ≠ 127 := fun heq => absurd (heq ▸ hhigh) (by decide)
    simp [isHeaderChar, h31, h127]
  · obtain ⟨hlow, -⟩ := hchar ch (List.mem_of_mem_head? hch)
    exact ⟨hne ch _ hlow (by decide), hne ch _ hlow (by decide)⟩

/-- A number up to the limit is a length, and the one it says. -/
theorem isLength_decimal {n : ℕ} (h : n ≤ maxLength) : IsLength (decimal n) n :=
  ⟨decimal n, 0, (List.append_nil _).symm, decimal_ne_nil n, fun _ => isNum_of_mem_decimal,
    readDecimal_decimal n, h⟩

/-- `close` and `keep-alive` are values of a header. -/
theorem isValue_closeText (close : Bool) : IsValue (closeText close) := by
  cases close
  · exact ⟨by decide +kernel, by decide +kernel⟩
  · exact ⟨by decide +kernel, by decide +kernel⟩

/-- The lines are `connection`, the headers that are sent, and `content-length` if there is a
body. -/
theorem mem_fields {f : Field} : f ∈ r.fields ↔ f = (text "connection", closeText r.close) ∨ f ∈ r.sent ∨
    r.body ≠ [] ∧ f = (text "content-length", decimal r.body.length) := by
  rw [fields, List.mem_append, List.mem_cons, or_assoc]
  cases r.body <;> simp

/-- `connection` is a name, and one that the parser knows. -/
theorem connection_name : IsName (text "connection") ∧ nameState (text "connection") = .connection := by
  decide +kernel

/-- `content-length` is a name, and one that the parser knows. -/
theorem length_name :
    IsName (text "content-length") ∧ nameState (text "content-length") = .contentLength := by
  decide +kernel

/-- All the lines can be lines of a head. -/
theorem isFields_fields (hs : r.Sendable m) : IsFields r.fields := by
  intro f hf
  rcases mem_fields.1 hf with rfl | hf | ⟨-, rfl⟩
  · exact ⟨connection_name.1, isValue_closeText _⟩
  · exact hs.headers f hf
  · exact ⟨length_name.1, isValue_decimal _⟩

/-- The head of a request that can be sent fits. -/
theorem fits_head (hs : r.Sendable m) : (r.head m).Fits :=
  ⟨hs.method, hs.url, hs.version.1, hs.version.2, isFields_fields hs, hs.length⟩

/-- No line asks for an upgrade. -/
theorem noUpgrade_fields (hs : r.Sendable m) : NoUpgrade r.fields := by
  intro f hf
  rcases mem_fields.1 hf with rfl | hf | ⟨-, rfl⟩
  · exact fun hno => by cases connection_name.2.symm.trans hno
  · exact hs.no_upgrade f hf
  · exact fun hno => by cases length_name.2.symm.trans hno

/-- No line announces chunks. -/
theorem not_chunked_fields (hs : r.Sendable m) : ¬Chunked r.fields := by
  rintro ⟨f, hf, hstate, hchunked⟩
  rcases mem_fields.1 hf with rfl | hf | ⟨-, rfl⟩
  · cases connection_name.2.symm.trans hstate
  · exact hs.not_chunked ⟨f, hf, hstate, hchunked⟩
  · cases length_name.2.symm.trans hstate

/-- A header that is sent with a body does not tell its length.  `dump` skips it. -/
theorem lengths_sent (hs : r.Sendable m) (hbody : r.body ≠ []) : lengths r.sent = [] := by
  rw [lengths, List.map_eq_nil_iff, List.filter_eq_nil_iff]
  intro e he hstate
  have hskip := (List.mem_filter.1 he).2
  have hname := caseEq_of_contentLength (hs.headers e he).1 (by simpa using hstate)
  rw [requestSkips, hname, List.isEmpty_eq_false_iff.2 hbody] at hskip
  simp at hskip

/-- The lengths that the lines tell are those of the headers, and that of the body if there is
one. -/
theorem lengths_fields : lengths r.fields =
    lengths r.sent ++ if r.body.isEmpty then [] else [decimal r.body.length] := by
  have hconnection : nameState (text "connection") ≠ .contentLength := by
    rw [connection_name.2]
    decide
  rw [fields, List.cons_append, lengths_cons_of_ne hconnection, lengths, lengths, List.filter_append,
    List.map_append]
  refine congrArg _ ?_
  split_ifs
  · rfl
  · rw [List.filter_cons_of_pos (by simpa using length_name.2)]
    rfl

/-- **The head tells the length of the body**, and nothing else of it.  Without a body they tell
nothing, or 0. -/
theorem framedBy_fields (hs : r.Sendable m) :
    ∃ l, FramedBy r.fields l ∧ l.getD 0 = r.body.length := by
  have hone : ∀ l, TellsLength r.fields l → FramedBy r.fields l := fun l htells =>
    ⟨htells, fun hno => absurd hno (not_chunked_fields hs)⟩
  by_cases hbody : r.body = []
  · have hlengths : lengths r.fields = lengths r.sent := by
      rw [lengths_fields, hbody]
      exact List.append_nil _
    rw [hbody]
    rcases hs.no_body hbody with htells | htells
    · exact ⟨none, hone none (hlengths.trans htells), rfl⟩
    · obtain ⟨v, hv, hzero⟩ := htells
      exact ⟨some 0, hone _ ⟨v, hlengths.trans hv, hzero⟩, rfl⟩
  · refine ⟨some r.body.length, hone _ ⟨decimal r.body.length, ?_, isLength_decimal hs.body⟩, rfl⟩
    rw [lengths_fields, lengths_sent hs hbody, List.isEmpty_eq_false_iff.2 hbody]
    rfl

/-! ### What the parser makes of it -/

/-- The version of a head is the one that was written.  Its halves are the digits. -/
theorem headVersion_halves (m : Method) (version : UInt8) (code : ℕ) :
    headVersion ⟨m, (version >>> 4).toNat, (version &&& 0x0F).toNat, code⟩ = version := by
  have hall : ∀ n < 256, ((UInt8.ofNat n >>> 4).toNat <<< 4 |||
      (UInt8.ofNat n &&& 0x0F).toNat).toUInt8 = UInt8.ofNat n := by decide +kernel
  have hversion := hall version.toNat version.toNat_lt
  rwa [UInt8.ofNat_toNat] at hversion

/-- The request that the parser has.  It is a new request with the parts of the one that was
sent and the headers of its lines. -/
def received (r : HttpRequest) : HttpRequest :=
  { r with
    close := true, parserParamFlag := ⟨false, false, false⟩, params := .empty, cookies := .empty,
    headers := setAll .empty r.fields }

/-- **The head is read**, and the method, the version and the headers are there.  The parser
stands where the body begins. -/
theorem reads_sent (hs : r.Sendable m) :
    ∃ q s i f l, Sums (r.head m).afterLine q r.fields l ∧ l.getD 0 = r.body.length ∧
      q.flags.chunked = false ∧
      Reader.reads requestCallbacks.settings (r.head m).bytes
        ⟨HttpParser.init .request, none, HttpRequestParser.new.toSink⟩ =
          some ⟨{ q.afterHead with headerState := s, index := i }, none,
            { data := { r.received with body := [] }, finished := !q.bodyState.isSome, field := f }⟩ := by
  obtain ⟨l, hframed, hl⟩ := framedBy_fields hs
  obtain ⟨q, s, i, f, hsums, hreads⟩ :=
    HttpRequestParser.reads_framed (fits_head hs) hs.url_length hframed (noUpgrade_fields hs)
  have hchunked : q.flags.chunked = false := by
    rw [Bool.eq_false_iff]
    intro hno
    rcases hsums.chunked.1 hno with hno | hno
    · cases hno
    · exact not_chunked_fields hs hno
  have hdata : HttpRequestParser.requestOf (r.head m) = { r.received with body := [] } := by
    have hversion := headVersion_halves m r.version 0
    rw [HttpRequestParser.requestOf, HttpRequest.new]
    dsimp only [head]
    rw [hversion, ← hs.named, received, hs.plain]
  refine ⟨q, s, i, f, l, hsums, hl, hchunked, ?_⟩
  rw [← hdata]
  exact hreads

/-- **The whole text is read**, the body with it.  Its body has the length that the head tells. -/
theorem reads_request (hs : r.Sendable m) : ∃ p f, p.upgrade = false ∧
    Reader.reads requestCallbacks.settings ((r.head m).bytes ++ r.body)
      ⟨HttpParser.init .request, none, HttpRequestParser.new.toSink⟩ =
        some ⟨p, none, { data := r.received, finished := true, field := f }⟩ := by
  obtain ⟨q, s, i, f, l, hsums, hl, hchunked, hreads⟩ := reads_sent hs
  have hbody := RequestHead.bodyState_of_sums hsums
  rw [hchunked, if_neg Bool.false_ne_true] at hbody
  rw [Reader.reads_of_append hreads]
  by_cases hempty : r.body = []
  · have hnone : q.bodyState = none := hbody.trans (if_pos (by rw [hl, hempty]; rfl))
    refine ⟨{ q.afterHead with headerState := s, index := i }, f, rfl, ?_⟩
    rw [hempty, Reader.reads_nil, hnone, received, hempty]
    rfl
  · have hne : l.getD 0 ≠ 0 := by
      rw [hl]
      exact mt List.length_eq_zero_iff.1 hempty
    obtain ⟨n, rfl⟩ : ∃ n, l = some n := by
      cases l with
      | none => exact absurd rfl hne
      | some n => exact ⟨n, rfl⟩
    have hstate : q.bodyState = some .bodyIdentity := hbody.trans (if_neg hne)
    have happend : requestCallbacks.settings.onData .body r.body
        { data := { r.received with body := [] }, finished := !q.bodyState.isSome, field := f } =
          some { data := r.received, finished := !q.bodyState.isSome, field := f } := rfl
    have hlast := HttpParser.reads_body (p := { q.afterHead with headerState := s, index := i })
      (by rw [afterHead, hstate]; rfl) rfl (by rw [afterHead, hsums.same]; exact hl) hempty happend
    refine ⟨_, f, ?_, hlast⟩
    rfl

/-! ### The headers -/

/-- A header that is sent is not one that `dump` skips. -/
theorem not_skipped {e : Entry} (he : e ∈ r.sent) : requestSkips r.websocket r.body e = false := by
  simpa using (List.mem_filter.1 he).2

/-- No two lines have the same name.  The two that `dump` adds are skipped among the headers. -/
theorem fields_distinct (hplain : r.websocket = false) :
    r.fields.Pairwise fun a b => entryKey a ≠ entryKey b := by
  have hskip : ∀ e ∈ r.sent, entryKey e ≠ caseKey (text "connection") ∧
      (r.body ≠ [] → entryKey e ≠ caseKey (text "content-length")) := by
    intro e he
    have hno := not_skipped he
    rw [requestSkips, hplain, Bool.or_eq_false_iff] at hno
    refine ⟨of_decide_eq_false hno.1, fun hbody => ?_⟩
    rw [List.isEmpty_eq_false_iff.2 hbody] at hno
    exact of_decide_eq_false hno.2
  have hsent : r.sent.Pairwise fun a b => entryKey a ≠ entryKey b :=
    (r.headers.sorted.sublist List.filter_sublist).imp fun h => h.ne
  have hown : caseKey (text "connection") ≠ caseKey (text "content-length") := by decide +kernel
  rw [fields, List.cons_append, List.pairwise_cons]
  constructor
  · intro e he
    rcases List.mem_append.1 he with he | he
    · exact (hskip e he).1.symm
    · split_ifs at he
      · cases he
      · rw [List.mem_singleton.1 he]
        exact hown
  · refine List.pairwise_append.2 ⟨hsent, ?_, ?_⟩
    · split_ifs
      · exact List.Pairwise.nil
      · exact List.pairwise_singleton ..
    · intro e he e' he'
      split_ifs at he' with hempty
      · cases he'
      · rw [List.mem_singleton.1 he']
        exact (hskip e he).2 (by simpa using hempty)

/-- The headers that the parser has are those that were sent.  The map has one entry for each
line. -/
theorem mem_received (hplain : r.websocket = false) {e : Entry} :
    e ∈ r.received.headers.entries ↔ e ∈ r.fields := by
  refine (mem_setAll (fields_distinct hplain) fun a _ x hx => ?_).trans (or_iff_left ?_)
  · cases hx
  · exact List.not_mem_nil

/-- What becomes of the connection is told by its header.  `init` reads `connection`. -/
theorem init_received (hplain : r.websocket = false) : r.received.init = { r.received with close := r.close } := by
  have hmem : (text "connection", closeText r.close) ∈ r.received.headers.entries :=
    (mem_received hplain).2 (mem_fields.2 (Or.inl rfl))
  have hfind : r.received.headers.find (text "connection") = some (text "connection", closeText r.close) :=
    MapType.find_eq_some.2 ⟨hmem, rfl⟩
  have hget : r.received.getHeader (text "connection") [] = closeText r.close := by
    rw [getHeader, hfind]
    rfl
  have hclose : (closeText r.close).isEmpty = false ∧
      (!caseEq (closeText r.close) (text "keep-alive")) = r.close := by
    cases r.close <;> decide +kernel
  rw [init, hget]
  dsimp only
  rw [hclose.1, hclose.2]
  rfl

/-- The headers are written once more as they were.  The two that were added are skipped again. -/
theorem headerLines_received (hplain : r.websocket = false) :
    r.received.init.headerLines = r.headerLines := by
  have hsent : r.received.init.sent = r.sent := by
    rw [init_received hplain]
    have hmem : ∀ e, e ∈ ({ r.received with close := r.close } : HttpRequest).sent ↔ e ∈ r.sent := by
      intro e
      have hown : ∀ name value, (name = text "connection" ∨ name = text "content-length" ∧ r.body ≠ []) →
          requestSkips r.websocket r.body (name, value) = true := by
        rintro name value (rfl | ⟨rfl, hbody⟩)
        · rw [requestSkips, hplain]
          rfl
        · rw [requestSkips, List.isEmpty_eq_false_iff.2 hbody]
          exact Bool.or_eq_true_iff.2 (Or.inr rfl)
      rw [sent, List.mem_filter]
      change e ∈ r.received.headers.entries ∧ (!requestSkips r.websocket r.body e) = true ↔ _
      rw [mem_received hplain, mem_fields]
      constructor
      · rintro ⟨rfl | he | ⟨hbody, rfl⟩, hskip⟩
        · rw [hown _ _ (Or.inl rfl)] at hskip
          cases hskip
        · exact he
        · rw [hown _ _ (Or.inr ⟨rfl, hbody⟩)] at hskip
          cases hskip
      · intro he
        rw [not_skipped he]
        exact ⟨Or.inr (Or.inl he), rfl⟩
    have hsorted : ∀ r : HttpRequest, r.sent.Pairwise fun a b => entryKey a < entryKey b := fun r =>
      r.headers.sorted.sublist List.filter_sublist
    have hnodup : ∀ r : HttpRequest, r.sent.Nodup := fun r =>
      (hsorted r).imp fun h heq => absurd (heq ▸ h) (lt_irrefl _)
    refine ((List.perm_ext_iff_of_nodup (hnodup _) (hnodup r)).2 hmem).eq_of_pairwise ?_ (hsorted _)
      (hsorted r)
    intro a b _ _ hab hba
    exact absurd hab hba.asymm
  exact congrArg (List.map fun e : Entry => line e.1 e.2) hsent

/-! ### The round trip -/

/-- **A request is read back.**  The parser takes the whole text and is finished, it has the
headers that were sent, and its request is the one that was written.  `init` is what
`recvRequest` does with it before it returns the request; after it the close flag is the one
that was sent, and the parameters and cookies are not parsed yet. -/
theorem request_read_back (hs : r.Sendable m) (hw : r.dump = some w) : ∃ x : HttpRequestParser,
    HttpRequestParser.new.execute w.bytes = (x, w.bytes.length) ∧
    x.hasError = false ∧ x.finished = true ∧
    (∀ e, e ∈ x.data.headers.entries ↔ e ∈ r.fields) ∧
    x.data.init = { r with
      parserParamFlag := ⟨false, false, false⟩, params := .empty, cookies := .empty,
      headers := x.data.headers } ∧
    x.data.init.dump = some w := by
  obtain ⟨p, f, hupgrade, hreads⟩ := reads_request hs
  rw [← bytes_dump hs hw] at hreads
  have hne : w.bytes ≠ [] := by
    rw [bytes_dump hs hw, RequestHead.bytes]
    simp
  have hinit := init_received hs.plain
  refine ⟨{ data := r.received, finished := true, field := f, parser := p, httpErrno := none, error := none },
    HttpRequestParser.execute_of_reads hne hreads rfl hupgrade, rfl, rfl, fun e => mem_received hs.plain, hinit, ?_⟩
  have hlines := headerLines_received hs.plain
  rw [hinit] at hlines
  rw [hinit, dump, hlines]
  exact hw

/-- A form that is sent to a host.  It has a body and a header. -/
def formRequest : HttpRequest :=
  { (new 0x11 false).setHeader (text "Host") (text "h") with
    method := .of .post, path := text "/f", query := text "a=1", fragment := text "top", body := text "b=2" }

/-- It can be sent by post. -/
theorem formRequest_sendable : formRequest.Sendable .post := by
  have hnames : ∀ e ∈ formRequest.sent, nameState e.1 = .general := by decide +kernel
  exact
    { plain := rfl
      named := rfl
      method := by decide
      url := ⟨by decide +kernel, by decide +kernel, by decide +kernel, by decide +kernel, by decide +kernel⟩
      url_length := by decide +kernel
      version := by decide +kernel
      headers := isFields_iff.2 (by decide +kernel)
      length := by decide +kernel
      body := by decide +kernel
      no_body := fun hno => absurd hno (by decide +kernel)
      not_chunked := by
        rintro ⟨e, he, hstate, -⟩
        cases (hnames e he).symm.trans hstate
      no_upgrade := fun e he hstate => by cases (hnames e he).symm.trans hstate }

/-- It is read back as it was. -/
theorem form_read_back : ∃ w, formRequest.dump = some w ∧ ∃ x : HttpRequestParser,
    HttpRequestParser.new.execute w.bytes = (x, w.bytes.length) ∧
    x.hasError = false ∧ x.finished = true ∧
    (∀ e, e ∈ x.data.headers.entries ↔ e ∈ formRequest.fields) ∧
    x.data.init = { formRequest with
      parserParamFlag := ⟨false, false, false⟩, params := .empty, cookies := .empty,
      headers := x.data.headers } ∧
    x.data.init.dump = some w :=
  ⟨_, rfl, request_read_back formRequest_sendable rfl⟩

end HttpRequest

end Hiper

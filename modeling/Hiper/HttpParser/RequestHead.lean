import Hiper.HttpParser.Framing
import Hiper.HttpParser.RequestLine

/-!
# The head of a request

A request line and header lines, as `HttpRequest::dump` writes them.  The parser reads
such a head to its end when it accepts the lines (`reads_head`), and then it stands
where their sum says; otherwise it stops with an error (`stops_head`).

The states are `s_start_req` to `s_headers_done` of
`src/hiper/http/http-parser/http_parser.cc`.  `Fits` is what the theorems ask of a head: no
`CONNECT`, a URL that begins with `/` or is `*`, a version of two digits, names and values
that are read back, and not more than `HTTP_MAX_HEADER_SIZE` bytes.
-/

namespace Hiper

namespace HttpParser

open StringUtil

variable {δ : Type*} {st : Settings δ} {p q : HttpParser} {bs rest : Bytes} {d d' : δ} {ch : Byte}
  {r r' : Reader δ}

/-- The head of a request.  The body does not belong to it. -/
structure RequestHead where
  method : Method
  path : Bytes
  query : Bytes
  fragment : Bytes
  major : ℕ
  minor : ℕ
  fields : List Field

namespace RequestHead

variable (h : RequestHead)

/-- The URL, put together from its parts. -/
def url : Bytes := urlText h.path h.query h.fragment

/-- The request line and the line end.  It is what `dump` writes first. -/
def line : Bytes := text h.method.name ++ [32] ++ (h.url ++ [32]) ++ (httpText h.major h.minor ++ [CR, LF])

/-- The text of the head, with the empty line. -/
def bytes : Bytes := h.line ++ (fieldLines h.fields ++ [CR, LF])

/-- What a client may send, within the limit on heads.  Each field is a condition on the text
alone. -/
structure Fits : Prop where
  method : h.method ≠ .connect
  url : UrlFits h.path h.query h.fragment
  major : h.major < 10
  minor : h.minor < 10
  fields : IsFields h.fields
  length : h.bytes.length ≤ maxHeaderSize

/-- The parser behind the request line.  The first header line comes next. -/
def afterLine : HttpParser :=
  { afterMethod h.method with
    state := .headerFieldStart, httpMajor := h.major, httpMinor := h.minor, nread := h.line.length }

variable {h}

/-- The length of the request line. -/
theorem length_line (hf : h.Fits) : h.line.length = (text h.method.name).length + h.url.length + 12 := by
  have hversion : (httpText h.major h.minor).length = 8 := by
    rw [httpText, decimal_of_lt hf.major, decimal_of_lt hf.minor]
    rfl
  simp only [line, List.length_append, List.length_cons, List.length_nil, hversion]
  omega

/-- The length of the head. -/
theorem length_bytes : h.bytes.length = h.line.length + ((fieldLines h.fields).length + 2) := by
  rw [bytes, List.length_append, List.length_append]
  rfl

/-- **The request line.**  `on_message_begin` and `on_url` are called. -/
theorem reads_line (hf : h.Fits) (hd : st.onData .url h.url (st.onNotify .messageBegin d) = some d') :
    Reader.reads st h.line ⟨init .request, none, d⟩ = some ⟨h.afterLine, none, d'⟩ := by
  have hlength := length_line hf
  have hle := hf.length
  rw [length_bytes, hlength] at hle
  have hurl := reads_url hf.method hf.url
    (by change (text h.method.name).length + h.url.length + 2 ≤ _; omega) hd
  have hversion := glide_version (p := { afterMethod h.method with
      state := .reqHttpStart, nread := (text h.method.name).length + h.url.length + 2 }) rfl
    (by change (text h.method.name).length + h.url.length + 2 + 10 ≤ _; omega) hf.major hf.minor
  have hline : h.line = text h.method.name ++ [32] ++ (urlText h.path h.query h.fragment ++ [32] ++
      (httpText h.major h.minor ++ [CR, LF])) := by
    rw [line, List.append_assoc]
    rfl
  rw [hline, Reader.reads_of_append (reads_method h.method d), Reader.reads_of_append hurl]
  refine (Reader.reads_of_glide hversion).trans ?_
  rw [afterLine, hlength]
  rfl

section

variable {l : Option ℕ}

/-- Lines that tell one length at most are accepted behind the request line. -/
theorem sums_of_tells (htells : TellsLength h.fields l) :
    ∃ q, h.fields.foldlM effect h.afterLine = .ok q ∧ Sums h.afterLine q h.fields l := by
  obtain ⟨q, hq⟩ := effects_of_tells (p := h.afterLine) htells fun hno => by cases hno
  obtain ⟨l', hsums⟩ := sums_of_effects hq
  obtain rfl := htells.unique hsums.tells
  exact ⟨q, hq, hsums⟩

/-- Where the body is read.  A length of zero is no body. -/
theorem bodyState_of_sums (hsums : Sums h.afterLine q h.fields l) :
    q.bodyState = if q.flags.chunked then some .chunkSizeStart
      else if l.getD 0 = 0 then none
      else some .bodyIdentity := by
  have htype : q.type = .request := by rw [hsums.same]; rfl
  have hlength : q.contentLength = l.getD ullongMax := by rw [hsums.same]; rfl
  have hneeds : q.messageNeedsEof = false := by rw [messageNeedsEof, if_pos htype]
  rw [bodyState, hneeds, hlength]
  congr 1
  cases l with
  | none => rfl
  | some n =>
      have hle := hsums.tells.le
      have hmax : n ≠ ullongMax := by
        rw [maxLength] at hle
        change n ≠ 18446744073709551615
        omega
      rw [Option.getD_some, Option.getD_some, if_pos hmax]

/-- **The head of a request** is read to its end, its callbacks are called, and the parser
stands where its body is read. -/
theorem reads_head (hf : h.Fits) (hframed : FramedBy h.fields l) (hup : NoUpgrade h.fields) {d₁ d₂ : δ}
    (hd₁ : st.onData .url h.url (st.onNotify .messageBegin d) = some d₁)
    (hd₂ : h.fields.foldlM (hear st) d₁ = some d₂) :
    ∃ q s i, Sums h.afterLine q h.fields l ∧
      Reader.reads st h.bytes ⟨init .request, none, d⟩ = some ⟨
        { q.afterHead with headerState := s, index := i }, none,
        if q.bodyState.isSome then st.onNotify (.headersComplete q.head) d₂
        else st.onNotify .messageComplete (st.onNotify (.headersComplete q.head) d₂)⟩ := by
  obtain ⟨q, hq, hsums⟩ := sums_of_tells hframed.tells
  have hle := hf.length
  rw [length_bytes] at hle
  have hsame := hsums.same
  obtain ⟨s, i, hfields⟩ := reads_fields (p := h.afterLine) rfl hf.fields hq
    (by change h.line.length + (fieldLines h.fields).length < _; omega)
    (show CR ≠ SP ∧ CR ≠ TAB by decide) hd₂ [LF]
  have htrailing : q.flags.trailing = false := hsums.trailing
  have hnoupgrade : q.upgrades = false := by
    rw [upgrades, hsums.upgrade hup]
    rw [hsame]
    exact beq_eq_false_iff_ne.2 hf.method
  have hend := reads_headEnd (p := { q with
    headerState := s, index := i, nread := h.afterLine.nread + (fieldLines h.fields).length })
    (by rw [hsame]; rfl) htrailing (hsums.one_way hframed rfl) hnoupgrade
    (by change h.line.length + (fieldLines h.fields).length + 2 ≤ _; omega) st d₂
  refine ⟨q, s, i, hsums, ?_⟩
  rw [bytes, Reader.reads_of_append (reads_line hf hd₁)]
  exact hfields.trans hend

end

end RequestHead

end HttpParser

end Hiper

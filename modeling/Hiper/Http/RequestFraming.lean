import Hiper.Http.RequestReading
import Hiper.HttpParser.Chunks
import Hiper.HttpParser.Refused

/-!
# Where the body of a request ends

The lines of a head tell the length of the body in one way, or the head is refused
(`head_decides`): no two readers of the lines can disagree about it.  A body in chunks is
put together again, whatever the chunks are (`chunked_read`).

The lines that tell it are read by `http_parser_execute`
(`src/hiper/http/http-parser/http_parser.cc:638`) one after another, and the decision is
made at the end of the head.  `FramedBy` says of a list of lines that they agree: at most
one `Content-Length`, or chunks and no length, or neither.  The theorems are about heads
that `RequestHead.Fits` describes; a `CONNECT`, an absolute URL, a head over
`HTTP_MAX_HEADER_SIZE` and a request for an upgrade are not among them.
-/

namespace Hiper

open Http HttpParser StringUtil

namespace HttpRequestParser

variable {h : RequestHead} {l : Option ℕ} {rest : Bytes} {b : ChunkedBody}

/-! ### Heads -/

/-- A head that is not framed leaves an error.  Two lengths, or a length and chunks. -/
theorem hasError_of_not_framed (hf : h.Fits) (hurl : h.url.length < 65536) (hno : ¬∃ l, FramedBy h.fields l) :
    (HttpRequestParser.new.execute h.bytes).1.hasError = true := by
  obtain ⟨hd₁, f, hd₂⟩ := heard hf hurl
  have hstops := execute_stops (p := HttpParser.init .request)
    (d := HttpRequestParser.new.toSink) (RequestHead.stops_head hf hno hd₁ hd₂)
  have herror : (HttpRequestParser.errorOf ((HttpParser.init .request).execute requestCallbacks.settings none
      h.bytes HttpRequestParser.new.toSink)).isSome = true := by
    rw [errorOf_isSome, hstops]
    rfl
  change ((HttpRequestParser.errorOf _).or none).isSome = true
  rw [Option.or_none]
  exact herror

/-- The flag for chunks is the lines' saying so. -/
theorem not_chunked_of_sums {q : HttpParser} (hsums : Sums h.afterLine q h.fields l) :
    q.flags.chunked = true ↔ Chunked h.fields := by
  rw [hsums.chunked, or_iff_right]
  exact fun hno => by cases hno

/-- A head is never empty, with or without a body. -/
theorem bytes_ne_nil (h : RequestHead) (rest : Bytes) : h.bytes ++ rest ≠ [] := by
  simp [RequestHead.bytes]

/-- A head whose body comes in no chunks, and the first bytes of that body.  The parser has that
much of the body, and is finished when it is all of it. -/
theorem execute_part (hf : h.Fits) (hurl : h.url.length < 65536) (hup : NoUpgrade h.fields)
    (hframed : FramedBy h.fields l) (hplain : ¬Chunked h.fields) (hle : rest.length ≤ l.getD 0) :
    ∃ x : HttpRequestParser, HttpRequestParser.new.execute (h.bytes ++ rest) = (x, (h.bytes ++ rest).length) ∧
      x.hasError = false ∧ x.data = { requestOf h with body := rest } ∧
      (x.finished = true ↔ rest.length = l.getD 0) := by
  obtain ⟨q, s, i, f, hsums, hreads⟩ := reads_framed hf hurl hframed hup
  have hchunked : q.flags.chunked = false := by
    rw [Bool.eq_false_iff]
    exact mt (not_chunked_of_sums hsums).1 hplain
  have hbody := RequestHead.bodyState_of_sums hsums
  rw [hchunked, if_neg Bool.false_ne_true] at hbody
  by_cases hzero : l.getD 0 = 0
  · have hnone : q.bodyState = none := hbody.trans (if_pos hzero)
    obtain rfl : rest = [] := List.length_eq_zero_iff.1 (by omega)
    rw [hnone] at hreads
    rw [List.append_nil]
    refine ⟨_, execute_of_reads (by simpa using bytes_ne_nil h []) hreads rfl rfl, rfl, rfl, ?_⟩
    exact iff_of_true rfl hzero.symm
  · obtain ⟨n, rfl, hn⟩ : ∃ n, l = some n ∧ n ≠ 0 := by
      cases l with
      | none => exact absurd rfl hzero
      | some n => exact ⟨n, rfl, hzero⟩
    have hidentity : q.bodyState = some .bodyIdentity := hbody.trans (if_neg hzero)
    have hstate : q.afterHead.state = .bodyIdentity := by
      rw [afterHead, hidentity]
      rfl
    have hlength : q.afterHead.contentLength = n := by
      rw [afterHead, hsums.same]
      rfl
    rw [hidentity] at hreads
    by_cases hlast : rest.length = n
    · have hne : rest ≠ [] := fun hnil => hn (by rw [← hlast, hnil]; rfl)
      have happend : requestCallbacks.settings.onData .body rest
          { data := requestOf h, finished := false, field := f } =
            some { data := { requestOf h with body := rest }, finished := false, field := f } := rfl
      have hall := HttpParser.reads_body (p := { q.afterHead with headerState := s, index := i }) hstate rfl
        (hlength.trans hlast.symm) hne happend
      refine ⟨_, execute_of_reads (bytes_ne_nil h rest) ((Reader.reads_of_append hreads).trans hall) rfl rfl,
        rfl, rfl, ?_⟩
      exact iff_of_true rfl hlast
    · have hlt : rest.length < n := lt_of_le_of_ne hle hlast
      obtain ⟨t, ht, hpending, hpart⟩ := reads_soaking soaking_bodyIdentity (t := none)
        (p := { q.afterHead with headerState := s, index := i }) hstate (fun _ _ h => by cases h)
        (show rest.length < q.afterHead.contentLength by rw [hlength]; exact hlt)
        requestCallbacks.settings { data := requestOf h, finished := false, field := f }
      have hflush : (⟨{ q.afterHead with
          headerState := s, index := i, contentLength := q.afterHead.contentLength - rest.length }, t,
          { data := requestOf h, finished := false, field := f }⟩ : Reader (Sink HttpRequest)).flush
            requestCallbacks.settings = some
              { data := { requestOf h with body := rest }, finished := false, field := f } := by
        rw [show rest = pending t from hpending.symm]
        cases t with
        | none => rfl
        | some x =>
            obtain ⟨k, bs⟩ := x
            obtain rfl := ht k bs rfl
            rfl
      refine ⟨_, execute_of_reads (bytes_ne_nil h rest) ((Reader.reads_of_append hreads).trans hpart) hflush rfl,
        rfl, rfl, ?_⟩
      exact iff_of_false Bool.false_ne_true hlast

/-- **The head decides.**  A head of these lines is accepted exactly when they tell the length
of the body in one way, and then the message ends with the last byte of that length.  Any bytes
up to that length may stand behind the head; the message is finished with the last of them and
not before. -/
theorem head_decides (hf : h.Fits) (hurl : h.url.length < 65536) (hup : NoUpgrade h.fields) :
    ((HttpRequestParser.new.execute h.bytes).1.hasError = false ↔ ∃ l, FramedBy h.fields l) ∧
    ∀ l rest, FramedBy h.fields l → ¬Chunked h.fields → rest.length ≤ l.getD 0 →
      ∃ x : HttpRequestParser,
        HttpRequestParser.new.execute (h.bytes ++ rest) = (x, (h.bytes ++ rest).length) ∧
        x.hasError = false ∧ x.data = { requestOf h with body := rest } ∧
        (x.finished = true ↔ rest.length = l.getD 0) := by
  refine ⟨⟨fun hok => ?_, ?_⟩, fun l rest => execute_part hf hurl hup⟩
  · by_contra hno
    rw [hasError_of_not_framed hf hurl hno] at hok
    cases hok
  · rintro ⟨l, hframed⟩
    obtain ⟨q, s, i, f, hsums, hreads⟩ := reads_framed hf hurl hframed hup
    have hne := bytes_ne_nil h []
    rw [List.append_nil] at hne
    rw [execute_of_reads hne hreads rfl rfl]
    rfl

/-- A head with these lines.  It posts to `/f`. -/
def headOf (fields : List Field) : RequestHead :=
  ⟨.post, text "/f", [], [], 1, 1, (text "Host", text "h") :: fields⟩

/-- Its URL has a path alone. -/
theorem form_url_fits : UrlFits (text "/f") [] [] :=
  ⟨by decide +kernel, by decide +kernel, by decide +kernel, by decide +kernel, by decide +kernel⟩

/-- A short head with lines that are lines fits. -/
theorem headOf_fits {fields : List Field} (hfields : IsFields fields) (hlength : (headOf fields).bytes.length ≤ 100) :
    (headOf fields).Fits where
  method := show Method.post ≠ .connect by decide
  url := form_url_fits
  major := show 1 < 10 by decide
  minor := show 1 < 10 by decide
  fields := List.forall_mem_cons.2 ⟨⟨by decide +kernel, isValue_iff.2 (by decide +kernel)⟩, hfields⟩
  length := hlength.trans (by decide)

/-- A head that tells two lengths.  A parser that takes the first and one that takes the last
would disagree. -/
def twoLengths : List Field := [(text "Content-Length", text "3"), (text "content-length", text "3")]

/-- Such a head is refused. -/
theorem head_decides_two_lengths :
    ((HttpRequestParser.new.execute (headOf twoLengths).bytes).1.hasError = false ↔
      ∃ l, FramedBy (headOf twoLengths).fields l) ∧
    ∀ l rest, FramedBy (headOf twoLengths).fields l → ¬Chunked (headOf twoLengths).fields →
      rest.length ≤ l.getD 0 → ∃ x : HttpRequestParser,
        HttpRequestParser.new.execute ((headOf twoLengths).bytes ++ rest) =
          (x, ((headOf twoLengths).bytes ++ rest).length) ∧
        x.hasError = false ∧ x.data = { requestOf (headOf twoLengths) with body := rest } ∧
        (x.finished = true ↔ rest.length = l.getD 0) :=
  head_decides (headOf_fits (isFields_iff.2 (by decide +kernel)) (by decide +kernel)) (by decide +kernel)
    (show NoUpgrade (headOf twoLengths).fields by decide +kernel)

/-! ### Chunks -/

/-- Chunks are put together.  The induction is over the chunks, for any body before them. -/
theorem hear_chunks (cs : List Chunk) (s : Sink HttpRequest) :
    cs.foldlM (hearChunk requestCallbacks.settings) s =
      some { s with data := s.data.appendBody (cs.flatMap Chunk.data) } := by
  induction cs generalizing s with
  | nil =>
      rw [List.flatMap_nil, HttpRequest.appendBody, List.append_nil]
      rfl
  | cons c cs ih =>
      rw [List.foldlM_cons]
      refine (ih { s with data := s.data.appendBody c.data }).trans ?_
      rw [HttpRequest.appendBody, HttpRequest.appendBody, HttpRequest.appendBody, List.flatMap_cons,
        List.append_assoc]

/-- **A request in chunks.**  Its body is what was sent in the chunks, however it was cut into
them, and the lines behind the last chunk are headers like those before the body.  The lines
behind the last chunk may tell one length at most, since `http_parser_execute` reads them like
those of the head. -/
theorem chunked_read (hf : h.Fits) (hurl : h.url.length < 65536) (hup : NoUpgrade h.fields)
    (hframed : FramedBy h.fields l) (hchunked : Chunked h.fields) (hb : b.Fits) :
    ∃ x : HttpRequestParser,
      HttpRequestParser.new.execute (h.bytes ++ b.bytes) = (x, (h.bytes ++ b.bytes).length) ∧
      x.hasError = false ∧ x.finished = true ∧
      x.data = { requestOf h with headers := setAll .empty (h.fields ++ b.trailers), body := b.content } := by
  obtain ⟨q, s, i, f, hsums, hreads⟩ := reads_framed hf hurl hframed hup
  have hflag : q.flags.chunked = true := (not_chunked_of_sums hsums).2 hchunked
  have hbody := RequestHead.bodyState_of_sums hsums
  rw [if_pos hflag] at hbody
  have hgiven : q.flags.contentLength = false := by
    rw [hsums.given, hframed.one_way hchunked]
    rfl
  rw [hbody] at hreads
  obtain ⟨f', hfields⟩ := hear_fields b.trailers
    { data := (requestOf h).appendBody b.content, finished := false, field := f }
  have hheard : b.chunks.foldlM (hearChunk requestCallbacks.settings)
      { data := requestOf h, finished := false, field := f } =
        some { data := (requestOf h).appendBody b.content, finished := false, field := f } :=
    hear_chunks b.chunks _
  have htrailers : b.trailers.foldlM (hear requestCallbacks.settings)
      (requestCallbacks.settings.onNotify .chunkHeader
        { data := (requestOf h).appendBody b.content, finished := false, field := f }) = _ := hfields
  obtain ⟨q', hq', hrest⟩ := ChunkedBody.reads_body (p := { q.afterHead with headerState := s, index := i }) hb
    (by rw [afterHead, hbody]; rfl) rfl rfl hgiven hheard htrailers
  refine ⟨_, execute_of_reads (bytes_ne_nil h _) ((Reader.reads_of_append hreads).trans hrest) rfl hq', rfl, rfl, ?_⟩
  have hset : setAll .empty (h.fields ++ b.trailers) = setAll (requestOf h).headers b.trailers :=
    List.foldl_append
  rw [hset]
  rfl

/-- A head that announces chunks.  It tells no length. -/
def announced : List Field := [(text "Transfer-Encoding", text "Chunked ")]

/-- Two chunks, and a line behind the last one. -/
def greeting : ChunkedBody where
  chunks := [⟨text "5", [], text "hello"⟩, ⟨text "0A", text ";a=b", text ", chunks! "⟩]
  size := text "0"
  ext := []
  trailers := [(text "Etag", text "1")]

/-- The two chunks are one body, and the line behind them is a header. -/
theorem greeting_read : ∃ x : HttpRequestParser,
    HttpRequestParser.new.execute ((headOf announced).bytes ++ greeting.bytes) =
      (x, ((headOf announced).bytes ++ greeting.bytes).length) ∧
    x.hasError = false ∧ x.finished = true ∧
    x.data = { requestOf (headOf announced) with
      headers := setAll .empty ((headOf announced).fields ++ greeting.trailers), body := greeting.content } := by
  have hchunked : Chunked (headOf announced).fields :=
    ⟨(text "Transfer-Encoding", text "Chunked "), by decide +kernel, by decide +kernel, text "Chunked", 1,
      by decide +kernel, by decide +kernel⟩
  refine chunked_read (headOf_fits (isFields_iff.2 (by decide +kernel)) (by decide +kernel))
    (by decide +kernel) (show NoUpgrade (headOf announced).fields by decide +kernel) (l := none)
    ⟨show lengths (headOf announced).fields = [] by decide +kernel, fun _ => rfl⟩ hchunked ?_
  refine ⟨?_, ?_, isFields_iff.2 (by decide +kernel), by decide +kernel, none,
    show lengths greeting.trailers = [] by decide +kernel⟩
  · intro c hc
    have hall : ∀ c ∈ greeting.chunks, c.size ≠ [] ∧ (∀ ch ∈ c.size, isHex ch = true) ∧
        ((∀ ch ∈ c.ext.head?, ch = 59 ∨ ch = SP) ∧ ∀ ch ∈ c.ext, ch ≠ CR) ∧
        hexFrom 0 c.size = c.data.length ∧ c.data.length < sizeLimit ∧
        (sizeLine c.size c.ext).length ≤ maxHeaderSize ∧ c.data ≠ [] := by decide +kernel
    obtain ⟨h₁, h₂, h₃, h₄, h₅, h₆, h₇⟩ := hall c hc
    exact ⟨⟨h₁, h₂, h₃, h₄, h₅, h₆⟩, h₇⟩
  · exact ⟨by decide +kernel, by decide +kernel, ⟨by decide +kernel, by decide +kernel⟩, by decide +kernel,
      by decide +kernel, by decide +kernel⟩

end HttpRequestParser

end Hiper

import Hiper.Http.Cookie
import Hiper.Http.Parser
import Hiper.HttpParser.RequestHead

/-!
# What an `HttpRequestParser` makes of a head

The callbacks on the head of a request: its URL becomes the path, the query and the
fragment, its lines become headers, and the method and the version come with the end of
the head (`reads_framed`).

`on_request_url_cb`, `on_request_header_field_cb`, `on_request_header_value_cb` and
`on_request_headers_complete_cb` (`src/hiper/http/http_parser.cc:105-221`) are called by
`Reader.reads`, the parser with its callbacks on bytes that come at once; `requestOf` is
what they make of a head, written down without the parser.
-/

namespace Hiper

open Http HttpParser StringUtil

namespace MessageParser

variable {μ : Type} {c : Callbacks μ} {bs : Bytes}

/-- The header lines go to the message one after another.  A field, a value, and the next field. -/
theorem hear_fields (c : Callbacks μ) (fs : List Field) (s : Sink μ) :
    ∃ f, fs.foldlM (hear c.settings) s = some { s with
      data := fs.foldl (fun m f => c.setHeader m f.1 f.2) s.data, field := f } := by
  induction fs generalizing s with
  | nil => exact ⟨s.field, rfl⟩
  | cons f fs ih => exact ih { s with data := c.setHeader s.data f.1 f.2, field := f.1 }

/-- A first call that reads all its bytes.  What the callbacks leave is what `execute` leaves,
when the bytes are read without an error. -/
theorem executeWith_of_reads {errorOf : Result (Sink μ) → Option Errno} {t : ParserType} {data : μ}
    {r' : Reader (Sink μ)} {s : Sink μ} (hbs : bs ≠ [])
    (hreads : Reader.reads c.settings bs ⟨HttpParser.init t, none, (new t data).toSink⟩ = some r')
    (hflush : r'.flush c.settings = some s) (herror : errorOf ⟨r'.parser, none, s, bs.length⟩ = none) :
    (new t data).executeWith c errorOf bs =
      ({ toSink := s, parser := r'.parser, httpErrno := none, error := none }, bs.length) := by
  have hreopen : (HttpParser.init t).reopen = none := by cases t <;> rfl
  have hexec := HttpParser.execute_reads (p := HttpParser.init t) hbs
    (by rw [hreopen]; exact hreads) hflush
  have hres : (new t data).parser.execute c.settings (new t data).httpErrno bs (new t data).toSink =
      ⟨r'.parser, none, s, bs.length⟩ := hexec
  rw [executeWith]
  dsimp only
  rw [hres, herror]
  rfl

end MessageParser

namespace HttpRequestParser

/-- Lines that are set one after another change the headers alone. -/
theorem foldl_setHeader (fs : List Field) (r : HttpRequest) :
    fs.foldl (fun m f => requestCallbacks.setHeader m f.1 f.2) r =
      { r with headers := setAll r.headers fs } := by
  induction fs generalizing r with
  | nil => rfl
  | cons f fs ih => exact ih (r.setHeader f.1 f.2)

/-- The header lines set the headers.  A request keeps a value under its name. -/
theorem hear_fields (fs : List Field) (s : Sink HttpRequest) :
    ∃ f, fs.foldlM (hear requestCallbacks.settings) s =
      some { s with data := { s.data with headers := setAll s.data.headers fs }, field := f } := by
  obtain ⟨f, hf⟩ := MessageParser.hear_fields requestCallbacks fs s
  exact ⟨f, foldl_setHeader fs s.data ▸ hf⟩

/-- The URL sets the path, the query and the fragment.  A length of `2 ^ 16` or more would not
fit into the fields of `http_parser_url`. -/
theorem onRequestUrl_urlText {path query fragment : Bytes} (h : UrlFits path query fragment)
    (hlength : (urlText path query fragment).length < 65536) :
    onRequestUrl (urlText path query fragment) (HttpRequest.new 0x11 true) =
      some { HttpRequest.new 0x11 true with path := path, query := query, fragment := fragment } := by
  obtain ⟨u, hu, hback⟩ := parseUrl_urlText h hlength
  rw [onRequestUrl, hu, Option.map_some, hback.path]
  exact congrArg₂ (fun q f => some { HttpRequest.new 0x11 true with path := path, query := q, fragment := f })
    hback.query hback.fragment

/-- The request of a head.  The body comes later. -/
def requestOf (h : RequestHead) : HttpRequest :=
  { HttpRequest.new (headVersion ⟨h.method, h.major, h.minor, 0⟩) true with
    method := .of h.method, path := h.path, query := h.query, fragment := h.fragment,
    headers := setAll .empty h.fields }

variable {h : RequestHead} {l : Option ℕ} {bs : Bytes}

/-- What there is behind the URL.  Nothing of the lines is there yet. -/
def afterUrl (h : RequestHead) : Sink HttpRequest :=
  { HttpRequestParser.new.toSink with
    data := { HttpRequest.new 0x11 true with path := h.path, query := h.query, fragment := h.fragment } }

/-- The callbacks before the end of the head never fail.  They are the URL and the lines. -/
theorem heard (hf : h.Fits) (hurl : h.url.length < 65536) :
    requestCallbacks.settings.onData .url h.url HttpRequestParser.new.toSink = some (afterUrl h) ∧
      ∃ f, h.fields.foldlM (hear requestCallbacks.settings) (afterUrl h) = some { afterUrl h with
        data := { (afterUrl h).data with headers := setAll .empty h.fields }
        field := f } := by
  refine ⟨?_, hear_fields h.fields (afterUrl h)⟩
  change (onRequestUrl (urlText h.path h.query h.fragment) (HttpRequest.new 0x11 true)).map _ = _
  rw [onRequestUrl_urlText hf.url hurl]
  rfl

/-- **A head that is framed is read**, and its request is there.  The parser stands behind the
empty line, where the body begins, if there is one. -/
theorem reads_framed (hf : h.Fits) (hurl : h.url.length < 65536) (hframed : FramedBy h.fields l)
    (hup : NoUpgrade h.fields) :
    ∃ q s i f, Sums h.afterLine q h.fields l ∧
      Reader.reads requestCallbacks.settings h.bytes
        ⟨HttpParser.init .request, none, HttpRequestParser.new.toSink⟩ =
          some ⟨{ q.afterHead with headerState := s, index := i }, none,
            { data := requestOf h, finished := !q.bodyState.isSome, field := f }⟩ := by
  obtain ⟨hd₁, f, hd₂⟩ := heard hf hurl
  obtain ⟨q, s, i, hsums, hreads⟩ := RequestHead.reads_head hf hframed hup hd₁ hd₂
  have hhead : q.head = ⟨h.method, h.major, h.minor, 0⟩ := by
    rw [HttpParser.head, hsums.same]
    rfl
  refine ⟨q, s, i, f, hsums, hreads.trans ?_⟩
  rw [hhead]
  cases q.bodyState <;> rfl

/-- A call that reads all its bytes.  Its result is put together from the reader's. -/
theorem execute_of_reads {r' : Reader (Sink HttpRequest)} {s : Sink HttpRequest} (hbs : bs ≠ [])
    (hreads : Reader.reads requestCallbacks.settings bs
      ⟨HttpParser.init .request, none, HttpRequestParser.new.toSink⟩ = some r')
    (hflush : r'.flush requestCallbacks.settings = some s) (hup : r'.parser.upgrade = false) :
    HttpRequestParser.new.execute bs =
      ({ toSink := s, parser := r'.parser, httpErrno := none, error := none }, bs.length) := by
  refine MessageParser.executeWith_of_reads hbs hreads hflush ?_
  rw [HttpRequestParser.errorOf, if_neg (by rw [hup]; decide)]

end HttpRequestParser

end Hiper

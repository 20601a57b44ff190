import Hiper.Http.Message
import Hiper.HttpParser.Execute
import Hiper.HttpParser.Url

/-!
# `HttpRequestParser` and `HttpResponseParser`

The callbacks of `http/http_parser.cc` and the two `execute` functions.  The callbacks for
texts get them as they come, whole or in pieces.

The source is `src/hiper/http/http_parser.cc:105-254` for requests and `:258-384` for
responses.  What a callback writes to is the parser object: the message, the header name
that was seen last, and whether the message is complete.  The two parsers differ in the
callbacks for the URL, the status and the end of the head, and in how an upgrade counts; all
else is written once (`Callbacks.settings`, `executeWith`).  `http_parser_execute` itself is
in `Hiper.HttpParser.Execute`.
-/

namespace Hiper

open HttpParser

namespace Http

/-- What the callbacks write to.  A header's value is stored under the name that was seen last. -/
structure Sink (μ : Type) where
  data : μ
  finished : Bool
  /-- The name of the header whose value comes next. -/
  field : Bytes

/-- The callbacks in which the two parsers differ, and the setters of their messages.  The
others do the same for both. -/
structure Callbacks (μ : Type) where
  onUrl : Bytes → μ → Option μ
  onStatus : ℕ → μ → μ
  onHeadersComplete : Head → μ → μ
  setHeader : μ → Bytes → Bytes → μ
  appendBody : μ → Bytes → μ

/-- `http_parser_settings`.  The table of function pointers that `http_parser_execute` is given. -/
def Callbacks.settings {μ : Type} (c : Callbacks μ) : Settings (Sink μ) where
  onData
    | .url, buf, s => (c.onUrl buf s.data).map fun data => { s with data := data }
    | .status code, _, s => some { s with data := c.onStatus code s.data }
    | .headerField, buf, s => some { s with field := buf }
    | .headerValue, buf, s => some { s with data := c.setHeader s.data s.field buf }
    | .body, buf, s => some { s with data := c.appendBody s.data buf }
  onNotify
    | .headersComplete h, s => { s with data := c.onHeadersComplete h s.data }
    | .messageComplete, s => { s with finished := true }
    | .messageBegin, s | .chunkHeader, s | .chunkComplete, s => s

/-- `((p->http_major) << 0x4) | (p->http_minor)`.  Bits above the eighth are cut off where it is
stored. -/
def headVersion (h : Head) : UInt8 :=
  (h.httpMajor <<< 4 ||| h.httpMinor).toUInt8

/-- `on_request_url_cb`.  Each piece that it gets is parsed as a URL of its own, and one that is
none is an error (`http_parser.cc:151`). -/
def onRequestUrl (buf : Bytes) (r : HttpRequest) : Option HttpRequest :=
  (parseUrl buf).map fun u =>
    { r with
      path := (u.text buf .path).getD r.path
      query := (u.text buf .query).getD r.query
      fragment := (u.text buf .fragment).getD r.fragment }

/-- `on_request_headers_complete_cb`.  It stores version and method. -/
def onRequestHeadersComplete (h : Head) (r : HttpRequest) : HttpRequest :=
  { r with method := .of h.method, version := headVersion h }

/-- `s_request_settings`.  The status callback does nothing. -/
def requestCallbacks : Callbacks HttpRequest where
  onUrl := onRequestUrl
  onStatus _ r := r
  onHeadersComplete := onRequestHeadersComplete
  setHeader := HttpRequest.setHeader
  appendBody := HttpRequest.appendBody

/-- `on_response_status_cb`.  It stores the code and not the text (`http_parser.cc:334`). -/
def onResponseStatus (code : ℕ) (r : HttpResponse) : HttpResponse := { r with status := code }

/-- `on_response_headers_complete_cb`.  It stores version and status (`http_parser.cc:267`). -/
def onResponseHeadersComplete (h : Head) (r : HttpResponse) : HttpResponse :=
  { r with version := headVersion h, status := h.statusCode }

/-- `s_response_settings`.  The URL callback does nothing. -/
def responseCallbacks : Callbacks HttpResponse where
  onUrl _ r := some r
  onStatus := onResponseStatus
  onHeadersComplete := onResponseHeadersComplete
  setHeader := HttpResponse.setHeader
  appendBody := HttpResponse.appendBody

end Http

open Http

/-- What the two parsers have in common; no `error_` is 0.  Beside the sink they have the state
of `http_parser`. -/
structure MessageParser (μ : Type) extends Sink μ where
  parser : HttpParser
  httpErrno : Option Errno
  error : Option Errno

/-- `HttpRequestParser`. -/
abbrev HttpRequestParser := MessageParser HttpRequest

/-- `HttpResponseParser`. -/
abbrev HttpResponseParser := MessageParser HttpResponse

namespace MessageParser

variable {μ : Type}

/-- The constructors.  `http_parser_init` with the type (`http_parser.cc:34`, `42`). -/
def new (t : ParserType) (data : μ) : MessageParser μ :=
  { data := data, finished := false, field := [], parser := HttpParser.init t, httpErrno := none,
    error := none }

/-- The two `execute` functions: the error that a call leaves is the one that `errorOf` finds,
or the one there was.  The number of bytes is that of `http_parser_execute`. -/
def executeWith (c : Callbacks μ) (errorOf : Result (Sink μ) → Option Errno) (r : MessageParser μ)
    (data : Bytes) : MessageParser μ × ℕ :=
  let res := r.parser.execute c.settings r.httpErrno data r.toSink
  ({ toSink := res.data, parser := res.parser, httpErrno := res.httpErrno,
     error := (errorOf res).or r.error }, res.nparsed)

/-- `hasError()`. -/
def hasError (r : MessageParser μ) : Bool := r.error.isSome

end MessageParser

namespace HttpRequestParser

/-- `HttpRequestParser::HttpRequestParser`. -/
def new : HttpRequestParser := MessageParser.new .request (HttpRequest.new 0x11 true)

/-- The error of a call: an upgrade is one, whatever else went wrong.  The order of the tests is
that of `http_parser.cc:234`. -/
def errorOf (res : Result (Sink HttpRequest)) : Option Errno :=
  if res.parser.upgrade then some .unknown else res.httpErrno

/-- Whether a call on a request leaves an error. -/
theorem errorOf_isSome (res : Result (Sink HttpRequest)) :
    (errorOf res).isSome = (res.httpErrno.isSome || true && res.parser.upgrade) := by
  rw [errorOf]
  cases res.parser.upgrade <;> simp

/-- `HttpRequestParser::execute`: the parser, and how many bytes were read.  It is
`http_parser.cc:234`. -/
def execute (r : HttpRequestParser) (data : Bytes) : HttpRequestParser × ℕ :=
  r.executeWith requestCallbacks errorOf data

end HttpRequestParser

namespace HttpResponseParser

/-- `HttpResponseParser::HttpResponseParser`. -/
def new : HttpResponseParser := MessageParser.new .response (HttpResponse.new 0x11 true)

/-- The error of a call.  An upgrade is none. -/
def errorOf (res : Result (Sink HttpResponse)) : Option Errno := res.httpErrno

/-- `HttpResponseParser::execute`: the parser, and how many bytes were read.  It is
`http_parser.cc:364`. -/
def execute (r : HttpResponseParser) (data : Bytes) : HttpResponseParser × ℕ :=
  r.executeWith responseCallbacks errorOf data

end HttpResponseParser

end Hiper

import Hiper.HttpParser.Basic
import Hiper.Lib.Scanner

/-!
# One byte of `http_parser_execute`

The cases of the `switch` in `http_parser_execute`, one definition each; where the
source says `REEXECUTE`, the definition of the next case is called.  A case
changes the parser and says which marks are set and which callbacks run, in
order.

The source reads a run of header text or of a body in one go; here every byte is
a step of its own.  The size of the head is checked at each byte, so that only
the place where `HPE_HEADER_OVERFLOW` is raised may differ.

The numbers behind the states are the lines of `src/hiper/http/http-parser/http_parser.cc`
where the cases begin.  Texts have marks (`MARK`), which a case sets at its byte, and ends
at its byte or behind it; which place of the data that is the scanner of `Lib.Segmentation`
knows.
-/

namespace Hiper

namespace HttpParser

open Lib.Scanner

/-- The texts that have marks; `on_status` is called with the status code.  The code is the one
that the parser has at that time. -/
inductive DataCb
  | url
  | status (code : ℕ)
  | headerField
  | headerValue
  | body
  deriving DecidableEq, Repr

/-- What `on_headers_complete` reads from the parser.  The two version numbers, the code and the
method. -/
structure Head where
  method : Method
  httpMajor : ℕ
  httpMinor : ℕ
  statusCode : ℕ
  deriving DecidableEq, Repr

/-- The other callbacks.  They get no text. -/
inductive NotifyCb
  | messageBegin
  | headersComplete (head : Head)
  | messageComplete
  | chunkHeader
  | chunkComplete
  deriving DecidableEq, Repr

/-- An event of the parser: a mark, the end of a text, or another callback. -/
abbrev Ev := Event DataCb NotifyCb

/-- How the handling of a byte ends.  Only in the first case the loop goes on. -/
inductive Outcome
  | next (p : HttpParser)
  /-- `RETURN((p - data) + 1)`: the rest of the input is another protocol. -/
  | exit (p : HttpParser)
  /-- `SET_ERRNO(e); goto error`. -/
  | error (e : Errno) (p : HttpParser)

/-- The events of a byte and the end.  The events come before the end. -/
structure Step where
  evs : List Ev
  out : Outcome

/-- The parser goes on, without an event. -/
def next (p : HttpParser) : Step := ⟨[], .next p⟩

/-- The byte is an error. -/
def fail (p : HttpParser) (e : Errno) : Step := ⟨[], .error e p⟩

/-- The events come first.  The end is the same. -/
def Step.after (st : Step) (evs : List Ev) : Step := ⟨evs ++ st.evs, st.out⟩

/-- `UPDATE_STATE`.  All the rest stays. -/
def goto (p : HttpParser) (s : State) : HttpParser := { p with state := s }

/-- `STRICT_CHECK(ch != c)` and `UPDATE_STATE(s)`.  Another byte is `HPE_STRICT`. -/
def expect (p : HttpParser) (ch : Byte) (c : Byte) (s : State) : Step :=
  if ch != c then fail p .strict else next (p.goto s)

/-! ### The end of a message -/

/-- `UPDATE_STATE(NEW_MESSAGE()); CALLBACK_NOTIFY(message_complete)`.  The state is changed
first, as in the source. -/
def complete (p : HttpParser) : Step := ⟨[.note .messageComplete], .next (p.goto p.newMessage)⟩

/-- The same before a `RETURN`.  The rest of the input is another protocol. -/
def completeExit (p : HttpParser) : Step := ⟨[.note .messageComplete], .exit (p.goto p.newMessage)⟩

/-- `s_message_done`.  (`:1916`) An upgrade makes the parser return. -/
def onMessageDone (p : HttpParser) : Step := if p.upgrade then p.completeExit else p.complete

/-- `s_headers_done`.  (`:1826`) Which kind of body there is, the flags and the length tell. -/
def onHeadersDone (p : HttpParser) (ch : Byte) : Step :=
  if ch != LF then fail p .strict
  else
    let p := { p with nread := 0 }
    let hasBody := p.flags.chunked || (0 < p.contentLength && p.contentLength != ullongMax)
    if p.upgrade && (p.method == .connect || !hasBody) then p.completeExit
    else if p.flags.chunked then next (p.goto .chunkSizeStart)
    else if p.contentLength = 0 then p.complete
    else if p.contentLength ≠ ullongMax then next (p.goto .bodyIdentity)
    else if !p.messageNeedsEof then p.complete
    else next (p.goto .bodyIdentityEof)

/-- What `on_headers_complete` is given by the parser. -/
def head (p : HttpParser) : Head := ⟨p.method, p.httpMajor, p.httpMinor, p.statusCode⟩

/-- `parser->upgrade`, when the head is complete.  A `CONNECT` is one, too. -/
def upgrades (p : HttpParser) : Bool :=
  if p.flags.upgrade && p.flags.connectionUpgrade then
    p.type == .request || p.statusCode == 101
  else p.method == .connect

/-- `s_headers_almost_done`.  (`:1757`) Behind the last chunk the message is over here. -/
def onHeadersAlmostDone (p : HttpParser) (ch : Byte) : Step :=
  if ch != LF then fail p .strict
  else if p.flags.trailing then
    ((p.goto .messageDone).onMessageDone).after [.note .chunkComplete]
  else if p.flags.chunked && p.flags.contentLength then fail p .unexpectedContentLength
  else
    let p := { p.goto .headersDone with upgrade := p.upgrades }
    (p.onHeadersDone ch).after [.note (.headersComplete p.head)]

/-! ### Header fields -/

/-- The header state a field starts in.  It depends on the first letter. -/
def startOfField (c : Byte) : HeaderState :=
  if is c 'c' then .c
  else if is c 'p' then .matchingProxyConnection
  else if is c 't' then .matchingTransferEncoding
  else if is c 'u' then .matchingUpgrade
  else .general

/-- `s_header_field_start`.  (`:1198`) A line end here is the end of the head. -/
def onHeaderFieldStart (p : HttpParser) (ch : Byte) : Step :=
  if ch == CR then next (p.goto .headersAlmostDone)
  else if ch == LF then (p.goto .headersAlmostDone).onHeadersAlmostDone ch
  else if token ch == 0 then fail p .invalidHeaderToken
  else
    (next { p.goto .headerField with index := 0, headerState := startOfField (token ch) }).after
      [.mark .headerField]

/-- A word being matched: on to the next character, and at the last to `matched`.  Any other
character leads to `other`. -/
def matchWord (p : HttpParser) (word : List Char) (c : Byte) (matched other : HeaderState) :
    HttpParser :=
  let index := p.index + 1
  { p with
    index := index
    headerState :=
      if word.length < index || c != charAt word index then other
      else if index == word.length - 1 then matched
      else p.headerState }

/-- `CONNECTION`. -/
def connectionChars : List Char := ['c', 'o', 'n', 'n', 'e', 'c', 't', 'i', 'o', 'n']

/-- `PROXY_CONNECTION`. -/
def proxyConnectionChars : List Char := ['p', 'r', 'o', 'x', 'y', '-'] ++ connectionChars

/-- `CONTENT_LENGTH`. -/
def contentLengthChars : List Char :=
  ['c', 'o', 'n', 't', 'e', 'n', 't', '-', 'l', 'e', 'n', 'g', 't', 'h']

/-- `TRANSFER_ENCODING`. -/
def transferEncodingChars : List Char :=
  ['t', 'r', 'a', 'n', 's', 'f', 'e', 'r', '-', 'e', 'n', 'c', 'o', 'd', 'i', 'n', 'g']

/-- `UPGRADE`. -/
def upgradeChars : List Char := ['u', 'p', 'g', 'r', 'a', 'd', 'e']

/-- `CHUNKED`. -/
def chunkedChars : List Char := ['c', 'h', 'u', 'n', 'k', 'e', 'd']

/-- `KEEP_ALIVE`. -/
def keepAliveChars : List Char := ['k', 'e', 'e', 'p', '-', 'a', 'l', 'i', 'v', 'e']

/-- `CLOSE`. -/
def closeChars : List Char := ['c', 'l', 'o', 's', 'e']

/-- The `switch` on the header state in `s_header_field`.  A blank is looked at before it is put
in lower case. -/
def fieldChar (p : HttpParser) (ch c : Byte) : HttpParser :=
  match p.headerState with
  | .c =>
    { p with index := p.index + 1, headerState := if is c 'o' then .co else .general }
  | .co =>
    { p with index := p.index + 1, headerState := if is c 'n' then .con else .general }
  | .con =>
    { p with
      index := p.index + 1
      headerState :=
        if is c 'n' then .matchingConnection
        else if is c 't' then .matchingContentLength
        else .general }
  | .matchingConnection => p.matchWord connectionChars c .connection .general
  | .matchingProxyConnection => p.matchWord proxyConnectionChars c .connection .general
  | .matchingContentLength => p.matchWord contentLengthChars c .contentLength .general
  | .matchingTransferEncoding => p.matchWord transferEncodingChars c .transferEncoding .general
  | .matchingUpgrade => p.matchWord upgradeChars c .upgrade .general
  | .connection | .contentLength | .transferEncoding | .upgrade =>
    if ch != SP then { p with headerState := .general } else p
  | _ => p

/-- `s_header_field`.  (`:1248`) The name ends with its colon. -/
def onHeaderField (p : HttpParser) (ch : Byte) : Step :=
  if token ch == 0 then
    if is ch ':' then (next (p.goto .headerValueDiscardWs)).after [.data .headerField]
    else fail p .invalidHeaderToken
  else next (p.fieldChar ch (token ch))

/-! ### Header values -/

/-- The flags that a finished value sets.  They are those of the last word in it. -/
def valueFlags (p : HttpParser) : Flags :=
  match p.headerState with
  | .connectionKeepAlive => { p.flags with connectionKeepAlive := true }
  | .connectionClose => { p.flags with connectionClose := true }
  | .transferEncodingChunked => { p.flags with chunked := true }
  | .connectionUpgrade => { p.flags with connectionUpgrade := true }
  | _ => p.flags

/-- The `switch` on the header state in `s_header_value_start`, or an error.  Here the second
length is refused. -/
def valueStart (p : HttpParser) (ch : Byte) : Except Errno HttpParser :=
  let c := lower ch
  match p.headerState with
  | .upgrade => .ok { p with flags := { p.flags with upgrade := true }, headerState := .general }
  | .transferEncoding =>
    .ok { p with headerState := if is c 'c' then .matchingTransferEncodingChunked else .general }
  | .contentLength =>
    if !isNum ch then .error .invalidContentLength
    else if p.flags.contentLength then .error .unexpectedContentLength
    else
      .ok { p with
        flags := { p.flags with contentLength := true }
        contentLength := ch.toNat - 48
        headerState := .contentLengthNum }
  | .connection =>
    .ok { p with
      headerState :=
        if is c 'k' then .matchingConnectionKeepAlive
        else if is c 'c' then .matchingConnectionClose
        else if is c 'u' then .matchingConnectionUpgrade
        else .matchingConnectionToken }
  | .contentLengthWs | .matchingConnectionTokenStart => .ok p
  | _ => .ok { p with headerState := .general }

/-- `s_header_value_start`.  (`:1399`) The mark of the value is set. -/
def onHeaderValueStart (p : HttpParser) (ch : Byte) : Step :=
  match ({ p.goto .headerValue with index := 0 } : HttpParser).valueStart ch with
  | .ok p => (next p).after [.mark .headerValue]
  | .error e => fail p e

/-- `s_header_value_discard_ws`.  (`:1384`) Blanks before a value. -/
def onHeaderValueDiscardWs (p : HttpParser) (ch : Byte) : Step :=
  if ch == SP || ch == TAB then next p
  else if ch == CR then next (p.goto .headerValueDiscardWsAlmostDone)
  else if ch == LF then next (p.goto .headerValueDiscardLws)
  else p.onHeaderValueStart ch

/-- `s_header_value_lws`.  (`:1681`) A blank continues the value on this line. -/
def onHeaderValueLws (p : HttpParser) (ch : Byte) : Step :=
  if ch == SP || ch == TAB then
    let h := if p.headerState == .contentLengthNum then .contentLengthWs else p.headerState
    ({ p.goto .headerValueStart with headerState := h } : HttpParser).onHeaderValueStart ch
  else ({ p.goto .headerFieldStart with flags := p.valueFlags } : HttpParser).onHeaderFieldStart ch

/-- `s_header_value_discard_lws`: the value was empty, unless the line goes on.  (`:1721`) -/
def onHeaderValueDiscardLws (p : HttpParser) (ch : Byte) : Step :=
  if ch == SP || ch == TAB then next (p.goto .headerValueDiscardWs)
  else if p.headerState == .contentLength then fail p .invalidContentLength
  else
    (({ p.goto .headerFieldStart with flags := p.valueFlags } : HttpParser).onHeaderFieldStart
      ch).after [.mark .headerValue, .data .headerValue]

/-- A digit of the length, in the base; the limit is on what was read before.  Above the limit
the length is invalid. -/
def pushDigit (p : HttpParser) (base digit : ℕ) (limit : ℕ) : Except Errno HttpParser :=
  if limit < p.contentLength then .error .invalidContentLength
  else .ok { p with contentLength := p.contentLength * base + digit }

/-- The `switch` on the header state in `s_header_value`, or an error.  Here the length grows
digit by digit. -/
def valueChar (p : HttpParser) (ch : Byte) : Except Errno HttpParser :=
  let c := lower ch
  match p.headerState with
  | .contentLength | .contentLengthNum =>
    if ch == SP then
      if p.headerState == .contentLength then .ok p
      else .ok { p with headerState := .contentLengthWs }
    else if !isNum ch then .error .invalidContentLength
    else
      ({ p with headerState := .contentLengthNum } : HttpParser).pushDigit 10 (ch.toNat - 48)
        ((ullongMax - 10) / 10)
  | .contentLengthWs => if ch == SP then .ok p else .error .invalidContentLength
  | .matchingTransferEncodingChunked =>
    .ok (p.matchWord chunkedChars c .transferEncodingChunked .general)
  | .matchingConnectionTokenStart =>
    .ok { p with
      headerState :=
        if is c 'k' then .matchingConnectionKeepAlive
        else if is c 'c' then .matchingConnectionClose
        else if is c 'u' then .matchingConnectionUpgrade
        else if token c != 0 then .matchingConnectionToken
        else if c == SP || c == TAB then .matchingConnectionTokenStart
        else .general }
  | .matchingConnectionKeepAlive =>
    .ok (p.matchWord keepAliveChars c .connectionKeepAlive .matchingConnectionToken)
  | .matchingConnectionClose =>
    .ok (p.matchWord closeChars c .connectionClose .matchingConnectionToken)
  | .matchingConnectionUpgrade =>
    .ok (p.matchWord upgradeChars c .connectionUpgrade .matchingConnectionToken)
  | .matchingConnectionToken =>
    if is ch ',' then .ok { p with headerState := .matchingConnectionTokenStart, index := 0 }
    else .ok p
  | .transferEncodingChunked => if ch != SP then .ok { p with headerState := .general } else .ok p
  | .connectionKeepAlive | .connectionClose | .connectionUpgrade =>
    if is ch ',' then
      .ok { p with flags := p.valueFlags, headerState := .matchingConnectionTokenStart, index := 0 }
    else if ch != SP then .ok { p with headerState := .matchingConnectionToken }
    else .ok p
  | _ => .ok { p with headerState := .general }

/-- `s_header_almost_done`.  (`:1670`) -/
def onHeaderAlmostDone (p : HttpParser) (ch : Byte) : Step :=
  if ch != LF then fail p .lfExpected else next (p.goto .headerValueLws)

/-- `s_header_value`.  (`:1469`) The value ends with its line. -/
def onHeaderValue (p : HttpParser) (ch : Byte) : Step :=
  if ch == CR then (next (p.goto .headerAlmostDone)).after [.data .headerValue]
  else if ch == LF then
    ((p.goto .headerAlmostDone).onHeaderAlmostDone ch).after [.data .headerValue]
  else if !isHeaderChar ch then fail p .invalidHeaderToken
  else
    match p.valueChar ch with
    | .ok p => next p
    | .error e => fail p e

/-! ### The status line -/

/-- `s_start_res`.  (`:763`) A message begins. -/
def onStartRes (p : HttpParser) (ch : Byte) : Step :=
  if ch == CR || ch == LF then next p
  else
    let p := { p with flags := .none, contentLength := ullongMax }
    if is ch 'H' then (next (p.goto .resH)).after [.note .messageBegin] else fail p .invalidConstant

/-- `s_res_http_major`, `s_req_http_major`.  (`:801`, `:1138`) -/
def onHttpMajor (p : HttpParser) (ch : Byte) (s : State) : Step :=
  if !isNum ch then fail p .invalidVersion
  else next { p.goto s with httpMajor := ch.toNat - 48 }

/-- `s_res_http_minor`, `s_req_http_minor`.  (`:822`, `:1159`) -/
def onHttpMinor (p : HttpParser) (ch : Byte) (s : State) : Step :=
  if !isNum ch then fail p .invalidVersion
  else next { p.goto s with httpMinor := ch.toNat - 48 }

/-- `s_res_http_dot`, `s_req_http_dot`, `s_res_http_end`.  (`:811`, `:1148`, `:832`) -/
def onVersionChar (p : HttpParser) (ch : Byte) (c : Char) (s : State) : Step :=
  if !is ch c then fail p .invalidVersion else next (p.goto s)

/-- `s_res_first_status_code`.  (`:843`) -/
def onResFirstStatusCode (p : HttpParser) (ch : Byte) : Step :=
  if !isNum ch then if ch == SP then next p else fail p .invalidStatus
  else next { p.goto .resStatusCode with statusCode := ch.toNat - 48 }

/-- `s_res_status`.  (`:900`) The reason ends with its line. -/
def onResStatus (p : HttpParser) (ch : Byte) : Step :=
  if ch == CR then (next (p.goto .resLineAlmostDone)).after [.data (.status p.statusCode)]
  else if ch == LF then (next (p.goto .headerFieldStart)).after [.data (.status p.statusCode)]
  else next p

/-- `s_res_status_start`.  (`:888`) The mark of the reason is set. -/
def onResStatusStart (p : HttpParser) (ch : Byte) : Step :=
  let p := { p.goto .resStatus with index := 0 }
  if ch == CR || ch == LF then (p.onResStatus ch).after [.mark (.status p.statusCode)]
  else (next p).after [.mark (.status p.statusCode)]

/-- `s_res_status_code`.  (`:858`) A code above 999 is refused. -/
def onResStatusCode (p : HttpParser) (ch : Byte) : Step :=
  if !isNum ch then
    if ch == SP then next (p.goto .resStatusStart)
    else if ch == CR || ch == LF then (p.goto .resStatusStart).onResStatusStart ch
    else fail p .invalidStatus
  else
    let code := p.statusCode * 10 + (ch.toNat - 48)
    if 999 < code then fail { p with statusCode := code } .invalidStatus
    else next { p with statusCode := code }

/-! ### The request line -/

/-- The `switch` in `s_start_req`.  Some letters begin more than one method. -/
def firstMethod (ch : Byte) : Option Method :=
  if is ch 'A' then some .acl
  else if is ch 'B' then some .bind
  else if is ch 'C' then some .connect
  else if is ch 'D' then some .delete
  else if is ch 'G' then some .get
  else if is ch 'H' then some .head
  else if is ch 'L' then some .lock
  else if is ch 'M' then some .mkcol
  else if is ch 'N' then some .notify
  else if is ch 'O' then some .options
  else if is ch 'P' then some .post
  else if is ch 'R' then some .report
  else if is ch 'S' then some .subscribe
  else if is ch 'T' then some .trace
  else if is ch 'U' then some .unlock
  else none

/-- `s_start_req`.  (`:920`) A message begins. -/
def onStartReq (p : HttpParser) (ch : Byte) : Step :=
  if ch == CR || ch == LF then next p
  else
    let p := { p with flags := .none, contentLength := ullongMax }
    if !isAlpha ch then fail p .invalidMethod
    else
      match firstMethod ch with
      | none => fail p .invalidMethod
      | some m =>
        (next { p.goto .reqMethod with method := m, index := 1 }).after [.note .messageBegin]

/-- The `switch` on method, index and character in `s_req_method`.  It is looked at where the
character is not the next one of the method. -/
def otherMethod (m : Method) (index : ℕ) (ch : Byte) : Option Method :=
  match m, index with
  | .post, 1 =>
    if is ch 'U' then some .put
    else if is ch 'A' then some .patch
    else if is ch 'R' then some .propfind
    else none
  | .put, 2 => if is ch 'R' then some .purge else none
  | .connect, 1 => if is ch 'H' then some .checkout else none
  | .connect, 2 => if is ch 'P' then some .copy else none
  | .mkcol, 1 =>
    if is ch 'O' then some .move
    else if is ch 'E' then some .merge
    else if is ch '-' then some .msearch
    else none
  | .mkcol, 2 => if is ch 'A' then some .mkactivity else none
  | .mkcol, 3 => if is ch 'A' then some .mkcalendar else none
  | .subscribe, 1 =>
    if is ch 'E' then some .search else if is ch 'O' then some .source else none
  | .report, 2 => if is ch 'B' then some .rebind else none
  | .propfind, 4 => if is ch 'P' then some .proppatch else none
  | .lock, 1 => if is ch 'I' then some .link else none
  | .unlock, 2 =>
    if is ch 'S' then some .unsubscribe else if is ch 'B' then some .unbind else none
  | .unlock, 3 => if is ch 'I' then some .unlink else none
  | _, _ => none

/-- `s_req_method`.  (`:963`) A blank ends the method. -/
def onReqMethod (p : HttpParser) (ch : Byte) : Step :=
  if ch == 0 then fail p .invalidMethod
  else
    let want := charAt p.method.name.toList p.index
    if ch == SP && want == 0 then next { p.goto .reqSpacesBeforeUrl with index := p.index + 1 }
    else if ch == want then next { p with index := p.index + 1 }
    else if (65 ≤ ch && ch ≤ 90) || is ch '-' then
      match otherMethod p.method p.index ch with
      | none => fail p .invalidMethod
      | some m => next { p with method := m, index := p.index + 1 }
    else fail p .invalidMethod

/-- `UPDATE_STATE(parse_url_char(CURRENT_STATE(), ch))`, with the check.  `dead` is
`HPE_INVALID_URL`. -/
def urlChar (p : HttpParser) (ch : Byte) : Step :=
  let s := parseUrlChar p.state ch
  if s = .dead then fail (p.goto s) .invalidUrl else next (p.goto s)

/-- `s_req_spaces_before_url`.  (`:1016`) The mark of the URL is set. -/
def onReqSpacesBeforeUrl (p : HttpParser) (ch : Byte) : Step :=
  if ch == SP then next p
  else
    ((if p.method = .connect then p.goto .reqServerStart else p).urlChar ch).after [.mark .url]

/-- `s_req_schema` and the states up to `s_req_server_start`.  (`:1034`) No URL may end here. -/
def onReqSchema (p : HttpParser) (ch : Byte) : Step :=
  if ch == SP || ch == CR || ch == LF then fail p .invalidUrl else p.urlChar ch

/-- `s_req_server` and the states up to `s_req_fragment`.  (`:1057`) A blank or a line end ends
the URL. -/
def onReqUrl (p : HttpParser) (ch : Byte) : Step :=
  if ch == SP then (next (p.goto .reqHttpStart)).after [.data .url]
  else if ch == CR || ch == LF then
    (next { p.goto (if ch == CR then .reqLineAlmostDone else .headerFieldStart) with
      httpMajor := 0, httpMinor := 9 }).after [.data .url]
  else p.urlChar ch

/-- `s_req_http_start`.  (`:1089`) -/
def onReqHttpStart (p : HttpParser) (ch : Byte) : Step :=
  if ch == SP then next p
  else if is ch 'H' then next (p.goto .reqHttpH)
  else if is ch 'I' && p.method == .source then next (p.goto .reqHttpI)
  else fail p .invalidConstant

/-- `s_req_http_end`.  (`:1169`) -/
def onReqHttpEnd (p : HttpParser) (ch : Byte) : Step :=
  if ch == CR then next (p.goto .reqLineAlmostDone)
  else if ch == LF then next (p.goto .headerFieldStart)
  else fail p .invalidVersion

/-- `s_req_line_almost_done`.  (`:1187`) -/
def onReqLineAlmostDone (p : HttpParser) (ch : Byte) : Step :=
  if ch != LF then fail p .lfExpected else next (p.goto .headerFieldStart)

/-! ### Bodies -/

/-- `s_body_identity`, one byte of it.  (`:1873`) With the last one the message is over. -/
def onBodyIdentity (p : HttpParser) : Step :=
  let p := { p with contentLength := p.contentLength - 1 }
  if p.contentLength = 0 then
    ((p.goto .messageDone).onMessageDone).after [.mark .body, .through .body]
  else (next p).after [.mark .body]

/-- `s_chunk_size_start`.  (`:1925`) The first digit. -/
def onChunkSizeStart (p : HttpParser) (ch : Byte) : Step :=
  match unhex ch with
  | none => fail p .invalidChunkSize
  | some digit => next { p.goto .chunkSize with contentLength := digit }

/-- `s_chunk_size`.  (`:1941`) A further digit, or the end of the number. -/
def onChunkSize (p : HttpParser) (ch : Byte) : Step :=
  if ch == CR then next (p.goto .chunkSizeAlmostDone)
  else
    match unhex ch with
    | none =>
      if is ch ';' || ch == SP then next (p.goto .chunkParameters) else fail p .invalidChunkSize
    | some digit =>
      match p.pushDigit 16 digit ((ullongMax - 16) / 16) with
      | .ok p => next p
      | .error e => fail p e

/-- `s_chunk_parameters`.  (`:1978`) -/
def onChunkParameters (p : HttpParser) (ch : Byte) : Step :=
  if ch == CR then next (p.goto .chunkSizeAlmostDone) else next p

/-- `s_chunk_size_almost_done`.  (`:1989`) A size of zero is the last chunk. -/
def onChunkSizeAlmostDone (p : HttpParser) (ch : Byte) : Step :=
  if ch != LF then fail p .strict
  else
    let p := { p with nread := 0 }
    if p.contentLength = 0 then
      (next { p.goto .headerFieldStart with flags := { p.flags with trailing := true } }).after
        [.note .chunkHeader]
    else (next (p.goto .chunkData)).after [.note .chunkHeader]

/-- `s_chunk_data`, one byte of it.  (`:2007`) -/
def onChunkData (p : HttpParser) : Step :=
  let p := { p with contentLength := p.contentLength - 1 }
  (next (if p.contentLength = 0 then p.goto .chunkDataAlmostDone else p)).after [.mark .body]

/-- `s_chunk_data_almost_done`.  (`:2030`) The text of the chunk ends. -/
def onChunkDataAlmostDone (p : HttpParser) (ch : Byte) : Step :=
  if ch != CR then fail p .strict else (next (p.goto .chunkDataDone)).after [.data .body]

/-- `s_chunk_data_done`.  (`:2038`) -/
def onChunkDataDone (p : HttpParser) (ch : Byte) : Step :=
  if ch != LF then fail p .strict
  else (next { p.goto .chunkSizeStart with nread := 0 }).after [.note .chunkComplete]

/-! ### The switch -/

/-- The `switch` on the state.  (`:714`) One line for each state. -/
def onByte (p : HttpParser) (ch : Byte) : Step :=
  match p.state with
  | .dead => if ch == CR || ch == LF then next p else fail p .closedConnection
  | .startRes => p.onStartRes ch
  | .resH => p.expect ch 84 .resHT
  | .resHT => p.expect ch 84 .resHTT
  | .resHTT => p.expect ch 80 .resHTTP
  | .resHTTP => p.expect ch 47 .resHttpMajor
  | .resHttpMajor => p.onHttpMajor ch .resHttpDot
  | .resHttpDot => p.onVersionChar ch '.' .resHttpMinor
  | .resHttpMinor => p.onHttpMinor ch .resHttpEnd
  | .resHttpEnd => p.onVersionChar ch ' ' .resFirstStatusCode
  | .resFirstStatusCode => p.onResFirstStatusCode ch
  | .resStatusCode => p.onResStatusCode ch
  | .resStatusStart => p.onResStatusStart ch
  | .resStatus => p.onResStatus ch
  | .resLineAlmostDone => p.expect ch LF .headerFieldStart
  | .startReq => p.onStartReq ch
  | .reqMethod => p.onReqMethod ch
  | .reqSpacesBeforeUrl => p.onReqSpacesBeforeUrl ch
  | .reqSchema | .reqSchemaSlash | .reqSchemaSlashSlash | .reqServerStart => p.onReqSchema ch
  | .reqServer | .reqServerWithAt | .reqPath | .reqQueryStringStart | .reqQueryString
  | .reqFragmentStart | .reqFragment => p.onReqUrl ch
  | .reqHttpStart => p.onReqHttpStart ch
  | .reqHttpH => p.expect ch 84 .reqHttpHT
  | .reqHttpHT => p.expect ch 84 .reqHttpHTT
  | .reqHttpHTT => p.expect ch 80 .reqHttpHTTP
  | .reqHttpHTTP => p.expect ch 47 .reqHttpMajor
  | .reqHttpI => p.expect ch 67 .reqHttpIC
  | .reqHttpIC => p.expect ch 69 .reqHttpHTTP
  | .reqHttpMajor => p.onHttpMajor ch .reqHttpDot
  | .reqHttpDot => p.onVersionChar ch '.' .reqHttpMinor
  | .reqHttpMinor => p.onHttpMinor ch .reqHttpEnd
  | .reqHttpEnd => p.onReqHttpEnd ch
  | .reqLineAlmostDone => p.onReqLineAlmostDone ch
  | .headerFieldStart => p.onHeaderFieldStart ch
  | .headerField => p.onHeaderField ch
  | .headerValueDiscardWs => p.onHeaderValueDiscardWs ch
  | .headerValueDiscardWsAlmostDone => p.expect ch LF .headerValueDiscardLws
  | .headerValueDiscardLws => p.onHeaderValueDiscardLws ch
  | .headerValueStart => p.onHeaderValueStart ch
  | .headerValue => p.onHeaderValue ch
  | .headerValueLws => p.onHeaderValueLws ch
  | .headerAlmostDone => p.onHeaderAlmostDone ch
  | .chunkSizeStart => p.onChunkSizeStart ch
  | .chunkSize => p.onChunkSize ch
  | .chunkParameters => p.onChunkParameters ch
  | .chunkSizeAlmostDone => p.onChunkSizeAlmostDone ch
  | .headersAlmostDone => p.onHeadersAlmostDone ch
  | .headersDone => p.onHeadersDone ch
  | .chunkData => p.onChunkData
  | .chunkDataAlmostDone => p.onChunkDataAlmostDone ch
  | .chunkDataDone => p.onChunkDataDone ch
  | .bodyIdentity => p.onBodyIdentity
  | .bodyIdentityEof => (next p).after [.mark .body]
  | .messageDone => p.onMessageDone

/-- One turn of the loop: `COUNT_HEADER_SIZE(1)`, and the `switch`.  The count is only made in a
head. -/
def step (p : HttpParser) (ch : Byte) : Step :=
  if p.state.parsingHeader then
    let p := { p with nread := p.nread + 1 }
    if maxHeaderSize < p.nread then fail p .headerOverflow else p.onByte ch
  else p.onByte ch

/-- The mark that a call sets when it starts.  (`:686`) It is set for a text that goes on. -/
def reopen (p : HttpParser) : Option DataCb :=
  match p.state with
  | .headerField => some .headerField
  | .headerValue => some .headerValue
  | .reqPath | .reqSchema | .reqSchemaSlash | .reqSchemaSlashSlash | .reqServerStart | .reqServer
  | .reqServerWithAt | .reqQueryStringStart | .reqQueryString | .reqFragmentStart
  | .reqFragment => some .url
  | .resStatus => some (.status p.statusCode)
  | _ => none

/-- The states of a body, which `MARK` their text at each byte.  A body is reported in as many
pieces as there are calls. -/
def loose (p : HttpParser) : Option DataCb :=
  match p.state with
  | .chunkData | .chunkDataAlmostDone | .bodyIdentity | .bodyIdentityEof => some .body
  | _ => none

/-- The parser without its callbacks, as long as there is no error.  It makes of marks what
`CALLBACK_DATA` makes of them. -/
def scanner : Lib.Scanner Byte HttpParser DataCb NotifyCb where
  step p ch :=
    match p.step ch with
    | ⟨evs, .next p'⟩ | ⟨evs, .exit p'⟩ => some (evs, p')
    | ⟨_, .error _ _⟩ => none
  reopen := reopen
  loose := loose
  soft k := k == .body

end HttpParser

end Hiper

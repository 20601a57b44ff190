import Hiper.HttpParser.Names
import Mathlib.Data.Nat.Notation

/-!
# The state of `http_parser`

`http-parser/http_parser.h` and the first part of `http_parser.cc`: the states,
the flags, the methods, the classes of characters (in strict mode) and
`parse_url_char`.

The parser is only ever a request parser or a response parser here, header fields
are not read leniently, and `on_headers_complete` always returns 0; what only
serves the other cases is left out (`HTTP_BOTH`, `lenient_http_headers`,
`F_SKIPBODY`).

The sources are `src/hiper/http/http-parser/http_parser.h` and the first 640 lines of
`http_parser.cc`, with `http_parser_init` (`:2148`), `http_message_needs_eof` (`:2089`) and
`http_should_keep_alive` (`:2112`).  A byte is a `UInt8`; where the source compares a
`char`, which may be negative, the comparisons are with characters below 128, so that the
sign does not matter.
-/

namespace Hiper

namespace HttpParser

/-- `http_parser_type`.  The third, `HTTP_BOTH`, is never asked for. -/
inductive ParserType
  | request
  | response
  deriving DecidableEq, Repr

/-- `http_errno`, the ones that `http_parser_execute` sets.  Its texts are used by nobody. -/
inductive Errno
  | cbUrl
  | cbStatus
  | cbHeaderField
  | cbHeaderValue
  | cbBody
  | invalidEofState
  | headerOverflow
  | closedConnection
  | invalidVersion
  | invalidStatus
  | invalidMethod
  | invalidUrl
  | lfExpected
  | invalidHeaderToken
  | invalidContentLength
  | unexpectedContentLength
  | invalidChunkSize
  | invalidConstant
  | invalidInternalState
  | strict
  | unknown
  deriving DecidableEq, Repr

/-- `enum state`.  In the order of the source, which `PARSING_HEADER` compares by. -/
inductive State
  | dead
  | startRes
  | resH
  | resHT
  | resHTT
  | resHTTP
  | resHttpMajor
  | resHttpDot
  | resHttpMinor
  | resHttpEnd
  | resFirstStatusCode
  | resStatusCode
  | resStatusStart
  | resStatus
  | resLineAlmostDone
  | startReq
  | reqMethod
  | reqSpacesBeforeUrl
  | reqSchema
  | reqSchemaSlash
  | reqSchemaSlashSlash
  | reqServerStart
  | reqServer
  | reqServerWithAt
  | reqPath
  | reqQueryStringStart
  | reqQueryString
  | reqFragmentStart
  | reqFragment
  | reqHttpStart
  | reqHttpH
  | reqHttpHT
  | reqHttpHTT
  | reqHttpHTTP
  | reqHttpI
  | reqHttpIC
  | reqHttpMajor
  | reqHttpDot
  | reqHttpMinor
  | reqHttpEnd
  | reqLineAlmostDone
  | headerFieldStart
  | headerField
  | headerValueDiscardWs
  | headerValueDiscardWsAlmostDone
  | headerValueDiscardLws
  | headerValueStart
  | headerValue
  | headerValueLws
  | headerAlmostDone
  | chunkSizeStart
  | chunkSize
  | chunkParameters
  | chunkSizeAlmostDone
  | headersAlmostDone
  | headersDone
  | chunkData
  | chunkDataAlmostDone
  | chunkDataDone
  | bodyIdentity
  | bodyIdentityEof
  | messageDone
  deriving DecidableEq, Repr

/-- `PARSING_HEADER`.  Only there the bytes are counted against `HTTP_MAX_HEADER_SIZE`. -/
def State.parsingHeader : State → Bool
  | chunkData | chunkDataAlmostDone | chunkDataDone | bodyIdentity | bodyIdentityEof
  | messageDone => false
  | _ => true

/-- `enum header_states`.  They say how far a name or a value has been matched. -/
inductive HeaderState
  | general
  | c
  | co
  | con
  | matchingConnection
  | matchingProxyConnection
  | matchingContentLength
  | matchingTransferEncoding
  | matchingUpgrade
  | connection
  | contentLength
  | contentLengthNum
  | contentLengthWs
  | transferEncoding
  | upgrade
  | matchingTransferEncodingChunked
  | matchingConnectionTokenStart
  | matchingConnectionKeepAlive
  | matchingConnectionClose
  | matchingConnectionUpgrade
  | matchingConnectionToken
  | transferEncodingChunked
  | connectionKeepAlive
  | connectionClose
  | connectionUpgrade
  deriving DecidableEq, Repr

/-- `enum flags`.  One field a bit; `F_SKIPBODY` is never set. -/
structure Flags where
  chunked : Bool
  connectionKeepAlive : Bool
  connectionClose : Bool
  connectionUpgrade : Bool
  trailing : Bool
  upgrade : Bool
  contentLength : Bool
  deriving DecidableEq, Repr

/-- No flag is set. -/
def Flags.none : Flags := ⟨false, false, false, false, false, false, false⟩

/-- The bytes of a word.  It is written in ASCII. -/
def bytes (cs : List Char) : List Byte := cs.map Char.toUInt8

/-- `matcher[index]`, with the zero at the end.  Behind the zero the source does not look. -/
def charAt (word : List Char) (index : ℕ) : Byte := (bytes word).getD index 0

/-! ### Classes of characters -/

/-- `CR`, `'\r'`. -/
abbrev CR : Byte := 13

/-- `LF`, `'\n'`. -/
abbrev LF : Byte := 10

/-- A blank. -/
abbrev SP : Byte := 32

/-- `'\t'`. -/
abbrev TAB : Byte := 9

/-- The byte is this character.  The character is below 128. -/
def is (ch : Byte) (c : Char) : Bool := ch == c.toUInt8

/-- `LOWER`.  It sets one bit, of whatever character. -/
def lower (ch : Byte) : Byte := ch ||| 0x20

/-- `IS_ALPHA`: a letter, when it is put in lower case. -/
def isAlpha (ch : Byte) : Bool := 97 ≤ lower ch && lower ch ≤ 122

/-- `IS_NUM`. -/
def isNum (ch : Byte) : Bool := 48 ≤ ch && ch ≤ 57

/-- `IS_ALPHANUM`. -/
def isAlphaNum (ch : Byte) : Bool := isAlpha ch || isNum ch

/-- `IS_HEX`: a digit or a letter up to `f`. -/
def isHex (ch : Byte) : Bool := isNum ch || (97 ≤ lower ch && lower ch ≤ 102)

/-- `IS_MARK`: `-_.!~*'()`. -/
def isMark (ch : Byte) : Bool := [45, 95, 46, 33, 126, 42, 39, 40, 41].contains ch

/-- `IS_USERINFO_CHAR`, with `%;:&=+$,`. -/
def isUserinfoChar (ch : Byte) : Bool :=
  isAlphaNum ch || isMark ch || [37, 59, 58, 38, 61, 43, 36, 44].contains ch

/-- `STRICT_TOKEN`: the lower case of the character, or 0; the characters that are
neither letters nor digits are those between `!` and `~` which the table has. -/
def token (ch : Byte) : Byte :=
  if 65 ≤ ch && ch ≤ 90 then ch + 32
  else if isAlphaNum ch then ch
  else if [33, 35, 36, 37, 38, 39, 42, 43, 45, 46, 94, 95, 96, 124, 126].contains ch then ch
  else 0

/-- `IS_URL_CHAR`: visible, and neither `#` nor `?`. -/
def isUrlChar (ch : Byte) : Bool := 33 ≤ ch && ch ≤ 126 && ch != 35 && ch != 63

/-- `IS_HOST_CHAR`.  Letters, digits, a dot and a dash. -/
def isHostChar (ch : Byte) : Bool := isAlphaNum ch || is ch '.' || is ch '-'

/-- `IS_HEADER_CHAR`.  CR, LF, the tab, and what is visible or not ASCII. -/
def isHeaderChar (ch : Byte) : Bool := ch == CR || ch == LF || ch == TAB || (31 < ch && ch != 127)

/-- `unhex`; the table ends at 127, and the zeros behind it count as digits. -/
def unhex (ch : Byte) : Option ℕ :=
  if 128 ≤ ch then some 0
  else if isNum ch then some (ch.toNat - 48)
  else if 97 ≤ lower ch && lower ch ≤ 102 then some ((lower ch).toNat - 87)
  else none

/-! ### URLs, one character at a time -/

/-- `parse_url_char`; `dead` is the error.  It is called for each byte of a URL but the blank
and the line ends. -/
def parseUrlChar (s : State) (ch : Byte) : State :=
  if ch == SP || ch == CR || ch == LF || ch == TAB || ch == 12 then .dead
  else
    match s with
    | .reqSpacesBeforeUrl =>
      if is ch '/' || is ch '*' then .reqPath else if isAlpha ch then .reqSchema else .dead
    | .reqSchema =>
      if isAlpha ch then .reqSchema else if is ch ':' then .reqSchemaSlash else .dead
    | .reqSchemaSlash => if is ch '/' then .reqSchemaSlashSlash else .dead
    | .reqSchemaSlashSlash => if is ch '/' then .reqServerStart else .dead
    | .reqServerWithAt | .reqServerStart | .reqServer =>
      if s == .reqServerWithAt && is ch '@' then .dead
      else if is ch '/' then .reqPath
      else if is ch '?' then .reqQueryStringStart
      else if is ch '@' then .reqServerWithAt
      else if isUserinfoChar ch || is ch '[' || is ch ']' then .reqServer
      else .dead
    | .reqPath =>
      if isUrlChar ch then .reqPath
      else if is ch '?' then .reqQueryStringStart
      else if is ch '#' then .reqFragmentStart
      else .dead
    | .reqQueryStringStart | .reqQueryString =>
      if isUrlChar ch then .reqQueryString
      else if is ch '?' then .reqQueryString
      else if is ch '#' then .reqFragmentStart
      else .dead
    | .reqFragmentStart =>
      if isUrlChar ch then .reqFragment
      else if is ch '?' then .reqFragment
      else if is ch '#' then .reqFragmentStart
      else .dead
    | .reqFragment =>
      if isUrlChar ch || is ch '?' || is ch '#' then .reqFragment else .dead
    | _ => .dead

end HttpParser

/-- `http_parser`, all but `http_errno`, which no byte changes that has no error.  `data` and
the size of the URL are the business of the callbacks. -/
structure HttpParser where
  type : HttpParser.ParserType
  flags : HttpParser.Flags
  state : HttpParser.State
  headerState : HttpParser.HeaderState
  index : ℕ
  /-- Bytes of the head that were read. -/
  nread : ℕ
  contentLength : ℕ
  httpMajor : ℕ
  httpMinor : ℕ
  statusCode : ℕ
  method : HttpParser.Method
  upgrade : Bool
  deriving DecidableEq, Repr

namespace HttpParser

/-- `ULLONG_MAX`: no length was given.  A `uint64_t` with all bits set. -/
def ullongMax : ℕ := 2 ^ 64 - 1

/-- `HTTP_MAX_HEADER_SIZE`.  It is 80 KB. -/
def maxHeaderSize : ℕ := 80 * 1024

/-- `start_state`.  Where a message begins. -/
def ParserType.startState : ParserType → State
  | request => .startReq
  | response => .startRes

/-- `http_parser_init`.  All the rest is zero. -/
def init (t : ParserType) : HttpParser :=
  { type := t, flags := .none, state := t.startState, headerState := .general, index := 0, nread := 0,
    contentLength := 0, httpMajor := 0, httpMinor := 0, statusCode := 0, method := .delete,
    upgrade := false }

/-- `http_message_needs_eof`.  A response without a length may go on to the end of the
connection. -/
def messageNeedsEof (p : HttpParser) : Bool :=
  if p.type = .request then false
  else if p.statusCode / 100 = 1 || p.statusCode = 204 || p.statusCode = 304 then false
  else if p.flags.chunked || p.contentLength != ullongMax then false
  else true

/-- `http_should_keep_alive`.  It depends on the version and on what `Connection` says. -/
def shouldKeepAlive (p : HttpParser) : Bool :=
  if 0 < p.httpMajor && 0 < p.httpMinor then !p.flags.connectionClose && !p.messageNeedsEof
  else p.flags.connectionKeepAlive && !p.messageNeedsEof

/-- `NEW_MESSAGE`.  In strict mode a connection that is closed reads no other. -/
def newMessage (p : HttpParser) : State :=
  if p.shouldKeepAlive then p.type.startState else .dead

end HttpParser

end Hiper

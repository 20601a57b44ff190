import Hiper.HttpParser.Basic
import Mathlib.Logic.Function.Basic

/-!
# `http_parser_parse_url`

The URL of a request that is not `CONNECT`, split into its fields.  Places and
lengths are kept in 16 bits.

The functions are `src/hiper/http/http-parser/http_parser.cc:2346`, `http_parse_host`
(`:2259`) and `http_parse_host_char` (`:2176`).  A URL without a schema has no host, so that
most of a host's states are not reached by a request's target; they are here since an
absolute URL and a piece of a URL may reach them.
-/

namespace Hiper

namespace HttpParser

/-- `enum http_parser_url_fields`.  In the order of the source. -/
inductive UrlField
  | schema
  | host
  | port
  | path
  | query
  | fragment
  | userinfo
  deriving DecidableEq, Repr

/-- `field_data[uf]`.  Two numbers of 16 bits. -/
structure Span where
  off : UInt16
  len : UInt16
  deriving DecidableEq, Repr

/-- `struct http_parser_url`; the port is only checked.  A field that is not set has no text. -/
structure UrlFields where
  fieldSet : UrlField → Bool
  fieldData : UrlField → Span

namespace UrlFields

/-- `http_parser_url_init`.  No field is set. -/
def init : UrlFields := ⟨fun _ => false, fun _ => ⟨0, 0⟩⟩

/-- The field starts at this place, with one character.  Its bit is set. -/
def start (u : UrlFields) (uf : UrlField) (pos : ℕ) : UrlFields :=
  ⟨Function.update u.fieldSet uf true, Function.update u.fieldData uf ⟨pos.toUInt16, 1⟩⟩

/-- `field_data[uf].len++`.  It wraps at `2 ^ 16`. -/
def more (u : UrlFields) (uf : UrlField) : UrlFields :=
  { u with
    fieldData := Function.update u.fieldData uf
      { u.fieldData uf with len := (u.fieldData uf).len + 1 } }

/-- `field_data[uf].off = p - buf`.  The length stays. -/
def move (u : UrlFields) (uf : UrlField) (pos : ℕ) : UrlFields :=
  { u with
    fieldData := Function.update u.fieldData uf { u.fieldData uf with off := pos.toUInt16 } }

/-- The text of a field that is set.  A place beyond the URL gives what is there. -/
def text (u : UrlFields) (buf : Bytes) (uf : UrlField) : Option Bytes :=
  if u.fieldSet uf then
    some ((buf.drop (u.fieldData uf).off.toNat).take (u.fieldData uf).len.toNat)
  else none

end UrlFields

/-! ### Hosts -/

/-- `enum http_host_state`.  `s_http_host_dead` is none. -/
inductive HostState
  | userinfoStart
  | userinfo
  | hostStart
  | hostV6Start
  | host
  | hostV6
  | hostV6End
  | hostV6ZoneStart
  | hostV6Zone
  | hostPortStart
  | hostPort
  deriving DecidableEq, Repr

/-- The part of `http_parse_host_char` that the states of a zone share.  A zone stands behind a
`%`. -/
def zoneChar (ch : Byte) : Option HostState :=
  if isAlphaNum ch || is ch '%' || is ch '.' || is ch '-' || is ch '_' || is ch '~' then
    some .hostV6Zone
  else none

/-- `http_parse_host_char`.  None is its error. -/
def parseHostChar (s : HostState) (ch : Byte) : Option HostState :=
  match s with
  | .userinfo | .userinfoStart =>
    if is ch '@' then some .hostStart else if isUserinfoChar ch then some .userinfo else none
  | .hostStart =>
    if is ch '[' then some .hostV6Start else if isHostChar ch then some .host else none
  | .host =>
    if isHostChar ch then some .host else if is ch ':' then some .hostPortStart else none
  | .hostV6End => if is ch ':' then some .hostPortStart else none
  | .hostV6 =>
    if is ch ']' then some .hostV6End
    else if isHex ch || is ch ':' || is ch '.' then some .hostV6
    else if is ch '%' then some .hostV6ZoneStart
    else none
  | .hostV6Start => if isHex ch || is ch ':' || is ch '.' then some .hostV6 else none
  | .hostV6Zone => if is ch ']' then some .hostV6End else zoneChar ch
  | .hostV6ZoneStart => zoneChar ch
  | .hostPort | .hostPortStart => if isNum ch then some .hostPort else none

/-- The `switch` on the new state in `http_parse_host`.  A state that is entered starts its
field, and one that is kept makes it longer. -/
def hostFields (s new : HostState) (pos : ℕ) (u : UrlFields) : UrlFields :=
  match new with
  | .host | .hostV6 => (if s = new then u else u.move .host pos).more .host
  | .hostV6ZoneStart | .hostV6Zone => u.more .host
  | .hostPort => if s = .hostPort then u.more .port else u.start .port pos
  | .userinfo => if s = .userinfo then u.more .userinfo else u.start .userinfo pos
  | _ => u

/-- The loop of `http_parse_host`.  None, if a character is an error. -/
def hostLoop : Bytes → ℕ → HostState → UrlFields → Option (HostState × UrlFields)
  | [], _, s, u => some (s, u)
  | ch :: rest, pos, s, u =>
    (parseHostChar s ch).bind fun new => hostLoop rest (pos + 1) new (hostFields s new pos u)

/-- A host may end here.  The others are an error at the end. -/
def HostState.ends : HostState → Bool
  | host | hostV6End | hostPort => true
  | _ => false

/-- `http_parse_host`.  `foundAt` tells where it begins to look. -/
def parseHost (buf : Bytes) (u : UrlFields) (foundAt : Bool) : Option UrlFields :=
  let sp := u.fieldData .host
  let u := { u with fieldData := Function.update u.fieldData .host { sp with len := 0 } }
  let chars := (buf.drop sp.off.toNat).take sp.len.toNat
  (hostLoop chars sp.off.toNat (if foundAt then .userinfoStart else .hostStart) u).bind fun r =>
    if r.1.ends then some r.2 else none

/-! ### URLs -/

/-- The field that a state of the URL is in, or none at a delimiter; other states are errors.
The inner none is a delimiter, the outer one an error. -/
def State.urlField : State → Option (Option UrlField)
  | reqSchemaSlash | reqSchemaSlashSlash | reqServerStart | reqQueryStringStart
  | reqFragmentStart => some none
  | reqSchema => some (some .schema)
  | reqServerWithAt | reqServer => some (some .host)
  | reqPath => some (some .path)
  | reqQueryString => some (some .query)
  | reqFragment => some (some .fragment)
  | _ => none

/-- The loop of `http_parser_parse_url`; `oldUf` is the field before.  A field that goes on is
made longer, and another one is started. -/
def urlLoop : Bytes → ℕ → State → Option UrlField → Bool → UrlFields → Option (Bool × UrlFields)
  | [], _, _, _, foundAt, u => some (foundAt, u)
  | ch :: rest, pos, s, oldUf, foundAt, u =>
    let s := parseUrlChar s ch
    s.urlField.bind fun
      | none => urlLoop rest (pos + 1) s oldUf foundAt u
      | some uf =>
        urlLoop rest (pos + 1) s (some uf) (foundAt || s == .reqServerWithAt)
          (if oldUf = some uf then u.more uf else u.start uf pos)

/-- The loop on the digits of the port.  The number is checked after each digit. -/
def portFits : Bytes → UInt64 → Bool
  | [], _ => true
  | ch :: rest, v =>
    let v := v * 10 + (ch.toUInt64 - 48)
    v ≤ 0xffff && portFits rest v

/-- `http_parser_parse_url`, when `is_connect` is 0; none is its return of 1.  The fields are
those that `on_request_url_cb` reads. -/
def parseUrl (buf : Bytes) : Option UrlFields :=
  if buf = [] then none
  else
    (urlLoop buf 0 .reqSpacesBeforeUrl none false .init).bind fun (foundAt, u) =>
      if u.fieldSet .schema && !u.fieldSet .host then none
      else
        (if u.fieldSet .host then parseHost buf u foundAt else some u).bind fun u =>
          if portFits ((u.text buf .port).getD []) 0 then some u else none

end HttpParser

end Hiper

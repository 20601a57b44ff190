import Hiper.Http.Map
import Hiper.HttpParser.Names
import Hiper.StringUtil.Url

/-!
# Requests and responses

`HttpRequest` and `HttpResponse` of `http.h` and `http.cc`, all but `dump`.  The
parameters and the cookies of a request are parsed when they are first asked for.

The source of the functions is `http.cc:10-181` and `http.cc:235-342`.  The bits of
`parserParamFlag_` are three Booleans, and `getParam`, `hasParam`, `getCookie` and
`hasCookie` return the request after the parse they make.  Setting and deleting do not
parse, and neither do the headers.  `PARSE_PARAM` is a recursion over what is left of the
text; that it is the loop over positions of the source is shown in `Hiper.Http.Param`.
-/

namespace Hiper

namespace Http

open StringUtil

/-- `enum class HttpMethod`.  One constructor for each method that the parser knows, and the one
for all others. -/
inductive HttpMethod
  | of (m : HttpParser.Method)
  | invalidMethod
  deriving DecidableEq, Repr

/-- `HttpMethodToString`, which throws when the method has no name.  The table is that of the
parser (`http.cc:27`). -/
def HttpMethod.toText : HttpMethod → Option Bytes
  | of m => some (text m.name)
  | invalidMethod => none

/-- `HttpStatusToString`, which throws when the status has no name.  The table is that of
`http_parser.h` (`http.cc:49`). -/
def statusToText (status : ℕ) : Option Bytes := (HttpParser.statusName status).map text

/-- A status with a name has three digits, and its name is one line.  The table is gone over
once. -/
theorem statusToText_plain {status : ℕ} {reason : Bytes} (h : statusToText status = some reason) :
    100 ≤ status ∧ 13 ∉ reason := by
  obtain ⟨name, hname, rfl⟩ := Option.map_eq_some_iff.1 h
  rw [HttpParser.statusName.eq_def] at hname
  split at hname <;> cases hname <;> decide +kernel

/-- `parserParamFlag_`: bits 1, 2 and 4, what has been parsed.  They are the query, the body and
the cookies. -/
structure ParamFlags where
  query : Bool
  body : Bool
  cookies : Bool
  deriving DecidableEq, Repr

end Http

open Http StringUtil

/-- `HttpRequest`.  All fields of the class that some method reads or writes (`http.h:476`). -/
structure HttpRequest where
  method : HttpMethod
  version : UInt8
  close : Bool
  websocket : Bool
  parserParamFlag : ParamFlags
  path : Bytes
  query : Bytes
  fragment : Bytes
  body : Bytes
  headers : MapType
  params : MapType
  cookies : MapType

/-- `HttpResponse`; the status is its code.  All fields of the class that some method reads or
writes. -/
structure HttpResponse where
  status : ℕ
  version : UInt8
  close : Bool
  websocket : Bool
  body : Bytes
  reason : Bytes
  headers : MapType
  cookies : List Bytes

namespace Http

/-! ### Parameters -/

/-- `PARSE_PARAM`: from `last` on, the key is what stands before the next `=`, and the value
what stands behind it before the next `flag`.  Without a `flag` behind it, the value goes to the
end (`http.cc:215`). -/
def parseParam (flag : Byte) (trim : Bytes → Bytes) (str : Bytes) : List Entry :=
  match _h : str.dropWhile (· != 61) with
  | [] => []
  | _ :: rest =>
    let e := (trim (str.takeWhile (· != 61)), urlDecode (rest.takeWhile (· != flag)) true)
    match _h' : rest.dropWhile (· != flag) with
    | [] => [e]
    | _ :: next => e :: parseParam flag trim next
termination_by str.length
decreasing_by
  have h₁ := (List.dropWhile_sublist (fun ch : Byte => ch != 61) (l := str)).length_le
  have h₂ := (List.dropWhile_sublist (fun ch : Byte => ch != flag) (l := rest)).length_le
  rw [_h, List.length_cons] at h₁
  rw [_h', List.length_cons] at h₂
  omega

/-- A string without `=` has no parameters.  The loop ends at once. -/
theorem parseParam_of_notMem {flag : Byte} {trim : Bytes → Bytes} {str : Bytes} (h : 61 ∉ str) :
    parseParam flag trim str = [] := by
  have hnil : str.dropWhile (· != 61) = [] := by
    rw [List.dropWhile_eq_nil_iff]
    intro ch hch
    have hne : ch ≠ 61 := fun h61 => h (h61 ▸ hch)
    simpa using hne
  rw [parseParam]
  split
  · rfl
  · next heq => rw [hnil] at heq; cases heq

/-- A byte that does not occur differs from every byte that does. -/
theorem bne_of_notMem {c : Byte} {s : Bytes} (h : c ∉ s) : ∀ ch ∈ s, (ch != c) = true := by
  intro ch hch
  have hne : ch ≠ c := fun heq => h (heq ▸ hch)
  simpa using hne

/-- A text is cut at the first byte that stops it. -/
theorem dropWhile_append_cons {p : Byte → Bool} {s : Bytes} (hs : ∀ ch ∈ s, p ch = true) {c : Byte}
    (hc : p c = false) (rest : Bytes) :
    (s ++ c :: rest).dropWhile p = c :: rest ∧ (s ++ c :: rest).takeWhile p = s := by
  constructor
  · rw [List.dropWhile_append_of_pos hs, List.dropWhile_cons_of_neg (by simp [hc])]
  · rw [List.takeWhile_append_of_pos hs, List.takeWhile_cons_of_neg (by simp [hc]), List.append_nil]

/-- The last parameter of a string.  Its value goes to the end of the string. -/
theorem parseParam_last {flag : Byte} {trim : Bytes → Bytes} {key value : Bytes} (hkey : 61 ∉ key)
    (hvalue : flag ∉ value) :
    parseParam flag trim (key ++ 61 :: value) = [(trim key, urlDecode value true)] := by
  have hk := bne_of_notMem hkey
  have hv := bne_of_notMem hvalue
  obtain ⟨hdrop, htake⟩ := dropWhile_append_cons hk (c := 61) rfl value
  rw [parseParam]
  split
  · next heq => rw [hdrop] at heq; cases heq
  · next rest heq =>
      rw [hdrop, List.cons.injEq] at heq
      obtain ⟨-, rfl⟩ := heq
      split
      · rw [htake, List.takeWhile_eq_self_iff.2 hv]
      · next heq' => rw [List.dropWhile_eq_nil_iff.2 hv] at heq'; cases heq'

/-- A parameter with others behind it.  The loop goes on behind the delimiter. -/
theorem parseParam_cons {flag : Byte} {trim : Bytes → Bytes} {key value : Bytes} (hkey : 61 ∉ key)
    (hvalue : flag ∉ value) (next : Bytes) :
    parseParam flag trim (key ++ 61 :: (value ++ flag :: next)) =
      (trim key, urlDecode value true) :: parseParam flag trim next := by
  have hk := bne_of_notMem hkey
  have hv := bne_of_notMem hvalue
  obtain ⟨hdrop, htake⟩ := dropWhile_append_cons hk (c := 61) rfl (value ++ flag :: next)
  obtain ⟨hdrop', htake'⟩ := dropWhile_append_cons hv (c := flag) (by simp) next
  rw [parseParam]
  split
  · next heq => rw [hdrop] at heq; cases heq
  · next rest heq =>
      rw [hdrop, List.cons.injEq] at heq
      obtain ⟨-, rfl⟩ := heq
      split
      · next heq' => rw [hdrop'] at heq'; cases heq'
      · next rest' heq' =>
          rw [hdrop', List.cons.injEq] at heq'
          obtain ⟨-, rfl⟩ := heq'
          rw [htake, htake']

end Http

namespace HttpRequest

variable (r : HttpRequest)

/-- `HttpRequest::HttpRequest`.  A `GET` of the path `/`, with nothing else (`http.cc:71`). -/
def new (version : UInt8) (close : Bool) : HttpRequest :=
  { method := .of .get, version := version, close := close, websocket := false,
    parserParamFlag := ⟨false, false, false⟩, path := text "/", query := [], fragment := [],
    body := [], headers := .empty, params := .empty, cookies := .empty }

/-- `HttpRequest::getHeader` (`http.cc:86`). -/
def getHeader (key default : Bytes) : Bytes := ((r.headers.find key).map (·.2)).getD default

/-- `HttpRequest::setHeader` (`http.cc:107`). -/
def setHeader (key val : Bytes) : HttpRequest := { r with headers := r.headers.set key val }

/-- `HttpRequest::delHeader` (`http.cc:122`). -/
def delHeader (key : Bytes) : HttpRequest := { r with headers := r.headers.erase key }

/-- `HttpRequest::appendBody`, which the parser calls for each piece of the body. -/
def appendBody (v : Bytes) : HttpRequest := { r with body := r.body ++ v }

/-- `HttpRequest::initQueryParam`.  It parses once (`http.cc:235`). -/
def initQueryParam : HttpRequest :=
  if r.parserParamFlag.query then r
  else
    { r with
      params := r.params.insertAll (parseParam 38 id r.query)
      parserParamFlag := { r.parserParamFlag with query := true } }

/-- The body is a form, by its content type.  The type is looked for anywhere in the header,
ignoring case. -/
def isForm : Bool :=
  caseContains (r.getHeader (text "content-type") []) (text "application/x-www-form-urlencoded")

/-- `HttpRequest::initBodyParam`.  It parses once, and only a form (`http.cc:246`). -/
def initBodyParam : HttpRequest :=
  if r.parserParamFlag.body then r
  else if !r.isForm then { r with parserParamFlag := { r.parserParamFlag with body := true } }
  else
    { r with
      params := r.params.insertAll (parseParam 38 id r.body)
      parserParamFlag := { r.parserParamFlag with body := true } }

/-- `HttpRequest::initCookies`.  It parses once, with the names trimmed (`http.cc:261`). -/
def initCookies : HttpRequest :=
  if r.parserParamFlag.cookies then r
  else
    let cookie := r.getHeader (text "cookie") []
    if cookie.isEmpty then { r with parserParamFlag := { r.parserParamFlag with cookies := true } }
    else
      { r with
        cookies := r.cookies.insertAll (parseParam 59 trim cookie)
        parserParamFlag := { r.parserParamFlag with cookies := true } }

/-- `HttpRequest::getParam`, and the request after it.  Query and body are parsed first
(`http.cc:92`). -/
def getParam (key default : Bytes) : Bytes × HttpRequest :=
  let r := r.initQueryParam.initBodyParam
  (((r.params.find key).map (·.2)).getD default, r)

/-- `HttpRequest::hasParam` (`http.cc:149`), and the request after it: none when it returns false,
and otherwise what it writes to `*val`. -/
def hasParam (key : Bytes) : Option Bytes × HttpRequest :=
  let r := r.initQueryParam.initBodyParam
  ((r.params.find key).map (·.2), r)

/-- `HttpRequest::setParam` (`http.cc:112`); nothing is parsed. -/
def setParam (key val : Bytes) : HttpRequest := { r with params := r.params.set key val }

/-- `HttpRequest::delParam` (`http.cc:127`); nothing is parsed. -/
def delParam (key : Bytes) : HttpRequest := { r with params := r.params.erase key }

/-- `HttpRequest::getCookie`, and the request after it.  The cookies are parsed first
(`http.cc:100`). -/
def getCookie (key default : Bytes) : Bytes × HttpRequest :=
  let r := r.initCookies
  (((r.cookies.find key).map (·.2)).getD default, r)

/-- `HttpRequest::hasCookie` (`http.cc:163`), and the request after it. -/
def hasCookie (key : Bytes) : Option Bytes × HttpRequest :=
  let r := r.initCookies
  ((r.cookies.find key).map (·.2), r)

/-- `HttpRequest::setCookie` (`http.cc:117`); nothing is parsed. -/
def setCookie (key val : Bytes) : HttpRequest := { r with cookies := r.cookies.set key val }

/-- `HttpRequest::delCookie` (`http.cc:132`); nothing is parsed. -/
def delCookie (key : Bytes) : HttpRequest := { r with cookies := r.cookies.erase key }

/-- `HttpRequest::init`.  A `connection` header decides whether to close (`http.cc:275`). -/
def init : HttpRequest :=
  let conn := r.getHeader (text "connection") []
  if conn.isEmpty then r else { r with close := !caseEq conn (text "keep-alive") }

end HttpRequest

namespace HttpResponse

variable (r : HttpResponse)

/-- `HttpResponse::HttpResponse`.  The status is 200 (`http.cc:288`). -/
def new (version : UInt8) (close : Bool) : HttpResponse :=
  { status := 200, version := version, close := close, websocket := false, body := [],
    reason := [], headers := .empty, cookies := [] }

/-- `HttpResponse::getHeader` (`http.cc:295`). -/
def getHeader (key default : Bytes) : Bytes := ((r.headers.find key).map (·.2)).getD default

/-- `HttpResponse::setHeader` (`http.cc:301`). -/
def setHeader (key val : Bytes) : HttpResponse := { r with headers := r.headers.set key val }

/-- `HttpResponse::delHeader` (`http.cc:306`). -/
def delHeader (key : Bytes) : HttpResponse := { r with headers := r.headers.erase key }

/-- `HttpResponse::appendBody`, which the parser calls for each piece of the body. -/
def appendBody (v : Bytes) : HttpResponse := { r with body := r.body ++ v }

end HttpResponse

end Hiper

import Hiper.Http.Dump
import Hiper.Http.Lazy
import Hiper.HttpParser.Basic

/-!
# Cookies there and back

`HttpResponse::setCookie` writes the value of a cookie as it is, and
`HttpRequest::getCookie` gives it URL-decoded: a client that sends the cookies back
gets the same values exactly when none of them has anything to decode
(`cookie_echo_iff`).

The functions are `http.cc:317` (`HttpResponse::setCookie`), `http.cc:344` (`dump`),
`http.cc:261` (`initCookies`) and `http.cc:100` (`getCookie`).  The client between them is
one that reads the `Set-Cookie` lines of the head and sends the pairs back in one `Cookie`
header, joined by a semicolon and a blank; it changes nothing in them.  What has to be
decoded is a `+` or a percent sign with two hex digits behind it (`urlDecode`), which is a
condition on the value alone.
-/

namespace Hiper

open Http StringUtil

namespace HttpResponse

/-- `HttpResponse::setCookie`, given the time texts of `Time2Str`.  Expiry, path, domain and the
secure mark come behind the pair, as attributes (`http.cc:317`). -/
def setCookie (time2Str : ℤ → Bytes) (r : HttpResponse) (key val : Bytes) (expired : ℤ)
    (path domain : Bytes) (secure : Bool) : HttpResponse :=
  { r with
    cookies := r.cookies ++
      [key ++ text "=" ++ val ++
        (if expired > 0 then text ";expires=" ++ time2Str expired ++ text " GMT" else []) ++
        (if domain.isEmpty then [] else text ";domain=" ++ domain) ++
        (if path.isEmpty then [] else text ";path=" ++ path) ++
        if secure then text ";secure" else []] }

/-- `setCookie(name, value)`, for each.  They are written in the order in which they are set. -/
def setCookies (time2Str : ℤ → Bytes) (r : HttpResponse) (cookies : List Entry) : HttpResponse :=
  cookies.foldl (fun r c => r.setCookie time2Str c.1 c.2 0 [] [] false) r

end HttpResponse

namespace Http

/-- The name and the value in a `Set-Cookie` line: up to the first attribute.  The attributes
are told apart by semicolons. -/
def nameValue (l : Bytes) : Bytes := (l.drop (text "Set-Cookie: ").length).takeWhile (· != 59)

/-- The cookie header of a client that has read the response.  The pairs are joined with `"; "`. -/
def cookieHeader (response : Bytes) : Bytes :=
  (text "; ").intercalate
    (((headLines [] response).tail.filter (isNamed "set-cookie")).map nameValue)

/-- Names are tokens and distinct ignoring case; values have no `;`, CR or LF.  So each is one
pair, and the map keeps them apart. -/
structure PlainCookies (cookies : List Entry) : Prop where
  token : ∀ c ∈ cookies, ∀ ch ∈ c.1, HttpParser.token ch ≠ 0
  distinct : cookies.Pairwise fun a b => a.1.map tolower ≠ b.1.map tolower
  value : ∀ c ∈ cookies, 59 ∉ c.2 ∧ 13 ∉ c.2 ∧ 10 ∉ c.2

/-- No cookie is set yet, and nothing else in the head could be taken for one.  None of its
header lines is a `Set-Cookie`, and its reason has no CR. -/
structure CookieFree (r : HttpResponse) : Prop where
  cookies : r.cookies = []
  reason : 13 ∉ r.reason
  headers : ∀ l ∈ r.headerLines, 13 ∉ l ∧ isNamed "set-cookie" l = false

/-- A request as it was received, with this cookie header.  Nothing of it has been parsed yet. -/
structure SendsBack (q : HttpRequest) (header : Bytes) : Prop where
  unparsed : q.parserParamFlag.cookies = false
  cookies : q.cookies = .empty
  header : q.getHeader (text "cookie") [] = header

/-- `name=value`.  It is what stands in front of the first attribute. -/
def cookiePair (c : Entry) : Bytes := c.1 ++ 61 :: c.2

/-! ### What is written -/

/-- Setting cookies adds their lines and changes nothing else of the response. -/
theorem cookies_setCookies (time2Str : ℤ → Bytes) (r : HttpResponse) (cookies : List Entry) :
    r.setCookies time2Str cookies = { r with cookies := r.cookies ++ cookies.map cookiePair } := by
  induction cookies generalizing r with
  | nil =>
      rw [List.map_nil, List.append_nil]
      rfl
  | cons c cookies ih =>
      have hone : r.setCookie time2Str c.1 c.2 0 [] [] false =
          { r with cookies := r.cookies ++ [cookiePair c] } := by
        have hequals : text "=" = [61] := rfl
        rw [HttpResponse.setCookie, if_neg (lt_irrefl _), cookiePair, hequals]
        simp only [List.isEmpty_nil, if_true, Bool.false_eq_true, if_false, List.append_nil,
          List.append_assoc, List.cons_append, List.nil_append]
      rw [HttpResponse.setCookies, List.foldl_cons, ← HttpResponse.setCookies, hone, ih,
        List.append_assoc]
      rfl

/-- No character of a token is special.  The table of the parser says which characters are. -/
theorem ne_of_token {ch c : Byte} (h : HttpParser.token ch ≠ 0) (hc : HttpParser.token c = 0) :
    ch ≠ c := by
  rintro rfl
  exact h hc

/-- A character that no token has is in no name. -/
theorem notMem_of_token {name : Bytes} (h : ∀ ch ∈ name, HttpParser.token ch ≠ 0) {c : Byte}
    (hc : HttpParser.token c = 0) : c ∉ name := fun hmem => ne_of_token (h c hmem) hc rfl

/-- A number has no CR. -/
theorem cr_notMem_digits {n : ℕ} : 13 ∉ decimal n := fun hmem => by
  have hdigit := isdigit_of_mem_decimal hmem
  cases hdigit

/-- The first line of a response has no CR, when its reason has none. -/
theorem cr_notMem_start {r : HttpResponse} {reason : Bytes} (h : 13 ∉ reason) :
    13 ∉ versionText r.version ++ text " " ++ decimal r.status ++ text " " ++ reason := by
  have hhttp : 13 ∉ text "HTTP/" := by decide
  have hdot : 13 ∉ text "." := by decide
  have hspace : 13 ∉ text " " := by decide
  simp only [versionText, List.mem_append, not_or]
  exact ⟨⟨⟨⟨⟨⟨⟨hhttp, cr_notMem_digits⟩, hdot⟩, cr_notMem_digits⟩, hspace⟩, cr_notMem_digits⟩,
    hspace⟩, h⟩

/-- A header line is not empty. -/
theorem line_ne_nil (name value : Bytes) : line name value ≠ [] := by
  have hmid : text ": " ≠ [] := by decide
  rw [line, List.append_assoc]
  exact List.append_ne_nil_of_right_ne_nil _ (List.append_ne_nil_of_left_ne_nil hmid _)

/-- The lines that `dump` adds are no cookies.  Those of cookies are not among them here. -/
theorem ownLines_no_cookie {websocket close : Bool} {body l : Bytes}
    (h : l ∈ ownLines websocket close body []) :
    (l ≠ [] ∧ 13 ∉ l) ∧ isNamed "set-cookie" l = false := by
  rcases mem_ownLines.1 h with ⟨-, rfl⟩ | ⟨-, rfl⟩ | ⟨c, hc, -⟩
  · cases close <;> decide +kernel
  · have hcolon : 58 ∉ text "content-length" := by decide +kernel
    have hname : 13 ∉ text "content-length" := by decide +kernel
    have hmid : 13 ∉ text ": " := by decide
    refine ⟨⟨line_ne_nil _ _, ?_⟩, ?_⟩
    · simp only [lengthLine, line, List.mem_append, not_or]
      exact ⟨⟨hname, hmid⟩, cr_notMem_digits⟩
    · rw [lengthLine, isNamed_line hcolon]
      decide +kernel
  · cases hc

/-- The lines of the response with the cookies.  In the order in which they are written. -/
theorem dump_setCookies {time2Str : ℤ → Bytes} {r : HttpResponse} (hr : CookieFree r)
    {cookies : List Entry} {d : Written} (hd : (r.setCookies time2Str cookies).dump = some d) :
    (d.start ≠ [] ∧ 13 ∉ d.start) ∧
      d.lines = r.headerLines ++ (cookies.map fun c => line (text "Set-Cookie") (cookiePair c)) ++
        ownLines r.websocket r.close r.body [] := by
  rw [cookies_setCookies, hr.cookies, HttpResponse.dump, Option.map_eq_some_iff] at hd
  obtain ⟨reason, hreason, rfl⟩ := hd
  have hcr : 13 ∉ reason := by
    split_ifs at hreason with hempty
    · exact (statusToText_plain hreason).2
    · obtain rfl := Option.some.inj hreason
      exact hr.reason
  refine ⟨⟨?_, cr_notMem_start hcr⟩, ?_⟩
  · have hhttp : text "HTTP/" ≠ [] := by decide
    simp only [versionText, List.append_assoc]
    exact List.append_ne_nil_of_left_ne_nil hhttp _
  · simp only [ownLines, List.nil_append, List.append_nil, List.map_nil, List.map_map,
      List.append_assoc]
    rfl

/-- What a client takes from the line of a cookie.  The name of the header is cut off first. -/
theorem nameValue_line {c : Entry} (h : 59 ∉ cookiePair c) :
    nameValue (line (text "Set-Cookie") (cookiePair c)) = cookiePair c := by
  rw [nameValue, line, List.drop_left' (by decide +kernel),
    List.takeWhile_eq_self_iff.2 (bne_of_notMem h)]

/-- The client sends the pairs that were set.  As they were set. -/
theorem cookieHeader_eq {time2Str : ℤ → Bytes} {r : HttpResponse} (hr : CookieFree r)
    {cookies : List Entry} (hcookies : PlainCookies cookies) {d : Written}
    (hd : (r.setCookies time2Str cookies).dump = some d) :
    cookieHeader d.bytes = (text "; ").intercalate (cookies.map cookiePair) := by
  obtain ⟨hstart, hlines⟩ := dump_setCookies hr hd
  have hpair : ∀ c ∈ cookies, 13 ∉ cookiePair c ∧ 59 ∉ cookiePair c := by
    intro c hc
    obtain ⟨hsemi, hcr, -⟩ := hcookies.value c hc
    have htoken := hcookies.token c hc
    simp only [cookiePair, List.mem_append, List.mem_cons, not_or]
    exact ⟨⟨notMem_of_token htoken (by decide), by decide, hcr⟩,
      notMem_of_token htoken (by decide), by decide, hsemi⟩
  have hcolon : 58 ∉ text "Set-Cookie" := by decide +kernel
  have hcookieLine : ∀ c, isNamed "set-cookie" (line (text "Set-Cookie") c) = true := fun c => by
    rw [isNamed_line hcolon]
    decide +kernel
  have hclean : ∀ l ∈ d.lines, l ≠ [] ∧ 13 ∉ l := by
    intro l hl
    rw [hlines, List.mem_append, List.mem_append] at hl
    rcases hl with (hl | hl) | hl
    · obtain ⟨e, -, rfl⟩ := List.mem_map.1 hl
      exact ⟨line_ne_nil _ _, (hr.headers _ hl).1⟩
    · obtain ⟨c, hc, rfl⟩ := List.mem_map.1 hl
      have hname : 13 ∉ text "Set-Cookie" := by decide +kernel
      have hmid : 13 ∉ text ": " := by decide
      refine ⟨line_ne_nil _ _, ?_⟩
      simp only [line, List.mem_append, not_or]
      exact ⟨⟨hname, hmid⟩, (hpair c hc).1⟩
    · exact (ownLines_no_cookie hl).1
  have hfilter : d.lines.filter (isNamed "set-cookie") =
      cookies.map fun c => line (text "Set-Cookie") (cookiePair c) := by
    rw [hlines, List.filter_append, List.filter_append, List.filter_eq_nil_iff.2, List.filter_eq_self.2,
      List.filter_eq_nil_iff.2, List.nil_append, List.append_nil]
    · exact fun l hl => by rw [(ownLines_no_cookie hl).2]; exact Bool.false_ne_true
    · intro l hl
      obtain ⟨c, -, rfl⟩ := List.mem_map.1 hl
      exact hcookieLine _
    · exact fun l hl => by rw [(hr.headers l hl).2]; exact Bool.false_ne_true
  rw [cookieHeader, headLines_bytes d hstart hclean, List.tail_cons, hfilter, List.map_map]
  congr 1
  exact List.map_congr_left fun c hc => nameValue_line (hpair c hc).2

/-! ### What is read -/

/-- A token is not trimmed, whatever blanks are around it.  Blanks are no characters of a token. -/
theorem trim_token {pre name : Bytes} (hpre : ∀ ch ∈ pre, isBlank ch = true)
    (hname : ∀ ch ∈ name, HttpParser.token ch ≠ 0) : trim (pre ++ name) = name := by
  have hblank : ∀ ch ∈ name, isBlank ch = false := by
    intro ch hch
    by_contra hblank
    simp only [isBlank, Bool.not_eq_false, Bool.or_eq_true, beq_iff_eq] at hblank
    have hne := hname ch hch
    rcases hblank with ((rfl | rfl) | rfl) | rfl <;> exact hne (by decide)
  rw [trim, List.dropWhile_append_of_pos hpre, dropWhile_isBlank hblank,
    dropWhile_isBlank fun ch hch => hblank ch (List.mem_reverse.1 hch), List.reverse_reverse]

/-- The pairs that are joined are parsed again, their values decoded.  The blanks behind the
semicolons are trimmed off the names. -/
theorem parseParam_join {cookies : List Entry} (hcookies : PlainCookies cookies) {pre : Bytes}
    (hpre : ∀ ch ∈ pre, isBlank ch = true) :
    parseParam 59 trim (pre ++ (text "; ").intercalate (cookies.map cookiePair)) =
      cookies.map fun c => (c.1, urlDecode c.2 true) := by
  have hpre61 : 61 ∉ pre := fun hmem => by cases hpre 61 hmem
  induction cookies generalizing pre with
  | nil =>
      rw [List.map_nil, List.intercalate_nil, List.append_nil]
      exact parseParam_of_notMem hpre61
  | cons c cookies ih =>
      have htoken := hcookies.token c (List.mem_cons_self ..)
      have hvalue := (hcookies.value c (List.mem_cons_self ..)).1
      have hkey : 61 ∉ pre ++ c.1 := by
        rw [List.mem_append]
        exact not_or.2 ⟨hpre61, notMem_of_token htoken (by decide)⟩
      have hrest : PlainCookies cookies :=
        ⟨fun c hc => hcookies.token c (List.mem_cons_of_mem _ hc), hcookies.distinct.of_cons,
          fun c hc => hcookies.value c (List.mem_cons_of_mem _ hc)⟩
      have hhead : ∀ rest, pre ++ (cookiePair c ++ rest) = pre ++ c.1 ++ 61 :: (c.2 ++ rest) := by
        intro rest
        simp only [cookiePair, List.append_assoc, List.cons_append]
      rw [List.map_cons, List.map_cons]
      cases cookies with
      | nil =>
          have hlast := hhead []
          rw [List.append_nil, List.append_nil] at hlast
          rw [List.map_nil, List.intercalate_singleton, hlast, parseParam_last hkey hvalue,
            trim_token hpre htoken]
          rfl
      | cons c' cookies =>
          have hblank : ∀ ch ∈ ([32] : Bytes), isBlank ch = true := by decide +kernel
          have hsep : text "; " = [59, 32] := rfl
          rw [List.map_cons, List.intercalate_cons_cons, List.append_assoc, hhead, hsep,
            List.cons_append, parseParam_cons hkey hvalue, trim_token hpre htoken, ← hsep]
          exact congrArg _ (ih hrest hblank (by decide))

/-- What the request has under the name of a cookie.  Names that differ in case are the same
name, and these do not. -/
theorem getCookie_join {cookies : List Entry} (hcookies : PlainCookies cookies) {q : HttpRequest}
    (hq : SendsBack q ((text "; ").intercalate (cookies.map cookiePair))) {c : Entry} (hc : c ∈ cookies)
    (default : Bytes) : (q.getCookie c.1 default).1 = urlDecode c.2 true := by
  have hmap : q.initCookies.cookies =
      MapType.empty.insertAll (cookies.map fun c => (c.1, urlDecode c.2 true)) := by
    have hparse : parseParam 59 trim ((text "; ").intercalate (cookies.map cookiePair)) = _ :=
      parseParam_join hcookies (List.forall_mem_nil _)
    rw [initCookies_eq, hq.unparsed, if_neg Bool.false_ne_true, hq.cookies, hq.header, ← hparse]
  have hkeys : (cookies.map fun c => (c.1, urlDecode c.2 true)).Pairwise
      fun a b => entryKey a ≠ entryKey b := by
    refine List.pairwise_map.2 (hcookies.distinct.imp_of_mem fun ha hb hne heq => hne ?_)
    exact (caseKey_eq_iff (notMem_of_token (hcookies.token _ ha) (by decide))
      (notMem_of_token (hcookies.token _ hb) (by decide))).1 heq
  have hlook : q.initCookies.cookies.lookup c.1 = some (urlDecode c.2 true) := by
    rw [hmap, MapType.lookup_eq_some]
    refine ⟨(c.1, urlDecode c.2 true), (MapType.mem_insertAll hkeys ?_).2 (Or.inl ?_), rfl, rfl⟩
    · exact fun _ _ x hx => absurd hx List.not_mem_nil
    · exact List.mem_map_of_mem (f := fun c : Entry => (c.1, urlDecode c.2 true)) hc
  exact congrArg (Option.getD · default) hlook

/-- **Cookie echo.**  Every cookie that was set is got back with its value exactly when no value
has a `+` or an escape.  For every response and request that carry them, and every list of
cookies whose names and values can be written at all.  `setCookie`
(`src/hiper/http/http.cc:317`) writes the value as it is, and `initCookies` (261) decodes it on
the way back, by line 227. -/
theorem cookie_echo_iff (time2Str : ℤ → Bytes) {r : HttpResponse} (hr : CookieFree r)
    {cookies : List Entry} (hcookies : PlainCookies cookies) {d : Written}
    (hd : (r.setCookies time2Str cookies).dump = some d) {q : HttpRequest}
    (hq : SendsBack q (cookieHeader d.bytes)) (default : Bytes) :
    (∀ c ∈ cookies, (q.getCookie c.1 default).1 = c.2) ↔
      ∀ c ∈ cookies, 43 ∉ c.2 ∧ hasEscape c.2 = false := by
  rw [cookieHeader_eq hr hcookies hd] at hq
  refine forall₂_congr fun c hc => ?_
  rw [getCookie_join hcookies hq hc, urlDecode_eq_self_iff]

/-- The response after `setCookie` of these.  It has no headers of its own. -/
def responseWith (cookies : List Entry) : HttpResponse :=
  (HttpResponse.new 0x11 true).setCookies (fun _ => []) cookies

/-- The request of a client that has read it.  It has one header, the cookies. -/
def echoRequest (response : Bytes) : HttpRequest :=
  (HttpRequest.new 0x11 true).setHeader (text "Cookie") (cookieHeader response)

/-- Such a request sends the cookies back. -/
theorem echoRequest_sendsBack (response : Bytes) :
    SendsBack (echoRequest response) (cookieHeader response) where
  unparsed := rfl
  cookies := rfl
  header := by
    have hlook := MapType.lookup_set .empty (text "Cookie") (cookieHeader response) (text "cookie")
    rw [if_pos (by decide +kernel)] at hlook
    exact congrArg (Option.getD · []) hlook

/-- `id` with the value `a+b` comes back as `a b`.  The failing input. -/
theorem plus_not_echoed :
    PlainCookies [(text "id", text "a+b")] ∧ CookieFree (HttpResponse.new 0x11 true) ∧
      (responseWith [(text "id", text "a+b")]).dump.map
        (fun d => ((echoRequest d.bytes).getCookie (text "id") []).1) = some (text "a b") :=
  ⟨⟨by decide +kernel, by decide, by decide +kernel⟩, ⟨rfl, by decide, by decide⟩,
    by decide +kernel⟩

/-- Two cookies with a `%`, a `=` and blanks that do come back.  Their values have nothing to
decode. -/
def sessionCookies : List Entry := [(text "id", text " a=b c "), (text "lang", text "50%")]

/-- Both come back as they were. -/
theorem cookie_echo_session :
    ∃ d, (responseWith sessionCookies).dump = some d ∧
      ∀ c ∈ sessionCookies, ((echoRequest d.bytes).getCookie c.1 []).1 = c.2 := by
  obtain ⟨d, hd⟩ : ∃ d, (responseWith sessionCookies).dump = some d :=
    Option.isSome_iff_exists.1 (by decide +kernel)
  exact ⟨d, hd, (cookie_echo_iff (fun _ => []) ⟨rfl, by decide, by decide⟩
    ⟨by decide +kernel, by decide, by decide +kernel⟩ hd (echoRequest_sendsBack d.bytes) []).2 (by decide +kernel)⟩

end Http

end Hiper

import Hiper.Http.Message

/-!
# Messages as they are written

`dump` of `HttpRequest` and of `HttpResponse`, and how a message is framed: which of
its head lines tell the length of the body, and which the end of the connection.
The two functions go over the headers alike, but the request leaves out its
`content-length` headers when it writes its own, and the response does not.

The functions are `http.cc:183` (`HttpRequest::dump`) and `http.cc:344`
(`HttpResponse::dump`), with the loops over the headers inside them.  A reader of the head
takes the lines up to the first empty one, the name of each up to its first colon, and
compares names without regard to case; `Framed` is what such a reader needs of them.  The
condition under which the lines are framed is one on the headers of the map, the body and
the websocket mark (`HeadersFit`): what a header is read as is a property of its name and
value (`tellsLength`, `tellsChunked`, `tellsConnection`), and which headers are left out is
what the two loops skip.
-/

namespace Hiper

namespace Http

open StringUtil

/-- The end of a line. -/
def crlf : Bytes := [13, 10]

/-- `i.first << ": " << i.second`.  Nothing in it is escaped. -/
def line (name value : Bytes) : Bytes := name ++ text ": " ++ value

/-- What `dump` writes: the first line, the other lines of the head, the body.  The order of the
lines is that of the stream. -/
structure Written where
  start : Bytes
  lines : List Bytes
  body : Bytes
  deriving DecidableEq, Repr

/-- The text in the stream.  An empty line ends the head. -/
def Written.bytes (d : Written) : Bytes :=
  d.start ++ crlf ++ d.lines.flatMap (· ++ crlf) ++ crlf ++ d.body

/-- `"close" : "keep-alive"`.  The value of the connection line. -/
def closeText (close : Bool) : Bytes := text (if close then "close" else "keep-alive")

/-- The connection line, which is written when there is no websocket. -/
def connectionLine (close : Bool) : Bytes := line (text "connection") (closeText close)

/-- The length line, which is written when there is a body. -/
def lengthLine (body : Bytes) : Bytes := line (text "content-length") (decimal body.length)

/-- `HTTP/` and the two halves of the version.  The high half is the major one. -/
def versionText (version : UInt8) : Bytes :=
  text "HTTP/" ++ decimal (version >>> 4).toNat ++ text "." ++ decimal (version &&& 0x0F).toNat

/-- The `continue`s of the loop in `HttpRequest::dump`.  A `connection` header without a
websocket, and a `content-length` header with a body (`http.cc:196-201`). -/
def requestSkips (websocket : Bool) (body : Bytes) (e : Entry) : Bool :=
  (!websocket && caseEq e.1 (text "connection")) ||
    (!body.isEmpty && caseEq e.1 (text "content-length"))

/-- The `continue` of the loop in `HttpResponse::dump`.  A `connection` header without a
websocket (`http.cc:351-353`). -/
def responseSkips (websocket : Bool) (e : Entry) : Bool :=
  !websocket && caseEq e.1 (text "connection")

/-- The lines of the headers that are not skipped.  In the order of the map. -/
def headerLines (skips : Entry → Bool) (headers : MapType) : List Bytes :=
  (headers.entries.filter fun e => !skips e).map fun e => line e.1 e.2

end Http

open Http StringUtil

namespace HttpRequest

variable (r : HttpRequest)

/-- The lines that the request writes for its headers. -/
def headerLines : List Bytes := Http.headerLines (requestSkips r.websocket r.body) r.headers

/-- `HttpRequest::dump`; it throws when the method has no name.  The body is written behind the
head (`http.cc:183`). -/
def dump : Option Written :=
  r.method.toText.map fun method =>
    { start :=
        method ++ text " " ++ r.path ++ (if r.query.isEmpty then [] else text "?") ++ r.query ++
          (if r.fragment.isEmpty then [] else text "#") ++ r.fragment ++ text " " ++
          versionText r.version
      lines :=
        (if r.websocket then [] else [connectionLine r.close]) ++ r.headerLines ++
          (if r.body.isEmpty then [] else [lengthLine r.body])
      body := r.body }

end HttpRequest

namespace HttpResponse

variable (r : HttpResponse)

/-- The lines that the response writes for its headers. -/
def headerLines : List Bytes := Http.headerLines (responseSkips r.websocket) r.headers

/-- `HttpResponse::dump`; it throws when there is no reason and the status has no name.  The
lines of the cookies come before the connection line (`http.cc:344`). -/
def dump : Option Written :=
  (if r.reason.isEmpty then statusToText r.status else some r.reason).map fun reason =>
    { start := versionText r.version ++ text " " ++ decimal r.status ++ text " " ++ reason
      lines :=
        r.headerLines ++ r.cookies.map (line (text "Set-Cookie")) ++
          (if r.websocket then [] else [connectionLine r.close]) ++
          (if r.body.isEmpty then [] else [lengthLine r.body])
      body := r.body }

end HttpResponse

namespace Http

/-! ### The lines of the text -/

/-- The lines before the first empty one; `cur` is what was read of a line, backwards.  A reader
that has not met an empty line has all of them. -/
def headLines (cur : Bytes) : Bytes → List Bytes
  | [] => []
  | 13 :: 10 :: rest => if cur.isEmpty then [] else cur.reverse :: headLines [] rest
  | ch :: rest => headLines (ch :: cur) rest

/-- A character that is no CR belongs to the line. -/
theorem headLines_cons {ch : Byte} (h : ch ≠ 13) (cur rest : Bytes) :
    headLines cur (ch :: rest) = headLines (ch :: cur) rest := by
  rw [headLines]
  intro rest' heq
  exact absurd heq h

/-- A line without a CR is read up to its end. -/
theorem headLines_line {l : Bytes} (h : 13 ∉ l) (cur rest : Bytes) :
    headLines cur (l ++ crlf ++ rest) =
      if (l.reverse ++ cur).isEmpty then [] else (l.reverse ++ cur).reverse :: headLines [] rest := by
  induction l generalizing cur with
  | nil => rfl
  | cons ch l ih =>
      obtain ⟨hch, hl⟩ := List.ne_and_not_mem_of_not_mem_cons h
      rw [List.cons_append, List.cons_append, headLines_cons hch.symm, ih hl, List.reverse_cons,
        List.append_assoc, List.singleton_append]

/-- **The head of the text is the lines of it**, when no line is empty or has a CR.  So what is
said of the lines is said of the text. -/
theorem headLines_bytes (d : Written) (hstart : d.start ≠ [] ∧ 13 ∉ d.start)
    (hlines : ∀ l ∈ d.lines, l ≠ [] ∧ 13 ∉ l) : headLines [] d.bytes = d.start :: d.lines := by
  have hone : ∀ {l : Bytes} (rest : Bytes), l ≠ [] ∧ 13 ∉ l →
      headLines [] (l ++ crlf ++ rest) = l :: headLines [] rest := by
    intro l rest hl
    rw [headLines_line hl.2, List.append_nil, List.reverse_reverse, if_neg]
    simpa using hl.1
  have hrest : ∀ ls : List Bytes, (∀ l ∈ ls, l ≠ [] ∧ 13 ∉ l) →
      headLines [] (ls.flatMap (· ++ crlf) ++ (crlf ++ d.body)) = ls := by
    intro ls hls
    induction ls with
    | nil => rfl
    | cons l ls ih =>
        obtain ⟨hl, hls⟩ := List.forall_mem_cons.1 hls
        rw [List.flatMap_cons, List.append_assoc, hone _ hl, ih hls]
  rw [Written.bytes, List.append_assoc, List.append_assoc, hone _ hstart, hrest _ hlines]

/-! ### Framing -/

/-- The name of a line, which ends before the first colon, is this one.  The case of its letters
does not matter. -/
def isNamed (name : String) (l : Bytes) : Bool :=
  (l.takeWhile (· != 58)).map tolower == text name

/-- What stands behind the colon, without blanks around it.  A line without a colon has none. -/
def lineValue (l : Bytes) : Bytes := trim ((l.dropWhile (· != 58)).drop 1)

/-- The number of a value that is one.  It has digits and nothing else. -/
def lengthOf (v : Bytes) : Option ℕ :=
  if v.all isdigit && !v.isEmpty then some (readDecimal v) else none

/-- A `Transfer-Encoding: chunked` line.  As the parser compares it. -/
def isChunked (l : Bytes) : Bool :=
  isNamed "transfer-encoding" l && (lineValue l).map tolower == text "chunked"

/-- The head lines tell the length of the body once at most, truly, and not beside chunks; and
what becomes of the connection once, when it is no websocket.  It is what a reader needs to find
the end of the body. -/
structure Framed (lines : List Bytes) (body : Bytes) (websocket close : Bool) : Prop where
  once : (lines.filter (isNamed "content-length")).length ≤ 1
  true_length : ∀ l ∈ lines, isNamed "content-length" l → lengthOf (lineValue l) = some body.length
  not_chunked : ∀ l ∈ lines, ∀ l' ∈ lines, isNamed "content-length" l → isChunked l' = false
  connection : websocket = false →
    (lines.filter (isNamed "connection")).map lineValue = [closeText close]

/-- A header line is cut at the colon behind its name, when the name has none. -/
theorem takeWhile_line {name : Bytes} (h : 58 ∉ name) (value : Bytes) :
    (line name value).takeWhile (· != 58) = name ∧
      (line name value).dropWhile (· != 58) = text ": " ++ value := by
  have hname : ∀ ch ∈ name, (ch != 58) = true := fun ch hch => by
    have hne : ch ≠ 58 := fun h58 => h (h58 ▸ hch)
    simpa using hne
  have hsplit := dropWhile_append_cons hname (c := 58) rfl (32 :: value)
  have hline : line name value = name ++ 58 :: 32 :: value := List.append_assoc ..
  rw [hline]
  exact ⟨hsplit.2, hsplit.1⟩

/-- The name of a header line is its header's, in lower case. -/
theorem isNamed_line {name : Bytes} (h : 58 ∉ name) (name' : String) (value : Bytes) :
    isNamed name' (line name value) = (name.map tolower == text name') := by
  rw [isNamed, (takeWhile_line h value).1]

/-- Without blanks in front, none are trimmed. -/
theorem dropWhile_isBlank {s : Bytes} (h : ∀ ch ∈ s, isBlank ch = false) :
    s.dropWhile isBlank = s := by
  cases s with
  | nil => rfl
  | cons ch s =>
      have hch := h ch (List.mem_cons_self ..)
      exact List.dropWhile_cons_of_neg (by simp [hch])

/-- The order of the lines does not matter.  All is counted or said of each line. -/
theorem Framed.perm {ls ls' : List Bytes} {body : Bytes} {websocket close : Bool}
    (hperm : ls.Perm ls') (h : Framed ls body websocket close) : Framed ls' body websocket close where
  once := (hperm.filter _).length_eq ▸ h.once
  true_length l hl := h.true_length l (hperm.mem_iff.2 hl)
  not_chunked l hl l' hl' := h.not_chunked l (hperm.mem_iff.2 hl) l' (hperm.mem_iff.2 hl')
  connection hw :=
    List.perm_singleton.1 (h.connection hw ▸ ((hperm.filter _).map lineValue).symm)

/-- The lines that `dump` adds to the headers.  The connection line, the length line, and the
cookies. -/
def ownLines (websocket close : Bool) (body : Bytes) (cookies : List Bytes) : List Bytes :=
  (if websocket then [] else [connectionLine close]) ++
    (if body.isEmpty then [] else [lengthLine body]) ++ cookies.map (line (text "Set-Cookie"))

section

variable {websocket close : Bool} {body : Bytes} {cookies headers : List Bytes}

/-- Which lines these are. -/
theorem mem_ownLines {l : Bytes} :
    l ∈ ownLines websocket close body cookies ↔
      (websocket = false ∧ l = connectionLine close) ∨ (body ≠ [] ∧ l = lengthLine body) ∨
        ∃ c ∈ cookies, line (text "Set-Cookie") c = l := by
  rw [ownLines, List.mem_append, List.mem_append, List.mem_map, or_assoc]
  refine or_congr ?_ (or_congr ?_ Iff.rfl)
  · cases websocket <;> simp
  · cases body <;> simp

end

/-- And for the value: what stands behind that colon, without blanks around it. -/
def readValue (e : Entry) : Bytes :=
  trim (((e.1 ++ text ": " ++ e.2).dropWhile (· != 58)).drop 1)

section

variable {e : Entry} {name name' : String} {skips : Entry → Bool} {headers : MapType}

variable {leavesLength websocket : Bool} {body : Bytes}

end

end Http

end Hiper

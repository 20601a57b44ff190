import Hiper.Http.RequestRoundTrip
import Hiper.HttpParser.StatusLine

/-!
# A response that is written and read

What `HttpResponse::dump` writes, an `HttpResponseParser` reads to its last byte.  It does
not get all of it back: the reason is dropped, of several `Set-Cookie` lines the last one
is kept, and an empty body is not told by a line of its own, so that the parser waits for
the end of the connection and takes what follows for the body (`response_read_back`).
-/

namespace Hiper

namespace Http

open HttpParser StringUtil

/-- The value of the last line with this name. -/
def lastValue (fs : List Field) (name : Bytes) : Option Bytes :=
  (fs.reverse.find? fun f => decide (entryKey f = caseKey name)).map (·.2)

/-- **Lines that are set one after another**: the last one with a name counts. -/
theorem lookup_setAll (m : MapType) (fs : List Field) (name : Bytes) :
    (setAll m fs).lookup name = (lastValue fs name).or (m.lookup name) := by
  induction fs using List.reverseRec with
  | nil => rfl
  | append_singleton fs f ih =>
      have hset : setAll m (fs ++ [f]) = (setAll m fs).set f.1 f.2 := List.foldl_append
      rw [hset, MapType.lookup_set, ih, lastValue, lastValue, List.reverse_append, List.reverse_singleton,
        List.singleton_append, List.find?_cons]
      by_cases hkey : caseKey f.1 = caseKey name
      · rw [if_pos hkey, decide_eq_true (show entryKey f = caseKey name from hkey)]
        rfl
      · rw [if_neg hkey, decide_eq_false (show ¬entryKey f = caseKey name from hkey)]

end Http

open Http HttpParser StringUtil HttpRequest

namespace HttpResponse

variable (r : HttpResponse)

/-- The headers that `dump` does not skip. -/
def sent : List Entry := r.headers.entries.filter fun e => !responseSkips r.websocket e

/-- All header lines, with those that `dump` adds. -/
def fields : List Field :=
  r.sent ++ r.cookies.map (Prod.mk (text "Set-Cookie")) ++ [(text "connection", closeText r.close)] ++
    if r.body.isEmpty then [] else [(text "content-length", decimal r.body.length)]

/-- The head that is sent with this reason. -/
def head (reason : Bytes) : StatusHead :=
  ⟨(r.version >>> 4).toNat, (r.version &&& 0x0F).toNat, r.status, reason, r.fields⟩

/-- A response that can be sent: no websocket, and nothing in it that a parser would take
for something else. -/
structure Sendable (reason : Bytes) : Prop where
  plain : r.websocket = false
  reason_eq : (if r.reason.isEmpty then statusToText r.status else some r.reason) = some reason
  reason_line : CR ∉ reason ∧ LF ∉ reason
  version : (r.version >>> 4).toNat < 10 ∧ (r.version &&& 0x0F).toNat < 10
  status : r.status < 1000
  headers : IsFields r.sent
  cookies : ∀ cookie ∈ r.cookies, IsValue cookie
  length : (r.head reason).bytes.length ≤ maxHeaderSize
  body : r.body.length ≤ maxLength
  one_length : r.body ≠ [] → lengths r.sent = []
  no_body : r.body = [] → TellsLength r.sent none ∨ TellsLength r.sent (some 0)
  not_chunked : ¬Chunked r.sent
  no_upgrade : NoUpgrade r.sent

/-- The text tells where the body ends: there is a body, or a header says that there is
none, or the status does. -/
def Ends : Prop := r.body ≠ [] ∨ lengths r.sent ≠ [] ∨ r.status / 100 = 1 ∨ r.status = 204 ∨ r.status = 304

instance : Decidable r.Ends :=
  inferInstanceAs (Decidable (r.body ≠ [] ∨ lengths r.sent ≠ [] ∨ r.status / 100 = 1 ∨ r.status = 204 ∨
    r.status = 304))

variable {r} {reason : Bytes} {w : Written}

/-- **What `dump` writes** is the head and the body. -/
theorem bytes_dump (hs : r.Sendable reason) (hw : r.dump = some w) :
    w.bytes = (r.head reason).bytes ++ r.body := by
  rw [dump, hs.reason_eq, Option.map_some, Option.some.injEq] at hw
  subst hw
  have hlines : r.headerLines ++ r.cookies.map (line (text "Set-Cookie")) ++
      (if r.websocket then [] else [connectionLine r.close]) ++
      (if r.body.isEmpty then [] else [lengthLine r.body]) = r.fields.map fun f => line f.1 f.2 := by
    rw [fields, headerLines, Http.headerLines, ← sent, hs.plain]
    cases r.body <;> simp [connectionLine, lengthLine]
  have hblank : text " " = [32] := rfl
  have hcrlf : crlf = [CR, LF] := rfl
  have hhead : (r.head reason).bytes = versionText r.version ++ [32] ++ (decimal r.status ++ [32]) ++
      (reason ++ [CR, LF]) ++ (fieldLines r.fields ++ [CR, LF]) := rfl
  rw [Written.bytes, hlines, lines_text, hhead, hblank, hcrlf]
  simp only [List.append_assoc]

/-! ### The lines -/

theorem mem_fields {f : Field} : f ∈ r.fields ↔ f ∈ r.sent ∨ (∃ cookie ∈ r.cookies, f = (text "Set-Cookie", cookie)) ∨
    f = (text "connection", closeText r.close) ∨
      r.body ≠ [] ∧ f = (text "content-length", decimal r.body.length) := by
  rw [fields, List.mem_append, List.mem_append, List.mem_append, List.mem_map, List.mem_singleton,
    or_assoc, or_assoc]
  refine or_congr_right (or_congr ?_ (or_congr_right ?_))
  · exact exists_congr fun _ => and_congr_right fun _ => eq_comm
  · cases r.body <;> simp

theorem cookie_name : IsName (text "Set-Cookie") ∧ nameState (text "Set-Cookie") = .general := by
  decide +kernel

/-- The names of the lines: those of the headers, and three others. -/
theorem nameState_fields {f : Field} (hf : f ∈ r.fields) : f ∈ r.sent ∨ nameState f.1 = .general ∨
    nameState f.1 = .connection ∨ nameState f.1 = .contentLength := by
  rcases mem_fields.1 hf with hf | ⟨cookie, -, rfl⟩ | rfl | ⟨-, rfl⟩
  · exact Or.inl hf
  · exact Or.inr (Or.inl cookie_name.2)
  · exact Or.inr (Or.inr (Or.inl connection_name.2))
  · exact Or.inr (Or.inr (Or.inr length_name.2))

theorem isFields_fields (hs : r.Sendable reason) : IsFields r.fields := by
  intro f hf
  rcases mem_fields.1 hf with hf | ⟨cookie, hcookie, rfl⟩ | rfl | ⟨-, rfl⟩
  · exact hs.headers f hf
  · exact ⟨cookie_name.1, hs.cookies cookie hcookie⟩
  · exact ⟨connection_name.1, isValue_closeText _⟩
  · exact ⟨length_name.1, isValue_decimal _⟩

theorem fits_head (hs : r.Sendable reason) : (r.head reason).Fits :=
  ⟨hs.version.1, hs.version.2, hs.status, hs.reason_line, isFields_fields hs, hs.length⟩

theorem noUpgrade_fields (hs : r.Sendable reason) : NoUpgrade r.fields := by
  intro f hf hstate
  rcases nameState_fields hf with hf | h | h | h
  · exact hs.no_upgrade f hf hstate
  · cases h.symm.trans hstate
  · cases h.symm.trans hstate
  · cases h.symm.trans hstate

theorem not_chunked_fields (hs : r.Sendable reason) : ¬Chunked r.fields := by
  rintro ⟨f, hf, hstate, hchunked⟩
  rcases nameState_fields hf with hf | h | h | h
  · exact hs.not_chunked ⟨f, hf, hstate, hchunked⟩
  · cases h.symm.trans hstate
  · cases h.symm.trans hstate
  · cases h.symm.trans hstate

theorem lengths_fields : lengths r.fields =
    lengths r.sent ++ if r.body.isEmpty then [] else [decimal r.body.length] := by
  have hcookies : (r.cookies.map (Prod.mk (text "Set-Cookie"))).filter
      (fun f => nameState f.1 == .contentLength) = [] := by
    rw [List.filter_eq_nil_iff]
    intro f hf
    obtain ⟨cookie, -, rfl⟩ := List.mem_map.1 hf
    rw [cookie_name.2]
    decide
  rw [fields, lengths, List.filter_append, List.filter_append, List.filter_append, hcookies,
    List.filter_cons_of_neg (by rw [connection_name.2]; decide), List.filter_nil, List.append_nil,
    List.append_nil, List.map_append, ← lengths]
  refine congrArg _ ?_
  split_ifs
  · rfl
  · rw [List.filter_cons_of_pos (by rw [length_name.2]; rfl)]
    rfl

/-- **The head tells the length of the body**, or that there is none, or neither. -/
theorem framedBy_fields (hs : r.Sendable reason) :
    ∃ l, FramedBy r.fields l ∧ l.getD 0 = r.body.length ∧ (l = none ↔ r.body = [] ∧ lengths r.sent = []) := by
  have hone : ∀ l, TellsLength r.fields l → FramedBy r.fields l := fun l htells =>
    ⟨htells, fun hno => absurd hno (not_chunked_fields hs)⟩
  by_cases hbody : r.body = []
  · have hlengths : lengths r.fields = lengths r.sent := by
      rw [lengths_fields, hbody]
      exact List.append_nil _
    rw [hbody]
    rcases hs.no_body hbody with htells | htells
    · exact ⟨none, hone none (hlengths.trans htells), rfl, iff_of_true rfl ⟨rfl, htells⟩⟩
    · obtain ⟨v, hv, hzero⟩ := htells
      exact ⟨some 0, hone _ ⟨v, hlengths.trans hv, hzero⟩, rfl, iff_of_false nofun (by simp [hv])⟩
  · refine ⟨some r.body.length, hone _ ⟨decimal r.body.length, ?_, isLength_decimal hs.body⟩, rfl,
      iff_of_false nofun fun hno => hbody hno.1⟩
    rw [lengths_fields, hs.one_length hbody, List.isEmpty_eq_false_iff.2 hbody]
    rfl

/-! ### What the parser makes of it -/

/-- The response that the parser has, when `more` comes behind the text. -/
def received (r : HttpResponse) (more : Bytes) : HttpResponse :=
  { r with
    close := true, reason := [], cookies := [], body := r.body ++ more
    headers := setAll .empty r.fields }

theorem foldl_setHeader (fs : List Field) (r : HttpResponse) :
    fs.foldl (fun m f => responseCallbacks.setHeader m f.1 f.2) r =
      { r with headers := setAll r.headers fs } := by
  induction fs generalizing r with
  | nil => rfl
  | cons f fs ih => exact ih (r.setHeader f.1 f.2)

/-- **The head is read**, and the status, the version and the headers are there. -/
theorem reads_sent (hs : r.Sendable reason) :
    ∃ q s i f l, Sums (r.head reason).afterLine q r.fields l ∧ l.getD 0 = r.body.length ∧
      (l = none ↔ r.body = [] ∧ lengths r.sent = []) ∧ q.flags.chunked = false ∧
      Reader.reads responseCallbacks.settings (r.head reason).bytes
        ⟨HttpParser.init .response, none, HttpResponseParser.new.toSink⟩ =
          some ⟨{ q.afterHead with headerState := s, index := i }, none,
            { data := { r.received [] with body := [] }, finished := !q.bodyState.isSome, field := f }⟩ := by
  obtain ⟨l, hframed, hl, hnone⟩ := framedBy_fields hs
  obtain ⟨f, hf⟩ := MessageParser.hear_fields responseCallbacks r.fields
    { HttpResponseParser.new.toSink with data := { HttpResponse.new 0x11 true with status := r.status } }
  rw [foldl_setHeader] at hf
  obtain ⟨q, s, i, hsums, hreads⟩ := StatusHead.reads_head (h := r.head reason)
    (d := HttpResponseParser.new.toSink) (fits_head hs) hframed (noUpgrade_fields hs) rfl hf
  have hchunked : q.flags.chunked = false := by
    rw [Bool.eq_false_iff]
    intro hno
    rcases hsums.chunked.1 hno with hno | hno
    · cases hno
    · exact not_chunked_fields hs hno
  have hhead : q.head = ⟨.delete, (r.version >>> 4).toNat, (r.version &&& 0x0F).toNat, r.status⟩ := by
    rw [HttpParser.head, hsums.same]
    rfl
  have hversion := headVersion_halves .delete r.version r.status
  have hdata : onResponseHeadersComplete q.head
      { HttpResponse.new 0x11 true with status := r.status, headers := setAll .empty r.fields } =
        { r.received [] with body := [] } := by
    rw [onResponseHeadersComplete, hhead, hversion, received, HttpResponse.new, hs.plain]
  refine ⟨q, s, i, f, l, hsums, hl, hnone, hchunked, hreads.trans ?_⟩
  rw [← hdata]
  cases q.bodyState <;> rfl

/-- The message is over with its head, or there is a body, or whatever follows is one. -/
theorem state_of_sent {q : HttpParser} {l : Option ℕ} (hsums : Sums (r.head reason).afterLine q r.fields l)
    (hl : l.getD 0 = r.body.length) (hnone : l = none ↔ r.body = [] ∧ lengths r.sent = [])
    (hchunked : q.flags.chunked = false) :
    q.bodyState = (if r.body = [] then if r.Ends then none else some .bodyIdentityEof
      else some .bodyIdentity) := by
  have hbody := StatusHead.bodyState_of_sums hsums
  rw [hchunked, if_neg Bool.false_ne_true] at hbody
  rw [hbody]
  by_cases hempty : r.body = []
  · rw [if_pos hempty]
    cases l with
    | none =>
        obtain ⟨-, hlengths⟩ := hnone.1 rfl
        have hends : r.Ends ↔ (none = some 0 ∨ none = (none : Option ℕ) ∧ (r.head reason).Bodiless) := by
          rw [Ends, hempty, hlengths]
          simp [StatusHead.Bodiless, head]
        rw [if_pos (rfl : (none : Option ℕ) = none)]
        by_cases h : r.Ends
        · rw [if_pos (hends.1 h), if_pos h]
        · rw [if_neg (mt hends.2 h), if_neg h]
    | some n =>
        obtain rfl : n = 0 := by rw [hempty] at hl; exact hl
        have hends : r.Ends :=
          Or.inr (Or.inl fun hno => Option.some_ne_none 0 (hnone.2 ⟨hempty, hno⟩))
        rw [if_pos (Or.inl rfl), if_pos hends]
  · have hne : l.getD 0 ≠ 0 := by
      rw [hl]
      exact mt List.length_eq_zero_iff.1 hempty
    rw [if_neg hempty]
    cases l with
    | none => exact absurd rfl hne
    | some n => rw [if_neg (by simpa using hne), if_neg (by simp)]

/-- **The whole text is read**, and what follows a response that does not end. -/
theorem reads_response (hs : r.Sendable reason) {more : Bytes} (hmore : r.Ends → more = []) :
    ∃ r' f, Reader.reads responseCallbacks.settings ((r.head reason).bytes ++ (r.body ++ more))
        ⟨HttpParser.init .response, none, HttpResponseParser.new.toSink⟩ = some r' ∧
      r'.flush responseCallbacks.settings =
        some { data := r.received more, finished := decide r.Ends, field := f } ∧
      (¬r.Ends → r'.parser.state = .bodyIdentityEof) := by
  obtain ⟨q, s, i, f, l, hsums, hl, hnone, hchunked, hreads⟩ := reads_sent hs
  have hstate := state_of_sent hsums hl hnone hchunked
  rw [Reader.reads_of_append hreads]
  by_cases hempty : r.body = []
  · rw [if_pos hempty] at hstate
    rw [hempty, List.nil_append]
    by_cases hends : r.Ends
    · rw [if_pos hends] at hstate
      rw [hmore hends, hstate]
      refine ⟨_, f, rfl, ?_, fun hno => absurd hends hno⟩
      rw [decide_eq_true hends, received, hempty]
      rfl
    · rw [if_neg hends] at hstate
      obtain ⟨t', ht', hpending, hrest⟩ := reads_untilEof
        (p := { q.afterHead with headerState := s, index := i }) (by rw [afterHead, hstate]; rfl)
        (t := none) (fun _ _ h => by cases h) more responseCallbacks.settings
        { data := { r.received [] with body := [] }, finished := !q.bodyState.isSome, field := f }
      refine ⟨_, f, hrest, ?_, fun _ => by rw [afterHead, hstate]; rfl⟩
      rw [hstate, decide_eq_false hends, received, received, hempty]
      change pending t' = more at hpending
      cases t' with
      | none =>
          rw [← hpending]
          rfl
      | some x =>
          obtain ⟨k, bs⟩ := x
          obtain rfl := ht' k bs rfl
          rw [← hpending]
          rfl
  · have hends : r.Ends := Or.inl hempty
    rw [if_neg hempty] at hstate
    rw [hmore hends, List.append_nil]
    have happend : responseCallbacks.settings.onData .body r.body
        { data := { r.received [] with body := [] }, finished := !q.bodyState.isSome, field := f } =
          some { data := r.received [], finished := !q.bodyState.isSome, field := f } := by
      rw [received, List.append_nil]
      rfl
    have hlast := HttpParser.reads_body (p := { q.afterHead with headerState := s, index := i })
      (by rw [afterHead, hstate]; rfl) rfl
      (by
        have hne : l ≠ none := fun hno => hempty (hnone.1 hno).1
        obtain ⟨n, rfl⟩ := Option.ne_none_iff_exists'.1 hne
        rw [afterHead, hsums.same]
        exact hl) hempty happend
    refine ⟨_, f, hlast, ?_, fun hno => absurd hends hno⟩
    rw [decide_eq_true hends]
    rfl

/-! ### The round trip -/

/-- **A response is read back.**  The parser takes the whole text, and has the status, the
version and the body, of each header the last line, and neither the reason nor the
cookies.  It is finished exactly when the text tells where the body ends; otherwise
whatever follows is taken for the body, and only the end of the connection finishes it. -/
theorem response_read_back (hs : r.Sendable reason) (hw : r.dump = some w) {more : Bytes}
    (hmore : r.Ends → more = []) : ∃ x : HttpResponseParser,
    HttpResponseParser.new.execute (w.bytes ++ more) = (x, (w.bytes ++ more).length) ∧
    x.hasError = false ∧ (x.finished = true ↔ r.Ends) ∧
    x.data = { r with
      close := true, reason := [], cookies := [], body := r.body ++ more, headers := x.data.headers } ∧
    (∀ name, x.data.headers.lookup name = lastValue r.fields name) ∧
    (¬r.Ends → ∃ y : HttpResponseParser, x.execute [] = (y, 0) ∧ y.hasError = false ∧
      y.finished = true ∧ y.data = x.data) := by
  obtain ⟨r', f, hreads, hflush, hstate⟩ := reads_response hs hmore
  rw [← List.append_assoc, ← bytes_dump hs hw] at hreads
  have hne : w.bytes ++ more ≠ [] := by
    rw [bytes_dump hs hw, StatusHead.bytes]
    simp
  refine ⟨_, MessageParser.executeWith_of_reads hne hreads hflush rfl, rfl, decide_eq_true_iff, rfl,
    fun name => ?_, fun hends => ?_⟩
  · exact (lookup_setAll .empty r.fields name).trans (Option.or_none ..)
  · refine ⟨⟨⟨r.received more, true, f⟩, r'.parser, none, none⟩, ?_, rfl, rfl, rfl⟩
    rw [HttpResponseParser.execute, MessageParser.executeWith, HttpParser.execute]
    dsimp only
    rw [if_neg (by decide), if_pos rfl, hstate hends]
    rfl

/-- Two cookies and no body. -/
def greeting : HttpResponse :=
  { (new 0x11 false).setHeader (text "Server") (text "h") with
    cookies := [text "a=1", text "b=2"] }

/-- It can be sent, with the phrase of the table. -/
theorem greeting_sendable : greeting.Sendable (text "OK") := by
  have hnames : ∀ e ∈ greeting.sent, nameState e.1 = .general := by decide +kernel
  have hcookies : IsFields (greeting.cookies.map (Prod.mk (text "Set-Cookie"))) :=
    isFields_iff.2 (by decide +kernel)
  have hlengths : lengths greeting.sent = [] := by decide +kernel
  exact
    { plain := rfl
      reason_eq := by decide +kernel
      reason_line := by decide +kernel
      version := by decide +kernel
      status := by decide +kernel
      headers := isFields_iff.2 (by decide +kernel)
      cookies := fun cookie hcookie => (hcookies _ (List.mem_map_of_mem hcookie)).2
      length := by decide +kernel
      body := by decide +kernel
      one_length := fun _ => hlengths
      no_body := fun _ => Or.inl hlengths
      not_chunked := by
        rintro ⟨e, he, hstate, -⟩
        cases (hnames e he).symm.trans hstate
      no_upgrade := fun e he hstate => by cases (hnames e he).symm.trans hstate }

/-- The next response on the connection is taken for its body. -/
theorem greeting_read_back : ∃ w, greeting.dump = some w ∧ ∃ x : HttpResponseParser,
    HttpResponseParser.new.execute (w.bytes ++ w.bytes) = (x, (w.bytes ++ w.bytes).length) ∧
    x.hasError = false ∧ (x.finished = true ↔ greeting.Ends) ∧
    x.data = { greeting with
      close := true, reason := [], cookies := [], body := greeting.body ++ w.bytes,
      headers := x.data.headers } ∧
    (∀ name, x.data.headers.lookup name = lastValue greeting.fields name) ∧
    (¬greeting.Ends → ∃ y : HttpResponseParser, x.execute [] = (y, 0) ∧ y.hasError = false ∧
      y.finished = true ∧ y.data = x.data) :=
  ⟨_, rfl, response_read_back greeting_sendable rfl fun hends => absurd hends (by decide +kernel)⟩

end HttpResponse

end Hiper

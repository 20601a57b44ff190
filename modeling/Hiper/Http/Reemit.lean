import Hiper.Http.Dump
import Hiper.Http.Parser
import Hiper.HttpParser.Head

/-!
# A received response, written again

`on_response_status_cb` gets the reason phrase and keeps the code only, so `dump` looks the
phrase up in the table, and throws where there is none: a response is written as it was
received exactly when its phrase is the one of the table (`reemit_iff`).

The callback is `src/hiper/http/http_parser.cc:334`, the status line is written by
`src/hiper/http/http.cc:344`.  A response that comes from a socket is run through
`HttpResponseParser::execute` byte by byte, first the version and the code, then the reason
and the lines; the code is stored by this callback and once more at the end of the head, the
reason nowhere (`reason_kept`).
-/

namespace Hiper

namespace Http

open StringUtil HttpParser

/-- A digit, as text.  For `n` below 10. -/
def digit (n : ℕ) : Byte := UInt8.ofNat (48 + n)

/-- A number below 1000, in three digits. -/
def codeText (code : ℕ) : Bytes := [digit (code / 100), digit (code / 10 % 10), digit (code % 10)]

/-- The head of a response: a version, a code, a reason, and header lines.  The lines are any
bytes that the parser accepts. -/
structure ResponseHead where
  minor : ℕ
  code : ℕ
  reason : Bytes
  headers : List Bytes
  minor_le : minor ≤ 1
  code_lt : code < 1000
  reason_line : CR ∉ reason ∧ LF ∉ reason
  header_lines : ∀ l ∈ headers, l ≠ [] ∧ CR ∉ l ∧ LF ∉ l

namespace ResponseHead

variable (h : ResponseHead)

/-- `HTTP/1.x code reason`. -/
def statusLine : Bytes :=
  text "HTTP/1." ++ [digit h.minor] ++ text " " ++ codeText h.code ++ text " " ++ h.reason

/-- The text of the head, with the empty line. -/
def bytes : Bytes := h.statusLine ++ crlf ++ h.headers.flatMap (· ++ crlf) ++ crlf

/-- The response after a call of `HttpResponseParser::execute`.  It is a first call, on the
whole head. -/
def received : HttpResponseParser := (HttpResponseParser.new.execute h.bytes).1

/-- `toString()` throws nothing and begins with the status line that was received.  What follows
the status line is another matter. -/
def Reemits : Prop := ∃ d, h.received.data.dump = some d ∧ d.start = h.statusLine

/-- What `on_headers_complete` reads.  The version and the code, as numbers. -/
def head : Head := ⟨.delete, 1, h.minor, h.code⟩

end ResponseHead

/-! ### The first line -/

/-- The parser behind the version.  It waits for the code. -/
def afterVersion (minor : ℕ) : HttpParser :=
  { HttpParser.init .response with
    state := .resFirstStatusCode, flags := .none, contentLength := ullongMax, httpMajor := 1,
    httpMinor := minor, nread := 9 }

/-- The parser behind the code.  The reason comes next. -/
def afterCode (minor code : ℕ) : HttpParser :=
  { afterVersion minor with state := .resStatusStart, statusCode := code, nread := 13 }

variable {data rest : Bytes} {d : Sink HttpResponse}

/-- The loop on the version: nothing is reported, and the parser is `afterVersion`. -/
theorem loop_version {minor : ℕ} (hminor : minor ≤ 1) :
    loop responseCallbacks.settings data (text "HTTP/1." ++ [digit minor] ++ text " " ++ rest) 0
        (HttpParser.init .response) none d =
      loop responseCallbacks.settings data rest 9 (afterVersion minor) none d := by
  interval_cases minor <;> rfl

/-- A byte that is no error and ends nothing takes the loop one byte on. -/
theorem loop_next {st : Settings (Sink HttpResponse)} {p q : HttpParser} {ch : Byte} {pos : ℕ}
    (h : p.step ch = HttpParser.next q) :
    loop st data (ch :: rest) pos p none d = loop st data rest (pos + 1) q none d := by
  rw [loop, h]
  rfl

/-- The first digit of the code starts its number. -/
theorem step_firstDigit {n : ℕ} (hn : n < 10) (minor : ℕ) :
    (afterVersion minor).step (digit n) =
      HttpParser.next { afterVersion minor with state := .resStatusCode, statusCode := n, nread := 10 } := by
  obtain ⟨hdigit, hvalue⟩ := digit_of_lt hn
  have hnum : isNum (digit n) = true := hdigit
  have honByte : ∀ p : HttpParser, p.state = .resFirstStatusCode → p.onByte (digit n) =
      HttpParser.next { p with state := .resStatusCode, statusCode := n } := by
    intro p hp
    rw [onByte, hp]
    dsimp only
    rw [onResFirstStatusCode, hnum]
    simp only [Bool.not_true, Bool.false_eq_true, if_false]
    rw [show (digit n).toNat - 48 = n from hvalue]
    rfl
  exact honByte { afterVersion minor with nread := 10 } rfl

/-- A further digit of the code.  It is multiplied in, and the number stays below 1000. -/
theorem step_digit {n code nread : ℕ} (hn : n < 10) (hcode : code * 10 + n < 1000) (minor : ℕ)
    (hnread : nread < 20) :
    ({ afterVersion minor with state := .resStatusCode, statusCode := code, nread := nread } :
        HttpParser).step (digit n) =
      HttpParser.next { afterVersion minor with
        state := .resStatusCode, statusCode := code * 10 + n, nread := nread + 1 } := by
  obtain ⟨hdigit, hvalue⟩ := digit_of_lt hn
  have hnum : isNum (digit n) = true := hdigit
  have hmax : ¬maxHeaderSize < nread + 1 := by
    rw [maxHeaderSize]
    omega
  have hcode' : ¬999 < code * 10 + n := by omega
  have hvalue' : (digit n).toNat - 48 = n := hvalue
  simp only [step, State.parsingHeader, if_true, hmax, if_false, onByte, onResStatusCode, hnum,
    Bool.not_true, Bool.false_eq_true, hvalue', hcode']

/-- The three digits of the code and the blank behind them.  After them the parser is
`afterCode`. -/
theorem loop_code {code : ℕ} (hcode : code < 1000) (minor : ℕ) :
    loop responseCallbacks.settings data (codeText code ++ text " " ++ rest) 9 (afterVersion minor)
        none d =
      loop responseCallbacks.settings data rest 13 (afterCode minor code) none d := by
  have hvalue : (code / 100 * 10 + code / 10 % 10) * 10 + code % 10 = code := by omega
  have hblank : ({ afterVersion minor with state := .resStatusCode, statusCode := code, nread := 12 } :
      HttpParser).step 32 = HttpParser.next (afterCode minor code) := rfl
  have htext : codeText code ++ text " " ++ rest =
      digit (code / 100) :: digit (code / 10 % 10) :: digit (code % 10) :: 32 :: rest := rfl
  rw [htext, loop_next (step_firstDigit (by omega) minor),
    loop_next (step_digit (by omega) (by omega) minor (by omega)),
    loop_next (step_digit (by omega) (by omega) minor (by omega)), hvalue, loop_next hblank]

/-! ### What the callbacks keep -/

/-- What no callback changes.  It is stated of a function of the data. -/
theorem notify_keeps {δ γ : Type*} {st : Settings δ} (f : δ → γ)
    (hdata : ∀ k buf d d', st.onData k buf d = some d' → f d' = f d)
    (hnote : ∀ n d, f (st.onNotify n d) = f d) (data : Bytes) (rs : List Rep) (d : δ) :
    f (st.notify data rs d).1 = f d := by
  induction rs generalizing d with
  | nil => rfl
  | cons r rs ih =>
      cases r with
      | note n => exact (ih _).trans (hnote n d)
      | text k a b =>
          rw [Settings.notify]
          cases hone : st.onData k (slice data a b) d with
          | none => rfl
          | some d' => exact (ih d').trans (hdata _ _ _ _ hone)

/-- What no callback changes is the same after the loop.  The induction is over the bytes. -/
theorem loop_keeps {δ γ : Type*} {st : Settings δ} (f : δ → γ)
    (hdata : ∀ k buf d d', st.onData k buf d = some d' → f d' = f d)
    (hnote : ∀ n d, f (st.onNotify n d) = f d) (data bs : Bytes) (pos : ℕ) (p : HttpParser)
    (m : Option (DataCb × ℕ)) (d : δ) : f (loop st data bs pos p m d).data = f d := by
  induction bs generalizing pos p m d with
  | nil => exact notify_keeps f hdata hnote ..
  | cons ch bs ih =>
      have hone := notify_keeps f hdata hnote data
        (Lib.Scanner.applyAll pos (p.step ch).evs m).1 d
      rw [loop]
      generalize st.notify data (Lib.Scanner.applyAll pos (p.step ch).evs m).1 d = due at hone ⊢
      obtain ⟨d', _ | e⟩ := due
      · cases (p.step ch).out with
        | next q => exact (ih ..).trans hone
        | exit q => exact hone
        | error e q => exact hone
      · exact hone

/-- The reason is never stored.  Of all callbacks, `on_response_status_cb` alone gets it. -/
theorem reason_kept (bs : Bytes) (pos : ℕ) (p : HttpParser) (m : Option (DataCb × ℕ)) :
    (loop responseCallbacks.settings data bs pos p m d).data.data.reason = d.data.reason := by
  refine loop_keeps (fun s : Sink HttpResponse => s.data.reason) ?_ ?_ data bs pos p m d
  · intro k buf s s' hs
    cases k <;> cases hs <;> rfl
  · intro n s
    cases n <;> rfl

/-- The status and the version that `on_headers_complete` stores.  `dump` reads both of them. -/
def Stores (hd : Head) (s : Sink HttpResponse) : Prop :=
  s.data.status = hd.statusCode ∧ s.data.version = headVersion hd

/-- What is reported behind the end of the head leaves them. -/
theorem stores_afterHead {hd : Head} {rs : List Rep} (hrs : ∀ r ∈ rs, AfterHead hd r)
    (hd' : Stores hd d) : Stores hd (responseCallbacks.settings.notify data rs d).1 := by
  induction rs generalizing d with
  | nil => exact hd'
  | cons r rs ih =>
      obtain ⟨hr, hrest⟩ := List.forall_mem_cons.1 hrs
      rcases hr with ⟨k, a, b, rfl | rfl | rfl, rfl⟩ | rfl
      · exact ih hrest ⟨rfl, hd'.2⟩
      · exact ih hrest hd'
      · exact ih hrest hd'
      · exact ih hrest hd'

/-! ### The head that was received -/

namespace ResponseHead

variable (h : ResponseHead)

/-- Behind the code the parser is where the head may go on. -/
theorem at_afterCode : (afterCode h.minor h.code).At h.head .statusStart :=
  ⟨List.mem_singleton_self _, rfl, rfl⟩

/-- The bytes behind the code, up to the last one, go through the head.  The last byte ends the
head. -/
theorem run_rest :
    Place.run (h.reason ++ crlf ++ h.headers.flatMap (· ++ crlf) ++ [CR]) .statusStart =
      some .last := by
  have hreason : Place.run (h.reason ++ crlf) .statusStart = some .start :=
    Place.run_reason h.reason_line
  have hheaders : Place.run (h.headers.flatMap (· ++ crlf)) .start = some .start :=
    Place.run_headers h.header_lines
  rw [Place.run_append, Place.run_append, hreason, Option.bind_some, hheaders]
  rfl

/-- The text of the head, cut behind the code and before its last byte. -/
theorem bytes_eq :
    h.bytes = text "HTTP/1." ++ [digit h.minor] ++ text " " ++ (codeText h.code ++ text " " ++
      (h.reason ++ crlf ++ h.headers.flatMap (· ++ crlf) ++ [CR] ++ [LF])) := by
  have hcrlf : crlf = [CR] ++ [LF] := rfl
  rw [bytes, statusLine]
  conv_lhs => rw [hcrlf]
  simp only [List.append_assoc, hcrlf]

/-- What the loop leaves, when it reads the head without an error.  The head was reported, since
its last byte was read. -/
theorem stores_loop {s : Sink HttpResponse}
    (hok : (loop responseCallbacks.settings data h.bytes 0 (HttpParser.init .response) none s).httpErrno =
      none) :
    Stores h.head
      (loop responseCallbacks.settings data h.bytes 0 (HttpParser.init .response) none s).data := by
  rw [bytes_eq, loop_version h.minor_le, loop_code h.code_lt] at hok ⊢
  obtain ⟨q, m, s', hq, hm, heq⟩ := loop_run h.run_rest h.at_afterCode markFits_none hok
  rw [heq] at hok ⊢
  obtain ⟨rs, hrs, hdata⟩ := loop_last hq hm hok
  rw [hdata]
  exact stores_afterHead (d := { s' with data := onResponseHeadersComplete h.head s'.data }) hrs
    ⟨rfl, rfl⟩

/-- What is stored of a head that was accepted.  The reason is empty, as in a new response. -/
theorem stores_received (hok : h.received.hasError = false) :
    Stores h.head h.received.toSink ∧ h.received.data.reason = [] := by
  have hne : h.bytes ≠ [] := by
    rw [bytes_eq]
    exact List.append_ne_nil_of_left_ne_nil (by simp) _
  have hexec : (HttpParser.init .response).execute responseCallbacks.settings none h.bytes
      HttpResponseParser.new.toSink =
        loop responseCallbacks.settings h.bytes h.bytes 0 (HttpParser.init .response) none
          HttpResponseParser.new.toSink := by
    simp only [HttpParser.execute, Option.isSome_none, Bool.false_eq_true, if_false, if_neg hne]
    rfl
  have hsink : h.received.toSink =
      (loop responseCallbacks.settings h.bytes h.bytes 0 (HttpParser.init .response) none
        HttpResponseParser.new.toSink).data := congrArg Result.data hexec
  have herrno : (loop responseCallbacks.settings h.bytes h.bytes 0 (HttpParser.init .response) none
      HttpResponseParser.new.toSink).httpErrno = none := by
    rw [← hexec]
    simpa [received, HttpResponseParser.execute, MessageParser.executeWith, MessageParser.hasError,
      HttpResponseParser.errorOf, HttpResponseParser.new, MessageParser.new] using hok
  rw [hsink]
  exact ⟨h.stores_loop herrno, reason_kept h.bytes 0 (HttpParser.init .response) none⟩

/-! ### The status line that is written -/

/-- The version is written as it was received. -/
theorem versionText_head : versionText (headVersion h.head) = text "HTTP/1." ++ [digit h.minor] := by
  have hversion : ∀ minor ≤ 1, versionText (headVersion ⟨.delete, 1, minor, h.code⟩) =
      text "HTTP/1." ++ [digit minor] := by
    intro minor hminor
    have hcode : headVersion ⟨.delete, 1, minor, h.code⟩ = headVersion ⟨.delete, 1, minor, 0⟩ := rfl
    rw [hcode]
    interval_cases minor <;> decide +kernel
  exact hversion h.minor h.minor_le

end ResponseHead

/-- A code of three digits is written as it was received. -/
theorem decimal_eq_codeText {code : ℕ} (h : 100 ≤ code) (hlt : code < 1000) :
    decimal code = codeText code := by
  rw [decimal, if_neg (by omega), decimal, if_neg (by omega), decimal, if_pos (by omega), codeText,
    Nat.div_div_eq_div_mul]
  rfl

/-- **Received responses, written again.**  An accepted head is written with the status line it
was received with exactly when its reason is the one of the table.  Whether the head is accepted
is the parser's affair: the status line is any of HTTP/1.0 and HTTP/1.1 with a code of three
digits, the reason and the lines are any that leave no error.  A code that is in no table makes
`HttpStatusToString` throw, so that nothing is written.  `on_response_status_cb`
(`src/hiper/http/http_parser.cc:334`) keeps no reason, so `HttpResponse::dump`
(`http.cc:344-348`) asks `HttpStatusToString` (49) for one. -/
theorem reemit_iff (h : ResponseHead) (hok : h.received.hasError = false) :
    h.Reemits ↔ statusToText h.code = some h.reason := by
  obtain ⟨⟨hstatus, hversion⟩, hreason⟩ := h.stores_received hok
  have hstatus : h.received.data.status = h.code := hstatus
  have hdump : ∀ d, h.received.data.dump = some d → ∃ reason, statusToText h.code = some reason ∧
      d.start = text "HTTP/1." ++ [digit h.minor] ++ text " " ++ codeText h.code ++ text " " ++ reason := by
    intro d hd
    rw [HttpResponse.dump, hreason, List.isEmpty_nil, if_pos rfl, Option.map_eq_some_iff, hstatus] at hd
    obtain ⟨reason, hname, rfl⟩ := hd
    refine ⟨reason, hname, ?_⟩
    dsimp only
    rw [hversion, h.versionText_head,
      decimal_eq_codeText (statusToText_plain hname).1 h.code_lt]
  constructor
  · rintro ⟨d, hd, hstart⟩
    obtain ⟨reason, hname, hline⟩ := hdump d hd
    have hsame := List.append_cancel_left (hline.symm.trans hstart)
    rw [hname, hsame]
  · intro hname
    have hsome : h.received.data.dump.isSome := by
      rw [HttpResponse.dump, hreason, List.isEmpty_nil, if_pos rfl, hstatus, hname]
      rfl
    obtain ⟨d, hd⟩ := Option.isSome_iff_exists.1 hsome
    obtain ⟨reason, hname', hline⟩ := hdump d hd
    rw [hname, Option.some.injEq] at hname'
    exact ⟨d, hd, by rw [hline, ← hname']; rfl⟩

/-- `299 Odd`, which is in no table, and `200 Fine`, which is not the phrase of the table. -/
def oddHead : ResponseHead :=
  ⟨1, 299, text "Odd", [text "Content-Length: 0"], by decide, by decide, by decide, by decide⟩

/-- A code of the table with a phrase that is not. -/
def fineHead : ResponseHead :=
  ⟨1, 200, text "Fine", [text "Content-Length: 0"], by decide, by decide, by decide, by decide⟩

/-- Both are accepted; of the first nothing is written, of the second `HTTP/1.1 200 OK`. -/
theorem reasons_not_reemitted :
    oddHead.received.hasError = false ∧ oddHead.received.data.dump = none ∧
      fineHead.received.hasError = false ∧
      fineHead.received.data.dump.map (·.start) = some (text "HTTP/1.1 200 OK") := by
  decide +kernel

/-- A code of the table with its phrase. -/
def foundHead : ResponseHead :=
  ⟨0, 302, text "Found", [text "Location: /", text "X: "], by decide, by decide, by decide, by decide⟩

/-- It is written as it was received. -/
theorem reemit_found : foundHead.Reemits := (reemit_iff foundHead (by decide +kernel)).2 rfl

end Http

end Hiper

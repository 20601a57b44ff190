import Hiper.HttpParser.Step
import Hiper.Lib.Segmentation

/-!
# What the callbacks of one message look like

Two facts about every byte.  The marks are set and left as the start of a call expects
(`scanner_lawful`): in the states of a URL, a status, a header name and a header value, and
in no other, a mark is set, and a body is marked at each byte.  And a message comes in three
parts, its first line, its head and the rest (`parts_of_step`): the URL or the status ends
the first, `on_headers_complete` the second, and `on_message_complete` the last; `upgrade`
changes with the second only.

The states are those of the whole `switch` of `http_parser_execute`
(`src/hiper/http/http-parser/http_parser.cc:714`).  One lemma is for one `case`, named after
its function in `Step`; all of them say that the events of the byte go by the law from the
view before to the view behind it.  What the view does not show, the matching of names and
the counts, is free.
-/

namespace Hiper

namespace HttpParser

open Lib.Scanner

variable {p p' : HttpParser} {ch : Byte} {es : List Ev}

/-! ### Steps -/

/-- The step gives these events and this parser, unless it fails.  `fail` gives nothing. -/
def Step.All (Q : List Ev → HttpParser → Prop) (st : Step) : Prop :=
  match st.out with
  | .next p | .exit p => Q st.evs p
  | .error _ _ => True

variable {Q R : List Ev → HttpParser → Prop} {st : Step}

/-- A step without events. -/
@[simp] theorem all_next : (next p).All Q ↔ Q [] p := Iff.rfl

/-- A step that fails. -/
@[simp] theorem all_fail (e : Errno) : (fail p e).All Q := trivial

/-- Events that come before those of a step. -/
@[simp] theorem all_after (evs : List Ev) :
    (st.after evs).All Q ↔ st.All fun es p => Q (evs ++ es) p := by
  obtain ⟨es, out⟩ := st
  cases out <;> exact Iff.rfl

/-- The end of a message. -/
@[simp] theorem all_complete :
    p.complete.All Q ↔ Q [.note .messageComplete] (p.goto p.newMessage) := Iff.rfl

/-- The end of a message that makes the parser return. -/
@[simp] theorem all_completeExit :
    p.completeExit.All Q ↔ Q [.note .messageComplete] (p.goto p.newMessage) := Iff.rfl

/-- What follows from the events and the parser holds as well. -/
theorem Step.All.imp (h : st.All Q) (hQR : ∀ es p, Q es p → R es p) : st.All R := by
  obtain ⟨es, out⟩ := st
  cases out with
  | next p => exact hQR es p h
  | exit p => exact hQR es p h
  | error e p => trivial

/-! ### Parts of a message -/

/-- The parts of a message.  The first line, the other lines and the body. -/
inductive Part
  | line
  | head
  | rest
  deriving DecidableEq, Repr

/-- The part that goes on after an event.  None, where the event belongs to another part. -/
def Part.after : Part → Ev → Option Part
  | line, .note .messageBegin => some line
  | line, .mark .url | line, .mark (.status _) => some line
  | line, .data .url | line, .data (.status _) => some head
  | head, .mark .headerField | head, .mark .headerValue => some head
  | head, .data .headerField | head, .data .headerValue => some head
  | head, .note (.headersComplete _) => some rest
  | rest, .mark .headerField | rest, .mark .headerValue | rest, .mark .body => some rest
  | rest, .data .headerField | rest, .data .headerValue | rest, .data .body => some rest
  | rest, .through .body => some rest
  | rest, .note .chunkHeader | rest, .note .chunkComplete => some rest
  | rest, .note .messageComplete => some line
  | _, _ => none

/-- The part behind some events. -/
def Part.afterAll : List Ev → Part → Option Part
  | [], π => some π
  | e :: es, π => (π.after e).bind (afterAll es)

/-- The part that a state is in, when trailing headers are read or not.  The lines behind the
last chunk belong to the body. -/
def State.part (trailing : Bool) : State → Part
  | dead | startRes | resH | resHT | resHTT | resHTTP | resHttpMajor | resHttpDot | resHttpMinor
  | resHttpEnd | resFirstStatusCode | resStatusCode | resStatusStart | resStatus | startReq
  | reqMethod | reqSpacesBeforeUrl | reqSchema | reqSchemaSlash | reqSchemaSlashSlash
  | reqServerStart | reqServer | reqServerWithAt | reqPath | reqQueryStringStart | reqQueryString
  | reqFragmentStart | reqFragment => .line
  | resLineAlmostDone | reqHttpStart | reqHttpH | reqHttpHT | reqHttpHTT | reqHttpHTTP | reqHttpI
  | reqHttpIC | reqHttpMajor | reqHttpDot | reqHttpMinor | reqHttpEnd | reqLineAlmostDone => .head
  | headerFieldStart | headerField | headerValueDiscardWs | headerValueDiscardWsAlmostDone
  | headerValueDiscardLws | headerValueStart | headerValue | headerValueLws | headerAlmostDone
  | headersAlmostDone => if trailing then .rest else .head
  | _ => .rest

/-- A state in which the flags are those of a message that has begun and has no body yet.  The
states of the first line. -/
def State.plain : State → Bool
  | resH | resHT | resHTT | resHTTP | resHttpMajor | resHttpDot | resHttpMinor | resHttpEnd
  | resFirstStatusCode | resStatusCode | resStatusStart | resStatus | reqMethod
  | reqSpacesBeforeUrl | reqSchema | reqSchemaSlash | reqSchemaSlashSlash | reqServerStart
  | reqServer | reqServerWithAt | reqPath | reqQueryStringStart | reqQueryString
  | reqFragmentStart | reqFragment | resLineAlmostDone | reqHttpStart | reqHttpH | reqHttpHT
  | reqHttpHTT | reqHttpHTTP | reqHttpI | reqHttpIC | reqHttpMajor | reqHttpDot | reqHttpMinor
  | reqHttpEnd | reqLineAlmostDone => true
  | _ => false

/-- What the marks and the part depend on.  The state, two flags and the code. -/
structure View where
  state : State
  trailing : Bool
  upgrade : Bool
  code : ℕ

/-- What is seen of a parser. -/
def view (p : HttpParser) : View := ⟨p.state, p.flags.trailing, p.upgrade, p.statusCode⟩

namespace View

/-- The same in another state. -/
def at' (v : View) (s : State) : View := { v with state := s }

/-- The text whose mark is set at the start of a call. -/
def reopen (v : View) : Option DataCb :=
  match v.state with
  | .headerField => some .headerField
  | .headerValue => some .headerValue
  | .reqPath | .reqSchema | .reqSchemaSlash | .reqSchemaSlashSlash | .reqServerStart | .reqServer
  | .reqServerWithAt | .reqQueryStringStart | .reqQueryString | .reqFragmentStart
  | .reqFragment => some .url
  | .resStatus => some (.status v.code)
  | _ => none

/-- The text that is marked anew at each byte. -/
def loose (v : View) : Option DataCb :=
  match v.state with
  | .chunkData | .chunkDataAlmostDone | .bodyIdentity | .bodyIdentityEof => some .body
  | _ => none

/-- The part that the parser is in. -/
def part (v : View) : Part := v.state.part v.trailing

/-- No trailing headers before there is a body.  It is an invariant. -/
def tidy (v : View) : Bool := !(v.state.plain && v.trailing)

/-- What a byte does to the part and to `upgrade`.  Outside a body it says nothing of the marks. -/
structure Parts (v : View) (es : List Ev) (v' : View) : Prop where
  part : Part.afterAll es v.part = some v'.part
  tidy : v'.tidy = true
  upgrade : v'.upgrade = v.upgrade ∨ ∃ h, .note (.headersComplete h) ∈ es

/-- The same, and the marks, outside a body.  It is the law that the scanner asks for. -/
structure Follows (v : View) (es : List Ev) (v' : View) : Prop extends Parts v es v' where
  marks : scanner.legal es v.reopen = some v'.reopen

end View

open View

variable {v v₁ v₂ : View} {s' : State} {t u : Bool} {c : ℕ} {es' : List Ev}

/-- The part behind some events, and behind more. -/
theorem Part.afterAll_append (es es' : List Ev) (π : Part) :
    afterAll (es ++ es') π = (afterAll es π).bind (afterAll es') := by
  induction es generalizing π with
  | nil => rfl
  | cons e es ih =>
      rw [List.cons_append, afterAll, afterAll, Option.bind_assoc]
      exact congrArg _ (funext fun π' => ih π')

/-- One change of the parts after another. -/
theorem View.Parts.trans (h₁ : v.Parts es v₁) (h₂ : v₁.Parts es' v₂) : v.Parts (es ++ es') v₂ := by
  refine ⟨?_, h₂.tidy, ?_⟩
  · rw [Part.afterAll_append, h₁.part, Option.bind_some, h₂.part]
  · rcases h₁.upgrade with h | ⟨hd, h⟩
    · rcases h₂.upgrade with h' | ⟨hd, h'⟩
      · exact Or.inl (h'.trans h)
      · exact Or.inr ⟨hd, List.mem_append_right _ h'⟩
    · exact Or.inr ⟨hd, List.mem_append_left _ h⟩

/-- One change by the law after another. -/
theorem View.Follows.trans (h₁ : v.Follows es v₁) (h₂ : v₁.Follows es' v₂) :
    v.Follows (es ++ es') v₂ :=
  ⟨h₁.toParts.trans h₂.toParts, by rw [legal_append h₁.marks, h₂.marks]⟩

/-- From this view the step goes by the law.  Unless it fails. -/
def Step.From (st : Step) (v : View) : Prop := st.All fun es p' => v.Follows es p'.view

/-- Events by the law may come first. -/
theorem Step.From.after (h : st.From v₁) (h₁ : v.Follows es v₁) : (st.after es).From v :=
  (all_after es).2 (h.imp fun _ _ h₂ => h₁.trans h₂)

/-- A change of the view without events may come first. -/
theorem Step.From.via (h : st.From v₁) (h₁ : v.Follows [] v₁) : st.From v :=
  h.imp fun _ _ h₂ => h₁.trans h₂

/-- A parser that goes to another state.  The events are by the law. -/
theorem goes (hv : p.view = v) (hp' : p'.view = p.view.at' s') (h : v.Follows es (v.at' s')) :
    v.Follows es p'.view := by
  rw [hp', hv]
  exact h

/-- A parser that stays where it is.  The events are by the law. -/
theorem stays (hv : p.view = v) (hp' : p'.view = p.view) (h : v.Follows es v) :
    v.Follows es p'.view := by
  rw [hp', hv]
  exact h

/-- Where one character is expected. -/
theorem expect_from {ch c' : Byte} {s : State} (hv : p.view = v) (h : v.Follows [] (v.at' s)) :
    (p.expect ch c' s).From v := by
  rw [expect]
  split_ifs
  · trivial
  · exact goes hv rfl h

/-! ### The end of a message -/

/-- Behind a message the parser starts anew, or is dead. -/
theorem newMessage_cases (p : HttpParser) :
    p.newMessage = .dead ∨ p.newMessage = .startReq ∨ p.newMessage = .startRes := by
  rw [newMessage]
  split_ifs
  · cases p.type with
    | request => exact Or.inr (Or.inl rfl)
    | response => exact Or.inr (Or.inr rfl)
  · exact Or.inl rfl

/-- The end of a message.  No text is open. -/
theorem follows_complete (hpart : v.part = .rest) (hreopen : v.reopen = none) (p : HttpParser) :
    v.Follows [.note .messageComplete] (v.at' p.newMessage) := by
  rcases newMessage_cases p with h | h | h <;> rw [h] <;>
    exact ⟨⟨by rw [hpart]; rfl, rfl, Or.inl rfl⟩, by rw [hreopen]; rfl⟩

/-- The end of a message, without a return. -/
theorem complete_from (hv : p.view = v) (hpart : v.part = .rest) (hreopen : v.reopen = none) :
    p.complete.From v :=
  goes hv rfl (follows_complete hpart hreopen p)

/-- The end of a message, with a return. -/
theorem completeExit_from (hv : p.view = v) (hpart : v.part = .rest) (hreopen : v.reopen = none) :
    p.completeExit.From v :=
  goes hv rfl (follows_complete hpart hreopen p)

/-- `s_message_done`. -/
theorem onMessageDone_from (hv : p.view = ⟨.messageDone, t, u, c⟩) :
    p.onMessageDone.From ⟨.messageDone, t, u, c⟩ := by
  rw [onMessageDone]
  split_ifs
  · exact completeExit_from hv rfl rfl
  · exact complete_from hv rfl rfl

/-- `s_headers_done`. -/
theorem onHeadersDone_from (hv : p.view = ⟨.headersDone, t, u, c⟩) :
    (p.onHeadersDone ch).From ⟨.headersDone, t, u, c⟩ := by
  have hv' : ({ p with nread := 0 } : HttpParser).view = ⟨.headersDone, t, u, c⟩ := hv
  rw [onHeadersDone]
  dsimp only
  split_ifs
  · trivial
  · exact completeExit_from hv' rfl rfl
  · exact goes hv' rfl ⟨⟨rfl, rfl, Or.inl rfl⟩, rfl⟩
  · exact complete_from hv' rfl rfl
  · exact goes hv' rfl ⟨⟨rfl, rfl, Or.inl rfl⟩, rfl⟩
  · exact complete_from hv' rfl rfl
  · exact goes hv' rfl ⟨⟨rfl, rfl, Or.inl rfl⟩, rfl⟩

/-- `s_headers_almost_done`: the end of the head, or of the lines behind the last chunk. -/
theorem onHeadersAlmostDone_from (hv : p.view = ⟨.headersAlmostDone, t, u, c⟩) :
    (p.onHeadersAlmostDone ch).From ⟨.headersAlmostDone, t, u, c⟩ := by
  have ht : p.flags.trailing = t := congrArg View.trailing hv
  rw [onHeadersAlmostDone]
  dsimp only
  split_ifs with _ htrailing
  · trivial
  · have hv' : (p.goto .messageDone).view = ⟨.messageDone, t, u, c⟩ := congrArg (·.at' .messageDone) hv
    rw [← ht, htrailing] at hv' ⊢
    exact (onMessageDone_from hv').after ⟨⟨rfl, rfl, Or.inl rfl⟩, rfl⟩
  · trivial
  · rw [Bool.not_eq_true, ht] at htrailing
    subst htrailing
    have hv' : ({ p.goto .headersDone with upgrade := p.upgrades } : HttpParser).view =
        ⟨.headersDone, false, p.upgrades, c⟩ :=
      congrArg (fun v : View => { v with state := .headersDone, upgrade := p.upgrades }) hv
    exact (onHeadersDone_from hv').after
      ⟨⟨rfl, rfl, Or.inr ⟨_, List.mem_singleton_self _⟩⟩, rfl⟩

/-! ### Header fields and values -/

/-- `s_header_field_start`. -/
theorem onHeaderFieldStart_from (hv : p.view = ⟨.headerFieldStart, t, u, c⟩) :
    (p.onHeaderFieldStart ch).From ⟨.headerFieldStart, t, u, c⟩ := by
  have hv' : (p.goto .headersAlmostDone).view = ⟨.headersAlmostDone, t, u, c⟩ :=
    congrArg (·.at' .headersAlmostDone) hv
  rw [onHeaderFieldStart]
  split_ifs
  · exact goes hv rfl ⟨⟨rfl, rfl, Or.inl rfl⟩, rfl⟩
  · exact (onHeadersAlmostDone_from hv').via ⟨⟨rfl, rfl, Or.inl rfl⟩, rfl⟩
  · trivial
  · refine (all_after _).2 (goes hv rfl ⟨⟨?_, rfl, Or.inl rfl⟩, rfl⟩)
    cases t <;> rfl

@[simp] theorem view_matchWord (p : HttpParser) (word : List Char) (ch : Byte) (h h' : HeaderState) :
    (p.matchWord word ch h h').view = p.view := rfl

/-- Only the matching of a header has gone on, and what it found.  It is what a character of a
name or a value may change. -/
structure Keeps (p p' : HttpParser) : Prop where
  view : p'.view = p.view
  head : p'.head = p.head

/-- A character of a name. -/
theorem keeps_fieldChar (p : HttpParser) (ch ch' : Byte) : Keeps p (p.fieldChar ch ch') := by
  rw [fieldChar]
  split <;> first | exact ⟨rfl, rfl⟩ | (split_ifs <;> exact ⟨rfl, rfl⟩)

/-- `s_header_field`. -/
theorem onHeaderField_from (hv : p.view = ⟨.headerField, t, u, c⟩) :
    (p.onHeaderField ch).From ⟨.headerField, t, u, c⟩ := by
  rw [onHeaderField]
  split_ifs
  · refine (all_after _).2 (goes hv rfl ⟨⟨?_, rfl, Or.inl rfl⟩, rfl⟩)
    cases t <;> rfl
  · trivial
  · exact stays hv (keeps_fieldChar ..).view ⟨⟨rfl, rfl, Or.inl rfl⟩, rfl⟩

/-- The end of a value does not touch `F_TRAILING`. -/
theorem valueFlags_trailing (p : HttpParser) : p.valueFlags.trailing = p.flags.trailing := by
  rw [valueFlags]
  split <;> rfl

/-- The first character of a value. -/
theorem keeps_valueStart (h : p.valueStart ch = .ok p') : Keeps p p' := by
  rw [valueStart] at h
  dsimp only at h
  split at h
  case h_3 =>
      split_ifs at h
      cases h
      exact ⟨rfl, rfl⟩
  all_goals
    cases h
    exact ⟨rfl, rfl⟩

/-- `s_header_value_start`. -/
theorem onHeaderValueStart_from (hv : p.view = ⟨.headerValueStart, t, u, c⟩) :
    (p.onHeaderValueStart ch).From ⟨.headerValueStart, t, u, c⟩ := by
  rw [onHeaderValueStart]
  split
  · next p' h =>
      have hview : p'.view = p.view.at' .headerValue := (keeps_valueStart h).view
      refine (all_after _).2 (goes hv hview ⟨⟨?_, rfl, Or.inl rfl⟩, rfl⟩)
      cases t <;> rfl
  · trivial

/-- `s_header_value_discard_ws`. -/
theorem onHeaderValueDiscardWs_from (hv : p.view = ⟨.headerValueDiscardWs, t, u, c⟩) :
    (p.onHeaderValueDiscardWs ch).From ⟨.headerValueDiscardWs, t, u, c⟩ := by
  rw [onHeaderValueDiscardWs]
  split_ifs
  · exact stays hv rfl ⟨⟨rfl, rfl, Or.inl rfl⟩, rfl⟩
  · exact goes hv rfl ⟨⟨rfl, rfl, Or.inl rfl⟩, rfl⟩
  · exact goes hv rfl ⟨⟨rfl, rfl, Or.inl rfl⟩, rfl⟩
  · rw [onHeaderValueStart]
    split
    · next p' h =>
        have hview : p'.view = p.view.at' .headerValue := (keeps_valueStart h).view
        refine (all_after _).2 (goes hv hview ⟨⟨?_, rfl, Or.inl rfl⟩, rfl⟩)
        cases t <;> rfl
    · trivial

/-- The parser at the end of a value line.  Its flags are set. -/
theorem view_valueFlags (hv : p.view = v) :
    ({ p.goto .headerFieldStart with flags := p.valueFlags } : HttpParser).view =
      v.at' .headerFieldStart := by
  rw [← hv, view, valueFlags_trailing]
  rfl

/-- `s_header_value_lws`. -/
theorem onHeaderValueLws_from (hv : p.view = ⟨.headerValueLws, t, u, c⟩) :
    (p.onHeaderValueLws ch).From ⟨.headerValueLws, t, u, c⟩ := by
  rw [onHeaderValueLws]
  split
  · refine (onHeaderValueStart_from (t := t) (u := u) (c := c) ?_).via
      ⟨⟨rfl, rfl, Or.inl rfl⟩, rfl⟩
    exact congrArg (·.at' .headerValueStart) hv
  · exact (onHeaderFieldStart_from (view_valueFlags hv)).via ⟨⟨rfl, rfl, Or.inl rfl⟩, rfl⟩

/-- `s_header_value_discard_lws`. -/
theorem onHeaderValueDiscardLws_from (hv : p.view = ⟨.headerValueDiscardLws, t, u, c⟩) :
    (p.onHeaderValueDiscardLws ch).From ⟨.headerValueDiscardLws, t, u, c⟩ := by
  rw [onHeaderValueDiscardLws]
  split_ifs
  · exact goes hv rfl ⟨⟨rfl, rfl, Or.inl rfl⟩, rfl⟩
  · trivial
  · refine (onHeaderFieldStart_from (view_valueFlags hv)).after ⟨⟨?_, rfl, Or.inl rfl⟩, rfl⟩
    cases t <;> rfl

/-- A digit of a length. -/
theorem keeps_pushDigit {base digit limit : ℕ} (h : p.pushDigit base digit limit = .ok p') :
    Keeps p p' := by
  rw [pushDigit] at h
  split_ifs at h
  cases h
  exact ⟨rfl, rfl⟩

/-- Parsers with the same state, flags and code are seen the same. -/
theorem view_eq (hstate : p'.state = p.state) (ht : p'.flags.trailing = p.flags.trailing)
    (hu : p'.upgrade = p.upgrade) (hc : p'.statusCode = p.statusCode) : p'.view = p.view := by
  rw [view, view, hstate, ht, hu, hc]

/-- A character of a value. -/
theorem keeps_valueChar (h : p.valueChar ch = .ok p') : Keeps p p' := by
  rw [valueChar] at h
  split at h
  case h_1 | h_2 =>
      split_ifs at h
      · cases h
        exact ⟨rfl, rfl⟩
      · cases h
        exact ⟨rfl, rfl⟩
      · exact ⟨(keeps_pushDigit h).view, (keeps_pushDigit h).head⟩
  case h_11 | h_12 | h_13 =>
      split_ifs at h
      · cases h
        exact ⟨view_eq rfl (valueFlags_trailing p) rfl rfl, rfl⟩
      · cases h
        exact ⟨rfl, rfl⟩
      · cases h
        exact ⟨rfl, rfl⟩
  case h_3 =>
      split_ifs at h
      cases h
      exact ⟨rfl, rfl⟩
  case h_9 | h_10 =>
      split_ifs at h <;> cases h <;> exact ⟨rfl, rfl⟩
  all_goals
    cases h
    exact ⟨rfl, rfl⟩

/-- `s_header_value`. -/
theorem onHeaderValue_from (hv : p.view = ⟨.headerValue, t, u, c⟩) :
    (p.onHeaderValue ch).From ⟨.headerValue, t, u, c⟩ := by
  rw [onHeaderValue]
  split_ifs
  · refine (all_after _).2 (goes hv rfl ⟨⟨?_, rfl, Or.inl rfl⟩, rfl⟩)
    cases t <;> rfl
  · rw [onHeaderAlmostDone]
    split_ifs
    · trivial
    · refine (all_after _).2 (goes hv rfl ⟨⟨?_, rfl, Or.inl rfl⟩, rfl⟩)
      cases t <;> rfl
  · trivial
  · split
    · next p' h => exact stays hv (keeps_valueChar h).view ⟨⟨rfl, rfl, Or.inl rfl⟩, rfl⟩
    · trivial

/-- `s_header_almost_done`. -/
theorem onHeaderAlmostDone_from (hv : p.view = ⟨.headerAlmostDone, t, u, c⟩) :
    (p.onHeaderAlmostDone ch).From ⟨.headerAlmostDone, t, u, c⟩ := by
  rw [onHeaderAlmostDone]
  split_ifs
  · trivial
  · exact goes hv rfl ⟨⟨rfl, rfl, Or.inl rfl⟩, rfl⟩

/-! ### The first line -/

/-- A parser that is seen as `v'`.  The events are by the law. -/
theorem arrives (v' : View) (hp' : p'.view = v') (h : v.Follows es v') :
    v.Follows es p'.view := by
  rw [hp']
  exact h

/-- `s_start_res`: a message begins. -/
theorem onStartRes_from (hv : p.view = ⟨.startRes, t, u, c⟩) :
    (p.onStartRes ch).From ⟨.startRes, t, u, c⟩ := by
  rw [onStartRes]
  dsimp only
  split_ifs
  · exact stays hv rfl ⟨⟨rfl, rfl, Or.inl rfl⟩, rfl⟩
  · exact (all_after _).2 (arrives ⟨.resH, false, u, c⟩
      (congrArg (fun v : View => { v with state := .resH, trailing := false }) hv)
      ⟨⟨rfl, rfl, Or.inl rfl⟩, rfl⟩)
  · trivial

/-- The number before the dot of a version. -/
theorem onHttpMajor_from {s : State} (hv : p.view = v) (h : v.Follows [] (v.at' s)) :
    (p.onHttpMajor ch s).From v := by
  rw [onHttpMajor]
  split_ifs
  · trivial
  · exact goes hv rfl h

/-- The number behind the dot of a version. -/
theorem onHttpMinor_from {s : State} (hv : p.view = v) (h : v.Follows [] (v.at' s)) :
    (p.onHttpMinor ch s).From v := by
  rw [onHttpMinor]
  split_ifs
  · trivial
  · exact goes hv rfl h

/-- A letter of `HTTP`. -/
theorem onVersionChar_from {c' : Char} {s : State} (hv : p.view = v)
    (h : v.Follows [] (v.at' s)) : (p.onVersionChar ch c' s).From v := by
  rw [onVersionChar]
  split_ifs
  · trivial
  · exact goes hv rfl h

/-- The status code changes, before its text starts.  It is in view, since the text of the
reason has it. -/
theorem code_follows {s s' : State} (c' : ℕ) (hs : (View.mk s false u c).reopen = none)
    (hs' : (View.mk s' false u c').reopen = none) (hpart : s.part false = s'.part false) :
    (View.mk s false u c).Follows [] ⟨s', false, u, c'⟩ := by
  refine ⟨⟨congrArg some hpart, ?_, Or.inl rfl⟩, ?_⟩
  · rw [View.tidy, Bool.and_false]
    rfl
  · rw [hs, hs']
    rfl

/-- `s_res_first_status_code`. -/
theorem onResFirstStatusCode_from (hv : p.view = ⟨.resFirstStatusCode, false, u, c⟩) :
    (p.onResFirstStatusCode ch).From ⟨.resFirstStatusCode, false, u, c⟩ := by
  rw [onResFirstStatusCode]
  split_ifs
  · exact stays hv rfl ⟨⟨rfl, rfl, Or.inl rfl⟩, rfl⟩
  · trivial
  · exact arrives ⟨.resStatusCode, false, u, ch.toNat - 48⟩
      (congrArg (fun v : View => { v with state := .resStatusCode, code := ch.toNat - 48 }) hv)
      (code_follows _ rfl rfl rfl)

/-- `s_res_status`. -/
theorem onResStatus_from (hv : p.view = ⟨.resStatus, false, u, c⟩) :
    (p.onResStatus ch).From ⟨.resStatus, false, u, c⟩ := by
  obtain rfl : p.statusCode = c := congrArg View.code hv
  have hmarks : scanner.legal [.data (.status p.statusCode)] (some (.status p.statusCode)) =
      some none := by
    rw [legal, if_pos rfl]
    rfl
  rw [onResStatus]
  split_ifs
  · exact (all_after _).2 (goes hv rfl ⟨⟨rfl, rfl, Or.inl rfl⟩, hmarks⟩)
  · exact (all_after _).2 (goes hv rfl ⟨⟨rfl, rfl, Or.inl rfl⟩, hmarks⟩)
  · exact stays hv rfl ⟨⟨rfl, rfl, Or.inl rfl⟩, rfl⟩

/-- `s_res_status_start`. -/
theorem onResStatusStart_from (hv : p.view = ⟨.resStatusStart, false, u, c⟩) :
    (p.onResStatusStart ch).From ⟨.resStatusStart, false, u, c⟩ := by
  obtain rfl : p.statusCode = c := congrArg View.code hv
  have hv' : ({ p.goto .resStatus with index := 0 } : HttpParser).view =
      ⟨.resStatus, false, u, p.statusCode⟩ := congrArg (·.at' .resStatus) hv
  have hmark : (View.mk .resStatusStart false u p.statusCode).Follows
      [.mark (.status p.statusCode)] ⟨.resStatus, false, u, p.statusCode⟩ :=
    ⟨⟨rfl, rfl, Or.inl rfl⟩, rfl⟩
  rw [onResStatusStart]
  dsimp only
  split_ifs
  · exact (onResStatus_from hv').after hmark
  · exact (all_after _).2 (arrives _ hv' hmark)

/-- `s_res_status_code`. -/
theorem onResStatusCode_from (hv : p.view = ⟨.resStatusCode, false, u, c⟩) :
    (p.onResStatusCode ch).From ⟨.resStatusCode, false, u, c⟩ := by
  have hv' : (p.goto .resStatusStart).view = ⟨.resStatusStart, false, u, c⟩ :=
    congrArg (·.at' .resStatusStart) hv
  rw [onResStatusCode]
  dsimp only
  split_ifs
  · exact arrives _ hv' (code_follows c rfl rfl rfl)
  · exact (onResStatusStart_from hv').via (code_follows c rfl rfl rfl)
  · trivial
  · trivial
  · exact arrives ⟨.resStatusCode, false, u, p.statusCode * 10 + (ch.toNat - 48)⟩
      (congrArg (fun v : View => { v with code := p.statusCode * 10 + (ch.toNat - 48) }) hv)
      (code_follows _ rfl rfl rfl)

/-- `s_start_req`: a message begins. -/
theorem onStartReq_from (hv : p.view = ⟨.startReq, t, u, c⟩) :
    (p.onStartReq ch).From ⟨.startReq, t, u, c⟩ := by
  rw [onStartReq]
  dsimp only
  split_ifs
  · exact stays hv rfl ⟨⟨rfl, rfl, Or.inl rfl⟩, rfl⟩
  · trivial
  · split
    · trivial
    · exact (all_after _).2 (arrives ⟨.reqMethod, false, u, c⟩
        (congrArg (fun v : View => { v with state := .reqMethod, trailing := false }) hv)
        ⟨⟨rfl, rfl, Or.inl rfl⟩, rfl⟩)

/-- `s_req_method`. -/
theorem onReqMethod_from (hv : p.view = ⟨.reqMethod, false, u, c⟩) :
    (p.onReqMethod ch).From ⟨.reqMethod, false, u, c⟩ := by
  rw [onReqMethod]
  dsimp only
  split_ifs
  · trivial
  · exact goes hv rfl ⟨⟨rfl, rfl, Or.inl rfl⟩, rfl⟩
  · exact stays hv rfl ⟨⟨rfl, rfl, Or.inl rfl⟩, rfl⟩
  · split
    · trivial
    · exact stays hv rfl ⟨⟨rfl, rfl, Or.inl rfl⟩, rfl⟩
  · trivial

/-! ### URLs -/

/-- The states of a URL.  In each of them the mark of the URL is set. -/
def State.isUrl : State → Bool
  | reqPath | reqSchema | reqSchemaSlash | reqSchemaSlashSlash | reqServerStart | reqServer
  | reqServerWithAt | reqQueryStringStart | reqQueryString | reqFragmentStart | reqFragment => true
  | _ => false

/-- A character of a URL leads to a state of a URL, or fails. -/
theorem parseUrlChar_isUrl (s : State) (ch : Byte) :
    parseUrlChar s ch = .dead ∨ (parseUrlChar s ch).isUrl = true := by
  unfold parseUrlChar
  split
  · exact Or.inl rfl
  · split
    case h_13 => exact Or.inl rfl
    all_goals
      split_ifs <;> first
        | exact Or.inl rfl
        | exact Or.inr rfl

/-- In a URL its mark is set at the start of a call. -/
theorem isUrl_reopen {s : State} (h : s.isUrl = true) : (View.mk s t u c).reopen = some .url := by
  cases s <;> first | rfl | cases h

/-- A URL is in the first line. -/
theorem isUrl_part {s : State} (h : s.isUrl = true) : s.part t = .line := by
  cases s <;> first | rfl | cases h

/-- A character of a URL. -/
theorem urlChar_from {s : State} (hv : p.view = ⟨s, false, u, c⟩)
    (h : ∀ s' : State, s'.isUrl = true → v.Follows es ⟨s', false, u, c⟩) :
    ((p.urlChar ch).after es).From v := by
  rw [urlChar]
  split_ifs with hdead
  · trivial
  · have hurl := (parseUrlChar_isUrl p.state ch).resolve_left hdead
    have hview : (p.goto (parseUrlChar p.state ch)).view =
        ⟨parseUrlChar p.state ch, false, u, c⟩ :=
      congrArg (·.at' (parseUrlChar p.state ch)) hv
    refine (all_after _).2 (arrives _ hview ?_)
    rw [next, List.append_nil]
    exact h _ hurl

/-- From one state of a URL to another. -/
theorem url_follows {s s' : State} (h : s.isUrl = true) (h' : s'.isUrl = true) :
    (View.mk s false u c).Follows [] ⟨s', false, u, c⟩ := by
  refine ⟨⟨?_, ?_, Or.inl rfl⟩, ?_⟩
  · rw [part, part, isUrl_part h, isUrl_part h']
    rfl
  · rw [View.tidy, Bool.and_false]
    rfl
  · rw [isUrl_reopen h, isUrl_reopen h']
    rfl

/-- `s_req_spaces_before_url`. -/
theorem onReqSpacesBeforeUrl_from (hv : p.view = ⟨.reqSpacesBeforeUrl, false, u, c⟩) :
    (p.onReqSpacesBeforeUrl ch).From ⟨.reqSpacesBeforeUrl, false, u, c⟩ := by
  have hmark : ∀ s' : State, s'.isUrl = true →
      (View.mk .reqSpacesBeforeUrl false u c).Follows [.mark .url] ⟨s', false, u, c⟩ := by
    intro s' hs'
    refine ⟨⟨?_, ?_, Or.inl rfl⟩, ?_⟩
    · rw [part, part, isUrl_part hs']
      rfl
    · rw [View.tidy, Bool.and_false]
      rfl
    · rw [isUrl_reopen hs']
      rfl
  rw [onReqSpacesBeforeUrl]
  split
  · exact stays hv rfl ⟨⟨rfl, rfl, Or.inl rfl⟩, rfl⟩
  · split
    · have hv' : (p.goto .reqServerStart).view = ⟨.reqServerStart, false, u, c⟩ :=
        congrArg (·.at' .reqServerStart) hv
      exact urlChar_from hv' hmark
    · exact urlChar_from hv hmark

/-- The states of a URL before its server. -/
theorem onReqSchema_from {s : State} (hs : s.isUrl = true) (hv : p.view = ⟨s, false, u, c⟩) :
    (p.onReqSchema ch).From ⟨s, false, u, c⟩ := by
  rw [onReqSchema]
  split
  · trivial
  · show ((p.urlChar ch).after []).From _
    exact urlChar_from hv fun s' hs' => url_follows hs hs'

/-- The end of a URL.  It is handed over. -/
theorem url_ends {s s' : State} (hs : s.isUrl = true) (hpart : s'.part false = .head)
    (hreopen : (View.mk s' false u c).reopen = none) :
    (View.mk s false u c).Follows [.data .url] ⟨s', false, u, c⟩ := by
  refine ⟨⟨?_, ?_, Or.inl rfl⟩, ?_⟩
  · rw [part, part, isUrl_part hs, hpart]
    rfl
  · rw [View.tidy, Bool.and_false]
    rfl
  · rw [isUrl_reopen hs, hreopen]
    rfl

/-- The states of a URL in which it may end. -/
theorem onReqUrl_from {s : State} (hs : s.isUrl = true) (hv : p.view = ⟨s, false, u, c⟩) :
    (p.onReqUrl ch).From ⟨s, false, u, c⟩ := by
  rw [onReqUrl]
  split
  · exact (all_after _).2 (goes hv rfl (url_ends hs rfl rfl))
  · split
    · refine (all_after _).2 ?_
      split
      · exact goes hv rfl (url_ends hs rfl rfl)
      · exact goes hv rfl (url_ends hs rfl rfl)
    · show ((p.urlChar ch).after []).From _
      exact urlChar_from hv fun s' hs' => url_follows hs hs'

/-- `s_req_http_start`. -/
theorem onReqHttpStart_from (hv : p.view = ⟨.reqHttpStart, false, u, c⟩) :
    (p.onReqHttpStart ch).From ⟨.reqHttpStart, false, u, c⟩ := by
  rw [onReqHttpStart]
  split_ifs
  · exact stays hv rfl ⟨⟨rfl, rfl, Or.inl rfl⟩, rfl⟩
  · exact goes hv rfl ⟨⟨rfl, rfl, Or.inl rfl⟩, rfl⟩
  · exact goes hv rfl ⟨⟨rfl, rfl, Or.inl rfl⟩, rfl⟩
  · trivial

/-- `s_req_http_end`. -/
theorem onReqHttpEnd_from (hv : p.view = ⟨.reqHttpEnd, false, u, c⟩) :
    (p.onReqHttpEnd ch).From ⟨.reqHttpEnd, false, u, c⟩ := by
  rw [onReqHttpEnd]
  split_ifs
  · exact goes hv rfl ⟨⟨rfl, rfl, Or.inl rfl⟩, rfl⟩
  · exact goes hv rfl ⟨⟨rfl, rfl, Or.inl rfl⟩, rfl⟩
  · trivial

/-- `s_req_line_almost_done`. -/
theorem onReqLineAlmostDone_from (hv : p.view = ⟨.reqLineAlmostDone, false, u, c⟩) :
    (p.onReqLineAlmostDone ch).From ⟨.reqLineAlmostDone, false, u, c⟩ := by
  rw [onReqLineAlmostDone]
  split_ifs
  · trivial
  · exact goes hv rfl ⟨⟨rfl, rfl, Or.inl rfl⟩, rfl⟩

/-! ### Bodies -/

/-- `s_chunk_size_start`. -/
theorem onChunkSizeStart_from (hv : p.view = ⟨.chunkSizeStart, t, u, c⟩) :
    (p.onChunkSizeStart ch).From ⟨.chunkSizeStart, t, u, c⟩ := by
  rw [onChunkSizeStart]
  split
  · trivial
  · exact goes hv rfl ⟨⟨rfl, rfl, Or.inl rfl⟩, rfl⟩

/-- `s_chunk_size`. -/
theorem onChunkSize_from (hv : p.view = ⟨.chunkSize, t, u, c⟩) :
    (p.onChunkSize ch).From ⟨.chunkSize, t, u, c⟩ := by
  rw [onChunkSize]
  split
  · exact goes hv rfl ⟨⟨rfl, rfl, Or.inl rfl⟩, rfl⟩
  · split
    · split
      · exact goes hv rfl ⟨⟨rfl, rfl, Or.inl rfl⟩, rfl⟩
      · trivial
    · split
      · next p' h => exact stays hv (keeps_pushDigit h).view ⟨⟨rfl, rfl, Or.inl rfl⟩, rfl⟩
      · trivial

/-- `s_chunk_parameters`. -/
theorem onChunkParameters_from (hv : p.view = ⟨.chunkParameters, t, u, c⟩) :
    (p.onChunkParameters ch).From ⟨.chunkParameters, t, u, c⟩ := by
  rw [onChunkParameters]
  split
  · exact goes hv rfl ⟨⟨rfl, rfl, Or.inl rfl⟩, rfl⟩
  · exact stays hv rfl ⟨⟨rfl, rfl, Or.inl rfl⟩, rfl⟩

/-- `s_chunk_size_almost_done`. -/
theorem onChunkSizeAlmostDone_from (hv : p.view = ⟨.chunkSizeAlmostDone, t, u, c⟩) :
    (p.onChunkSizeAlmostDone ch).From ⟨.chunkSizeAlmostDone, t, u, c⟩ := by
  rw [onChunkSizeAlmostDone]
  dsimp only
  split_ifs
  · trivial
  · exact (all_after _).2 (arrives ⟨.headerFieldStart, true, u, c⟩
      (congrArg (fun v : View => { v with state := .headerFieldStart, trailing := true }) hv)
      ⟨⟨rfl, rfl, Or.inl rfl⟩, rfl⟩)
  · exact (all_after _).2 (goes hv rfl ⟨⟨rfl, rfl, Or.inl rfl⟩, rfl⟩)

/-- `s_chunk_data_done`. -/
theorem onChunkDataDone_from (hv : p.view = ⟨.chunkDataDone, t, u, c⟩) :
    (p.onChunkDataDone ch).From ⟨.chunkDataDone, t, u, c⟩ := by
  rw [onChunkDataDone]
  split_ifs
  · trivial
  · exact (all_after _).2 (goes hv rfl ⟨⟨rfl, rfl, Or.inl rfl⟩, rfl⟩)

/-- In a body.  The mark is set by the first event, if the body goes on. -/
structure Soaks (v : View) (es : List Ev) (p' : HttpParser) : Prop extends v.Parts es p'.view where
  events : scanner.SoftEvents p' .body es

/-- The body goes on.  Its mark is set at the byte. -/
theorem soaks_mark (v' : View) (hp' : p'.view = v') (hloose : v'.loose = some .body)
    (h : v.Parts [.mark .body] v') : Soaks v [.mark .body] p' := by
  subst hp'
  exact ⟨h, .goes hloose⟩

/-- The end of a message leaves no text open.  Nor does the next begin with one. -/
theorem newMessage_closed (p : HttpParser) :
    (p.goto p.newMessage).loose = none ∧ (p.goto p.newMessage).reopen = none := by
  rcases newMessage_cases p with h | h | h <;> rw [h] <;> exact ⟨rfl, rfl⟩

/-- `s_body_identity`. -/
theorem onBodyIdentity_soaks (hv : p.view = ⟨.bodyIdentity, t, u, c⟩) :
    p.onBodyIdentity.All (Soaks ⟨.bodyIdentity, t, u, c⟩) := by
  have hdone : ∀ q : HttpParser, q.view = ⟨.messageDone, t, u, c⟩ →
      Soaks ⟨.bodyIdentity, t, u, c⟩ [.mark .body, .through .body, .note .messageComplete]
        (q.goto q.newMessage) := by
    intro q hq
    have hsoak : (View.mk .bodyIdentity t u c).Parts [.mark .body, .through .body]
        ⟨.messageDone, t, u, c⟩ := ⟨rfl, rfl, Or.inl rfl⟩
    have hpart : (View.mk .bodyIdentity t u c).Parts
        ([.mark .body, .through .body] ++ [.note .messageComplete]) (q.goto q.newMessage).view :=
      hsoak.trans (arrives _ (congrArg (·.at' q.newMessage) hq) (follows_complete rfl rfl q)).toParts
    obtain ⟨hloose, hreopen⟩ := newMessage_closed q
    exact ⟨hpart, .through [NotifyCb.messageComplete] hloose hreopen⟩
  rw [onBodyIdentity]
  dsimp only
  split
  · have hq : ({ p with contentLength := p.contentLength - 1 }.goto .messageDone : HttpParser).view =
        ⟨.messageDone, t, u, c⟩ := congrArg (·.at' .messageDone) hv
    refine (all_after _).2 ?_
    rw [onMessageDone]
    split
    · exact hdone _ hq
    · exact hdone _ hq
  · exact (all_after _).2 (soaks_mark ⟨.bodyIdentity, t, u, c⟩ hv rfl
      ⟨rfl, rfl, Or.inl rfl⟩)

/-- `s_chunk_data`. -/
theorem onChunkData_soaks (hv : p.view = ⟨.chunkData, t, u, c⟩) :
    p.onChunkData.All (Soaks ⟨.chunkData, t, u, c⟩) := by
  rw [onChunkData]
  dsimp only
  refine (all_after _).2 ?_
  split
  · exact soaks_mark ⟨.chunkDataAlmostDone, t, u, c⟩
      (congrArg (·.at' .chunkDataAlmostDone) hv) rfl ⟨rfl, rfl, Or.inl rfl⟩
  · exact soaks_mark ⟨.chunkData, t, u, c⟩ hv rfl ⟨rfl, rfl, Or.inl rfl⟩

/-- `s_chunk_data_almost_done`. -/
theorem onChunkDataAlmostDone_soaks (hv : p.view = ⟨.chunkDataAlmostDone, t, u, c⟩) :
    (p.onChunkDataAlmostDone ch).All (Soaks ⟨.chunkDataAlmostDone, t, u, c⟩) := by
  rw [onChunkDataAlmostDone]
  split
  · trivial
  · have hp : (p.goto .chunkDataDone).view = ⟨.chunkDataDone, t, u, c⟩ :=
      congrArg (·.at' .chunkDataDone) hv
    refine (all_after _).2 ⟨?_, .data [] rfl rfl⟩
    rw [hp]
    exact ⟨rfl, rfl, Or.inl rfl⟩

/-! ### The switch -/

/-- Outside a body.  By cases on the state. -/
theorem onByte_from (hv : p.view = v) (htidy : v.tidy = true) (hloose : v.loose = none) :
    (p.onByte ch).From v := by
  obtain ⟨s, t, u, c⟩ := v
  have hstate : p.state = s := congrArg View.state hv
  have hplain : s.plain = true → t = false := by
    intro hs
    rw [View.tidy, hs, Bool.true_and, Bool.not_eq_true'] at htidy
    exact htidy
  rw [onByte, hstate]
  cases s with
  | dead =>
      change Step.From (if _ then _ else _) _
      split
      · exact stays hv rfl ⟨⟨rfl, rfl, Or.inl rfl⟩, rfl⟩
      · trivial
  | startRes =>
      exact onStartRes_from hv
  | resH =>
      obtain rfl := hplain rfl
      exact expect_from hv ⟨⟨rfl, rfl, Or.inl rfl⟩, rfl⟩
  | resHT =>
      obtain rfl := hplain rfl
      exact expect_from hv ⟨⟨rfl, rfl, Or.inl rfl⟩, rfl⟩
  | resHTT =>
      obtain rfl := hplain rfl
      exact expect_from hv ⟨⟨rfl, rfl, Or.inl rfl⟩, rfl⟩
  | resHTTP =>
      obtain rfl := hplain rfl
      exact expect_from hv ⟨⟨rfl, rfl, Or.inl rfl⟩, rfl⟩
  | resHttpMajor =>
      obtain rfl := hplain rfl
      exact onHttpMajor_from hv ⟨⟨rfl, rfl, Or.inl rfl⟩, rfl⟩
  | resHttpDot =>
      obtain rfl := hplain rfl
      exact onVersionChar_from hv ⟨⟨rfl, rfl, Or.inl rfl⟩, rfl⟩
  | resHttpMinor =>
      obtain rfl := hplain rfl
      exact onHttpMinor_from hv ⟨⟨rfl, rfl, Or.inl rfl⟩, rfl⟩
  | resHttpEnd =>
      obtain rfl := hplain rfl
      exact onVersionChar_from hv ⟨⟨rfl, rfl, Or.inl rfl⟩, rfl⟩
  | resFirstStatusCode =>
      obtain rfl := hplain rfl
      exact onResFirstStatusCode_from hv
  | resStatusCode =>
      obtain rfl := hplain rfl
      exact onResStatusCode_from hv
  | resStatusStart =>
      obtain rfl := hplain rfl
      exact onResStatusStart_from hv
  | resStatus =>
      obtain rfl := hplain rfl
      exact onResStatus_from hv
  | resLineAlmostDone =>
      obtain rfl := hplain rfl
      exact expect_from hv ⟨⟨rfl, rfl, Or.inl rfl⟩, rfl⟩
  | startReq =>
      exact onStartReq_from hv
  | reqMethod =>
      obtain rfl := hplain rfl
      exact onReqMethod_from hv
  | reqSpacesBeforeUrl =>
      obtain rfl := hplain rfl
      exact onReqSpacesBeforeUrl_from hv
  | reqSchema =>
      obtain rfl := hplain rfl
      exact onReqSchema_from rfl hv
  | reqSchemaSlash =>
      obtain rfl := hplain rfl
      exact onReqSchema_from rfl hv
  | reqSchemaSlashSlash =>
      obtain rfl := hplain rfl
      exact onReqSchema_from rfl hv
  | reqServerStart =>
      obtain rfl := hplain rfl
      exact onReqSchema_from rfl hv
  | reqServer =>
      obtain rfl := hplain rfl
      exact onReqUrl_from rfl hv
  | reqServerWithAt =>
      obtain rfl := hplain rfl
      exact onReqUrl_from rfl hv
  | reqPath =>
      obtain rfl := hplain rfl
      exact onReqUrl_from rfl hv
  | reqQueryStringStart =>
      obtain rfl := hplain rfl
      exact onReqUrl_from rfl hv
  | reqQueryString =>
      obtain rfl := hplain rfl
      exact onReqUrl_from rfl hv
  | reqFragmentStart =>
      obtain rfl := hplain rfl
      exact onReqUrl_from rfl hv
  | reqFragment =>
      obtain rfl := hplain rfl
      exact onReqUrl_from rfl hv
  | reqHttpStart =>
      obtain rfl := hplain rfl
      exact onReqHttpStart_from hv
  | reqHttpH =>
      obtain rfl := hplain rfl
      exact expect_from hv ⟨⟨rfl, rfl, Or.inl rfl⟩, rfl⟩
  | reqHttpHT =>
      obtain rfl := hplain rfl
      exact expect_from hv ⟨⟨rfl, rfl, Or.inl rfl⟩, rfl⟩
  | reqHttpHTT =>
      obtain rfl := hplain rfl
      exact expect_from hv ⟨⟨rfl, rfl, Or.inl rfl⟩, rfl⟩
  | reqHttpHTTP =>
      obtain rfl := hplain rfl
      exact expect_from hv ⟨⟨rfl, rfl, Or.inl rfl⟩, rfl⟩
  | reqHttpI =>
      obtain rfl := hplain rfl
      exact expect_from hv ⟨⟨rfl, rfl, Or.inl rfl⟩, rfl⟩
  | reqHttpIC =>
      obtain rfl := hplain rfl
      exact expect_from hv ⟨⟨rfl, rfl, Or.inl rfl⟩, rfl⟩
  | reqHttpMajor =>
      obtain rfl := hplain rfl
      exact onHttpMajor_from hv ⟨⟨rfl, rfl, Or.inl rfl⟩, rfl⟩
  | reqHttpDot =>
      obtain rfl := hplain rfl
      exact onVersionChar_from hv ⟨⟨rfl, rfl, Or.inl rfl⟩, rfl⟩
  | reqHttpMinor =>
      obtain rfl := hplain rfl
      exact onHttpMinor_from hv ⟨⟨rfl, rfl, Or.inl rfl⟩, rfl⟩
  | reqHttpEnd =>
      obtain rfl := hplain rfl
      exact onReqHttpEnd_from hv
  | reqLineAlmostDone =>
      obtain rfl := hplain rfl
      exact onReqLineAlmostDone_from hv
  | headerFieldStart =>
      exact onHeaderFieldStart_from hv
  | headerField =>
      exact onHeaderField_from hv
  | headerValueDiscardWs =>
      exact onHeaderValueDiscardWs_from hv
  | headerValueDiscardWsAlmostDone =>
      exact expect_from hv ⟨⟨rfl, rfl, Or.inl rfl⟩, rfl⟩
  | headerValueDiscardLws =>
      exact onHeaderValueDiscardLws_from hv
  | headerValueStart =>
      exact onHeaderValueStart_from hv
  | headerValue =>
      exact onHeaderValue_from hv
  | headerValueLws =>
      exact onHeaderValueLws_from hv
  | headerAlmostDone =>
      exact onHeaderAlmostDone_from hv
  | chunkSizeStart =>
      exact onChunkSizeStart_from hv
  | chunkSize =>
      exact onChunkSize_from hv
  | chunkParameters =>
      exact onChunkParameters_from hv
  | chunkSizeAlmostDone =>
      exact onChunkSizeAlmostDone_from hv
  | headersAlmostDone =>
      exact onHeadersAlmostDone_from hv
  | headersDone =>
      exact onHeadersDone_from hv
  | chunkData => cases hloose
  | chunkDataAlmostDone => cases hloose
  | chunkDataDone =>
      exact onChunkDataDone_from hv
  | bodyIdentity => cases hloose
  | bodyIdentityEof => cases hloose
  | messageDone =>
      exact onMessageDone_from hv

/-- In a body.  By cases on the state. -/
theorem onByte_soaks (hv : p.view = v) {k : DataCb} (hloose : v.loose = some k) :
    (p.onByte ch).All (Soaks v) := by
  obtain ⟨s, t, u, c⟩ := v
  have hstate : p.state = s := congrArg View.state hv
  rw [onByte, hstate]
  cases s with
  | chunkData => exact onChunkData_soaks hv
  | chunkDataAlmostDone => exact onChunkDataAlmostDone_soaks hv
  | bodyIdentity => exact onBodyIdentity_soaks hv
  | bodyIdentityEof =>
      exact (all_after _).2 (soaks_mark ⟨.bodyIdentityEof, t, u, c⟩ hv rfl
        ⟨rfl, rfl, Or.inl rfl⟩)
  | _ => cases hloose

/-- A step that does not fail.  It is a step of the scanner. -/
theorem Step.All.apply (h : (p.step ch).All Q) (hs : scanner.step p ch = some (es, p')) :
    Q es p' := by
  unfold scanner at hs
  dsimp only at hs
  generalize p.step ch = st at h hs
  obtain ⟨evs, out⟩ := st
  cases out with
  | next q =>
      cases hs
      exact h
  | exit q =>
      cases hs
      exact h
  | error e q => cases hs

/-- The count of the head's bytes is not in view.  Only its overflow is an error. -/
theorem step_all (h : ∀ q : HttpParser, q.view = p.view → (q.onByte ch).All Q) :
    (p.step ch).All Q := by
  rw [step]
  dsimp only
  split_ifs
  · trivial
  · exact h _ rfl
  · exact h _ rfl

/-- A step outside a body goes by the law. -/
theorem follows_of_step (htidy : p.view.tidy = true) (hloose : p.loose = none)
    (hs : scanner.step p ch = some (es, p')) : p.view.Follows es p'.view :=
  (step_all fun _ hq => onByte_from hq htidy hloose).apply hs

/-- A step in a body goes by the law. -/
theorem soaks_of_step {k : DataCb} (hloose : p.loose = some k)
    (hs : scanner.step p ch = some (es, p')) : Soaks p.view es p' :=
  (step_all fun _ hq => onByte_soaks hq hloose).apply hs

/-- **The parts of a message.**  Every byte goes on with the part, or to the next.  No event is
out of order. -/
theorem parts_of_step (htidy : p.view.tidy = true) (hs : scanner.step p ch = some (es, p')) :
    p.view.Parts es p'.view := by
  cases hloose : p.loose with
  | none => exact (follows_of_step htidy hloose hs).toParts
  | some k => exact (soaks_of_step hloose hs).toParts

/-- Only a body is marked anew at each byte. -/
theorem loose_eq_body {k : DataCb} (h : p.loose = some k) : k = .body ∧ p.reopen = none := by
  rw [loose] at h
  rw [reopen]
  cases hstate : p.state <;> rw [hstate] at h <;> first
    | exact ⟨(Option.some.inj h).symm, rfl⟩
    | cases h

/-- **The law of the marks.**  With it everything of `Lib.Segmentation` holds of this parser. -/
theorem scanner_lawful : scanner.Lawful fun p => p.view.tidy = true where
  reopen_hard p k h := by
    change p.reopen = some k at h
    rw [reopen] at h
    split at h <;> cases h <;> rfl
  loose_soft p k h := by
    obtain ⟨rfl, hreopen⟩ := loose_eq_body h
    exact ⟨rfl, hreopen⟩
  keeps p ch es p' htidy hs := (parts_of_step htidy hs).tidy
  hard p ch es p' htidy hloose hs := (follows_of_step htidy hloose hs).marks
  loose p ch es p' k htidy hloose hs := by
    obtain ⟨rfl, -⟩ := loose_eq_body hloose
    exact (soaks_of_step hloose hs).events

end HttpParser

end Hiper

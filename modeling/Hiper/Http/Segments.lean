import Hiper.Http.Parser
import Hiper.HttpParser.Message

/-!
# Messages in segments

What a message shows after calls on its segments, against one call on the whole.
The callbacks append to the body, but every piece of a URL is parsed as a URL,
and every piece of a header's name or value replaces the piece before it.

The callbacks are those of `src/hiper/http/http_parser.cc`: `on_request_url_cb` (151) stores
what `http_parser_parse_url` finds in the piece, `on_request_header_field_cb` and
`on_request_header_value_cb` store the piece, `on_request_body_cb` appends it.  The parser
itself reports the same texts, cut where a call ends (`Lib.Segmentation`), so that the two
ways of calling it differ by what the callbacks make of a cut text; `request_seen_iff` and
`response_seen_iff` say for which messages they do not differ, and the modules on cuts say
where those cuts lie.
-/

namespace Hiper

open HttpParser

namespace Http

open Lib Lib.Scanner

variable {τ : Type}

/-- What the callbacks get to know of a message: `target` is what its URL gives.  The body, the
headers and the head do not depend on the message's kind. -/
structure Shown (τ : Type) where
  target : τ
  head : Option Head
  headers : MapType
  body : Bytes
  finished : Bool
  field : Bytes

/-- The callbacks, on what they show; `store` is the one for a URL.  They fail where the URL is
refused, and nowhere else. -/
def shownSettings (store : Bytes → τ → Option τ) : Settings (Shown τ) where
  onData
    | .url, buf, s => (store buf s.target).map fun target => { s with target := target }
    | .status _, _, s => some s
    | .headerField, buf, s => some { s with field := buf }
    | .headerValue, buf, s => some { s with headers := s.headers.set s.field buf }
    | .body, buf, s => some { s with body := s.body ++ buf }
  onNotify
    | .headersComplete h, s => { s with head := some h }
    | .messageComplete, s => { s with finished := true }
    | _, s => s

/-! ### The texts of a message -/

/-- The texts of the URL.  There is one, unless calls ended inside it. -/
def urlTexts (input : Bytes) (R : List Rep) : List Bytes :=
  R.filterMap fun
    | .text .url a b => some (slice input a b)
    | _ => none

/-- URLs stored one after another, up to one that is refused.  Whether all were accepted is the
second part. -/
def storeUrls (store : Bytes → τ → Option τ) : List Bytes → τ → τ × Bool
  | [], t => (t, true)
  | u :: us, t =>
    match store u t with
    | some t => storeUrls store us t
    | none => (t, false)

/-- A name, or a value for the last name, stored.  A name that has no value yet is the first
part of the pair. -/
def storeText (input : Bytes) (s : Bytes × MapType) : Rep → Bytes × MapType
  | .text .headerField a b => (slice input a b, s.2)
  | .text .headerValue a b => (s.1, s.2.set s.1 (slice input a b))
  | _ => s

/-- The headers that the texts give.  Before the first of them the map is empty. -/
def headersOf (input : Bytes) (R : List Rep) : MapType :=
  (R.foldl (storeText input) ([], .empty)).2

/-- The body that the texts give. -/
def bodyText (input : Bytes) (R : List Rep) : Bytes :=
  R.flatMap fun
    | .text .body a b => slice input a b
    | _ => []

/-- The head that the last `on_headers_complete` read.  There is one in a message. -/
def storeHead (h : Option Head) : Rep → Option Head
  | .note (.headersComplete h) => some h
  | _ => h

/-- Whether this is the report of `on_message_complete`. -/
def isEnd : Rep → Bool
  | .note .messageComplete => true
  | _ => false

/-- What the texts behind the first line do.  They never fail. -/
def afterTexts (input : Bytes) (R : List Rep) (s : Shown τ) : Shown τ :=
  { target := s.target
    head := R.foldl storeHead s.head
    headers := (R.foldl (storeText input) (s.field, s.headers)).2
    body := s.body ++ bodyText input R
    finished := s.finished || R.any isEnd
    field := (R.foldl (storeText input) (s.field, s.headers)).1 }

/-- Behind the first line the callbacks do what the texts say. -/
theorem notify_rest (store : Bytes → τ → Option τ) (input : Bytes) {R : List Rep}
    (h : ∀ r ∈ R, repInLine r = false) (s : Shown τ) :
    (shownSettings store).notify input R s = (afterTexts input R s, none) := by
  induction R generalizing s with
  | nil => simp [Settings.notify, afterTexts, bodyText]
  | cons r R ih =>
      have hrest := fun s => ih (fun r hr => h r (List.mem_cons_of_mem _ hr)) s
      have hr := h r (List.mem_cons_self ..)
      cases r with
      | note n =>
          rw [Settings.notify, hrest]
          cases n with
          | messageComplete => simp [afterTexts, shownSettings, bodyText, storeText, storeHead, isEnd]
          | _ => rfl
      | text k a b =>
          cases k with
          | url => cases hr
          | status c => cases hr
          | headerField => exact hrest { s with field := slice input a b }
          | headerValue => exact hrest { s with headers := s.headers.set s.field (slice input a b) }
          | body =>
              refine (hrest { s with body := s.body ++ slice input a b }).trans ?_
              simp [afterTexts, bodyText, storeText, storeHead, isEnd]

/-- Behind the first line there is no URL. -/
theorem urlTexts_rest (input : Bytes) {R : List Rep} (h : ∀ r ∈ R, repInLine r = false) :
    urlTexts input R = [] := by
  rw [urlTexts, List.filterMap_eq_nil_iff]
  intro r hr
  have hline := h r hr
  cases r with
  | note n => rfl
  | text k a b =>
      cases k with
      | url => cases hline
      | _ => rfl

/-- **What the callbacks do, text by text.**  The URL comes first.  If it is refused, nothing
else is stored. -/
theorem notify_shown (store : Bytes → τ → Option τ) (input : Bytes) {R : List Rep}
    (h : LineFirst (R.map repInLine)) (s : Shown τ) :
    (shownSettings store).notify input R s =
      if (storeUrls store (urlTexts input R) s.target).2 then
        (afterTexts input R { s with target := (storeUrls store (urlTexts input R) s.target).1 },
          none)
      else
        ({ s with target := (storeUrls store (urlTexts input R) s.target).1 }, some .cbUrl) := by
  induction R generalizing s with
  | nil => simp [Settings.notify, urlTexts, storeUrls, afterTexts, bodyText]
  | cons r R ih =>
      rw [List.map_cons] at h
      obtain ⟨hfirst, hrest⟩ := List.pairwise_cons.1 h
      cases hr : repInLine r with
      | false =>
          have hall : ∀ x ∈ r :: R, repInLine x = false := by
            intro x hx
            rcases List.mem_cons.1 hx with rfl | hx
            · exact hr
            · by_contra htrue
              rw [Bool.not_eq_false] at htrue
              rw [hfirst _ (List.mem_map_of_mem hx) htrue] at hr
              cases hr
          rw [notify_rest store input hall, urlTexts_rest input hall]
          rfl
      | true =>
          cases r with
          | note n =>
              cases n with
              | messageBegin => exact ih hrest s
              | _ => cases hr
          | text k a b =>
              cases k with
              | url =>
                  have htexts : urlTexts input (.text .url a b :: R) =
                      slice input a b :: urlTexts input R := rfl
                  rw [htexts, Settings.notify, storeUrls]
                  dsimp only [shownSettings]
                  cases store (slice input a b) s.target with
                  | none => rfl
                  | some t => exact ih hrest { s with target := t }
              | status c => exact ih hrest s
              | _ => cases hr

/-! ### The texts in pieces -/

section Pieces

variable {cuts : List ℕ} {R : List Rep}

/-- Two pieces that meet are one. -/
theorem slice_append (input : Bytes) {a c b : ℕ} (hac : a ≤ c) (hcb : c ≤ b) :
    slice input a c ++ slice input c b = slice input a b := by
  have hdrop : input.drop c = (input.drop a).drop (c - a) := by
    rw [List.drop_drop, Nat.add_sub_cancel' hac]
  rw [slice, slice, slice, hdrop, show b - a = c - a + (b - c) by omega, List.take_add]

/-- A piece of a text of the first line is one of the first line. -/
theorem inLine_expand {r x : Rep} (hx : x ∈ scanner.expand cuts r) : repInLine x = repInLine r := by
  cases r with
  | note n => rw [List.mem_singleton.1 hx]
  | text k a b =>
      obtain ⟨seg, -, rfl⟩ := List.mem_map.1 hx
      rfl

/-- In pieces the first line still comes first. -/
theorem lineFirst_expand (h : LineFirst (R.map repInLine)) :
    LineFirst ((R.flatMap (scanner.expand cuts)).map repInLine) := by
  rw [LineFirst, List.pairwise_map, List.pairwise_flatMap]
  rw [LineFirst, List.pairwise_map] at h
  refine ⟨fun r _ => List.pairwise_of_forall_mem_list fun x hx y hy hline => ?_,
    h.imp fun hrr' x hx y hy hline => ?_⟩
  · rw [inLine_expand hy] at hline
    rw [inLine_expand hx, hline]
  · rw [inLine_expand hy] at hline
    rw [inLine_expand hx]
    exact hrr' hline

/-- The body is the same in pieces.  It is appended. -/
theorem bodyText_expand (hsorted : cuts.Pairwise (· < ·)) (input : Bytes) (R : List Rep) :
    bodyText input (R.flatMap (scanner.expand cuts)) = bodyText input R := by
  rw [bodyText, List.flatMap_assoc, bodyText]
  refine List.flatMap_congr fun r _ => ?_
  cases r with
  | note n => simp [expand]
  | text k a b =>
      rw [expand, List.flatMap_map]
      cases k with
      | body => exact pieces_join (fun a c b => slice_append input) hsorted _ a b
      | _ => exact List.flatMap_eq_nil_iff.2 fun _ _ => rfl

/-- The end is reported the same in pieces. -/
theorem isEnd_expand (R : List Rep) :
    (R.flatMap (scanner.expand cuts)).any isEnd = R.any isEnd := by
  induction R with
  | nil => rfl
  | cons r R ih =>
      rw [List.flatMap_cons, List.any_append, ih, List.any_cons]
      congr 1
      cases r with
      | note n => cases n <;> rfl
      | text k a b =>
          rw [List.any_eq_false.2]
          · rfl
          · intro x hx
            obtain ⟨seg, -, rfl⟩ := List.mem_map.1 hx
            exact Bool.false_ne_true

/-- The head is reported the same in pieces. -/
theorem storeHead_expand (R : List Rep) (h : Option Head) :
    (R.flatMap (scanner.expand cuts)).foldl storeHead h = R.foldl storeHead h := by
  refine (foldl_expand (fun _ _ _ _ _ _ => rfl) cuts R h).trans ?_
  induction R generalizing h with
  | nil => rfl
  | cons r R ih =>
      rw [List.map_cons, List.foldl_cons, List.foldl_cons, ih]
      cases r <;> rfl

/-- Of a name and of a value the last piece counts.  The pieces before it are overwritten. -/
theorem storeText_expand (input : Bytes) (R : List Rep) (x : Bytes × MapType) :
    (R.flatMap (scanner.expand cuts)).foldl (storeText input) x =
      (R.map (scanner.last cuts)).foldl (storeText input) x := by
  refine foldl_expand (fun x k a b c d => ?_) cuts R x
  cases k with
  | headerValue =>
      obtain ⟨name, headers⟩ := x
      rw [storeText, storeText, storeText, MapType.set_set]
  | _ => rfl

end Pieces

/-! ### Calls -/

/-- Before the first call.  Nothing is known of the message. -/
def blank (t₀ : τ) : Shown τ := ⟨t₀, none, .empty, [], false, []⟩

/-- What there is after these reports, and whether there is an error: a message may be `refused`
as an upgrade.  A URL that is refused is an error, too. -/
def outcome (store : Bytes → τ → Option τ) (t₀ : τ) (refused : Bool) (input : Bytes)
    (R : List Rep) : Shown τ × Bool :=
  let due := (shownSettings store).notify input R (blank t₀)
  (due.1, due.2.isSome || refused)

/-- `execute` on one segment after another.  The parser goes from call to call. -/
def executesWith {μ : Type} (c : Callbacks μ) (errorOf : Result (Sink μ) → Option Errno)
    (r : MessageParser μ) (bss : List Bytes) : MessageParser μ :=
  bss.foldl (fun r bs => (r.executeWith c errorOf bs).1) r

section Calls

variable {μ : Type} {c : Callbacks μ} {errorOf : Result (Sink μ) → Option Errno}
  {store : Bytes → τ → Option τ} {rel : Sink μ → Shown τ → Prop}
  {bss : List Bytes} {t : ParserType}
  {W R : List Rep} {p' : HttpParser}

/-- `execute` on segments is the parser on them, with the error of the last call. -/
theorem executesWith_eq (c : Callbacks μ) (errorOf : Result (Sink μ) → Option Errno)
    (r : MessageParser μ) (bss : List Bytes) :
    (executesWith c errorOf r bss).toSink =
        ((HttpParser.executes c.settings bss r.parser r.httpErrno r.toSink).getLast?.map
          Result.data).getD r.toSink ∧
      ((executesWith c errorOf r bss).error.isSome = true ↔ r.error.isSome = true ∨
        ∃ x ∈ HttpParser.executes c.settings bss r.parser r.httpErrno r.toSink,
          (errorOf x).isSome = true) := by
  induction bss generalizing r with
  | nil => exact ⟨rfl, by simp [executesWith, HttpParser.executes]⟩
  | cons bs bss ih =>
      obtain ⟨hsink, herror⟩ := ih (r.executeWith c errorOf bs).1
      rw [executesWith, List.foldl_cons, ← executesWith, HttpParser.executes]
      refine ⟨?_, ?_⟩
      · rw [hsink, List.getLast?_cons, Option.map_some, Option.getD_some]
        dsimp only [MessageParser.executeWith]
        cases (HttpParser.executes _ _ _ _ _).getLast? <;> rfl
      · rw [herror, List.exists_mem_cons_iff]
        dsimp only [MessageParser.executeWith]
        rw [Option.isSome_or, Bool.or_eq_true]
        exact or_assoc.trans or_left_comm

/-- Calls on the segments of a message leave what the callbacks leave that are due.  The message
is complete, and none of the segments is empty. -/
theorem executesWith_due {refuses : Bool}
    (herror : ∀ x, (errorOf x).isSome = (x.httpErrno.isSome || refuses && x.parser.upgrade))
    (data : μ) (hne : ∀ bs ∈ bss, bs ≠ []) (hnil : bss ≠ [])
    (hmsg : (init t).IsMessage bss.flatten)
    (hcalls : scanner.calls bss (init t) 0 = some (R, p')) :
    let due := c.settings.notify bss.flatten R (MessageParser.new t data).toSink
    (executesWith c errorOf (.new t data) bss).toSink = due.1 ∧
      (executesWith c errorOf (.new t data) bss).hasError =
        (due.2.isSome || refuses && p'.upgrade) := by
  obtain ⟨hran, -⟩ := executes_eq c.settings [] hnil hne (calm_init t) hmsg hcalls
    (MessageParser.new t data).toSink
  obtain ⟨hsink, herr⟩ := executesWith_eq c errorOf (.new t data) bss
  change (executesWith _ _ _ _).toSink = ((executes c.settings bss (init t) none
    (MessageParser.new t data).toSink).getLast?.map Result.data).getD _ at hsink
  rw [List.nil_append] at hran
  rw [hran.data, Option.getD_some] at hsink
  refine ⟨hsink, ?_⟩
  rw [MessageParser.hasError, Bool.eq_iff_iff, herr]
  simp only [herror, Bool.or_eq_true, Bool.and_eq_true]
  have hfresh : ¬(MessageParser.new t data).error.isSome = true := Bool.false_ne_true
  rw [or_iff_right hfresh, ← hran.failed]
  constructor
  · rintro ⟨x, hx, hfail | ⟨hrefuses, hup⟩⟩
    · exact Or.inl ⟨x, hx, hfail⟩
    · by_cases hdue : (c.settings.notify bss.flatten R (MessageParser.new t data).toSink).2 = none
      · exact Or.inr ⟨hrefuses, (hran.upgrade hdue).1 ⟨x, hx, hup⟩⟩
      · exact Or.inl (hran.failed.2 (Option.isSome_iff_ne_none.2 hdue))
  · rintro (⟨x, hx, hfail⟩ | ⟨hrefuses, hup⟩)
    · exact ⟨x, hx, Or.inl hfail⟩
    · by_cases hdue : (c.settings.notify bss.flatten R (MessageParser.new t data).toSink).2 = none
      · obtain ⟨x, hx, hxup⟩ := (hran.upgrade hdue).2 hup
        exact ⟨x, hx, Or.inr ⟨hrefuses, hxup⟩⟩
      · obtain ⟨x, hx, hfail⟩ := hran.failed.2 (Option.isSome_iff_ne_none.2 hdue)
        exact ⟨x, hx, Or.inl hfail⟩

/-- The same of callbacks that refine those that store what a message shows.  It is stated of
requests and of responses at once. -/
theorem executesWith_outcome (hrel : c.settings.Refines (shownSettings store) rel) {refuses : Bool}
    (herror : ∀ x, (errorOf x).isSome = (x.httpErrno.isSome || refuses && x.parser.upgrade))
    {data : μ} {t₀ : τ} (hblank : rel (MessageParser.new t data).toSink (blank t₀))
    (hne : ∀ bs ∈ bss, bs ≠ []) (hnil : bss ≠ []) (hmsg : (init t).IsMessage bss.flatten)
    (hcalls : scanner.calls bss (init t) 0 = some (R, p')) :
    let o := outcome store t₀ (refuses && p'.upgrade) bss.flatten R
    rel (executesWith c errorOf (.new t data) bss).toSink o.1 ∧
      (executesWith c errorOf (.new t data) bss).hasError = o.2 := by
  obtain ⟨hshown, hdue⟩ := hrel.notify bss.flatten R hblank
  obtain ⟨hsink, herr⟩ := executesWith_due (c := c) herror data hne hnil hmsg hcalls
  rw [outcome, herr, hsink, hdue]
  exact ⟨hshown, rfl⟩

/-- The reports of one call.  They come from the scanner of `Lib.Segmentation`. -/
def reports (t : ParserType) (input : Bytes) : List Rep :=
  ((scanner.call input (init t) 0).map (·.1)).getD []

/-- The reports of calls on the segments.  They are those of one call, with the texts cut. -/
def pieceReports (t : ParserType) (bss : List Bytes) : List Rep :=
  (reports t bss.flatten).flatMap (scanner.expand (starts bss 0))

/-- A message has reports, in pieces and whole, and the first line comes first in them. -/
theorem calls_of_isMessage (hne : ∀ bs ∈ bss, bs ≠ []) (hmsg : (init t).IsMessage bss.flatten) :
    bss ≠ [] ∧ LineFirst ((reports t bss.flatten).map repInLine) ∧ ∃ p',
      scanner.calls bss (init t) 0 = some (pieceReports t bss, p') ∧
      scanner.call bss.flatten (init t) 0 = some (reports t bss.flatten, p') := by
  obtain ⟨p', W, hcall⟩ := call_of_isMessage (calm_init t) hmsg
  obtain ⟨R, m', hscan, rfl, -⟩ := hcall.scan
  have hone : scanner.call bss.flatten (init t) 0 = some (R ++ flush bss.flatten.length m', p') := by
    rw [call]
    change (scanner.scan bss.flatten (init t) 0 ((init t).reopen.map (·, 0))).map _ = _
    rw [hscan, Option.map_some, Nat.zero_add]
  have hreports : reports t bss.flatten = R ++ flush bss.flatten.length m' := by
    rw [reports, hone]
    rfl
  have hnil : bss ≠ [] := by
    rintro rfl
    rcases hmsg with h | h <;> cases t <;> cases h
  rw [pieceReports, hreports]
  exact ⟨hnil, hcall.lineFirst, p',
    calls_eq_expand scanner_lawful (calm_init t).tidy hnil hne hone, hone⟩

/-- One segment is one call. -/
theorem calls_singleton {input : Bytes} {p : HttpParser}
    (h : scanner.call input p 0 = some (R, p')) : scanner.calls [input] p 0 = some (R, p') := by
  rw [calls, h]
  simp [calls]

end Calls

/-- The outcome, text by text.  The URLs first, then the others. -/
theorem outcome_eq (store : Bytes → τ → Option τ) (t₀ : τ) (refused : Bool) (input : Bytes)
    {R : List Rep} (h : LineFirst (R.map repInLine)) :
    outcome store t₀ refused input R =
      if (storeUrls store (urlTexts input R) t₀).2 then
        (afterTexts input R (blank (storeUrls store (urlTexts input R) t₀).1), refused)
      else (blank (storeUrls store (urlTexts input R) t₀).1, true) := by
  rw [outcome, notify_shown store input h]
  by_cases hok : (storeUrls store (urlTexts input R) (blank t₀).target).2 = true
  · rw [if_pos hok]
    exact (if_pos hok).symm
  · rw [if_neg hok]
    exact (if_neg hok).symm

/-! ### Requests and responses -/

/-- Path, query and fragment.  They are what a request keeps of its URL. -/
structure Target where
  path : Bytes
  query : Bytes
  fragment : Bytes
  deriving DecidableEq

/-- `on_request_url_cb`, on these.  It is refused where `http_parser_parse_url` fails, and a
part that is not there stays as it was. -/
def Target.store (buf : Bytes) (t : Target) : Option Target :=
  (parseUrl buf).map fun u =>
    { path := (u.text buf .path).getD t.path
      query := (u.text buf .query).getD t.query
      fragment := (u.text buf .fragment).getD t.fragment }

/-- The target of a new request.  It is that of the constructor. -/
def Target.start : Target := ⟨StringUtil.text "/", [], []⟩

/-- The request that the callbacks make of what they get to know.  Method and version are those
of the head. -/
def requestOf (s : Shown Target) : HttpRequest :=
  { HttpRequest.new 0x11 true with
    method := (s.head.map fun h => HttpMethod.of h.method).getD (.of .get)
    version := (s.head.map headVersion).getD 0x11
    path := s.target.path
    query := s.target.query
    fragment := s.target.fragment
    headers := s.headers
    body := s.body }

/-- The parser of a request has made this of what it got to know.  It is a relation for the
callbacks to keep. -/
structure RequestShows (s : Sink HttpRequest) (x : Shown Target) : Prop where
  data : s.data = requestOf x
  finished : s.finished = x.finished
  field : s.field = x.field

/-- The parser of a response shows what it got to know.  Its target is nothing. -/
structure ResponseShows (s : Sink HttpResponse) (x : Shown Unit) : Prop where
  headers : s.data.headers = x.headers
  body : s.data.body = x.body
  finished : s.finished = x.finished
  field : s.field = x.field

/-- The callbacks for requests keep it: what they store is what the texts show. -/
theorem request_refines :
    requestCallbacks.settings.Refines (shownSettings Target.store) RequestShows where
  onData k buf {s x} h := by
    obtain ⟨data, finished, field⟩ := s
    obtain ⟨rfl, rfl, rfl⟩ := h
    cases k with
    | url =>
        change Option.Rel _ ((onRequestUrl buf (requestOf x)).map _) ((Target.store buf _).map _)
        rw [onRequestUrl, Target.store]
        cases parseUrl buf with
        | none => exact .none
        | some u => exact .some ⟨rfl, rfl, rfl⟩
    | _ => exact .some ⟨rfl, rfl, rfl⟩
  onNotify n {s x} h := by
    obtain ⟨data, finished, field⟩ := s
    obtain ⟨rfl, rfl, rfl⟩ := h
    cases n <;> exact ⟨rfl, rfl, rfl⟩

/-- The callbacks for responses keep it. -/
theorem response_refines :
    responseCallbacks.settings.Refines (shownSettings fun _ => some) ResponseShows where
  onData k buf {s x} h := by
    cases k with
    | url => exact .some h
    | status c => exact .some ⟨h.headers, h.body, h.finished, h.field⟩
    | headerField => exact .some ⟨h.headers, h.body, h.finished, rfl⟩
    | headerValue =>
        refine .some ⟨?_, h.body, h.finished, h.field⟩
        change s.data.headers.set s.field buf = x.headers.set x.field buf
        rw [h.headers, h.field]
    | body =>
        refine .some ⟨h.headers, ?_, h.finished, h.field⟩
        change s.data.body ++ buf = x.body ++ buf
        rw [h.body]
  onNotify n {s x} h := by
    cases n with
    | messageComplete => exact ⟨h.headers, h.body, rfl, h.field⟩
    | _ => exact ⟨h.headers, h.body, h.finished, h.field⟩

/-- It holds of a new parser of requests. -/
theorem request_blank :
    RequestShows (MessageParser.new .request (HttpRequest.new 0x11 true)).toSink (blank .start) :=
  ⟨rfl, rfl, rfl⟩

/-- It holds of a new parser of responses. -/
theorem response_blank :
    ResponseShows (MessageParser.new .response (HttpResponse.new 0x11 true)).toSink (blank ()) :=
  ⟨rfl, rfl, rfl, rfl⟩

/-- The pieces of the URL, parsed one after another, leave the path, the query and the fragment
that the whole URL leaves, and are accepted if it is.  Whether that is so is read off the places
of the cuts in `UrlCuts`. -/
def UrlHarmless (bss : List Bytes) : Prop :=
  storeUrls Target.store (urlTexts bss.flatten (pieceReports .request bss)) .start =
    storeUrls Target.store (urlTexts bss.flatten (reports .request bss.flatten)) .start

/-- The names and the values, each cut down to its last piece, give the headers that the whole
ones give.  Whether that is so is read off the places of the cuts in `Cuts`. -/
def HeadersHarmless (t : ParserType) (bss : List Bytes) : Prop :=
  headersOf bss.flatten ((reports t bss.flatten).map (scanner.last (starts bss 0))) =
    headersOf bss.flatten (reports t bss.flatten)

/-- The URL is accepted.  It is the URL of one call on the whole message. -/
def UrlAccepted (input : Bytes) : Prop :=
  (storeUrls Target.store (urlTexts input (reports .request input)) .start).2 = true

/-- The headers of the pieces are those of the last piece of each text. -/
theorem headersOf_pieces (t : ParserType) (bss : List Bytes) :
    headersOf bss.flatten (pieceReports t bss) =
      headersOf bss.flatten ((reports t bss.flatten).map (scanner.last (starts bss 0))) :=
  congrArg Prod.snd (storeText_expand bss.flatten (reports t bss.flatten) ([], .empty))

/-- What the texts in pieces leave, but for the headers and the last name, is what the whole
texts leave.  The body and the head do not change. -/
theorem afterTexts_pieces {t : ParserType} {bss : List Bytes} (hne : ∀ bs ∈ bss, bs ≠ [])
    (target : τ) :
    afterTexts bss.flatten (pieceReports t bss) (blank target) =
      { afterTexts bss.flatten (reports t bss.flatten) (blank target) with
        headers := headersOf bss.flatten (pieceReports t bss)
        field := ((pieceReports t bss).foldl (storeText bss.flatten) ([], .empty)).1 } := by
  rw [afterTexts, pieceReports, bodyText_expand (starts_sorted hne 0), isEnd_expand,
    storeHead_expand]
  rfl

end Http

open Http

/-- What can be asked of a parser: its target, its headers, its body, `isFinished()` and
`hasError()`.  The fields that no method gives away are left out. -/
structure Seen (τ : Type) where
  target : τ
  headers : MapType
  body : Bytes
  finished : Bool
  hasError : Bool

namespace HttpRequestParser

/-- `HttpRequestParser::execute` on one segment after another. -/
def executes (r : HttpRequestParser) (bss : List Bytes) : HttpRequestParser :=
  bss.foldl (fun r bs => (r.execute bs).1) r

/-- What can be asked of a parser of requests. -/
def seen (r : HttpRequestParser) : Seen Target :=
  { target := ⟨r.data.path, r.data.query, r.data.fragment⟩
    headers := r.data.headers
    body := r.data.body
    finished := r.finished
    hasError := r.hasError }

end HttpRequestParser

namespace HttpResponseParser

/-- `HttpResponseParser::execute` on one segment after another. -/
def executes (r : HttpResponseParser) (bss : List Bytes) : HttpResponseParser :=
  bss.foldl (fun r bs => (r.execute bs).1) r

/-- What can be asked of a parser of responses. -/
def seen (r : HttpResponseParser) : Seen Unit :=
  { target := ()
    headers := r.data.headers
    body := r.data.body
    finished := r.finished
    hasError := r.hasError }

end HttpResponseParser

namespace Http

open Lib Lib.Scanner

/-- What is seen of an outcome.  The target, the headers, the body, the end and the error. -/
def seenOf {τ : Type} (o : Shown τ × Bool) : Seen τ :=
  { target := o.1.target
    headers := o.1.headers
    body := o.1.body
    finished := o.1.finished
    hasError := o.2 }

section Seen

variable {bss : List Bytes}

/-- A message is not empty. -/
theorem ne_nil_of_isMessage {t : ParserType} {input : Bytes} (h : (init t).IsMessage input) :
    ∀ bs ∈ [input], bs ≠ [] := by
  intro bs hbs
  rw [List.mem_singleton.1 hbs]
  rintro rfl
  rcases h with h | h <;> cases t <;> cases h

/-- The parser has this outcome.  What it shows, and its error. -/
def RequestHas (r : HttpRequestParser) (o : Shown Target × Bool) : Prop :=
  RequestShows r.toSink o.1 ∧ r.hasError = o.2

/-- A parser of responses has this outcome. -/
def ResponseHas (r : HttpResponseParser) (o : Shown Unit × Bool) : Prop :=
  ResponseShows r.toSink o.1 ∧ r.hasError = o.2

/-- Calls on the segments of a request, and one call on all of it, text by text.  A request for
an upgrade is refused in both. -/
theorem request_outcomes (hne : ∀ bs ∈ bss, bs ≠ [])
    (hmsg : (init .request).IsMessage bss.flatten) :
    ∃ refused,
      RequestHas (HttpRequestParser.new.executes bss)
        (outcome Target.store .start refused bss.flatten (pieceReports .request bss)) ∧
      RequestHas (HttpRequestParser.new.execute bss.flatten).1
        (outcome Target.store .start refused bss.flatten (reports .request bss.flatten)) := by
  obtain ⟨hnil, hline, p', hcalls, hone⟩ := calls_of_isMessage hne hmsg
  have hflat : [bss.flatten].flatten = bss.flatten := List.flatten_singleton
  have hmsg' : (init .request).IsMessage [bss.flatten].flatten := by
    rw [hflat]
    exact hmsg
  have hsingle := executesWith_outcome request_refines HttpRequestParser.errorOf_isSome
    request_blank (ne_nil_of_isMessage hmsg) (List.cons_ne_nil _ _) hmsg' (calls_singleton hone)
  rw [hflat] at hsingle
  exact ⟨_, executesWith_outcome request_refines HttpRequestParser.errorOf_isSome request_blank hne
    hnil hmsg hcalls, hsingle⟩

/-- Calls on the segments of a response, and one call on all of it, text by text. -/
theorem response_outcomes (hne : ∀ bs ∈ bss, bs ≠ [])
    (hmsg : (init .response).IsMessage bss.flatten) :
    ResponseHas (HttpResponseParser.new.executes bss)
        (outcome (fun _ => some) () false bss.flatten (pieceReports .response bss)) ∧
      ResponseHas (HttpResponseParser.new.execute bss.flatten).1
        (outcome (fun _ => some) () false bss.flatten (reports .response bss.flatten)) := by
  obtain ⟨hnil, hline, p', hcalls, hone⟩ := calls_of_isMessage hne hmsg
  have herror : ∀ x, (HttpResponseParser.errorOf x).isSome =
      (x.httpErrno.isSome || false && x.parser.upgrade) := fun x => (Bool.or_false _).symm
  have hflat : [bss.flatten].flatten = bss.flatten := List.flatten_singleton
  have hmsg' : (init .response).IsMessage [bss.flatten].flatten := by
    rw [hflat]
    exact hmsg
  have hsingle := executesWith_outcome response_refines herror response_blank
    (ne_nil_of_isMessage hmsg) (List.cons_ne_nil _ _) hmsg' (calls_singleton hone)
  rw [hflat] at hsingle
  exact ⟨executesWith_outcome response_refines herror response_blank hne hnil hmsg hcalls, hsingle⟩

/-- What is seen of a parser with this outcome. -/
theorem request_seen {r : HttpRequestParser} {o : Shown Target × Bool}
    (h : RequestHas r o) : r.seen = seenOf o := by
  obtain ⟨⟨hdata, hfinished, -⟩, herror⟩ := h
  rw [HttpRequestParser.seen, hdata, hfinished, herror]
  rfl

/-- What is seen of a parser of responses with this outcome. -/
theorem response_seen {r : HttpResponseParser} {o : Shown Unit × Bool}
    (h : ResponseHas r o) : r.seen = seenOf o := by
  obtain ⟨⟨hheaders, hbody, hfinished, -⟩, herror⟩ := h
  rw [HttpResponseParser.seen, hheaders, hbody, hfinished, herror]
  rfl

/-- **Requests in segments, text by text.** What is seen after calls of
`HttpRequestParser::execute` (`src/hiper/http/http_parser.cc:234`) on the segments is what is
seen after one call on the whole request exactly when the pieces of the URL leave the target
that the URL leaves, and, unless the URL is refused anyway, the last pieces of names and values
leave the headers that the whole ones leave.  Where cuts must lie for that is the matter of
`segments_agree_iff`. -/
theorem request_seen_iff (hne : ∀ bs ∈ bss, bs ≠ [])
    (hmsg : (init .request).completes bss.flatten = true) :
    (HttpRequestParser.new.executes bss).seen = (HttpRequestParser.new.execute bss.flatten).1.seen ↔
      UrlHarmless bss ∧ (UrlAccepted bss.flatten → HeadersHarmless .request bss) := by
  obtain ⟨-, hline, p', -, hone⟩ := calls_of_isMessage (t := .request) hne (Or.inl hmsg)
  obtain ⟨refused, hmany, hsingle⟩ := request_outcomes hne (Or.inl hmsg)
  have hends : (reports .request bss.flatten).any isEnd = true :=
    List.any_eq_true.2 ⟨_, ends_of_completes (calm_init _) hmsg hone, rfl⟩
  have hpieces : LineFirst ((pieceReports .request bss).map repInLine) := lineFirst_expand hline
  rw [request_seen hmany, request_seen hsingle, outcome_eq _ _ _ _ hpieces,
    outcome_eq _ _ _ _ hline, UrlHarmless, UrlAccepted, HeadersHarmless, ← headersOf_pieces,
    afterTexts_pieces hne]
  generalize storeUrls Target.store (urlTexts bss.flatten (pieceReports .request bss)) .start = u
  generalize storeUrls Target.store (urlTexts bss.flatten (reports .request bss.flatten)) .start = u'
  obtain ⟨t, ok⟩ := u
  obtain ⟨t', ok'⟩ := u'
  cases ok <;> cases ok' <;>
    simp [seenOf, afterTexts, blank, hends, headersOf]

/-- **Responses in segments, text by text.** The same of `HttpResponseParser::execute`
(`src/hiper/http/http_parser.cc:364`), where there is no URL: a cut inside the reason phrase,
the body or a chunk's size changes nothing, and the last pieces of names and values must leave
the headers. -/
theorem response_seen_iff (hne : ∀ bs ∈ bss, bs ≠ [])
    (hmsg : (init .response).IsMessage bss.flatten) :
    (HttpResponseParser.new.executes bss).seen =
        (HttpResponseParser.new.execute bss.flatten).1.seen ↔
      HeadersHarmless .response bss := by
  obtain ⟨-, hline, -⟩ := calls_of_isMessage hne hmsg
  obtain ⟨hmany, hsingle⟩ := response_outcomes hne hmsg
  have haccepts : ∀ us : List Bytes, storeUrls (fun _ => some) us () = ((), true) := by
    intro us
    induction us with
    | nil => rfl
    | cons u us ih => exact ih
  have hpieces : LineFirst ((pieceReports .response bss).map repInLine) := lineFirst_expand hline
  rw [response_seen hmany, response_seen hsingle, outcome_eq _ _ _ _ hpieces,
    outcome_eq _ _ _ _ hline, HeadersHarmless, ← headersOf_pieces, afterTexts_pieces hne, haccepts,
    haccepts]
  simp [seenOf, afterTexts, blank, headersOf]

end Seen

end Http

end Hiper

import Hiper.Http.Cuts
import Hiper.Stream.Basic

/-!
# `HttpSession::recvRequest`

A session reads from its socket until a parser has a request.  The parser and the
buffer are new for each request, and nothing of them is kept: what a read brings
behind the end of a request is given to the parser of that request, and is lost
with it.

The source is `src/hiper/http/http_session.cc:18`.  `recvRequest` is a function on the list
of what the reads of the socket bring, and returns the reads it did not use with its result,
so that calls one after another are a run of the session.  When requests end where reads end
nothing is lost between them, and the cuts inside a request decide (`recvRequests_iff`);
when they do not, requests are lost (`one_read_loses`).
-/

namespace Hiper

open HttpParser Http

namespace HttpSession

/-- The loop of `recvRequest`: the answers of `read`, where none or an empty one is an answer of
0 or less, the parser, and what is left in the buffer of what was read.  The request, if there
is no error, and the answers that were not used; a closed session gets no more of them.  The
memory of the buffer is the matter of `ReceiveWindow`. -/
def recvLoop (buffSize : ℕ) :
    List Bytes → HttpRequestParser → Bytes → Option HttpRequest × List Bytes
  | [], _, _ => (none, [])
  | bs :: rest, r, left =>
    if bs = [] then (none, [])
    else
      let res := r.execute (left ++ bs)
      if res.1.hasError then (none, [])
      else
        let left := (left ++ bs).drop res.2
        if (left.length : ℤ) = toInt buffSize then (none, [])
        else if res.1.finished then (some res.1.data.init, rest)
        else recvLoop buffSize rest res.1 left

/-- `HttpSession::recvRequest`.  The parser is new and nothing is left over. -/
def recvRequest (buffSize : ℕ) (reads : List Bytes) : Option HttpRequest × List Bytes :=
  recvLoop buffSize reads .new []

/-- `recvRequest`, so many times.  Each goes on where the one before stopped to read. -/
def recvRequests (buffSize : ℕ) : ℕ → List Bytes → List (Option HttpRequest)
  | 0, _ => []
  | n + 1, reads =>
    let one := recvRequest buffSize reads
    one.1 :: recvRequests buffSize n one.2

/-- The request that a parser makes of these bytes alone.  It is initialised, as `recvRequest`
does before it returns. -/
def alone (bs : Bytes) : HttpRequest := (HttpRequestParser.new.execute bs).1.data.init

/-- A complete request that a parser accepts alone.  Whether its bytes come in one read or in
many is left open. -/
structure IsRequest (bs : Bytes) : Prop where
  complete : (HttpParser.init .request).completes bs = true
  accepted : (HttpRequestParser.new.execute bs).1.hasError = false

open Lib Lib.Scanner

/-! ### One call -/

section Finished

variable {μ : Type} {c : Callbacks μ} {data : Bytes} {R : List Rep} {s : Sink μ}

/-- The callbacks that get texts leave the end of the message alone. -/
theorem onData_finished {k : DataCb} {buf : Bytes} {s' : Sink μ}
    (h : c.settings.onData k buf s = some s') : s'.finished = s.finished := by
  cases k with
  | url =>
      obtain ⟨data, -, rfl⟩ := Option.map_eq_some_iff.1 h
      rfl
  | _ =>
      cases h
      rfl

/-- Without `on_message_complete` a parser is finished if it was. -/
theorem notify_finished (h : Report.note .messageComplete ∉ R) :
    (c.settings.notify data R s).1.finished = s.finished := by
  induction R generalizing s with
  | nil => rfl
  | cons r R ih =>
      have hrest : Report.note .messageComplete ∉ R := fun hmem => h (List.mem_cons_of_mem _ hmem)
      cases r with
      | note n =>
          rw [Settings.notify, ih hrest]
          cases n with
          | messageComplete => exact absurd (List.mem_cons_self ..) h
          | _ => rfl
      | text k a b =>
          rw [Settings.notify]
          cases hs : c.settings.onData k (slice data a b) s with
          | none => rfl
          | some s' => exact (ih hrest).trans (onData_finished hs)

/-- What is finished stays so. -/
theorem notify_stays_finished (h : s.finished = true) :
    (c.settings.notify data R s).1.finished = true := by
  induction R generalizing s with
  | nil => exact h
  | cons r R ih =>
      cases r with
      | note n => exact ih (by cases n <;> first | exact h | rfl)
      | text k a b =>
          rw [Settings.notify]
          cases hs : c.settings.onData k (slice data a b) s with
          | none => exact h
          | some s' => exact ih ((onData_finished hs).trans h)

/-- With it, it is, unless a callback fails.  The end is reported last. -/
theorem notify_ends (h : Report.note .messageComplete ∈ R)
    (hok : (c.settings.notify data R s).2 = none) :
    (c.settings.notify data R s).1.finished = true := by
  induction R generalizing s with
  | nil => cases h
  | cons r R ih =>
      cases r with
      | note n =>
          rw [Settings.notify] at hok ⊢
          rcases List.mem_cons.1 h with h | h
          · cases h
            exact notify_stays_finished rfl
          · exact ih h hok
      | text k a b =>
          rw [Settings.notify] at hok ⊢
          cases hs : c.settings.onData k (slice data a b) s with
          | none =>
              rw [hs] at hok
              cases hok
          | some s' =>
              rw [hs] at hok
              rcases List.mem_cons.1 h with h | h
              · cases h
              · exact ih h hok

end Finished

section Loop

variable {r : HttpRequestParser} {bs : Bytes} {due : Sink HttpRequest × Option Errno}
  {q p' : HttpParser} {len : ℕ} {bss : List Bytes} {R : List Rep} {buffSize : ℕ}

/-- A call in which a callback fails leaves an error. -/
theorem execute_failed
    (h : (r.parser.execute requestCallbacks.settings r.httpErrno bs r.toSink).Leaves due q len)
    {e : Errno} (he : due.2 = some e) : (r.execute bs).1.hasError = true := by
  have herrno := h.httpErrno
  rw [he] at herrno
  change ((HttpRequestParser.errorOf _).or r.error).isSome = true
  rw [Option.isSome_or, HttpRequestParser.errorOf_isSome, herrno]
  rfl

/-- A call in which no callback fails is put together from what is due. -/
theorem execute_ok
    (h : (r.parser.execute requestCallbacks.settings r.httpErrno bs r.toSink).Leaves due q len)
    (hok : due.2 = none) (herror : r.error = none) :
    r.execute bs =
      ({ toSink := due.1
         parser := q
         httpErrno := none
         error := if q.upgrade then some .unknown else none }, len) := by
  obtain ⟨hparser, hlen⟩ := h.rest hok
  have herrno := h.httpErrno
  rw [hok] at herrno
  rw [HttpRequestParser.execute, MessageParser.executeWith]
  dsimp only
  rw [h.data, hparser, hlen, herrno, herror, Option.or_none, HttpRequestParser.errorOf, hparser,
    herrno]

/-- The parser of a request that goes on without an error.  It is not finished. -/
structure Going (r : HttpRequestParser) : Prop where
  calm : r.parser.Calm
  httpErrno : r.httpErrno = none
  error : r.error = none
  unfinished : r.finished = false

/-- A new parser goes on. -/
theorem going_new : Going HttpRequestParser.new := ⟨calm_init _, rfl, rfl, rfl⟩

/-- One turn of the loop: nothing is left in the buffer.  The whole of the read is parsed, and
the parser's answer decides whether the loop goes on. -/
theorem recvLoop_step (hbs : bs ≠ []) (hr : Going r)
    (h : (r.parser.execute requestCallbacks.settings none bs r.toSink).Leaves due q bs.length)
    (hB : toInt buffSize ≠ 0) (rest : List Bytes) :
    recvLoop buffSize (bs :: rest) r [] =
      if due.2.isSome || q.upgrade then (none, [])
      else if due.1.finished then (some due.1.data.init, rest)
      else recvLoop buffSize rest
        { toSink := due.1, parser := q, httpErrno := none, error := none } [] := by
  rw [← hr.httpErrno] at h
  rw [recvLoop, if_neg hbs, List.nil_append]
  cases hdue : due.2 with
  | some e =>
      rw [if_pos (execute_failed h hdue)]
      rfl
  | none =>
      rw [execute_ok h hdue hr.error]
      cases hup : q.upgrade with
      | true => simp [MessageParser.hasError]
      | false =>
          have hleft : ((bs.drop bs.length).length : ℤ) ≠ toInt buffSize := by
            rw [List.drop_length]
            exact fun h0 => hB h0.symm
          dsimp only [MessageParser.hasError]
          rw [if_neg hleft, List.drop_length]
          rfl

/-- **The loop on the segments of a request.**  It uses up their reads, and no other, unless
there is an error.  The induction is over the segments, with what was parsed before them. -/
theorem recvLoop_message (pre : Bytes) (hnil : bss ≠ []) (hne : ∀ bs ∈ bss, bs ≠ []) (hr : Going r)
    (hmsg : r.parser.completes bss.flatten = true)
    (hcalls : scanner.calls bss r.parser pre.length = some (R, p')) (hB : toInt buffSize ≠ 0)
    (rest : List Bytes) :
    let due := requestCallbacks.settings.notify (pre ++ bss.flatten) R r.toSink
    recvLoop buffSize (bss ++ rest) r [] =
      if due.2.isSome || p'.upgrade then (none, []) else (some due.1.data.init, rest) := by
  induction bss generalizing r pre R with
  | nil => exact absurd rfl hnil
  | cons bs bss ih =>
      have hbs := hne bs (List.mem_cons_self ..)
      obtain ⟨R₁, q, R₂, hcall, hcalls', rfl⟩ := exists_of_calls hcalls
      dsimp only
      rw [List.cons_append]
      cases bss with
      | nil =>
          cases hcalls'
          rw [List.flatten_singleton] at hmsg ⊢
          obtain ⟨p', W, hc⟩ := call_of_isMessage hr.calm (Or.inl hmsg)
          obtain ⟨R, m', hscan, -, hopen⟩ := hc.scan
          obtain ⟨rfl, hleaves⟩ := execute_at requestCallbacks.settings pre [] hbs
            hc.steady hscan hopen hcall r.toSink
          rw [List.append_nil] at hleaves ⊢
          rw [recvLoop_step hbs hr hleaves hB]
          have hends := ends_of_completes hr.calm hmsg hcall
          by_cases hdue : (requestCallbacks.settings.notify (pre ++ bs) R₁ r.toSink).2 = none
          · rw [notify_ends hends hdue, if_pos rfl, List.nil_append]
          · rw [Option.isSome_iff_ne_none.2 hdue, Bool.true_or, if_pos rfl, if_pos rfl]
      | cons bs' bss =>
          have hrestne : (bs' :: bss).flatten ≠ [] := by
            have hbs' := hne bs' (List.mem_cons_of_mem _ (List.mem_cons_self ..))
            rw [List.flatten_cons]
            exact List.append_ne_nil_of_left_ne_nil hbs' _
          have hne' : ∀ b ∈ bs' :: bss, b ≠ [] := fun b hb => hne b (List.mem_cons_of_mem _ hb)
          rw [List.flatten_cons] at hmsg
          obtain ⟨q₁, hq₁, hmsg'⟩ := completes_split hmsg hrestne
          obtain ⟨es, hquiet⟩ := quiet_of_quietly hr.calm hq₁
          obtain ⟨R, m', hscan, -⟩ := hquiet.reports 0 (r.parser.reopen.map (·, 0))
          obtain ⟨rfl, hleaves⟩ := execute_at requestCallbacks.settings pre (bs' :: bss).flatten
            hbs (steady_of_quietly_self hq₁) hscan (fun _ => unbroken_of_quietly hq₁) hcall r.toSink
          rw [← List.length_append] at hcalls'
          have hflat : pre ++ (bs :: bs' :: bss).flatten = pre ++ bs ++ (bs' :: bss).flatten := by
            rw [List.flatten_cons, List.append_assoc]
          rw [hflat, recvLoop_step hbs hr hleaves hB]
          cases hdue : (requestCallbacks.settings.notify (pre ++ bs ++ (bs' :: bss).flatten) R₁
            r.toSink).2 with
          | some e =>
              rw [notify_failed (by rw [hdue]; nofun), hdue, Option.isSome_some, Bool.true_or,
                Bool.true_or, if_pos rfl, if_pos rfl]
          | none =>
              rw [notify_ok hdue]
              cases hup : q.upgrade with
              | true =>
                  have hup' := (executes_eq requestCallbacks.settings _
                    (List.cons_ne_nil bs' bss) hne' hquiet.calm (Or.inl hmsg') hcalls' r.toSink).2
                    hup
                  rw [hup']
                  simp
              | false =>
                  have hfin : (requestCallbacks.settings.notify (pre ++ bs ++ (bs' :: bss).flatten) R₁
                      r.toSink).1.finished = false :=
                    (notify_finished (not_ends_of_quietly hq₁ hcall)).trans hr.unfinished
                  have hrec := ih (r := { toSink := _, parser := q, httpErrno := none, error := none }) _
                    (List.cons_ne_nil bs' bss) hne' ⟨hquiet.calm, rfl, rfl, hfin⟩ hmsg' hcalls'
                  rw [hfin, Option.isSome_none, Bool.false_or, if_neg Bool.false_ne_true,
                    if_neg Bool.false_ne_true]
                  exact hrec

end Loop

/-! ### Requests in segments -/

section Requests

variable {bss : List Bytes} {buffSize : ℕ}

/-- `recvRequest` on the segments of a request is a parser on them.  The reads behind them stay
for the next call. -/
theorem recvRequest_message (hne : ∀ bs ∈ bss, bs ≠ [])
    (hmsg : (HttpParser.init .request).completes bss.flatten = true) (hB : toInt buffSize ≠ 0)
    (rest : List Bytes) :
    recvRequest buffSize (bss ++ rest) =
      if (HttpRequestParser.new.executes bss).hasError then (none, [])
      else (some (HttpRequestParser.new.executes bss).data.init, rest) := by
  obtain ⟨hnil, -, p', hcalls, -⟩ := calls_of_isMessage hne (Or.inl hmsg)
  have hloop := recvLoop_message [] hnil hne going_new hmsg hcalls hB rest
  obtain ⟨hsink, herror⟩ := executesWith_due (c := requestCallbacks)
    HttpRequestParser.errorOf_isSome (HttpRequest.new 0x11 true) hne hnil (Or.inl hmsg) hcalls
  have hsink' : (HttpRequestParser.new.executes bss).toSink = _ := hsink
  have herror' : (HttpRequestParser.new.executes bss).hasError = _ := herror
  rw [recvRequest, hloop, hsink', herror', Bool.true_and]
  rfl

/-- Where the end is reported and nothing fails the message is finished. -/
theorem outcome_finished {τ : Type} {store : Bytes → τ → Option τ} {t₀ : τ} {refused : Bool}
    {input : Bytes} {R : List Rep} (h : LineFirst (R.map repInLine)) (hends : R.any isEnd = true)
    (hok : (outcome store t₀ refused input R).2 = false) :
    (outcome store t₀ refused input R).1.finished = true := by
  rw [outcome_eq _ _ _ _ h] at hok ⊢
  split_ifs at hok ⊢
  exact hends

/-- `init` only sets whether the connection is closed. -/
theorem init_eq (r : HttpRequest) : ∃ close, r.init = { r with close := close } := by
  rw [HttpRequest.init]
  split_ifs
  · exact ⟨r.close, rfl⟩
  · exact ⟨_, rfl⟩

/-- Without an error the head is that of the whole request.  The head is reported once, and is
not a text. -/
theorem outcome_head {refused : Bool} (hne : ∀ bs ∈ bss, bs ≠ [])
    (hline : LineFirst ((reports .request bss.flatten).map repInLine))
    (hmany : (outcome Target.store .start refused bss.flatten (pieceReports .request bss)).2 = false)
    (hone : (outcome Target.store .start refused bss.flatten (reports .request bss.flatten)).2 =
      false) :
    (outcome Target.store .start refused bss.flatten (pieceReports .request bss)).1.head =
      (outcome Target.store .start refused bss.flatten (reports .request bss.flatten)).1.head := by
  have hpieces : LineFirst ((pieceReports .request bss).map repInLine) := lineFirst_expand hline
  rw [outcome_eq _ _ _ _ hpieces, afterTexts_pieces hne] at hmany ⊢
  rw [outcome_eq _ _ _ _ hline] at hone ⊢
  split_ifs at hmany hone ⊢
  rfl

/-- Requests are the same when the same is seen and the head is the same. -/
theorem requestOf_congr {x y : Shown Target} {e e' : Bool} (h : seenOf (x, e) = seenOf (y, e'))
    (hhead : x.head = y.head) : requestOf x = requestOf y := by
  rw [seenOf, seenOf, Seen.mk.injEq] at h
  obtain ⟨htarget, hheaders, hbody, -, -⟩ := h
  rw [requestOf, requestOf, htarget, hheaders, hbody, hhead]

/-- On the segments of a request `recvRequest` returns what a parser makes of the request alone,
exactly when the cuts do no harm.  The groups of reads behind it do not matter. -/
theorem recvRequest_iff (hne : ∀ bs ∈ bss, bs ≠ []) (hreq : IsRequest bss.flatten)
    (hB : toInt buffSize ≠ 0) (rest : List Bytes) :
    recvRequest buffSize (bss ++ rest) = (some (alone bss.flatten), rest) ↔
      UrlHarmless bss ∧ HeadersHarmless .request bss := by
  obtain ⟨-, hline, p', -, hcall⟩ := calls_of_isMessage (t := .request) hne (Or.inl hreq.complete)
  obtain ⟨refused, hmany, hone⟩ := request_outcomes hne (Or.inl hreq.complete)
  have hpieces : LineFirst ((pieceReports .request bss).map repInLine) := lineFirst_expand hline
  have hends : (reports .request bss.flatten).any isEnd = true :=
    List.any_eq_true.2 ⟨_, ends_of_completes (calm_init _) hreq.complete hcall, rfl⟩
  have hends' : (pieceReports .request bss).any isEnd = true := by
    rw [pieceReports, isEnd_expand]
    exact hends
  have hok := hone.2.symm.trans hreq.accepted
  have haccepted : UrlAccepted bss.flatten := by
    rw [outcome_eq _ _ _ _ hline] at hok
    split_ifs at hok with h
    exact h
  have hiff := request_seen_iff hne hreq.complete
  rw [recvRequest_message hne hreq.complete hB]
  constructor
  · intro h
    split_ifs at h with herror
    · cases congrArg Prod.fst h
    · have herror' : (HttpRequestParser.new.executes bss).hasError = false := by
        simpa using herror
      have hdata : (HttpRequestParser.new.executes bss).data.init =
          (HttpRequestParser.new.execute bss.flatten).1.data.init :=
        Option.some.inj (congrArg Prod.fst h)
      obtain ⟨close, hclose⟩ := init_eq (HttpRequestParser.new.executes bss).data
      obtain ⟨close', hclose'⟩ := init_eq (HttpRequestParser.new.execute bss.flatten).1.data
      rw [hclose, hclose', HttpRequest.mk.injEq] at hdata
      obtain ⟨-, -, -, -, -, hpath, hquery, hfragment, hbody, hheaders, -, -⟩ := hdata
      have hfin := outcome_finished hpieces hends' (hmany.2.symm.trans herror')
      have hfin' := outcome_finished hline hends hok
      rw [← hmany.1.finished] at hfin
      rw [← hone.1.finished] at hfin'
      have hseen : (HttpRequestParser.new.executes bss).seen =
          (HttpRequestParser.new.execute bss.flatten).1.seen := by
        rw [HttpRequestParser.seen, HttpRequestParser.seen, hpath, hquery, hfragment, hbody,
          hheaders, hfin, hfin', herror', hreq.accepted]
      obtain ⟨hurl, hheaders⟩ := hiff.1 hseen
      exact ⟨hurl, hheaders haccepted⟩
  · rintro ⟨hurl, hheaders⟩
    have hseen := hiff.2 ⟨hurl, fun _ => hheaders⟩
    have herror : (HttpRequestParser.new.executes bss).hasError = false :=
      (congrArg Seen.hasError hseen).trans hreq.accepted
    have hhead := outcome_head hne hline (hmany.2.symm.trans herror) hok
    rw [request_seen hmany, request_seen hone] at hseen
    have hdata : (HttpRequestParser.new.executes bss).data =
        (HttpRequestParser.new.execute bss.flatten).1.data := by
      rw [hmany.1.data, hone.1.data]
      exact requestOf_congr hseen hhead
    rw [herror, hdata]
    rfl

/-- One request after another: each is returned as it is alone exactly when the cuts inside it
do no harm.  The induction is over the requests. -/
theorem recvRequests_harmless (groups : List (List Bytes)) (hne : ∀ bss ∈ groups, ∀ bs ∈ bss, bs ≠ [])
    (hreq : ∀ bss ∈ groups, IsRequest bss.flatten) (hB : toInt buffSize ≠ 0) :
    recvRequests buffSize groups.length groups.flatten =
        groups.map (fun bss => some (alone bss.flatten)) ↔
      ∀ bss ∈ groups, UrlHarmless bss ∧ HeadersHarmless .request bss := by
  induction groups with
  | nil => exact ⟨fun _ _ h => absurd h List.not_mem_nil, fun _ => rfl⟩
  | cons bss groups ih =>
      have hne₁ := hne bss (List.mem_cons_self ..)
      have hreq₁ := hreq bss (List.mem_cons_self ..)
      have hrec := ih (fun b hb => hne b (List.mem_cons_of_mem _ hb))
        (fun b hb => hreq b (List.mem_cons_of_mem _ hb))
      have hone := recvRequest_iff hne₁ hreq₁ hB groups.flatten
      rw [List.flatten_cons, List.length_cons, recvRequests, List.map_cons, List.forall_mem_cons]
      constructor
      · intro h
        obtain ⟨hhead, htail⟩ := List.cons.inj h
        have hpair : recvRequest buffSize (bss ++ groups.flatten) =
            (some (alone bss.flatten), groups.flatten) := by
          rw [recvRequest_message hne₁ hreq₁.complete hB] at hhead ⊢
          split_ifs at hhead ⊢
          exact Prod.ext hhead rfl
        rw [hpair] at htail
        exact ⟨hone.1 hpair, hrec.1 htail⟩
      · rintro ⟨hharmless, hrest⟩
        rw [hone.2 hharmless, hrec.2 hrest]

/-- **A session on requests that end where reads end.**  The groups are the segments of one
request after another, as `HttpSession::recvRequest` (`src/hiper/http/http_session.cc:18`) reads
them.  So many calls of it return the requests, each as a parser makes it alone, when no cut
between the reads lies in a URL or at its end, nor in a header's name or value or at its end.
When the requests are plain they do so for no other cuts. -/
theorem recvRequests_iff (groups : List (List Bytes)) (hne : ∀ bss ∈ groups, ∀ bs ∈ bss, bs ≠ [])
    (hreq : ∀ bss ∈ groups, IsRequest bss.flatten) (hB : toInt buffSize ≠ 0) :
    ((∀ bss ∈ groups, Spares .request bss) → recvRequests buffSize groups.length groups.flatten =
        groups.map (fun bss => some (alone bss.flatten))) ∧
      ((∀ bss ∈ groups, PlainRequest bss.flatten) →
        (recvRequests buffSize groups.length groups.flatten =
            groups.map (fun bss => some (alone bss.flatten)) ↔
          ∀ bss ∈ groups, Spares .request bss)) := by
  have hharmless := recvRequests_harmless groups hne hreq hB
  refine ⟨fun hspares => hharmless.2 fun bss hbss => ?_, fun hplain => hharmless.trans ?_⟩
  · exact ⟨(hspares bss hbss).urlHarmless, (hspares bss hbss).headersHarmless⟩
  · exact forall₂_congr fun bss hbss => ((hplain bss hbss).spares_iff (hne bss hbss)).symm

/-- The reads of two requests, the first with a cut in its body. -/
def twoRequests : List (List Bytes) :=
  [[bytes "PUT /a HTTP/1.1\r\nContent-Length: 2\r\n\r\nx".toList, bytes "y".toList],
    [bytes "GET /b HTTP/1.1\r\n\r\n".toList]]

/-- Both are plain. -/
theorem twoRequests_plain : ∀ bss ∈ twoRequests, PlainRequest bss.flatten := by
  rw [twoRequests, List.forall_mem_cons, List.forall_mem_singleton]
  refine ⟨⟨⟨4, 6, bytes "/a".toList, [], [], ?_⟩, ⟨[⟨(17, 31), (33, 34)⟩], ?_⟩⟩,
    ⟨⟨4, 6, bytes "/b".toList, [], [], ?_⟩, ⟨[], ?_⟩⟩⟩
  · exact ⟨by decide +kernel, by decide +kernel, ⟨by decide +kernel, by decide +kernel,
      by decide +kernel, by decide +kernel, by decide +kernel⟩, by decide +kernel⟩
  · exact ⟨by decide +kernel, List.pairwise_singleton ..⟩
  · exact ⟨by decide +kernel, by decide +kernel, ⟨by decide +kernel, by decide +kernel,
      by decide +kernel, by decide +kernel, by decide +kernel⟩, by decide +kernel⟩
  · exact ⟨by decide +kernel, List.Pairwise.nil⟩

/-- Both are returned as they are alone. -/
theorem recvRequests_two :
    recvRequests 4096 2 twoRequests.flatten = twoRequests.map fun bss => some (alone bss.flatten) := by
  refine ((recvRequests_iff twoRequests (by decide +kernel) ?_ (by decide)).2 twoRequests_plain).2 ?_
  · rw [twoRequests, List.forall_mem_cons, List.forall_mem_singleton]
    exact ⟨⟨by decide +kernel, by decide +kernel⟩, ⟨by decide +kernel, by decide +kernel⟩⟩
  · unfold Spares
    decide +kernel

/-- A request of HTTP/1.1 behind which the connection stays open.  Another request may follow
it. -/
structure IsKeepAlive (bs : Bytes) : Prop extends IsRequest bs where
  version : (alone bs).version = 0x11
  stays : (HttpRequestParser.new.execute bs).1.parser.state = .startReq

/-- Two requests in one read: the second is parsed into the first, and is gone.  A client that
pipelines its requests may cause such a read. -/
theorem one_read_loses : ∃ (buffSize : ℕ) (reads rs : List Bytes), (∀ r ∈ rs, IsKeepAlive r) ∧
    (∀ bs ∈ reads, bs ≠ [] ∧ bs.length ≤ buffSize) ∧ reads.flatten = rs.flatten ∧
      recvRequests buffSize rs.length reads ≠ rs.map fun r => some (alone r) := by
  refine ⟨4096, [bytes "GET /a HTTP/1.1\r\n\r\nGET /b HTTP/1.1\r\n\r\n".toList],
    [bytes "GET /a HTTP/1.1\r\n\r\n".toList, bytes "GET /b HTTP/1.1\r\n\r\n".toList], ?_,
    by decide +kernel, by decide +kernel, fun h => ?_⟩
  · rw [List.forall_mem_cons, List.forall_mem_singleton]
    exact ⟨⟨⟨by decide +kernel, by decide +kernel⟩, by decide +kernel, by decide +kernel⟩,
      ⟨⟨by decide +kernel, by decide +kernel⟩, by decide +kernel, by decide +kernel⟩⟩
  · have hpaths := congrArg (List.map (Option.map HttpRequest.path)) h
    revert hpaths
    decide +kernel

end Requests

end HttpSession

end Hiper

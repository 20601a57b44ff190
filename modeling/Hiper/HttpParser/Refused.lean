import Hiper.HttpParser.RequestHead

/-!
# Heads that are refused

Where the flags and the length cannot be put together from the lines, some byte of the
head is an error: of the value that is none, of a length told twice, of an empty length,
or the last one, when chunks and a length are told.

The errors are `HPE_INVALID_CONTENT_LENGTH` and `HPE_UNEXPECTED_CONTENT_LENGTH` of
`src/hiper/http/http-parser/http_parser.cc`, in `s_header_value_start`, in `s_header_value`
and in `s_headers_almost_done`.  An error is sticky: what stands behind the byte in question
is not read, so that `Stops` does not depend on it.
-/

namespace Hiper

namespace HttpParser

variable {δ : Type*} {st : Settings δ} {p q : HttpParser} {bs bs' rest name value : Bytes} {ch : Byte}
  {d d' : δ} {r r' : Reader δ} {e : Errno}

/-- The first step of a fold that fails.  Those before it succeed. -/
theorem split_of_foldlM_error {ε α β : Type*} {f : α → β → Except ε α} {xs : List β} {a : α} {e : ε}
    (h : xs.foldlM f a = .error e) :
    ∃ ys x zs b, xs = ys ++ x :: zs ∧ ys.foldlM f a = .ok b ∧ f b x = .error e := by
  induction xs generalizing a with
  | nil => cases h
  | cons x xs ih =>
      rw [List.foldlM_cons] at h
      cases hone : f a x with
      | error e' =>
          rw [hone] at h
          cases h
          exact ⟨[], x, xs, a, rfl, rfl, hone⟩
      | ok b =>
          rw [hone] at h
          obtain ⟨ys, y, zs, c, rfl, hys, hy⟩ := ih h
          refine ⟨x :: ys, y, zs, c, rfl, ?_, hy⟩
          rw [List.foldlM_cons, hone]
          exact hys

/-! ### Readers that stop -/

/-- Some byte is an error, and the bytes before it are read.  The callbacks before it do not
fail. -/
def Reader.Stops (st : Settings δ) (bs : Bytes) (r : Reader δ) : Prop :=
  ∃ pre ch rest r' evs e q, bs = pre ++ ch :: rest ∧ Reader.reads st pre r = some r' ∧
    r'.parser.step ch = ⟨evs, .error e q⟩

/-- Bytes that are read, and an error behind them. -/
theorem Reader.stops_of_reads (h : Reader.reads st bs r = some r') (hstops : Reader.Stops st bs' r') :
    Reader.Stops st (bs ++ bs') r := by
  obtain ⟨pre, ch, rest, r₁, evs, e, q, rfl, hpre, hstep⟩ := hstops
  refine ⟨bs ++ pre, ch, rest, r₁, evs, e, q, (List.append_assoc ..).symm, ?_, hstep⟩
  rw [Reader.reads_of_append h, hpre]

/-- More bytes behind the error do not matter.  They are not read. -/
theorem Reader.Stops.append (h : Reader.Stops st bs r) (bs' : Bytes) : Reader.Stops st (bs ++ bs') r := by
  obtain ⟨pre, ch, rest, r₁, evs, e, q, rfl, hpre, hstep⟩ := h
  exact ⟨pre, ch, rest ++ bs', r₁, evs, e, q, by simp, hpre, hstep⟩

/-- The first byte is an error. -/
theorem Reader.stops_of_step {evs : List Ev} (h : r.parser.step ch = ⟨evs, .error e q⟩) :
    Reader.Stops st (ch :: bs) r := ⟨[], ch, bs, r, evs, e, q, rfl, rfl, h⟩

/-- The first byte is read, and an error is behind it. -/
theorem Reader.stops_cons (h : Reader.read st r ch = some r') (hstops : Reader.Stops st bs r') :
    Reader.Stops st (ch :: bs) r := by
  have hone : Reader.reads st [ch] r = some r' := by
    rw [Reader.reads_cons, h]
    rfl
  exact Reader.stops_of_reads hone hstops

/-- **A call that stops leaves an error.**  The loop leaves with the error of the byte. -/
theorem execute_stops (h : Reader.Stops st bs ⟨p, p.reopen.map (·, []), d⟩) :
    (p.execute st none bs d).httpErrno.isSome = true := by
  obtain ⟨pre, ch, rest, r', evs, e, q, rfl, hpre, hstep⟩ := h
  have hm : Carries (pre ++ ch :: rest) 0 (p.reopen.map (·, 0)) (p.reopen.map (·, [])) := by
    cases p.reopen with
    | none => exact carries_none _ _
    | some k =>
        refine ⟨?_, rfl⟩
        rintro x ⟨⟩
        exact le_rfl
  obtain ⟨m', -, hloop⟩ := loop_reads (show pre ++ ch :: rest = [] ++ pre ++ (ch :: rest) from rfl) rfl hm hpre
  have hne : pre ++ ch :: rest ≠ [] := by simp
  have hexec : p.execute st none (pre ++ ch :: rest) d =
      loop st (pre ++ ch :: rest) (pre ++ ch :: rest) 0 p (p.reopen.map (·, 0)) d := by
    simp only [execute, Option.isSome_none, Bool.false_eq_true, if_false, if_neg hne]
  rw [hexec]
  refine (congrArg (fun res => res.httpErrno.isSome) hloop).trans ?_
  rw [loop, hstep]
  dsimp only
  split
  · rfl
  · next heq => cases heq
  · next heq => cases heq
  · rfl

/-! ### Values -/

/-- A character that is wrong in a value.  The step fails with it. -/
theorem step_valueChar_error (hp : p.state = .headerValue) (he : p.valueChar ch = .error e)
    (hch : isHeaderChar ch = true ∧ ch ≠ CR ∧ ch ≠ LF) (hn : p.nread < maxHeaderSize) :
    ∃ q, p.step ch = fail q e := by
  have hok : (p.counted (p.nread + 1)).valueChar ch = .error e := by
    rw [valueChar_counted, he]
    rfl
  have hbyte : (p.counted (p.nread + 1)).onByte ch = (p.counted (p.nread + 1)).onHeaderValue ch := by
    rw [onByte, show (p.counted (p.nread + 1)).state = .headerValue from hp]
  refine ⟨p.counted (p.nread + 1), ?_⟩
  rw [step_head (by rw [hp]; rfl) hn, hbyte, onHeaderValue, if_neg (by simpa using hch.2.1),
    if_neg (by simpa using hch.2.2), if_neg (by simpa using hch.1), hok]

/-- A first character that is wrong.  The step fails with it. -/
theorem step_valueStart_error (hp : p.state = .headerValueDiscardWs)
    (he : (p.atValue p.headerState).valueStart ch = .error e) (hch : ch ≠ CR ∧ ch ≠ LF)
    (hblank : ch ≠ SP ∧ ch ≠ TAB) (hn : p.nread < maxHeaderSize) : ∃ q, p.step ch = fail q e := by
  have hok : ((p.atValue p.headerState).counted (p.nread + 1)).valueStart ch = .error e := by
    rw [valueStart_counted, he]
    rfl
  have hat : ({ (p.counted (p.nread + 1)).goto .headerValue with index := 0 } : HttpParser) =
      (p.atValue p.headerState).counted (p.nread + 1) := rfl
  refine ⟨p.counted (p.nread + 1), ?_⟩
  rw [step_discardWs hp hn, onHeaderValueDiscardWs, if_neg (by simpa using hblank),
    if_neg (by simpa using hch.1), if_neg (by simpa using hch.2), onHeaderValueStart, hat, hok]

/-- The count of bytes does not matter.  The error may be another. -/
theorem onValue_counted_error (n : ℕ) (he : p.onValue value = .error e) :
    ∃ e', (p.counted n).onValue value = .error e' := by
  cases hres : (p.counted n).onValue value with
  | error e' => exact ⟨e', rfl⟩
  | ok q =>
      have hback : p.onValue value = .ok (q.counted p.nread) := onValue_counted (p := p.counted n) (n := p.nread) hres
      rw [he] at hback
      cases hback

/-- **A value that is none.**  Which byte it is, the value tells. -/
theorem stops_value (hp : p.state = .headerValueDiscardWs) (hvalue : IsValue value) (hne : value ≠ [])
    (he : (p.atValue p.headerState).onValue value = .error e)
    (hn : p.nread + value.length + 1 ≤ maxHeaderSize) :
    Reader.Stops st (32 :: value ++ rest) ⟨p, none, d⟩ := by
  obtain ⟨c, value, rfl⟩ := List.exists_cons_of_ne_nil hne
  obtain ⟨hc, hchars⟩ := List.forall_mem_cons.1 hvalue.chars
  rw [List.length_cons] at hn
  have hspace : p.step 32 = next (p.counted (p.nread + 1)) := by
    rw [step_discardWs hp (by omega)]
    rfl
  refine Reader.stops_cons (Reader.read_next hspace) ?_
  rw [onValue] at he
  cases hstart : (p.atValue p.headerState).valueStart c with
  | error e' =>
      have herror : ((p.atValue p.headerState).counted (p.nread + 1)).valueStart c = .error e' := by
        rw [valueStart_counted, hstart]
        rfl
      obtain ⟨q, hq⟩ := step_valueStart_error (p := p.counted (p.nread + 1)) hp herror hc.2
        (hvalue.first c rfl) (by change p.nread + 1 < _; omega)
      exact Reader.stops_of_step (r := ⟨p.counted (p.nread + 1), none, d⟩) hq
  | ok p₁ =>
      rw [hstart] at he
      obtain ⟨ys, x, zs, b, rfl, hys, hx⟩ := split_of_foldlM_error he
      rw [List.length_append, List.length_cons] at hn
      have hstate : p₁.state = .headerValue := congrArg View.state (keeps_valueStart hstart).view
      have hok : ((p.atValue p.headerState).counted (p.nread + 1)).valueStart c =
          .ok (p₁.counted (p.nread + 1)) := by
        rw [valueStart_counted, hstart]
        rfl
      have hfirst := step_valueStart (p := p.counted (p.nread + 1)) hp hok hc.2 (hvalue.first c rfl)
        (by change p.nread + 1 < _; omega)
      have hglide := glide_value (p := p₁.counted (p.nread + 2)) hstate
        (foldlM_valueChar_counted (n := p.nread + 2) hys)
        (fun ch hch => hchars ch (List.mem_append_left _ hch))
        (by change p.nread + 2 + ys.length ≤ _; omega)
      have hstate' : b.state = .headerValue := by
        rw [valued_foldlM hys]
        exact hstate
      have herror : (b.counted (p.nread + 2 + ys.length)).valueChar x = .error e := by
        rw [valueChar_counted, hx]
        rfl
      obtain ⟨q, hq⟩ := step_valueChar_error (p := b.counted (p.nread + 2 + ys.length)) hstate' herror
        (hchars x (List.mem_append_right _ (List.mem_cons_self ..)))
        (by change p.nread + 2 + ys.length < _; omega)
      refine Reader.stops_cons (Reader.read_mark hfirst) ?_
      rw [show (ys ++ x :: zs).append rest = ys ++ (x :: zs ++ rest) from List.append_assoc ..]
      refine Reader.stops_of_reads (Reader.reads_of_glide hglide) ?_
      exact Reader.stops_of_step (r := ⟨b.counted (p.nread + 2 + ys.length), _, d⟩) hq

/-- A length that is not there.  The error is found at its line end. -/
theorem stops_noLength (hp : p.state = .headerValueDiscardWs) (hh : p.headerState = .contentLength)
    (hn : p.nread + 4 ≤ maxHeaderSize) (hch : ch ≠ SP ∧ ch ≠ TAB) :
    Reader.Stops st (32 :: CR :: LF :: ch :: rest) ⟨p, none, d⟩ := by
  have hspace : p.step 32 = next (p.counted (p.nread + 1)) := by
    rw [step_discardWs hp (by omega)]
    rfl
  have hcr : (p.counted (p.nread + 1)).step CR =
      next { p with state := .headerValueDiscardWsAlmostDone, nread := p.nread + 2 } := by
    rw [step_discardWs (p := p.counted (p.nread + 1)) hp (by change p.nread + 1 < _; omega)]
    rfl
  have hlf : ({ p with state := .headerValueDiscardWsAlmostDone, nread := p.nread + 2 } :
      HttpParser).step LF = next { p with state := .headerValueDiscardLws, nread := p.nread + 3 } := by
    rw [step_at rfl rfl (by change p.nread + 2 < _; omega)]
    rfl
  have hlast : ({ p with state := .headerValueDiscardLws, nread := p.nread + 3 } : HttpParser).step ch =
      fail { p with state := .headerValueDiscardLws, nread := p.nread + 4 } .invalidContentLength := by
    rw [step_at rfl rfl (by change p.nread + 3 < _; omega)]
    change onHeaderValueDiscardLws _ ch = _
    rw [onHeaderValueDiscardLws, if_neg (by simpa using hch), if_pos (by simpa using hh)]
  refine Reader.stops_cons (Reader.read_next hspace) (Reader.stops_cons (Reader.read_next hcr)
    (Reader.stops_cons (Reader.read_next hlf) ?_))
  exact Reader.stops_of_step (r := ⟨{ p with
    state := .headerValueDiscardLws, nread := p.nread + 3 }, none, d⟩) hlast

/-- **A line that is none**: its value is wrong, or it is a length that is not there. -/
theorem stops_line (hp : p.state = .headerFieldStart) (hname : IsName name) (hvalue : IsValue value)
    (he : p.onField name value = .error e)
    (hn : p.nread + (fieldLine name value).length < maxHeaderSize) (hch : ch ≠ SP ∧ ch ≠ TAB)
    (hd : st.onData .headerField name d = some d') :
    ∃ r', Reader.reads st (name ++ [58]) ⟨p, none, d⟩ = some r' ∧
      Reader.Stops st (32 :: value ++ CR :: LF :: ch :: rest) r' := by
  have hlength : (fieldLine name value).length = name.length + 1 + (value.length + 3) := by
    simp only [fieldLine, List.length_append, List.length_cons, List.length_nil]
    omega
  obtain ⟨h, i, htracks, hreads⟩ := reads_name (r := ⟨p, none, d⟩) hp rfl hname
    (by change p.nread + name.length + 1 ≤ _; omega) hd
  refine ⟨_, hreads, ?_⟩
  rw [onField] at he
  split_ifs at he with hempty
  · rw [Bool.and_eq_true, List.isEmpty_iff, beq_iff_eq] at hempty
    obtain ⟨rfl, hstate⟩ := hempty
    have hh : h = .contentLength := by
      rw [← htracks.settled] at hstate
      cases h <;> first | rfl | cases hstate
    subst hh
    rw [List.length_nil] at hlength
    exact stops_noLength (p := { p with
      state := .headerValueDiscardWs, headerState := .contentLength, index := i,
      nread := p.nread + name.length + 1 }) rfl rfl
      (by change p.nread + name.length + 1 + 4 ≤ _; omega) hch
  · cases value with
    | nil => cases he
    | cons c value =>
        have hstart : (p.atValue h).onValue (c :: value) = .error e := by
          rw [onValue, valueStart_of_tracks htracks, htracks.settled]
          exact he
        obtain ⟨e', he'⟩ := onValue_counted_error (p.nread + name.length + 1) hstart
        exact stops_value (p := { p with
          state := .headerValueDiscardWs, headerState := h, index := i,
          nread := p.nread + name.length + 1 }) rfl hvalue (by simp) he'
          (by change p.nread + name.length + 1 + (c :: value).length + 1 ≤ _; omega)

/-- A line is refused when its value is. -/
theorem effect_eq_error {f : Field} : p.effect f = .error e ↔ p.onField f.1 f.2 = .error e := by
  rw [effect]
  cases p.onField f.1 f.2 with
  | error e' => exact Iff.rfl
  | ok q => exact iff_of_false (fun h => by cases h) (fun h => by cases h)

/-- Only the flags and the length matter for an error, too.  The error may be another. -/
theorem effect_congr_error (h : HeaderState) (i n : ℕ) {f : Field} (he : p.effect f = .error e) :
    ∃ e', ({ p with headerState := h, index := i, nread := n } : HttpParser).effect f = .error e' := by
  cases hres : ({ p with headerState := h, index := i, nread := n } : HttpParser).effect f with
  | error e' => exact ⟨e', rfl⟩
  | ok q =>
      have hback := effect_congr p.headerState p.index p.nread hres
      rw [show p.effect f = _ from hback] at he
      cases he

/-- **Lines that cannot be put together**: those before the wrong one are read. -/
theorem stops_fields {fs : List Field} (hp : p.state = .headerFieldStart) (hfs : IsFields fs)
    (he : fs.foldlM effect p = .error e) (hn : p.nread + (fieldLines fs).length < maxHeaderSize)
    (hch : ch ≠ SP ∧ ch ≠ TAB) (hd : fs.foldlM (hear st) d = some d') :
    Reader.Stops st (fieldLines fs ++ ch :: rest) ⟨p, none, d⟩ := by
  obtain ⟨gs, f, fs, q, rfl, hq, hf⟩ := split_of_foldlM_error he
  obtain ⟨hname, hvalue⟩ := hfs f (List.mem_append_right _ (List.mem_cons_self ..))
  rw [List.foldlM_append] at hd
  obtain ⟨d₁, hd₁, hd⟩ := Option.bind_eq_some_iff.1 hd
  rw [List.foldlM_cons] at hd
  obtain ⟨d₂, hone, -⟩ := Option.bind_eq_some_iff.1 hd
  obtain ⟨d₃, hd₃, -⟩ := Option.bind_eq_some_iff.1 hone
  have hlength : (fieldLines (gs ++ f :: fs)).length =
      (fieldLines gs).length + ((fieldLine f.1 f.2).length + (fieldLines fs).length) := by
    simp [fieldLines]
  obtain ⟨next, tail, hnext, hblank⟩ := fieldLines_start
    (fun g hg => hfs g (List.mem_append_right _ (List.mem_cons_of_mem _ hg))) hch rest
  obtain ⟨c, name, hcons⟩ := List.exists_cons_of_ne_nil hname.1
  have hc : token c ≠ 0 := hname.2 c (hcons ▸ List.mem_cons_self ..)
  -- the lines before it, and its name
  have hstart : c ≠ SP ∧ c ≠ TAB :=
    ⟨by rintro rfl; exact hc rfl, by rintro rfl; exact hc rfl⟩
  obtain ⟨h, i, hreads⟩ := reads_fields hp
    (fun g hg => hfs g (List.mem_append_left _ hg)) hq (by omega)
    hstart hd₁ (name ++ [58])
  have hstate : q.state = .headerFieldStart := (state_of_effects hq).trans hp
  obtain ⟨e', he'⟩ := effect_congr_error h i (p.nread + (fieldLines gs).length) hf
  obtain ⟨r', hr', hstops⟩ := stops_line (p := { q with
    headerState := h, index := i, nread := p.nread + (fieldLines gs).length }) hstate hname hvalue
    (effect_eq_error.1 he')
    (by change p.nread + (fieldLines gs).length + _ < _; omega) hblank hd₃
  have htext : fieldLines (gs ++ f :: fs) ++ ch :: rest =
      fieldLines gs ++ c :: (name ++ [58]) ++ (32 :: f.2 ++ CR :: LF :: next :: tail) := by
    rw [← hnext]
    simp [fieldLines, fieldLine, hcons]
  rw [hcons] at hr'
  rw [htext]
  exact Reader.stops_of_reads (hreads.trans hr') hstops

/-- **Chunks and a length**: the head is refused at its end. -/
theorem stops_headEnd (hp : p.state = .headerFieldStart) (ht : p.flags.trailing = false)
    (hboth : (p.flags.chunked && p.flags.contentLength) = true) (hn : p.nread + 2 ≤ maxHeaderSize) (st : Settings δ) (d : δ) :
    ∃ r', Reader.reads st [CR] ⟨p, none, d⟩ = some r' ∧ Reader.Stops st [LF] r' := by
  have hcr : p.step CR = next { p with state := .headersAlmostDone, nread := p.nread + 1 } := by
    rw [step_at hp rfl (by omega)]
    rfl
  have hlf : ({ p with state := .headersAlmostDone, nread := p.nread + 1 } : HttpParser).step LF =
      fail { p with state := .headersAlmostDone, nread := p.nread + 2 } .unexpectedContentLength := by
    rw [step_at rfl rfl (by change p.nread + 1 < _; omega)]
    change onHeadersAlmostDone { p with state := .headersAlmostDone, nread := p.nread + 2 } LF = _
    rw [onHeadersAlmostDone, if_neg (by decide), if_neg (by rw [ht]; decide), if_pos hboth]
  refine ⟨⟨{ p with state := .headersAlmostDone, nread := p.nread + 1 }, none, d⟩, ?_, ?_⟩
  · rw [Reader.reads_cons, Reader.read_next hcr]
    rfl
  · exact Reader.stops_of_step (r := ⟨{ p with
      state := .headersAlmostDone, nread := p.nread + 1 }, none, d⟩) hlf

/-- **A head that is not framed** is refused at one of its bytes, whatever comes behind it. -/
theorem RequestHead.stops_head {h : RequestHead} (hf : h.Fits) (hno : ¬∃ l, FramedBy h.fields l) {d₁ d₂ : δ}
    (hd₁ : st.onData .url h.url (st.onNotify .messageBegin d) = some d₁)
    (hd₂ : h.fields.foldlM (hear st) d₁ = some d₂) :
    Reader.Stops st h.bytes ⟨init .request, none, d⟩ := by
  have hle := hf.length
  rw [length_bytes] at hle
  refine Reader.stops_of_reads (reads_line hf hd₁) ?_
  cases hq : h.fields.foldlM effect h.afterLine with
  | error e =>
      exact stops_fields (p := h.afterLine) rfl hf.fields hq
        (by change h.line.length + (fieldLines h.fields).length < _; omega) (show CR ≠ SP ∧ CR ≠ TAB by decide) hd₂
  | ok q =>
      obtain ⟨l, hsums⟩ := sums_of_effects hq
      have hboth : (q.flags.chunked && q.flags.contentLength) = true := by
        by_contra hone
        refine hno ⟨l, hsums.tells, fun hchunked => ?_⟩
        rw [hsums.chunked.2 (Or.inr hchunked), hsums.given, Bool.true_and] at hone
        cases l with
        | none => rfl
        | some n => exact absurd (Bool.or_true _) hone
      have hsame := hsums.same
      obtain ⟨s, i, hfields⟩ := reads_fields (p := h.afterLine) rfl hf.fields hq
        (by change h.line.length + (fieldLines h.fields).length < _; omega) (show CR ≠ SP ∧ CR ≠ TAB by decide) hd₂ []
      obtain ⟨r', hr', hstops⟩ := stops_headEnd (p := { q with
        headerState := s, index := i, nread := h.afterLine.nread + (fieldLines h.fields).length })
        (by rw [hsame]; rfl) hsums.trailing hboth
        (by change h.line.length + (fieldLines h.fields).length + 2 ≤ _; omega) st d₂
      rw [show fieldLines h.fields ++ [CR, LF] = fieldLines h.fields ++ [CR] ++ [LF] by simp]
      exact Reader.stops_of_reads (hfields.trans hr') hstops

end HttpParser

end Hiper

import Hiper.HttpParser.FieldLines

/-!
# The header lines together, the end of the head, and the body

Header lines one after another (`reads_fields`); the empty line behind them, with which the
message is over or goes on with a body (`reads_headEnd`); and a body of a known length
(`reads_body`).

The states are `s_header_field_start` (`src/hiper/http/http-parser/http_parser.cc:1198`),
`s_headers_done` (`:1826`), which decides between a message without a body, one in chunks,
one of a length and one that goes on to the end of the connection, and `s_body_identity`.
`Sums` says what the lines make of the parser, `bodyState` what the parser makes of its
flags.
-/

namespace Hiper

namespace HttpParser

variable {δ : Type*} {st : Settings δ} {p q : HttpParser} {rest body : Bytes} {ch : Byte} {d d' : δ}

/-- A name and a value.  As they stand in the line. -/
abbrev Field := Bytes × Bytes

/-- The text of header lines.  One line behind the other. -/
def fieldLines (fs : List Field) : Bytes := fs.flatMap fun f => fieldLine f.1 f.2

/-- Names and values that are read back.  Nothing is asked of the names' being different. -/
def IsFields (fs : List Field) : Prop := ∀ f ∈ fs, IsName f.1 ∧ IsValue f.2

/-- The condition on the characters, name by name and value by value. -/
theorem isFields_iff {fs : List Field} : IsFields fs ↔ ∀ f ∈ fs, IsName f.1 ∧
    (∀ ch ∈ f.2, isHeaderChar ch = true ∧ ch ≠ CR ∧ ch ≠ LF) ∧
      f.2.head? ≠ some SP ∧ f.2.head? ≠ some TAB :=
  forall₂_congr fun _ _ => and_congr_right fun _ => isValue_iff

/-- What a line leaves of the flags and of the length.  The state and the counts do not matter
for it. -/
def effect (p : HttpParser) (f : Field) : Except Errno HttpParser :=
  (p.onField f.1 f.2).map fun q => { p with flags := q.valueFlags, contentLength := q.contentLength }

/-- The callbacks of a line.  The name, and the value. -/
def hear (st : Settings δ) (d : δ) (f : Field) : Option δ :=
  (st.onData .headerField f.1 d).bind (st.onData .headerValue f.2)

/-- A line is accepted when its value is, and leaves the flags and the length. -/
theorem effect_eq_ok {f : Field} : p.effect f = .ok q ↔ ∃ r, p.onField f.1 f.2 = .ok r ∧
    q = { p with flags := r.valueFlags, contentLength := r.contentLength } := by
  rw [effect]
  cases p.onField f.1 f.2 with
  | error e =>
      constructor
      · intro h
        cases h
      · rintro ⟨r, h, -⟩
        cases h
  | ok r =>
      constructor
      · intro h
        cases h
        exact ⟨r, rfl, rfl⟩
      · rintro ⟨r', h, rfl⟩
        cases h
        rfl

/-- Only the flags and the length matter.  The matching of a name starts anew with each line. -/
theorem effect_congr (h : HeaderState) (i n : ℕ) {f : Field} (hq : p.effect f = .ok q) :
    ({ p with headerState := h, index := i, nread := n } : HttpParser).effect f =
      .ok { q with headerState := h, index := i, nread := n } := by
  obtain ⟨r, hr, rfl⟩ := effect_eq_ok.1 hq
  refine effect_eq_ok.2 ⟨r.counted n, ?_, rfl⟩
  rw [onField] at hr ⊢
  split_ifs at hr ⊢
  exact onValue_counted hr

/-- Only the flags and the length matter, for lines as well. -/
theorem effects_congr (h : HeaderState) (i n : ℕ) {fs : List Field} (hq : fs.foldlM effect p = .ok q) :
    fs.foldlM effect ({ p with headerState := h, index := i, nread := n } : HttpParser) =
      .ok { q with headerState := h, index := i, nread := n } := by
  induction fs generalizing p with
  | nil =>
      cases hq
      rfl
  | cons f fs ih =>
      rw [List.foldlM_cons] at hq ⊢
      cases hone : p.effect f with
      | error e =>
          rw [hone] at hq
          cases hq
      | ok p₁ =>
          rw [hone] at hq
          rw [effect_congr h i n hone]
          exact ih hq

/-- A line leaves the parser where lines start. -/
theorem state_of_effect {f : Field} (hq : p.effect f = .ok q) : q.state = p.state := by
  obtain ⟨r, -, rfl⟩ := effect_eq_ok.1 hq
  rfl

/-- Lines leave the parser where lines start. -/
theorem state_of_effects {fs : List Field} (hq : fs.foldlM effect p = .ok q) : q.state = p.state := by
  induction fs generalizing p with
  | nil =>
      cases hq
      rfl
  | cons f fs ih =>
      rw [List.foldlM_cons] at hq
      cases hone : p.effect f with
      | error e =>
          rw [hone] at hq
          cases hq
      | ok p₁ =>
          rw [hone] at hq
          exact (ih hq).trans (state_of_effect hone)

/-- The next line begins with a character of a name, or with the byte behind the lines.  So the
value before it has ended. -/
theorem fieldLines_start {fs : List Field} (hfs : IsFields fs) (hch : ch ≠ SP ∧ ch ≠ TAB) (rest : Bytes) :
    ∃ c tail, fieldLines fs ++ ch :: rest = c :: tail ∧ c ≠ SP ∧ c ≠ TAB := by
  cases fs with
  | nil => exact ⟨ch, rest, rfl, hch⟩
  | cons f fs =>
      obtain ⟨hne, htoken⟩ := (hfs f (List.mem_cons_self ..)).1
      obtain ⟨c, name, hcons⟩ := List.exists_cons_of_ne_nil hne
      have hc : token c ≠ 0 := htoken c (hcons ▸ List.mem_cons_self ..)
      refine ⟨c, name ++ 58 :: 32 :: f.2 ++ [CR, LF] ++ (fieldLines fs ++ ch :: rest), ?_, ?_, ?_⟩
      · simp [fieldLines, fieldLine, hcons]
      · rintro rfl
        exact hc rfl
      · rintro rfl
        exact hc rfl

/-- **Header lines**: their callbacks are called one after another, and the parser has made of
them what their effects are.  The induction is over the lines. -/
theorem reads_fields {fs : List Field} (hp : p.state = .headerFieldStart) (hfs : IsFields fs)
    (hq : fs.foldlM effect p = .ok q) (hn : p.nread + (fieldLines fs).length < maxHeaderSize)
    (hch : ch ≠ SP ∧ ch ≠ TAB) (hd : fs.foldlM (hear st) d = some d') (rest : Bytes) :
    ∃ h i, Reader.reads st (fieldLines fs ++ ch :: rest) ⟨p, none, d⟩ =
      Reader.reads st (ch :: rest) ⟨{ q with
        headerState := h, index := i, nread := p.nread + (fieldLines fs).length }, none, d'⟩ := by
  induction fs generalizing p q d with
  | nil =>
      cases hq
      cases hd
      exact ⟨p.headerState, p.index, rfl⟩
  | cons f fs ih =>
      obtain ⟨⟨hname, hvalue⟩, hfs⟩ := List.forall_mem_cons.1 hfs
      rw [List.foldlM_cons] at hq hd
      obtain ⟨d₁, hone, hd⟩ := Option.bind_eq_some_iff.1 hd
      obtain ⟨d₀, hd₀, hd₁⟩ := Option.bind_eq_some_iff.1 hone
      have hlength : (fieldLines (f :: fs)).length =
          (fieldLine f.1 f.2).length + (fieldLines fs).length := List.length_append ..
      rw [hlength] at hn ⊢
      have htext : fieldLines (f :: fs) ++ ch :: rest =
          fieldLine f.1 f.2 ++ (fieldLines fs ++ ch :: rest) := List.append_assoc ..
      obtain ⟨c, tail, hnext, hc⟩ := fieldLines_start hfs hch rest
      cases hone : p.effect f with
      | error e =>
          rw [hone] at hq
          cases hq
      | ok p₁ =>
          rw [hone] at hq
          obtain ⟨r, hr, rfl⟩ := effect_eq_ok.1 hone
          obtain ⟨h, i, hline⟩ := reads_line hp hname hvalue hr (by omega) hc hd₀ hd₁ tail
          have hq' := effects_congr h i (p.nread + (fieldLine f.1 f.2).length) hq
          have hp' : p = { p with state := .headerFieldStart } := by rw [← hp]
          rw [hp'] at hq'
          obtain ⟨h', i', hrest⟩ := ih (p := { p with
            state := .headerFieldStart, flags := r.valueFlags, contentLength := r.contentLength,
            headerState := h, index := i, nread := p.nread + (fieldLine f.1 f.2).length })
            (q := { q with headerState := h, index := i, nread := p.nread + (fieldLine f.1 f.2).length })
            rfl hfs hq'
            (by change p.nread + (fieldLine f.1 f.2).length + (fieldLines fs).length < _; omega) hd
          refine ⟨h', i', ?_⟩
          rw [htext, hnext, hline, ← hnext, hrest, Nat.add_assoc]

/-! ### The end of the head -/

/-- The state in which the body is read, or none when the message ends with its head.  The order
of the tests is that of the source. -/
def bodyState (p : HttpParser) : Option State :=
  if p.flags.chunked then some .chunkSizeStart
  else if p.contentLength = 0 then none
  else if p.contentLength ≠ ullongMax then some .bodyIdentity
  else if p.messageNeedsEof then some .bodyIdentityEof
  else none

/-- The parser behind the head.  Its state is the one of the body, or that of a new message. -/
def afterHead (p : HttpParser) : HttpParser :=
  { p with state := p.bodyState.getD p.newMessage, nread := 0, upgrade := false }

/-- The line feed that ends the head: the message is over, or its body comes. -/
theorem onHeadersDone_eq (hu : p.upgrade = false) :
    p.onHeadersDone LF = ⟨if p.bodyState.isSome then [] else [.note .messageComplete],
      .next p.afterHead⟩ := by
  have hafter : p.afterHead = { p with state := p.bodyState.getD p.newMessage, nread := 0 } := by
    rw [afterHead, ← hu]
  have hneeds : ({ p with nread := 0 } : HttpParser).messageNeedsEof = p.messageNeedsEof := rfl
  rw [onHeadersDone, if_neg (by decide)]
  dsimp only
  rw [hu, Bool.false_and, if_neg Bool.false_ne_true, ← hu, hneeds, hafter]
  by_cases hchunked : p.flags.chunked = true
  · have hbody : p.bodyState = some .chunkSizeStart := if_pos hchunked
    rw [if_pos hchunked, hbody]
    rfl
  · rw [if_neg hchunked]
    by_cases hzero : p.contentLength = 0
    · have hbody : p.bodyState = none := by rw [bodyState, if_neg hchunked, if_pos hzero]
      rw [if_pos hzero, hbody]
      rfl
    · rw [if_neg hzero]
      by_cases hlength : p.contentLength ≠ ullongMax
      · have hbody : p.bodyState = some .bodyIdentity := by
          rw [bodyState, if_neg hchunked, if_neg hzero, if_pos hlength]
        rw [if_pos hlength, hbody]
        rfl
      · rw [if_neg hlength]
        have hbody : p.bodyState = if p.messageNeedsEof then some .bodyIdentityEof else none := by
          rw [bodyState, if_neg hchunked, if_neg hzero, if_neg hlength]
        rw [hbody]
        cases p.messageNeedsEof <;> rfl

/-- **The empty line**: `on_headers_complete` is called, and `on_message_complete` when there is
no body. -/
theorem reads_headEnd (hp : p.state = .headerFieldStart) (ht : p.flags.trailing = false)
    (hframed : (p.flags.chunked && p.flags.contentLength) = false) (hu : p.upgrades = false)
    (hn : p.nread + 2 ≤ maxHeaderSize) (st : Settings δ) (d : δ) :
    Reader.reads st [CR, LF] ⟨p, none, d⟩ = some ⟨p.afterHead, none,
      if p.bodyState.isSome then st.onNotify (.headersComplete p.head) d
      else st.onNotify .messageComplete (st.onNotify (.headersComplete p.head) d)⟩ := by
  have hcr : p.step CR = next { p with state := .headersAlmostDone, nread := p.nread + 1 } := by
    rw [step_at hp rfl (by omega)]
    rfl
  have hlf : ({ p with state := .headersAlmostDone, nread := p.nread + 1 } : HttpParser).step LF =
      ⟨.note (.headersComplete p.head) ::
        (if p.bodyState.isSome then [] else [.note .messageComplete]), .next p.afterHead⟩ := by
    have hdone := onHeadersDone_eq (p := { p with
      state := .headersDone, nread := p.nread + 2, upgrade := false }) rfl
    have hup : ({ ({ p with state := .headersAlmostDone, nread := p.nread + 2 } : HttpParser).goto
        .headersDone with upgrade := ({ p with
          state := .headersAlmostDone, nread := p.nread + 2 } : HttpParser).upgrades } : HttpParser) =
        { p with state := .headersDone, nread := p.nread + 2, upgrade := false } := by
      rw [show ({ p with state := .headersAlmostDone, nread := p.nread + 2 } : HttpParser).upgrades =
        false from hu]
      rfl
    rw [step_at rfl rfl (by change p.nread + 1 < _; omega)]
    change onHeadersAlmostDone { p with state := .headersAlmostDone, nread := p.nread + 2 } LF = _
    rw [onHeadersAlmostDone, if_neg (by decide), if_neg (by rw [ht]; decide),
      if_neg (by rw [hframed]; decide)]
    dsimp only
    rw [hup, hdone]
    rfl
  rw [Reader.reads_cons, Reader.read_next hcr, Option.bind_some, Reader.reads_cons,
    Reader.read_of_step (r := ⟨_, none, d⟩) hlf]
  cases p.bodyState <;> rfl

/-! ### The body -/

/-- What has come of a body since it was last handed over.  It is a piece of the body. -/
def pending : Option (DataCb × Bytes) → Bytes
  | some (_, bs) => bs
  | none => []

/-- No text, or a piece of a body.  No other text is open in a body. -/
def InBody (t : Option (DataCb × Bytes)) : Prop := ∀ k bs, t = some (k, bs) → k = .body

/-- A byte of a body.  It is put behind the piece that is open. -/
theorem read_body {t : Option (DataCb × Bytes)} (ht : InBody t)
    (h : p.step ch = ⟨[.mark .body], .next q⟩) :
    Reader.read st ⟨p, t, d⟩ ch = some ⟨q, some (.body, pending t ++ [ch]), d⟩ := by
  rw [Reader.read_of_step (r := ⟨p, t, d⟩) h]
  cases t with
  | none => rfl
  | some x =>
      obtain ⟨k, bs⟩ := x
      obtain rfl := ht k bs rfl
      rfl

/-- A piece of a body. -/
theorem inBody_some (bs : Bytes) : InBody (some (.body, bs)) := by
  rintro _ _ ⟨⟩
  rfl

/-- A byte of a body counts the length down. -/
theorem step_bodyIdentity (hp : p.state = .bodyIdentity) (ch : Byte) : p.step ch = p.onBodyIdentity := by
  rw [step, hp]
  change p.onByte ch = _
  rw [onByte, hp]

/-- In this state every byte but the last one only goes to the body.  It counts the length down. -/
def Soaking (s : State) : Prop :=
  ∀ (p : HttpParser) (ch : Byte), p.state = s → p.contentLength - 1 ≠ 0 →
    p.step ch = ⟨[.mark .body], .next { p with contentLength := p.contentLength - 1 }⟩

/-- A body of a known length is such a state. -/
theorem soaking_bodyIdentity : Soaking .bodyIdentity := by
  intro p ch hp hne
  rw [step_bodyIdentity hp, onBodyIdentity]
  dsimp only
  exact (if_neg hne).trans rfl

/-- The bytes of a body but for the last one.  Nothing is handed over on the way. -/
theorem reads_soaking {s : State} (hs : Soaking s) {t : Option (DataCb × Bytes)} (hp : p.state = s)
    (ht : InBody t) {body : Bytes} (hlength : body.length < p.contentLength) (st : Settings δ) (d : δ) :
    ∃ t', InBody t' ∧ pending t' = pending t ++ body ∧
      Reader.reads st body ⟨p, t, d⟩ =
        some ⟨{ p with contentLength := p.contentLength - body.length }, t', d⟩ := by
  induction body generalizing p t with
  | nil => exact ⟨t, ht, (List.append_nil _).symm, rfl⟩
  | cons ch body ih =>
      rw [List.length_cons] at hlength
      have hstep := hs p ch hp (by omega)
      obtain ⟨t', ht', hpending, hrest⟩ := ih (p := { p with contentLength := p.contentLength - 1 })
        (t := some (.body, pending t ++ [ch])) hp (inBody_some _)
        (by change body.length < p.contentLength - 1; omega)
      refine ⟨t', ht', ?_, ?_⟩
      · rw [hpending, pending, List.append_assoc, List.singleton_append]
      · rw [Reader.reads_cons, read_body ht hstep, Option.bind_some, hrest, List.length_cons,
          Nat.add_comm body.length, ← Nat.sub_sub]

/-- **A body of a known length.**  It is handed over in one piece, when it comes in one call. -/
theorem reads_body (hp : p.state = .bodyIdentity) (hu : p.upgrade = false)
    (hlength : p.contentLength = body.length) (hne : body ≠ [])
    (hd : st.onData .body body d = some d') :
    Reader.reads st body ⟨p, none, d⟩ = some ⟨{ p with
      state := ({ p with contentLength := 0 } : HttpParser).newMessage, contentLength := 0 }, none,
      st.onNotify .messageComplete d'⟩ := by
  obtain ⟨bs, ch, rfl⟩ : ∃ bs ch, body = bs ++ [ch] := ⟨_, _, (List.dropLast_append_getLast hne).symm⟩
  rw [List.length_append, List.length_singleton] at hlength
  obtain ⟨t', ht', hpending, hbytes⟩ := reads_soaking soaking_bodyIdentity (t := none) hp
    (fun _ _ h => by cases h) (show bs.length < p.contentLength by omega) st d
  have hlast : ({ p with contentLength := p.contentLength - bs.length } : HttpParser).step ch =
      ⟨[.mark .body, .through .body, .note .messageComplete], .next { p with
        state := ({ p with contentLength := 0 } : HttpParser).newMessage, contentLength := 0 }⟩ := by
    rw [show p.contentLength - bs.length = 1 by omega,
      step_bodyIdentity (p := { p with contentLength := 1 }) hp, onBodyIdentity]
    dsimp only
    rw [if_pos rfl, onMessageDone, if_neg (by change ¬p.upgrade = true; rw [hu]; decide)]
    rfl
  rw [Reader.reads_of_append hbytes, Reader.reads_cons, Reader.read_of_step (r := ⟨_, t', d⟩) hlast]
  have hbody : pending t' ++ [ch] = bs ++ [ch] := by rw [hpending, pending, List.nil_append]
  have hthrough : ∀ bs', bs' ++ [ch] = bs ++ [ch] →
      Reader.close st .body [ch] (some (.body, bs'), d) = some (none, d') := by
    intro bs' hbs
    rw [Reader.close]
    dsimp only
    rw [if_pos rfl, hbs, hd]
    rfl
  have hevs : [.mark .body, .through .body, .note .messageComplete].foldlM (Reader.event st ch) (t', d) =
      some (none, st.onNotify .messageComplete d') := by
    cases t' with
    | none =>
        change (Reader.close st .body [ch] (some (.body, []), d)).bind _ = _
        rw [hthrough [] hbody]
        rfl
    | some x =>
        obtain ⟨k, bs'⟩ := x
        obtain rfl := ht' k bs' rfl
        change (Reader.close st .body [ch] (some (.body, bs'), d)).bind _ = _
        rw [hthrough bs' hbody]
        rfl
  rw [hevs]
  rfl

/-- **A body until the end of the connection.**  It never ends. -/
theorem reads_untilEof (hp : p.state = .bodyIdentityEof) {t : Option (DataCb × Bytes)} (ht : InBody t)
    (body : Bytes) (st : Settings δ) (d : δ) :
    ∃ t', InBody t' ∧ pending t' = pending t ++ body ∧
      Reader.reads st body ⟨p, t, d⟩ = some ⟨p, t', d⟩ := by
  induction body generalizing t with
  | nil => exact ⟨t, ht, (List.append_nil _).symm, rfl⟩
  | cons ch body ih =>
      have hstep : p.step ch = ⟨[.mark .body], .next p⟩ := by
        rw [step, hp]
        change p.onByte ch = _
        rw [onByte, hp]
        rfl
      obtain ⟨t', ht', hpending, hrest⟩ := ih (t := some (.body, pending t ++ [ch])) (inBody_some _)
      refine ⟨t', ht', ?_, ?_⟩
      · rw [hpending, pending, List.append_assoc, List.singleton_append]
      · rw [Reader.reads_cons, read_body ht hstep, Option.bind_some, hrest]

end HttpParser

end Hiper

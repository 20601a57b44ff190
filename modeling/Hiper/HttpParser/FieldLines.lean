import Hiper.HttpParser.FieldNames
import Hiper.HttpParser.Law

/-!
# Header lines

A whole line of a header, from its name to its line end: the callbacks get the name and
the value, and what the parser makes of the value depends on the state of the name alone
(`reads_line`).

The states are `s_header_field_start` to `s_header_value_lws`
(`src/hiper/http/http-parser/http_parser.cc:1198-1755`).  A value ends with its line, but
only the first byte of the next line tells that it does not go on there, so that the lemmas
carry this byte with them.
-/

namespace Hiper

namespace HttpParser

variable {δ : Type*} {st : Settings δ} {p q : HttpParser} {bs name value rest : Bytes} {ch : Byte}
  {d d' : δ} {t : Bytes} {h : HeaderState} {i : ℕ}

/-- A header value as it is read back: header characters on one line, no blank first.  What
`dump` writes between the colon and the line end is one. -/
structure IsValue (value : Bytes) : Prop where
  chars : ∀ ch ∈ value, isHeaderChar ch = true ∧ ch ≠ CR ∧ ch ≠ LF
  first : ∀ ch ∈ value.head?, ch ≠ SP ∧ ch ≠ TAB

/-- The condition on its characters, and on the first of them. -/
theorem isValue_iff {value : Bytes} : IsValue value ↔
    (∀ ch ∈ value, isHeaderChar ch = true ∧ ch ≠ CR ∧ ch ≠ LF) ∧
      value.head? ≠ some SP ∧ value.head? ≠ some TAB := by
  constructor
  · intro h
    exact ⟨h.chars, fun hsp => (h.first SP hsp).1 rfl, fun htab => (h.first TAB htab).2 rfl⟩
  · rintro ⟨hchars, hsp, htab⟩
    refine ⟨hchars, fun ch hch => ⟨?_, ?_⟩⟩
    · rintro rfl
      exact hsp hch
    · rintro rfl
      exact htab hch

/-- What the parser makes of a value, character by character.  The first one decides what is
looked for. -/
def onValue (p : HttpParser) : Bytes → Except Errno HttpParser
  | [] => .ok p
  | ch :: value => p.valueStart ch >>= fun p => value.foldlM valueChar p

/-- The first character of a value does not look at the count of bytes. -/
theorem valueStart_counted (p : HttpParser) (n : ℕ) (ch : Byte) :
    (p.counted n).valueStart ch = (p.valueStart ch).map (·.counted n) := by
  obtain ⟨_, flags, _, h, _, _, _, _, _, _, _, _⟩ := p
  rw [valueStart, valueStart]
  cases h with
  | contentLength =>
      obtain ⟨_, _, _, _, _, _, given⟩ := flags
      dsimp only [counted]
      generalize isNum ch = digit
      cases digit <;> cases given <;> rfl
  | _ => rfl

/-- Another digit does not look at the count of bytes. -/
theorem pushDigit_counted (p : HttpParser) (n base digit limit : ℕ) :
    (p.counted n).pushDigit base digit limit = (p.pushDigit base digit limit).map (·.counted n) := by
  have hsame : (p.counted n).contentLength = p.contentLength := rfl
  rw [pushDigit, pushDigit, hsame]
  split_ifs <;> rfl

/-- A character of a value does not look at the count of bytes. -/
theorem valueChar_counted (p : HttpParser) (n : ℕ) (ch : Byte) :
    (p.counted n).valueChar ch = (p.valueChar ch).map (·.counted n) := by
  have hpush := pushDigit_counted { p with headerState := .contentLengthNum } n 10 (ch.toNat - 48)
    ((ullongMax - 10) / 10)
  obtain ⟨_, _, _, h, _, _, _, _, _, _, _, _⟩ := p
  rw [valueChar, valueChar]
  cases h with
  | contentLength | contentLengthNum =>
      dsimp only [counted]
      generalize (ch == SP) = blank, isNum ch = digit
      cases blank <;> cases digit <;> first | rfl | exact hpush
  | contentLengthWs | transferEncodingChunked =>
      dsimp only [counted]
      generalize (ch == SP) = blank, (ch != SP) = other
      cases blank <;> cases other <;> rfl
  | matchingConnectionToken =>
      dsimp only [counted]
      generalize is ch ',' = comma
      cases comma <;> rfl
  | connectionKeepAlive | connectionClose | connectionUpgrade =>
      dsimp only [counted]
      generalize is ch ',' = comma, (ch != SP) = other
      cases comma <;> cases other <;> rfl
  | _ => rfl

/-- A value changes the flags, the length, and how far it has been matched.  Everything else
stays. -/
def Valued (p q : HttpParser) : Prop :=
  q = { p with
    flags := q.flags, contentLength := q.contentLength, headerState := q.headerState, index := q.index }

/-- One such change after another is one. -/
theorem Valued.trans {p₁ : HttpParser} (h₁ : p.Valued p₁) (h₂ : p₁.Valued q) : p.Valued q := by
  rw [Valued] at h₁ h₂ ⊢
  rw [h₁] at h₂
  exact h₂

/-- The first character changes only these. -/
theorem valued_valueStart (hq : p.valueStart ch = .ok q) : p.Valued q := by
  rw [valueStart] at hq
  dsimp only at hq
  split at hq
  case h_3 =>
      split_ifs at hq
      cases hq
      rfl
  all_goals
    cases hq
    rfl

/-- A digit changes only these. -/
theorem valued_pushDigit {base digit limit : ℕ} (hq : p.pushDigit base digit limit = .ok q) :
    p.Valued q := by
  rw [pushDigit] at hq
  split_ifs at hq
  cases hq
  rfl

/-- A character changes only these. -/
theorem valued_valueChar (hq : p.valueChar ch = .ok q) : p.Valued q := by
  rw [valueChar] at hq
  split at hq
  case h_1 | h_2 =>
      split_ifs at hq
      · cases hq
        rfl
      · cases hq
        rfl
      · have hnum : p.Valued { p with headerState := .contentLengthNum } := rfl
        exact hnum.trans (valued_pushDigit hq)
  case h_3 =>
      split_ifs at hq
      cases hq
      rfl
  case h_9 | h_10 =>
      split_ifs at hq <;> cases hq <;> rfl
  case h_11 | h_12 | h_13 =>
      split_ifs at hq <;> cases hq <;> rfl
  all_goals
    cases hq
    rfl

/-- Characters change only these. -/
theorem valued_foldlM (hq : value.foldlM valueChar p = .ok q) : p.Valued q := by
  induction value generalizing p with
  | nil =>
      cases hq
      rfl
  | cons ch value ih =>
      rw [List.foldlM_cons] at hq
      cases hone : p.valueChar ch with
      | error e =>
          rw [hone] at hq
          cases hq
      | ok p₁ =>
          rw [hone] at hq
          exact (valued_valueChar hone).trans (ih hq)

/-- A value changes only these. -/
theorem valued_onValue (hq : p.onValue value = .ok q) : p.Valued q := by
  cases value with
  | nil =>
      cases hq
      rfl
  | cons ch value =>
      rw [onValue] at hq
      cases hone : p.valueStart ch with
      | error e =>
          rw [hone] at hq
          cases hq
      | ok p₁ =>
          rw [hone] at hq
          exact (valued_valueStart hone).trans (valued_foldlM hq)

/-- Characters do not look at the count of bytes. -/
theorem foldlM_valueChar_counted {n : ℕ} (hq : value.foldlM valueChar p = .ok q) :
    value.foldlM valueChar (p.counted n) = .ok (q.counted n) := by
  induction value generalizing p with
  | nil =>
      cases hq
      rfl
  | cons ch value ih =>
      rw [List.foldlM_cons] at hq ⊢
      rw [valueChar_counted]
      cases hone : p.valueChar ch with
      | error e =>
          rw [hone] at hq
          cases hq
      | ok p₁ =>
          rw [hone] at hq
          exact ih hq

/-- A value does not look at the count of bytes. -/
theorem onValue_counted {n : ℕ} (hq : p.onValue value = .ok q) :
    (p.counted n).onValue value = .ok (q.counted n) := by
  cases value with
  | nil =>
      cases hq
      rfl
  | cons ch value =>
      rw [onValue] at hq ⊢
      rw [valueStart_counted]
      cases hone : p.valueStart ch with
      | error e =>
          rw [hone] at hq
          cases hq
      | ok p₁ =>
          rw [hone] at hq
          exact foldlM_valueChar_counted hq

/-- A character of a value.  It is counted, and nothing is reported. -/
theorem step_value (hp : p.state = .headerValue) (hq : p.valueChar ch = .ok q)
    (hch : isHeaderChar ch = true ∧ ch ≠ CR ∧ ch ≠ LF) (hn : p.nread < maxHeaderSize) :
    p.step ch = next (q.counted (p.nread + 1)) := by
  have hok : (p.counted (p.nread + 1)).valueChar ch = .ok (q.counted (p.nread + 1)) := by
    rw [valueChar_counted, hq]
    rfl
  have hbyte : (p.counted (p.nread + 1)).onByte ch = (p.counted (p.nread + 1)).onHeaderValue ch := by
    rw [onByte, show (p.counted (p.nread + 1)).state = .headerValue from hp]
  rw [step_head (by rw [hp]; rfl) hn, hbyte, onHeaderValue, if_neg (by simpa using hch.2.1), if_neg (by simpa using hch.2.2),
    if_neg (by simpa using hch.1), hok]

/-- The characters of a value behind the first one.  Nothing is reported before the value ends. -/
theorem glide_value (hp : p.state = .headerValue) (hq : value.foldlM valueChar p = .ok q)
    (hchars : ∀ ch ∈ value, isHeaderChar ch = true ∧ ch ≠ CR ∧ ch ≠ LF)
    (hn : p.nread + value.length ≤ maxHeaderSize) :
    p.glide value = some (q.counted (p.nread + value.length)) := by
  induction value generalizing p q with
  | nil =>
      cases hq
      rfl
  | cons ch value ih =>
      obtain ⟨hch, hchars⟩ := List.forall_mem_cons.1 hchars
      rw [List.length_cons] at hn
      rw [List.foldlM_cons] at hq
      cases hone : p.valueChar ch with
      | error e =>
          rw [hone] at hq
          cases hq
      | ok p₁ =>
          rw [hone] at hq
          have hstate : p₁.state = .headerValue :=
            (congrArg View.state (keeps_valueChar hone).view).trans hp
          have hrest := ih (p := p₁.counted (p.nread + 1)) hstate
            (foldlM_valueChar_counted (n := p.nread + 1) hq) hchars
            (by change p.nread + 1 + value.length ≤ _; omega)
          rw [glide_of_step (step_value hp hone hch (by omega)), hrest, List.length_cons,
            Nat.add_comm value.length, ← Nat.add_assoc]
          rfl

/-! ### The end of a line -/

/-- At the start of the next line, whose first character is read as if the value had never been
waited for.  The flags are set by the value that has ended. -/
theorem step_lws (hp : p.state = .headerValueLws) (hch : ch ≠ SP ∧ ch ≠ TAB)
    (hn : p.nread < maxHeaderSize) :
    p.step ch = ({ p.goto .headerFieldStart with flags := p.valueFlags } : HttpParser).step ch := by
  have hlws : (p.counted (p.nread + 1)).onByte ch = (p.counted (p.nread + 1)).onHeaderValueLws ch := by
    rw [onByte, show (p.counted (p.nread + 1)).state = .headerValueLws from hp]
  rw [step_head (by rw [hp]; rfl) hn, hlws, onHeaderValueLws, if_neg (by simpa using hch)]
  exact (step_head (p := { p.goto .headerFieldStart with flags := p.valueFlags }) rfl hn ch).symm

/-- The line end of a value.  The value is reported. -/
theorem reads_valueEnd (hp : p.state = .headerValue) (hn : p.nread + 3 ≤ maxHeaderSize)
    (hch : ch ≠ SP ∧ ch ≠ TAB) (hd : st.onData .headerValue t d = some d') :
    Reader.reads st (CR :: LF :: ch :: rest) ⟨p, some (.headerValue, t), d⟩ =
      Reader.reads st (ch :: rest) ⟨{ p with
        state := .headerFieldStart, flags := p.valueFlags, nread := p.nread + 2 }, none, d'⟩ := by
  have hcr : p.step CR = ⟨[.data .headerValue], .next { p with
      state := .headerAlmostDone, nread := p.nread + 1 }⟩ := by
    rw [step_at hp rfl (by omega)]
    rfl
  have hlf : ({ p with state := .headerAlmostDone, nread := p.nread + 1 } : HttpParser).step LF =
      next { p with state := .headerValueLws, nread := p.nread + 2 } := by
    rw [step_at rfl rfl (by change p.nread + 1 < _; omega)]
    rfl
  have hlws := step_lws (p := { p with state := .headerValueLws, nread := p.nread + 2 }) rfl hch
    (by change p.nread + 2 < _; omega)
  rw [Reader.reads_cons, Reader.read_data hcr hd, Option.bind_some, Reader.reads_cons,
    Reader.read_next hlf, Option.bind_some, Reader.reads_cons, Reader.reads_cons, Reader.read,
    Reader.read, hlws]
  rfl

/-- The parser at the first character of a value.  `index` starts anew. -/
def atValue (p : HttpParser) (h : HeaderState) : HttpParser :=
  { p with state := .headerValue, headerState := h, index := 0 }

/-- A byte where blanks are skipped.  A blank and a tab are skipped. -/
theorem step_discardWs (hp : p.state = .headerValueDiscardWs) (hn : p.nread < maxHeaderSize) :
    p.step ch = (p.counted (p.nread + 1)).onHeaderValueDiscardWs ch := by
  rw [step_head (by rw [hp]; rfl) hn, onByte,
    show (p.counted (p.nread + 1)).state = .headerValueDiscardWs from hp]

/-- The first character of a value.  The mark of the value is set. -/
theorem step_valueStart (hp : p.state = .headerValueDiscardWs)
    (hq : (p.atValue p.headerState).valueStart ch = .ok q) (hch : ch ≠ CR ∧ ch ≠ LF)
    (hblank : ch ≠ SP ∧ ch ≠ TAB) (hn : p.nread < maxHeaderSize) :
    p.step ch = ⟨[.mark .headerValue], .next (q.counted (p.nread + 1))⟩ := by
  have hok : ((p.atValue p.headerState).counted (p.nread + 1)).valueStart ch =
      .ok (q.counted (p.nread + 1)) := by
    rw [valueStart_counted, hq]
    rfl
  have hat : ({ (p.counted (p.nread + 1)).goto .headerValue with index := 0 } : HttpParser) =
      (p.atValue p.headerState).counted (p.nread + 1) := rfl
  rw [step_discardWs hp hn, onHeaderValueDiscardWs, if_neg (by simpa using hblank),
    if_neg (by simpa using hch.1), if_neg (by simpa using hch.2), onHeaderValueStart, hat, hok]
  rfl

/-- **A value that is not empty, and its line end.**  One blank stands before it. -/
theorem reads_value (hp : p.state = .headerValueDiscardWs) (hvalue : IsValue value) (hne : value ≠ [])
    (hq : (p.atValue p.headerState).onValue value = .ok q)
    (hn : p.nread + value.length + 4 ≤ maxHeaderSize) (hch : ch ≠ SP ∧ ch ≠ TAB)
    (hd : st.onData .headerValue value d = some d') (rest : Bytes) :
    Reader.reads st (32 :: value ++ CR :: LF :: ch :: rest) ⟨p, none, d⟩ =
      Reader.reads st (ch :: rest) ⟨{ q with
        state := .headerFieldStart, flags := q.valueFlags,
        nread := p.nread + value.length + 3 }, none, d'⟩ := by
  obtain ⟨c, value, rfl⟩ := List.exists_cons_of_ne_nil hne
  obtain ⟨hc, hchars⟩ := List.forall_mem_cons.1 hvalue.chars
  rw [List.length_cons] at hn
  rw [onValue] at hq
  cases hstart : (p.atValue p.headerState).valueStart c with
  | error e =>
      rw [hstart] at hq
      cases hq
  | ok p₁ =>
      rw [hstart] at hq
      have hstate : p₁.state = .headerValue := congrArg View.state (keeps_valueStart hstart).view
      have hspace : p.step 32 = next (p.counted (p.nread + 1)) := by
        rw [step_discardWs hp (by omega)]
        rfl
      have hok : ((p.atValue p.headerState).counted (p.nread + 1)).valueStart c =
          .ok (p₁.counted (p.nread + 1)) := by
        rw [valueStart_counted, hstart]
        rfl
      have hfirst := step_valueStart (p := p.counted (p.nread + 1)) hp hok hc.2 (hvalue.first c rfl)
        (by change p.nread + 1 < _; omega)
      have hglide := glide_value (p := p₁.counted (p.nread + 2)) hstate
        (foldlM_valueChar_counted (n := p.nread + 2) hq) hchars
        (by change p.nread + 2 + value.length ≤ _; omega)
      have hvalueState : q.state = .headerValue := by
        rw [valued_foldlM hq]
        exact hstate
      have hcount : p.nread + 2 + value.length + 2 = p.nread + (c :: value).length + 3 := by
        rw [List.length_cons]
        omega
      rw [List.cons_append, List.cons_append, Reader.reads_cons, Reader.read_next hspace,
        Option.bind_some, Reader.reads_cons, Reader.read_mark hfirst, Option.bind_some,
        Reader.reads_of_append (Reader.reads_of_glide hglide), ← hcount]
      exact reads_valueEnd (p := q.counted (p.nread + 2 + value.length)) hvalueState
        (by change p.nread + 2 + value.length + 3 ≤ _; omega) hch hd

/-- **No value.**  An empty text is reported. -/
theorem reads_noValue (hp : p.state = .headerValueDiscardWs) (hh : p.headerState ≠ .contentLength)
    (hn : p.nread + 4 ≤ maxHeaderSize) (hch : ch ≠ SP ∧ ch ≠ TAB)
    (hd : st.onData .headerValue [] d = some d') (rest : Bytes) :
    Reader.reads st (32 :: CR :: LF :: ch :: rest) ⟨p, none, d⟩ =
      Reader.reads st (ch :: rest) ⟨{ p with
        state := .headerFieldStart, flags := p.valueFlags, nread := p.nread + 3 }, none, d'⟩ := by
  have hspace : p.step 32 = next (p.counted (p.nread + 1)) := by
    rw [step_discardWs hp (by omega)]
    rfl
  have hcr : (p.counted (p.nread + 1)).step CR =
      next { p with state := .headerValueDiscardWsAlmostDone, nread := p.nread + 2 } := by
    rw [step_discardWs (p := p.counted (p.nread + 1)) hp (by change p.nread + 1 < _; omega)]
    rfl
  have hlf : ({ p with state := .headerValueDiscardWsAlmostDone, nread := p.nread + 2 } :
      HttpParser).step LF = next { p with state := .headerValueDiscardLws, nread := p.nread + 3 } := by
    rw [step_at rfl rfl (by change p.nread + 2 < _; omega)]
    rfl
  have hlws : ({ p with state := .headerValueDiscardLws, nread := p.nread + 3 } : HttpParser).step ch =
      (({ p with state := .headerFieldStart, flags := p.valueFlags, nread := p.nread + 3 } :
        HttpParser).step ch).after [.mark .headerValue, .data .headerValue] := by
    rw [step_at rfl rfl (by change p.nread + 3 < _; omega),
      step_at rfl rfl (by change p.nread + 3 < _; omega)]
    change onHeaderValueDiscardLws _ ch = _
    rw [onHeaderValueDiscardLws, if_neg (by simpa using hch), if_neg (by simpa using hh)]
    rfl
  have hevs : [.mark .headerValue, .data .headerValue].foldlM (Reader.event st ch) (none, d) =
      some (none, d') := by
    simp [Reader.event, Reader.close, hd]
  rw [Reader.reads_cons, Reader.read_next hspace, Option.bind_some, Reader.reads_cons,
    Reader.read_next hcr, Option.bind_some, Reader.reads_cons, Reader.read_next hlf,
    Option.bind_some, Reader.reads_cons, Reader.reads_cons, Reader.read_after hlws hevs]

/-! ### Lines -/

/-- Other states that a name may end in make nothing of the value.  They are those of a name
that has not been read to the end of a word. -/
theorem valueStart_of_tracks {n : Bytes} (ht : Tracks n h i) :
    (p.atValue h).valueStart ch = (p.atValue h.settled).valueStart ch := by
  cases ht with
  | word hword _ _ _ _ => cases h <;> cases hword <;> rfl
  | whole _ hw =>
      rw [HeaderState.settled, special_of_word hw]
      rfl
  | _ => rfl

/-- A name that is no word sets no flag at the end of its value. -/
theorem valueFlags_of_tracks {n : Bytes} (ht : Tracks n p.headerState i) : p.valueFlags = p.flags := by
  generalize hs : p.headerState = s at ht
  rw [valueFlags, hs]
  cases ht with
  | word hword _ _ _ _ => cases s <;> cases hword <;> rfl
  | whole _ hw =>
      have hspecial := special_of_word hw
      cases s <;> cases hspecial <;> rfl
  | _ => rfl

/-- The line of a header, as `dump` writes it.  `name: value` and the line end. -/
def fieldLine (name value : Bytes) : Bytes := name ++ 58 :: 32 :: value ++ [CR, LF]

/-- What a header line makes of the flags and of the length: nothing, unless the parser knows
the name.  Of a `Content-Length`, the number. -/
def onField (p : HttpParser) (name value : Bytes) : Except Errno HttpParser :=
  if value.isEmpty && nameState name == .contentLength then .error .invalidContentLength
  else (p.atValue (nameState name)).onValue value

/-- **A header line**, with the first byte of the next line.  The two callbacks are called, and
the parser has made of the line what `onField` says. -/
theorem reads_line (hp : p.state = .headerFieldStart) (hname : IsName name) (hvalue : IsValue value)
    (hq : p.onField name value = .ok q)
    (hn : p.nread + (fieldLine name value).length < maxHeaderSize) (hch : ch ≠ SP ∧ ch ≠ TAB)
    {d₁ : δ} (hd₁ : st.onData .headerField name d = some d₁)
    (hd : st.onData .headerValue value d₁ = some d') (rest : Bytes) :
    ∃ h i, Reader.reads st (fieldLine name value ++ ch :: rest) ⟨p, none, d⟩ =
      Reader.reads st (ch :: rest) ⟨{ p with
        state := .headerFieldStart, flags := q.valueFlags, contentLength := q.contentLength,
        headerState := h, index := i, nread := p.nread + (fieldLine name value).length }, none, d'⟩ := by
  have hlength : (fieldLine name value).length = name.length + 1 + (value.length + 3) := by
    simp only [fieldLine, List.length_append, List.length_cons, List.length_nil]
    omega
  obtain ⟨h, i, htracks, hreads⟩ := reads_name (r := ⟨p, none, d⟩) hp rfl hname
    (by change p.nread + name.length + 1 ≤ _; omega) hd₁
  have htext : fieldLine name value ++ ch :: rest =
      name ++ [58] ++ (32 :: value ++ CR :: LF :: ch :: rest) := by
    simp [fieldLine]
  rw [htext, Reader.reads_of_append hreads, hlength]
  cases value with
  | nil =>
      have hne : nameState name ≠ .contentLength := by
        intro heq
        rw [onField, heq] at hq
        cases hq
      have hq' : p.atValue (nameState name) = q := by
        rw [onField, beq_eq_false_iff_ne.2 hne] at hq
        cases hq
        rfl
      have hh : h ≠ .contentLength := by
        rintro rfl
        exact hne htracks.settled.symm
      have hflags : q.valueFlags = p.flags := by
        rw [← hq', ← htracks.settled]
        cases h <;> rfl
      have hlast := reads_noValue (p := { p with
        state := .headerValueDiscardWs, headerState := h, index := i,
        nread := p.nread + name.length + 1 }) rfl hh
        (by change p.nread + name.length + 1 + 4 ≤ _; rw [List.length_nil] at hlength; omega) hch hd rest
      rw [valueFlags_of_tracks htracks] at hlast
      refine ⟨h, i, hlast.trans ?_⟩
      rw [hflags, ← hq']
      rfl
  | cons c value =>
      have hq' : (p.atValue (nameState name)).onValue (c :: value) = .ok q := by
        rw [onField, List.isEmpty_cons, Bool.false_and, if_neg Bool.false_ne_true] at hq
        exact hq
      have hstart : (p.atValue h).onValue (c :: value) = .ok q := by
        rw [onValue, valueStart_of_tracks htracks, htracks.settled]
        exact hq'
      have hcounted : ((p.atValue h).counted (p.nread + name.length + 1)).onValue (c :: value) =
          .ok (q.counted (p.nread + name.length + 1)) := onValue_counted hstart
      have hlast := reads_value (p := { p with
        state := .headerValueDiscardWs, headerState := h, index := i,
        nread := p.nread + name.length + 1 }) rfl hvalue (by simp) hcounted
        (by change p.nread + name.length + 1 + (c :: value).length + 4 ≤ _; omega) hch hd rest
      refine ⟨q.headerState, q.index, hlast.trans ?_⟩
      have hcount : p.nread + name.length + 1 + (c :: value).length + 3 =
          p.nread + (name.length + 1 + ((c :: value).length + 3)) := by omega
      obtain ⟨f, c', s, j, rfl⟩ : ∃ f c' s j, q = { p.atValue (nameState name) with
          flags := f, contentLength := c', headerState := s, index := j } :=
        ⟨_, _, _, _, valued_onValue hq'⟩
      rw [← hcount]
      rfl

end HttpParser

end Hiper

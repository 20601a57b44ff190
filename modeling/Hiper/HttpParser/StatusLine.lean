import Hiper.HttpParser.Framing
import Hiper.HttpParser.RequestLine

/-!
# The head of a response

From a new parser to the body: the version, the code one digit after another, the reason,
which one callback gets whole, and the header lines (`StatusHead.reads_head`).  Where no
line tells the length of the body, the status decides whether there is one.

The states are `s_start_res` to `s_res_line_almost_done`
(`src/hiper/http/http-parser/http_parser.cc:763-918`), and `http_message_needs_eof`
(`:2089`).  A reason is any text without a line end, the empty one included; the code has up
to three digits, of which none may make it 1000 or more.
-/

namespace Hiper

namespace HttpParser

open StringUtil

variable {δ : Type*} {st : Settings δ} {p q : HttpParser} {bs rest : Bytes} {d d' : δ} {ch : Byte}

/-! ### The version -/

/-- The parser behind the `H`.  `on_message_begin` was called. -/
def inVersion : HttpParser :=
  { init .response with state := .resH, flags := .none, contentLength := ullongMax, nread := 1 }

/-- The first letter of a status line begins the message. -/
theorem reads_resH (d : δ) : Reader.reads st [72] ⟨init .response, none, d⟩ =
    some ⟨inVersion, none, st.onNotify .messageBegin d⟩ := by
  have hstep : (init .response).step 72 = ⟨[.note .messageBegin], .next inVersion⟩ := rfl
  rw [Reader.reads_cons, Reader.read_note hstep]
  rfl

/-- The rest of the version, and the blank behind it.  Nothing is reported. -/
theorem glide_resVersion {major minor : ℕ} (hmajor : major < 10) (hminor : minor < 10) :
    inVersion.glide ((httpText major minor).tail ++ [32]) = some { inVersion with
      state := .resFirstStatusCode, httpMajor := major, httpMinor := minor, nread := 9 } := by
  have htext : (httpText major minor).tail ++ [32] =
      [84, 84, 80, 47, UInt8.ofNat (48 + major), 46, UInt8.ofNat (48 + minor), 32] := by
    rw [httpText, decimal_of_lt hmajor, decimal_of_lt hminor]
    rfl
  rw [htext]
  interval_cases major <;> interval_cases minor <;> rfl

/-! ### The code -/

/-- The parser in the code, behind digits of this value.  The next digit is multiplied in. -/
def inCode (major minor code nread : ℕ) : HttpParser :=
  { inVersion with
    state := .resStatusCode, httpMajor := major, httpMinor := minor, statusCode := code, nread := nread }

/-- A digit behind others.  It stays below 1000. -/
theorem step_resStatusCode {major minor code nread : ℕ} (hch : isNum ch = true)
    (hcode : 10 * code + (ch.toNat - 48) < 1000) (hn : nread < maxHeaderSize) :
    (inCode major minor code nread).step ch =
      next (inCode major minor (10 * code + (ch.toNat - 48)) (nread + 1)) := by
  rw [step_at rfl rfl hn]
  change onResStatusCode _ ch = _
  rw [onResStatusCode, hch]
  dsimp only
  rw [if_neg (by decide), if_neg (by change ¬999 < code * 10 + _; omega), inCode, inCode,
    Nat.mul_comm 10 code]

/-- Digits of a code, one after another. -/
theorem glide_codeDigits (major minor : ℕ) {code nread : ℕ} {ds : Bytes} (hds : ∀ ch ∈ ds, isNum ch = true)
    (hcode : digitsFrom code ds < 1000) (hn : nread + ds.length ≤ maxHeaderSize) :
    (inCode major minor code nread).glide ds =
      some (inCode major minor (digitsFrom code ds) (nread + ds.length)) := by
  induction ds generalizing code nread with
  | nil => rfl
  | cons ch ds ih =>
      obtain ⟨hch, hds⟩ := List.forall_mem_cons.1 hds
      rw [List.length_cons] at hn ⊢
      have hle : 10 * code + (ch.toNat - 48) < 1000 := lt_of_le_of_lt (le_digitsFrom _ ds) hcode
      rw [glide_of_step (step_resStatusCode hch hle (by omega)), ih hds hcode (by omega),
        Nat.add_comm ds.length, ← Nat.add_assoc]
      rfl

/-- A number below 1000 has up to three digits. -/
theorem length_decimal_le {n : ℕ} (h : n < 1000) : (decimal n).length ≤ 3 := by
  rw [decimal]
  split_ifs
  · exact Nat.le_of_ble_eq_true rfl
  · rw [decimal]
    split_ifs
    · exact Nat.le_of_ble_eq_true rfl
    · rw [decimal, if_pos (by omega)]
      exact Nat.le_of_ble_eq_true rfl

/-- **The code** and the blank behind it.  From behind the version. -/
theorem glide_code (major minor : ℕ) {code : ℕ} (hcode : code < 1000) (hp : p = { inVersion with
      state := .resFirstStatusCode, httpMajor := major, httpMinor := minor, nread := 9 }) :
    p.glide (decimal code ++ [32]) = some { inCode major minor code 0 with
      state := .resStatusStart, nread := (decimal code).length + 10 } := by
  have hdigits : ∀ ch ∈ decimal code, isNum ch = true := fun _ => isdigit_of_mem_decimal
  have hvalue : digitsFrom 0 (decimal code) = code := readDecimal_decimal code
  have hlength : (decimal code).length ≤ 3 := length_decimal_le hcode
  obtain ⟨c, ds, hds⟩ := List.exists_cons_of_ne_nil (decimal_ne_nil code)
  rw [hds] at hdigits hvalue hlength ⊢
  obtain ⟨hc, hrest⟩ := List.forall_mem_cons.1 hdigits
  have hfirst : p.step c = next (inCode major minor (c.toNat - 48) 10) := by
    rw [hp, step_at rfl rfl (show 9 < maxHeaderSize by decide)]
    change onResFirstStatusCode _ c = _
    rw [onResFirstStatusCode, hc]
    rfl
  have hvalue' : digitsFrom (c.toNat - 48) ds = code := by
    rw [← hvalue]
    change _ = digitsFrom (10 * 0 + (c.toNat - 48)) ds
    rw [Nat.mul_zero, Nat.zero_add]
  rw [List.length_cons] at hlength
  have hmax : maxHeaderSize = 81920 := rfl
  have hglide := glide_codeDigits major minor hrest (by rw [hvalue']; exact hcode)
    (show 10 + ds.length ≤ maxHeaderSize by omega)
  rw [hvalue'] at hglide
  have hblank : (inCode major minor code (10 + ds.length)).step 32 = next
      { inCode major minor code 0 with
        state := .resStatusStart, nread := (c :: ds).length + 10 } := by
    rw [step_at rfl rfl (by change 10 + ds.length < _; omega), List.length_cons,
      show ds.length + 1 + 10 = 10 + ds.length + 1 by omega]
    rfl
  rw [List.cons_append, glide_of_step hfirst, glide_append, hglide, Option.bind_some,
    glide_of_step hblank]
  rfl

/-! ### The reason -/

/-- The parser behind the code, and further on.  The state tells how far. -/
def afterCode (major minor code nread : ℕ) (s : State) : HttpParser :=
  { inCode major minor code nread with state := s }

/-- The characters of a reason are counted, and nothing is reported. -/
theorem glide_reason {reason : Bytes} (hp : p.state = .resStatus) (hreason : CR ∉ reason ∧ LF ∉ reason)
    (hn : p.nread + reason.length ≤ maxHeaderSize) :
    p.glide reason = some { p with nread := p.nread + reason.length } := by
  induction reason generalizing p with
  | nil => rfl
  | cons ch reason ih =>
      obtain ⟨hcr, hreason₁⟩ := List.ne_and_not_mem_of_not_mem_cons hreason.1
      obtain ⟨hlf, hreason₂⟩ := List.ne_and_not_mem_of_not_mem_cons hreason.2
      rw [List.length_cons] at hn ⊢
      have hstep : p.step ch = next { p with nread := p.nread + 1 } := by
        rw [step_at hp rfl (by omega)]
        change onResStatus _ ch = _
        rw [onResStatus, if_neg (by simpa using hcr.symm), if_neg (by simpa using hlf.symm), ← hp]
      rw [glide_of_step hstep, ih (p := { p with nread := p.nread + 1 }) hp ⟨hreason₁, hreason₂⟩
        (by change p.nread + 1 + reason.length ≤ _; omega), Nat.add_comm reason.length, ← Nat.add_assoc]

/-- The reason is handed over at its line end, the empty one as well. -/
theorem read_reasonEnd {major minor code n : ℕ} {reason : Bytes} (hreason : CR ∉ reason ∧ LF ∉ reason)
    (hn : n + reason.length < maxHeaderSize) (hd : st.onData (.status code) reason d = some d') :
    Reader.reads st (reason ++ [CR]) ⟨afterCode major minor code n .resStatusStart, none, d⟩ =
      some ⟨afterCode major minor code (n + reason.length + 1) .resLineAlmostDone, none, d'⟩ := by
  cases reason with
  | nil =>
      have hstep : (afterCode major minor code n .resStatusStart).step CR =
          ⟨[.mark (.status code), .data (.status code)],
            .next (afterCode major minor code (n + 1) .resLineAlmostDone)⟩ := by
        rw [step_at rfl rfl hn]
        rfl
      have hevs : [.mark (.status code), .data (.status code)].foldlM (Reader.event st CR) (none, d) =
          some (none, d') := by
        change (Reader.close st (.status code) [] (some (.status code, []), d)).bind _ = _
        rw [Reader.close]
        dsimp only
        rw [if_pos rfl, List.append_nil, hd]
        rfl
      rw [List.nil_append, Reader.reads_cons, Reader.read_of_step
        (r := ⟨afterCode major minor code n .resStatusStart, none, d⟩) hstep, hevs]
      rfl
  | cons ch reason =>
      obtain ⟨hcr, hreason₁⟩ := List.ne_and_not_mem_of_not_mem_cons hreason.1
      obtain ⟨hlf, hreason₂⟩ := List.ne_and_not_mem_of_not_mem_cons hreason.2
      rw [List.length_cons] at hn ⊢
      have hfirst : (afterCode major minor code n .resStatusStart).step ch =
          ⟨[.mark (.status code)], .next (afterCode major minor code (n + 1) .resStatus)⟩ := by
        rw [step_at rfl rfl (show n < _ by omega)]
        change onResStatusStart _ ch = _
        rw [onResStatusStart, if_neg (by simp [hcr.symm, hlf.symm])]
        rfl
      have hglide := glide_reason (p := afterCode major minor code (n + 1) .resStatus) rfl
        ⟨hreason₁, hreason₂⟩ (by change n + 1 + reason.length ≤ _; omega)
      have hlast : (afterCode major minor code (n + 1 + reason.length) .resStatus).step CR =
          ⟨[.data (.status code)],
            .next (afterCode major minor code (n + 1 + reason.length + 1) .resLineAlmostDone)⟩ := by
        rw [step_at rfl rfl (show n + 1 + reason.length < _ by omega)]
        rfl
      rw [List.cons_append, Reader.reads_cons, Reader.read_mark hfirst, Option.bind_some,
        Reader.reads_of_append (Reader.reads_of_glide hglide),
        show n + (reason.length + 1) + 1 = n + 1 + reason.length + 1 by omega]
      exact congrArg (·.bind (Reader.reads st [])) (Reader.read_data hlast hd)

/-- **The reason**, with its line end. -/
theorem reads_reason (major minor : ℕ) {code n : ℕ} {reason : Bytes} (hreason : CR ∉ reason ∧ LF ∉ reason)
    (hn : n + reason.length + 1 < maxHeaderSize) (hd : st.onData (.status code) reason d = some d') :
    Reader.reads st (reason ++ [CR, LF]) ⟨afterCode major minor code n .resStatusStart, none, d⟩ =
      some ⟨afterCode major minor code (n + reason.length + 2) .headerFieldStart, none, d'⟩ := by
  have hlf : (afterCode major minor code (n + reason.length + 1) .resLineAlmostDone).step LF =
      next (afterCode major minor code (n + reason.length + 2) .headerFieldStart) := by
    rw [step_at rfl rfl hn]
    rfl
  have hsplit : reason ++ [CR, LF] = reason ++ [CR] ++ [LF] := by simp
  rw [hsplit, Reader.reads_of_append (read_reasonEnd hreason (by omega) hd), Reader.reads_cons,
    Reader.read_next hlf]
  rfl

/-! ### The head -/

/-- The status line and the header lines of a response.  The body does not belong to it. -/
structure StatusHead where
  major : ℕ
  minor : ℕ
  code : ℕ
  reason : Bytes
  fields : List Field

namespace StatusHead

variable (h : StatusHead)

/-- The status line and the line end.  It is what `dump` writes first. -/
def line : Bytes := httpText h.major h.minor ++ [32] ++ (decimal h.code ++ [32]) ++ (h.reason ++ [CR, LF])

/-- The text of the head, with the empty line. -/
def bytes : Bytes := h.line ++ (fieldLines h.fields ++ [CR, LF])

/-- What a server may send, within the limit on heads.  Each field is a condition on the text
alone. -/
structure Fits : Prop where
  major : h.major < 10
  minor : h.minor < 10
  code : h.code < 1000
  reason : CR ∉ h.reason ∧ LF ∉ h.reason
  fields : IsFields h.fields
  length : h.bytes.length ≤ maxHeaderSize

/-- The parser behind the status line.  The first header line comes next. -/
def afterLine : HttpParser := HttpParser.afterCode h.major h.minor h.code h.line.length .headerFieldStart

/-- The status tells that there is no body.  It is 1xx, 204 or 304. -/
def Bodiless : Prop := h.code / 100 = 1 ∨ h.code = 204 ∨ h.code = 304

/-- It is decided by the code. -/
instance : Decidable h.Bodiless :=
  inferInstanceAs (Decidable (h.code / 100 = 1 ∨ h.code = 204 ∨ h.code = 304))

variable {h}

/-- The length of the status line. -/
theorem length_line (hf : h.Fits) :
    h.line.length = (decimal h.code).length + 10 + h.reason.length + 2 := by
  have hversion : (httpText h.major h.minor).length = 8 := by
    rw [httpText, decimal_of_lt hf.major, decimal_of_lt hf.minor]
    rfl
  simp only [line, List.length_append, List.length_cons, List.length_nil, hversion]
  omega

/-- The length of the head. -/
theorem length_bytes : h.bytes.length = h.line.length + ((fieldLines h.fields).length + 2) := by
  rw [bytes, List.length_append, List.length_append]
  rfl

/-- **The status line.**  `on_message_begin` and `on_status` are called. -/
theorem reads_line (hf : h.Fits)
    (hd : st.onData (.status h.code) h.reason (st.onNotify .messageBegin d) = some d') :
    Reader.reads st h.line ⟨init .response, none, d⟩ = some ⟨h.afterLine, none, d'⟩ := by
  have hlength := length_line hf
  have hle := hf.length
  rw [length_bytes] at hle
  have htext : h.line = [72] ++ ((httpText h.major h.minor).tail ++ [32] ++
      (decimal h.code ++ [32] ++ (h.reason ++ [CR, LF]))) := by
    have hhttp : httpText h.major h.minor = 72 :: (httpText h.major h.minor).tail := rfl
    rw [line]
    conv_lhs => rw [hhttp]
    simp
  have hcode := glide_code h.major h.minor hf.code rfl
  have hreason := reads_reason h.major h.minor (n := (decimal h.code).length + 10) hf.reason (by omega) hd
  rw [htext, Reader.reads_of_append (reads_resH d),
    Reader.reads_of_append (Reader.reads_of_glide (glide_resVersion hf.major hf.minor)),
    Reader.reads_of_append (Reader.reads_of_glide hcode), afterLine, hlength]
  exact hreason

section

variable {l : Option ℕ}

/-- Lines that tell one length at most are accepted behind the status line. -/
theorem sums_of_tells (htells : TellsLength h.fields l) :
    ∃ q, h.fields.foldlM effect h.afterLine = .ok q ∧ Sums h.afterLine q h.fields l := by
  obtain ⟨q, hq⟩ := effects_of_tells (p := h.afterLine) htells fun hno => by cases hno
  obtain ⟨l', hsums⟩ := sums_of_effects hq
  obtain rfl := htells.unique hsums.tells
  exact ⟨q, hq, hsums⟩

/-- Where the body is read: with neither chunks nor a length it is what comes until the
end of the connection, unless the status tells that there is none. -/
theorem bodyState_of_sums (hsums : Sums h.afterLine q h.fields l) :
    q.bodyState = if q.flags.chunked then some .chunkSizeStart
      else if l = some 0 ∨ l = none ∧ h.Bodiless then none
      else if l = none then some .bodyIdentityEof
      else some .bodyIdentity := by
  have htype : q.type = .response := by rw [hsums.same]; rfl
  have hcode : q.statusCode = h.code := by rw [hsums.same]; rfl
  have hlength : q.contentLength = l.getD ullongMax := by rw [hsums.same]; rfl
  by_cases hchunked : q.flags.chunked = true
  · rw [bodyState, if_pos hchunked, if_pos hchunked]
  · rw [bodyState, if_neg hchunked, if_neg hchunked, hlength]
    cases l with
    | none =>
        have hneeds : q.messageNeedsEof = !decide h.Bodiless := by
          have hcodes : (decide (h.code / 100 = 1) || decide (h.code = 204) || decide (h.code = 304)) =
              decide h.Bodiless := by
            rw [← Bool.decide_or, ← Bool.decide_or, decide_eq_decide, Bodiless, or_assoc]
          rw [messageNeedsEof, if_neg (by rw [htype]; decide), hcode, hlength,
            Bool.eq_false_iff.2 hchunked, hcodes]
          cases decide h.Bodiless <;> rfl
        rw [hneeds, Option.getD_none, if_neg (by decide), if_neg (not_not.2 rfl)]
        by_cases hbodiless : h.Bodiless
        · rw [decide_eq_true hbodiless, if_pos (Or.inr ⟨rfl, hbodiless⟩)]
          rfl
        · rw [decide_eq_false hbodiless, if_neg (c := none = some 0 ∨ _) (by simp [hbodiless])]
          rfl
    | some n =>
        have hle := hsums.tells.le
        have hmax : n ≠ ullongMax := by
          rw [maxLength] at hle
          change n ≠ 18446744073709551615
          omega
        rw [Option.getD_some, if_pos hmax]
        by_cases hzero : n = 0
        · rw [if_pos hzero, if_pos (Or.inl (congrArg some hzero))]
        · rw [if_neg hzero, if_neg (by simp [hzero]), if_neg (by simp)]

/-- **The head of a response** is read to its end, its callbacks are called, and the parser
stands where its body is read. -/
theorem reads_head (hf : h.Fits) (hframed : FramedBy h.fields l) (hup : NoUpgrade h.fields) {d₁ d₂ : δ}
    (hd₁ : st.onData (.status h.code) h.reason (st.onNotify .messageBegin d) = some d₁)
    (hd₂ : h.fields.foldlM (hear st) d₁ = some d₂) :
    ∃ q s i, Sums h.afterLine q h.fields l ∧
      Reader.reads st h.bytes ⟨init .response, none, d⟩ = some ⟨
        { q.afterHead with headerState := s, index := i }, none,
        if q.bodyState.isSome then st.onNotify (.headersComplete q.head) d₂
        else st.onNotify .messageComplete (st.onNotify (.headersComplete q.head) d₂)⟩ := by
  obtain ⟨q, hq, hsums⟩ := sums_of_tells hframed.tells
  have hle := hf.length
  rw [length_bytes] at hle
  have hsame := hsums.same
  obtain ⟨s, i, hfields⟩ := reads_fields (p := h.afterLine) rfl hf.fields hq
    (by change h.line.length + (fieldLines h.fields).length < _; omega)
    (show CR ≠ SP ∧ CR ≠ TAB by decide) hd₂ [LF]
  have htrailing : q.flags.trailing = false := hsums.trailing
  have hnoupgrade : q.upgrades = false := by
    rw [upgrades, hsums.upgrade hup]
    rw [hsame]
    rfl
  have hend := reads_headEnd (p := { q with
    headerState := s, index := i, nread := h.afterLine.nread + (fieldLines h.fields).length })
    (by rw [hsame]; rfl) htrailing (hsums.one_way hframed rfl) hnoupgrade
    (by change h.line.length + (fieldLines h.fields).length + 2 ≤ _; omega) st d₂
  refine ⟨q, s, i, hsums, ?_⟩
  rw [bytes, Reader.reads_of_append (reads_line hf hd₁)]
  exact hfields.trans hend

end

end StatusHead

end HttpParser

end Hiper

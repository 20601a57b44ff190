import Hiper.HttpParser.FieldLines
import Hiper.HttpParser.UrlText

/-!
# The request line

From a new parser to the first header line: the method, the URL, which one callback gets
whole, and the version.

The states are `s_start_req` to `s_req_line_almost_done`
(`src/hiper/http/http-parser/http_parser.cc:920-1196`).  The methods are told apart letter
by letter, as the source does it, with a table of 34 runs (`glide_method`); the URL is a
path with a query and a fragment or `*`, and `parse_url_char` keeps to it.
-/

namespace Hiper

namespace HttpParser

open StringUtil

variable {δ : Type*} {st : Settings δ} {p : HttpParser} {bs rest : Bytes} {d d' : δ} {ch : Byte}

/-! ### The method -/

/-- The parser behind the first letter of a method.  More than one method may begin so. -/
def inMethod (m : Method) : HttpParser :=
  { init .request with
    state := .reqMethod, flags := .none, contentLength := ullongMax, method := m, index := 1,
    nread := 1 }

/-- The parser behind a method and its blank.  The URL comes next. -/
def afterMethod (m : Method) : HttpParser :=
  { init .request with
    state := .reqSpacesBeforeUrl, flags := .none, contentLength := ullongMax, method := m,
    index := (text m.name).length + 1, nread := (text m.name).length + 1 }

/-- The first letter tells a method that has it, and the others lead from there to theirs.  The
table is checked method by method. -/
theorem glide_method (m : Method) : ∃ c cs m₀, text m.name = c :: cs ∧ isAlpha c = true ∧
    (c ≠ CR ∧ c ≠ LF) ∧ firstMethod c = some m₀ ∧
      (inMethod m₀).glide (cs ++ [32]) = some (afterMethod m) := by
  have hall : ∀ m, (text m.name).isEmpty = false ∧
      isAlpha ((text m.name).headD 0) = true ∧ (text m.name).headD 0 ≠ CR ∧
        (text m.name).headD 0 ≠ LF ∧
        ((firstMethod ((text m.name).headD 0)).bind fun m₀ =>
          (inMethod m₀).glide ((text m.name).tail ++ [32])) = some (afterMethod m) := by
    intro m
    cases m <;> decide +kernel
  obtain ⟨hne, halpha, hcr, hlf, hglide⟩ := hall m
  obtain ⟨c, cs, htext⟩ := List.exists_cons_of_ne_nil (List.isEmpty_eq_false_iff.1 hne)
  rw [htext] at halpha hcr hlf hglide
  obtain ⟨m₀, hfirst, hglide⟩ := Option.bind_eq_some_iff.1 hglide
  exact ⟨c, cs, m₀, htext, halpha, ⟨hcr, hlf⟩, hfirst, hglide⟩

/-- **Every method is recognized.**  `on_message_begin` is called. -/
theorem reads_method (m : Method) (d : δ) :
    Reader.reads st (text m.name ++ [32]) ⟨init .request, none, d⟩ =
      some ⟨afterMethod m, none, st.onNotify .messageBegin d⟩ := by
  obtain ⟨c, cs, m₀, htext, halpha, hc, hfirst, hglide⟩ := glide_method m
  have hstep : (init .request).step c = ⟨[.note .messageBegin], .next (inMethod m₀)⟩ := by
    rw [step_at rfl rfl (by decide)]
    change onStartReq _ c = _
    rw [onStartReq, if_neg (by simpa using hc), if_neg (by simpa using halpha), hfirst]
    rfl
  rw [htext, List.cons_append, Reader.reads_cons, Reader.read_note hstep, Option.bind_some,
    Reader.reads_of_glide hglide]
  rfl

/-! ### The URL -/

/-- The states of a URL that begins with its path.  There is no server in such a URL. -/
def State.inPath : State → Bool
  | reqPath | reqQueryStringStart | reqQueryString | reqFragmentStart | reqFragment => true
  | _ => false

/-- The state behind a text.  From the left. -/
def urlRun (s : State) (bs : Bytes) : State := bs.foldl parseUrlChar s

/-- The state behind a text and another. -/
theorem urlRun_append (s : State) (bs bs' : Bytes) : urlRun s (bs ++ bs') = urlRun (urlRun s bs) bs' :=
  List.foldl_append

/-- Characters that leave the state alone. -/
theorem urlRun_of_stays {s : State} (h : ∀ ch ∈ bs, parseUrlChar s ch = s) : urlRun s bs = s := by
  induction bs with
  | nil => rfl
  | cons ch bs ih =>
      obtain ⟨hch, hbs⟩ := List.forall_mem_cons.1 h
      change urlRun (parseUrlChar s ch) bs = s
      rw [hch, ih hbs]

/-- Behind an error there is nothing else.  An error stays. -/
theorem urlRun_dead (bs : Bytes) : urlRun .dead bs = .dead :=
  urlRun_of_stays fun _ _ => by
    unfold parseUrlChar
    exact ite_self _

/-- The five states by name. -/
theorem inPath_iff {s : State} : s.inPath = true ↔ s = .reqPath ∨ s = .reqQueryStringStart ∨
    s = .reqQueryString ∨ s = .reqFragmentStart ∨ s = .reqFragment := by
  cases s <;> decide

/-- A character of such a URL leads to such a state, or fails. -/
theorem parseUrlChar_inPath {s : State} (hs : s.inPath = true) (hch : parseUrlChar s ch ≠ .dead) :
    (parseUrlChar s ch).inPath = true := by
  revert hch
  rcases inPath_iff.1 hs with rfl | rfl | rfl | rfl | rfl
  all_goals
    rw [parseUrlChar]
    split_ifs <;> simp [State.inPath]

/-- A character of a URL is counted, and nothing is reported. -/
theorem step_url (hp : p.state.inPath = true) (hch : parseUrlChar p.state ch ≠ .dead)
    (hn : p.nread < maxHeaderSize) :
    p.step ch = next { p with state := parseUrlChar p.state ch, nread := p.nread + 1 } := by
  have hblank : ch ≠ SP ∧ ch ≠ CR ∧ ch ≠ LF := by
    refine ⟨?_, ?_, ?_⟩
    · rintro rfl
      exact hch rfl
    · rintro rfl
      exact hch rfl
    · rintro rfl
      exact hch rfl
  have hurl : (p.counted (p.nread + 1)).onByte ch = (p.counted (p.nread + 1)).onReqUrl ch := by
    generalize hs : p.state = s at hp
    rw [onByte, show (p.counted (p.nread + 1)).state = s from hs]
    cases s <;> cases hp <;> rfl
  have hparsing : p.state.parsingHeader = true := by
    generalize p.state = s at hp
    cases s <;> cases hp <;> rfl
  rw [step_head hparsing hn, hurl, onReqUrl, if_neg (by simpa using hblank.1),
    if_neg (by simpa using hblank.2), urlChar]
  exact if_neg hch

/-- The characters of a URL, one after another. -/
theorem glide_url (hp : p.state.inPath = true) (hrun : urlRun p.state bs ≠ .dead)
    (hn : p.nread + bs.length ≤ maxHeaderSize) :
    p.glide bs = some { p with state := urlRun p.state bs, nread := p.nread + bs.length } := by
  induction bs generalizing p with
  | nil => rfl
  | cons ch bs ih =>
      rw [List.length_cons] at hn
      have hch : parseUrlChar p.state ch ≠ .dead := by
        intro hdead
        refine hrun ?_
        change urlRun (parseUrlChar p.state ch) bs = .dead
        rw [hdead, urlRun_dead]
      have hrest := ih (p := { p with state := parseUrlChar p.state ch, nread := p.nread + 1 })
        (parseUrlChar_inPath hp hch) hrun (by change p.nread + 1 + bs.length ≤ _; omega)
      rw [glide_of_step (step_url hp hch (by omega)), hrest, List.length_cons,
        Nat.add_comm bs.length, ← Nat.add_assoc]
      rfl

/-- The state behind a URL, from behind the first character of its path.  None of them fails. -/
theorem urlRun_urlText {path query fragment : Bytes} {c : Byte} (h : UrlFits (c :: path) query fragment) :
    (urlRun .reqPath (urlText path query fragment)).inPath = true := by
  have hpath : urlRun .reqPath path = .reqPath :=
    urlRun_of_stays fun ch hch => parseUrlChar_path (h.path ch (List.mem_cons_of_mem _ hch))
  have hquery : urlRun .reqPath (if query.isEmpty then [] else 63 :: query) = .reqPath ∨
      urlRun .reqPath (if query.isEmpty then [] else 63 :: query) = .reqQueryString := by
    cases query with
    | nil => exact Or.inl rfl
    | cons x query =>
        obtain ⟨hx, hxs⟩ := List.forall_mem_cons.1 h.query
        refine Or.inr ?_
        change urlRun (parseUrlChar .reqQueryStringStart x) query = _
        rw [parseUrlChar_query (Or.inl rfl) hx]
        exact urlRun_of_stays fun ch hch => parseUrlChar_query (Or.inr rfl) (hxs ch hch)
  rw [urlText, urlRun_append, urlRun_append, hpath]
  generalize urlRun .reqPath (if query.isEmpty then [] else 63 :: query) = s at hquery
  cases fragment with
  | nil => rcases hquery with rfl | rfl <;> rfl
  | cons x fragment =>
      obtain ⟨hx, hxs⟩ := List.forall_mem_cons.1 h.fragment
      have hfirst : isUrlChar x = true ∨ x = 63 := by
        rcases hx with hx | hx | rfl
        · exact Or.inl hx
        · exact Or.inr hx
        · exact absurd rfl h.anchor
      have hanchor : parseUrlChar s 35 = .reqFragmentStart := by rcases hquery with rfl | rfl <;> rfl
      change (urlRun (parseUrlChar (parseUrlChar s 35) x) fragment).inPath = true
      rw [hanchor, parseUrlChar_anchor hfirst,
        urlRun_of_stays fun ch hch => parseUrlChar_fragment (hxs ch hch)]
      rfl

/-- The first character of a path.  The mark of the URL is set. -/
theorem onReqSpacesBeforeUrl_path (hp : p.state = .reqSpacesBeforeUrl) (hm : p.method ≠ .connect)
    (hch : ch = 47 ∨ ch = 42) :
    p.onReqSpacesBeforeUrl ch = ⟨[.mark .url], .next { p with state := .reqPath }⟩ := by
  rw [onReqSpacesBeforeUrl, if_neg (by rcases hch with rfl | rfl <;> decide), if_neg hm, urlChar, hp]
  rcases hch with rfl | rfl <;> rfl

/-- **The URL** is handed over as a whole. -/
theorem reads_url {m : Method} (hm : m ≠ .connect) {path query fragment : Bytes}
    (h : UrlFits path query fragment)
    (hn : (text m.name).length + (urlText path query fragment).length + 2 ≤ maxHeaderSize)
    (hd : st.onData .url (urlText path query fragment) d = some d') :
    Reader.reads st (urlText path query fragment ++ [32]) ⟨afterMethod m, none, d⟩ =
      some ⟨{ afterMethod m with
        state := .reqHttpStart
        nread := (text m.name).length + (urlText path query fragment).length + 2 }, none, d'⟩ := by
  have hne : path ≠ [] := by
    rintro rfl
    rcases h.first with h | h <;> cases h
  obtain ⟨c, path, rfl⟩ := List.exists_cons_of_ne_nil hne
  have htext : urlText (c :: path) query fragment = c :: urlText path query fragment := rfl
  have hc : c = 47 ∨ c = 42 := by
    rcases h.first with hfirst | hfirst <;> cases hfirst
    · exact Or.inl rfl
    · exact Or.inr rfl
  rw [htext] at hn hd ⊢
  rw [List.length_cons] at hn
  have hfirst : (afterMethod m).step c = ⟨[.mark .url], .next { afterMethod m with
      state := .reqPath, nread := (text m.name).length + 2 }⟩ := by
    rw [step_at rfl rfl (by change (text m.name).length + 1 < _; omega)]
    exact onReqSpacesBeforeUrl_path (p := { afterMethod m with nread := (text m.name).length + 2 }) rfl hm hc
  have hpath := urlRun_urlText h
  have hrun : urlRun .reqPath (urlText path query fragment) ≠ .dead := by
    intro hdead
    rw [hdead] at hpath
    cases hpath
  have hglide := glide_url (p := { afterMethod m with
    state := .reqPath, nread := (text m.name).length + 2 }) rfl hrun
    (by change (text m.name).length + 2 + (urlText path query fragment).length ≤ _; omega)
  -- the blank behind it
  generalize hs : urlRun .reqPath (urlText path query fragment) = s at hglide hpath
  have hlast : ({ afterMethod m with
        state := s, nread := (text m.name).length + 2 + (urlText path query fragment).length } :
      HttpParser).step 32 = ⟨[.data .url], .next { afterMethod m with
        state := .reqHttpStart
        nread := (text m.name).length + 2 + (urlText path query fragment).length + 1 }⟩ := by
    cases s <;> cases hpath <;>
      rw [step_at rfl rfl
        (by change (text m.name).length + 2 + (urlText path query fragment).length < _; omega)] <;> rfl
  have hcount : (text m.name).length + 2 + (urlText path query fragment).length + 1 =
      (text m.name).length + (c :: urlText path query fragment).length + 2 := by
    rw [List.length_cons]
    omega
  rw [List.cons_append, Reader.reads_cons, Reader.read_mark hfirst, Option.bind_some,
    Reader.reads_of_append (Reader.reads_of_glide hglide), ← hcount]
  exact congrArg (·.bind (Reader.reads st [])) (Reader.read_data hlast hd)

/-! ### The version -/

/-- A number below 10 is one digit. -/
theorem decimal_of_lt {n : ℕ} (hn : n < 10) : decimal n = [UInt8.ofNat (48 + n)] := by
  rw [decimal, if_pos hn]

/-- The digit of a number below 10 is that number. -/
theorem isNum_of_lt {n : ℕ} (hn : n < 10) :
    isNum (UInt8.ofNat (48 + n)) = true ∧ (UInt8.ofNat (48 + n)).toNat - 48 = n := digit_of_lt hn

/-- `HTTP/` and the two numbers.  The version of a request line. -/
def httpText (major minor : ℕ) : Bytes := text "HTTP/" ++ decimal major ++ text "." ++ decimal minor

/-- **The version and the line end.**  Of one digit each. -/
theorem glide_version (hp : p.state = .reqHttpStart) (hn : p.nread + 10 ≤ maxHeaderSize) {major minor : ℕ}
    (hmajor : major < 10) (hminor : minor < 10) :
    p.glide (httpText major minor ++ [CR, LF]) = some { p with
      state := .headerFieldStart, httpMajor := major, httpMinor := minor, nread := p.nread + 10 } := by
  obtain ⟨hdigit, hvalue⟩ := isNum_of_lt hmajor
  obtain ⟨hdigit', hvalue'⟩ := isNum_of_lt hminor
  have htext : httpText major minor ++ [CR, LF] =
      [72, 84, 84, 80, 47, UInt8.ofNat (48 + major), 46, UInt8.ofNat (48 + minor), CR, LF] := by
    rw [httpText, decimal_of_lt hmajor, decimal_of_lt hminor]
    rfl
  have hstep : ∀ {s t : State} {ch : Byte} {i j k l n : ℕ}, s.parsingHeader = true →
      n < p.nread + 10 →
      ({ p with state := s, httpMajor := i, httpMinor := j, nread := n + 1 } : HttpParser).onByte ch =
        next { p with state := t, httpMajor := k, httpMinor := l, nread := n + 1 } →
      ∀ rest, ({ p with state := s, httpMajor := i, httpMinor := j, nread := n } :
          HttpParser).glide (ch :: rest) =
        ({ p with state := t, httpMajor := k, httpMinor := l, nread := n + 1 } :
          HttpParser).glide rest := by
    intro s t ch i j k l n hs hlt hbyte rest
    refine glide_of_step ?_
    rw [step_at rfl hs (by change n < _; omega)]
    exact hbyte
  have hmajorByte : ∀ q : HttpParser, q.onHttpMajor (UInt8.ofNat (48 + major)) .reqHttpDot =
      next { q with state := .reqHttpDot, httpMajor := major } := by
    intro q
    rw [onHttpMajor, hdigit, hvalue]
    rfl
  have hminorByte : ∀ q : HttpParser, q.onHttpMinor (UInt8.ofNat (48 + minor)) .reqHttpEnd =
      next { q with state := .reqHttpEnd, httpMinor := minor } := by
    intro q
    rw [onHttpMinor, hdigit', hvalue']
    rfl
  have hp' : p = { p with
      state := .reqHttpStart, httpMajor := p.httpMajor, httpMinor := p.httpMinor, nread := p.nread } := by
    rw [← hp]
  rw [htext]
  conv_lhs => rw [hp']
  rw [hstep (t := .reqHttpH) rfl (by omega) rfl, hstep (t := .reqHttpHT) rfl (by omega) rfl,
    hstep (t := .reqHttpHTT) rfl (by omega) rfl, hstep (t := .reqHttpHTTP) rfl (by omega) rfl,
    hstep (t := .reqHttpMajor) rfl (by omega) rfl, hstep (s := .reqHttpMajor) (t := .reqHttpDot)
      (k := major) rfl (by omega) (hmajorByte _),
    hstep (t := .reqHttpMinor) rfl (by omega) rfl, hstep (s := .reqHttpMinor)
      (t := .reqHttpEnd) (l := minor) rfl (by omega) (hminorByte _),
    hstep (t := .reqLineAlmostDone) rfl (by omega) rfl,
    hstep (t := .headerFieldStart) rfl (by omega) rfl]
  rfl

end HttpParser

end Hiper

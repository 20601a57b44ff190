import Hiper.HttpParser.Reader

/-!
# The names that the parser knows

`s_header_field` compares the name of a header, as it comes, with five words, and the header
state tells which of them it may still become.  Behind the name it tells which one it was,
whatever its case, and of no other name it tells one (`reads_name`).

The states are those of `case s_header_field`
(`src/hiper/http/http-parser/http_parser.cc:1248`).  Its loop over the characters of a name
has one case for each of `h_general`, `h_C`, `h_CO`, `h_CON` and the five that compare with
a word; `Tracks` is the invariant of that loop, and the induction is over the characters.
-/

namespace Hiper

namespace HttpParser

/-- A name, in lower case.  It is what is compared. -/
def lowered (name : Bytes) : Bytes := name.map token

/-- A header name: `STRICT_TOKEN` has all its characters.  And it has one. -/
def IsName (name : Bytes) : Prop := name ≠ [] ∧ ∀ ch ∈ name, token ch ≠ 0

/-- Each character is looked up. -/
instance (name : Bytes) : Decidable (IsName name) := inferInstanceAs (Decidable (_ ∧ _))

/-- The words, and what the parser makes of them.  `proxy-connection` is taken for `connection`. -/
def words : List (List Char × HeaderState) :=
  [(connectionChars, .connection), (proxyConnectionChars, .connection),
    (contentLengthChars, .contentLength), (transferEncodingChars, .transferEncoding),
    (upgradeChars, .upgrade)]

/-- The header state behind a name.  `general`, unless the name is a word. -/
def nameState (name : Bytes) : HeaderState :=
  ((words.find? fun w => bytes w.1 == lowered name).map (·.2)).getD .general

/-- The states that make something of the value.  They are reached at the end of a word only. -/
def HeaderState.special : HeaderState → Bool
  | connection | contentLength | transferEncoding | upgrade => true
  | _ => false

/-- The word that a state compares with, how much of it tells it from the others, and the state
behind it.  And the state at its end. -/
def HeaderState.word : HeaderState → Option (List Char × ℕ × HeaderState)
  | matchingConnection => some (connectionChars, 4, .connection)
  | matchingProxyConnection => some (proxyConnectionChars, 1, .connection)
  | matchingContentLength => some (contentLengthChars, 4, .contentLength)
  | matchingTransferEncoding => some (transferEncodingChars, 1, .transferEncoding)
  | matchingUpgrade => some (upgradeChars, 1, .upgrade)
  | _ => none

/-- The header state, and the index, behind the first characters of a name.  What the name may
still become is told by it. -/
inductive Tracks : Bytes → HeaderState → ℕ → Prop
  | c : Tracks (bytes ['c']) .c 0
  | co : Tracks (bytes ['c', 'o']) .co 1
  | con : Tracks (bytes ['c', 'o', 'n']) .con 2
  | word {n : Bytes} {h h' : HeaderState} {w : List Char} {k i : ℕ} :
      h.word = some (w, k, h') → n <+: bytes w → k ≤ n.length → n.length < w.length →
      n.length = i + 1 → Tracks n h i
  | whole {h : HeaderState} {w : List Char} (i : ℕ) : (w, h) ∈ words → Tracks (bytes w) h i
  | other {n : Bytes} (i : ℕ) : (∀ w ∈ words, ¬n <+: bytes w.1) → Tracks n .general i

/-! ### One character -/

section

variable {n ys : Bytes} {c : Byte} {h h' : HeaderState} {w : List Char} {k i : ℕ}

/-- A text and a character begin another text, when the text does and the character comes next
there. -/
theorem concat_isPrefix : n ++ [c] <+: ys ↔ n <+: ys ∧ ys[n.length]? = some c := by
  constructor
  · rintro ⟨t, rfl⟩
    exact ⟨⟨c :: t, by simp⟩, by simp⟩
  · rintro ⟨⟨t, rfl⟩, hc⟩
    rw [List.getElem?_append_right le_rfl, Nat.sub_self] at hc
    cases t with
    | nil => cases hc
    | cons x t =>
        cases hc
        exact ⟨t, by simp⟩

/-- The words differ in what a state has seen of them.  So a state has one word to compare with. -/
theorem word_differs (hword : h.word = some (w, k, h')) :
    (w, h') ∈ words ∧ k ≤ w.length ∧
      ∀ w' ∈ words, (bytes w).take k <+: bytes w'.1 → w'.1 = w := by
  cases h <;> cases hword <;> decide +kernel

/-- Of all words only that one begins with what has been read. -/
theorem eq_of_isPrefix (hword : h.word = some (w, k, h')) (hn : n <+: bytes w) (hk : k ≤ n.length)
    {w' : List Char × HeaderState} (hw' : w' ∈ words) (hn' : n <+: bytes w'.1) : w'.1 = w := by
  refine (word_differs hword).2.2 w' hw' (List.IsPrefix.trans ?_ hn')
  exact List.prefix_of_prefix_length_le (List.take_prefix ..) hn ((List.length_take_le ..).trans hk)

/-- No word goes on behind a whole one.  So no word begins with another. -/
theorem not_isPrefix_of_whole {w w' : List Char × HeaderState} (hw : w ∈ words) (hw' : w' ∈ words) :
    ¬bytes w.1 ++ [c] <+: bytes w'.1 := by
  have hend : ∀ w ∈ words, ∀ w' ∈ words,
      bytes w.1 <+: bytes w'.1 → (bytes w'.1)[(bytes w.1).length]? = none := by decide +kernel
  rw [concat_isPrefix]
  rintro ⟨hstart, hc⟩
  rw [hend w hw w' hw' hstart] at hc
  cases hc

/-- Behind these characters the words go on with one of those.  With another character the name
is none of them. -/
theorem other_of_next (cs : List Byte)
    (hnext : ∀ w ∈ words, n <+: bytes w.1 → ∃ x ∈ cs, (bytes w.1)[n.length]? = some x)
    (hc : c ∉ cs) : ∀ w ∈ words, ¬n ++ [c] <+: bytes w.1 := by
  intro w hw hstart
  obtain ⟨hn, hget⟩ := concat_isPrefix.1 hstart
  obtain ⟨x, hx, hget'⟩ := hnext w hw hn
  rw [hget, Option.some.injEq] at hget'
  exact hc (hget' ▸ hx)

/-- The header state behind the first character.  `c`, `p`, `t` and `u` begin words. -/
theorem tracks_startOfField (c : Byte) : Tracks [c] (startOfField c) 0 := by
  rw [startOfField]
  simp only [is, beq_iff_eq]
  split_ifs with hc hp ht hu
  · rw [hc]
    exact .c
  · rw [hp]
    exact .word (h := .matchingProxyConnection) rfl (by decide +kernel) (by decide) (by decide) rfl
  · rw [ht]
    exact .word (h := .matchingTransferEncoding) rfl (by decide +kernel) (by decide) (by decide) rfl
  · rw [hu]
    exact .word (h := .matchingUpgrade) rfl (by decide +kernel) (by decide) (by decide) rfl
  · refine .other 0 (other_of_next (n := []) (bytes ['c', 'p', 't', 'u']) (by decide +kernel) ?_)
    simp only [bytes, List.map_cons, List.map_nil, List.mem_cons, List.not_mem_nil, not_or]
    exact ⟨hc, hp, ht, hu, not_false⟩

/-- A character compared with the next one of a word.  It goes on with the word, ends it, or is
given up. -/
theorem tracks_matchWord {p : HttpParser} (hword : p.headerState.word = some (w, k, h')) (hn : n <+: bytes w)
    (hk : k ≤ n.length) (hlt : n.length < w.length) (hi : n.length = p.index + 1) :
    Tracks (n ++ [c]) (p.matchWord w c h' .general).headerState
      (p.matchWord w c h' .general).index := by
  have hlength : (bytes w).length = w.length := List.length_map ..
  have hchar : (bytes w)[n.length]? = some (charAt w n.length) := by
    rw [charAt, List.getD_eq_getElem?_getD, List.getElem?_eq_getElem (by omega)]
    rfl
  have hover : ¬w.length < n.length := by omega
  rw [matchWord]
  dsimp only
  rw [← hi]
  simp only [hover, decide_false, Bool.false_or, bne_iff_ne, ne_eq, beq_iff_eq, ite_not]
  split_ifs with hc hlast
  · have hwhole : n ++ [c] = bytes w := by
      have hstart : n ++ [c] <+: bytes w := concat_isPrefix.2 ⟨hn, hc ▸ hchar⟩
      refine hstart.eq_of_length ?_
      rw [List.length_append, List.length_singleton]
      omega
    rw [hwhole]
    exact .whole _ (word_differs hword).1
  · refine .word hword (concat_isPrefix.2 ⟨hn, hc ▸ hchar⟩) ?_ ?_ ?_
    · rw [List.length_append]
      omega
    · rw [List.length_append, List.length_singleton]
      omega
    · rw [List.length_append, List.length_singleton]
  · refine .other _ fun w' hw' hstart => hc ?_
    obtain ⟨hn', hget⟩ := concat_isPrefix.1 hstart
    rw [eq_of_isPrefix hword hn hk hw' hn', hchar, Option.some.injEq] at hget
    exact hget.symm

/-- In a state with a word the next character is compared with that word. -/
theorem fieldChar_of_word {p : HttpParser} (hword : p.headerState.word = some (w, k, h')) (ch c : Byte) :
    p.fieldChar ch c = p.matchWord w c h' .general := by
  generalize hs : p.headerState = s at hword
  rw [fieldChar, hs]
  cases s <;> cases hword <;> rfl

/-- Behind a whole word any character but a blank gives the word up. -/
theorem fieldChar_of_special {p : HttpParser} {ch : Byte} (hs : p.headerState.special = true)
    (hch : ch ≠ SP) (c : Byte) : p.fieldChar ch c = { p with headerState := .general } := by
  have hsp : (ch != SP) = true := bne_iff_ne.2 hch
  generalize hh : p.headerState = s at hs
  rw [fieldChar, hh]
  cases s <;> cases hs <;> exact if_pos hsp

/-- At the end of a word there is a state that makes something of the value. -/
theorem special_of_word {w : List Char × HeaderState} (hw : w ∈ words) : w.2.special = true := by
  revert w
  decide +kernel

/-- **One character of a name.**  By cases on the state. -/
theorem tracks_fieldChar {p : HttpParser} {ch : Byte} (ht : Tracks n p.headerState p.index)
    (hch : ch ≠ SP) (c : Byte) :
    Tracks (n ++ [c]) (p.fieldChar ch c).headerState (p.fieldChar ch c).index := by
  generalize hh : p.headerState = h, hi : p.index = i at ht
  cases ht with
  | c =>
      rw [fieldChar, hh, hi]
      simp only [is, beq_iff_eq]
      split_ifs with ho
      · rw [ho]
        exact .co
      · exact .other _ (other_of_next (bytes ['o']) (by decide +kernel) (by simpa [bytes] using ho))
  | co =>
      rw [fieldChar, hh, hi]
      simp only [is, beq_iff_eq]
      split_ifs with hn
      · rw [hn]
        exact .con
      · exact .other _ (other_of_next (bytes ['n']) (by decide +kernel) (by simpa [bytes] using hn))
  | con =>
      rw [fieldChar, hh, hi]
      simp only [is, beq_iff_eq]
      split_ifs with hn ht
      · rw [hn]
        exact .word (h := .matchingConnection) rfl (by decide +kernel) (by decide) (by decide) rfl
      · rw [ht]
        exact .word (h := .matchingContentLength) rfl (by decide +kernel) (by decide) (by decide) rfl
      · exact .other _ (other_of_next (bytes ['n', 't']) (by decide +kernel)
          (by simpa [bytes] using ⟨hn, ht⟩))
  | word hword hn hk hlt hi' =>
      subst hh hi
      rw [fieldChar_of_word hword]
      exact tracks_matchWord hword hn hk hlt hi'
  | whole _ hw =>
      subst hh
      rw [fieldChar_of_special (special_of_word hw) hch]
      exact .other _ fun w' hw' => not_isPrefix_of_whole hw hw'
  | other _ hno =>
      rw [fieldChar, hh]
      dsimp only
      rw [hh]
      exact .other _ fun w hw hstart => hno w hw ((List.prefix_append ..).trans hstart)

end

/-! ### Names -/

/-- What a state that is not about to make something of the value comes to.  It is what
`s_header_value_start` sees of it. -/
def HeaderState.settled (h : HeaderState) : HeaderState := if h.special then h else .general

/-- A name that is no word.  Its value is passed over. -/
theorem nameState_of_ne {name : Bytes} (h : ∀ w ∈ words, bytes w.1 ≠ lowered name) :
    nameState name = .general := by
  have hfind : (words.find? fun w => bytes w.1 == lowered name) = none :=
    List.find?_eq_none.2 fun w hw => by simpa using h w hw
  rw [nameState, hfind]
  rfl

/-- Behind the name the header state is the one of the name.  All of the name has been read. -/
theorem Tracks.settled {name : Bytes} {h : HeaderState} {i : ℕ} (ht : Tracks (lowered name) h i) :
    h.settled = nameState name := by
  generalize hn : lowered name = n at ht
  cases ht with
  | c => exact (nameState_of_ne (hn ▸ by decide +kernel)).symm
  | co => exact (nameState_of_ne (hn ▸ by decide +kernel)).symm
  | con => exact (nameState_of_ne (hn ▸ by decide +kernel)).symm
  | @word _ _ _ w _ _ hword hstart hk hlt _ =>
      have hspecial : h.special = false := by cases h <;> cases hword <;> rfl
      rw [HeaderState.settled, hspecial]
      refine (nameState_of_ne fun w' hw' heq => ?_).symm
      rw [hn] at heq
      have hsame := eq_of_isPrefix hword hstart hk hw' (heq ▸ List.prefix_rfl)
      rw [← heq, hsame, bytes, List.length_map] at hlt
      exact absurd hlt (lt_irrefl _)
  | whole _ hw =>
      have hfind : ∀ w ∈ words, (words.find? fun w' => bytes w'.1 == bytes w.1) = some w := by
        decide +kernel
      rw [nameState, hn, hfind _ hw, HeaderState.settled, special_of_word hw]
      rfl
  | other _ hno =>
      refine (nameState_of_ne fun w hw heq => hno w hw ?_).symm
      have hwhole : bytes w.1 = n := heq.trans hn
      exact hwhole ▸ List.prefix_rfl

variable {δ : Type*} {st : Settings δ} {p : HttpParser} {bs name : Bytes} {n : Bytes}

/-- A character changes the header state and the index alone. -/
theorem fieldChar_eq (p : HttpParser) (ch c : Byte) :
    p.fieldChar ch c = { p with
      headerState := (p.fieldChar ch c).headerState, index := (p.fieldChar ch c).index } := by
  rw [fieldChar]
  generalize (ch != SP) = blank
  cases blank <;> split <;> rfl

/-- The characters behind the first one.  Nothing is reported. -/
theorem glide_field (hp : p.state = .headerField) (ht : Tracks n p.headerState p.index)
    (hbs : ∀ ch ∈ bs, token ch ≠ 0) (hn : p.nread + bs.length ≤ maxHeaderSize) :
    ∃ h i, Tracks (n ++ lowered bs) h i ∧
      p.glide bs = some { p with headerState := h, index := i, nread := p.nread + bs.length } := by
  induction bs generalizing p n with
  | nil =>
      refine ⟨p.headerState, p.index, ?_, rfl⟩
      rwa [lowered, List.map_nil, List.append_nil]
  | cons ch bs ih =>
      obtain ⟨hch, hbs⟩ := List.forall_mem_cons.1 hbs
      rw [List.length_cons] at hn
      have hsp : ch ≠ SP := by
        rintro rfl
        exact hch rfl
      have hstep : p.step ch =
          next ((p.counted (p.nread + 1)).fieldChar ch (token ch)) := by
        have hfield : (p.counted (p.nread + 1)).onByte ch =
            (p.counted (p.nread + 1)).onHeaderField ch := by
          rw [onByte, show (p.counted (p.nread + 1)).state = .headerField from hp]
        rw [step_head (by rw [hp]; rfl) (by omega), hfield, onHeaderField, if_neg]
        simpa using hch
      have ht' := tracks_fieldChar (p := p.counted (p.nread + 1)) ht hsp (token ch)
      rw [glide_of_step hstep, fieldChar_eq]
      obtain ⟨h, i, hi, hglide⟩ := ih (p := { p with
        headerState := ((p.counted (p.nread + 1)).fieldChar ch (token ch)).headerState
        index := ((p.counted (p.nread + 1)).fieldChar ch (token ch)).index
        nread := p.nread + 1 }) hp ht' hbs (by change p.nread + 1 + bs.length ≤ _; omega)
      refine ⟨h, i, ?_, ?_⟩
      · rwa [lowered, List.map_cons, ← List.singleton_append, ← List.append_assoc]
      · rw [List.length_cons, Nat.add_comm bs.length, ← Nat.add_assoc]
        exact hglide

/-- **A name and its colon.**  The name is reported at the colon. -/
theorem reads_name {r : Reader δ} {d : δ} (hp : r.parser.state = .headerFieldStart) (ht : r.text = none)
    (hname : IsName name) (hn : r.parser.nread + name.length + 1 ≤ maxHeaderSize)
    (hd : st.onData .headerField name r.data = some d) :
    ∃ h i, Tracks (lowered name) h i ∧
      Reader.reads st (name ++ [58]) r = some ⟨{ r.parser with
        state := .headerValueDiscardWs, headerState := h, index := i,
        nread := r.parser.nread + name.length + 1 }, none, d⟩ := by
  obtain ⟨p, t, d₀⟩ := r
  dsimp only at *
  subst ht
  obtain ⟨hne, htoken⟩ := hname
  obtain ⟨ch, name, rfl⟩ := List.exists_cons_of_ne_nil hne
  obtain ⟨hch, htoken⟩ := List.forall_mem_cons.1 htoken
  rw [List.length_cons] at hn
  have hcr : ch ≠ CR := by
    rintro rfl
    exact hch rfl
  have hlf : ch ≠ LF := by
    rintro rfl
    exact hch rfl
  -- the first character, which sets the mark
  have hfirst : p.step ch = ⟨[.mark .headerField], .next { p with
      state := .headerField, index := 0, headerState := startOfField (token ch), nread := p.nread + 1 }⟩ := by
    have hstart : (p.counted (p.nread + 1)).onByte ch =
        (p.counted (p.nread + 1)).onHeaderFieldStart ch := by
      rw [onByte, show (p.counted (p.nread + 1)).state = .headerFieldStart from hp]
    rw [step_head (by rw [hp]; rfl) (by omega), hstart, onHeaderFieldStart,
      if_neg (by simpa using hcr), if_neg (by simpa using hlf), if_neg (by simpa using hch)]
    rfl
  obtain ⟨h, i, htracks, hglide⟩ := glide_field (p := { p with
      state := .headerField, index := 0, headerState := startOfField (token ch), nread := p.nread + 1 })
    rfl (tracks_startOfField _) htoken (by change p.nread + 1 + name.length ≤ _; omega)
  refine ⟨h, i, htracks, ?_⟩
  have hlast : ({ p with
        state := .headerField, headerState := h, index := i, nread := p.nread + 1 + name.length } :
      HttpParser).step 58 = ⟨[.data .headerField], .next { p with
        state := .headerValueDiscardWs, headerState := h, index := i,
        nread := p.nread + 1 + name.length + 1 }⟩ := by
    rw [step_at rfl rfl (by change p.nread + 1 + name.length < _; omega)]
    rfl
  have hcount : p.nread + 1 + name.length + 1 = p.nread + (ch :: name).length + 1 := by
    rw [List.length_cons]
    omega
  rw [List.cons_append, Reader.reads_cons, Reader.read_mark hfirst, Option.bind_some,
    Reader.reads_of_append (Reader.reads_of_glide hglide), Reader.reads_cons]
  rw [← hcount]
  exact congrArg (·.bind (Reader.reads st [])) (Reader.read_data hlast hd)

end HttpParser

end Hiper

import Hiper.Log.Pattern

/-!
# Doubled signs

A text with every `%` doubled is no pattern of that text: of `%%` the first sign is kept,
and the second starts a conversion.  What is written of a blank event then differs from
the text where the last of these conversions ends (`Off`): behind it there is only text,
before that is what the conversion writes, or the sign that was kept.  So only a text
without `%` comes out (`doubled_iff`).

The scanner is `src/hiper/base/log.cc:517`; the comment above the line in question (`:533`)
says that of `%%` one sign is meant, and the code appends one and leaves the other to be
read again.  The argument is by the length of what stands behind a sign: wherever the scan
goes on, it is at a text with its signs doubled, or at the second sign of a pair.
-/

namespace Hiper

open StringUtil

namespace LogFormatter

/-- Every `%` doubled.  It is what one would write to have a `%` in a line. -/
def doubled (s : Bytes) : Bytes :=
  s.flatMap fun ch => if ch = percent then [percent, percent] else [ch]

/-- What is relied on of `strftime`: it writes a format of text and `%%` as that text, if it
fits, and the format of `DateTimeFormatItem` ends in the seconds.  The seconds are digits. -/
structure Strftime (strftime : Bytes → UInt64 → Option Bytes) : Prop where
  doubled (s : Bytes) (time : UInt64) : 0 ∉ s →
    strftime (doubled s) time = if s.length < 64 then some s else none
  seconds (time : UInt64) (s : Bytes) : strftime (text "%Y-%m-%d %H:%M:%S") time = some s →
    ∃ front d, s = front ++ [d] ∧ isdigit d = true

/-- A sign is doubled. -/
theorem doubled_cons_percent (s : Bytes) :
    doubled (percent :: s) = percent :: percent :: doubled s := by
  rw [doubled, List.flatMap_cons, if_pos rfl]
  rfl

/-- Two texts are doubled one after the other. -/
theorem doubled_append (s t : Bytes) : doubled (s ++ t) = doubled s ++ doubled t :=
  List.flatMap_append

/-- A text without a sign stays. -/
theorem doubled_of_notMem {s : Bytes} (h : percent ∉ s) : doubled s = s := by
  induction s with
  | nil => rfl
  | cons ch s ih =>
      obtain ⟨hch, hs⟩ := not_or.1 (mt List.mem_cons.2 h)
      rw [doubled, List.flatMap_cons, if_neg (Ne.symm hch)]
      exact congrArg (ch :: ·) (ih hs)

/-- Another character stays. -/
theorem doubled_cons {ch : Byte} (h : ch ≠ percent) (s : Bytes) :
    doubled (ch :: s) = ch :: doubled s := by
  rw [doubled, List.flatMap_cons, if_neg h]
  rfl

/-- No character is added or lost. -/
theorem mem_doubled {s : Bytes} {ch : Byte} : ch ∈ doubled s ↔ ch ∈ s := by
  rw [doubled, List.mem_flatMap]
  constructor
  · rintro ⟨c, hc, hch⟩
    split_ifs at hch with h
    · have heq : ch = c := by simpa [h] using hch
      exact heq ▸ hc
    · exact List.mem_singleton.1 hch ▸ hc
  · intro hch
    refine ⟨ch, hch, ?_⟩
    split_ifs with h
    · simp [h]
    · simp

/-- The first character stays. -/
theorem head?_doubled (s : Bytes) : (doubled s).head? = s.head? := by
  cases s with
  | nil => rfl
  | cons ch s =>
      by_cases h : ch = percent
      · rw [h, doubled_cons_percent]
        rfl
      · rw [doubled_cons h]
        rfl

/-- A zero byte ends both. -/
theorem cStr_doubled (s : Bytes) : cStr (doubled s) = doubled (cStr s) := by
  induction s with
  | nil => rfl
  | cons ch s ih =>
      rw [cStr] at ih ⊢
      by_cases h : ch = percent
      · subst h
        rw [doubled_cons_percent, cStr, List.takeWhile_cons_of_pos (by decide),
          List.takeWhile_cons_of_pos (by decide), List.takeWhile_cons_of_pos (by decide), ih,
          doubled_cons_percent]
        rfl
      · rw [doubled_cons h, cStr]
        by_cases hzero : ch = 0
        · subst hzero
          rfl
        · rw [List.takeWhile_cons_of_pos (by simpa using hzero),
            List.takeWhile_cons_of_pos (by simpa using hzero), ih, doubled_cons h]
          rfl

/-! ### Texts that differ -/

/-- Two texts with the same end, and different bytes before it.  Such texts are different, and
stay so with anything in front. -/
def Off (out t : Bytes) : Prop :=
  ∃ a c a' c' rest, out = a ++ c :: rest ∧ t = a' ++ c' :: rest ∧ c ≠ c'

/-- They are different. -/
theorem Off.ne {out t : Bytes} (h : Off out t) : out ≠ t := by
  rintro rfl
  obtain ⟨a, c, a', c', rest, hout, ht, hne⟩ := h
  have heq : a ++ c :: rest = a' ++ c' :: rest := hout.symm.trans ht
  have hlen : a.length = a'.length := by
    have := congrArg List.length heq
    rw [List.length_append, List.length_append, List.length_cons, List.length_cons] at this
    omega
  exact hne (List.cons.inj (List.append_inj heq hlen).2).1

/-- Something may stand in front of each of them. -/
theorem Off.append {out t : Bytes} (h : Off out t) (b b' : Bytes) : Off (b ++ out) (b' ++ t) := by
  obtain ⟨a, c, a', c', rest, rfl, rfl, hne⟩ := h
  exact ⟨b ++ a, c, b' ++ a', c', rest, by simp, by simp, hne⟩

/-! ### What a conversion ends in -/

/-- Nothing, and nothing happened.  No name, no content, all numbers zero. -/
def blank : LogEvent := ⟨[], 0, 0, 0, 0, 0, [], []⟩

/-- The conversion of an element of the table.  It is a single letter. -/
theorem conversion_of_find {str : Bytes} {e : Bytes × (Bytes → FormatItem)}
    (h : formatItems.find? (·.1 == str) = some e) :
    ∃ c : Conversion, str = [c.letter] ∧ ∀ fmt, e.2 fmt = c.item fmt := by
  have hname : e.1 = str := by simpa using List.find?_some h
  have hmem := List.mem_of_find?_eq_some h
  rw [Conversion.formatItems_eq] at hmem
  obtain ⟨c, -, rfl⟩ := List.mem_map.1 hmem
  exact ⟨c, hname.symm, fun _ => rfl⟩

variable {strftime : Bytes → UInt64 → Option Bytes}

/-- The time ends in a digit, or as its format does.  The last byte of it is no closing brace. -/
theorem exists_last_time (hs : Strftime strftime) {fmt out : Bytes} (hfmt : closeBrace ∉ fmt)
    (hout : strftime (cStr (if doubled fmt = [] then text "%Y-%m-%d %H:%M:%S" else doubled fmt)) 0 =
      some out) :
    ∃ front l, percent :: out = front ++ [l] ∧ l ≠ closeBrace ∧
      (fmt = [] → l ≠ Conversion.time.letter) := by
  cases fmt with
  | nil =>
      obtain ⟨front, d, rfl, hd⟩ := hs.seconds 0 out hout
      refine ⟨percent :: front, d, rfl, ?_, fun _ => ?_⟩
      · rintro rfl
        exact absurd hd (by decide)
      · rintro rfl
        exact absurd hd (by decide)
  | cons ch fmt =>
      have hne : doubled (ch :: fmt) ≠ [] :=
        List.ne_nil_of_mem (mem_doubled.2 (List.mem_cons_self (a := ch)))
      have hzero : 0 ∉ cStr (ch :: fmt) := fun h => by
        have := List.mem_takeWhile_imp h
        simp at this
      rw [if_neg hne, cStr_doubled, hs.doubled _ _ hzero] at hout
      split_ifs at hout
      obtain rfl := Option.some.inj hout
      rcases List.eq_nil_or_concat' (cStr (ch :: fmt)) with hnil | ⟨front, l, hlast⟩
      · rw [hnil]
        exact ⟨[], percent, rfl, by decide, by simp⟩
      · rw [hlast]
        refine ⟨percent :: front, l, by simp, ?_, by simp⟩
        rintro rfl
        have hmem : closeBrace ∈ cStr (ch :: fmt) := by rw [hlast]; simp
        exact hfmt (List.takeWhile_subset _ hmem)

/-- A blank event does not let a conversion end in its own letter, nor in a closing brace.  What
it writes ends in a byte that the spelling does not have there. -/
theorem exists_last (hs : Strftime strftime) (c : Conversion) {fmt out : Bytes}
    (hfmt : closeBrace ∉ fmt)
    (hout : (c.item (doubled fmt)).format strftime [] .debug blank = some out) :
    ∃ front l, percent :: out = front ++ [l] ∧ l ≠ closeBrace ∧ (fmt = [] → l ≠ c.letter) := by
  cases c with
  | time => exact exists_last_time hs hfmt hout
  | newLine =>
      obtain rfl := Option.some.inj hout
      exact ⟨[percent], 10, rfl, by decide, fun _ => by decide⟩
  | tab =>
      obtain rfl := Option.some.inj hout
      exact ⟨[percent], 9, rfl, by decide, fun _ => by decide⟩
  | message | name | file | threadName =>
      -- nothing is written, and the sign that was kept is the last
      obtain rfl := Option.some.inj hout
      exact ⟨[], percent, rfl, by decide, fun _ => by decide⟩
  | level =>
      obtain rfl := Option.some.inj hout
      exact ⟨text "%DEBU", 71, rfl, by decide, fun _ => by decide⟩
  | elapse | threadId | fiberId =>
      have hzero : decimal 0 = [48] := by rw [decimal]; rfl
      change some (decimal 0) = some out at hout
      obtain rfl := Option.some.inj hout
      exact ⟨[percent], 48, by rw [hzero]; rfl, by decide, fun _ => by decide⟩
  | line =>
      have hzero : signedDecimal 0 = [48] := by
        rw [signedDecimal, if_neg (by decide), show (0 : Int32).toInt.natAbs = 0 from rfl, decimal]
        rfl
      change some (signedDecimal 0) = some out at hout
      obtain rfl := Option.some.inj hout
      exact ⟨[percent], 48, by rw [hzero]; rfl, by decide, fun _ => by decide⟩

/-! ### The last conversion -/

/-- An error, or what is written of a blank event is not the text.  Either way the pattern is
not one of this text. -/
def Wrong (strftime : Bytes → UInt64 → Option Bytes) (r : List FormatItem × Bool) (t : Bytes) :
    Prop :=
  r.2 = true ∨ ∀ out, formatItemsOf strftime [] .debug blank r.1 = some out → Off out t

/-- Something may stand in front of the text. -/
theorem Wrong.append {r : List FormatItem × Bool} {t : Bytes} (h : Wrong strftime r t) (b : Bytes) :
    Wrong strftime r (b ++ t) :=
  h.imp id fun h out hout => (h out hout).append [] b

/-- Without a sign there is only text.  It is one item. -/
theorem parsed_doubled {s : Bytes} (h : percent ∉ s) :
    parsed (doubled s) [] = (flushed s, false) := by
  rw [doubled_of_notMem h, ← List.append_nil s, parsed_text h, parsed_nil, List.nil_append,
    List.append_nil]

/-- What is written up to a conversion, by it, and behind it.  The text, the conversion and the
others are written one after the other. -/
theorem format_conversion {m out : Bytes} {i : FormatItem} {items : List FormatItem}
    (h : formatItemsOf strftime [] .debug blank (flushed m ++ i :: items) = some out) :
    ∃ o rest, i.format strftime [] .debug blank = some o ∧
      formatItemsOf strftime [] .debug blank items = some rest ∧ out = m ++ (o ++ rest) := by
  rw [formatItemsOf_flushed, formatItemsOf_cons] at h
  obtain ⟨s, hs, rfl⟩ := Option.map_eq_some_iff.1 h
  obtain ⟨o, ho, hs⟩ := Option.bind_eq_some_iff.1 hs
  obtain ⟨rest, hrest, rfl⟩ := Option.map_eq_some_iff.1 hs
  exact ⟨o, rest, ho, hrest, rfl⟩

/-- A conversion behind a sign that was kept: `taken` is what it takes of the doubled text, `t₁`
and `z` what it takes of the text itself.  It is so when what is written of it ends differently,
or what is behind it is wrong. -/
theorem wrong_conversion {n t₁ t₂ taken str fmt : Bytes} {z : Byte}
    (hhead : (taken ++ doubled t₂).head? ≠ some percent)
    (hscan : scanConversion (taken ++ doubled t₂) = some (str, fmt, taken.length))
    (hlast : ∀ c : Conversion, str = [c.letter] → ∀ out,
      (c.item fmt).format strftime [] .debug blank = some out →
      ∃ front l, percent :: out = front ++ [l] ∧ l ≠ z)
    (ht₂ : percent ∈ t₂ → Wrong strftime (parsed (doubled t₂) []) t₂) :
    Wrong strftime (parsed (percent :: (taken ++ doubled t₂)) (n ++ [percent]))
      (percent :: (t₁ ++ z :: t₂)) := by
  rcases htable : formatItems.find? (·.1 == str) with _ | e
  · exact .inl (parsed_unknown _ hhead hscan htable)
  · obtain ⟨c, hname, hitem⟩ := conversion_of_find htable
    rw [parsed_conversion _ hhead hscan htable, hitem]
    by_cases hmem : percent ∈ t₂
    · refine (ht₂ hmem).imp id fun hoff out hout => ?_
      obtain ⟨o, rest, -, hrest, rfl⟩ := format_conversion hout
      have h := (hoff rest hrest).append (n ++ [percent] ++ o) (percent :: t₁ ++ [z])
      simpa using h
    · -- behind the last conversion there is only text
      refine .inr fun out hout => ?_
      obtain ⟨o, rest, ho, hrest, rfl⟩ := format_conversion hout
      rw [parsed_doubled hmem, formatItemsOf_flushed_nil] at hrest
      have htext : t₂ = rest := Option.some.inj hrest
      obtain ⟨front, l, hend, hne⟩ := hlast c hname o ho
      refine ⟨n ++ front, l, percent :: t₁, z, t₂, ?_, by simp, hne⟩
      rw [← htext, List.append_assoc, ← List.append_assoc [percent], List.singleton_append, hend]
      simp

/-- With options, the last byte is the closing brace.  The options go to the next closing brace. -/
theorem wrong_options (hs : Strftime strftime) {n str v : Bytes}
    (hstr : ∀ ch ∈ str, inName ch = true)
    (ih : ∀ w, w.length < v.length → percent ∈ w → Wrong strftime (parsed (doubled w) []) w) :
    Wrong strftime (parsed (percent :: (str ++ openBrace :: doubled v)) (n ++ [percent]))
      (percent :: (str ++ openBrace :: v)) := by
  have hhead : ∀ rest : Bytes, (str ++ openBrace :: rest).head? ≠ some percent := by
    intro rest h
    cases str with
    | nil => exact absurd h (by simp; decide)
    | cons ch str =>
        rw [List.cons_append, List.head?_cons, Option.some.injEq] at h
        exact absurd (h ▸ hstr ch List.mem_cons_self) (by decide)
  by_cases hclose : closeBrace ∈ v
  · obtain ⟨f, w, rfl, hf⟩ := List.eq_append_cons_of_mem hclose
    have hf' : closeBrace ∉ doubled f := mt mem_doubled.1 hf
    have hsplit : str ++ openBrace :: doubled (f ++ closeBrace :: w) =
        (str ++ openBrace :: (doubled f ++ [closeBrace])) ++ doubled w := by
      rw [doubled_append, doubled_cons (by decide)]
      simp
    have hout : str ++ openBrace :: (f ++ closeBrace :: w) =
        (str ++ openBrace :: f) ++ closeBrace :: w := by simp
    rw [hsplit, hout]
    refine wrong_conversion (by rw [← hsplit]; exact hhead _)
      (scanConversion_options hstr hf' (doubled w)) (fun c _ out ho => ?_)
      (ih w (by rw [List.length_append, List.length_cons]; omega))
    obtain ⟨front, l, hend, hne, -⟩ := exists_last hs c hf ho
    exact ⟨front, l, hend, hne⟩
  · exact .inl (parsed_open _ (hhead _)
      (scanConversion_unclosed hstr (mt mem_doubled.1 hclose)))

/-- Without options, the last byte is a letter.  The name may be empty. -/
theorem wrong_letter (hs : Strftime strftime) {n str u : Bytes}
    (hstr : ∀ ch ∈ str, inName ch = true)
    (hu : ∀ ch ∈ u.head?, inName ch = false ∧ ch ≠ openBrace)
    (hhead : (str ++ u).head? ≠ some percent)
    (ih : str ≠ [] → percent ∈ u → Wrong strftime (parsed (doubled u) []) u) :
    Wrong strftime (parsed (percent :: (str ++ doubled u)) (n ++ [percent]))
      (percent :: (str ++ u)) := by
  have hstop : ∀ ch ∈ (doubled u).head?, inName ch = false ∧ ch ≠ openBrace := by
    rwa [head?_doubled]
  have hscan := scanConversion_plain hstr hstop
  have hhead' : (str ++ doubled u).head? ≠ some percent := by
    rwa [List.head?_append, head?_doubled, ← List.head?_append]
  rcases List.eq_nil_or_concat' str with rfl | ⟨front, z, rfl⟩
  · exact .inl (parsed_unknown _ hhead' hscan (find_eq_none (by simp)))
  · have hout : front ++ [z] ++ u = front ++ z :: u := by simp
    rw [hout]
    refine wrong_conversion hhead' hscan (fun c hname out ho => ?_) (ih (by simp))
    obtain ⟨l, r, hend, -, hne⟩ := @exists_last strftime hs c [] out List.not_mem_nil ho
    have hz : z = c.letter := by
      have := congrArg List.getLast? hname
      simpa using this
    exact ⟨l, r, hend, hz ▸ hne rfl⟩

/-- A text with a sign is taken up behind its first one.  What is in front of it comes out. -/
theorem wrong_of_mem {s : Bytes} (h : percent ∈ s)
    (hbehind : ∀ t, t.length < s.length → ∀ n,
      Wrong strftime (parsed (percent :: doubled t) (n ++ [percent])) (percent :: t)) :
    Wrong strftime (parsed (doubled s) []) s := by
  obtain ⟨u, t, rfl, hu⟩ := List.eq_append_cons_of_mem h
  rw [doubled_append, doubled_of_notMem hu, doubled_cons_percent, parsed_text hu, parsed_percent]
  exact (hbehind t (by rw [List.length_append, List.length_cons]; omega) _).append u

/-- Behind a sign that was kept, the text does not come out.  The induction is over the length
of the text behind it. -/
theorem wrong_behind_percent (hs : Strftime strftime) (t n : Bytes) :
    Wrong strftime (parsed (percent :: doubled t) (n ++ [percent])) (percent :: t) := by
  induction hlen : t.length using Nat.strongRecOn generalizing t n with
  | _ k ih =>
      subst hlen
      have hmem : ∀ w, w.length < t.length → percent ∈ w →
          Wrong strftime (parsed (doubled w) []) w := fun w hw hpercent =>
        wrong_of_mem hpercent fun v hv n => ih v.length (by omega) v n rfl
      by_cases hhead : t.head? = some percent
      · -- two more signs, of which both are kept
        obtain ⟨t, rfl⟩ := List.head?_eq_some_iff.1 hhead
        rw [doubled_cons_percent, parsed_percent, parsed_percent]
        exact (ih t.length (by simp) t _ rfl).append [percent]
      · have hsplit := List.takeWhile_append_dropWhile (p := inName) (l := t)
        have hstr : ∀ ch ∈ t.takeWhile inName, inName ch = true :=
          fun ch hch => List.mem_takeWhile_imp hch
        have hstop : ∀ ch ∈ (t.dropWhile inName).head?, inName ch = false := by
          intro ch hch
          have hnot := List.head?_dropWhile_not inName t
          rwa [Option.mem_def.1 hch] at hnot
        generalize t.takeWhile inName = str at hsplit hstr
        generalize t.dropWhile inName = u at hsplit hstop
        subst hsplit
        have hname : percent ∉ str := fun h => absurd (hstr percent h) (by decide)
        rw [doubled_append, doubled_of_notMem hname]
        by_cases hopen : u.head? = some openBrace
        · obtain ⟨v, rfl⟩ := List.head?_eq_some_iff.1 hopen
          rw [doubled_cons (by decide)]
          refine wrong_options hs hstr fun w hw => hmem w ?_
          rw [List.length_append, List.length_cons]
          omega
        · refine wrong_letter hs hstr (fun ch hch => ⟨hstop ch hch, ?_⟩) hhead fun hne => hmem u ?_
          · rintro rfl
            exact hopen hch
          · have hpos := List.length_pos_iff.2 hne
            rw [List.length_append]
            omega

/-- **Doubling does not escape.**  A text with every `%` doubled is a pattern of that text if
and only if there is no `%` in it.  For every text, of any length, and for every logger, level
and event at once.  In `src/hiper/base/log.cc:534-539` the first of two signs is taken as text
and the loop goes on with the second, which is then a conversion. -/
theorem doubled_iff (hs : Strftime strftime) (s : Bytes) :
    ((new (doubled s)).isError = false ∧ ∀ logger level event,
      (new (doubled s)).format strftime logger level event = some s) ↔ percent ∉ s := by
  constructor
  · rintro ⟨herror, hformat⟩ hmem
    rcases wrong_of_mem hmem fun t _ => wrong_behind_percent hs t with hwrong | hoff
    · rw [isError_new, hwrong] at herror
      exact Bool.noConfusion herror
    · exact (hoff s (hformat [] .debug blank)).ne rfl
  · intro hmem
    rw [isError_new, parsed_doubled hmem]
    refine ⟨rfl, fun logger level event => ?_⟩
    rw [format, items_new, parsed_doubled hmem, formatItemsOf_flushed_nil]

/-! ### At midnight -/

/-- `%%` read as `%`.  It is what the comment in the source says. -/
def undoubled : Bytes → Bytes
  | [] => []
  | [ch] => [ch]
  | ch :: c :: rest =>
    if ch = percent then percent :: undoubled rest else ch :: undoubled (c :: rest)

/-- With that reading doubling would escape. -/
theorem undoubled_doubled (s : Bytes) : undoubled (doubled s) = s := by
  induction s with
  | nil => rfl
  | cons ch s ih =>
      by_cases h : ch = percent
      · subst h
        rw [doubled_cons_percent, undoubled, if_pos rfl, ih]
      · rw [doubled_cons h]
        cases hrest : doubled s with
        | nil => rw [← ih, hrest, undoubled, undoubled]
        | cons c rest => rw [undoubled, if_neg h, ← hrest, ih]

/-- `strftime` at the start of the epoch, for formats without other conversions.  Signs that are
doubled are read as one. -/
def atMidnight (format : Bytes) (_ : UInt64) : Option Bytes :=
  if format = text "%Y-%m-%d %H:%M:%S" then some (text "1970-01-01 00:00:00")
  else if (undoubled format).length < 64 then some (undoubled format) else none

/-- It is as `strftime` should be. -/
theorem strftime_atMidnight : Strftime atMidnight where
  doubled s time _ := by
    have hne : doubled s ≠ text "%Y-%m-%d %H:%M:%S" := by
      intro heq
      have hs := congrArg undoubled heq
      rw [undoubled_doubled] at hs
      rw [hs] at heq
      exact absurd heq (by decide)
    rw [atMidnight, if_neg hne, undoubled_doubled]
  seconds time s h := by
    rw [atMidnight, if_pos rfl] at h
    obtain rfl := Option.some.inj h
    exact ⟨text "1970-01-01 00:00:0", 48, rfl, rfl⟩

/-- A text without a sign comes out. -/
theorem doubled_ready :
    (new (doubled (text "ready"))).isError = false ∧
      (new (doubled (text "ready"))).format atMidnight (text "system") .info readyEvent =
        some (text "ready") :=
  have h := (doubled_iff strftime_atMidnight (text "ready")).2 (by decide)
  ⟨h.1, h.2 (text "system") .info readyEvent⟩

/-- A sign before a letter, and one before a space. -/
theorem doubled_percent :
    (new (doubled (text "%m"))).format atMidnight (text "system") .info readyEvent =
        some (text "%ready") ∧
      (new (doubled (text "50% off"))).isError = true := by
  decide +kernel

end LogFormatter

end Hiper

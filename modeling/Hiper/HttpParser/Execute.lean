import Hiper.HttpParser.Step

/-!
# `http_parser_execute`

The loop and its callbacks.  Marks are places in the data of the call, as in the
source, and a callback that does not return 0 stops the parser.  Without an error
a call runs the callbacks that the scanner reports (`loop_eq`).

The function is `src/hiper/http/http-parser/http_parser.cc:638`, with the macros of lines 60
to 160.  `CALLBACK_DATA` reports the text from a mark up to the byte at hand; `http_errno`
is set where a callback does not return 0, and the call returns.  The bytes are read by
`step`, which is the `switch` of the source; here is what is around it.
-/

namespace Hiper

namespace HttpParser

open Lib Lib.Scanner

variable {δ : Type*}

/-- `http_parser_settings`: callbacks that act on `δ`.  One for a text gives nothing when it
does not return 0; the others always return 0.  Nobody hangs up in `on_headers_complete`. -/
structure Settings (δ : Type*) where
  onData : DataCb → Bytes → δ → Option δ
  onNotify : NotifyCb → δ → δ

/-- `HPE_CB_...`.  One for each callback that gets a text. -/
def DataCb.errno : DataCb → Errno
  | url => .cbUrl
  | status _ => .cbStatus
  | headerField => .cbHeaderField
  | headerValue => .cbHeaderValue
  | body => .cbBody

/-- A report of the scanner, as the parser makes them. -/
abbrev Rep := Report DataCb NotifyCb

/-- The text from one place to another.  Empty, if the places are the wrong way round. -/
def slice (data : Bytes) (a b : ℕ) : Bytes := (data.drop a).take (b - a)

namespace Settings

variable (st : Settings δ)

/-- Callbacks run one after another, up to one that fails.  The second part is the error of the
one that failed. -/
def notify (data : Bytes) : List Rep → δ → δ × Option Errno
  | [], d => (d, none)
  | .text k a b :: rs, d =>
    match st.onData k (slice data a b) d with
    | some d => notify data rs d
    | none => (d, some k.errno)
  | .note n :: rs, d => notify data rs (st.onNotify n d)

end Settings

/-- What a call leaves: the parser and its `http_errno`, none for `HPE_OK`, what the callbacks
did, and how many bytes were read.  `nread` and the state are in the parser. -/
structure Result (δ : Type*) where
  parser : HttpParser
  httpErrno : Option Errno
  data : δ
  nparsed : ℕ

/-- The parser when the handling of a byte ends.  It has one in each case. -/
def Outcome.parser : Outcome → HttpParser
  | next p | exit p | error _ p => p

variable (st : Settings δ)

/-- The loop, from the byte at `pos` on.  At the end, the text that has a mark is reported.
`pos` is the place of the first byte in the data of the call. -/
def loop (data : Bytes) : Bytes → ℕ → HttpParser → Option (DataCb × ℕ) → δ → Result δ
  | [], pos, p, m, d =>
    let due := st.notify data (flush pos m) d
    ⟨p, due.2, due.1, pos⟩
  | ch :: rest, pos, p, m, d =>
    let one := applyAll pos (p.step ch).evs m
    match st.notify data one.1 d, (p.step ch).out with
    | (d, some e), out => ⟨out.parser, some e, d, pos + 1⟩
    | (d, none), .next p => loop data rest (pos + 1) p one.2 d
    | (d, none), .exit p => ⟨p, none, d, pos + 1⟩
    | (d, none), .error e p => ⟨p, some e, d, pos⟩

/-- `http_parser_execute`.  A parser with an error reads nothing, and an empty call ends a
message that is ended by the connection. -/
def execute (p : HttpParser) (httpErrno : Option Errno) (data : Bytes) (d : δ) : Result δ :=
  if httpErrno.isSome then ⟨p, httpErrno, d, 0⟩
  else if data = [] then
    match p.state with
    | .bodyIdentityEof => ⟨p, none, st.onNotify .messageComplete d, 0⟩
    | .dead | .startRes | .startReq => ⟨p, none, d, 0⟩
    | _ => ⟨p, some .invalidEofState, d, 1⟩
  else loop st data data 0 p (p.reopen.map (·, 0)) d

/-- Calls one after another, and what each leaves.  An error stays from one to the next. -/
def executes : List Bytes → HttpParser → Option Errno → δ → List (Result δ)
  | [], _, _, _ => []
  | bs :: bss, p, e, d =>
    let one := p.execute st e bs d
    one :: executes bss one.parser one.httpErrno one.data

/-! ### Callbacks -/

variable {st} {p p' : HttpParser} {data bs : Bytes} {d : δ} {m m' : Option (DataCb × ℕ)}
  {R : List Rep} {pos : ℕ}

/-- Callbacks on two lists, the second unless the first fails. -/
theorem notify_append (rs rs' : List Rep) (d : δ) :
    st.notify data (rs ++ rs') d =
      match (st.notify data rs d).2 with
      | none => st.notify data rs' (st.notify data rs d).1
      | some _ => st.notify data rs d := by
  induction rs generalizing d with
  | nil => rfl
  | cons r rs ih =>
      cases r with
      | note n => exact ih (st.onNotify n d)
      | text k a b =>
          rw [List.cons_append, Settings.notify, Settings.notify]
          cases st.onData k (slice data a b) d with
          | none => rfl
          | some d => exact ih d

/-- After callbacks that do not fail the others are run. -/
theorem notify_ok {rs rs' : List Rep} (h : (st.notify data rs d).2 = none) :
    st.notify data (rs ++ rs') d = st.notify data rs' (st.notify data rs d).1 := by
  rw [notify_append, h]

/-- After a callback that fails no other is run. -/
theorem notify_failed {rs : List Rep} (h : (st.notify data rs d).2 ≠ none) (rs' : List Rep) :
    st.notify data (rs ++ rs') d = st.notify data rs d := by
  rw [notify_append]
  cases he : (st.notify data rs d).2 with
  | none => exact absurd he h
  | some e => rfl

/-- What stands in front of the data, and what follows it, is not looked at.  The reports are
within the data. -/
theorem notify_shift (pre data post : Bytes) {rs : List Rep}
    (h : ∀ r ∈ rs, r.Within data.length) (d : δ) :
    st.notify (pre ++ data ++ post) (rs.map (Report.shift pre.length)) d = st.notify data rs d := by
  induction rs generalizing d with
  | nil => rfl
  | cons r rs ih =>
      have hrs : ∀ r ∈ rs, r.Within data.length := fun r hr => h r (List.mem_cons_of_mem _ hr)
      cases r with
      | note n => exact ih hrs (st.onNotify n d)
      | text k a b =>
          have hb : b ≤ data.length := h _ (List.mem_cons_self ..)
          have hslice : slice (pre ++ data ++ post) (pre.length + a) (pre.length + b) =
              slice data a b := by
            rw [slice, slice, List.append_assoc, ← List.drop_drop, List.drop_left,
              show pre.length + b - (pre.length + a) = b - a by omega]
            by_cases ha : a ≤ data.length
            · rw [List.drop_append_of_le_length ha, List.take_append_of_le_length]
              rw [List.length_drop]
              omega
            · rw [show b - a = 0 by omega, List.take_zero, List.take_zero]
          rw [List.map_cons, Report.shift, Settings.notify, Settings.notify, hslice]
          cases st.onData k (slice data a b) d with
          | none => rfl
          | some d => exact ih hrs d

/-- Callbacks that do on their data what others do on theirs.  The same fail, and the relation
stays. -/
structure Settings.Refines {δ' : Type*} (st : Settings δ) (st' : Settings δ') (rel : δ → δ' → Prop) :
    Prop where
  onData : ∀ k buf {d d'}, rel d d' → Option.Rel rel (st.onData k buf d) (st'.onData k buf d')
  onNotify : ∀ n {d d'}, rel d d' → rel (st.onNotify n d) (st'.onNotify n d')

/-- Then any reports leave the data in the relation, with the same error.  The induction is over
the reports. -/
theorem Settings.Refines.notify {δ' : Type*} {st' : Settings δ'} {rel : δ → δ' → Prop}
    (h : st.Refines st' rel) (data : Bytes) (rs : List Rep) {d : δ} {d' : δ'} (hd : rel d d') :
    rel (st.notify data rs d).1 (st'.notify data rs d').1 ∧
      (st.notify data rs d).2 = (st'.notify data rs d').2 := by
  induction rs generalizing d d' with
  | nil => exact ⟨hd, rfl⟩
  | cons r rs ih =>
      cases r with
      | note n => exact ih (h.onNotify n hd)
      | text k a b =>
          rw [Settings.notify, Settings.notify]
          have hrel := h.onData k (slice data a b) hd
          generalize st.onData k (slice data a b) d = x at hrel ⊢
          generalize st'.onData k (slice data a b) d' = x' at hrel ⊢
          cases hrel with
          | some hd => exact ih hd
          | none => exact ⟨hd, rfl⟩

/-! ### Calls without a parse error -/

/-- The bytes are read one after another, without an error, and the parser returns before the
end of the data at most when the last is read.  It speaks about the parser alone, not about its
callbacks. -/
def steady : HttpParser → Bytes → Bool
  | _, [] => true
  | p, ch :: rest =>
    match (p.step ch).out with
    | .next p => steady p rest
    | .exit _ => rest.isEmpty
    | .error _ _ => false

/-- The parser does not return before the end of the data.  No byte makes it return. -/
def unbroken : HttpParser → Bytes → Bool
  | _, [] => true
  | p, ch :: rest =>
    match (p.step ch).out with
    | .next p => unbroken p rest
    | _ => false

/-- The result of a call without a parse error, when these callbacks are due.  A callback that
fails leaves its error, otherwise the parser and all the bytes. -/
structure Result.Leaves (r : Result δ) (due : δ × Option Errno) (p' : HttpParser) (len : ℕ) :
    Prop where
  data : r.data = due.1
  httpErrno : r.httpErrno = due.2
  rest : due.2 = none → r.parser = p' ∧ r.nparsed = len

/-- **The loop runs the callbacks of the scanner.**  The induction is over the bytes, from any
place and with any mark. -/
theorem loop_eq (st : Settings δ) (data : Bytes) (hsteady : p.steady bs = true)
    (hscan : scanner.scan bs p pos m = some (R, p', m')) (hopen : m' ≠ none → p.unbroken bs = true) (d : δ) :
    (loop st data bs pos p m d).Leaves (st.notify data (R ++ flush (pos + bs.length) m') d) p'
      (pos + bs.length) := by
  induction bs generalizing p pos m R d with
  | nil =>
      cases hscan
      exact ⟨rfl, rfl, fun _ => ⟨rfl, rfl⟩⟩
  | cons ch bs ih =>
      rw [Scanner.scan, Option.bind_eq_some_iff] at hscan
      obtain ⟨⟨es, p₁⟩, hstep, hscan⟩ := hscan
      obtain ⟨⟨R₁, p₂, m₂⟩, hrest, heq⟩ := Option.map_eq_some_iff.1 hscan
      cases heq
      unfold scanner at hstep
      dsimp only at hstep
      rw [steady] at hsteady
      rw [unbroken] at hopen
      rw [loop, List.append_assoc, notify_append, List.length_cons, Nat.add_comm bs.length,
        ← Nat.add_assoc]
      generalize p.step ch = one at hstep hsteady hopen
      obtain ⟨evs, out⟩ := one
      dsimp only at hsteady hopen hstep hrest ⊢
      have hes : evs = es := by
        cases out <;> cases hstep <;> rfl
      subst hes
      generalize st.notify data (applyAll pos evs m).1 d = due
      obtain ⟨d₁, e⟩ := due
      cases e with
      | some e => exact ⟨rfl, rfl, fun h => by cases h⟩
      | none =>
          cases out with
          | error e q => cases hstep
          | next q =>
              cases hstep
              exact ih hsteady hrest hopen d₁
          | exit q =>
              cases hstep
              have hnil : bs = [] := by simpa using hsteady
              subst hnil
              cases hrest
              have hm : (applyAll pos evs m).2 = none := by
                by_contra hne
                exact Bool.false_ne_true (hopen hne)
              rw [hm]
              exact ⟨rfl, rfl, fun _ => ⟨rfl, rfl⟩⟩

/-- A call runs the callbacks of the scanner.  The mark that is open from the call before starts
at 0. -/
theorem execute_eq (hbs : bs ≠ []) (hsteady : p.steady bs = true)
    (hscan : scanner.scan bs p 0 (p.reopen.map (·, 0)) = some (R, p', m'))
    (hopen : m' ≠ none → p.unbroken bs = true) (d : δ) :
    (p.execute st none bs d).Leaves (st.notify bs (R ++ flush bs.length m') d) p' bs.length := by
  have h := loop_eq st bs hsteady hscan hopen d
  rw [Nat.zero_add] at h
  have hexec : p.execute st none bs d = loop st bs bs 0 p (p.reopen.map (·, 0)) d := by
    simp only [execute, Option.isSome_none, Bool.false_eq_true, if_false, if_neg hbs]
  rw [hexec]
  exact h

/-- After an error nothing happens any more.  Neither the parser nor the data changes. -/
theorem executes_of_errno (st : Settings δ) (e : Errno) (bss : List Bytes) (p : HttpParser) (d : δ) :
    ∀ r ∈ executes st bss p (some e) d, r = ⟨p, some e, d, 0⟩ := by
  induction bss with
  | nil => exact fun r hr => absurd hr List.not_mem_nil
  | cons bs bss ih =>
      have hexec : p.execute st (some e) bs d = ⟨p, some e, d, 0⟩ := by
        simp only [execute, Option.isSome_some, if_true]
      rw [executes, hexec]
      intro r hr
      rcases List.mem_cons.1 hr with rfl | hr
      · rfl
      · exact ih r hr

end HttpParser

end Hiper

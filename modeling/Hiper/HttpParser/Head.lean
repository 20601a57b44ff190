import Hiper.HttpParser.Execute
import Hiper.HttpParser.Law

/-!
# The head of a response

Where in the head of a response the parser is, as far as the bytes tell it: behind the
status code come the reason and its line end, and then the header lines, up to an empty one
(`Place`).  A byte takes the parser to the next place, unless it fails (`step_to`), and what
`on_headers_complete` is going to read stays as it is.

The states are `s_res_status_start` to `s_headers_done` of
`src/hiper/http/http-parser/http_parser.cc`.  The lines are any bytes here, not lines that
were written by `dump`; what the theorems say is under the condition that no error is found,
as it is for a response whose parser accepts it.
-/

namespace Hiper

namespace HttpParser

open Lib Lib.Scanner

variable {p p' : HttpParser} {ch : Byte} {es : List Ev} {hd : Head}

/-- Places behind the status code.  The last is before the line feed that ends the head. -/
inductive Place
  | statusStart
  | status
  | lineEnd
  /-- At the start of a header line. -/
  | start
  | inside
  | ended
  | last
  deriving DecidableEq, Repr

namespace Place

/-- The states of the parser at a place.  At the start of a line three are possible, since a
line may go on with the value before it. -/
def states : Place → List State
  | statusStart => [.resStatusStart]
  | status => [.resStatus]
  | lineEnd => [.resLineAlmostDone]
  | start => [.headerFieldStart, .headerValueLws, .headerValueDiscardLws]
  | inside => [.headerField, .headerValueDiscardWs, .headerValue]
  | ended => [.headerValueDiscardWsAlmostDone, .headerAlmostDone]
  | last => [.headersAlmostDone]

/-- Lines end with CR and LF, and have neither in them.  A line feed alone is not taken for a
line end here. -/
def next (ch : Byte) : Place → Option Place
  | statusStart => if ch = CR then some lineEnd else if ch = LF then none else some status
  | status => if ch = CR then some lineEnd else if ch = LF then none else some status
  | lineEnd => if ch = LF then some start else none
  | start => if ch = CR then some last else if ch = LF then none else some inside
  | inside => if ch = CR then some ended else if ch = LF then none else some inside
  | ended => if ch = LF then some start else none
  | last => none

/-- The place behind some bytes, if they go through the head. -/
def run : List Byte → Place → Option Place
  | [], pl => some pl
  | ch :: bs, pl => (pl.next ch).bind (run bs)

end Place

/-- The parser is at the place, and `on_headers_complete` is going to read `hd`.  `hd` is the
version and the code. -/
structure At (hd : Head) (pl : Place) (p : HttpParser) : Prop where
  state : p.state ∈ pl.states
  head : p.head = hd
  trailing : p.flags.trailing = false

/-- A text in the head, behind the status code.  The reason, a name or a value. -/
def HeadText (hd : Head) (k : DataCb) : Prop :=
  k = .status hd.statusCode ∨ k = .headerField ∨ k = .headerValue

/-- A mark or the end of such a text.  No other event comes before the end of the head. -/
def HeadEvent (hd : Head) (e : Ev) : Prop := ∃ k, HeadText hd k ∧ (e = .mark k ∨ e = .data k)

/-- The step goes on, with these events and this parser, unless it fails.  Where it fails
nothing is said. -/
def Step.Goes (Q : List Ev → HttpParser → Prop) (st : Step) : Prop :=
  match st.out with
  | .next p => Q st.evs p
  | .exit _ => False
  | .error _ _ => True

variable {Q R : List Ev → HttpParser → Prop} {st : Step}

/-- Events that come before a step's own. -/
theorem goes_after (evs : List Ev) : (st.after evs).Goes Q ↔ st.Goes fun es p => Q (evs ++ es) p := by
  obtain ⟨es, out⟩ := st
  cases out <;> exact Iff.rfl

/-- What follows from the events and the parser holds as well. -/
theorem Step.Goes.imp (h : st.Goes Q) (hQR : ∀ es p, Q es p → R es p) : st.Goes R := by
  obtain ⟨es, out⟩ := st
  cases out with
  | next p => exact hQR es p h
  | exit p => exact h
  | error e p => trivial

/-- The step goes to the place.  With events of the head. -/
def Step.To (hd : Head) (pl : Place) (st : Step) : Prop :=
  st.Goes fun es q => (∀ e ∈ es, HeadEvent hd e) ∧ q.At hd pl

/-- A step without events goes to the place of its parser. -/
theorem to_next {pl : Place} (h : p.At hd pl) : (next p).To hd pl := ⟨nofun, h⟩

/-- Events of the head may come first. -/
theorem Step.To.after {pl : Place} (h : st.To hd pl) {evs : List Ev} (hevs : ∀ e ∈ evs, HeadEvent hd e) :
    (st.after evs).To hd pl := by
  refine (goes_after evs).2 (Step.Goes.imp h fun es q hq => ⟨fun e he => ?_, hq.2⟩)
  exact (List.mem_append.1 he).elim (hevs e) (hq.1 e)

/-- The reason is a text of the head, with its code. -/
theorem headText_status {c : ℕ} (h : c = hd.statusCode) : HeadText hd (.status c) :=
  Or.inl (congrArg _ h)

/-- A name is a text of the head. -/
theorem headText_field : HeadText hd .headerField := Or.inr (Or.inl rfl)

/-- A value is a text of the head. -/
theorem headText_value : HeadText hd .headerValue := Or.inr (Or.inr rfl)

variable {k : DataCb}

/-- The mark of a text is an event of the head. -/
theorem headEvent_mark (h : HeadText hd k) : ∀ e ∈ [(.mark k : Ev)], HeadEvent hd e :=
  List.forall_mem_singleton.2 ⟨k, h, Or.inl rfl⟩

/-- The end of a text is an event of the head. -/
theorem headEvent_data (h : HeadText hd k) : ∀ e ∈ [(.data k : Ev)], HeadEvent hd e :=
  List.forall_mem_singleton.2 ⟨k, h, Or.inr rfl⟩

/-- A text that is empty.  Its mark and its end come at once. -/
theorem headEvent_empty (h : HeadText hd k) : ∀ e ∈ ([.mark k, .data k] : List Ev), HeadEvent hd e :=
  List.forall_mem_cons.2 ⟨⟨k, h, Or.inl rfl⟩, headEvent_data h⟩

/-- The parser in another state.  The place is the one that the state belongs to. -/
theorem At.goto {pl pl' : Place} (h : p.At hd pl) {s : State} (hs : s ∈ pl'.states) :
    (p.goto s).At hd pl' := ⟨hs, h.head, h.trailing⟩

/-- A parser that keeps what `on_headers_complete` reads. -/
theorem At.of_keeps {pl pl' : Place} (h : p.At hd pl) (hs : p.state ∈ pl'.states)
    (hkeeps : Keeps p p') : p'.At hd pl' where
  state := by
    rw [show p'.state = p.state from congrArg View.state hkeeps.view]
    exact hs
  head := hkeeps.head.trans h.head
  trailing := (congrArg View.trailing hkeeps.view).trans h.trailing

/-! ### One byte -/

/-- In the reason. -/
theorem onResStatus_to {pl : Place} (h : p.At hd .status) (hn : Place.status.next ch = some pl) :
    (p.onResStatus ch).To hd pl := by
  have hcode : p.statusCode = hd.statusCode := congrArg Head.statusCode h.head
  rw [Place.next] at hn
  rw [onResStatus]
  simp only [beq_iff_eq]
  split_ifs at hn ⊢
  · cases hn
    exact (to_next (h.goto (by decide))).after (headEvent_data (headText_status hcode))
  · cases hn
    exact to_next h

/-- Where the reason starts. -/
theorem onResStatusStart_to {pl : Place} (h : p.At hd .statusStart)
    (hn : Place.statusStart.next ch = some pl) : (p.onResStatusStart ch).To hd pl := by
  have hcode : p.statusCode = hd.statusCode := congrArg Head.statusCode h.head
  have hstatus : ({ p.goto .resStatus with index := 0 } : HttpParser).At hd .status :=
    ⟨(by decide : State.resStatus ∈ Place.status.states), h.head, h.trailing⟩
  rw [onResStatusStart]
  dsimp only
  split_ifs with hend
  · exact (onResStatus_to hstatus hn).after (headEvent_mark (headText_status hcode))
  · simp only [Bool.or_eq_true, beq_iff_eq, not_or] at hend
    rw [Place.next, if_neg hend.1, if_neg hend.2] at hn
    cases hn
    exact (to_next hstatus).after (headEvent_mark (headText_status hcode))

/-- Where one character is expected. -/
theorem expect_to {pl : Place} {c : Byte} {s : State} (h : (p.goto s).At hd pl) :
    (p.expect ch c s).To hd pl := by
  rw [expect]
  split_ifs
  · trivial
  · exact to_next h

/-- Where the header field starts, and `flags` are those of the last value.  An empty line is
begun, or a name. -/
theorem onHeaderFieldStart_to {pl : Place} (hhead : p.head = hd) (ht : p.flags.trailing = false)
    (hn : Place.start.next ch = some pl) : (p.onHeaderFieldStart ch).To hd pl := by
  rw [Place.next] at hn
  rw [onHeaderFieldStart]
  simp only [beq_iff_eq]
  split_ifs at hn ⊢ with hcr hlf htoken
  · cases hn
    exact to_next ⟨List.mem_singleton_self _, hhead, ht⟩
  · trivial
  · cases hn
    have hat : ({ p.goto .headerField with index := 0, headerState := startOfField (token ch) } :
        HttpParser).At hd .inside := ⟨List.mem_cons_self .., hhead, ht⟩
    exact (to_next hat).after (headEvent_mark headText_field)

/-- In a name. -/
theorem onHeaderField_to {pl : Place} (h : p.At hd .inside) (hstate : p.state = .headerField)
    (hn : Place.inside.next ch = some pl) : (p.onHeaderField ch).To hd pl := by
  rw [Place.next] at hn
  rw [onHeaderField]
  split_ifs with htoken hcolon
  · obtain rfl : ch = 58 := beq_iff_eq.1 hcolon
    cases hn
    exact (to_next (h.goto (by decide))).after (headEvent_data headText_field)
  · trivial
  · have hcr : ch ≠ CR := by
      rintro rfl
      exact htoken rfl
    have hlf : ch ≠ LF := by
      rintro rfl
      exact htoken rfl
    rw [if_neg hcr, if_neg hlf] at hn
    cases hn
    exact to_next (h.of_keeps (by rw [hstate]; decide) (keeps_fieldChar ..))

/-- Where a value starts. -/
theorem onHeaderValueStart_to (hhead : p.head = hd) (ht : p.flags.trailing = false) :
    (p.onHeaderValueStart ch).To hd .inside := by
  rw [onHeaderValueStart]
  split
  · next p' h =>
      have hkeeps := keeps_valueStart h
      refine (to_next ⟨?_, hkeeps.head.trans hhead, ?_⟩).after (headEvent_mark headText_value)
      · rw [show p'.state = .headerValue from congrArg View.state hkeeps.view]
        decide
      · exact (congrArg View.trailing hkeeps.view).trans ht
  · trivial

/-- Where the blanks before a value are skipped. -/
theorem onHeaderValueDiscardWs_to {pl : Place} (h : p.At hd .inside)
    (hn : Place.inside.next ch = some pl) : (p.onHeaderValueDiscardWs ch).To hd pl := by
  rw [Place.next] at hn
  rw [onHeaderValueDiscardWs]
  simp only [beq_iff_eq, Bool.or_eq_true]
  split_ifs at hn ⊢ with hws hcr hlf
  · subst hcr
    exact absurd hws (by decide)
  · cases hn
    exact to_next h
  · cases hn
    exact to_next (h.goto (by decide))
  · cases hn
    exact onHeaderValueStart_to h.head h.trailing

/-- In a value. -/
theorem onHeaderValue_to {pl : Place} (h : p.At hd .inside) (hstate : p.state = .headerValue)
    (hn : Place.inside.next ch = some pl) : (p.onHeaderValue ch).To hd pl := by
  rw [Place.next] at hn
  rw [onHeaderValue]
  simp only [beq_iff_eq]
  split_ifs at hn ⊢ with hcr hlf hchar
  · cases hn
    exact (to_next (h.goto (by decide))).after (headEvent_data headText_value)
  · trivial
  · cases hn
    split
    · next p' hp' =>
        exact to_next (h.of_keeps (by rw [hstate]; decide) (keeps_valueChar hp'))
    · trivial

/-- At the start of a line behind a value. -/
theorem onHeaderValueLws_to {pl : Place} (h : p.At hd .start) (hn : Place.start.next ch = some pl) :
    (p.onHeaderValueLws ch).To hd pl := by
  rw [onHeaderValueLws]
  by_cases hws : (ch == SP || ch == TAB) = true
  · rw [if_pos hws]
    simp only [Bool.or_eq_true, beq_iff_eq] at hws
    have hinside : pl = .inside := by
      rcases hws with rfl | rfl <;> cases hn <;> rfl
    rw [hinside]
    exact onHeaderValueStart_to h.head h.trailing
  · rw [if_neg hws]
    have ht := (valueFlags_trailing p).trans h.trailing
    exact onHeaderFieldStart_to (p := { p.goto .headerFieldStart with flags := p.valueFlags })
      h.head ht hn

/-- At the start of a line behind an empty value. -/
theorem onHeaderValueDiscardLws_to {pl : Place} (h : p.At hd .start)
    (hn : Place.start.next ch = some pl) : (p.onHeaderValueDiscardLws ch).To hd pl := by
  rw [onHeaderValueDiscardLws]
  split_ifs with hws
  · simp only [Bool.or_eq_true, beq_iff_eq] at hws
    have hinside : pl = .inside := by
      rcases hws with rfl | rfl <;> cases hn <;> rfl
    rw [hinside]
    exact to_next (h.goto (by decide))
  · trivial
  · have ht := (valueFlags_trailing p).trans h.trailing
    exact (onHeaderFieldStart_to (p := { p.goto .headerFieldStart with flags := p.valueFlags })
      h.head ht hn).after (headEvent_empty headText_value)

/-- At the line end of a value. -/
theorem onHeaderAlmostDone_to (h : p.At hd .ended) : (p.onHeaderAlmostDone ch).To hd .start := by
  rw [onHeaderAlmostDone]
  split_ifs
  · trivial
  · exact to_next (h.goto (by decide))

/-- One byte, without the count of bytes, by cases on the place and on the state. -/
theorem onByte_to {pl pl' : Place} (h : p.At hd pl) (hn : pl.next ch = some pl') :
    (p.onByte ch).To hd pl' := by
  have hstates := h.state
  cases pl with
  | statusStart =>
      have hs : p.state = .resStatusStart := by simpa [Place.states] using hstates
      rw [onByte, hs]
      exact onResStatusStart_to h hn
  | status =>
      have hs : p.state = .resStatus := by simpa [Place.states] using hstates
      rw [onByte, hs]
      exact onResStatus_to h hn
  | lineEnd =>
      have hs : p.state = .resLineAlmostDone := by simpa [Place.states] using hstates
      rw [Place.next] at hn
      split_ifs at hn
      cases hn
      rw [onByte, hs]
      exact expect_to (h.goto (by decide))
  | start =>
      have hs : p.state = .headerFieldStart ∨ p.state = .headerValueLws ∨
          p.state = .headerValueDiscardLws := by simpa [Place.states] using hstates
      rcases hs with hs | hs | hs
      · rw [onByte, hs]
        exact onHeaderFieldStart_to h.head h.trailing hn
      · rw [onByte, hs]
        exact onHeaderValueLws_to h hn
      · rw [onByte, hs]
        exact onHeaderValueDiscardLws_to h hn
  | inside =>
      have hs : p.state = .headerField ∨ p.state = .headerValueDiscardWs ∨
          p.state = .headerValue := by simpa [Place.states] using hstates
      rcases hs with hs | hs | hs
      · rw [onByte, hs]
        exact onHeaderField_to h hs hn
      · rw [onByte, hs]
        exact onHeaderValueDiscardWs_to h hn
      · rw [onByte, hs]
        exact onHeaderValue_to h hs hn
  | ended =>
      have hs : p.state = .headerValueDiscardWsAlmostDone ∨ p.state = .headerAlmostDone := by
        simpa [Place.states] using hstates
      rw [Place.next] at hn
      split_ifs at hn
      cases hn
      rcases hs with hs | hs
      · rw [onByte, hs]
        exact expect_to (h.goto (by decide))
      · rw [onByte, hs]
        exact onHeaderAlmostDone_to h
  | last => cases hn

/-- **One byte of a head** takes the parser to the next place, unless it fails.  The count may
fail. -/
theorem step_to {pl pl' : Place} (h : p.At hd pl) (hn : pl.next ch = some pl') :
    (p.step ch).To hd pl' := by
  rw [step]
  dsimp only
  split_ifs
  · trivial
  · exact onByte_to (h.of_keeps h.state ⟨rfl, rfl⟩) hn
  · exact onByte_to h hn

/-- `on_headers_complete` is called, and maybe `on_message_complete`.  Where the message has no
body both are called. -/
def EndsHead (hd : Head) (es : List Ev) : Prop :=
  ∃ ns : List NotifyCb, es = (.headersComplete hd :: ns).map .note ∧
    ∀ n ∈ ns, n = .messageComplete

/-- The end of the head is reported first. -/
theorem onHeadersDone_ends (p : HttpParser) :
    (p.onHeadersDone LF).All fun es _ => EndsHead hd (.note (.headersComplete hd) :: es) := by
  rw [onHeadersDone, if_neg (by decide)]
  dsimp only
  split_ifs
  · exact ⟨[.messageComplete], rfl, by simp⟩
  · exact ⟨[], rfl, fun _ h => by cases h⟩
  · exact ⟨[.messageComplete], rfl, by simp⟩
  · exact ⟨[], rfl, fun _ h => by cases h⟩
  · exact ⟨[.messageComplete], rfl, by simp⟩
  · exact ⟨[], rfl, fun _ h => by cases h⟩

/-- The line feed behind the last line, without the count of bytes. -/
theorem onByte_last (h : p.At hd .last) : (p.onByte LF).All fun es _ => EndsHead hd es := by
  have hs : p.state = .headersAlmostDone := by simpa [Place.states] using h.state
  rw [onByte, hs]
  dsimp only
  rw [onHeadersAlmostDone, if_neg (by decide), h.trailing, if_neg Bool.false_ne_true]
  split_ifs
  · trivial
  · rw [all_after, ← h.head]
    exact onHeadersDone_ends _

/-- The line feed behind the last line ends the head.  Whatever the flags are. -/
theorem step_last (h : p.At hd .last) : (p.step LF).All fun es _ => EndsHead hd es := by
  rw [step]
  dsimp only
  split_ifs
  · trivial
  · exact onByte_last (h.of_keeps h.state ⟨rfl, rfl⟩)
  · exact onByte_last h

/-! ### The lines -/

namespace Place

/-- A run through some bytes, and through more. -/
theorem run_append (xs ys : List Byte) (pl : Place) :
    run (xs ++ ys) pl = (run xs pl).bind (run ys) := by
  induction xs generalizing pl with
  | nil => rfl
  | cons ch xs ih =>
      rw [List.cons_append, run, run, Option.bind_assoc]
      exact congrArg _ (funext ih)

/-- A place that lines stay at until they end.  The line has no line end in it. -/
theorem run_line {pl pl' : Place} {l : List Byte} (hl : CR ∉ l ∧ LF ∉ l)
    (hstay : ∀ ch, ch ≠ CR → ch ≠ LF → pl.next ch = some pl) (hend : run [CR, LF] pl = some pl') :
    run (l ++ [CR, LF]) pl = some pl' := by
  induction l with
  | nil => exact hend
  | cons ch l ih =>
      obtain ⟨hcr, hl₁⟩ := List.ne_and_not_mem_of_not_mem_cons hl.1
      obtain ⟨hlf, hl₂⟩ := List.ne_and_not_mem_of_not_mem_cons hl.2
      rw [List.cons_append, run, hstay ch hcr.symm hlf.symm, Option.bind_some, ih ⟨hl₁, hl₂⟩]

/-- A line whose first byte leads to such a place.  The first byte decides where. -/
theorem run_cons_line {pl pl₁ pl' : Place} {ch : Byte} {l : List Byte}
    (hl : CR ∉ ch :: l ∧ LF ∉ ch :: l)
    (hfirst : ∀ ch, ch ≠ CR → ch ≠ LF → pl.next ch = some pl₁)
    (hstay : ∀ ch, ch ≠ CR → ch ≠ LF → pl₁.next ch = some pl₁)
    (hend : run [CR, LF] pl₁ = some pl') : run (ch :: l ++ [CR, LF]) pl = some pl' := by
  obtain ⟨hcr, h₁⟩ := List.ne_and_not_mem_of_not_mem_cons hl.1
  obtain ⟨hlf, h₂⟩ := List.ne_and_not_mem_of_not_mem_cons hl.2
  rw [List.cons_append, run, hfirst ch hcr.symm hlf.symm, Option.bind_some]
  exact run_line ⟨h₁, h₂⟩ hstay hend

/-- A reason and its line end, empty or not. -/
theorem run_reason {reason : List Byte} (h : CR ∉ reason ∧ LF ∉ reason) :
    run (reason ++ [CR, LF]) .statusStart = some .start := by
  have hfirst : ∀ ch, ch ≠ CR → ch ≠ LF → Place.statusStart.next ch = some .status :=
    fun ch hcr hlf => by rw [next, if_neg hcr, if_neg hlf]
  have hstay : ∀ ch, ch ≠ CR → ch ≠ LF → Place.status.next ch = some .status := fun ch hcr hlf => by
    rw [next, if_neg hcr, if_neg hlf]
  cases reason with
  | nil => rfl
  | cons ch reason => exact run_cons_line h hfirst hstay rfl

/-- A header line and its line end. -/
theorem run_header {l : List Byte} (hne : l ≠ []) (h : CR ∉ l ∧ LF ∉ l) :
    run (l ++ [CR, LF]) .start = some .start := by
  have hfirst : ∀ ch, ch ≠ CR → ch ≠ LF → Place.start.next ch = some .inside := fun ch hcr hlf => by
    rw [next, if_neg hcr, if_neg hlf]
  have hstay : ∀ ch, ch ≠ CR → ch ≠ LF → Place.inside.next ch = some .inside := fun ch hcr hlf => by
    rw [next, if_neg hcr, if_neg hlf]
  cases l with
  | nil => exact absurd rfl hne
  | cons ch l => exact run_cons_line h hfirst hstay rfl

/-- Any number of header lines.  The induction is over the lines. -/
theorem run_headers {ls : List (List Byte)} (h : ∀ l ∈ ls, l ≠ [] ∧ CR ∉ l ∧ LF ∉ l) :
    run (ls.flatMap (· ++ [CR, LF])) .start = some .start := by
  induction ls with
  | nil => rfl
  | cons l ls ih =>
      obtain ⟨hl, hls⟩ := List.forall_mem_cons.1 h
      rw [List.flatMap_cons, run_append, run_header hl.1 hl.2, Option.bind_some, ih hls]

end Place

/-! ### The loop -/

/-- The mark of a text in the head.  Or there is none. -/
def MarkFits (hd : Head) (m : Option (DataCb × ℕ)) : Prop := ∀ k a, m = some (k, a) → HeadText hd k

/-- There is none. -/
theorem markFits_none : MarkFits hd none := fun _ _ h => by cases h

/-- The report of a text in the head.  With its code, if it is the reason. -/
def RepFits (hd : Head) (r : Rep) : Prop := ∃ k a b, HeadText hd k ∧ r = .text k a b

/-- An event of the head leaves such a mark. -/
theorem markFits_apply {pos : ℕ} {e : Ev} {m : Option (DataCb × ℕ)} (he : HeadEvent hd e)
    (hm : MarkFits hd m) : MarkFits hd (e.apply pos m).2 := by
  obtain ⟨k, hk, rfl | rfl⟩ := he
  · cases m with
    | none =>
        rintro k' a ⟨⟩
        exact hk
    | some x => exact hm
  · cases m with
    | none =>
        intro _ _ h
        cases h
    | some x =>
        rw [Event.apply]
        split_ifs
        · intro _ _ h
          cases h
        · exact hm

/-- Events of the head leave such a mark. -/
theorem markFits_applyAll {pos : ℕ} {m : Option (DataCb × ℕ)} (hes : ∀ e ∈ es, HeadEvent hd e)
    (hm : MarkFits hd m) : MarkFits hd (applyAll pos es m).2 := by
  induction es generalizing m with
  | nil => exact hm
  | cons e es ih =>
      obtain ⟨he, hes⟩ := List.forall_mem_cons.1 hes
      exact ih hes (markFits_apply he hm)

variable {δ : Type*} {st : Settings δ} {data bs rest : Bytes} {pos : ℕ}
  {m : Option (DataCb × ℕ)} {d : δ}

/-- A byte that was read without an error.  The loop goes on behind it. -/
theorem loop_of_goes (h : (p.step ch).Goes Q)
    (hok : (loop st data (ch :: rest) pos p m d).httpErrno = none) :
    ∃ es q d', Q es q ∧
      loop st data (ch :: rest) pos p m d = loop st data rest (pos + 1) q (applyAll pos es m).2 d' := by
  rw [loop] at hok ⊢
  generalize p.step ch = one at h hok ⊢
  obtain ⟨es, out⟩ := one
  dsimp only at hok ⊢
  generalize st.notify data (applyAll pos es m).1 d = due at hok ⊢
  obtain ⟨d', e⟩ := due
  cases e with
  | some e => cases hok
  | none =>
      cases out with
      | next q => exact ⟨es, q, d', h, rfl⟩
      | exit q => cases h
      | error e q => cases hok

/-- **A run through the head**, when it is read without an error.  The induction is over the
bytes. -/
theorem loop_run {pl pl' : Place} (hrun : Place.run bs pl = some pl') (h : p.At hd pl)
    (hm : MarkFits hd m) (hok : (loop st data (bs ++ rest) pos p m d).httpErrno = none) :
    ∃ q m' d', q.At hd pl' ∧ MarkFits hd m' ∧
      loop st data (bs ++ rest) pos p m d = loop st data rest (pos + bs.length) q m' d' := by
  induction bs generalizing p pos m d pl with
  | nil =>
      cases hrun
      exact ⟨p, m, d, h, hm, rfl⟩
  | cons ch bs ih =>
      obtain ⟨pl₁, hn, hrun⟩ := Option.bind_eq_some_iff.1 hrun
      rw [List.cons_append] at hok ⊢
      obtain ⟨es, q, d', ⟨hes, hq⟩, heq⟩ := loop_of_goes (step_to h hn) hok
      rw [heq] at hok ⊢
      obtain ⟨q', m', d'', hq', hm', heq'⟩ := ih hrun hq (markFits_applyAll hes hm) hok
      refine ⟨q', m', d'', hq', hm', heq'.trans ?_⟩
      rw [List.length_cons, Nat.add_assoc, Nat.add_comm 1]

/-- Reports that leave alone what `on_headers_complete` has stored: texts of the head, and the
end of the message.  The body cannot be among them. -/
def AfterHead (hd : Head) (r : Rep) : Prop := RepFits hd r ∨ r = .note .messageComplete

/-- The text that is open at the end of a call is one of the head. -/
theorem flush_fits (hm : MarkFits hd m) : ∀ r ∈ flush pos m, AfterHead hd r := by
  cases m with
  | none => nofun
  | some x =>
      intro r hr
      rw [List.mem_singleton.1 hr]
      exact Or.inl ⟨x.1, x.2, pos, hm x.1 x.2 rfl, rfl⟩

/-- **The last byte of a head**, when it is read without an error.  What is reported behind the
end of the head stores nothing of it. -/
theorem loop_last (h : p.At hd .last) (hm : MarkFits hd m)
    (hok : (loop st data [LF] pos p m d).httpErrno = none) :
    ∃ rs : List Rep, (∀ r ∈ rs, AfterHead hd r) ∧
      (loop st data [LF] pos p m d).data =
        (st.notify data (.note (.headersComplete hd) :: rs) d).1 := by
  have hends := step_last h
  rw [loop] at hok ⊢
  generalize p.step LF = one at hends hok ⊢
  obtain ⟨es, out⟩ := one
  dsimp only at hok ⊢
  have hnotes : ∀ {ns : List NotifyCb}, (∀ n ∈ ns, n = .messageComplete) →
      ∀ r ∈ (ns.map .note : List Rep), AfterHead hd r := by
    intro ns hns r hr
    obtain ⟨n, hn, rfl⟩ := List.mem_map.1 hr
    exact Or.inr (congrArg _ (hns n hn))
  cases out with
  | error e q =>
      generalize st.notify data (applyAll pos es m).1 d = due at hok
      obtain ⟨d', _ | e⟩ := due <;> cases hok
  | exit q =>
      obtain ⟨ns, rfl, hns⟩ := hends
      rw [applyAll_notes] at hok ⊢
      rw [List.map_cons] at hok ⊢
      refine ⟨ns.map .note, hnotes hns, ?_⟩
      generalize st.notify data (.note (.headersComplete hd) :: ns.map .note) d = due at hok ⊢
      obtain ⟨d', _ | e⟩ := due
      · rfl
      · cases hok
  | next q =>
      obtain ⟨ns, rfl, hns⟩ := hends
      rw [applyAll_notes] at hok ⊢
      rw [List.map_cons] at hok ⊢
      refine ⟨ns.map .note ++ flush (pos + 1) m, fun r hr => ?_, ?_⟩
      · exact (List.mem_append.1 hr).elim (hnotes hns r) (flush_fits hm r)
      · rw [← List.cons_append, notify_append]
        generalize st.notify data (.note (.headersComplete hd) :: ns.map .note) d = due at hok ⊢
        obtain ⟨d', _ | e⟩ := due
        · rfl
        · cases hok

end HttpParser

end Hiper

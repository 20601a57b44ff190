import Mathlib.Data.List.Basic

/-!
# Scanners that report texts

A scanner reads its input one item at a time and says of each where texts begin
and end.  It keeps a mark at the start of the text it is in, and when the text
ends it reports the text from the mark on.  Input comes in calls: a text that is
not over when a call ends is reported up to there, and the next call starts with
a new mark, if the state says that a text is going on; a *soft* text gets its new
mark from the next item instead.

The place of a text in the input is what is reported, not the text, so that a report made in
one call can be compared with one made in another: a call at another place of the input
makes the same reports, shifted (`call_shift`).  `calls` is the whole input, in the calls it
comes in, `starts` where they start, and `expand` what a report of a text becomes when the
cuts go through it.  `Lawful` is what a scanner must keep for this to make sense: in every
state a mark of one kind at most is there, and it is the one the state says.  Reports end
where the scanner stands (`within_of_call`), so that the text of a report can be read off
the input that has come.
-/

namespace Hiper.Lib

namespace Scanner

variable {β σ κ ν : Type*}

/-- What the reading of one item does to the mark.  They are listed for an item in the order in
which they happen. -/
inductive Event (κ ν : Type*)
  /-- A text of this kind starts with the item. -/
  | mark (k : κ)
  /-- The text is over, and the item is not in it. -/
  | data (k : κ)
  /-- The text is over with the item. -/
  | through (k : κ)
  | note (n : ν)
  deriving DecidableEq, Repr

/-- A text, by its place in the input, or a note.  A text is given by its first place and by the
place behind its last. -/
inductive Report (κ ν : Type*)
  | text (k : κ) (start stop : ℕ)
  | note (n : ν)
  deriving DecidableEq, Repr

end Scanner

/-- A scanner: what it does with an item, the kind of text a state is in, when the next call
marks it at once (`reopen`), and when the next item does (`loose`).  A scanner may refuse an
item, and then the call has no result. -/
structure Scanner (β σ κ ν : Type*) where
  step : σ → β → Option (List (Scanner.Event κ ν) × σ)
  reopen : σ → Option κ
  loose : σ → Option κ
  soft : κ → Bool

namespace Scanner

variable {β σ κ ν : Type*} [DecidableEq κ]

/-! ### Calls -/

/-- One event at position `pos`: what is reported, and the mark after it.  A text that ends is
reported from its mark to the item or through it. -/
def Event.apply (pos : ℕ) : Event κ ν → Option (κ × ℕ) → List (Report κ ν) × Option (κ × ℕ)
  | .mark k, m => ([], m.or (some (k, pos)))
  | .data k, m =>
    match m with
    | some (k', a) => if k' = k then ([.text k a pos], none) else ([], m)
    | none => ([], none)
  | .through k, m =>
    match m with
    | some (k', a) => if k' = k then ([.text k a (pos + 1)], none) else ([], m)
    | none => ([], none)
  | .note n, m => ([.note n], m)

/-- The events of an item in their order: the reports of all of them, and the mark that is left. -/
def applyAll (pos : ℕ) : List (Event κ ν) → Option (κ × ℕ) → List (Report κ ν) × Option (κ × ℕ)
  | [], m => ([], m)
  | e :: es, m =>
    let one := e.apply pos m
    let rest := applyAll pos es one.2
    (one.1 ++ rest.1, rest.2)

/-- The text that is not over when a call ends.  It is reported up to the end of the call, with
or without more of it to come. -/
def flush (pos : ℕ) : Option (κ × ℕ) → List (Report κ ν)
  | none => []
  | some (k, a) => [.text k a pos]

variable (S : Scanner β σ κ ν)

/-- Reads items from position `pos` on.  The state and the mark go from item to item; where the
scanner refuses one there is no result. -/
def scan : List β → σ → ℕ → Option (κ × ℕ) → Option (List (Report κ ν) × σ × Option (κ × ℕ))
  | [], s, _, m => some ([], s, m)
  | b :: bs, s, pos, m =>
    (S.step s b).bind fun es =>
      let one := applyAll pos es.1 m
      (scan bs es.2 (pos + 1) one.2).map fun rest => (one.1 ++ rest.1, rest.2)

/-- One call.  A text that goes on from the last call is marked at the start of this one, and a
text that is not over at its end is reported up to there. -/
def call (bs : List β) (s : σ) (pos : ℕ) : Option (List (Report κ ν) × σ) :=
  (S.scan bs s pos ((S.reopen s).map (·, pos))).map fun r =>
    (r.1 ++ flush (pos + bs.length) r.2.2, r.2.1)

/-- One call after another.  Each starts where the last one ended, with the state that it left. -/
def calls : List (List β) → σ → ℕ → Option (List (Report κ ν) × σ)
  | [], s, _ => some ([], s)
  | bs :: bss, s, pos =>
    (S.call bs s pos).bind fun one =>
      (calls bss one.2 (pos + bs.length)).map fun rest => (one.1 ++ rest.1, rest.2)

/-- Where the calls start.  The first start is `pos`, and a call that is empty starts where the
next one does. -/
def starts : List (List β) → ℕ → List ℕ
  | [], _ => []
  | bs :: bss, pos => pos :: starts bss (pos + bs.length)

/-! ### Pieces -/

/-- The segments from `a` to `b` between cuts.  With no cut there is one, the whole. -/
def segments (a : ℕ) : List ℕ → ℕ → List (ℕ × ℕ)
  | [], b => [(a, b)]
  | c :: cs, b => (a, c) :: segments c cs b

/-- The cuts after `a` and before `n`.  A cut in front of the text, or behind it, does not cut
it. -/
def cutsIn (cuts : List ℕ) (a n : ℕ) : List ℕ := cuts.filter fun c => a < c && c < n

/-- The pieces of a text: a cut at its end counts, unless it is soft.  A soft text that is cut
at its very end leaves no empty piece, since it has no mark again before the next item. -/
def pieces (cuts : List ℕ) (k : κ) (a b : ℕ) : List (ℕ × ℕ) :=
  segments a (cutsIn cuts a (if S.soft k then b else b + 1)) b

/-- A report, its text in pieces.  Notes are not cut. -/
def expand (cuts : List ℕ) : Report κ ν → List (Report κ ν)
  | .text k a b => (S.pieces cuts k a b).map fun s => .text k s.1 s.2
  | .note n => [.note n]

/-! ### The law -/

/-- The events of an item, from a mark of kind `φ`: a text is marked when none is, and only the
marked text ends.  It says which kind is left, or that the events break the law. -/
def legal : List (Event κ ν) → Option κ → Option (Option κ)
  | [], φ => some φ
  | .mark k :: es, none => if S.soft k then none else legal es (some k)
  | .data k :: es, some k' => if k = k' then legal es none else none
  | .note _ :: es, none => legal es none
  | _, _ => none

/-- The events in a soft text: it goes on, it is over with the item, or it is over.  A soft text
never goes on from a mark that a call made at its start, but from one of the next item. -/
inductive SoftEvents (s' : σ) (k : κ) : List (Event κ ν) → Prop
  | goes : S.loose s' = some k → SoftEvents s' k [.mark k]
  | through (ns : List ν) : S.loose s' = none → S.reopen s' = none →
      SoftEvents s' k (.mark k :: .through k :: ns.map .note)
  | data (ns : List ν) : S.loose s' = none → S.reopen s' = none →
      SoftEvents s' k (.data k :: ns.map .note)

/-- The law, in the states that have a property which the items keep.  The law is about one item
at a time, in each state that has the property: the events are legal for the kind of the state,
the kind that is left is that of the new state, and a state is not both kinds at once. -/
structure Lawful (I : σ → Prop) : Prop where
  reopen_hard : ∀ s k, S.reopen s = some k → S.soft k = false
  loose_soft : ∀ s k, S.loose s = some k → S.soft k = true ∧ S.reopen s = none
  keeps : ∀ s b es s', I s → S.step s b = some (es, s') → I s'
  hard : ∀ s b es s', I s → S.loose s = none → S.step s b = some (es, s') →
    S.legal es (S.reopen s) = some (S.reopen s')
  loose : ∀ s b es s' k, I s → S.loose s = some k → S.step s b = some (es, s') →
    S.SoftEvents s' k es

/-! ### Places are relative -/

/-- The same report of an input that starts at `off`.  Notes have no place. -/
def Report.shift (off : ℕ) : Report κ ν → Report κ ν
  | .text k a b => .text k (off + a) (off + b)
  | .note n => .note n

/-- The same mark.  Its place is counted from `off`. -/
def shiftMark (off : ℕ) (m : Option (κ × ℕ)) : Option (κ × ℕ) := m.map fun x => (x.1, off + x.2)

/-- One event, at another place: the same report and the same mark, both shifted. -/
theorem Event.apply_shift (off pos : ℕ) (e : Event κ ν) (m : Option (κ × ℕ)) :
    e.apply (off + pos) (shiftMark off m) =
      ((e.apply pos m).1.map (Report.shift off), shiftMark off (e.apply pos m).2) := by
  cases m with
  | none => cases e <;> rfl
  | some x =>
      obtain ⟨k', a⟩ := x
      cases e with
      | mark k => rfl
      | note n => rfl
      | data k =>
          simp only [apply, shiftMark, Option.map_some]
          split_ifs <;> rfl
      | through k =>
          simp only [apply, shiftMark, Option.map_some]
          split_ifs <;> rfl

/-- The events of an item at another place report the same. -/
theorem applyAll_shift (off pos : ℕ) (es : List (Event κ ν)) (m : Option (κ × ℕ)) :
    applyAll (off + pos) es (shiftMark off m) =
      ((applyAll pos es m).1.map (Report.shift off), shiftMark off (applyAll pos es m).2) := by
  induction es generalizing m with
  | nil => rfl
  | cons e es ih => simp only [applyAll, Event.apply_shift, ih, List.map_append]

/-- Items read from another place on report the same, shifted. -/
theorem scan_shift (off : ℕ) (bs : List β) (s : σ) (pos : ℕ) (m : Option (κ × ℕ)) :
    S.scan bs s (off + pos) (shiftMark off m) =
      (S.scan bs s pos m).map fun r => (r.1.map (Report.shift off), r.2.1, shiftMark off r.2.2) := by
  induction bs generalizing s pos m with
  | nil => rfl
  | cons b bs ih =>
      simp only [scan, applyAll_shift, Nat.add_assoc, ih]
      cases S.step s b with
      | none => rfl
      | some es =>
          simp only [Option.bind_some, Option.map_map]
          congr 1
          funext r
          simp

/-- A call at another place reports the same.  It is how the reports of a later call are put in
relation to the input it was made for. -/
theorem call_shift (off : ℕ) (bs : List β) (s : σ) (pos : ℕ) :
    S.call bs s (off + pos) =
      (S.call bs s pos).map fun r => (r.1.map (Report.shift off), r.2) := by
  have hmark : (S.reopen s).map (fun k => (k, off + pos)) =
      shiftMark off ((S.reopen s).map fun k => (k, pos)) := by
    cases S.reopen s <;> rfl
  rw [call, call, hmark, scan_shift, Option.map_map, Option.map_map]
  congr 1
  funext r
  obtain ⟨W, s', m'⟩ := r
  simp only [Function.comp_apply, List.map_append, Nat.add_assoc]
  cases m' <;> rfl

/-! ### Texts end where they are reported -/

/-- The report is about the input before `n`.  A note is about no place. -/
def Report.Within (n : ℕ) : Report κ ν → Prop
  | .text _ _ b => b ≤ n
  | .note _ => True

omit [DecidableEq κ] in
/-- What is about the input before one place is about the input before a later one. -/
theorem Report.Within.mono {n n' : ℕ} {r : Report κ ν} (h : r.Within n) (hn : n ≤ n') :
    r.Within n' := by
  cases r with
  | text k a b => exact Nat.le_trans h hn
  | note n => trivial

/-- An event reports nothing behind its item. -/
theorem within_of_apply {pos : ℕ} {e : Event κ ν} {m : Option (κ × ℕ)} {r : Report κ ν}
    (h : r ∈ (e.apply pos m).1) : r.Within (pos + 1) := by
  cases e with
  | mark k => cases h
  | note n =>
      rw [List.mem_singleton.1 h]
      trivial
  | data k =>
      cases m with
      | none => cases h
      | some x =>
          rw [Event.apply] at h
          split_ifs at h
          · rw [List.mem_singleton.1 h]
            exact Nat.le_succ pos
          · cases h
  | through k =>
      cases m with
      | none => cases h
      | some x =>
          rw [Event.apply] at h
          split_ifs at h
          · rw [List.mem_singleton.1 h]
            exact Nat.le_refl (pos + 1)
          · cases h

/-- The events of an item report nothing behind it. -/
theorem within_of_applyAll {pos : ℕ} {es : List (Event κ ν)} {m : Option (κ × ℕ)}
    {r : Report κ ν} (h : r ∈ (applyAll pos es m).1) : r.Within (pos + 1) := by
  induction es generalizing m with
  | nil => cases h
  | cons e es ih =>
      rcases List.mem_append.1 h with h | h
      · exact within_of_apply h
      · exact ih h

omit [DecidableEq κ] in
/-- What is reported when a call ends is in the input that was read. -/
theorem within_of_flush {pos : ℕ} {m : Option (κ × ℕ)} {r : Report κ ν} (h : r ∈ flush pos m) :
    r.Within pos := by
  cases m with
  | none => cases h
  | some x =>
      rw [List.mem_singleton.1 h]
      exact Nat.le_refl pos

/-- What is reported while items are read is within these items and those before. -/
theorem within_of_scan {bs : List β} {s s' : σ} {pos : ℕ} {m m' : Option (κ × ℕ)}
    {W : List (Report κ ν)} (h : S.scan bs s pos m = some (W, s', m')) {r : Report κ ν}
    (hr : r ∈ W) : r.Within (pos + bs.length) := by
  induction bs generalizing s pos m W with
  | nil =>
      cases h
      cases hr
  | cons b bs ih =>
      rw [scan, Option.bind_eq_some_iff] at h
      obtain ⟨⟨es, s₁⟩, -, h⟩ := h
      obtain ⟨⟨W', s₂, m₂⟩, hrest, heq⟩ := Option.map_eq_some_iff.1 h
      cases heq
      rw [List.length_cons]
      rcases List.mem_append.1 hr with hr | hr
      · exact (within_of_applyAll hr).mono (by omega)
      · exact (ih hrest hr).mono (by omega)

/-- What a call reports is about the input up to its end, so that it can be read off what has
come. -/
theorem within_of_call {bs : List β} {s s' : σ} {pos : ℕ} {W : List (Report κ ν)}
    (h : S.call bs s pos = some (W, s')) {r : Report κ ν} (hr : r ∈ W) :
    r.Within (pos + bs.length) := by
  obtain ⟨⟨W₁, s₁, m₁⟩, hscan, heq⟩ := Option.map_eq_some_iff.1 h
  cases heq
  rcases List.mem_append.1 hr with hr | hr
  · exact within_of_scan S hscan hr
  · exact within_of_flush hr

end Scanner

end Hiper.Lib

import Hiper.HttpParser.Execute

/-!
# Bytes read one after another

The loop of `http_parser_execute` keeps the place where a text begins.  A reader keeps
the text itself, as far as it has come, so that what a piece of the input does can be said
without the input around it (`Reader.reads`), and pieces can be put together.  What a
reader does, the loop does (`loop_reads`, `execute_reads`).

It is the meeting point of the two ways to look at the parser: `loop_reads` connects it with
the loop of `src/hiper/http/http-parser/http_parser.cc:714`, where marks are places, and the
lemmas on heads and bodies are about readers alone.  A reader has a next state only when
nothing is an error, so that its runs are the runs on messages that are accepted.
-/

namespace Hiper

namespace HttpParser

open Lib Lib.Scanner

variable {δ : Type*}

/-- The parser, the text it is in, and what the callbacks have done.  The text comes with the
callback that will get it. -/
structure Reader (δ : Type*) where
  parser : HttpParser
  text : Option (DataCb × Bytes)
  data : δ

namespace Reader

variable (st : Settings δ)

/-- The text of this kind is over.  Its callback gets it, with the last bytes. -/
def close (k : DataCb) (last : Bytes) (x : Option (DataCb × Bytes) × δ) :
    Option (Option (DataCb × Bytes) × δ) :=
  match x.1 with
  | some (k', t) => if k' = k then (st.onData k (t ++ last) x.2).map (none, ·) else some x
  | none => some (none, x.2)

/-- One event of a byte.  A mark that is set already stays. -/
def event (ch : Byte) (x : Option (DataCb × Bytes) × δ) : Ev → Option (Option (DataCb × Bytes) × δ)
  | .mark k => some (x.1.or (some (k, [])), x.2)
  | .data k => close st k [] x
  | .through k => close st k [ch] x
  | .note n => some (x.1, st.onNotify n x.2)

/-- A byte, when it is no error, no callback fails, and the parser goes on.  Behind its events
the byte itself belongs to the text. -/
def read (r : Reader δ) (ch : Byte) : Option (Reader δ) :=
  match r.parser.step ch with
  | ⟨evs, .next p⟩ =>
    (evs.foldlM (event st ch) (r.text, r.data)).map fun x =>
      ⟨p, x.1.map fun t => (t.1, t.2 ++ [ch]), x.2⟩
  | _ => none

/-- Bytes one after another.  None, if one of them cannot be read. -/
def reads (bs : Bytes) (r : Reader δ) : Option (Reader δ) := bs.foldlM (read st) r

/-- The text that is not over when a call ends.  Its callback gets it, as at the end of
`http_parser_execute`. -/
def flush (r : Reader δ) : Option δ :=
  match r.text with
  | some (k, t) => st.onData k t r.data
  | none => some r.data

end Reader

variable {st : Settings δ} {p q : HttpParser} {bs bs' data pre rest : Bytes} {ch : Byte} {d : δ}
  {r r' : Reader δ} {m : Option (DataCb × ℕ)}

namespace Reader

@[simp] theorem reads_nil : reads st [] r = some r := rfl

/-- One byte, and the others. -/
theorem reads_cons : reads st (ch :: bs) r = (read st r ch).bind (reads st bs) := rfl

/-- Some bytes, and then others. -/
theorem reads_append (bs bs' : Bytes) (r : Reader δ) :
    reads st (bs ++ bs') r = (reads st bs r).bind (reads st bs') := List.foldlM_append

/-- Pieces one after another.  The first is read already. -/
theorem reads_of_append (h : reads st bs r = some r') : reads st (bs ++ bs') r = reads st bs' r' := by
  rw [reads_append, h, Option.bind_some]

/-- A byte with these events.  The parser goes on. -/
theorem read_of_step {evs : List Ev} (h : r.parser.step ch = ⟨evs, .next q⟩) :
    read st r ch = (evs.foldlM (event st ch) (r.text, r.data)).map fun x =>
      ⟨q, x.1.map fun t => (t.1, t.2 ++ [ch]), x.2⟩ := by
  rw [read, h]

variable {d' : δ} {k : DataCb} {t : Bytes}

/-- A byte outside of texts, without events.  Nothing is heard of it. -/
theorem read_next (h : p.step ch = next q) : read st ⟨p, none, d⟩ ch = some ⟨q, none, d⟩ :=
  read_of_step (r := ⟨p, none, d⟩) h

/-- A text starts.  The byte is its first. -/
theorem read_mark (h : p.step ch = ⟨[.mark k], .next q⟩) :
    read st ⟨p, none, d⟩ ch = some ⟨q, some (k, [ch]), d⟩ :=
  read_of_step (r := ⟨p, none, d⟩) h

/-- A text is over.  The byte does not belong to it. -/
theorem read_data (h : p.step ch = ⟨[.data k], .next q⟩) (hd : st.onData k t d = some d') :
    read st ⟨p, some (k, t), d⟩ ch = some ⟨q, none, d'⟩ := by
  have hclose : event st ch (some (k, t), d) (.data k) = some (none, d') := by
    simp only [event, close, if_true, List.append_nil, hd]
    rfl
  rw [read_of_step (r := ⟨p, some (k, t), d⟩) h, List.foldlM_cons, hclose]
  rfl

/-- Events that come before those of another parser.  They are those of a `REEXECUTE`. -/
theorem read_after {evs : List Ev} (h : p.step ch = (q.step ch).after evs)
    (hevs : evs.foldlM (event st ch) (none, d) = some (none, d')) :
    read st ⟨p, none, d⟩ ch = read st ⟨q, none, d'⟩ ch := by
  rw [read, read]
  dsimp only
  rw [h]
  obtain ⟨es, out⟩ := q.step ch
  cases out with
  | next p₁ =>
      change ((evs ++ es).foldlM (event st ch) (none, d)).map _ = _
      rw [List.foldlM_append, hevs]
      rfl
  | exit p₁ => rfl
  | error e p₁ => rfl

/-- One other callback.  No text is open. -/
theorem read_note {n : NotifyCb} (h : p.step ch = ⟨[.note n], .next q⟩) :
    read st ⟨p, none, d⟩ ch = some ⟨q, none, st.onNotify n d⟩ :=
  read_of_step (r := ⟨p, none, d⟩) h

end Reader

/-- The same with another count of bytes.  Nothing but the overflow depends on it. -/
def counted (p : HttpParser) (n : ℕ) : HttpParser := { p with nread := n }

/-- A byte of a head that is not too long.  It is counted first. -/
theorem step_head (hs : p.state.parsingHeader = true) (hn : p.nread < maxHeaderSize) (ch : Byte) :
    p.step ch = (p.counted (p.nread + 1)).onByte ch := by
  rw [step, if_pos hs]
  exact if_neg (Nat.not_lt.2 hn)

/-- The same when the state is known.  It is spared a case split. -/
theorem step_at {s : State} (hp : p.state = s) (hs : s.parsingHeader = true)
    (hn : p.nread < maxHeaderSize) (ch : Byte) :
    p.step ch = ({ p with state := s, nread := p.nread + 1 } : HttpParser).onByte ch := by
  subst hp
  exact step_head hs hn ch

/-! ### Bytes without events -/

/-- Bytes without events: the parser after them.  None, if one of them has an event or fails. -/
def glide : HttpParser → Bytes → Option HttpParser
  | p, [] => some p
  | p, ch :: rest =>
    match p.step ch with
    | ⟨[], .next p⟩ => glide p rest
    | _ => none

/-- One byte without events, and the others. -/
theorem glide_of_step (h : p.step ch = next q) : p.glide (ch :: bs) = q.glide bs := by
  rw [glide, h]
  rfl

/-- The first byte has no event, and the others have none. -/
theorem glide_cons (h : p.glide (ch :: bs) = some q) :
    ∃ p', p.step ch = next p' ∧ p'.glide bs = some q := by
  rw [glide] at h
  split at h
  · next p' heq => exact ⟨p', heq, h⟩
  · cases h

/-- Some bytes without events, and then others. -/
theorem glide_append (bs bs' : Bytes) (p : HttpParser) :
    p.glide (bs ++ bs') = (p.glide bs).bind fun q => q.glide bs' := by
  induction bs generalizing p with
  | nil => rfl
  | cons ch bs ih =>
      rw [List.cons_append, glide, glide]
      split
      · exact ih _
      · rfl

/-- Such bytes only make the text longer.  The callbacks are not called. -/
theorem Reader.reads_of_glide (h : r.parser.glide bs = some q) :
    Reader.reads st bs r = some ⟨q, r.text.map fun t => (t.1, t.2 ++ bs), r.data⟩ := by
  induction bs generalizing r with
  | nil =>
      cases h
      obtain ⟨p, t, d⟩ := r
      cases t <;> simp
  | cons ch bs ih =>
      obtain ⟨p', hstep, hrest⟩ := glide_cons h
      rw [reads_cons, read_of_step hstep]
      change reads st bs ⟨p', r.text.map fun t => (t.1, t.2 ++ [ch]), r.data⟩ = _
      rw [ih hrest, Option.map_map]
      congr 3
      funext t
      simp

/-! ### What a reader does, the loop does -/

/-- The text from a mark on.  It is what the loop will report for the mark. -/
def Carries (data : Bytes) (pos : ℕ) (m : Option (DataCb × ℕ)) (t : Option (DataCb × Bytes)) : Prop :=
  (∀ x ∈ m, x.2 ≤ pos) ∧ t = m.map fun x => (x.1, slice data x.2 pos)

/-- A text with the next byte. -/
theorem slice_succ {a : ℕ} (h : a ≤ pre.length) :
    slice (pre ++ ch :: rest) a (pre.length + 1) = slice (pre ++ ch :: rest) a pre.length ++ [ch] := by
  have htake : ∀ n, slice (pre ++ ch :: rest) a (pre.length + n) = pre.drop a ++ (ch :: rest).take n := by
    intro n
    have hdrop : (pre.drop a).length = pre.length - a := List.length_drop
    rw [slice, List.drop_append_of_le_length h, List.take_append, hdrop,
      List.take_of_length_le (by omega), show pre.length + n - a - (pre.length - a) = n by omega]
  have hzero := htake 0
  rw [Nat.add_zero, List.take_zero, List.append_nil] at hzero
  rw [htake 1, hzero]
  rfl

/-- Without a mark there is no text. -/
theorem carries_none (data : Bytes) (pos : ℕ) : Carries data pos none none := by
  refine ⟨fun x h => ?_, rfl⟩
  cases h

/-- One event does the same with places and with texts. -/
theorem event_apply {pos : ℕ} {e : Ev} {t t' : Option (DataCb × Bytes)} {d d' : δ}
    (hdata : data = pre ++ ch :: rest) (hpos : pre.length = pos) (hm : Carries data pos m t)
    (h : Reader.event st ch (t, d) e = some (t', d')) :
    st.notify data (e.apply pos m).1 d = (d', none) ∧ Carries data pos (e.apply pos m).2 t' := by
  subst hdata hpos
  obtain ⟨hle, rfl⟩ := hm
  cases e with
  | note n =>
      cases h
      exact ⟨rfl, hle, rfl⟩
  | mark k =>
      cases h
      cases m with
      | none =>
          refine ⟨rfl, ?_, ?_⟩
          · rintro x ⟨⟩
            exact le_rfl
          · simp [Event.apply, slice]
      | some x => exact ⟨rfl, hle, rfl⟩
  | data k =>
      cases m with
      | none =>
          cases h
          exact ⟨rfl, carries_none _ _⟩
      | some x =>
          obtain ⟨k', a⟩ := x
          rw [Reader.event, Reader.close] at h
          rw [Event.apply]
          dsimp only [Option.map_some] at h ⊢
          split_ifs at h ⊢ with hk
          · rw [List.append_nil] at h
            obtain ⟨d₁, hd₁, heq⟩ := Option.map_eq_some_iff.1 h
            cases heq
            rw [Settings.notify, hd₁]
            exact ⟨rfl, carries_none _ _⟩
          · cases h
            exact ⟨rfl, hle, rfl⟩
  | through k =>
      cases m with
      | none =>
          cases h
          exact ⟨rfl, carries_none _ _⟩
      | some x =>
          obtain ⟨k', a⟩ := x
          rw [Reader.event, Reader.close] at h
          rw [Event.apply]
          dsimp only [Option.map_some] at h ⊢
          split_ifs at h ⊢ with hk
          · rw [← slice_succ (hle _ rfl)] at h
            obtain ⟨d₁, hd₁, heq⟩ := Option.map_eq_some_iff.1 h
            cases heq
            rw [Settings.notify, hd₁]
            exact ⟨rfl, carries_none _ _⟩
          · cases h
            exact ⟨rfl, hle, rfl⟩

/-- Events do the same with places and with texts. -/
theorem event_applyAll {pos : ℕ} {evs : List Ev} {t t' : Option (DataCb × Bytes)} {d d' : δ}
    (hdata : data = pre ++ ch :: rest) (hpos : pre.length = pos) (hm : Carries data pos m t)
    (h : evs.foldlM (Reader.event st ch) (t, d) = some (t', d')) :
    st.notify data (applyAll pos evs m).1 d = (d', none) ∧
      Carries data pos (applyAll pos evs m).2 t' := by
  induction evs generalizing m t d with
  | nil =>
      cases h
      exact ⟨rfl, hm⟩
  | cons e evs ih =>
      rw [List.foldlM_cons] at h
      obtain ⟨⟨t₁, d₁⟩, hone, h⟩ := Option.bind_eq_some_iff.1 h
      obtain ⟨hdone, hm₁⟩ := event_apply hdata hpos hm hone
      obtain ⟨hrest, hm'⟩ := ih hm₁ h
      rw [applyAll]
      refine ⟨?_, hm'⟩
      rw [notify_append, hdone]
      exact hrest

/-- **The loop on places is the reader of texts**, as long as the reader goes on.  The induction
is over the bytes. -/
theorem loop_reads {pos : ℕ} (hdata : data = pre ++ bs ++ rest) (hpos : pre.length = pos)
    (hm : Carries data pos m r.text) (h : Reader.reads st bs r = some r') :
    ∃ m', Carries data (pos + bs.length) m' r'.text ∧
      loop st data (bs ++ rest) pos r.parser m r.data =
        loop st data rest (pos + bs.length) r'.parser m' r'.data := by
  induction bs generalizing r pos pre m with
  | nil =>
      cases h
      exact ⟨m, hm, rfl⟩
  | cons ch bs ih =>
      rw [Reader.reads_cons, Option.bind_eq_some_iff] at h
      obtain ⟨r₁, hone, h⟩ := h
      rw [Reader.read] at hone
      split at hone
      · next evs p heq =>
          obtain ⟨⟨t₁, d₁⟩, hevs, rfl⟩ := Option.map_eq_some_iff.1 hone
          have hdata' : data = pre ++ ch :: (bs ++ rest) := by
            rw [hdata, List.append_assoc, List.cons_append]
          obtain ⟨hdone, hle, rfl⟩ := event_applyAll hdata' hpos hm hevs
          have hm₁ : Carries data (pos + 1) (applyAll pos evs m).2
              (((applyAll pos evs m).2.map fun x => (x.1, slice data x.2 pos)).map fun t =>
                (t.1, t.2 ++ [ch])) := by
            refine ⟨fun x hx => Nat.le_succ_of_le (hle x hx), ?_⟩
            rw [Option.map_map]
            refine Option.map_congr fun x hx => ?_
            rw [Function.comp_apply, hdata', ← hpos, slice_succ (hpos ▸ hle x hx)]
          have hpre : (pre ++ [ch]).length = pos + 1 := by
            rw [List.length_append, hpos, List.length_singleton]
          obtain ⟨m', hm', hloop⟩ := ih (by rw [hdata]; simp) hpre hm₁ h
          refine ⟨m', ?_, ?_⟩
          · rwa [List.length_cons, Nat.add_comm bs.length, ← Nat.add_assoc]
          · rw [List.cons_append, loop, heq, hdone, List.length_cons, Nat.add_comm bs.length,
              ← Nat.add_assoc]
            exact hloop
      · cases hone

/-- A call, when the bytes can be read and the text behind them can be handed over.  The text
behind them is handed over at the end of the call. -/
theorem execute_reads {d d' : δ} (hbs : bs ≠ [])
    (h : Reader.reads st bs ⟨p, p.reopen.map (·, []), d⟩ = some r') (hflush : r'.flush st = some d') :
    p.execute st none bs d = ⟨r'.parser, none, d', bs.length⟩ := by
  have hm : Carries bs 0 (p.reopen.map (·, 0)) (p.reopen.map (·, [])) := by
    cases p.reopen with
    | none => exact carries_none _ _
    | some k =>
        refine ⟨?_, rfl⟩
        rintro x ⟨⟩
        exact le_rfl
  obtain ⟨m', ⟨-, hm'⟩, hloop⟩ := loop_reads (show bs = [] ++ bs ++ [] by simp) rfl hm h
  have hexec : p.execute st none bs d = loop st bs bs 0 p (p.reopen.map (·, 0)) d := by
    simp only [execute, Option.isSome_none, Bool.false_eq_true, if_false, if_neg hbs]
  rw [List.append_nil, List.length_nil, Nat.zero_add] at hloop
  rw [List.length_nil, Nat.zero_add] at hm'
  rw [hexec, hloop, loop]
  rw [Reader.flush] at hflush
  obtain ⟨q, t, d₁⟩ := r'
  cases m' with
  | none =>
      cases hm'
      cases hflush
      rfl
  | some x =>
      cases hm'
      dsimp only at hflush
      rw [Scanner.flush, Settings.notify, hflush]
      rfl

end HttpParser

end Hiper

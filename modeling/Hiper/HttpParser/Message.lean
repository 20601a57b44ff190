import Hiper.HttpParser.Execute
import Hiper.HttpParser.Law

/-!
# Complete messages

A message is complete with the byte that runs `on_message_complete`; a response
whose body goes on until the connection is closed is complete wherever it stands.
Calls on the pieces of a message run the callbacks of one call, with the texts in
pieces (`executes_eq`), and those of the first line come first (`call_of_isMessage`).

The calls are those of `src/hiper/http/http-parser/http_parser.cc:638`.  A message that ends
with one of its bytes may be followed by others, in calls of their own; `IsMessage` speaks
about the bytes of one message, which may come in any number of calls.  `Calm` is what holds
between the calls.
-/

namespace Hiper

namespace HttpParser

open Lib Lib.Scanner

variable {δ : Type*} {st : Settings δ} {p p' q : HttpParser} {bs xs ys : Bytes} {es : List Ev}
  {π π' : Part} {e : Ev} {R W : List Rep} {pos : ℕ} {m m' : Option (DataCb × ℕ)} {ch : Byte} {d : δ}

/-- `on_message_complete`, as an event. -/
abbrev messageComplete : Ev := .note .messageComplete

/-- The last of these events ends the message.  It is reported once. -/
def finishes (evs : List Ev) : Bool :=
  evs.getLast? == some messageComplete && !evs.dropLast.contains messageComplete

/-- Bytes that do not end the message, and the parser after them.  None, if one of them does or
fails. -/
def quietly : HttpParser → Bytes → Option HttpParser
  | p, [] => some p
  | p, ch :: rest =>
    match p.step ch with
    | ⟨evs, .next p⟩ => if evs.contains messageComplete then none else quietly p rest
    | _ => none

/-- The bytes are a message that ends with the last of them.  No byte before the last ends it. -/
def completes (p : HttpParser) (bs : Bytes) : Bool :=
  match p.quietly bs.dropLast, bs.getLast? with
  | some p, some ch =>
    match p.step ch with
    | ⟨evs, .next _⟩ | ⟨evs, .exit _⟩ => finishes evs
    | ⟨_, .error _ _⟩ => false
  | _, _ => false

/-- The bytes are a message whose body goes on until the connection is closed.  It is over when
the connection is. -/
def untilEof (p : HttpParser) (bs : Bytes) : Bool :=
  (p.quietly bs).any fun p => p.state == .bodyIdentityEof

/-- The bytes are a complete message.  Of the one kind or of the other. -/
def IsMessage (p : HttpParser) (bs : Bytes) : Prop := p.completes bs = true ∨ p.untilEof bs = true

/-! ### Quiet bytes -/

/-- The first byte is quiet, and the others are. -/
theorem quietly_cons : p.quietly (ch :: bs) = some q ↔
    ∃ evs p₁, p.step ch = ⟨evs, .next p₁⟩ ∧ messageComplete ∉ evs ∧ p₁.quietly bs = some q := by
  rw [quietly]
  split
  · next evs p₁ heq =>
      rw [heq]
      split_ifs with hmc
      · simp only [List.contains_iff_mem] at hmc
        simp [hmc]
      · simp only [List.contains_iff_mem] at hmc
        simp [hmc]
  · next hne =>
      refine ⟨nofun, ?_⟩
      rintro ⟨evs, p₁, heq, -, -⟩
      exact absurd heq (hne evs p₁)

/-- Some bytes are quiet, and then others. -/
theorem quietly_append (xs ys : Bytes) (p : HttpParser) :
    p.quietly (xs ++ ys) = (p.quietly xs).bind fun q => q.quietly ys := by
  induction xs generalizing p with
  | nil => rfl
  | cons ch xs ih =>
      rw [List.cons_append, quietly, quietly]
      split
      · split_ifs
        · rfl
        · exact ih _
      · rfl

/-- A byte without an error is a step of the scanner. -/
theorem scanner_step_of_next {evs : List Ev} (h : p.step ch = ⟨evs, .next q⟩) :
    scanner.step p ch = some (evs, q) := by
  change (match p.step ch with
    | ⟨evs, .next q⟩ | ⟨evs, .exit q⟩ => some (evs, q)
    | ⟨_, .error _ _⟩ => none) = some (evs, q)
  rw [h]

/-- On quiet bytes the parser does not return. -/
theorem unbroken_of_quietly (h : p.quietly bs = some q) : p.unbroken bs = true := by
  induction bs generalizing p with
  | nil => rfl
  | cons ch bs ih =>
      obtain ⟨evs, p₁, hstep, -, hrest⟩ := quietly_cons.1 h
      rw [unbroken, hstep]
      exact ih hrest

/-- Behind quiet bytes the parser is steady when it is from there. -/
theorem steady_of_quietly (h : p.quietly xs = some q) : p.steady (xs ++ ys) = q.steady ys := by
  induction xs generalizing p with
  | nil =>
      cases h
      rfl
  | cons ch xs ih =>
      obtain ⟨evs, p₁, hstep, -, hrest⟩ := quietly_cons.1 h
      rw [List.cons_append, steady, hstep]
      exact ih hrest

/-- On quiet bytes the parser is steady. -/
theorem steady_of_quietly_self (h : p.quietly bs = some q) : p.steady bs = true := by
  have hsteady : p.steady (bs ++ []) = true := steady_of_quietly h
  rwa [List.append_nil] at hsteady

/-! ### Where a message is cut -/

/-- The end of the message is the last event, and no other. -/
theorem finishes_iff : finishes es = true ↔
    ∃ es', es = es' ++ [messageComplete] ∧ messageComplete ∉ es' := by
  rw [finishes, Bool.and_eq_true, beq_iff_eq, Bool.not_eq_true', List.contains_eq_mem,
    decide_eq_false_iff_not]
  constructor
  · rintro ⟨hlast, hmc⟩
    obtain ⟨es', rfl⟩ := List.getLast?_eq_some_iff.1 hlast
    rw [List.dropLast_concat] at hmc
    exact ⟨es', rfl, hmc⟩
  · rintro ⟨es', rfl, hmc⟩
    rw [List.getLast?_concat, List.dropLast_concat]
    exact ⟨rfl, hmc⟩

/-- A message that ends is quiet bytes, and one that ends it. -/
theorem last_of_completes (h : p.completes bs = true) : ∃ xs ch q es p', bs = xs ++ [ch] ∧
    p.quietly xs = some q ∧ q.steady [ch] = true ∧
      scanner.step q ch = some (es ++ [messageComplete], p') ∧ messageComplete ∉ es := by
  rw [completes] at h
  split at h
  · next q ch hq hch =>
      obtain ⟨xs, rfl⟩ := List.getLast?_eq_some_iff.1 hch
      rw [List.dropLast_concat] at hq
      refine ⟨xs, ch, q, ?_⟩
      rw [steady]
      change ∃ es p', xs ++ [ch] = xs ++ [ch] ∧ p.quietly xs = some q ∧ _ ∧
        (match q.step ch with
          | ⟨evs, .next q⟩ | ⟨evs, .exit q⟩ => some (evs, q)
          | ⟨_, .error _ _⟩ => none) = some (es ++ [messageComplete], p') ∧ _
      generalize q.step ch = one at h
      obtain ⟨evs, out⟩ := one
      cases out with
      | next p' =>
          obtain ⟨es, rfl, hmc⟩ := finishes_iff.1 h
          exact ⟨es, p', rfl, hq, rfl, rfl, hmc⟩
      | exit p' =>
          obtain ⟨es, rfl, hmc⟩ := finishes_iff.1 h
          exact ⟨es, p', rfl, hq, rfl, rfl, hmc⟩
      | error e p' => cases h
  · cases h

/-- What stands before a cut is quiet, and the message goes on behind it.  The cut is inside the
message. -/
theorem completes_split (h : p.completes (xs ++ ys) = true) (hys : ys ≠ []) :
    ∃ q, p.quietly xs = some q ∧ q.completes ys = true := by
  rw [completes, List.dropLast_append_of_ne_nil hys, List.getLast?_append_of_ne_nil _ hys,
    quietly_append] at h
  cases hq : p.quietly xs with
  | none =>
      rw [hq] at h
      cases h
  | some q =>
      rw [hq, Option.bind_some] at h
      exact ⟨q, rfl, h⟩

/-- The same of messages of both kinds. -/
theorem IsMessage.split (h : p.IsMessage (xs ++ ys)) (hys : ys ≠ []) :
    ∃ q, p.quietly xs = some q ∧ q.IsMessage ys := by
  rcases h with h | h
  · obtain ⟨q, hq, hcompletes⟩ := completes_split h hys
    exact ⟨q, hq, Or.inl hcompletes⟩
  · rw [untilEof, quietly_append] at h
    cases hq : p.quietly xs with
    | none =>
        rw [hq] at h
        cases h
    | some q =>
        rw [hq, Option.bind_some] at h
        exact ⟨q, rfl, Or.inr h⟩

/-! ### The parts of a message, in order -/

/-- The text or the note belongs to the first line.  The URL and the reason. -/
def DataCb.inLine : DataCb → Bool
  | url | status _ => true
  | _ => false

/-- The note belongs to the first line. -/
def NotifyCb.inLine : NotifyCb → Bool
  | messageBegin => true
  | _ => false

/-- The event belongs to the first line. -/
def evInLine : Ev → Bool
  | .mark k | .data k | .through k => k.inLine
  | .note n => n.inLine

/-- The report belongs to the first line. -/
def repInLine : Rep → Bool
  | .text k _ _ => k.inLine
  | .note n => n.inLine

/-- Before the end of the message, the first line is left for good.  By cases on the part and
the event. -/
theorem Part.inLine_of_after (h : π.after e = some π') (he : e ≠ messageComplete) :
    (evInLine e = true ∧ π = .line) ∨ (evInLine e = false ∧ π ≠ .line ∧ π' ≠ .line) := by
  cases π with
  | line =>
      refine Or.inl ⟨?_, rfl⟩
      cases e with
      | mark k => cases k <;> first | rfl | cases h
      | data k => cases k <;> first | rfl | cases h
      | through k => cases k <;> cases h
      | note n => cases n <;> first | rfl | cases h
  | head =>
      right
      cases e with
      | mark k => cases k <;> cases h <;> exact ⟨rfl, nofun, nofun⟩
      | data k => cases k <;> cases h <;> exact ⟨rfl, nofun, nofun⟩
      | through k => cases k <;> cases h
      | note n =>
          cases n <;> cases h
          exact ⟨rfl, nofun, nofun⟩
  | rest =>
      right
      cases e with
      | mark k => cases k <;> cases h <;> exact ⟨rfl, nofun, nofun⟩
      | data k => cases k <;> cases h <;> exact ⟨rfl, nofun, nofun⟩
      | through k =>
          cases k <;> cases h
          exact ⟨rfl, nofun, nofun⟩
      | note n => cases n <;> cases h <;> first | exact absurd rfl he | exact ⟨rfl, nofun, nofun⟩

/-- Nothing of the first line comes behind anything else.  Of a list of reports it says so by
their parts. -/
abbrev LineFirst (fs : List Bool) : Prop := fs.Pairwise fun a b => b = true → a = true

/-- Events that keep the order of the parts have the first line first. -/
theorem Part.lineFirst (h : afterAll es π = some π') (hmc : messageComplete ∉ es) :
    LineFirst (es.map evInLine) ∧ (π ≠ .line → ∀ e ∈ es, evInLine e = false) := by
  induction es generalizing π with
  | nil => exact ⟨List.Pairwise.nil, nofun⟩
  | cons e es ih =>
      rw [afterAll, Option.bind_eq_some_iff] at h
      obtain ⟨π₁, he, h⟩ := h
      obtain ⟨hpair, hfalse⟩ := ih h fun hmem => hmc (List.mem_cons_of_mem _ hmem)
      have hne : e ≠ messageComplete := fun heq => hmc (heq ▸ List.mem_cons_self ..)
      rcases inLine_of_after he hne with ⟨htrue, rfl⟩ | ⟨hef, hπ, hπ₁⟩
      · exact ⟨List.pairwise_cons.2 ⟨fun _ _ _ => htrue, hpair⟩, fun hne => absurd rfl hne⟩
      · have hall : ∀ x ∈ e :: es, evInLine x = false := by
          intro x hx
          rcases List.mem_cons.1 hx with rfl | hx
          · exact hef
          · exact hfalse hπ₁ x hx
        refine ⟨List.pairwise_cons.2 ⟨fun b hb hb' => ?_, hpair⟩, fun _ => hall⟩
        obtain ⟨x, hx, rfl⟩ := List.mem_map.1 hb
        rw [hfalse hπ₁ x hx] at hb'
        cases hb'

/-- In the last part the head is complete already.  So it is reported once. -/
theorem Part.rest_of_afterAll (h : afterAll es .rest = some π') (hmc : messageComplete ∉ es) :
    π' = .rest ∧ ∀ hd, Event.note (.headersComplete hd) ∉ es := by
  induction es with
  | nil =>
      cases h
      exact ⟨rfl, fun _ => List.not_mem_nil⟩
  | cons e es ih =>
      rw [afterAll, Option.bind_eq_some_iff] at h
      obtain ⟨π₁, he, h⟩ := h
      have hne : e ≠ messageComplete := fun heq => hmc (heq ▸ List.mem_cons_self ..)
      have hrest : π₁ = .rest ∧ ∀ hd, e ≠ .note (.headersComplete hd) := by
        cases e with
        | mark k => cases k <;> cases he <;> exact ⟨rfl, fun _ h => by cases h⟩
        | data k => cases k <;> cases he <;> exact ⟨rfl, fun _ h => by cases h⟩
        | through k =>
            cases k <;> cases he
            exact ⟨rfl, fun _ h => by cases h⟩
        | note n =>
            cases n <;> cases he <;>
              first | exact absurd rfl hne | exact ⟨rfl, fun _ h => by cases h⟩
      obtain ⟨rfl, hnot⟩ := hrest
      obtain ⟨hπ', hes⟩ := ih h fun hmem => hmc (List.mem_cons_of_mem _ hmem)
      refine ⟨hπ', fun hd hmem => ?_⟩
      rcases List.mem_cons.1 hmem with heq | hmem
      · exact hnot hd heq.symm
      · exact hes hd hmem

/-- Behind the end of the head the last part has begun. -/
theorem Part.rest_of_headersComplete {hd : Head} (h : afterAll es π = some π')
    (hmc : messageComplete ∉ es) (hhd : Event.note (.headersComplete hd) ∈ es) : π' = .rest := by
  induction es generalizing π with
  | nil => cases hhd
  | cons e es ih =>
      rw [afterAll, Option.bind_eq_some_iff] at h
      obtain ⟨π₁, he, h⟩ := h
      have hmc' : messageComplete ∉ es := fun hmem => hmc (List.mem_cons_of_mem _ hmem)
      rcases List.mem_cons.1 hhd with rfl | hhd
      · have hrest : π₁ = .rest := by
          cases π <;> cases he
          rfl
        subst hrest
        exact (rest_of_afterAll h hmc').1
      · exact ih h hmc' hhd

/-! ### The reports of a message -/

/-- A report is in the first line only if its event is. -/
theorem inLine_of_apply (pos : ℕ) (e : Ev) (m : Option (DataCb × ℕ)) :
    ((e.apply pos m).1.map repInLine).Sublist [evInLine e] := by
  cases e with
  | mark k => exact List.nil_sublist _
  | note n => exact List.Sublist.refl _
  | data k | through k =>
      cases m with
      | none => exact List.nil_sublist _
      | some x =>
          rw [Event.apply]
          split_ifs
          · exact List.Sublist.refl _
          · exact List.nil_sublist _

/-- Every report comes with an event.  In the order of the events. -/
theorem inLine_of_applyAll (pos : ℕ) (es : List Ev) (m : Option (DataCb × ℕ)) :
    ((applyAll pos es m).1.map repInLine).Sublist (es.map evInLine) := by
  induction es generalizing m with
  | nil => exact List.nil_sublist _
  | cons e es ih =>
      rw [applyAll, List.map_append]
      exact (inLine_of_apply pos e m).append (ih _)

/-- The head is complete, if `upgrade` is set, and no trailing headers come early.  It holds of
a new parser, and behind quiet bytes. -/
structure Calm (p : HttpParser) : Prop where
  tidy : p.view.tidy = true
  upgrade : p.upgrade = true → p.view.part = .rest

/-- A new parser is calm. -/
theorem calm_init (t : ParserType) : (init t).Calm := by
  cases t <;> exact ⟨rfl, nofun⟩

/-- What quiet bytes do: the parts they go through, `upgrade`, and what is reported.  The events
are in the order of the parts. -/
structure Quiet (p : HttpParser) (bs : Bytes) (q : HttpParser) (es : List Ev) : Prop where
  calm : q.Calm
  parts : Part.afterAll es p.view.part = some q.view.part
  notDone : messageComplete ∉ es
  upgrade : p.upgrade = true → q.upgrade = true
  reports : ∀ pos m, ∃ R m', scanner.scan bs p pos m = some (R, q, m') ∧
    (R.map repInLine).Sublist (es.map evInLine)

/-- Behind the head `upgrade` stays as it is. -/
theorem upgrade_of_parts {v v' : View} (h : v.Parts es v') (hrest : v.part = .rest)
    (hmc : messageComplete ∉ es) : v'.upgrade = v.upgrade := by
  have hpart := h.part
  rw [hrest] at hpart
  rcases h.upgrade with h | ⟨hd, hmem⟩
  · exact h
  · exact absurd hmem ((Part.rest_of_afterAll hpart hmc).2 hd)

/-- Quiet bytes of a calm parser have events.  The induction is over the bytes. -/
theorem quiet_of_quietly (hcalm : p.Calm) (h : p.quietly bs = some q) : ∃ es, p.Quiet bs q es := by
  induction bs generalizing p with
  | nil =>
      cases h
      exact ⟨[], hcalm, rfl, List.not_mem_nil, id, fun pos m => ⟨[], m, rfl, List.nil_sublist _⟩⟩
  | cons ch bs ih =>
      obtain ⟨evs, p₁, hstep, hmc, hrest⟩ := quietly_cons.1 h
      have hscan := scanner_step_of_next hstep
      have hparts := parts_of_step hcalm.tidy hscan
      have hup : p.upgrade = true → p₁.upgrade = true := by
        intro hu
        have heq := upgrade_of_parts hparts (hcalm.upgrade hu) hmc
        exact heq.trans hu
      have hcalm₁ : p₁.Calm := by
        refine ⟨hparts.tidy, fun hu => ?_⟩
        rcases hparts.upgrade with heq | ⟨hd, hhd⟩
        · have hpart := hparts.part
          rw [hcalm.upgrade (heq.symm.trans hu)] at hpart
          exact (Part.rest_of_afterAll hpart hmc).1
        · exact Part.rest_of_headersComplete hparts.part hmc hhd
      obtain ⟨es, hes⟩ := ih hcalm₁ hrest
      refine ⟨evs ++ es, hes.calm, ?_, ?_, fun hu => hes.upgrade (hup hu), fun pos m => ?_⟩
      · rw [Part.afterAll_append, hparts.part, Option.bind_some, hes.parts]
      · rw [List.mem_append]
        exact not_or.2 ⟨hmc, hes.notDone⟩
      · obtain ⟨R, m', hR, hsub⟩ := hes.reports (pos + 1) (applyAll pos evs m).2
        refine ⟨(applyAll pos evs m).1 ++ R, m', ?_, ?_⟩
        · rw [Scanner.scan, hscan, Option.bind_some]
          dsimp only
          rw [hR, Option.map_some]
        · rw [List.map_append, List.map_append]
          exact (inLine_of_applyAll pos evs m).append hsub

/-- What one call on a message does.  The parser behind it, and the reports. -/
structure Call (p : HttpParser) (bs : Bytes) (p' : HttpParser) (W : List Rep) : Prop where
  steady : p.steady bs = true
  upgrade : p.upgrade = true → p'.upgrade = true
  scan : ∃ R m', scanner.scan bs p 0 (p.reopen.map (·, 0)) = some (R, p', m') ∧
    W = R ++ flush bs.length m' ∧ (m' ≠ none → p.unbroken bs = true)
  lineFirst : LineFirst (W.map repInLine)

/-- Something that is not of the first line may come last. -/
theorem lineFirst_concat {fs : List Bool} (h : LineFirst fs) : LineFirst (fs ++ [false]) :=
  List.pairwise_append.2 ⟨h, List.pairwise_singleton .., fun _ _ b hb hb' => by
    rw [List.mem_singleton.1 hb] at hb'
    cases hb'⟩

/-- **A call on a message.**  The parser is calm before it. -/
theorem call_of_isMessage (hcalm : p.Calm) (h : p.IsMessage bs) : ∃ p' W, p.Call bs p' W := by
  rcases h with h | h
  · obtain ⟨xs, ch, q, es, p', rfl, hq, hsteady, hstep, hmc⟩ := last_of_completes h
    obtain ⟨es₀, hquiet⟩ := quiet_of_quietly hcalm hq
    obtain ⟨R, m, hR, hsub⟩ := hquiet.reports 0 (p.reopen.map (·, 0))
    have hparts := parts_of_step hquiet.calm.tidy hstep
    have hm := scan_note_last scanner_lawful hcalm.tidy hR hstep
    rw [Nat.zero_add] at hm
    have hpart : ∃ π, Part.afterAll es q.view.part = some π := by
      have hpart := hparts.part
      rw [Part.afterAll_append, Option.bind_eq_some_iff] at hpart
      obtain ⟨π, hπ, -⟩ := hpart
      exact ⟨π, hπ⟩
    obtain ⟨π, hπ⟩ := hpart
    refine ⟨p', _, ?_, ?_, ⟨R ++ (applyAll xs.length (es ++ [messageComplete]) m).1, none, ?_, rfl,
      fun hne => absurd rfl hne⟩, ?_⟩
    · rw [steady_of_quietly hq]
      exact hsteady
    · intro hu
      have hqu := hquiet.upgrade hu
      rcases hparts.upgrade with heq | ⟨hd, hhd⟩
      · exact heq.trans hqu
      · rw [hquiet.calm.upgrade hqu] at hπ
        rcases List.mem_append.1 hhd with hhd | hhd
        · exact absurd hhd ((Part.rest_of_afterAll hπ hmc).2 hd)
        · cases List.mem_singleton.1 hhd
    · rw [scan_append, hR, Option.bind_some, Nat.zero_add]
      dsimp only
      rw [Scanner.scan, hstep, Option.bind_some]
      dsimp only
      rw [hm, Scanner.scan, Option.map_some, List.append_nil]
      rfl
    · rw [flush, List.append_nil, List.map_append]
      have hafter : Part.afterAll (es₀ ++ es) p.view.part = some π := by
        rw [Part.afterAll_append, hquiet.parts, Option.bind_some, hπ]
      have hline := Part.lineFirst hafter (by
        rw [List.mem_append]
        exact not_or.2 ⟨hquiet.notDone, hmc⟩)
      refine (lineFirst_concat hline.1).sublist ?_
      rw [List.map_append, List.append_assoc]
      refine hsub.append ?_
      have happly := inLine_of_applyAll xs.length (es ++ [messageComplete]) m
      rw [List.map_append] at happly
      exact happly
  · rw [untilEof, Option.any_eq_true] at h
    obtain ⟨q, hq, hstate⟩ := h
    obtain ⟨es, hquiet⟩ := quiet_of_quietly hcalm hq
    obtain ⟨R, m, hR, hsub⟩ := hquiet.reports 0 (p.reopen.map (·, 0))
    have hline := (Part.lineFirst hquiet.parts hquiet.notDone).1
    refine ⟨q, _, ?_, hquiet.upgrade, ⟨R, m, hR, rfl, fun _ => unbroken_of_quietly hq⟩, ?_⟩
    · exact steady_of_quietly_self hq
    · rw [List.map_append]
      have hq' : q.reopen = none ∧ q.loose = some .body := by
        rw [beq_iff_eq] at hstate
        rw [reopen, loose, hstate]
        exact ⟨rfl, rfl⟩
      rcases scan_mark scanner_lawful hcalm.tidy hR with rfl | ⟨k, a, rfl, hk⟩
      · rw [flush, List.map_nil, List.append_nil]
        exact hline.sublist hsub
      · have hbody : k = .body := by
          rcases hk with hk | hk
          · exact absurd (hq'.1.symm.trans hk) (fun h => by cases h)
          · exact Option.some.inj (hk.symm.trans hq'.2)
        subst hbody
        exact lineFirst_concat (hline.sublist hsub)

/-- A note is reported. -/
theorem note_mem_applyAll {n : NotifyCb} (h : Event.note n ∈ es) :
    Report.note n ∈ (applyAll pos es m).1 := by
  induction es generalizing m with
  | nil => cases h
  | cons e es ih =>
      rw [applyAll, List.mem_append]
      rcases List.mem_cons.1 h with rfl | h
      · exact Or.inl (List.mem_singleton_self _)
      · exact Or.inr (ih h)

/-- A message that ends is reported to end.  It is the last report. -/
theorem ends_of_completes (hcalm : p.Calm) (h : p.completes bs = true)
    (hcall : scanner.call bs p pos = some (W, p')) : Report.note .messageComplete ∈ W := by
  obtain ⟨xs, ch, q, es, p₁, rfl, hq, -, hstep, -⟩ := last_of_completes h
  obtain ⟨es₀, hquiet⟩ := quiet_of_quietly hcalm hq
  obtain ⟨R, m, hR, -⟩ := hquiet.reports pos (p.reopen.map (·, pos))
  obtain ⟨⟨W₁, p₂, m₂⟩, hscan, heq⟩ := Option.map_eq_some_iff.1 hcall
  cases heq
  change scanner.scan (xs ++ [ch]) p pos (p.reopen.map (·, pos)) = _ at hscan
  rw [scan_append, hR, Option.bind_some] at hscan
  dsimp only at hscan
  rw [Scanner.scan, hstep, Option.bind_some] at hscan
  cases hscan
  have hmem : Event.note .messageComplete ∈ es ++ [messageComplete] :=
    List.mem_append_right _ (List.mem_singleton_self _)
  refine List.mem_append_left _ (List.mem_append_right _ (List.mem_append_left _ ?_))
  exact note_mem_applyAll hmem

/-- A note is reported by its event. -/
theorem note_of_apply {n : NotifyCb} (h : Report.note n ∈ (e.apply pos m).1) : e = .note n := by
  cases e with
  | mark k => cases h
  | note n' =>
      cases List.mem_singleton.1 h
      rfl
  | data k | through k =>
      cases m with
      | none => cases h
      | some x =>
          rw [Event.apply] at h
          split_ifs at h
          · cases List.mem_singleton.1 h
          · cases h

/-- A note is reported by one of the events. -/
theorem note_of_applyAll {n : NotifyCb} (h : Report.note n ∈ (applyAll pos es m).1) :
    Event.note n ∈ es := by
  induction es generalizing m with
  | nil => cases h
  | cons e es ih =>
      rcases List.mem_append.1 h with h | h
      · rw [note_of_apply h]
        exact List.mem_cons_self ..
      · exact List.mem_cons_of_mem _ (ih h)

/-- Quiet bytes are not reported to end the message.  The notes are those of the events. -/
theorem not_ends_of_quietly (h : p.quietly bs = some q)
    (hcall : scanner.call bs p pos = some (W, p')) : Report.note .messageComplete ∉ W := by
  obtain ⟨⟨R, p₁, m'⟩, hscan, heq⟩ := Option.map_eq_some_iff.1 hcall
  cases heq
  have hR : Report.note .messageComplete ∉ R := by
    clear hcall
    generalize (scanner.reopen p).map (fun k => (k, pos)) = m at hscan
    induction bs generalizing p pos m R with
    | nil =>
        cases hscan
        exact List.not_mem_nil
    | cons ch bs ih =>
        obtain ⟨evs, p₂, hstep, hmc, hrest⟩ := quietly_cons.1 h
        rw [Scanner.scan, scanner_step_of_next hstep, Option.bind_some] at hscan
        obtain ⟨⟨R', p₃, m₃⟩, hscan', heq⟩ := Option.map_eq_some_iff.1 hscan
        cases heq
        rw [List.mem_append]
        exact not_or.2 ⟨fun hmem => hmc (note_of_applyAll hmem), ih hrest _ _ hscan'⟩
  rw [List.mem_append]
  refine not_or.2 ⟨hR, fun hmem => ?_⟩
  dsimp only at hmem
  cases m' with
  | none => cases hmem
  | some x => cases List.mem_singleton.1 hmem

/-! ### Calls on the pieces of a message -/

/-- A call on some of the data, at the place where they stand in all of them. -/
theorem execute_at (st : Settings δ) (pre post : Bytes) (hbs : bs ≠ []) (hsteady : p.steady bs = true)
    (hscan : scanner.scan bs p 0 (p.reopen.map (·, 0)) = some (W, q, m'))
    (hopen : m' ≠ none → p.unbroken bs = true)
    (hcall : scanner.call bs p pre.length = some (R, p')) (d : δ) :
    p' = q ∧ (p.execute st none bs d).Leaves (st.notify (pre ++ bs ++ post) R d) q bs.length := by
  have hlocal : scanner.call bs p 0 = some (W ++ flush bs.length m', q) := by
    rw [call]
    change (scanner.scan bs p 0 (p.reopen.map (·, 0))).map _ = _
    rw [hscan, Option.map_some, Nat.zero_add]
  have hshift := call_shift scanner pre.length bs p 0
  rw [Nat.add_zero, hcall, hlocal, Option.map_some, Option.some_inj, Prod.mk.injEq] at hshift
  obtain ⟨rfl, rfl⟩ := hshift
  refine ⟨rfl, ?_⟩
  rw [notify_shift pre bs post fun r hr => by simpa using within_of_call scanner hlocal hr]
  exact execute_eq hbs hsteady hscan hopen d

/-- What calls leave, when these callbacks are due in all.  Of several calls it is what the last
leaves. -/
structure Ran (rs : List (Result δ)) (due : δ × Option Errno) (p' : HttpParser) : Prop where
  data : rs.getLast?.map Result.data = some due.1
  failed : (∃ r ∈ rs, r.httpErrno.isSome = true) ↔ due.2.isSome = true
  upgrade : due.2 = none → ((∃ r ∈ rs, r.parser.upgrade = true) ↔ p'.upgrade = true)

/-- One call. -/
theorem Result.Leaves.ran {r : Result δ} {due : δ × Option Errno} {len : ℕ}
    (h : r.Leaves due p' len) : Ran [r] due p' := by
  refine ⟨?_, ?_, fun hdue => ?_⟩
  · rw [List.getLast?_singleton, Option.map_some, h.data]
  · simp [h.httpErrno]
  · simp [(h.rest hdue).1]

/-- A call that fails is the last one that does anything.  Those behind it do nothing. -/
theorem Result.Leaves.ran_failed {r : Result δ} {due : δ × Option Errno} {len : ℕ}
    (h : r.Leaves due q len) {e : Errno} (he : due.2 = some e) (bss : List Bytes) :
    Ran (r :: executes st bss r.parser r.httpErrno r.data) due p' := by
  rw [h.httpErrno, he]
  have hall := executes_of_errno st e bss r.parser r.data
  refine ⟨?_, ?_, fun hnone => ?_⟩
  · generalize executes st bss r.parser (some e) r.data = rs at hall
    cases hlast : rs.getLast? with
    | none =>
        rw [List.getLast?_eq_none_iff.1 hlast, List.getLast?_singleton, Option.map_some, h.data]
    | some x =>
        rw [List.getLast?_cons, hlast, Option.getD_some, Option.map_some,
          hall x (List.mem_of_getLast? hlast), h.data]
  · rw [he]
    simp [h.httpErrno, he]
  · rw [he] at hnone
    cases hnone

/-- A call that does not fail, and those behind it. -/
theorem Result.Leaves.ran_cons {r : Result δ} {due due' : δ × Option Errno} {len : ℕ}
    {rs : List (Result δ)} (h : r.Leaves due q len) (hdue : due.2 = none) (hrs : Ran rs due' p')
    (hup : q.upgrade = true → p'.upgrade = true) : Ran (r :: rs) due' p' := by
  refine ⟨?_, ?_, fun hnone => ?_⟩
  · cases hlast : rs.getLast? with
    | none =>
        have hdata := hrs.data
        rw [hlast] at hdata
        cases hdata
    | some x =>
        have hdata := hrs.data
        rw [hlast] at hdata
        rw [List.getLast?_cons, hlast, Option.getD_some]
        exact hdata
  · rw [← hrs.failed, List.exists_mem_cons_iff, h.httpErrno, hdue]
    simp
  · rw [← hrs.upgrade hnone, List.exists_mem_cons_iff, (h.rest hdue).1, or_iff_right_iff_imp]
    intro hu
    exact (hrs.upgrade hnone).2 (hup hu)

/-- **Calls on the pieces of a message** run the callbacks of the reports, cut where the calls
end.  The induction is over the pieces, with what was read before them. -/
theorem executes_eq (st : Settings δ) (pre : Bytes) {bss : List Bytes} (hnil : bss ≠ []) (hne : ∀ bs ∈ bss, bs ≠ [])
    (hcalm : p.Calm) (hmsg : p.IsMessage bss.flatten)
    (hcalls : scanner.calls bss p pre.length = some (R, p')) (d : δ) :
    Ran (executes st bss p none d) (st.notify (pre ++ bss.flatten) R d) p' ∧
      (p.upgrade = true → p'.upgrade = true) := by
  induction bss generalizing p pre d R with
  | nil => exact absurd rfl hnil
  | cons bs bss ih =>
      have hbs := hne bs (List.mem_cons_self ..)
      obtain ⟨R₁, q, R₂, hcall, hcalls', rfl⟩ := exists_of_calls hcalls
      rw [executes]
      cases bss with
      | nil =>
          cases hcalls'
          rw [List.flatten_singleton] at hmsg ⊢
          obtain ⟨p', W, hc⟩ := call_of_isMessage hcalm hmsg
          obtain ⟨R, m', hscan, -, hopen⟩ := hc.scan
          obtain ⟨rfl, hleaves⟩ :=
            execute_at st pre [] hbs hc.steady hscan hopen hcall d
          rw [List.append_nil] at hleaves ⊢
          exact ⟨hleaves.ran, hc.upgrade⟩
      | cons bs' bss =>
          have hrestne : (bs' :: bss).flatten ≠ [] := by
            have hbs' := hne bs' (List.mem_cons_of_mem _ (List.mem_cons_self ..))
            rw [List.flatten_cons]
            exact List.append_ne_nil_of_left_ne_nil hbs' _
          rw [List.flatten_cons] at hmsg
          obtain ⟨q₁, hq₁, hmsg'⟩ := hmsg.split hrestne
          obtain ⟨es, hquiet⟩ := quiet_of_quietly hcalm hq₁
          obtain ⟨R, m', hscan, -⟩ := hquiet.reports 0 (p.reopen.map (·, 0))
          obtain ⟨rfl, hleaves⟩ := execute_at st pre (bs' :: bss).flatten hbs
            (steady_of_quietly_self hq₁) hscan (fun _ => unbroken_of_quietly hq₁) hcall d
          rw [← List.length_append] at hcalls'
          obtain ⟨hran, hup⟩ := ih _ (List.cons_ne_nil bs' bss)
            (fun b hb => hne b (List.mem_cons_of_mem _ hb)) hquiet.calm hmsg' hcalls'
            (p.execute st none bs d).data
          rw [List.flatten_cons, ← List.append_assoc]
          refine ⟨?_, fun hu => hup (hquiet.upgrade hu)⟩
          cases hdue : (st.notify (pre ++ bs ++ (bs' :: bss).flatten) R₁ d).2 with
          | some e =>
              rw [notify_failed (by rw [hdue]; exact Option.some_ne_none e)]
              exact hleaves.ran_failed hdue (bs' :: bss)
          | none =>
              rw [notify_ok hdue, hleaves.httpErrno, hdue, (hleaves.rest hdue).1, ← hleaves.data]
              exact hleaves.ran_cons hdue hran hup

end HttpParser

end Hiper

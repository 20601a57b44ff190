import Hiper.Lib.Scanner

/-!
# Calls cut texts

Calls of a lawful scanner report what one call reports of the whole input, with
every text in pieces, cut where the calls meet (`calls_eq_expand`).  A cut at the
very end of a text, before the item that ends it, leaves an empty last piece,
unless the text is soft.  Whatever appends texts does not notice (`pieces_join`),
and whatever replaces them sees the last pieces only (`foldl_expand`).

The two readings are run side by side: one that reads the whole input in one call, and one
that starts a new call at each cut.  What relates them is that both have a mark for the same
text or neither has, and that the second has reported the pieces of that text up to its last
cut (`Open`, `Marked`, `Tracks`); the pieces it has reported beyond the first reading's
reports are carried along (`pend`), and are empty whenever no text is going on.  One item
keeps the relation (`TracksItem.step`), a cut keeps it (`Tracks.cut`), and so do the items
of a call and the calls (`TracksItem.scan`, `TracksItem.calls`).
-/

namespace Hiper.Lib

namespace Scanner

variable {β σ κ ν : Type*} [DecidableEq κ] (S : Scanner β σ κ ν)

/-! ### Segments and cuts -/

/-- A cut more, behind the others, cuts the last segment in two. -/
theorem segments_concat (a : ℕ) (cs : List ℕ) (c b : ℕ) :
    segments a (cs ++ [c]) b = segments a cs c ++ [(c, b)] := by
  induction cs generalizing a with
  | nil => rfl
  | cons d cs ih => rw [List.cons_append, segments, ih, segments, List.cons_append]

/-- Nothing is cut before the first item of a text has been read. -/
theorem cutsIn_self (cuts : List ℕ) (a : ℕ) : cutsIn cuts a (a + 1) = [] := by
  rw [cutsIn, List.filter_eq_nil_iff]
  intro c _
  rw [Bool.and_eq_true, decide_eq_true_iff, decide_eq_true_iff]
  omega

/-- A place that is no cut makes no difference. -/
theorem cutsIn_of_notMem {cuts : List ℕ} {n : ℕ} (h : n ∉ cuts) (a : ℕ) :
    cutsIn cuts a (n + 1) = cutsIn cuts a n := by
  refine List.filter_congr fun c hc => ?_
  have hne : c ≠ n := fun hcn => h (hcn ▸ hc)
  rw [Bool.eq_iff_iff, Bool.and_eq_true, Bool.and_eq_true, decide_eq_true_iff, decide_eq_true_iff,
    decide_eq_true_iff]
  omega

/-- The next cut comes last. -/
theorem cutsIn_of_mem {cuts : List ℕ} (hsorted : cuts.Pairwise (· < ·)) {a n : ℕ} (h : n ∈ cuts)
    (ha : a < n) : cutsIn cuts a (n + 1) = cutsIn cuts a n ++ [n] := by
  induction cuts with
  | nil => cases h
  | cons c cuts ih =>
      obtain ⟨hlt, hsorted⟩ := List.pairwise_cons.1 hsorted
      rcases List.mem_cons.1 h with rfl | h
      · have hrest : ∀ m, m ≤ n + 1 → cutsIn cuts a m = [] := by
          intro m hm
          rw [cutsIn, List.filter_eq_nil_iff]
          intro c hc
          have := hlt c hc
          rw [Bool.and_eq_true, decide_eq_true_iff, decide_eq_true_iff]
          omega
        simp only [cutsIn] at hrest ⊢
        rw [List.filter_cons, List.filter_cons, hrest _ (Nat.le_refl _), hrest _ (Nat.le_succ _)]
        simp [ha]
      · have hcn := hlt n h
        simp only [cutsIn] at ih ⊢
        rw [List.filter_cons, List.filter_cons, ih hsorted h,
          show decide (c < n + 1) = decide (c < n) by simp only [decide_eq_decide]; omega]
        split_ifs
        · rfl
        · rfl

/-- No call starts before the first. -/
theorem le_of_mem_starts {bss : List (List β)} {pos c : ℕ} (h : c ∈ starts bss pos) : pos ≤ c := by
  induction bss generalizing pos with
  | nil => cases h
  | cons bs bss ih =>
      rcases List.mem_cons.1 h with rfl | h
      · exact Nat.le_refl _
      · have := ih h
        omega

/-- Without empty calls the starts are strictly increasing. -/
theorem starts_sorted {bss : List (List β)} (hne : ∀ bs ∈ bss, bs ≠ []) (pos : ℕ) :
    (starts bss pos).Pairwise (· < ·) := by
  induction bss generalizing pos with
  | nil => exact List.Pairwise.nil
  | cons bs bss ih =>
      have hlen := List.length_pos_of_ne_nil (hne bs (List.mem_cons_self ..))
      refine List.pairwise_cons.2 ⟨fun c hc => ?_, ih (fun b hb => hne b (List.mem_cons_of_mem _ hb)) _⟩
      have := le_of_mem_starts hc
      omega

/-! ### Legal events -/

/-- Legal events, and then others from the kind that they leave. -/
theorem legal_append {S : Scanner β σ κ ν} {es es' : List (Event κ ν)} {φ φ' : Option κ}
    (h : S.legal es φ = some φ') : S.legal (es ++ es') φ = S.legal es' φ' := by
  induction es generalizing φ with
  | nil =>
      rw [legal, Option.some_inj] at h
      rw [List.nil_append, h]
  | cons e es ih =>
      rw [List.cons_append]
      cases φ with
      | none =>
          cases e with
          | mark k =>
              rw [legal] at h ⊢
              split_ifs at h ⊢
              exact ih h
          | note n =>
              rw [legal] at h ⊢
              exact ih h
          | data k => cases h
          | through k => cases h
      | some k' =>
          cases e with
          | data k =>
              rw [legal] at h ⊢
              split_ifs at h ⊢
              exact ih h
          | mark k => cases h
          | note n => cases h
          | through k => cases h

/-! ### One call against many -/

variable {S} {I : σ → Prop} {cuts : List ℕ} {s s' : σ} {pos n a a' : ℕ} {k : κ} {φ φ' : Option κ}
  {mw mc mw' mc' : Option (κ × ℕ)} {pend pend' : List (Report κ ν)}

/-- The texts between the cuts.  One report for each of the segments. -/
def texts (k : κ) (segs : List (ℕ × ℕ)) : List (Report κ ν) := segs.map fun s => .text k s.1 s.2

/-- One call has its mark for a text at `a`, the calls have theirs at `a'`, and `pend` is what
they have reported of it, when the cuts before `n` are made.  So `pend` is the pieces of the
text up to `a'`, the start of the last. -/
structure Open (cuts : List ℕ) (n : ℕ) (k : κ) (a a' : ℕ) (pend : List (Report κ ν)) : Prop where
  lt : a < n
  pieces : ∀ b, pend ++ [.text k a' b] = texts k (segments a (cutsIn cuts a n) b)

/-- How the marks of one call and of the calls are related when the text is of kind `φ`.
Without a text neither has a mark, and nothing is pending. -/
inductive Marked (cuts : List ℕ) (n : ℕ) :
    Option κ → Option (κ × ℕ) → Option (κ × ℕ) → List (Report κ ν) → Prop
  | closed : Marked cuts n none none none []
  | opened (k : κ) (a a' : ℕ) (pend : List (Report κ ν)) : Open cuts n k a a' pend →
      Marked cuts n (some k) (some (k, a)) (some (k, a')) pend

/-- The same between two items: a soft text may have its mark or not.  In a state that is loose
the text either has not been marked yet, or both readings have a mark for it. -/
def Tracks (S : Scanner β σ κ ν) (cuts : List ℕ) (n : ℕ) (s : σ) (mw mc : Option (κ × ℕ))
    (pend : List (Report κ ν)) : Prop :=
  Marked cuts n (S.reopen s) mw mc pend ∨
    ∃ k, S.loose s = some k ∧ Marked cuts n (some k) mw mc pend

/-- The same before the item at `pos`: a soft text that was just cut has lost its mark in the
calls.  Otherwise it has one, like a text that is not soft. -/
inductive TracksItem (S : Scanner β σ κ ν) (cuts : List ℕ) (pos : ℕ) (s : σ) :
    Option (κ × ℕ) → Option (κ × ℕ) → List (Report κ ν) → Prop
  | hard (mw mc : Option (κ × ℕ)) (pend : List (Report κ ν)) : S.loose s = none →
      Marked cuts (pos + 1) (S.reopen s) mw mc pend → TracksItem S cuts pos s mw mc pend
  | fresh (k : κ) : S.loose s = some k → TracksItem S cuts pos s none none []
  | soft (k : κ) (a a' : ℕ) (pend : List (Report κ ν)) : S.loose s = some k → pos ∉ cuts →
      Open cuts (pos + 1) k a a' pend → TracksItem S cuts pos s (some (k, a)) (some (k, a')) pend
  | cut (k : κ) (a : ℕ) : S.loose s = some k → pos ∈ cuts → a < pos →
      TracksItem S cuts pos s (some (k, a)) none (texts k (segments a (cutsIn cuts a pos) pos))

omit [DecidableEq κ] in
/-- One more piece, behind the others. -/
theorem texts_concat (k : κ) (a : ℕ) (cs : List ℕ) (c b : ℕ) :
    (texts k (segments a (cs ++ [c]) b) : List (Report κ ν)) =
      texts k (segments a cs c) ++ [.text k c b] := by
  rw [texts, segments_concat, List.map_append]
  rfl

omit [DecidableEq κ] in
/-- A text that starts at an item is marked there by both. -/
theorem open_self (k : κ) (pos : ℕ) : Open cuts (pos + 1) k pos pos ([] : List (Report κ ν)) :=
  ⟨Nat.lt_succ_self _, fun b => by rw [cutsIn_self]; rfl⟩

omit [DecidableEq κ] in
/-- A cut at `n` that leaves a mark.  What was reported up to the cut is one more piece. -/
theorem Open.cut (h : Open cuts n k a a' pend) (hsorted : cuts.Pairwise (· < ·)) (hn : n ∈ cuts) :
    Open cuts (n + 1) k a n (pend ++ [.text k a' n]) := by
  refine ⟨by have := h.lt; omega, fun b => ?_⟩
  rw [h.pieces, cutsIn_of_mem hsorted hn h.lt, texts_concat]

omit [DecidableEq κ] in
/-- A place that is no cut leaves the marks as they are. -/
theorem Open.next (h : Open cuts n k a a' pend) (hn : n ∉ cuts) :
    Open cuts (n + 1) k a a' pend := by
  refine ⟨by have := h.lt; omega, fun b => ?_⟩
  rw [h.pieces, cutsIn_of_notMem hn]

/-- Events that are notes report these and leave the mark. -/
theorem applyAll_notes (ns : List ν) (m : Option (κ × ℕ)) :
    applyAll pos (ns.map Event.note) m = (ns.map Report.note, m) := by
  induction ns with
  | nil => rfl
  | cons n ns ih => rw [List.map_cons, applyAll, Event.apply, ih]; rfl

omit [DecidableEq κ] in
/-- Notes are reported the same in calls. -/
theorem expand_notes (ns : List ν) :
    (ns.map Report.note).flatMap (S.expand cuts) = ns.map Report.note := by
  induction ns with
  | nil => rfl
  | cons n ns ih => rw [List.map_cons, List.flatMap_cons, ih]; rfl

omit [DecidableEq κ] in
/-- The pieces of a text that is not soft are those of all cuts up to its end, the end included. -/
theorem expand_hard (h : S.soft k = false) (b : ℕ) :
    S.expand cuts (.text k a b : Report κ ν) = texts k (segments a (cutsIn cuts a (b + 1)) b) := by
  rw [expand, pieces, if_neg (by rw [h]; exact Bool.false_ne_true), texts]

omit [DecidableEq κ] in
/-- The pieces of a soft text are those of the cuts before its end. -/
theorem expand_soft (h : S.soft k = true) (b : ℕ) :
    S.expand cuts (.text k a b : Report κ ν) = texts k (segments a (cutsIn cuts a b) b) := by
  rw [expand, pieces, if_pos h, texts]

/-- The events of an item outside soft texts.  The reports agree up to the pieces of the text
that is going on, before and after. -/
theorem Marked.applyAll {es : List (Event κ ν)} (h : Marked cuts (pos + 1) φ mw mc pend)
    (hφ : ∀ k, φ = some k → S.soft k = false) (hlegal : S.legal es φ = some φ') :
    ∃ pend', pend ++ (applyAll pos es mc).1 =
        (Scanner.applyAll pos es mw).1.flatMap (S.expand cuts) ++ pend' ∧
      Marked cuts (pos + 1) φ' (Scanner.applyAll pos es mw).2 (Scanner.applyAll pos es mc).2 pend' := by
  induction es generalizing φ mw mc pend with
  | nil =>
      rw [legal, Option.some_inj] at hlegal
      subst hlegal
      exact ⟨pend, by simp [Scanner.applyAll], h⟩
  | cons e es ih =>
      cases h with
      | closed =>
          cases e with
          | mark k =>
              rw [legal] at hlegal
              split_ifs at hlegal with hsoft
              exact ih (.opened k pos pos [] (open_self k pos)) (by simpa using hsoft) hlegal
          | note n =>
              rw [legal] at hlegal
              obtain ⟨pend', hpend, hmarked⟩ := ih .closed (fun _ h => by cases h) hlegal
              exact ⟨pend', congrArg (Report.note n :: ·) hpend, hmarked⟩
          | data k => cases hlegal
          | through k => cases hlegal
      | opened k' a a' _ hopen =>
          cases e with
          | data k =>
              rw [legal] at hlegal
              split_ifs at hlegal with hk
              subst hk
              obtain ⟨pend', hpend, hmarked⟩ := ih .closed (fun _ h => by cases h) hlegal
              have hpieces : S.expand cuts (.text k a pos) = pend ++ [.text k a' pos] := by
                rw [expand_hard (hφ _ rfl), hopen.pieces]
              have happly : ∀ c, Event.apply (ν := ν) pos (.data k) (some (k, c)) =
                  ([.text k c pos], none) := fun c => by rw [Event.apply, if_pos rfl]
              refine ⟨pend', ?_, ?_⟩
              · rw [Scanner.applyAll, Scanner.applyAll, happly, happly, List.flatMap_append,
                  List.flatMap_singleton, hpieces, List.append_assoc, ← hpend, List.nil_append,
                  List.append_assoc]
              · rw [Scanner.applyAll, Scanner.applyAll, happly, happly]
                exact hmarked
          | mark k => cases hlegal
          | note n => cases hlegal
          | through k => cases hlegal

omit [DecidableEq κ] in
/-- The item marks a soft text, or goes on with it.  Afterwards the marks are those of a text
that is open. -/
theorem TracksItem.mark (h : TracksItem S cuts pos s mw mc pend) (hk : S.loose s = some k)
    (hsorted : cuts.Pairwise (· < ·)) :
    ∃ a a', mw.or (some (k, pos)) = some (k, a) ∧ mc.or (some (k, pos)) = some (k, a') ∧
      Open cuts (pos + 1) k a a' pend := by
  cases h with
  | hard _ _ _ hloose => rw [hk] at hloose; cases hloose
  | fresh => exact ⟨pos, pos, rfl, rfl, open_self k pos⟩
  | soft k' a a' _ hk' _ hopen =>
      rw [hk, Option.some_inj] at hk'
      subst hk'
      exact ⟨a, a', rfl, rfl, hopen⟩
  | cut k' a hk' hmem hlt =>
      rw [hk, Option.some_inj] at hk'
      subst hk'
      refine ⟨a, pos, rfl, rfl, by omega, fun b => ?_⟩
      rw [cutsIn_of_mem hsorted hmem hlt, texts_concat]

/-- **One item.**  What the calls report is what one call reports, in pieces, up to the text
that is going on.  The cases are whether the text that is going on is soft, and which of its
three kinds of events the item has. -/
theorem TracksItem.step (hS : S.Lawful I) (hI : I s) (hsorted : cuts.Pairwise (· < ·)) {b : β}
    {es : List (Event κ ν)} (h : TracksItem S cuts pos s mw mc pend)
    (hstep : S.step s b = some (es, s')) :
    ∃ pend', pend ++ (applyAll pos es mc).1 =
        (applyAll pos es mw).1.flatMap (S.expand cuts) ++ pend' ∧
      Tracks S cuts (pos + 1) s' (applyAll pos es mw).2 (applyAll pos es mc).2 pend' := by
  cases hloose : S.loose s with
  | none =>
      have hmarked : Marked cuts (pos + 1) (S.reopen s) mw mc pend := by
        cases h with
        | hard _ _ _ _ hmarked => exact hmarked
        | fresh k hk => rw [hloose] at hk; cases hk
        | soft k _ _ _ hk => rw [hloose] at hk; cases hk
        | cut k _ hk => rw [hloose] at hk; cases hk
      obtain ⟨pend', hpend, hnext⟩ :=
        hmarked.applyAll (hS.reopen_hard s) (hS.hard s b es s' hI hloose hstep)
      exact ⟨pend', hpend, Or.inl hnext⟩
  | some k =>
      obtain ⟨hsoft, hreopen⟩ := hS.loose_soft s k hloose
      cases hS.loose s b es s' k hI hloose hstep with
      | goes hk' =>
          obtain ⟨a, a', hw, hc, hopen⟩ := h.mark hloose hsorted
          refine ⟨pend, by simp [applyAll, Event.apply], Or.inr ⟨k, hk', ?_⟩⟩
          simp only [applyAll, Event.apply, hw, hc]
          exact .opened k a a' pend hopen
      | through ns hl hr =>
          obtain ⟨a, a', hw, hc, hopen⟩ := h.mark hloose hsorted
          refine ⟨[], ?_, Or.inl ?_⟩
          · simp only [applyAll, Event.apply, hw, hc, if_true, applyAll_notes, List.nil_append,
              List.flatMap_append, expand_notes, List.flatMap_singleton, expand_soft hsoft,
              List.append_nil, ← hopen.pieces, List.append_assoc]
          · simp only [applyAll, Event.apply, hw, hc, if_true, applyAll_notes, hr]
            exact .closed
      | data ns hl hr =>
          cases h with
          | hard _ _ _ hl' => rw [hloose] at hl'; cases hl'
          | fresh =>
              refine ⟨[], ?_, Or.inl ?_⟩
              · simp only [applyAll, Event.apply, applyAll_notes, List.nil_append, expand_notes,
                  List.append_nil]
              · simp only [applyAll, Event.apply, applyAll_notes, hr]
                exact .closed
          | soft k' a a' _ hk' hnot hopen =>
              rw [hloose, Option.some_inj] at hk'
              subst hk'
              have hpieces := hopen.pieces pos
              rw [cutsIn_of_notMem hnot, ← expand_soft hsoft] at hpieces
              refine ⟨[], ?_, Or.inl ?_⟩
              · simp only [applyAll, Event.apply, if_true, applyAll_notes, List.flatMap_append,
                  expand_notes, List.flatMap_singleton, ← hpieces, List.append_nil,
                  List.append_assoc]
              · simp only [applyAll, Event.apply, if_true, applyAll_notes, hr]
                exact .closed
          | cut k' a hk' hmem hlt =>
              rw [hloose, Option.some_inj] at hk'
              subst hk'
              refine ⟨[], ?_, Or.inl ?_⟩
              · simp only [applyAll, Event.apply, if_true, applyAll_notes, List.nil_append,
                  List.flatMap_append, expand_notes, List.flatMap_singleton, expand_soft hsoft,
                  List.append_nil]
              · simp only [applyAll, Event.apply, if_true, applyAll_notes, hr]
                exact .closed

/-- Between two items of one call nothing is cut.  The next item finds the marks as the last one
left them. -/
theorem Tracks.item (hS : S.Lawful I) (h : Tracks S cuts pos s mw mc pend) (hpos : pos ∉ cuts) :
    TracksItem S cuts pos s mw mc pend := by
  rcases h with h | ⟨k, hk, h⟩
  · cases hloose : S.loose s with
    | none =>
        refine .hard _ _ _ hloose ?_
        generalize S.reopen s = φ at h
        cases h with
        | closed => exact .closed
        | opened k a a' _ hopen => exact .opened k a a' _ (hopen.next hpos)
    | some k =>
        rw [(hS.loose_soft s k hloose).2] at h
        cases h
        exact .fresh k hloose
  · cases h with
    | opened _ a a' _ hopen => exact .soft k a a' _ hk hpos (hopen.next hpos)

/-- Between two calls the text that is going on is cut.  The piece up to the cut is reported,
and the next call starts with a mark where the state says so. -/
theorem Tracks.cut (hS : S.Lawful I) (hsorted : cuts.Pairwise (· < ·))
    (h : Tracks S cuts pos s mw mc pend) (hpos : pos ∈ cuts) :
    TracksItem S cuts pos s mw ((S.reopen s).map (·, pos)) (pend ++ flush pos mc) := by
  rcases h with h | ⟨k, hk, h⟩
  · cases hloose : S.loose s with
    | none =>
        refine .hard _ _ _ hloose ?_
        generalize S.reopen s = φ at h ⊢
        cases h with
        | closed => exact .closed
        | opened k a a' _ hopen => exact .opened k a pos _ (hopen.cut hsorted hpos)
    | some k =>
        rw [(hS.loose_soft s k hloose).2] at h ⊢
        cases h
        exact .fresh k hloose
  · rw [(hS.loose_soft s k hk).2]
    cases h with
    | opened _ a a' _ hopen =>
        rw [flush, hopen.pieces]
        exact .cut k a hk hpos hopen.lt

omit [DecidableEq κ] in
/-- When the last call ends, the calls have reported all pieces.  Nothing is pending any more,
since the text that was going on is reported up to the end by both. -/
theorem Tracks.flush (h : Tracks S cuts pos s mw mc pend) (hpos : pos ∉ cuts) :
    pend ++ flush pos mc = (Scanner.flush pos mw).flatMap (S.expand cuts) := by
  have hopened : ∀ k a a' pend, Open cuts pos k a a' pend →
      pend ++ Scanner.flush pos (some (k, a')) =
        (Scanner.flush pos (some (k, a))).flatMap (S.expand cuts) := by
    intro k a a' pend hopen
    rw [Scanner.flush, hopen.pieces, Scanner.flush, List.flatMap_singleton]
    cases hsoft : S.soft k with
    | true => rw [expand_soft hsoft]
    | false => rw [expand_hard hsoft, cutsIn_of_notMem hpos]
  rcases h with h | ⟨k, -, h⟩
  · generalize S.reopen s = φ at h
    cases h with
    | closed => rfl
    | opened k a a' _ hopen => exact hopened k a a' _ hopen
  · cases h with
    | opened _ a a' _ hopen => exact hopened k a a' _ hopen

/-- The items of one call.  The induction is over the items; the cuts lie before or behind them
all. -/
theorem TracksItem.scan (hS : S.Lawful I) (hI : I s) (hsorted : cuts.Pairwise (· < ·)) {bs : List β}
    {W : List (Report κ ν)} (hbs : bs ≠ []) (h : TracksItem S cuts pos s mw mc pend)
    (hcuts : ∀ c ∈ cuts, c ≤ pos ∨ pos + bs.length ≤ c)
    (hscan : S.scan bs s pos mw = some (W, s', mw')) :
    ∃ R mc' pend', S.scan bs s pos mc = some (R, s', mc') ∧
      pend ++ R = W.flatMap (S.expand cuts) ++ pend' ∧
      Tracks S cuts (pos + bs.length) s' mw' mc' pend' ∧ I s' := by
  induction bs generalizing pos s mw mc pend W with
  | nil => exact absurd rfl hbs
  | cons b bs ih =>
      rw [Scanner.scan, Option.bind_eq_some_iff] at hscan
      obtain ⟨⟨es, s₁⟩, hstep, hscan⟩ := hscan
      obtain ⟨⟨W', s₂, m₂⟩, hrest, heq⟩ := Option.map_eq_some_iff.1 hscan
      cases heq
      obtain ⟨pend₁, hpend₁, htracks⟩ := h.step hS hI hsorted hstep
      have hI₁ := hS.keeps s b es s₁ hI hstep
      rw [Scanner.scan, hstep, Option.bind_some]
      cases bs with
      | nil =>
          rw [Scanner.scan, Option.some_inj] at hrest
          cases hrest
          exact ⟨_, _, pend₁, rfl, by rw [List.append_nil, List.append_nil]; exact hpend₁,
            htracks, hI₁⟩
      | cons b' bs =>
          have hpos : pos + 1 ∉ cuts := by
            intro hmem
            have := hcuts _ hmem
            rw [List.length_cons, List.length_cons] at this
            omega
          have hcuts' : ∀ c ∈ cuts, c ≤ pos + 1 ∨ pos + 1 + (b' :: bs).length ≤ c := by
            intro c hc
            have := hcuts c hc
            rw [List.length_cons] at this
            omega
          obtain ⟨R, mc', pend', hR, hpend', htracks', hI'⟩ :=
            ih hI₁ (List.cons_ne_nil b' bs) (htracks.item hS hpos) hcuts' hrest
          refine ⟨(applyAll pos es mc).1 ++ R, mc', pend', by simp only [hR, Option.map_some], ?_, ?_,
            hI'⟩
          · rw [← List.append_assoc, hpend₁, List.append_assoc, hpend', List.flatMap_append,
              List.append_assoc]
          · rw [List.length_cons, Nat.add_comm _ 1, ← Nat.add_assoc]
            exact htracks'

/-- Items in two parts, read one after the other. -/
theorem scan_append (xs ys : List β) (s : σ) (pos : ℕ) (m : Option (κ × ℕ)) :
    S.scan (xs ++ ys) s pos m = (S.scan xs s pos m).bind fun r =>
      (S.scan ys r.2.1 (pos + xs.length) r.2.2).map fun t => (r.1 ++ t.1, t.2) := by
  induction xs generalizing s pos m with
  | nil => simp [scan]
  | cons x xs ih =>
      rw [List.cons_append, scan, scan]
      cases S.step s x with
      | none => rfl
      | some es =>
          simp only [Option.bind_some, ih, List.length_cons, Nat.add_comm xs.length,
            ← Nat.add_assoc]
          cases S.scan xs es.2 (pos + 1) (applyAll pos es.1 m).2 with
          | none => rfl
          | some r =>
              simp only [Option.bind_some, Option.map_some, Option.map_map]
              congr 1
              funext t
              simp

/-- The reports of calls are those of the first, and then those of the others.  The first call
is made in the state that is given, and the rest in the one it leaves. -/
theorem exists_of_calls {bs : List β} {bss : List (List β)} {R : List (Report κ ν)}
    (h : S.calls (bs :: bss) s pos = some (R, s')) :
    ∃ R₁ t R₂, S.call bs s pos = some (R₁, t) ∧ S.calls bss t (pos + bs.length) = some (R₂, s') ∧
      R = R₁ ++ R₂ := by
  rw [calls, Option.bind_eq_some_iff] at h
  obtain ⟨⟨R₁, t⟩, hcall, hrest⟩ := h
  obtain ⟨⟨R₂, t'⟩, hcalls, heq⟩ := Option.map_eq_some_iff.1 hrest
  cases heq
  exact ⟨R₁, t, R₂, hcall, hcalls, rfl⟩

/-- The calls from some call on.  The induction is over the calls, with a cut before each but
the first. -/
theorem TracksItem.calls (hS : S.Lawful I) (hI : I s) (hsorted : cuts.Pairwise (· < ·)) {bs : List β}
    {bss : List (List β)} {W : List (Report κ ν)} (hne : ∀ b ∈ bs :: bss, b ≠ [])
    (hcuts : ∀ c, pos ≤ c → (c ∈ cuts ↔ c ∈ starts (bs :: bss) pos))
    (h : TracksItem S cuts pos s mw ((S.reopen s).map (·, pos)) pend)
    (hscan : S.scan (bs :: bss).flatten s pos mw = some (W, s', mw')) :
    ∃ R, S.calls (bs :: bss) s pos = some (R, s') ∧
      pend ++ R = (W ++ flush (pos + (bs :: bss).flatten.length) mw').flatMap (S.expand cuts) := by
  induction bss generalizing bs s pos mw pend W with
  | nil =>
      have hbs := hne bs (List.mem_singleton_self _)
      have hlen := List.length_pos_of_ne_nil hbs
      simp only [starts, List.mem_singleton] at hcuts
      have hcuts' : ∀ c ∈ cuts, c ≤ pos ∨ pos + bs.length ≤ c := by
        intro c hc
        have := fun h => (hcuts c h).1 hc
        omega
      have hend : pos + bs.length ∉ cuts := by
        intro hc
        have := (hcuts _ (Nat.le_add_right ..)).1 hc
        omega
      rw [List.flatten_singleton] at hscan ⊢
      obtain ⟨R, mc', pend', hR, hpend', htracks, -⟩ := h.scan hS hI hsorted hbs hcuts' hscan
      refine ⟨R ++ flush (pos + bs.length) mc', ?_, ?_⟩
      · simp [Scanner.calls, call, hR]
      · rw [← List.append_assoc, hpend', List.append_assoc, htracks.flush hend,
          List.flatMap_append]
  | cons bs' bss ih =>
      have hbs := hne bs (List.mem_cons_self ..)
      have hlen := List.length_pos_of_ne_nil hbs
      have hne' : ∀ b ∈ bs' :: bss, b ≠ [] := fun b hb => hne b (List.mem_cons_of_mem _ hb)
      rw [List.flatten_cons, scan_append, Option.bind_eq_some_iff] at hscan
      obtain ⟨⟨W₁, s₁, m₁⟩, hscan₁, hscan⟩ := hscan
      obtain ⟨⟨W₂, s₂, m₂⟩, hscan₂, heq⟩ := Option.map_eq_some_iff.1 hscan
      cases heq
      have hstarts : ∀ c, c ∈ starts (bs :: bs' :: bss) pos ↔
          c = pos ∨ c ∈ starts (bs' :: bss) (pos + bs.length) := fun c => List.mem_cons
      have hcuts₁ : ∀ c ∈ cuts, c ≤ pos ∨ pos + bs.length ≤ c := by
        intro c hc
        by_cases hle : c ≤ pos
        · exact Or.inl hle
        · rcases (hstarts c).1 ((hcuts c (by omega)).1 hc) with rfl | hc
          · omega
          · exact Or.inr (le_of_mem_starts hc)
      have hcuts₂ : ∀ c, pos + bs.length ≤ c →
          (c ∈ cuts ↔ c ∈ starts (bs' :: bss) (pos + bs.length)) := by
        intro c hc
        rw [hcuts c (by omega), hstarts, or_iff_right (by omega)]
      have hmem : pos + bs.length ∈ cuts := (hcuts₂ _ (Nat.le_refl _)).2 (List.mem_cons_self ..)
      obtain ⟨R₁, mc', pend₁, hR₁, hpend₁, htracks, hI₁⟩ := h.scan hS hI hsorted hbs hcuts₁ hscan₁
      obtain ⟨R₂, hR₂, hpend₂⟩ := ih hI₁ hne' hcuts₂ (htracks.cut hS hsorted hmem) hscan₂
      refine ⟨R₁ ++ flush (pos + bs.length) mc' ++ R₂, ?_, ?_⟩
      · rw [Scanner.calls, call, hR₁, Option.map_some, Option.bind_some, hR₂, Option.map_some]
      · rw [List.append_assoc] at hpend₂
        have hlength : pos + (bs :: bs' :: bss).flatten.length =
            pos + bs.length + (bs' :: bss).flatten.length := by
          rw [List.flatten_cons, List.length_append, Nat.add_assoc]
        rw [List.append_assoc, ← List.append_assoc pend, hpend₁, List.append_assoc, hpend₂, hlength,
          ← List.flatMap_append, List.append_assoc]

/-- A call starts with the mark of the text that is going on.  Both readings do so, and nothing
is pending. -/
theorem tracksItem_start (cuts : List ℕ) (hS : S.Lawful I) (s : σ) (pos : ℕ) :
    TracksItem S cuts pos s ((S.reopen s).map (·, pos)) ((S.reopen s).map (·, pos)) [] := by
  cases hloose : S.loose s with
  | none =>
      refine .hard _ _ _ hloose ?_
      cases S.reopen s with
      | none => exact .closed
      | some k => exact .opened k pos pos [] (open_self k pos)
  | some k =>
      rw [(hS.loose_soft s k hloose).2]
      exact .fresh k hloose

/-- **Calls report what one call reports, in pieces.**  The cuts are where the calls start.  No
call is empty, and the first of them is there.  It is the whole effect of segmentation: where
the calls meet inside a text, that text is reported in pieces, and nothing else changes, neither
the notes and their order nor the state at the end. -/
theorem calls_eq_expand (hS : S.Lawful I) (hI : I s) {bss : List (List β)} (hnil : bss ≠ [])
    (hne : ∀ bs ∈ bss, bs ≠ []) {W : List (Report κ ν)}
    (h : S.call bss.flatten s pos = some (W, s')) :
    S.calls bss s pos = some (W.flatMap (S.expand (starts bss pos)), s') := by
  obtain ⟨⟨W₁, s₁, m₁⟩, hscan, heq⟩ := Option.map_eq_some_iff.1 h
  cases heq
  have hitem := tracksItem_start (starts bss pos) hS s pos
  cases bss with
  | nil => exact absurd rfl hnil
  | cons bs bss =>
      obtain ⟨R, hR, hpend⟩ :=
        hitem.calls hS hI (starts_sorted hne pos) hne (fun c _ => Iff.rfl) hscan
      rw [hR, ← hpend, List.nil_append]

/-! ### A note at the end -/

omit [DecidableEq κ] in
/-- When the law says that no text is going on, there is no mark. -/
theorem Marked.eq_none (h : Marked cuts n none mw mc pend) : mw = none := by
  cases h
  rfl

/-- A note is legal only where no text is going on. -/
theorem legal_note {es : List (Event κ ν)} {n : ν} (h : S.legal (es ++ [.note n]) φ = some φ') :
    φ' = none := by
  induction es generalizing φ with
  | nil =>
      cases φ with
      | none => exact (Option.some.inj h).symm
      | some k => cases h
  | cons e es ih =>
      cases φ with
      | none =>
          cases e with
          | mark k =>
              rw [List.cons_append, legal] at h
              split_ifs at h
              exact ih h
          | note n' => exact ih h
          | data k => cases h
          | through k => cases h
      | some k' =>
          cases e with
          | data k =>
              rw [List.cons_append, legal] at h
              split_ifs at h
              exact ih h
          | mark k => cases h
          | note n' => cases h
          | through k => cases h

/-- After an item whose last event is a note, no text is going on.  The law allows a note only
then. -/
theorem TracksItem.note_last (hS : S.Lawful I) (hI : I s) (hsorted : cuts.Pairwise (· < ·)) {b : β}
    {es : List (Event κ ν)} {n : ν} (h : TracksItem S cuts pos s mw mc pend)
    (hstep : S.step s b = some (es ++ [.note n], s')) :
    (applyAll pos (es ++ [.note n]) mw).2 = none := by
  obtain ⟨pend', -, htracks⟩ := h.step hS hI hsorted hstep
  cases hloose : S.loose s with
  | none =>
      have hlegal := hS.hard s b _ s' hI hloose hstep
      cases h with
      | hard _ _ _ _ hmarked =>
          obtain ⟨_, -, hnext⟩ := hmarked.applyAll (S := S) (hS.reopen_hard s) hlegal
          rw [legal_note hlegal] at hnext
          exact hnext.eq_none
      | fresh k hk => rw [hloose] at hk; cases hk
      | soft k _ _ _ hk => rw [hloose] at hk; cases hk
      | cut k _ hk => rw [hloose] at hk; cases hk
  | some k =>
      have hclosed : S.loose s' = none ∧ S.reopen s' = none := by
        generalize hes : es ++ [Event.note n] = es' at hstep
        cases hS.loose s b es' s' k hI hloose hstep with
        | goes hk' =>
            have := List.append_eq_singleton_iff.1 hes
            simp at this
        | through ns hl hr => exact ⟨hl, hr⟩
        | data ns hl hr => exact ⟨hl, hr⟩
      rcases htracks with hnext | ⟨k', hk', -⟩
      · rw [hclosed.2] at hnext
        exact hnext.eq_none
      · rw [hclosed.1] at hk'
        cases hk'

/-- A call whose last event is a note leaves no mark.  So a call that ends in an item with a
note has reported its texts in full. -/
theorem scan_note_last (hS : S.Lawful I) (hI : I s) {bs : List β} {b : β} {R : List (Report κ ν)}
    {m : Option (κ × ℕ)} {s₁ : σ} {es : List (Event κ ν)} {n : ν}
    (hscan : S.scan bs s pos ((S.reopen s).map (·, pos)) = some (R, s₁, m))
    (hstep : S.step s₁ b = some (es ++ [.note n], s')) :
    (applyAll (pos + bs.length) (es ++ [.note n]) m).2 = none := by
  have hitem := tracksItem_start [] hS s pos
  cases bs with
  | nil =>
      cases hscan
      exact hitem.note_last hS hI List.Pairwise.nil hstep
  | cons b' bs =>
      obtain ⟨_, _, _, -, -, htracks, hI₁⟩ :=
        hitem.scan hS hI List.Pairwise.nil (List.cons_ne_nil b' bs) nofun hscan
      exact (htracks.item hS List.not_mem_nil).note_last hS hI₁ List.Pairwise.nil hstep

/-! ### The mark that a call leaves -/

/-- The mark that a call leaves is that of the text that is going on.  Otherwise no text is
going on, and there is none. -/
theorem scan_mark (hS : S.Lawful I) (hI : I s) {bs : List β} {R : List (Report κ ν)}
    {m : Option (κ × ℕ)} (hscan : S.scan bs s pos ((S.reopen s).map (·, pos)) = some (R, s', m)) :
    m = none ∨ ∃ k a, m = some (k, a) ∧ (S.reopen s' = some k ∨ S.loose s' = some k) := by
  have hitem := tracksItem_start [] hS s pos
  cases bs with
  | nil =>
      cases hscan
      cases S.reopen s with
      | none => exact Or.inl rfl
      | some k => exact Or.inr ⟨k, pos, rfl, Or.inl rfl⟩
  | cons b bs =>
      obtain ⟨_, _, _, -, -, htracks, -⟩ :=
        hitem.scan hS hI List.Pairwise.nil (List.cons_ne_nil b bs) nofun hscan
      rcases htracks with hnext | ⟨k, hk, hnext⟩
      · cases hreopen : S.reopen s' with
        | none =>
            rw [hreopen] at hnext
            exact Or.inl hnext.eq_none
        | some k =>
            rw [hreopen] at hnext
            cases hnext with
            | opened _ a => exact Or.inr ⟨k, a, rfl, Or.inl rfl⟩
      · cases hnext with
        | opened _ a => exact Or.inr ⟨k, a, rfl, Or.inr hk⟩

/-! ### Reading texts in pieces -/

variable (S cuts) in
/-- Where the last piece of a text starts.  It is the start of the text when no cut goes through
it. -/
def lastCut (k : κ) (a b : ℕ) : ℕ := (cutsIn cuts a (if S.soft k then b else b + 1)).getLastD a

variable (S cuts) in
/-- A report, of its text the last piece.  A note is itself. -/
def last : Report κ ν → Report κ ν
  | .text k a b => .text k (S.lastCut cuts k a b) b
  | .note n => .note n

/-- The last of the segments starts at the last of the cuts, or at the beginning. -/
theorem segments_eq_concat (a : ℕ) (cs : List ℕ) (b : ℕ) :
    ∃ init, segments a cs b = init ++ [(cs.getLastD a, b)] := by
  induction cs generalizing a with
  | nil => exact ⟨[], rfl⟩
  | cons c cs ih =>
      obtain ⟨init, hinit⟩ := ih c
      exact ⟨(a, c) :: init, by rw [segments, hinit, List.getLastD_cons]; rfl⟩

omit [DecidableEq κ] in
/-- Whatever replaces a text by the next of its kind reads the last pieces only.  `hf` says that
the second of two texts of one kind leaves nothing of the first. -/
theorem foldl_expand {γ : Type*} {f : γ → Report κ ν → γ}
    (hf : ∀ x k a b c d, f (f x (.text k a b)) (.text k c d) = f x (.text k c d)) (cuts : List ℕ)
    (R : List (Report κ ν)) (x : γ) :
    (R.flatMap (S.expand cuts)).foldl f x = (R.map (S.last cuts)).foldl f x := by
  have habsorb : ∀ (k : κ) (init : List (ℕ × ℕ)) (c d : ℕ) (x : γ),
      (texts k (init ++ [(c, d)])).foldl f x = f x (.text k c d) := by
    intro k init c d x
    induction init generalizing x with
    | nil => rfl
    | cons seg init ih =>
        refine (ih (f x (.text k seg.1 seg.2))).trans ?_
        exact hf x k seg.1 seg.2 c d
  induction R generalizing x with
  | nil => rfl
  | cons r R ih =>
      rw [List.flatMap_cons, List.foldl_append, List.map_cons, List.foldl_cons, ih]
      congr 1
      cases r with
      | note n => rfl
      | text k a b =>
          obtain ⟨init, hinit⟩ :=
            segments_eq_concat a (cutsIn cuts a (if S.soft k then b else b + 1)) b
          rw [expand, pieces, hinit]
          exact habsorb k init _ b x

/-- What is appended segment by segment is what is appended at once. -/
theorem segments_join {γ : Type*} {g : ℕ → ℕ → List γ}
    (hg : ∀ a c b, a ≤ c → c ≤ b → g a c ++ g c b = g a b) {a b : ℕ} {cs : List ℕ}
    (hsorted : cs.Pairwise (· < ·)) (hcs : ∀ c ∈ cs, a < c ∧ c ≤ b) :
    (segments a cs b).flatMap (fun s => g s.1 s.2) = g a b := by
  induction cs generalizing a with
  | nil => simp [segments]
  | cons c cs ih =>
      obtain ⟨hlt, hsorted⟩ := List.pairwise_cons.1 hsorted
      obtain ⟨hac, hcb⟩ := hcs c (List.mem_cons_self ..)
      have hcs' : ∀ d ∈ cs, c < d ∧ d ≤ b := fun d hd =>
        ⟨hlt d hd, (hcs d (List.mem_cons_of_mem _ hd)).2⟩
      rw [segments, List.flatMap_cons, ih hsorted hcs', hg a c b (Nat.le_of_lt hac) hcb]

omit [DecidableEq κ] in
/-- Whatever appends a text to the next reads the pieces like the text.  `g` gives what is
appended for a stretch of the input. -/
theorem pieces_join {γ : Type*} {g : ℕ → ℕ → List γ}
    (hg : ∀ a c b, a ≤ c → c ≤ b → g a c ++ g c b = g a b) (hsorted : cuts.Pairwise (· < ·))
    (k : κ) (a b : ℕ) : (S.pieces cuts k a b).flatMap (fun s => g s.1 s.2) = g a b := by
  refine segments_join hg (hsorted.filter _) fun c hc => ?_
  have hmem := (List.mem_filter.1 hc).2
  rw [Bool.and_eq_true, decide_eq_true_iff, decide_eq_true_iff] at hmem
  split_ifs at hmem <;> omega

end Scanner

end Hiper.Lib

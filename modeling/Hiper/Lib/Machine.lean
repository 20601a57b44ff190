import Mathlib.Data.List.Basic

/-!
# Machines and their runs

Two shapes of a system.  A machine that takes calls and answers each, every call
possible in every state but some of them not legal (`Answers`); and a system of
steps, each possible in some states only (`Steps`).  Runs are lists of calls or
of steps; what one call or step keeps, a whole run keeps (`trace_invariant`,
`trace_forall`, `Reachable.invariant`).  What a step keeps when it meets a
condition, a run keeps whose steps all meet it (`Meets.invariant`), and a run of
which not all do has a first that does not (`meets_or_first`).  Where a step keeps
a property exactly when it meets the condition, a run has it in every state
exactly when all its steps meet the condition (`always_iff_meets`).

Both come with their rules in the form in which they are used. For a machine: a run is legal
when each of its calls is (`legalRun_cons`, `legalRun_append`), and a place in a trace is a
call made in the state after the calls before it (`trace_split`). For a system: runs compose
(`run_append`), reachability is closed under runs (`Reachable.run`), and a state found by
taking given steps is reachable (`exists_reachable_of_run`), which is how a concrete run
that goes wrong is shown. `Meets.always_iff` is the rule for a property that holds over a
run exactly when the steps meet a condition, where the invariant itself holds only as long
as the steps meet another one.
-/

namespace Hiper.Lib

variable {σ α β : Type*}

/-! ### Machines that answer -/

section Answers

variable (exec : α → σ → β × σ)

/-- The state after the calls. The answers are thrown away. -/
def final : List α → σ → σ
  | [], s => s
  | c :: cs, s => final cs (exec c s).2

/-- The calls with their answers. It is the history an observer sees, in the order in which the
calls were made. -/
def trace : List α → σ → List (α × β)
  | [], _ => []
  | c :: cs, s => (c, (exec c s).1) :: trace cs (exec c s).2

/-- Every call is legal where it is made. A call that is not legal is still answered; that it is
not made is what a run that is legal says. -/
def legalRun (legal : α → σ → Bool) : List α → σ → Bool
  | [], _ => true
  | c :: cs, s => legal c s && legalRun legal cs (exec c s).2

variable {exec} {legal : α → σ → Bool} {s : σ}

/-- A run is legal when its first call is, and the rest is from the state that the first one
leaves. -/
theorem legalRun_cons {c : α} {cs : List α} :
    legalRun exec legal (c :: cs) s = true ↔
      legal c s = true ∧ legalRun exec legal cs (exec c s).2 = true := by
  rw [legalRun, Bool.and_eq_true]

/-- A run in two parts is legal when the first is, and the second from where the first ends. -/
theorem legalRun_append {cs ds : List α} :
    legalRun exec legal (cs ++ ds) s = true ↔
      legalRun exec legal cs s = true ∧ legalRun exec legal ds (final exec cs s) = true := by
  induction cs generalizing s with
  | nil => simp [legalRun, final]
  | cons c cs ih => rw [List.cons_append, legalRun_cons, legalRun_cons, ih, final, and_assoc]

/-- A place in a trace is a call, made in the state after the calls before it. The histories
before and behind it are the traces of the calls before and behind. -/
theorem trace_split {cs : List α} {pre post : List (α × β)} {e : α × β}
    (h : trace exec cs s = pre ++ e :: post) :
    ∃ cs₁ c cs₂, cs = cs₁ ++ c :: cs₂ ∧ pre = trace exec cs₁ s ∧
      e = (c, (exec c (final exec cs₁ s)).1) ∧
      post = trace exec cs₂ (exec c (final exec cs₁ s)).2 := by
  induction cs generalizing s pre with
  | nil => simp [trace] at h
  | cons c cs ih =>
      rw [trace] at h
      cases pre with
      | nil =>
          rw [List.nil_append, List.cons.injEq] at h
          exact ⟨[], c, cs, rfl, rfl, h.1.symm, h.2.symm⟩
      | cons e' pre =>
          rw [List.cons_append, List.cons.injEq] at h
          obtain ⟨cs₁, c', cs₂, rfl, rfl, he, hpost⟩ := ih h.2
          exact ⟨c :: cs₁, c', cs₂, rfl, by rw [trace, h.1], he, hpost⟩

/-- **Invariants of histories.**  What holds of a state and the history before it, and is kept
by every legal call, holds after every legal run. The step case may use the whole history, so
that the property may speak of what was answered long ago. -/
theorem trace_invariant {I : List (α × β) → σ → Prop}
    (hstep : ∀ h s c, I h s → legal c s = true → I (h ++ [(c, (exec c s).1)]) (exec c s).2)
    {h : List (α × β)} (hI : I h s) {cs : List α} (hlegal : legalRun exec legal cs s = true) :
    I (h ++ trace exec cs s) (final exec cs s) := by
  induction cs generalizing h s with
  | nil => rwa [trace, List.append_nil, final]
  | cons c cs ih =>
      obtain ⟨hc, hcs⟩ := legalRun_cons.1 hlegal
      have hnext := ih (hstep h s c hI hc) hcs
      rwa [List.append_assoc] at hnext

/-- What holds of every answer given in a state of an invariant, holds of every answer of a run.
The invariant is about the state alone, the conclusion about what is seen of it. -/
theorem trace_forall {I : σ → Prop} {Q : α × β → Prop}
    (hstep : ∀ s c, I s → legal c s = true → I (exec c s).2 ∧ Q (c, (exec c s).1))
    (hI : I s) {cs : List α} (hlegal : legalRun exec legal cs s = true) :
    ∀ e ∈ trace exec cs s, Q e := by
  induction cs generalizing s with
  | nil =>
      intro e he
      cases he
  | cons c cs ih =>
      obtain ⟨hc, hcs⟩ := legalRun_cons.1 hlegal
      obtain ⟨hnext, hQ⟩ := hstep s c hI hc
      intro e he
      rcases List.mem_cons.1 he with rfl | he
      · exact hQ
      · exact ih hnext hcs e he

end Answers

/-! ### Systems of steps -/

section Steps

variable (step : α → σ → Option σ)

/-- The state after the steps, when each is possible where it is taken. A run in which some step
is not possible has no state after it. -/
def run : List α → σ → Option σ
  | [], s => some s
  | a :: as, s => (step a s).bind (run as)

/-- A run in two parts takes the second from where the first ends. -/
theorem run_append (as bs : List α) (s : σ) :
    run step (as ++ bs) s = (run step as s).bind (run step bs) := by
  induction as generalizing s with
  | nil => rfl
  | cons a as ih =>
      rw [List.cons_append, run, run, Option.bind_assoc]
      exact Option.bind_congr fun s' _ => ih s'

/-- The last step of a run. It is possible in the state that the steps before it lead to. -/
theorem exists_of_run_concat {step : α → σ → Option σ} {as : List α} {a : α} {s s' : σ}
    (h : run step (as ++ [a]) s = some s') : ∃ s₁, run step as s = some s₁ ∧ step a s₁ = some s' := by
  rw [run_append, Option.bind_eq_some_iff] at h
  obtain ⟨s₁, has, ha⟩ := h
  rw [run, Option.bind_eq_some_iff] at ha
  obtain ⟨s₂, ha, hnil⟩ := ha
  exact ⟨s₁, has, ha.trans hnil⟩

/-- The states that steps lead to. A step is taken only where it is possible. -/
inductive Reachable (init : σ) : σ → Prop
  | init : Reachable init init
  | step {s s' : σ} (a : α) : Reachable init s → step a s = some s' → Reachable init s'

variable {step} {init s s' : σ}

/-- What is reached by a run from a state that is reachable is reachable. -/
theorem Reachable.run (h : Reachable step init s) {as : List α} (has : run step as s = some s') :
    Reachable step init s' := by
  induction as generalizing s with
  | nil =>
      rw [Lib.run, Option.some_inj] at has
      exact has ▸ h
  | cons a as ih =>
      rw [Lib.run, Option.bind_eq_some_iff] at has
      obtain ⟨s₁, hs₁, has⟩ := has
      exact ih (h.step a hs₁) has

/-- Reachability is transitive. -/
theorem Reachable.trans {s₁ s₂ s₃ : σ} (h₁ : Reachable step s₁ s₂) (h₂ : Reachable step s₂ s₃) :
    Reachable step s₁ s₃ := by
  induction h₂ with
  | init => exact h₁
  | step a _ ha ih => exact ih.step a ha

/-- A state that steps lead to, found by taking them. The run is evaluated, so that `decide`
shows that such a state is reachable. -/
theorem exists_reachable_of_run (step : α → σ → Option σ) (init : σ) (as : List α) (p : σ → Bool)
    (h : (run step as init).any p = true) : ∃ s, Reachable step init s ∧ p s = true := by
  obtain ⟨s, hs, hp⟩ := (Option.any_eq_true ..).1 h
  exact ⟨s, Reachable.init.run hs, hp⟩

/-- **Invariants.**  What holds at first and is kept by every step holds in every state reached.
The induction is over the steps that lead to the state. -/
theorem Reachable.invariant {I : σ → Prop} (hinit : I init)
    (hstep : ∀ s s' a, I s → step a s = some s' → I s') (h : Reachable step init s) : I s := by
  induction h with
  | init => exact hinit
  | step a _ ha ih => exact hstep _ _ a ih ha

variable (step) in
/-- `I` holds in every state of the run. The first state counts, and so does the last; where a
step is not possible nothing is asked any more. -/
def Always (I : σ → Prop) : List α → σ → Prop
  | [], s => I s
  | a :: as, s => I s ∧ ∀ s', step a s = some s' → Always I as s'

variable (step) in
/-- Every step of the run meets the condition `C` where it is taken. The condition may look at
the state before the step, never at what the step makes of it. -/
def Meets (C : α → σ → Prop) : List α → σ → Prop
  | [], _ => True
  | a :: as, s => C a s ∧ ∀ s', step a s = some s' → Meets C as s'

/-- **Invariants of runs that meet a condition.** A step that meets `C` keeps the invariant, so
that a run whose steps all meet it ends in a state of the invariant. -/
theorem Meets.invariant {I : σ → Prop} {C : α → σ → Prop}
    (hstep : ∀ a s s', I s → C a s → step a s = some s' → I s') (hI : I s) {as : List α}
    (h : Meets step C as s) (hrun : Lib.run step as s = some s') : I s' := by
  induction as generalizing s with
  | nil =>
      rw [Lib.run, Option.some_inj] at hrun
      exact hrun ▸ hI
  | cons a as ih =>
      obtain ⟨s₁, hs₁, hrest⟩ := Option.bind_eq_some_iff.1 hrun
      exact ih (hstep a s s₁ hI h.1 hs₁) (h.2 s₁ hs₁) hrest

/-- A step that meets the condition, before a run that does. -/
theorem Meets.cons {C : α → σ → Prop} {a : α} {as : List α} (hC : C a s) (hs : step a s = some s')
    (h : Meets step C as s') : Meets step C (a :: as) s :=
  ⟨hC, fun _ hs₁ => Option.some.inj (hs.symm.trans hs₁) ▸ h⟩

/-- With a condition that is decided, a given run is decided by taking its steps. -/
instance Meets.decidable {C : α → σ → Prop} [∀ a s, Decidable (C a s)] :
    ∀ as s, Decidable (Meets step C as s)
  | [], _ => .isTrue trivial
  | a :: as, s =>
    match hs : step a s with
    | none =>
      decidable_of_iff (C a s) ⟨fun hC => ⟨hC, fun _ hs₁ => nomatch hs.symm.trans hs₁⟩, And.left⟩
    | some s₁ =>
      have := Meets.decidable (C := C) as s₁
      decidable_of_iff (C a s ∧ Meets step C as s₁)
        ⟨fun h => .cons h.1 hs h.2, fun h => ⟨h.1, h.2 s₁ hs⟩⟩

/-- A condition that the steps meet in the states of an invariant. The condition `C` need not
hold by itself: `D` is what the steps are known to meet, and `I` says where they are taken. -/
theorem Meets.of_invariant {I : σ → Prop} {C D : α → σ → Prop}
    (hstep : ∀ a s s', I s → D a s → step a s = some s' → I s')
    (hC : ∀ a s, I s → D a s → C a s) (hI : I s) {as : List α} (h : Meets step D as s) :
    Meets step C as s := by
  induction as generalizing s with
  | nil => trivial
  | cons a as ih => exact ⟨hC a s hI h.1, fun s₁ hs₁ => ih (hstep a s s₁ hI h.1 hs₁) (h.2 s₁ hs₁)⟩

/-- What holds in every state of a run holds in the last. It is used to take a property of whole
runs to the state reached. -/
theorem Always.final {I : σ → Prop} {as : List α} (h : Always step I as s)
    (hrun : Lib.run step as s = some s') : I s' := by
  induction as generalizing s with
  | nil =>
      rw [Lib.run, Option.some_inj] at hrun
      exact hrun ▸ h
  | cons a as ih =>
      obtain ⟨s₁, hs₁, hrest⟩ := Option.bind_eq_some_iff.1 hrun
      exact ih (h.2 s₁ hs₁) hrest

/-- A run meets the condition, or there is a first step that does not; the invariant holds up to
there. The first step that does not meet the condition is where the invariant may break, and the
state after it is on the way to the last. -/
theorem meets_or_first {I : σ → Prop} {C : α → σ → Prop}
    (hstep : ∀ a s s', I s → C a s → step a s = some s' → I s') (hI : I s) {as : List α}
    (hrun : Lib.run step as s = some s') :
    Meets step C as s ∨ ∃ a s₁ s₂, a ∈ as ∧ I s₁ ∧ ¬C a s₁ ∧ step a s₁ = some s₂ ∧
      Reachable step s₂ s' := by
  induction as generalizing s with
  | nil => exact Or.inl trivial
  | cons a as ih =>
      obtain ⟨s₁, hs₁, hrest⟩ := Option.bind_eq_some_iff.1 hrun
      by_cases hC : C a s
      · rcases ih (hstep a s s₁ hI hC hs₁) hrest with hmeets | ⟨b, s₂, s₃, hb, hfirst⟩
        · refine Or.inl ⟨hC, fun s₂ hs₂ => ?_⟩
          obtain rfl := Option.some.inj (hs₁.symm.trans hs₂)
          exact hmeets
        · exact Or.inr ⟨b, s₂, s₃, List.mem_cons_of_mem _ hb, hfirst⟩
      · exact Or.inr ⟨a, s, s₁, List.mem_cons_self .., hI, hC, hs₁, Reachable.init.run hrest⟩

/-- A condition on the steps alone. It does not look at the states, so that a run meets it when
every step in the list does. -/
theorem meets_iff_forall {C : α → Prop} {as : List α} (hrun : Lib.run step as s = some s') :
    Meets step (fun a _ => C a) as s ↔ ∀ a ∈ as, C a := by
  induction as generalizing s with
  | nil => simp [Meets]
  | cons a as ih =>
      obtain ⟨s₁, hs₁, hrest⟩ := Option.bind_eq_some_iff.1 hrun
      rw [List.forall_mem_cons, ← ih hrest, Meets]
      refine and_congr_right fun _ => ⟨fun h => h s₁ hs₁, fun h s₂ hs₂ => ?_⟩
      obtain rfl := Option.some.inj (hs₁.symm.trans hs₂)
      exact h

/-- A property that a step keeps exactly when it meets `C`, while every step that meets `D`
keeps `J`, in a run whose steps all meet `D`. Both directions are by induction over the run; `J`
carries what a step needs to know of the state in which it is taken. -/
theorem Meets.always_iff {I J : σ → Prop} {C D : α → σ → Prop}
    (hJ : ∀ a s s', J s → D a s → step a s = some s' → J s')
    (hstep : ∀ a s s', J s → D a s → I s → step a s = some s' → (I s' ↔ C a s))
    (hs : J s) (hI : I s) {as : List α} (hD : Meets step D as s)
    (hrun : Lib.run step as s = some s') : Always step I as s ↔ Meets step C as s := by
  induction as generalizing s with
  | nil => exact iff_of_true hI trivial
  | cons a as ih =>
      obtain ⟨s₁, hs₁, hrest⟩ := Option.bind_eq_some_iff.1 hrun
      have hone : ∀ (P : σ → Prop), (∀ s₂, step a s = some s₂ → P s₂) ↔ P s₁ := fun P =>
        ⟨fun h => h s₁ hs₁, fun h s₂ hs₂ => Option.some.inj (hs₁.symm.trans hs₂) ▸ h⟩
      rw [Always, Meets, hone, hone, and_iff_right hI]
      have hkeeps := hstep a s s₁ hs hD.1 hI hs₁
      have hJ₁ := hJ a s s₁ hs hD.1 hs₁
      constructor
      · intro halways
        have hI₁ : I s₁ := by
          cases as with
          | nil => exact halways
          | cons b as => exact halways.1
        exact ⟨hkeeps.1 hI₁, (ih hJ₁ hI₁ (hD.2 s₁ hs₁) hrest).1 halways⟩
      · rintro ⟨hC, hmeets⟩
        exact (ih hJ₁ (hkeeps.2 hC) (hD.2 s₁ hs₁) hrest).2 hmeets

/-- A property that a step keeps exactly when it meets `C`, while every step keeps `J`. It is
the form in which a condition on steps is shown to be exact over every run. -/
theorem always_iff_meets {I J : σ → Prop} {C : α → σ → Prop}
    (hJ : ∀ a s s', J s → step a s = some s' → J s')
    (hstep : ∀ a s s', J s → I s → step a s = some s' → (I s' ↔ C a s))
    (hs : J s) (hI : I s) {as : List α} (hrun : Lib.run step as s = some s') :
    Always step I as s ↔ Meets step C as s :=
  Meets.always_iff (D := fun _ _ => True) (fun a s s' hs _ h => hJ a s s' hs h)
    (fun a s s' hs _ hI h => hstep a s s' hs hI h) hs hI
    ((meets_iff_forall hrun).2 fun _ _ => trivial) hrun

end Steps

end Hiper.Lib

import Hiper.Config.Listeners
import Hiper.StringUtil.Basic

/-!
# A variable set from a text

`ConfigVar<T>::fromString` converts and sets in one `try`, and has one `return`, of
`false`.  What is thrown by the conversion or by a listener ends the call where it is:
the listeners before it have been told, the value is not assigned.

So setting from a text is all or nothing (`AllOrNothing`) when nothing is to be done,
and in no other case (`fromString_iff`).

The function is `config.h:97`, with `setValue` at `config.h:123`.  A listener is taken by
what it throws when it is told an old and a new value; what else it does is its own affair
and not the variable's.  A converter throws or gives a value, and a value may compare equal
to the one there is without being it, as two floating-point zeros do, so that equality is
`==` of the type (`BEq`).
-/

namespace Hiper

namespace ConfigVar

variable {α : Type*}

/-- What is thrown: `std::exception`, which `fromString` catches, or anything else.  What is not
caught leaves `fromString` by the exception. -/
inductive Thrown
  | exception
  | other
  deriving DecidableEq, Repr

/-- `on_change_cb`, by what it throws.  Nothing when it returns. -/
abbrev Listener (α : Type*) := α → α → Option Thrown

/-- A listener was told an old value and a new one.  With the key that it was registered under. -/
structure Told (α : Type*) where
  key : ℕ
  old : α
  new : α
  deriving DecidableEq, Repr

/-- The loop over `cbs_`: who was told what, and what ended it early.  They are told in the
order of the keys, until one throws. -/
def tellAll (old new : α) : List (ℕ × Listener α) → List (Told α) × Option Thrown
  | [] => ([], none)
  | (key, cb) :: cbs =>
    match cb old new with
    | some e => ([⟨key, old, new⟩], some e)
    | none =>
      let (told, thrown) := tellAll old new cbs
      (⟨key, old, new⟩ :: told, thrown)

/-- What a call left behind.  The result or what was thrown, the value, and who was told. -/
structure Outcome (ρ α : Type*) where
  result : Except Thrown ρ
  val : α
  told : List (Told α)

/-- `setValue`, where the listeners `cbs_` may throw.  A value that is `==` to the one there is
changes nothing and tells nobody. -/
def trySetValue [BEq α] (cbs : List (ℕ × Listener α)) (v val : α) : Outcome Unit α :=
  if v == val then ⟨.ok (), val, []⟩
  else
    match tellAll val v cbs with
    | (told, some e) => ⟨.error e, val, told⟩
    | (told, none) => ⟨.ok (), v, told⟩

/-- `fromString`, where `fromStr` is the conversion.  It returns `false` on both paths that
return (`config.h:97-108`). -/
def fromString [BEq α] (fromStr : Bytes → Except Thrown α) (cbs : List (ℕ × Listener α))
    (text : Bytes) (val : α) : Outcome Bool α :=
  match fromStr text with
  | .error .exception => ⟨.ok false, val, []⟩
  | .error .other => ⟨.error .other, val, []⟩
  | .ok v =>
    let o := trySetValue cbs v val
    match o.result with
    | .error .other => ⟨.error .other, o.val, o.told⟩
    | .error .exception | .ok () => ⟨.ok false, o.val, o.told⟩

/-! ### What the listeners are told -/

/-- The first that throws ends the loop.  The others after it are not told. -/
theorem tellAll_thrown (old new : α) (cbs : List (ℕ × Listener α)) :
    (tellAll old new cbs).2 = cbs.findSome? fun cb => cb.2 old new := by
  induction cbs with
  | nil => rfl
  | cons cb cbs ih =>
      rw [tellAll, List.findSome?_cons]
      cases cb.2 old new with
      | some e => rfl
      | none => exact ih

/-- Whoever is told is told the new value. -/
theorem tellAll_told {old new : α} {cbs : List (ℕ × Listener α)} {n : Told α}
    (h : n ∈ (tellAll old new cbs).1) : n.new = new := by
  induction cbs with
  | nil => exact absurd h List.not_mem_nil
  | cons cb cbs ih =>
      rw [tellAll] at h
      cases hcb : cb.2 old new with
      | some e =>
          rw [hcb] at h
          rw [List.mem_singleton.1 h]
      | none =>
          rw [hcb] at h
          rcases List.mem_cons.1 h with rfl | h
          · rfl
          · exact ih h

/-- Who throws has been told.  So a call that a listener ended has told somebody. -/
theorem tellAll_ne_nil {old new : α} {cbs : List (ℕ × Listener α)} {e : Thrown}
    (h : (tellAll old new cbs).2 = some e) : (tellAll old new cbs).1 ≠ [] := by
  cases cbs with
  | nil => exact absurd h (by simp [tellAll])
  | cons cb cbs =>
      rw [tellAll]
      cases cb.2 old new <;> simp

/-- If none throws, each is told once, in the order of the keys.  No listener ends the loop. -/
theorem tellAll_quiet {old new : α} {cbs : List (ℕ × Listener α)}
    (h : ∀ cb ∈ cbs, cb.2 old new = none) :
    tellAll old new cbs = (cbs.map fun cb => ⟨cb.1, old, new⟩, none) := by
  induction cbs with
  | nil => rfl
  | cons cb cbs ih =>
      obtain ⟨hcb, hcbs⟩ := List.forall_mem_cons.1 h
      rw [tellAll, hcb, ih hcbs]
      rfl

/-- If none throws, this is `setValue` with a listener that tells them all.  The two models of
`setValue` agree where both apply. -/
theorem trySetValue_quiet [BEq α] {cbs : List (ℕ × Listener α)} {v val : α}
    (h : ∀ cb ∈ cbs, cb.2 val v = none) :
    ((trySetValue cbs v val).val, (trySetValue cbs v val).told) =
      setValue (fun old new told => told ++ cbs.map fun cb => ⟨cb.1, old, new⟩) v (val, []) := by
  rw [trySetValue, setValue, tellAll_quiet h]
  split_ifs <;> rfl

/-! ### All or nothing -/

section AllOrNothing

variable [BEq α] (fromStr : Bytes → Except Thrown α) (cbs : List (ℕ × Listener α))

/-- What a call of `fromString` is to do: all of it, or none.  All is `true`, the value
assigned, everybody told; nothing is `false`, the old value, nobody told of a value that is not
assigned. -/
def AllOrNothing (text : Bytes) (val : α) : Prop :=
  let o := fromString fromStr cbs text val
  (∃ v, fromStr text = .ok v ∧ o.result = .ok true ∧ o.val = v ∧
      o.told = if v == val then [] else cbs.map fun cb => ⟨cb.1, val, v⟩) ∨
    o.result = .ok false ∧ o.val = val ∧ ∀ n ∈ o.told, n.new = o.val

/-- What a call does once the text is converted.  Three cases: equal, a listener that throws,
and none. -/
theorem fromString_ok {text : Bytes} {v : α} (h : fromStr text = .ok v) (val : α) :
    fromString fromStr cbs text val =
      if v == val then ⟨.ok false, val, []⟩
      else
        match cbs.findSome? fun cb => cb.2 val v with
        | some .other => ⟨.error .other, val, (tellAll val v cbs).1⟩
        | some .exception => ⟨.ok false, val, (tellAll val v cbs).1⟩
        | none => ⟨.ok false, v, (tellAll val v cbs).1⟩ := by
  rw [← tellAll_thrown, fromString, h]
  simp only [trySetValue]
  split_ifs with heq
  · rfl
  · rcases htell : tellAll val v cbs with ⟨told, _ | _ | _⟩ <;> rfl

/-- It never returns `true`.  The source has no `return true`. -/
theorem fromString_ne_true (text : Bytes) (val : α) :
    (fromString fromStr cbs text val).result ≠ .ok true := by
  rcases hconv : fromStr text with (_ | _) | v
  · rw [fromString, hconv]
    simp
  · rw [fromString, hconv]
    simp
  · rw [fromString_ok fromStr cbs hconv]
    split_ifs
    · simp
    · split <;> simp

/-- Since it never returns `true`, all or nothing is nothing. -/
theorem allOrNothing_iff_nothing (text : Bytes) (val : α) :
    AllOrNothing fromStr cbs text val ↔ (fromString fromStr cbs text val).result = .ok false ∧
      (fromString fromStr cbs text val).val = val ∧
      ∀ n ∈ (fromString fromStr cbs text val).told, n.new = (fromString fromStr cbs text val).val :=
  or_iff_right fun ⟨_, _, htrue, _⟩ => fromString_ne_true fromStr cbs text val htrue

/-- **Setting from a text is all or nothing** when the conversion throws an `std::exception`,
when the value compares equal to the one there is, and when it is that one and no listener
throws what is not caught; in every other case it is not.  Both directions, for every text,
value, converter and set of listeners.  `fromString` is `src/hiper/base/config.h:97-108`; there
is no `return true` in it. -/
theorem fromString_iff (text : Bytes) (val : α) :
    AllOrNothing fromStr cbs text val ↔ fromStr text = .error .exception ∨
      ∃ v, fromStr text = .ok v ∧ ((v == val) = true ∨
        v = val ∧ (cbs.findSome? fun cb => cb.2 val v) ≠ some .other) := by
  rw [allOrNothing_iff_nothing]
  rcases hconv : fromStr text with (_ | _) | v
  · simp [fromString, hconv]
  · simp [fromString, hconv]
  · rw [fromString_ok fromStr cbs hconv]
    cases heq : v == val with
    | true => simp [heq]
    | false =>
        have hright : ((Except.ok v : Except Thrown α) = .error .exception ∨
            ∃ v', (Except.ok v : Except Thrown α) = .ok v' ∧ ((v' == val) = true ∨
              v' = val ∧ (cbs.findSome? fun cb => cb.2 val v') ≠ some .other)) ↔
            v = val ∧ (cbs.findSome? fun cb => cb.2 val v) ≠ some .other := by
          constructor
          · rintro (h | ⟨v', h, hcase⟩)
            · exact absurd h (by simp)
            · obtain rfl := Except.ok.inj h
              exact hcase.resolve_left (by simp [heq])
          · exact fun h => .inr ⟨v, rfl, .inr h⟩
        have htold : ∀ n ∈ (tellAll val v cbs).1, n.new = v := fun n hn => tellAll_told hn
        rw [hright, if_neg Bool.false_ne_true]
        rcases hthrown : cbs.findSome? fun cb => cb.2 val v with _ | _ | _
        · -- all were told, and the value is assigned
          simp only [hthrown]
          exact ⟨fun h => ⟨h.2.1, by simp⟩, fun h => ⟨trivial, h.1, htold⟩⟩
        · -- one threw what is caught, after it was told
          simp only [hthrown]
          constructor
          · rintro ⟨-, -, hval⟩
            obtain ⟨n, hn⟩ := List.exists_mem_of_ne_nil _
              (tellAll_ne_nil (e := .exception) (by rw [tellAll_thrown, hthrown]))
            exact ⟨(htold n hn).symm.trans (hval n hn), by simp⟩
          · rintro ⟨rfl, -⟩
            exact ⟨trivial, trivial, htold⟩
        · simp only [hthrown]
          exact ⟨fun h => absurd h.1 (by simp), fun h => absurd rfl h.2⟩

/-- The value 1 is assigned, its listener is told, and `false` is returned.  The failing input. -/
theorem fromString_returns_false :
    ¬AllOrNothing (fun _ => .ok 1) [(1, fun _ _ => none)] (StringUtil.text "1") 0 := by
  rintro (⟨-, -, hresult, -⟩ | ⟨-, hval, -⟩)
  · exact absurd (Except.ok.inj hresult) (by decide)
  · exact absurd hval (by decide)

end AllOrNothing

end ConfigVar

end Hiper

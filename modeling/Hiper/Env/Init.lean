import Hiper.Lib.Keyed
import Hiper.StringUtil.Basic
import Mathlib.Data.List.Chain

/-!
# Arguments of the command line

`Env::init` reads the arguments behind the program name once, from the left, with the
key it has seen last while it has no value yet.  Of the arguments that are accepted
(`Accepts`) it keeps the options in their order (`options`, `initLoop_args`), so the
last one of a key says what the key has (`init_parses`).

The function is `env.cc:22`, with `add`, `has` and `get` (`env.cc:68-92`).  The map of the
arguments is a function from keys to values, since it is only asked by key.  The grammar is
not given by the source but stated here for it: an argument that starts with a dash and has
more is a key, any other argument is a value and stands behind a key, and a key without a
value has the empty text.  The values are those of `strlen` and `char*`, so that no argument
has a zero byte inside.
-/

namespace Hiper

open Lib

/-- `Env`: `exe_`, `cwd_`, `program_` and `args_`.  The help texts are not read by `init`. -/
structure Env where
  exe : Bytes
  cwd : Bytes
  program : Bytes
  args : Bytes → Option Bytes

namespace Env

/-- `Env::Env()`.  No option is there. -/
def new : Env := ⟨[], [], [], fun _ => none⟩

/-- `add(key, val)`.  A key that is there gets the new value (`env.cc:68`). -/
def add (key val : Bytes) (env : Env) : Env :=
  { env with args := Function.update env.args key (some val) }

/-- `has(key)`.  Whether the key has been added (`env.cc:74`). -/
def has (key : Bytes) (env : Env) : Bool := (env.args key).isSome

/-- `get(key, default_value)`.  The default when the key is not there (`env.cc:87`). -/
def get (key defaultValue : Bytes) (env : Env) : Bytes := (env.args key).getD defaultValue

/-- `'-'`.  Keys start with it. -/
def dash : Byte := 45

/-- `if (now_key) add(now_key, "")`.  A key that has no value yet gets the empty one. -/
def flush (nowKey : Option Bytes) (env : Env) : Env :=
  match nowKey with
  | some key => env.add key []
  | none => env

/-- The loop over `argv[i]`, and what is behind it.  The key it holds is the last one, as long
as it has no value (`env.cc:39-65`). -/
def initLoop : Option Bytes → List Bytes → Env → Bool × Env
  | nowKey, [], env => (true, env.flush nowKey)
  | nowKey, arg :: argv, env =>
    if arg.head? = some dash then
      if arg.length > 1 then initLoop (some arg.tail) argv (env.flush nowKey) else (false, env)
    else
      match nowKey with
      | some key => initLoop none argv (env.add key arg)
      | none => (false, env)

/-- `exe.substr(0, exe.find_last_of("/"))`.  With no slash in it, that is all of it. -/
def directory (exe : Bytes) : Bytes :=
  if 47 ∈ exe then ((exe.reverse.dropWhile (· ≠ 47)).drop 1).reverse else exe

/-- `init(argc, argv)`, for a program and its arguments; `exe` is what `readlink` found.  The
loop starts without a key (`env.cc:22`). -/
def init (exe program : Bytes) (argv : List Bytes) (env : Env) : Bool × Env :=
  initLoop none argv { env with exe := exe, cwd := directory exe ++ [47], program := program }

/-! ### The grammar -/

/-- An argument that is no key.  It does not start with a dash. -/
def IsValue (arg : Bytes) : Prop := arg.head? ≠ some dash

/-- Whether an argument is a value is seen from its first byte. -/
instance : DecidablePred IsValue := fun _ => instDecidableNot

/-- What is accepted: no argument is a dash, and every value is directly behind a key.  A key
may stand without a value, also at the end. -/
structure Accepts (argv : List Bytes) : Prop where
  no_dash : [dash] ∉ argv
  follows : ∀ pre v post, argv = pre ++ v :: post → IsValue v →
    ∃ before key, key ≠ [] ∧ pre = before ++ [dash :: key]

/-- The value that is attached to a key, before these arguments.  It is the next argument, if
that is a value. -/
def attached : List Bytes → Bytes
  | [] => []
  | v :: _ => if v.head? = some dash then [] else v

/-- The keys with their values, in order.  One for each key that occurs. -/
def options : List Bytes → List (Bytes × Bytes)
  | [] => []
  | arg :: argv =>
    if arg.head? = some dash then (arg.tail, attached argv) :: options argv else options argv

/-- A value is behind a key.  Of two arguments next to each other. -/
def Behind (a b : Bytes) : Prop := IsValue b → ∃ key, key ≠ [] ∧ a = dash :: key

/-- Accepted are the arguments in which no one is a dash and every value is behind a key, the
first argument being behind none. -/
theorem accepts_iff (argv : List Bytes) :
    Accepts argv ↔ [dash] ∉ argv ∧ List.IsChain Behind ([] :: argv) := by
  rw [List.isChain_iff_forall_rel_of_append_cons_cons]
  constructor
  · intro h
    refine ⟨h.no_dash, fun a b l₁ l₂ hargv hvalue => ?_⟩
    rcases List.cons_eq_append_iff.1 hargv with ⟨rfl, hfirst⟩ | ⟨l, rfl, hrest⟩
    · obtain ⟨rfl, rfl⟩ := List.cons.inj hfirst
      obtain ⟨before, key, -, hpre⟩ := h.follows [] b l₂ rfl hvalue
      exact absurd hpre (by simp)
    · obtain ⟨before, key, hkey, hpre⟩ := h.follows (l ++ [a]) b l₂ (by simp [hrest]) hvalue
      exact ⟨key, hkey, (List.append_inj' hpre rfl).2 |> List.singleton_inj.1⟩
  · rintro ⟨hdash, hchain⟩
    refine ⟨hdash, fun pre v post hargv hvalue => ?_⟩
    rcases List.eq_nil_or_concat' pre with rfl | ⟨before, a, rfl⟩
    · have hsplit : [] :: argv = [] ++ [] :: v :: post := by rw [hargv]; rfl
      obtain ⟨key, -, hkey⟩ := hchain hsplit hvalue
      exact absurd hkey (by simp)
    · have hsplit : [] :: argv = ([] :: before) ++ a :: v :: post := by rw [hargv]; simp
      obtain ⟨key, hkey, rfl⟩ := hchain hsplit hvalue
      exact ⟨before, key, hkey, rfl⟩

/-! ### The loop -/

/-- The argument before, as far as the loop knows it: a key it has no value for, or none.  A
value that has been taken leaves none. -/
def Pending (nowKey : Option Bytes) (prev : Bytes) : Prop :=
  match nowKey with
  | some key => key ≠ [] ∧ prev = dash :: key
  | none => ∀ key, key ≠ [] → prev ≠ dash :: key

/-- What is accepted, from an argument on.  The induction is over the arguments. -/
theorem initLoop_iff (argv : List Bytes) {nowKey : Option Bytes} {prev : Bytes}
    (hprev : Pending nowKey prev) (env : Env) :
    (initLoop nowKey argv env).1 = true ↔ [dash] ∉ argv ∧ List.IsChain Behind (prev :: argv) := by
  induction argv generalizing nowKey prev env with
  | nil => exact iff_of_true rfl ⟨List.not_mem_nil, .singleton prev⟩
  | cons arg argv ih =>
      rw [initLoop.eq_def, List.mem_cons, not_or, List.isChain_cons_cons]
      dsimp only
      by_cases hdash : arg.head? = some dash
      · obtain ⟨key, rfl⟩ := List.head?_eq_some_iff.1 hdash
        have hbehind : Behind prev (dash :: key) := fun hvalue => absurd hdash hvalue
        rw [if_pos hdash, List.tail_cons]
        by_cases hkey : key = []
        · rw [if_neg (by simp [hkey]), hkey]
          simp
        · have hpending : Pending (some key) (dash :: key) := ⟨hkey, rfl⟩
          rw [if_pos (by simpa using List.length_pos_iff.2 hkey), ih hpending]
          simp [hbehind, Ne.symm hkey]
      · have hne : [dash] ≠ arg := by
          rintro rfl
          exact hdash rfl
        rw [if_neg hdash]
        cases nowKey with
        | some key =>
            have hbehind : Behind prev arg := fun _ => ⟨key, hprev⟩
            have hpending : Pending none arg := fun key _ harg => hdash (harg ▸ rfl)
            simp only [ih hpending, hne, hbehind, not_false_eq_true, true_and]
        | none =>
            have hbehind : ¬Behind prev arg := fun h => by
              obtain ⟨key, hkey, heq⟩ := h hdash
              exact hprev key hkey heq
            simp [hbehind]

/-- The options that the loop has yet to add.  A key that is held is among them, with what is
attached to it. -/
def rest (nowKey : Option Bytes) (argv : List Bytes) : List (Bytes × Bytes) :=
  options (nowKey.toList.map (dash :: ·) ++ argv)

/-- With no key held, they are the options of the arguments. -/
theorem rest_none (argv : List Bytes) : rest none argv = options argv := rfl

/-- **The loop adds the options**, one after the other.  The induction is over the arguments. -/
theorem initLoop_args (nowKey : Option Bytes) (argv : List Bytes) (env : Env)
    (h : (initLoop nowKey argv env).1 = true) :
    (initLoop nowKey argv env).2.args =
      updateAll Prod.fst (fun o _ => some o.2) (rest nowKey argv) env.args := by
  induction argv generalizing nowKey env with
  | nil => cases nowKey <;> rfl
  | cons arg argv ih =>
      rw [initLoop.eq_def] at h ⊢
      dsimp only at h ⊢
      by_cases hdash : arg.head? = some dash
      · obtain ⟨key, rfl⟩ := List.head?_eq_some_iff.1 hdash
        rw [if_pos hdash] at h ⊢
        split_ifs at h ⊢
        rw [ih _ _ h]
        cases nowKey <;> rfl
      · rw [if_neg hdash] at h ⊢
        cases nowKey with
        | none => exact absurd h Bool.false_ne_true
        | some key =>
            have hrest : rest (some key) (arg :: argv) = (key, arg) :: rest none argv := by
              simp [rest, options, attached, hdash]
            rw [ih _ _ h, hrest, updateAll_cons]
            rfl

/-! ### Options -/

/-- The keys of the options are the arguments that are keys. -/
theorem mem_options_key {argv : List Bytes} {key : Bytes} :
    (∃ o ∈ options argv, o.1 = key) ↔ dash :: key ∈ argv := by
  induction argv with
  | nil => simp [options]
  | cons arg argv ih =>
      rw [options, List.mem_cons]
      split_ifs with hdash
      · obtain ⟨k, rfl⟩ := List.head?_eq_some_iff.1 hdash
        rw [List.exists_mem_cons_iff, ih]
        simp [eq_comm]
      · have hne : dash :: key ≠ arg := by
          rintro rfl
          exact hdash rfl
        rw [ih, or_iff_right hne]

/-- The options around a key.  What is attached to it is what follows it. -/
theorem options_append (pre : List Bytes) (key : Bytes) (post : List Bytes) :
    ∃ os, options (pre ++ (dash :: key) :: post) = os ++ (key, attached post) :: options post := by
  induction pre with
  | nil => exact ⟨[], rfl⟩
  | cons arg pre ih =>
      obtain ⟨os, hos⟩ := ih
      rw [List.cons_append, options, hos]
      split_ifs
      · exact ⟨_ :: os, rfl⟩
      · exact ⟨os, rfl⟩

/-- Where an option has the key, the last of them says what there is.  What was there before
does not matter then. -/
theorem updateAll_some {os : List (Bytes × Bytes)} {key : Bytes} (h : ∃ o ∈ os, o.1 = key)
    (args : Bytes → Option Bytes) :
    ∃ v, updateAll Prod.fst (fun o _ => some o.2) os args key = some v := by
  induction os generalizing args with
  | nil => simp at h
  | cons o os ih =>
      rw [updateAll_cons]
      by_cases hos : ∃ o ∈ os, o.1 = key
      · exact ih hos _
      · obtain rfl : o.1 = key := by
          rcases (List.exists_mem_cons_iff _ _ _).1 h with h | h
          · exact h
          · exact absurd h hos
        push Not at hos
        exact ⟨o.2, by rw [updateAll_of_notMem hos, Function.update_self]⟩

/-- A key is there afterwards if it was before, or occurs. -/
theorem initLoop_has {argv : List Bytes} {env : Env} (h : (initLoop none argv env).1 = true)
    (key : Bytes) :
    (initLoop none argv env).2.has key = true ↔ env.has key = true ∨ dash :: key ∈ argv := by
  rw [has, initLoop_args none argv env h, rest_none, ← mem_options_key]
  by_cases hmem : ∃ o ∈ options argv, o.1 = key
  · obtain ⟨v, hv⟩ := updateAll_some hmem env.args
    rw [hv]
    exact iff_of_true rfl (.inr hmem)
  · rw [or_iff_left hmem]
    push Not at hmem
    rw [updateAll_of_notMem hmem, has]

/-- A key has what is attached to its last occurrence, whatever the default. -/
theorem initLoop_get {pre post : List Bytes} {key : Bytes} {env : Env}
    (h : (initLoop none (pre ++ (dash :: key) :: post) env).1 = true)
    (hlast : dash :: key ∉ post) (d : Bytes) :
    (initLoop none (pre ++ (dash :: key) :: post) env).2.get key d = attached post := by
  have hpost : ∀ o ∈ options post, o.1 ≠ key := fun o ho heq =>
    hlast (mem_options_key.1 ⟨o, ho, heq⟩)
  obtain ⟨os, hos⟩ := options_append pre key post
  rw [get, initLoop_args none _ env h, rest_none, hos, updateAll_append, updateAll_cons,
    updateAll_of_notMem hpost, Function.update_self, Option.getD_some]

/-- **`init` accepts its grammar.**  An option is there if its key occurs, with what is attached
to the last occurrence.  And `init` accepts every argument vector of the grammar, and no other.
The loop is `src/hiper/base/env.cc:38-61`, with the key that waits for its value in `now_key`;
`add` (68) overwrites, so the last one stands. -/
theorem init_parses (exe program : Bytes) (argv : List Bytes) :
    ((init exe program argv new).1 = true ↔ Accepts argv) ∧
      ((init exe program argv new).1 = true → ∀ key,
        ((init exe program argv new).2.has key = true ↔ dash :: key ∈ argv) ∧
        ∀ pre post d, argv = pre ++ (dash :: key) :: post → dash :: key ∉ post →
          (init exe program argv new).2.get key d = attached post) := by
  have hnone : Pending none [] := fun key _ => (List.cons_ne_nil _ _).symm
  refine ⟨(initLoop_iff argv hnone _).trans (accepts_iff argv).symm, fun h key => ⟨?_, ?_⟩⟩
  · exact (initLoop_has h key).trans (or_iff_right Bool.false_ne_true)
  · rintro pre post d rfl hlast
    exact initLoop_get h hlast d

/-- `-c x -c -d`. -/
example : (init [] [] [[45, 99], [120], [45, 99], [45, 100]] new).2.get [99] [1] = [] := by decide

end Env

end Hiper

import Hiper.Config.Yaml
import Hiper.Log.Reconfigure

/-!
# A log definition as a text

`log.cc`: the two `LexicalCast`s between a `LogDefine` and a text, over the node that
the text is of.  A field is written if it is not the default, and is the default if it
is not read.

What comes back has the levels of its appenders lost (`decode_encode`): they are written,
and never read.  So a definition comes back if and only if no appender has a level of
its own (`lexicalCast_iff`).

The two casts are `src/hiper/base/log.cc:714` (from a text) and `:770` (to a text), through
nodes of yaml-cpp.  Of that library it is asked that it loads the node that it emitted; the
keys, the defaults and the order in which they are looked at are the source's.
-/

namespace Hiper

open StringUtil

namespace LexicalCast

/-! ### `LexicalCast<LogDefine, std::string>` -/

/-- A field that is written unless it is the default.  None or one entry. -/
def optional (written : Bool) (key : String) (value : YamlNode) : List (Bytes × YamlNode) :=
  if written then [(text key, value)] else []

/-- The node of an appender.  Its level is written here. -/
def encodeAppender (a : LogAppenderDefine) : YamlNode :=
  .map ((match a.type with
    | .file => [(text "type", .scalar (text "FileLogAppender")), (text "file", .scalar a.file)]
    | .stdout => [(text "type", .scalar (text "StdoutLogAppender"))]) ++
    optional (a.level ≠ .unknow) "level" (.scalar a.level.toString) ++
    optional (a.formatter ≠ []) "formatter" (.scalar a.formatter))

/-- The node of a definition.  The appenders are written as a sequence, when there are any. -/
def encode (i : LogDefine) : YamlNode :=
  .map ([(text "name", .scalar i.name)] ++
    optional (i.level ≠ .unknow) "level" (.scalar i.level.toString) ++
    optional (i.formatter ≠ []) "formatter" (.scalar i.formatter) ++
    optional (i.appenders ≠ []) "appenders" (.sequence (i.appenders.map encodeAppender)))

variable (y : YamlCpp)

/-- `LexicalCast<LogDefine, std::string>`. -/
def toText (i : LogDefine) : Bytes := y.emit (encode i)

/-! ### `LexicalCast<std::string, LogDefine>` -/

/-- `n[key].IsDefined() ? n[key].as<std::string>() : ""`.  An error is that of the library. -/
def stringOf (n : YamlNode) (key : String) : Except Bytes Bytes := do
  match ← y.get n (text key) with
  | none => pure []
  | some value => y.asString value

/-- The body of the loop over the appenders; `none` is `continue`.  An appender without a type,
or of an unknown type, is skipped. -/
def decodeAppender (a : YamlNode) : Except Bytes (Option LogAppenderDefine) := do
  match ← y.get a (text "type") with
  | none => pure none
  | some value =>
    let type ← y.asString value
    if type = text "FileLogAppender" then
      match ← y.get a (text "file") with
      | none => pure none
      | some value =>
        let file ← y.asString value
        let formatter ← stringOf y a "formatter"
        pure (some ⟨.file, .unknow, formatter, file⟩)
    else if type = text "StdoutLogAppender" then
      let formatter ← stringOf y a "formatter"
      pure (some ⟨.stdout, .unknow, formatter, []⟩)
    else pure none

/-- The loop over the appenders.  In their order. -/
def decodeAppenders (appenders : YamlNode) : List ℕ → Except Bytes (List LogAppenderDefine)
  | [] => pure []
  | x :: xs => do
    let lad ← match ← y.item appenders x with
      | none => pure none
      | some a => decodeAppender y a
    let rest ← decodeAppenders appenders xs
    pure (lad.toList ++ rest)

/-- The definition of a node.  A node without a name is an error. -/
def decode (n : YamlNode) : Except Bytes LogDefine := do
  match ← y.get n (text "name") with
  | none => throw (text "log config name is null")
  | some value =>
    let name ← y.asString value
    let level ← stringOf y n "level"
    let formatter ← stringOf y n "formatter"
    let appenders ← match ← y.get n (text "appenders") with
      | none => pure []
      | some appenders => decodeAppenders y appenders (List.range (y.size appenders))
    pure ⟨name, LogLevel.fromString level, formatter, appenders⟩

/-- `LexicalCast<std::string, LogDefine>`. -/
def ofText (v : Bytes) : Except Bytes LogDefine := do decode y (← y.load v)

/-! ### What is read of what was written -/

/-- An optional entry is found if it was written. -/
theorem lookup_optional_self (written : Bool) (key : String) (value : YamlNode) :
    (optional written key value).lookup (text key) = if written then some value else none := by
  rw [optional]
  cases written
  · rfl
  · exact List.lookup_cons_self

/-- An optional entry is not found under another key. -/
theorem lookup_optional_ne {key key' : String} (h : text key ≠ text key') (written : Bool)
    (value : YamlNode) : (optional written key' value).lookup (text key) = none := by
  rw [optional]
  cases written
  · rfl
  · rw [if_pos rfl, List.lookup_cons, beq_eq_false_iff_ne.2 h]
    rfl

variable {y}

/-- A text that is written unless it is empty.  It is the text, or the default. -/
theorem stringOf_eq (R : y.Reads) {entries : List (Bytes × YamlNode)} {key : String} {s : Bytes}
    {written : Bool} (hs : written = false → s = [])
    (h : entries.lookup (text key) = if written then some (.scalar s) else none) :
    stringOf y (.map entries) key = .ok s := by
  rw [stringOf, R.get_map, h]
  cases written with
  | false =>
      rw [hs rfl]
      rfl
  | true => exact R.asString_scalar s

/-- A text that is written when it is not empty. -/
theorem stringOf_nonempty (R : y.Reads) {entries : List (Bytes × YamlNode)} {key : String} {s : Bytes}
    (h : entries.lookup (text key) = if decide (s ≠ []) then some (.scalar s) else none) :
    stringOf y (.map entries) key = .ok s :=
  stringOf_eq R (by simp) h

/-- What comes back of an appender.  Its level is the default, and one that writes to the
standard output has no file. -/
def carried (a : LogAppenderDefine) : LogAppenderDefine :=
  ⟨a.type, .unknow, a.formatter, if a.type = .file then a.file else []⟩

/-- An appender comes back as that. -/
theorem decodeAppender_encode (R : y.Reads) (a : LogAppenderDefine) :
    decodeAppender y (encodeAppender a) = .ok (some (carried a)) := by
  have hformatter : stringOf y (encodeAppender a) "formatter" = .ok a.formatter := by
    rw [encodeAppender]
    refine stringOf_nonempty R ?_
    rw [List.lookup_append, List.lookup_append, lookup_optional_ne (by decide),
      lookup_optional_self]
    cases a.type <;> rfl
  have htype : y.get (encodeAppender a) (text "type") = .ok (some (.scalar (match a.type with
      | .file => text "FileLogAppender"
      | .stdout => text "StdoutLogAppender"))) := by
    rw [encodeAppender, R.get_map, List.lookup_append, List.lookup_append]
    cases a.type <;> rfl
  rw [decodeAppender, htype]
  cases hcase : a.type with
  | file =>
      have hfile : y.get (encodeAppender a) (text "file") = .ok (some (.scalar a.file)) := by
        rw [encodeAppender, R.get_map, List.lookup_append, List.lookup_append, hcase]
        rfl
      have htext : y.asString (.scalar (text "FileLogAppender")) = .ok (text "FileLogAppender") :=
        R.asString_scalar _
      simp only [htext, hfile, R.asString_scalar, hformatter, bind, Except.bind, if_true]
      rw [carried, hcase]
      rfl
  | stdout =>
      have htext : y.asString (.scalar (text "StdoutLogAppender")) =
          .ok (text "StdoutLogAppender") := R.asString_scalar _
      simp only [htext, hformatter, bind, Except.bind, if_true]
      rw [carried, hcase]
      rfl

/-- The loop, with the appenders `done` behind it.  The induction is over the others. -/
theorem decodeAppenders_encode (R : y.Reads) (done rest : List LogAppenderDefine) :
    decodeAppenders y (.sequence ((done ++ rest).map encodeAppender))
      (List.range' done.length rest.length) = .ok (rest.map carried) := by
  induction rest generalizing done with
  | nil => rfl
  | cons a rest ih =>
      have hitem : y.item (.sequence ((done ++ a :: rest).map encodeAppender)) done.length =
          .ok (some (encodeAppender a)) := by
        rw [R.item_sequence, List.getElem?_map, List.getElem?_append_right (Nat.le_refl _),
          Nat.sub_self, List.getElem?_cons_zero, Option.map_some]
      have hrest := ih (done ++ [a])
      rw [List.append_assoc, List.length_append, List.length_singleton, List.singleton_append]
        at hrest
      rw [List.length_cons, List.range'_succ, decodeAppenders, hitem]
      simp only [bind, Except.bind, decodeAppender_encode R a, hrest]
      rfl

/-- What comes back of a definition.  The name, the level and the formatter come back as they
were. -/
theorem decode_encode (R : y.Reads) (i : LogDefine) :
    decode y (encode i) = .ok { i with appenders := i.appenders.map carried } := by
  have hname : y.get (encode i) (text "name") = .ok (some (.scalar i.name)) := by
    rw [encode, R.get_map]
    rfl
  have hlevel : stringOf y (encode i) "level" =
      .ok (if i.level = .unknow then [] else i.level.toString) := by
    have hunknow : decide (i.level ≠ .unknow) = false →
        (if i.level = .unknow then [] else i.level.toString) = [] := by
      intro h
      rw [if_pos (by simpa using h)]
    rw [encode]
    refine stringOf_eq R hunknow ?_
    rw [List.lookup_append, List.lookup_append, List.lookup_append, lookup_optional_self,
      lookup_optional_ne (by decide), lookup_optional_ne (by decide)]
    cases i.level <;> rfl
  have hformatter : stringOf y (encode i) "formatter" = .ok i.formatter := by
    rw [encode]
    refine stringOf_nonempty R ?_
    rw [List.lookup_append, List.lookup_append, List.lookup_append, lookup_optional_self,
      lookup_optional_ne (by decide), lookup_optional_ne (by decide)]
    cases i.formatter <;> rfl
  have happenders : y.get (encode i) (text "appenders") =
      .ok (if i.appenders = [] then none else some (.sequence (i.appenders.map encodeAppender))) := by
    rw [encode, R.get_map, List.lookup_append, List.lookup_append, List.lookup_append,
      lookup_optional_self, lookup_optional_ne (by decide), lookup_optional_ne (by decide)]
    cases i.appenders <;> rfl
  have hloop := decodeAppenders_encode R [] i.appenders
  rw [decode, hname]
  simp only [bind, Except.bind, R.asString_scalar, hlevel, hformatter, happenders,
    LogLevel.fromString_toString]
  split_ifs with hnil
  · rw [hnil]
    rfl
  · rw [List.length_nil, List.nil_append] at hloop
    simp only [R.size_sequence, List.length_map, List.range_eq_range', hloop]
    rfl

/-- An appender comes back as it was exactly when its level was the default and it had no file
that it does not write to. -/
theorem carried_eq_iff (a : LogAppenderDefine) :
    carried a = a ↔ a.level = .unknow ∧ (a.type = .stdout → a.file = []) := by
  obtain ⟨type, level, formatter, file⟩ := a
  cases type <;> simp [carried, eq_comm]

/-- A definition, written and read. -/
theorem ofText_toText (R : y.Reads) {i : LogDefine}
    (hload : y.load (y.emit (encode i)) = .ok (encode i)) :
    ofText y (toText y i) = .ok { i with appenders := i.appenders.map carried } := by
  rw [ofText, toText, hload]
  exact decode_encode R i

/-- **A definition comes back** from its text, if the library loads what it emits, when no
appender has a level of its own, and a file is that of a file appender; and only then.  The two
directions are `src/hiper/base/log.cc:714-806`.  The one to a definition never reads the level
of an appender, and the one to text writes it. -/
theorem lexicalCast_iff (R : y.Reads) (i : LogDefine)
    (hload : y.load (y.emit (encode i)) = .ok (encode i)) :
    ofText y (toText y i) = .ok i ↔
      ∀ a ∈ i.appenders, a.level = .unknow ∧ (a.type = .stdout → a.file = []) := by
  have hsame : ofText y (toText y i) = .ok i ↔ i.appenders.map carried = i.appenders.map id := by
    rw [ofText_toText R hload, Except.ok.injEq, List.map_id]
    exact ⟨fun h => congrArg LogDefine.appenders h, fun h => by rw [h]⟩
  rw [hsame, List.map_inj_left]
  exact forall₂_congr fun a _ => carried_eq_iff a

/-- The library, of which one node and its text are known.  It loads that text as that node, and
nothing else. -/
def libraryOf (node : YamlNode) (t : Bytes) : YamlCpp where
  load v := if v = t then .ok node else .error (text "unknown text")
  emit _ := t
  get
    | .map entries, key => .ok (entries.lookup key)
    | .scalar _, _ => .error (text "operator[] call on a scalar")
    | .null, _ | .sequence _, _ => .ok none
  size
    | .map entries => entries.length
    | .sequence items => items.length
    | .null | .scalar _ => 0
  item
    | .sequence items, index => .ok items[index]?
    | .scalar _, _ => .error (text "operator[] call on a scalar")
    | .null, _ | .map _, _ => .ok none
  asString
    | .scalar s => .ok s
    | .null => .ok (text "null")
    | .sequence _ | .map _ => .error (text "bad conversion")

/-- It reads what it has. -/
theorem libraryOf_reads (node : YamlNode) (t : Bytes) : (libraryOf node t).Reads :=
  ⟨fun _ _ => rfl, fun _ => rfl, fun _ _ => rfl, fun _ => rfl⟩

/-- It loads what it emits of that node. -/
theorem libraryOf_load (node : YamlNode) (t : Bytes) :
    (libraryOf node t).load ((libraryOf node t).emit node) = .ok node := if_pos rfl

/-- A logger with a file.  The level is that of its appender. -/
def systemDefine (level : LogLevel) : LogDefine :=
  ⟨text "system", .info, [], [⟨.file, level, text "[%p] %m%n", text "log.txt"⟩]⟩

/-- A file appender without a level of its own comes back. -/
theorem lexicalCast_system :
    let y := libraryOf (encode (systemDefine .unknow)) (text
      "name: system\nlevel: INFO\nappenders:\n  - type: FileLogAppender\n    file: log.txt\n    formatter: \"[%p] %m%n\"")
    ofText y (toText y (systemDefine .unknow)) = .ok (systemDefine .unknow) :=
  (lexicalCast_iff (libraryOf_reads _ _) (systemDefine .unknow) (libraryOf_load _ _)).2 (by decide)

/-- The level of an appender is written, and does not come back. -/
theorem lexicalCast_level :
    let y := libraryOf (encode (systemDefine .error)) (text
      "name: system\nlevel: INFO\nappenders:\n  - type: FileLogAppender\n    file: log.txt\n    level: ERROR\n    formatter: \"[%p] %m%n\"")
    ofText y (toText y (systemDefine .error)) = .ok (systemDefine .unknow) ∧
      systemDefine .unknow ≠ systemDefine .error := by
  refine ⟨?_, fun h => ?_⟩
  · exact ofText_toText (libraryOf_reads _ _) (libraryOf_load (encode (systemDefine .error)) _)
  · exact absurd (congrArg (fun i => i.appenders.map LogAppenderDefine.level) h) (by decide)

end LexicalCast

end Hiper

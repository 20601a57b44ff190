import Hiper.Config.Yaml

/-!
# Variables from a YAML file

`Config::Lookup` registers a variable, and `Config::LoadFromYaml` sets the registered
ones from the nodes of a tree of nested maps.  Both know the characters of a name from
the same string, which has no `9`; and the second tests a path before the letters of it
are made small.

The functions are `config.h:204` (`Lookup`), `config.cc:21` (`LookupBase`), `config.cc:30`
(`ListAllMember`) and `config.cc:49` (`LoadFromYaml`).  The registry is a function from
names to variables with the type they were made for, since nothing else of it is looked at;
the variables themselves are a parameter, and so is `emit`, the text of a node that is no
scalar.  The comment over the check promises lower-case letters, digits, dot and underscore
(`config.cc:33`), and `isNameChar` is that promise.
-/

namespace Hiper

open StringUtil

namespace Config

/-- The characters of a name.  `"abcdefghikjlmnopqrstuvwxyz._012345678"` (`config.cc:34`). -/
def nameChars : Bytes := text "abcdefghikjlmnopqrstuvwxyz._012345678"

/-- `find_first_not_of(...) == npos`.  It is the test of both functions. -/
def isName (name : Bytes) : Bool := name.all (nameChars.contains ·)

/-- What `Lookup` answers; `invalid` is an `std::invalid_argument`.  A variable of another type
is answered with a null pointer. -/
inductive Answer (V : Type*)
  | found (var : V)
  | otherType
  | invalid (name : Bytes)
  | created (var : V)

/-- `Lookup<T>(name, default_value, description)`, where `make` is the new variable; the
registered variables come with the type they were made for.  A name that is there is not tested
(`config.h:204-233`). -/
def lookup {τ V : Type*} [DecidableEq τ] (type : τ) (name : Bytes) (make : V)
    (datas : Bytes → Option (τ × V)) : Answer V × (Bytes → Option (τ × V)) :=
  match datas name with
  | some (t, var) => (if t = type then .found var else .otherType, datas)
  | none =>
    if isName name then
      (.created make, fun key => if key = name then some (type, make) else datas key)
    else (.invalid name, datas)

/-- `LookupBase`.  The type does not matter to it (`config.cc:21`). -/
def lookupBase {τ V : Type*} (datas : Bytes → Option (τ × V)) (name : Bytes) : Option V :=
  (datas name).map Prod.snd

/-- The path of an entry of a map.  Without a dot at the top. -/
def memberPath (path key : Bytes) : Bytes := if path = [] then key else path ++ 46 :: key

mutual

/-- `ListAllMember`.  A path that is no name ends the descent there (`config.cc:30`). -/
def listAllMember (path : Bytes) (node : YamlNode) : List (Bytes × YamlNode) :=
  if isName path then
    (path, node) ::
      match node with
      | .map entries => listEntries path entries
      | .null | .scalar _ | .sequence _ => []
  else []

/-- `ListAllMember`: the loop over the entries of a map.  In the order of the map. -/
def listEntries (path : Bytes) : List (Bytes × YamlNode) → List (Bytes × YamlNode)
  | [] => []
  | (key, value) :: entries =>
    listAllMember (memberPath path key) value ++ listEntries path entries

end

/-- `LoadFromYaml`: the calls of `fromString`, with the variable and the text.  The letters of a
path are made small before the variable is looked up, and a scalar is given as it stands
(`config.cc:49`). -/
def loadFromYaml {τ V : Type*} (emit : YamlNode → Bytes) (datas : Bytes → Option (τ × V))
    (root : YamlNode) : List (V × Bytes) :=
  (listAllMember [] root).filterMap fun i =>
    if i.1 = [] then none
    else (lookupBase datas (i.1.map tolower)).map fun var => (var, i.2.toText emit)

/-! ### Names -/

/-- The characters that a name may have.  Lower-case letters, digits, dot and underscore. -/
def isNameChar (ch : Byte) : Bool := islower ch || isdigit ch || ch == 46 || ch == 95

/-- The string lacks the last digit.  So the test and its comment differ in one character. -/
theorem nameChars_contains (ch : Byte) : nameChars.contains ch = (isNameChar ch && ch != 57) := by
  have hall : ∀ n < 256, nameChars.contains (UInt8.ofNat n) =
      (isNameChar (UInt8.ofNat n) && UInt8.ofNat n != 57) := by decide +kernel
  rw [← UInt8.ofNat_toNat (x := ch)]
  exact hall ch.toNat ch.toNat_lt

/-- A name of the characters that it may have passes the test when it has no `9`. -/
theorem isName_iff {name : Bytes} (h : ∀ ch ∈ name, isNameChar ch = true) :
    isName name = true ↔ 57 ∉ name := by
  rw [isName, List.all_eq_true]
  constructor
  · intro hall hmem
    exact absurd (hall 57 hmem) (by rw [nameChars_contains]; decide)
  · intro hmem ch hch
    have hne : ch ≠ 57 := fun heq => hmem (heq ▸ hch)
    rw [nameChars_contains, h ch hch, Bool.true_and, bne_iff_ne]
    exact hne

/-- A name that is not registered is registered, unless it has a `9`.  Otherwise it is refused
as invalid. -/
theorem lookup_created_iff {τ V : Type*} [DecidableEq τ] (type : τ) (make : V)
    {datas : Bytes → Option (τ × V)} {name : Bytes} (hnew : datas name = none)
    (h : ∀ ch ∈ name, isNameChar ch = true) :
    (lookup type name make datas).1 = .created make ∧
      (lookup type name make datas).2 name = some (type, make) ↔ 57 ∉ name := by
  rw [← isName_iff h, lookup, hnew]
  cases isName name <;> simp [hnew]

/-! ### Paths -/

/-- A path with the keys that lead on from it.  Key by key, as `ListAllMember` makes them. -/
def follow (path : Bytes) (keys : List Bytes) : Bytes :=
  if path = [] then YamlNode.dotted keys else path ++ 46 :: YamlNode.dotted keys

/-- A key more is a longer path. -/
theorem follow_memberPath {path key : Bytes} {keys : List Bytes} (hkey : key ≠ []) (hkeys : keys ≠ []) :
    follow (memberPath path key) keys = follow path (key :: keys) := by
  rw [follow, follow, memberPath, YamlNode.dotted, YamlNode.dotted,
    List.intercalate_cons_of_ne_nil hkeys]
  split_ifs <;> simp_all

/-- A path that is a name starts with one. -/
theorem isName_follow {path : Bytes} {keys : List Bytes} (h : isName (follow path keys) = true) :
    isName path = true := by
  rw [follow] at h
  split_ifs at h with hpath
  · rw [hpath]
    rfl
  · rw [isName, List.all_append] at h
    exact (Bool.and_eq_true_iff.1 h).1

open YamlNode

/-- A node below a node, with its path.  The path is that of the node above, with the keys that
follow. -/
def under (path : Bytes) (m : List Bytes × YamlNode) : Bytes × YamlNode := (follow path m.1, m.2)

/-- The nodes below an entry, seen from the node above. -/
theorem under_memberPath {path key : Bytes} {value : YamlNode} (hkey : key ≠ []) :
    value.members.map (under (memberPath path key)) =
      (value.members.map fun m => (key :: m.1, m.2)).map (under path) := by
  rw [List.map_map]
  refine List.map_congr_left fun m hm => ?_
  rw [Function.comp_apply, under, under, follow_memberPath hkey (members_ne_nil hm)]

/-- Below a path that is no name, there is none.  So ending the descent there leaves out nothing
that would pass. -/
theorem filter_under_eq_nil {path : Bytes} (h : isName path = false)
    (ms : List (List Bytes × YamlNode)) : (ms.map (under path)).filter (isName ·.1) = [] := by
  rw [List.filter_eq_nil_iff]
  intro i hi hname
  obtain ⟨m, -, rfl⟩ := List.mem_map.1 hi
  rw [isName_follow hname] at h
  exact Bool.noConfusion h

mutual

/-- What `ListAllMember` lists are the nodes whose path is a name.  In pre-order.  The induction
is over the tree. -/
theorem listAllMember_eq (path : Bytes) (node : YamlNode) (h : NamedKeys node) :
    listAllMember path node =
      ((path, node) :: node.members.map (under path)).filter (isName ·.1) := by
  rw [listAllMember.eq_def, List.filter_cons]
  cases hname : isName path with
  | false =>
      rw [filter_under_eq_nil hname]
      rfl
  | true =>
      refine congrArg (List.cons (path, node)) ?_
      cases node with
      | map entries => rw [members]; exact listEntries_eq path entries h
      | null | scalar | sequence => rw [members]; rfl

/-- The same of the entries of a map. -/
theorem listEntries_eq (path : Bytes) (entries : List (Bytes × YamlNode))
    (h : NamedKeys (.map entries)) :
    listEntries path entries = ((membersOf entries).map (under path)).filter (isName ·.1) := by
  cases entries with
  | nil => rw [listEntries, membersOf]; rfl
  | cons e entries =>
      obtain ⟨key, value⟩ := e
      obtain ⟨hkey, hvalue, hentries⟩ := h.cons
      have hfirst : (memberPath path key, value) = under path ([key], value) := by
        rw [under, follow, memberPath, dotted, List.intercalate_singleton]
      rw [listEntries, listAllMember_eq _ value hvalue, listEntries_eq path entries hentries,
        membersOf, List.map_append, List.filter_append, List.map_cons, ← under_memberPath hkey,
        hfirst]

end

/-! ### What is set -/

section Load

variable {τ V : Type*} (emit : YamlNode → Bytes) (datas : Bytes → Option (τ × V))

/-- The call that a node below the root is to make: the variable with its path in small letters
gets its text.  It is what the comment of `config.h` says the file is for. -/
def assigns (m : List Bytes × YamlNode) : Option (V × Bytes) :=
  (lookupBase datas ((dotted m.1).map tolower)).map fun var => (var, m.2.toText emit)

/-- Keys that are not empty make a path that is not empty. -/
theorem dotted_ne_nil {keys : List Bytes} (hne : keys ≠ []) (h : ∀ key ∈ keys, key ≠ []) :
    dotted keys ≠ [] := by
  obtain ⟨key, keys, rfl⟩ := List.exists_cons_of_ne_nil hne
  have hkey := h key List.mem_cons_self
  rw [dotted]
  by_cases hkeys : keys = []
  · rwa [hkeys, List.intercalate_singleton]
  · rw [List.intercalate_cons_of_ne_nil hkeys]
    simp [hkey]

/-- Set are the nodes whose path is a name as it stands.  The root has the empty path and is
passed over. -/
theorem loadFromYaml_eq {root : YamlNode} (h : NamedKeys root) :
    loadFromYaml emit datas root =
      (root.members.filter (isName <| dotted ·.1)).filterMap (assigns emit datas) := by
  have hroot : isName (([] : Bytes), root).1 = true := rfl
  rw [loadFromYaml, listAllMember_eq [] root h, List.filter_cons, if_pos hroot,
    List.filterMap_cons_none rfl, List.filter_map, List.filterMap_map]
  refine List.filterMap_congr fun m hm => ?_
  have hmem := (List.mem_filter.1 hm).1
  have hpath : (under [] m).1 ≠ [] := dotted_ne_nil (members_ne_nil hmem) (h m hmem)
  rw [Function.comp_apply, if_neg hpath]
  rfl

/-- Leaving some out makes no difference where they call nothing.  It turns the comparison of
two lists of calls into a condition on the nodes. -/
theorem filterMap_filter_eq_iff {α β : Type*} {p : α → Bool} {f : α → Option β} {l : List α} :
    (l.filter p).filterMap f = l.filterMap f ↔ ∀ a ∈ l, (f a).isSome → p a = true := by
  induction l with
  | nil => simp
  | cons a l ih =>
      rw [List.forall_mem_cons, ← ih, List.filter_cons, List.filterMap_cons]
      cases hp : p a with
      | true =>
          rw [if_pos rfl, List.filterMap_cons]
          cases f a <;> simp
      | false =>
          have hsub : ((l.filter p).filterMap f).Sublist (l.filterMap f) :=
            List.filter_sublist.filterMap f
          cases f a with
          | none => simp
          | some b =>
              refine iff_of_false (fun heq => ?_) (by simp)
              have hle := hsub.length_le
              rw [if_neg Bool.false_ne_true] at heq
              rw [heq, List.length_cons] at hle
              omega

/-- **What `LoadFromYaml` sets.**  It makes the calls it should, in pre-order, if and only if
every node that is to make one has a path that is a name before its letters are made small; and
a name that is not yet registered can be, if and only if it has no `9`.  Both halves are for
every registry; the second is for every tree whose keys are not empty.  `ListAllMember`
(`src/hiper/base/config.cc:30-46`) tests the path in line 34 as the file spells it, against a
set that ends in `8`; the letters are made small in line 60 only, for those that passed. -/
theorem reaches_iff [DecidableEq τ] :
    (∀ (type : τ) (make : V) (name : Bytes), datas name = none → (∀ ch ∈ name, isNameChar ch = true) →
      ((lookup type name make datas).1 = .created make ∧
        (lookup type name make datas).2 name = some (type, make) ↔ 57 ∉ name)) ∧
    ∀ root : YamlNode, NamedKeys root →
      (loadFromYaml emit datas root = root.members.filterMap (assigns emit datas) ↔
        ∀ m ∈ root.members, (lookupBase datas ((dotted m.1).map tolower)).isSome →
          isName (dotted m.1) = true) := by
  refine ⟨fun type make name => lookup_created_iff type make, fun root h => ?_⟩
  rw [loadFromYaml_eq emit datas h, filterMap_filter_eq_iff]
  refine forall₂_congr fun m _ => ?_
  rw [assigns, Option.isSome_map]

end Load

/-- One variable, of a type 0.  It is `tcp.port`, with the number 80. -/
def registered : Bytes → Option (ℕ × ℕ) :=
  fun name => if name = text "tcp.port" then some (0, 80) else none

/-- A file with a port.  One map in a map. -/
def portFile (key : String) : YamlNode :=
  .map [(text key, .map [(text "port", .scalar (text "81"))])]

/-- A new name is registered, and the file sets the variable. -/
theorem reaches_port :
    (lookup 0 (text "udp.port") 53 registered).1 = .created 53 ∧
      loadFromYaml (fun _ => []) registered (portFile "tcp") =
        (portFile "tcp").members.filterMap (assigns (fun _ => []) registered) :=
  have h := reaches_iff (fun _ => []) registered
  ⟨((h.1 0 53 (text "udp.port") (by decide) (by decide +kernel)).2 (by decide)).1,
    (h.2 (portFile "tcp") (by decide)).2 (by decide)⟩

/-- A name with a `9`, and a key with a capital.  The failing inputs: the first is refused, and
the second sets nothing. -/
theorem not_reaches :
    (lookup 0 (text "port9") 53 registered).1 = .invalid (text "port9") ∧
      loadFromYaml (fun _ => []) registered (portFile "Tcp") = [] ∧
      (portFile "Tcp").members.filterMap (assigns (fun _ => []) registered) =
        [(80, text "81")] := by
  refine ⟨?_, ?_, ?_⟩
  · rfl
  · decide
  · decide

end Config

end Hiper

import Hiper.StringUtil.Basic

/-!
# YAML

`YAML::Node`, as far as the configuration reads it: a tree, with what it is asked for.
How it is written as a text, and read from one, is a parameter where it is needed.

The library itself is not part of the repository.  A tree is asked what it is (`IsScalar`,
`IsMap`), for the text of a scalar, for the entries of a map in their order, and for a value
under a key; anchors, tags and positions are not asked for.  `members` lists the nodes below
a node with their keys, which is the order in which the configuration is to go over them.
-/

namespace Hiper

/-- `YAML::Node`.  The keys of a map are given by their text, `Scalar()`.  A node is null, a
text, a list or a map; other keys than texts are not told apart from their text. -/
inductive YamlNode
  | null
  | scalar (text : Bytes)
  | sequence (items : List YamlNode)
  | map (entries : List (Bytes × YamlNode))

namespace YamlNode

/-- `Scalar()`, or what `operator<<` writes.  The second is what the library emits for a node
that is no scalar. -/
def toText (emit : YamlNode → Bytes) : YamlNode → Bytes
  | .scalar text => text
  | node => emit node

end YamlNode

/-- What is asked of the library; `none` is a node that is not defined, and an error is what is
thrown.  It is a parameter of what reads it. -/
structure YamlCpp where
  /-- `YAML::Load(text)`. -/
  load : Bytes → Except Bytes YamlNode
  /-- `os << node`. -/
  emit : YamlNode → Bytes
  /-- `node[key]`. -/
  get : YamlNode → Bytes → Except Bytes (Option YamlNode)
  /-- `node.size()`. -/
  size : YamlNode → ℕ
  /-- `node[index]`. -/
  item : YamlNode → ℕ → Except Bytes (Option YamlNode)
  /-- `node.as<std::string>()`. -/
  asString : YamlNode → Except Bytes Bytes

/-- What it answers for a map, a sequence and a scalar.  These are the documented answers. -/
structure YamlCpp.Reads (y : YamlCpp) : Prop where
  get_map (entries : List (Bytes × YamlNode)) (key : Bytes) :
    y.get (.map entries) key = .ok (entries.lookup key)
  size_sequence (items : List YamlNode) : y.size (.sequence items) = items.length
  item_sequence (items : List YamlNode) (index : ℕ) :
    y.item (.sequence items) index = .ok items[index]?
  asString_scalar (text : Bytes) : y.asString (.scalar text) = .ok text

namespace YamlNode

/-! ### The nodes of nested maps -/

mutual

/-- The nodes below a node, in pre-order, with the keys that lead to them.  A node comes before
the nodes below it. -/
def members : YamlNode → List (List Bytes × YamlNode)
  | .map entries => membersOf entries
  | .null | .scalar _ | .sequence _ => []

/-- The nodes of the entries of a map.  Entry by entry. -/
def membersOf : List (Bytes × YamlNode) → List (List Bytes × YamlNode)
  | [] => []
  | (key, value) :: entries =>
    ([key], value) :: (members value).map (fun m => (key :: m.1, m.2)) ++ membersOf entries

end

/-- A node of the entries is the first entry's, is below it, or is one of the others'. -/
theorem mem_membersOf_cons {key : Bytes} {value : YamlNode} {entries : List (Bytes × YamlNode)}
    {m : List Bytes × YamlNode} : m ∈ membersOf ((key, value) :: entries) ↔
      m = ([key], value) ∨ (∃ n ∈ value.members, m = (key :: n.1, n.2)) ∨ m ∈ membersOf entries := by
  rw [membersOf, List.cons_append, List.mem_cons, List.mem_append, List.mem_map]
  simp only [eq_comm (a := m)]

/-- Some key leads to every node of the entries. -/
theorem membersOf_ne_nil {entries : List (Bytes × YamlNode)} {m : List Bytes × YamlNode}
    (h : m ∈ membersOf entries) : m.1 ≠ [] := by
  induction entries with
  | nil => exact absurd h (by rw [membersOf]; exact List.not_mem_nil)
  | cons e entries ih =>
      obtain ⟨key, value⟩ := e
      rcases mem_membersOf_cons.1 h with rfl | ⟨n, -, rfl⟩ | h
      · exact List.cons_ne_nil _ _
      · exact List.cons_ne_nil _ _
      · exact ih h

/-- Some key leads to a node that is below.  The root itself is not among the nodes below it. -/
theorem members_ne_nil {node : YamlNode} {m : List Bytes × YamlNode} (h : m ∈ node.members) :
    m.1 ≠ [] := by
  cases node with
  | map entries => exact membersOf_ne_nil (by rwa [members] at h)
  | null | scalar | sequence => exact absurd h (by rw [members]; exact List.not_mem_nil)

/-- The keys joined by dots.  Without a dot at either end. -/
def dotted (keys : List Bytes) : Bytes := [46].intercalate keys

/-- No key of the nested maps is empty.  Such a key would make a path with two dots behind each
other. -/
def NamedKeys (node : YamlNode) : Prop := ∀ m ∈ node.members, ∀ key ∈ m.1, key ≠ []

/-- Whether a key is empty is seen by going over the tree. -/
instance (node : YamlNode) : Decidable node.NamedKeys :=
  inferInstanceAs (Decidable (∀ m ∈ node.members, ∀ key ∈ m.1, key ≠ []))

/-- The keys of a map, the first one apart. -/
theorem NamedKeys.cons {key : Bytes} {value : YamlNode} {entries : List (Bytes × YamlNode)}
    (h : NamedKeys (.map ((key, value) :: entries))) :
    key ≠ [] ∧ value.NamedKeys ∧ NamedKeys (.map entries) := by
  have hmem : ∀ m ∈ membersOf ((key, value) :: entries), ∀ key ∈ m.1, key ≠ [] := by
    rwa [NamedKeys, members] at h
  refine ⟨hmem _ (mem_membersOf_cons.2 (.inl rfl)) key (List.mem_singleton_self key),
    fun n hn k hk => ?_, fun m hm => ?_⟩
  · exact hmem _ (mem_membersOf_cons.2 (.inr (.inl ⟨n, hn, rfl⟩))) k (List.mem_cons_of_mem _ hk)
  · rw [members] at hm
    exact hmem m (mem_membersOf_cons.2 (.inr (.inr hm)))

end YamlNode

end Hiper

import Hiper.Lib.OrderedSeq
import Hiper.StringUtil.Basic
import Mathlib.Data.List.Forall2
import Mathlib.Data.List.Perm.Subperm

/-!
# Maps that ignore case

`MapType` of `http.h`, a `std::map` with the order `CaseInsensitiveLess`: headers,
parameters and cookies.

It is an instance of `OrderedSeq`: the key of an entry is its name as `strcasecmp` reads it,
in lower case and up to the first zero byte (`entryKey`), and no two entries have the same
key.  `operator[]` keeps the spelling of a name that is there and replaces its value,
`insert` keeps both.  Beside `find` and the three operations there are the two loops that
fill a map: `insertAll` for parameters and cookies, where the first value for a key wins,
and `setAll` for the headers of a message, where the last one does.
-/

namespace Hiper

namespace Http

open Lib StringUtil

/-- A name and a value. -/
abbrev Entry := Bytes × Bytes

/-- `CaseInsensitiveLess`, on entries.  Values are not compared. -/
def entryLess (a b : Entry) : Bool := caseLess a.1 b.1

/-- What the order compares of an entry: its name, in lower case, up to a zero byte. -/
def entryKey (e : Entry) : List ℕ := caseKey e.1

/-- The order compares keys. -/
theorem entryLess_compares : OrderedSeq.Compares entryLess entryKey := fun _ _ =>
  decide_eq_true_iff

/-- `HttpRequest::MapType`, its entries in order.  They are sorted by key, as a field of the
structure. -/
structure MapType where
  entries : List Entry
  sorted : OrderedSeq.Sorted entryKey entries

namespace MapType

/-- A map without entries. -/
def empty : MapType := ⟨[], List.Pairwise.nil⟩

/-- `find(key)`.  The key is compared ignoring case. -/
def find (m : MapType) (key : Bytes) : Option Entry :=
  OrderedSeq.find entryLess (key, []) m.entries

/-- `insert(e)`: an entry that is there stays.  It is what `PARSE_PARAM` fills a map with. -/
def insert (m : MapType) (e : Entry) : MapType :=
  ⟨OrderedSeq.insert entryLess e m.entries, m.sorted.sorted_insert_any entryLess_compares e⟩

/-- The value of the key is replaced, its spelling stays.  It is what `operator[]` does to an
entry that is there. -/
def assign (key value : Bytes) (e : Entry) : Entry := if caseEq e.1 key then (e.1, value) else e

/-- A new value does not change the key. -/
theorem entryKey_assign (key value : Bytes) (e : Entry) :
    entryKey (assign key value e) = entryKey e := by
  rw [assign]
  split_ifs <;> rfl

/-- An entry with the key has the new value. -/
theorem assign_of_key {key : Bytes} {e : Entry} (h : entryKey e = caseKey key) (value : Bytes) :
    assign key value e = (e.1, value) :=
  if_pos (decide_eq_true h)

/-- An entry with another key stays. -/
theorem assign_of_key_ne {key : Bytes} {e : Entry} (h : entryKey e ≠ caseKey key) (value : Bytes) :
    assign key value e = e :=
  if_neg (mt of_decide_eq_true h)

/-- `(*this)[key] = value`.  A new key gets an entry, in its place. -/
def set (m : MapType) (key value : Bytes) : MapType :=
  ⟨(m.insert (key, [])).entries.map (assign key value),
    List.pairwise_map.2 ((m.insert (key, [])).sorted.imp fun h => by
      rw [entryKey_assign, entryKey_assign]
      exact h)⟩

/-- `erase(key)`.  Nothing happens when the key is not there. -/
def erase (m : MapType) (key : Bytes) : MapType :=
  if (m.find key).isSome then
    ⟨OrderedSeq.erase entryLess (key, []) m.entries, m.sorted.sorted_erase⟩
  else m

/-- Entries inserted one after another.  From the left. -/
def insertAll (m : MapType) (es : List Entry) : MapType := es.foldl insert m

/-- A map is its list of entries. -/
theorem ext {m m' : MapType} (h : m.entries = m'.entries) : m = m' := by
  cases m
  cases m'
  cases h
  rfl

/-- Whether two maps are the same is seen from their entries. -/
instance : DecidableEq MapType := fun m m' =>
  decidable_of_iff (m.entries = m'.entries) ⟨ext, congrArg entries⟩

variable {m : MapType} {key : Bytes} {e : Entry} {es : List Entry}

/-- An entry is found by its key.  There is one at most. -/
theorem find_eq_some : m.find key = some e ↔ e ∈ m.entries ∧ entryKey e = caseKey key :=
  m.sorted.find_eq_some entryLess_compares

/-- Nothing is found when no entry has the key. -/
theorem find_eq_none : m.find key = none ↔ ∀ e ∈ m.entries, entryKey e ≠ caseKey key :=
  m.sorted.find_eq_none entryLess_compares

/-- An entry with a new key is added. -/
theorem mem_insert_of_new (h : ∀ x ∈ m.entries, entryKey x ≠ entryKey e) {x : Entry} :
    x ∈ (m.insert e).entries ↔ x = e ∨ x ∈ m.entries :=
  m.sorted.mem_insert entryLess_compares h

/-- An entry whose key is there changes nothing. -/
theorem insert_of_mem {x : Entry} (hx : x ∈ m.entries) (h : entryKey x = entryKey e) :
    m.insert e = m := by
  have hentries := m.sorted.insert_of_mem entryLess_compares hx h
  cases m
  rw [insert, MapType.mk.injEq]
  exact hentries

/-- The keys of the map are those it had and the new one.  Whether or not the entry was added. -/
theorem exists_key_insert (m : MapType) (e : Entry) (k : List ℕ) :
    (∃ x ∈ (m.insert e).entries, entryKey x = k) ↔
      entryKey e = k ∨ ∃ x ∈ m.entries, entryKey x = k := by
  by_cases hnew : ∀ x ∈ m.entries, entryKey x ≠ entryKey e
  · simp only [mem_insert_of_new hnew, exists_eq_or_imp]
  · push Not at hnew
    obtain ⟨x, hx, hkey⟩ := hnew
    rw [insert_of_mem hx hkey, iff_or_self]
    rintro rfl
    exact ⟨x, hx, hkey⟩

/-- Entries with other keys are those that were there.  They are neither changed nor lost. -/
theorem mem_insert_of_key_ne {x : Entry} (h : entryKey x ≠ entryKey e) :
    x ∈ (m.insert e).entries ↔ x ∈ m.entries := by
  by_cases hnew : ∀ x ∈ m.entries, entryKey x ≠ entryKey e
  · rw [mem_insert_of_new hnew]
    exact or_iff_right fun heq => h (heq ▸ rfl)
  · push Not at hnew
    obtain ⟨y, hy, hkey⟩ := hnew
    rw [insert_of_mem hy hkey]

/-! ### The value of a key -/

/-- The value that is found under the key.  It is what `getHeader`, `getParam` and `getCookie`
give. -/
def lookup (m : MapType) (key : Bytes) : Option Bytes := (m.find key).map (·.2)

/-- The value under a key is that of the entry with it. -/
theorem lookup_eq_some {v : Bytes} :
    m.lookup key = some v ↔ ∃ e ∈ m.entries, entryKey e = caseKey key ∧ e.2 = v := by
  rw [lookup, Option.map_eq_some_iff]
  exact exists_congr fun e => by rw [find_eq_some, and_assoc]

/-- There is no value when no entry has the key. -/
theorem lookup_eq_none : m.lookup key = none ↔ ∀ e ∈ m.entries, entryKey e ≠ caseKey key := by
  rw [lookup, Option.map_eq_none_iff, find_eq_none]

/-- The first value for a key wins.  What was there before wins over it. -/
theorem lookup_insert (m : MapType) (e : Entry) (k : Bytes) :
    (m.insert e).lookup k = (m.lookup k).or (if entryKey e = caseKey k then some e.2 else none) := by
  split_ifs with hkey
  · cases hlook : m.lookup k with
    | some v =>
        obtain ⟨x, hx, hxk, -⟩ := lookup_eq_some.1 hlook
        rw [insert_of_mem hx (hxk.trans hkey.symm), hlook, Option.some_or]
    | none =>
        have hnew : ∀ x ∈ m.entries, entryKey x ≠ entryKey e := by
          rw [hkey]
          exact lookup_eq_none.1 hlook
        rw [Option.none_or, lookup_eq_some]
        exact ⟨e, (mem_insert_of_new hnew).2 (Or.inl rfl), hkey, rfl⟩
  · ext v
    rw [Option.or_none, lookup_eq_some, lookup_eq_some]
    refine exists_congr fun x => and_congr_left fun hx => mem_insert_of_key_ne ?_
    exact fun h => hkey (h.symm.trans hx.1)

/-- The last value that is set for a key wins. -/
theorem lookup_set (m : MapType) (key value k : Bytes) :
    (m.set key value).lookup k = if caseKey key = caseKey k then some value else m.lookup k := by
  have hentries : (m.set key value).entries = (m.insert (key, [])).entries.map (assign key value) := rfl
  split_ifs with hkey
  · obtain ⟨x, hx, hxk⟩ := (exists_key_insert m (key, []) (caseKey key)).2 (Or.inl rfl)
    rw [lookup_eq_some, hentries]
    refine ⟨_, List.mem_map_of_mem hx, by rw [entryKey_assign, hxk, hkey], ?_⟩
    rw [assign_of_key hxk]
  · ext v
    rw [lookup_eq_some, lookup_eq_some, hentries]
    constructor
    · rintro ⟨e, he, hek, rfl⟩
      obtain ⟨x, hx, rfl⟩ := List.mem_map.1 he
      rw [entryKey_assign] at hek
      have hne : entryKey x ≠ caseKey key := fun h => hkey (h.symm.trans hek)
      exact ⟨x, (mem_insert_of_key_ne hne).1 hx, hek, by rw [assign_of_key_ne hne]⟩
    · rintro ⟨x, hx, hxk, rfl⟩
      have hne : entryKey x ≠ caseKey key := fun h => hkey (h.symm.trans hxk)
      exact ⟨x, List.mem_map.2 ⟨x, (mem_insert_of_key_ne hne).2 hx, assign_of_key_ne hne value⟩,
        hxk, rfl⟩

/-- What is left are the entries with other keys. -/
theorem mem_erase {x : Entry} :
    x ∈ (m.erase key).entries ↔ x ∈ m.entries ∧ entryKey x ≠ caseKey key := by
  rw [erase]
  split_ifs with hfound
  · obtain ⟨y, hy⟩ := Option.isSome_iff_exists.1 hfound
    obtain ⟨hmem, hkey⟩ := find_eq_some.1 hy
    exact m.sorted.mem_erase_key entryLess_compares hmem hkey
  · rw [Option.not_isSome_iff_eq_none, find_eq_none] at hfound
    exact (and_iff_left_of_imp (hfound x)).symm

/-- Under an erased key there is no value, and under others what there was. -/
theorem lookup_erase (m : MapType) (key k : Bytes) :
    (m.erase key).lookup k = if caseKey key = caseKey k then none else m.lookup k := by
  split_ifs with hkey
  · rw [lookup_eq_none]
    intro e he
    rw [← hkey]
    exact (mem_erase.1 he).2
  · ext v
    rw [lookup_eq_some, lookup_eq_some]
    refine exists_congr fun e => and_congr_left fun he => ?_
    rw [mem_erase, and_iff_left_iff_imp]
    exact fun _ h => hkey (h.symm.trans he.1)

/-- Of two values for one key the second stays.  The spelling is that of the first. -/
theorem set_set (m : MapType) (key v v' : Bytes) : (m.set key v).set key v' = m.set key v' := by
  obtain ⟨x, hx, hkey⟩ := (exists_key_insert m (key, []) (entryKey (key, []))).2 (Or.inl rfl)
  have hmem : assign key v x ∈ (m.set key v).entries := List.mem_map_of_mem hx
  have hinsert : (m.set key v).insert (key, []) = m.set key v :=
    insert_of_mem hmem (by rw [entryKey_assign]; exact hkey)
  have hassign : ∀ e : Entry, assign key v' (assign key v e) = assign key v' e := by
    intro e
    rw [assign, assign, assign]
    split_ifs <;> simp_all
  have hentries : ((m.set key v).set key v').entries = (m.set key v').entries := by
    change ((m.set key v).insert (key, [])).entries.map (assign key v') =
      (m.insert (key, [])).entries.map (assign key v')
    rw [hinsert]
    change ((m.insert (key, [])).entries.map (assign key v)).map (assign key v') = _
    rw [List.map_map]
    exact List.map_congr_left fun e _ => hassign e
  exact ext hentries

/-- The keys are those of the map and those of the entries. -/
theorem exists_key_insertAll (m : MapType) (es : List Entry) (k : List ℕ) :
    (∃ x ∈ (m.insertAll es).entries, entryKey x = k) ↔
      (∃ e ∈ es, entryKey e = k) ∨ ∃ x ∈ m.entries, entryKey x = k := by
  induction es generalizing m with
  | nil => simp [insertAll]
  | cons e es ih =>
      rw [insertAll, List.foldl_cons, ← insertAll, ih, exists_key_insert, List.exists_mem_cons_iff]
      exact or_left_comm.trans or_assoc.symm

/-- Entries with distinct keys are all there.  None of them replaces another, nor is any left
out. -/
theorem mem_insertAll (hdistinct : es.Pairwise fun a b => entryKey a ≠ entryKey b)
    (hnew : ∀ e ∈ es, ∀ x ∈ m.entries, entryKey x ≠ entryKey e) {x : Entry} :
    x ∈ (m.insertAll es).entries ↔ x ∈ es ∨ x ∈ m.entries := by
  induction es generalizing m with
  | nil => simp [insertAll]
  | cons e es ih =>
      obtain ⟨he, hes⟩ := List.pairwise_cons.1 hdistinct
      have hmem : ∀ {x}, x ∈ (m.insert e).entries ↔ x = e ∨ x ∈ m.entries :=
        mem_insert_of_new (hnew e (List.mem_cons_self ..))
      have hnew' : ∀ a ∈ es, ∀ x ∈ (m.insert e).entries, entryKey x ≠ entryKey a := by
        intro a ha x hx
        rcases hmem.1 hx with rfl | hx
        · exact he a ha
        · exact hnew a (List.mem_cons_of_mem _ ha) x hx
      rw [insertAll, List.foldl_cons, ← insertAll, ih hes hnew', hmem, List.mem_cons]
      tauto

/-- A key that is set is there from then on, and no other comes in.  So a key is never lost by
setting. -/
theorem exists_key_set (m : MapType) (key value : Bytes) (k : List ℕ) :
    (∃ x ∈ (m.set key value).entries, entryKey x = k) ↔
      caseKey key = k ∨ ∃ x ∈ m.entries, entryKey x = k := by
  refine Iff.trans ?_ (exists_key_insert m (key, []) k)
  constructor
  · rintro ⟨x, hx, hkey⟩
    obtain ⟨y, hy, rfl⟩ := List.mem_map.1 hx
    rw [entryKey_assign] at hkey
    exact ⟨y, hy, hkey⟩
  · rintro ⟨y, hy, hkey⟩
    exact ⟨assign key value y, List.mem_map_of_mem hy, (entryKey_assign key value y).trans hkey⟩

/-! ### Keys that are new -/

/-- A map is its entries.  In the order that the keys give them. -/
theorem ext_mem {m' : MapType} (h : ∀ e, e ∈ m.entries ↔ e ∈ m'.entries) : m = m' := by
  have hperm : m.entries.Perm m'.entries :=
    (List.perm_ext_iff_of_nodup m.sorted.nodup m'.sorted.nodup).2 h
  refine ext (hperm.eq_of_pairwise ?_ m.sorted m'.sorted)
  intro a b _ _ hab hba
  exact absurd hab hba.asymm

/-- A key that is new.  Then `operator[]` is an insertion. -/
theorem set_of_new (h : ∀ x ∈ m.entries, entryKey x ≠ caseKey key) (value : Bytes) :
    m.set key value = m.insert (key, value) := by
  refine ext_mem fun e => ?_
  have hmem : ∀ {v : Bytes} {x : Entry}, x ∈ (m.insert (key, v)).entries ↔ x = (key, v) ∨ x ∈ m.entries :=
    mem_insert_of_new h
  have hentries : (m.set key value).entries = (m.insert (key, [])).entries.map (assign key value) := rfl
  have hnew : assign key value (key, []) = (key, value) := assign_of_key rfl value
  have hold : ∀ x ∈ m.entries, assign key value x = x := fun x hx => assign_of_key_ne (h x hx) value
  rw [hentries, List.mem_map, hmem]
  constructor
  · rintro ⟨x, hx, rfl⟩
    rcases hmem.1 hx with rfl | hx
    · exact Or.inl hnew
    · rw [hold x hx]
      exact Or.inr hx
  · rintro (rfl | he)
    · exact ⟨(key, []), hmem.2 (Or.inl rfl), hnew⟩
    · exact ⟨e, hmem.2 (Or.inr he), hold e he⟩

end MapType

/-! ### Maps that are filled in order -/

/-- The headers that a parser sets, in their order.  As `on_request_header_value_cb` does, one
after the other. -/
def setAll (m : MapType) (es : List Entry) : MapType := es.foldl (fun m e => m.set e.1 e.2) m

/-- Distinct names are all there, with their values.  None of them replaces another. -/
theorem mem_setAll {m : MapType} {es : List Entry}
    (hdistinct : es.Pairwise fun a b => entryKey a ≠ entryKey b)
    (hnew : ∀ e ∈ es, ∀ x ∈ m.entries, entryKey x ≠ entryKey e) {x : Entry} :
    x ∈ (setAll m es).entries ↔ x ∈ es ∨ x ∈ m.entries := by
  have hinsert : setAll m es = m.insertAll es := by
    induction es generalizing m with
    | nil => rfl
    | cons e es ih =>
        obtain ⟨he, hes⟩ := List.pairwise_cons.1 hdistinct
        obtain ⟨hnewe, hnew⟩ := List.forall_mem_cons.1 hnew
        have hone : m.set e.1 e.2 = m.insert e := MapType.set_of_new hnewe e.2
        rw [setAll, List.foldl_cons, hone, ← setAll, ih hes, MapType.insertAll, MapType.insertAll,
          List.foldl_cons]
        intro a ha y hy
        rcases (MapType.mem_insert_of_new hnewe).1 hy with rfl | hy
        · exact he a ha
        · exact hnew a ha y hy
  rw [hinsert]
  exact MapType.mem_insertAll hdistinct hnew

/-- The keys of the map are those it had and those that were set.  The induction is over the
entries. -/
theorem exists_key_setAll (m : MapType) (es : List Entry) (k : List ℕ) :
    (∃ x ∈ (setAll m es).entries, entryKey x = k) ↔
      (∃ e ∈ es, entryKey e = k) ∨ ∃ x ∈ m.entries, entryKey x = k := by
  induction es generalizing m with
  | nil => simp [setAll]
  | cons e es ih =>
      rw [setAll, List.foldl_cons, ← setAll, ih, MapType.exists_key_set, List.exists_mem_cons_iff]
      exact or_left_comm.trans or_assoc.symm

section Filled

variable {es fs : List Entry}

/-- As many entries as a map of distinct keys was filled with, filling the same map: they are
the same entries, in whatever order.  None of them was replaced, since there would be fewer. -/
theorem perm_of_setAll_eq (hdistinct : es.Pairwise fun a b => entryKey a ≠ entryKey b)
    (hlength : fs.length = es.length) (h : setAll .empty fs = setAll .empty es) : fs.Perm es := by
  have hnone : ∀ gs : List Entry, ∀ e ∈ gs, ∀ x ∈ MapType.empty.entries, entryKey x ≠ entryKey e :=
    fun gs e _ x hx => absurd hx List.not_mem_nil
  have hkeys : (es.map entryKey).Nodup := List.pairwise_map.2 hdistinct
  have hsubset : es.map entryKey ⊆ fs.map entryKey := by
    intro k hk
    obtain ⟨e, he, rfl⟩ := List.mem_map.1 hk
    have hes : ∃ x ∈ (setAll .empty es).entries, entryKey x = entryKey e :=
      (exists_key_setAll ..).2 (Or.inl ⟨e, he, rfl⟩)
    rw [← h] at hes
    rcases (exists_key_setAll ..).1 hes with ⟨f, hf, hkey⟩ | ⟨x, hx, -⟩
    · exact List.mem_map.2 ⟨f, hf, hkey⟩
    · cases hx
  have hperm : (es.map entryKey).Perm (fs.map entryKey) :=
    (List.subperm_of_subset hkeys hsubset).perm_of_length_le (by simp [hlength])
  have hdistinct' : fs.Pairwise fun a b => entryKey a ≠ entryKey b :=
    List.pairwise_map.1 (hperm.nodup_iff.1 hkeys)
  refine (List.perm_ext_iff_of_nodup (hdistinct'.imp fun hne heq => hne (congrArg entryKey heq))
    (hdistinct.imp fun hne heq => hne (congrArg entryKey heq))).2 fun e => ?_
  have hes := mem_setAll hdistinct (hnone es) (x := e)
  have hfs := mem_setAll hdistinct' (hnone fs) (x := e)
  rw [h] at hfs
  have hempty : ¬e ∈ MapType.empty.entries := List.not_mem_nil
  rw [or_iff_left hempty] at hes hfs
  exact hfs.symm.trans hes

/-- The bytes of a name and its value.  It is the measure by which a cut is seen. -/
def entrySize (e : Entry) : ℕ := e.1.length + e.2.length

/-- Names and values that lost what stood before some byte are shorter, or all there.  The
induction is over the pairs. -/
theorem eq_of_suffixes (h : List.Forall₂ (fun f e : Entry => f.1 <:+ e.1 ∧ f.2 <:+ e.2) fs es) :
    (fs.map entrySize).sum ≤ (es.map entrySize).sum ∧
      ((fs.map entrySize).sum = (es.map entrySize).sum → fs = es) := by
  induction h with
  | nil => exact ⟨le_rfl, fun _ => rfl⟩
  | @cons f e fs es hone _ ih =>
      obtain ⟨hle, heq⟩ := ih
      obtain ⟨hname, hvalue⟩ := hone
      have hn := hname.length_le
      have hv := hvalue.length_le
      simp only [List.map_cons, List.sum_cons, entrySize] at hle heq ⊢
      refine ⟨by omega, fun hsum => ?_⟩
      have hf : f = e := Prod.ext (hname.eq_of_length (by omega)) (hvalue.eq_of_length (by omega))
      rw [hf, heq (by omega)]

/-- **Nothing can be cut off unseen.**  A map that was filled with entries of distinct keys is
filled with no others that are left of them when beginnings are cut off.  As many bytes are in
the one map as in the other. -/
theorem eq_of_setAll_eq (hdistinct : es.Pairwise fun a b => entryKey a ≠ entryKey b)
    (hsuffix : List.Forall₂ (fun f e : Entry => f.1 <:+ e.1 ∧ f.2 <:+ e.2) fs es)
    (h : setAll .empty fs = setAll .empty es) : fs = es :=
  (eq_of_suffixes hsuffix).2
    ((perm_of_setAll_eq hdistinct hsuffix.length_eq h).map entrySize).sum_nat

end Filled

end Http

end Hiper

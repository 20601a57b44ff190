import Hiper.Http.Message
import Mathlib.Order.Defs.Unbundled

/-!
# Headers

Header maps ignore case: `CaseInsensitiveLess` is a strict weak order on strings without
a zero byte, whose equivalence is equality ignoring case (`caseLess_strictWeakOrder`,
`incomparable_iff`); and after any calls of `setHeader` and `delHeader`, `getHeader`
gives what the last call with the name, in any case, left (`headers_ignore_case`).

The functions are `http.cc:66` (`CaseInsensitiveLess`), which is `strcasecmp`, and
`setHeader`, `delHeader` and `getHeader` of both classes (`http.cc:86`, `107`, `122`, `295`,
`301`, `306`).  A name with a zero byte is compared up to it only, so that two such names
may be one key; names of headers have none.  What is promised of the headers is said without
the map, from the calls alone (`lastSet`, `LeftBy`).
-/

namespace Hiper

namespace Http

open Lib StringUtil

/-- Equal ignoring case.  Letter by letter, after `tolower`. -/
def SameName (a b : Bytes) : Prop := a.map tolower = b.map tolower
  deriving Decidable

/-- A call that changes the headers.  They are the only two. -/
inductive HeaderCall
  | setHeader (key val : Bytes)
  | delHeader (key : Bytes)
  deriving DecidableEq, Repr

/-- The name that a call is about. -/
def HeaderCall.key : HeaderCall → Bytes
  | setHeader key _ => key
  | delHeader key => key

/-- What a `getHeader` finds when the call was the last one with its key.  A deletion leaves
nothing to find. -/
def HeaderCall.value : HeaderCall → Option Bytes
  | setHeader _ val => some val
  | delHeader _ => none

end Http

open Http StringUtil

/-- A call on the headers of a request. -/
def HttpRequest.headerCall (r : HttpRequest) : HeaderCall → HttpRequest
  | .setHeader key val => r.setHeader key val
  | .delHeader key => r.delHeader key

/-- A call on the headers of a response. -/
def HttpResponse.headerCall (r : HttpResponse) : HeaderCall → HttpResponse
  | .setHeader key val => r.setHeader key val
  | .delHeader key => r.delHeader key

namespace Http

/-- The value of the last `setHeader` whose name is `key` ignoring case, unless a `delHeader` of
such a name came after it.  It is computed from the calls alone. -/
def lastSet (key : Bytes) (calls : List HeaderCall) : Option Bytes :=
  calls.foldl (fun found c => if SameName c.key key then c.value else found) none

/-! ### The order -/

/-- Without a zero byte, names are equal ignoring case when the map takes them for one key. -/
theorem sameName_iff {a b : Bytes} (ha : 0 ∉ a) (hb : 0 ∉ b) : SameName a b ↔ caseKey a = caseKey b :=
  (caseKey_eq_iff ha hb).symm

/-- A strict weak order, on all strings.  Which is what `std::map` asks of its comparator. -/
theorem caseLess_strictWeakOrder : IsStrictWeakOrder Bytes fun a b => caseLess a b = true where
  irrefl a h := lt_irrefl _ (of_decide_eq_true h)
  trans a b c hab hbc := decide_eq_true ((of_decide_eq_true hab).trans (of_decide_eq_true hbc))
  incomp_trans a b c hab hbc := by
    simp only [caseLess, decide_eq_true_iff, not_lt] at hab hbc ⊢
    exact ⟨hbc.1.trans hab.1, hab.2.trans hbc.2⟩

/-- Neither is less exactly when they are equal ignoring case.  So the keys of the map are names
ignoring case. -/
theorem incomparable_iff {a b : Bytes} (ha : 0 ∉ a) (hb : 0 ∉ b) :
    (¬caseLess a b = true ∧ ¬caseLess b a = true) ↔ SameName a b := by
  rw [sameName_iff ha hb]
  simp only [caseLess, decide_eq_true_iff, not_lt]
  exact ⟨fun h => le_antisymm h.2 h.1, fun h => ⟨h.ge, h.le⟩⟩

/-! ### The calls -/

/-- The headers after a call.  It is the map that both classes keep. -/
def HeaderCall.apply : HeaderCall → MapType → MapType
  | setHeader key val, m => m.set key val
  | delHeader key, m => m.erase key

/-- One call after the other.  From the left. -/
def applyCalls (m : MapType) (calls : List HeaderCall) : MapType :=
  calls.foldl (fun m c => c.apply m) m

/-- After a call the key of the call has what the call left, and the others what they had. -/
theorem HeaderCall.lookup_apply (c : HeaderCall) (m : MapType) (k : Bytes) :
    (c.apply m).lookup k = if caseKey c.key = caseKey k then c.value else m.lookup k := by
  cases c with
  | setHeader key val => exact m.lookup_set key val k
  | delHeader key => exact m.lookup_erase key k

/-- What is found after calls is what the last one with the name left.  The induction is over
the calls. -/
theorem lookup_applyCalls {calls : List HeaderCall} (hcalls : ∀ c ∈ calls, 0 ∉ c.key) {k : Bytes}
    (hk : 0 ∉ k) (m : MapType) :
    (applyCalls m calls).lookup k =
      calls.foldl (fun found c => if SameName c.key k then c.value else found) (m.lookup k) := by
  induction calls generalizing m with
  | nil => rfl
  | cons c calls ih =>
      obtain ⟨hc, hcalls⟩ := List.forall_mem_cons.1 hcalls
      rw [applyCalls, List.foldl_cons, List.foldl_cons, ← applyCalls, ih hcalls, c.lookup_apply]
      simp only [sameName_iff hc hk]

/-- A name that is in the map after a call is the call's, or was there. -/
theorem HeaderCall.mem_apply {c : HeaderCall} {m : MapType} {e : Entry}
    (h : e ∈ (c.apply m).entries) : e.1 = c.key ∨ ∃ x ∈ m.entries, x.1 = e.1 := by
  cases c with
  | delHeader key => exact Or.inr ⟨e, (MapType.mem_erase.1 h).1, rfl⟩
  | setHeader key val =>
      obtain ⟨x, hx, rfl⟩ := List.mem_map.1 h
      have hname : (MapType.assign key val x).1 = x.1 := by
        rw [MapType.assign]
        split_ifs <;> rfl
      rw [hname]
      by_cases hnew : ∀ y ∈ m.entries, entryKey y ≠ entryKey (key, [])
      · rcases (MapType.mem_insert_of_new hnew).1 hx with rfl | hx
        · exact Or.inl rfl
        · exact Or.inr ⟨x, hx, rfl⟩
      · push Not at hnew
        obtain ⟨y, hy, hkey⟩ := hnew
        rw [MapType.insert_of_mem hy hkey] at hx
        exact Or.inr ⟨x, hx, rfl⟩

/-- Names in the map are names of calls.  Those without a zero byte make such a map. -/
theorem names_applyCalls {calls : List HeaderCall} (hcalls : ∀ c ∈ calls, 0 ∉ c.key) {m : MapType}
    (hm : ∀ e ∈ m.entries, 0 ∉ e.1) :
    ∀ e ∈ (applyCalls m calls).entries, 0 ∉ e.1 := by
  induction calls generalizing m with
  | nil => exact hm
  | cons c calls ih =>
      obtain ⟨hc, hcalls⟩ := List.forall_mem_cons.1 hcalls
      refine ih hcalls fun e he => ?_
      rcases c.mem_apply he with hname | ⟨x, hx, hname⟩
      · rwa [hname]
      · rw [← hname]
        exact hm x hx

/-- The headers are what the calls left: the value under each name is the one set last, and no
two names are equal ignoring case.  It is what a user of the headers relies on. -/
structure LeftBy (calls : List HeaderCall) (headers : MapType) (getHeader : Bytes → Bytes → Bytes) :
    Prop where
  get_eq : ∀ key default, 0 ∉ key → getHeader key default = (lastSet key calls).getD default
  distinct : headers.entries.Pairwise fun a b => ¬SameName a.1 b.1

/-- A map to which calls were made holds what they left. -/
theorem leftBy_applyCalls {calls : List HeaderCall} (hcalls : ∀ c ∈ calls, 0 ∉ c.key) :
    LeftBy calls (applyCalls .empty calls) fun key default =>
      ((applyCalls .empty calls).lookup key).getD default where
  get_eq key default hkey := by
    rw [lookup_applyCalls hcalls hkey]
    rfl
  distinct := by
    have hnames := names_applyCalls hcalls (m := .empty) nofun
    refine List.Pairwise.imp_of_mem (fun ha hb hlt hsame => ?_) (applyCalls .empty calls).sorted
    exact hlt.ne ((sameName_iff (hnames _ ha) (hnames _ hb)).1 hsame)

/-- The headers of a request are the map to which its calls were made. -/
theorem request_headers (r : HttpRequest) (calls : List HeaderCall) :
    (calls.foldl HttpRequest.headerCall r).headers = applyCalls r.headers calls := by
  induction calls generalizing r with
  | nil => rfl
  | cons c calls ih =>
      rw [List.foldl_cons, ih]
      cases c <;> rfl

/-- The headers of a response are the map to which its calls were made. -/
theorem response_headers (r : HttpResponse) (calls : List HeaderCall) :
    (calls.foldl HttpResponse.headerCall r).headers = applyCalls r.headers calls := by
  induction calls generalizing r with
  | nil => rfl
  | cons c calls ih =>
      rw [List.foldl_cons, ih]
      cases c <;> rfl

/-- The order of header maps is one that ignores case.  It is a strict weak order, and what it
does not tell apart is equal ignoring case. -/
structure IgnoresCase : Prop where
  order : IsStrictWeakOrder Bytes fun a b => caseLess a b = true
  equivalent : ∀ a b, 0 ∉ a → 0 ∉ b →
    ((¬caseLess a b = true ∧ ¬caseLess b a = true) ↔ SameName a b)

/-- Requests and responses that had no headers before the calls have those that the calls left.
For both classes. -/
structure HeaderMaps (calls : List HeaderCall) : Prop where
  request : ∀ version close,
    LeftBy calls (calls.foldl HttpRequest.headerCall (.new version close)).headers
      (calls.foldl HttpRequest.headerCall (.new version close)).getHeader
  response : ∀ version close,
    LeftBy calls (calls.foldl HttpResponse.headerCall (.new version close)).headers
      (calls.foldl HttpResponse.headerCall (.new version close)).getHeader

/-- **Header maps ignore case**, and hold what was set last.  The names of the calls have no
zero byte.  The order of the maps is `strcasecmp` (`src/hiper/http/http.cc:66-69`), which stops
at a zero byte; what is kept beside the last value is the spelling of the name that was set
first. -/
theorem headers_ignore_case {calls : List HeaderCall} (hcalls : ∀ c ∈ calls, 0 ∉ c.key) :
    IgnoresCase ∧ HeaderMaps calls := by
  have hleft := leftBy_applyCalls hcalls
  refine ⟨⟨caseLess_strictWeakOrder, fun a b => incomparable_iff⟩, ⟨fun version close => ?_,
    fun version close => ?_⟩⟩
  · have hheaders := request_headers (.new version close) calls
    unfold HttpRequest.getHeader
    rw [hheaders]
    exact hleft
  · have hheaders := response_headers (.new version close) calls
    unfold HttpResponse.getHeader
    rw [hheaders]
    exact hleft

/-- A name set in two spellings, and another one deleted.  The second spelling wins. -/
theorem headers_ignore_case_host :
    IgnoresCase ∧ HeaderMaps [.setHeader (text "Host") (text "a"),
      .setHeader (text "hOST") (text "b"), .delHeader (text "via")] :=
  headers_ignore_case (by decide)

end Http

end Hiper

import Hiper.Http.Param
import Mathlib.Data.List.Induction

/-!
# Lazy parsing

The parameters and the cookies of a request are maps with entries that are still to be
inserted (`LazyMap`): the first read inserts them, behind whatever `set` and `del` did
before it.  A `set` before the first read wins over the source as it should; a `del`
is undone by the parse, so lazy parsing is invisible exactly when no read sees a key
that was deleted before the first one (`lazy_parsing_iff`).

The functions are those of `http.cc:92-169` on parameters and cookies, with
`initQueryParam`, `initBodyParam` and `initCookies` (`http.cc:235-273`), which each parse
once and set a bit.  The parse inserts and does not replace, so that an entry that is
already there under a key stays; a key that was deleted is not there and is inserted again.
The comparison is with a request of which everything was parsed before the calls
(`parseAll`); the two answer alike call by call, or there is a first call that tells them
apart.
-/

namespace Hiper

namespace Http

open Lib StringUtil

/-- A call on the parameters or on the cookies.  The four that both maps have. -/
inductive MapCall
  | get (key default : Bytes)
  | has (key : Bytes)
  | set (key val : Bytes)
  | del (key : Bytes)
  deriving DecidableEq, Repr

/-- What it returns; `has` also writes the value that it has found.  `set` and `del` return
nothing. -/
inductive MapAnswer
  | got (val : Bytes)
  | found (val : Option Bytes)
  | done
  deriving DecidableEq, Repr

namespace MapCall

/-- Only these parse.  The others leave the parse for later. -/
def isRead : MapCall → Bool
  | get .. => true
  | has _ => true
  | _ => false

/-- The key of a call. -/
def key : MapCall → Bytes
  | get key _ => key
  | has key => key
  | set key _ => key
  | del key => key

/-- It decides what is under the key.  Whether it sets or deletes it. -/
def writes (k : Bytes) (c : MapCall) : Bool := !c.isRead && caseEq c.key k

/-- Its answer when the value under its key is this one.  It does not depend on the rest of the
map. -/
def answer : MapCall → Option Bytes → MapAnswer
  | get _ default, val => .got (val.getD default)
  | has _, val => .found val
  | _, _ => .done

end MapCall

/-- A map, and what is to be inserted into it before it is read.  The entries that are pending
are those that the source has. -/
structure LazyMap where
  map : MapType
  pending : List Entry

namespace LazyMap

/-- All that is pending is inserted, behind what is there. -/
def parse (l : LazyMap) : LazyMap := ⟨l.map.insertAll l.pending, []⟩

/-- What a call does: a read parses first, the others change the map alone. -/
def step (l : LazyMap) : MapCall → LazyMap
  | .get .. => l.parse
  | .has _ => l.parse
  | .set key val => { l with map := l.map.set key val }
  | .del key => { l with map := l.map.erase key }

/-- Calls, one after the other. -/
def run (l : LazyMap) (calls : List MapCall) : LazyMap := calls.foldl step l

/-- What a read finds.  After the parse that it makes. -/
def seen (l : LazyMap) (key : Bytes) : Option Bytes := l.parse.map.lookup key

end LazyMap

/-- No call has parsed yet.  Nothing that is pending has been inserted. -/
def Unread (calls : List MapCall) : Prop := ∀ c ∈ calls, c.isRead = false

/-- The key was deleted before the first read, and not set or deleted again.  So the parse may
bring it back. -/
def DeletedUnread (k : Bytes) (calls : List MapCall) : Prop :=
  ∃ before key after, calls = before ++ .del key :: after ∧ caseEq key k = true ∧
    Unread before ∧ ∀ c ∈ after, c.writes k = false

/-! ### What a deletion leaves -/

namespace LazyMap

variable (l : LazyMap) {k : Bytes}

/-- A read finds what is there, and else the first pending entry. -/
theorem seen_eq (k : Bytes) : l.seen k = (l.map.lookup k).or (firstValue k l.pending) :=
  lookup_insertAll l.map l.pending k

/-- Parsing changes nothing of what a read finds. -/
theorem seen_parse (k : Bytes) : l.parse.seen k = l.seen k := rfl

/-- What is set is found from then on. -/
theorem seen_set (key val k : Bytes) :
    (l.step (.set key val)).seen k = if caseKey key = caseKey k then some val else l.seen k := by
  rw [seen_eq, seen_eq, step, MapType.lookup_set]
  split_ifs
  · rfl
  · rfl

/-- A deletion uncovers what is to be inserted.  Where nothing is pending for the key, nothing
is found. -/
theorem seen_del (key k : Bytes) :
    (l.step (.del key)).seen k =
      if caseKey key = caseKey k then firstValue k l.pending else l.seen k := by
  rw [seen_eq, seen_eq, step, MapType.lookup_erase]
  split_ifs
  · exact Option.none_or
  · rfl

/-- A read parses, and does nothing else. -/
theorem step_read {c : MapCall} (h : c.isRead = true) : l.step c = l.parse := by
  cases c with
  | get key default => rfl
  | has key => rfl
  | set key val => cases h
  | del key => cases h

end LazyMap

/-- One more call.  It deletes the key unread, or leaves it deleted. -/
theorem deletedUnread_concat {k : Bytes} {calls : List MapCall} {c : MapCall} :
    DeletedUnread k (calls ++ [c]) ↔
      (c.writes k = false ∧ DeletedUnread k calls) ∨
        (∃ key, c = .del key ∧ caseEq key k = true) ∧ Unread calls := by
  constructor
  · rintro ⟨before, key, after, heq, hkey, hbefore, hafter⟩
    rcases List.eq_nil_or_concat after with rfl | ⟨after, d, rfl⟩
    · obtain ⟨rfl, hc⟩ := List.append_inj' heq rfl
      exact Or.inr ⟨⟨key, (List.cons.inj hc).1, hkey⟩, hbefore⟩
    · rw [List.concat_eq_append, ← List.cons_append, ← List.append_assoc] at heq
      obtain ⟨rfl, hc⟩ := List.append_inj' heq rfl
      obtain ⟨rfl, -⟩ := List.cons.inj hc
      simp only [List.concat_eq_append, List.mem_append, List.mem_singleton] at hafter
      exact Or.inl ⟨hafter c (Or.inr rfl), before, key, after, rfl, hkey, hbefore,
        fun d hd => hafter d (Or.inl hd)⟩
  · rintro (⟨hc, before, key, after, rfl, hkey, hbefore, hafter⟩ | ⟨⟨key, rfl, hkey⟩, hunread⟩)
    · refine ⟨before, key, after ++ [c], by simp, hkey, hbefore, ?_⟩
      intro d hd
      rcases List.mem_append.1 hd with hd | hd
      · exact hafter d hd
      · rwa [List.mem_singleton.1 hd]
    · exact ⟨calls, key, [], rfl, hkey, hunread, nofun⟩

/-- After a call nothing has been read when nothing had been, and it is no read. -/
theorem unread_concat {calls : List MapCall} {c : MapCall} :
    Unread (calls ++ [c]) ↔ Unread calls ∧ c.isRead = false := by
  rw [Unread, List.forall_mem_append, List.forall_mem_singleton, Unread]

/-- After the calls, the map and the one that was parsed before them.  They are the same but for
keys that were deleted unread. -/
structure Shadows (l : LazyMap) (calls : List MapCall) : Prop where
  unread : Unread calls → (l.run calls).pending = l.pending
  read : ¬Unread calls → (l.run calls).pending = []
  parsed : (l.parse.run calls).pending = []
  deleted : ∀ k, DeletedUnread k calls →
    (l.run calls).seen k = firstValue k l.pending ∧ (l.parse.run calls).seen k = none
  kept : ∀ k, ¬DeletedUnread k calls → (l.run calls).seen k = (l.parse.run calls).seen k

/-- One more call, after the others. -/
theorem LazyMap.run_concat (l : LazyMap) (calls : List MapCall) (c : MapCall) :
    l.run (calls ++ [c]) = (l.run calls).step c := by
  rw [run, List.foldl_concat]
  rfl

/-- Before the calls a map and its parse show the same. -/
theorem shadows_nil (l : LazyMap) : Shadows l [] where
  unread _ := rfl
  read h := absurd nofun h
  parsed := rfl
  deleted := by
    rintro k ⟨before, key, after, heq, -⟩
    exact absurd heq.symm (List.append_ne_nil_of_right_ne_nil _ (List.cons_ne_nil _ _))
  kept _ _ := rfl

/-- A read shows what there is, and changes nothing of it.  The pending entries are inserted
into both, or into none. -/
theorem Shadows.read_step {l : LazyMap} {calls : List MapCall} (h : Shadows l calls) {c : MapCall}
    (hc : c.isRead = true) : Shadows l (calls ++ [c]) := by
  have hdeleted : ∀ k, DeletedUnread k (calls ++ [c]) ↔ DeletedUnread k calls := by
    intro k
    rw [deletedUnread_concat, or_iff_left, MapCall.writes, hc]
    · exact and_iff_right rfl
    · rintro ⟨⟨key, rfl, -⟩, -⟩
      cases hc
  constructor <;> simp only [LazyMap.run_concat, LazyMap.step_read _ hc, LazyMap.seen_parse, hdeleted]
  · intro hunread
    rw [(unread_concat.1 hunread).2] at hc
    cases hc
  · exact fun _ => rfl
  · rfl
  · exact h.deleted
  · exact h.kept

/-- What is set is shown by both. -/
theorem Shadows.set_step {l : LazyMap} {calls : List MapCall} (h : Shadows l calls) (key val : Bytes) :
    Shadows l (calls ++ [.set key val]) := by
  have hdeleted : ∀ k, DeletedUnread k (calls ++ [.set key val]) ↔
      caseKey key ≠ caseKey k ∧ DeletedUnread k calls := by
    intro k
    rw [deletedUnread_concat, or_iff_left]
    · exact and_congr_left fun _ => decide_eq_false_iff_not
    · rintro ⟨⟨key, hcall, -⟩, -⟩
      cases hcall
  have hunread : Unread (calls ++ [.set key val]) ↔ Unread calls :=
    unread_concat.trans (and_iff_left rfl)
  constructor <;> simp only [LazyMap.run_concat, LazyMap.seen_set, hdeleted, hunread]
  · exact h.unread
  · exact h.read
  · exact h.parsed
  · rintro k ⟨hne, hk⟩
    rw [if_neg hne, if_neg hne]
    exact h.deleted k hk
  · intro k hk
    split_ifs with heq
    · rfl
    · exact h.kept k fun hd => hk ⟨heq, hd⟩

/-- What a deletion uncovers is what the source has, as long as nothing was read.  Afterwards it
does not, since the source has been used up. -/
theorem Shadows.del_step {l : LazyMap} {calls : List MapCall} (h : Shadows l calls) (key : Bytes) :
    Shadows l (calls ++ [.del key]) := by
  have hsame : ∀ k, caseKey key = caseKey k →
      (DeletedUnread k (calls ++ [.del key]) ↔ Unread calls) := by
    intro k hkey
    rw [deletedUnread_concat, or_iff_right]
    · exact and_iff_right ⟨key, rfl, decide_eq_true hkey⟩
    · rintro ⟨hwrites, -⟩
      exact of_decide_eq_false hwrites hkey
  have hother : ∀ k, caseKey key ≠ caseKey k →
      (DeletedUnread k (calls ++ [.del key]) ↔ DeletedUnread k calls) := by
    intro k hne
    rw [deletedUnread_concat, or_iff_left]
    · exact and_iff_right (decide_eq_false hne)
    · rintro ⟨⟨key', hcall, hkey⟩, -⟩
      cases hcall
      exact hne (of_decide_eq_true hkey)
  have hunread : Unread (calls ++ [.del key]) ↔ Unread calls :=
    unread_concat.trans (and_iff_left rfl)
  constructor <;> simp only [LazyMap.run_concat, LazyMap.seen_del, hunread, h.parsed]
  · exact h.unread
  · exact h.read
  · exact h.parsed
  · intro k hk
    split_ifs with hkey
    · rw [h.unread ((hsame k hkey).1 hk)]
      exact ⟨rfl, rfl⟩
    · exact h.deleted k ((hother k hkey).1 hk)
  · intro k hk
    split_ifs with hkey
    · rw [h.read fun hu => hk ((hsame k hkey).2 hu)]
    · exact h.kept k fun hd => hk ((hother k hkey).2 hd)

/-- After any calls, the two maps differ in keys that were deleted unread only.  The induction
is over the calls. -/
theorem shadows (l : LazyMap) (calls : List MapCall) : Shadows l calls := by
  induction calls using List.reverseRecOn with
  | nil => exact shadows_nil l
  | append_singleton calls c ih =>
      cases c with
      | get key default => exact ih.read_step rfl
      | has key => exact ih.read_step rfl
      | set key val => exact ih.set_step key val
      | del key => exact ih.del_step key

/-! ### Requests -/

/-- What a request parses when it is read.  The two are parsed apart from each other. -/
inductive MapKind
  | params
  | cookies
  deriving DecidableEq, Repr

/-- A call on one of the two maps.  With the kind of map that it is about. -/
structure RequestCall where
  kind : MapKind
  call : MapCall
  deriving DecidableEq, Repr

end Http

open Http StringUtil

namespace HttpRequest

variable (r : HttpRequest)

/-- What a call returns, and the request after it.  It is the method of that name. -/
def mapCall : RequestCall → MapAnswer × HttpRequest
  | ⟨.params, .get key default⟩ => (.got (r.getParam key default).1, (r.getParam key default).2)
  | ⟨.params, .has key⟩ => (.found (r.hasParam key).1, (r.hasParam key).2)
  | ⟨.params, .set key val⟩ => (.done, r.setParam key val)
  | ⟨.params, .del key⟩ => (.done, r.delParam key)
  | ⟨.cookies, .get key default⟩ => (.got (r.getCookie key default).1, (r.getCookie key default).2)
  | ⟨.cookies, .has key⟩ => (.found (r.hasCookie key).1, (r.hasCookie key).2)
  | ⟨.cookies, .set key val⟩ => (.done, r.setCookie key val)
  | ⟨.cookies, .del key⟩ => (.done, r.delCookie key)

/-- What the calls return.  The request goes from call to call. -/
def answers (r : HttpRequest) : List RequestCall → List MapAnswer
  | [] => []
  | c :: calls => (r.mapCall c).1 :: answers (r.mapCall c).2 calls

/-- Everything is parsed.  As by a read of each map. -/
def parseAll : HttpRequest := r.initQueryParam.initBodyParam.initCookies

/-- The entries that are still to be inserted.  For the parameters, of the query and of the
body. -/
def pendingEntries : MapKind → List Entry
  | .params =>
    (if r.parserParamFlag.query then [] else parseParam 38 id r.query) ++
      if r.parserParamFlag.body || !r.isForm then [] else parseParam 38 id r.body
  | .cookies =>
    if r.parserParamFlag.cookies then []
    else parseParam 59 trim (r.getHeader (text "cookie") [])

/-- The map of that kind, with what is pending for it. -/
def lazyMap : MapKind → LazyMap
  | .params => ⟨r.params, r.pendingEntries .params⟩
  | .cookies => ⟨r.cookies, r.pendingEntries .cookies⟩

end HttpRequest

namespace Http

variable (r : HttpRequest)

/-- Two lists of entries, one inserted behind the other. -/
theorem insertAll_append (m : MapType) (es es' : List Entry) :
    m.insertAll (es ++ es') = (m.insertAll es).insertAll es' :=
  List.foldl_append

/-- `initQueryParam`, whatever is parsed already.  It inserts what is pending of the query and
sets the bit. -/
theorem initQueryParam_eq :
    r.initQueryParam =
      { r with
        params := r.params.insertAll
          (if r.parserParamFlag.query then [] else parseParam 38 id r.query)
        parserParamFlag := { r.parserParamFlag with query := true } } := by
  rw [HttpRequest.initQueryParam]
  split_ifs with hflag
  · conv_rhs => rw [← hflag]
    rfl
  · rfl

/-- `initBodyParam`, whatever is parsed already: it inserts what is pending of the body and sets
the bit. -/
theorem initBodyParam_eq :
    r.initBodyParam =
      { r with
        params := r.params.insertAll
          (if r.parserParamFlag.body || !r.isForm then [] else parseParam 38 id r.body)
        parserParamFlag := { r.parserParamFlag with body := true } } := by
  rw [HttpRequest.initBodyParam]
  by_cases hflag : r.parserParamFlag.body = true
  · rw [if_pos hflag, hflag, Bool.true_or, if_pos rfl]
    conv_rhs => rw [← hflag]
    rfl
  · rw [if_neg hflag, Bool.eq_false_iff.2 hflag, Bool.false_or]
    split_ifs
    · rfl
    · rfl

/-- `initCookies`, whatever is parsed already: it inserts what is pending of the cookie header
and sets the bit. -/
theorem initCookies_eq :
    r.initCookies =
      { r with
        cookies := r.cookies.insertAll
          (if r.parserParamFlag.cookies then []
          else parseParam 59 trim (r.getHeader (text "cookie") []))
        parserParamFlag := { r.parserParamFlag with cookies := true } } := by
  rw [HttpRequest.initCookies]
  dsimp only
  split_ifs with hflag hempty
  · conv_rhs => rw [← hflag]
    rfl
  · rw [List.isEmpty_iff.1 hempty, parseParam_of_notMem List.not_mem_nil]
    rfl
  · rfl

/-- Reading the parameters inserts theirs, and leaves the cookies.  Both of their sources are
parsed. -/
theorem lazyMap_params (kind : MapKind) :
    r.initQueryParam.initBodyParam.lazyMap kind =
      if kind = .params then (r.lazyMap kind).parse else r.lazyMap kind := by
  rw [initBodyParam_eq, initQueryParam_eq]
  cases kind with
  | params =>
      rw [if_pos rfl, LazyMap.parse, HttpRequest.lazyMap, HttpRequest.lazyMap,
        HttpRequest.pendingEntries, HttpRequest.pendingEntries, insertAll_append]
      rfl
  | cookies => rfl

/-- Reading the cookies inserts theirs, and leaves the parameters. -/
theorem lazyMap_cookies (kind : MapKind) :
    r.initCookies.lazyMap kind =
      if kind = .cookies then (r.lazyMap kind).parse else r.lazyMap kind := by
  rw [initCookies_eq]
  cases kind with
  | params => rfl
  | cookies => rfl

/-- Parsing everything parses both maps. -/
theorem lazyMap_parseAll (kind : MapKind) : r.parseAll.lazyMap kind = (r.lazyMap kind).parse := by
  rw [HttpRequest.parseAll, lazyMap_cookies, lazyMap_params]
  cases kind with
  | params => rfl
  | cookies => rfl

/-- A call acts on its own map.  The other stays. -/
theorem lazyMap_mapCall (c : RequestCall) (kind : MapKind) :
    (r.mapCall c).2.lazyMap kind =
      if c.kind = kind then (r.lazyMap kind).step c.call else r.lazyMap kind := by
  obtain ⟨ckind, call⟩ := c
  cases ckind with
  | params =>
      cases call with
      | get key default => exact (lazyMap_params r kind).trans (by cases kind <;> rfl)
      | has key => exact (lazyMap_params r kind).trans (by cases kind <;> rfl)
      | set key val => cases kind <;> rfl
      | del key => cases kind <;> rfl
  | cookies =>
      cases call with
      | get key default => exact (lazyMap_cookies r kind).trans (by cases kind <;> rfl)
      | has key => exact (lazyMap_cookies r kind).trans (by cases kind <;> rfl)
      | set key val => cases kind <;> rfl
      | del key => cases kind <;> rfl

/-- What a read answers, once it has parsed.  It does not matter how much of it was parsed
before. -/
theorem answer_get {l : LazyMap} {m : MapType} (h : m = l.parse.map) (key default : Bytes) :
    MapAnswer.got ((m.lookup key).getD default) = (MapCall.get key default).answer (l.seen key) := by
  subst h
  rfl

/-- What `has` answers and writes, once it has parsed. -/
theorem answer_has {l : LazyMap} {m : MapType} (h : m = l.parse.map) (key : Bytes) :
    MapAnswer.found (m.lookup key) = (MapCall.has key).answer (l.seen key) := by
  subst h
  rfl

/-- And answers what is seen of it.  Of the map it acts on. -/
theorem answer_mapCall (c : RequestCall) :
    (r.mapCall c).1 = c.call.answer ((r.lazyMap c.kind).seen c.call.key) := by
  have hparams : r.initQueryParam.initBodyParam.params = (r.lazyMap .params).parse.map :=
    congrArg LazyMap.map (lazyMap_params r .params)
  have hcookies : r.initCookies.cookies = (r.lazyMap .cookies).parse.map :=
    congrArg LazyMap.map (lazyMap_cookies r .cookies)
  obtain ⟨kind, call⟩ := c
  cases kind with
  | params =>
      cases call with
      | get key default => exact answer_get hparams key default
      | has key => exact answer_has hparams key
      | set key val => rfl
      | del key => rfl
  | cookies =>
      cases call with
      | get key default => exact answer_get hcookies key default
      | has key => exact answer_has hcookies key
      | set key val => rfl
      | del key => rfl

/-- The calls on one of the maps.  In their order. -/
def callsOn (kind : MapKind) (calls : List RequestCall) : List MapCall :=
  (calls.filter (·.kind = kind)).map (·.call)

/-- The request after calls. -/
def runCalls (calls : List RequestCall) : HttpRequest :=
  calls.foldl (fun r c => (r.mapCall c).2) r

/-- Each map goes its own way.  The induction is over the calls. -/
theorem lazyMap_runCalls (calls : List RequestCall) (kind : MapKind) :
    (runCalls r calls).lazyMap kind = (r.lazyMap kind).run (callsOn kind calls) := by
  induction calls generalizing r with
  | nil => rfl
  | cons c calls ih =>
      rw [runCalls, List.foldl_cons, ← runCalls, ih, lazyMap_mapCall, callsOn, callsOn,
        List.filter_cons]
      simp only [decide_eq_true_eq]
      split_ifs
      · rfl
      · rfl

/-- Two requests answer alike when they do so call by call.  The calls before are the same. -/
theorem answers_eq_iff (r r' : HttpRequest) (calls : List RequestCall) :
    r.answers calls = r'.answers calls ↔
      ∀ before c after, calls = before ++ c :: after →
        ((runCalls r before).mapCall c).1 = ((runCalls r' before).mapCall c).1 := by
  induction calls generalizing r r' with
  | nil =>
      refine iff_of_true rfl fun before c after heq => ?_
      exact absurd heq.symm (List.append_ne_nil_of_right_ne_nil _ (List.cons_ne_nil _ _))
  | cons c calls ih =>
      rw [HttpRequest.answers, HttpRequest.answers, List.cons.injEq, ih]
      constructor
      · rintro ⟨hc, hrest⟩ before d after heq
        rcases List.cons_eq_append_iff.1 heq with ⟨rfl, hhead⟩ | ⟨before, rfl, htail⟩
        · cases hhead
          exact hc
        · exact hrest before d after htail
      · intro h
        refine ⟨h [] c calls rfl, fun before d after heq => ?_⟩
        exact h (c :: before) d after (by rw [heq]; rfl)

/-- The answer shows that there is this value, and not none.  A read with a default that is the
value does not tell. -/
def Shows (c : MapCall) (val : Option Bytes) : Prop := c.answer val ≠ c.answer none

/-- A read, after a deletion before the first read, of a key that the source has.  The source
has a value for it, and the answer shows it. -/
def SeesDeleted (r : HttpRequest) (calls : List RequestCall) : Prop :=
  ∃ before c after, calls = before ++ c :: after ∧
    DeletedUnread c.call.key (callsOn c.kind before) ∧
    Shows c.call (firstValue c.call.key (r.pendingEntries c.kind))

/-- One call after others, on the request and on the parsed one.  They differ exactly when a
deleted key is seen. -/
theorem answer_iff (before : List RequestCall) (c : RequestCall) :
    ((runCalls r before).mapCall c).1 = ((runCalls r.parseAll before).mapCall c).1 ↔
      ¬(DeletedUnread c.call.key (callsOn c.kind before) ∧
        Shows c.call (firstValue c.call.key (r.pendingEntries c.kind))) := by
  have h := shadows (r.lazyMap c.kind) (callsOn c.kind before)
  rw [answer_mapCall, answer_mapCall, lazyMap_runCalls, lazyMap_runCalls, lazyMap_parseAll]
  by_cases hdeleted : DeletedUnread c.call.key (callsOn c.kind before)
  · obtain ⟨hseen, hnone⟩ := h.deleted _ hdeleted
    rw [hseen, hnone, and_iff_right hdeleted, Shows, not_not]
    rcases c with ⟨kind, call⟩
    cases kind <;> rfl
  · rw [h.kept _ hdeleted]
    exact iff_of_true rfl fun hboth => hdeleted hboth.1

/-- **Lazy parsing.**  It is invisible exactly when no call sees a key that was deleted before
the first read.  For every request and every sequence of calls.  `initQueryParam`,
`initBodyParam` and `initCookies` (`src/hiper/http/http.cc:235-273`) are run by the calls that
read and by no others: deleting from a map that is not filled yet deletes nothing. -/
theorem lazy_parsing_iff (r : HttpRequest) (calls : List RequestCall) :
    r.answers calls = r.parseAll.answers calls ↔ ¬SeesDeleted r calls := by
  rw [answers_eq_iff, SeesDeleted]
  simp only [answer_iff]
  push Not
  rfl

/-- A request with the query `a=1`.  Nothing of it is parsed yet. -/
def queryRequest : HttpRequest := { HttpRequest.new 0x11 true with query := text "a=1" }

/-- `delParam("a")` before the first read: the parameter is there all the same.  The failing
input. -/
theorem deletion_undone_by_parse :
    queryRequest.answers [⟨.params, .del (text "a")⟩, ⟨.params, .has (text "a")⟩] =
        [.done, .found (some (text "1"))] ∧
      queryRequest.parseAll.answers [⟨.params, .del (text "a")⟩, ⟨.params, .has (text "a")⟩] =
        [.done, .found none] := by
  decide +kernel

end Http

end Hiper

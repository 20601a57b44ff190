import Hiper.Address.Basic
import Mathlib.Data.List.Count

/-!
# What `getaddrinfo` is asked for

`Address::Lookup` cuts a host as its forms say (`Splits`), but for one form: of a host
with several colons and no bracket the service stays where the first colon is
(`splits_iff`).

A host is `[address]:port`, `[address]`, `name:port`, `name`, or a bare IPv6 address;
`Splits` says for each what node and service are to be.  The two stages of
`address.cc:62-84` are computed on these forms (`bracketed_eq`, `colonSplit_one`,
`colonSplit_more`).  A name that is cut wrong is asked for with a service that no system
knows, so that a bare IPv6 address cannot be looked up.
-/

namespace Hiper

open StringUtil

namespace Address

/-- A byte that is not there has no index. -/
theorem findIdx?_of_notMem {s : Bytes} {ch : Byte} (h : ch ∉ s) : s.findIdx? (· = ch) = none := by
  rw [List.findIdx?_eq_none_iff]
  exact fun c hc => decide_eq_false fun e => h (e ▸ hc)

/-- What is found behind a part without it.  The index is counted from the front of the whole. -/
theorem memchr_append {s t : Bytes} {ch : Byte} (before : Bytes) (h : ch ∉ s) :
    memchr (before ++ (s ++ ch :: t)) before.length ch = some (before.length + s.length) := by
  rw [memchr, List.drop_left, List.findIdx?_append, findIdx?_of_notMem h, List.findIdx?_cons,
    if_pos (decide_eq_true rfl)]
  simp

/-- A byte that is not behind a place is not found from there on. -/
theorem memchr_eq_none {s : Bytes} {ch : Byte} {start : ℕ} (h : ch ∉ s.drop start) :
    memchr s start ch = none := by
  rw [memchr, findIdx?_of_notMem h, Option.map_none]

/-- The first stage, with a bracket that closes.  A colon right behind it starts the service. -/
theorem bracketed_eq {h : Bytes} (hh : 93 ∉ h) (rest : Bytes) :
    bracketed (91 :: (h ++ 93 :: rest)) =
      some (h, if rest.head? = some 58 then some rest.tail else none) := by
  have hfind : memchr (91 :: (h ++ 93 :: rest)) 1 93 = some (1 + h.length) :=
    memchr_append [91] hh
  have hnext : (91 :: (h ++ 93 :: rest) ++ [0])[1 + h.length + 1]? = (rest ++ [0]).head? := by
    rw [Nat.add_comm 1, List.cons_append, List.getElem?_cons_succ, List.append_assoc,
      List.getElem?_append_right (Nat.le_succ _), Nat.succ_sub (Nat.le_refl _), Nat.sub_self]
    exact List.head?_eq_getElem?.symm
  have hcolon : (rest ++ [0]).head? = some 58 ↔ rest.head? = some 58 := by
    cases rest <;> simp
  have hservice : (91 :: (h ++ 93 :: rest)).drop (1 + h.length + 2) = rest.tail := by
    rw [Nat.add_comm 1, List.drop_succ_cons, ← List.drop_drop, List.drop_left, List.drop_succ_cons,
      List.drop_one]
  have hnode : ((91 :: (h ++ 93 :: rest)).drop 1).take (1 + h.length - 1) = h := by
    rw [Nat.add_sub_cancel_left, List.drop_one, List.tail_cons, List.take_left]
  rw [bracketed, if_pos List.head?_cons, hfind, Option.map_some, hnext, hservice, hnode]
  exact congrArg some (congrArg (Prod.mk h) (if_congr hcolon rfl rfl))

/-- With a node from the first stage, the second is not made. -/
theorem lookupNames_of_bracketed {host h : Bytes} {service : Option Bytes} (hne : h ≠ [])
    (hb : bracketed host = some (h, service)) : lookupNames host = (h, service) := by
  rw [lookupNames, hb]
  simp [hne]

/-- Without a bracket in front, the second stage alone decides. -/
theorem lookupNames_of_head {host : Bytes} (h : host.head? ≠ some 91) :
    lookupNames host = (if (colonSplit host).1 = [] then host else (colonSplit host).1,
      (colonSplit host).2) := by
  rw [lookupNames, bracketed, if_neg h]
  rfl

/-- The second stage, with one colon.  Both may be empty. -/
theorem colonSplit_one {h p : Bytes} (hh : 58 ∉ h) (hp : 58 ∉ p) :
    colonSplit (h ++ 58 :: p) = (h, some p) := by
  have hfind : memchr (h ++ 58 :: p) 0 58 = some h.length := by
    rw [← Nat.zero_add h.length]
    exact memchr_append [] hh
  have hdrop : (h ++ 58 :: p).drop (h.length + 1) = p := by
    rw [← List.drop_drop, List.drop_left, List.drop_succ_cons, List.drop_zero]
  have hlast : memchr (h ++ 58 :: p) (h.length + 1) 58 = none := memchr_eq_none (by rwa [hdrop])
  rw [colonSplit, hfind]
  simp only [hlast, hdrop, Option.isNone_none, if_true, List.take_left]

/-- The second stage, with more colons.  The service is where the first colon is. -/
theorem colonSplit_more {h p : Bytes} (hh : 58 ∉ h) (hp : 58 ∈ p) :
    colonSplit (h ++ 58 :: p) = ([], some (58 :: p)) := by
  obtain ⟨p, q, rfl, hbefore⟩ := List.eq_append_cons_of_mem hp
  have hfind : memchr (h ++ 58 :: (p ++ 58 :: q)) 0 58 = some h.length := by
    rw [← Nat.zero_add h.length]
    exact memchr_append [] hh
  have hnext : memchr (h ++ 58 :: (p ++ 58 :: q)) (h.length + 1) 58 =
      some (h.length + 1 + p.length) := by
    have happend := memchr_append (t := q) (h ++ [58]) hbefore
    rwa [List.length_append, List.append_assoc] at happend
  rw [colonSplit, hfind]
  simp only [hnext, Option.isNone_some, Bool.false_eq_true, if_false, List.drop_left]

/-- The second stage, without a colon: no service, and the node is left to be the host. -/
theorem colonSplit_none {host : Bytes} (h : 58 ∉ host) : colonSplit host = ([], none) := by
  rw [colonSplit, memchr_eq_none (by rwa [List.drop_zero])]

/-- What a host is to be cut into.  One clause for each form. -/
structure Splits (host : Bytes) : Prop where
  /-- `[h]:p`. -/
  bracket_port {h p} : h ≠ [] → 93 ∉ h → host = 91 :: (h ++ 93 :: 58 :: p) →
    lookupNames host = (h, some p)
  /-- `[h]`. -/
  bracket {h} : h ≠ [] → 93 ∉ h → host = 91 :: (h ++ [93]) → lookupNames host = (h, none)
  /-- `h:p`. -/
  port {h p} : host.head? ≠ some 91 → h ≠ [] → 58 ∉ h → 58 ∉ p → host = h ++ 58 :: p →
    lookupNames host = (h, some p)
  /-- No colon. -/
  name : host.head? ≠ some 91 → host.count 58 = 0 → lookupNames host = (host, none)
  /-- A bare IPv6 address. -/
  literal : host.head? ≠ some 91 → 2 ≤ host.count 58 → lookupNames host = (host, none)

/-- The node is the whole host, and there is a service all the same, which should be none. -/
theorem lookupNames_literal {host : Bytes} (hhead : host.head? ≠ some 91)
    (h : 2 ≤ host.count 58) : ∃ service, lookupNames host = (host, some service) := by
  obtain ⟨before, rest, rfl, hbefore⟩ :=
    List.eq_append_cons_of_mem (List.count_pos_iff.1 (show 0 < host.count 58 by omega))
  have hrest : 58 ∈ rest := by
    rw [List.count_append, List.count_eq_zero.2 hbefore, List.count_cons_self] at h
    exact List.count_pos_iff.1 (by omega)
  refine ⟨58 :: rest, ?_⟩
  rw [lookupNames_of_head hhead, colonSplit_more hbefore hrest, if_pos rfl]

/-- **How a host is cut.**  It is cut as it should be when it starts with a bracket or has less
than two colons; a bare IPv6 address never is.  Both directions, for every host.  The code is
`src/hiper/base/address.cc:56-89`: line 74 has pointed `service` at the first colon by the time
line 77 finds a second one, and nothing sets it back. -/
theorem splits_iff (host : Bytes) : Splits host ↔ host.head? = some 91 ∨ host.count 58 < 2 := by
  constructor
  · intro h
    by_contra hnot
    obtain ⟨hhead, hcount⟩ := not_or.1 hnot
    obtain ⟨service, hservice⟩ := lookupNames_literal hhead (by omega)
    rw [h.literal hhead (by omega)] at hservice
    exact absurd (Prod.mk.inj hservice).2 (by simp)
  · intro hgood
    refine ⟨?_, ?_, ?_, ?_, ?_⟩
    · rintro h p hne hh rfl
      exact lookupNames_of_bracketed hne (bracketed_eq hh (58 :: p))
    · rintro h hne hh rfl
      exact lookupNames_of_bracketed hne (bracketed_eq hh [])
    · rintro h p hhead hne hh hp rfl
      rw [lookupNames_of_head hhead, colonSplit_one hh hp, if_neg hne]
    · intro hhead hcount
      rw [lookupNames_of_head hhead, colonSplit_none (List.count_eq_zero.1 hcount), if_pos rfl]
    · intro hhead hcount
      rcases hgood with hbracket | hlt
      · exact absurd hbracket hhead
      · omega

/-- `::1` is taken for a name with the service `::1`.  The failing input; the code's own comment
says that there is no port then. -/
theorem not_splits_loopback : ¬Splits (text "::1") := by
  intro h
  have hliteral := h.literal (by decide) (by decide)
  rw [show lookupNames (text "::1") = (text "::1", some (text "::1")) by decide] at hliteral
  exact absurd (Prod.mk.inj hliteral).2 (by simp)

end Address

end Hiper

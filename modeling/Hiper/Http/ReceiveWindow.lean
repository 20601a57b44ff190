import Hiper.Http.Session
import Hiper.Lib.Machine
import Hiper.Stream.Transfer

/-!
# The buffer of `recvRequest`

The loop of `HttpSession::recvRequest` on the memory it works on: a read stores behind the
bytes that are kept, the parser takes some of what is there, `execute` moves the rest to the
front, and `offset` is brought up to date.  Whatever the reads return and however much the
parser takes, the window of a read is inside the buffer and not empty, and no byte is lost,
doubled or overwritten (`receive_window`).

The source is `src/hiper/http/http_session.cc:18`.  The memory is a list of `buff_size`
bytes whose first content is arbitrary, `offset` is an `int` and `buff_size` a `uint64_t`,
so that `buff_size - offset` and `len - nparse` go through conversions; `Counts` says that
none of them changes a number as long as the buffer is shorter than `2 ^ 31` bytes.  The
last theorems connect this loop to the one of the model of `recvRequest` (`recvLoop`), which
works on what is left in the buffer and not on the buffer.
-/

namespace Hiper

open Lib

namespace HttpSession

/-- How `recvRequest` goes on.  The last one is the `break` out of the loop. -/
inductive Receipt
  | reading
  /-- `close(); return nullptr;` -/
  | closed
  | finished
  deriving DecidableEq, Repr

/-- The buffer and `offset`; the bytes that reads brought, and those that the parser took.
`received` and `consumed` are kept for the statement alone; no turn reads them. -/
structure Receiving where
  data : Bytes
  offset : ℤ
  receipt : Receipt
  received : Bytes
  consumed : Bytes
  deriving DecidableEq, Repr

/-- One turn of the loop: what `read` brings, nothing for an answer of 0 or less, how much the
parser takes, and whether it is finished then.  They are the only things that a turn takes from
outside. -/
structure Turn where
  answer : Bytes
  nparse : ℕ
  finished : Bool
  deriving DecidableEq, Repr

/-- `memmove(data, data + n, len - n)`.  `HttpRequestParser::execute` ends with it. -/
def memmove (data : Bytes) (n len : ℕ) : Bytes := (data.drop n).take (len - n) ++ data.drop (len - n)

namespace Receiving

/-- Before the first read; the buffer is not initialised.  Nothing is received and nothing is
parsed. -/
def start (data : Bytes) : Receiving := ⟨data, 0, .reading, [], []⟩

variable (buffSize : ℕ) (s : Receiving)

/-- `buff_size - offset`, the length that `read` is given; a `size_t`.  A negative difference
would be a huge one. -/
def room : ℕ := ((buffSize - s.offset) % 2 ^ 64).toNat

/-- What `read` stores at `data + offset`.  The bytes behind it stay. -/
def store (bs : Bytes) : Bytes :=
  s.data.take s.offset.toNat ++ bs ++ s.data.drop (s.offset.toNat + bs.length)

/-- The bytes in front that are not parsed yet.  There are `offset` of them. -/
def kept : Bytes := s.data.take s.offset.toNat

/-- One turn, when `read` returns no more than it was asked for, and the parser takes no more
than there is.  A session that is closed or finished takes no more turns. -/
def turn (t : Turn) : Option Receiving :=
  if s.receipt ≠ .reading ∨ s.room buffSize < t.answer.length then none
  else if t.answer = [] then some { s with receipt := .closed }
  else
    let data := s.store t.answer
    let len := toInt (toInt t.answer.length + s.offset)
    if len < t.nparse then none
    else
      let offset := toInt (len - t.nparse)
      some
        { data := if t.nparse < len then memmove data t.nparse len.toNat else data
          offset := offset
          receipt :=
            if offset = toInt buffSize then .closed
            else if t.finished then .finished
            else .reading
          received := s.received ++ t.answer
          consumed := s.consumed ++ data.take t.nparse }

end Receiving

/-- The window of the next read is in the buffer and not empty; what was received is what the
parser took and what is kept; and a buffer that gets full, with nothing taken, is closed.
Nothing in it speaks about how the reads were cut. -/
structure WindowKept (buffSize : ℕ) (s : Receiving) : Prop where
  size : s.data.length = buffSize
  inside : s.receipt = .reading →
    0 ≤ s.offset ∧ 0 < s.room buffSize ∧ s.offset + s.room buffSize ≤ s.data.length
  bytes : s.consumed ++ s.kept = s.received
  full : ∀ t s', s.turn buffSize t = some s' → t.answer.length = s.room buffSize → t.nparse = 0 →
    s'.receipt = .closed

variable {buffSize : ℕ} {s s' : Receiving} {t : Turn}

/-! ### Memory -/

/-- Moving bytes to the front does not change the size of the buffer. -/
theorem length_memmove {data : Bytes} {n len : ℕ} (hn : n ≤ len) (hlen : len ≤ data.length) :
    (memmove data n len).length = data.length := by
  rw [memmove, List.length_append, List.length_take, List.length_drop, List.length_drop]
  omega

/-- What is moved is in front.  The places overlap, as `memmove` allows. -/
theorem take_memmove {data : Bytes} {n len : ℕ} (hn : n ≤ len) (hlen : len ≤ data.length) :
    (memmove data n len).take (len - n) = (data.take len).drop n := by
  rw [memmove, List.take_left', List.drop_take]
  rw [List.length_take, List.length_drop]
  omega

namespace Receiving

/-- The room is the difference, when `offset` is between 0 and the size of the buffer. -/
theorem room_eq (hoffset : 0 ≤ s.offset) (hle : s.offset ≤ buffSize) (hsize : buffSize < 2 ^ 31) :
    (s.room buffSize : ℤ) = buffSize - s.offset := by
  rw [room, Int.emod_eq_of_lt (by omega) (by omega)]
  omega

variable {bs : Bytes} (hfits : s.offset.toNat + bs.length ≤ s.data.length)

include hfits

/-- A read that fits does not change the size of the buffer. -/
theorem length_store : (s.store bs).length = s.data.length := by
  rw [store, List.length_append, List.length_append, List.length_take, List.length_drop]
  omega

/-- What was kept stays where it is, and what was read stands behind it. -/
theorem take_store : (s.store bs).take (s.offset.toNat + bs.length) = s.kept ++ bs := by
  rw [store, List.take_left' ?_, kept]
  rw [List.length_append, List.length_take]
  omega

end Receiving

/-! ### One turn -/

/-- What every turn keeps.  An offset is below the size while the loop goes on. -/
structure Inv (buffSize : ℕ) (s : Receiving) : Prop where
  size : s.data.length = buffSize
  nonneg : 0 ≤ s.offset
  le : s.offset ≤ buffSize
  lt : s.receipt = .reading → s.offset < buffSize
  bytes : s.consumed ++ s.kept = s.received

/-- The numbers of a turn that reads something: no conversion changes one. -/
structure Counts (buffSize : ℕ) (s : Receiving) (t : Turn) (len : ℕ) : Prop where
  eq : len = s.offset.toNat + t.answer.length
  le : len ≤ buffSize
  converted : toInt (toInt t.answer.length + s.offset) = len
  rest : t.nparse ≤ len → toInt (len - t.nparse) = (len - t.nparse : ℕ)

/-- A read of at most the room leaves numbers that fit into an `int`. -/
theorem counts (h : Inv buffSize s) (hsize : buffSize < 2 ^ 31)
    (hroom : t.answer.length ≤ s.room buffSize) :
    Counts buffSize s t (s.offset.toNat + t.answer.length) := by
  have hnonneg := h.nonneg
  have hle := h.le
  have hwindow := Receiving.room_eq hnonneg hle hsize
  have hone : toInt (t.answer.length : ℤ) = t.answer.length := toInt_eq (by omega) (by omega)
  have htwo : toInt (t.answer.length + s.offset) = t.answer.length + s.offset :=
    toInt_eq (by omega) (by omega)
  refine ⟨rfl, by omega, ?_, fun hn => ?_⟩
  · rw [hone, htwo]
    omega
  · rw [toInt_eq (by omega) (by omega)]
    omega

/-- The state after a turn that reads something.  Every fact about a turn is read off here. -/
theorem turn_cases (h : Inv buffSize s) (hsize : buffSize < 2 ^ 31)
    (hturn : s.turn buffSize t = some s') :
    s.receipt = .reading ∧
      ((t.answer = [] ∧ s' = { s with receipt := .closed }) ∨
        t.answer ≠ [] ∧ ∃ len, Counts buffSize s t len ∧ t.nparse ≤ len ∧
          s'.data = (if t.nparse < len then memmove (s.store t.answer) t.nparse len
            else s.store t.answer) ∧
          s'.offset = (len - t.nparse : ℕ) ∧
          s'.receipt = (if len - t.nparse = buffSize then .closed
            else if t.finished then .finished else .reading) ∧
          s'.received = s.received ++ t.answer ∧
          s'.consumed = s.consumed ++ (s.store t.answer).take t.nparse) := by
  rw [Receiving.turn] at hturn
  by_cases himpossible : s.receipt ≠ .reading ∨ s.room buffSize < t.answer.length
  · rw [if_pos himpossible] at hturn
    cases hturn
  · obtain ⟨hreading, hroom⟩ := not_or.1 himpossible
    refine ⟨not_not.1 hreading, ?_⟩
    rw [if_neg himpossible] at hturn
    by_cases hempty : t.answer = []
    · rw [if_pos hempty] at hturn
      exact Or.inl ⟨hempty, (Option.some.inj hturn).symm⟩
    · have hcounts := counts h hsize (Nat.not_lt.1 hroom)
      have hfull : toInt buffSize = buffSize := toInt_eq (by omega) (by omega)
      rw [if_neg hempty, hcounts.converted] at hturn
      by_cases hparse : s.offset.toNat + t.answer.length < t.nparse
      · rw [if_pos (Int.ofNat_lt.2 hparse)] at hturn
        cases hturn
      · have hn := Nat.not_lt.1 hparse
        rw [if_neg (mt Int.ofNat_lt.1 hparse), hcounts.rest hn, hfull] at hturn
        refine Or.inr ⟨hempty, _, hcounts, hn, ?_⟩
        cases hturn
        simp only [Int.toNat_natCast, Nat.cast_lt, Nat.cast_inj]
        exact ⟨trivial, trivial, trivial, trivial, trivial⟩

/-- It holds before the first read. -/
theorem inv_start {data : Bytes} (hpos : 1 ≤ buffSize) (hdata : data.length = buffSize) :
    Inv buffSize (.start data) where
  size := hdata
  nonneg := le_rfl
  le := Int.natCast_nonneg _
  lt _ := by
    change (0 : ℤ) < buffSize
    omega
  bytes := rfl

/-- What is read ends inside the buffer. -/
theorem Counts.fits {len : ℕ} (h : Inv buffSize s) (hcounts : Counts buffSize s t len) :
    s.offset.toNat + t.answer.length ≤ s.data.length := by
  rw [h.size, ← hcounts.eq]
  exact hcounts.le

/-- What the parser leaves is in front, moved or not.  It is the rest of what was kept and of
what was read. -/
theorem kept_turn (hsize : buffSize < 2 ^ 31) (h : Inv buffSize s) (hne : t.answer ≠ [])
    (hturn : s.turn buffSize t = some s') : s'.kept = (s.kept ++ t.answer).drop t.nparse := by
  obtain ⟨-, ⟨hempty, -⟩ | ⟨-, len, hcounts, hn, hdata, hoffset, -⟩⟩ := turn_cases h hsize hturn
  · exact absurd hempty hne
  · have hle := hcounts.le
    have hlength := (Receiving.length_store (hcounts.fits h)).trans h.size
    rw [← Receiving.take_store (hcounts.fits h), ← hcounts.eq, Receiving.kept, hoffset,
      Int.toNat_natCast, hdata]
    split_ifs with hmove
    · exact take_memmove hn (by omega)
    · have hall : t.nparse = len := by omega
      rw [hall, Nat.sub_self, List.take_zero, List.drop_eq_nil_of_le]
      exact List.length_take_le ..

/-- One turn keeps it, by cases on what the read brought. -/
theorem inv_turn (hsize : buffSize < 2 ^ 31) (h : Inv buffSize s)
    (hturn : s.turn buffSize t = some s') : Inv buffSize s' := by
  obtain ⟨-, ⟨-, rfl⟩ | ⟨hne, len, hcounts, hn, hdata, hoffset, hreceipt, hreceived, hconsumed⟩⟩ :=
    turn_cases h hsize hturn
  · exact ⟨h.size, h.nonneg, h.le, nofun, h.bytes⟩
  · have hlen := hcounts.eq
    have hle := hcounts.le
    have hlength := (Receiving.length_store (hcounts.fits h)).trans h.size
    constructor
    · rw [hdata]
      split_ifs with hmove
      · rw [length_memmove hn (by omega), hlength]
      · exact hlength
    · rw [hoffset]
      exact Int.natCast_nonneg _
    · rw [hoffset]
      omega
    · intro hreading
      rw [hreceipt] at hreading
      split_ifs at hreading with hfull
      rw [hoffset]
      omega
    · have htake : (s.store t.answer).take t.nparse = (s.kept ++ t.answer).take t.nparse := by
        rw [← Receiving.take_store (hcounts.fits h), List.take_take, Nat.min_eq_left (by omega)]
      rw [kept_turn hsize h hne hturn, hconsumed, hreceived, htake, List.append_assoc,
        List.take_append_drop, ← List.append_assoc, h.bytes]

/-- A turn that fills the buffer, while the parser takes nothing, closes the session.
`recvRequest` gives up on a head that is longer than its buffer. -/
theorem closed_of_full (hsize : buffSize < 2 ^ 31) (h : Inv buffSize s)
    (hturn : s.turn buffSize t = some s') (hroom : t.answer.length = s.room buffSize)
    (hn : t.nparse = 0) : s'.receipt = .closed := by
  have hnonneg := h.nonneg
  have hwindow := Receiving.room_eq h.nonneg h.le hsize
  obtain ⟨-, ⟨-, rfl⟩ | ⟨-, len, hcounts, -, -, -, hreceipt, -⟩⟩ := turn_cases h hsize hturn
  · rfl
  · have hlen := hcounts.eq
    rw [hreceipt, if_pos (by omega)]

/-- **The window of a read.**  In every run of `recvRequest`, whatever the reads bring and
however much the parser takes.  The buffer has at least one byte and less than `2 ^ 31`; that
each turn's window is inside the buffer and not empty is asked of every state that is reached,
so it holds of every read.  The loop is `src/hiper/http/http_session.cc:25-47`.  What is not
parsed stays at the front of the buffer, so the next read is offered the rest,
`buff_size - offset` in line 28, and line 40 gives up before that is nothing. -/
theorem receive_window (hpos : 1 ≤ buffSize) (hsize : buffSize < 2 ^ 31) {data : Bytes}
    (hdata : data.length = buffSize)
    (h : Reachable (fun t s => s.turn buffSize t) (.start data) s) : WindowKept buffSize s := by
  have hinv : Inv buffSize s :=
    h.invariant (inv_start hpos hdata) fun _ _ _ hs hturn => inv_turn hsize hs hturn
  have hroom := Receiving.room_eq hinv.nonneg hinv.le hsize
  refine ⟨hinv.size, fun hreading => ?_, hinv.bytes, fun t s' => closed_of_full hsize hinv⟩
  have hlt := hinv.lt hreading
  rw [hinv.size]
  exact ⟨hinv.nonneg, by omega, by omega⟩

/-- Two bytes of six are taken, and the four that are kept fill the buffer. -/
theorem receive_window_run : ∃ s, WindowKept 4 s ∧ s.receipt = .closed ∧
    s.consumed = StringUtil.text "ab" ∧ s.kept = StringUtil.text "cdef" := by
  obtain ⟨s, hs, hp⟩ := exists_reachable_of_run (fun t s => Receiving.turn 4 s t)
    (.start [0, 0, 0, 0]) [⟨StringUtil.text "abc", 2, false⟩, ⟨StringUtil.text "def", 0, false⟩]
    (fun s => s.receipt = .closed ∧ s.consumed = StringUtil.text "ab" ∧ s.kept = StringUtil.text "cdef")
    (by decide +kernel)
  exact ⟨s, receive_window (by decide) (by decide) rfl hs, of_decide_eq_true hp⟩

/-! ### The turns of a session -/

/-- A call takes no more than there is.  The induction is over the bytes, from any state of the
parser. -/
theorem nparsed_loop_le {δ : Type*} (st : HttpParser.Settings δ) (data bs : Bytes) (pos : ℕ)
    (p : HttpParser) (m : Option (HttpParser.DataCb × ℕ)) (d : δ) :
    (HttpParser.loop st data bs pos p m d).nparsed ≤ pos + bs.length := by
  induction bs generalizing pos p m d with
  | nil => exact le_rfl
  | cons ch bs ih =>
      rw [HttpParser.loop, List.length_cons]
      split
      · change pos + 1 ≤ _
        omega
      · exact (ih ..).trans (by omega)
      · change pos + 1 ≤ _
        omega
      · change pos ≤ _
        omega

/-- `HttpRequestParser::execute` tells at most the number of bytes it was given. -/
theorem nparsed_le (r : HttpRequestParser) {bs : Bytes} (hbs : bs ≠ []) :
    (r.execute bs).2 ≤ bs.length := by
  change (r.parser.execute Http.requestCallbacks.settings r.httpErrno bs r.toSink).nparsed ≤ bs.length
  rw [HttpParser.execute, if_neg hbs]
  split_ifs
  · exact Nat.zero_le _
  · exact (nparsed_loop_le ..).trans (by omega)

/-- A turn is there for whatever a read and the parser may do. -/
theorem exists_turn (hsize : buffSize < 2 ^ 31) (h : Inv buffSize s) (hreading : s.receipt = .reading)
    (hne : t.answer ≠ []) (hroom : t.answer.length ≤ s.room buffSize)
    (hn : t.nparse ≤ s.offset.toNat + t.answer.length) : ∃ s', s.turn buffSize t = some s' := by
  have hcounts := counts h hsize hroom
  refine Option.isSome_iff_exists.1 ?_
  rw [Receiving.turn, if_neg (not_or.2 ⟨not_not.2 hreading, Nat.not_lt.2 hroom⟩), if_neg hne]
  dsimp only
  rw [hcounts.converted, if_neg (mt Int.ofNat_lt.1 (Nat.not_lt.2 hn))]
  rfl

/-- **The loop on memory is the loop of `recvRequest`** with its parser: what it keeps in front
of the buffer is what is left of what was read.  So what is proved of `recvLoop` is about this
buffer. -/
theorem recvLoop_turn {r : HttpRequestParser} {bs : Bytes} (hsize : buffSize < 2 ^ 31)
    (h : Inv buffSize s) (hreading : s.receipt = .reading) (hbs : bs ≠ [])
    (hroom : bs.length ≤ s.room buffSize)
    (hok : (r.execute (s.kept ++ bs)).1.hasError = false) (rest : List Bytes) :
    ∃ s', s.turn buffSize ⟨bs, (r.execute (s.kept ++ bs)).2, (r.execute (s.kept ++ bs)).1.finished⟩ =
        some s' ∧
      recvLoop buffSize (bs :: rest) r s.kept =
        match s'.receipt with
        | .closed => (none, [])
        | .finished => (some (r.execute (s.kept ++ bs)).1.data.init, rest)
        | .reading => recvLoop buffSize rest (r.execute (s.kept ++ bs)).1 s'.kept := by
  have hkept : s.kept.length = s.offset.toNat := by
    have hle := h.le
    rw [Receiving.kept, List.length_take, h.size]
    omega
  have hn : (r.execute (s.kept ++ bs)).2 ≤ s.offset.toNat + bs.length := by
    have hle := nparsed_le r (List.append_ne_nil_of_right_ne_nil s.kept hbs)
    rwa [List.length_append, hkept] at hle
  obtain ⟨s', hturn⟩ := exists_turn hsize h hreading hbs hroom hn (t := ⟨bs, _, _⟩)
  refine ⟨s', hturn, ?_⟩
  have hleft := kept_turn hsize h hbs hturn
  obtain ⟨-, ⟨hempty, -⟩ | ⟨-, len, hcounts, -, -, -, hreceipt, -⟩⟩ := turn_cases h hsize hturn
  · exact absurd hempty hbs
  · have hlen := hcounts.eq
    have hfull : toInt buffSize = buffSize := toInt_eq (by omega) (by omega)
    have hlength : ((s.kept ++ bs).drop (r.execute (s.kept ++ bs)).2).length =
        len - (r.execute (s.kept ++ bs)).2 := by
      rw [List.length_drop, List.length_append, hkept, hlen]
    rw [recvLoop, if_neg hbs, hreceipt, hleft]
    dsimp only
    rw [hok, if_neg Bool.false_ne_true, hlength, hfull]
    simp only [Nat.cast_inj]
    split_ifs <;> rfl

end HttpSession

end Hiper

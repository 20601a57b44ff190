import Hiper.Stream.Basic

/-!
# Transfers of a fixed size

However the system splits a transfer into short counts, `writeFixSize` puts the next
bytes of its byte array on the way and `readFixSize` writes what comes in over the data
at its cursor; an answer of 0 or less ends either after the bytes moved so far
(`socket_transfer`).

The functions are `src/hiper/base/stream.cc:25` and `:53`.  The loop is followed with a
state `P m` after `m` bytes, which is `Written` on one side and `Filled` on the other; that
a call moves what the system answers is proved once for each side (`write_moves`,
`read_moves`), with the theorems on the buffers of the byte array.
-/

namespace Hiper

/-- A number that fits is converted to itself. -/
theorem toInt_eq {x : ℤ} (hlo : -1 ≤ x) (hhi : x < 2 ^ 31) : toInt x = x := by
  rw [toInt]
  exact Int.bmod_eq_of_le (by omega) (by omega)

namespace Answer

/-- An answer is at least −1. -/
theorem of_ge (a : Answer) (n : ℕ) : -1 ≤ a.of n := by
  cases a with
  | failed => exact le_rfl
  | count k =>
      rw [of]
      omega

/-- An answer is at most what there is. -/
theorem of_le (a : Answer) (n : ℕ) : a.of n ≤ n := by
  cases a with
  | failed =>
      rw [of]
      omega
  | count k =>
      rw [of]
      omega

/-- The bytes that a call moves. -/
theorem toNat_of (a : Answer) (n : ℕ) : (a.of n).toNat = min a.moved n := by
  cases a with
  | failed => simp [of, moved]
  | count k =>
      rw [of, moved]
      omega

/-- A call that moves nothing answers the same whatever there is.  It is 0 or −1. -/
theorem of_eq_of_moved {a : Answer} (h : a.moved = 0) (m n : ℕ) : a.of m = a.of n := by
  cases a with
  | failed => rfl
  | count k =>
      rw [moved] at h
      rw [of, of, h]
      omega

/-- A call that moves nothing answers 0 or less. -/
theorem of_nonpos {a : Answer} (h : a.moved = 0) (n : ℕ) : a.of n ≤ 0 := by
  have hnat := a.toNat_of n
  omega

/-- A count that there is room for does not depend on the rest of the room.  So what the channel
carries does not show. -/
theorem of_min {a : Answer} {n k : ℕ} (h : min a.moved n ≤ k) : a.of (min n k) = a.of n := by
  cases a with
  | failed => rfl
  | count j =>
      rw [moved] at h
      rw [of, of]
      omega

/-- A call that moves something answers how much. -/
theorem of_eq {a : Answer} (h : 0 < a.moved) (n : ℕ) : a.of n = (min a.moved n : ℕ) := by
  cases a with
  | failed => cases h
  | count k =>
      rw [of, moved]
      omega

end Answer

/-! ### The loop -/

namespace Stream

variable {σ : Type} {call : ℕ → ℕ → σ → Except Fault ℤ × σ} {answers : ℕ → Answer} {n cap : ℕ}
variable {P : ℕ → σ → Prop}

/-- Each call moves what the system answers, on a way that carries `cap` bytes; `P m` is the
state after `m` bytes.  A call that moves nothing leaves it. -/
def Moves (call : ℕ → ℕ → σ → Except Fault ℤ × σ) (answers : ℕ → Answer) (n cap : ℕ)
    (P : ℕ → σ → Prop) : Prop :=
  ∀ i m c, P m c → m < n → m + min (answers i).moved (n - m) ≤ cap →
    ∃ c', call i (n - m) c = (.ok ((answers i).of (n - m)), c') ∧
      P (m + min (answers i).moved (n - m)) c'

/-- The counts add up. -/
theorem sent_le_sent {i j : ℕ} (h : i ≤ j) : sent answers i ≤ sent answers j := by
  induction j, h using Nat.le_induction with
  | base => exact le_rfl
  | succ j _ ih =>
      rw [sent_succ]
      omega

/-- What a call moves reaches the next sum of counts, or the end.  The system may answer more
than is left. -/
theorem min_sent_succ {i : ℕ} (h : sent answers i < n) :
    sent answers i + min (answers i).moved (n - sent answers i) = min (sent answers (i + 1)) n := by
  rw [sent_succ]
  omega

/-- A turn of the loop that moves something. -/
theorem fixSizeLoop_step (hcall : Moves call answers n cap P) {i : ℕ} {c : σ}
    (hP : P (sent answers i) c) (hlt : sent answers i < n) (hpos : 0 < (answers i).moved)
    (hcap : min (sent answers (i + 1)) n ≤ cap) :
    ∃ c', P (min (sent answers (i + 1)) n) c' ∧
      fixSizeLoop call i ((n - sent answers i : ℕ) : ℤ) c =
        fixSizeLoop call (i + 1) ((n - min (sent answers (i + 1)) n : ℕ) : ℤ) c' := by
  rw [← min_sent_succ hlt] at hcap ⊢
  obtain ⟨c', hc, hP'⟩ := hcall i _ c hP hlt hcap
  refine ⟨c', hP', ?_⟩
  have hval := (answers i).of_eq hpos (n - sent answers i)
  rw [fixSizeLoop, if_pos (by omega), Int.toNat_natCast, hc]
  simp only
  rw [if_neg (by omega), hval]
  congr 1
  omega

/-- Nothing is left. -/
theorem fixSizeLoop_done (i : ℕ) (c : σ) : fixSizeLoop call i 0 c = (.ok none, c) := by
  rw [fixSizeLoop, if_neg (lt_irrefl _)]

/-- The loop when the counts reach the length.  The induction is over the turns that are left. -/
theorem fixSizeLoop_full (hcall : Moves call answers n cap P) (hcap : n ≤ cap) {t : ℕ}
    (hpos : ∀ i < t, 0 < (answers i).moved) (ht : n ≤ sent answers t) {i : ℕ} (hi : i ≤ t) {c : σ}
    (hP : P (min (sent answers i) n) c) :
    ∃ c', fixSizeLoop call i ((n - min (sent answers i) n : ℕ) : ℤ) c = (.ok none, c') ∧
      P n c' := by
  induction hd : t - i generalizing i c with
  | zero =>
      obtain rfl : i = t := by omega
      rw [Nat.min_eq_right ht, Nat.sub_self]
      exact ⟨c, fixSizeLoop_done i c, Nat.min_eq_right ht ▸ hP⟩
  | succ d ih =>
      by_cases hlt : sent answers i < n
      · rw [Nat.min_eq_left hlt.le] at hP ⊢
        obtain ⟨c', hP', hstep⟩ :=
          fixSizeLoop_step hcall hP hlt (hpos i (by omega)) ((Nat.min_le_right ..).trans hcap)
        rw [hstep]
        exact ih (by omega) hP' (by omega)
      · have hmin : min (sent answers i) n = n := Nat.min_eq_right (by omega)
        rw [hmin] at hP ⊢
        rw [Nat.sub_self]
        exact ⟨c, fixSizeLoop_done i c, hP⟩

/-- The loop when a call moves nothing before that.  The induction is over the turns that are
left. -/
theorem fixSizeLoop_cut (hcall : Moves call answers n cap P) {t : ℕ} (hcap : sent answers t ≤ cap)
    (hpos : ∀ i < t, 0 < (answers i).moved) (ht : sent answers t < n)
    (hstop : (answers t).moved = 0) {i : ℕ} (hi : i ≤ t) {c : σ} (hP : P (sent answers i) c) :
    ∃ c', fixSizeLoop call i ((n - sent answers i : ℕ) : ℤ) c =
        (.ok (some ((answers t).of n)), c') ∧ P (sent answers t) c' := by
  induction hd : t - i generalizing i c with
  | zero =>
      obtain rfl : i = t := by omega
      have hzero : min (answers i).moved (n - sent answers i) = 0 := by omega
      obtain ⟨c', hc, hP'⟩ := hcall i _ c hP ht (by omega)
      rw [hzero, Nat.add_zero] at hP'
      refine ⟨c', ?_, hP'⟩
      rw [fixSizeLoop, if_pos (by omega), Int.toNat_natCast, hc]
      simp only
      rw [if_pos (Answer.of_nonpos hstop _), Answer.of_eq_of_moved hstop _ n]
  | succ d ih =>
      have hnext : sent answers (i + 1) ≤ sent answers t := sent_le_sent (by omega)
      have hlt : sent answers i < n := (sent_le_sent hi).trans_lt ht
      have hmin : min (sent answers (i + 1)) n = sent answers (i + 1) := Nat.min_eq_left (by omega)
      obtain ⟨c', hP', hstep⟩ :=
        fixSizeLoop_step hcall hP hlt (hpos i (by omega)) (hmin.trans_le (hnext.trans hcap))
      rw [hmin] at hP' hstep
      rw [hstep]
      exact ih (by omega) hP' (by omega)

/-- **The loop.**  A transfer of a fixed size ends as the answers say.  The way carries at least
what is moved. -/
theorem fixSize_outcome (hcall : Moves call answers n cap P) (hn : n < 2 ^ 31) {rt : ℤ} {k : ℕ}
    (ho : Outcome answers n rt k) (hk : k ≤ cap) {c : σ} (hP : P 0 c) :
    ∃ c', fixSize call n c = (.ok rt, c') ∧ P k c' := by
  have hleft : ((n : ℤ)).bmod (2 ^ 64) = n := Int.bmod_eq_of_le (by omega) (by omega)
  cases ho with
  | full t hpos ht =>
      obtain ⟨c', hloop, hP'⟩ := fixSizeLoop_full hcall hk hpos ht (Nat.zero_le t)
        (c := c) (by rwa [sent, List.range_zero, List.map_nil, List.sum_nil, Nat.zero_min])
      refine ⟨c', ?_, hP'⟩
      rw [sent, List.range_zero, List.map_nil, List.sum_nil, Nat.zero_min, Nat.sub_zero] at hloop
      rw [fixSize, hleft, hloop]
      have hint : toInt n = n := toInt_eq (by omega) (by omega)
      exact congrArg (fun x => (Except.ok x, c')) hint
  | cut t hpos ht hstop =>
      obtain ⟨c', hloop, hP'⟩ := fixSizeLoop_cut hcall hk hpos ht hstop (Nat.zero_le t)
        (c := c) hP
      refine ⟨c', ?_, hP'⟩
      rw [sent, List.range_zero, List.map_nil, List.sum_nil, Nat.sub_zero] at hloop
      rw [fixSize, hleft, hloop]
      have hge := (answers t).of_ge n
      have hle := (answers t).of_le n
      have hint : toInt ((answers t).of n) = (answers t).of n := toInt_eq hge (by omega)
      exact congrArg (fun x => (Except.ok x, c')) hint

end Stream

/-! ### One call -/

/-- A connected socket moves what the system answers. -/
theorem Socket.transfer_eq {s : Socket} (hs : s.isConnect = true) (a : Answer) {total : ℕ}
    (h : total < 2 ^ 31) : s.transfer a total = a.of total := by
  have hge := a.of_ge total
  have hle := a.of_le total
  rw [Socket.transfer, if_pos hs, toInt_eq hge (by omega)]

namespace SocketStream

variable {st : SocketStream}

/-- A connected stream has a connected socket. -/
theorem exists_sock (hst : st.isConnected = true) :
    ∃ s, st.sock = some s ∧ s.isConnect = true := by
  rw [isConnected, Option.any_eq_true] at hst
  exact hst

/-- The cursor stays when nothing was moved. -/
theorem advance_of_nonpos {rt : ℤ} (h : rt ≤ 0) (c : Channel) : advance rt c = (.ok rt, c) := by
  rw [advance, if_neg (by omega)]

/-- The cursor moves when something was. -/
theorem advance_of_pos {rt : ℤ} (h : 0 < rt) {c : Channel} {b : ByteArray}
    (hset : (ByteArray.setPosition (c.ba.getPosition + rt.toNat)).exec c.ba = (.ok (), b)) :
    advance rt c = (.ok rt, ⟨b, c.wire⟩) := by
  rw [advance, if_pos h, hset]
  rfl

/-- The state of a `writeFixSize` after `m` bytes.  The contents of its byte array stay. -/
structure Written (src : ByteArray) (wire : List UInt8) (m : ℕ) (c : Channel) : Prop where
  wf : c.ba.Wf
  bytes : c.ba.bytes = src.bytes
  position : c.ba.position = src.position + m
  wire : c.wire = wire ++ (src.bytes.drop src.position).take m

/-- The state of a `readFixSize` after `m` bytes.  It is as if those bytes had been written. -/
structure Filled {dst : ByteArray} (h : dst.Wf) (wire : List UInt8) (m : ℕ) (c : Channel) :
    Prop where
  refines : c.ba.Refines ((ByteArray.flat h).write (wire.take m))
  wire : c.wire = wire.drop m

/-- **`write`** puts the next bytes on the way, as many as the system takes, and moves the
cursor over them. -/
theorem write_moves (hst : st.isConnected = true) {answers : ℕ → Answer} {n : ℕ}
    (hn : n < 2 ^ 31) {src : ByteArray} (hle : n ≤ src.getReadSize) (hsrc : src.Wf)
    (wire : List UInt8) :
    Stream.Moves (fun i => st.write (answers i)) answers n n (Written src wire) := by
  intro i m c hP hm _
  obtain ⟨s, hs, hcon⟩ := exists_sock hst
  obtain ⟨iovs, hiovs, hgather, -⟩ := ByteArray.getReadBuffers_spec hP.wf (n - m)
  rw [hP.bytes, hP.position, ← List.drop_drop] at hgather
  have hlen : ((src.bytes.drop src.position).drop m).length = src.getReadSize - m := by
    rw [List.length_drop, List.length_drop, hsrc.length_bytes, ByteArray.getReadSize]
  have htotal : (ByteArray.gather c.ba.root iovs).length = n - m := by
    rw [hgather, List.length_take, hlen]
    omega
  have hk := (answers i).toNat_of (n - m)
  have hwrite : st.write (answers i) (n - m) c = advance ((answers i).of (n - m))
      ⟨c.ba, c.wire ++ ((src.bytes.drop src.position).drop m).take
        (min (answers i).moved (n - m))⟩ := by
    simp only [write, hs, hcon, Bool.not_true, Bool.false_eq_true, if_false, hiovs, htotal,
      Socket.transfer_eq hcon (answers i) (by omega : n - m < 2 ^ 31), hk]
    rw [hgather, List.take_take, Nat.min_eq_left (Nat.min_le_right ..)]
  have hwire : c.wire ++ ((src.bytes.drop src.position).drop m).take
      (min (answers i).moved (n - m)) =
        wire ++ (src.bytes.drop src.position).take (m + min (answers i).moved (n - m)) := by
    rw [hP.wire, List.append_assoc, ← List.take_add]
  simp only [hwrite, hwire]
  rcases Nat.eq_zero_or_pos (answers i).moved with hzero | hpos
  · refine ⟨_, advance_of_nonpos (Answer.of_nonpos hzero _) _, hP.wf, hP.bytes, ?_, rfl⟩
    rw [hzero, Nat.zero_min]
    exact hP.position
  · have hval := (answers i).of_eq hpos (n - m)
    have hsize : src.size ≤ c.ba.size := by
      rw [← hsrc.length_bytes, ← hP.bytes, hP.wf.length_bytes]
    have hcapacity : c.ba.position + min (answers i).moved (n - m) ≤ c.ba.size := by
      have hp := hP.position
      rw [ByteArray.getReadSize] at hle
      omega
    have hset := ByteArray.setPosition_exec hP.wf (hcapacity.trans hP.wf.size_le)
    have hwf := ByteArray.setPosition_wf hP.wf (c.ba.position + min (answers i).moved (n - m))
    rw [hset] at hwf
    refine ⟨_, advance_of_pos (by omega) (by rw [hk]; exact hset), hwf, ?_, ?_, rfl⟩
    · rw [← hP.bytes, ByteArray.bytes, ByteArray.bytes, Nat.max_eq_left hcapacity]
    · rw [← Nat.add_assoc, ← hP.position]

/-- **`read`** writes what comes in over the data, as much as the system gives, and moves the
cursor over it. -/
theorem read_moves (hst : st.isConnected = true) {answers : ℕ → Answer} {n : ℕ}
    (hn : n < 2 ^ 31) {dst : ByteArray} (hdst : dst.Wf) (wire : List UInt8) :
    Stream.Moves (fun i => st.read (answers i)) answers n wire.length (Filled hdst wire) := by
  intro i m c hP hm hcap
  obtain ⟨s, hs, hcon⟩ := exists_sock hst
  obtain ⟨iovs, b₁, hexec, href, htotal, hfill⟩ :=
    ByteArray.fill_refines hP.refines.wf (by omega : 0 < n - m)
  have hleft : c.wire.length = wire.length - m := by rw [hP.wire, List.length_drop]
  have hk := (answers i).toNat_of (n - m)
  have hlen : (c.wire.take (min (answers i).moved (n - m))).length =
      min (answers i).moved (n - m) := by
    rw [List.length_take, hleft]
    omega
  have htotal' : s.transfer (answers i) (min (n - m) c.wire.length) = (answers i).of (n - m) := by
    rw [Socket.transfer_eq hcon _ (by omega), Answer.of_min (by omega)]
  have hread : st.read (answers i) (n - m) c = advance ((answers i).of (n - m))
      ⟨b₁.fill iovs (c.wire.take (min (answers i).moved (n - m))),
        c.wire.drop (min (answers i).moved (n - m))⟩ := by
    simp only [read, hs, hcon, Bool.not_true, Bool.false_eq_true, if_false, hexec, htotal,
      htotal', hk]
  have hwire : c.wire.drop (min (answers i).moved (n - m)) =
      wire.drop (m + min (answers i).moved (n - m)) := by
    rw [hP.wire, List.drop_drop]
  have hbuf : wire.take m ++ c.wire.take (min (answers i).moved (n - m)) =
      wire.take (m + min (answers i).moved (n - m)) := by
    rw [hP.wire, ← List.take_add]
  rw [hP.refines.flat_eq] at href hfill
  simp only [hread]
  rcases Nat.eq_zero_or_pos (answers i).moved with hzero | hpos
  · refine ⟨_, advance_of_nonpos (Answer.of_nonpos hzero _) _, ?_, hwire⟩
    simp only [hzero, Nat.zero_min, List.take_zero, ByteArray.fill_nil, Nat.add_zero]
    exact href
  · have hval := (answers i).of_eq hpos (n - m)
    obtain ⟨b₂, hset, href₂⟩ := hfill _ (hlen.trans_le (Nat.min_le_right ..))
    rw [hlen] at hset
    refine ⟨_, advance_of_pos (by omega) (by rw [hk]; exact hset), ?_, hwire⟩
    rwa [ByteArray.Flat.write_write, hbuf] at href₂

end SocketStream

/-! ### Whole transfers -/

namespace Stream

/-- Each answer that moves something moves at least a byte. -/
theorem le_sent {answers : ℕ → Answer} {t : ℕ} (h : ∀ i < t, 0 < (answers i).moved) :
    t ≤ sent answers t := by
  induction t with
  | zero => exact Nat.zero_le _
  | succ t ih =>
      have hpos := h t t.lt_succ_self
      have hle := ih fun i hi => h i (hi.trans t.lt_succ_self)
      rw [sent_succ]
      omega

/-- Whatever the system answers, a transfer has an outcome.  Either the counts reach the length
or some call moves nothing before that. -/
theorem Outcome.exists (answers : ℕ → Answer) (n : ℕ) : ∃ rt k, Outcome answers n rt k := by
  have hstop : ∃ t, (answers t).moved = 0 ∨ n ≤ sent answers t := by
    by_contra hno
    push Not at hno
    have hle := le_sent fun i (_ : i < n) => Nat.pos_of_ne_zero (hno i).1
    exact absurd hle (not_le.2 (hno n).2)
  have hpos : ∀ i < Nat.find hstop, 0 < (answers i).moved := fun i hi =>
    Nat.pos_of_ne_zero fun h => Nat.find_min hstop hi (Or.inl h)
  by_cases hall : n ≤ sent answers (Nat.find hstop)
  · exact ⟨_, _, .full _ hpos hall⟩
  · exact ⟨_, _, .cut _ hpos (by omega) ((Nat.find_spec hstop).resolve_right hall)⟩

/-- No more is moved than was asked for. -/
theorem Outcome.le {answers : ℕ → Answer} {n : ℕ} {rt : ℤ} {k : ℕ}
    (h : Outcome answers n rt k) : k ≤ n := by
  cases h with
  | full => exact le_rfl
  | cut _ _ hlt => exact hlt.le

/-- **A transfer over a socket**: whatever the answers of `sendmsg` and `recvmsg`, the bytes
that the one side moves are those at its cursor, the other side writes them over its data, in
order and none twice, and each returns the length or the answer that ended it.  The loops are
`readFixSize` and `writeFixSize` of `src/hiper/base/stream.cc:25-64`, each turn one `read` or
`write` of `src/hiper/streams/socket_stream.cc:34-65`, which hands the buffers of the byte array
to the system. -/
theorem socket_transfer {src dst : ByteArray} (hsrc : src.Reachable) (hdst : dst.Reachable)
    {sender receiver : SocketStream} (hsender : sender.isConnected = true)
    (hreceiver : receiver.isConnected = true) {n : ℕ} (hle : n ≤ src.getReadSize)
    (hn : n < 2 ^ 31) {sends recvs : ℕ → Answer} {rt rt' : ℤ} {k k' : ℕ}
    (hsends : Outcome sends n rt k) (hrecvs : Outcome recvs n rt' k') (hk : k' ≤ k) :
    ∃ src' dst' wire,
      writeFixSize sender sends n src [] = (.ok rt, ⟨src', wire⟩) ∧
      wire = (src.bytes.drop src.position).take k ∧
      src'.position = src.position + k ∧ src'.bytes = src.bytes ∧
      readFixSize receiver recvs n dst wire = (.ok rt', ⟨dst', wire.drop k'⟩) ∧
      dst'.position = dst.position + k' ∧
      dst'.bytes = dst.bytes.take dst.position ++ (src.bytes.drop src.position).take k' ++
        dst.bytes.drop (dst.position + k') := by
  have hwrite : Moves _ sends n n _ := SocketStream.write_moves hsender hn hle hsrc.wf []
  obtain ⟨⟨src', wire⟩, hw, hsrc'⟩ := fixSize_outcome hwrite hn hsends hsends.le
    (c := ⟨src, []⟩) ⟨hsrc.wf, rfl, rfl, rfl⟩
  have hwire : wire = (src.bytes.drop src.position).take k := hsrc'.wire
  have hlen : wire.length = k := by
    have hkn := hsends.le
    rw [ByteArray.getReadSize] at hle
    rw [hwire, List.length_take, List.length_drop, hsrc.wf.length_bytes]
    omega
  have htake : wire.take k' = (src.bytes.drop src.position).take k' := by
    rw [hwire, List.take_take, Nat.min_eq_left hk]
  have hread : Moves _ recvs n wire.length _ := SocketStream.read_moves hreceiver hn hdst.wf wire
  obtain ⟨⟨dst', left⟩, hr, hdst'⟩ := fixSize_outcome hread hn hrecvs (hlen ▸ hk)
    (c := ⟨dst, wire⟩) ⟨ByteArray.flat_write_nil hdst.wf, rfl⟩
  have hleft : left = wire.drop k' := hdst'.wire
  have hcount : (wire.take k').length = k' := by
    rw [List.length_take, hlen, Nat.min_eq_left hk]
  refine ⟨src', dst', wire, hw, hwire, hsrc'.position, hsrc'.bytes, hleft ▸ hr, ?_, ?_⟩
  · exact hdst'.refines.position_eq.trans (congrArg (dst.position + ·) hcount)
  · have hsplice : dst'.bytes = Lib.splice dst.bytes dst.position (wire.take k') :=
      hdst'.refines.bytes_eq
    rw [hsplice, Lib.splice, hcount, htake]

/-- Six bytes in blocks of four, the cursor on the second.  One byte has been read. -/
def letter : ByteArray :=
  ((ByteArray.setPosition 1).exec
    ((ByteArray.write [1, 2, 3, 4, 5, 6]).exec (.new (fun _ _ => 0) 4)).2).2

theorem socket_transfer_letter :
    ∃ src' dst' wire,
      writeFixSize ⟨some (Socket.createUDP 2 5), true⟩ (fun i => .count (i + 2)) 5 letter [] =
        (.ok 5, ⟨src', wire⟩) ∧
      wire = (letter.bytes.drop letter.position).take 5 ∧
      src'.position = letter.position + 5 ∧ src'.bytes = letter.bytes ∧
      readFixSize ⟨some (Socket.createUDP 2 7), true⟩
        (fun i => if i = 0 then .count 3 else .failed) 5 (.new (fun _ _ => 0) 2) wire =
          (.ok (-1), ⟨dst', wire.drop 3⟩) ∧
      dst'.position = 0 + 3 ∧
      dst'.bytes = [] ++ (letter.bytes.drop letter.position).take 3 ++ [] := by
  have hsrc : letter.Reachable := .setPosition _ _ (.write _ _ (.new _ 4 (by decide)))
  have hdst : (ByteArray.new (fun _ _ => 0) 2).Reachable := .new _ 2 (by decide)
  have hsends : Outcome (fun i => .count (i + 2)) 5 5 5 := .full 2 (by decide) (by decide)
  have hrecvs : Outcome (fun i => if i = 0 then .count 3 else .failed) 5 (-1) 3 :=
    .cut 1 (by decide) (by decide) (by decide)
  exact socket_transfer hsrc hdst (by decide) (by decide) (by decide) (by decide) hsends hrecvs
    (by decide)

end Stream

end Hiper

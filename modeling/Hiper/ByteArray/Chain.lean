import Hiper.ByteArray.Basic

/-!
# What the loops do to the chain

The three loops of `bytearray.cc` walk a chain of equally large nodes.  Read as
one string, the chain is overwritten by the loop of `write` (`writeLoop_spec`),
cut out by the loop of `read` (`readLoop_spec`), and measured by the loop of
`setPosition` (`seekLoop_spec`); each also says how far the node pointer moves.

`Wf` is what every operation keeps: all nodes have `base_size_` bytes, the
capacity is that of the chain, the cursor is inside the data, the data inside
the chain, and `cur_` is the node of the cursor, the null pointer past the last.

A position is taken apart by `base_size_`: its node is the quotient and its offset the
remainder, which is where every call starts (`position_ % base_size_` in `bytearray.cc:409`,
`450` and `641`).  `Wf` ties `cur_` to the quotient, and the lemmas under it say what the
nodes from `cur_` on hold and how far they reach.
-/

namespace Hiper.ByteArray

open Lib

/-- All nodes have `s` bytes.  The constructor and `addCapacity` make them so, and nothing
changes the size of a node. -/
def Uniform (s : ℕ) (nodes : List Node) : Prop := ∀ n ∈ nodes, n.size = s

/-- The bytes of a chain, one node after the other.  It is the string that the chain stands for,
the unused end of the last node included. -/
def content (nodes : List Node) : List UInt8 := nodes.flatMap Node.ptr

@[simp]
theorem content_nil : content [] = [] := rfl

@[simp]
theorem content_cons (n : Node) (nodes : List Node) :
    content (n :: nodes) = n.ptr ++ content nodes := rfl

/-- Two chains, one behind the other. -/
@[simp]
theorem content_append (l₁ l₂ : List Node) : content (l₁ ++ l₂) = content l₁ ++ content l₂ :=
  List.flatMap_append ..

/-- The first node of a uniform chain has the common size, and so have the others. -/
theorem Uniform.cons_inv {s : ℕ} {n : Node} {nodes : List Node} (h : Uniform s (n :: nodes)) :
    n.ptr.length = s ∧ Uniform s nodes :=
  ⟨h n (List.mem_cons_self ..), fun m hm => h m (List.mem_cons_of_mem _ hm)⟩

/-- A node of the common size before a uniform chain. -/
theorem Uniform.cons {s : ℕ} {n : Node} {nodes : List Node} (hn : n.size = s)
    (h : Uniform s nodes) : Uniform s (n :: nodes) := by
  intro m hm
  rcases List.mem_cons.1 hm with rfl | hm
  · exact hn
  · exact h m hm

/-- Two uniform chains, one behind the other. -/
theorem Uniform.append {s : ℕ} {l₁ l₂ : List Node} (h₁ : Uniform s l₁) (h₂ : Uniform s l₂) :
    Uniform s (l₁ ++ l₂) := by
  intro m hm
  rcases List.mem_append.1 hm with hm | hm
  · exact h₁ m hm
  · exact h₂ m hm

/-- The first nodes of a uniform chain. -/
theorem Uniform.take {s : ℕ} {nodes : List Node} (h : Uniform s nodes) (i : ℕ) :
    Uniform s (nodes.take i) :=
  fun m hm => h m (List.mem_of_mem_take hm)

/-- The nodes of a uniform chain from some place on. -/
theorem Uniform.drop {s : ℕ} {nodes : List Node} (h : Uniform s nodes) (i : ℕ) :
    Uniform s (nodes.drop i) :=
  fun m hm => h m (List.mem_of_mem_drop hm)

/-- A uniform chain holds so many bytes as its nodes have together. -/
theorem length_content {s : ℕ} {nodes : List Node} (h : Uniform s nodes) :
    (content nodes).length = nodes.length * s := by
  induction nodes with
  | nil => simp
  | cons n nodes ih =>
      obtain ⟨hn, hnodes⟩ := h.cons_inv
      rw [content_cons, List.length_append, hn, ih hnodes, List.length_cons, Nat.succ_mul,
        Nat.add_comm]

/-- Passing `i` nodes is passing `i` times their size in bytes. -/
theorem content_drop {s : ℕ} {nodes : List Node} (hu : Uniform s nodes) (i : ℕ) :
    content (nodes.drop i) = (content nodes).drop (i * s) := by
  induction nodes generalizing i with
  | nil => simp
  | cons n next ih =>
      obtain ⟨hn, hnext⟩ := hu.cons_inv
      cases i with
      | zero => simp
      | succ i =>
          have hnode : n.ptr.drop ((i + 1) * s) = [] := by
            refine List.drop_eq_nil_of_le ?_
            rw [hn, Nat.succ_mul]
            omega
          rw [List.drop_succ_cons, ih hnext, content_cons, List.drop_append, hnode, List.nil_append,
            hn, Nat.succ_mul, Nat.add_sub_cancel]

/-! ### The loops -/

/-- **The loop of `write` overwrites.**  It succeeds when the chain is long enough, and moves
the pointer over the nodes it filled.  The string is overwritten from `shift` on, the nodes keep
their size, and the pointer moves by the quotient of where the write ends.  The induction is
over the nodes. -/
theorem writeLoop_spec {s : ℕ} {nodes : List Node} (hu : Uniform s nodes) {shift : ℕ}
    (hs : shift < s) {buf : List UInt8} (hbuf : 0 < buf.length)
    (hfit : shift + buf.length ≤ nodes.length * s) :
    ∃ nodes', writeLoop nodes shift buf = .ok (nodes', (shift + buf.length) / s) ∧
      Uniform s nodes' ∧ nodes'.length = nodes.length ∧
        content nodes' = splice (content nodes) shift buf := by
  induction nodes generalizing shift buf with
  | nil =>
      rw [List.length_nil, Nat.zero_mul] at hfit
      omega
  | cons n next ih =>
      obtain ⟨hn, hnext⟩ := hu.cons_inv
      have hsize : n.size = s := hn
      rw [List.length_cons, Nat.succ_mul] at hfit
      by_cases hlast : s - shift ≥ buf.length
      · have hin : shift + buf.length ≤ n.ptr.length := by omega
        have hmoved : (if s = shift + buf.length then 1 else 0) = (shift + buf.length) / s := by
          split_ifs with hfull
          · rw [← hfull, Nat.div_self (by omega)]
          · rw [Nat.div_eq_of_lt (by omega)]
        refine ⟨n.store shift buf :: next, ?_, ?_, rfl, ?_⟩
        · simp only [writeLoop, hsize, if_pos hlast, hmoved]
        · exact Uniform.cons ((Node.size_store hin).trans hsize) hnext
        · rw [content_cons, content_cons, splice_append_left _ hin]
          rfl
      · have hdrop : (buf.drop (s - shift)).length = buf.length - (s - shift) := List.length_drop
        have htake : (buf.take (s - shift)).length = s - shift := by
          rw [List.length_take]
          omega
        have hpos : 0 < (buf.drop (s - shift)).length := by omega
        have hrest : 0 + (buf.drop (s - shift)).length ≤ next.length * s := by omega
        obtain ⟨next', hloop, hu', hlen', hcontent⟩ := ih hnext (by omega) hpos hrest
        have hmoved : (0 + (buf.drop (s - shift)).length) / s + 1 = (shift + buf.length) / s := by
          rw [← Nat.add_div_right _ (by omega), hdrop]
          congr 1
          omega
        refine ⟨n.store shift (buf.take (s - shift)) :: next', ?_, ?_, ?_, ?_⟩
        · simp only [writeLoop, hsize, if_neg hlast, hloop, hmoved]
        · exact Uniform.cons ((Node.size_store (by omega)).trans hsize) hu'
        · rw [List.length_cons, List.length_cons, hlen']
        · rw [content_cons, content_cons, hcontent,
            splice_append_across _ (by omega) (by omega), hn]
          rfl

/-- **The loop of `read` cuts out.**  The bytes are those of the chain from `shift` on, and the
pointer moves by the quotient of where the read ends. -/
theorem readLoop_spec {s : ℕ} {nodes : List Node} (hu : Uniform s nodes) {shift size : ℕ}
    (hs : shift < s) (hsize : 0 < size) (hfit : shift + size ≤ nodes.length * s) :
    readLoop nodes shift size =
      .ok (((content nodes).drop shift).take size, (shift + size) / s) := by
  induction nodes generalizing shift size with
  | nil =>
      rw [List.length_nil, Nat.zero_mul] at hfit
      omega
  | cons n next ih =>
      obtain ⟨hn, hnext⟩ := hu.cons_inv
      have hnsize : n.size = s := hn
      rw [List.length_cons, Nat.succ_mul] at hfit
      have hcontent : (content (n :: next)).drop shift = n.ptr.drop shift ++ content next := by
        rw [content_cons, List.drop_append_of_le_length (by omega)]
      have hleft : (n.ptr.drop shift).length = s - shift := by rw [List.length_drop, hn]
      by_cases hlast : s - shift ≥ size
      · have hmoved : (if s = shift + size then 1 else 0) = (shift + size) / s := by
          split_ifs with hfull
          · rw [← hfull, Nat.div_self (by omega)]
          · rw [Nat.div_eq_of_lt (by omega)]
        simp only [readLoop, hnsize, if_neg hsize.ne', if_pos hlast, hmoved, hcontent]
        rw [List.take_append_of_le_length (by omega)]
        rfl
      · have hmoved : (0 + (size - (s - shift))) / s + 1 = (shift + size) / s := by
          rw [← Nat.add_div_right _ (by omega)]
          congr 1
          omega
        have hrest : 0 + (size - (s - shift)) ≤ next.length * s := by omega
        simp only [readLoop, hnsize, if_neg hsize.ne', if_neg hlast,
          ih hnext (by omega) (by omega) hrest, hmoved, hcontent, List.drop_zero, Node.load]
        rw [List.take_of_length_le hleft.le, List.take_append, hleft,
          List.take_of_length_le (by omega : (n.ptr.drop shift).length ≤ size)]

/-- **The loop of `setPosition` divides.**  The node that it stops at is that of the quotient,
whether the place is inside of it or at its start. -/
theorem seekLoop_spec {s : ℕ} {nodes : List Node} (hu : Uniform s nodes) (hs : 0 < s)
    (hne : nodes ≠ []) {v : ℕ} (hfit : v ≤ nodes.length * s) :
    seekLoop nodes v = .ok (v / s) := by
  induction nodes generalizing v with
  | nil => exact absurd rfl hne
  | cons n next ih =>
      obtain ⟨hn, hnext⟩ := hu.cons_inv
      have hnsize : n.size = s := hn
      rw [List.length_cons, Nat.succ_mul] at hfit
      rw [seekLoop, hnsize]
      split_ifs with hgt heq
      · have hnext_ne : next ≠ [] := by
          rintro rfl
          rw [List.length_nil, Nat.zero_mul] at hfit
          omega
        rw [ih hnext hnext_ne (by omega)]
        simp only
        rw [← Nat.add_div_right _ hs, Nat.sub_add_cancel hgt.le]
      · rw [heq, Nat.div_self hs]
      · rw [Nat.div_eq_of_lt (by omega)]

/-- Moving on by `n` bytes from inside a node is moving on by `n` bytes.  It is how the pointer,
which moves by nodes, keeps up with the cursor, which moves by bytes. -/
theorem div_add_shift_div (p n : ℕ) {s : ℕ} (hs : 0 < s) :
    p / s + (p % s + n) / s = (p + n) / s := by
  have hp := Nat.div_add_mod' p s
  rw [show p + n = p % s + n + p / s * s by omega, Nat.add_mul_div_right _ _ hs, Nat.add_comm]

/-! ### The invariant -/

/-- What every operation keeps.  There is a node, so that `root_` is never null; all else
follows the cursor. -/
structure Wf (b : ByteArray) : Prop where
  base_pos : 0 < b.baseSize
  uniform : Uniform b.baseSize b.root
  root_ne : b.root ≠ []
  capacity_eq : b.capacity = b.root.length * b.baseSize
  position_le : b.position ≤ b.size
  size_le : b.size ≤ b.capacity
  cur_eq : b.cur = b.nodeAt (b.position / b.baseSize)

/-- The data `[0, size_)`.  What is behind it in the chain is room. -/
def bytes (b : ByteArray) : List UInt8 := (content b.root).take b.size

/-- The chain holds as many bytes as the capacity says. -/
theorem Wf.length_content {b : ByteArray} (h : b.Wf) : (content b.root).length = b.capacity := by
  rw [ByteArray.length_content h.uniform, h.capacity_eq]

/-- The data are as long as the size says. -/
theorem Wf.length_bytes {b : ByteArray} (h : b.Wf) : b.bytes.length = b.size := by
  rw [bytes, List.length_take, h.length_content, Nat.min_eq_left h.size_le]

/-- The cursor is inside the data. -/
theorem Wf.position_le_length {b : ByteArray} (h : b.Wf) : b.position ≤ b.bytes.length :=
  h.length_bytes ▸ h.position_le

/-- `getReadSize()` counts the data from the cursor on. -/
theorem Wf.length_rest {b : ByteArray} (h : b.Wf) :
    (b.bytes.drop b.position).length = b.getReadSize := by
  rw [List.length_drop, h.length_bytes, getReadSize]

/-- The cursor's offset is inside a node. -/
theorem Wf.shift_lt {b : ByteArray} (h : b.Wf) : b.position % b.baseSize < b.baseSize :=
  Nat.mod_lt _ h.base_pos

/-- The cursor is before the end of the chain when its node exists.  Else `cur_` is the null
pointer. -/
theorem Wf.div_lt_iff {b : ByteArray} (h : b.Wf) :
    b.position / b.baseSize < b.root.length ↔ b.position < b.capacity := by
  rw [h.capacity_eq, Nat.div_lt_iff_lt_mul h.base_pos]

/-- The nodes from `cur_` on are those from the quotient of the position on. -/
theorem Wf.curNodes_eq {b : ByteArray} (h : b.Wf) :
    b.curNodes = b.root.drop (b.position / b.baseSize) := by
  rw [curNodes, h.cur_eq, nodeAt]
  split_ifs with hlt
  · rfl
  · exact (List.drop_eq_nil_of_le (by omega)).symm

/-- The nodes from `cur_` on have the common size. -/
theorem Wf.uniform_curNodes {b : ByteArray} (h : b.Wf) : Uniform b.baseSize b.curNodes := by
  rw [h.curNodes_eq]
  exact h.uniform.drop _

/-- With room behind the cursor, `cur_` is the node of the quotient. -/
theorem Wf.cur_eq_some {b : ByteArray} (h : b.Wf) (hlt : b.position < b.capacity) :
    b.cur = some (b.position / b.baseSize) := by
  rw [h.cur_eq, nodeAt, if_pos (h.div_lt_iff.2 hlt)]

/-- The nodes before the cursor's and those from it on make up the chain.  As strings. -/
theorem Wf.content_split {b : ByteArray} (h : b.Wf) :
    content b.root = content (b.root.take (b.position / b.baseSize)) ++ content b.curNodes := by
  rw [h.curNodes_eq, ← content_append, List.take_append_drop]

/-- The nodes before the cursor's end where its offset in its node begins.  So a place in the
nodes from `cur_` on is a place in the chain. -/
theorem Wf.length_content_take {b : ByteArray} (h : b.Wf) (hlt : b.position < b.capacity) :
    (content (b.root.take (b.position / b.baseSize))).length + b.position % b.baseSize =
      b.position := by
  rw [ByteArray.length_content (h.uniform.take _), List.length_take,
    Nat.min_eq_left (h.div_lt_iff.2 hlt).le]
  exact Nat.div_add_mod' ..

/-- The nodes from the cursor's on reach to the end of the capacity.  Counted from the cursor's
offset. -/
theorem Wf.length_curNodes {b : ByteArray} (h : b.Wf) (hlt : b.position < b.capacity) :
    b.position % b.baseSize + (b.capacity - b.position) = b.curNodes.length * b.baseSize := by
  have hdiv := h.div_lt_iff.2 hlt
  have hpos := Nat.div_add_mod' b.position b.baseSize
  have hmul := Nat.mul_le_mul_right b.baseSize hdiv.le
  rw [h.curNodes_eq, List.length_drop, Nat.sub_mul, ← h.capacity_eq]
  omega

/-- `n` bytes within the capacity are within the nodes from the cursor's on.  It is the room
that the loops ask for. -/
theorem Wf.fit_curNodes {b : ByteArray} (h : b.Wf) {n : ℕ} (hn : 0 < n)
    (hle : b.position + n ≤ b.capacity) :
    b.position % b.baseSize + n ≤ b.curNodes.length * b.baseSize := by
  rw [← h.length_curNodes (by omega)]
  omega

/-- From the cursor on, the chain holds what its nodes from `cur_` on hold from the cursor's
offset on.  Reading in the nodes is reading in the chain. -/
theorem Wf.drop_curNodes {b : ByteArray} (h : b.Wf) :
    (content b.curNodes).drop (b.position % b.baseSize) = (content b.root).drop b.position := by
  rw [h.curNodes_eq, content_drop h.uniform, List.drop_drop, Nat.div_add_mod']

end Hiper.ByteArray

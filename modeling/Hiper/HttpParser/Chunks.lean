import Hiper.HttpParser.Framing

/-!
# Bodies in chunks

A chunk is its size in hexadecimal digits, perhaps with parameters, and so many bytes; a
chunk of size zero ends the body, and header lines may follow it.  Whatever the chunks are,
their bytes come one after another (`reads_chunks`).

The states are those from `s_chunk_size_start`
(`src/hiper/http/http-parser/http_parser.cc:1925`) to `s_chunk_data_done` (`:2038`).  The
size is held in `content_length`, and a digit that would make it overflow is refused at a
limit of its own, so that the largest size is a little below `2 ^ 64`; the bytes of a chunk
are passed on in one text when they come in one call.
-/

namespace Hiper

namespace HttpParser

variable {δ : Type*} {st : Settings δ} {p q : HttpParser} {bs ds rest : Bytes} {ch : Byte} {d d' : δ}

/-! ### The size -/

/-- Hexadecimal digits behind a number.  From the left, each digit of weight 16. -/
def hexFrom (n : ℕ) (ds : Bytes) : ℕ := ds.foldl (fun n ch => n * 16 + (unhex ch).getD 0) n

/-- More digits do not make the number smaller. -/
theorem le_hexFrom (n : ℕ) (ds : Bytes) : n ≤ hexFrom n ds := by
  induction ds generalizing n with
  | nil => exact le_rfl
  | cons ch ds ih => exact le_trans (by omega) (ih (n * 16 + (unhex ch).getD 0))

/-- What `IS_HEX` takes for a digit has a value. -/
theorem unhex_of_isHex (h : isHex ch = true) : ∃ digit, unhex ch = some digit := by
  rw [unhex]
  rw [isHex, Bool.or_eq_true] at h
  split_ifs with hlarge hnum hletter
  · exact ⟨_, rfl⟩
  · exact ⟨_, rfl⟩
  · exact ⟨_, rfl⟩
  · exact absurd h (by simp [hnum, hletter])

/-- A digit does not end a line. -/
theorem not_special_of_isHex (h : isHex ch = true) : ch ≠ CR := by
  rintro rfl
  cases h

/-- The greatest size that is accepted, and one.  The check is made before the digit is added. -/
def sizeLimit : ℕ := 18446744073709551600

/-- One more digit, when the number fits.  It is multiplied in. -/
theorem pushDigit_sixteen {digit : ℕ} (h : p.contentLength * 16 + digit < sizeLimit) :
    p.pushDigit 16 digit ((ullongMax - 16) / 16) =
      .ok { p with contentLength := p.contentLength * 16 + digit } := by
  have hlimit : (ullongMax - 16) / 16 = 1152921504606846974 := rfl
  rw [sizeLimit] at h
  rw [pushDigit, hlimit, if_neg (by omega)]

/-- The digits behind the first one.  The parser counts them against the limit on heads, and
reports nothing. -/
theorem glide_digits (hp : p.state = .chunkSize) (hds : ∀ ch ∈ ds, isHex ch = true)
    (hfits : hexFrom p.contentLength ds < sizeLimit) (hn : p.nread + ds.length ≤ maxHeaderSize) :
    p.glide ds = some { p with
      contentLength := hexFrom p.contentLength ds, nread := p.nread + ds.length } := by
  induction ds generalizing p with
  | nil => rfl
  | cons ch ds ih =>
      obtain ⟨hch, hds⟩ := List.forall_mem_cons.1 hds
      rw [List.length_cons] at hn
      obtain ⟨digit, hdigit⟩ := unhex_of_isHex hch
      have hvalue : hexFrom p.contentLength (ch :: ds) = hexFrom (p.contentLength * 16 + digit) ds := by
        rw [hexFrom, List.foldl_cons, hdigit]
        rfl
      rw [hvalue] at hfits ⊢
      have hle : p.contentLength * 16 + digit < sizeLimit := lt_of_le_of_lt (le_hexFrom _ ds) hfits
      have hstep : p.step ch = next { p with
          contentLength := p.contentLength * 16 + digit, nread := p.nread + 1 } := by
        rw [step_at hp rfl (by omega)]
        change onChunkSize _ ch = _
        rw [onChunkSize, if_neg (by simpa using not_special_of_isHex hch), hdigit]
        dsimp only
        rw [pushDigit_sixteen (p := { p with state := .chunkSize, nread := p.nread + 1 }) hle, ← hp]
      rw [glide_of_step hstep, ih (p := { p with
        contentLength := p.contentLength * 16 + digit, nread := p.nread + 1 }) hp hds hfits
        (by change p.nread + 1 + ds.length ≤ _; omega), List.length_cons, Nat.add_comm ds.length,
        ← Nat.add_assoc]

/-- The parameters of a chunk, which are passed over.  They begin with a semicolon or a blank,
and have no carriage return. -/
def IsParameters (ext : Bytes) : Prop :=
  (∀ ch ∈ ext.head?, ch = 59 ∨ ch = SP) ∧ ∀ ch ∈ ext, ch ≠ CR

/-- Parameters are passed over, up to the carriage return. -/
theorem glide_parameters (hp : p.state = .chunkParameters) {ext : Bytes} (hext : ∀ ch ∈ ext, ch ≠ CR)
    (hn : p.nread + ext.length ≤ maxHeaderSize) :
    p.glide ext = some { p with nread := p.nread + ext.length } := by
  induction ext generalizing p with
  | nil => rfl
  | cons ch ext ih =>
      obtain ⟨hch, hext⟩ := List.forall_mem_cons.1 hext
      rw [List.length_cons] at hn
      have hstep : p.step ch = next { p with nread := p.nread + 1 } := by
        rw [step_at hp rfl (by omega)]
        change onChunkParameters _ ch = _
        rw [onChunkParameters, if_neg (by simpa using hch), ← hp]
      rw [glide_of_step hstep, ih (p := { p with nread := p.nread + 1 }) hp hext
        (by change p.nread + 1 + ext.length ≤ _; omega), List.length_cons, Nat.add_comm ext.length,
        ← Nat.add_assoc]

/-- The line of a size.  Its line end is CR and LF. -/
def sizeLine (size ext : Bytes) : Bytes := size ++ ext ++ [CR, LF]

/-- A size as it may be written.  Its first character is a digit, and the number stays below the
limit. -/
structure IsSize (size ext : Bytes) (n : ℕ) : Prop where
  some_digit : size ≠ []
  digits : ∀ ch ∈ size, isHex ch = true
  parameters : IsParameters ext
  value : hexFrom 0 size = n
  fits : n < sizeLimit
  length : (sizeLine size ext).length ≤ maxHeaderSize

/-- Digits and parameters, up to the line end.  The number is the size. -/
theorem glide_size {size ext : Bytes} {n : ℕ} (hp : p.state = .chunkSizeStart) (hn : p.nread = 0)
    (hsize : IsSize size ext n) :
    p.glide (size ++ ext ++ [CR]) = some { p with
      state := .chunkSizeAlmostDone, contentLength := n, nread := size.length + ext.length + 1 } := by
  obtain ⟨c, ds, rfl⟩ := List.exists_cons_of_ne_nil hsize.some_digit
  obtain ⟨hc, hds⟩ := List.forall_mem_cons.1 hsize.digits
  have hlength := hsize.length
  simp only [sizeLine, List.length_append, List.length_cons, List.length_nil] at hlength
  obtain ⟨digit, hdigit⟩ := unhex_of_isHex hc
  have hvalue : hexFrom digit ds = n := by
    have hvalue := hsize.value
    rw [hexFrom, List.foldl_cons, hdigit, Nat.zero_mul, Nat.zero_add] at hvalue
    exact hvalue
  have hfirst : p.step c = next { p with state := .chunkSize, contentLength := digit, nread := 1 } := by
    rw [step_at hp rfl (by rw [hn]; decide)]
    change onChunkSizeStart _ c = _
    rw [onChunkSizeStart, hdigit, hn]
    rfl
  have hdigits := glide_digits (p := { p with state := .chunkSize, contentLength := digit, nread := 1 }) rfl hds
    (by change hexFrom digit ds < _; rw [hvalue]; exact hsize.fits) (by change 1 + ds.length ≤ _; omega)
  dsimp only at hdigits
  rw [hvalue] at hdigits
  have hcr : ∀ {s : State} {k : ℕ}, s = .chunkSize ∨ s = .chunkParameters → k < maxHeaderSize →
      ({ p with state := s, contentLength := n, nread := k } : HttpParser).step CR =
        next { p with state := .chunkSizeAlmostDone, contentLength := n, nread := k + 1 } := by
    rintro s k (rfl | rfl) hk
    · rw [step_at rfl rfl hk]
      rfl
    · rw [step_at rfl rfl hk]
      rfl
  rw [List.append_assoc, List.cons_append, glide_of_step hfirst, glide_append, hdigits, Option.bind_some]
  cases ext with
  | nil =>
      rw [List.nil_append, glide_of_step (hcr (Or.inl rfl) (by omega)), glide]
      simp only [List.length_cons, List.length_nil]
      congr 2
      omega
  | cons x ext =>
      rw [List.length_cons] at hlength
      have hx := hsize.parameters.1 x rfl
      have hxstep : ({ p with state := .chunkSize, contentLength := n, nread := 1 + ds.length } :
          HttpParser).step x = next { p with
            state := .chunkParameters, contentLength := n, nread := 1 + ds.length + 1 } := by
        rw [step_at rfl rfl (by change 1 + ds.length < _; omega)]
        rcases hx with rfl | rfl <;> rfl
      have hext := glide_parameters (p := { p with
        state := .chunkParameters, contentLength := n, nread := 1 + ds.length + 1 }) rfl
        (fun ch hch => hsize.parameters.2 ch (List.mem_cons_of_mem _ hch))
        (by change 1 + ds.length + 1 + ext.length ≤ _; omega)
      rw [List.cons_append, glide_of_step hxstep, glide_append, hext, Option.bind_some,
        glide_of_step (hcr (Or.inr rfl) (by change 1 + ds.length + 1 + ext.length < _; omega)), glide]
      simp only [List.length_cons]
      congr 2
      omega

/-- **A size and its line end**, before the bytes of a chunk or before the last lines.
`on_chunk_header` is called. -/
theorem reads_size {size ext : Bytes} {n : ℕ} (hp : p.state = .chunkSizeStart) (hn : p.nread = 0)
    (hsize : IsSize size ext n) (st : Settings δ) (d : δ) :
    Reader.reads st (sizeLine size ext) ⟨p, none, d⟩ = some ⟨
      if n = 0 then { p with
        state := .headerFieldStart, flags := { p.flags with trailing := true }, contentLength := 0, nread := 0 }
      else { p with state := .chunkData, contentLength := n, nread := 0 }, none,
      st.onNotify .chunkHeader d⟩ := by
  have hlength := hsize.length
  simp only [sizeLine, List.length_append, List.length_cons, List.length_nil] at hlength
  have hglide := glide_size hp hn hsize
  have hlf : ({ p with state := .chunkSizeAlmostDone, contentLength := n, nread := size.length + ext.length + 1 } :
      HttpParser).step LF = ⟨[.note .chunkHeader], .next (if n = 0 then { p with
        state := .headerFieldStart, flags := { p.flags with trailing := true }, contentLength := 0, nread := 0 }
      else { p with state := .chunkData, contentLength := n, nread := 0 })⟩ := by
    rw [step_at rfl rfl (by change size.length + ext.length + 1 < _; omega)]
    change onChunkSizeAlmostDone _ LF = _
    rw [onChunkSizeAlmostDone, if_neg (by decide)]
    dsimp only
    split_ifs with hzero
    · subst hzero
      rfl
    · rfl
  rw [sizeLine, show size ++ ext ++ [CR, LF] = size ++ ext ++ [CR] ++ [LF] by simp,
    Reader.reads_of_append (Reader.reads_of_glide hglide)]
  exact congrArg (·.bind (Reader.reads st [])) (Reader.read_note hlf)

/-! ### The bytes -/

/-- A byte of a chunk only counts the length down. -/
theorem step_chunkData (hp : p.state = .chunkData) (ch : Byte) : p.step ch = p.onChunkData := by
  rw [step, hp]
  change p.onByte ch = _
  rw [onByte, hp]

/-- In a chunk bytes are counted down and nothing else is done. -/
theorem soaking_chunkData : Soaking .chunkData := by
  intro p ch hp hne
  rw [step_chunkData hp, onChunkData]
  dsimp only
  rw [if_neg hne]
  rfl

/-- **The bytes of a chunk and their line end.**  They are one text, and `on_chunk_complete` is
called behind it. -/
theorem reads_chunkData {data : Bytes} (hp : p.state = .chunkData) (hlength : p.contentLength = data.length)
    (hne : data ≠ []) (hd : st.onData .body data d = some d') :
    Reader.reads st (data ++ [CR, LF]) ⟨p, none, d⟩ = some ⟨{ p with
      state := .chunkSizeStart, contentLength := 0, nread := 0 }, none, st.onNotify .chunkComplete d'⟩ := by
  obtain ⟨bs, ch, rfl⟩ : ∃ bs ch, data = bs ++ [ch] := ⟨_, _, (List.dropLast_append_getLast hne).symm⟩
  rw [List.length_append, List.length_singleton] at hlength
  obtain ⟨t, ht, hpending, hbytes⟩ := reads_soaking soaking_chunkData (t := none) hp
    (fun _ _ h => by cases h) (show bs.length < p.contentLength by omega) st d
  have hlast : ({ p with contentLength := p.contentLength - bs.length } : HttpParser).step ch =
      ⟨[.mark .body], .next { p with state := .chunkDataAlmostDone, contentLength := 0 }⟩ := by
    rw [show p.contentLength - bs.length = 1 by omega, step_chunkData (p := { p with contentLength := 1 }) hp]
    rfl
  have hcr : ({ p with state := .chunkDataAlmostDone, contentLength := 0 } : HttpParser).step CR =
      ⟨[.data .body], .next { p with state := .chunkDataDone, contentLength := 0 }⟩ := rfl
  have hlf : ({ p with state := .chunkDataDone, contentLength := 0 } : HttpParser).step LF =
      ⟨[.note .chunkComplete], .next { p with
        state := .chunkSizeStart, contentLength := 0, nread := 0 }⟩ := rfl
  rw [pending, List.nil_append] at hpending
  have hbody : pending t ++ [ch] = bs ++ [ch] := by rw [hpending]
  rw [List.append_assoc, Reader.reads_of_append hbytes, List.singleton_append, Reader.reads_cons,
    read_body ht hlast, Option.bind_some, hbody, Reader.reads_cons, Reader.read_data hcr hd,
    Option.bind_some, Reader.reads_cons, Reader.read_note hlf]
  rfl

/-! ### Chunks -/

/-- A chunk as it is sent.  Its size is text, as it stands in the message. -/
structure Chunk where
  size : Bytes
  ext : Bytes
  data : Bytes

/-- The size tells the length of the bytes, and there are some.  A size of zero would be the
last chunk. -/
structure Chunk.Fits (c : Chunk) : Prop where
  size : IsSize c.size c.ext c.data.length
  some_data : c.data ≠ []

/-- The size line, the bytes, and a line end. -/
def Chunk.bytes (c : Chunk) : Bytes := sizeLine c.size c.ext ++ (c.data ++ [CR, LF])

/-- The callbacks of a chunk.  The header of the chunk, its bytes, and its end. -/
def hearChunk (st : Settings δ) (d : δ) (c : Chunk) : Option δ :=
  (st.onData .body c.data (st.onNotify .chunkHeader d)).map (st.onNotify .chunkComplete)

/-- **One chunk**: its callbacks are called, and the next chunk may come. -/
theorem reads_chunk {c : Chunk} (hp : p.state = .chunkSizeStart) (hn : p.nread = 0) (hc : c.Fits)
    (hd : hearChunk st d c = some d') :
    Reader.reads st c.bytes ⟨p, none, d⟩ = some ⟨{ p with
      state := .chunkSizeStart, contentLength := 0, nread := 0 }, none, d'⟩ := by
  obtain ⟨d₁, hd₁, rfl⟩ := Option.map_eq_some_iff.1 hd
  have hlength : c.data.length ≠ 0 := mt List.length_eq_zero_iff.1 hc.some_data
  have hsize := reads_size hp hn hc.size st d
  rw [if_neg hlength] at hsize
  rw [Chunk.bytes, Reader.reads_of_append hsize]
  exact reads_chunkData (p := { p with state := .chunkData, contentLength := c.data.length, nread := 0 })
    rfl rfl hc.some_data hd₁

/-- **Chunks one after another.**  The induction is over the chunks; each leaves the count of
header bytes at some number. -/
theorem reads_chunks {cs : List Chunk} (hp : p.state = .chunkSizeStart) (hn : p.nread = 0)
    (hcs : ∀ c ∈ cs, c.Fits) (hd : cs.foldlM (hearChunk st) d = some d') :
    ∃ n, Reader.reads st (cs.flatMap Chunk.bytes) ⟨p, none, d⟩ =
      some ⟨{ p with state := .chunkSizeStart, contentLength := n, nread := 0 }, none, d'⟩ := by
  induction cs generalizing p d with
  | nil =>
      cases hd
      refine ⟨p.contentLength, ?_⟩
      rw [← hp, ← hn]
      rfl
  | cons c cs ih =>
      obtain ⟨hc, hcs⟩ := List.forall_mem_cons.1 hcs
      rw [List.foldlM_cons] at hd
      obtain ⟨d₁, hone, hd⟩ := Option.bind_eq_some_iff.1 hd
      obtain ⟨n, hrest⟩ := ih (p := { p with state := .chunkSizeStart, contentLength := 0, nread := 0 })
        rfl rfl hcs hd
      refine ⟨n, ?_⟩
      rw [List.flatMap_cons, Reader.reads_of_append (reads_chunk hp hn hc hone)]
      exact hrest

/-! ### The end of the body -/

/-- The chunk of size zero, the lines behind it, and the empty line.  The lines are those of
`Trailer`. -/
def lastChunk (size ext : Bytes) (fs : List Field) : Bytes :=
  sizeLine size ext ++ (fieldLines fs ++ [CR, LF])

/-- **The last chunk** ends the message.  The lines behind it are read as lines of a head. -/
theorem reads_lastChunk {size ext : Bytes} {fs : List Field} {l : Option ℕ} (hp : p.state = .chunkSizeStart)
    (hn : p.nread = 0) (hu : p.upgrade = false) (hgiven : p.flags.contentLength = false)
    (hsize : IsSize size ext 0) (hfs : IsFields fs) (hlength : (fieldLines fs).length + 2 ≤ maxHeaderSize)
    (htells : TellsLength fs l) (hd : fs.foldlM (hear st) (st.onNotify .chunkHeader d) = some d') :
    ∃ q, q.upgrade = false ∧ Reader.reads st (lastChunk size ext fs) ⟨p, none, d⟩ =
      some ⟨q, none, st.onNotify .messageComplete (st.onNotify .chunkComplete d')⟩ := by
  have hfirst := reads_size hp hn hsize st d
  rw [if_pos rfl] at hfirst
  obtain ⟨q, hq⟩ := effects_of_tells (p := { p with
    state := .headerFieldStart, flags := { p.flags with trailing := true }, contentLength := 0, nread := 0 })
    htells (fun hno => by cases hgiven.symm.trans hno)
  obtain ⟨l', hsums⟩ := sums_of_effects hq
  have hsame := hsums.same
  obtain ⟨s, i, hfields⟩ := reads_fields rfl hfs hq
    (by change 0 + (fieldLines fs).length < _; omega) (show CR ≠ SP ∧ CR ≠ TAB by decide) hd [LF]
  have hcr : ({ q with headerState := s, index := i, nread := 0 + (fieldLines fs).length } :
      HttpParser).step CR = next { q with
        state := .headersAlmostDone, headerState := s, index := i, nread := (fieldLines fs).length + 1 } := by
    rw [step_at (s := .headerFieldStart) (by rw [hsame]) rfl
      (by change 0 + (fieldLines fs).length < _; omega), Nat.zero_add]
    rfl
  have hlf : ({ q with
        state := .headersAlmostDone, headerState := s, index := i, nread := (fieldLines fs).length + 1 } :
      HttpParser).step LF = ⟨[.note .chunkComplete, .note .messageComplete], .next { q with
        state := q.newMessage, headerState := s, index := i, nread := (fieldLines fs).length + 2 }⟩ := by
    have htrailing : q.flags.trailing = true := hsums.trailing
    have hup : q.upgrade = false := by
      rw [hsame]
      exact hu
    rw [step_at rfl rfl (by change (fieldLines fs).length + 1 < _; omega)]
    change onHeadersAlmostDone { q with
      state := .headersAlmostDone, headerState := s, index := i, nread := (fieldLines fs).length + 2 } LF = _
    rw [onHeadersAlmostDone, if_neg (by decide), if_pos htrailing, onMessageDone,
      if_neg (by change ¬q.upgrade = true; rw [hup]; decide)]
    rfl
  refine ⟨{ q with
    state := q.newMessage, headerState := s, index := i, nread := (fieldLines fs).length + 2 }, ?_, ?_⟩
  · change q.upgrade = false
    rw [hsame]
    exact hu
  · rw [lastChunk, Reader.reads_of_append hfirst, hfields, Reader.reads_cons, Reader.read_next hcr,
      Option.bind_some, Reader.reads_cons, Reader.read_of_step (r := ⟨_, none, d'⟩) hlf]
    rfl

/-- A body in chunks, to its end.  The size of the last chunk may be written in several ways,
and have parameters. -/
structure ChunkedBody where
  chunks : List Chunk
  size : Bytes
  ext : Bytes
  trailers : List Field

namespace ChunkedBody

variable (b : ChunkedBody)

/-- The chunks, and the last one. -/
def bytes : Bytes := b.chunks.flatMap Chunk.bytes ++ lastChunk b.size b.ext b.trailers

/-- What was sent in the chunks.  The sizes and the parameters are no part of it. -/
def content : Bytes := b.chunks.flatMap Chunk.data

/-- A body that is well formed.  `tells` is asked of the last lines since the parser reads them
like those of the head. -/
structure Fits : Prop where
  chunks : ∀ c ∈ b.chunks, c.Fits
  size : IsSize b.size b.ext 0
  trailers : IsFields b.trailers
  length : (fieldLines b.trailers).length + 2 ≤ maxHeaderSize
  tells : ∃ l, TellsLength b.trailers l

variable {b}

/-- **A body in chunks.**  Its chunks and the last one, with their callbacks. -/
theorem reads_body (hb : b.Fits) (hp : p.state = .chunkSizeStart) (hn : p.nread = 0)
    (hu : p.upgrade = false) (hgiven : p.flags.contentLength = false) {d₁ d₂ : δ}
    (hd₁ : b.chunks.foldlM (hearChunk st) d = some d₁)
    (hd₂ : b.trailers.foldlM (hear st) (st.onNotify .chunkHeader d₁) = some d₂) :
    ∃ q, q.upgrade = false ∧ Reader.reads st b.bytes ⟨p, none, d⟩ =
      some ⟨q, none, st.onNotify .messageComplete (st.onNotify .chunkComplete d₂)⟩ := by
  obtain ⟨n, hchunks⟩ := reads_chunks hp hn hb.chunks hd₁
  obtain ⟨l, htells⟩ := hb.tells
  obtain ⟨q, hq, hlast⟩ := reads_lastChunk (p := { p with
    state := .chunkSizeStart, contentLength := n, nread := 0 }) rfl rfl hu hgiven hb.size hb.trailers
    hb.length htells hd₂
  refine ⟨q, hq, ?_⟩
  rw [bytes, Reader.reads_of_append hchunks, hlast]

end ChunkedBody

end HttpParser

end Hiper

import DeltaPorts.Phttpget.Stream

/-!
# Chunked entities

The branch of `main` for `Transfer-Encoding: chunked`. The loop over the chunks reads a
line, takes a size from it, and copies that many bytes.
-/

set_option autoImplicit false

namespace DeltaPorts.Phttpget

def OFF_MAX : Nat := 0x7fffffffffffffff

/-- What is left of a connection after an entity, or after the connection died in it. -/
structure Entity where
  complete : Bool
  written : Bytes
  sock : Sock
  buf : Buf

/-- The value of an `isxdigit` character. -/
def hexDigit (c : UInt8) : Option Nat :=
  if 48 ≤ c ∧ c ≤ 57 then some (c.toNat - 48)
  else if 97 ≤ c ∧ c ≤ 102 then some (10 + (c.toNat - 97))
  else if 65 ≤ c ∧ c ≤ 70 then some (10 + (c.toNat - 65))
  else none

/-- `clen` after the digits of the line; `none` where the size could overflow. -/
def chunkSize (clen : Nat) : Bytes → Option Nat
  | [] => some clen
  | c :: hln =>
    match hexDigit c with
    | none => some clen
    | some digit => if OFF_MAX / 16 ≤ clen then none else chunkSize (clen * 16 + digit) hln

theorem readLine_length {sock sock' : Sock} {buf buf' : Buf} {line : Bytes}
    (h : readLine sock buf = some (line, sock', buf')) :
    (stream sock' buf').length < (stream sock buf).length := by
  have hspec := readLine_spec sock buf
  rw [h] at hspec
  rw [hspec.1, List.length_append, List.length_cons, List.length_cons]
  omega

theorem copybytes_length {n : Nat} {sock : Sock} {buf : Buf} (h : (copybytes n sock buf).error = 0) :
    (stream (copybytes n sock buf).sock (copybytes n sock buf).buf).length ≤
      (stream sock buf).length := by
  rw [(copybytes_spec n sock buf).stream_eq h, List.length_drop]
  omega

/-- The loop over the chunks. -/
def readChunks (sock : Sock) (buf : Buf) : Entity :=
  match _h : readLine sock buf with
  | none => ⟨false, [], sock, buf⟩
  | some (hln, sock', buf') =>
    match chunkSize 0 hln with
    | none => ⟨false, [], sock', buf'⟩
    | some clen =>
      let r := copybytes clen sock' buf'
      if _hr : r.error ≠ 0 then ⟨false, r.written, r.sock, r.buf⟩
      else if clen = 0 then ⟨true, r.written, r.sock, r.buf⟩
      else
        let rest := readChunks r.sock r.buf
        ⟨rest.complete, r.written ++ rest.written, rest.sock, rest.buf⟩
termination_by (stream sock buf).length
decreasing_by exact lt_of_le_of_lt (copybytes_length (not_not.mp _hr)) (readLine_length _h)

/-- The loop over the trailer, to the empty line. -/
def readTrailer (sock : Sock) (buf : Buf) : Option (Sock × Buf) :=
  match _h : readLine sock buf with
  | none => none
  | some (hln, sock', buf') => if hln = [] then some (sock', buf') else readTrailer sock' buf'
termination_by (stream sock buf).length
decreasing_by exact readLine_length _h

def readChunked (sock : Sock) (buf : Buf) : Entity :=
  let chunks := readChunks sock buf
  if chunks.complete = false then chunks
  else
    match readTrailer chunks.sock chunks.buf with
    | none => { chunks with complete := false }
    | some (sock, buf) => ⟨true, chunks.written, sock, buf⟩

def hexValue (value : Nat) : Bytes → Nat
  | [] => value
  | c :: digits => hexValue (value * 16 + (hexDigit c).getD 0) digits

structure Chunk where
  size : Bytes
  data : Bytes
  digits : ∀ c ∈ size, hexDigit c ≠ none
  value : hexValue 0 size = data.length
  nonempty : data ≠ []

def Chunk.encode (c : Chunk) : Bytes := c.size ++ CR :: LF :: (c.data ++ [CR, LF])

/-- A trailer line; the empty line ends the trailer. -/
structure Trailer where
  line : Bytes
  nonempty : line ≠ []
  oneLine : ¬ [CR, LF] <:+: line

structure ChunkedMessage where
  chunks : List Chunk
  trailers : List Trailer

namespace ChunkedMessage

def data (m : ChunkedMessage) : Bytes := m.chunks.flatMap Chunk.data

def encodeTrailers (trailers : List Trailer) : Bytes :=
  trailers.flatMap (fun t => t.line ++ [CR, LF]) ++ [CR, LF]

def encode (m : ChunkedMessage) : Bytes :=
  m.chunks.flatMap Chunk.encode ++ 48 :: CR :: LF :: encodeTrailers m.trailers

/-- At most one chunk, whose size can be read, and a trailer whose lines can be. -/
structure Readable (m : ChunkedMessage) : Prop where
  chunks : m.chunks.length ≤ 1
  sizes : ∀ c ∈ m.chunks, c.size.length + 2 ≤ BUFSIZ ∧ c.data.length / 16 < OFF_MAX / 16
  trailers : ∀ t ∈ m.trailers, LineFits t.line

end ChunkedMessage

theorem hexDigit_lt {c : UInt8} {digit : Nat} (h : hexDigit c = some digit) : digit < 16 := by
  unfold hexDigit at h
  split at h
  · next hc =>
    have hle := UInt8.le_iff_toNat_le.mp hc.2
    cases h
    simp only [UInt8.reduceToNat] at hle
    omega
  · split at h
    · next hc =>
      have hle := UInt8.le_iff_toNat_le.mp hc.2
      cases h
      simp only [UInt8.reduceToNat] at hle
      omega
    · split at h
      · next hc =>
        have hle := UInt8.le_iff_toNat_le.mp hc.2
        cases h
        simp only [UInt8.reduceToNat] at hle
        omega
      · cases h

theorem le_hexValue (value : Nat) (digits : Bytes) : value ≤ hexValue value digits := by
  induction digits generalizing value with
  | nil => exact Nat.le_refl value
  | cons c digits ih =>
    have hrest := ih (value * 16 + (hexDigit c).getD 0)
    unfold hexValue
    omega

theorem chunkSize_eq {digits : Bytes} (hdigits : ∀ c ∈ digits, hexDigit c ≠ none) (clen : Nat) :
    chunkSize clen digits = if digits ≠ [] ∧ OFF_MAX / 16 ≤ hexValue clen digits / 16 then none
      else some (hexValue clen digits) := by
  induction digits generalizing clen with
  | nil => simp [chunkSize, hexValue]
  | cons c digits ih =>
    obtain ⟨digit, hdigit⟩ := Option.ne_none_iff_exists'.mp (hdigits c List.mem_cons_self)
    have hlt := hexDigit_lt hdigit
    have hle := le_hexValue (clen * 16 + digit) digits
    have hrest := ih (fun d hd => hdigits d (List.mem_cons_of_mem c hd)) (clen * 16 + digit)
    simp only [chunkSize, hdigit, hexValue, Option.getD_some, ne_eq, reduceCtorEq, not_false_eq_true,
      true_and]
    by_cases hbig : OFF_MAX / 16 ≤ clen
    · rw [if_pos hbig, if_pos (by omega)]
    · rw [if_neg hbig, hrest]
      cases digits with
      | nil =>
        have hquot : (clen * 16 + digit) / 16 = clen := by omega
        simp [hexValue, hquot, hbig]
      | cons d digits => simp

theorem chunkSize_size (c : Chunk) : chunkSize 0 c.size =
    if OFF_MAX / 16 ≤ c.data.length / 16 then none else some c.data.length := by
  have hne : c.size ≠ [] := by
    intro h
    have hvalue := c.value
    rw [h] at hvalue
    exact c.nonempty (List.length_eq_zero_iff.mp hvalue.symm)
  rw [chunkSize_eq c.digits, c.value]
  simp [hne]

theorem size_oneLine (c : Chunk) : ¬ [CR, LF] <:+: c.size := by
  intro h
  exact c.digits CR (h.subset List.mem_cons_self) rfl

theorem nul_not_mem_size (c : Chunk) : NUL ∉ c.size := fun h => c.digits NUL h rfl

open ChunkedMessage

variable {sock : Sock} {buf : Buf} {rest : Bytes}

theorem readTrailer_eq (sock : Sock) (buf : Buf) : readTrailer sock buf =
    match readLine sock buf with
    | none => none
    | some (hln, sock', buf') => if hln = [] then some (sock', buf') else readTrailer sock' buf' := by
  rw [readTrailer]
  split
  · next hread => rw [hread]
  · next hread => rw [hread]

theorem readChunks_eq (sock : Sock) (buf : Buf) : readChunks sock buf =
    match readLine sock buf with
    | none => ⟨false, [], sock, buf⟩
    | some (hln, sock', buf') =>
      match chunkSize 0 hln with
      | none => ⟨false, [], sock', buf'⟩
      | some clen =>
        let r := copybytes clen sock' buf'
        if r.error ≠ 0 then ⟨false, r.written, r.sock, r.buf⟩
        else if clen = 0 then ⟨true, r.written, r.sock, r.buf⟩
        else
          let rest := readChunks r.sock r.buf
          ⟨rest.complete, r.written ++ rest.written, rest.sock, rest.buf⟩ := by
  rw [readChunks]
  split
  · next hread => rw [hread]
  · next hread =>
    rw [hread]
    rfl

theorem readTrailer_append {trailers : List Trailer} (hfits : buf.Fits)
    (hstream : stream sock buf = encodeTrailers trailers ++ rest) :
    ((∀ t ∈ trailers, LineFits t.line) → ∃ sock' buf', readTrailer sock buf = some (sock', buf') ∧
      stream sock' buf' = rest) ∧
    ((∃ t ∈ trailers, ¬ LineFits t.line) → readTrailer sock buf = none) := by
  induction trailers generalizing sock buf with
  | nil =>
    have hline : LineFits [] := ⟨List.not_mem_nil, by decide⟩
    obtain ⟨sock', buf', hread, hrest, _⟩ := (@readLine_append _ _ [] _ hfits (by simp)
      hstream).1 hline
    refine ⟨fun _ => ⟨sock', buf', ?_, hrest⟩, fun h => ?_⟩
    · rw [readTrailer_eq, hread]
      rfl
    · obtain ⟨t, ht, _⟩ := h
      cases ht
  | cons t trailers ih =>
    have hstream' : stream sock buf = t.line ++ CR :: LF :: (encodeTrailers trailers ++ rest) := by
      rw [hstream]
      simp [encodeTrailers]
    obtain ⟨hgood, hbad⟩ := readLine_append hfits t.oneLine hstream'
    by_cases hline : LineFits t.line
    · obtain ⟨sock', buf', hread, hrest, hfits'⟩ := hgood hline
      have hstep : readTrailer sock buf = readTrailer sock' buf' := by
        rw [readTrailer_eq, hread]
        exact if_neg t.nonempty
      rw [hstep]
      have hlater := ih hfits' hrest
      refine ⟨fun h => hlater.1 fun u hu => h u (List.mem_cons_of_mem t hu), fun h => hlater.2 ?_⟩
      obtain ⟨u, hu, hnot⟩ := h
      rcases List.mem_cons.mp hu with rfl | hu
      · exact absurd hline hnot
      · exact ⟨u, hu, hnot⟩
    · refine ⟨fun h => absurd (h t List.mem_cons_self) hline, fun _ => ?_⟩
      rw [readTrailer_eq, hbad hline]

/-- The last line of the chunks ends the loop. -/
theorem readChunks_zero (hfits : buf.Fits) (hstream : stream sock buf = 48 :: CR :: LF :: rest) :
    ∃ sock' buf', readChunks sock buf = ⟨true, [], sock', buf'⟩ ∧ stream sock' buf' = rest ∧
      buf'.Fits := by
  have hline : LineFits [48] := ⟨by decide, by decide⟩
  obtain ⟨sock', buf', hread, hrest, hfits'⟩ :=
    (@readLine_append _ _ [48] _ hfits (by decide) hstream).1 hline
  refine ⟨sock', buf', ?_, hrest, hfits'⟩
  have hsize : chunkSize 0 [48] = some 0 := by decide
  have hcopy : copybytes 0 sock' buf' = ⟨0, [], sock', buf'⟩ := by rw [copybytes]; rfl
  rw [readChunks_eq, hread]
  simp [hsize, hcopy]

/-- A chunk is the last the loop reads: the line end after its data is taken for a size. -/
theorem readChunks_chunk {c : Chunk} (hfits : buf.Fits) (hstream : stream sock buf = c.encode ++ rest) :
    (c.size.length + 2 ≤ BUFSIZ ∧ c.data.length / 16 < OFF_MAX / 16 → ∃ sock' buf',
      readChunks sock buf = ⟨true, c.data, sock', buf'⟩ ∧ stream sock' buf' = rest ∧ buf'.Fits) ∧
    (¬ (c.size.length + 2 ≤ BUFSIZ ∧ c.data.length / 16 < OFF_MAX / 16) →
      (readChunks sock buf).complete = false) := by
  have hsplit : stream sock buf = c.size ++ CR :: LF :: (c.data ++ CR :: LF :: rest) := by
    rw [hstream]
    simp [Chunk.encode]
  obtain ⟨hgood, hbad⟩ := readLine_append hfits (size_oneLine c) hsplit
  by_cases hlen : c.size.length + 2 ≤ BUFSIZ
  · obtain ⟨sock₁, buf₁, hread, hstream₁, hfits₁⟩ := hgood ⟨nul_not_mem_size c, hlen⟩
    have hsize := chunkSize_size c
    by_cases hbig : OFF_MAX / 16 ≤ c.data.length / 16
    · rw [if_pos hbig] at hsize
      refine ⟨fun h => absurd h.2 (by omega), fun _ => ?_⟩
      rw [readChunks_eq, hread]
      simp [hsize]
    · rw [if_neg hbig] at hsize
      refine ⟨fun _ => ?_, fun h => absurd ⟨hlen, by omega⟩ h⟩
      have hcopy := copybytes_spec c.data.length sock₁ buf₁
      have hlong : c.data.length ≤ (stream sock₁ buf₁).length := by
        rw [hstream₁, List.length_append]
        omega
      have hzero := hcopy.error_iff.mpr hlong
      have hwritten := hcopy.written
      rw [hstream₁, List.take_left] at hwritten
      have hstream₂ := hcopy.stream_eq hzero
      rw [hstream₁, List.drop_left] at hstream₂
      obtain ⟨sock₃, buf₃, hread₃, hrest, hfits₃⟩ :=
        (@readLine_append _ _ [] _ (hcopy.fits hfits₁) (by simp) hstream₂).1
          ⟨List.not_mem_nil, by decide⟩
      have hend : readChunks (copybytes c.data.length sock₁ buf₁).sock
          (copybytes c.data.length sock₁ buf₁).buf = ⟨true, [], sock₃, buf₃⟩ := by
        have hcopy₀ : copybytes 0 sock₃ buf₃ = ⟨0, [], sock₃, buf₃⟩ := by rw [copybytes]; rfl
        rw [readChunks_eq, hread₃]
        simp [chunkSize, hcopy₀]
      refine ⟨sock₃, buf₃, ?_, hrest, hfits₃⟩
      have hne : c.data.length ≠ 0 := fun h => c.nonempty (List.length_eq_zero_iff.mp h)
      rw [readChunks_eq, hread]
      simp [hsize, hzero, hne, hend, hwritten]
  · refine ⟨fun h => absurd h.1 hlen, fun _ => ?_⟩
    rw [readChunks_eq, hbad fun h => hlen h.2]

/-- The file gets the chunks and the buffer is left just past the message. -/
def Decodes (m : ChunkedMessage) (sock : Sock) (buf : Buf) (rest : Bytes) : Prop :=
  ∃ sock' buf', readChunked sock buf = ⟨true, m.data, sock', buf'⟩ ∧ stream sock' buf' = rest

def zeroLine : Trailer where
  line := [48]
  nonempty := by decide
  oneLine := by decide

theorem readChunked_died (h : (readChunks sock buf).complete = false) :
    (readChunked sock buf).complete = false := by
  unfold readChunked
  simp [h]

/-- After the chunks, the trailer decides. -/
theorem readChunked_iff {written data : Bytes} {sock₁ : Sock} {buf₁ : Buf}
    {trailers : List Trailer} (hchunks : readChunks sock buf = ⟨true, written, sock₁, buf₁⟩)
    (hfits : buf₁.Fits) (hstream : stream sock₁ buf₁ = encodeTrailers trailers ++ rest) :
    (∃ sock' buf', readChunked sock buf = ⟨true, data, sock', buf'⟩ ∧ stream sock' buf' = rest) ↔
      written = data ∧ ∀ t ∈ trailers, LineFits t.line := by
  obtain ⟨hgood, hbad⟩ := readTrailer_append hfits hstream
  unfold readChunked
  rw [hchunks]
  simp only [Bool.true_eq_false, if_false]
  by_cases hlines : ∀ t ∈ trailers, LineFits t.line
  · obtain ⟨sock', buf', htrailer, hrest⟩ := hgood hlines
    rw [htrailer]
    constructor
    · rintro ⟨_, _, heq, _⟩
      exact ⟨congrArg Entity.written heq, hlines⟩
    · rintro ⟨rfl, _⟩
      exact ⟨sock', buf', rfl, hrest⟩
  · have hnone := hbad (by simpa using hlines)
    rw [hnone]
    constructor
    · rintro ⟨_, _, heq, _⟩
      exact absurd (congrArg Entity.complete heq) Bool.false_ne_true
    · rintro ⟨_, h⟩
      exact absurd h hlines

theorem not_decodes_of_two {c d : Chunk} {more : List Chunk} {trailers : List Trailer}
    (hfits : buf.Fits) (hstream : stream sock buf =
      (⟨c :: d :: more, trailers⟩ : ChunkedMessage).encode ++ rest) :
    ¬ Decodes ⟨c :: d :: more, trailers⟩ sock buf rest := by
  rintro ⟨sock', buf', heq, _⟩
  have hsplit : stream sock buf = c.encode ++ ((d :: more).flatMap Chunk.encode ++
      48 :: CR :: LF :: encodeTrailers trailers ++ rest) := by
    rw [hstream]
    simp [encode]
  obtain ⟨hgood, hbad⟩ := readChunks_chunk hfits hsplit
  by_cases hsize : c.size.length + 2 ≤ BUFSIZ ∧ c.data.length / 16 < OFF_MAX / 16
  · obtain ⟨sock₁, buf₁, hchunks, _, _⟩ := hgood hsize
    -- the file has the first chunk alone
    have hwritten : (readChunked sock buf).written = c.data := by
      unfold readChunked
      rw [hchunks]
      simp only [Bool.true_eq_false, if_false]
      split <;> rfl
    rw [heq] at hwritten
    have hrest : d.data ++ more.flatMap Chunk.data = [] := by
      simpa [data] using hwritten
    exact d.nonempty (List.append_eq_nil_iff.mp hrest).1
  · have hdied := readChunked_died (hbad hsize)
    rw [heq] at hdied
    cases hdied

/-- The message is read as it was sent exactly when it is readable. -/
theorem decodes_iff_readable {m : ChunkedMessage} (hfits : buf.Fits)
    (hstream : stream sock buf = m.encode ++ rest) : Decodes m sock buf rest ↔ m.Readable := by
  obtain ⟨chunks, trailers⟩ := m
  match chunks with
  | [] =>
    have hzero : stream sock buf = 48 :: CR :: LF :: (encodeTrailers trailers ++ rest) := hstream
    obtain ⟨sock₁, buf₁, hchunks, hstream₁, hfits₁⟩ := readChunks_zero hfits hzero
    refine (readChunked_iff hchunks hfits₁ hstream₁).trans ⟨fun h => ?_, fun h => ?_⟩
    · exact ⟨Nat.zero_le 1, by simp, h.2⟩
    · exact ⟨rfl, h.trailers⟩
  | [c] =>
    have hsplit : stream sock buf =
        c.encode ++ (encodeTrailers (zeroLine :: trailers) ++ rest) := by
      rw [hstream]
      simp [encode, encodeTrailers, zeroLine]
    have hdata : (⟨[c], trailers⟩ : ChunkedMessage).data = c.data := by simp [data]
    obtain ⟨hgood, hbad⟩ := readChunks_chunk hfits hsplit
    by_cases hsize : c.size.length + 2 ≤ BUFSIZ ∧ c.data.length / 16 < OFF_MAX / 16
    · obtain ⟨sock₁, buf₁, hchunks, hstream₁, hfits₁⟩ := hgood hsize
      refine (readChunked_iff hchunks hfits₁ hstream₁).trans ⟨fun h => ?_, fun h => ?_⟩
      · exact ⟨Nat.le_refl 1, by simpa using hsize, fun t ht => h.2 t (List.mem_cons_of_mem _ ht)⟩
      · refine ⟨hdata.symm, fun t ht => ?_⟩
        rcases List.mem_cons.mp ht with rfl | ht
        · exact ⟨by decide, by decide⟩
        · exact h.trailers t ht
    · refine iff_of_false ?_ fun h => hsize (h.sizes c List.mem_cons_self)
      rintro ⟨sock', buf', heq, _⟩
      have hdied := readChunked_died (hbad hsize)
      rw [heq] at hdied
      cases hdied
  | c :: d :: more =>
    exact iff_of_false (not_decodes_of_two hfits hstream) fun h => absurd h.chunks (by simp)

/-- A chunk of one byte. -/
def byteChunk (b : UInt8) : Chunk where
  size := [49]
  data := [b]
  digits := by
    intro c hc
    rw [List.mem_singleton.mp hc]
    exact Option.some_ne_none 1
  value := rfl
  nonempty := List.cons_ne_nil b []

/-- The chunk "a" and an empty trailer. -/
def oneChunk : ChunkedMessage where
  chunks := [byteChunk 97]
  trailers := []

theorem decodes_oneChunk : Decodes oneChunk
    ⟨[.bytes 49 [CR, LF, 97, CR, LF, 48, CR], .eintr, .bytes LF [CR, LF]], false⟩ ⟨[], 0⟩ [] := by
  refine (decodes_iff_readable (by decide) rfl).mpr ⟨by decide, fun c hc => ?_, by simp [oneChunk]⟩
  rw [List.mem_singleton.mp hc]
  decide

/-- The chunks "a" and "b". -/
def twoChunks : ChunkedMessage where
  chunks := [byteChunk 97, byteChunk 98]
  trailers := []

theorem second_chunk_lost : ¬ ∀ (m : ChunkedMessage) (sock : Sock) (buf : Buf) (rest : Bytes),
    buf.Fits → stream sock buf = m.encode ++ rest → Decodes m sock buf rest := by
  intro h
  have hfits : (Buf.mk twoChunks.encode 0).Fits := by decide
  have hstream : stream ⟨[], false⟩ ⟨twoChunks.encode, 0⟩ = twoChunks.encode ++ [] := rfl
  exact not_decodes_of_two hfits hstream (h twoChunks _ _ [] hfits hstream)

end DeltaPorts.Phttpget

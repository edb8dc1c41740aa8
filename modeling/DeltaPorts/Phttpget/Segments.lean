import DeltaPorts.Phttpget.Stream

/-!
# What does not depend on the segments

The loops of `readln` and `copybytes` once more, with each `write` taking what it likes, and with
the buffer recorded at each test. A sequence of lines and copies comes out as the stream has it,
however the stream is cut into the results of `recv` and the copies into writes.
-/

set_option autoImplicit false

namespace DeltaPorts.Phttpget

/-- `0 <= resbufpos <= resbuflen <= BUFSIZ`. -/
structure Buf.InBounds (buf : Buf) : Prop where
  pos : buf.pos ≤ buf.bytes.length
  length : buf.bytes.length ≤ BUFSIZ

theorem Buf.InBounds.unread_length {buf : Buf} (h : buf.InBounds) :
    buf.pos + buf.unread.length = buf.bytes.length := by
  rw [Buf.unread, List.length_drop]
  have hpos := h.pos
  omega

theorem Buf.InBounds.fits {buf : Buf} (h : buf.InBounds) : buf.Fits := by
  have hlen := h.unread_length
  have hmax := h.length
  unfold Buf.Fits
  omega

theorem inBounds_of_length {b : Bytes} (h : b.length ≤ BUFSIZ) : (Buf.mk b 0).InBounds :=
  ⟨Nat.zero_le _, h⟩

/-- `readln`, with the buffers at the tests of its loop and after each move. -/
def readlnVisits (sock : Sock) (buf : Buf) : List Buf × Option (Sock × Buf) :=
  match lineOf buf.unread with
  | some _ => ([buf], some (sock, buf))
  | none =>
    let moved : Buf := ⟨buf.unread, 0⟩
    if buf.unread.length = BUFSIZ then ([buf, moved], none)
    else
      match _h : recv (BUFSIZ - buf.unread.length) sock with
      | (.bytes b, sock') =>
        let r := readlnVisits sock' ⟨buf.unread ++ b, 0⟩
        (buf :: moved :: r.1, r.2)
      | (.eintr, sock') =>
        let r := readlnVisits sock' moved
        (buf :: moved :: r.1, r.2)
      | (.failed, _) => ([buf, moved], none)
      | (.closed, _) => ([buf, moved], none)
termination_by sock.size
decreasing_by
  · exact recv_bytes_size _h
  · exact recv_eintr_size _h

theorem readlnVisits_of_room {sock : Sock} {buf : Buf} (hnone : lineOf buf.unread = none)
    (hroom : buf.unread.length ≠ BUFSIZ) : readlnVisits sock buf =
      match recv (BUFSIZ - buf.unread.length) sock with
      | (.bytes b, sock') =>
        let r := readlnVisits sock' ⟨buf.unread ++ b, 0⟩
        (buf :: ⟨buf.unread, 0⟩ :: r.1, r.2)
      | (.eintr, sock') =>
        let r := readlnVisits sock' ⟨buf.unread, 0⟩
        (buf :: ⟨buf.unread, 0⟩ :: r.1, r.2)
      | (.failed, _) => ([buf, ⟨buf.unread, 0⟩], none)
      | (.closed, _) => ([buf, ⟨buf.unread, 0⟩], none) := by
  rw [readlnVisits, hnone]
  simp only [if_neg hroom]
  split <;> rename_i h <;> rw [h]

theorem readlnVisits_snd (sock : Sock) (buf : Buf) :
    (readlnVisits sock buf).2 = readln sock buf := by
  fun_induction readln sock buf with
  | case1 sock buf line hline => rw [readlnVisits, hline]
  | case2 sock buf hnone hfull =>
    rw [readlnVisits, hnone]
    simp [hfull]
  | case3 sock buf hnone hroom b sock' hrecv ih =>
    rw [readlnVisits_of_room hnone hroom, hrecv]
    exact ih
  | case4 sock buf hnone hroom sock' hrecv ih =>
    rw [readlnVisits_of_room hnone hroom, hrecv]
    exact ih
  | case5 sock buf hnone hroom sock' hrecv =>
    rw [readlnVisits_of_room hnone hroom, hrecv]
  | case6 sock buf hnone hroom sock' hrecv =>
    rw [readlnVisits_of_room hnone hroom, hrecv]

/-- The tests of `readln` find the buffer in bounds, and leave it so. -/
theorem readlnVisits_inBounds (sock : Sock) {buf : Buf} (hbuf : buf.InBounds) :
    (∀ b ∈ (readlnVisits sock buf).1, b.InBounds) ∧
      ∀ sock' buf', (readlnVisits sock buf).2 = some (sock', buf') → buf'.InBounds := by
  have hmoved {buf : Buf} (hbuf : buf.InBounds) : (Buf.mk buf.unread 0).InBounds :=
    inBounds_of_length hbuf.fits
  have htwo {buf : Buf} (hbuf : buf.InBounds) : ∀ b ∈ [buf, ⟨buf.unread, 0⟩], b.InBounds := by
    intro b hb
    rcases List.mem_cons.mp hb with rfl | hb
    · exact hbuf
    · rw [List.mem_singleton.mp hb]
      exact hmoved hbuf
  have hmore {buf : Buf} {bs : List Buf} (hbuf : buf.InBounds) (h : ∀ b ∈ bs, b.InBounds) :
      ∀ b ∈ buf :: ⟨buf.unread, 0⟩ :: bs, b.InBounds := by
    intro b hb
    rcases List.mem_append.mp (show b ∈ [buf, ⟨buf.unread, 0⟩] ++ bs from hb) with hb | hb
    · exact htwo hbuf b hb
    · exact h b hb
  fun_induction readlnVisits sock buf with
  | case1 sock buf line hline =>
    refine ⟨fun b hb => List.mem_singleton.mp hb ▸ hbuf, fun sock' buf' h => ?_⟩
    cases h
    exact hbuf
  | case2 sock buf hnone moved hfull => exact ⟨htwo hbuf, nofun⟩
  | case3 sock buf hnone moved hroom b sock' hrecv r ih =>
    have hspec := recv_spec (BUFSIZ - buf.unread.length) sock
    rw [hrecv] at hspec
    cases hspec with
    | bytes hpos hspace _ _ =>
      have hfits := hbuf.fits
      have hnext : (Buf.mk (buf.unread ++ b) 0).InBounds := by
        apply inBounds_of_length
        unfold Buf.Fits at hfits
        rw [List.length_append]
        omega
      exact ⟨hmore hbuf (ih hnext).1, (ih hnext).2⟩
  | case4 sock buf hnone moved hroom sock' hrecv r ih =>
    exact ⟨hmore hbuf (ih (hmoved hbuf)).1, (ih (hmoved hbuf)).2⟩
  | case5 sock buf hnone moved hroom sock' hrecv => exact ⟨htwo hbuf, nofun⟩
  | case6 sock buf hnone moved hroom sock' hrecv => exact ⟨htwo hbuf, nofun⟩

/-- How many bytes a call of `write` takes, of those offered, and what the later calls take. With
nothing left to say, a call takes everything. -/
def write (len : Nat) : List Nat → Nat × List Nat
  | [] => (len, [])
  | k :: ks => (max 1 (min k len), ks)

/-- Without a file, `len` stays as it is. -/
def writeTo (toFile : Bool) (len : Nat) (writes : List Nat) : Nat × List Nat :=
  if toFile then write len writes else (len, writes)

theorem writeTo_bounds {len : Nat} (hlen : 0 < len) (toFile : Bool) (writes : List Nat) :
    0 < (writeTo toFile len writes).1 ∧ (writeTo toFile len writes).1 ≤ len := by
  cases toFile with
  | false => exact ⟨hlen, Nat.le_refl len⟩
  | true =>
    cases writes with
    | nil => exact ⟨hlen, Nat.le_refl len⟩
    | cons k ks =>
      simp only [writeTo, write, if_true]
      omega

structure Copying where
  error : Int
  written : Bytes
  sock : Sock
  buf : Buf
  writes : List Nat
  visits : List Buf

/-- `copybytes`, to a file or not, with the buffers at the tests of its loop. -/
def copyVisits (toFile : Bool) (copylen : Nat) (sock : Sock) (buf : Buf) (writes : List Nat) :
    Copying :=
  if copylen = 0 then ⟨0, [], sock, buf, writes, [buf]⟩
  else
    let len := min copylen buf.unread.length
    if _hlen : 0 < len then
      let w := writeTo toFile len writes
      let r := copyVisits toFile (copylen - w.1) sock ⟨buf.bytes, buf.pos + w.1⟩ w.2
      { r with
        written := (if toFile then buf.unread.take w.1 else []) ++ r.written
        visits := buf :: r.visits }
    else
      match _h : recv BUFSIZ sock with
      | (.bytes b, sock') =>
        let r := copyVisits toFile copylen sock' ⟨b, 0⟩ writes
        { r with visits := buf :: r.visits }
      | (.eintr, sock') =>
        let r := copyVisits toFile copylen sock' buf writes
        { r with visits := buf :: r.visits }
      | (.failed, sock') => ⟨-1, [], sock', buf, writes, [buf]⟩
      | (.closed, sock') => ⟨-2, [], sock', buf, writes, [buf]⟩
termination_by (copylen, sock.size)
decreasing_by
  · have hw := writeTo_bounds _hlen toFile writes
    exact Prod.Lex.left _ _ (show copylen - (writeTo toFile len writes).1 < copylen by omega)
  · exact Prod.Lex.right _ (recv_bytes_size _h)
  · exact Prod.Lex.right _ (recv_eintr_size _h)

/-- What a copy of `n` bytes has done, whether or not the stream had that many. -/
structure CopiesTo (toFile : Bool) (n : Nat) (sock : Sock) (buf : Buf) (r : Copying) : Prop where
  written : r.written = if toFile then (stream sock buf).take n else []
  error_iff : r.error = 0 ↔ n ≤ (stream sock buf).length
  stream_eq : r.error = 0 → stream r.sock r.buf = (stream sock buf).drop n
  inBounds : buf.InBounds → r.buf.InBounds ∧ ∀ b ∈ r.visits, b.InBounds

theorem CopiesTo.ended {toFile : Bool} {n : Nat} {sock sock' : Sock} {buf : Buf} {error : Int}
    {writes : List Nat} (hn : n ≠ 0) (hempty : stream sock buf = []) (herror : error ≠ 0) :
    CopiesTo toFile n sock buf ⟨error, [], sock', buf, writes, [buf]⟩ where
  written := by rw [hempty, List.take_nil, ite_self]
  error_iff := by
    rw [hempty, List.length_nil]
    exact iff_of_false herror (by omega)
  stream_eq := fun h => absurd h herror
  inBounds := fun h => ⟨h, fun b hb => List.mem_singleton.mp hb ▸ h⟩

theorem CopiesTo.of_stream {toFile : Bool} {n : Nat} {sock sock' : Sock} {buf buf' : Buf}
    {r : Copying} (hstream : stream sock' buf' = stream sock buf)
    (hbuf : buf.InBounds → buf'.InBounds) (h : CopiesTo toFile n sock' buf' r) :
    CopiesTo toFile n sock buf { r with visits := buf :: r.visits } := by
  obtain ⟨hwritten, herror, hrest, hbounds⟩ := h
  rw [hstream] at hwritten herror hrest
  refine ⟨hwritten, herror, hrest, fun hb => ⟨(hbounds (hbuf hb)).1, ?_⟩⟩
  intro b hmem
  rcases List.mem_cons.mp hmem with rfl | hmem
  · exact hb
  · exact (hbounds (hbuf hb)).2 b hmem

/-- One write of `k` bytes, and what follows it. -/
theorem CopiesTo.of_write {toFile : Bool} {n k : Nat} {sock : Sock} {buf : Buf} {r : Copying}
    (hkn : k ≤ n) (hk : k ≤ buf.unread.length)
    (h : CopiesTo toFile (n - k) sock ⟨buf.bytes, buf.pos + k⟩ r) :
    CopiesTo toFile n sock buf
      { r with
        written := (if toFile then buf.unread.take k else []) ++ r.written
        visits := buf :: r.visits } := by
  have hunread : (Buf.mk buf.bytes (buf.pos + k)).unread = buf.unread.drop k := by
    rw [Buf.unread, Buf.unread, List.drop_drop]
  have hstream : stream sock ⟨buf.bytes, buf.pos + k⟩ = (stream sock buf).drop k := by
    rw [stream, stream, hunread, List.drop_append_of_le_length hk]
  have hlong : k ≤ (stream sock buf).length := by
    rw [stream, List.length_append]
    omega
  have hsum : n = k + (n - k) := by omega
  obtain ⟨hwritten, herror, hrest, hbounds⟩ := h
  rw [hstream] at hwritten herror hrest
  refine ⟨?_, ?_, ?_, fun hb => ?_⟩
  · show (if toFile then buf.unread.take k else []) ++ r.written = _
    rw [hwritten]
    cases toFile with
    | false => rfl
    | true =>
      simp only [if_true]
      rw [hsum, List.take_add, ← hsum, stream, List.take_append_of_le_length hk]
  · show r.error = 0 ↔ _
    rw [herror, List.length_drop]
    omega
  · intro hr
    show stream r.sock r.buf = _
    rw [hrest hr, List.drop_drop, ← hsum]
  · have hnext : (Buf.mk buf.bytes (buf.pos + k)).InBounds := by
      have hlen := hb.unread_length
      refine ⟨?_, hb.length⟩
      show buf.pos + k ≤ buf.bytes.length
      omega
    refine ⟨(hbounds hnext).1, ?_⟩
    intro b hmem
    rcases List.mem_cons.mp hmem with rfl | hmem
    · exact hb
    · exact (hbounds hnext).2 b hmem

theorem copyVisits_spec (toFile : Bool) (n : Nat) (sock : Sock) (buf : Buf) (writes : List Nat) :
    CopiesTo toFile n sock buf (copyVisits toFile n sock buf writes) := by
  fun_induction copyVisits toFile n sock buf writes with
  | case1 sock buf writes =>
    refine ⟨by simp, by simp, fun _ => rfl, fun h => ⟨h, ?_⟩⟩
    intro b hb
    rw [List.mem_singleton.mp hb]
    exact h
  | case2 n sock buf writes hn len hlen w r ih =>
    obtain ⟨hpos, hle⟩ : 0 < w.1 ∧ w.1 ≤ len := writeTo_bounds hlen toFile writes
    have hlenn : len ≤ n := Nat.min_le_left _ _
    have hlenbuf : len ≤ buf.unread.length := Nat.min_le_right _ _
    exact CopiesTo.of_write (hle.trans hlenn) (hle.trans hlenbuf) ih
  | case3 n sock buf writes hn len hlen b sock' hrecv r ih =>
    have hspec := recv_spec BUFSIZ sock
    rw [hrecv] at hspec
    cases hspec with
    | bytes hpos hspace hcontent _ =>
      have hempty : buf.unread = [] := List.length_eq_zero_iff.mp (by omega)
      refine CopiesTo.of_stream ?_ (fun _ => inBounds_of_length ?_) ih
      · rw [stream, stream, unread_moved, hempty, hcontent, List.nil_append]
      · unfold BUFSIZ at hspace ⊢
        omega
  | case4 n sock buf writes hn len hlen sock' hrecv r ih =>
    have hspec := recv_spec BUFSIZ sock
    rw [hrecv] at hspec
    cases hspec with
    | eintr hcontent _ =>
      exact CopiesTo.of_stream (by rw [stream, stream, hcontent]) (fun h => h) ih
  | case5 n sock buf writes hn len hlen sock' hrecv =>
    have hspec := recv_spec BUFSIZ sock
    rw [hrecv] at hspec
    cases hspec with
    | failed hcontent =>
      have hempty : buf.unread = [] := List.length_eq_zero_iff.mp (by omega)
      exact .ended hn (by rw [stream, hempty, hcontent, List.nil_append]) (by decide)
  | case6 n sock buf writes hn len hlen sock' hrecv =>
    have hspec := recv_spec BUFSIZ sock
    rw [hrecv] at hspec
    cases hspec with
    | closed hcontent =>
      have hempty : buf.unread = [] := List.length_eq_zero_iff.mp (by omega)
      exact .ended hn (by rw [stream, hempty, hcontent, List.nil_append]) (by decide)

theorem copyVisits_of_empty {toFile : Bool} {n : Nat} {sock : Sock} {buf : Buf} {writes : List Nat}
    (hn : n ≠ 0) (hlen : ¬ 0 < min n buf.unread.length) : copyVisits toFile n sock buf writes =
      match recv BUFSIZ sock with
      | (.bytes b, sock') =>
        let r := copyVisits toFile n sock' ⟨b, 0⟩ writes
        { r with visits := buf :: r.visits }
      | (.eintr, sock') =>
        let r := copyVisits toFile n sock' buf writes
        { r with visits := buf :: r.visits }
      | (.failed, sock') => ⟨-1, [], sock', buf, writes, [buf]⟩
      | (.closed, sock') => ⟨-2, [], sock', buf, writes, [buf]⟩ := by
  rw [copyVisits, if_neg hn, dif_neg hlen]
  split <;> rename_i h <;> rw [h]

/-- `copybytes` is the copy whose writes take everything. -/
theorem copyVisits_eq_copybytes (n : Nat) (sock : Sock) (buf : Buf) :
    let r := copyVisits true n sock buf []
    (⟨r.error, r.written, r.sock, r.buf⟩ : Copied) = copybytes n sock buf := by
  fun_induction copybytes n sock buf with
  | case1 sock buf =>
    rw [copyVisits]
    rfl
  | case2 n sock buf hn len hlen r ih =>
    rw [copyVisits, if_neg hn, dif_pos hlen]
    have hr : r = _ := ih.symm
    rw [hr]
    rfl
  | case3 n sock buf hn len hlen b sock' hrecv ih =>
    rw [copyVisits_of_empty hn hlen, hrecv]
    exact ih
  | case4 n sock buf hn len hlen sock' hrecv ih =>
    rw [copyVisits_of_empty hn hlen, hrecv]
    exact ih
  | case5 n sock buf hn len hlen sock' hrecv => rw [copyVisits_of_empty hn hlen, hrecv]
  | case6 n sock buf hn len hlen sock' hrecv => rw [copyVisits_of_empty hn hlen, hrecv]

inductive Op where
  | line
  | copy (toFile : Bool) (n : Nat)

/-- What an operation gives its caller: a line, the bytes written by a copy that succeeds, or
those written up to a failure. -/
inductive Outcome where
  | line (line : Bytes)
  | copied (written : Bytes)
  | died (written : Bytes)
  deriving DecidableEq

structure Input where
  sock : Sock
  buf : Buf
  writes : List Nat

/-- The operations one after the other, up to the first that fails, and the buffers in between. -/
def operations : List Op → Input → List Outcome × List Buf
  | [], c => ([], [c.buf])
  | .line :: ops, c =>
    let visits := (readlnVisits c.sock c.buf).1
    match readLine c.sock c.buf with
    | none => ([.died []], visits)
    | some (line, sock, buf) =>
      let rest := operations ops { c with sock := sock, buf := buf }
      (.line line :: rest.1, visits ++ rest.2)
  | .copy toFile n :: ops, c =>
    let r := copyVisits toFile n c.sock c.buf c.writes
    if r.error = 0 then
      let rest := operations ops ⟨r.sock, r.buf, r.writes⟩
      (.copied r.written :: rest.1, r.visits ++ rest.2)
    else ([.died r.written], r.visits)

/-- The outcomes as the stream alone decides them. -/
def outcomes : List Op → Bytes → List Outcome
  | [], _ => []
  | .line :: ops, s =>
    match lineOf s with
    | none => [.died []]
    | some line =>
      if line.length + 2 ≤ BUFSIZ then .line line :: outcomes ops (s.drop (line.length + 2))
      else [.died []]
  | .copy toFile n :: ops, s =>
    let written := if toFile then s.take n else []
    if n ≤ s.length then .copied written :: outcomes ops (s.drop n) else [.died written]

theorem readLine_inBounds {sock sock' : Sock} {buf buf' : Buf} {line : Bytes} (hbuf : buf.InBounds)
    (h : readLine sock buf = some (line, sock', buf')) : buf'.InBounds := by
  have hread := (readlnVisits_inBounds sock hbuf).2
  rw [readlnVisits_snd] at hread
  unfold readLine at h
  rcases hrd : readln sock buf with _ | ⟨sock₁, buf₁⟩
  · rw [hrd] at h
    cases h
  · rw [hrd] at h
    have hbuf₁ := hread sock₁ buf₁ hrd
    dsimp only at h
    split at h
    · cases h
    · rename_i line' hline
      cases h
      obtain ⟨_, _, rest, hsplit⟩ := of_lineOf hline
      have hlen := hbuf₁.unread_length
      rw [hsplit, List.length_append, List.length_cons, List.length_cons] at hlen
      refine ⟨?_, hbuf₁.length⟩
      show buf₁.pos + (line.length + 2) ≤ buf₁.bytes.length
      omega

theorem operations_spec (ops : List Op) (c : Input) (hbuf : c.buf.InBounds) :
    (operations ops c).1 = outcomes ops (stream c.sock c.buf) ∧
      ∀ b ∈ (operations ops c).2, b.InBounds := by
  induction ops generalizing c with
  | nil => exact ⟨rfl, fun b hb => List.mem_singleton.mp hb ▸ hbuf⟩
  | cons op ops ih =>
    cases op with
    | line =>
      have hvisits := (readlnVisits_inBounds c.sock hbuf).1
      have hspec := readLine_spec c.sock c.buf
      unfold operations outcomes
      rcases hread : readLine c.sock c.buf with _ | ⟨line, sock, buf⟩
      · rw [hread] at hspec
        refine ⟨?_, hvisits⟩
        cases hline : lineOf (stream c.sock c.buf) with
        | none => rfl
        | some line =>
          have hlong := hspec line hline
          exact (if_neg (by omega)).symm
      · rw [hread] at hspec
        obtain ⟨hstream, hnul, heol, hlen⟩ := hspec
        have hline : lineOf (stream c.sock c.buf) = some line := by
          rw [hstream]
          exact lineOf_append hnul heol _
        have hdrop : (stream c.sock c.buf).drop (line.length + 2) = stream sock buf := by
          rw [hstream, ← List.drop_drop, List.drop_left]
          rfl
        obtain ⟨hrest, hbounds⟩ := ih ⟨sock, buf, c.writes⟩ (readLine_inBounds hbuf hread)
        rw [hline]
        dsimp only
        rw [if_pos (hlen hbuf.fits).1, hdrop]
        refine ⟨congrArg (Outcome.line line :: ·) hrest, ?_⟩
        intro b hb
        rcases List.mem_append.mp hb with hb | hb
        · exact hvisits b hb
        · exact hbounds b hb
    | copy toFile n =>
      have hcopy := copyVisits_spec toFile n c.sock c.buf c.writes
      obtain ⟨hbuf', hvisits⟩ := hcopy.inBounds hbuf
      unfold operations outcomes
      dsimp only
      by_cases hok : (copyVisits toFile n c.sock c.buf c.writes).error = 0
      · obtain ⟨hrest, hbounds⟩ := ih ⟨_, _, (copyVisits toFile n c.sock c.buf c.writes).writes⟩ hbuf'
        rw [hcopy.stream_eq hok] at hrest
        rw [if_pos hok, if_pos (hcopy.error_iff.mp hok), ← hcopy.written]
        refine ⟨congrArg (Outcome.copied _ :: ·) hrest, ?_⟩
        intro b hb
        rcases List.mem_append.mp hb with hb | hb
        · exact hvisits b hb
        · exact hbounds b hb
      · rw [if_neg hok, if_neg (mt hcopy.error_iff.mpr hok), ← hcopy.written]
        exact ⟨rfl, hvisits⟩

/-- One way of cutting a stream into the results of `recv`, and the copies into writes. -/
structure Splitting (s : Bytes) where
  sock : Sock
  content : sock.content = s
  writes : List Nat

/-- The beginning of the connection: nothing is buffered. -/
def Splitting.start {s : Bytes} (a : Splitting s) : Input := ⟨a.sock, ⟨[], 0⟩, a.writes⟩

/-- Any two ways of cutting a stream give the same lines and copies and the same failure, if any,
and keep the buffer in bounds. -/
theorem segmentation_independent (s : Bytes) (ops : List Op) (a b : Splitting s) :
    (operations ops a.start).1 = (operations ops b.start).1 ∧
      ∀ buf ∈ (operations ops a.start).2, buf.InBounds := by
  have hspec (a : Splitting s) := operations_spec ops a.start (inBounds_of_length (Nat.zero_le _))
  have hstream (a : Splitting s) : stream a.start.sock a.start.buf = s := a.content
  refine ⟨?_, (hspec a).2⟩
  rw [(hspec a).1, (hspec b).1, hstream a, hstream b]

def lineAndTwo : Bytes := [97, CR, LF, 98, 99]

def inOnePiece : Splitting lineAndTwo := ⟨⟨[.bytes 97 [CR, LF, 98, 99]], false⟩, rfl, []⟩

/-- Byte by byte, with a signal between the two of the line's end. -/
def inPieces : Splitting lineAndTwo where
  sock := ⟨[.bytes 97 [], .bytes CR [], .eintr, .bytes LF [], .bytes 98 [], .bytes 99 []], true⟩
  content := rfl
  writes := [1, 1]

theorem pieces_agree :
    (operations [.line, .copy true 2] inOnePiece.start).1 =
        (operations [.line, .copy true 2] inPieces.start).1 ∧
      ∀ buf ∈ (operations [.line, .copy true 2] inOnePiece.start).2, buf.InBounds :=
  segmentation_independent _ [.line, .copy true 2] inOnePiece inPieces

end DeltaPorts.Phttpget

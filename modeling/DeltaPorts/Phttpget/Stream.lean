import Mathlib.Data.List.Infix

/-!
# The bytes of a connection

`readln` and `copybytes` of `phttpget.c` take bytes from one buffer and fill it by `recv`.
What the callers see of both is the stream: the unread bytes of the buffer and those that
are still to arrive, however they are cut.
-/

set_option autoImplicit false

namespace DeltaPorts.Phttpget

abbrev Bytes := List UInt8

def CR : UInt8 := 13
def LF : UInt8 := 10
def NUL : UInt8 := 0

/-- The size of `resbuf`. -/
def BUFSIZ : Nat := 1024

/-- A call of `recv` is interrupted, or some bytes arrive. -/
inductive Arrival where
  | eintr
  | bytes (first : UInt8) (more : Bytes)

/-- What arrives; after that `recv` fails, or returns 0 because the peer has closed. -/
structure Sock where
  arrivals : List Arrival
  fails : Bool

def Arrival.content : Arrival → Bytes
  | .eintr => []
  | .bytes first more => first :: more

/-- All that is still to arrive. -/
def Sock.content (sock : Sock) : Bytes := sock.arrivals.flatMap Arrival.content

def arrivalsSize : List Arrival → Nat
  | [] => 0
  | a :: rest => a.content.length + 1 + arrivalsSize rest

/-- Each call of `recv` makes this smaller. -/
def Sock.size (sock : Sock) : Nat := arrivalsSize sock.arrivals

inductive Received where
  | bytes (b : Bytes)
  | eintr
  | failed
  | closed

/-- What does not fit into the space of the call arrives at the next. -/
def recv (space : Nat) (sock : Sock) : Received × Sock :=
  match sock.arrivals with
  | [] => (if sock.fails then .failed else .closed, sock)
  | .eintr :: rest => (.eintr, { sock with arrivals := rest })
  | .bytes first more :: rest =>
    match more.drop (space - 1) with
    | [] => (.bytes (first :: more), { sock with arrivals := rest })
    | next :: left =>
      (.bytes (first :: more.take (space - 1)), { sock with arrivals := .bytes next left :: rest })

/-- One call of `recv`. -/
inductive Recv (space : Nat) (sock : Sock) : Received × Sock → Prop where
  | bytes {b : Bytes} {sock' : Sock} : 0 < b.length → b.length ≤ max 1 space →
      sock.content = b ++ sock'.content → sock'.size < sock.size → Recv space sock (.bytes b, sock')
  | eintr {sock' : Sock} : sock.content = sock'.content → sock'.size < sock.size →
      Recv space sock (.eintr, sock')
  | failed {sock' : Sock} : sock.content = [] → Recv space sock (.failed, sock')
  | closed {sock' : Sock} : sock.content = [] → Recv space sock (.closed, sock')

theorem recv_spec (space : Nat) (sock : Sock) :
    Recv space sock (recv space sock) := by
  obtain ⟨arrivals, fails⟩ := sock
  unfold recv
  match arrivals with
  | [] =>
    cases fails with
    | false => exact .closed rfl
    | true => exact .failed rfl
  | .eintr :: rest =>
    refine .eintr (by simp [Sock.content, Arrival.content]) ?_
    simp only [Sock.size, arrivalsSize, Arrival.content, List.length_nil]
    omega
  | .bytes first more :: rest =>
    dsimp only
    split
    · next hdrop =>
      have hfits : more.length ≤ space - 1 := List.drop_eq_nil_iff.mp hdrop
      refine .bytes (by simp) (by simp only [List.length_cons]; omega) ?_ ?_
      · simp [Sock.content, Arrival.content]
      · simp only [Sock.size, arrivalsSize]
        omega
    · next next left hdrop =>
      have hlen : (more.drop (space - 1)).length = left.length + 1 := by
        rw [hdrop, List.length_cons]
      rw [List.length_drop] at hlen
      refine .bytes (by simp) (by simp only [List.length_cons, List.length_take]; omega) ?_ ?_
      · have hmore : more = more.take (space - 1) ++ next :: left := by
          rw [← hdrop, List.take_append_drop]
        simp only [Sock.content, List.flatMap_cons, Arrival.content]
        rw [List.cons_append, List.cons_append, ← List.append_assoc, ← hmore]
      · simp only [Sock.size, arrivalsSize, Arrival.content, List.length_cons]
        omega

theorem recv_bytes_size {space : Nat} {sock sock' : Sock} {b : Bytes}
    (h : recv space sock = (.bytes b, sock')) : sock'.size < sock.size := by
  have hrecv := recv_spec space sock
  rw [h] at hrecv
  cases hrecv with
  | bytes _ _ _ hsize => exact hsize

theorem recv_eintr_size {space : Nat} {sock sock' : Sock}
    (h : recv space sock = (.eintr, sock')) : sock'.size < sock.size := by
  have hrecv := recv_spec space sock
  rw [h] at hrecv
  cases hrecv with
  | eintr _ hsize => exact hsize

/-- The first `resbuflen` bytes of `resbuf`, and `resbufpos`. -/
structure Buf where
  bytes : Bytes
  pos : Nat

def Buf.unread (buf : Buf) : Bytes := buf.bytes.drop buf.pos

/-- The unread bytes of the buffer and those that are still to arrive. -/
def stream (sock : Sock) (buf : Buf) : Bytes := buf.unread ++ sock.content

/-- The line before the first CRLF, as `strnstr` finds it: it looks no further than a NUL. -/
def lineOf : Bytes → Option Bytes
  | [] => none
  | c :: rest =>
    if c = NUL then none
    else if c = CR ∧ rest.head? = some LF then some []
    else (lineOf rest).map fun line => c :: line

theorem lineOf_append {line : Bytes} (hnul : NUL ∉ line) (heol : ¬ [CR, LF] <:+: line)
    (rest : Bytes) : lineOf (line ++ CR :: LF :: rest) = some line := by
  induction line with
  | nil => rfl
  | cons c line ih =>
    have hc : c ≠ NUL := fun h => hnul (h ▸ List.mem_cons_self)
    have hnot : ¬ (c = CR ∧ (line ++ CR :: LF :: rest).head? = some LF) := by
      rintro ⟨rfl, hhead⟩
      cases line with
      | nil => cases hhead
      | cons d line =>
        cases hhead
        exact heol ⟨[], line, rfl⟩
    have hrest := ih (fun h => hnul (List.mem_cons_of_mem c h))
      fun h => heol (h.trans (List.suffix_cons c line).isInfix)
    rw [List.cons_append, lineOf, if_neg hc, if_neg hnot, hrest, Option.map_some]

theorem of_lineOf {s line : Bytes} (h : lineOf s = some line) :
    NUL ∉ line ∧ ¬ [CR, LF] <:+: line ∧ ∃ rest, s = line ++ CR :: LF :: rest := by
  induction s generalizing line with
  | nil => cases h
  | cons c s ih =>
    unfold lineOf at h
    split at h
    · cases h
    · next hc =>
      split at h
      · next heol =>
        cases h
        obtain ⟨rfl, hhead⟩ := heol
        obtain ⟨rest, rfl⟩ := List.head?_eq_some_iff.mp hhead
        exact ⟨List.not_mem_nil, by simp, rest, rfl⟩
      · next hnot =>
        obtain ⟨line', hline', rfl⟩ := Option.map_eq_some_iff.mp h
        obtain ⟨hnul, heol, rest, rfl⟩ := ih hline'
        refine ⟨?_, ?_, rest, rfl⟩
        · exact List.not_mem_cons_of_ne_of_not_mem (Ne.symm hc) hnul
        · intro hinfix
          rcases List.infix_cons_iff.mp hinfix with hpre | hinfix
          · obtain ⟨hcr, tail, rfl⟩ := List.cons_prefix_cons.mp hpre
            exact hnot ⟨hcr.symm, rfl⟩
          · exact heol hinfix

/-- A line that the first bytes hold is the line of all of them. -/
theorem lineOf_of_append {a b line : Bytes} (h : lineOf (a ++ b) = some line)
    (hlen : line.length + 2 ≤ a.length) : lineOf a = some line := by
  obtain ⟨hnul, heol, rest, hsplit⟩ := of_lineOf h
  have hpre : line ++ [CR, LF] <+: a := by
    refine List.prefix_of_prefix_length_le ?_ (List.prefix_append a b) (by simpa using hlen)
    rw [hsplit]
    exact ⟨rest, by simp⟩
  obtain ⟨rest', rfl⟩ := hpre
  rw [List.append_assoc]
  exact lineOf_append hnul heol rest'

def readln (sock : Sock) (buf : Buf) : Option (Sock × Buf) :=
  match lineOf buf.unread with
  | some _ => some (sock, buf)
  | none =>
    -- the buffered data is moved to the start of the buffer
    if buf.unread.length = BUFSIZ then none
    else
      match _h : recv (BUFSIZ - buf.unread.length) sock with
      | (.bytes b, sock') => readln sock' ⟨buf.unread ++ b, 0⟩
      | (.eintr, sock') => readln sock' ⟨buf.unread, 0⟩
      | (.failed, _) => none
      | (.closed, _) => none
termination_by sock.size
decreasing_by
  · exact recv_bytes_size _h
  · exact recv_eintr_size _h

/-- The unread bytes are no more than the buffer holds. -/
def Buf.Fits (buf : Buf) : Prop := buf.unread.length ≤ BUFSIZ

instance (buf : Buf) : Decidable buf.Fits := Nat.decLe _ _

theorem unread_moved (b : Bytes) : (Buf.mk b 0).unread = b := rfl

theorem readln_spec (sock : Sock) (buf : Buf) :
    match readln sock buf with
    | some (sock', buf') => stream sock' buf' = stream sock buf ∧ (buf.Fits → buf'.Fits) ∧
        lineOf buf'.unread ≠ none
    | none => ∀ line, lineOf (stream sock buf) = some line → BUFSIZ < line.length + 2 := by
  fun_induction readln sock buf with
  | case1 sock buf line hline => exact ⟨rfl, fun h => h, by simp [hline]⟩
  | case2 sock buf hnone hfull =>
    intro line hline
    by_contra hlen
    have hshort : line.length + 2 ≤ buf.unread.length := by omega
    rw [lineOf_of_append hline hshort] at hnone
    cases hnone
  | case3 sock buf hnone hfull b sock' hrecv ih =>
    have hspec := recv_spec (BUFSIZ - buf.unread.length) sock
    rw [hrecv] at hspec
    cases hspec with
    | bytes hpos hspace hcontent _ =>
      have hfits : buf.Fits → (Buf.mk (buf.unread ++ b) 0).Fits := by
        unfold Buf.Fits
        rw [unread_moved, List.length_append]
        omega
      have hstream : stream sock' ⟨buf.unread ++ b, 0⟩ = stream sock buf := by
        simp only [stream, unread_moved, hcontent, List.append_assoc]
      rw [hstream] at ih
      split at ih
      · exact ⟨ih.1, fun h => ih.2.1 (hfits h), ih.2.2⟩
      · exact ih
  | case4 sock buf hnone hfull sock' hrecv ih =>
    have hspec := recv_spec (BUFSIZ - buf.unread.length) sock
    rw [hrecv] at hspec
    cases hspec with
    | eintr hcontent _ =>
      have hstream : stream sock' ⟨buf.unread, 0⟩ = stream sock buf := by
        simp only [stream, unread_moved, hcontent]
      rwa [hstream] at ih
  | case5 sock buf hnone hfull sock' hrecv =>
    have hspec := recv_spec (BUFSIZ - buf.unread.length) sock
    rw [hrecv] at hspec
    cases hspec with
    | failed hcontent =>
      intro line hline
      rw [stream, hcontent, List.append_nil, hnone] at hline
      cases hline
  | case6 sock buf hnone hfull sock' hrecv =>
    have hspec := recv_spec (BUFSIZ - buf.unread.length) sock
    rw [hrecv] at hspec
    cases hspec with
    | closed hcontent =>
      intro line hline
      rw [stream, hcontent, List.append_nil, hnone] at hline
      cases hline

/-- What `copybytes` returns, and the bytes it has written to the file. -/
structure Copied where
  error : Int
  written : Bytes
  sock : Sock
  buf : Buf

def copybytes (copylen : Nat) (sock : Sock) (buf : Buf) : Copied :=
  if copylen = 0 then ⟨0, [], sock, buf⟩
  else
    let len := min copylen buf.unread.length
    if 0 < len then
      let r := copybytes (copylen - len) sock ⟨buf.bytes, buf.pos + len⟩
      ⟨r.error, buf.unread.take len ++ r.written, r.sock, r.buf⟩
    else
      match _h : recv BUFSIZ sock with
      | (.bytes b, sock') => copybytes copylen sock' ⟨b, 0⟩
      | (.eintr, sock') => copybytes copylen sock' buf
      | (.failed, sock') => ⟨-1, [], sock', buf⟩
      | (.closed, sock') => ⟨-2, [], sock', buf⟩
termination_by (copylen, sock.size)
decreasing_by
  · omega
  · exact Prod.Lex.right _ (recv_bytes_size _h)
  · exact Prod.Lex.right _ (recv_eintr_size _h)

/-- What `copybytes` of `n` bytes has done, whether or not the stream had that many. -/
structure Copies (n : Nat) (sock : Sock) (buf : Buf) (r : Copied) : Prop where
  written : r.written = (stream sock buf).take n
  error_iff : r.error = 0 ↔ n ≤ (stream sock buf).length
  stream_eq : r.error = 0 → stream r.sock r.buf = (stream sock buf).drop n
  fits : buf.Fits → r.buf.Fits

theorem Copies.ended {n : Nat} {sock sock' : Sock} {buf : Buf} {error : Int}
    (hn : n ≠ 0) (hempty : stream sock buf = []) (herror : error ≠ 0) :
    Copies n sock buf ⟨error, [], sock', buf⟩ where
  written := by rw [hempty, List.take_nil]
  error_iff := by
    rw [hempty, List.length_nil]
    exact iff_of_false herror (by omega)
  stream_eq := fun h => absurd h herror
  fits := fun h => h

theorem Copies.of_stream {n : Nat} {sock sock' : Sock} {buf buf' : Buf} {r : Copied}
    (hstream : stream sock' buf' = stream sock buf) (hfits : buf.Fits → buf'.Fits)
    (h : Copies n sock' buf' r) : Copies n sock buf r := by
  obtain ⟨hwritten, herror, hrest, hlast⟩ := h
  rw [hstream] at hwritten herror hrest
  exact ⟨hwritten, herror, hrest, fun h => hlast (hfits h)⟩

/-- What is copied out of the buffer first, and then the rest. -/
theorem Copies.of_buffer {n len : Nat} {sock : Sock} {buf : Buf} {r : Copied} (hn : len ≤ n)
    (hle : len ≤ buf.unread.length) (h : Copies (n - len) sock ⟨buf.bytes, buf.pos + len⟩ r) :
    Copies n sock buf ⟨r.error, buf.unread.take len ++ r.written, r.sock, r.buf⟩ := by
  have hunread : (Buf.mk buf.bytes (buf.pos + len)).unread = buf.unread.drop len := by
    rw [Buf.unread, Buf.unread, List.drop_drop]
  have hstream : stream sock ⟨buf.bytes, buf.pos + len⟩ = (stream sock buf).drop len := by
    rw [stream, stream, hunread, List.drop_append_of_le_length hle]
  have hfits : buf.Fits → (Buf.mk buf.bytes (buf.pos + len)).Fits := by
    unfold Buf.Fits
    rw [hunread, List.length_drop]
    omega
  obtain ⟨hwritten, herror, hrest, hlast⟩ := h
  rw [hstream] at hwritten herror hrest
  have hsum : n = len + (n - len) := by omega
  refine ⟨?_, ?_, ?_, fun h => hlast (hfits h)⟩
  · rw [hwritten, hsum, List.take_add, ← hsum, stream, List.take_append_of_le_length hle]
  · rw [herror, List.length_drop]
    have hlong : len ≤ (stream sock buf).length := by
      rw [stream, List.length_append]
      omega
    omega
  · intro hr
    rw [hrest hr, List.drop_drop, ← hsum]

theorem copybytes_spec (n : Nat) (sock : Sock) (buf : Buf) :
    Copies n sock buf (copybytes n sock buf) := by
  fun_induction copybytes n sock buf with
  | case1 sock buf => exact ⟨by simp, by simp, fun _ => rfl, fun h => h⟩
  | case2 n sock buf hn len hlen r ih =>
    exact ih.of_buffer (Nat.min_le_left _ _) (Nat.min_le_right _ _)
  | case3 n sock buf hn len hlen b sock' hrecv ih =>
    have hspec := recv_spec BUFSIZ sock
    rw [hrecv] at hspec
    cases hspec with
    | bytes hpos hspace hcontent _ =>
      have hempty : buf.unread = [] := List.length_eq_zero_iff.mp (by omega)
      have hstream : stream sock' ⟨b, 0⟩ = stream sock buf := by
        rw [stream, stream, unread_moved, hempty, hcontent, List.nil_append]
      refine Copies.of_stream hstream (fun _ => ?_) ih
      unfold Buf.Fits
      rw [unread_moved]
      unfold BUFSIZ at hspace ⊢
      omega
  | case4 n sock buf hn len hlen sock' hrecv ih =>
    have hspec := recv_spec BUFSIZ sock
    rw [hrecv] at hspec
    cases hspec with
    | eintr hcontent _ =>
      have hstream : stream sock' buf = stream sock buf := by rw [stream, stream, hcontent]
      exact Copies.of_stream hstream (fun h => h) ih
  | case5 n sock buf hn len hlen sock' hrecv =>
    have hspec := recv_spec BUFSIZ sock
    rw [hrecv] at hspec
    cases hspec with
    | failed hcontent =>
      have hempty : buf.unread = [] := List.length_eq_zero_iff.mp (by omega)
      exact .ended hn (by rw [stream, hempty, hcontent, List.nil_append]) (by decide)
  | case6 n sock buf hn len hlen sock' hrecv =>
    have hspec := recv_spec BUFSIZ sock
    rw [hrecv] at hspec
    cases hspec with
    | closed hcontent =>
      have hempty : buf.unread = [] := List.length_eq_zero_iff.mp (by omega)
      exact .ended hn (by rw [stream, hempty, hcontent, List.nil_append]) (by decide)

/-- `readln`, the `strnstr` after it, and `resbufpos` set past the CRLF. -/
def readLine (sock : Sock) (buf : Buf) : Option (Bytes × Sock × Buf) :=
  match readln sock buf with
  | none => none
  | some (sock, buf) =>
    match lineOf buf.unread with
    | none => none
    | some line => some (line, sock, ⟨buf.bytes, buf.pos + (line.length + 2)⟩)

theorem readLine_spec (sock : Sock) (buf : Buf) :
    match readLine sock buf with
    | some (line, sock', buf') => stream sock buf = line ++ CR :: LF :: stream sock' buf' ∧
        NUL ∉ line ∧ ¬ [CR, LF] <:+: line ∧ (buf.Fits → line.length + 2 ≤ BUFSIZ ∧ buf'.Fits)
    | none => ∀ line, lineOf (stream sock buf) = some line → BUFSIZ < line.length + 2 := by
  have hread := readln_spec sock buf
  unfold readLine
  rcases hrd : readln sock buf with _ | ⟨sock', buf'⟩
  · rw [hrd] at hread
    exact hread
  · rw [hrd] at hread
    obtain ⟨hstream, hfits', hline⟩ := hread
    dsimp only
    cases hl : lineOf buf'.unread with
    | none => exact absurd hl hline
    | some line =>
      obtain ⟨hnul, heol, rest, hsplit⟩ := of_lineOf hl
      have hunread : (Buf.mk buf'.bytes (buf'.pos + (line.length + 2))).unread = rest := by
        rw [Buf.unread, ← List.drop_drop]
        change buf'.unread.drop (line.length + 2) = rest
        rw [hsplit, ← List.drop_drop, List.drop_left]
        rfl
      refine ⟨?_, hnul, heol, fun hfits => ?_⟩
      · rw [← hstream, stream, stream, hunread, hsplit, List.append_assoc]
        rfl
      · have hlen := hfits' hfits
        unfold Buf.Fits at hlen ⊢
        rw [hsplit, List.length_append, List.length_cons, List.length_cons] at hlen
        rw [hunread]
        omega

/-- A line that `readln` finds. -/
def LineFits (line : Bytes) : Prop := NUL ∉ line ∧ line.length + 2 ≤ BUFSIZ

theorem line_unique {l l' r r' : Bytes} (hl : ¬ [CR, LF] <:+: l) (hl' : ¬ [CR, LF] <:+: l')
    (h : l ++ CR :: LF :: r = l' ++ CR :: LF :: r') : l = l' ∧ r = r' := by
  -- what one of the lines has more would have to begin in the line end of the other
  have hshorter {l l' r r' : Bytes} (hl' : ¬ [CR, LF] <:+: l')
      (h : l ++ CR :: LF :: r = l' ++ CR :: LF :: r') (hlen : l.length ≤ l'.length) : l = l' := by
    obtain ⟨x, rfl⟩ := List.prefix_of_prefix_length_le (List.prefix_append l _)
      (h ▸ List.prefix_append l' _) hlen
    rw [List.append_assoc] at h
    have hx := List.append_cancel_left h
    match x with
    | [] => simp
    | [a] =>
      have hlf : LF = CR := by simpa using (List.cons.inj (List.cons.inj hx).2).1
      cases hlf
    | a :: b :: x =>
      have ha : CR = a := (List.cons.inj hx).1
      have hb : LF = b := (List.cons.inj (List.cons.inj hx).2).1
      exact absurd ⟨l, x, by simp [ha, hb]⟩ hl'
  have heq : l = l' := by
    rcases Nat.le_total l.length l'.length with hlen | hlen
    · exact hshorter hl' h hlen
    · exact (hshorter hl h.symm hlen).symm
  subst heq
  exact ⟨rfl, by simpa using List.append_cancel_left h⟩

/-- The line that comes next is read exactly when it fits. -/
theorem readLine_append {sock : Sock} {buf : Buf} {line rest : Bytes} (hfits : buf.Fits)
    (heol : ¬ [CR, LF] <:+: line) (hstream : stream sock buf = line ++ CR :: LF :: rest) :
    (LineFits line → ∃ sock' buf', readLine sock buf = some (line, sock', buf') ∧
      stream sock' buf' = rest ∧ buf'.Fits) ∧
    (¬ LineFits line → readLine sock buf = none) := by
  have hspec := readLine_spec sock buf
  rcases hread : readLine sock buf with _ | ⟨line', sock', buf'⟩
  · rw [hread] at hspec
    refine ⟨fun hline => ?_, fun _ => rfl⟩
    have hfound : lineOf (stream sock buf) = some line := by
      rw [hstream]
      exact lineOf_append hline.1 heol rest
    exact absurd (hspec line hfound) (Nat.not_lt.mpr hline.2)
  · rw [hread] at hspec
    obtain ⟨hsplit, hnul, heol', hlast⟩ := hspec
    rw [hstream] at hsplit
    obtain ⟨rfl, rfl⟩ := line_unique heol heol' hsplit
    refine ⟨fun _ => ⟨sock', buf', rfl, rfl, (hlast hfits).2⟩, fun hnot => ?_⟩
    exact absurd ⟨hnul, (hlast hfits).1⟩ hnot

end DeltaPorts.Phttpget

import DeltaPorts.Phttpget.Chunked

/-!
# Response headers

The loop of `main` that reads header lines, and well-formed responses whose bodies are
delimited by `Content-Length`.
-/

set_option autoImplicit false

namespace DeltaPorts.Phttpget

def ascii (s : String) : Bytes := s.toList.map fun c => c.toNat.toUInt8

/-- `tolower` of the C locale. -/
def lower (c : UInt8) : UInt8 := if 65 ≤ c ∧ c ≤ 90 then c + 32 else c

def isdigit (c : UInt8) : Bool := decide (48 ≤ c ∧ c ≤ 57)

def digitValue (c : UInt8) : Nat := c.toNat - 48

/-- `strncasecmp(hln, name, strlen(name)) == 0`. -/
def hasName (name hln : Bytes) : Bool := (hln.take name.length).map lower == name.map lower

/-- `strcasestr(hln, word) != NULL`. -/
def mentions (hln word : Bytes) : Bool :=
  (hln.map lower).tails.any fun t => (word.map lower).isPrefixOf t

/-- The variables of `main` that the header lines set. -/
structure Head where
  statuscode : Nat
  contentlength : Option Nat
  chunked : Bool
  keepalive : Bool
  pipelined : Bool

inductive LineResult where
  | died
  | more (head : Head)
  | done (head : Head)

/-- The digits of a status code or a length. -/
def number (value : Nat) : Bytes → Nat
  | [] => value
  | c :: hln => if isdigit c then number (value * 10 + digitValue c) hln else value

/-- The digits of a length; `none` where it could overflow. -/
def lengthNumber (contentlength : Nat) : Bytes → Option Nat
  | [] => some contentlength
  | c :: hln =>
    if isdigit c then
      if OFF_MAX / 10 ≤ contentlength then none
      else lengthNumber (contentlength * 10 + digitValue c) hln
    else some contentlength

/-- The first line must be `HTTP/1.x xxx ...`. -/
def statusLine (head : Head) (hln : Bytes) : LineResult :=
  if hln.take 7 ≠ ascii "HTTP/1." then .died
  else
    match hln.drop 7 with
    | [] => .died
    | minor :: _ =>
      if isdigit minor = false then .died
      else
        match (hln.drop 7).dropWhile fun c => c != 32 with
        | [] => .died
        | _ :: code =>
          let statuscode := number 0 code
          if statuscode < 100 ∨ 599 < statuscode then .died
          else .more { head with
            statuscode := statuscode
            pipelined := head.pipelined || minor != 48 }

/-- One round of the loop over the header lines. -/
def headerLine (head : Head) (hln : Bytes) : LineResult :=
  if NUL ∈ hln then .died
  else if head.statuscode = 0 then statusLine head hln
  else if hasName (ascii "Connection:") hln then
    let value := hln.drop 11
    .more { head with
      pipelined := head.pipelined && !mentions value (ascii "close")
      keepalive := head.keepalive || mentions value (ascii "Keep-Alive") }
  else if hasName (ascii "Content-Length:") hln then
    match lengthNumber 0 ((hln.drop 15).dropWhile fun c => !isdigit c) with
    | none => .died
    | some n => .more { head with contentlength := some n }
  else if hasName (ascii "Transfer-Encoding:") hln then
    .more { head with chunked := head.chunked || mentions (hln.drop 18) (ascii "chunked") }
  else if hln = [] then
    if 100 ≤ head.statuscode ∧ head.statuscode ≤ 199 then .more { head with statuscode := 0 }
    else .done head
  else .more head

/-- The loop; `none` where the connection died. -/
def readHeaders (sock : Sock) (buf : Buf) (head : Head) : Option (Head × Sock × Buf) :=
  match _h : readLine sock buf with
  | none => none
  | some (hln, sock', buf') =>
    match headerLine head hln with
    | .died => none
    | .more head' => readHeaders sock' buf' head'
    | .done head' => some (head', sock', buf')
termination_by (stream sock buf).length
decreasing_by exact readLine_length _h

/-- The body: chunked, of a known length, or up to the end of the connection. -/
def readBody (head : Head) (sock : Sock) (buf : Buf) : Entity :=
  if head.chunked then readChunked sock buf
  else
    match head.contentlength with
    | some n =>
      let r := copybytes n sock buf
      ⟨decide (r.error = 0), r.written, r.sock, r.buf⟩
    | none =>
      let r := copybytes OFF_MAX sock buf
      ⟨decide (r.error ≠ -1), r.written, r.sock, r.buf⟩

/-- A body without a length ends the pipelining. -/
def pipelinedAfter (head : Head) : Bool :=
  head.pipelined && (head.chunked || head.contentlength.isSome)

/-- A header field, `name:value`. -/
structure Field where
  name : Bytes
  value : Bytes
  noColon : 58 ∉ name
  oneLine : ¬ [CR, LF] <:+: name ++ 58 :: value

def Field.line (f : Field) : Bytes := f.name ++ 58 :: f.value

def Field.isNamed (f : Field) (name : String) : Prop := f.name.map lower = (ascii name).map lower

/-- Blanks and the digits of `n` between them. -/
def Field.IsLength (f : Field) (n : Nat) : Prop :=
  ∃ before digits after, f.value = before ++ digits ++ after ∧ (∀ c ∈ before ++ after, c = 32 ∨ c = 9) ∧
    (∀ c ∈ digits, isdigit c = true) ∧ digits ≠ [] ∧ number 0 digits = n

/-- A status line and header fields. -/
structure Block where
  minor : UInt8
  code : Bytes
  reason : Bytes
  fields : List Field
  minor_digit : isdigit minor = true
  code_digits : ∀ c ∈ code, isdigit c = true
  reason_head : ∀ c ∈ reason.head?, isdigit c = false
  oneLine : ¬ [CR, LF] <:+: ascii "HTTP/1." ++ minor :: 32 :: (code ++ reason)
  noEncoding : ∀ f ∈ fields, ¬ f.isNamed "Transfer-Encoding"

def Block.status (b : Block) : Nat := number 0 b.code

def Block.statusLine (b : Block) : Bytes := ascii "HTTP/1." ++ b.minor :: 32 :: (b.code ++ b.reason)

def Block.lines (b : Block) : List Bytes := b.statusLine :: b.fields.map Field.line

def Block.encode (b : Block) : Bytes := b.lines.flatMap (fun l => l ++ [CR, LF]) ++ [CR, LF]

/-- Interim blocks, and a final one with a body of the length its fields say; statuses 204
and 304 have no body. -/
structure Response where
  interim : List Block
  final : Block
  body : Bytes
  interim_status : ∀ b ∈ interim, 100 ≤ b.status ∧ b.status ≤ 199
  final_status : 200 ≤ final.status ∧ final.status ≤ 599
  noBody : final.status = 204 ∨ final.status = 304 → body = []
  delimited : ¬ (final.status = 204 ∨ final.status = 304) →
    ∃ f ∈ final.fields, f.isNamed "Content-Length"
  lengths : ¬ (final.status = 204 ∨ final.status = 304) →
    ∀ f ∈ final.fields, f.isNamed "Content-Length" → f.IsLength body.length

def Response.header (r : Response) : Bytes := r.interim.flatMap Block.encode ++ r.final.encode

def Response.encode (r : Response) : Bytes := r.header ++ r.body

/-- "a", with its length. -/
example : ∃ r : Response, r.final.status = 200 ∧
    r.encode = ascii "HTTP/1.1 200 OK\r\nContent-Length: 1\r\n\r\na" := by
  have hdigits : ∀ c ∈ ascii "200", isdigit c = true := List.all_eq_true.mp rfl
  let length : Field := ⟨ascii "Content-Length", ascii " 1", by decide, by decide⟩
  let final : Block := ⟨49, ascii "200", ascii " OK", [length], rfl, hdigits,
    by rintro c ⟨⟩; rfl, by decide, by rintro f (_ | ⟨_, ⟨⟩⟩); unfold Field.isNamed; decide⟩
  have hstatus : final.status = 200 := rfl
  refine ⟨⟨[], final, [97], by simp, by omega, fun h => by omega, ?_, ?_⟩, hstatus, rfl⟩
  · exact fun _ => ⟨length, List.mem_singleton_self length, rfl⟩
  · rintro _ f (_ | ⟨_, ⟨⟩⟩) _
    refine ⟨[32], [49], [], rfl, ?_, ?_, by simp, rfl⟩
    · exact fun c hc => .inl (List.mem_singleton.mp hc)
    · exact fun c hc => List.mem_singleton.mp hc ▸ rfl

theorem lower_eq_colon {c : UInt8} (h : lower c = 58) : c = 58 := by
  unfold lower at h
  split at h
  · next hc =>
    have hlow := UInt8.le_iff_toNat_le.mp hc.1
    have hhigh := UInt8.le_iff_toNat_le.mp hc.2
    have hsum := congrArg UInt8.toNat h
    simp only [UInt8.toNat_add, UInt8.reduceToNat] at hlow hhigh hsum
    omega
  · exact h

theorem colon_not_mem_lower {l : Bytes} (h : 58 ∉ l) : 58 ∉ l.map lower := by
  intro hmem
  obtain ⟨c, hc, hlower⟩ := List.mem_map.mp hmem
  exact h (lower_eq_colon hlower ▸ hc)

theorem before_unique {c : UInt8} {l l' r r' : Bytes} (hl : c ∉ l) (hl' : c ∉ l')
    (h : l ++ c :: r = l' ++ c :: r') : l = l' := by
  induction l generalizing l' with
  | nil =>
    cases l' with
    | nil => rfl
    | cons d l' => exact absurd ((List.cons.inj h).1 ▸ List.mem_cons_self) hl'
  | cons e l ih =>
    cases l' with
    | nil => exact absurd ((List.cons.inj h).1 ▸ List.mem_cons_self) hl
    | cons d l' =>
      obtain ⟨rfl, hrest⟩ := List.cons.inj h
      rw [ih (fun hmem => hl (List.mem_cons_of_mem e hmem))
        (fun hmem => hl' (List.mem_cons_of_mem e hmem)) hrest]

theorem hasName_line (f : Field) {name : Bytes} (hname : 58 ∉ name) :
    hasName (name ++ [58]) f.line = true ↔ f.name.map lower = name.map lower := by
  unfold hasName Field.line
  rw [beq_iff_eq, List.length_append, List.length_singleton, List.map_append]
  constructor
  · intro h
    have hsplit : f.name.map lower ++ 58 :: f.value.map lower = name.map lower ++
        58 :: ((f.name ++ 58 :: f.value).drop (name.length + 1)).map lower :=
      calc f.name.map lower ++ 58 :: f.value.map lower
          = (f.name ++ 58 :: f.value).map lower := by rw [List.map_append]; rfl
        _ = name.map lower ++ [58].map lower ++
            ((f.name ++ 58 :: f.value).drop (name.length + 1)).map lower := by
          rw [← h, ← List.map_append, List.take_append_drop]
        _ = _ := by rw [List.append_assoc]; rfl
    exact before_unique (colon_not_mem_lower f.noColon) (colon_not_mem_lower hname) hsplit
  · intro h
    have hlen : name.length = f.name.length := by
      rw [← List.length_map lower, ← h, List.length_map]
    rw [hlen, List.take_append, ← h]
    simp

theorem hasName_connection (f : Field) : hasName (ascii "Connection:") f.line = true ↔
    f.isNamed "Connection" :=
  @hasName_line f (ascii "Connection") (by decide)

theorem hasName_contentLength (f : Field) : hasName (ascii "Content-Length:") f.line = true ↔
    f.isNamed "Content-Length" :=
  @hasName_line f (ascii "Content-Length") (by decide)

theorem hasName_transferEncoding (f : Field) : hasName (ascii "Transfer-Encoding:") f.line = true ↔
    f.isNamed "Transfer-Encoding" :=
  @hasName_line f (ascii "Transfer-Encoding") (by decide)

theorem number_digits {digits rest : Bytes} (hdigits : ∀ c ∈ digits, isdigit c = true)
    (hrest : ∀ c ∈ rest.head?, isdigit c = false) (value : Nat) :
    number value (digits ++ rest) = number value digits := by
  induction digits generalizing value with
  | nil =>
    cases rest with
    | nil => rfl
    | cons c rest => simp [number, hrest c rfl]
  | cons c digits ih =>
    have hc := hdigits c List.mem_cons_self
    simp only [List.cons_append, number, hc, if_true]
    exact ih (fun d hd => hdigits d (List.mem_cons_of_mem c hd)) _

theorem lengthNumber_digits {digits rest : Bytes} (hdigits : ∀ c ∈ digits, isdigit c = true)
    (hrest : ∀ c ∈ rest.head?, isdigit c = false) (value : Nat) :
    lengthNumber value (digits ++ rest) = none ∨
      lengthNumber value (digits ++ rest) = some (number value digits) := by
  induction digits generalizing value with
  | nil =>
    cases rest with
    | nil => exact .inr rfl
    | cons c rest => simp [lengthNumber, number, hrest c rfl]
  | cons c digits ih =>
    have hc := hdigits c List.mem_cons_self
    simp only [List.cons_append, lengthNumber, number, hc, if_true]
    split
    · exact .inl rfl
    · exact ih (fun d hd => hdigits d (List.mem_cons_of_mem c hd)) _

/-- The lines of a well-formed header change what they should, or end the connection. -/
inductive Kept (head : Head) (contentlength : Option Nat → Prop) : LineResult → Prop where
  | died : Kept head contentlength .died
  | more {head' : Head} : head'.statuscode = head.statuscode → head'.chunked = head.chunked →
      contentlength head'.contentlength → Kept head contentlength (.more head')

theorem lengthNumber_value {f : Field} {n : Nat} (h : f.IsLength n) :
    lengthNumber 0 (f.value.dropWhile fun c => !isdigit c) = none ∨
      lengthNumber 0 (f.value.dropWhile fun c => !isdigit c) = some n := by
  obtain ⟨before, digits, after, hvalue, hblank, hdigits, hne, rfl⟩ := h
  have hnot {c : UInt8} (hc : c ∈ before ++ after) : isdigit c = false := by
    rcases hblank c hc with rfl | rfl <;> decide
  have hskip : f.value.dropWhile (fun c => !isdigit c) = digits ++ after := by
    obtain ⟨d, digits', rfl⟩ := List.exists_cons_of_ne_nil hne
    rw [hvalue, List.append_assoc, List.dropWhile_append_of_pos]
    · rw [List.cons_append, List.dropWhile_cons_of_neg]
      simp [hdigits d List.mem_cons_self]
    · intro c hc
      simp [hnot (List.mem_append_left after hc)]
  rw [hskip]
  refine lengthNumber_digits hdigits (fun c hc => ?_) 0
  exact hnot (List.mem_append_right before (List.mem_of_mem_head? hc))

theorem headerLine_field {head : Head} (hstatus : head.statuscode ≠ 0) {f : Field}
    (hencoding : ¬ f.isNamed "Transfer-Encoding") :
    Kept head (fun length => (¬ f.isNamed "Content-Length" → length = head.contentlength) ∧
      (f.isNamed "Content-Length" → ∀ n, f.IsLength n → length = some n))
      (headerLine head f.line) := by
  unfold headerLine
  rw [if_neg hstatus]
  split
  · exact .died
  · split
    · next hname =>
      have hconn := (hasName_connection f).mp hname
      have hne : ¬ f.isNamed "Content-Length" := by
        intro h
        have hboth := hconn.symm.trans h
        exact absurd hboth (by decide)
      exact .more rfl rfl ⟨fun _ => rfl, fun h => absurd h hne⟩
    · split
      · next hname =>
        have hnamed := (hasName_contentLength f).mp hname
        have hlen : f.name.length = 14 := by
          have h := congrArg List.length hnamed
          rwa [List.length_map, List.length_map] at h
        have hdrop : f.line.drop 15 = f.value := by
          have h15 : 15 = f.name.length + 1 := by omega
          rw [h15, Field.line, ← List.drop_drop, List.drop_left]
          rfl
        rw [hdrop]
        split
        · exact .died
        · next n hn =>
          refine .more rfl rfl ⟨fun h => absurd hnamed h, fun _ m hm => ?_⟩
          rcases lengthNumber_value hm with h | h
          · rw [h] at hn
            cases hn
          · rw [← hn, h]
      · next hname =>
        have hnamed : ¬ f.isNamed "Content-Length" := fun h =>
          hname ((hasName_contentLength f).mpr h)
        rw [if_neg fun h => hencoding ((hasName_transferEncoding f).mp h)]
        have hne : f.line ≠ [] := by simp [Field.line]
        rw [if_neg hne]
        exact .more rfl rfl ⟨fun _ => rfl, fun h => absurd h hnamed⟩

theorem headerLine_status {head : Head} (hstatus : head.statuscode = 0) (b : Block) :
    headerLine head b.statusLine = .died ∨ ∃ head', headerLine head b.statusLine = .more head' ∧
      head'.statuscode = b.status ∧ head'.chunked = head.chunked := by
  have hdrop : b.statusLine.drop 7 = b.minor :: 32 :: (b.code ++ b.reason) := rfl
  have hspace : (b.statusLine.drop 7).dropWhile (fun c => c != 32) =
      32 :: (b.code ++ b.reason) := by
    have hminor : b.minor ≠ 32 := by
      intro h
      have hdigit := b.minor_digit
      rw [h] at hdigit
      exact absurd hdigit (by decide)
    rw [hdrop, List.dropWhile_cons_of_pos (by simp [hminor]), List.dropWhile_cons_of_neg (by simp)]
  have hnumber : number 0 (b.code ++ b.reason) = b.status := number_digits b.code_digits b.reason_head 0
  unfold headerLine
  rw [if_pos hstatus]
  split
  · exact .inl rfl
  · unfold statusLine
    rw [hspace, hdrop]
    split
    · exact .inl rfl
    · simp only [b.minor_digit, Bool.true_eq_false, if_false, hnumber]
      split
      · exact .inl rfl
      · exact .inr ⟨_, rfl, rfl, rfl⟩

theorem headerLine_nil {head : Head} (hstatus : head.statuscode ≠ 0) : headerLine head [] =
    if 100 ≤ head.statuscode ∧ head.statuscode ≤ 199 then .more { head with statuscode := 0 }
    else .done head := by
  unfold headerLine
  rw [if_neg List.not_mem_nil, if_neg hstatus, if_neg, if_neg, if_neg, if_pos rfl]
  all_goals decide

theorem readHeaders_eq (sock : Sock) (buf : Buf) (head : Head) : readHeaders sock buf head =
    match readLine sock buf with
    | none => none
    | some (hln, sock', buf') =>
      match headerLine head hln with
      | .died => none
      | .more head' => readHeaders sock' buf' head'
      | .done head' => some (head', sock', buf') := by
  rw [readHeaders]
  split
  · next hread => rw [hread]
  · next hread => rw [hread]

/-- A line of a stream that may end anywhere. -/
theorem readLine_cut {sock : Sock} {buf : Buf} {line rest : Bytes} (heol : ¬ [CR, LF] <:+: line)
    (hcut : stream sock buf <+: line ++ CR :: LF :: rest) :
    readLine sock buf = none ∨ ∃ sock' buf', readLine sock buf = some (line, sock', buf') ∧
      stream sock buf = line ++ CR :: LF :: stream sock' buf' ∧ stream sock' buf' <+: rest := by
  have hspec := readLine_spec sock buf
  rcases hread : readLine sock buf with _ | ⟨line', sock', buf'⟩
  · exact .inl rfl
  · rw [hread] at hspec
    obtain ⟨hsplit, _, heol', _⟩ := hspec
    obtain ⟨more, hmore⟩ := hcut
    rw [hsplit, List.append_assoc] at hmore
    obtain ⟨rfl, hrest⟩ := line_unique heol' heol hmore
    exact .inr ⟨sock', buf', rfl, hsplit, more, hrest⟩

/-- The loop has died, or it has read the lines `text` and the empty line after them. -/
def Past (sock : Sock) (buf : Buf) (head : Head) (text rest : Bytes) (Q : Head → Prop) : Prop :=
  readHeaders sock buf head = none ∨ ∃ head' sock' buf',
    stream sock buf = text ++ stream sock' buf' ∧ stream sock' buf' <+: rest ∧ Q head' ∧
    readHeaders sock buf head =
      if 100 ≤ head'.statuscode ∧ head'.statuscode ≤ 199 then
        readHeaders sock' buf' { head' with statuscode := 0 }
      else some (head', sock', buf')

variable {sock : Sock} {buf : Buf} {head : Head} {text rest : Bytes} {Q : Head → Prop}

/-- The first line of the text, when the rest of it is gone past. -/
theorem Past.line {l : Bytes} (heol : ¬ [CR, LF] <:+: l)
    (hcut : stream sock buf <+: (l ++ CR :: LF :: text) ++ rest)
    (hnext : headerLine head l = .died ∨ ∃ head', headerLine head l = .more head' ∧
      ∀ sock' buf', stream sock' buf' <+: text ++ rest → Past sock' buf' head' text rest Q) :
    Past sock buf head (l ++ CR :: LF :: text) rest Q := by
  rw [List.append_assoc] at hcut
  rcases readLine_cut heol hcut with hnone | ⟨sock', buf', hread, hsplit, hrest⟩
  · exact .inl (by rw [readHeaders_eq, hnone])
  · rcases hnext with hdied | ⟨head', hmore, hpast⟩
    · exact .inl (by rw [readHeaders_eq, hread]; simp only [hdied])
    · have hstep : readHeaders sock buf head = readHeaders sock' buf' head' := by
        rw [readHeaders_eq, hread]
        simp only [hmore]
      rcases hpast sock' buf' hrest with hnone | ⟨head₂, sock₂, buf₂, hstream, hcut₂, hQ, heq⟩
      · exact .inl (hstep.trans hnone)
      · refine .inr ⟨head₂, sock₂, buf₂, ?_, hcut₂, hQ, hstep.trans heq⟩
        rw [hsplit, hstream, List.append_assoc]
        rfl

theorem Past.nil (hstatus : head.statuscode ≠ 0) (hQ : Q head)
    (hcut : stream sock buf <+: [CR, LF] ++ rest) : Past sock buf head [CR, LF] rest Q := by
  have hnil : ¬ [CR, LF] <:+: ([] : Bytes) := by simp
  rcases readLine_cut hnil hcut with hnone | ⟨sock', buf', hread, hsplit, hrest⟩
  · exact .inl (by rw [readHeaders_eq, hnone])
  · refine .inr ⟨head, sock', buf', hsplit, hrest, hQ, ?_⟩
    rw [readHeaders_eq, hread]
    simp only [headerLine_nil hstatus]
    by_cases hinterim : 100 ≤ head.statuscode ∧ head.statuscode ≤ 199
    · rw [if_pos hinterim, if_pos hinterim]
    · rw [if_neg hinterim, if_neg hinterim]

def fieldsText (fields : List Field) : Bytes :=
  (fields.map Field.line).flatMap (fun l => l ++ [CR, LF]) ++ [CR, LF]

/-- What is known after the fields: the length, when they or what came before give one. -/
structure AfterFields (head : Head) (fields : List Field) (head' : Head) : Prop where
  statuscode : head'.statuscode = head.statuscode
  chunked : head'.chunked = head.chunked
  contentlength : ∀ n, (∀ f ∈ fields, f.isNamed "Content-Length" → f.IsLength n) →
    (head.contentlength = some n ∨ ∃ f ∈ fields, f.isNamed "Content-Length") →
    head'.contentlength = some n

theorem AfterFields.cons {f : Field} {fields : List Field} {head₁ head₂ : Head}
    (hline : Kept head (fun length => (¬ f.isNamed "Content-Length" → length = head.contentlength) ∧
      (f.isNamed "Content-Length" → ∀ n, f.IsLength n → length = some n)) (.more head₁))
    (hlater : AfterFields head₁ fields head₂) : AfterFields head (f :: fields) head₂ := by
  cases hline with
  | more hstatus hchunked hlength =>
    refine ⟨hlater.statuscode.trans hstatus, hlater.chunked.trans hchunked, fun n hall hone => ?_⟩
    refine hlater.contentlength n (fun g hg => hall g (List.mem_cons_of_mem f hg)) ?_
    by_cases hf : f.isNamed "Content-Length"
    · exact .inl (hlength.2 hf n (hall f List.mem_cons_self hf))
    · rcases hone with hhead | ⟨g, hg, hnamed⟩
      · exact .inl ((hlength.1 hf).trans hhead)
      · rcases List.mem_cons.mp hg with rfl | hg
        · exact absurd hnamed hf
        · exact .inr ⟨g, hg, hnamed⟩

theorem past_fields {fields : List Field} (hstatus : head.statuscode ≠ 0)
    (hencoding : ∀ f ∈ fields, ¬ f.isNamed "Transfer-Encoding")
    (hcut : stream sock buf <+: fieldsText fields ++ rest) :
    Past sock buf head (fieldsText fields) rest (AfterFields head fields) := by
  induction fields generalizing sock buf head with
  | nil =>
    refine Past.nil hstatus ⟨rfl, rfl, fun n _ hone => ?_⟩ hcut
    rcases hone with hhead | ⟨f, hf, _⟩
    · exact hhead
    · cases hf
  | cons f fields ih =>
    have htext : fieldsText (f :: fields) = f.line ++ CR :: LF :: fieldsText fields := by
      simp [fieldsText]
    rw [htext] at hcut ⊢
    refine Past.line f.oneLine hcut ?_
    have hkept := headerLine_field hstatus (hencoding f List.mem_cons_self)
    cases hline : headerLine head f.line with
    | died => exact .inl rfl
    | done head' =>
      rw [hline] at hkept
      cases hkept
    | more head' =>
      rw [hline] at hkept
      refine .inr ⟨head', rfl, fun sock' buf' hrest => ?_⟩
      have hstatus' : head'.statuscode ≠ 0 := by
        cases hkept with
        | more hstatus' => rwa [hstatus']
      have hlater := ih hstatus' (fun g hg => hencoding g (List.mem_cons_of_mem f hg)) hrest
      rcases hlater with hnone | ⟨head₂, sock₂, buf₂, hstream, hcut₂, hQ, heq⟩
      · exact .inl hnone
      · exact .inr ⟨head₂, sock₂, buf₂, hstream, hcut₂, .cons hkept hQ, heq⟩

/-- What is known after a block. -/
structure AfterBlock (head : Head) (b : Block) (head' : Head) : Prop where
  statuscode : head'.statuscode = b.status
  chunked : head'.chunked = head.chunked
  contentlength : ∀ n, (∀ f ∈ b.fields, f.isNamed "Content-Length" → f.IsLength n) →
    (∃ f ∈ b.fields, f.isNamed "Content-Length") → head'.contentlength = some n

theorem past_block {b : Block} (hhead : head.statuscode = 0) (hstatus : b.status ≠ 0)
    (hcut : stream sock buf <+: b.encode ++ rest) :
    Past sock buf head b.encode rest (AfterBlock head b) := by
  have htext : b.encode = b.statusLine ++ CR :: LF :: fieldsText b.fields := by
    simp [Block.encode, Block.lines, fieldsText]
  rw [htext] at hcut ⊢
  refine Past.line b.oneLine hcut ?_
  rcases headerLine_status hhead b with hdied | ⟨head', hmore, hstatus', hchunked⟩
  · exact .inl hdied
  · refine .inr ⟨head', hmore, fun sock' buf' hrest => ?_⟩
    have hne : head'.statuscode ≠ 0 := by rwa [hstatus']
    rcases past_fields hne b.noEncoding hrest with
      hnone | ⟨head₂, sock₂, buf₂, hstream, hcut₂, hQ, heq⟩
    · exact .inl hnone
    · refine .inr ⟨head₂, sock₂, buf₂, hstream, hcut₂, ⟨?_, ?_, ?_⟩, heq⟩
      · exact hQ.statuscode.trans hstatus'
      · exact hQ.chunked.trans hchunked
      · exact fun n hall hone => hQ.contentlength n hall (.inr hone)

/-- What the header loop ends with when it comes to the end of a header. -/
structure AfterHeader (r : Response) (head : Head) : Prop where
  statuscode : head.statuscode = r.final.status
  chunked : head.chunked = false
  contentlength : ¬ (r.final.status = 204 ∨ r.final.status = 304) →
    head.contentlength = some r.body.length

theorem readHeaders_blocks {r : Response} {interim : List Block}
    (hinterim : ∀ b ∈ interim, 100 ≤ b.status ∧ b.status ≤ 199) (hhead : head.statuscode = 0)
    (hchunked : head.chunked = false)
    (hcut : stream sock buf <+: (interim.flatMap Block.encode ++ r.final.encode) ++ rest) :
    readHeaders sock buf head = none ∨ ∃ head' sock' buf',
      readHeaders sock buf head = some (head', sock', buf') ∧
      stream sock buf = (interim.flatMap Block.encode ++ r.final.encode) ++ stream sock' buf' ∧
      stream sock' buf' <+: rest ∧ AfterHeader r head' := by
  induction interim generalizing sock buf head with
  | nil =>
    have hfinal := r.final_status
    have hne : r.final.status ≠ 0 := by omega
    rcases past_block hhead hne hcut with
      hnone | ⟨head', sock', buf', hstream, hrest, hafter, heq⟩
    · exact .inl hnone
    · have hlast : ¬ (100 ≤ head'.statuscode ∧ head'.statuscode ≤ 199) := by
        rw [hafter.statuscode]
        omega
      rw [if_neg hlast] at heq
      refine .inr ⟨head', sock', buf', heq, hstream, hrest, ?_⟩
      refine ⟨hafter.statuscode, hafter.chunked.trans hchunked, fun hbody => ?_⟩
      exact hafter.contentlength _ (r.lengths hbody) (r.delimited hbody)
  | cons b interim ih =>
    have hb := hinterim b List.mem_cons_self
    have hne : b.status ≠ 0 := by omega
    rw [List.flatMap_cons, List.append_assoc, List.append_assoc, ← List.append_assoc _ _ rest] at hcut
    rcases past_block hhead hne hcut with
      hnone | ⟨head₁, sock₁, buf₁, hstream₁, hrest₁, hafter₁, heq₁⟩
    · exact .inl hnone
    · rw [← hafter₁.statuscode] at hb
      rw [if_pos hb] at heq₁
      rw [heq₁]
      have hlater := @ih sock₁ buf₁ { head₁ with statuscode := 0 }
        (fun b' hb' => hinterim b' (List.mem_cons_of_mem b hb')) rfl
        (hafter₁.chunked.trans hchunked) hrest₁
      rcases hlater with hnone | ⟨head', sock', buf', heq, hstream, hrest, hafter⟩
      · exact .inl hnone
      · refine .inr ⟨head', sock', buf', heq, ?_, hrest, hafter⟩
        rw [hstream₁, hstream, List.flatMap_cons]
        simp only [List.append_assoc]

theorem readHeaders_response {r : Response} (hhead : head.statuscode = 0)
    (hchunked : head.chunked = false) (hcut : stream sock buf <+: r.header ++ rest) :
    readHeaders sock buf head = none ∨ ∃ head' sock' buf',
      readHeaders sock buf head = some (head', sock', buf') ∧
      stream sock buf = r.header ++ stream sock' buf' ∧ stream sock' buf' <+: rest ∧
      AfterHeader r head' := readHeaders_blocks r.interim_status hhead hchunked hcut

/-- A body of a known length, from a stream that may end anywhere. -/
theorem readBody_cut {body : Bytes} (hchunked : head.chunked = false)
    (hlength : head.contentlength = some body.length)
    (hcut : stream sock buf <+: body ++ rest) :
    (readBody head sock buf).complete = true →
      (readBody head sock buf).written = body ∧
      stream sock buf = body ++ stream (readBody head sock buf).sock (readBody head sock buf).buf ∧
      stream (readBody head sock buf).sock (readBody head sock buf).buf <+: rest := by
  have hcopies := copybytes_spec body.length sock buf
  unfold readBody
  rw [hchunked, hlength]
  simp only [Bool.false_eq_true, if_false, decide_eq_true_eq]
  intro hzero
  have hlong := hcopies.error_iff.mp hzero
  obtain ⟨left, hleft⟩ : body <+: stream sock buf :=
    List.prefix_of_prefix_length_le (List.prefix_append body rest) hcut hlong
  have hwritten := hcopies.written
  have hstream := hcopies.stream_eq hzero
  rw [← hleft, List.take_left] at hwritten
  rw [← hleft, List.drop_left] at hstream
  rw [hstream, ← hleft]
  rw [← hleft] at hcut
  exact ⟨hwritten, rfl, (List.prefix_append_right_inj body).mp hcut⟩

end DeltaPorts.Phttpget

import DeltaPorts.Phttpget.Headers

/-!
# Interim responses

The header loop on any number of 1xx blocks before a final one. Its comment promises to ignore
them, but four of its five variables keep what the lines of a 1xx block have set.
-/

set_option autoImplicit false

namespace DeltaPorts.Phttpget

def closes (hln : Bytes) : Bool :=
  hasName (ascii "Connection:") hln && mentions (hln.drop 11) (ascii "close")

def keepsAlive (hln : Bytes) : Bool :=
  hasName (ascii "Connection:") hln && mentions (hln.drop 11) (ascii "Keep-Alive")

def hasLength (hln : Bytes) : Bool := hasName (ascii "Content-Length:") hln

def lengthOf (hln : Bytes) : Option Nat :=
  lengthNumber 0 ((hln.drop 15).dropWhile fun c => !isdigit c)

def encodesChunks (hln : Bytes) : Bool :=
  hasName (ascii "Transfer-Encoding:") hln && mentions (hln.drop 18) (ascii "chunked")

/-- What is left of the variables by a line. -/
def Head.after (head : Head) (hln : Bytes) : Head where
  statuscode := head.statuscode
  contentlength := if hasLength hln then lengthOf hln else head.contentlength
  chunked := head.chunked || encodesChunks hln
  keepalive := head.keepalive || keepsAlive hln
  pipelined := head.pipelined && !closes hln

/-- The loop goes on after a line. -/
def LineReadable (hln : Bytes) : Prop :=
  LineFits hln ∧ (hasLength hln = true → lengthOf hln ≠ none)

theorem hasName_iff (name hln : Bytes) :
    hasName name hln = true ↔ (hln.take name.length).map lower = name.map lower :=
  beq_iff_eq

/-- A line has one name of two that do not begin alike. -/
theorem hasName_unique {name name' hln : Bytes} (hlen : name.length ≤ name'.length)
    (hdiffer : (name'.map lower).take name.length ≠ name.map lower)
    (h : hasName name hln = true) : hasName name' hln = false := by
  rw [Bool.eq_false_iff]
  intro h'
  rw [hasName_iff] at h h'
  apply hdiffer
  rw [← h', ← List.map_take, List.take_take, Nat.min_eq_left hlen, h]

theorem not_connection {hln : Bytes} (h : hasName (ascii "Connection:") hln = false) :
    closes hln = false ∧ keepsAlive hln = false := by
  unfold closes keepsAlive
  rw [h]
  exact ⟨rfl, rfl⟩

theorem headerLine_eq {head : Head} {hln : Bytes} (hstatus : head.statuscode ≠ 0)
    (hne : hln ≠ []) (hnul : NUL ∉ hln) : headerLine head hln =
      if hasLength hln = true ∧ lengthOf hln = none then .died else .more (head.after hln) := by
  unfold headerLine
  rw [if_neg hnul, if_neg hstatus]
  by_cases hconn : hasName (ascii "Connection:") hln = true
  · have hlen : hasName (ascii "Content-Length:") hln = false :=
      hasName_unique (by decide) (by decide) hconn
    have henc : hasName (ascii "Transfer-Encoding:") hln = false :=
      hasName_unique (by decide) (by decide) hconn
    rw [if_pos hconn]
    simp [Head.after, hasLength, encodesChunks, closes, keepsAlive, hconn, hlen, henc]
  · rw [if_neg hconn]
    obtain ⟨hcloses, hkeeps⟩ := not_connection (Bool.eq_false_iff.mpr hconn)
    by_cases hlen : hasName (ascii "Content-Length:") hln = true
    · have henc : hasName (ascii "Transfer-Encoding:") hln = false :=
        hasName_unique (by decide) (by decide) hlen
      rw [if_pos hlen]
      cases hvalue : lengthOf hln with
      | none =>
        unfold lengthOf at hvalue
        simp [hasLength, hlen, hvalue]
      | some n =>
        have hn := hvalue
        unfold lengthOf at hn
        simp [Head.after, hasLength, encodesChunks, hcloses, hkeeps, hlen, henc, hvalue, hn]
    · rw [if_neg hlen]
      have hno : ¬ (hasLength hln = true ∧ lengthOf hln = none) := fun h => hlen h.1
      rw [if_neg hno]
      simp only [Bool.not_eq_true] at hlen
      by_cases henc : hasName (ascii "Transfer-Encoding:") hln = true
      · rw [if_pos henc]
        simp [Head.after, hasLength, encodesChunks, hcloses, hkeeps, hlen, henc]
      · rw [if_neg henc, if_neg hne]
        simp only [Bool.not_eq_true] at henc
        simp [Head.after, hasLength, encodesChunks, hcloses, hkeeps, hlen, henc]

/-- The length after some lines: the last one given. -/
def lengthAfter : List Bytes → Option Nat → Option Nat
  | [], n => n
  | hln :: lines, n => lengthAfter lines (if hasLength hln then lengthOf hln else n)

theorem foldl_after (lines : List Bytes) (head : Head) : lines.foldl Head.after head =
    ⟨head.statuscode, lengthAfter lines head.contentlength,
      head.chunked || lines.any encodesChunks, head.keepalive || lines.any keepsAlive,
      head.pipelined && !lines.any closes⟩ := by
  induction lines generalizing head with
  | nil => simp [lengthAfter]
  | cons hln lines ih =>
    rw [List.foldl_cons, ih]
    simp [Head.after, lengthAfter, Bool.or_assoc, Bool.and_assoc]

theorem lengthAfter_append (lines lines' : List Bytes) (n : Option Nat) :
    lengthAfter (lines ++ lines') n = lengthAfter lines' (lengthAfter lines n) := by
  induction lines generalizing n with
  | nil => rfl
  | cons hln lines ih => exact ih _

theorem lengthAfter_of_silent {lines : List Bytes} (h : ∀ l ∈ lines, hasLength l = false)
    (n : Option Nat) : lengthAfter lines n = n := by
  induction lines with
  | nil => rfl
  | cons hln lines ih =>
    rw [lengthAfter, h hln List.mem_cons_self]
    exact ih fun l hl => h l (List.mem_cons_of_mem hln hl)

theorem lengthAfter_of_given {lines : List Bytes} (h : ∃ l ∈ lines, hasLength l = true)
    (n m : Option Nat) : lengthAfter lines n = lengthAfter lines m := by
  induction lines generalizing n m with
  | nil =>
    obtain ⟨l, hl, _⟩ := h
    cases hl
  | cons hln lines ih =>
    unfold lengthAfter
    cases hgiven : hasLength hln with
    | true => rfl
    | false =>
      obtain ⟨l, hl, hlen⟩ := h
      rcases List.mem_cons.mp hl with rfl | hl
      · rw [hgiven] at hlen
        cases hlen
      · exact ih ⟨l, hl, hlen⟩ _ _

/-- Lines that the loop goes on after leave a length if one of them gives one. -/
theorem lengthAfter_ne_none {lines : List Bytes} (hread : ∀ l ∈ lines, LineReadable l)
    {n : Option Nat} (h : n ≠ none ∨ ∃ l ∈ lines, hasLength l = true) :
    lengthAfter lines n ≠ none := by
  induction lines generalizing n with
  | nil =>
    rcases h with h | ⟨l, hl, _⟩
    · exact h
    · cases hl
  | cons hln lines ih =>
    refine ih (fun l hl => hread l (List.mem_cons_of_mem hln hl)) ?_
    cases hgiven : hasLength hln with
    | true => exact .inl ((hread hln List.mem_cons_self).2 hgiven)
    | false =>
      rcases h with h | ⟨l, hl, hlen⟩
      · exact .inl h
      · rcases List.mem_cons.mp hl with rfl | hl
        · rw [hgiven] at hlen
          cases hlen
        · exact .inr ⟨l, hl, hlen⟩

/-- `HTTP/1.x`, the digits of a status, and lines of any kind. -/
structure HeaderBlock where
  minor : UInt8
  version : Bytes
  code : Bytes
  reason : Bytes
  lines : List Bytes
  minor_digit : isdigit minor = true
  version_blank : 32 ∉ version
  code_digits : ∀ c ∈ code, isdigit c = true
  reason_head : ∀ c ∈ reason.head?, isdigit c = false
  oneLine : ¬ [CR, LF] <:+: ascii "HTTP/1." ++ minor :: (version ++ 32 :: (code ++ reason))
  lines_oneLine : ∀ l ∈ lines, l ≠ [] ∧ ¬ [CR, LF] <:+: l

namespace HeaderBlock

def status (b : HeaderBlock) : Nat := number 0 b.code

/-- A version later than 1.0. -/
def later (b : HeaderBlock) : Bool := b.minor != 48

def first (b : HeaderBlock) : Bytes :=
  ascii "HTTP/1." ++ b.minor :: (b.version ++ 32 :: (b.code ++ b.reason))

def encode (b : HeaderBlock) : Bytes :=
  b.first ++ CR :: LF :: (b.lines.flatMap (fun l => l ++ [CR, LF]) ++ [CR, LF])

theorem first_oneLine (b : HeaderBlock) : ¬ [CR, LF] <:+: b.first := b.oneLine

/-- The loop does not die in the block. -/
def Readable (b : HeaderBlock) : Prop := LineFits b.first ∧ ∀ l ∈ b.lines, LineReadable l

/-- The variables after the block. -/
def after (b : HeaderBlock) (head : Head) : Head where
  statuscode := b.status
  contentlength := lengthAfter b.lines head.contentlength
  chunked := head.chunked || b.lines.any encodesChunks
  keepalive := head.keepalive || b.lines.any keepsAlive
  pipelined := (head.pipelined || b.later) && !b.lines.any closes

/-- What the block after an interim block starts with. -/
def skip (head : Head) (b : HeaderBlock) : Head := { b.after head with statuscode := 0 }

/-- What the block says last about pipelining, if anything. -/
def pipelining (b : HeaderBlock) : Option Bool :=
  if b.lines.any closes then some false else if b.later then some true else none

end HeaderBlock

theorem headerLine_first {head : Head} (hstatus : head.statuscode = 0) {b : HeaderBlock}
    (hnul : NUL ∉ b.first) (hcode : 100 ≤ b.status ∧ b.status ≤ 599) :
    headerLine head b.first =
      .more { head with statuscode := b.status, pipelined := head.pipelined || b.later } := by
  have hdrop : b.first.drop 7 = b.minor :: (b.version ++ 32 :: (b.code ++ b.reason)) := rfl
  have htake : b.first.take 7 = ascii "HTTP/1." := rfl
  have hspace : (b.first.drop 7).dropWhile (fun c => c != 32) = 32 :: (b.code ++ b.reason) := by
    rw [hdrop, ← List.cons_append, List.dropWhile_append_of_pos,
      List.dropWhile_cons_of_neg (by simp)]
    intro c hc
    rw [bne_iff_ne]
    rintro rfl
    rcases List.mem_cons.mp hc with hminor | hversion
    · have hdigit := b.minor_digit
      rw [← hminor] at hdigit
      exact absurd hdigit (by decide)
    · exact b.version_blank hversion
  have hnumber : number 0 (b.code ++ b.reason) = b.status :=
    number_digits b.code_digits b.reason_head 0
  have hrange : ¬ (b.status < 100 ∨ 599 < b.status) := by omega
  unfold headerLine
  rw [if_neg hnul, if_pos hstatus]
  unfold statusLine
  rw [hspace, hdrop, htake, if_neg (by simp)]
  simp only [b.minor_digit, Bool.true_eq_false, if_false, hnumber]
  rw [if_neg hrange]
  rfl

/-- The lines of a block and the empty line after them. -/
theorem readHeaders_lines {lines : List Bytes} {sock : Sock} {buf : Buf} {head : Head}
    {rest : Bytes} (hlines : ∀ l ∈ lines, l ≠ [] ∧ ¬ [CR, LF] <:+: l)
    (hstatus : head.statuscode ≠ 0) (hfits : buf.Fits)
    (hstream : stream sock buf = lines.flatMap (fun l => l ++ [CR, LF]) ++ CR :: LF :: rest) :
    ((∀ l ∈ lines, LineReadable l) → ∃ sock' buf', stream sock' buf' = rest ∧ buf'.Fits ∧
      readHeaders sock buf head =
        if 100 ≤ head.statuscode ∧ head.statuscode ≤ 199 then
          readHeaders sock' buf' { lines.foldl Head.after head with statuscode := 0 }
        else some (lines.foldl Head.after head, sock', buf')) ∧
    (¬ (∀ l ∈ lines, LineReadable l) → readHeaders sock buf head = none) := by
  induction lines generalizing sock buf head with
  | nil =>
    have hnil : ¬ [CR, LF] <:+: ([] : Bytes) := by simp
    have hempty : LineFits [] := ⟨List.not_mem_nil, by decide⟩
    obtain ⟨sock', buf', hread, hrest, hfits'⟩ := (readLine_append hfits hnil hstream).1 hempty
    refine ⟨fun _ => ⟨sock', buf', hrest, hfits', ?_⟩, fun h => absurd nofun h⟩
    rw [readHeaders_eq, hread]
    simp only [headerLine_nil hstatus, List.foldl_nil]
    by_cases hinterim : 100 ≤ head.statuscode ∧ head.statuscode ≤ 199
    · rw [if_pos hinterim, if_pos hinterim]
    · rw [if_neg hinterim, if_neg hinterim]
  | cons l lines ih =>
    obtain ⟨hne, heol⟩ := hlines l List.mem_cons_self
    rw [List.flatMap_cons, List.append_assoc, List.append_assoc] at hstream
    have hline := readLine_append hfits heol hstream
    by_cases hl : LineFits l
    · obtain ⟨sock₁, buf₁, hread, hrest, hfits₁⟩ := hline.1 hl
      have hstep := headerLine_eq hstatus hne hl.1
      by_cases hnumber : hasLength l = true ∧ lengthOf l = none
      · rw [if_pos hnumber] at hstep
        refine ⟨fun h => absurd hnumber.2 ((h l List.mem_cons_self).2 hnumber.1), fun _ => ?_⟩
        rw [readHeaders_eq, hread]
        simp only [hstep]
      · rw [if_neg hnumber] at hstep
        have hnext : readHeaders sock buf head = readHeaders sock₁ buf₁ (head.after l) := by
          rw [readHeaders_eq, hread]
          simp only [hstep]
        have hreadable : LineReadable l := ⟨hl, fun h hnone => hnumber ⟨h, hnone⟩⟩
        have hlater := @ih sock₁ buf₁ (head.after l)
          (fun l' hl' => hlines l' (List.mem_cons_of_mem l hl')) hstatus hfits₁ hrest
        rw [hnext, List.forall_mem_cons, List.foldl_cons]
        exact ⟨fun h => hlater.1 h.2, fun h => hlater.2 fun h' => h ⟨hreadable, h'⟩⟩
    · refine ⟨fun h => absurd (h l List.mem_cons_self).1 hl, fun _ => ?_⟩
      rw [readHeaders_eq, hline.2 hl]

theorem readHeaders_block {b : HeaderBlock} {sock : Sock} {buf : Buf} {head : Head} {rest : Bytes}
    (hhead : head.statuscode = 0) (hcode : 100 ≤ b.status ∧ b.status ≤ 599) (hfits : buf.Fits)
    (hstream : stream sock buf = b.encode ++ rest) :
    (b.Readable → ∃ sock' buf', stream sock' buf' = rest ∧ buf'.Fits ∧
      readHeaders sock buf head =
        if 100 ≤ b.status ∧ b.status ≤ 199 then
          readHeaders sock' buf' (b.skip head)
        else some (b.after head, sock', buf')) ∧
    (¬ b.Readable → readHeaders sock buf head = none) := by
  have hsplit : b.encode ++ rest = b.first ++ CR :: LF ::
      (b.lines.flatMap (fun l => l ++ [CR, LF]) ++ CR :: LF :: rest) := by
    simp [HeaderBlock.encode]
  rw [hsplit] at hstream
  have hline := readLine_append hfits b.first_oneLine hstream
  by_cases hfirst : LineFits b.first
  · obtain ⟨sock₁, buf₁, hread, hrest, hfits₁⟩ := hline.1 hfirst
    let head₁ : Head := { head with statuscode := b.status, pipelined := head.pipelined || b.later }
    have hnext : readHeaders sock buf head = readHeaders sock₁ buf₁ head₁ := by
      rw [readHeaders_eq, hread]
      simp only [headerLine_first hhead hfirst.1 hcode, head₁]
    have hstatus : head₁.statuscode ≠ 0 := by
      show b.status ≠ 0
      omega
    have hlater := readHeaders_lines b.lines_oneLine hstatus hfits₁ hrest
    rw [foldl_after] at hlater
    rw [hnext]
    exact ⟨fun h => hlater.1 h.2, fun h => hlater.2 fun h' => h ⟨hfirst, h'⟩⟩
  · refine ⟨fun h => absurd h.1 hfirst, fun _ => ?_⟩
    rw [readHeaders_eq, hline.2 hfirst]

theorem pipelining_getD (b : HeaderBlock) (pipelined : Bool) :
    b.pipelining.getD pipelined = ((pipelined || b.later) && !b.lines.any closes) := by
  unfold HeaderBlock.pipelining
  cases b.lines.any closes <;> cases b.later <;> simp

theorem foldl_skip (interim : List HeaderBlock) {head : Head} (hhead : head.statuscode = 0) :
    interim.foldl HeaderBlock.skip head =
      ⟨0, lengthAfter (interim.flatMap HeaderBlock.lines) head.contentlength,
        head.chunked || (interim.flatMap HeaderBlock.lines).any encodesChunks,
        head.keepalive || (interim.flatMap HeaderBlock.lines).any keepsAlive,
        ((interim.filterMap HeaderBlock.pipelining).getLast?).getD head.pipelined⟩ := by
  induction interim generalizing head with
  | nil =>
    obtain ⟨statuscode, contentlength, chunked, keepalive, pipelined⟩ := head
    cases hhead
    simp [lengthAfter]
  | cons b interim ih =>
    rw [List.foldl_cons, ih rfl]
    simp only [HeaderBlock.skip, HeaderBlock.after, List.flatMap_cons, lengthAfter_append,
      List.any_append, Bool.or_assoc, Head.mk.injEq, true_and]
    rw [← pipelining_getD]
    cases hsays : b.pipelining with
    | none => rw [List.filterMap_cons_none hsays, Option.getD_none]
    | some v =>
      rw [List.filterMap_cons_some hsays, List.getLast?_cons, Option.getD_some, Option.getD_some]

structure Answer where
  interim : List HeaderBlock
  final : HeaderBlock
  interim_status : ∀ b ∈ interim, 100 ≤ b.status ∧ b.status ≤ 199
  final_status : 200 ≤ final.status ∧ final.status ≤ 599

namespace Answer

def interimLines (a : Answer) : List Bytes := a.interim.flatMap HeaderBlock.lines

/-- The variables at the start of a response. -/
def start (pipelined : Bool) : Head := ⟨0, none, false, false, pipelined⟩

/-- The loop ends with the same variables, or dies, with the interim blocks and without them. -/
def Ignored (a : Answer) (pipelined : Bool) : Prop :=
  ∀ (rest : Bytes) (sock sock' : Sock) (buf buf' : Buf), buf.Fits → buf'.Fits →
    stream sock buf = a.interim.flatMap HeaderBlock.encode ++ (a.final.encode ++ rest) →
    stream sock' buf' = a.final.encode ++ rest →
    (readHeaders sock buf (start pipelined)).map Prod.fst =
      (readHeaders sock' buf' (start pipelined)).map Prod.fst

/-- Whatever a line of an interim block sets is set by the final block as well. -/
structure Overridden (a : Answer) (pipelined : Bool) : Prop where
  readable : ∀ b ∈ a.interim, b.Readable
  contentlength : (∃ l ∈ a.interimLines, hasLength l = true) → ∃ l ∈ a.final.lines, hasLength l = true
  chunked : (∃ l ∈ a.interimLines, encodesChunks l = true) →
    ∃ l ∈ a.final.lines, encodesChunks l = true
  keepalive : (∃ l ∈ a.interimLines, keepsAlive l = true) → ∃ l ∈ a.final.lines, keepsAlive l = true
  pipelined : ∀ v ∈ (a.interim.filterMap HeaderBlock.pipelining).getLast?, v = pipelined ∨
    a.final.later = true ∨ ∃ l ∈ a.final.lines, closes l = true

end Answer

theorem readHeaders_interim {interim : List HeaderBlock} {final : HeaderBlock}
    (hinterim : ∀ b ∈ interim, 100 ≤ b.status ∧ b.status ≤ 199)
    (hfinal : 200 ≤ final.status ∧ final.status ≤ 599) {sock : Sock} {buf : Buf} {head : Head}
    {rest : Bytes} (hhead : head.statuscode = 0) (hfits : buf.Fits)
    (hstream : stream sock buf = interim.flatMap HeaderBlock.encode ++ (final.encode ++ rest)) :
    ((∀ b ∈ interim, b.Readable) ∧ final.Readable →
      (readHeaders sock buf head).map Prod.fst =
        some (final.after (interim.foldl HeaderBlock.skip head))) ∧
    (¬ ((∀ b ∈ interim, b.Readable) ∧ final.Readable) → readHeaders sock buf head = none) := by
  induction interim generalizing sock buf head with
  | nil =>
    have hcode : 100 ≤ final.status ∧ final.status ≤ 599 := by omega
    have hlast : ¬ (100 ≤ final.status ∧ final.status ≤ 199) := by omega
    have hblock := readHeaders_block hhead hcode hfits hstream
    refine ⟨fun h => ?_, fun h => hblock.2 fun hread => h ⟨nofun, hread⟩⟩
    obtain ⟨sock', buf', _, _, heq⟩ := hblock.1 h.2
    rw [heq, if_neg hlast]
    rfl
  | cons b interim ih =>
    have hb := hinterim b List.mem_cons_self
    have hcode : 100 ≤ b.status ∧ b.status ≤ 599 := by omega
    rw [List.flatMap_cons, List.append_assoc] at hstream
    have hblock := readHeaders_block hhead hcode hfits hstream
    rw [List.forall_mem_cons]
    by_cases hread : b.Readable
    · obtain ⟨sock', buf', hrest, hfits', heq⟩ := hblock.1 hread
      have hlater := @ih (fun b' hb' => hinterim b' (List.mem_cons_of_mem b hb')) sock' buf'
        (b.skip head) rfl hfits' hrest
      rw [heq, if_pos hb]
      exact ⟨fun h => hlater.1 ⟨h.1.2, h.2⟩, fun h => hlater.2 fun h' => h ⟨⟨hread, h'.1⟩, h'.2⟩⟩
    · exact ⟨fun h => absurd h.1.1 hread, fun _ => hblock.2 hread⟩

theorem flag_agrees (P : Bytes → Bool) (lines lines' : List Bytes) :
    (false || lines.any P || lines'.any P) = (false || lines'.any P) ↔
      ((∃ l ∈ lines, P l = true) → ∃ l ∈ lines', P l = true) := by
  rw [← List.any_eq_true, ← List.any_eq_true]
  cases lines.any P <;> cases lines'.any P <;> simp

theorem length_agrees {lines : List Bytes} (hread : ∀ l ∈ lines, LineReadable l)
    (lines' : List Bytes) : lengthAfter lines' (lengthAfter lines none) = lengthAfter lines' none ↔
      ((∃ l ∈ lines, hasLength l = true) → ∃ l ∈ lines', hasLength l = true) := by
  by_cases hgiven : ∃ l ∈ lines', hasLength l = true
  · exact iff_of_true (lengthAfter_of_given hgiven _ _) fun _ => hgiven
  · have hsilent : ∀ l ∈ lines', hasLength l = false := fun l hl =>
      Bool.eq_false_iff.mpr fun h => hgiven ⟨l, hl, h⟩
    rw [lengthAfter_of_silent hsilent, lengthAfter_of_silent hsilent]
    constructor
    · exact fun h hlines => absurd h (lengthAfter_ne_none hread (.inr hlines))
    · intro h
      refine lengthAfter_of_silent (fun l hl => ?_) none
      exact Bool.eq_false_iff.mpr fun hl' => hgiven (h ⟨l, hl, hl'⟩)

theorem pipelining_agrees (last : Option Bool) (pipelined : Bool) (final : HeaderBlock) :
    ((last.getD pipelined || final.later) && !final.lines.any closes) =
        ((pipelined || final.later) && !final.lines.any closes) ↔
      ∀ v ∈ last, v = pipelined ∨ final.later = true ∨ ∃ l ∈ final.lines, closes l = true := by
  rw [← List.any_eq_true]
  cases last with
  | none => simp
  | some v => cases v <;> cases pipelined <;> cases final.later <;> simp

theorem after_agrees_iff {a : Answer} (hread : ∀ b ∈ a.interim, b.Readable) (pipelined : Bool) :
    a.final.after (a.interim.foldl HeaderBlock.skip (Answer.start pipelined)) =
      a.final.after (Answer.start pipelined) ↔ a.Overridden pipelined := by
  have hlines : ∀ l ∈ a.interimLines, LineReadable l := by
    intro l hl
    obtain ⟨b, hb, hl⟩ := List.mem_flatMap.mp hl
    exact (hread b hb).2 l hl
  rw [foldl_skip a.interim rfl]
  simp only [HeaderBlock.after, Answer.start, Head.mk.injEq, true_and]
  constructor
  · intro ⟨hlength, hchunked, hkeepalive, hpipelined⟩
    exact ⟨hread, (length_agrees hlines _).mp hlength, (flag_agrees _ _ _).mp hchunked,
      (flag_agrees _ _ _).mp hkeepalive, (pipelining_agrees _ _ _).mp hpipelined⟩
  · intro h
    exact ⟨(length_agrees hlines _).mpr h.contentlength, (flag_agrees _ _ _).mpr h.chunked,
      (flag_agrees _ _ _).mpr h.keepalive, (pipelining_agrees _ _ _).mpr h.pipelined⟩

/-- All of the bytes arrive at once. -/
def arriving : Bytes → Sock
  | [] => ⟨[], false⟩
  | c :: s => ⟨[.bytes c s], false⟩

theorem stream_arriving (s : Bytes) : stream (arriving s) ⟨[], 0⟩ = s := by
  cases s with
  | nil => rfl
  | cons c s => simp [stream, Buf.unread, arriving, Sock.content, Arrival.content]

section

variable {a : Answer} {pipelined : Bool} {rest : Bytes} {sock : Sock} {buf : Buf}

theorem with_interim (hfits : buf.Fits) (hstream : stream sock buf =
    a.interim.flatMap HeaderBlock.encode ++ (a.final.encode ++ rest)) :
    ((∀ b ∈ a.interim, b.Readable) ∧ a.final.Readable →
      (readHeaders sock buf (Answer.start pipelined)).map Prod.fst =
        some (a.final.after (a.interim.foldl HeaderBlock.skip (Answer.start pipelined)))) ∧
    (¬ ((∀ b ∈ a.interim, b.Readable) ∧ a.final.Readable) →
      readHeaders sock buf (Answer.start pipelined) = none) :=
  readHeaders_interim a.interim_status a.final_status rfl hfits hstream

theorem without_interim (hfits : buf.Fits) (hstream : stream sock buf = a.final.encode ++ rest) :
    (a.final.Readable → (readHeaders sock buf (Answer.start pipelined)).map Prod.fst =
      some (a.final.after (Answer.start pipelined))) ∧
    (¬ a.final.Readable → readHeaders sock buf (Answer.start pipelined) = none) := by
  have halone := @readHeaders_interim [] a.final nofun a.final_status sock buf
    (Answer.start pipelined) rest rfl hfits hstream
  exact ⟨fun h => halone.1 ⟨nofun, h⟩, fun h => halone.2 fun h' => h h'.2⟩

theorem Answer.Ignored.overridden (h : a.Ignored pipelined) (hfinal : a.final.Readable) :
    a.Overridden pipelined := by
  let before := a.interim.flatMap HeaderBlock.encode
  have hempty : (Buf.mk [] 0).Fits := Nat.zero_le _
  have hsame := h [] (arriving (before ++ (a.final.encode ++ []))) (arriving (a.final.encode ++ []))
    ⟨[], 0⟩ ⟨[], 0⟩ hempty hempty (stream_arriving _) (stream_arriving _)
  rw [(without_interim hempty (stream_arriving _)).1 hfinal] at hsame
  by_cases hread : ∀ b ∈ a.interim, b.Readable
  · rw [(with_interim hempty (stream_arriving _)).1 ⟨hread, hfinal⟩] at hsame
    exact (after_agrees_iff hread pipelined).mp (Option.some.inj hsame)
  · rw [(with_interim hempty (stream_arriving _)).2 fun hall => hread hall.1] at hsame
    cases hsame

end

/-- The interim blocks are ignored exactly when the final block sets what they have set, or the
loop dies anyway in the final block. -/
theorem interim_ignored_iff (a : Answer) (pipelined : Bool) :
    a.Ignored pipelined ↔ ¬ a.final.Readable ∨ a.Overridden pipelined := by
  constructor
  · intro h
    by_cases hfinal : a.final.Readable
    · exact .inr (h.overridden hfinal)
    · exact .inl hfinal
  · intro h rest sock sock' buf buf' hfits hfits' hstream hstream'
    by_cases hfinal : a.final.Readable
    · rcases h with hnot | h
      · exact absurd hfinal hnot
      · rw [(with_interim hfits hstream).1 ⟨h.readable, hfinal⟩,
          (without_interim hfits' hstream').1 hfinal]
        exact congrArg some ((after_agrees_iff h.readable pipelined).mpr h)
    · rw [(with_interim hfits hstream).2 fun h => hfinal h.2,
        (without_interim hfits' hstream').2 hfinal]

/-- The length in a 100 block is taken for that of a response without a length. -/
theorem interim_length_kept : ∃ a : Answer,
    a.interim.flatMap HeaderBlock.encode =
      ascii "HTTP/1.1 100 Continue\r\nContent-Length: 5\r\n\r\n" ∧
    a.final.encode = ascii "HTTP/1.1 200 OK\r\n\r\n" ∧ ¬ a.Ignored true := by
  let continued : HeaderBlock := ⟨49, [], ascii "100", ascii " Continue",
    [ascii "Content-Length: 5"], rfl, List.not_mem_nil, List.all_eq_true.mp rfl,
    by rintro c ⟨⟩; rfl, by decide, by
      intro l hl
      rw [List.mem_singleton.mp hl]
      decide⟩
  let ok : HeaderBlock := ⟨49, [], ascii "200", ascii " OK", [], rfl, List.not_mem_nil,
    List.all_eq_true.mp rfl, by rintro c ⟨⟩; rfl, by decide, nofun⟩
  have hcontinued : continued.status = 100 := rfl
  have hok : ok.status = 200 := rfl
  let a : Answer := ⟨[continued], ok, by
    intro b hb
    rw [List.mem_singleton.mp hb]
    omega, by omega⟩
  refine ⟨a, rfl, rfl, fun h => ?_⟩
  have hread : ok.Readable := ⟨⟨by decide, by decide⟩, nofun⟩
  obtain ⟨l, hl, _⟩ := (h.overridden hread).contentlength
    ⟨ascii "Content-Length: 5", List.mem_singleton_self _, rfl⟩
  cases hl

end DeltaPorts.Phttpget

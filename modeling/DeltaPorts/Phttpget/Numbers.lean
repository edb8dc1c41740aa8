import DeltaPorts.Library.DigitLoops
import DeltaPorts.Phttpget.Headers

/-!
# The numbers in a response

The digit loops of `main` in the types of their variables: `statuscode` is an `int`,
`contentlength` and `clen` are `off_t` of 64 bits.
-/

set_option autoImplicit false

namespace DeltaPorts.Phttpget

open DigitLoops

def INT_MAX : Int := 2147483647

def charValue (c : UInt8) : Int := c.toNat

def isxdigit (c : UInt8) : Bool := (hexDigit c).isSome

/-- `statuscode = statuscode * 10 + *hln - '0'` -/
def statusLoop : Loop UInt8 where
  low := -INT_MAX - 1
  high := INT_MAX
  base := 10
  isDigit := isdigit
  added := fun c => [charValue c]
  subtracted := fun _ => 48
  limit := none

/-- `contentlength = contentlength * 10 + *hln - '0'`, below `OFF_MAX / 10` -/
def lengthLoop : Loop UInt8 where
  low := -OFF_MAX - 1
  high := OFF_MAX
  base := 10
  isDigit := isdigit
  added := fun c => [charValue c]
  subtracted := fun _ => 48
  limit := some (OFF_MAX / 10)

/-- `clen = clen * 16 + *hln - '0'` or `clen = clen * 16 + 10 + tolower(*hln) - 'a'`, below
`OFF_MAX / 16` -/
def sizeLoop : Loop UInt8 where
  low := -OFF_MAX - 1
  high := OFF_MAX
  base := 16
  isDigit := isxdigit
  added := fun c => if isdigit c then [charValue c] else [10, charValue (lower c)]
  subtracted := fun c => if isdigit c then 48 else 97
  limit := some (OFF_MAX / 16)

/-- The text after the first blank of a status line. -/
def codeText (hln : Bytes) : Option Bytes :=
  if hln.take 7 ≠ ascii "HTTP/1." then none
  else
    match hln.drop 7 with
    | [] => none
    | minor :: _ =>
      if isdigit minor = false then none
      else ((hln.drop 7).dropWhile fun c => c != 32).tail?

/-- The text of a `Content-Length:` line from its first digit on. -/
def lengthText (hln : Bytes) : Bytes := (hln.drop 15).dropWhile fun c => !isdigit c

def readStatus (hln : Bytes) : Reading :=
  match codeText hln with
  | none => .rejected
  | some code =>
    match statusLoop.read 0 code with
    | .value v => if v < 100 ∨ 599 < v then .rejected else .value v
    | r => r

def readLength (hln : Bytes) : Reading := lengthLoop.read 0 (lengthText hln)

def readSize (hln : Bytes) : Reading := sizeLoop.read 0 hln

/-- The lines in which a response has a number. -/
inductive NumberLine where
  | status (hln : Bytes)
  | contentLength (hln : Bytes)
  | chunkSize (hln : Bytes)

namespace NumberLine

def read : NumberLine → Reading
  | status hln => readStatus hln
  | contentLength hln => readLength hln
  | chunkSize hln => readSize hln

/-- The decimal or hexadecimal number that the line writes, if it is a status line at all. -/
def written : NumberLine → Option Int
  | status hln => (codeText hln).map fun code => number 0 (code.takeWhile isdigit)
  | contentLength hln => some (number 0 ((lengthText hln).takeWhile isdigit))
  | chunkSize hln => some (hexValue 0 (hln.takeWhile isxdigit))

/-- Rejected, or read as it is written, with no sum out of range on the way. -/
def Exact (n : NumberLine) : Prop := n.read = .rejected ∨ ∃ v ∈ n.written, n.read = .value v

def Safe : NumberLine → Prop
  | status hln => ∀ code ∈ codeText hln, (number 0 (code.takeWhile isdigit) : Int) ≤ INT_MAX - 48
  | contentLength hln => ∀ p, p <+: (lengthText hln).takeWhile isdigit →
      ¬ (OFF_MAX - 48 < number 0 p ∧ number 0 p < 10 * (OFF_MAX / 10))
  | chunkSize hln => ∀ p c, p ++ [c] <+: hln.takeWhile isxdigit →
      ¬ (OFF_MAX - (if isdigit c then 48 else 97) < hexValue 0 (p ++ [c]) ∧
        hexValue 0 (p ++ [c]) < 16 * (OFF_MAX / 16))

end NumberLine

theorem digit_bounds {c : UInt8} (hc : isdigit c = true) : 48 ≤ c.toNat ∧ c.toNat ≤ 57 := by
  obtain ⟨hlow, hhigh⟩ := of_decide_eq_true hc
  exact ⟨UInt8.le_iff_toNat_le.mp hlow, UInt8.le_iff_toNat_le.mp hhigh⟩

theorem lawful_decimal {L : Loop UInt8} (hlow : L.low ≤ 0) (hbase : L.base = 10)
    (hdigit : L.isDigit = isdigit) (hadded : L.added = fun c => [charValue c])
    (hsubtracted : L.subtracted = fun _ => 48) : L.Lawful where
  low := hlow
  base := by omega
  added := by
    intro c a ha
    rw [hadded, List.mem_singleton] at ha
    rw [ha]
    exact Int.natCast_nonneg _
  subtracted := by
    intro c
    rw [hsubtracted]
    exact show (0 : Int) ≤ 48 by decide
  digit := by
    intro c hc
    rw [hdigit] at hc
    rw [hadded, hsubtracted]
    have hbounds := digit_bounds hc
    simp only [Loop.total, charValue]
    omega

theorem lawful_statusLoop : statusLoop.Lawful := lawful_decimal (by decide) rfl rfl rfl rfl

theorem lawful_lengthLoop : lengthLoop.Lawful := lawful_decimal (by decide) rfl rfl rfl rfl

/-- What a hexadecimal digit adds is its value. -/
theorem sizeLoop_digit {c : UInt8} (hc : isxdigit c = true) :
    Loop.total (sizeLoop.added c) - sizeLoop.subtracted c = ((hexDigit c).getD 0 : Nat) := by
  unfold isxdigit hexDigit at hc
  unfold hexDigit
  by_cases hdec : 48 ≤ c ∧ c ≤ 57
  · have hdigit : isdigit c = true := decide_eq_true hdec
    have hbounds := digit_bounds hdigit
    rw [if_pos hdec]
    simp only [sizeLoop, hdigit, if_true, Loop.total, charValue, Option.getD_some]
    omega
  · have hdigit : isdigit c = false := decide_eq_false hdec
    rw [if_neg hdec] at hc ⊢
    simp only [sizeLoop, hdigit, Bool.false_eq_true, if_false, Loop.total, charValue]
    by_cases hlow : 97 ≤ c ∧ c ≤ 102
    · have hge := UInt8.le_iff_toNat_le.mp hlow.1
      have hlower : lower c = c := by
        unfold lower
        rw [if_neg]
        intro h
        have hle := UInt8.le_iff_toNat_le.mp h.2
        simp only [UInt8.reduceToNat] at hge hle
        omega
      rw [if_pos hlow, hlower, Option.getD_some]
      simp only [UInt8.reduceToNat] at hge
      omega
    · rw [if_neg hlow] at hc ⊢
      by_cases hup : 65 ≤ c ∧ c ≤ 70
      · have hge := UInt8.le_iff_toNat_le.mp hup.1
        have hle := UInt8.le_iff_toNat_le.mp hup.2
        simp only [UInt8.reduceToNat] at hge hle
        have hlower : (lower c).toNat = c.toNat + 32 := by
          unfold lower
          have hupper : 65 ≤ c ∧ c ≤ 90 :=
            ⟨hup.1, UInt8.le_iff_toNat_le.mpr (by simp only [UInt8.reduceToNat]; omega)⟩
          rw [if_pos hupper, UInt8.toNat_add]
          simp only [UInt8.reduceToNat]
          omega
        rw [if_pos hup, hlower, Option.getD_some]
        omega
      · rw [if_neg hup] at hc
        cases hc

theorem lawful_sizeLoop : sizeLoop.Lawful where
  low := by decide
  base := by decide
  added := by
    intro c a ha
    have hchar (c : UInt8) : 0 ≤ charValue c := Int.natCast_nonneg _
    simp only [sizeLoop] at ha
    split at ha
    · rw [List.mem_singleton.mp ha]
      exact hchar c
    · rcases List.mem_cons.mp ha with rfl | ha
      · decide
      · rw [List.mem_singleton.mp ha]
        exact hchar (lower c)
  subtracted := by
    intro c
    simp only [sizeLoop]
    split <;> decide
  digit := by
    intro c hc
    have hvalue := sizeLoop_digit hc
    omega

theorem number_decimal {L : Loop UInt8} (hbase : L.base = 10)
    (hadded : L.added = fun c => [charValue c]) (hsubtracted : L.subtracted = fun _ => 48)
    {ds : Bytes} (hds : ∀ c ∈ ds, isdigit c = true) (v : Nat) :
    L.number v ds = number v ds := by
  induction ds generalizing v with
  | nil => rfl
  | cons c ds ih =>
    have hc := hds c List.mem_cons_self
    have hbounds := digit_bounds hc
    have hstep : (v : Int) * L.base + Loop.total (L.added c) - L.subtracted c =
        (v * 10 + digitValue c : Nat) := by
      rw [hbase, hadded, hsubtracted]
      simp only [Loop.total, charValue, digitValue]
      omega
    have hnumber : number v (c :: ds) = number (v * 10 + digitValue c) ds := by
      simp only [number, hc, if_true]
    rw [Loop.number, hstep, ih fun d hd => hds d (List.mem_cons_of_mem c hd), hnumber]

theorem number_hex {ds : Bytes} (hds : ∀ c ∈ ds, isxdigit c = true) (v : Nat) :
    sizeLoop.number v ds = hexValue v ds := by
  induction ds generalizing v with
  | nil => rfl
  | cons c ds ih =>
    have hvalue := sizeLoop_digit (hds c List.mem_cons_self)
    have hbase : sizeLoop.base = 16 := rfl
    have hstep : (v : Int) * sizeLoop.base + Loop.total (sizeLoop.added c) -
        sizeLoop.subtracted c = (v * 16 + (hexDigit c).getD 0 : Nat) := by
      rw [hbase]
      omega
    rw [Loop.number, hstep, ih fun d hd => hds d (List.mem_cons_of_mem c hd)]
    rfl

theorem statusLoop_number {ds : Bytes} (hds : ∀ c ∈ ds, isdigit c = true) :
    statusLoop.number 0 ds = number 0 ds := number_decimal rfl rfl rfl hds 0

theorem lengthLoop_number {ds : Bytes} (hds : ∀ c ∈ ds, isdigit c = true) :
    lengthLoop.number 0 ds = number 0 ds := number_decimal rfl rfl rfl hds 0

theorem sizeLoop_number {ds : Bytes} (hds : ∀ c ∈ ds, isxdigit c = true) :
    sizeLoop.number 0 ds = hexValue 0 ds := number_hex hds 0

theorem status_overflows_iff {ds : Bytes} (hds : ∀ c ∈ ds, isdigit c = true) :
    statusLoop.Overflows 0 ds ↔ INT_MAX - 48 < number 0 ds := by
  rw [Loop.overflows_iff, ← statusLoop_number hds]
  constructor
  · rintro ⟨p, c, hp, _, hhigh⟩
    exact hhigh.trans_le (lawful_statusLoop.number_le_of_prefix le_rfl hds hp)
  · intro hhigh
    rcases List.eq_nil_or_concat ds with rfl | ⟨p, c, rfl⟩
    · exact absurd hhigh (by decide)
    · rw [List.concat_eq_append] at hhigh ⊢
      exact ⟨p, c, List.prefix_rfl, nofun, hhigh⟩

theorem length_overflows_iff {ds : Bytes} (hds : ∀ c ∈ ds, isdigit c = true) :
    lengthLoop.Overflows 0 ds ↔
      ∃ p, p <+: ds ∧ OFF_MAX - 48 < number 0 p ∧ number 0 p < 10 * (OFF_MAX / 10) := by
  have hnumber {p : Bytes} (hp : p <+: ds) : lengthLoop.number 0 p = number 0 p :=
    lengthLoop_number fun c hc => hds c (hp.subset hc)
  have hadds : ∀ c ∈ ds, lengthLoop.subtracted c ≤ Loop.total (lengthLoop.added c) ∧
      Loop.total (lengthLoop.added c) < lengthLoop.subtracted c + lengthLoop.base := by
    intro c hc
    have hbounds := digit_bounds (hds c hc)
    simp only [lengthLoop, Loop.total, charValue]
    omega
  -- the model has the limits as natural numbers
  have hbetween (n : Nat) (c : UInt8) :
      lengthLoop.high - lengthLoop.subtracted c < n ∧ (n : Int) < lengthLoop.base * (OFF_MAX / 10) ↔
        OFF_MAX - 48 < n ∧ n < 10 * (OFF_MAX / 10) := by
    have hOFF : OFF_MAX = 9223372036854775807 := rfl
    simp only [lengthLoop]
    omega
  rw [Loop.overflows_iff_of_limit rfl lawful_lengthLoop.base hadds]
  constructor
  · rintro ⟨p, c, hp, hover⟩
    rw [hnumber hp, hbetween] at hover
    exact ⟨p ++ [c], hp, hover⟩
  · rintro ⟨q, hq, hover⟩
    rcases List.eq_nil_or_concat q with rfl | ⟨p, c, rfl⟩
    · exact absurd hover.1 (by decide)
    · rw [List.concat_eq_append] at hq hover
      rw [← hbetween _ c, ← hnumber hq] at hover
      exact ⟨p, c, hq, hover⟩

theorem size_overflows_iff {ds : Bytes} (hds : ∀ c ∈ ds, isxdigit c = true) :
    sizeLoop.Overflows 0 ds ↔ ∃ p c, p ++ [c] <+: ds ∧
      OFF_MAX - (if isdigit c then 48 else 97) < hexValue 0 (p ++ [c]) ∧
      hexValue 0 (p ++ [c]) < 16 * (OFF_MAX / 16) := by
  have hadds : ∀ c ∈ ds, sizeLoop.subtracted c ≤ Loop.total (sizeLoop.added c) ∧
      Loop.total (sizeLoop.added c) < sizeLoop.subtracted c + sizeLoop.base := by
    intro c hc
    obtain ⟨digit, hdigit⟩ := Option.isSome_iff_exists.mp (hds c hc)
    have hlt := hexDigit_lt hdigit
    have hvalue := sizeLoop_digit (hds c hc)
    have hbase : sizeLoop.base = 16 := rfl
    rw [hdigit, Option.getD_some] at hvalue
    omega
  rw [Loop.overflows_iff_of_limit rfl lawful_sizeLoop.base hadds]
  apply exists_congr
  intro p
  apply exists_congr
  intro c
  apply and_congr_right
  intro hp
  have hOFF : OFF_MAX = 9223372036854775807 := rfl
  rw [sizeLoop_number fun d hd => hds d (hp.subset hd)]
  simp only [sizeLoop]
  split <;> omega

theorem readStatus_exact_iff (hln : Bytes) :
    (NumberLine.status hln).Exact ↔ ∀ code ∈ codeText hln, statusLoop.Exact code := by
  simp only [NumberLine.Exact, NumberLine.read, NumberLine.written, readStatus]
  cases hcode : codeText hln with
  | none => simp
  | some code =>
    have hds := Loop.digits_digit (L := statusLoop) code
    have hnumber : statusLoop.number 0 (statusLoop.digits code) =
      number 0 (code.takeWhile isdigit) := statusLoop_number hds
    have hread := (lawful_statusLoop.read_spec le_rfl code).2
    simp only [Option.map_some, Option.mem_def, Option.some.injEq, forall_eq', Loop.Exact,
      exists_eq_left', hnumber] at hread ⊢
    cases hr : statusLoop.read 0 code with
    | undefined => simp
    | rejected => simp
    | value v =>
      rw [hr] at hread
      have hv : v = number 0 (code.takeWhile isdigit) := by simpa using hread nofun
      refine iff_of_true ?_ (.inr (congrArg Reading.value hv))
      dsimp only
      split
      · exact .inl rfl
      · exact .inr (congrArg Reading.value hv)

/-- The number in a line of a response is rejected or read as it is written exactly when the line
is safe. -/
theorem number_exact_iff (n : NumberLine) : n.Exact ↔ n.Safe := by
  cases n with
  | status hln =>
    rw [readStatus_exact_iff]
    unfold NumberLine.Safe
    apply forall_congr'
    intro code
    apply imp_congr_right
    intro _
    rw [lawful_statusLoop.exact_iff, status_overflows_iff (Loop.digits_digit code), not_lt]
    rfl
  | contentLength hln =>
    have hds := Loop.digits_digit (L := lengthLoop) (lengthText hln)
    have hexact : (NumberLine.contentLength hln).Exact ↔ lengthLoop.Exact (lengthText hln) := by
      simp only [NumberLine.Exact, NumberLine.read, NumberLine.written, readLength, Loop.Exact,
        Option.mem_def, Option.some.injEq, exists_eq_left', lengthLoop_number hds]
      rfl
    rw [hexact, lawful_lengthLoop.exact_iff, length_overflows_iff hds]
    simp only [NumberLine.Safe, not_exists, not_and]
    rfl
  | chunkSize hln =>
    have hds := Loop.digits_digit (L := sizeLoop) hln
    have hexact : (NumberLine.chunkSize hln).Exact ↔ sizeLoop.Exact hln := by
      simp only [NumberLine.Exact, NumberLine.read, NumberLine.written, readSize, Loop.Exact,
        Option.mem_def, Option.some.injEq, exists_eq_left', sizeLoop_number hds]
      rfl
    rw [hexact, lawful_sizeLoop.exact_iff, size_overflows_iff hds]
    simp only [NumberLine.Safe, not_exists, not_and]
    rfl

/-- A number that an `int` does not hold, and that is 200 modulo 2^32. -/
theorem statuscode_overflows : ¬ (NumberLine.status (ascii "HTTP/1.1 4294967496 OK")).Exact := by
  have hread : (NumberLine.status (ascii "HTTP/1.1 4294967496 OK")).read = .undefined := by decide
  rintro (h | ⟨v, _, h⟩)
  · rw [hread] at h
    cases h
  · rw [hread] at h
    cases h

end DeltaPorts.Phttpget

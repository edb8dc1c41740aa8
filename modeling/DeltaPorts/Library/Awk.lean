import Mathlib.Data.Int.Log
import Mathlib.Data.Rat.Floor

/-!
# Fields and comparison in awk

Records are split into fields at blanks. A field or a variable set on the command line that
looks like a decimal number is a numeric string, and `==` compares two of these as doubles;
any other two operands it compares as strings.
-/

set_option autoImplicit false

namespace Awk

abbrev Text := List Char

def isBlank (c : Char) : Bool := c = ' ' || c = '\t' || c = '\n'

/-- The maximal runs of characters that are no blanks. -/
def words : Text → List Text
  | [] => []
  | c :: rest =>
    if isBlank c then words rest
    else if rest.head?.all isBlank then [c] :: words rest
    else match words rest with
      | [] => [[c]]
      | w :: ws => (c :: w) :: ws

/-- `$n` of a record; a field that does not exist is empty. -/
def field (n : Nat) (record : Text) : Text := ((words record)[n - 1]?).getD []

def Plain (w : Text) : Prop := ∀ c ∈ w, isBlank c = false

instance (w : Text) : Decidable (Plain w) := List.decidableBAll (fun c => isBlank c = false) w

theorem Plain.newline_not_mem {w : Text} (h : Plain w) : '\n' ∉ w := by
  intro hmem
  have hblank := h '\n' hmem
  cases hblank

theorem Plain.path {v w : Text} (hv : Plain v) (hw : Plain w) : Plain (v ++ '/' :: w) := by
  intro c hc
  cases List.mem_append.mp hc with
  | inl hc => exact hv c hc
  | inr hc =>
    cases List.mem_cons.mp hc with
    | inl heq => exact heq ▸ rfl
    | inr hc => exact hw c hc

theorem words_blank_cons {c : Char} (hc : isBlank c = true) (l : Text) :
    words (c :: l) = words l := by
  simp [words, hc]

/-- A word that a blank or the end of the record follows is a field of its own. -/
theorem words_append {w : Text} (hw : Plain w) (hne : w ≠ []) {l : Text}
    (hl : l.head?.all isBlank = true) : words (w ++ l) = w :: words l := by
  induction w with
  | nil => exact absurd rfl hne
  | cons c w ih =>
    have hc : isBlank c = false := hw c List.mem_cons_self
    cases w with
    | nil => simp [words, hc, hl]
    | cons d w =>
      have hd : isBlank d = false := hw d (List.mem_cons_of_mem c List.mem_cons_self)
      have htail := ih (fun x hx => hw x (List.mem_cons_of_mem c hx)) (List.cons_ne_nil d w)
      rw [List.cons_append] at htail
      rw [List.cons_append, List.cons_append, words, htail]
      simp [hc, hd]

/-- The first field of a text one character longer. -/
theorem field_one_cons {c : Char} (hc : isBlank c = false) (l : Text) :
    field 1 (c :: l) = if l.head?.any isBlank then [c] else c :: field 1 l := by
  unfold field
  cases l with
  | nil => simp [words, hc]
  | cons d l =>
    by_cases hd : isBlank d = true
    · simp [words, hc, hd]
    · rw [words]
      cases hwords : words (d :: l) with
      | nil => simp [hc, hd]
      | cons w ws => simp [hc, hd]

/-- The first word of a text that begins with a part of a word. -/
theorem words_append_cons {u : Text} (hu : Plain u) (hne : u ≠ []) (l : Text) :
    ∃ w ws, words (u ++ l) = (u ++ w) :: ws := by
  induction u with
  | nil => exact absurd rfl hne
  | cons c u ih =>
    have hc : isBlank c = false := hu c List.mem_cons_self
    have htail : Plain u := fun x hx => hu x (List.mem_cons_of_mem c hx)
    rw [List.cons_append, words]
    simp only [hc, Bool.false_eq_true, if_false]
    cases u with
    | nil =>
      split
      · exact ⟨[], words l, rfl⟩
      · rw [List.nil_append]
        cases words l with
        | nil => exact ⟨[], [], rfl⟩
        | cons w ws => exact ⟨w, ws, rfl⟩
    | cons d u =>
      have hd : isBlank d = false := htail d List.mem_cons_self
      obtain ⟨w, ws, hwords⟩ := ih htail (List.cons_ne_nil d u)
      rw [hwords]
      refine ⟨w, ws, ?_⟩
      simp [hd]

/-- A word in front of a text that begins with one. -/
theorem words_append_word {u l : Text} (hu : Plain u) (hl : l.head?.all isBlank = false) :
    ∃ w ws, words l = w :: ws ∧ words (u ++ l) = (u ++ w) :: ws := by
  induction u with
  | nil =>
    obtain ⟨c, rest, rfl⟩ : ∃ c rest, l = c :: rest := by
      cases l with
      | nil => cases hl
      | cons c rest => exact ⟨c, rest, rfl⟩
    have hc : Plain [c] := by simpa [Plain] using hl
    obtain ⟨w, ws, hwords⟩ := words_append_cons hc (List.cons_ne_nil c []) rest
    exact ⟨c :: w, ws, hwords, hwords⟩
  | cons c u ih =>
    have hc : isBlank c = false := hu c List.mem_cons_self
    have htail : Plain u := fun x hx => hu x (List.mem_cons_of_mem c hx)
    obtain ⟨w, ws, hwords, happend⟩ := ih htail
    have hhead : (u ++ l).head?.all isBlank = false := by
      cases u with
      | nil => exact hl
      | cons d u => simpa using htail d List.mem_cons_self
    refine ⟨w, ws, hwords, ?_⟩
    rw [List.cons_append, words]
    simp only [hc, hhead, happend, Bool.false_eq_true, if_false, List.cons_append]

theorem words_plain {w : Text} (hw : Plain w) (hne : w ≠ []) : words w = [w] := by
  have h := words_append hw hne (l := []) rfl
  rwa [List.append_nil] at h

/-- Every field is a word: not empty and without blanks. -/
theorem plain_of_mem_words {l w : Text} (h : w ∈ words l) : Plain w ∧ w ≠ [] := by
  induction l generalizing w with
  | nil => simp [words] at h
  | cons c l ih =>
    unfold words at h
    split at h
    · exact ih h
    · rename_i hc
      have hc' : isBlank c = false := by simpa using hc
      split at h
      · rcases List.mem_cons.mp h with rfl | h
        · exact ⟨by simpa [Plain] using hc', by simp⟩
        · exact ih h
      · split at h
        · rw [List.mem_singleton.mp h]
          exact ⟨by simpa [Plain] using hc', by simp⟩
        · rename_i v vs hv
          rcases List.mem_cons.mp h with rfl | h
          · have hv' := (ih (hv ▸ List.mem_cons_self)).1
            refine ⟨?_, by simp⟩
            intro x hx
            rcases List.mem_cons.mp hx with rfl | hx
            · exact hc'
            · exact hv' x hx
          · exact ih (hv ▸ List.mem_cons_of_mem v h)

/-- The first word of a text that begins with one. -/
theorem prefix_of_words_eq_cons {l w : Text} {ws : List Text} (h : words l = w :: ws)
    (hhead : l.head?.all isBlank = false) : w <+: l := by
  induction l generalizing w ws with
  | nil => cases h
  | cons c l ih =>
    have hc : ¬ isBlank c = true := by simpa using hhead
    rw [words, if_neg hc] at h
    by_cases hnext : l.head?.all isBlank = true
    · rw [if_pos hnext] at h
      cases h
      exact List.prefix_append [c] l
    · rw [if_neg hnext] at h
      cases hwords : words l with
      | nil =>
        rw [hwords] at h
        cases h
        exact List.prefix_append [c] l
      | cons v vs =>
        rw [hwords] at h
        cases h
        exact (List.prefix_cons_inj c).mpr (ih hwords (Bool.eq_false_of_not_eq_true hnext))

theorem infix_of_mem_words {l w : Text} (h : w ∈ words l) : w <:+: l := by
  induction l with
  | nil => cases h
  | cons c l ih =>
    have htail (hw : w ∈ words l) : w <:+: c :: l := (ih hw).trans (List.suffix_cons c l).isInfix
    cases hwords : words (c :: l) with
    | nil => simp [hwords] at h
    | cons v vs =>
      rw [hwords] at h
      by_cases hc : isBlank c = true
      · rw [words_blank_cons hc] at hwords
        exact htail (hwords ▸ h)
      · rcases List.mem_cons.mp h with rfl | hmem
        · exact (prefix_of_words_eq_cons hwords (by simpa using hc)).isInfix
        · apply htail
          rw [words, if_neg hc] at hwords
          split at hwords
          · rwa [(List.cons.inj hwords).2]
          · split at hwords
            · rw [← (List.cons.inj hwords).2] at hmem
              cases hmem
            · next hcons =>
              rw [hcons, (List.cons.inj hwords).2]
              exact List.mem_cons_of_mem _ hmem

def octal? (c : Char) : Option Nat :=
  if '0' ≤ c ∧ c ≤ '7' then some (c.toNat - '0'.toNat) else none

/-- The octal digits, three at most, that follow a backslash. -/
def octalRun : Nat → Text → List Nat
  | n + 1, c :: rest =>
    match octal? c with
    | some d => d :: octalRun n rest
    | none => []
  | _, _ => []

/-- What a backslash and the character after it stand for. -/
def escape (c : Char) : Text :=
  match c with
  | '\\' => ['\\']
  | '"' => ['"']
  | '/' => ['/']
  | 'a' => [Char.ofNat 7]
  | 'b' => [Char.ofNat 8]
  | 'f' => [Char.ofNat 12]
  | 'n' => ['\n']
  | 'r' => ['\r']
  | 't' => ['\t']
  | 'v' => [Char.ofNat 11]
  | _ => ['\\', c]

/-- The value of a variable set by `-v var=text`, where escapes are processed; the number
counts the characters of an escape still to be skipped. -/
def assignedFrom : Nat → Text → Text
  | _, [] => []
  | n + 1, _ :: rest => assignedFrom n rest
  | 0, c :: rest =>
    if c ≠ '\\' then c :: assignedFrom 0 rest
    else match rest with
      | [] => ['\\']
      | d :: _ =>
        match octalRun 3 rest with
        | [] => escape d ++ assignedFrom 1 rest
        | ds => Char.ofNat (ds.foldl (fun n d => 8 * n + d) 0 % 256) ::
            assignedFrom ds.length rest

def assigned (l : Text) : Text := assignedFrom 0 l

theorem assigned_of_no_backslash {l : Text} (h : '\\' ∉ l) : assigned l = l := by
  unfold assigned
  induction l with
  | nil => rfl
  | cons c l ih =>
    have hc : c ≠ '\\' := fun hc => h (hc ▸ List.mem_cons_self)
    have htail := ih fun hl => h (List.mem_cons_of_mem c hl)
    simp [assignedFrom, hc, htail]

def digit? (c : Char) : Option Nat := if c.isDigit then some (c.toNat - '0'.toNat) else none

/-- Leading digits, read onto `acc`: the number, how many digits there were, and the rest. -/
def digits (acc : Nat) : Text → Nat × Nat × Text
  | [] => (acc, 0, [])
  | c :: rest =>
    match digit? c with
    | none => (acc, 0, c :: rest)
    | some d =>
      let r := digits (acc * 10 + d) rest
      (r.1, r.2.1 + 1, r.2.2)

def sign : Text → Int × Text
  | '-' :: rest => (-1, rest)
  | '+' :: rest => (1, rest)
  | rest => (1, rest)

/-- The exponent part, if there is one. -/
def exponent (l : Text) : Int × Text :=
  match l with
  | c :: rest =>
    if c = 'e' ∨ c = 'E' then
      let s := sign rest
      let d := digits 0 s.2
      if d.2.1 = 0 then (0, l) else (s.1 * d.1, d.2.2)
    else (0, l)
  | [] => (0, l)

/-- A decimal constant: its mantissa and its power of ten. -/
structure Decimal where
  mantissa : Int
  power : Int
  deriving DecidableEq

/-- The number that the whole of a string looks like, blanks around it apart. -/
def looksNumeric (l : Text) : Option Decimal :=
  let s := sign (l.dropWhile isBlank)
  let whole := digits 0 s.2
  let frac := match whole.2.2 with
    | '.' :: rest => digits whole.1 rest
    | rest => (whole.1, 0, rest)
  let e := exponent frac.2.2
  if whole.2.1 + frac.2.1 ≠ 0 ∧ e.2.all isBlank then
    some ⟨s.1 * frac.1, e.1 - frac.2.1⟩
  else none

def Decimal.value (d : Decimal) : ℚ := d.mantissa * (10 : ℚ) ^ d.power

/-- An IEEE 754 double without its NaNs and with one zero. -/
inductive Double where
  | finite (q : ℚ)
  | inf (negative : Bool)
  deriving DecidableEq

def Double.lt : Double → Double → Bool
  | .finite p, .finite q => p < q
  | .finite _, .inf negative => !negative
  | .inf negative, .finite _ => negative
  | .inf negative, .inf negative' => negative && !negative'

def roundHalfEven (q : ℚ) : Int :=
  let f := ⌊q⌋
  if q - f < 1 / 2 then f
  else if 1 / 2 < q - f then f + 1
  else if f % 2 = 0 then f else f + 1

/-- The double nearest to a positive number, ties to the even significand. -/
def nearest (q : ℚ) : ℚ :=
  let ulp := Int.log 2 q - 52
  roundHalfEven (q / (2 : ℚ) ^ ulp) * (2 : ℚ) ^ ulp

/-- `strtod` on a decimal constant. There is none where it reports `ERANGE`, and awk goes on
with the text: the number is too large for a double, or it is lost near 0. -/
def strtod (q : ℚ) : Option Double :=
  if q = 0 then some (.finite 0)
  else if |q| < (2 : ℚ) ^ (-1022 : Int) then none
  else
    let r := nearest |q|
    if (2 : ℚ) ^ (1024 : Int) ≤ r then none else some (.finite (if q < 0 then -r else r))

/-- Numbers so near to 0 that a double holds them with fewer digits. Not every `strtod` reports
`ERANGE` for them. -/
def Subnormal (q : ℚ) : Prop := (2 : ℚ) ^ (-1075 : Int) < |q| ∧ |q| < (2 : ℚ) ^ (-1022 : Int)

/-- The blanks that separate no fields. -/
def otherBlanks : Text := ['\r', Char.ofNat 11, Char.ofNat 12]

/-- How hexadecimal constants and the names of infinities and NaNs begin. -/
def otherNumbers : List Text :=
  ["0x".toList, "0X".toList, ['i'], ['I'], ['n'], ['N']]

/-- Texts that awks read differently. -/
def disputed (l : Text) : Bool :=
  (l.any fun c => otherBlanks.contains c) ||
    otherNumbers.any fun w => w.isPrefixOf (sign (l.dropWhile isBlank)).2

/-- How an awk reads numeric strings. What is in dispute among awks is left open, except that no
text is read as a NaN. -/
structure Reading where
  number : Text → Option Double
  /-- The number of a field that is not there, if it is not a text. -/
  missing : Option Double
  missing_zero : ∀ x, missing = some x → x = .finite 0
  decimal : ∀ l d, disputed l = false → looksNumeric l = some d → ¬ Subnormal d.value →
    number l = strtod d.value
  text : ∀ l, disputed l = false → looksNumeric l = none → number l = none

/-- The awk that reads nothing but decimal constants. -/
def decimals : Reading where
  number l := (looksNumeric l).bind fun d => strtod d.value
  missing := none
  missing_zero _ h := by cases h
  decimal l d _ hlooks _ := by rw [hlooks, Option.bind_some]
  text l _ hlooks := by rw [hlooks, Option.bind_none]

namespace Reading
variable (awk : Reading)

/-- `a == b` for fields and command-line variables. -/
def eq (a b : Text) : Bool :=
  match awk.number a, awk.number b with
  | some x, some y => x = y
  | _, _ => a = b

theorem eq_iff {a b : Text} :
    awk.eq a b = true ↔ a = b ∨ ∃ x, awk.number a = some x ∧ awk.number b = some x := by
  unfold eq
  constructor
  · intro h
    split at h
    · rename_i x y hx hy
      rw [decide_eq_true_eq] at h
      exact Or.inr ⟨x, hx, h ▸ hy⟩
    · exact Or.inl (by simpa using h)
  · rintro (rfl | ⟨x, ha, hb⟩)
    · split <;> simp_all
    · rw [ha, hb]
      simp

theorem number_nil : awk.number [] = none := awk.text [] rfl rfl

/-- The number of a field of a record that is split at blanks. None of these is empty. -/
def fieldNumber (b : Text) : Option Double := if b = [] then awk.missing else awk.number b

/-- `a == $n` for a command-line variable and a record that is split at blanks. -/
def eqField (a b : Text) : Bool :=
  match awk.number a, awk.fieldNumber b with
  | some x, some y => x = y
  | _, _ => a = b

theorem eqField_iff {a b : Text} : awk.eqField a b = true ↔
    a = b ∨ ∃ x, awk.number a = some x ∧ awk.fieldNumber b = some x := by
  unfold eqField
  constructor
  · intro h
    split at h
    · rename_i x y hx hy
      rw [decide_eq_true_eq] at h
      exact Or.inr ⟨x, hx, h ▸ hy⟩
    · exact Or.inl (by simpa using h)
  · rintro (rfl | ⟨x, ha, hb⟩)
    · by_cases hnil : a = []
      · subst hnil
        rw [awk.number_nil]
        exact decide_eq_true rfl
      · rw [fieldNumber, if_neg hnil]
        split <;> simp_all
    · rw [ha, hb]
      simp

/-- `a > e` for a field and an expression with the number `value`, which prints as `text`. -/
def exceeds (a : Text) (value : Double) (text : Text) : Bool :=
  match awk.number a with
  | some x => value.lt x
  | none => decide (text < a)

theorem exceeds_iff {a text : Text} {value : Double} :
    awk.exceeds a value text = true ↔
      (∃ x, awk.number a = some x ∧ value.lt x = true) ∨ (awk.number a = none ∧ text < a) := by
  unfold exceeds
  cases awk.number a <;> simp

end Reading

theorem roundHalfEven_natCast (n : Nat) : roundHalfEven n = n := by
  unfold roundHalfEven
  simp only [Int.floor_natCast, Int.cast_natCast, sub_self]
  exact if_pos (by norm_num)

theorem roundHalfEven_le (q : ℚ) : (roundHalfEven q : ℚ) ≤ q + 1 := by
  have hfloor := Int.floor_le q
  have hup : ((⌊q⌋ + 1 : Int) : ℚ) ≤ q + 1 := by
    push_cast
    linarith
  unfold roundHalfEven
  simp only
  split_ifs
  · linarith
  · exact hup
  · linarith
  · exact hup

/-- Rounding adds one unit in the last place at most. -/
theorem nearest_le {q : ℚ} (hq : 0 < q) : nearest q ≤ 2 * q := by
  have hulp : (0 : ℚ) < (2 : ℚ) ^ (Int.log 2 q - 52) := zpow_pos (by norm_num) _
  have hround := mul_le_mul_of_nonneg_right (roundHalfEven_le (q / (2 : ℚ) ^ (Int.log 2 q - 52)))
    hulp.le
  have hstep : (2 : ℚ) ^ (Int.log 2 q - 52) ≤ q := by
    have hlog : ((2 : Nat) : ℚ) ^ Int.log 2 q ≤ q := Int.zpow_log_le_self (by norm_num) hq
    have hmono : (2 : ℚ) ^ (Int.log 2 q - 52) ≤ (2 : ℚ) ^ Int.log 2 q :=
      zpow_le_zpow_right₀ (by norm_num) (by omega)
    exact hmono.trans (by exact_mod_cast hlog)
  rw [add_mul, div_mul_cancel₀ _ hulp.ne', one_mul] at hround
  unfold nearest
  simp only
  linarith

/-- What is neither too near to 0 nor too large is a number. -/
theorem strtod_eq {q : ℚ} (hnear : 1 ≤ |q|) (hlarge : |q| < 2 ^ 1000) :
    strtod q = some (.finite (if q < 0 then -nearest |q| else nearest |q|)) := by
  have hzero : q ≠ 0 := by
    rintro rfl
    norm_num at hnear
  have htiny : ¬ |q| < (2 : ℚ) ^ (-1022 : Int) := by
    have hone : (2 : ℚ) ^ (-1022 : Int) ≤ 1 := zpow_le_one_of_nonpos₀ (by norm_num) (by norm_num)
    exact not_lt.mpr (hone.trans hnear)
  have hround : ¬ (2 : ℚ) ^ (1024 : Int) ≤ nearest |q| := by
    have hle := nearest_le (zero_lt_one.trans_le hnear)
    have hpow : (2 : ℚ) * 2 ^ 1000 ≤ 2 ^ 1024 := by
      rw [← pow_succ']
      exact pow_le_pow_right₀ one_le_two (by omega)
    have hcast : (2 : ℚ) ^ (1024 : Int) = 2 ^ 1024 := zpow_natCast 2 1024
    rw [hcast, not_le]
    calc nearest |q| ≤ 2 * |q| := hle
      _ < 2 * 2 ^ 1000 := mul_lt_mul_of_pos_left hlarge two_pos
      _ ≤ 2 ^ 1024 := hpow
  unfold strtod
  rw [if_neg hzero, if_neg htiny]
  exact if_neg hround

theorem nearest_natCast {n : Nat} (hpos : 0 < n) (hn : n < 2 ^ 53) : nearest n = n := by
  have hlog : Nat.log 2 n ≤ 52 := Nat.lt_succ_iff.mp (Nat.log_lt_of_lt_pow (by omega) hn)
  have hulp : (Nat.log 2 n : Int) - 52 = -((52 - Nat.log 2 n : Nat) : Int) := by omega
  have hquotient : (n : ℚ) / 2 ^ (-((52 - Nat.log 2 n : Nat) : Int)) =
      (n * 2 ^ (52 - Nat.log 2 n) : Nat) := by
    rw [zpow_neg, div_inv_eq_mul, zpow_natCast]
    push_cast
    rfl
  unfold nearest
  rw [Int.log_natCast, hulp]
  simp only [hquotient, roundHalfEven_natCast, Int.cast_natCast]
  rw [zpow_neg, zpow_natCast]
  push_cast
  field_simp

/-- A double holds every whole number of at most 53 bits. -/
theorem strtod_natCast {n : Nat} (hn : n < 2 ^ 53) : strtod n = some (.finite n) := by
  rcases Nat.eq_zero_or_pos n with rfl | hpos
  · exact if_pos Nat.cast_zero
  · have hone : (1 : ℚ) ≤ n := by exact_mod_cast hpos
    have hlarge : (n : ℚ) < 2 ^ 1000 := by
      have hlt : (n : ℚ) < 2 ^ 53 := by exact_mod_cast hn
      have hpow : (2 : ℚ) ^ 53 ≤ 2 ^ 1000 := pow_le_pow_right₀ one_le_two (by omega)
      exact hlt.trans_le hpow
    have habs : |(n : ℚ)| = n := abs_of_nonneg (Nat.cast_nonneg n)
    rw [strtod_eq (hone.trans_eq habs.symm) (habs.trans_lt hlarge), habs, nearest_natCast hpos hn,
      if_neg (not_lt.mpr (Nat.cast_nonneg n))]

theorem digit_eq_some {c : Char} (hc : c.isDigit = true) :
    digit? c = some (c.toNat - '0'.toNat) := if_pos hc

theorem digits_whole {l : Text} (h : ∀ c ∈ l, c.isDigit = true) (acc : Nat) :
    (digits acc l).2 = (l.length, []) := by
  induction l generalizing acc with
  | nil => rfl
  | cons c l ih =>
    rw [digits, digit_eq_some (h c List.mem_cons_self)]
    simp only [ih fun d hd => h d (List.mem_cons_of_mem c hd), List.length_cons]

theorem digits_lt {l : Text} (h : ∀ c ∈ l, c.isDigit = true) (acc : Nat) :
    (digits acc l).1 < (acc + 1) * 10 ^ l.length := by
  induction l generalizing acc with
  | nil => simp [digits]
  | cons c l ih =>
    have hc := h c List.mem_cons_self
    have hvalue : c.toNat - '0'.toNat ≤ 9 := by
      simp only [Char.isDigit, Bool.and_eq_true, decide_eq_true_eq] at hc
      have hle : c.toNat ≤ 57 := UInt32.le_iff_toNat_le.mp hc.2
      change c.toNat - 48 ≤ 9
      omega
    rw [digits, digit_eq_some hc, List.length_cons, Nat.pow_succ]
    refine (ih (fun d hd => h d (List.mem_cons_of_mem c hd)) _).trans_le ?_
    rw [Nat.mul_comm (10 ^ l.length) 10, ← Nat.mul_assoc]
    exact Nat.mul_le_mul_right _ (by omega)

theorem digit_plain {c : Char} (hc : c.isDigit = true) : isBlank c = false ∧ c ≠ '-' ∧ c ≠ '+' := by
  refine ⟨?_, ?_, ?_⟩
  · cases hblank : isBlank c with
    | false => rfl
    | true =>
      simp only [isBlank, Bool.or_eq_true, decide_eq_true_eq] at hblank
      rcases hblank with (rfl | rfl) | rfl <;> cases hc
  · rintro rfl
    cases hc
  · rintro rfl
    cases hc

theorem sign_digits {l : Text} (h : ∀ c ∈ l, c.isDigit = true) :
    sign (l.dropWhile isBlank) = (1, l) := by
  cases l with
  | nil => rfl
  | cons c l =>
    obtain ⟨hblank, hminus, hplus⟩ := digit_plain (h c List.mem_cons_self)
    rw [List.dropWhile_cons_of_neg (by simp [hblank]), sign]
    · exact fun rest heq => hminus (List.cons.inj heq).1
    · exact fun rest heq => hplus (List.cons.inj heq).1

theorem looksNumeric_digits {l : Text} (hne : l ≠ []) (h : ∀ c ∈ l, c.isDigit = true) :
    looksNumeric l = some ⟨(digits 0 l).1, 0⟩ := by
  have hlength : 0 < l.length := List.length_pos_iff.mpr hne
  unfold looksNumeric
  simp only [sign_digits h, digits_whole h 0]
  rw [if_pos ⟨by omega, rfl⟩]
  simp [exponent]

theorem otherBlanks_digit : ∀ c ∈ otherBlanks, c.isDigit = false :=
  List.forall_iff_forall_mem.mp (by decide)

theorem otherNumbers_digit : ∀ w ∈ otherNumbers, ∃ c ∈ w, c.isDigit = false := by
  have hany : ∀ w ∈ otherNumbers, (w.any fun c => !c.isDigit) = true := by decide
  intro w hw
  obtain ⟨c, hc, hdigit⟩ := List.any_eq_true.mp (hany w hw)
  exact ⟨c, hc, by simpa using hdigit⟩

/-- A string of digits is not in dispute. -/
theorem disputed_digits {l : Text} (h : ∀ c ∈ l, c.isDigit = true) : disputed l = false := by
  unfold disputed
  rw [sign_digits h, Bool.or_eq_false_iff]
  constructor
  · rw [List.any_eq_false]
    intro c hc hother
    have hdigit := otherBlanks_digit c (List.contains_iff_mem.mp hother)
    rw [h c hc] at hdigit
    cases hdigit
  · rw [List.any_eq_false]
    intro w hw hprefix
    obtain ⟨c, hc, hdigit⟩ := otherNumbers_digit w hw
    rw [h c ((List.isPrefixOf_iff_prefix.mp hprefix).subset hc)] at hdigit
    cases hdigit

theorem not_subnormal_natCast (n : Nat) : ¬ Subnormal n := by
  rintro ⟨hlow, hhigh⟩
  rw [abs_of_nonneg (Nat.cast_nonneg n)] at hlow hhigh
  have hone : (2 : ℚ) ^ (-1022 : Int) ≤ 1 := zpow_le_one_of_nonpos₀ (by norm_num) (by norm_num)
  have hzero : n = 0 := Nat.lt_one_iff.mp (by exact_mod_cast hhigh.trans_le hone)
  have hpos : (0 : ℚ) < (2 : ℚ) ^ (-1075 : Int) := zpow_pos (by norm_num) _
  rw [hzero, Nat.cast_zero] at hlow
  exact absurd (hpos.trans hlow) (lt_irrefl 0)

/-- A string of digits is the number that they write. -/
theorem Reading.number_digits (awk : Reading) {l : Text} (hne : l ≠ [])
    (h : ∀ c ∈ l, c.isDigit = true) (hlt : (digits 0 l).1 < 2 ^ 53) :
    awk.number l = some (.finite (digits 0 l).1) := by
  have hlooks := looksNumeric_digits hne h
  have hvalue : (⟨(digits 0 l).1, 0⟩ : Decimal).value = ((digits 0 l).1 : Nat) := by
    simp [Decimal.value]
  have hnormal := not_subnormal_natCast (digits 0 l).1
  rw [← hvalue] at hnormal
  rw [awk.decimal l _ (disputed_digits h) hlooks hnormal, hvalue, strtod_natCast hlt]

example : looksNumeric "1.10".toList = some ⟨110, -2⟩ := by decide
example : looksNumeric "25.2.2.2".toList = none := by decide

end Awk

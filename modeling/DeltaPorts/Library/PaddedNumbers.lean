import Mathlib.Algebra.Group.Nat.Defs
import Mathlib.Data.Char
import Mathlib.Data.List.Lex

/-!
# Numbers with leading zeros

Texts that begin with numbers of one width compare as these numbers do.
-/

set_option autoImplicit false

namespace PaddedNumbers

abbrev Text := List Char

/-- `%0wd` -/
def padded (w n : Nat) : Text := (Nat.toDigits 10 n).leftpad w '0'

def Digits (l : Text) : Prop := ∀ c ∈ l, c.isDigit = true

theorem digit_lt_ten {c : Char} (hc : c.isDigit = true) :
    48 ≤ c.toNat ∧ c.toNat - 48 < 10 := by
  simp only [Char.isDigit, Bool.and_eq_true, decide_eq_true_eq] at hc
  have hlow : 48 ≤ c.toNat := UInt32.le_iff_toNat_le.mp hc.1
  have hhigh : c.toNat ≤ 57 := UInt32.le_iff_toNat_le.mp hc.2
  omega

/-- The digits that follow a number stay below one more of it. -/
theorem value_bounds {l : Text} (hl : Digits l) (n : Nat) :
    n * 10 ^ l.length ≤ Nat.ofDigitChars 10 l n ∧
      Nat.ofDigitChars 10 l n < (n + 1) * 10 ^ l.length := by
  induction l generalizing n with
  | nil => simp
  | cons c l ih =>
    obtain ⟨hlow, hhigh⟩ := ih (fun d hd => hl d (List.mem_cons_of_mem c hd))
      (10 * n + (c.toNat - 48))
    have hc := (digit_lt_ten (hl c List.mem_cons_self)).2
    have hshift : 10 ^ (l.length + 1) = 10 * 10 ^ l.length := Nat.pow_succ'
    rw [List.length_cons, Nat.ofDigitChars_cons, hshift, ← Nat.mul_assoc, ← Nat.mul_assoc]
    constructor
    · exact (Nat.mul_le_mul_right _ (by omega)).trans hlow
    · exact hhigh.trans_le (Nat.mul_le_mul_right _ (by omega))

/-- The larger of two numbers of one length comes later, whatever follows them. -/
theorem append_lt_append {a b : Text} (ha : Digits a) (hb : Digits b)
    (hlength : a.length = b.length) {n : Nat}
    (hlt : Nat.ofDigitChars 10 a n < Nat.ofDigitChars 10 b n) (x y : Text) :
    a ++ x < b ++ y := by
  induction a generalizing b n with
  | nil =>
    rw [List.eq_nil_of_length_eq_zero hlength.symm] at hlt
    exact absurd hlt (Nat.lt_irrefl _)
  | cons c a ih =>
    cases b with
    | nil => cases hlength
    | cons d b =>
      have htaila : Digits a := fun e he => ha e (List.mem_cons_of_mem c he)
      have htailb : Digits b := fun e he => hb e (List.mem_cons_of_mem d he)
      have htails : a.length = b.length := Nat.succ.inj hlength
      rw [Nat.ofDigitChars_cons, Nat.ofDigitChars_cons] at hlt
      rw [List.cons_append, List.cons_append, List.cons_lt_cons_iff]
      rcases lt_trichotomy c d with hcd | rfl | hdc
      · exact Or.inl hcd
      · exact Or.inr ⟨rfl, ih htaila htailb htails hlt⟩
      · -- a larger first digit makes the whole number larger
        have hdigit : d.toNat < c.toNat := hdc
        have hc := digit_lt_ten (ha c List.mem_cons_self)
        have hd := digit_lt_ten (hb d List.mem_cons_self)
        have hbelow := (value_bounds htailb (10 * n + (d.toNat - 48))).2
        have habove := (value_bounds htaila (10 * n + (c.toNat - 48))).1
        have hle : (10 * n + (d.toNat - 48) + 1) * 10 ^ b.length ≤
            (10 * n + (c.toNat - 48)) * 10 ^ b.length := Nat.mul_le_mul_right _ (by omega)
        rw [htails] at habove
        exact absurd (hlt.trans (hbelow.trans_le (hle.trans habove))) (Nat.lt_irrefl _)

variable {w m n : Nat}

theorem digits_padded : Digits (padded w n) := by
  intro c hc
  unfold padded List.leftpad at hc
  rcases List.mem_append.mp hc with hc | hc
  · rw [List.eq_of_mem_replicate hc]
    rfl
  · exact Nat.isDigit_of_mem_toDigits (by decide) (by decide) hc

theorem value_padded : Nat.ofDigitChars 10 (padded w n) 0 = n := by
  unfold padded List.leftpad
  rw [Nat.ofDigitChars_append, Nat.ofDigitChars_replicate_zero, Nat.mul_zero,
    Nat.ofDigitChars_ten_toDigits]

theorem length_padded (hw : 0 < w) (hn : n < 10 ^ w) : (padded w n).length = w := by
  unfold padded
  rw [List.length_leftpad]
  exact max_eq_left ((Nat.length_toDigits_le_iff (by decide) hw).mpr hn)

theorem padded_append_lt (hw : 0 < w) (hm : m < 10 ^ w) (hlt : n < m) (x y : Text) :
    padded w n ++ x < padded w m ++ y := by
  have hlength : (padded w n).length = (padded w m).length := by
    rw [length_padded hw (hlt.trans hm), length_padded hw hm]
  refine append_lt_append (n := 0) digits_padded digits_padded hlength ?_ x y
  rwa [value_padded, value_padded]

/-- A number that comes first is not the larger one. -/
theorem le_of_padded_append_le (hw : 0 < w) (hn : n < 10 ^ w) {x y : Text}
    (hle : padded w n ++ x ≤ padded w m ++ y) : n ≤ m := by
  by_contra hlt
  exact absurd (padded_append_lt hw hn (Nat.lt_of_not_le hlt) y x) (not_lt_of_ge hle)

end PaddedNumbers

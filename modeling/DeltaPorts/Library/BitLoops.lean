import Mathlib.Data.Nat.Bits
import Mathlib.Tactic.Ring

/-!
# Bitwise operations by parity and halving

A loop that halves two numbers and adds up the powers of two at which the test of their parities
succeeds.
-/

set_option autoImplicit false

namespace BitLoops

variable (test : Bool → Bool → Bool)

/-- `r` is the result so far, and `p` the power of two for the next bit. -/
def loop (a b r p : Nat) : Nat :=
  if a > 0 ∨ b > 0 then
    loop (a / 2) (b / 2) (if test (a % 2 = 1) (b % 2 = 1) then r + p else r) (p * 2)
  else r
termination_by a + b
decreasing_by omega

variable {test}

theorem bitwise_zero (htest : test false false = false) : Nat.bitwise test 0 0 = 0 := by
  apply Nat.eq_of_testBit_eq
  intro i
  rw [Nat.testBit_bitwise htest, Nat.zero_testBit, htest]

/-- The last bit of the result, and the result for the halves. -/
theorem bitwise_eq (htest : test false false = false) (a b : Nat) :
    Nat.bitwise test a b =
      (test (a % 2 = 1) (b % 2 = 1)).toNat + 2 * Nat.bitwise test (a / 2) (b / 2) := by
  have hlow : Nat.bitwise test a b % 2 = (test (a % 2 = 1) (b % 2 = 1)).toNat := by
    have hbit := Nat.testBit_bitwise htest a b 0
    rw [Nat.testBit_zero, Nat.testBit_zero, Nat.testBit_zero] at hbit
    rw [← hbit]
    rcases Nat.mod_two_eq_zero_or_one (Nat.bitwise test a b) with h | h <;> simp [h]
  have hhigh : Nat.bitwise test a b / 2 = Nat.bitwise test (a / 2) (b / 2) := by
    apply Nat.eq_of_testBit_eq
    intro i
    rw [← Nat.testBit_succ, Nat.testBit_bitwise htest, Nat.testBit_bitwise htest, Nat.testBit_succ,
      Nat.testBit_succ]
  omega

/-- What is left of both numbers is still to be added, from the bit of `p` on. -/
theorem loop_eq (htest : test false false = false) (a b r p : Nat) :
    loop test a b r p = r + p * Nat.bitwise test a b := by
  induction a, b, r, p using loop.induct test with
  | case1 a b r p h ih =>
    simp only [dite_eq_ite] at ih
    rw [loop, if_pos h, ih, bitwise_eq htest a b]
    cases test (a % 2 = 1) (b % 2 = 1) with
    | false =>
      simp only [Bool.false_eq_true, if_false, Bool.toNat_false]
      ring
    | true =>
      simp only [if_true, Bool.toNat_true]
      ring
  | case2 a b r p h =>
    have ha : a = 0 := by omega
    have hb : b = 0 := by omega
    rw [loop, if_neg h, ha, hb, bitwise_zero htest, Nat.mul_zero, Nat.add_zero]

end BitLoops

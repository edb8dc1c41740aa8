import Mathlib.Data.List.Count
import Mathlib.Data.List.Range

/-!
# Choosing from a list by a number

An element of weight `w` has `w` consecutive numbers. What is chosen is where a number comes to
when the weights before it are taken off.
-/

set_option autoImplicit false

namespace WeightedChoice

variable {α : Type} (weight : α → Nat)

def total : List α → Nat
  | [] => 0
  | x :: xs => weight x + total xs

def choose : List α → Nat → Option α
  | [], _ => none
  | x :: xs, r => if r < weight x then some x else choose xs (r - weight x)

variable {weight} {xs : List α} {x : α} {r : Nat}

theorem choose_eq_some (h : choose weight xs r = some x) : x ∈ xs ∧ 0 < weight x := by
  induction xs generalizing r with
  | nil => cases h
  | cons y xs ih =>
    unfold choose at h
    split at h
    · next hlt =>
      cases h
      exact ⟨List.mem_cons_self, by omega⟩
    · exact ⟨List.mem_cons_of_mem y (ih h).1, (ih h).2⟩

theorem exists_choose (h : r < total weight xs) : ∃ x, choose weight xs r = some x := by
  induction xs generalizing r with
  | nil => exact absurd h (Nat.not_lt_zero r)
  | cons y xs ih =>
    unfold total at h
    unfold choose
    by_cases hlt : r < weight y
    · exact ⟨y, if_pos hlt⟩
    · rw [if_neg hlt]
      exact ih (by omega)

theorem total_eq_zero_iff : total weight xs = 0 ↔ ∀ x ∈ xs, weight x = 0 := by
  induction xs with
  | nil => exact iff_of_true rfl nofun
  | cons y xs ih => rw [total, Nat.add_eq_zero_iff, ih, List.forall_mem_cons]

theorem total_congr {weight' : α → Nat} (h : ∀ x ∈ xs, weight x = weight' x) :
    total weight xs = total weight' xs := by
  induction xs with
  | nil => rfl
  | cons y xs ih =>
    rw [total, total, h y List.mem_cons_self, ih fun x hx => h x (List.mem_cons_of_mem y hx)]

/-- With the weight 1 for each. -/
theorem total_one (xs : List α) : total (fun _ => 1) xs = xs.length := by
  induction xs with
  | nil => rfl
  | cons y xs ih => rw [total, ih, List.length_cons, Nat.add_comm]

theorem choose_cons_add (y : α) (r : Nat) :
    choose weight (y :: xs) (weight y + r) = choose weight xs r := by
  have hge : ¬ weight y + r < weight y := by omega
  rw [choose, if_neg hge, Nat.add_sub_cancel_left]

/-- Of the numbers below the sum of the weights, an element is chosen by as many as its weight,
each time that it occurs. -/
theorem countP_choose [DecidableEq α] (xs : List α) (x : α) :
    ((List.range (total weight xs)).countP fun r => choose weight xs r = some x) =
      xs.count x * weight x := by
  induction xs with
  | nil => simp [total]
  | cons y xs ih =>
    have hfirst : ((List.range (weight y)).countP fun r => choose weight (y :: xs) r = some x) =
        if y = x then weight y else 0 := by
      have hy : ∀ r ∈ List.range (weight y), choose weight (y :: xs) r = some y :=
        fun r hr => if_pos (List.mem_range.mp hr)
      by_cases hyx : y = x
      · rw [if_pos hyx, List.countP_eq_length.mpr, List.length_range]
        intro r hr
        rw [hy r hr, hyx]
        exact decide_eq_true rfl
      · rw [if_neg hyx, List.countP_eq_zero]
        intro r hr
        rw [hy r hr, decide_eq_true_iff]
        exact fun h => hyx (Option.some.inj h)
    have hrest : (((List.range (total weight xs)).map (weight y + ·)).countP fun r =>
        choose weight (y :: xs) r = some x) = xs.count x * weight x := by
      rw [← ih, List.countP_map]
      simp only [Function.comp_def, choose_cons_add]
    rw [total, List.range_add, List.countP_append, hfirst, hrest, List.count_cons]
    by_cases hyx : y = x
    · subst hyx
      simp only [if_true, beq_self_eq_true, Nat.add_mul, Nat.one_mul, Nat.add_comm]
    · simp [hyx]

end WeightedChoice

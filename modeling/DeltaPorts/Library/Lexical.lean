import Mathlib.Data.Int.Order.Basic
import Mathlib.Data.List.Lex
import Mathlib.Order.Defs.LinearOrder

/-!
# Comparing strings by the first position where they differ

`rank` says how the letters are ordered. The end of a string comes before every letter.
-/

set_option autoImplicit false

namespace Lexical

variable {α : Type} [DecidableEq α] {rank : α → Int}

/-- -1, 0 or 1, as the C library's comparison functions have it. -/
def compare (rank : α → Int) : List α → List α → Int
  | [], [] => 0
  | [], _ :: _ => -1
  | _ :: _, [] => 1
  | a :: as, b :: bs =>
    if a = b then compare rank as bs else if rank a < rank b then -1 else 1

theorem compare_trichotomy (hrank : Function.Injective rank) (as bs : List α) :
    compare rank as bs = -1 ∧ as.map rank < bs.map rank ∨ compare rank as bs = 0 ∧ as = bs ∨
      compare rank as bs = 1 ∧ bs.map rank < as.map rank := by
  induction as generalizing bs with
  | nil =>
    cases bs with
    | nil => exact .inr (.inl ⟨rfl, rfl⟩)
    | cons b bs => exact .inl ⟨rfl, List.nil_lt_cons _ _⟩
  | cons a as ih =>
    cases bs with
    | nil => exact .inr (.inr ⟨rfl, List.nil_lt_cons _ _⟩)
    | cons b bs =>
      unfold compare
      by_cases hab : a = b
      · subst hab
        rw [if_pos rfl]
        rcases ih bs with ⟨h, hlt⟩ | ⟨h, heq⟩ | ⟨h, hlt⟩
        · exact .inl ⟨h, List.cons_lt_cons_iff.mpr (.inr ⟨rfl, hlt⟩)⟩
        · exact .inr (.inl ⟨h, congrArg (a :: ·) heq⟩)
        · exact .inr (.inr ⟨h, List.cons_lt_cons_iff.mpr (.inr ⟨rfl, hlt⟩)⟩)
      · rw [if_neg hab]
        rcases lt_trichotomy (rank a) (rank b) with hlt | heq | hgt
        · rw [if_pos hlt]
          exact .inl ⟨rfl, List.cons_lt_cons_iff.mpr (.inl hlt)⟩
        · exact absurd (hrank heq) hab
        · rw [if_neg hgt.not_gt]
          exact .inr (.inr ⟨rfl, List.cons_lt_cons_iff.mpr (.inl hgt)⟩)

theorem compare_neg_iff (hrank : Function.Injective rank) {as bs : List α} :
    compare rank as bs < 0 ↔ as.map rank < bs.map rank := by
  rcases compare_trichotomy hrank as bs with ⟨h, hlt⟩ | ⟨h, rfl⟩ | ⟨h, hlt⟩
  · rw [h]
    exact iff_of_true (by decide) hlt
  · rw [h]
    exact iff_of_false (by decide) (lt_irrefl _)
  · rw [h]
    exact iff_of_false (by decide) hlt.not_gt

theorem compare_eq_zero_iff (hrank : Function.Injective rank) {as bs : List α} :
    compare rank as bs = 0 ↔ as = bs := by
  rcases compare_trichotomy hrank as bs with ⟨h, hlt⟩ | ⟨h, heq⟩ | ⟨h, hlt⟩
  · rw [h]
    refine iff_of_false (by decide) ?_
    rintro rfl
    exact lt_irrefl _ hlt
  · exact iff_of_true h heq
  · rw [h]
    refine iff_of_false (by decide) ?_
    rintro rfl
    exact lt_irrefl _ hlt

theorem compare_pos_iff (hrank : Function.Injective rank) {as bs : List α} :
    0 < compare rank as bs ↔ compare rank bs as < 0 := by
  rw [compare_neg_iff hrank]
  rcases compare_trichotomy hrank as bs with ⟨h, hlt⟩ | ⟨h, rfl⟩ | ⟨h, hlt⟩
  · rw [h]
    exact iff_of_false (by decide) hlt.not_gt
  · rw [h]
    exact iff_of_false (by decide) (lt_irrefl _)
  · rw [h]
    exact iff_of_true (by decide) hlt

/-- The order of `compare`, by comparing the ranks. -/
theorem compare_nonpos_iff (hrank : Function.Injective rank) {as bs : List α} :
    compare rank as bs ≤ 0 ↔ as.map rank ≤ bs.map rank := by
  have hpos : 0 < compare rank as bs ↔ compare rank bs as < 0 := compare_pos_iff hrank
  rw [compare_neg_iff hrank] at hpos
  rw [← not_lt, ← not_lt, hpos]

theorem isLinearOrder_compare (hrank : Function.Injective rank) :
    IsLinearOrder (List α) fun as bs => compare rank as bs ≤ 0 where
  refl as := by
    rw [compare_nonpos_iff hrank]
  trans as bs cs hab hbc := by
    rw [compare_nonpos_iff hrank] at hab hbc ⊢
    exact hab.trans hbc
  antisymm as bs hab hba := by
    rw [compare_nonpos_iff hrank] at hab hba
    exact hrank.list_map (hab.antisymm hba)
  total as bs := by
    rw [compare_nonpos_iff hrank, compare_nonpos_iff hrank]
    exact le_total _ _

theorem compare_append (rank : α → Int) (w as bs : List α) :
    compare rank (w ++ as) (w ++ bs) = compare rank as bs := by
  induction w with
  | nil => rfl
  | cons a w ih =>
    rw [List.cons_append, List.cons_append, compare, if_pos rfl, ih]

/-- The strings that begin alike stand together. -/
theorem prefix_between {w as bs cs : List α} (has : w <+: as) (hcs : w <+: cs)
    (hab : compare rank as bs ≤ 0) (hbc : compare rank bs cs ≤ 0) : w <+: bs := by
  induction w generalizing as bs cs with
  | nil => exact List.nil_prefix
  | cons c w ih =>
    obtain ⟨as, rfl⟩ := has
    obtain ⟨cs, rfl⟩ := hcs
    rw [List.cons_append] at hab hbc
    cases bs with
    | nil => exact absurd (show (1 : Int) ≤ 0 from hab) (by decide)
    | cons b bs =>
      unfold compare at hab hbc
      by_cases hcb : c = b
      · subst hcb
        rw [if_pos rfl] at hab hbc
        exact List.cons_prefix_cons.mpr
          ⟨rfl, ih (List.prefix_append w as) (List.prefix_append w cs) hab hbc⟩
      · rw [if_neg hcb] at hab
        rw [if_neg (Ne.symm hcb)] at hbc
        split at hab
        · next hlt =>
          rw [if_neg hlt.not_gt] at hbc
          exact absurd hbc (by decide)
        · exact absurd hab (by decide)

end Lexical

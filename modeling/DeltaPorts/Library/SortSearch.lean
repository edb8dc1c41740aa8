import Mathlib.Data.List.GetD
import Mathlib.Data.List.Nodup
import Mathlib.Data.List.Perm.Basic
import Mathlib.GroupTheory.Perm.Basic
import Mathlib.Logic.Equiv.Basic

/-!
# Heap sort and binary search in an array

An array is a function from positions, with a size. `less` need not tell all elements apart.
-/

set_option autoImplicit false

namespace HeapSort

variable {α : Type} (less : α → α → Bool)

def swap (a : Nat → α) (i j : Nat) : Nat → α :=
  fun k => if k = i then a j else if k = j then a i else a k

/-- A largest element out of `pos`, `2 * pos + 1` and `2 * pos + 2`. -/
def largest (size : Nat) (a : Nat → α) (pos : Nat) : Nat :=
  let i := if 2 * pos + 1 < size ∧ less (a pos) (a (2 * pos + 1)) then 2 * pos + 1 else pos
  if 2 * pos + 2 < size ∧ less (a i) (a (2 * pos + 2)) then 2 * pos + 2 else i

/-- At most `fuel` swaps down the tree. -/
def sift (size : Nat) : Nat → (Nat → α) → Nat → (Nat → α)
  | 0, a, _ => a
  | fuel + 1, a, pos =>
    let i := largest less size a pos
    if i ≠ pos then sift size fuel (swap a pos i) i else a

def heapify (size : Nat) (a : Nat → α) (pos : Nat) : Nat → α := sift less size (size - pos) a pos

/-- Heapify the positions below the given one, the last one first. -/
def build (size : Nat) : Nat → (Nat → α) → (Nat → α)
  | 0, a => a
  | i + 1, a => build size i (heapify less size a i)

/-- Move the largest element to the given position, and so on downwards. -/
def extract : Nat → (Nat → α) → (Nat → α)
  | 0, a => a
  | i + 1, a => extract i (heapify less (i + 1) (swap a 0 (i + 1)) 0)

def sortArray (size : Nat) (a : Nat → α) : Nat → α := extract less (size - 1) (build less size size a)

def sort [Inhabited α] (xs : List α) : List α :=
  (List.range xs.length).map (sortArray less xs.length fun k => xs.getD k default)

/-- The elements below `size` have changed places. -/
def Rearranged (size : Nat) (a a' : Nat → α) : Prop :=
  ∃ σ : Equiv.Perm Nat, (∀ k, size ≤ k → σ k = k) ∧ a' = a ∘ σ

variable {less} {a a' a'' : Nat → α} {size size' pos lo i j k n : Nat}

theorem Rearranged.refl (size : Nat) (a : Nat → α) : Rearranged size a a :=
  ⟨Equiv.refl _, fun _ _ => rfl, rfl⟩

theorem Rearranged.trans (h : Rearranged size a a') (h' : Rearranged size a' a'') :
    Rearranged size a a'' := by
  obtain ⟨σ, hσ, rfl⟩ := h
  obtain ⟨τ, hτ, rfl⟩ := h'
  refine ⟨τ.trans σ, ?_, rfl⟩
  intro k hk
  rw [Equiv.trans_apply, hτ k hk, hσ k hk]

theorem Rearranged.mono (h : Rearranged size a a') (hsize : size ≤ size') :
    Rearranged size' a a' := by
  obtain ⟨σ, hσ, ha⟩ := h
  exact ⟨σ, fun k hk => hσ k (hsize.trans hk), ha⟩

theorem Rearranged.outside (h : Rearranged size a a') (hk : size ≤ k) : a' k = a k := by
  obtain ⟨σ, hσ, rfl⟩ := h
  rw [Function.comp_apply, hσ k hk]

theorem lt_of_fixed {σ : Equiv.Perm Nat} (hσ : ∀ k, size ≤ k → σ k = k) (hk : k < size) :
    σ k < size := by
  by_contra hle
  have hfix := hσ (σ k) (by omega)
  have hk' := σ.injective hfix
  omega

theorem Rearranged.inside (h : Rearranged size a a') (hk : k < size) :
    ∃ k' < size, a' k = a k' := by
  obtain ⟨σ, hσ, rfl⟩ := h
  exact ⟨σ k, lt_of_fixed hσ hk, rfl⟩

theorem Rearranged.perm (h : Rearranged size a a') :
    ((List.range size).map a').Perm ((List.range size).map a) := by
  obtain ⟨σ, hσ, rfl⟩ := h
  have hσ' : ∀ k, size ≤ k → σ.symm k = k := by
    intro k hk
    rw [Equiv.symm_apply_eq, hσ k hk]
  have hrange : ((List.range size).map σ).Perm (List.range size) := by
    apply (List.perm_ext_iff_of_nodup (List.nodup_range.map σ.injective) List.nodup_range).mpr
    intro k
    rw [List.mem_map, List.mem_range]
    constructor
    · rintro ⟨j, hj, rfl⟩
      exact lt_of_fixed hσ (List.mem_range.mp hj)
    · intro hk
      exact ⟨σ.symm k, List.mem_range.mpr (lt_of_fixed hσ' hk), σ.apply_symm_apply k⟩
  rw [← List.map_map]
  exact hrange.map a

theorem rearranged_swap (hi : i < size) (hj : j < size) : Rearranged size a (swap a i j) := by
  refine ⟨Equiv.swap i j, ?_, ?_⟩
  · intro k hk
    apply Equiv.swap_apply_of_ne_of_ne
    · omega
    · omega
  · funext k
    rw [Function.comp_apply, Equiv.swap_apply_def]
    unfold swap
    split
    · rfl
    · split <;> rfl

theorem swap_left (a : Nat → α) (i j : Nat) : swap a i j i = a j := if_pos rfl

theorem swap_right (a : Nat → α) (i j : Nat) : swap a i j j = a i := by
  unfold swap
  split
  · rename_i h
    rw [h]
  · exact if_pos rfl

theorem swap_of_ne (hi : k ≠ i) (hj : k ≠ j) : swap a i j k = a k := by
  unfold swap
  rw [if_neg hi, if_neg hj]

structure WeakOrder (less : α → α → Bool) : Prop where
  asymm : ∀ {x y}, less x y = true → less y x = false
  trans : ∀ {x y z}, less x y = false → less y z = false → less x z = false

def IsChild (c k : Nat) : Prop := c = 2 * k + 1 ∨ c = 2 * k + 2

/-- No element from `lo` on is less than its children. -/
def HeapFrom (less : α → α → Bool) (a : Nat → α) (size lo : Nat) : Prop :=
  ∀ k c, lo ≤ k → IsChild c k → c < size → less (a k) (a c) = false

/-- A heap but for the element at `pos`, whose children are in order with its parent. -/
structure HeapExcept (less : α → α → Bool) (a : Nat → α) (size lo pos : Nat) : Prop where
  others : ∀ k c, lo ≤ k → k ≠ pos → IsChild c k → c < size → less (a k) (a c) = false
  grand : ∀ k c, lo ≤ k → IsChild pos k → IsChild c pos → c < size → less (a k) (a c) = false

section Order

variable (hless : WeakOrder less)

include hless

theorem WeakOrder.irrefl (x : α) : less x x = false := by
  cases h : less x x with
  | false => rfl
  | true =>
    rw [hless.asymm h] at h
    cases h

theorem WeakOrder.lt_trans {x y z : α} (hxy : less x y = true) (hyz : less y z = true) :
    less x z = true := by
  cases hxz : less x z with
  | true => rfl
  | false =>
    have hnot := hless.trans hxz (hless.asymm hyz)
    rw [hxy] at hnot
    cases hnot

theorem largest_spec (size : Nat) (a : Nat → α) (pos : Nat) :
    (largest less size a pos = pos ∨ IsChild (largest less size a pos) pos ∧
      largest less size a pos < size ∧ less (a pos) (a (largest less size a pos)) = true) ∧
    ∀ c, IsChild c pos → c < size → less (a (largest less size a pos)) (a c) = false := by
  unfold largest
  by_cases hl : 2 * pos + 1 < size ∧ less (a pos) (a (2 * pos + 1)) = true
  · rw [if_pos hl]
    by_cases hr : 2 * pos + 2 < size ∧ less (a (2 * pos + 1)) (a (2 * pos + 2)) = true
    · rw [if_pos hr]
      refine ⟨.inr ⟨.inr rfl, hr.1, hless.lt_trans hl.2 hr.2⟩, ?_⟩
      rintro c (rfl | rfl) _
      · exact hless.asymm hr.2
      · exact hless.irrefl _
    · rw [if_neg hr]
      refine ⟨.inr ⟨.inl rfl, hl⟩, ?_⟩
      rintro c (rfl | rfl) hc
      · exact hless.irrefl _
      · exact Bool.eq_false_iff.mpr fun h => hr ⟨hc, h⟩
  · rw [if_neg hl]
    by_cases hr : 2 * pos + 2 < size ∧ less (a pos) (a (2 * pos + 2)) = true
    · rw [if_pos hr]
      refine ⟨.inr ⟨.inr rfl, hr⟩, ?_⟩
      rintro c (rfl | rfl) hc
      · apply hless.trans (hless.asymm hr.2)
        exact Bool.eq_false_iff.mpr fun h => hl ⟨hc, h⟩
      · exact hless.irrefl _
    · rw [if_neg hr]
      refine ⟨.inl rfl, ?_⟩
      rintro c (rfl | rfl) hc
      · exact Bool.eq_false_iff.mpr fun h => hl ⟨hc, h⟩
      · exact Bool.eq_false_iff.mpr fun h => hr ⟨hc, h⟩

theorem sift_rearranged (size fuel : Nat) (a : Nat → α) (pos : Nat) :
    Rearranged size a (sift less size fuel a pos) := by
  induction fuel generalizing a pos with
  | zero => exact .refl size a
  | succ fuel ih =>
    unfold sift
    obtain ⟨heq | ⟨hchild, hsize, _⟩, _⟩ := largest_spec hless size a pos
    · rw [if_neg (not_not.mpr heq)]
      exact .refl size a
    · have hpos : pos < largest less size a pos := by
        unfold IsChild at hchild
        omega
      rw [if_pos hpos.ne']
      exact (rearranged_swap (hpos.trans hsize) hsize).trans (ih _ _)

/-- Swapping with the largest child moves the exception there. -/
theorem HeapExcept.swap_child {a : Nat → α} {i : Nat} (h : HeapExcept less a size lo pos)
    (hlo : lo ≤ pos) (hchild : IsChild i pos) (hsize : i < size)
    (hlt : less (a pos) (a i) = true)
    (hmax : ∀ c, IsChild c pos → c < size → less (a i) (a c) = false) :
    HeapExcept less (swap a pos i) size lo i := by
  unfold IsChild at hchild
  constructor
  · intro k c hk hki hc hcs
    have hkc : k < c := by
      unfold IsChild at hc
      omega
    by_cases hkp : k = pos
    · subst hkp
      rw [swap_left]
      by_cases hci : c = i
      · subst hci
        rw [swap_right]
        exact hless.asymm hlt
      · rw [swap_of_ne hkc.ne' hci]
        exact hmax c hc hcs
    · rw [swap_of_ne hkp hki]
      by_cases hcp : c = pos
      · subst hcp
        rw [swap_left]
        exact h.grand k i hk hc hchild hsize
      · have hci : c ≠ i := by
          unfold IsChild at hc
          omega
        rw [swap_of_ne hcp hci]
        exact h.others k c hk hkp hc hcs
  · intro k c _ hik hc hcs
    have hkp : k = pos := by
      unfold IsChild at hik
      omega
    have hne : c ≠ pos ∧ c ≠ i := by
      unfold IsChild at hc
      omega
    subst hkp
    rw [swap_left, swap_of_ne hne.1 hne.2]
    exact h.others i c (by omega) (by omega) hc hcs

theorem sift_heap {fuel : Nat} {a : Nat → α} (h : HeapExcept less a size lo pos)
    (hlo : lo ≤ pos) (hfuel : size - pos ≤ fuel) :
    HeapFrom less (sift less size fuel a pos) size lo := by
  induction fuel generalizing a pos with
  | zero =>
    intro k c hk hc hcs
    apply h.others k c hk _ hc hcs
    unfold IsChild at hc
    omega
  | succ fuel ih =>
    unfold sift
    obtain ⟨heq | ⟨hchild, hsize, hlt⟩, hmax⟩ := largest_spec hless size a pos
    · rw [if_neg (not_not.mpr heq)]
      intro k c hk hc hcs
      by_cases hkp : k = pos
      · subst hkp
        rw [heq] at hmax
        exact hmax c hc hcs
      · exact h.others k c hk hkp hc hcs
    · have hpos : pos < largest less size a pos := by
        unfold IsChild at hchild
        omega
      rw [if_pos hpos.ne']
      apply ih (h.swap_child hless hlo hchild hsize hlt hmax)
      · omega
      · omega

theorem heapify_heap {a : Nat → α} (h : HeapFrom less a size (pos + 1)) :
    HeapFrom less (heapify less size a pos) size pos := by
  refine sift_heap hless ⟨?_, ?_⟩ le_rfl le_rfl
  · intro k c hk hkp hc hcs
    exact h k c (by omega) hc hcs
  · intro k c hk hpk
    unfold IsChild at hpk
    omega

theorem build_spec {a : Nat → α} (h : HeapFrom less a size i) :
    HeapFrom less (build less size i a) size 0 ∧ Rearranged size a (build less size i a) := by
  induction i generalizing a with
  | zero => exact ⟨h, .refl size a⟩
  | succ i ih =>
    obtain ⟨hheap, hre⟩ := ih (heapify_heap hless h)
    exact ⟨hheap, (sift_rearranged hless size _ a i).trans hre⟩

/-- Nothing in the heap is larger than its root. -/
theorem heap_root {a : Nat → α} (h : HeapFrom less a size 0) (hk : k < size) :
    less (a 0) (a k) = false := by
  induction k using Nat.strong_induction_on with
  | h k ih =>
    by_cases hk0 : k = 0
    · rw [hk0]
      exact hless.irrefl _
    · apply hless.trans (ih ((k - 1) / 2) (by omega) (by omega))
      apply h _ k (Nat.zero_le _) _ hk
      unfold IsChild
      omega

end Order

/-- The positions up to `i` are a heap, the others have their final elements. -/
structure Extracted (less : α → α → Bool) (n : Nat) (a : Nat → α) (i : Nat) : Prop where
  heap : HeapFrom less a (i + 1) 0
  split : ∀ j k, j ≤ i → i < k → k < n → less (a k) (a j) = false
  sorted : ∀ j k, i < j → j < k → k < n → less (a k) (a j) = false

theorem Extracted.step (hless : WeakOrder less) {a : Nat → α}
    (h : Extracted less n a (i + 1)) :
    Extracted less n (heapify less (i + 1) (swap a 0 (i + 1)) 0) i := by
  have hre : Rearranged (i + 1) (swap a 0 (i + 1)) (heapify less (i + 1) (swap a 0 (i + 1)) 0) :=
    sift_rearranged hless _ _ _ _
  have hswap : Rearranged (i + 2) a (swap a 0 (i + 1)) := rearranged_swap (by omega) (by omega)
  have hall := hswap.trans (hre.mono (by omega))
  have hlast : heapify less (i + 1) (swap a 0 (i + 1)) 0 (i + 1) = a 0 := by
    rw [hre.outside le_rfl, swap_right]
  constructor
  · apply heapify_heap hless
    intro k c hk hc hcs
    have hkc : k < c := by
      unfold IsChild at hc
      omega
    rw [swap_of_ne (by omega) (by omega), swap_of_ne (by omega) (by omega)]
    exact h.heap k c (Nat.zero_le k) hc (by omega)
  · intro j k hj hik hk
    obtain ⟨j', hj', heq⟩ := hall.inside (show j < i + 2 by omega)
    rw [heq]
    by_cases hki : k = i + 1
    · rw [hki, hlast]
      exact heap_root hless h.heap hj'
    · rw [hall.outside (k := k) (by omega)]
      exact h.split j' k (by omega) (by omega) hk
  · intro j k hij hjk hk
    rw [hall.outside (k := k) (by omega)]
    by_cases hji : j = i + 1
    · rw [hji, hlast]
      exact h.split 0 k (by omega) (by omega) hk
    · rw [hall.outside (k := j) (by omega)]
      exact h.sorted j k (by omega) hjk hk

theorem extract_spec (hless : WeakOrder less) {a : Nat → α} (h : Extracted less n a i)
    (hi : i < n) : (∀ j k, j < k → k < n → less (extract less i a k) (extract less i a j) = false) ∧
      Rearranged n a (extract less i a) := by
  induction i generalizing a with
  | zero =>
    refine ⟨?_, .refl n a⟩
    intro j k hjk hk
    by_cases hj : j = 0
    · exact h.split j k (by omega) (by omega) hk
    · exact h.sorted j k (by omega) hjk hk
  | succ i ih =>
    obtain ⟨hsorted, hre⟩ := ih (h.step hless) (by omega)
    refine ⟨hsorted, ?_⟩
    have hswap : Rearranged n a (swap a 0 (i + 1)) := rearranged_swap (by omega) hi
    exact (hswap.trans ((sift_rearranged hless _ _ _ _).mono hi.le)).trans hre

theorem sortArray_spec (hless : WeakOrder less) (n : Nat) (a : Nat → α) :
    (∀ j k, j < k → k < n → less (sortArray less n a k) (sortArray less n a j) = false) ∧
      Rearranged n a (sortArray less n a) := by
  have hleaf : HeapFrom less a n n := by
    intro k c hk hc hcs
    unfold IsChild at hc
    omega
  obtain ⟨hheap, hre⟩ := build_spec hless hleaf
  by_cases hn : n = 0
  · subst hn
    exact ⟨fun j k _ hk => absurd hk (Nat.not_lt_zero k), hre⟩
  · obtain ⟨m, rfl⟩ : ∃ m, n = m + 1 := ⟨n - 1, by omega⟩
    have hstart : Extracted less (m + 1) (build less (m + 1) (m + 1) a) m :=
      ⟨hheap, fun j k _ hmk hk => by omega, fun j k hmj hjk hk => by omega⟩
    obtain ⟨hsorted, hre'⟩ := extract_spec hless hstart (Nat.lt_succ_self m)
    exact ⟨hsorted, hre.trans hre'⟩

variable [Inhabited α]

theorem sort_perm (hless : WeakOrder less) (xs : List α) : (sort less xs).Perm xs := by
  have hperm := (sortArray_spec hless xs.length fun k => xs.getD k default).2.perm
  have hxs : (List.range xs.length).map (fun k => xs.getD k default) = xs := by
    apply List.ext_getElem
    · rw [List.length_map, List.length_range]
    · intro k _ hk
      rw [List.getElem_map, List.getElem_range, List.getD_eq_getElem _ _ hk]
  rw [hxs] at hperm
  exact hperm

theorem sort_pairwise (hless : WeakOrder less) (xs : List α) :
    (sort less xs).Pairwise fun x y => less y x = false := by
  unfold sort
  rw [List.pairwise_map]
  apply List.Pairwise.imp_of_mem _ List.pairwise_lt_range
  intro j k _ hk hjk
  exact (sortArray_spec hless _ _).1 j k hjk (List.mem_range.mp hk)

end HeapSort

namespace BinarySearch

/-- `cmp k` compares the element at `k` with the one looked for, between `st` and `en`. -/
def search (cmp : Nat → Int) : Nat → Nat → Nat → Option Nat
  | 0, _, _ => none
  | fuel + 1, st, en =>
    if st = en then none
    else
      let mid := (st + en) / 2
      if cmp mid = 0 then some mid
      else if cmp mid < 0 then search cmp fuel (mid + 1) en
      else search cmp fuel st mid

theorem search_eq_some {cmp : Nat → Int} {fuel st en k : Nat} (hst : st ≤ k) (hen : k < en)
    (hfuel : en - st ≤ fuel) (heq : cmp k = 0) (hbelow : ∀ j, st ≤ j → j < k → cmp j < 0)
    (habove : ∀ j, k < j → j < en → 0 < cmp j) : search cmp fuel st en = some k := by
  induction fuel generalizing st en with
  | zero => omega
  | succ fuel ih =>
    unfold search
    rw [if_neg (by omega)]
    rcases Nat.lt_trichotomy ((st + en) / 2) k with hlt | hmid | hgt
    · have hneg := hbelow ((st + en) / 2) (by omega) hlt
      simp only [hneg.ne, hneg, if_true, if_false]
      apply ih (by omega) hen (by omega)
      · exact fun j hj => hbelow j (by omega)
      · exact habove
    · simp only [hmid, heq, if_true]
    · have hpos := habove ((st + en) / 2) hgt (by omega)
      simp only [hpos.ne', hpos.not_gt, if_false]
      apply ih hst hgt (by omega)
      · exact hbelow
      · exact fun j hj hjm => habove j hj (by omega)

/-- An element that comes before the one looked for is not after one that comes after it. -/
structure Ascending (cmp : Nat → Int) (n : Nat) : Prop where
  before : ∀ j k, j < k → k < n → cmp k < 0 → cmp j < 0
  after : ∀ j k, j < k → k < n → 0 < cmp j → 0 < cmp k

/-- What is found compares equal; where nothing is, nothing does. -/
theorem search_spec {cmp : Nat → Int} {n fuel st en : Nat} (hcmp : Ascending cmp n)
    (hst : st ≤ en) (hen : en ≤ n) (hfuel : en - st < fuel) :
    match search cmp fuel st en with
    | some k => st ≤ k ∧ k < en ∧ cmp k = 0
    | none => ∀ k, st ≤ k → k < en → cmp k ≠ 0 := by
  induction fuel generalizing st en with
  | zero => omega
  | succ fuel ih =>
    unfold search
    by_cases hempty : st = en
    · rw [if_pos hempty]
      intro k hk hken
      omega
    · rw [if_neg hempty]
      dsimp only
      rcases lt_trichotomy (cmp ((st + en) / 2)) 0 with hneg | hzero | hpos
      · rw [if_neg hneg.ne, if_pos hneg]
        have hright := @ih ((st + en) / 2 + 1) en (by omega) hen (by omega)
        split
        · next k hk =>
          rw [hk] at hright
          exact ⟨by omega, hright.2⟩
        · next hk =>
          rw [hk] at hright
          intro k hk hken
          rcases Nat.lt_trichotomy k ((st + en) / 2) with hlt | rfl | hgt
          · exact (hcmp.before k ((st + en) / 2) hlt (by omega) hneg).ne
          · exact hneg.ne
          · exact hright k hgt hken
      · rw [if_pos hzero]
        exact ⟨by omega, by omega, hzero⟩
      · rw [if_neg hpos.ne', if_neg hpos.not_gt]
        have hleft := @ih st ((st + en) / 2) (by omega) (by omega) (by omega)
        split
        · next k hk =>
          rw [hk] at hleft
          exact ⟨hleft.1, by omega, hleft.2.2⟩
        · next hk =>
          rw [hk] at hleft
          intro k hk hken
          rcases Nat.lt_trichotomy k ((st + en) / 2) with hlt | rfl | hgt
          · exact hleft k hk hlt
          · exact hpos.ne'
          · exact (hcmp.after ((st + en) / 2) k hgt (by omega) hpos).ne'

theorem search_congr {cmp cmp' : Nat → Int} {fuel st en : Nat} (hst : st ≤ en)
    (h : ∀ k < en, cmp k = cmp' k) : search cmp fuel st en = search cmp' fuel st en := by
  induction fuel generalizing st en with
  | zero => rfl
  | succ fuel ih =>
    unfold search
    by_cases hempty : st = en
    · rw [if_pos hempty, if_pos hempty]
    · rw [if_neg hempty, if_neg hempty]
      dsimp only
      rw [h ((st + en) / 2) (by omega), ih (by omega) h,
        ih (by omega) fun k hk => h k (by omega)]

theorem search_lt {cmp : Nat → Int} {fuel st en k : Nat} (hst : st ≤ en)
    (h : search cmp fuel st en = some k) : k < en := by
  induction fuel generalizing st en with
  | zero => cases h
  | succ fuel ih =>
    unfold search at h
    by_cases hempty : st = en
    · rw [if_pos hempty] at h
      cases h
    · rw [if_neg hempty] at h
      dsimp only at h
      split at h
      · cases h
        omega
      · split at h
        · exact ih (by omega) h
        · exact (ih (by omega) h).trans (by omega)

end BinarySearch

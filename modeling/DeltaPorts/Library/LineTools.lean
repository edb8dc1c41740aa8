import Mathlib.Data.List.Count
import Mathlib.Data.List.Sort
import Mathlib.Data.List.TakeWhile
import Mathlib.Data.List.Lex
import Mathlib.Order.Lex
import Mathlib.Data.Char

/-!
# Text files and the tools that compare them

`cut`, `join`, `sort`, `sort -m` and `comm` on files that are lists of lines. `join` and `comm`
walk through both files at once, as the programs do; their results are only those that one
expects of sorted files when the files are sorted.
-/

set_option autoImplicit false

namespace LineTools

abbrev Text := List Char

/-- The lines of a file; a text after the last newline counts as one. -/
def lines : Text → List Text
  | [] => []
  | c :: rest =>
    if c = '\n' then [] :: lines rest
    else match lines rest with
      | [] => [[c]]
      | l :: ls => (c :: l) :: ls

def unlines (ls : List Text) : Text := ls.flatMap (· ++ ['\n'])

theorem newline_not_mem_lines {t l : Text} (h : l ∈ lines t) : '\n' ∉ l := by
  induction t generalizing l with
  | nil => cases h
  | cons c t ih =>
    unfold lines at h
    split at h
    · rcases List.mem_cons.mp h with rfl | h
      · simp
      · exact ih h
    · rename_i hc
      split at h
      · rw [List.mem_singleton.mp h]
        simpa using Ne.symm hc
      · rename_i m ms hm
        rcases List.mem_cons.mp h with rfl | h
        · have := ih (hm ▸ List.mem_cons_self)
          simp [Ne.symm hc, this]
        · exact ih (hm ▸ List.mem_cons_of_mem m h)

theorem prefix_of_lines_eq_cons {t l : Text} {ls : List Text} (h : lines t = l :: ls) :
    l <+: t := by
  cases t with
  | nil => cases h
  | cons c t =>
    unfold lines at h
    split at h
    · cases h
      exact List.nil_prefix
    · split at h
      · cases h
        exact List.prefix_append [c] t
      · rename_i m ms hm
        cases h
        exact (List.prefix_cons_inj c).mpr (prefix_of_lines_eq_cons hm)

theorem mem_lines_of_lines_cons {c : Char} {t m : Text} {ms : List Text}
    (h : lines (c :: t) = m :: ms) : ∀ l ∈ ms, l ∈ lines t := by
  intro l hl
  unfold lines at h
  by_cases hc : c = '\n'
  · rw [if_pos hc] at h
    cases h
    exact hl
  · rw [if_neg hc] at h
    cases hlines : lines t with
    | nil =>
      rw [hlines] at h
      cases h
      cases hl
    | cons m' ms' =>
      rw [hlines] at h
      cases h
      exact List.mem_cons_of_mem m' hl

theorem infix_of_mem_lines {t l : Text} (h : l ∈ lines t) : l <:+: t := by
  induction t with
  | nil => cases h
  | cons c t ih =>
    cases hlines : lines (c :: t) with
    | nil => simp [hlines] at h
    | cons m ms =>
      rw [hlines] at h
      rcases List.mem_cons.mp h with rfl | h
      · exact (prefix_of_lines_eq_cons hlines).isInfix
      · exact (ih (mem_lines_of_lines_cons hlines l h)).trans (List.suffix_cons c t).isInfix

theorem lines_append_newline {l : Text} (h : '\n' ∉ l) (t : Text) :
    lines (l ++ '\n' :: t) = l :: lines t := by
  induction l with
  | nil => simp [lines]
  | cons c l ih =>
    rw [List.mem_cons, not_or] at h
    rw [List.cons_append, lines, ih h.2, if_neg (Ne.symm h.1)]

theorem lines_unlines {ls : List Text} (h : ∀ l ∈ ls, '\n' ∉ l) : lines (unlines ls) = ls := by
  induction ls with
  | nil => rfl
  | cons l ls ih =>
    have htail := ih fun m hm => h m (List.mem_cons_of_mem l hm)
    unfold unlines at htail ⊢
    rw [List.flatMap_cons, List.append_assoc, List.singleton_append,
      lines_append_newline (h l List.mem_cons_self), htail]

/-- `cut -f n -d '|'`, for `n` from 1 on; a line without the delimiter is passed whole. -/
def cut (n : Nat) (line : Text) : Text :=
  match line.splitOn '|' with
  | [_] => line
  | fields => (fields[n - 1]?).getD []

/-- A field as `join` sees it: a line without the delimiter has one field. -/
def field (n : Nat) (line : Text) : Text := ((line.splitOn '|')[n - 1]?).getD []

/-- A line that begins with two given fields. -/
def barred (first second rest : Text) : Text := first ++ '|' :: (second ++ '|' :: rest)

theorem splitOn_barred {first second : Text} (hfirst : '|' ∉ first) (hsecond : '|' ∉ second)
    (rest : Text) :
    (barred first second rest).splitOn '|' = first :: second :: rest.splitOn '|' := by
  unfold barred
  rw [List.splitOn_append_cons_self_of_not_mem hfirst,
    List.splitOn_append_cons_self_of_not_mem hsecond]

theorem newline_not_mem_barred {first second rest : Text} (hfirst : '\n' ∉ first)
    (hsecond : '\n' ∉ second) (hrest : '\n' ∉ rest) : '\n' ∉ barred first second rest := by
  simp [barred, hfirst, hsecond, hrest]

section Join

variable {α κ : Type} [LinearOrder κ] (key : α → κ)

/-- The pairs of lines with one key, and the lines of the second file that find no partner. -/
def joinWalk : List α → List α → List (α × α) × List α
  | [], ys => ([], ys)
  | x :: xs, ys =>
    let before := ys.takeWhile fun y => key y < key x
    let after := ys.dropWhile fun y => key y < key x
    let same := after.takeWhile fun y => key y = key x
    -- lines of the first file that follow with the same key meet the same partners
    let rest := if xs.head?.any (key · = key x) then after else after.dropWhile (key · = key x)
    let r := joinWalk xs rest
    (same.map (x, ·) ++ r.1, before ++ r.2)

/-- Each line of the second file is paired or unpaired, sorted or not. -/
theorem mem_joinWalk {xs ys : List α} {y : α} (h : y ∈ ys) :
    y ∈ (joinWalk key xs ys).2 ∨ ∃ x ∈ xs, (x, y) ∈ (joinWalk key xs ys).1 := by
  induction xs generalizing ys with
  | nil => exact Or.inl h
  | cons x xs ih =>
    have hsplit := List.takeWhile_append_dropWhile (p := fun z => decide (key z < key x)) (l := ys)
    rw [← hsplit, List.mem_append] at h
    simp only [joinWalk]
    rcases h with h | h
    · exact Or.inl (List.mem_append_left _ h)
    · have hrest : ∀ rest, y ∈ rest → y ∈ (joinWalk key xs rest).2 ∨
          ∃ x' ∈ x :: xs, (x', y) ∈ (joinWalk key xs rest).1 := by
        intro rest hy
        rcases ih hy with hy | ⟨x', hx', hy⟩
        · exact Or.inl hy
        · exact Or.inr ⟨x', List.mem_cons_of_mem x hx', hy⟩
      have hwrap : ∀ rest, y ∈ rest → ∀ before same : List α,
          y ∈ before ++ (joinWalk key xs rest).2 ∨
            ∃ x' ∈ x :: xs, (x', y) ∈ same.map (x, ·) ++ (joinWalk key xs rest).1 := by
        intro rest hy before same
        rcases hrest rest hy with hy | ⟨x', hx', hy⟩
        · exact Or.inl (List.mem_append_right _ hy)
        · exact Or.inr ⟨x', hx', List.mem_append_right _ hy⟩
      split
      · exact hwrap _ h _ _
      · have hsame := List.takeWhile_append_dropWhile (p := fun z => decide (key z = key x))
          (l := ys.dropWhile fun z => decide (key z < key x))
        rw [← hsame, List.mem_append] at h
        rcases h with h | h
        · right
          exact ⟨x, List.mem_cons_self, List.mem_append_left _ (List.mem_map_of_mem h)⟩
        · exact hwrap _ h _ _

theorem joinWalk_subset {xs ys : List α} : (joinWalk key xs ys).2 ⊆ ys ∧
    ∀ p ∈ (joinWalk key xs ys).1, p.1 ∈ xs ∧ p.2 ∈ ys := by
  induction xs generalizing ys with
  | nil =>
    refine ⟨fun y hy => hy, ?_⟩
    intro p hp
    cases hp
  | cons x xs ih =>
    have hrest : ∀ rest, rest ⊆ ys → (joinWalk key xs rest).2 ⊆ ys ∧
        ∀ p ∈ (joinWalk key xs rest).1, p.1 ∈ x :: xs ∧ p.2 ∈ ys := by
      intro rest hsub
      refine ⟨fun y hy => hsub (ih.1 hy), ?_⟩
      intro p hp
      exact ⟨List.mem_cons_of_mem x (ih.2 p hp).1, hsub (ih.2 p hp).2⟩
    have hbefore : ∀ f : α → Bool, ys.takeWhile f ⊆ ys := fun f => List.takeWhile_subset f
    have hafter : ∀ f : α → Bool, ys.dropWhile f ⊆ ys := fun f => List.dropWhile_subset f
    have hwrap : ∀ rest, rest ⊆ ys → ∀ f g : α → Bool,
        ys.takeWhile f ++ (joinWalk key xs rest).2 ⊆ ys ∧
        ∀ p ∈ (((ys.dropWhile f).takeWhile g).map (x, ·) ++ (joinWalk key xs rest).1),
          p.1 ∈ x :: xs ∧ p.2 ∈ ys := by
      intro rest hsub f g
      refine ⟨List.append_subset.mpr ⟨hbefore f, (hrest rest hsub).1⟩, ?_⟩
      intro p hp
      rcases List.mem_append.mp hp with hp | hp
      · obtain ⟨y, hy, rfl⟩ := List.mem_map.mp hp
        exact ⟨List.mem_cons_self, hafter f (List.takeWhile_subset g hy)⟩
      · exact (hrest rest hsub).2 p hp
    simp only [joinWalk]
    split
    · exact hwrap _ (hafter _) _ _
    · exact hwrap _ (fun y hy => hafter _ (List.dropWhile_subset _ hy)) _ _

end Join

section Merge

variable {α : Type} (before : α → α → Bool)

/-- `sort -m` of two files. -/
def sortMerge : List α → List α → List α
  | [], ys => ys
  | x :: xs, ys => ys.takeWhile (before · x) ++ x :: sortMerge xs (ys.dropWhile (before · x))

theorem mem_sortMerge {xs ys : List α} {z : α} :
    z ∈ sortMerge before xs ys ↔ z ∈ xs ∨ z ∈ ys := by
  induction xs generalizing ys with
  | nil => simp [sortMerge]
  | cons x xs ih =>
    have hsplit : z ∈ ys ↔ z ∈ ys.takeWhile (before · x) ∨ z ∈ ys.dropWhile (before · x) := by
      rw [← List.mem_append, List.takeWhile_append_dropWhile]
    rw [sortMerge, List.mem_append, List.mem_cons, ih, hsplit, List.mem_cons]
    tauto

end Merge

section Comm

variable {α : Type} [LinearOrder α]

def sort (xs : List α) : List α := xs.insertionSort (· ≤ ·)

/-- `comm -13`: the lines of the second file that have no partner in the first. -/
def comm13 : List α → List α → List α
  | [], ys => ys
  | x :: xs, ys =>
    ys.takeWhile (· < x) ++ match ys.dropWhile (· < x) with
      | [] => []
      | y :: ys' => comm13 xs (if y = x then ys' else y :: ys')

theorem count_sorted_eq_zero {x z : α} {xs : List α} (hxs : (x :: xs).Pairwise (· ≤ ·))
    (hz : z < x) : (x :: xs).count z = 0 := by
  apply List.count_eq_zero.mpr
  intro hmem
  cases List.mem_cons.mp hmem with
  | inl heq => exact absurd heq (ne_of_lt hz)
  | inr hmem => exact absurd ((List.pairwise_cons.mp hxs).1 z hmem) (not_le.mpr hz)

/-- The partner of `x`, if there is one, is the first line that is left. -/
theorem count_without_partner {x y : α} {rest : List α} (hrest : (y :: rest).Pairwise (· ≤ ·))
    (hxy : x ≤ y) (n : Nat) (z : α) :
    (if y = x then rest else y :: rest).count z - n =
      (y :: rest).count z - (n + if x = z then 1 else 0) := by
  by_cases hyx : y = x
  · rw [if_pos hyx, hyx, List.count_cons]
    simp only [beq_iff_eq]
    omega
  · rw [if_neg hyx]
    by_cases hxz : x = z
    · have hlt : z < y := hxz ▸ lt_of_le_of_ne hxy (Ne.symm hyx)
      rw [count_sorted_eq_zero hrest hlt, Nat.zero_sub, Nat.zero_sub]
    · rw [if_neg hxz, Nat.add_zero]

/-- On sorted files, each line of the first file takes one equal line of the second. -/
theorem count_comm13 {xs ys : List α} (hxs : xs.Pairwise (· ≤ ·)) (hys : ys.Pairwise (· ≤ ·))
    (z : α) : (comm13 xs ys).count z = ys.count z - xs.count z := by
  induction xs generalizing ys with
  | nil => simp [comm13]
  | cons x xs ih =>
    have hsplit := List.takeWhile_append_dropWhile (p := fun y => decide (y < x)) (l := ys)
    have hcount : ys.count z = (ys.takeWhile (· < x)).count z + (ys.dropWhile (· < x)).count z := by
      rw [← List.count_append, hsplit]
    have hafter : (ys.dropWhile (· < x)).Pairwise (· ≤ ·) :=
      hys.sublist (List.dropWhile_sublist _)
    have hnone : (ys.takeWhile (· < x)).count z ≠ 0 → (x :: xs).count z = 0 := by
      intro hne
      have hmem := List.count_pos_iff.mp (Nat.pos_of_ne_zero hne)
      exact count_sorted_eq_zero hxs (by simpa using List.mem_takeWhile_imp hmem)
    rw [comm13, List.count_append, hcount]
    cases hdrop : ys.dropWhile (· < x) with
    | nil =>
      by_cases hne : (ys.takeWhile (· < x)).count z = 0
      · simp [hne]
      · simp [hnone hne]
    | cons y rest =>
      have hnot := List.head?_dropWhile_not (fun y => decide (y < x)) ys
      rw [hdrop] at hafter hnot
      have hxy : x ≤ y := by simpa using hnot
      have htail : (if y = x then rest else y :: rest).Pairwise (· ≤ ·) := by
        split
        · exact hafter.of_cons
        · exact hafter
      have hpartner := count_without_partner hafter hxy (xs.count z) z
      simp only
      rw [ih hxs.of_cons htail]
      rw [List.count_cons (a := z) (b := x)] at hnone ⊢
      simp only [beq_iff_eq] at hnone ⊢
      by_cases hne : (ys.takeWhile (· < x)).count z = 0
      · omega
      · have hzero := hnone hne
        omega

theorem comm13_sublist (xs ys : List α) : (comm13 xs ys).Sublist ys := by
  induction xs generalizing ys with
  | nil => exact List.Sublist.refl ys
  | cons x xs ih =>
    have hsplit := List.takeWhile_append_dropWhile (p := fun y => decide (y < x)) (l := ys)
    have hrest : (match ys.dropWhile (· < x) with
        | [] => []
        | y :: ys' => comm13 xs (if y = x then ys' else y :: ys')).Sublist
        (ys.dropWhile (· < x)) := by
      split
      · exact List.nil_sublist _
      · next y ys' hdrop =>
        rw [hdrop]
        refine (ih _).trans ?_
        split
        · exact List.sublist_cons_self y ys'
        · exact List.Sublist.refl _
    have happend := (List.Sublist.refl (ys.takeWhile (· < x))).append hrest
    rwa [hsplit] at happend

/-- A line that the first file does not have is left, sorted or not. -/
theorem mem_comm13_of_not_mem {xs ys : List α} {z : α} (hys : z ∈ ys) (hxs : z ∉ xs) :
    z ∈ comm13 xs ys := by
  induction xs generalizing ys with
  | nil => exact hys
  | cons x xs ih =>
    rw [List.mem_cons, not_or] at hxs
    have hsplit := List.takeWhile_append_dropWhile (p := fun y => decide (y < x)) (l := ys)
    rw [← hsplit, List.mem_append] at hys
    rw [comm13, List.mem_append]
    rcases hys with hbefore | hafter
    · exact Or.inl hbefore
    · right
      cases hdrop : ys.dropWhile (· < x) with
      | nil =>
        rw [hdrop] at hafter
        exact hafter
      | cons y rest =>
        rw [hdrop] at hafter
        refine ih ?_ hxs.2
        split
        · next hyx => exact (List.mem_cons.mp hafter).resolve_left (hyx ▸ hxs.1)
        · exact hafter

theorem pairwise_sort (xs : List α) : (sort xs).Pairwise (· ≤ ·) := List.pairwise_insertionSort _ xs

theorem count_sort (xs : List α) (z : α) : (sort xs).count z = xs.count z :=
  (List.perm_insertionSort (· ≤ ·) xs).count_eq z

theorem sort_eq_sort_iff {xs ys : List α} : sort xs = sort ys ↔ xs.Perm ys := by
  have hx : (sort xs).Perm xs := List.perm_insertionSort (· ≤ ·) xs
  have hy : (sort ys).Perm ys := List.perm_insertionSort (· ≤ ·) ys
  constructor
  · intro h
    rw [h] at hx
    exact hx.symm.trans hy
  · intro h
    exact List.Perm.eq_of_pairwise' (pairwise_sort xs) (pairwise_sort ys)
      (hx.trans (h.trans hy.symm))

theorem filter_sort (p : α → Bool) (xs : List α) : (sort xs).filter p = sort (xs.filter p) := by
  apply List.Perm.eq_of_pairwise' ((pairwise_sort xs).filter p) (pairwise_sort (xs.filter p))
  exact ((List.perm_insertionSort (· ≤ ·) xs).filter p).trans
    (List.perm_insertionSort (· ≤ ·) (xs.filter p)).symm

end Comm

/-- What is left of one list when the lines of the other are taken away, one for one. -/
theorem mem_comm13_sort {α : Type} [BEq α] [LawfulBEq α] [LinearOrder α] {xs ys : List α} {z : α} :
    z ∈ comm13 (sort xs) (sort ys) ↔ xs.count z < ys.count z := by
  have hbeq : ‹BEq α› = instBEqOfDecidableEq := lawful_beq_subsingleton _ _
  subst hbeq
  rw [← List.count_pos_iff, count_comm13 (pairwise_sort xs) (pairwise_sort ys), count_sort,
    count_sort]
  omega

/-- Where no line stands twice. -/
theorem mem_comm13_of_nodup {α : Type} [LinearOrder α] {xs ys : List α} (hxs : xs.Nodup)
    (hys : ys.Nodup) {z : α} : z ∈ comm13 (sort xs) (sort ys) ↔ z ∈ ys ∧ z ∉ xs := by
  rw [mem_comm13_sort]
  have hx := List.nodup_iff_count_le_one.mp hxs z
  have hy := List.nodup_iff_count_le_one.mp hys z
  constructor
  · intro hlt
    exact ⟨List.count_pos_iff.mp (by omega), List.count_eq_zero.mp (by omega)⟩
  · rintro ⟨hmem, hnot⟩
    rw [List.count_eq_zero.mpr hnot]
    exact List.count_pos_iff.mpr hmem

theorem nodup_comm13 {α : Type} [LinearOrder α] {ys : List α} (hys : ys.Nodup) (xs : List α) :
    (comm13 xs (sort ys)).Nodup :=
  ((List.perm_insertionSort _ ys).nodup_iff.mpr hys).sublist (comm13_sublist xs _)

/-- `comm -23`: the lines of the first file that have no partner in the second. -/
def comm23 {α : Type} [LinearOrder α] (xs ys : List α) : List α := comm13 ys xs

theorem comm23_sort {α : Type} [BEq α] [LawfulBEq α] [LinearOrder α] {xs ys : List α}
    (hxs : xs.Pairwise (· ≤ ·)) : comm23 xs (sort ys) = xs.diff ys := by
  have hbeq : ‹BEq α› = instBEqOfDecidableEq := lawful_beq_subsingleton _ _
  subst hbeq
  have hperm : (comm23 xs (sort ys)).Perm (xs.diff ys) := by
    rw [List.perm_iff_count]
    intro z
    rw [comm23, count_comm13 (pairwise_sort ys) hxs, count_sort, List.count_diff]
  exact List.Perm.eq_of_pairwise' (hxs.sublist (comm13_sublist _ xs))
    (hxs.sublist (List.diff_sublist xs ys)) hperm

end LineTools

import DeltaPorts.MakeIndex.Ports
import Mathlib.Data.List.TakeWhile

/-!
# The fields of a describe line
-/

set_option autoImplicit false

namespace DeltaPorts.MakeIndex

theorem strsep_of_not_mem {c : Byte} {s : Bytes} (h : c ∉ s) : strsep c (some s) = (s, none) := by
  have hdrop : s.dropWhile (· ≠ c) = [] := by
    apply List.dropWhile_eq_nil_iff.mpr
    intro x hx
    rw [decide_eq_true_iff]
    rintro rfl
    exact h hx
  simp only [strsep, hdrop]

theorem strsep_append_cons {c : Byte} {a : Bytes} (h : c ∉ a) (rest : Bytes) :
    strsep c (some (a ++ c :: rest)) = (a, some rest) := by
  have hpos : ∀ x ∈ a, decide (x ≠ c) = true := by
    intro x hx
    rw [decide_eq_true_iff]
    rintro rfl
    exact h hx
  have hdrop : (a ++ c :: rest).dropWhile (· ≠ c) = c :: rest := by
    rw [List.dropWhile_append_of_pos hpos, List.dropWhile_cons_of_neg]
    simp
  have htake : (a ++ c :: rest).takeWhile (· ≠ c) = a := by
    rw [List.takeWhile_append_of_pos hpos, List.takeWhile_cons_of_neg, List.append_nil]
    simp
  simp only [strsep, hdrop, htake]

theorem mem_split_first {c : Byte} {s : Bytes} (h : c ∈ s) :
    ∃ a rest, s = a ++ c :: rest ∧ c ∉ a := by
  induction s with
  | nil => exact absurd h List.not_mem_nil
  | cons x s ih =>
    by_cases hx : c = x
    · exact ⟨[], s, congrArg (· :: s) hx.symm, List.not_mem_nil⟩
    · obtain ⟨a, rest, rfl, ha⟩ := ih ((List.mem_cons.mp h).resolve_left hx)
      refine ⟨x :: a, rest, rfl, ?_⟩
      rw [List.mem_cons, not_or]
      exact ⟨hx, ha⟩

/-- As many calls of `strsep` as there are separators, and one more, give all fields. -/
theorem strseps_eq_splitOn (c : Byte) (s : Bytes) :
    strseps c (s.count c + 1) (some s) = s.splitOn c := by
  induction hn : s.count c generalizing s with
  | zero =>
    have hc : c ∉ s := List.count_eq_zero.mp hn
    rw [List.splitOn_eq_singleton hc]
    unfold strseps
    rw [strsep_of_not_mem hc]
    rfl
  | succ n ih =>
    have hmem : c ∈ s := List.count_pos_iff.mp (by omega)
    obtain ⟨a, rest, rfl, ha⟩ := mem_split_first hmem
    rw [List.count_append, List.count_cons_self, List.count_eq_zero_of_not_mem ha] at hn
    unfold strseps
    rw [strsep_append_cons ha, ih rest (by omega), List.splitOn_append_cons_self_of_not_mem ha]

theorem splitOn_pieces (c : Byte) (s : Bytes) :
    (s.splitOn c).length = s.count c + 1 ∧ ∀ piece ∈ s.splitOn c, c ∉ piece := by
  induction hn : s.count c generalizing s with
  | zero =>
    have hc : c ∉ s := List.count_eq_zero.mp hn
    rw [List.splitOn_eq_singleton hc]
    refine ⟨rfl, fun piece hpiece => ?_⟩
    rwa [List.mem_singleton.mp hpiece]
  | succ n ih =>
    have hmem : c ∈ s := List.count_pos_iff.mp (by omega)
    obtain ⟨a, rest, rfl, ha⟩ := mem_split_first hmem
    rw [List.count_append, List.count_cons_self, List.count_eq_zero_of_not_mem ha] at hn
    obtain ⟨hlen, hpieces⟩ := ih rest (by omega)
    rw [List.splitOn_append_cons_self_of_not_mem ha]
    refine ⟨congrArg (· + 1) hlen, fun piece hpiece => ?_⟩
    rcases List.mem_cons.mp hpiece with rfl | hpiece
    · exact ha
    · exact hpieces piece hpiece

def field (line : Bytes) (n : Nat) : Bytes := ((cString line).splitOn bar).getD n []

def Kind.number : Kind → Nat := byKind 7 8 9 10 11

/-- The names in the list of the given kind, as they stand on the line. -/
def named (line : Bytes) (k : Kind) : List Bytes :=
  if field line k.number = [] then [] else (field line k.number).splitOn space

def stripped (name : Bytes) : Bytes := if name.getLast? = some slash then name.dropLast else name

def dependencies (line : Bytes) (k : Kind) : List Bytes := (named line k).map stripped

def describe (line : Bytes) : Port where
  pkgname := field line 0
  portdir := field line 1
  installPrefix := field line 2
  comment := field line 3
  pkgdescr := field line 4
  maintainer := field line 5
  categories := field line 6
  names := dependencies line
  www := field line 12

theorem makelist_eq {line : Bytes} {k : Kind} (hnames : [] ∉ named line k) :
    makelist (field line k.number) = .ok (dependencies line k) := by
  unfold makelist dependencies
  unfold named at hnames ⊢
  by_cases hempty : field line k.number = []
  · rw [if_pos hempty, if_pos hempty]
    rfl
  · rw [if_neg hempty] at hnames
    rw [if_neg hempty, if_neg hempty, strseps_eq_splitOn]
    apply Loops.mapM_ok
    intro name hname
    have hne : name ≠ [] := by
      rintro rfl
      exact hnames hname
    unfold stripSlash stripped
    rw [if_neg hne]
    split <;> rfl

theorem portify_eq {line : Bytes} (hbars : (cString line).count bar = 12)
    (hnames : ∀ k, [] ∉ named line k) : portify (cString line) = .ok (describe line) := by
  have hfields : strseps bar 13 (some (cString line)) = (cString line).splitOn bar := by
    rw [← strseps_eq_splitOn, hbars]
  have hlist : ∀ k, makelist (((cString line).splitOn bar).getD k.number []) =
      .ok (dependencies line k) := fun k => makelist_eq (hnames k)
  have hdeps : byKind (dependencies line .edep) (dependencies line .pdep) (dependencies line .fdep)
      (dependencies line .bdep) (dependencies line .rdep) = dependencies line := by
    funext k
    cases k <;> rfl
  have hedep := hlist .edep
  have hpdep := hlist .pdep
  have hfdep := hlist .fdep
  have hbdep := hlist .bdep
  have hrdep := hlist .rdep
  simp only [Kind.number, byKind] at hedep hpdep hfdep hbdep hrdep
  unfold portify
  rw [if_neg (not_not.mpr hbars), hfields]
  simp only [hedep, hpdep, hfdep, hbdep, hrdep, bind, Except.bind, pure, Except.pure, hdeps]
  rfl

theorem fgetlns_append {line : Bytes} (h : newline ∉ line) (f : Bytes) :
    fgetlns (line ++ newline :: f) = (line ++ [newline]) :: fgetlns f := by
  induction line with
  | nil => exact if_pos rfl
  | cons c line ih =>
    rw [List.mem_cons, not_or] at h
    rw [List.cons_append, fgetlns, if_neg fun hc => h.1 hc.symm, ih h.2]
    rfl

theorem fgetlns_lines {ls : List Bytes} (h : ∀ line ∈ ls, newline ∉ line) :
    fgetlns (ls.flatMap (· ++ [newline])) = ls.map (· ++ [newline]) := by
  induction ls with
  | nil => rfl
  | cons line ls ih =>
    have hline := h line List.mem_cons_self
    rw [List.flatMap_cons, List.append_assoc, List.singleton_append, fgetlns_append hline,
      ih fun l hl => h l (List.mem_cons_of_mem line hl)]
    rfl

theorem readLine_eq {line : Bytes} (hbars : (cString line).count bar = 12)
    (hnames : ∀ k, [] ∉ named line k) : readLine (line ++ [newline]) = .ok (describe line) := by
  unfold readLine
  rw [List.getLast?_concat, if_neg (not_not.mpr rfl), List.dropLast_concat]
  exact portify_eq hbars hnames

end DeltaPorts.MakeIndex

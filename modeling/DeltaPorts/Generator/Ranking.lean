import DeltaPorts.Generator.BulkList
import DeltaPorts.Library.PaddedNumbers
import Mathlib.Data.Prod.Lex

/-!
# The ranking of stinkers.sh

For each name that its loop collects, `stinkers.sh` counts the lines of the `INDEX` that name it
among the build or run dependencies, and sorts what it prints as texts. `grep` passes on the lines
in which the name is found as a pattern, and `AWKCMD2` looks at their fields.
-/

set_option autoImplicit false

namespace DeltaPorts.Generator.Stinkers

open BulkList (Columns)
open Leftovers (taken_sublist)
open Grep (grep found)
open PaddedNumbers (padded)

/-- `pathx` and `total` of `AWKCMD2`. -/
structure Tally where
  pathx : Text
  total : Nat

variable (awk : Awk.Reading)

/-- The main rule of `AWKCMD2`. -/
def mainRule (target : Text) (v : Tally) (line : Text) : Tally :=
  if awk.eq (LineTools.field 1 line) target = true then
    { v with pathx := (LineTools.field 2 line).drop 11 }
  else
    let a := Awk.words (LineTools.field 8 line)
    let b := Awk.words (LineTools.field 9 line)
    if (a.any fun x => awk.eq x target) = true then { v with total := v.total + 1 }
    else if (b.any fun x => awk.eq x target) = true then { v with total := v.total + 1 }
    else v

def awkCmd2 (target : Text) (ls : List Text) : List Text :=
  let v := ls.foldl (mainRule awk (Awk.assigned target)) ⟨[], 0⟩
  if 0 < v.total then [padded 4 v.total ++ (": ".toList ++ v.pathx)] else []

/-- `read pkgname`, of a line without backslashes. -/
def readName (line : Text) : Text := (line.dropWhile Awk.isBlank).rdropWhile Awk.isBlank

/-- `TMPFIL3`; it does not exist if nothing was collected. -/
def criticalList (t : Trees) (index : Text) : List Text :=
  (unbuiltList t index).flatMap fun line =>
    awkCmd2 awk (readName line) (grep (readName line) (LineTools.lines index))

/-- What the script prints: `sort -r`. -/
def stinkers (t : Trees) (index : Text) : List Text :=
  (LineTools.sort (criticalList awk t index)).reverse

/-- An `INDEX` whose package names are no numbers to awk. -/
structure Packages (awk : Awk.Reading) extends BulkList.Index where
  texts : ∀ e ∈ entries, awk.number e.pkgname.chars = none

variable {awk}

/-- `f` is another port, and `e` is a dependency of its build or of its package. -/
def Needs (f e : BulkList.IndexEntry) : Prop :=
  f.pkgname.chars ≠ e.pkgname.chars ∧
    (e.pkgname.chars ∈ Awk.words f.columns.bdeps ∨ e.pkgname.chars ∈ Awk.words f.columns.rdeps)

instance (f e : BulkList.IndexEntry) : Decidable (Needs f e) :=
  inferInstanceAs (Decidable (f.pkgname.chars ≠ e.pkgname.chars ∧
    (e.pkgname.chars ∈ Awk.words f.columns.bdeps ∨ e.pkgname.chars ∈ Awk.words f.columns.rdeps)))

def needing (x : Packages awk) (e : BulkList.IndexEntry) : Nat :=
  x.entries.countP fun f => decide (Needs f e)

/-- The entries whose names the loop collects. -/
def collected (t : Trees) (x : Packages awk) : List BulkList.IndexEntry :=
  x.entries.filter fun e => (unbuiltList t x.text).contains e.pkgname.chars

def rankLine (x : Packages awk) (e : BulkList.IndexEntry) : Text :=
  padded 4 (needing x e) ++ (": ".toList ++ e.port.text)

theorem splitOn_entry (e : BulkList.IndexEntry) :
    e.text.splitOn '|' = e.pkgname.chars :: e.path :: e.columns.all := by
  have hne : e.columns.all ≠ [] := List.cons_ne_nil _ _
  rw [splitOn_text, e.rest_eq, List.splitOn_intercalate '|' e.separate hne]

theorem field_entry (e : BulkList.IndexEntry) :
    LineTools.field 1 e.text = e.pkgname.chars ∧
      (LineTools.field 2 e.text).drop 11 = e.port.text ∧
      LineTools.field 8 e.text = e.columns.bdeps ∧ LineTools.field 9 e.text = e.columns.rdeps := by
  refine ⟨?_, BulkList.awkCmd2_text e.toIndexEntry, ?_, ?_⟩ <;>
  · unfold LineTools.field
    rw [splitOn_entry]
    rfl

theorem readName_chars (n : Name) : readName n.chars = n.chars := by
  have hplain := n.chars_plain.1
  have hleft : n.chars.dropWhile Awk.isBlank = n.chars := by
    cases hchars : n.chars with
    | nil => rfl
    | cons c l =>
      rw [List.dropWhile_cons_of_neg (by simp [hplain c (hchars ▸ List.mem_cons_self)])]
  unfold readName
  rw [hleft]
  refine List.rdropWhile_eq_self_iff.mpr fun hne => ?_
  simp [hplain _ (List.getLast_mem hne)]

theorem assigned_chars (n : Name) : Awk.assigned n.chars = n.chars := by
  apply Awk.assigned_of_no_backslash
  intro hmem
  exact absurd (n.not_special hmem) (by decide)

theorem eq_text_iff {a b : Text} (hb : awk.number b = none) : awk.eq a b = true ↔ a = b := by
  rw [Awk.Reading.eq_iff, hb]
  simp

theorem any_eq_iff {target : Text} (htext : awk.number target = none) (ws : List Text) :
    (ws.any fun x => awk.eq x target) = true ↔ target ∈ ws := by
  rw [List.any_eq_true]
  constructor
  · rintro ⟨w, hw, heq⟩
    rwa [(eq_text_iff htext).mp heq] at hw
  · exact fun hmem => ⟨target, hmem, (eq_text_iff htext).mpr rfl⟩

variable {e : BulkList.IndexEntry}

/-- What `AWKCMD2` does with the line of an entry. -/
theorem mainRule_entry (htext : awk.number e.pkgname.chars = none) (v : Tally)
    (f : BulkList.IndexEntry) :
    mainRule awk e.pkgname.chars v f.text =
      if f.pkgname.chars = e.pkgname.chars then { v with pathx := f.port.text }
      else if Needs f e then { v with total := v.total + 1 } else v := by
  obtain ⟨hname, hpath, hbdeps, hrdeps⟩ := field_entry f
  unfold mainRule
  rw [hname, hpath, hbdeps, hrdeps]
  simp only [any_eq_iff htext, eq_text_iff htext]
  by_cases hown : f.pkgname.chars = e.pkgname.chars
  · rw [if_pos hown, if_pos hown]
  · rw [if_neg hown, if_neg hown]
    by_cases hbuild : e.pkgname.chars ∈ Awk.words f.columns.bdeps
    · rw [if_pos hbuild, if_pos ⟨hown, Or.inl hbuild⟩]
    · rw [if_neg hbuild]
      by_cases hrun : e.pkgname.chars ∈ Awk.words f.columns.rdeps
      · rw [if_pos hrun, if_pos ⟨hown, Or.inr hrun⟩]
      · rw [if_neg hrun, if_neg fun h => h.2.elim hbuild hrun]

/-- The line of the port itself and those of the ports that need it are found. -/
theorem found_of_needs {f : BulkList.IndexEntry}
    (h : f.pkgname.chars = e.pkgname.chars ∨ Needs f e) : found e.pkgname.chars f.text = true := by
  apply Grep.found_of_infix e.unanchored
  rcases h with hown | ⟨_, hbuild | hrun⟩
  · rw [← hown]
    exact BulkList.infix_text_pkgname f
  · exact (Awk.infix_of_mem_words hbuild).trans
      (BulkList.infix_text_of_mem (by simp [Columns.all]))
  · exact (Awk.infix_of_mem_words hrun).trans
      (BulkList.infix_text_of_mem (by simp [Columns.all]))

theorem foldl_mainRule (htext : awk.number e.pkgname.chars = none)
    {es : List BulkList.IndexEntry} (hown : ∀ f ∈ es, f.pkgname.chars = e.pkgname.chars → f = e)
    (v : Tally) :
    ((es.map fun f => f.text).foldl (mainRule awk e.pkgname.chars) v).total =
        v.total + es.countP (fun f => decide (Needs f e)) ∧
      (e ∈ es ∨ v.pathx = e.port.text →
        ((es.map fun f => f.text).foldl (mainRule awk e.pkgname.chars) v).pathx =
          e.port.text) := by
  induction es generalizing v with
  | nil => exact ⟨rfl, fun h => h.resolve_left List.not_mem_nil⟩
  | cons f es ih =>
    have htail := ih fun g hg => hown g (List.mem_cons_of_mem f hg)
    rw [List.map_cons, List.foldl_cons, mainRule_entry htext, List.countP_cons]
    by_cases hname : f.pkgname.chars = e.pkgname.chars
    · obtain rfl := hown f List.mem_cons_self hname
      have hself : ¬ Needs f f := fun h => h.1 rfl
      obtain ⟨htotal, hpathx⟩ := htail { v with pathx := f.port.text }
      rw [if_pos rfl]
      refine ⟨?_, fun _ => hpathx (Or.inr rfl)⟩
      simp [htotal, hself]
    · have hne : e ≠ f := fun h => hname (h ▸ rfl)
      rw [if_neg hname]
      by_cases hneeds : Needs f e
      · obtain ⟨htotal, hpathx⟩ := htail { v with total := v.total + 1 }
        rw [if_pos hneeds]
        refine ⟨?_, fun h => hpathx (h.imp_left fun h => (List.mem_cons.mp h).resolve_left hne)⟩
        simp [htotal, hneeds]
        omega
      · obtain ⟨htotal, hpathx⟩ := htail v
        rw [if_neg hneeds]
        refine ⟨?_, fun h => hpathx (h.imp_left fun h => (List.mem_cons.mp h).resolve_left hne)⟩
        simp [htotal, hneeds]

/-- The lines that `grep` does not pass on would change nothing. -/
theorem awkCmd2_grep {x : Packages awk} (he : e ∈ x.entries) :
    awkCmd2 awk e.pkgname.chars (grep e.pkgname.chars (LineTools.lines x.text)) =
      if 0 < needing x e then [rankLine x e] else [] := by
  have hown : ∀ f ∈ x.entries.filter fun f => found e.pkgname.chars f.text,
      f.pkgname.chars = e.pkgname.chars → f = e :=
    fun f hf hname => List.inj_on_of_nodup_map x.pkgnames (List.mem_of_mem_filter hf) he hname
  have hmem : e ∈ x.entries.filter fun f => found e.pkgname.chars f.text :=
    List.mem_filter.mpr ⟨he, found_of_needs (Or.inl rfl)⟩
  obtain ⟨htotal, hpathx⟩ := foldl_mainRule (x.texts e he) hown ⟨[], 0⟩
  have hcount : (x.entries.filter fun f => found e.pkgname.chars f.text).countP
      (fun f => decide (Needs f e)) = needing x e := by
    rw [List.countP_filter]
    refine List.countP_congr fun f _ => ?_
    rw [Bool.and_eq_true, decide_eq_true_eq]
    exact ⟨fun h => h.1, fun h => ⟨h, found_of_needs (Or.inr h)⟩⟩
  rw [hcount, Nat.zero_add] at htotal
  have hname : Awk.assigned e.pkgname.chars = e.pkgname.chars := assigned_chars e.pkgname
  unfold awkCmd2 rankLine
  rw [BulkList.grep_lines, hname]
  simp only [htotal, hpathx (Or.inl hmem)]

variable (t : Trees) (x : Packages awk)

theorem unbuiltList_sublist :
    (unbuiltList t x.text).Sublist (x.entries.map fun e => e.pkgname.chars) := by
  have htaken := @taken_sublist _ (round t) false (x.entries.map BulkList.IndexEntry.toIndexEntry)
  have hsub := (htaken.trans List.filter_sublist).map fun e => e.pkgname.chars
  unfold BulkList.Index.text
  rw [unbuiltList_eq]
  rwa [List.map_map] at hsub

theorem collected_names :
    (unbuiltList t x.text).Perm ((collected t x).map fun e => e.pkgname.chars) := by
  have hsub := unbuiltList_sublist t x
  have hnodup : ((collected t x).map fun e => e.pkgname.chars).Nodup :=
    x.pkgnames.sublist (List.filter_sublist.map _)
  refine (List.perm_ext_iff_of_nodup (x.pkgnames.sublist hsub) hnodup).mpr fun name => ?_
  rw [List.mem_map]
  constructor
  · intro hname
    obtain ⟨e, he, rfl⟩ := List.mem_map.mp (hsub.subset hname)
    exact ⟨e, List.mem_filter.mpr ⟨he, List.contains_iff_mem.mpr hname⟩, rfl⟩
  · rintro ⟨e, he, rfl⟩
    exact List.contains_iff_mem.mp (List.mem_filter.mp he).2

theorem flatMap_guard {α β : Type} (p : α → Prop) [DecidablePred p] (f : α → β) (l : List α) :
    (l.flatMap fun a => if p a then [f a] else []) = (l.filter fun a => decide (p a)).map f := by
  induction l with
  | nil => rfl
  | cons a l ih =>
    rw [List.flatMap_cons, ih, List.filter_cons]
    by_cases ha : p a
    · rw [if_pos ha, if_pos (decide_eq_true ha)]
      rfl
    · rw [if_neg ha, if_neg (by simpa using ha)]
      rfl

theorem criticalList_perm :
    (criticalList awk t x.text).Perm
      (((collected t x).filter fun e => decide (0 < needing x e)).map (rankLine x)) := by
  have hcritical : ((collected t x).map fun e => e.pkgname.chars).flatMap (fun line =>
      awkCmd2 awk (readName line) (grep (readName line) (LineTools.lines x.text))) =
        (collected t x).flatMap fun e => if 0 < needing x e then [rankLine x e] else [] := by
    rw [List.flatMap_map]
    refine List.flatMap_congr fun e he => ?_
    have hname : readName e.pkgname.chars = e.pkgname.chars := readName_chars e.pkgname
    rw [hname, awkCmd2_grep (List.mem_of_mem_filter he)]
  rw [← flatMap_guard, ← hcritical]
  exact (collected_names t x).flatMap_right _

/-- `sort -r` compares the numbers, as long as they have four digits. -/
theorem rankLine_le {e f : BulkList.IndexEntry} (hsmall : needing x f < 10 ^ 4)
    (hle : rankLine x f ≤ rankLine x e) :
    toLex (needing x f, f.port) ≤ toLex (needing x e, e.port) := by
  rw [Prod.Lex.toLex_le_toLex]
  rcases (PaddedNumbers.le_of_padded_append_le (by decide) hsmall hle).lt_or_eq with hlt | heq
  · exact Or.inl hlt
  · refine Or.inr ⟨heq, ?_⟩
    by_contra hport
    have htext : ": ".toList ++ e.port.text < ": ".toList ++ f.port.text :=
      List.append_left_lt (not_le.mp hport)
    have hlt : rankLine x e < rankLine x f := by
      unfold rankLine
      rw [heq]
      exact List.append_left_lt htext
    exact absurd hle (not_le.mpr hlt)

/-- Each collected port that another one needs is printed. `sort -r` puts those first that most
others need, if there are fewer than 10000 for each. -/
theorem stinkers_ranks :
    ∃ es : List BulkList.IndexEntry,
      es.Perm ((collected t x).filter fun e => decide (0 < needing x e)) ∧
      stinkers awk t x.text = es.map (rankLine x) ∧
      ((∀ e ∈ es, needing x e < 10 ^ 4) →
        es.Pairwise fun e f => toLex (needing x f, f.port) ≤ toLex (needing x e, e.port)) := by
  have hperm : (stinkers awk t x.text).Perm
      (((collected t x).filter fun e => decide (0 < needing x e)).map (rankLine x)) :=
    (List.reverse_perm _).trans
      ((List.perm_insertionSort (· ≤ ·) _).trans (criticalList_perm t x))
  obtain ⟨es, hes, hperm⟩ := (congrFun₂ (List.eq_map_comp_perm (rankLine x)) _ _).mpr hperm
  refine ⟨es, hperm, hes, fun hsmall => ?_⟩
  have hsorted : (es.map (rankLine x)).Pairwise fun a b => b ≤ a := by
    rw [← hes]
    exact List.pairwise_reverse.mpr (LineTools.pairwise_sort _)
  refine (List.pairwise_map.mp hsorted).imp_of_mem fun {e f} _ hf hle => ?_
  exact rankLine_le x (hsmall f hf) hle

def needsJoe (name : Name) (port : Prune.PortDir) (hbar : '|' ∉ name.chars ∧ '|' ∉ port.text)
    (hname : Grep.Unanchored name.chars) : BulkList.IndexEntry where
  pkgname := name
  port := port
  rest := List.intercalate ['|'] { BulkList.noColumns with rdeps := "joe-3.7".toList }.all
  noBar := hbar
  noNewline := by decide
  columns := { BulkList.noColumns with rdeps := "joe-3.7".toList }
  rest_eq := rfl
  separate := by decide
  unanchored := hname

def joePackages : Packages Awk.decimals where
  entries := [
    needsJoe ⟨"mc-4".toList, by decide⟩ ⟨⟨"misc".toList, by decide⟩, ⟨"mc".toList, by decide⟩⟩
      (by decide) (by decide),
    BulkList.joe,
    needsJoe BulkList.xjoe.pkgname BulkList.xjoe.port BulkList.xjoe.noBar BulkList.xjoe.unanchored]
  origins := by decide
  pkgnames := by decide
  texts := by
    intro e he
    simp only [List.mem_cons, List.not_mem_nil, or_false] at he
    rcases he with rfl | rfl | rfl <;> exact Awk.decimals.text _ (by decide) (by decide)

theorem joe_ranked :
    stinkers Awk.decimals ⟨fun _ => false, fun _ => none⟩ joePackages.text = ["0002: editors/joe".toList] ∧
      ∃ es : List BulkList.IndexEntry,
        es.Perm ((collected ⟨fun _ => false, fun _ => none⟩ joePackages).filter
          fun e => decide (0 < needing joePackages e)) ∧
        stinkers Awk.decimals ⟨fun _ => false, fun _ => none⟩ joePackages.text =
          es.map (rankLine joePackages) ∧
        ((∀ e ∈ es, needing joePackages e < 10 ^ 4) → es.Pairwise fun e f =>
          toLex (needing joePackages f, f.port) ≤ toLex (needing joePackages e, e.port)) :=
  ⟨by decide +kernel, stinkers_ranks _ joePackages⟩

end DeltaPorts.Generator.Stinkers

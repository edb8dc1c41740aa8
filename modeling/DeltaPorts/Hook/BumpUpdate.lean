import DeltaPorts.Hook.CommitDaemon
import DeltaPorts.Library.Diffs

/-!
# Bumps and updates

`AWKCMD2` of `dports-daemon.sh` reads the diff of a port against `HEAD` and tells a bump of
`PORTREVISION` from an update by the first words of the lines, signs included.
-/

set_option autoImplicit false

namespace DeltaPorts.Hook.CommitDaemon

open Diffs (Side Diff changed)
open Shell (Text)

/-- The lines that the counters count. -/
def counted (side : Side) (l : Text) : Bool :=
  l.head? = some side.sign && Awk.field 1 l ≠ side.mark

def isRevision (side : Side) (l : Text) : Bool :=
  Awk.field 1 l = side.sign :: "PORTREVISION=".toList

/-- `negfail`, when `negcounter` lines were removed before. -/
def fails : Nat → List Text → Bool
  | _, [] => false
  | negcounter, l :: ls =>
    (1 < negcounter + 1 || !isRevision .removed l) || fails (negcounter + 1) ls

theorem counted_iff {side : Side} {l : Text} :
    counted side l = true ↔ (∃ rest, l = side.sign :: rest) ∧ Awk.field 1 l ≠ side.mark := by
  unfold counted
  rw [Bool.and_eq_true, decide_eq_true_iff, decide_eq_true_iff]
  refine and_congr_left fun _ => ?_
  cases l with
  | nil => simp
  | cons c rest => simp

theorem line_added (c : Counts) {l : Text} (h : counted .added l = true) :
    c.line l = { c with counter := c.counter + 1, pv := c.pv || isRevision .added l } := by
  obtain ⟨⟨rest, rfl⟩, hmark⟩ := counted_iff.mp h
  exact if_pos hmark

theorem line_removed (c : Counts) {l : Text} (h : counted .removed l = true) :
    c.line l = { c with
      negcounter := c.negcounter + 1
      negfail := c.negfail || (1 < c.negcounter + 1 || !isRevision .removed l) } := by
  obtain ⟨⟨rest, rfl⟩, hmark⟩ := counted_iff.mp h
  have hline : c.line ('-' :: rest) = { c with
      negcounter := c.negcounter + 1
      negfail := c.negfail || decide (1 < c.negcounter + 1) ||
        decide (Awk.field 1 ('-' :: rest) ≠ "-PORTREVISION=".toList) } := if_pos hmark
  unfold isRevision
  rw [← Bool.or_assoc, ← decide_not]
  exact hline

theorem line_other (c : Counts) {l : Text} (hadded : ¬ counted .added l = true)
    (hremoved : ¬ counted .removed l = true) : c.line l = c := by
  unfold Counts.line
  split
  · rename_i rest
    exact if_neg fun h => hadded (counted_iff.mpr ⟨⟨rest, rfl⟩, h⟩)
  · rename_i rest
    exact if_neg fun h => hremoved (counted_iff.mpr ⟨⟨rest, rfl⟩, h⟩)
  · rfl

theorem not_counted_removed {l : Text} (h : counted .added l = true) :
    ¬ counted .removed l = true := by
  intro hremoved
  obtain ⟨⟨rest, rfl⟩, _⟩ := counted_iff.mp h
  obtain ⟨⟨rest', heq⟩, _⟩ := counted_iff.mp hremoved
  exact absurd (List.cons.inj heq).1 (by decide)

theorem foldl_line (c : Counts) (ls : List Text) :
    ls.foldl Counts.line c =
      { counter := c.counter + (ls.filter (counted .added)).length
        pv := c.pv || (ls.filter (counted .added)).any (isRevision .added)
        negcounter := c.negcounter + (ls.filter (counted .removed)).length
        negfail := c.negfail || fails c.negcounter (ls.filter (counted .removed)) } := by
  induction ls generalizing c with
  | nil =>
    cases c with
    | mk counter pv negcounter negfail =>
      rw [List.foldl_nil, List.filter_nil, List.filter_nil, List.any_nil, Bool.or_false]
      exact congrArg _ (Bool.or_false negfail).symm
  | cons l ls ih =>
    rw [List.foldl_cons, ih]
    by_cases hadded : counted .added l = true
    · rw [line_added c hadded, List.filter_cons_of_pos hadded,
        List.filter_cons_of_neg (not_counted_removed hadded), List.length_cons, List.any_cons,
        Bool.or_assoc, Nat.add_assoc, Nat.add_comm 1]
    · by_cases hremoved : counted .removed l = true
      · rw [line_removed c hremoved, List.filter_cons_of_neg hadded,
          List.filter_cons_of_pos hremoved, List.length_cons, fails, Bool.or_assoc,
          Nat.add_assoc, Nat.add_comm 1]
      · rw [line_other c hadded hremoved, List.filter_cons_of_neg hadded,
          List.filter_cons_of_neg hremoved]

/-- One line is added and at most one is removed, and these lines are `P`. -/
def OneLine (P : Side → Text → Prop) (ls : Side → List Text) : Prop :=
  (∃ l, ls .added = [l] ∧ P .added l) ∧
    (ls .removed = [] ∨ ∃ l, ls .removed = [l] ∧ P .removed l)

theorem fails_eq_false_iff (ls : List Text) :
    fails 0 ls = false ↔ ls = [] ∨ ∃ l, ls = [l] ∧ isRevision .removed l = true := by
  cases ls with
  | nil => simp [fails]
  | cons l ls =>
    cases ls with
    | nil => simp [fails]
    | cons m ls => simp [fails]

theorem bumpOrUpdate_eq (ls : List Text) :
    (OneLine (isRevision · · = true) (fun side => ls.filter (counted side)) →
      bumpOrUpdate ls = "Bump".toList) ∧
    (¬ OneLine (isRevision · · = true) (fun side => ls.filter (counted side)) →
      bumpOrUpdate ls = "Update".toList) := by
  have hadded : ((ls.filter (counted .added)).length = 1 ∧
      (ls.filter (counted .added)).any (isRevision .added) = true) ↔
        ∃ l, ls.filter (counted .added) = [l] ∧ isRevision .added l = true := by
    rw [List.length_eq_one_iff]
    constructor
    · intro ⟨⟨l, hl⟩, hany⟩
      rw [hl, List.any_cons, List.any_nil, Bool.or_false] at hany
      exact ⟨l, hl, hany⟩
    · intro ⟨l, hl, hrevision⟩
      rw [hl, List.any_cons, List.any_nil, Bool.or_false]
      exact ⟨⟨l, rfl⟩, hrevision⟩
  unfold OneLine bumpOrUpdate
  rw [← hadded, ← fails_eq_false_iff, foldl_line, and_assoc]
  simp only [Nat.zero_add, Bool.false_or]
  exact ⟨fun h => if_pos h, fun h => if_neg h⟩

def Revision (l : Text) : Prop := Awk.field 1 l = "PORTREVISION=".toList

def indented (l : Text) : Bool := l.head?.any Awk.isBlank

/-- Behind its sign the line begins with the word that the file's name stands behind. -/
def headerLike (side : Side) (l : Text) : Bool :=
  !indented l && Awk.field 1 l = [side.sign, side.sign]

def awkCmd2 (d : Diff) : Text := bumpOrUpdate (LineTools.lines (Diffs.print d))

/-- The diff adds the one line, and removes no line but the one before it. -/
def Bumps (d : Diff) : Prop := OneLine (fun _ => Revision) fun side => changed side d

def Classified (d : Diff) : Prop :=
  (Bumps d → awkCmd2 d = "Bump".toList) ∧ (¬ Bumps d → awkCmd2 d = "Update".toList)

/-- The changed lines apart from those that look like a header's. -/
def visible (d : Diff) (side : Side) : List Text :=
  (changed side d).filter fun l => !headerLike side l

/-- The revision is set by a line with blanks in front. -/
def IndentedBump (d : Diff) : Prop := Bumps d ∧ ∃ side, ∃ l ∈ changed side d, indented l = true

/-- Lines that look like a header's are changed beside the revision. -/
def HiddenChange (d : Diff) : Prop :=
  (∃ side, ∃ l ∈ changed side d, headerLike side l = true) ∧
    OneLine (fun _ l => Revision l ∧ indented l = false) (visible d)

theorem sign_not_blank (side : Side) : Awk.isBlank side.sign = false := by cases side <;> rfl

theorem counted_signed (side : Side) (l : Text) :
    counted side (side.sign :: l) = !headerLike side l := by
  have hmark : Awk.field 1 (side.sign :: l) = side.mark ↔ headerLike side l = true := by
    rw [Awk.field_one_cons (sign_not_blank side)]
    unfold headerLike indented Side.mark
    by_cases hblank : l.head?.any Awk.isBlank = true
    · simp [hblank]
    · simp [hblank]
  unfold counted
  by_cases h : headerLike side l = true
  · simp [hmark.mpr h, h]
  · have hne := mt hmark.mp h
    simp [hne, h]

theorem isRevision_signed (side : Side) (l : Text) :
    isRevision side (side.sign :: l) = true ↔ Revision l ∧ indented l = false := by
  unfold isRevision Revision indented
  rw [decide_eq_true_iff, Awk.field_one_cons (sign_not_blank side)]
  by_cases hblank : l.head?.any Awk.isBlank = true
  · simp [hblank]
  · simp [hblank]

theorem Revision.not_headerLike {l : Text} (h : Revision l) (side : Side) :
    headerLike side l = false := by
  unfold headerLike
  rw [h]
  cases side <;> exact Bool.and_false _

/-- The counted lines of the text are the visible ones behind their signs. -/
theorem filter_counted (d : Diff) (side : Side) :
    (LineTools.lines (Diffs.print d)).filter (counted side) =
      (visible d side).map (side.sign :: ·) := by
  have hsign : ∀ l, counted side l = true → l.head? = some side.sign := by
    intro l h
    obtain ⟨⟨rest, rfl⟩, _⟩ := counted_iff.mp h
    rfl
  have hmark : ∀ l, counted side (side.mark ++ ' ' :: l) = false := by
    intro l
    have hplain : Awk.Plain side.mark := by cases side <;> decide
    have hne : side.mark ≠ [] := List.cons_ne_nil _ _
    have hfirst : Awk.field 1 (side.mark ++ ' ' :: l) = side.mark := by
      unfold Awk.field
      rw [Awk.words_append hplain hne rfl]
      rfl
    rw [← Bool.not_eq_true]
    exact fun h => (counted_iff.mp h).2 hfirst
  rw [Diffs.lines_print, Diffs.filter_texts hsign hmark, List.filter_map]
  exact congrArg _ (List.filter_congr fun l _ => counted_signed side l)

theorem oneLine_map {P : Side → Text → Prop} {ls : Side → List Text}
    (f : Side → Text → Text) :
    OneLine P (fun side => (ls side).map (f side)) ↔ OneLine (fun side l => P side (f side l)) ls := by
  have hsingle : ∀ side, (∃ l, (ls side).map (f side) = [l] ∧ P side l) ↔
      ∃ l, ls side = [l] ∧ P side (f side l) := by
    intro side
    constructor
    · intro ⟨l, hl, hP⟩
      obtain ⟨m, hm, rfl⟩ := List.map_eq_singleton_iff.mp hl
      exact ⟨m, hm, hP⟩
    · intro ⟨m, hm, hP⟩
      exact ⟨f side m, by rw [hm]; rfl, hP⟩
  unfold OneLine
  rw [hsingle, hsingle, List.map_eq_nil_iff]

/-- The program bumps for what it sees, if no blanks are in front. -/
theorem awkCmd2_eq (d : Diff) :
    (OneLine (fun _ l => Revision l ∧ indented l = false) (visible d) →
      awkCmd2 d = "Bump".toList) ∧
    (¬ OneLine (fun _ l => Revision l ∧ indented l = false) (visible d) →
      awkCmd2 d = "Update".toList) := by
  have hlines : (fun side => (LineTools.lines (Diffs.print d)).filter (counted side)) =
      fun side => (visible d side).map (side.sign :: ·) := funext (filter_counted d)
  have hsigned : (fun side l => isRevision side (side.sign :: l) = true) =
      fun _ l => Revision l ∧ indented l = false :=
    funext fun side => funext fun l => propext (isRevision_signed side l)
  have h := bumpOrUpdate_eq (LineTools.lines (Diffs.print d))
  rw [hlines, oneLine_map fun side l => side.sign :: l, hsigned] at h
  exact h

theorem OneLine.forall_mem {P : Side → Text → Prop} {ls : Side → List Text} (h : OneLine P ls) :
    ∀ side, ∀ l ∈ ls side, P side l := by
  obtain ⟨⟨l, hl, hP⟩, hremoved⟩ := h
  intro side m hm
  cases side with
  | added =>
    rw [hl, List.mem_singleton] at hm
    exact hm ▸ hP
  | removed =>
    cases hremoved with
    | inl hnil => simp [hnil] at hm
    | inr hone =>
      obtain ⟨m', hm', hP'⟩ := hone
      rw [hm', List.mem_singleton] at hm
      exact hm ▸ hP'

theorem OneLine.of_forall_mem {P Q : Side → Text → Prop} {ls : Side → List Text}
    (h : OneLine P ls) (hQ : ∀ side, ∀ l ∈ ls side, Q side l) : OneLine Q ls := by
  obtain ⟨⟨l, hl, _⟩, hremoved⟩ := h
  refine ⟨⟨l, hl, hQ .added l (hl ▸ List.mem_singleton_self l)⟩, ?_⟩
  refine hremoved.imp_right fun ⟨m, hm, _⟩ => ⟨m, hm, ?_⟩
  exact hQ .removed m (hm ▸ List.mem_singleton_self m)

theorem visible_eq_changed {d : Diff}
    (h : ∀ side, ∀ l ∈ changed side d, headerLike side l = false) :
    visible d = fun side => changed side d := by
  funext side
  apply List.filter_eq_self.mpr
  intro l hl
  rw [h side l hl]
  rfl

theorem Bumps.not_headerLike {d : Diff} (h : Bumps d) :
    ∀ side, ∀ l ∈ changed side d, headerLike side l = false :=
  fun side l hl => (h.forall_mem side l hl).not_headerLike side

/-- What is wanted and what is seen differ only by blanks in front and by lines that look like a
header's. -/
theorem classified_iff (d : Diff) : Classified d ↔ ¬ IndentedBump d ∧ ¬ HiddenChange d := by
  have hdiffer : "Bump".toList ≠ "Update".toList := by decide
  obtain ⟨hbump, hupdate⟩ := awkCmd2_eq d
  constructor
  · intro ⟨hwanted, hother⟩
    constructor
    · intro ⟨hbumps, side, l, hl, hindented⟩
      refine hdiffer ((hwanted hbumps).symm.trans (hupdate fun hseen => ?_))
      rw [visible_eq_changed hbumps.not_headerLike] at hseen
      have hnot := (hseen.forall_mem side l hl).2
      rw [hindented] at hnot
      exact Bool.noConfusion hnot
    · intro ⟨⟨side, l, hl, hheader⟩, hseen⟩
      refine hdiffer ((hbump hseen).symm.trans (hother fun hbumps => ?_))
      have hnot := hbumps.not_headerLike side l hl
      rw [hheader] at hnot
      exact Bool.noConfusion hnot
  · intro ⟨hindented, hhidden⟩
    constructor
    · intro hbumps
      apply hbump
      rw [visible_eq_changed hbumps.not_headerLike]
      apply hbumps.of_forall_mem
      intro side l hl
      refine ⟨hbumps.forall_mem side l hl, ?_⟩
      rw [← Bool.not_eq_true]
      exact fun h => hindented ⟨hbumps, side, l, hl, h⟩
    · intro hnot
      apply hupdate
      intro hseen
      have hplain : ∀ side, ∀ l ∈ changed side d, headerLike side l = false := by
        intro side l hl
        rw [← Bool.not_eq_true]
        exact fun h => hhidden ⟨⟨side, l, hl, h⟩, hseen⟩
      rw [visible_eq_changed hplain] at hseen
      exact hnot (hseen.of_forall_mem fun side l hl => (hseen.forall_mem side l hl).1)

/-- A comment of an SQL file goes as the revision is set. -/
def commentRemoved : Diff := [
  { headers := [⟨.diff, ⟨"--git a/x/Makefile b/x/Makefile".toList, by decide⟩⟩]
    names := some (⟨"a/x/Makefile".toList, by decide⟩, ⟨"b/x/Makefile".toList, by decide⟩)
    hunks := [⟨⟨"-3,0 +4 @@".toList, by decide⟩,
      [.added ⟨"PORTREVISION=\t1".toList, by decide⟩]⟩] },
  { headers := [⟨.diff, ⟨"--git a/x/files/x.sql b/x/files/x.sql".toList, by decide⟩⟩]
    names := some (⟨"a/x/files/x.sql".toList, by decide⟩, ⟨"b/x/files/x.sql".toList, by decide⟩)
    hunks := [⟨⟨"-1 +0,0 @@".toList, by decide⟩,
      [.removed ⟨"-- the tables".toList, by decide⟩]⟩] }]

theorem comment_removal_is_bump : ¬ ∀ d, Classified d := by
  intro h
  have hbump : awkCmd2 commentRemoved = "Bump".toList := by decide +kernel
  have hchanged : changed .removed commentRemoved = ["-- the tables".toList] := rfl
  have hnot : ¬ Bumps commentRemoved := by
    intro hbumps
    have hrevision := hbumps.forall_mem .removed "-- the tables".toList
      (hchanged ▸ List.mem_singleton_self _)
    exact absurd hrevision (by unfold Revision; decide)
  exact absurd (hbump.symm.trans ((h commentRemoved).2 hnot)) (by decide)

end DeltaPorts.Hook.CommitDaemon

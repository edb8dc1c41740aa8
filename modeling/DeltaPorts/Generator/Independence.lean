import DeltaPorts.Generator.Merge

/-!
# What one port leaves for the next

The work area is cleared with the glob `*`, so files under hidden names outlive a merge. The
overlaid path fills the area by a mirror copy and never sees them. The filtered path copies
by the glob into what is left, and the mirror of the area carries them into `MERGED`.
-/

set_option autoImplicit false

namespace DeltaPorts.Generator

variable {Diff : Type}

theorem hidden_filtered (n : Name) : n.filtered.hidden = n.hidden := by
  obtain ⟨chars, hplain⟩ := n
  cases chars with
  | nil => cases hplain
  | cons c chars => rfl

theorem hidden_of_legacyName {n : Name} (h : legacyName n = true) : n.hidden = false := by
  unfold legacyName at h
  rcases Bool.or_eq_true_iff.mp h with h | h
  · obtain ⟨rest, hrest⟩ := List.isPrefixOf_iff_prefix.mp h
    unfold Name.hidden
    rw [← hrest]
    rfl
  · have hnot := (Bool.and_eq_true_iff.mp h).1
    rwa [Bool.not_eq_true'] at hnot

/-- The filter leaves everything under a hidden name alone. -/
theorem file_transform_of_hidden {dir work : Tree} {p : Path} (h : p.1.hidden = true) :
    (transform work (getLegacy dir)).file p = work.file p := by
  apply file_transform_of_not_mem
  intro n hn
  have hvisible := hidden_of_legacyName (mem_getLegacy.mp hn).1
  constructor
  · rintro rfl
    rw [hvisible] at h
    cases h
  · rintro rfl
    rw [hidden_filtered, hvisible] at h
    cases h

def NothingHidden (work : Tree) : Prop := ∀ p ∈ work.paths, p.1.hidden = false

theorem fastAndFiltered_alone_iff (orig work : Tree) :
    (fastAndFiltered orig work).1 = (fastAndFiltered orig FileTree.empty).1 ↔
      (getLegacy orig ≠ [] → NothingHidden work) := by
  unfold fastAndFiltered
  by_cases hlegacy : getLegacy orig = []
  · simp [hlegacy]
  · rw [if_neg hlegacy, if_neg hlegacy]
    constructor
    · intro heq _ p hp
      by_contra hhidden
      rw [Bool.not_eq_false] at hhidden
      have hfile := congrArg (fun t : Tree => t.file p) heq
      simp only [file_transform_of_hidden hhidden, FileTree.file_star_overlay_clear, hhidden,
        if_true, FileTree.file_empty] at hfile
      exact FileTree.not_mem_paths.mpr hfile hp
    · intro hwork
      have hcopied : (orig.star Name.hidden).overlay (work.clear Name.hidden) =
          (orig.star Name.hidden).overlay (FileTree.empty.clear Name.hidden) := by
        apply FileTree.ext
        intro p
        rw [FileTree.file_star_overlay_clear, FileTree.file_star_overlay_clear]
        split
        · rename_i hhidden
          apply FileTree.not_mem_paths.mp
          intro hp
          rw [hwork hlegacy p hp] at hhidden
          cases hhidden
        · rfl
      rw [hcopied]

/-- The merge takes the path of `fast_and_filtered` that copies into the work area. -/
def Filters (orig : Tree) (delta : Option (DeltaPort Diff)) (mode : Mode) : Prop :=
  (mode = .fast ∨ mode = .port ∧ ∀ dp ∈ delta, dp.bare = true) ∧ getLegacy orig ≠ []

/-- What a merge gives in an empty work area. -/
def mergeAlone (programs : Programs Diff) (orig : Tree) (delta : Option (DeltaPort Diff))
    (mode : Mode) : Tree := (merge programs orig delta mode FileTree.empty).1

theorem merge_alone_iff (programs : Programs Diff) (orig : Tree) (delta : Option (DeltaPort Diff))
    (mode : Mode) (work : Tree) :
    (merge programs orig delta mode work).1 = mergeAlone programs orig delta mode ↔
      (Filters orig delta mode → NothingHidden work) := by
  unfold mergeAlone
  cases mode with
  | fast =>
    change (fastAndFiltered orig work).1 = (fastAndFiltered orig FileTree.empty).1 ↔ _
    rw [fastAndFiltered_alone_iff]
    simp [Filters]
  | dport => simp [merge, Filters]
  | port =>
    cases delta with
    | none =>
      change (fastAndFiltered orig work).1 = (fastAndFiltered orig FileTree.empty).1 ↔ _
      rw [fastAndFiltered_alone_iff]
      simp [Filters]
    | some dp =>
      by_cases hbare : dp.bare = true
      · simp only [merge, hbare, if_true]
        rw [fastAndFiltered_alone_iff]
        simp [Filters, hbare]
      · simp [merge, Filters, hbare]

/-- A merge in FAST or PORT mode writes what the port's own directories give in an empty work
area. -/
def WritesAlone (env : Env Diff) (s : State) (line : Work) : Prop :=
  ∀ mode, mode ≠ .dport → decision env s line = .hold mode →
    (mainStep env s line).merged line.port =
      some (mergeAlone env.programs (env.fports line.port) (env.delta line.port) mode)

/-- If the line's merge copies into the work area, no file under a hidden name is there. -/
def FiltersClean (env : Env Diff) (s : State) (line : Work) : Prop :=
  ∀ mode, decision env s line = .hold mode →
    Filters (env.fports line.port) (env.delta line.port) mode → NothingHidden s.work

theorem writesAlone_iff (env : Env Diff) (s : State) (line : Work) :
    WritesAlone env s line ↔ FiltersClean env s line := by
  constructor
  · intro h mode hmode hfilters
    have hne : mode ≠ .dport := by
      rintro rfl
      simp [Filters] at hfilters
    have heq := h mode hne hmode
    rw [merged_of_hold hmode, Option.some_inj, merge_alone_iff] at heq
    exact heq hfilters
  · intro h mode _ hmode
    rw [merged_of_hold hmode, Option.some_inj, merge_alone_iff]
    exact h mode hmode

/-- Every line of the worklist meets `P` in the state in which the main loop comes to it. -/
def EachLine (P : State → Work → Prop) (env : Env Diff) (s : State) (worklist : List Work) : Prop :=
  ∀ before line after, worklist = before ++ line :: after → P (mainLoop env s before) line

def plainFile : Name := ⟨"Makefile".toList, by decide⟩

def hiddenFile : Name := ⟨".editorconfig".toList, by decide⟩

def overlaidPort : Origin := "net/a".toList

def filteredPort : Origin := "net/b".toList

/-- `net/a` has a hidden file and a `Makefile.DragonFly`, `net/b` a makefile that names amd64. -/
noncomputable def twoPorts : Env Unit where
  fports port :=
    if port = overlaidPort then FileTree.single (hiddenFile, []) "root = true".toList
    else FileTree.single (plainFile, []) "ONLY_FOR_ARCHS=amd64".toList
  dports _ := FileTree.empty
  delta port :=
    if port = overlaidPort then
      some ⟨none, some "USES+=alias".toList, none, none, FileTree.empty⟩
    else none
  programs := ⟨fun t _ => t, FileTree.Listing.any Path, Awk.decimals⟩

def freshStart : State := ⟨FileTree.empty, fun _ => none⟩

def overlaidLine : Work := ⟨overlaidPort, "1.0".toList⟩

def filteredLine : Work := ⟨filteredPort, "1.0".toList⟩

theorem hidden_file_left : (hiddenFile, []) ∈ (mainLoop twoPorts freshStart [overlaidLine]).work.paths := by
  rw [FileTree.mem_paths_iff]
  refine ⟨"root = true".toList, ?_⟩
  have hhidden : hiddenFile.hidden = true := by decide
  have hne : (hiddenFile, ([] : List Name)) ≠ (makefileName, []) := by decide
  change (transform (overlaidArea _ _ _) (getLegacy _)).file _ = _
  rw [file_transform_of_hidden hhidden]
  change (FileTree.insert _ _ _).file _ = _
  rw [FileTree.file_insert_of_ne hne]
  rfl

/-- The hidden file of the first port reaches the directory of the second. -/
theorem hidden_file_reaches_next_port :
    ¬ EachLine (WritesAlone twoPorts) twoPorts freshStart [overlaidLine, filteredLine] := by
  intro h
  have halone := h [overlaidLine] filteredLine [] rfl
  rw [writesAlone_iff] at halone
  have hlegacy : plainFile ∈ getLegacy (twoPorts.fports filteredPort) := by
    rw [mem_getLegacy]
    exact ⟨by decide, "ONLY_FOR_ARCHS=amd64".toList, by rfl, by decide⟩
  have hclean : NothingHidden _ := halone .fast rfl ⟨Or.inl rfl, List.ne_nil_of_mem hlegacy⟩
  have hvisible := hclean _ hidden_file_left
  revert hvisible
  decide

/-- Every FAST and PORT merge of a run of the main loop gives what the port gives alone, if and
only if the work area holds no file under a hidden name whenever a port is copied into it to be
filtered. -/
theorem merges_alone_iff_filters_clean (env : Env Diff) (s : State) (worklist : List Work) :
    EachLine (WritesAlone env) env s worklist ↔ EachLine (FiltersClean env) env s worklist := by
  unfold EachLine
  simp only [writesAlone_iff]

end DeltaPorts.Generator

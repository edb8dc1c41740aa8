import DeltaPorts.Generator.Independence
import DeltaPorts.Library.Shell

/-!
# The fast copy and the filtered copy

`fast_and_filtered` mirrors a directory, or copies it by a glob and filters the copy in place.
The pattern that chooses between the two covers every line that the sed program changes, but the
glob passes over hidden names, and the filter writes temporary files beside the files of the
port.
-/

set_option autoImplicit false

namespace DeltaPorts.Generator

section Sed

variable {s : Subst} {k l : List Char} {before after : List Atom}

theorem startsWith_append {as bs : List Atom} (h : startsWith (as ++ bs) l = true) :
    ∃ l₁ l₂, l = l₁ ++ l₂ ∧ startsWith bs l₂ = true := by
  induction as generalizing l with
  | nil => exact ⟨[], l, rfl, h⟩
  | cons a as ih =>
    cases l with
    | nil => cases h
    | cons c l =>
      obtain ⟨l₁, l₂, rfl, hrest⟩ := ih (Bool.and_eq_true_iff.mp h).2
      exact ⟨c :: l₁, l₂, rfl, hrest⟩

theorem prefix_of_startsWith (h : startsWith (k.map Atom.chr ++ after) l = true) : k <+: l := by
  induction k generalizing l with
  | nil => exact List.nil_prefix
  | cons a k ih =>
    cases l with
    | nil => cases h
    | cons c l =>
      obtain ⟨hhead, hrest⟩ := Bool.and_eq_true_iff.mp h
      have hac : a = c := of_decide_eq_true hhead
      rw [hac]
      exact List.cons_prefix_cons.mpr ⟨rfl, ih hrest⟩

/-- A pattern that has a word in it matches only where the word is. -/
theorem infix_of_matchesAt (hpat : s.pat = before ++ (k.map Atom.chr ++ after))
    (h : s.matchesAt l = true) : k <:+: l := by
  have hstart : startsWith (before ++ (k.map Atom.chr ++ after)) l = true := by
    rw [← hpat]
    exact (Bool.and_eq_true_iff.mp h).1
  obtain ⟨l₁, l₂, rfl, hrest⟩ := startsWith_append hstart
  exact (prefix_of_startsWith hrest).isInfix.trans (List.suffix_append l₁ l₂).isInfix

theorem Subst.run_eq_self (hpat : s.pat = before ++ (k.map Atom.chr ++ after))
    (h : ¬ k <:+: l) : s.run 0 l = l := by
  induction l with
  | nil => rfl
  | cons c l ih =>
    have hno : s.matchesAt (c :: l) = false := by
      by_contra hmatch
      exact h (infix_of_matchesAt hpat (Bool.eq_true_of_not_eq_false hmatch))
    have htail : ¬ k <:+: l := fun hword => h (hword.trans (List.suffix_cons c l).isInfix)
    rw [Subst.run, hno, ih htail]
    rfl

/-- Every substitution of the program has `amd64` or `libomp` in its pattern. -/
theorem sedLine_eq_self (hold : ¬ "amd64".toList <:+: l) (homp : ¬ "libomp".toList <:+: l) :
    sedLine l = l := by
  have hamd (before after : List Atom) (repl : List Char) :
      (⟨before ++ ("amd64".toList.map Atom.chr ++ after), false, repl⟩ : Subst).run 0 l = l :=
    Subst.run_eq_self rfl hold
  have hlibomp (after : List Atom) (repl : List Char) :
      (⟨"libomp".toList.map Atom.chr ++ after, true, repl⟩ : Subst).run 0 l = l :=
    @Subst.run_eq_self _ _ _ [] _ rfl homp
  have hdefault : (plainSubst "OPTIONS_DEFAULT_amd64" "OPTIONS_DEFAULT_x86_64").run 0 l = l :=
    hamd (pattern "OPTIONS_DEFAULT_") [] _
  have hdefine : (plainSubst "OPTIONS_DEFINE_amd64" "OPTIONS_DEFINE_x86_64").run 0 l = l :=
    hamd (pattern "OPTIONS_DEFINE_") [] _
  have hbroken : (plainSubst "BROKEN_amd64" "BROKEN_x86_64").run 0 l = l :=
    hamd (pattern "BROKEN_") [] _
  have hon : (plainSubst "_ON_amd64" "_ON_x86_64").run 0 l = l := hamd (pattern "_ON_") [] _
  have hoff : (plainSubst "_OFF_amd64" "_OFF_x86_64").run 0 l = l := hamd (pattern "_OFF_") [] _
  have hcflags : (plainSubst "CFLAGS_amd64" "CFLAGS_x86_64").run 0 l = l :=
    hamd (pattern "CFLAGS_") [] _
  have harch : (plainSubst "\x7bARCH:Mamd64\x7d" "\x7bARCH:Mx86_64\x7d").run 0 l = l :=
    hamd (pattern "\x7bARCH:M") (pattern "\x7d") _
  have hequals : (plainSubst "_amd64=" "_x86_64=").run 0 l = l := hamd (pattern "_") (pattern "=") _
  have hplain : (plainSubst "amd64" "x86_64").run 0 l = l := hamd [] [] _
  have hso : (⟨pattern "libomp.so:devel/openmp", true, []⟩ : Subst).run 0 l = l :=
    hlibomp (pattern ".so:devel/openmp") []
  have hso0 : (⟨pattern "libomp.so.0:devel/openmp", true, []⟩ : Subst).run 0 l = l :=
    hlibomp (pattern ".so.0:devel/openmp") []
  simp only [sedLine, hdefault, hdefine, hbroken, hon, hoff, hcflags, harch, hequals, hplain,
    ite_self, hso, hso0]

end Sed

/-- What `grep` does not list, the sed program does not change. -/
theorem sedProgram_eq_self {c : Content} (h : legacyContent c = false) : sedProgram c = c := by
  simp only [legacyContent, Bool.or_eq_false_iff, decide_eq_false_iff_not] at h
  have hlines : (c.splitOn '\n').map sedLine = c.splitOn '\n' := by
    have hself : ∀ l ∈ c.splitOn '\n', sedLine l = id l := by
      intro l hl
      have hpart : l <:+: c := by
        have hmem : l <:+: List.intercalate ['\n'] (c.splitOn '\n') :=
          Shell.infix_intercalate hl
        rwa [List.intercalate_splitOn] at hmem
      exact sedLine_eq_self (fun hword => h.1 (hword.trans hpart)) fun hword =>
        h.2 (hword.trans hpart)
    rw [List.map_congr_left hself, List.map_id]
  unfold sedProgram
  rw [hlines, List.intercalate_splitOn]

variable {orig work : Tree} {n f item : Name} {items : List Name} {c : Content} {p : Path}

theorem top_ne {m : Name} (h : n ≠ m) : (n, ([] : List Name)) ≠ (m, []) :=
  fun heq => h (congrArg Prod.fst heq)

theorem isDir_transformItem : (transformItem work item).IsDir p ↔ work.IsDir p := by
  apply FileTree.isDir_congr
  intro q hq
  have hne (m : Name) : q ≠ (m, []) := by
    rintro rfl
    exact FileTree.not_below_top _ _ hq
  exact file_transformItem_of_ne (hne item) (hne item.filtered)

theorem isDir_transform : (transform work items).IsDir p ↔ work.IsDir p := by
  induction items generalizing work with
  | nil => rfl
  | cons item items ih =>
    have hrest : (transform (transformItem work item) items).IsDir p ↔
      (transformItem work item).IsDir p := ih
    exact hrest.trans isDir_transformItem

theorem transform_append (work : Tree) (items items' : List Name) :
    transform work (items ++ items') = transform (transform work items) items' :=
  List.foldl_append

/-- A file that is not filtered stays as it is, or goes as the temporary file of another one. -/
theorem file_transformItem_cases (work : Tree) (h : p ≠ (item, [])) :
    (transformItem work item).file p = work.file p ∨ (transformItem work item).file p = none := by
  by_cases hskip : work.IsDir (item.filtered, [])
  · left
    exact congrArg (fun t : Tree => t.file p) (if_pos hskip)
  · rw [file_transformItem hskip, if_neg fun hp => h hp.1]
    split
    · exact .inr rfl
    · exact .inl rfl

theorem file_transform_cases (work : Tree) (h : n ∉ items) :
    (transform work items).file (n, []) = work.file (n, []) ∨
      (transform work items).file (n, []) = none := by
  induction items generalizing work with
  | nil => exact .inl rfl
  | cons item items ih =>
    rw [List.mem_cons, not_or] at h
    have hne : (n, ([] : List Name)) ≠ (item, []) := top_ne h.1
    rcases ih (transformItem work item) h.2 with hrest | hrest
    · have hend : (transform work (item :: items)).file (n, []) =
          (transformItem work item).file (n, []) := hrest
      rw [hend]
      exact file_transformItem_cases work hne
    · exact .inr hrest

/-- What is gone can only come back empty. -/
theorem file_transform_of_none (items : List Name)
    (h : work.file (n, []) = none ∨ work.file (n, []) = some []) :
    (transform work items).file (n, []) = none ∨
      (transform work items).file (n, []) = some [] := by
  induction items generalizing work with
  | nil => exact h
  | cons item items ih =>
    apply ih
    by_cases hn : n = item
    · subst hn
      by_cases hskip : work.IsDir (n.filtered, [])
      · rw [show transformItem work n = work from if_pos hskip]
        exact h
      · have hempty : sedProgram ((work.file (n, [])).getD []) = [] := by
          rcases h with h | h <;> rw [h] <;> rfl
        have hne : (n, ([] : List Name)) ≠ (n.filtered, []) := top_ne n.filtered_ne.symm
        rw [file_transformItem hskip, hempty, if_neg hne]
        split
        · exact .inr rfl
        · exact h
    · have hne : (n, ([] : List Name)) ≠ (item, []) := top_ne hn
      rcases file_transformItem_cases work hne with hfile | hfile
      · rwa [hfile]
      · exact .inl hfile

/-- The file of an item whose temporary file can be written is what the program makes of it. -/
theorem file_transformItem_self (hskip : ¬ work.IsDir (n.filtered, []))
    (hdir : ¬ work.IsDir (n, [])) :
    (transformItem work n).file (n, []) = some (sedProgram ((work.file (n, [])).getD [])) := by
  rw [file_transformItem hskip, if_pos ⟨rfl, hdir⟩]

theorem file_transformItem_filtered (hskip : ¬ work.IsDir (n.filtered, [])) :
    (transformItem work n).file (n.filtered, []) = none := by
  have hne : (n.filtered, ([] : List Name)) ≠ (n, []) := top_ne n.filtered_ne
  rw [file_transformItem hskip, if_neg fun h => hne h.1, if_pos rfl]

theorem not_isDir_of_file (h : orig.file p = some c) : ¬ orig.IsDir p := by
  intro hdir
  rw [FileTree.file_of_blocked hdir.blocked] at h
  cases h

/-- `Makefile*` and `*.common`, whether the glob passes over the name or not. -/
def isMakefile (n : Name) : Bool :=
  "Makefile".toList.isPrefixOf n.chars || ".common".toList.isSuffixOf n.chars

/-- The names of the source, with the makefiles filtered and everything else as it was. -/
structure FilteredCopy (orig dest : Tree) : Prop where
  names : dest.paths = orig.paths
  makefiles : ∀ n c, orig.file (n, []) = some c → isMakefile n = true →
    dest.file (n, []) = some (sedProgram c)
  others : ∀ p c, orig.file p = some c → ¬ (p.2 = [] ∧ isMakefile p.1 = true) →
    dest.file p = some c
  identical : (∀ n c, orig.file (n, []) = some c → isMakefile n = true → sedProgram c = c) →
    dest = orig

/-- When no file is listed, no makefile that the glob passes over would be changed. When one is,
nothing has a hidden name; a temporary file falls on another listed file that the program
empties, or on none; and where it falls on a directory, the program changes nothing. -/
structure CopiesClean (orig : Tree) : Prop where
  unlisted : ∀ n c, n.hidden = true → orig.file (n, []) = some c → isMakefile n = true →
    sedProgram c = c
  hidden : getLegacy orig ≠ [] → NothingHidden orig
  files : ∀ n ∈ getLegacy orig, ∀ c, orig.file (n.filtered, []) = some c →
    n.filtered ∈ getLegacy orig ∧ sedProgram c = []
  dirs : ∀ n ∈ getLegacy orig, orig.IsDir (n.filtered, []) → ∀ c, orig.file (n, []) = some c →
    sedProgram c = c

theorem legacyName_of_isMakefile (hvisible : n.hidden = false) (h : isMakefile n = true) :
    legacyName n = true := by
  unfold isMakefile at h
  unfold legacyName
  rw [hvisible]
  simpa using h

theorem isMakefile_of_legacyName (h : legacyName n = true) : isMakefile n = true := by
  unfold legacyName at h
  unfold isMakefile
  rcases Bool.or_eq_true_iff.mp h with h | h
  · exact Bool.or_eq_true_iff.mpr (.inl h)
  · exact Bool.or_eq_true_iff.mpr (.inr (Bool.and_eq_true_iff.mp h).2)

/-- A makefile that is neither listed nor hidden is not changed by the program. -/
theorem sedProgram_of_not_listed (hvisible : n.hidden = false) (hn : n ∉ getLegacy orig)
    (hc : orig.file (n, []) = some c) (hname : isMakefile n = true) : sedProgram c = c := by
  apply sedProgram_eq_self
  by_contra hcontent
  apply hn
  exact mem_getLegacy.mpr ⟨legacyName_of_isMakefile hvisible hname, c, hc,
    Bool.eq_true_of_not_eq_false hcontent⟩

theorem not_mem_around {before after : List Name} (hsplit : getLegacy orig = before ++ n :: after) :
    n ∉ before ∧ n ∉ after := by
  have hnodup : (before ++ n :: after).Nodup := hsplit ▸ Finset.sort_nodup _ _
  obtain ⟨_, hrest, hapart⟩ := List.nodup_append.mp hnodup
  exact ⟨fun hmem => hapart n hmem n List.mem_cons_self rfl, (List.nodup_cons.mp hrest).1⟩

/-- The work area after the copy by the glob. -/
def copied (orig : Tree) : Tree :=
  (orig.star Name.hidden).overlay (FileTree.empty.clear Name.hidden)

theorem fastAndFiltered_of_listed (h : getLegacy orig ≠ []) :
    (fastAndFiltered orig FileTree.empty).1 = transform (copied orig) (getLegacy orig) :=
  congrArg Prod.fst (if_neg h)

theorem copied_eq (h : NothingHidden orig) : copied orig = orig := by
  apply FileTree.ext
  intro p
  unfold copied
  rw [FileTree.file_star_overlay_clear, FileTree.file_empty]
  split
  · rename_i hhidden
    symm
    apply FileTree.not_mem_paths.mp
    intro hp
    rw [h p hp] at hhidden
    cases hhidden
  · rfl

section Needed

variable (hcopy : FilteredCopy orig (transform (copied orig) (getLegacy orig)))

include hcopy

theorem nothingHidden_of_copy : NothingHidden orig := by
  intro p hp
  by_contra hhidden
  rw [Bool.not_eq_false] at hhidden
  rw [← hcopy.names] at hp
  apply FileTree.not_mem_paths.mpr _ hp
  rw [file_transform_of_hidden hhidden, copied, FileTree.file_star_overlay_clear, if_pos hhidden,
    FileTree.file_empty]

theorem files_of_copy (hn : n ∈ getLegacy orig) (hc : orig.file (n.filtered, []) = some c) :
    n.filtered ∈ getLegacy orig ∧ sedProgram c = [] := by
  have heq := copied_eq (nothingHidden_of_copy hcopy)
  have hthere : (transform (copied orig) (getLegacy orig)).file (n.filtered, []) ≠ none := by
    apply mt FileTree.not_mem_paths.mpr
    rw [not_not, hcopy.names]
    exact FileTree.mem_paths_iff.mpr ⟨c, hc⟩
  obtain ⟨before, after, hsplit⟩ := List.append_of_mem hn
  have hskip : ¬ (transform orig before).IsDir (n.filtered, []) :=
    mt isDir_transform.mp (not_isDir_of_file hc)
  have hgone := file_transformItem_filtered hskip
  have hend : transform (copied orig) (getLegacy orig) =
      transform (transformItem (transform orig before) n) after := by
    rw [heq, hsplit, transform_append]
    rfl
  have hlisted : n.filtered ∈ getLegacy orig := by
    by_contra hno
    have hafter : n.filtered ∉ after := by
      rw [hsplit] at hno
      exact fun hmem => hno (List.mem_append_right _ (List.mem_cons_of_mem n hmem))
    apply hthere
    rw [hend]
    rcases file_transform_cases (transformItem (transform orig before) n) hafter with h | h
    · rw [h, hgone]
    · exact h
  refine ⟨hlisted, ?_⟩
  have hmade := hcopy.makefiles n.filtered c hc
    (isMakefile_of_legacyName (mem_getLegacy.mp hlisted).1)
  rw [hend] at hmade hthere
  rcases file_transform_of_none after (.inl hgone) with h | h
  · exact absurd h hthere
  · rw [h] at hmade
    exact (Option.some.inj hmade).symm

theorem dirs_of_copy (hn : n ∈ getLegacy orig) (hdir : orig.IsDir (n.filtered, []))
    (hc : orig.file (n, []) = some c) : sedProgram c = c := by
  have heq := copied_eq (nothingHidden_of_copy hcopy)
  have hmade := hcopy.makefiles n c hc (isMakefile_of_legacyName (mem_getLegacy.mp hn).1)
  obtain ⟨before, after, hsplit⟩ := List.append_of_mem hn
  obtain ⟨hbefore, hafter⟩ := not_mem_around hsplit
  have hskip : transformItem (transform orig before) n = transform orig before :=
    if_pos (isDir_transform.mpr hdir)
  have hend : transform (copied orig) (getLegacy orig) =
      transform (transform orig before) after := by
    rw [heq, hsplit, transform_append]
    exact congrArg (transform · after) hskip
  rw [hend] at hmade
  rcases file_transform_cases (transform orig before) hafter with h | h
  · rw [h] at hmade
    rcases file_transform_cases orig hbefore with h' | h'
    · rw [h', hc] at hmade
      exact (Option.some.inj hmade).symm
    · rw [h'] at hmade
      cases hmade
  · rw [h] at hmade
    cases hmade

end Needed

/-- The items of `before` are filtered. Those of `after` are as in the source, or are empty after
the filter and have gone as temporary files. -/
structure Filtering (orig : Tree) (before after : List Name) (work : Tree) : Prop where
  done : ∀ n ∈ before, work.file (n, []) = (orig.file (n, [])).map sedProgram
  rest : ∀ n ∈ after, ∀ c, orig.file (n, []) = some c →
    work.file (n, []) = some c ∨ work.file (n, []) = none ∧ sedProgram c = []
  others : ∀ p, (∀ n ∈ before ++ after, p ≠ (n, [])) → work.file p = orig.file p
  dirs : ∀ p, work.IsDir p ↔ orig.IsDir p

theorem name_lt_filtered (n : Name) : n < n.filtered := by
  show n.chars < n.chars ++ ".filtered".toList
  have hlt : n.chars ++ [] < n.chars ++ ".filtered".toList :=
    List.append_left_lt (by decide)
  rwa [List.append_nil] at hlt

theorem Filtering.self_filtered (hclean : CopiesClean orig) {before after : List Name}
    (hn : n ∈ getLegacy orig) (hc : orig.file (n, []) = some c) (hcontent : legacyContent c = true)
    (hw : Filtering orig before (n :: after) work) :
    (transformItem work n).file (n, []) = some (sedProgram c) := by
  have hself := hw.rest n List.mem_cons_self c hc
  by_cases hskip : work.IsDir (n.filtered, [])
  · have hsame : sedProgram c = c := hclean.dirs n hn ((hw.dirs _).mp hskip) c hc
    rw [show transformItem work n = work from if_pos hskip, hsame]
    refine hself.resolve_right fun hgone => ?_
    -- a listed file is not empty
    rw [hsame] at hgone
    rw [hgone.2] at hcontent
    cases hcontent
  · have hdir : ¬ work.IsDir (n, []) := mt (hw.dirs _).mp (not_isDir_of_file hc)
    rw [file_transformItem_self hskip hdir]
    rcases hself with hthere | ⟨hgone, hempty⟩
    · rw [hthere, Option.getD_some]
    · rw [hgone, hempty]
      rfl

/-- One item, whose name comes after those of `before` and before those of `after`. -/
theorem Filtering.step (hclean : CopiesClean orig) {before after : List Name}
    (hsplit : getLegacy orig = before ++ n :: after)
    (hw : Filtering orig before (n :: after) work) :
    Filtering orig (before ++ [n]) after (transformItem work n) := by
  have hn : n ∈ getLegacy orig := by
    rw [hsplit]
    exact List.mem_append_right _ List.mem_cons_self
  obtain ⟨_, c, hc, hcontent⟩ := mem_getLegacy.mp hn
  have hsorted : (before ++ n :: after).Pairwise (· ≤ ·) := hsplit ▸ Finset.pairwise_sort _ _
  obtain ⟨hbefore, hafter⟩ := not_mem_around hsplit
  have hlater : n.filtered ∉ before := fun hmem => absurd
    ((List.pairwise_append.mp hsorted).2.2 _ hmem n List.mem_cons_self)
    (not_le_of_gt (name_lt_filtered n))
  have hlists : before ++ [n] ++ after = before ++ n :: after := by
    rw [List.append_assoc, List.singleton_append]
  refine ⟨?_, ?_, ?_, fun p => isDir_transformItem.trans (hw.dirs p)⟩
  · intro m hm
    rcases List.mem_append.mp hm with hdone | hm
    · have hmn : m ≠ n := fun heq => hbefore (heq ▸ hdone)
      have hmf : m ≠ n.filtered := fun heq => hlater (heq ▸ hdone)
      rw [file_transformItem_of_ne (top_ne hmn) (top_ne hmf)]
      exact hw.done m hdone
    · rw [List.mem_singleton.mp hm, hc, Option.map_some]
      exact hw.self_filtered hclean hn hc hcontent
  · intro m hm d hd
    have hmn : m ≠ n := by
      rintro rfl
      exact hafter hm
    rcases hw.rest m (List.mem_cons_of_mem n hm) d hd with hthere | hgone
    · by_cases hmf : m = n.filtered
      · subst hmf
        rcases file_transformItem_cases work (top_ne hmn) with hfile | hfile
        · exact .inl (hfile.trans hthere)
        · exact .inr ⟨hfile, (hclean.files n hn d hd).2⟩
      · rw [file_transformItem_of_ne (top_ne hmn) (top_ne hmf)]
        exact .inl hthere
    · rcases file_transformItem_cases work (top_ne hmn) with hfile | hfile
      · exact .inr ⟨hfile.trans hgone.1, hgone.2⟩
      · exact .inr ⟨hfile, hgone.2⟩
  · intro p hp
    rw [hlists] at hp
    have hpn : p ≠ (n, []) := hp n (List.mem_append_right _ List.mem_cons_self)
    have hsource := hw.others p hp
    rcases file_transformItem_cases work hpn with hfile | hfile
    · exact hfile.trans hsource
    · by_cases hpf : p = (n.filtered, [])
      · rw [hfile]
        symm
        -- a file under the temporary name would be listed
        cases hd : orig.file p with
        | none => rfl
        | some d =>
          subst hpf
          have hlisted := (hclean.files n hn d hd).1
          rw [hsplit] at hlisted
          exact absurd rfl (hp _ hlisted)
      · rw [file_transformItem_of_ne hpn hpf]
        exact hsource

theorem filtering_transform (hclean : CopiesClean orig) {before after : List Name}
    (hsplit : getLegacy orig = before ++ after) (hw : Filtering orig before after work) :
    Filtering orig (getLegacy orig) [] (transform work after) := by
  induction after generalizing before work with
  | nil =>
    rw [hsplit, List.append_nil]
    exact hw
  | cons n after ih =>
    refine ih ?_ (hw.step hclean hsplit)
    rw [hsplit, List.append_assoc, List.singleton_append]

theorem filtering_start (orig : Tree) : Filtering orig [] (getLegacy orig) orig where
  done _ hn := absurd hn List.not_mem_nil
  rest _ _ _ hc := .inl hc
  others _ _ := rfl
  dirs _ := Iff.rfl

/-- When nothing is in the way, the listed files are filtered and the others are left alone. -/
theorem filteredCopy_of_filtering (hvisible : NothingHidden orig)
    (hw : Filtering orig (getLegacy orig) [] work) : FilteredCopy orig work := by
  have hlisted (n : Name) (hn : n ∈ getLegacy orig) (c : Content)
      (hc : orig.file (n, []) = some c) : work.file (n, []) = some (sedProgram c) := by
    rw [hw.done n hn, hc, Option.map_some]
  have hothers (p : Path) (hp : ∀ n ∈ getLegacy orig, p ≠ (n, [])) : work.file p = orig.file p := by
    apply hw.others
    rwa [List.append_nil]
  have hmakefiles : ∀ n c, orig.file (n, []) = some c → isMakefile n = true →
      work.file (n, []) = some (sedProgram c) := by
    intro n c hc hname
    by_cases hn : n ∈ getLegacy orig
    · exact hlisted n hn c hc
    · have hshown : n.hidden = false := hvisible (n, []) (FileTree.mem_paths_iff.mpr ⟨c, hc⟩)
      have hother : ∀ m ∈ getLegacy orig, (n, ([] : List Name)) ≠ (m, []) :=
        fun m hm => top_ne fun heq => hn (heq ▸ hm)
      rw [hothers _ hother, hc, sedProgram_of_not_listed hshown hn hc hname]
  have hothers' : ∀ p c, orig.file p = some c → ¬ (p.2 = [] ∧ isMakefile p.1 = true) →
      work.file p = some c := by
    intro p c hc hno
    rw [hothers p _, hc]
    rintro n hn rfl
    exact hno ⟨rfl, isMakefile_of_legacyName (mem_getLegacy.mp hn).1⟩
  have hnone (p : Path) (hp : orig.file p = none) : work.file p = none := by
    rw [hothers p _, hp]
    rintro n hn rfl
    obtain ⟨_, c, hc, _⟩ := mem_getLegacy.mp hn
    rw [hp] at hc
    cases hc
  have hfile (p : Path) (c : Content) (hp : orig.file p = some c) :
      ∃ d, work.file p = some d ∧
        ((∀ n c, orig.file (n, []) = some c → isMakefile n = true → sedProgram c = c) → d = c) := by
    by_cases hname : p.2 = [] ∧ isMakefile p.1 = true
    · obtain ⟨n, rest⟩ := p
      obtain ⟨rfl, hname⟩ := hname
      exact ⟨_, hmakefiles n c hp hname, fun h => h n c hp hname⟩
    · exact ⟨c, hothers' p c hp hname, fun _ => rfl⟩
  refine ⟨?_, hmakefiles, hothers', fun hunchanged => ?_⟩
  · apply Finset.ext
    intro p
    rw [FileTree.mem_paths_iff, FileTree.mem_paths_iff]
    cases hp : orig.file p with
    | none => rw [hnone p hp]
    | some c =>
      obtain ⟨d, hd, _⟩ := hfile p c hp
      exact ⟨fun _ => ⟨c, rfl⟩, fun _ => ⟨d, hd⟩⟩
  · apply FileTree.ext
    intro p
    cases hp : orig.file p with
    | none => exact hnone p hp
    | some c =>
      obtain ⟨d, hd, hsame⟩ := hfile p c hp
      rw [hd, hsame hunchanged]

/-- From an empty work area, `fast_and_filtered` gives the source with its makefiles filtered if
and only if nothing is in the way. -/
theorem filteredCopy_iff (orig : Tree) :
    FilteredCopy orig (fastAndFiltered orig FileTree.empty).1 ↔ CopiesClean orig := by
  by_cases hlegacy : getLegacy orig = []
  · have hmirror : (fastAndFiltered orig FileTree.empty).1 = orig :=
      congrArg Prod.fst (if_pos hlegacy)
    have hnone (n : Name) : n ∉ getLegacy orig := by
      rw [hlegacy]
      exact List.not_mem_nil
    rw [hmirror]
    constructor
    · intro hcopy
      refine ⟨fun n c _ hc hname => ?_, fun h => absurd hlegacy h, fun n hn => absurd hn (hnone n),
        fun n hn => absurd hn (hnone n)⟩
      have hmade := hcopy.makefiles n c hc hname
      rw [hc] at hmade
      exact (Option.some.inj hmade).symm
    · intro hclean
      refine ⟨rfl, fun n c hc hname => ?_, fun _ _ hc _ => hc, fun _ => rfl⟩
      rw [hc]
      cases hhidden : n.hidden with
      | true => rw [hclean.unlisted n c hhidden hc hname]
      | false => rw [sedProgram_of_not_listed hhidden (hnone n) hc hname]
  · rw [fastAndFiltered_of_listed hlegacy]
    constructor
    · intro hcopy
      refine ⟨fun n c hhidden hc _ => ?_, fun _ => nothingHidden_of_copy hcopy,
        fun n hn c hc => files_of_copy hcopy hn hc,
        fun n hn hdir c hc => dirs_of_copy hcopy hn hdir hc⟩
      have hvisible := nothingHidden_of_copy hcopy (n, []) (FileTree.mem_paths_iff.mpr ⟨c, hc⟩)
      rw [hhidden] at hvisible
      cases hvisible
    · intro hclean
      have hvisible := hclean.hidden hlegacy
      rw [copied_eq hvisible]
      exact filteredCopy_of_filtering hvisible
        (filtering_transform hclean rfl (filtering_start orig))

def oldMakefile : Content := "ONLY_FOR_ARCHS=amd64".toList

/-- The sed program changes nothing in this directory. -/
def hiddenPort : Tree :=
  (FileTree.single (hiddenFile, []) "root=true".toList).overlay
    (FileTree.single (plainFile, []) oldMakefile)

theorem hidden_file_not_copied : sedProgram oldMakefile = oldMakefile ∧
    ¬ FilteredCopy hiddenPort (fastAndFiltered hiddenPort FileTree.empty).1 := by
  refine ⟨by decide +kernel, fun hcopy => ?_⟩
  have hthere : hiddenPort.file (hiddenFile, []) = some "root=true".toList := by decide +kernel
  have hkept := hcopy.others (hiddenFile, []) _ hthere (by decide)
  have hgone : (fastAndFiltered hiddenPort FileTree.empty).1.file (hiddenFile, []) = none := by
    decide +kernel
  rw [hgone] at hkept
  cases hkept

end DeltaPorts.Generator

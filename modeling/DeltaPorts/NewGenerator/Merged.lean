import DeltaPorts.NewGenerator.MergeMk

/-!
# What becomes of MERGED

However often the filters fail and are started again, `MERGED` becomes what one pass without
failures makes of it: the files of `FPORTS`, patched, filtered and replaced.
-/

set_option autoImplicit false

namespace DeltaPorts.NewGenerator.MergeMk

open LineTools (Text)
open RetriedJobs TreeScripts

variable (src : Sources)

section Commands

variable {place source : Path} {files t t' : Files} {checked : Bool} (r : Path)

theorem isPrefixOf_append : place.isPrefixOf (place ++ r) = true :=
  List.isPrefixOf_iff_prefix.mpr (List.prefix_append place r)

theorem moved_append : moved place files (place ++ r) = files r := by
  unfold moved
  rw [List.drop_left]

theorem rmRf_at (h : (rmRf place).does t = some t') : t' (place ++ r) = none := by
  obtain rfl := Option.some.inj h
  exact if_pos (isPrefixOf_append r)

theorem cp_at (h : (cp files place checked).does t = some t') :
    t' (place ++ r) = (files r).or (t (place ++ r)) := by
  obtain rfl := Option.some.inj h
  have hwrites : (cp files place checked).writes (place ++ r) = (files r).isSome := by
    show (place.isPrefixOf (place ++ r) && (moved place files (place ++ r)).isSome) = _
    rw [isPrefixOf_append, moved_append, Bool.true_and]
  dsimp only
  rw [hwrites, moved_append]
  cases files r with
  | none => rfl
  | some _ => rfl

theorem cpdup_at (h : (cpdup source place).does t = some t') :
    t' (place ++ r) = t (source ++ r) := by
  obtain rfl := Option.some.inj h
  exact (if_pos (isPrefixOf_append r)).trans (moved_append r)

theorem findDelete_at {suffix : Text} (h : (findDelete place suffix checked).does t = some t') :
    t' (place ++ r) = if hasSuffix suffix (place ++ r) = true then none else t (place ++ r) := by
  obtain rfl := Option.some.inj h
  have hwrites : (findDelete place suffix checked).writes (place ++ r) =
      hasSuffix suffix (place ++ r) := by
    show (place.isPrefixOf (place ++ r) && hasSuffix suffix (place ++ r)) = _
    rw [isPrefixOf_append, Bool.true_and]
  dsimp only
  rw [hwrites]

theorem sedInPlace_at (h : (sedInPlace place).does t = some t')
    (hname : hasSuffix ".BAK".toList (place ++ r) = false) :
    t' (place ++ r) = (t (place ++ r)).map sedPerl := by
  obtain rfl := Option.some.inj h
  exact (if_pos (isPrefixOf_append r)).trans (if_neg (ne_true_of_eq_false hname))

theorem awk_at {program : Text → Text} {input : Option Text} {output : Path}
    (h : clean [awk program input output] t = some t') : t' output = input.map program := by
  obtain ⟨u, hdoes, hend⟩ := clean_cons h
  cases hend
  cases input with
  | none => cases hdoes
  | some text =>
    obtain rfl := Option.some.inj hdoes
    exact if_pos (decide_eq_true rfl)

end Commands

/-- The directory `k` of `FPORTS` without the files `removed`, after all patches. -/
def patched (k : Text) (removed : List Path) : Option Files :=
  (src.diffs k).foldlM (fun files difffile => src.patch difffile files)
    fun r => if removed.contains r = true then none else src.fports (k :: r)

section Prepare

variable {place : Path} {t t' : Files}

theorem removed_at {removed : List Path}
    (h : clean (removed.map fun file => rm (place ++ file)) t = some t') (r : Path) :
    t' (place ++ r) = if removed.contains r = true then none else t (place ++ r) := by
  induction removed generalizing t with
  | nil =>
    cases h
    rfl
  | cons file removed ih =>
    obtain ⟨u, hremove, hrest⟩ := clean_cons h
    obtain ⟨made, hmakes, rfl⟩ := Option.map_eq_some_iff.mp hremove
    obtain ⟨_, _, rfl⟩ := Option.map_eq_some_iff.mp hmakes
    rw [ih hrest, List.contains_cons]
    by_cases heq : r = file
    · rw [heq]
      simp [rm]
    · simp [rm, heq]

theorem patched_at {diffs : List Path} (h : clean (diffs.map (patch src place)) t = some t') :
    diffs.foldlM (fun files difffile => src.patch difffile files) (dir place t) =
      some (dir place t') := by
  induction diffs generalizing t with
  | nil =>
    cases h
    rfl
  | cons difffile diffs ih =>
    obtain ⟨u, hpatch, hrest⟩ := clean_cons h
    obtain ⟨made, hmakes, rfl⟩ := Option.map_eq_some_iff.mp hpatch
    obtain ⟨files, hfiles, rfl⟩ := Option.map_eq_some_iff.mp hmakes
    have hdir : dir place (fun x => if (patch src place difffile).writes x = true then
        moved place files x else t x) = files :=
      funext fun r => (if_pos (isPrefixOf_append r)).trans (moved_append r)
    rw [List.foldlM_cons, hfiles, ← hdir]
    exact ih hrest

end Prepare

theorem hasSuffix_append (suffix : Text) (p : Path) (k : Text) (r : Path) :
    hasSuffix suffix (p ++ k :: r) = hasSuffix suffix (k :: r) := by
  unfold hasSuffix
  rw [List.getLastD_eq_getLast?, List.getLastD_eq_getLast?, List.getLast?_append_cons]

theorem handle_at {k : Text} {removed : List Path} {t t' : Files}
    (h : clean (handle src k removed) t = some t') :
    ∃ files, patched src k removed = some files ∧ ∀ r, t' (merged ++ k :: r) =
      if hasSuffix ".orig".toList (k :: r) = true then none else files r := by
  obtain ⟨t₁, hnew, h⟩ := clean_cons h
  rw [clean_append] at h
  obtain ⟨t₆, hprepare, h⟩ := Option.bind_eq_some_iff.mp h
  obtain ⟨t₇, hcopy, h⟩ := clean_cons h
  obtain ⟨t₈, hremove, h⟩ := clean_cons h
  cases h
  obtain ⟨t₂, hcp, hprepare⟩ := clean_cons hprepare
  rw [clean_append] at hprepare
  obtain ⟨t₃, hremoved, hprepare⟩ := Option.bind_eq_some_iff.mp hprepare
  rw [clean_append] at hprepare
  obtain ⟨t₄, hpatched, hprepare⟩ := Option.bind_eq_some_iff.mp hprepare
  obtain ⟨t₅, hdelete, hend⟩ := clean_cons hprepare
  cases hend
  -- the work area is new, so the copy has the files of `FPORTS` only
  have hcopied : dir (workarea ++ [k]) t₃ =
      fun r => if removed.contains r = true then none else src.fports (k :: r) := by
    funext r
    have hempty : t₁ ((workarea ++ [k]) ++ r) = none := by
      rw [List.append_assoc]
      exact rmRf_at ([k] ++ r) hnew
    have hfile := cp_at r hcp
    rw [hempty, Option.or_none] at hfile
    exact (removed_at hremoved r).trans (by rw [hfile]; rfl)
  have hfiles := patched_at src hpatched
  rw [hcopied] at hfiles
  refine ⟨dir (workarea ++ [k]) t₄, hfiles, fun r => ?_⟩
  have hplace : merged ++ k :: r = (merged ++ [k]) ++ r := List.append_cons merged k r
  have houtside : ¬ workarea.isPrefixOf (merged ++ k :: r) = true := by
    intro hbelow
    have hhead : ("workarea".toList == "MERGED".toList) = true := (Bool.and_eq_true_iff.mp hbelow).1
    exact absurd hhead (by decide)
  have hname : hasSuffix ".orig".toList ((workarea ++ [k]) ++ r) =
      hasSuffix ".orig".toList (k :: r) := hasSuffix_append _ workarea k r
  rw [← hname]
  calc t' (merged ++ k :: r) = t₇ (merged ++ k :: r) := Instruction.does_sameBut hremove _ houtside
    _ = t₆ ((workarea ++ [k]) ++ r) := by rw [hplace, cpdup_at r hcopy]
    _ = _ := findDelete_at r hdelete

/-- Where the scripts write in `MERGED`, and the scripts. -/
def parts : List (Text × Program Text Text) :=
  [("GIDs".toList, fixGids src), ("UIDs".toList, fixUids src), ("Mk".toList, handleMk src),
    ("Templates".toList, handleTemplates src), ("Mk".toList, replacements src),
    ("MOVED".toList, fixMoved src), ("Keywords".toList, handleKeywords src),
    ("Tools".toList, handleTools src)]

def cleanAll : List (Text × Program Text Text) → Files → Option Files :=
  doAll fun part t => clean part.2 t

theorem doAll_jobs (t : Files) : doAll (does src) (jobs mergeMk) t = cleanAll (parts src) t := rfl

/-- The files of `special/Mk/replacements`, as they lie below `Mk`. -/
def replaced (r : Path) : Option Text :=
  if ["Uses".toList].isPrefixOf r = true then replacing src (r.drop 1) else none

theorem cp_replaced {checked : Bool} {t t' : Files} (r : Path)
    (h : (cp (replacing src) (merged ++ ["Mk".toList, "Uses".toList]) checked).does t = some t') :
    t' (merged ++ "Mk".toList :: r) = (replaced src r).or (t (merged ++ "Mk".toList :: r)) := by
  unfold replaced
  split
  · rename_i hbelow
    obtain ⟨r', rfl⟩ := List.isPrefixOf_iff_prefix.mp hbelow
    exact cp_at r' h
  · rename_i hbelow
    refine Instruction.does_sameBut h _ fun hwrites => hbelow ?_
    have hplace := (Bool.and_eq_true_iff.mp hwrites).1
    rw [List.isPrefixOf_iff_prefix] at hplace ⊢
    exact (List.prefix_append_right_inj (merged ++ ["Mk".toList])).mp hplace

/-- One round makes what all rounds make. -/
theorem rounds_at {rounds : List Bool} (hne : rounds ≠ []) {t t' : Files} (r : Path)
    (h : clean (rounds.map (cp (replacing src) (merged ++ ["Mk".toList, "Uses".toList]))) t =
      some t') :
    t' (merged ++ "Mk".toList :: r) = (replaced src r).or (t (merged ++ "Mk".toList :: r)) := by
  induction rounds generalizing t with
  | nil => exact absurd rfl hne
  | cons checked rounds ih =>
    obtain ⟨u, hround, hrest⟩ := clean_cons h
    have hu := cp_replaced src r hround
    cases rounds with
    | nil =>
      cases hrest
      exact hu
    | cons checked' rounds =>
      rw [ih (List.cons_ne_nil _ _) hrest, hu]
      cases replaced src r with
      | none => rfl
      | some _ => rfl

theorem replaced_of_no_uses (huses : src.uses = []) (r : Path) : replaced src r = none := by
  unfold replaced
  split
  · cases r.drop 1 with
    | nil => rfl
    | cons n r' =>
      unfold replacing
      rw [huses]
      rfl
  · rfl

theorem replacements_at {t t' : Files} (h : clean (replacements src) t = some t') (r : Path) :
    t' (merged ++ "Mk".toList :: r) = (replaced src r).or (t (merged ++ "Mk".toList :: r)) := by
  have hmap : replacements src = ((List.range src.uses.length).map fun round =>
      decide (round + 1 = src.uses.length)).map
        (cp (replacing src) (merged ++ ["Mk".toList, "Uses".toList])) := by
    rw [List.map_map]
    rfl
  rw [hmap] at h
  cases huses : src.uses with
  | nil =>
    rw [huses] at h
    cases h
    rw [replaced_of_no_uses src huses]
    rfl
  | cons n names =>
    refine rounds_at src ?_ r h
    rw [huses]
    simp

/-- What the filters make of `MERGED`. -/
structure Made (t t' : Files) : Prop where
  gids : t' (merged ++ ["GIDs".toList]) = (src.fports ["GIDs".toList]).map UserIds.fixGids
  uids : t' (merged ++ ["UIDs".toList]) = (src.fports ["UIDs".toList]).map UserIds.fixUids
  makefiles : ∃ files, patched src "Mk".toList [["bsd.gcc.mk".toList]] = some files ∧
    ∀ r, t' (merged ++ "Mk".toList :: r) = (replaced src r).or
      (if hasSuffix ".orig".toList ("Mk".toList :: r) = true then none else files r)
  templates : ∃ files, patched src "Templates".toList [] = some files ∧
    ∀ r, t' (merged ++ "Templates".toList :: r) =
      if hasSuffix ".orig".toList ("Templates".toList :: r) = true then none else files r
  moved : t' (merged ++ ["MOVED".toList]) = (src.fports ["MOVED".toList]).map
    fun text => LineTools.unlines (Generator.Moved.awkMoved src.awk text)
  keywords : ∀ r, t' (merged ++ "Keywords".toList :: r) = src.fports ("Keywords".toList :: r)
  tools : ∀ r, t' (merged ++ "Tools".toList :: r) =
    if hasSuffix ".BAK".toList ("Tools".toList :: r) = true then none
    else (src.fports ("Tools".toList :: r)).map sedPerl
  others : ∀ x, workarea.isPrefixOf x = false →
    (∀ part ∈ parts src, (merged ++ [part.1]).isPrefixOf x = false) → t' x = t x

/-- A script writes in the work area and in its part of `MERGED`. -/
def Inside (part : Text × Program Text Text) : Prop :=
  ∀ c ∈ part.2, ∀ x, c.writes x = true →
    workarea.isPrefixOf x = true ∨ (merged ++ [part.1]).isPrefixOf x = true

theorem inside_awk (program : Text → Text) (input : Option Text) (name : Text) :
    Inside (name, [awk program input (merged ++ [name])]) := by
  intro c hc x hx
  rw [List.mem_singleton.mp hc] at hx
  rw [of_decide_eq_true hx]
  exact .inr (List.isPrefixOf_iff_prefix.mpr (List.prefix_refl _))

theorem inside_handle (k : Text) (removed : List Path) : Inside (k, handle src k removed) := by
  intro c hc x hx
  rcases List.mem_cons.mp hc with rfl | hc
  · exact .inl hx
  rcases List.mem_append.mp hc with hc | hc
  · exact .inl ((prepare_inside src (P := fun _ => False) hc fun _ => not_false).1 x hx)
  · simp only [List.mem_cons, List.not_mem_nil, or_false] at hc
    rcases hc with rfl | rfl
    · exact .inr hx
    · exact .inl hx

theorem inside_parts : ∀ part ∈ parts src, Inside part := by
  intro part hpart
  simp only [parts, List.mem_cons, List.not_mem_nil, or_false] at hpart
  rcases hpart with rfl | rfl | rfl | rfl | rfl | rfl | rfl | rfl
  · exact inside_awk _ _ _
  · exact inside_awk _ _ _
  · exact inside_handle src _ _
  · exact inside_handle src _ _
  · intro c hc x hx
    obtain ⟨round, _, rfl⟩ := List.mem_map.mp hc
    exact .inr (below_of_append (p := merged ++ ["Mk".toList]) (q := ["Uses".toList])
      (Bool.and_eq_true_iff.mp hx).1)
  · exact inside_awk _ _ _
  · intro c hc x hx
    simp only [handleKeywords, List.mem_cons, List.not_mem_nil, or_false] at hc
    rcases hc with rfl | rfl
    · exact .inr hx
    · exact .inr (Bool.and_eq_true_iff.mp hx).1
  · intro c hc x hx
    simp only [handleTools, List.mem_cons, List.not_mem_nil, or_false] at hc
    rcases hc with rfl | rfl | rfl | rfl
    · exact .inr hx
    · exact .inr (Bool.and_eq_true_iff.mp hx).1
    · exact .inr hx
    · exact .inr (Bool.and_eq_true_iff.mp hx).1

/-- What no part of `MERGED` has is as it was. -/
theorem cleanAll_others {l : List (Text × Program Text Text)} (hinside : ∀ part ∈ l, Inside part)
    {x : Path} (hwork : workarea.isPrefixOf x = false)
    (hx : ∀ part ∈ l, (merged ++ [part.1]).isPrefixOf x = false) {t t' : Files}
    (h : cleanAll l t = some t') : t' x = t x := by
  induction l generalizing t with
  | nil =>
    cases h
    rfl
  | cons part l ih =>
    obtain ⟨u, hpart, hrest⟩ := Option.bind_eq_some_iff.mp h
    have hsame : u x = t x := by
      refine (runs_of_clean hpart).sameBut x ?_
      rintro ⟨c, hc, hwrites⟩
      rcases hinside part List.mem_cons_self c hc x hwrites with hbelow | hbelow
      · exact ne_true_of_eq_false hwork hbelow
      · exact ne_true_of_eq_false (hx part List.mem_cons_self) hbelow
    rw [← hsame]
    exact ih (fun p hp => hinside p (List.mem_cons_of_mem part hp))
      (fun p hp => hx p (List.mem_cons_of_mem part hp)) hrest

theorem not_workarea (r : Path) : workarea.isPrefixOf (merged ++ r) = false := by
  have hhead : ("workarea".toList == "MERGED".toList) = false := by decide
  show (("workarea".toList == "MERGED".toList) && [].isPrefixOf r) = false
  rw [hhead]
  rfl

theorem not_part {k k' : Text} (hne : k' ≠ k) (r : Path) :
    (merged ++ [k']).isPrefixOf (merged ++ k :: r) = false := by
  rw [← Bool.not_eq_true, List.isPrefixOf_iff_prefix]
  intro hprefix
  have htail : [k'] <+: k :: r := (List.prefix_append_right_inj merged).mp hprefix
  exact hne (List.cons_prefix_cons.mp htail).1

/-- After a script only those of the same part change what it has made. -/
theorem cleanAll_part {l : List (Text × Program Text Text)} (hinside : ∀ part ∈ l, Inside part)
    {i : ℕ} {part : Text × Program Text Text} (hi : l[i]? = some part)
    (hafter : part.1 ∉ (l.map Prod.fst).drop (i + 1)) {t t' : Files} (h : cleanAll l t = some t') :
    ∃ u u', cleanAll (l.take i) t = some u ∧ clean part.2 u = some u' ∧
      ∀ r, t' (merged ++ part.1 :: r) = u' (merged ++ part.1 :: r) := by
  obtain ⟨hlt, hpart⟩ := List.getElem?_eq_some_iff.mp hi
  have hsplit : l = l.take i ++ part :: l.drop (i + 1) := by
    rw [← hpart, List.getElem_cons_drop, List.take_append_drop]
  unfold cleanAll at h
  rw [hsplit, doAll_append] at h
  obtain ⟨u, hbefore, h⟩ := Option.bind_eq_some_iff.mp h
  obtain ⟨u', hclean, hrest⟩ := Option.bind_eq_some_iff.mp h
  refine ⟨u, u', hbefore, hclean, fun r => cleanAll_others
    (fun p hp => hinside p (List.mem_of_mem_drop hp)) (not_workarea _) (fun p hp => ?_) hrest⟩
  refine not_part (fun heq => hafter ?_) r
  rw [← heq, ← List.map_drop]
  exact List.mem_map_of_mem hp

def partNames : List Text :=
  ["GIDs".toList, "UIDs".toList, "Mk".toList, "Templates".toList, "Mk".toList, "MOVED".toList,
    "Keywords".toList, "Tools".toList]

theorem made_of_cleanAll {t t' : Files} (h : cleanAll (parts src) t = some t') : Made src t t' where
  gids := by
    obtain ⟨u, u', _, hclean, hat⟩ := cleanAll_part (inside_parts src) (i := 0) rfl
      (show "GIDs".toList ∉ partNames.drop 1 by decide) h
    exact (hat []).trans (awk_at hclean)
  uids := by
    obtain ⟨u, u', _, hclean, hat⟩ := cleanAll_part (inside_parts src) (i := 1) rfl
      (show "UIDs".toList ∉ partNames.drop 2 by decide) h
    exact (hat []).trans (awk_at hclean)
  makefiles := by
    -- the replacements go over what `02.handle-Mk.sh` has made
    obtain ⟨u, u', hbefore, hclean, hat⟩ := cleanAll_part (inside_parts src) (i := 4) rfl
      (show "Mk".toList ∉ partNames.drop 5 by decide) h
    have hinside : ∀ part ∈ (parts src).take 4, Inside part :=
      fun part hpart => inside_parts src part (List.mem_of_mem_take hpart)
    obtain ⟨v, v', _, hhandle, hat'⟩ := cleanAll_part hinside (i := 2) rfl
      (show "Mk".toList ∉ (partNames.take 4).drop 3 by decide) hbefore
    obtain ⟨w, hw, hmade⟩ := handle_at src hhandle
    refine ⟨w, hw, fun r => ?_⟩
    calc t' (merged ++ "Mk".toList :: r) = u' (merged ++ "Mk".toList :: r) := hat r
      _ = (replaced src r).or (u (merged ++ "Mk".toList :: r)) := replacements_at src hclean r
      _ = _ := congrArg _ ((hat' r).trans (hmade r))
  templates := by
    obtain ⟨u, u', _, hclean, hat⟩ := cleanAll_part (inside_parts src) (i := 3) rfl
      (show "Templates".toList ∉ partNames.drop 4 by decide) h
    obtain ⟨w, hw, hmade⟩ := handle_at src hclean
    exact ⟨w, hw, fun r => (hat r).trans (hmade r)⟩
  moved := by
    obtain ⟨u, u', _, hclean, hat⟩ := cleanAll_part (inside_parts src) (i := 5) rfl
      (show "MOVED".toList ∉ partNames.drop 6 by decide) h
    exact (hat []).trans (awk_at hclean)
  keywords := by
    obtain ⟨u, u', _, hclean, hat⟩ := cleanAll_part (inside_parts src) (i := 6) rfl
      (show "Keywords".toList ∉ partNames.drop 7 by decide) h
    obtain ⟨v, hremove, hclean⟩ := clean_cons hclean
    obtain ⟨w, hcopy, hend⟩ := clean_cons hclean
    cases hend
    intro r
    have hmade := cp_at r hcopy
    rw [rmRf_at r hremove, Option.or_none] at hmade
    exact (hat r).trans hmade
  tools := by
    obtain ⟨u, u', _, hclean, hat⟩ := cleanAll_part (inside_parts src) (i := 7) rfl
      (show "Tools".toList ∉ partNames.drop 8 by decide) h
    obtain ⟨u₁, hremove, hclean⟩ := clean_cons hclean
    obtain ⟨u₂, hcopy, hclean⟩ := clean_cons hclean
    obtain ⟨u₃, hsed, hclean⟩ := clean_cons hclean
    obtain ⟨u₄, hdelete, hend⟩ := clean_cons hclean
    cases hend
    intro r
    rw [← hasSuffix_append _ merged]
    refine (hat r).trans ((findDelete_at r hdelete).trans ?_)
    cases hname : hasSuffix ".BAK".toList ((merged ++ ["Tools".toList]) ++ r) with
    | true => exact (if_pos rfl).trans (if_pos hname).symm
    | false =>
      have hcopied := cp_at r hcopy
      rw [rmRf_at r hremove, Option.or_none] at hcopied
      have hedited := sedInPlace_at r hsed hname
      rw [hcopied] at hedited
      exact (if_neg Bool.false_ne_true).trans (hedited.trans
        (if_neg (ne_true_of_eq_false hname)).symm)
  others x hwork hx := cleanAll_others (inside_parts src) hwork hx h

theorem cleanAll_eq (l : List (Text × Program Text Text)) (t : Files) :
    cleanAll l t = clean (l.map Prod.snd).flatten t := by
  unfold cleanAll
  induction l generalizing t with
  | nil => rfl
  | cons part l ih =>
    rw [doAll, List.map_cons, List.flatten_cons, clean_append]
    exact congrArg _ (funext ih)

/-- Where one of the scripts writes. -/
def Touched (x : Path) : Prop := ∃ s ∈ (parts src).map Prod.snd, Writes s x

theorem rewrites_parts : Rewrites (Touched src) ((parts src).map Prod.snd).flatten := by
  refine @rewrites_flatten _ _ [fixGids src, fixUids src, handleMk src, handleTemplates src,
    replacements src, fixMoved src, handleKeywords src] (handleTools src) (fun s hs P => ?_) ?_
  · simp only [List.mem_cons, List.not_mem_nil, or_false] at hs
    rcases hs with rfl | rfl | rfl | rfl | rfl | rfl | rfl
    · exact ⟨fun _ _ _ => rfl, trivial⟩
    · exact ⟨fun _ _ _ => rfl, trivial⟩
    · exact blindTo_handle src _ _ P
    · exact blindTo_handle src _ _ P
    · refine blindTo_of_forall fun c hc => ?_
      obtain ⟨round, _, rfl⟩ := List.mem_map.mp hc
      exact fun _ _ _ => rfl
    · exact ⟨fun _ _ _ => rfl, trivial⟩
    · exact ⟨fun _ _ _ => rfl, fun _ _ _ => rfl, trivial⟩
  · exact rewrites_scripts src ("07.handle-Tools.sh".toList, handleTools src) (by simp [scripts])

theorem touched_of_script {job : Job Text} {x : Path} (h : Writes (script src job) x) :
    Touched src x := by
  have hparts : (scripts src).map Prod.snd = (parts src).map Prod.snd := rfl
  unfold script at h
  cases hfound : (scripts src).find? fun s => decide (s.1 = job.2) with
  | none =>
    rw [hfound] at h
    obtain ⟨c, hc, _⟩ := h
    cases hc
  | some s =>
    rw [hfound] at h
    refine ⟨s.2, ?_, h⟩
    rw [← hparts]
    exact List.mem_map_of_mem (List.mem_of_find?_eq_some hfound)

/-- However the scripts are run, all of them make afterwards what they would have made before. -/
theorem doAll_jobs_eq {runs : List (Job Text × ℕ)} {t t' : Files} (h : Happens (Run src) runs t t') :
    doAll (does src) (jobs mergeMk) t' = doAll (does src) (jobs mergeMk) t := by
  have hsame : SameBut (Touched src) t t' := by
    induction h with
    | nil _ => exact fun _ _ => rfl
    | cons hrun _ ih =>
      obtain ⟨_, _, hruns, _⟩ := hrun
      exact (hruns.sameBut.mono fun x hx => touched_of_script src hx).trans ih
  rw [doAll_jobs, doAll_jobs, cleanAll_eq, cleanAll_eq]
  exact (rewrites_parts src).clean_eq hsame

theorem doAll_invoke {w : World Text} (hw : Between mergeMk w) (i : Invocation Text)
    {t t' : Files} (h : Happens (Run src) (filterRuns (invoke mergeMk w i).log) t t') :
    doAll (does src) (left mergeMk (invoke mergeMk w i)) t' = doAll (does src) (left mergeMk w) t := by
  rcases (between_invoke rfl hw i).2 with ⟨hruns, hleft⟩ | ⟨hruns, hleft⟩ | ⟨hleft, hleft'⟩
  · rw [hruns] at h
    rw [hleft]
    exact doAll_attempt (redoable src) _ _ h
  · rw [hruns] at h
    cases h
    rw [hleft]
  · rw [hleft, hleft']
    exact doAll_jobs_eq src h

theorem doAll_invocations {w : World Text} (hw : Between mergeMk w) (is : List (Invocation Text))
    {t t' : Files} (h : Happens (Run src) (runsOf mergeMk w is) t t') :
    doAll (does src) (left mergeMk (is.foldl (invoke mergeMk) w)) t' =
      doAll (does src) (left mergeMk w) t := by
  induction is generalizing w t with
  | nil =>
    cases h
    rfl
  | cons i is ih =>
    obtain ⟨u, hfirst, hrest⟩ := happens_append h
    exact (ih (between_invoke rfl hw i).1 hrest).trans (doAll_invoke src hw i hfirst)

/-- Whatever fails in between, the filters that are left always make of the files what all of them
would have made at first. When none is left, `MERGED` is what it should be. -/
theorem merged_undisturbed (dirs : List (Dir Text)) (is : List (Invocation Text)) {t t' : Files}
    (h : Happens (Run src) (runsOf mergeMk ⟨dirs, [], []⟩ is) t t') :
    doAll (does src) (left mergeMk (is.foldl (invoke mergeMk) ⟨dirs, [], []⟩)) t' =
      doAll (does src) (jobs mergeMk) t ∧
    (left mergeMk (is.foldl (invoke mergeMk) ⟨dirs, [], []⟩) = [] → Made src t t') := by
  have hstart : Between mergeMk ⟨dirs, [], []⟩ := ⟨nofun, .inl (phaseRight_new mergeMk dirs)⟩
  have hqueue : left mergeMk ⟨dirs, [], []⟩ = jobs mergeMk :=
    left_of_unmarked fun _ _ => List.not_mem_nil
  have hsame := doAll_invocations src hstart is h
  rw [hqueue] at hsame
  refine ⟨hsame, fun hnone => made_of_cleanAll src ?_⟩
  rw [hnone, doAll_jobs] at hsame
  exact hsame.symm

def fewFiles : List (Path × Text) :=
  [(["GIDs".toList], "nogroup:*:65533:\n".toList), (["UIDs".toList], "nobody:*:65534:\n".toList),
    (["MOVED".toList], "# moved\n".toList), (["Mk".toList, "bsd.port.mk".toList], "a\n".toList),
    (["Mk".toList, "bsd.gcc.mk".toList], "b\n".toList),
    (["Mk".toList, "Uses".toList, "linux.mk".toList], "c\n".toList),
    (["Templates".toList, "pkg-descr".toList], "d\n".toList),
    (["Keywords".toList, "info.ucl".toList], "e\n".toList),
    (["Tools".toList, "fix.pl".toList], "#!/usr/bin/perl\n".toList)]

/-- A diff that changes `bsd.port.mk` and leaves a backup. -/
def portDiff : Path := ["special".toList, "Mk".toList, "diffs".toList, "bsd.port.mk.diff".toList]

def patchPort (files : Files) : Files := fun x =>
  if x = ["bsd.port.mk".toList] then some "patched\n".toList
  else if x = ["bsd.port.mk.orig".toList] then files ["bsd.port.mk".toList]
  else files x

def fewSources : Sources where
  fports x := (fewFiles.find? fun f => decide (f.1 = x)).map Prod.snd
  delta x := if x.contains "linux.mk".toList then some "f\n".toList else none
  diffs k := if k = "Mk".toList then [portDiff] else []
  uses := ["linux.mk".toList]
  patch _ files := if (files ["bsd.port.mk".toList]).isSome then some (patchPort files) else none
  awk := Awk.decimals

def noFiles : Files := fun _ => none

/-- The copy of `06.handle-Keywords.sh` fails. -/
def brokenCopy : Invocation Text where
  args := .auto
  exitval := none
  echoStatus := 0
  status
    | .filter _ n => if n = "06.handle-Keywords.sh".toList then 1 else 0
    | _ => 0
  leaves _ := false
  executable _ _ := true

def nothingBroken : Invocation Text := { brokenCopy with status := fun _ => 0 }

def keywordsJob : Job Text := ("00.merge-mk".toList, "06.handle-Keywords.sh".toList)

theorem brokenCopy_runs : runsOf mergeMk ⟨[], [], []⟩ [brokenCopy, nothingBroken] =
    (((jobs mergeMk).take 6).map fun job => (job, 0)) ++
      (keywordsJob, 1) :: (((jobs mergeMk).drop 6).map fun job => (job, 0)) := by
  decide +kernel

theorem brokenCopy_left :
    left mergeMk ([brokenCopy, nothingBroken].foldl (invoke mergeMk) ⟨[], [], []⟩) = [] := by
  decide +kernel

theorem run_of_does {job : Job Text} {t t' : Files} (h : does src job t = some t') :
    Run src job 0 t t' := ⟨true, true, runs_of_clean h, fun _ => ⟨rfl, rfl⟩⟩

theorem brokenCopy_made : ∃ t',
    Happens (Run fewSources) (runsOf mergeMk ⟨[], [], []⟩ [brokenCopy, nothingBroken]) noFiles t' ∧
      Made fewSources noFiles t' := by
  have hrun : ∀ job s s', does fewSources job s = some s' → Run fewSources job 0 s s' :=
    fun _ _ _ hdoes => run_of_does fewSources hdoes
  obtain ⟨u, hu⟩ : ∃ u, doAll (does fewSources) ((jobs mergeMk).take 6) noFiles = some u := ⟨_, rfl⟩
  obtain ⟨v, hv⟩ : ∃ v, (rmRf (merged ++ ["Keywords".toList])).does u = some v := ⟨_, rfl⟩
  obtain ⟨t', ht'⟩ : ∃ t', doAll (does fewSources) ((jobs mergeMk).drop 6) v = some t' := ⟨_, rfl⟩
  have hfailed : Run fewSources keywordsJob 1 u v :=
    ⟨false, true, .done hv (.broken (fun _ _ => rfl) (.nil v)), by decide⟩
  have hhappens : Happens (Run fewSources)
      (runsOf mergeMk ⟨[], [], []⟩ [brokenCopy, nothingBroken]) noFiles t' := by
    rw [brokenCopy_runs]
    exact (happens_of_doAll hrun hu).append (.cons hfailed (happens_of_doAll hrun ht'))
  exact ⟨t', hhappens, (merged_undisturbed fewSources [] _ hhappens).2 brokenCopy_left⟩

end DeltaPorts.NewGenerator.MergeMk

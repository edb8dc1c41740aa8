import DeltaPorts.Generator.Moved
import DeltaPorts.Library.TreeScripts
import DeltaPorts.NewGenerator.UserIds
import DeltaPorts.NewGenerator.WorkQueue

/-!
# The filters of 00.merge-mk

The scripts of `etc/filters/00.merge-mk` as commands on one tree, that of `MERGED` and of the work
area of the running script. Each of them writes before it reads, so it can be started again after
it has failed.
-/

set_option autoImplicit false

namespace DeltaPorts.NewGenerator.MergeMk

open LineTools (Text)
open Parcels (Tree)
open RetriedJobs TreeScripts

abbrev Path := List Text

abbrev Files := Tree Text Text

def workarea : Path := ["workarea".toList]

def merged : Path := ["MERGED".toList]

/-- What the scripts read: `FPORTS`, `DELTA`, the diffs in the order in which `find` prints them,
the names that `special/Mk/replacements/Uses/*` expands to, what `patch` makes of a directory, and
the awk that the scripts call. -/
structure Sources where
  fports : Files
  delta : Files
  diffs : Text → List Path
  uses : List Text
  patch : Path → Files → Option Files
  awk : Awk.Reading

def dir (place : Path) (t : Files) : Files := fun r => t (place ++ r)

def moved (place : Path) (files : Files) : Files := fun x => files (x.drop place.length)

/-- `rm -rf` -/
def rmRf (place : Path) : Instruction Text Text where
  makes _ := some fun _ => none
  writes := place.isPrefixOf
  checked := false

/-- `mktemp -d`, which makes a directory that was not there. -/
def mktemp (place : Path) : Instruction Text Text := rmRf place

/-- `rm` of a file -/
def rm (file : Path) : Instruction Text Text where
  makes t := (t file).map fun _ _ => none
  writes x := decide (x = file)
  checked := false

/-- `cp -a` of what is not empty into a directory that is there. -/
def cp (files : Files) (place : Path) (checked : Bool) : Instruction Text Text where
  makes _ := some (moved place files)
  writes x := place.isPrefixOf x && (moved place files x).isSome
  checked := checked

/-- `patch -d place -i difffile`, followed by `RET=1` if it fails. -/
def patch (src : Sources) (place difffile : Path) : Instruction Text Text where
  makes t := (src.patch difffile (dir place t)).map (moved place)
  writes := place.isPrefixOf
  checked := true

/-- The name at the end of a path. -/
def hasSuffix (suffix : Text) (x : Path) : Bool := suffix.isSuffixOf (x.getLastD [])

/-- `find place -name \*suffix -delete` -/
def findDelete (place : Path) (suffix : Text) (checked : Bool) : Instruction Text Text where
  makes _ := some fun _ => none
  writes x := place.isPrefixOf x && hasSuffix suffix x
  checked := checked

/-- `cpdup -i0`, which removes what is not in the source. -/
def cpdup (source place : Path) : Instruction Text Text where
  makes t := some (moved place (dir source t))
  writes := place.isPrefixOf
  checked := false

/-- `awk program input > output` -/
def awk (program : Text → Text) (input : Option Text) (output : Path) : Instruction Text Text where
  makes _ := input.map fun text _ => some (program text)
  writes x := decide (x = output)
  checked := true

def replaceFirst (old new : Text) : Text → Text
  | [] => []
  | c :: l => if old.isPrefixOf (c :: l) then new ++ (c :: l).drop old.length
    else c :: replaceFirst old new l

/-- `s|!/usr/bin/perl|!/usr/local/bin/perl|` -/
def sedPerl (text : Text) : Text :=
  List.intercalate ['\n'] ((text.splitOn '\n').map
    (replaceFirst "!/usr/bin/perl".toList "!/usr/local/bin/perl".toList))

/-- The file that has its backup at the path. -/
def backedUp (x : Path) : Path :=
  x.dropLast ++ [(x.getLastD []).take ((x.getLastD []).length - 4)]

/-- `find place -type f -print0 | xargs -0 sed -i .BAK`; of a backup and another file with its name
the backup is left. -/
def sedInPlace (place : Path) : Instruction Text Text where
  makes t := some fun x =>
    if hasSuffix ".BAK".toList x = true then (t (backedUp x)).or ((t x).map sedPerl)
    else (t x).map sedPerl
  writes := place.isPrefixOf
  checked := false

variable (src : Sources)

/-- `00.fix_gids.sh` -/
def fixGids : Program Text Text :=
  [awk UserIds.fixGids (src.fports ["GIDs".toList]) (merged ++ ["GIDs".toList])]

/-- `01.fix_uids.sh` -/
def fixUids : Program Text Text :=
  [awk UserIds.fixUids (src.fports ["UIDs".toList]) (merged ++ ["UIDs".toList])]

/-- The directory `k` of `FPORTS` in the work area, without the files `removed`, and patched. -/
def prepare (k : Text) (removed : List Path) : Program Text Text :=
  cp (dir [k] src.fports) (workarea ++ [k]) false ::
    (removed.map (fun file => rm ((workarea ++ [k]) ++ file)) ++
      ((src.diffs k).map (patch src (workarea ++ [k])) ++
        [findDelete (workarea ++ [k]) ".orig".toList false]))

/-- The commands of `02.handle-Mk.sh` and of `03.handle-Templates.sh`. -/
def handle (k : Text) (removed : List Path) : Program Text Text :=
  mktemp workarea :: (prepare src k removed ++
    [cpdup (workarea ++ [k]) (merged ++ [k]), rmRf workarea])

/-- `02.handle-Mk.sh` -/
def handleMk : Program Text Text :=
  handle src "Mk".toList [["bsd.gcc.mk".toList]]

/-- `03.handle-Templates.sh` -/
def handleTemplates : Program Text Text := handle src "Templates".toList []

/-- The files that `special/Mk/replacements/Uses/*` names. -/
def replacing : Files
  | [] => none
  | n :: r => if src.uses.contains n = true then
      src.delta (["special".toList, "Mk".toList, "replacements".toList, "Uses".toList, n] ++ r)
    else none

/-- `04.replacements.sh`: the loop has a round for each of the names, and each round copies all of
them. The status is that of the last round. -/
def replacements : Program Text Text :=
  (List.range src.uses.length).map fun round =>
    cp (replacing src) (merged ++ ["Mk".toList, "Uses".toList])
      (decide (round + 1 = src.uses.length))

/-- `05.fix_moved.sh` -/
def fixMoved : Program Text Text :=
  [awk (fun text => LineTools.unlines (Generator.Moved.awkMoved src.awk text))
    (src.fports ["MOVED".toList]) (merged ++ ["MOVED".toList])]

/-- `06.handle-Keywords.sh` -/
def handleKeywords : Program Text Text :=
  [rmRf (merged ++ ["Keywords".toList]),
    cp (dir ["Keywords".toList] src.fports) (merged ++ ["Keywords".toList]) true]

/-- `07.handle-Tools.sh` -/
def handleTools : Program Text Text :=
  [rmRf (merged ++ ["Tools".toList]),
    cp (dir ["Tools".toList] src.fports) (merged ++ ["Tools".toList]) false,
    sedInPlace (merged ++ ["Tools".toList]),
    findDelete (merged ++ ["Tools".toList]) ".BAK".toList true]

/-- The scripts of the directory, in the order of their names. -/
def scripts : List (Text × Program Text Text) :=
  [("00.fix_gids.sh".toList, fixGids src), ("01.fix_uids.sh".toList, fixUids src),
    ("02.handle-Mk.sh".toList, handleMk src),
    ("03.handle-Templates.sh".toList, handleTemplates src),
    ("04.replacements.sh".toList, replacements src), ("05.fix_moved.sh".toList, fixMoved src),
    ("06.handle-Keywords.sh".toList, handleKeywords src),
    ("07.handle-Tools.sh".toList, handleTools src)]

def names : List Text :=
  ["00.fix_gids.sh".toList, "01.fix_uids.sh".toList, "02.handle-Mk.sh".toList,
    "03.handle-Templates.sh".toList, "04.replacements.sh".toList, "05.fix_moved.sh".toList,
    "06.handle-Keywords.sh".toList, "07.handle-Tools.sh".toList]

theorem names_sorted : names.Pairwise (· < ·) := by decide +kernel

theorem phase_sorted : ["00.merge-mk".toList].Pairwise (· < ·) := List.pairwise_singleton _ _

def mergeMk : Filters Text where
  phases := ["00.merge-mk".toList]
  filters _ := names
  phases_sorted := phase_sorted
  filters_sorted _ := names_sorted

def script (job : Job Text) : Program Text Text :=
  (((scripts src).find? fun s => decide (s.1 = job.2)).map Prod.snd).getD []

/-- What a filter makes if none of its commands fails. -/
def does (job : Job Text) (t : Files) : Option Files := clean (script src job) t

/-- A run of a filter. The status is 0 only if no command has failed, also none of those whose
status the script does not look at; it may be another one for any other reason. -/
def Run (job : Job Text) (status : Nat) (t t' : Files) : Prop :=
  ∃ good sound, Runs (script src job) good sound t t' ∧
    (status = 0 → good = true ∧ sound = true)

theorem below_of_append {p q x : Path} (h : (p ++ q).isPrefixOf x = true) :
    p.isPrefixOf x = true := by
  rw [List.isPrefixOf_iff_prefix] at h ⊢
  exact (List.prefix_append p q).trans h

theorem workarea_apart (p r : Path) : ¬ (merged ++ p).isPrefixOf (workarea ++ r) = true := by
  intro h
  have hhead : ("MERGED".toList == "workarea".toList) = true :=
    (Bool.and_eq_true_iff.mp h).1
  exact absurd hhead (by decide)

theorem dir_eq {P : Path → Prop} {place : Path} {t t' : Files} (hsame : SameBut P t t')
    (hplace : ∀ r, ¬ P (place ++ r)) : dir place t' = dir place t :=
  funext fun r => hsame _ (hplace r)

/-- A command that prepares the directory writes in the work area only, and reads nothing else. -/
theorem prepare_inside {k : Text} {removed : List Path} {c : Instruction Text Text}
    (hc : c ∈ prepare src k removed) {P : Path → Prop} (hP : ∀ r, ¬ P (workarea ++ r)) :
    (∀ x, c.writes x = true → workarea.isPrefixOf x = true) ∧ c.Blind P := by
  unfold prepare at hc
  rcases List.mem_cons.mp hc with rfl | hc
  · exact ⟨fun x hx => below_of_append (Bool.and_eq_true_iff.mp hx).1, fun _ _ _ => rfl⟩
  rcases List.mem_append.mp hc with hc | hc
  · obtain ⟨file, _, rfl⟩ := List.mem_map.mp hc
    refine ⟨fun x hx => ?_, fun t t' hsame => ?_⟩
    · rw [of_decide_eq_true hx, List.append_assoc, List.isPrefixOf_iff_prefix]
      exact List.prefix_append workarea ([k] ++ file)
    · have hfile : t' ((workarea ++ [k]) ++ file) = t ((workarea ++ [k]) ++ file) := by
        refine hsame _ ?_
        rw [List.append_assoc]
        exact hP ([k] ++ file)
      simp only [rm, hfile]
  rcases List.mem_append.mp hc with hc | hc
  · obtain ⟨difffile, _, rfl⟩ := List.mem_map.mp hc
    refine ⟨fun x hx => below_of_append hx, fun t t' hsame => ?_⟩
    have hdir : dir (workarea ++ [k]) t' = dir (workarea ++ [k]) t := dir_eq hsame fun r => by
      rw [List.append_assoc]
      exact hP ([k] ++ r)
    simp only [patch, hdir]
  · rw [List.mem_singleton.mp hc]
    exact ⟨fun x hx => below_of_append (Bool.and_eq_true_iff.mp hx).1, fun _ _ _ => rfl⟩

theorem blindTo_handle (k : Text) (removed : List Path) (P : Path → Prop) :
    BlindTo P (handle src k removed) := by
  have hwork (r : Path) : ¬ (P (workarea ++ r) ∧ (mktemp workarea).writes (workarea ++ r) = false) := by
    rintro ⟨_, hfalse⟩
    exact ne_true_of_eq_false hfalse (List.isPrefixOf_iff_prefix.mpr (List.prefix_append _ r))
  refine ⟨fun _ _ _ => rfl, blindTo_of_forall fun c hc => ?_⟩
  rcases List.mem_append.mp hc with hc | hc
  · exact (prepare_inside src hc hwork).2
  · simp only [List.mem_cons, List.not_mem_nil, or_false] at hc
    rcases hc with rfl | rfl
    · intro t t' hsame
      have hdir : dir (workarea ++ [k]) t' = dir (workarea ++ [k]) t := dir_eq hsame fun r => by
        rw [List.append_assoc]
        exact hwork ([k] ++ r)
      simp only [cpdup, hdir]
    · exact fun _ _ _ => rfl

theorem rewrites_handle (k : Text) (removed : List Path) :
    Rewrites (Writes (handle src k removed)) (handle src k removed) := by
  refine ⟨fun _ _ _ => rfl, Rewrites.mono (P := fun x => (merged ++ [k]).isPrefixOf x = true)
    (Rewrites.append (fun c hc => (prepare_inside src hc (workarea_apart [k])).2) ⟨fun t t' hsame => ?_, ?_⟩) ?_⟩
  · -- the copy reads the work area
    have hdir : dir (workarea ++ [k]) t' = dir (workarea ++ [k]) t := dir_eq hsame fun r => by
      rw [List.append_assoc]
      exact workarea_apart [k] ([k] ++ r)
    simp only [cpdup, hdir]
  · refine rewrites_of_none fun x hx => ?_
    exact absurd hx.1 (ne_true_of_eq_false hx.2)
  · -- outside the work area only the copy writes
    rintro x ⟨⟨c, hc, hwrites⟩, houtside⟩
    have hnot : ¬ workarea.isPrefixOf x = true := ne_true_of_eq_false houtside
    rcases List.mem_cons.mp hc with rfl | hc
    · exact absurd hwrites hnot
    rcases List.mem_append.mp hc with hc | hc
    · exact absurd ((prepare_inside src (P := fun _ => False) hc fun _ => not_false).1 x hwrites) hnot
    · simp only [List.mem_cons, List.not_mem_nil, or_false] at hc
      rcases hc with rfl | rfl
      · exact hwrites
      · exact absurd hwrites hnot

theorem rewrites_replacements :
    Rewrites (Writes (replacements src)) (replacements src) := by
  cases hrounds : replacements src with
  | nil => exact fun x hx => by obtain ⟨c, hc, _⟩ := hx; cases hc
  | cons c script =>
    have hcp : ∀ c' ∈ c :: script, ∃ checked,
        c' = cp (replacing src) (merged ++ ["Mk".toList, "Uses".toList]) checked := by
      intro c' hc'
      rw [← hrounds] at hc'
      obtain ⟨round, _, rfl⟩ := List.mem_map.mp hc'
      exact ⟨_, rfl⟩
    obtain ⟨checked, rfl⟩ := hcp c List.mem_cons_self
    refine rewrites_of_head (fun _ _ _ _ => rfl) fun c' hc' x hx => ?_
    obtain ⟨checked', rfl⟩ := hcp c' (List.mem_cons_of_mem _ hc')
    exact hx

theorem rewrites_awk (program : Text → Text) (input : Option Text) (output : Path) :
    Rewrites (Writes [awk program input output]) [awk program input output] :=
  rewrites_of_head (fun _ _ _ _ => rfl) fun _ hc => absurd hc List.not_mem_nil

theorem rewrites_scripts : ∀ s ∈ scripts src, Rewrites (Writes s.2) s.2 := by
  intro s hs
  simp only [scripts, List.mem_cons, List.not_mem_nil, or_false] at hs
  rcases hs with rfl | rfl | rfl | rfl | rfl | rfl | rfl | rfl
  · exact rewrites_awk _ _ _
  · exact rewrites_awk _ _ _
  · exact rewrites_handle src _ _
  · exact rewrites_handle src _ _
  · exact rewrites_replacements src
  · exact rewrites_awk _ _ _
  · refine rewrites_of_head (fun _ _ _ _ => rfl) fun c hc x hx => ?_
    rw [List.mem_singleton.mp hc] at hx
    exact (Bool.and_eq_true_iff.mp hx).1
  · refine rewrites_of_head (fun _ _ _ _ => rfl) fun c hc x hx => ?_
    simp only [List.mem_cons, List.not_mem_nil, or_false] at hc
    rcases hc with rfl | rfl | rfl
    · exact (Bool.and_eq_true_iff.mp hx).1
    · exact hx
    · exact (Bool.and_eq_true_iff.mp hx).1

theorem rewrites_script (job : Job Text) :
    Rewrites (Writes (script src job)) (script src job) := by
  unfold script
  cases hfound : (scripts src).find? fun s => decide (s.1 = job.2) with
  | none => exact fun x hx => by obtain ⟨c, hc, _⟩ := hx; cases hc
  | some s => exact rewrites_scripts src s (List.mem_of_find?_eq_some hfound)

theorem redoable : Redoable (does src) (Run src) where
  done job s s' := by
    rintro ⟨good, sound, hruns, hstatus⟩
    exact hruns.clean (hstatus rfl).1 (hstatus rfl).2
  failed job status s s' hne := by
    rintro ⟨good, sound, hruns, _⟩
    exact hruns.clean_eq (rewrites_script src job)

end DeltaPorts.NewGenerator.MergeMk

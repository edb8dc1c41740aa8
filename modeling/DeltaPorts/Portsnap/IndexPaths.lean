import DeltaPorts.Library.PathNames
import DeltaPorts.Portsnap.Fetch

/-!
# Where the paths of an INDEX lead

`fetch_index_sanity` looks for `./`, which catches every `.` and `..` but one at the end of a
path. `extract_run` and `update_run` put `PORTSDIR` before the paths and delete and extract
there.
-/

set_option autoImplicit false

namespace DeltaPorts.Portsnap

open LineTools
open PathNames hiding Text

/-- `${PORTSDIR}/${FILE}` -/
def inPortsdir (portsdir file : Text) : Text := portsdir ++ '/' :: file

/-- `sed -e 's|/$||'`, and `${FILE%/}`. -/
def dropSlash (name : Text) : Text := if name.getLast? = some '/' then name.dropLast else name

/-- What `extract_run` hands to `rm`, to `mkdir` and to `tar`. -/
def extractNames (portsdir file : Text) : List Text :=
  if file.getLast? = some '/' then
    [inPortsdir portsdir (dropSlash file), inPortsdir portsdir file]
  else [inPortsdir portsdir file]

/-- What `update_run` hands to `rm`, and to `mkdir` and to `tar`. -/
def updateNames (portsdir file : Text) : List Text :=
  [dropSlash (inPortsdir portsdir file), inPortsdir portsdir file]

/-- The names before the last slash. -/
def earlier (file : Text) : List Text :=
  (components file).dropLast.filter fun name => !name.isEmpty

def lastName (file : Text) : Text := (components file).getLast (components_ne_nil file)

/-- The last name is one of a file or directory, or enough directories stand before it. -/
def EndsBelow (file : Text) : Prop := rises (lastName file) ≤ (earlier file).length

theorem dotSlash_cons (c : Char) {x : Text} (h : dotSlash x = true) : dotSlash (c :: x) = true := by
  unfold dotSlash
  split
  · rfl
  · rename_i heq
    cases heq
    exact h
  · rename_i heq
    cases heq

theorem dotSlash_of_within {x : Text} (h : "./".toList <:+: x) : dotSlash x = true := by
  obtain ⟨before, after, rfl⟩ := h
  induction before with
  | nil => rfl
  | cons c before ih => exact dotSlash_cons c ih

theorem cut_one_within {p : Char → Bool} {l : Text} (h : isLine p l = true) : cut 1 l <:+: l := by
  unfold isLine at h
  split at h
  · rename_i path hash heq
    have hcut : cut 1 l = path := by simp [cut, heq]
    have hmem : path ∈ l.splitOn '|' := heq ▸ List.mem_cons_self
    have hpart : path <:+: List.intercalate ['|'] (l.splitOn '|') := Shell.infix_intercalate hmem
    rwa [List.intercalate_splitOn, ← hcut] at hpart
  · cases h

/-- Before the last slash no name of an accepted path is `.` or `..`. -/
theorem earlier_ordinary {d : Dir} (hsane : indexSanity d = true) {l : Text}
    (hl : l ∈ lines (d.INDEXnew.getD [])) {name : Text}
    (hname : name ∈ (components (cut 1 l)).dropLast) :
    name ≠ ".".toList ∧ name ≠ "..".toList := by
  simp only [indexSanity, Bool.and_eq_true, Bool.not_eq_true'] at hsane
  have hline : isLine isIndexChar l = true := List.all_eq_true.mp hsane.1 l hl
  have hslash : name ++ ['/'] <:+: d.INDEXnew.getD [] :=
    (infix_of_mem_dropLast hname).trans ((cut_one_within hline).trans (infix_of_mem_lines hl))
  have hnone : ∀ before, name ≠ before ++ ['.'] := by
    intro before hdot
    have hpart : "./".toList <:+: name ++ ['/'] := by
      rw [hdot, List.append_assoc]
      exact (List.suffix_append before _).isInfix
    have htrue := dotSlash_of_within (hpart.trans hslash)
    rw [hsane.2] at htrue
    cases htrue
  exact ⟨hnone [], hnone ['.']⟩

theorem resolve_inPortsdir (cwd : Place) (portsdir : Text) {file : Text}
    (h : ∀ name ∈ (components file).dropLast, name ≠ ".".toList ∧ name ≠ "..".toList) :
    resolve cwd (inPortsdir portsdir file) =
      enter (resolve cwd (portsdir ++ ['/']) ++ earlier file) (lastName file) := by
  have hsplit : components file = (components file).dropLast ++ [lastName file] :=
    (List.dropLast_append_getLast (components_ne_nil file)).symm
  rw [inPortsdir, resolve_append_slash, hsplit, walk_append, walk_ordinary h]
  rfl

theorem resolve_dropSlash (cwd : Place) {name : Text} (hne : name.dropLast ≠ []) :
    resolve cwd (dropSlash name) = resolve cwd name := by
  unfold dropSlash
  by_cases hslash : name.getLast? = some '/'
  · have hname : name.dropLast ++ ['/'] = name := List.dropLast_append_getLast? '/' hslash
    rw [if_pos hslash, ← resolve_concat_slash cwd hne, hname]
  · rw [if_neg hslash]

theorem dropLast_inPortsdir_ne_nil {portsdir : Text} (hportsdir : portsdir ≠ []) (file : Text) :
    (inPortsdir portsdir file).dropLast ≠ [] := by
  have hlen := List.length_pos_iff.mpr hportsdir
  apply List.length_pos_iff.mp
  simp only [inPortsdir, List.length_dropLast, List.length_append, List.length_cons]
  omega

theorem inPortsdir_dropSlash (portsdir : Text) {file : Text} (hslash : file.getLast? = some '/') :
    inPortsdir portsdir (dropSlash file) = dropSlash (inPortsdir portsdir file) := by
  have hfile : file.dropLast ++ ['/'] = file := List.dropLast_append_getLast? '/' hslash
  have hname : inPortsdir portsdir file = inPortsdir portsdir file.dropLast ++ ['/'] := by
    rw [inPortsdir, inPortsdir, List.append_assoc, List.cons_append, hfile]
  rw [hname, dropSlash, dropSlash, if_pos hslash, List.getLast?_concat, if_pos rfl,
    List.dropLast_concat]

/-- The slash at the end that the commands leave off makes no difference. -/
theorem resolve_name (cwd : Place) {portsdir file name : Text} (hportsdir : portsdir ≠ [])
    (h : name ∈ extractNames portsdir file ++ updateNames portsdir file) :
    resolve cwd name = resolve cwd (inPortsdir portsdir file) := by
  have hdrop := resolve_dropSlash cwd (dropLast_inPortsdir_ne_nil hportsdir file)
  have hmem : name = inPortsdir portsdir file ∨ name = dropSlash (inPortsdir portsdir file) := by
    rcases List.mem_append.mp h with h | h
    · unfold extractNames at h
      split at h
      · rename_i hslash
        rw [inPortsdir_dropSlash portsdir hslash] at h
        rcases List.mem_cons.mp h with rfl | h
        · exact .inr rfl
        · exact .inl (List.mem_singleton.mp h)
      · exact .inl (List.mem_singleton.mp h)
    · rcases List.mem_cons.mp h with rfl | h
      · exact .inr rfl
      · exact .inl (List.mem_singleton.mp h)
  rcases hmem with rfl | rfl
  · rfl
  · exact hdrop

/-- The names that the commands make of an accepted path lead below `PORTSDIR` exactly when the
last component does not give up more directories than stand before it. -/
theorem strictlyBelow_portsdir_iff (cwd : Place) {portsdir : Text} (hportsdir : portsdir ≠ [])
    {d : Dir} (hsane : indexSanity d = true) {l : Text} (hl : l ∈ lines (d.INDEXnew.getD []))
    {name : Text}
    (hname : name ∈ extractNames portsdir (cut 1 l) ++ updateNames portsdir (cut 1 l)) :
    StrictlyBelow (resolve cwd portsdir) (resolve cwd name) ↔ EndsBelow (cut 1 l) := by
  rw [resolve_name cwd hportsdir hname,
    resolve_inPortsdir cwd portsdir fun name hmem => earlier_ordinary hsane hl hmem,
    resolve_concat_slash cwd hportsdir]
  exact strictlyBelow_enter_iff _ _ _

/-- A work directory with this `INDEX.new`. -/
def received (index : Bytes) : Dir where
  tag := none
  tINDEX := none
  INDEX := none
  files := none
  pub := none
  ssl _ := none
  tagNew := none
  tINDEXnew := none
  INDEXnew := some index
  snap := none
  fetched _ := none

def zeroHash : Text := List.replicate 64 '0'

theorem strictlyBelow_portsdir_lang :
    StrictlyBelow ["usr".toList, "ports".toList] (resolve [] "/usr/ports/lang/.".toList) ↔
      EndsBelow "lang/.".toList :=
  @strictlyBelow_portsdir_iff [] "/usr/ports".toList (by decide)
    (received ("lang/.|".toList ++ zeroHash)) (by decide +kernel)
    ("lang/.|".toList ++ zeroHash) (by decide +kernel) _ (by decide +kernel)

/-- `..` is accepted, and leads to the parent directory of `PORTSDIR`. -/
theorem portsdir_parent_named :
    ¬ ∀ (cwd : Place) (portsdir : Text) (d : Dir), portsdir ≠ [] → indexSanity d = true →
      ∀ l ∈ lines (d.INDEXnew.getD []),
        ∀ name ∈ extractNames portsdir (cut 1 l) ++ updateNames portsdir (cut 1 l),
          StrictlyBelow (resolve cwd portsdir) (resolve cwd name) := by
  intro h
  exact absurd
    (h [] "/usr/ports".toList (received ("..|".toList ++ zeroHash)) (by decide)
      (by decide +kernel) ("..|".toList ++ zeroHash) (by decide +kernel)
      "/usr/ports/..".toList (by decide +kernel))
    (by decide +kernel)

end DeltaPorts.Portsnap

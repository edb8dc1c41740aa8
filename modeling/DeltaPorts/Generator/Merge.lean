import DeltaPorts.Generator.Legacy
import DeltaPorts.Library.Awk

/-!
# merge.sh

`merge` builds one port of `MERGED` from the FreeBSD port and its overlay; the main loop reads
the worklist and decides from each port's `STATUS` what to do with it. All ports share one
work area.
-/

set_option autoImplicit false

namespace DeltaPorts.Generator

/-- A category and a port name, as in `net/rsync`. -/
abbrev Origin := Awk.Text

variable {Diff : Type}

/-- The directory `diffs` of an overlay: the lines of `REMOVE`, and the diffs as `find` lists
them. -/
structure Diffs (Diff : Type) where
  remove : Option (List Path)
  diffs : List Diff

/-- `DELTA/ports/<origin>`; a part that does not exist is `none`. -/
structure DeltaPort (Diff : Type) where
  status : Option (List Awk.Text)
  makefileDragonFly : Option Content
  dragonfly : Option Tree
  diffs : Option (Diffs Diff)
  newport : Tree

structure Programs (Diff : Type) where
  patch : Tree → Diff → Tree
  find : FileTree.Listing Path
  awk : Awk.Reading

/-- The trees `FPORTS`, `DPORTS` and `DELTA/ports`, and the programs that the scripts run. -/
structure Env (Diff : Type) where
  fports : Origin → Tree
  dports : Origin → Tree
  delta : Origin → Option (DeltaPort Diff)
  programs : Programs Diff

def makefileName : Name := ⟨"Makefile.DragonFly".toList, by decide⟩

def dragonflyName : Name := ⟨"dragonfly".toList, by decide⟩

/-- The work area once the parts of the overlay are copied over the port. -/
def copyOverlay (dp : DeltaPort Diff) (area : Tree) : Tree :=
  let area := match dp.makefileDragonFly with
    | none => area
    | some c => area.insert (makefileName, []) c
  match dp.dragonfly with
  | none => area
  | some d => (d.under dragonflyName).overlay area

/-- The files of `REMOVE` are deleted, then the diffs are applied one after the other. -/
def applyDiffs (patch : Tree → Diff → Tree) (d : Diffs Diff) (area : Tree) : Tree :=
  let area := (d.remove.getD []).foldl (fun area line => area.erase line) area
  d.diffs.foldl patch area

def lastName (p : Path) : Name := p.2.getLast?.getD p.1

def withLastName (p : Path) (n : Name) : Path :=
  if p.2 = [] then (n, []) else (p.1, p.2.dropLast ++ [n])

def origExt : List Char := ".orig".toList

/-- `-name \*.orig`. -/
def isOrig (p : Path) : Bool := origExt.isSuffixOf (lastName p).chars

/-- `${frag%%.orig}`; nothing is left of the name `.orig` but the directory. -/
def fragBase (frag : Path) : Option Path :=
  let chars := (lastName frag).chars
  let base := chars.take (chars.length - origExt.length)
  if h : plainName base = true then some (withLastName frag ⟨base, h⟩) else none

def frags (area : Tree) : Finset Path := area.paths.filter fun p => isOrig p

/-- `touch` makes an empty file where there is none. The removals of the loop leave every
directory of the patched `area` in place, and no file is made of one. -/
def touch (area t : Tree) (base : Path) : Tree :=
  if area.IsDir base ∨ (t.file base).isSome then t else t.insert base []

/-- `touch -r ${frag} ${frag%%.orig}; rm ${frag}`. -/
def cleanFrag (area t : Tree) (frag : Path) : Tree :=
  let touched := match fragBase frag with
    | none => t
    | some base => touch area t base
  touched.erase frag

def cleanFrags (find : FileTree.Listing Path) (area : Tree) : Tree :=
  (find.list (frags area)).foldl (cleanFrag area) area

inductive Mode where
  | fast
  | port
  | dport
  deriving DecidableEq

/-- None of `Makefile.DragonFly`, `dragonfly` and `diffs` exists. -/
def DeltaPort.bare (dp : DeltaPort Diff) : Bool :=
  dp.makefileDragonFly.isNone && dp.dragonfly.isNone && dp.diffs.isNone

/-- The work area when `merge` comes to the legacy filter of an overlaid port. -/
def overlaidArea (programs : Programs Diff) (orig : Tree) (dp : DeltaPort Diff) : Tree :=
  let area := copyOverlay dp orig
  match dp.diffs with
  | none => area
  | some d => cleanFrags programs.find (applyDiffs programs.patch d area)

/-- `merge` of the port whose directories in `FPORTS` and `DELTA/ports` are given: what it
leaves in `MERGED/<port>`, and the work area afterwards. -/
def merge (programs : Programs Diff) (orig : Tree) (delta : Option (DeltaPort Diff)) (mode : Mode)
    (work : Tree) : Tree × Tree :=
  match mode, delta with
  | .fast, _ => fastAndFiltered orig work
  | .dport, delta => ((delta.map DeltaPort.newport).getD FileTree.empty, work)
  | .port, none => fastAndFiltered orig work
  | .port, some dp =>
    if dp.bare then fastAndFiltered orig work
    else
      -- cpdup mirrors the port, so nothing of the work area is left
      let area := overlaidArea programs orig dp
      let merged := transform area (getLegacy area)
      (merged, merged)

/-- What `AWKCMD2` prints. -/
inductive Verdict where
  | skip
  | lock
  | mask
  | hold (mode : Mode)
  deriving DecidableEq

/-- `AWKCMD2` on the lines of a `STATUS` file. -/
def awkCmd2 (awk : Awk.Reading) (latt : Awk.Text) (mex : Bool) : List Awk.Text → Option Verdict
  | [] => none
  | line₁ :: rest =>
    let first := Awk.field 1 line₁
    if first = "MASK".toList then some .mask
    else if first = "LOCK".toList then some (if mex then .skip else .lock)
    else if first = "PORT".toList ∨ first = "DPORT".toList then
      match rest with
      | [] => none
      | line₂ :: _ =>
        if awk.eqField latt (Awk.field 3 line₂) && mex then some .skip
        else some (.hold (if first = "PORT".toList then .port else .dport))
    else none

/-- A line of the worklist. -/
structure Work where
  port : Origin
  version : Awk.Text

structure State where
  work : Tree
  merged : Origin → Option Tree

def State.setMerged (s : State) (port : Origin) (t : Option Tree) : State :=
  { s with merged := Function.update s.merged port t }

/-- What the main loop does for a line: merge in a mode, or one of the verdicts on a port that
is not merged. -/
def decision (env : Env Diff) (s : State) (line : Work) : Verdict :=
  match env.delta line.port with
  | none => .hold .fast
  | some dp =>
    let mex := (s.merged line.port).isSome
    -- without a STATUS file, and when awk prints nothing, the port counts as PORT
    (awkCmd2 env.programs.awk (Awk.assigned line.version) mex (dp.status.getD [])).getD (.hold .port)

/-- One turn of the main loop. -/
def mainStep (env : Env Diff) (s : State) (line : Work) : State :=
  match decision env s line with
  | .skip => s
  | .lock => s.setMerged line.port (some (env.dports line.port))
  | .mask => s.setMerged line.port none
  | .hold mode =>
    let m := merge env.programs (env.fports line.port) (env.delta line.port) mode s.work
    { s.setMerged line.port (some m.1) with work := m.2 }

theorem mainStep_of_skip {env : Env Diff} {s : State} {line : Work}
    (h : decision env s line = .skip) : mainStep env s line = s := by
  rw [mainStep, h]

theorem merged_of_lock {env : Env Diff} {s : State} {line : Work}
    (h : decision env s line = .lock) :
    (mainStep env s line).merged line.port = some (env.dports line.port) := by
  rw [mainStep, h]
  exact Function.update_self _ _ _

theorem merged_of_mask {env : Env Diff} {s : State} {line : Work}
    (h : decision env s line = .mask) : (mainStep env s line).merged line.port = none := by
  rw [mainStep, h]
  exact Function.update_self _ _ _

theorem merged_of_hold {env : Env Diff} {s : State} {line : Work} {mode : Mode}
    (h : decision env s line = .hold mode) : (mainStep env s line).merged line.port =
      some (merge env.programs (env.fports line.port) (env.delta line.port) mode s.work).1 := by
  rw [mainStep, h]
  exact Function.update_self _ _ _

def mainLoop (env : Env Diff) (s : State) (worklist : List Work) : State :=
  worklist.foldl (mainStep env) s

end DeltaPorts.Generator

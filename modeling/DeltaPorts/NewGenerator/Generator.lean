import Mathlib.Order.Lattice
import DeltaPorts.Library.Exits

/-!
# The new generator

`bin/generator` and `etc/gen.subr`. The world keeps the directories and the markers
between two invocations, and a log of what was run. The outcome of every command is the
invocation's; a marker is touched where its directory is there.
-/

set_option autoImplicit false

namespace DeltaPorts.NewGenerator

variable {Name : Type}

/-- `etc/filters` as the shell expands its patterns: in the order of the names, which hold no blanks
and no pattern characters. -/
structure Filters (Name : Type) [LinearOrder Name] where
  phases : List Name
  filters : Name → List Name
  phases_sorted : phases.Pairwise (· < ·)
  filters_sorted : ∀ phase, (filters phase).Pairwise (· < ·)

/-- The directories of `dports.conf`, that of `portsnap -d`, and one for each phase. -/
inductive Dir (Name : Type) where
  | gwrkdir
  | merged
  | potential
  | comqueue
  | dports
  | delta
  | fports
  | portsnap
  | phase (phase : Name)
  deriving DecidableEq

inductive Command (Name : Type) where
  | mkdir (dir : Dir Name)
  | clone (url : String) (dst : Dir Name)
  | portsnapFetch (dst : Dir Name)
  | portsnapExtract (dst : Dir Name)
  | filter (phase script : Name)

/-- The directory the command makes. -/
def Command.makes : Command Name → Option (Dir Name)
  | .mkdir dir => some dir
  | .clone _ dst => some dst
  | .portsnapExtract dst => some dst
  | .portsnapFetch _ => none
  | .filter _ _ => none

/-- `.<script>_done` in the phase's work directory and `.<phase>_done` above it. -/
inductive Marker (Name : Type) where
  | filter (phase script : Name)
  | phase (phase : Name)
  deriving DecidableEq

inductive Event (Name : Type) where
  | ran (command : Command Name) (status : Nat)
  | touched (marker : Marker Name)
  | err (status : Nat)

structure World (Name : Type) where
  dirs : List (Dir Name)
  markers : List (Marker Name)
  log : List (Event Name)

def World.logged (w : World Name) (e : Event Name) : World Name := { w with log := w.log ++ [e] }

inductive Arguments where
  | badOption
  | auto
  | other

/-- What an invocation meets. `exitval` is the variable of that name in the environment and
`echoStatus` the status of `err`'s last `echo`. A command that fails may leave its directory
behind. -/
structure Invocation (Name : Type) where
  args : Arguments
  exitval : Option Nat
  echoStatus : Nat
  status : Command Name → Nat
  leaves : Command Name → Bool
  executable : Name → Name → Bool

def DPORTS_URL : String := "https://github.com/DragonFlyBSD/DPorts.git"
def DELTA_URL : String := "https://github.com/DragonFlyBSD/DeltaPorts.git"

section Subr

variable (i : Invocation Name)

/-- `exit $exitval`: without a value, the status of the command before. -/
def errStatus : Nat :=
  match i.exitval with
  | some value => value % 256
  | none => i.echoStatus

/-- The local of `err` is `_exitval`, and `status` is not what it exits with. -/
def err {α : Type} (status : Nat) : Exits (World Name) α := do
  Exits.cmd fun w => w.logged (.err status)
  Exits.exit (errStatus i)

def World.after (w : World Name) (command : Command Name) (status : Nat) (leaves : Bool) :
    World Name :=
  { w.logged (.ran command status) with
    dirs := if status = 0 ∨ leaves = true then command.makes.toList ++ w.dirs else w.dirs }

def runcmd (command : Command Name) : Exits (World Name) Nat := do
  Exits.cmd fun w => w.after command (i.status command) (i.leaves command)
  pure (i.status command)

variable [LinearOrder Name]

def isDir (dir : Dir Name) : Exits (World Name) Bool := Exits.read fun w => w.dirs.contains dir

/-- The arguments are `none` when they are empty. -/
def clonerepo (url : Option String) (dst : Option (Dir Name)) : Exits (World Name) Nat :=
  match url, dst with
  | some url, some dst => do
    if ← isDir dst then pure 0 else runcmd i (.clone url dst)
  | _, _ => err i 1

/-- Nothing reads the status it returns. -/
def psnapInit (dst : Option (Dir Name)) : Exits (World Name) Unit :=
  match dst with
  | none => err i 1
  | some dst => do
    if ← isDir dst then pure ()
    else do
      let _ ← runcmd i (.mkdir .portsnap)
      let fetched ← runcmd i (.portsnapFetch dst)
      if fetched ≠ 0 then err i 1
      else do
        let extracted ← runcmd i (.portsnapExtract dst)
        if extracted ≠ 0 then err i 1 else pure ()

end Subr

section Script

variable [LinearOrder Name] (i : Invocation Name)

def fixDir (dir : Dir Name) : Exits (World Name) Unit := do
  if ← isDir dir then pure ()
  else do
    let made ← runcmd i (.mkdir dir)
    if made ≠ 0 then err i 1 else pure ()

def fixDirs : Exits (World Name) Unit :=
  Exits.forWords [.gwrkdir, .merged, .potential, .comqueue] (fixDir i)

/-- `clonerepo ... || err 1 ...` -/
def setupRepo (url : String) (dst : Dir Name) : Exits (World Name) Unit := do
  let cloned ← clonerepo i (some url) (some dst)
  if cloned ≠ 0 then err i 1 else pure ()

def reposSetup : Exits (World Name) Unit := do
  setupRepo i DPORTS_URL .dports
  setupRepo i DELTA_URL .delta
  psnapInit i (some .fports)

def runFilter (phase script : Name) : Exits (World Name) Nat :=
  if i.executable phase script = true then runcmd i (.filter phase script) else pure 1

def isMarked (marker : Marker Name) : Exits (World Name) Bool :=
  Exits.read fun w => w.markers.contains marker

def touch (marker : Marker Name) : Exits (World Name) Unit :=
  Exits.cmd fun w => { w.logged (.touched marker) with markers := marker :: w.markers }

/-- Nothing looks at the status of this `touch`, which fails when the phase has no work directory. -/
def touchFilter (phase script : Name) : Exits (World Name) Unit := do
  if ← isDir (.phase phase) then touch (.filter phase script) else pure ()

/-- One round of the loop over the scripts of the phase. -/
def processFilter (phase script : Name) : Exits (World Name) Unit := do
  if ← isMarked (.filter phase script) then pure ()
  else do
    let ret ← runFilter i phase script
    if ret ≠ 0 then err i 1 else touchFilter phase script

variable (fs : Filters Name)

def phaseDir (phase : Name) : Exits (World Name) Unit := do
  if ← isDir (.phase phase) then pure ()
  else do
    let _ ← runcmd i (.mkdir (.phase phase))
    pure ()

/-- The name of the phase is `none` when it is empty. `ls` finds no filters in an empty
directory. The marker of the phase stands in a directory that `fix_dirs` has made. -/
def runPhase (phase : Option Name) : Exits (World Name) Unit :=
  match phase with
  | none => err i 1
  | some phase => do
    if ← isMarked (.phase phase) then pure ()
    else if (fs.filters phase).isEmpty = true then pure ()
    else do
      phaseDir i phase
      Exits.forWords (fs.filters phase) (processFilter i phase)
      touch (.phase phase)

def doAutomode : Exits (World Name) Unit := do
  reposSetup i
  Exits.forWords fs.phases fun phase => runPhase i fs (some phase)

/-- The script; `usage` exits with 1. -/
def main : Exits (World Name) Unit :=
  match i.args with
  | .badOption => Exits.exit 1
  | .auto => do
    fixDirs i
    doAutomode i fs
  | .other => do
    fixDirs i
    Exits.exit 1

/-- An invocation: its exit status and the world it leaves. Every function that ends here
ends with status 0. -/
def generator (w : World Name) : Nat × World Name :=
  match main i fs w with
  | (.ok _, w') => (0, w')
  | (.error status, w') => (status, w')

end Script

section Spec

open Exits

variable {i : Invocation Name} {P : World Name → Prop} {E : Nat → World Name → Prop}

theorem spec_err {α : Type} {status : Nat} {Q : α → World Name → Prop}
    (h : ∀ w, P w → E (errStatus i) (w.logged (.err status))) : Spec P (err i status) Q E :=
  Spec.bind (Spec.cmd h) fun _ => Spec.exit fun _ hw => hw

theorem World.mem_dirs_after {w : World Name} {dir : Dir Name} (h : dir ∈ w.dirs)
    (command : Command Name) (status : Nat) (leaves : Bool) :
    dir ∈ (w.after command status leaves).dirs := by
  unfold World.after
  dsimp only
  split
  · exact List.mem_append_right _ h
  · exact h

theorem spec_runcmd {command : Command Name} {Q : Nat → World Name → Prop}
    (h : ∀ w, P w → Q (i.status command) (w.after command (i.status command) (i.leaves command))) :
    Spec P (runcmd i command) Q E :=
  Spec.bind (Spec.cmd h) fun _ => Spec.pure fun _ hw => hw

/-- The work directory of the phase can be made. -/
def Invocation.MakesDir (i : Invocation Name) (phase : Name) : Prop :=
  i.status (.mkdir (.phase phase)) = 0 ∨ i.leaves (.mkdir (.phase phase)) = true

theorem World.mem_dirs_mkdir {phase : Name} (h : i.MakesDir phase) (w : World Name) :
    .phase phase ∈ (w.after (.mkdir (.phase phase)) (i.status (.mkdir (.phase phase)))
      (i.leaves (.mkdir (.phase phase)))).dirs := by
  unfold Invocation.MakesDir at h
  unfold World.after
  dsimp only
  rw [if_pos h]
  exact List.mem_cons_self

/-- A command whose failure is passed to `err`. -/
theorem spec_orErr {m : Exits (World Name) Nat} {Q : Unit → World Name → Prop}
    {R : Nat → World Name → Prop} {rest : Exits (World Name) Unit} (hm : Spec P m R E)
    (herr : ∀ status w, status ≠ 0 → R status w → E (errStatus i) (w.logged (.err 1)))
    (hrest : Spec (R 0) rest Q E) :
    Spec P (m >>= fun status => if status ≠ 0 then err i 1 else rest) Q E := by
  refine Spec.bind hm fun status => Spec.ite (fun hne => ?_) fun hzero => ?_
  · exact spec_err fun w hw => herr status w hne hw
  · rw [not_not.mp hzero]
    exact hrest

end Spec

end DeltaPorts.NewGenerator

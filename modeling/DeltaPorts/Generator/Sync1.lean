import DeltaPorts.Generator.Merge

/-!
# sync1.sh

The same algorithm for a single port: it starts from a fresh work area, writes to `POTENTIAL`,
reads the mode off the first line of `STATUS`, and deletes the backups that `patch` leaves
without touching the files they are backups of.
-/

set_option autoImplicit false

namespace DeltaPorts.Generator.Sync1

variable {Diff : Type}

/-- `find ${WORKAREA} -type f -name \*.orig -exec rm {} \;`. -/
def removeOrigs (area : Tree) : Tree := area.restrict fun p => !isOrig p

def overlaidArea (programs : Programs Diff) (orig : Tree) (dp : DeltaPort Diff) : Tree :=
  let area := copyOverlay dp orig
  match dp.diffs with
  | none => area
  | some d => removeOrigs (applyDiffs programs.patch d area)

/-- `merge`: what it leaves in `POTENTIAL/<port>`. -/
def merge (programs : Programs Diff) (orig : Tree) (delta : Option (DeltaPort Diff))
    (mode : Mode) : Tree :=
  match mode, delta with
  | .fast, _ => (fastAndFiltered orig FileTree.empty).1
  | .dport, delta => (delta.map DeltaPort.newport).getD FileTree.empty
  | .port, none => (fastAndFiltered orig FileTree.empty).1
  | .port, some dp =>
    if dp.bare then (fastAndFiltered orig FileTree.empty).1
    else
      let area := overlaidArea programs orig dp
      transform area (getLegacy area)

structure State where
  potential : Origin → Option Tree
  merged : Origin → Option Tree

/-- `awk '{if (FNR == 1) {print $1}}' ${PORT}/STATUS`. -/
def firstWord (status : Option (List Awk.Text)) : Awk.Text :=
  match status with
  | some (line₁ :: _) => Awk.field 1 line₁
  | _ => []

/-- What becomes of `POTENTIAL/<port>`. -/
def potential (env : Env Diff) (port : Origin) (old : Option Tree) : Option Tree :=
  let merge := merge env.programs (env.fports port) (env.delta port)
  match env.delta port with
  | none => some (merge .fast)
  | some dp =>
    let ml := firstWord dp.status
    if ml = [] then some (merge .port)
    else if ml = "LOCK".toList then some (env.dports port)
    else if ml = "MASK".toList then none
    else if ml = "PORT".toList then some (merge .port)
    else if ml = "DPORT".toList then some (merge .dport)
    else old

def sync1 (env : Env Diff) (s : State) (port : Origin) : State :=
  let new := potential env port (s.potential port)
  { potential := Function.update s.potential port new
    -- a port that is merged already is brought up to date
    merged :=
      if (s.merged port).isSome ∧ new.isSome then Function.update s.merged port new
      else s.merged }

end DeltaPorts.Generator.Sync1

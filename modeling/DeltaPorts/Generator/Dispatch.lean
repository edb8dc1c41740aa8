import DeltaPorts.Generator.Sync1

/-!
# How merge.sh and sync1.sh take the mode from `STATUS`

`AWKCMD2` holds the first word of `STATUS` back and prints it on the second line, where it also
looks at the last attempt. `sync1.sh` prints the first word at once.
-/

set_option autoImplicit false

namespace DeltaPorts.Generator

variable {Diff : Type}

/-- The branch that `sync1.sh` takes; none if the first line of `STATUS` is corrupt. -/
def Sync1.dispatch (env : Env Diff) (port : Origin) : Option Verdict :=
  match env.delta port with
  | none => some (.hold .fast)
  | some dp =>
    let ml := firstWord dp.status
    if ml = [] then some (.hold .port)
    else if ml = "LOCK".toList then some .lock
    else if ml = "MASK".toList then some .mask
    else if ml = "PORT".toList then some (.hold .port)
    else if ml = "DPORT".toList then some (.hold .dport)
    else none

theorem Sync1.potential_eq_dispatch (env : Env Diff) (port : Origin) (old : Option Tree) :
    Sync1.potential env port old = match Sync1.dispatch env port with
      | some (.hold mode) =>
        some (Sync1.merge env.programs (env.fports port) (env.delta port) mode)
      | some .lock => some (env.dports port)
      | some .mask => none
      | some .skip | none => old := by
  unfold Sync1.potential Sync1.dispatch
  cases env.delta port with
  | none => rfl
  | some dp =>
    simp only
    split_ifs <;> rfl

/-- The first words with which `STATUS` may begin. -/
inductive StatusWord : Awk.Text → Prop where
  | port : StatusWord "PORT".toList
  | dport : StatusWord "DPORT".toList
  | lock : StatusWord "LOCK".toList
  | mask : StatusWord "MASK".toList

variable {env : Env Diff} {s : State} {line : Work} {dp : DeltaPort Diff}
variable {line₁ : Awk.Text} {rest : List Awk.Text}

theorem dispatch_of_status (hdelta : env.delta line.port = some dp)
    (hstatus : dp.status = some (line₁ :: rest)) (hword : StatusWord (Awk.field 1 line₁)) :
    Sync1.dispatch env line.port = some
      (if Awk.field 1 line₁ = "MASK".toList then .mask
      else if Awk.field 1 line₁ = "LOCK".toList then .lock
      else if Awk.field 1 line₁ = "PORT".toList then .hold .port
      else .hold .dport) := by
  unfold Sync1.dispatch Sync1.firstWord
  simp only [hdelta, hstatus]
  generalize Awk.field 1 line₁ = word at hword ⊢
  cases hword <;> simp

theorem decision_of_status (hdelta : env.delta line.port = some dp)
    (hstatus : dp.status = some (line₁ :: rest)) (hword : StatusWord (Awk.field 1 line₁))
    (hmerged : s.merged line.port = none) :
    decision env s line =
      if Awk.field 1 line₁ = "MASK".toList then .mask
      else if Awk.field 1 line₁ = "LOCK".toList then .lock
      else if Awk.field 1 line₁ = "PORT".toList ∨ rest = [] then .hold .port
      else .hold .dport := by
  unfold decision awkCmd2
  simp only [hdelta, hstatus, hmerged, Option.getD_some, Option.isSome_none]
  generalize Awk.field 1 line₁ = word at hword ⊢
  cases rest with
  | nil => cases hword <;> simp
  | cons line₂ rest => cases hword <;> simp

/-- Of a `STATUS` with one line only `AWKCMD2` prints nothing, and the port counts as `PORT`. -/
theorem decision_eq_dispatch_iff (hdelta : env.delta line.port = some dp)
    (hstatus : dp.status = some (line₁ :: rest)) (hword : StatusWord (Awk.field 1 line₁))
    (hmerged : s.merged line.port = none) :
    Sync1.dispatch env line.port = some (decision env s line) ↔
      ¬ (Awk.field 1 line₁ = "DPORT".toList ∧ rest = []) := by
  rw [dispatch_of_status hdelta hstatus hword, decision_of_status hdelta hstatus hword hmerged]
  generalize Awk.field 1 line₁ = word at hword ⊢
  cases hword with
  | port => simp
  | dport =>
    by_cases hrest : rest = []
    · simp [hrest]
    · simp [hrest]
  | lock => simp
  | mask => simp

/-- A port of `DPORTS` only, whose `STATUS` consists of the given lines. -/
def statusPort (status : List Awk.Text) : DeltaPort Unit where
  status := some status
  makefileDragonFly := none
  dragonfly := none
  diffs := none
  newport := FileTree.empty

noncomputable def statusEnv (status : List Awk.Text) : Env Unit where
  fports _ := FileTree.empty
  dports _ := FileTree.empty
  delta _ := some (statusPort status)
  programs := ⟨fun t _ => t, FileTree.Listing.any Path, Awk.decimals⟩

def nothingMerged : State := ⟨FileTree.empty, fun _ => none⟩

def statusLine : Work := ⟨"net/a".toList, "1.0".toList⟩

theorem one_line_read_differently : StatusWord (Awk.field 1 "DPORT".toList) ∧
    Sync1.dispatch (statusEnv ["DPORT".toList]) statusLine.port = some (.hold .dport) ∧
    decision (statusEnv ["DPORT".toList]) nothingMerged statusLine = .hold .port := by
  have hword : Awk.field 1 "DPORT".toList = "DPORT".toList := by decide
  have hstatus : StatusWord (Awk.field 1 "DPORT".toList) := by
    rw [hword]
    exact .dport
  refine ⟨hstatus, ?_, ?_⟩
  · rw [dispatch_of_status rfl rfl hstatus, hword]
    rfl
  · rw [decision_of_status rfl rfl hstatus rfl, hword]
    rfl

theorem hook_status_read_alike :
    Sync1.dispatch (statusEnv ["DPORT".toList, "Last attempt: 1.0".toList]) statusLine.port =
      some (decision (statusEnv ["DPORT".toList, "Last attempt: 1.0".toList]) nothingMerged
        statusLine) := by
  have hword : Awk.field 1 "DPORT".toList = "DPORT".toList := by decide
  have hstatus : StatusWord (Awk.field 1 "DPORT".toList) := by
    rw [hword]
    exact .dport
  apply (decision_eq_dispatch_iff rfl rfl hstatus rfl).mpr
  exact fun h => List.cons_ne_nil _ _ h.2

end DeltaPorts.Generator

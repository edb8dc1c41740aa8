import DeltaPorts.Generator.Legacy
import DeltaPorts.Library.Shell

/-!
# pkgbuild.sh

The builder runs this hook after each build of a merged port. It rewrites the port's `STATUS`,
copies a port that built to `DPORTS`, and leaves an item for the commit daemon in each of the
two queues.
-/

set_option autoImplicit false

namespace DeltaPorts.Hook

open Generator (Tree)
open Shell (Text)

inductive Result where
  | failed
  | success
  deriving DecidableEq

inductive Action where
  | importPort
  | update
  | tweak
  deriving DecidableEq

/-- The lines of the queue file `dport.<name>`. -/
structure DportItem where
  origin : Text
  action : Action
  version : Text

/-- The lines of the queue file `delta.<name>`. -/
structure DeltaItem where
  origin : Text
  result : Result
  version : Text

/-- What there is of one origin: its `STATUS`, its directory in `DPORTS`, its queue files. -/
structure State where
  status : Option (List Text)
  dports : Option Tree
  dport : Option DportItem
  delta : Option DeltaItem

/-- A build that ended: `RESULT`, `PKGNAME`, and the port in `POTENTIAL`. -/
structure Event where
  result : Result
  pkgname : Text
  potential : Tree

/-- `PKGV`. -/
def pkgv (pkgname : Text) : Text := Shell.afterLast '-' (Shell.echo pkgname)

/-- `grep -E "^(PORT|DPORT|LOCK)"`. -/
def isType (line : Text) : Bool :=
  "PORT".toList.isPrefixOf line || "DPORT".toList.isPrefixOf line || "LOCK".toList.isPrefixOf line

/-- `TYPE`. -/
def typeOf (status : List Text) : Text := Shell.captured (status.filter isType)

/-- `LASTSUCC`, from columns 15 to 80. -/
def lastSucc (status : List Text) : Text :=
  Shell.captured <| (status.filter fun line => "Last success:".toList <:+: line).map fun line =>
    (line.drop 14).take 66

def writeStatus (type attempt success : Text) : List Text :=
  Shell.echo type :: Shell.lines ("Last attempt: ".toList ++ attempt) ++
    Shell.lines ("Last success: ".toList ++ success)

/-- The two branches of `STATUS`; a port without the file is a `PORT`. -/
def newStatus (e : Event) (status : Option (List Text)) : List Text :=
  let v := pkgv e.pkgname
  match e.result, status with
  | .failed, some st => writeStatus (typeOf st) v (lastSucc st)
  | .failed, none => writeStatus "PORT".toList v []
  | .success, some st => writeStatus (typeOf st) v v
  | .success, none => writeStatus "PORT".toList v v

def action (e : Event) (s : State) : Action :=
  match s.dports, s.status with
  | none, _ => .importPort
  | some _, none => .update
  | some _, some st => if pkgv e.pkgname = lastSucc st then .tweak else .update

/-- The hook, run for an event on the origin. -/
def run (origin : Text) (s : State) (e : Event) : State :=
  let v := pkgv e.pkgname
  let status := some (newStatus e s.status)
  let delta := some ⟨origin, e.result, v⟩
  match e.result with
  | .failed => { s with status := status, delta := delta }
  | .success =>
    { status := status, dports := some e.potential, dport := some ⟨origin, action e s, v⟩,
      delta := delta }

theorem run_status (origin : Text) (s : State) (e : Event) :
    (run origin s e).status = some (newStatus e s.status) := by
  unfold run
  cases e.result <;> rfl

/-- The version that a package name ends in. -/
def version (pkgname : Text) : Text := Shell.afterLast '-' pkgname

theorem words_pkgv (pkgname : Text) : Awk.words (pkgv pkgname) = Awk.words (version pkgname) :=
  Shell.words_afterLast_echo (by decide) pkgname

theorem pkgv_eq {pkgname : Text} (h : Awk.Plain (version pkgname)) :
    pkgv pkgname = version pkgname := Shell.afterLast_echo (by decide) h

theorem newline_not_mem_pkgv (pkgname : Text) : '\n' ∉ pkgv pkgname :=
  fun h => Shell.newline_not_mem_echo pkgname (Shell.afterLast_subset '-' _ h)

/-- The first word of the file is `PORT` or `DPORT`, at the start of its first line. -/
structure Typed (word : Text) (status : List Text) : Prop where
  known : word = "PORT".toList ∨ word = "DPORT".toList
  starts : ∃ tail rest, status = (word ++ tail) :: rest ∧ tail.head?.all Awk.isBlank = true

theorem Typed.plain {word : Text} {status : List Text} (h : Typed word status) :
    Awk.Plain word ∧ word ≠ [] := by
  rcases h.known with rfl | rfl <;> exact ⟨by decide, by decide⟩

theorem Typed.field {word : Text} {status : List Text} (h : Typed word status) :
    ∃ line₁ rest, status = line₁ :: rest ∧ Awk.field 1 line₁ = word := by
  obtain ⟨tail, rest, heq, htail⟩ := h.starts
  refine ⟨_, rest, heq, ?_⟩
  rw [Awk.field, Awk.words_append h.plain.1 h.plain.2 htail]
  rfl

theorem head_blank_of_prefix {t u : Text} (hpre : t <+: u) (hu : u.head?.all Awk.isBlank = true) :
    t.head?.all Awk.isBlank = true := by
  cases t with
  | nil => rfl
  | cons c t =>
    obtain ⟨rest, rfl⟩ := hpre
    exact hu

/-- `TYPE` starts with the type of the origin. -/
theorem Typed.typeOf_starts {word : Text} {status : List Text} (h : Typed word status) :
    ∃ tail, typeOf status = word ++ tail ∧ tail.head?.all Awk.isBlank = true := by
  obtain ⟨tail, rest, rfl, htail⟩ := h.starts
  have htype : isType (word ++ tail) = true := by
    rcases h.known with rfl | rfl <;> rfl
  obtain ⟨t, hpre, heq⟩ :=
    Shell.captured_word (t := tail) h.plain.1 (rest.filter isType)
  refine ⟨t, ?_, head_blank_of_prefix hpre ?_⟩
  · rw [typeOf, List.filter_cons_of_pos htype, heq]
  · cases hrest : rest.filter isType with
    | nil => simpa using htail
    | cons l ls => cases tail <;> simp_all [Awk.isBlank]

theorem echo_starts {word tail : Text} (hplain : Awk.Plain word ∧ word ≠ [])
    (htail : tail.head?.all Awk.isBlank = true) :
    ∃ rest, Shell.echo (word ++ tail) = word ++ rest ∧ rest.head?.all Awk.isBlank = true := by
  unfold Shell.echo
  rw [Awk.words_append hplain.1 hplain.2 htail]
  cases Awk.words tail with
  | nil => exact ⟨[], by simp [Shell.unwords], rfl⟩
  | cons w ws => exact ⟨_, Shell.unwords_cons_cons word w ws, rfl⟩

theorem typed_writeStatus {word tail attempt success : Text}
    (hknown : word = "PORT".toList ∨ word = "DPORT".toList)
    (htail : tail.head?.all Awk.isBlank = true) :
    Typed word (writeStatus (word ++ tail) attempt success) := by
  have hplain : Awk.Plain word ∧ word ≠ [] := by
    rcases hknown with rfl | rfl <;> exact ⟨by decide, by decide⟩
  obtain ⟨rest, heq, hrest⟩ := echo_starts hplain htail
  refine ⟨hknown, rest, Shell.lines ("Last attempt: ".toList ++ attempt) ++
    Shell.lines ("Last success: ".toList ++ success), ?_, hrest⟩
  unfold writeStatus
  rw [heq]
  rfl

/-- An origin without a `STATUS` file has the type PORT. -/
def HasType (word : Text) (status : Option (List Text)) : Prop :=
  status.elim (word = "PORT".toList) (Typed word)

theorem hasType_run {origin word : Text} {s : State} (h : HasType word s.status) (e : Event) :
    HasType word (run origin s e).status := by
  rw [run_status]
  change Typed word (newStatus e s.status)
  unfold newStatus
  cases hs : s.status with
  | none =>
    rw [hs] at h
    have hword : word = "PORT".toList := h
    have hnew : ∀ attempt success, Typed word (writeStatus word attempt success) := by
      intro attempt success
      simpa using @typed_writeStatus word [] attempt success (Or.inl hword) rfl
    rw [hword] at hnew ⊢
    cases e.result <;> exact hnew _ _
  | some st =>
    rw [hs] at h
    have htyped : Typed word st := h
    obtain ⟨tail, heq, htail⟩ := htyped.typeOf_starts
    cases e.result <;> simp only [heq] <;> exact typed_writeStatus htyped.known htail

/-- The second line of the file names the version of the event. -/
theorem newStatus_attempt (e : Event) (status : Option (List Text)) :
    ∃ line₁ rest, newStatus e status =
      line₁ :: ("Last attempt: ".toList ++ pkgv e.pkgname) :: rest := by
  have hline : Shell.lines ("Last attempt: ".toList ++ pkgv e.pkgname) =
      ["Last attempt: ".toList ++ pkgv e.pkgname] := by
    apply Shell.lines_of_not_mem
    rw [List.mem_append, not_or]
    exact ⟨by decide, newline_not_mem_pkgv e.pkgname⟩
  have hwrite : ∀ type success, ∃ line₁ rest,
      writeStatus type (pkgv e.pkgname) success =
        line₁ :: ("Last attempt: ".toList ++ pkgv e.pkgname) :: rest := by
    intro type success
    unfold writeStatus
    rw [hline]
    exact ⟨_, _, rfl⟩
  unfold newStatus
  cases e.result <;> cases status <;> exact hwrite _ _

theorem field_attempt (pkgname : Text) :
    Awk.field 3 ("Last attempt: ".toList ++ pkgv pkgname) = Awk.field 1 (version pkgname) := by
  have hspace : Awk.isBlank ' ' = true := by decide
  have hsplit : "Last attempt: ".toList ++ pkgv pkgname =
      "Last".toList ++ ' ' :: ("attempt:".toList ++ ' ' :: pkgv pkgname) := rfl
  unfold Awk.field
  rw [hsplit, Awk.words_append (by decide) (by decide) rfl, Awk.words_blank_cons hspace,
    Awk.words_append (by decide) (by decide) rfl, Awk.words_blank_cons hspace, words_pkgv]
  rfl

/-- What a run of events that ends with `e` leaves in `STATUS`. -/
theorem status_of_run {origin word : Text} {s : State} (h : HasType word s.status)
    (events : List Event) (e : Event) :
    ∃ line₁ line₂ rest, ((events ++ [e]).foldl (run origin) s).status =
        some (line₁ :: line₂ :: rest) ∧
      Awk.field 1 line₁ = word ∧ Awk.field 3 line₂ = Awk.field 1 (version e.pkgname) := by
  rw [List.foldl_append, List.foldl_cons, List.foldl_nil]
  have htype : HasType word (events.foldl (run origin) s).status := by
    induction events generalizing s with
    | nil => exact h
    | cons e' events ih => exact ih (hasType_run h e')
  generalize events.foldl (run origin) s = t at htype ⊢
  have hlast : Typed word (newStatus e t.status) := by
    have hrun := @hasType_run origin _ _ htype e
    rwa [run_status] at hrun
  obtain ⟨line₁, rest, hnew⟩ := newStatus_attempt e t.status
  obtain ⟨first, others, heq, hfield⟩ := hlast.field
  rw [hnew] at heq
  cases heq
  refine ⟨line₁, _, rest, ?_, hfield, field_attempt e.pkgname⟩
  rw [run_status, hnew]

end DeltaPorts.Hook

import DeltaPorts.Library.Parcels
import DeltaPorts.Library.Run
import DeltaPorts.Portsnap.Store

/-!
# The ports tree

`extract_run` and `update_run` with `REFUSE` and `EXTRACTPATH` empty. What to delete and what to
extract is taken from `.portsnap.INDEX`; what the updates that failed have done to the tree
since that file was written is kept beside it as a history.
-/

set_option autoImplicit false

namespace DeltaPorts.Portsnap.PortsTree

open LineTools Parcels

variable {Content : Type}

/-- The names of a path below `PORTSDIR`. -/
def placeOf (line : Text) : List Text := ((cut 1 line).splitOn '/').filter fun n => !n.isEmpty

/-- `*/)` of the `case`. -/
def isDir (line : Text) : Bool := (cut 1 line).getLast? == some '/'

/-- An INDEX that a fetch installs. -/
structure Index where
  lines : List Text
  isLine : ∀ l ∈ lines, isLine isIndexChar l = true
  names : ∀ l ∈ lines, ∀ n ∈ placeOf l, n ≠ ".".toList ∧ n ≠ "..".toList
  apart : lines.Pairwise fun l l' => Apart (placeOf l) (placeOf l')

/-- The members of an archive. -/
structure Archive (Content : Type) where
  member : List Text → Option Content
  proper : ∀ r r', member r ≠ none → member r' ≠ none → r <+: r' → r = r'

-- the archive `files/HASH.gz`, by its checksum
variable (archive : Text → Archive Content)

/-- What `tar` takes from the archive of a line: all of it for a directory, the member of that
name for a file. -/
def parcel (line : Text) : Parcel Text Content where
  place := placeOf line
  content r := (archive (cut 2 line)).member (if isDir line then r else placeOf line ++ r)
  proper := by
    intro r r' hr hr' hpre
    by_cases hdir : isDir line = true
    · rw [if_pos hdir] at hr hr'
      exact (archive (cut 2 line)).proper r r' hr hr' hpre
    · rw [if_neg hdir] at hr hr'
      have hpre' := (List.prefix_append_right_inj (placeOf line)).mpr hpre
      exact List.append_cancel_left ((archive (cut 2 line)).proper _ _ hr hr' hpre')

/-- What a command finds and what the programs that it calls answer. -/
structure Calls (Content : Type) where
  /-- Whether `files/HASH.gz` is readable. -/
  readable : Text → Bool
  /-- The files that portsnap makes itself in `PORTSDIR`. -/
  made : Tree Text Content
  /-- Whether `extract_indices` returns 0. -/
  indices : Bool

/-- `WORKDIR/INDEX`, `.portsnap.INDEX`, the files of `PORTSDIR`, and the history. -/
structure World (Content : Type) where
  index : Index
  record : Option (List Text)
  tree : Tree Text Content
  /-- Lines of the record whose files a failed update has removed. -/
  lost : List Text
  /-- Lines that failed updates have extracted and no update has removed. -/
  left : List Text
  /-- Whether the last command has returned 0. -/
  status : Option Bool

variable (tar : Archiver Text Content) (own : List (List Text))

/-- The loops that extract lines: whether they return 0, and the tree. -/
def extractLines (prepare : Text → Tree Text Content → Tree Text Content) (readable : Text → Bool) :
    Bool → Tree Text Content → List Text → Bool × Tree Text Content
  | last, t, [] => (last, t)
  | _, t, line :: lines =>
    if readable (cut 2 line) = false then (false, t)
    else
      let t := prepare line t
      extractLines prepare readable (tar.ok t (parcel archive line))
        (tar.unpack t (parcel archive line)) lines

/-- `rm -rf` for a directory, `rm -f` for a file. -/
def clearPlace (line : Text) (t : Tree Text Content) : Tree Text Content :=
  if isDir line then remove [placeOf line] t
  else fun x => if x = placeOf line then none else t x

/-- `extract_metadata` and `extract_indices` write their files. -/
def install (made : Tree Text Content) (t : Tree Text Content) : Tree Text Content :=
  fun x => if own.contains x then made x else t x

def extractRun (calls : Calls Content) (index : Index) (t : Tree Text Content) : World Content :=
  match extractLines archive tar clearPlace calls.readable true t index.lines with
  | (false, t) => ⟨index, none, t, [], [], some false⟩
  | (true, t) =>
    ⟨index, some (sort index.lines), install own calls.made t, [], [], some calls.indices⟩

/-- `comm -23`: the lines of the first file that have no partner in the second. -/
def comm23 (xs ys : List Text) : List Text := comm13 ys xs

/-- `update_run`, after `update_check_params` has looked for the record. -/
def updateRun (calls : Calls Content) (w : World Content) : World Content :=
  match w.record with
  | none => { w with status := some false }
  | some record =>
    let new := sort w.index.lines
    if new = record then { w with status := some true }
    else
      let dropped := comm23 record new
      let added := comm13 record new
      let left := w.left.filter fun l => dropped.all fun d => !(placeOf d).isPrefixOf (placeOf l)
      let t := remove (dropped.map placeOf) w.tree
      match extractLines archive tar (fun _ t => t) calls.readable true t added with
      | (false, t) => { w with
          tree := t
          lost := w.lost ++ dropped
          left := left ++ added.takeWhile fun l => calls.readable (cut 2 l)
          status := some false }
      | (true, t) => { w with
          record := some new
          tree := install own calls.made t
          lost := []
          left := left
          status := some calls.indices }

inductive Event (Content : Type) where
  | fetch (index : Index)
  | update (calls : Calls Content)

def step (w : World Content) : Event Content → World Content
  | .fetch index => { w with index := index, status := none }
  | .update calls => updateRun archive tar own calls w

/-- The tree matches its index. -/
def Matches (w : World Content) : Prop :=
  w.record = some (sort w.index.lines) ∧ ∀ l ∈ w.index.lines, Holds w.tree (parcel archive l)

/-- Files that `extract_run` has found and left where they were. -/
def Foreign (t : Tree Text Content) (index : Index) (x : List Text) : Prop :=
  t x ≠ none ∧ ∀ l ∈ index.lines, ¬ placeOf l <+: x

/-- The failed updates have kept what this one relies on, and have left nothing in its way. -/
structure Untouched (foreign : List Text → Prop) (w : World Content) (record : List Text) :
    Prop where
  kept : ∀ l ∈ w.index.lines, l ∈ record → l ∉ w.lost
  clear : ∀ l ∈ w.index.lines, l ∉ record → ∀ q ∈ w.left,
    (∀ d ∈ record, d ∉ w.index.lines → ¬ placeOf d <+: placeOf q) →
    Apart (placeOf q) (placeOf l) ∨ q = l
  free : ∀ l ∈ w.index.lines, l ∉ record → ∀ x, foreign x → Apart x (placeOf l)

/-- No line names a file that portsnap makes itself. -/
def NamesNoOwn (index : Index) : Prop := ∀ l ∈ index.lines, ∀ x ∈ own, Apart x (placeOf l)

/-- An update that finds all archives it needs finds the tree untouched. -/
def Ok (foreign : List Text → Prop) (w : World Content) : Event Content → Prop
  | .fetch index => NamesNoOwn own index
  | .update calls => ∀ record, w.record = some record →
      (∀ l ∈ w.index.lines, l ∉ record → calls.readable (cut 2 l) = true) →
      Untouched foreign w record

/-- Nothing that is there before stands in the way of `extract_run`. -/
structure Unobstructed (t : Tree Text Content) (index : Index) : Prop where
  above : ∀ l ∈ index.lines, ∀ x, t x ≠ none → x <+: placeOf l → x = placeOf l
  below : ∀ l ∈ index.lines, isDir l = false → ∀ x, t x ≠ none → placeOf l <+: x → x = placeOf l

end DeltaPorts.Portsnap.PortsTree

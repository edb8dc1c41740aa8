import DeltaPorts.Library.Loops
import DeltaPorts.Library.SortSearch
import Mathlib.Logic.Function.Basic

/-!
# `make_index`: from the ports' describe lines to the INDEX

The `PORT *` of the line number `i` is `i`. A `DEP` is a name in `Port.names` and a pointer
in `Memory.dep`.
-/

set_option autoImplicit false

namespace DeltaPorts.MakeIndex

abbrev Byte := UInt8
abbrev Bytes := List Byte

def bytes (s : String) : Bytes := s.toList.map fun c => UInt8.ofNat c.toNat

def newline : Byte := 10
def space : Byte := 32
def slash : Byte := 47
def bar : Byte := 124

inductive Failure where
  | errx (message : Bytes)
  | undefinedBehaviour
  | outOfFuel
  deriving DecidableEq

/-- A string ends before its first zero byte. -/
def cString (line : Bytes) : Bytes := line.takeWhile (· ≠ 0)

/-- The token and what is left of the string, which is null after the last token. -/
def strsep (c : Byte) : Option Bytes → Bytes × Option Bytes
  | none => ([], none)
  | some s =>
    match s.dropWhile (· ≠ c) with
    | [] => (s, none)
    | _ :: rest => (s.takeWhile (· ≠ c), some rest)

def strseps (c : Byte) : Nat → Option Bytes → List Bytes
  | 0, _ => []
  | n + 1, s => (strsep c s).1 :: strseps c n (strsep c s).2

/-- Plain `char` is signed. -/
def portcompare : Bytes → Bytes → Int
  | [], [] => 0
  | [], _ :: _ => -1
  | _ :: _, [] => 1
  | a :: as, b :: bs =>
    if a = b then portcompare as bs
    -- One string has a category which is a prefix of the other
    else if a = slash then -1
    else if b = slash then 1
    else if a.toInt8 < b.toInt8 then -1
    else 1

/-- Compares as `unsigned char`. Only the sign of the result is specified. -/
def strcmp : Bytes → Bytes → Int
  | [], [] => 0
  | [], _ :: _ => -1
  | _ :: _, [] => 1
  | a :: as, b :: bs => if a = b then strcmp as bs else if a < b then -1 else 1

/-- The five lists of dependencies of a port. -/
inductive Kind where
  | edep | pdep | fdep | bdep | rdep
  deriving DecidableEq

/-- In the order in which they are translated and recursed on. -/
def Kind.all : List Kind := [.edep, .pdep, .fdep, .bdep, .rdep]

def byKind {α : Type} (edep pdep fdep bdep rdep : α) : Kind → α
  | .edep => edep
  | .pdep => pdep
  | .fdep => fdep
  | .bdep => bdep
  | .rdep => rdep

structure Port where
  pkgname : Bytes
  portdir : Bytes
  installPrefix : Bytes
  comment : Bytes
  pkgdescr : Bytes
  maintainer : Bytes
  categories : Bytes
  names : Kind → List Bytes
  www : Bytes
  deriving Inhabited

/-- Strip trailing slashes. Of an empty name the byte before it would be read. -/
def stripSlash (name : Bytes) : Except Failure Bytes :=
  if name = [] then .error .undefinedBehaviour
  else if name.getLast? = some slash then .ok name.dropLast
  else .ok name

def makelist (str : Bytes) : Except Failure (List Bytes) :=
  if str = [] then .ok []
  else (strseps space (str.count space + 1) (some str)).mapM stripSlash

def portify (line : Bytes) : Except Failure Port := do
  if line.count bar ≠ 12 then
    throw (.errx (bytes "Port describe line is corrupt:\n" ++ line ++ bytes "\n"))
  let field := (strseps bar 13 (some line)).getD
  let edep ← makelist (field 7 [])
  let pdep ← makelist (field 8 [])
  let fdep ← makelist (field 9 [])
  let bdep ← makelist (field 10 [])
  let rdep ← makelist (field 11 [])
  return {
    pkgname := field 0 []
    portdir := field 1 []
    installPrefix := field 2 []
    comment := field 3 []
    pkgdescr := field 4 []
    maintainer := field 5 []
    categories := field 6 []
    names := byKind edep pdep fdep bdep rdep
    www := field 12 [] }

/-- The lines of a file, with their newlines. -/
def fgetlns : Bytes → List Bytes
  | [] => []
  | c :: f =>
    if c = newline then [c] :: fgetlns f
    else
      match fgetlns f with
      | [] => [[c]]
      | line :: rest => (c :: line) :: rest

def readLine (line : Bytes) : Except Failure Port :=
  if line.getLast? ≠ some newline then .error (.errx (bytes "Unterminated line encountered"))
  else portify (cString line.dropLast)

section Ports

variable (ports : Nat → Port)

def portless (p q : Nat) : Bool := portcompare (ports p).portdir (ports q).portdir < 0

def pkgless (p q : Nat) : Bool := strcmp (ports p).pkgname (ports q).pkgname < 0

def sortports (pp : List Nat) : List Nat := HeapSort.sort (portless ports) pp

def sortpkgs (d : List Nat) : List Nat := HeapSort.sort (pkgless ports) d

def findport (pp : List Nat) (name origin : Bytes) : Except Failure Nat :=
  match BinarySearch.search (fun mid => portcompare (ports (pp.getD mid 0)).portdir name)
      (pp.length + 1) 0 pp.length with
  | some mid => .ok (pp.getD mid 0)
  | none => .error (.errx (origin ++ bytes ": no entry for " ++ name))

def translateport (pp : List Nat) (p : Port) : Except Failure (Kind → List Nat) := do
  let find := fun name => findport ports pp name p.portdir
  let edep ← (p.names .edep).mapM find
  let pdep ← (p.names .pdep).mapM find
  let fdep ← (p.names .fdep).mapM find
  let bdep ← (p.names .bdep).mapM find
  let rdep ← (p.names .rdep).mapM find
  return byKind edep pdep fdep bdep rdep

def translateports (pp : List Nat) : Except Failure (Nat → Kind → List Nat) :=
  pp.foldlM (fun dep p => do
    let d ← translateport ports pp (ports p)
    return Function.update dep p d) fun _ _ => []

/-- The values 0, 1 and 2 of `recursed`. -/
inductive Recursed where
  | fresh | inProgress | done
  deriving DecidableEq

/-- What changes in the ports while the dependencies are followed. -/
structure Memory where
  dep : Nat → Kind → List Nat
  recursed : Nat → Recursed

def Memory.mark (m : Memory) (p : Nat) (r : Recursed) : Memory :=
  { m with recursed := Function.update m.recursed p r }

def Memory.setDep (m : Memory) (p : Nat) (k : Kind) (d : List Nat) : Memory :=
  { m with dep := Function.update m.dep p (Function.update (m.dep p) k d) }

/-- The loop runs over the dependencies that the list has at its beginning. -/
def recurseOne (recurse : Nat → Memory → Except Failure Memory) (d : List Nat) (m : Memory) :
    Except Failure (List Nat × Memory) :=
  d.foldlM (fun s x => do
    let m ← recurse x s.2
    return ((m.dep x .rdep).foldl Loops.addNew s.1, m)) (d, m)

/-- `p->edep = recurse_one(p->edep, &p->n_edep)`, and so for each kind. -/
def recurseKind (recurse : Nat → Memory → Except Failure Memory) (p : Nat) (m : Memory)
    (k : Kind) : Except Failure Memory := do
  let s ← recurseOne recurse (m.dep p k) m
  return s.2.setDep p k s.1

def recurse : Nat → Nat → Memory → Except Failure Memory
  | 0, _, _ => .error .outOfFuel
  | fuel + 1, p, m =>
    match m.recursed p with
    | .inProgress => .error (.errx (bytes "Circular dependency loop found: " ++ (ports p).pkgname ++
        bytes " depends upon itself.\n"))
    | .done => .ok m
    | .fresh => do
      let m ← Kind.all.foldlM (recurseKind (recurse fuel) p) (m.mark p .inProgress)
      return m.mark p .done

def printlist (d : List Nat) : Bytes := [space].intercalate (d.map fun p => (ports p).pkgname)

def printport (dep : Kind → List Nat) (p : Port) : Bytes :=
  p.pkgname ++ bar :: p.portdir ++ bar :: p.installPrefix ++ bar :: p.comment ++
  bar :: p.pkgdescr ++ bar :: p.maintainer ++ bar :: p.categories ++ [bar] ++
  printlist ports (sortpkgs ports (dep .bdep)) ++ [bar] ++
  printlist ports (sortpkgs ports (dep .rdep)) ++ [bar] ++
  p.www ++ [bar] ++
  printlist ports (sortpkgs ports (dep .edep)) ++ [bar] ++
  printlist ports (sortpkgs ports (dep .pdep)) ++ [bar] ++
  printlist ports (sortpkgs ports (dep .fdep)) ++ [newline]

/-- The steps of `main` from the sorting on, for the ports 0 to `pplen - 1`. -/
def printindex (pplen : Nat) : Except Failure Bytes := do
  let pp := sortports ports (List.range pplen)
  let dep ← translateports ports pp
  let m ← pp.foldlM (fun m p => recurse ports (pplen + 1) p m) ⟨dep, fun _ => .fresh⟩
  return pp.flatMap fun p => printport ports (m.dep p) (ports p)

end Ports

/-- The INDEX that is printed for the file of describe lines. -/
def main (file : Bytes) : Except Failure Bytes := do
  let lines ← (fgetlns file).mapM readLine
  if lines.isEmpty then return []
  printindex (fun p => lines.getD p default) lines.length

end DeltaPorts.MakeIndex

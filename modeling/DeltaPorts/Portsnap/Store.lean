import DeltaPorts.Library.LineTools
import DeltaPorts.Library.Script
import DeltaPorts.Library.Shell
import Mathlib.Logic.Function.Basic

/-!
# The work directory of portsnap

The store is what a finished fetch leaves: the tag, the two index files and the compressed
files. The directory holds besides what a fetch has brought so far.
-/

set_option autoImplicit false

namespace DeltaPorts.Portsnap

open LineTools

abbrev Bytes := Text

/-- The files of a directory; for a file server, what it answers. -/
abbrev Members := Text → Option Bytes

def isHexDigit (c : Char) : Bool := c.isDigit || (c.toNat ≥ 97 && c.toNat ≤ 102)

def isHash (h : Text) : Bool := h.length == 64 && h.all isHexDigit

/-- A letter, a digit, a dot, an underscore, a bar or a blank. -/
def isTagChar (c : Char) : Bool := c.isAlphanum || "._| \t\n".toList.contains c

/-- The programs that portsnap calls. -/
structure Tools where
  /-- The length of a checksum is left open, so that different files can have different ones. -/
  sha256 : Bytes → Text
  sha256_hex : ∀ b, (sha256 b).all isHexDigit = true
  gunzip : Bytes → Bytes
  gzip : Bytes → Bytes
  gunzip_gzip : ∀ b, gunzip (gzip b) = b
  bspatch : Bytes → Bytes → Option Bytes
  /-- What `openssl rsautl -verify` prints, for a key and a signature. The scripts leave the fields
  of it unquoted: they rely on it that no patterns, addresses or operators are signed. -/
  verify : Bytes → Bytes → Bytes
  verify_plain : ∀ k signature, (verify k signature).all isTagChar = true
  look : Text → Bytes → List Text
  look_subset : ∀ w x, ∀ l ∈ look w x, l ∈ lines x ∧ w <+: l

/-- The checksum of a file that is not listed is longer than a hash. -/
def unlistedSum (b : Bytes) : Text :=
  List.replicate 65 'f' ++ b.flatMap fun c => List.replicate c.toNat 'e' ++ ['f']

theorem unlistedSum_hex (b : Bytes) : (unlistedSum b).all isHexDigit = true := by
  have hf : isHexDigit 'f' = true := by decide
  have he : isHexDigit 'e' = true := by decide
  simp [unlistedSum, hf, he]

/-- Programs known by what they print for some inputs. Files compressed by this `gzip` begin with
an `x`. -/
def tableTools (sums zips signed : List (Bytes × Bytes)) (key : Bytes) : Tools where
  sha256 b := ((sums.lookup b).filter (·.all isHexDigit)).getD (unlistedSum b)
  sha256_hex := by
    intro b
    cases hsum : (sums.lookup b).filter (·.all isHexDigit) with
    | none => exact unlistedSum_hex b
    | some sum => exact (Option.filter_eq_some_iff.mp hsum).2
  gunzip
    | 'x' :: b => b
    | b => (zips.lookup b).getD []
  gzip b := 'x' :: b
  gunzip_gzip _ := rfl
  bspatch _ _ := none
  verify k signature :=
    if k = key then ((signed.lookup signature).filter (·.all isTagChar)).getD [] else []
  verify_plain := by
    intro k signature
    split
    · cases htext : (signed.lookup signature).filter (·.all isTagChar) with
      | none => rfl
      | some text => exact (Option.filter_eq_some_iff.mp htext).2
    · rfl
  look w x := (lines x).filter w.isPrefixOf
  look_subset := by
    intro w x l hl
    obtain ⟨hmem, hpre⟩ := List.mem_filter.mp hl
    exact ⟨hmem, List.isPrefixOf_iff_prefix.mp hpre⟩

structure Config where
  keyprint : Text
  /-- The lines that `grep -E "${REFUSE}"` prints; `none` if `REFUSE` is empty. -/
  refuse : Option (Text → Bool)

inductive Which where
  | snapshot
  | latest
  deriving DecidableEq

structure Store where
  tag : Option Bytes
  tINDEX : Option Bytes
  INDEX : Option Bytes
  files : Option Members

structure Dir extends Store where
  pub : Option Bytes
  ssl : Which → Option Bytes
  tagNew : Option Bytes
  tINDEXnew : Option Bytes
  INDEXnew : Option Bytes
  snap : Option Members
  fetched : Members

/-- What the servers send during one run: one answer after the other where portsnap goes on to
the next server, one answer for a name elsewhere. -/
structure Server where
  now : Nat
  pubs : List (Option Bytes)
  ssls : Which → List (Option Bytes)
  metadata : Members
  tarball : Text → Option Members
  metadataPatches : Members
  metadataFiles : Members
  portsPatches : Members
  portsFiles : Members

def gz (h : Text) : Text := h ++ ".gz".toList

/-- `^[0-9A-Z.]+\|[0-9a-f]{64}$` -/
def isMetaChar (c : Char) : Bool := c.isDigit || c.isUpper || c == '.'

/-- `^[-_+./@0-9A-Za-z]+\|[0-9a-f]{64}$` -/
def isIndexChar (c : Char) : Bool := c.isAlphanum || "-_+./@".toList.contains c

def isLine (isPathChar : Char → Bool) (l : Text) : Bool :=
  match l.splitOn '|' with
  | [path, hash] => path != [] && path.all isPathChar && isHash hash
  | _ => false

def metadataLines (x : Bytes) : Bool := (lines x).all (isLine isMetaChar)

def indexLines (x : Bytes) : Bool := (lines x).all (isLine isIndexChar)

/-- `cut -f 2 -d '|'` -/
def hashes (x : Bytes) : List Text := (lines x).map (cut 2)

namespace Store

def stored (s : Store) (name : Text) : Option Bytes := s.files.bind (· name)

/-- The hashes of `tINDEX` and `INDEX`, as often as they stand there. -/
def named (s : Store) : List Text := hashes (s.tINDEX.getD []) ++ hashes (s.INDEX.getD [])

def Complete (s : Store) : Prop := ∀ h ∈ s.named, s.stored (gz h) ≠ none

/-- The store is there, and its index files are lists of paths and hashes. -/
structure Ready (s : Store) : Prop where
  tag : s.tag ≠ none
  tINDEX : ∃ x, s.tINDEX = some x ∧ metadataLines x = true
  INDEX : ∃ i, s.INDEX = some i ∧ indexLines i = true
  files : s.files ≠ none

end Store

theorem isHash_cut {p : Char → Bool} {l : Text} (h : isLine p l = true) : isHash (cut 2 l) = true := by
  unfold isLine at h
  unfold cut
  split at h
  · rename_i path hash heq
    simp only [Bool.and_eq_true] at h
    simp [heq, h.2]
  · cases h

theorem field_eq_cut {p : Char → Bool} {l : Text} (h : isLine p l = true) : field 2 l = cut 2 l := by
  unfold isLine at h
  unfold cut field
  split at h
  · rename_i path hash heq
    simp [heq]
  · cases h

theorem isHash_of_mem_hashes {p : Char → Bool} {x : Bytes}
    (hx : (lines x).all (isLine p) = true) {h : Text} (hh : h ∈ hashes x) : isHash h = true := by
  obtain ⟨l, hl, rfl⟩ := List.mem_map.mp hh
  exact isHash_cut (List.all_eq_true.mp hx l hl)

theorem Store.Ready.isHash_of_mem_named {s : Store} (hs : s.Ready) {h : Text} (hh : h ∈ s.named) :
    isHash h = true := by
  obtain ⟨x, hx, hxlines⟩ := hs.tINDEX
  obtain ⟨i, hi, hilines⟩ := hs.INDEX
  rw [Store.named, hx, hi, List.mem_append] at hh
  rcases hh with hh | hh
  · exact isHash_of_mem_hashes hxlines hh
  · exact isHash_of_mem_hashes hilines hh

theorem gz_injective : Function.Injective gz := fun _ _ h => List.append_cancel_right h

/-- No file name ending in `.gz` is a hash. -/
theorem isHash_gz (h : Text) (hh : isHash h = true) : isHash (gz h) = false := by
  simp only [isHash, Bool.and_eq_true, beq_iff_eq] at hh
  simp [isHash, gz, hh.1]

theorem dash_not_mem_gz {h : Text} (hh : isHash h = true) : '-' ∉ gz h := by
  simp only [isHash, Bool.and_eq_true, List.all_eq_true] at hh
  intro hmem
  rcases List.mem_append.mp hmem with hmem | hmem
  · exact absurd (hh.2 _ hmem) (by decide)
  · exact absurd hmem (by decide)

end DeltaPorts.Portsnap

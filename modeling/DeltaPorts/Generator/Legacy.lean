import DeltaPorts.Library.Awk
import DeltaPorts.Library.FileTree
import Mathlib.Data.Finset.Sort
import Mathlib.Data.List.Infix
import Mathlib.Data.List.Lex
import Mathlib.Order.Lex
import Mathlib.Data.Char

/-!
# Legacy files

`get_legacy`, `transform` and `fast_and_filtered`, which `merge.sh` and `sync1.sh` each carry
a copy of: a port directory whose makefiles mention an old architecture name or `libomp` is
copied through the work area and filtered, every other one is copied as it is.
-/

set_option autoImplicit false

namespace DeltaPorts.Generator

abbrev Content := List Char

/-- Characters at which the shell splits or expands an unquoted word, or ends a name. -/
def special (c : Char) : Bool :=
  c = ' ' || c = '\t' || c = '\n' || c = '*' || c = '?' || c = '[' || c = '\\' || c = '/'

def plainName (l : List Char) : Bool :=
  !l.isEmpty && l.all (!special ·) && l ≠ ['.'] && l ≠ ['.', '.'] && l.head? ≠ some '-'

/-- A file name that the shell passes on unchanged as a word and that no command takes for an
option: `grep` and `find` get the names that `*` expands to as they are, so that `-x.common`
would stop them. -/
structure Name where
  chars : List Char
  plain : plainName chars = true
  deriving DecidableEq

namespace Name

theorem chars_injective : Function.Injective Name.chars := by
  rintro ⟨a, ha⟩ ⟨b, hb⟩ h
  simp only at h
  subst h
  rfl

instance : LinearOrder Name := LinearOrder.lift' Name.chars chars_injective

theorem not_special (n : Name) {c : Char} (hc : c ∈ n.chars) : special c = false := by
  have hplain := n.plain
  simp only [plainName, Bool.and_eq_true, List.all_eq_true] at hplain
  simpa using hplain.1.1.1.2 c hc

theorem chars_ne_nil (n : Name) : n.chars ≠ [] := by
  intro hnil
  have hplain := n.plain
  rw [hnil] at hplain
  exact absurd hplain (by decide)

theorem chars_plain (n : Name) : Awk.Plain n.chars ∧ n.chars ≠ [] := by
  refine ⟨fun c hc => ?_, n.chars_ne_nil⟩
  have hspecial := n.not_special hc
  simp only [special, Bool.or_eq_false_iff] at hspecial
  simp [Awk.isBlank, hspecial]

theorem slash_not_mem (n : Name) : '/' ∉ n.chars := by
  intro h
  exact absurd (n.not_special h) (by decide)

/-- The glob `*` passes over names that start with a dot. -/
def hidden (n : Name) : Bool := n.chars.head? = some '.'

theorem plain_append {l ext : List Char} (hl : plainName l = true)
    (hext : ext.all (!special ·) = true) (hlen : 2 ≤ ext.length) : plainName (l ++ ext) = true := by
  have hne : l ≠ [] := by
    rintro rfl
    cases hl
  simp only [plainName, Bool.and_eq_true, decide_eq_true_eq] at hl
  obtain ⟨⟨⟨⟨_, hall⟩, _⟩, _⟩, hdash⟩ := hl
  have hpos := List.length_pos_of_ne_nil hne
  have hlong : 3 ≤ (l ++ ext).length := by
    rw [List.length_append]
    omega
  simp only [plainName, Bool.and_eq_true, decide_eq_true_eq, Bool.not_eq_true']
  refine ⟨⟨⟨⟨?_, ?_⟩, ?_⟩, ?_⟩, ?_⟩
  · simp [hne]
  · rw [List.all_append, hall, hext]
    rfl
  · intro h
    rw [h] at hlong
    exact absurd hlong (by decide)
  · intro h
    rw [h] at hlong
    exact absurd hlong (by decide)
  · rw [List.head?_append_of_ne_nil l hne]
    exact hdash

/-- `${item}.filtered`, the file that `transform` writes before it renames it. -/
def filtered (n : Name) : Name :=
  ⟨n.chars ++ ".filtered".toList, plain_append n.plain (by decide) (by decide)⟩

theorem filtered_ne (n : Name) : n.filtered ≠ n := by
  intro h
  have hlen := congrArg (fun m : Name => m.chars.length) h
  simp only [filtered, List.length_append] at hlen
  have : ".filtered".toList.length = 9 := by decide
  omega

end Name

abbrev Path := Name × List Name

abbrev Tree := FileTree Name Content

/-- The globs `Makefile*` and `*\.common`. -/
def legacyName (n : Name) : Bool :=
  "Makefile".toList.isPrefixOf n.chars ||
    (!n.hidden && ".common".toList.isSuffixOf n.chars)

/-- `grep -lE 'amd64|libomp'`. -/
def legacyContent (c : Content) : Bool :=
  "amd64".toList <:+: c || "libomp".toList <:+: c

/-- The top-level files of a directory that the globs name and that `grep` lists. -/
def legacyPaths (dir : Tree) : Finset Path :=
  dir.paths.filter fun p => p.2 = [] && legacyName p.1 && (dir.file p).any legacyContent

/-- `get_legacy`. -/
def getLegacy (dir : Tree) : List Name := ((legacyPaths dir).image Prod.fst).sort (· ≤ ·)

theorem mem_getLegacy {dir : Tree} {n : Name} :
    n ∈ getLegacy dir ↔
      legacyName n = true ∧ ∃ c, dir.file (n, []) = some c ∧ legacyContent c = true := by
  simp only [getLegacy, Finset.mem_sort, Finset.mem_image, legacyPaths, Finset.mem_filter,
    Bool.and_eq_true, decide_eq_true_eq, Option.any_eq_true]
  constructor
  · rintro ⟨⟨m, rest⟩, ⟨_, ⟨hrest, hname⟩, c, hc, hcontent⟩, rfl⟩
    simp only at hrest
    subst hrest
    exact ⟨hname, c, hc, hcontent⟩
  · rintro ⟨hname, c, hc, hcontent⟩
    exact ⟨(n, []), ⟨FileTree.mem_paths_iff.mpr ⟨c, hc⟩, ⟨rfl, hname⟩, c, hc, hcontent⟩, rfl⟩

/-- Only the files that mention an old name count. -/
theorem getLegacy_congr {s t : Tree}
    (h : ∀ p, (s.file p).any legacyContent = (t.file p).any legacyContent) :
    getLegacy s = getLegacy t := by
  have hpaths : legacyPaths s = legacyPaths t := by
    apply Finset.ext
    intro p
    have hmem : ∀ dir : Tree, p ∈ legacyPaths dir ↔
        (p.2 = [] ∧ legacyName p.1 = true) ∧ (dir.file p).any legacyContent = true := by
      intro dir
      simp only [legacyPaths, Finset.mem_filter, Bool.and_eq_true, decide_eq_true_eq,
        FileTree.mem_paths]
      constructor
      · exact fun h => h.2
      · refine fun h => ⟨?_, h⟩
        obtain ⟨c, hc, _⟩ := (Option.any_eq_true _ _).mp h.2
        rw [hc]
        rfl
    rw [hmem, hmem, h]
  unfold getLegacy
  rw [hpaths]

/-- An element of a pattern: a character, or the `.` that stands for any. -/
inductive Atom where
  | chr (c : Char)
  | any
  deriving DecidableEq

def Atom.accepts : Atom → Char → Bool
  | .chr a, c => a = c
  | .any, _ => true

def pattern (s : String) : List Atom := s.toList.map fun c => if c = '.' then .any else .chr c

def startsWith : List Atom → List Char → Bool
  | [], _ => true
  | _ :: _, [] => false
  | a :: as, c :: cs => a.accepts c && startsWith as cs

def wordChar (c : Char) : Bool := c.isAlphanum || c = '_'

/-- `s|pat|repl|g`; `wordEnd` says that the pattern ends in `[[:>:]]`. -/
structure Subst where
  pat : List Atom
  wordEnd : Bool
  repl : List Char

def Subst.matchesAt (s : Subst) (l : List Char) : Bool :=
  startsWith s.pat l && (!s.wordEnd || (l.drop s.pat.length).head?.all (!wordChar ·))

/-- Replace from the left; the number counts the characters of a match still to be skipped. -/
def Subst.run (s : Subst) : Nat → List Char → List Char
  | _, [] => []
  | n + 1, _ :: l => s.run n l
  | 0, c :: l =>
    if s.matchesAt (c :: l) then s.repl ++ s.run (s.pat.length - 1) l else c :: s.run 0 l

def plainSubst (pat repl : String) : Subst := ⟨pattern pat, false, repl.toList⟩

/-- The address `/ARCH}.*(amd64|"amd64")/`. -/
def archAddress (l : List Char) : Bool :=
  l.tails.any fun t => "ARCH\x7d".toList.isPrefixOf t && "amd64".toList <:+: t.drop 5

def sedLine (l : List Char) : List Char :=
  let l := (plainSubst "OPTIONS_DEFAULT_amd64" "OPTIONS_DEFAULT_x86_64").run 0 l
  let l := (plainSubst "OPTIONS_DEFINE_amd64" "OPTIONS_DEFINE_x86_64").run 0 l
  let l := (plainSubst "BROKEN_amd64" "BROKEN_x86_64").run 0 l
  let l := (plainSubst "_ON_amd64" "_ON_x86_64").run 0 l
  let l := (plainSubst "_OFF_amd64" "_OFF_x86_64").run 0 l
  let l := (plainSubst "CFLAGS_amd64" "CFLAGS_x86_64").run 0 l
  let l := (plainSubst "\x7bARCH:Mamd64\x7d" "\x7bARCH:Mx86_64\x7d").run 0 l
  let l := (plainSubst "_amd64=" "_x86_64=").run 0 l
  let l := if archAddress l then (plainSubst "amd64" "x86_64").run 0 l else l
  let l := (⟨pattern "libomp.so:devel/openmp", true, []⟩ : Subst).run 0 l
  (⟨pattern "libomp.so.0:devel/openmp", true, []⟩ : Subst).run 0 l

/-- The sed program of `transform`, line by line. -/
def sedProgram (c : Content) : Content := List.intercalate ['\n'] ((c.splitOn '\n').map sedLine)

/-- One turn of the loop of `transform`. -/
def transformItem (work : Tree) (item : Name) : Tree :=
  -- a directory under the temporary name can neither be written nor renamed over the item
  if work.IsDir (item.filtered, []) then work
  else
    let content := sedProgram ((work.file (item, [])).getD [])
    let written := work.insert (item.filtered, []) content
    (written.erase (item.filtered, [])).insert (item, []) content

def transform (work : Tree) (legacy : List Name) : Tree := legacy.foldl transformItem work

theorem file_transformItem_of_ne {work : Tree} {item : Name} {p : Path}
    (hitem : p ≠ (item, [])) (hfiltered : p ≠ (item.filtered, [])) :
    (transformItem work item).file p = work.file p := by
  unfold transformItem
  split
  · rfl
  · rw [FileTree.file_insert_of_ne hitem, FileTree.file_erase, if_neg hfiltered,
      FileTree.file_insert_of_ne hfiltered]

/-- The filter touches legacy files and its own temporary files, and nothing else. -/
theorem file_transform_of_not_mem {work : Tree} {legacy : List Name} {p : Path}
    (h : ∀ n ∈ legacy, p ≠ (n, []) ∧ p ≠ (n.filtered, [])) :
    (transform work legacy).file p = work.file p := by
  induction legacy generalizing work with
  | nil => rfl
  | cons n legacy ih =>
    obtain ⟨h₁, h₂⟩ := h n List.mem_cons_self
    have htail := @ih (transformItem work n) fun m hm => h m (List.mem_cons_of_mem n hm)
    change (transform (transformItem work n) legacy).file p = _
    rw [htail, file_transformItem_of_ne h₁ h₂]

theorem file_transformItem {work : Tree} {item : Name} (h : ¬ work.IsDir (item.filtered, []))
    (p : Path) :
    (transformItem work item).file p =
      if p = (item, []) ∧ ¬ work.IsDir (item, []) then
        some (sedProgram ((work.file (item, [])).getD []))
      else if p = (item.filtered, []) then none else work.file p := by
  have hblocked : ((work.insert (item.filtered, []) (sedProgram ((work.file (item, [])).getD [])))
      |>.erase (item.filtered, [])).Blocked (item, []) ↔ work.IsDir (item, []) := by
    rw [FileTree.blocked_top]
    apply FileTree.isDir_congr
    intro q hq
    have hne : q ≠ (item.filtered, []) := fun heq => FileTree.not_below_top _ _ (heq ▸ hq)
    rw [FileTree.file_erase, if_neg hne, FileTree.file_insert_of_ne hne]
  unfold transformItem
  rw [if_neg h]
  simp only [FileTree.file_insert, hblocked, FileTree.file_erase]
  split
  · rfl
  · split
    · rfl
    · rename_i hne
      rw [if_neg (fun h => hne h.1)]

/-- Two trees that differ in temporary files of the legacy items only are filtered alike. -/
theorem transform_congr {legacy : List Name} {s t : Tree}
    (hitem : ∀ n ∈ legacy, s.file (n, []) = t.file (n, []))
    (hrest : ∀ p, s.file p = t.file p ∨ ∃ n ∈ legacy, p = (n.filtered, [])) :
    transform s legacy = transform t legacy := by
  induction legacy generalizing s t with
  | nil =>
    apply FileTree.ext
    intro p
    exact (hrest p).resolve_right (by simp)
  | cons item legacy ih =>
    have hdir : ∀ p, s.IsDir p ↔ t.IsDir p := by
      intro p
      apply FileTree.isDir_congr
      intro q hq
      refine (hrest q).resolve_right ?_
      rintro ⟨n, _, rfl⟩
      exact FileTree.not_below_top _ _ hq
    change transform (transformItem s item) legacy = transform (transformItem t item) legacy
    by_cases hskip : s.IsDir (item.filtered, [])
    · have hs : transformItem s item = s := if_pos hskip
      have ht : transformItem t item = t := if_pos ((hdir _).mp hskip)
      rw [hs, ht]
      have hnone : s.file (item.filtered, []) = t.file (item.filtered, []) := by
        rw [FileTree.file_of_blocked hskip.blocked,
          FileTree.file_of_blocked ((hdir _).mp hskip).blocked]
      apply ih (fun n hn => hitem n (List.mem_cons_of_mem item hn))
      intro p
      rcases hrest p with heq | ⟨n, hn, rfl⟩
      · exact Or.inl heq
      · rcases List.mem_cons.mp hn with rfl | hn
        · exact Or.inl hnone
        · exact Or.inr ⟨n, hn, rfl⟩
    · have hskip' : ¬ t.IsDir (item.filtered, []) := fun h => hskip ((hdir _).mpr h)
      have hcontent := hitem item List.mem_cons_self
      have hfile : ∀ p, s.file p = t.file p →
          (transformItem s item).file p = (transformItem t item).file p := by
        intro p hp
        rw [file_transformItem hskip, file_transformItem hskip', hcontent, hp]
        simp only [hdir]
      apply ih
      · intro n hn
        exact hfile _ (hitem n (List.mem_cons_of_mem item hn))
      · intro p
        rcases hrest p with heq | ⟨n, hn, rfl⟩
        · exact Or.inl (hfile p heq)
        · rcases List.mem_cons.mp hn with rfl | hn
          · left
            have hne : (n.filtered, ([] : List Name)) ≠ (n, []) := by
              intro h
              exact n.filtered_ne (congrArg Prod.fst h)
            rw [file_transformItem hskip, file_transformItem hskip']
            simp [hne]
          · exact Or.inr ⟨n, hn, rfl⟩

/-- `fast_and_filtered`: the destination, and the work area afterwards. -/
def fastAndFiltered (orig work : Tree) : Tree × Tree :=
  let legacy := getLegacy orig
  if legacy = [] then (orig, work)
  else
    let copied := (orig.star Name.hidden).overlay (work.clear Name.hidden)
    let work' := transform copied legacy
    (work', work')

end DeltaPorts.Generator

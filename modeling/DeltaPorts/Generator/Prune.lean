import DeltaPorts.Generator.Legacy
import DeltaPorts.Library.LineTools
import DeltaPorts.Library.Shell
import Mathlib.Data.Finset.Union

/-!
# prune.sh

`prune.sh confirm` compares the port directories of `DPORTS` with those of `MERGED`, and those of
`DELTA/ports` with those of `FPORTS`, and removes with `git rm -r` what is obsolete. All files of
the two repositories are committed.
-/

set_option autoImplicit false

namespace DeltaPorts.Generator.Prune

open FileTree

structure PortDir where
  category : Name
  port : Name
  deriving DecidableEq

namespace PortDir

/-- As `find` prints it. -/
def text (d : PortDir) : List Char := d.category.chars ++ '/' :: d.port.chars

def path (d : PortDir) : Path := (d.category, [d.port])

theorem text_injective : Function.Injective text := by
  intro d e h
  have hd := List.splitOn_append_cons_self_of_not_mem d.category.slash_not_mem d.port.chars
  have he := List.splitOn_append_cons_self_of_not_mem e.category.slash_not_mem e.port.chars
  rw [List.splitOn_eq_singleton d.port.slash_not_mem] at hd
  rw [List.splitOn_eq_singleton e.port.slash_not_mem] at he
  rw [text, text] at h
  rw [h, he] at hd
  obtain ⟨c, p⟩ := d
  obtain ⟨c', p'⟩ := e
  simp only [List.cons.injEq, and_true] at hd
  rw [Name.chars_injective hd.1, Name.chars_injective hd.2]

instance : LinearOrder PortDir := LinearOrder.lift' text text_injective

end PortDir

/-- `find *` passes over the categories that the glob does not name; a `Name` is none of its
options. -/
def portDirs (t : Tree) : Finset PortDir :=
  t.paths.biUnion fun p =>
    match p with
    | (category, port :: _ :: _) => if category.hidden then ∅ else {⟨category, port⟩}
    | _ => ∅

/-- `find * -type d -depth 1 -maxdepth 1 | sort` -/
def find (t : Tree) : List PortDir := (portDirs t).sort (· ≤ ·)

/-- `^(Templates/|Tools/|Mk/)` -/
def exclude (d : PortDir) : Bool :=
  ["Templates/".toList, "Tools/".toList, "Mk/".toList].any fun s => s.isPrefixOf d.text

/-- `git rm -r` -/
def gitRm (d : PortDir) (t : Tree) : Tree := t.restrict fun p => !decide (Below p d.path)

def killDirectory (confirm : Bool) (d : PortDir) (dports : Tree) : Tree :=
  if confirm then gitRm d dports else dports

def killDeltaport (confirm : Bool) (d : PortDir) (delta : Tree) : Tree :=
  if confirm then gitRm d delta else delta

/-- `grep -Fx ${portdir} list` -/
def look (d : PortDir) (list : List PortDir) : List Char :=
  Shell.captured ((list.map PortDir.text).filter (· = d.text))

def statusName : Name := ⟨"STATUS".toList, by decide⟩

/-- `${DELTA}/ports/${portdir}/STATUS` -/
def statusFile (delta : Tree) (d : PortDir) : Option Content :=
  delta.file (d.category, [d.port, statusName])

/-- `^(MASK|PORT)` -/
def marked (line : List Char) : Bool :=
  "MASK".toList.isPrefixOf line || "PORT".toList.isPrefixOf line

def pruneDPorts (confirm : Bool) (dports merged : Tree) : Tree :=
  let portdirs := (find dports).filter (!exclude ·)
  let prlist := (find merged).filter (!exclude ·)
  portdirs.foldl
    (fun t d => if look d prlist = [] then killDirectory confirm d t else t) dports

def pruneDelta (confirm : Bool) (delta fports : Tree) : Tree :=
  let dtdirs := find delta
  let pdlist := (find fports).filter (!exclude ·)
  dtdirs.foldl
    (fun t d =>
      if look d pdlist = [] then
        match statusFile t d with
        | some sfile =>
          if Shell.captured ((LineTools.lines sfile).filter marked) ≠ [] then
            killDeltaport confirm d t
          else t
        | none => t
      else t) delta

/-- Of the files of `t` those below a chosen port directory are gone, and all others are as they
were. -/
def Removed (chosen : PortDir → Prop) (t t' : Tree) : Prop :=
  ∀ p, (∀ d, chosen d → ¬ Below p d.path) ∧ t'.file p = t.file p ∨
    (∃ d, chosen d ∧ Below p d.path) ∧ t'.file p = none

/-- A port that FreeBSD has removed. -/
def ObsoleteDPort (dports merged : Tree) (d : PortDir) : Prop :=
  d ∈ portDirs dports ∧ exclude d = false ∧ d ∉ portDirs merged

/-- `MASK` or `PORT` is the first word of the first line. -/
def FromFreeBSD (sfile : Content) : Prop :=
  Awk.field 1 ((LineTools.lines sfile).head?.getD []) ∈ ["MASK".toList, "PORT".toList]

/-- A delta port without files of its own for a port that FreeBSD has removed. -/
def ObsoleteDelta (delta fports : Tree) (d : PortDir) : Prop :=
  d ∈ portDirs delta ∧ d ∉ portDirs fports ∧ ∃ sfile, statusFile delta d = some sfile ∧
    FromFreeBSD sfile

structure PrunesObsolete (dports delta fports merged : Tree) : Prop where
  dports : Removed (ObsoleteDPort dports merged) dports (pruneDPorts true dports merged)
  delta : Removed (ObsoleteDelta delta fports) delta (pruneDelta true delta fports)

theorem below_path_iff {p : Path} {d : PortDir} :
    Below p d.path ↔ ∃ n rest, p = (d.category, d.port :: n :: rest) := by
  obtain ⟨top, names⟩ := p
  constructor
  · intro h
    obtain ⟨htop, ⟨rest, hrest⟩, hne⟩ := h
    simp only [PortDir.path, List.singleton_append] at htop hrest hne
    subst htop hrest
    cases rest with
    | nil => exact absurd rfl hne
    | cons n rest => exact ⟨n, rest, rfl⟩
  · intro h
    obtain ⟨n, rest, h⟩ := h
    cases h
    refine ⟨rfl, ⟨n :: rest, rfl⟩, ?_⟩
    simp [PortDir.path]

theorem eq_of_below {p : Path} {d e : PortDir} (hd : Below p d.path) (he : Below p e.path) :
    d = e := by
  obtain ⟨n, rest, rfl⟩ := below_path_iff.mp hd
  obtain ⟨n', rest', h⟩ := below_path_iff.mp he
  obtain ⟨c, q⟩ := d
  obtain ⟨c', q'⟩ := e
  cases h
  rfl

theorem mem_portDirs {t : Tree} {d : PortDir} :
    d ∈ portDirs t ↔ d.category.hidden = false ∧ t.IsDir d.path := by
  unfold portDirs
  rw [Finset.mem_biUnion]
  constructor
  · intro h
    obtain ⟨p, hp, hd⟩ := h
    split at hd
    · rename_i category port n rest
      split at hd
      · cases Finset.notMem_empty _ hd
      · rename_i hhidden
        rw [Finset.mem_singleton.mp hd]
        exact ⟨by simpa using hhidden, _, hp, below_path_iff.mpr ⟨n, rest, rfl⟩⟩
    · cases Finset.notMem_empty _ hd
  · intro h
    obtain ⟨hhidden, p, hp, hbelow⟩ := h
    obtain ⟨n, rest, rfl⟩ := below_path_iff.mp hbelow
    refine ⟨_, hp, ?_⟩
    simp [hhidden]

theorem mem_find {t : Tree} {d : PortDir} : d ∈ find t ↔ d ∈ portDirs t := Finset.mem_sort (· ≤ ·)

theorem look_eq_nil_iff {d : PortDir} {list : List PortDir} : look d list = [] ↔ d ∉ list := by
  have hmem : d ∈ list ↔ d.text ∈ (list.map PortDir.text).filter (· = d.text) := by
    rw [List.mem_filter, List.mem_map_of_injective PortDir.text_injective]
    simp
  constructor
  · intro hnil hd
    have hslash : '/' ∈ d.text := List.mem_append_right _ List.mem_cons_self
    exact Shell.captured_ne_nil (hmem.mp hd) hslash (by decide) hnil
  · intro hd
    have hnone : (list.map PortDir.text).filter (· = d.text) = [] := by
      apply List.eq_nil_iff_forall_not_mem.mpr
      intro line hline
      have heq : line = d.text := by simpa using (List.mem_filter.mp hline).2
      exact hd (hmem.mpr (heq ▸ hline))
    rw [look, hnone]
    rfl

theorem file_gitRm (d : PortDir) (t : Tree) (p : Path) :
    (gitRm d t).file p = if Below p d.path then none else t.file p := by
  rw [gitRm, file_restrict]
  by_cases hbelow : Below p d.path <;> simp [hbelow]

/-- A loop over different ports that decides on each by the files of the port. -/
theorem foldl_gitRm (kills : Tree → PortDir → Bool)
    (hlocal : ∀ t t' d, (∀ p, Below p d.path → t.file p = t'.file p) → kills t d = kills t' d)
    {dirs : List PortDir} (hnodup : dirs.Nodup) (t : Tree) :
    Removed (fun d => d ∈ dirs ∧ kills t d = true) t
      (dirs.foldl (fun t d => if kills t d then gitRm d t else t) t) := by
  induction dirs generalizing t with
  | nil =>
    intro p
    exact .inl ⟨fun d hd => absurd hd.1 List.not_mem_nil, rfl⟩
  | cons d dirs ih =>
    rw [List.nodup_cons] at hnodup
    rw [List.foldl_cons]
    by_cases hkills : kills t d = true
    · rw [if_pos hkills]
      have hothers : ∀ e ∈ dirs, kills (gitRm d t) e = kills t e := by
        intro e he
        apply hlocal
        intro p hp
        rw [file_gitRm, if_neg]
        intro hbelow
        exact hnodup.1 (eq_of_below hbelow hp ▸ he)
      intro p
      rcases ih hnodup.2 (gitRm d t) p with ⟨hnone, hfile⟩ | ⟨⟨e, he, hbelow⟩, hfile⟩
      · rw [file_gitRm] at hfile
        by_cases hbelow : Below p d.path
        · rw [if_pos hbelow] at hfile
          exact .inr ⟨⟨d, ⟨List.mem_cons_self, hkills⟩, hbelow⟩, hfile⟩
        · rw [if_neg hbelow] at hfile
          refine .inl ⟨fun e he => ?_, hfile⟩
          rcases List.mem_cons.mp he.1 with rfl | hmem
          · exact hbelow
          · exact hnone e ⟨hmem, (hothers e hmem).trans he.2⟩
      · refine .inr ⟨⟨e, ⟨List.mem_cons_of_mem d he.1, ?_⟩, hbelow⟩, hfile⟩
        rw [← hothers e he.1]
        exact he.2
    · rw [if_neg hkills]
      intro p
      rcases ih hnodup.2 t p with ⟨hnone, hfile⟩ | ⟨⟨e, he, hbelow⟩, hfile⟩
      · refine .inl ⟨fun e he => ?_, hfile⟩
        rcases List.mem_cons.mp he.1 with rfl | hmem
        · exact absurd he.2 hkills
        · exact hnone e ⟨hmem, he.2⟩
      · exact .inr ⟨⟨e, ⟨List.mem_cons_of_mem d he.1, he.2⟩, hbelow⟩, hfile⟩

theorem removed_dports (dports merged : Tree) :
    Removed (ObsoleteDPort dports merged) dports (pruneDPorts true dports merged) := by
  have hchosen : ObsoleteDPort dports merged = fun d =>
      d ∈ (find dports).filter (!exclude ·) ∧
        decide (look d ((find merged).filter (!exclude ·)) = []) = true := by
    funext d
    simp only [ObsoleteDPort, decide_eq_true_eq, look_eq_nil_iff, List.mem_filter, mem_find,
      Bool.not_eq_true', eq_iff_iff]
    tauto
  have hnodup : ((find dports).filter (!exclude ·)).Nodup := (Finset.sort_nodup _ _).filter _
  have hloop := foldl_gitRm
    (fun _ d => decide (look d ((find merged).filter (!exclude ·)) = [])) (fun _ _ _ _ => rfl)
    hnodup dports
  rw [← hchosen] at hloop
  simpa only [pruneDPorts, killDirectory, if_true, decide_eq_true_eq] using hloop

/-- What the loop over the delta ports asks of a port. -/
def killsDelta (fports : Tree) (delta : Tree) (d : PortDir) : Bool :=
  decide (look d ((find fports).filter (!exclude ·)) = []) &&
    (statusFile delta d).any fun sfile =>
      decide (Shell.captured ((LineTools.lines sfile).filter marked) ≠ [])

theorem captured_marked_ne_nil_iff (sfile : Content) :
    Shell.captured ((LineTools.lines sfile).filter marked) ≠ [] ↔
      ∃ line ∈ LineTools.lines sfile, marked line = true := by
  constructor
  · intro h
    by_contra hnone
    apply h
    have hfilter : (LineTools.lines sfile).filter marked = [] := by
      apply List.filter_eq_nil_iff.mpr
      intro line hline hmarked
      exact hnone ⟨line, hline, hmarked⟩
    rw [hfilter]
    rfl
  · intro h
    obtain ⟨line, hline, hmarked⟩ := h
    have hfirst : ∃ c ∈ line, c ≠ '\n' := by
      cases line with
      | nil => cases hmarked
      | cons c line =>
        refine ⟨c, List.mem_cons_self, ?_⟩
        rintro rfl
        exact LineTools.newline_not_mem_lines hline List.mem_cons_self
    obtain ⟨c, hc, hne⟩ := hfirst
    exact Shell.captured_ne_nil (List.mem_filter.mpr ⟨hline, hmarked⟩) hc hne

theorem killsDelta_iff {fports delta : Tree} {d : PortDir} :
    killsDelta fports delta d = true ↔ (d ∉ portDirs fports ∨ exclude d = true) ∧
      ∃ sfile, statusFile delta d = some sfile ∧
        ∃ line ∈ LineTools.lines sfile, marked line = true := by
  simp only [killsDelta, Bool.and_eq_true, decide_eq_true_eq, look_eq_nil_iff, List.mem_filter,
    mem_find, Bool.not_eq_true', Option.any_eq_true, captured_marked_ne_nil_iff, not_and_or,
    Bool.not_eq_false]

theorem killsDelta_local (fports : Tree) {t t' : Tree} {d : PortDir}
    (h : ∀ p, Below p d.path → t.file p = t'.file p) :
    killsDelta fports t d = killsDelta fports t' d := by
  have hstatus : statusFile t d = statusFile t' d :=
    h _ (below_path_iff.mpr ⟨statusName, [], rfl⟩)
  rw [killsDelta, killsDelta, hstatus]

theorem removed_delta (delta fports : Tree) :
    Removed (fun d => d ∈ find delta ∧ killsDelta fports delta d = true) delta
      (pruneDelta true delta fports) := by
  have hstep : (fun (t : Tree) (d : PortDir) =>
      if look d ((find fports).filter (!exclude ·)) = [] then
        match statusFile t d with
        | some sfile =>
          if Shell.captured ((LineTools.lines sfile).filter marked) ≠ [] then
            killDeltaport true d t
          else t
        | none => t
      else t) = fun t d => if killsDelta fports t d then gitRm d t else t := by
    funext t d
    unfold killsDelta killDeltaport
    by_cases hlook : look d ((find fports).filter (!exclude ·)) = []
    · cases hstatus : statusFile t d with
      | none => simp [hlook]
      | some sfile => simp [hlook]
    · simp [hlook]
  have hloop := foldl_gitRm (killsDelta fports)
    (fun t t' d h => killsDelta_local fports h) (Finset.sort_nodup _ _ : (find delta).Nodup) delta
  rw [← hstep] at hloop
  exact hloop

/-- `prune.sh scan` removes nothing. -/
theorem scan_unchanged (dports delta fports merged : Tree) :
    pruneDPorts false dports merged = dports ∧ pruneDelta false delta fports = delta := by
  have hsame : ∀ (f : Tree → PortDir → Tree) (dirs : List PortDir) (t : Tree),
      (∀ t d, f t d = t) → dirs.foldl f t = t := by
    intro f dirs t hf
    induction dirs with
    | nil => rfl
    | cons d dirs ih => rw [List.foldl_cons, hf, ih]
  constructor
  · refine hsame _ _ _ fun t d => ?_
    simp [killDirectory]
  · refine hsame _ _ _ fun t d => ?_
    cases statusFile t d <;> simp [killDeltaport]

/-- Whether a port is among those removed is seen from any of its files. -/
theorem Removed.chosen_iff {chosen : PortDir → Prop} {t t' : Tree} (h : Removed chosen t t')
    {d : PortDir} {p : Path} (hp : p ∈ t.paths) (hbelow : Below p d.path) :
    chosen d ↔ t'.file p = none := by
  rcases h p with ⟨hnone, hfile⟩ | ⟨⟨e, he, hbelow'⟩, hfile⟩
  · refine iff_of_false (fun hd => hnone d hd hbelow) ?_
    rw [hfile]
    exact fun hfalse => not_mem_paths.mpr hfalse hp
  · rw [eq_of_below hbelow hbelow']
    exact iff_of_true he hfile

/-- One result cannot be that of two different choices. -/
theorem Removed.unique {chosen chosen' : PortDir → Prop} {t t' : Tree} (h : Removed chosen t t')
    (h' : Removed chosen' t t') {d : PortDir} (hd : d ∈ portDirs t) : chosen d ↔ chosen' d := by
  obtain ⟨p, hp, hbelow⟩ := (mem_portDirs.mp hd).2
  rw [h.chosen_iff hp hbelow, h'.chosen_iff hp hbelow]

/-- The delta ports that are removed are the obsolete ones exactly when, for a port that `FPORTS`
does not have, a line that begins with `MASK` or `PORT` goes with such a first word of the first
line, and no port below `Templates`, `Tools` or `Mk` that it has comes with such a line. -/
theorem prunesObsolete_iff (dports delta fports merged : Tree) :
    PrunesObsolete dports delta fports merged ↔
      ∀ d ∈ portDirs delta, ∀ sfile, statusFile delta d = some sfile →
        (d ∉ portDirs fports →
          ((∃ line ∈ LineTools.lines sfile, marked line = true) ↔ FromFreeBSD sfile)) ∧
        (d ∈ portDirs fports → exclude d = true →
          ∀ line ∈ LineTools.lines sfile, marked line = false) := by
  have hcode := removed_delta delta fports
  constructor
  · intro h d hd sfile hsfile
    have hiff := h.delta.unique hcode hd
    simp only [ObsoleteDelta, hd, mem_find, true_and, killsDelta_iff, hsfile, Option.some.injEq,
      exists_eq_left'] at hiff
    constructor
    · intro hfports
      simpa [hfports] using hiff.symm
    · intro hfports hexclude line hline
      rw [← Bool.not_eq_true]
      intro hmarked
      exact (hiff.mpr ⟨.inr hexclude, line, hline, hmarked⟩).1 hfports
  · intro h
    refine ⟨removed_dports dports merged, ?_⟩
    have hchosen : ObsoleteDelta delta fports = fun d =>
        d ∈ find delta ∧ killsDelta fports delta d = true := by
      funext d
      simp only [ObsoleteDelta, mem_find, killsDelta_iff, eq_iff_iff]
      constructor
      · intro hspec
        obtain ⟨hd, hfports, sfile, hsfile, hfirst⟩ := hspec
        have hline := ((h d hd sfile hsfile).1 hfports).mpr hfirst
        exact ⟨hd, .inl hfports, sfile, hsfile, hline⟩
      · intro hcode
        obtain ⟨hd, hcase, sfile, hsfile, line, hline, hmarked⟩ := hcode
        have hfports : d ∉ portDirs fports := by
          intro hfports
          have hexclude := hcase.resolve_left (not_not.mpr hfports)
          rw [(h d hd sfile hsfile).2 hfports hexclude line hline] at hmarked
          cases hmarked
        have hfirst := ((h d hd sfile hsfile).1 hfports).mp ⟨line, hline, hmarked⟩
        exact ⟨hd, hfports, sfile, hsfile, hfirst⟩
    rw [hchosen]
    exact hcode

/-- A delta port with files of its own, whose `STATUS` says more after the first line. -/
def localPort : PortDir where
  category := ⟨"lang".toList, by decide⟩
  port := ⟨"foo".toList, by decide⟩

def localStatus : Content := "DPORT\nPORT lang/foo was removed\n".toList

def localDelta : Tree := single (localPort.category, [localPort.port, statusName]) localStatus

theorem local_port_removed :
    ¬ ∀ dports delta fports merged : Tree, PrunesObsolete dports delta fports merged := by
  intro h
  have hstatus : statusFile localDelta localPort = some localStatus := by
    simp [statusFile, localDelta, single]
  have hmem : localPort ∈ portDirs localDelta := by
    refine mem_portDirs.mpr ⟨by decide, (localPort.category, [localPort.port, statusName]), ?_, ?_⟩
    · exact mem_paths_iff.mpr ⟨localStatus, hstatus⟩
    · exact below_path_iff.mpr ⟨statusName, [], rfl⟩
  have hnone : localPort ∉ portDirs empty := by
    intro hd
    obtain ⟨p, hp, _⟩ := (mem_portDirs.mp hd).2
    exact Finset.notMem_empty p hp
  have hiff := (h empty localDelta empty empty).delta.unique (removed_delta localDelta empty) hmem
  have hkills : killsDelta empty localDelta localPort = true := by
    refine killsDelta_iff.mpr ⟨.inl hnone, localStatus, hstatus, ?_⟩
    exact ⟨"PORT lang/foo was removed".toList, by decide +kernel, by decide⟩
  obtain ⟨_, _, sfile, hsfile, hfirst⟩ := hiff.mpr ⟨mem_find.mpr hmem, hkills⟩
  rw [hstatus] at hsfile
  cases hsfile
  exact absurd hfirst (by unfold FromFreeBSD; decide +kernel)

end DeltaPorts.Generator.Prune

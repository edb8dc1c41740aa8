import DeltaPorts.Generator.Stinkers
import DeltaPorts.Library.Grep

/-!
# ramo_bulk_list.sh

`ramo_bulk_list.sh origin` lists the ports of `MERGED` that depend on `origin`, and `origin`
itself. It takes for a dependency what `grep` finds: the package name anywhere in a line of the
`INDEX`, read as a pattern.
-/

set_option autoImplicit false

namespace DeltaPorts.Generator.BulkList

open Prune (PortDir)
open Grep (grep found)

abbrev Text := Awk.Text

/-- The directories below `MERGED`, and the files that the words of `echo` are matched with. -/
structure Trees where
  merged : Text → Bool
  globbing : Shell.Globbing

/-- `{ print $1 }`. -/
def awkCmd (line : Text) : Text := LineTools.field 1 line

/-- `{ print substr($2,12) }`. -/
def awkCmd2 (line : Text) : Text := (LineTools.field 2 line).drop 11

def originPattern (origin : Text) : Text := "|/usr/ports/".toList ++ origin ++ ['|']

/-- The file `FINALFILE` after the loop. -/
def finalFile (t : Trees) (tmpfile : List Text) : List Text :=
  (tmpfile.filter fun line => t.merged (Shell.echo line)).map Shell.echo

/-- What is in `FINALFILE`, if the script gets there. -/
def bulkList (t : Trees) (index origin : Text) : Option (List Text) :=
  if origin = [] then none
  else
    let fullline := Shell.captured (grep (originPattern origin) (LineTools.lines index))
    if fullline = [] then none
    else
      let pkgname := Shell.captured ((Shell.lines (t.globbing.echo fullline)).map awkCmd)
      let tmpfile := LineTools.sort ((grep pkgname (LineTools.lines index)).map awkCmd2)
      some (finalFile t tmpfile)

/-- The fields of an entry after its name and its path. -/
structure Columns where
  prefixDir : Text
  comment : Text
  descr : Text
  maintainer : Text
  categories : Text
  bdeps : Text
  rdeps : Text
  www : Text
  edeps : Text
  pdeps : Text
  fdeps : Text

def Columns.all (c : Columns) : List Text :=
  [c.prefixDir, c.comment, c.descr, c.maintainer, c.categories, c.bdeps, c.rdeps, c.www, c.edeps,
    c.pdeps, c.fdeps]

def Columns.dependencies (c : Columns) : List Text :=
  [c.bdeps, c.rdeps, c.edeps, c.pdeps, c.fdeps].flatMap (List.splitOn ' ')

/-- An entry with its columns, whose package name `grep` takes for a pattern without anchors. -/
structure IndexEntry extends Stinkers.IndexEntry where
  columns : Columns
  rest_eq : rest = List.intercalate ['|'] columns.all
  separate : ∀ l ∈ columns.all, '|' ∉ l
  unanchored : Grep.Unanchored pkgname.chars

structure Index where
  entries : List IndexEntry
  origins : (entries.map fun e => e.port.text).Nodup
  pkgnames : (entries.map fun e => e.pkgname.chars).Nodup

namespace Index

def text (x : Index) : Text := Stinkers.indexText (x.entries.map IndexEntry.toIndexEntry)

abbrev Entry (x : Index) : Type := { e : IndexEntry // e ∈ x.entries }

end Index

/-- `e` itself, or a port with the package name of `e` among its dependencies. -/
def Dependent (e f : IndexEntry) : Prop := f.port = e.port ∨ e.pkgname.chars ∈ f.columns.dependencies

instance (e f : IndexEntry) : Decidable (Dependent e f) :=
  inferInstanceAs (Decidable (f.port = e.port ∨ e.pkgname.chars ∈ f.columns.dependencies))

def dependents (t : Trees) (x : Index) (e : IndexEntry) : List Text :=
  LineTools.sort ((x.entries.filter fun f => t.merged f.port.text && decide (Dependent e f)).map
    fun f => f.port.text)

/-- The entry that is taken for the origin's own: the first that its pattern is found in. -/
def firstFound (x : Index) (origin : Text) : Option IndexEntry :=
  x.entries.find? fun f => found (originPattern origin) f.text

/-- The package name that is searched for. -/
def searched (x : Index) (origin : Text) : Text :=
  ((firstFound x origin).map fun f => f.pkgname.chars).getD []

/-- No other port of `MERGED` has a line that the name is found in. -/
def NoStray (t : Trees) (x : Index) (e : IndexEntry) : Prop :=
  ∀ f ∈ x.entries, t.merged f.port.text = true → found (searched x e.port.text) f.text = true →
    Dependent e f

/-- The name is found in the line of every dependent port of `MERGED`. -/
def NoneMissed (t : Trees) (x : Index) (e : IndexEntry) : Prop :=
  ∀ f ∈ x.entries, t.merged f.port.text = true → Dependent e f →
    found (searched x e.port.text) f.text = true

theorem glob_of_name (n : Name) : ∀ c ∈ n.chars, Shell.isGlob c = false := by
  intro c hc
  have hspecial := n.not_special hc
  simp only [special, Bool.or_eq_false_iff] at hspecial
  simp [Shell.isGlob, hspecial]

theorem awkCmd2_text (e : Stinkers.IndexEntry) : awkCmd2 e.text = e.port.text := by
  unfold awkCmd2 LineTools.field
  rw [Stinkers.splitOn_text]
  rfl

theorem lines_text (x : Index) : LineTools.lines x.text = x.entries.map fun e => e.text := by
  unfold Index.text
  rw [Stinkers.lines_indexText, List.map_map]
  rfl

theorem grep_lines (x : Index) (ps : Text) :
    grep ps (LineTools.lines x.text) =
      (x.entries.filter fun f => found ps f.text).map fun f => f.text := by
  rw [lines_text, grep, List.filter_map]
  rfl

theorem infix_text_of_mem {e : IndexEntry} {l : Text} (hl : l ∈ e.columns.all) : l <:+: e.text := by
  have hrest : e.rest <:+: e.text := by
    refine List.IsSuffix.isInfix ⟨e.pkgname.chars ++ '|' :: (e.path ++ ['|']), ?_⟩
    simp [Stinkers.IndexEntry.text, LineTools.barred]
  refine List.IsInfix.trans ?_ hrest
  rw [e.rest_eq]
  exact Shell.infix_intercalate hl

theorem infix_text_pkgname (e : IndexEntry) : e.pkgname.chars <:+: e.text :=
  List.IsPrefix.isInfix (List.prefix_append _ _)

theorem originPattern_eq (origin : Text) :
    originPattern origin = '|' :: ("/usr/ports/".toList ++ origin) ++ ['|'] := by
  have hhead : "|/usr/ports/".toList = '|' :: "/usr/ports/".toList := by decide
  unfold originPattern
  rw [hhead, List.cons_append]

theorem originPattern_unanchored (origin : Text) : Grep.Unanchored (originPattern origin) := by
  rw [originPattern_eq]
  constructor
  · rw [List.cons_append, List.head?_cons]
    decide
  · rw [List.getLast?_concat]
    decide

/-- The pattern is found in the origin's own line. -/
theorem found_own (e : Stinkers.IndexEntry) : found (originPattern e.port.text) e.text = true := by
  apply Grep.found_of_infix (originPattern_unanchored _)
  have hpattern : originPattern e.port.text = '|' :: e.path ++ ['|'] := by
    unfold Stinkers.IndexEntry.path
    exact originPattern_eq e.port.text
  have htext : e.text = e.pkgname.chars ++ ('|' :: e.path ++ ['|'] ++ e.rest) := by
    simp [Stinkers.IndexEntry.text, LineTools.barred]
  rw [hpattern, htext]
  exact List.infix_append' _ _ _

theorem firstFound_mem (x : Index) (e : x.Entry) :
    ∃ f, firstFound x e.1.port.text = some f ∧ f ∈ x.entries := by
  cases h : firstFound x e.1.port.text with
  | none => exact absurd (found_own e.1.toIndexEntry) (by simpa using List.find?_eq_none.mp h e.1 e.2)
  | some f => exact ⟨f, rfl, List.mem_of_find?_eq_some h⟩

/-- The name is that of the first line found, whatever the rest of the lines expands to. -/
theorem pkgname_echo (g : Shell.Globbing) (f : Stinkers.IndexEntry) (ls : List Text) :
    Shell.captured ((Shell.lines (g.echo (Shell.captured (f.text :: ls)))).map awkCmd) =
      f.pkgname.chars := by
  obtain ⟨hplain, _⟩ := f.pkgname.chars_plain
  have hname : Awk.Plain (f.pkgname.chars ++ ['|']) := by
    intro c hc
    rcases List.mem_append.mp hc with hc | hc
    · exact hplain c hc
    · rw [List.mem_singleton.mp hc]
      decide
  have hglob : ∀ c ∈ f.pkgname.chars ++ ['|'], Shell.isGlob c = false := by
    intro c hc
    rcases List.mem_append.mp hc with hc | hc
    · exact glob_of_name f.pkgname c hc
    · rw [List.mem_singleton.mp hc]
      decide
  have htext : f.text = (f.pkgname.chars ++ ['|']) ++ (f.path ++ '|' :: f.rest) := by
    simp [Stinkers.IndexEntry.text, LineTools.barred]
  obtain ⟨t, _, hcaptured⟩ := Shell.captured_word (t := f.path ++ '|' :: f.rest) hname ls
  obtain ⟨r, hecho⟩ := g.prefix_echo hname (by simp) hglob t
  have hlines : Shell.lines (g.echo (Shell.captured (f.text :: ls))) =
      [f.pkgname.chars ++ '|' :: r] := by
    rw [Shell.lines_of_not_mem (g.newline_not_mem_echo _), htext, hcaptured, ← hecho,
      List.append_assoc, List.singleton_append]
  have hcmd : awkCmd (f.pkgname.chars ++ '|' :: r) = f.pkgname.chars := by
    unfold awkCmd LineTools.field
    rw [List.splitOn_append_cons_self_of_not_mem f.noBar.1]
    rfl
  rw [hlines, List.map_singleton, hcmd, Shell.captured_singleton hplain.newline_not_mem]

theorem filter_eq_cons_of_find {α : Type} {p : α → Bool} {xs : List α} {x : α}
    (h : xs.find? p = some x) : ∃ rest, xs.filter p = x :: rest := by
  rw [← List.head?_filter] at h
  exact List.head?_eq_some_iff.mp h

theorem echo_port (e : Stinkers.IndexEntry) : Shell.echo e.port.text = e.port.text := by
  obtain ⟨hplain, hne⟩ := Stinkers.text_plain e.port
  unfold Shell.echo Shell.unwords
  rw [Awk.words_plain hplain hne, List.intercalate_singleton]

theorem finalFile_ports (t : Trees) (es : List IndexEntry) :
    finalFile t (LineTools.sort (es.map fun f => f.port.text)) =
      LineTools.sort ((es.filter fun f => t.merged f.port.text).map fun f => f.port.text) := by
  have hports : ∀ l ∈ LineTools.sort (es.map fun f => f.port.text), Shell.echo l = l := by
    intro l hl
    obtain ⟨f, _, rfl⟩ := List.mem_map.mp ((List.perm_insertionSort _ _).mem_iff.mp hl)
    exact echo_port f.toIndexEntry
  have hfilter : (LineTools.sort (es.map fun f => f.port.text)).filter
      (fun l => t.merged (Shell.echo l)) =
        (LineTools.sort (es.map fun f => f.port.text)).filter t.merged :=
    List.filter_congr fun l hl => by rw [hports l hl]
  unfold finalFile
  rw [hfilter, List.map_congr_left fun l hl => hports l (List.mem_of_mem_filter hl), List.map_id',
    LineTools.filter_sort, List.filter_map]
  rfl

/-- The ports of `MERGED` in whose lines the name is found. -/
theorem bulkList_eq (t : Trees) (x : Index) (e : x.Entry) :
    bulkList t x.text e.1.port.text = some (LineTools.sort ((x.entries.filter fun f =>
      t.merged f.port.text && found (searched x e.1.port.text) f.text).map
        fun f => f.port.text)) := by
  obtain ⟨f, hf, _⟩ := firstFound_mem x e
  obtain ⟨rest, hrest⟩ := filter_eq_cons_of_find hf
  have hsearched : searched x e.1.port.text = f.pkgname.chars := by
    unfold searched
    rw [hf]
    rfl
  have hgrep : grep (originPattern e.1.port.text) (LineTools.lines x.text) =
      f.text :: rest.map fun f => f.text := by
    rw [grep_lines, hrest, List.map_cons]
  have hne : Shell.captured (f.text :: rest.map fun f => f.text) ≠ [] := by
    have hbar : '|' ∈ f.text := List.mem_append_right _ List.mem_cons_self
    exact Shell.captured_ne_nil List.mem_cons_self hbar (by decide)
  have htmp : (grep f.pkgname.chars (LineTools.lines x.text)).map awkCmd2 =
      (x.entries.filter fun f' => found f.pkgname.chars f'.text).map fun f' => f'.port.text := by
    rw [grep_lines, List.map_map]
    exact List.map_congr_left fun f' _ => awkCmd2_text f'.toIndexEntry
  unfold bulkList
  simp only [if_neg (Stinkers.text_plain e.1.port).2, hgrep, if_neg hne, pkgname_echo, htmp,
    finalFile_ports, hsearched, List.filter_filter]

theorem port_inj (x : Index) {f g : IndexEntry} (hf : f ∈ x.entries) (hg : g ∈ x.entries)
    (h : f.port.text = g.port.text) : f = g :=
  List.inj_on_of_nodup_map x.origins hf hg h

theorem map_filter_perm_iff (x : Index) (p q : IndexEntry → Bool) :
    ((x.entries.filter p).map fun f => f.port.text).Perm
      ((x.entries.filter q).map fun f => f.port.text) ↔ ∀ f ∈ x.entries, p f = q f := by
  have hmem (r : IndexEntry → Bool) {f : IndexEntry} (hf : f ∈ x.entries) :
      f.port.text ∈ (x.entries.filter r).map (fun f => f.port.text) ↔ r f = true := by
    rw [List.mem_map]
    constructor
    · rintro ⟨g, hg, heq⟩
      obtain ⟨hg, hr⟩ := List.mem_filter.mp hg
      rwa [port_inj x hg hf heq] at hr
    · exact fun hr => ⟨f, List.mem_filter.mpr ⟨hf, hr⟩, rfl⟩
  constructor
  · intro h f hf
    rw [Bool.eq_iff_iff, ← hmem p hf, ← hmem q hf]
    exact h.mem_iff
  · intro h
    rw [List.filter_congr h]

/-- A name that is the origin's own is found in the line of every port that depends on it. -/
theorem found_dependent {x : Index} {e : IndexEntry} (he : firstFound x e.port.text = some e)
    {f : IndexEntry} (hx : e ∈ x.entries) (hf : f ∈ x.entries) (hdep : Dependent e f) :
    found (searched x e.port.text) f.text = true := by
  have hsearched : searched x e.port.text = e.pkgname.chars := by
    unfold searched
    rw [he]
    rfl
  rw [hsearched]
  apply Grep.found_of_infix e.unanchored
  rcases hdep with hport | hmem
  · rw [port_inj x hf hx (congrArg PortDir.text hport)]
    exact infix_text_pkgname e
  · obtain ⟨l, hl, hmem⟩ := List.mem_flatMap.mp hmem
    have hin : e.pkgname.chars <:+: l := by
      have h := @Shell.infix_intercalate [' '] _ _ hmem
      rwa [List.intercalate_splitOn] at h
    refine hin.trans (infix_text_of_mem ?_)
    simp only [List.mem_cons, List.not_mem_nil, or_false] at hl
    unfold Columns.all
    rcases hl with rfl | rfl | rfl | rfl | rfl <;> simp

/-- A package name found in a line without being a dependency adds a port. One is only missed if
the pattern of the origin is found in the line of another port before. -/
theorem bulkList_eq_dependents_iff (t : Trees) (x : Index) (e : x.Entry) :
    (bulkList t x.text e.1.port.text = some (dependents t x e.1) ↔
      NoStray t x e.1 ∧ NoneMissed t x e.1) ∧
    (firstFound x e.1.port.text = some e.1 → NoneMissed t x e.1) := by
  constructor
  · rw [bulkList_eq, Option.some_inj]
    unfold dependents
    rw [LineTools.sort_eq_sort_iff, map_filter_perm_iff]
    unfold NoStray NoneMissed
    constructor
    · intro h
      constructor
      · intro f hf hmerged hfound
        have := h f hf
        simpa [hmerged, hfound] using this
      · intro f hf hmerged hdep
        have := h f hf
        simpa [hmerged, hdep] using this
    · rintro ⟨hstray, hmissed⟩ f hf
      cases hmerged : t.merged f.port.text with
      | false => rfl
      | true =>
        rw [Bool.true_and, Bool.true_and, Bool.eq_iff_iff, decide_eq_true_eq]
        exact ⟨hstray f hf hmerged, hmissed f hf hmerged⟩
  · intro hown f hf _ hdep
    exact found_dependent hown e.2 hf hdep

def literalWords : Shell.Globbing where
  expand w := [w]
  ne_nil _ := List.cons_ne_nil _ _
  noNewline _ h _ hv := List.mem_singleton.mp hv ▸ h
  literal u w _ _ hv := List.mem_singleton.mp hv ▸ List.prefix_append u w

def noColumns : Columns := ⟨[], [], [], [], [], [], [], [], [], [], []⟩

def joe : IndexEntry where
  pkgname := ⟨"joe-3.7".toList, by decide⟩
  port := ⟨⟨"editors".toList, by decide⟩, ⟨"joe".toList, by decide⟩⟩
  rest := List.intercalate ['|'] noColumns.all
  noBar := by decide
  noNewline := by decide
  columns := noColumns
  rest_eq := rfl
  separate := by decide
  unanchored := by decide

def xjoe : IndexEntry where
  pkgname := ⟨"xjoe-3.7".toList, by decide⟩
  port := ⟨⟨"editors".toList, by decide⟩, ⟨"xjoe".toList, by decide⟩⟩
  rest := List.intercalate ['|'] noColumns.all
  noBar := by decide
  noNewline := by decide
  columns := noColumns
  rest_eq := rfl
  separate := by decide
  unanchored := by decide

def joeIndex : Index where
  entries := [joe, xjoe]
  origins := by decide
  pkgnames := by decide

theorem xjoe_listed :
    ¬ ∀ (t : Trees) (x : Index) (e : x.Entry),
      bulkList t x.text e.1.port.text = some (dependents t x e.1) := by
  intro h
  have hlist := h ⟨fun _ => true, literalWords⟩ joeIndex ⟨joe, List.mem_cons_self⟩
  revert hlist
  decide +kernel

end DeltaPorts.Generator.BulkList

import DeltaPorts.Generator.Rebuild
import DeltaPorts.Library.LineTools
import DeltaPorts.Library.Run

/-!
# The worklist of merge.sh

The lines of `INDEX` come first. A delta port is added when `grep` finds its name in none of
the lines that are there already.
-/

set_option autoImplicit false

namespace DeltaPorts.Generator

/-- `category/port`. -/
structure PortName where
  category : Awk.Text
  port : Awk.Text
  plain : Awk.Plain category ∧ Awk.Plain port
  nonempty : category ≠ [] ∧ port ≠ []
  noSlash : '/' ∉ category ∧ '/' ∉ port

def PortName.origin (p : PortName) : Origin := p.category ++ '/' :: p.port

structure IndexLine where
  pkgname : Awk.Text
  above : Awk.Text
  name : PortName
  rest : Awk.Text
  noBar : '|' ∉ pkgname ∧ '|' ∉ above ++ '/' :: name.origin

def IndexLine.text (l : IndexLine) : Awk.Text :=
  LineTools.barred l.pkgname (l.above ++ '/' :: l.name.origin) l.rest

/-- A file named `STATUS` that `find *` comes to, with the directories above it. Their names are
words that neither `find` nor the unquoted `${CUSTOM}` reads as something else. -/
structure StatusFile where
  dirs : List Name
  lines : List Awk.Text
  shown : ∀ d ∈ dirs.head?, d.hidden = false

def StatusFile.path (f : StatusFile) : Awk.Text :=
  List.intercalate ['/'] (f.dirs.map Name.chars ++ ["STATUS".toList])

/-- `grep -E '(DPORT|LOCK)'`. -/
def StatusFile.isCustom (f : StatusFile) : Bool :=
  f.lines.any fun l => decide ("DPORT".toList <:+: l) || decide ("LOCK".toList <:+: l)

/-- `CUSTOM`, for the files in the order of `find`. -/
def custom (files : List StatusFile) : Awk.Text :=
  Shell.captured ((files.filter StatusFile.isCustom).map StatusFile.path)

/-- What `AWKCMD3` prints for a path. -/
def awkCmd3 (path : Awk.Text) : Origin :=
  ((path.splitOn '/')[0]?).getD [] ++ '/' :: ((path.splitOn '/')[1]?).getD []

def dummyLine (fixed : Origin) : Awk.Text := fixed ++ " 0".toList

-- whether `grep` finds a pattern, a basic regular expression, in a line
variable (grep : Awk.Text → Awk.Text → Bool)

def addFixed (tmpfile : List Awk.Text) (fixed : Origin) : List Awk.Text :=
  let fpc := Shell.captured (tmpfile.filter fun line => grep (fixed ++ [' ']) line)
  if fpc = [] then tmpfile ++ [dummyLine fixed] else tmpfile

def addCustom (tmpfile : List Awk.Text) (myport : Awk.Text) : List Awk.Text :=
  addFixed grep tmpfile (awkCmd3 (Shell.echo myport))

/-- `TMPFILE` after the loop over `CUSTOM`. -/
def tmpfile (index : List IndexLine) (files : List StatusFile) : List Awk.Text :=
  (Awk.words (custom files)).foldl (addCustom grep) (index.map fun l => awkCmd1 l.text)

/-- `sort -u`. -/
def sortUnique (lines : List Awk.Text) : List Awk.Text := (LineTools.sort lines).dedup

def worklist (index : List IndexLine) (files : List StatusFile) : List Awk.Text :=
  sortUnique (tmpfile grep index files)

def Named (index : List IndexLine) (port : Origin) : Prop := ∃ l ∈ index, l.name.origin = port

/-- Every port of the `INDEX` and every delta port with its own files is merged, and no port of
the `INDEX` has a second line. -/
structure Complete (index : List IndexLine) (files : List StatusFile) : Prop where
  indexed : ∀ l ∈ index,
    l.name.origin ++ ' ' :: Shell.afterLast '-' l.pkgname ∈ worklist grep index files
  custom : ∀ f ∈ files, f.isCustom = true → ∀ p : PortName, f.dirs.map Name.chars = [p.category, p.port] →
    ∃ line ∈ worklist grep index files, Awk.field 1 line = p.origin
  added : ∃ ports : List Origin,
    tmpfile grep index files = (index.map fun l => awkCmd1 l.text) ++ ports.map dummyLine ∧
      ∀ port ∈ ports, ¬ Named index port

/-- A line of the `INDEX`, or a line for a delta port `q` that the `INDEX` does not name. -/
def Found (index : List IndexLine) (before : List Origin) (port : Origin) : Prop :=
  (∃ l ∈ index, grep (port ++ [' ']) (awkCmd1 l.text) = true) ∨
    ∃ q ∈ before, ¬ Named index q ∧ grep (port ++ [' ']) (dummyLine q) = true

def Told (index : List IndexLine) (before : List Origin) (port : Origin) : Prop :=
  (Named index port → Found grep index before port) ∧
    (¬ Named index port → port ∉ before → ¬ Found grep index before port)

/-- The ports of the files that `find` has printed. -/
def customPorts (files : List StatusFile) : List Origin :=
  (files.filter StatusFile.isCustom).map fun f => awkCmd3 f.path

/-- `grep` finds each port that the `INDEX` names, and no other port before it has a line. -/
def ToldApartByGrep (index : List IndexLine) (files : List StatusFile) : Prop :=
  Run.Orderly (Told grep index) (customPorts files)

/-- Only the files of delta ports have these words. -/
def AtPorts (files : List StatusFile) : Prop :=
  ∀ f ∈ files, f.isCustom = true → ∃ p : PortName, f.dirs.map Name.chars = [p.category, p.port]

theorem mem_sortUnique {lines : List Awk.Text} {l : Awk.Text} :
    l ∈ sortUnique lines ↔ l ∈ lines := by
  rw [sortUnique, List.mem_dedup, LineTools.sort]
  exact (List.perm_insertionSort _ lines).mem_iff

theorem PortName.origin_plain (p : PortName) : Awk.Plain p.origin := p.plain.1.path p.plain.2

theorem PortName.slash_mem (p : PortName) : '/' ∈ p.origin :=
  List.mem_append_right _ List.mem_cons_self

theorem originOfPath_above (above : Awk.Text) (p : PortName) :
    originOfPath (above ++ '/' :: p.origin) = p.origin := by
  have hparts : (above ++ '/' :: p.origin).splitOn '/' =
      above.splitOn '/' ++ [p.category, p.port] := by
    have hlast : p.origin.splitOn '/' = [p.category, p.port] := by
      rw [PortName.origin, List.splitOn_append_cons_self_of_not_mem p.noSlash.1,
        List.splitOn_eq_singleton p.noSlash.2]
    rw [List.splitOn_append_cons_self, hlast]
  unfold originOfPath
  rw [hparts, List.reverse_append]
  rfl

theorem awkCmd1_text (l : IndexLine) :
    awkCmd1 l.text = l.name.origin ++ ' ' :: Shell.afterLast '-' l.pkgname := by
  have hfields := LineTools.splitOn_barred l.noBar.1 l.noBar.2 l.rest
  have horigin : lineOrigin l.text = l.name.origin := by
    rw [lineOrigin, IndexLine.text, hfields]
    exact originOfPath_above l.above l.name
  rw [awkCmd1, horigin, lineVersion, IndexLine.text, hfields]
  rfl

/-- The first word of a line that begins with a port. -/
theorem field_origin (p : PortName) (version : Awk.Text) :
    Awk.field 1 (p.origin ++ ' ' :: version) = p.origin := by
  have hne : p.origin ≠ [] := List.ne_nil_of_mem p.slash_mem
  unfold Awk.field
  rw [Awk.words_append p.origin_plain hne rfl]
  rfl

theorem plain_status : Awk.Plain "STATUS".toList := by decide

theorem StatusFile.path_words (f : StatusFile) : Awk.Plain f.path ∧ f.path ≠ [] := by
  constructor
  · intro c hc
    rcases Shell.of_mem_intercalate hc with hslash | ⟨d, hd, hc⟩
    · rw [List.mem_singleton.mp hslash]
      decide
    · rcases List.mem_append.mp hd with hd | hd
      · obtain ⟨n, _, rfl⟩ := List.mem_map.mp hd
        exact n.chars_plain.1 c hc
      · rw [List.mem_singleton.mp hd] at hc
        exact plain_status c hc
  · have hmem : "STATUS".toList ∈ f.dirs.map Name.chars ++ ["STATUS".toList] :=
      List.mem_append_right _ List.mem_cons_self
    exact List.ne_nil_of_mem (Shell.mem_intercalate hmem List.mem_cons_self)

theorem words_custom (files : List StatusFile) :
    Awk.words (custom files) = (files.filter StatusFile.isCustom).map StatusFile.path := by
  refine Shell.words_captured fun l hl => ?_
  obtain ⟨f, _, rfl⟩ := List.mem_map.mp hl
  exact f.path_words

theorem tmpfile_eq (index : List IndexLine) (files : List StatusFile) :
    tmpfile grep index files =
      (customPorts files).foldl (addFixed grep) (index.map fun l => awkCmd1 l.text) := by
  unfold tmpfile customPorts
  rw [words_custom, List.foldl_map, List.foldl_map]
  congr 1
  funext lines f
  have hecho : Shell.echo f.path = f.path := by
    rw [Shell.echo, Awk.words_plain f.path_words.1 f.path_words.2, Shell.unwords,
      List.intercalate_singleton]
  rw [addCustom, hecho]

theorem slash_mem_awkCmd3 (path : Awk.Text) : '/' ∈ awkCmd3 path :=
  List.mem_append_right _ List.mem_cons_self

theorem awkCmd3_path {f : StatusFile} {p : PortName} (h : f.dirs.map Name.chars = [p.category, p.port]) :
    awkCmd3 f.path = p.origin := by
  have hsplit : f.path.splitOn '/' = [p.category, p.port, "STATUS".toList] := by
    rw [StatusFile.path, h]
    have hnone : ∀ d ∈ [p.category, p.port, "STATUS".toList], '/' ∉ d := by
      simpa using p.noSlash
    exact List.splitOn_intercalate '/' hnone (by simp)
  rw [awkCmd3, hsplit]
  rfl

section Loop
variable {grep} {index : List IndexLine} {lines : List Awk.Text} {port fixed : Origin}
  {ports added : List Origin}

theorem dummyLine_injective : Function.Injective dummyLine := fun _ _ h => List.append_cancel_right h

theorem slash_mem_dummyLine (h : '/' ∈ port) : '/' ∈ dummyLine port := List.mem_append_left _ h

theorem addFixed_of_found (hslash : ∀ l ∈ lines, '/' ∈ l)
    (h : ∃ l ∈ lines, grep (fixed ++ [' ']) l = true) : addFixed grep lines fixed = lines := by
  obtain ⟨l, hl, hfound⟩ := h
  have hmem : l ∈ lines.filter fun line => grep (fixed ++ [' ']) line :=
    List.mem_filter.mpr ⟨hl, hfound⟩
  exact if_neg (Shell.captured_ne_nil hmem (hslash l hl) (by decide))

theorem addFixed_of_not_found (h : ¬ ∃ l ∈ lines, grep (fixed ++ [' ']) l = true) :
    addFixed grep lines fixed = lines ++ [dummyLine fixed] := by
  have hnone : (lines.filter fun line => grep (fixed ++ [' ']) line) = [] := by
    rw [List.filter_eq_nil_iff]
    exact fun l hl hfound => h ⟨l, hl, hfound⟩
  unfold addFixed
  rw [hnone]
  rfl

theorem prefix_addFixed (lines : List Awk.Text) (fixed : Origin) :
    lines <+: addFixed grep lines fixed := by
  dsimp only [addFixed]
  split
  · exact List.prefix_append lines _
  · exact List.prefix_refl lines

theorem prefix_foldl_addFixed (lines : List Awk.Text) (ports : List Origin) :
    lines <+: ports.foldl (addFixed grep) lines := by
  induction ports generalizing lines with
  | nil => exact List.prefix_refl lines
  | cons port ports ih => exact (prefix_addFixed lines port).trans (ih _)

theorem mem_foldl_addFixed {l : Awk.Text} (h : l ∈ ports.foldl (addFixed grep) lines) :
    l ∈ lines ∨ ∃ q ∈ ports, l = dummyLine q := by
  induction ports generalizing lines with
  | nil => exact .inl h
  | cons port ports ih =>
    rcases ih h with h | ⟨q, hq, rfl⟩
    · dsimp only [addFixed] at h
      split at h
      · rcases List.mem_append.mp h with h | h
        · exact .inl h
        · exact .inr ⟨port, List.mem_cons_self, List.mem_singleton.mp h⟩
      · exact .inl h
    · exact .inr ⟨q, List.mem_cons_of_mem port hq, rfl⟩

theorem slash_mem_foldl (hslash : ∀ l ∈ lines, '/' ∈ l) (hports : ∀ q ∈ ports, '/' ∈ q) :
    ∀ l ∈ ports.foldl (addFixed grep) lines, '/' ∈ l := by
  intro l hl
  rcases mem_foldl_addFixed hl with hl | ⟨q, hq, rfl⟩
  · exact hslash l hl
  · exact slash_mem_dummyLine (hports q hq)

/-- A port that is found once gets no line any more. -/
theorem not_added_of_found (hslash : ∀ l ∈ lines, '/' ∈ l) (hports : ∀ q ∈ ports, '/' ∈ q)
    (hfound : ∃ l ∈ lines, grep (port ++ [' ']) l = true)
    (h : dummyLine port ∈ ports.foldl (addFixed grep) lines) : dummyLine port ∈ lines := by
  induction ports generalizing lines with
  | nil => exact h
  | cons q ports ih =>
    have hrest : ∀ q' ∈ ports, '/' ∈ q' := fun q' hq' => hports q' (List.mem_cons_of_mem q hq')
    by_cases hq : ∃ l ∈ lines, grep (q ++ [' ']) l = true
    · rw [List.foldl_cons, addFixed_of_found hslash hq] at h
      exact ih hslash hrest hfound h
    · rw [List.foldl_cons, addFixed_of_not_found hq] at h
      have hslash' : ∀ l ∈ lines ++ [dummyLine q], '/' ∈ l := by
        intro l hl
        rcases List.mem_append.mp hl with hl | hl
        · exact hslash l hl
        · rw [List.mem_singleton.mp hl]
          exact slash_mem_dummyLine (hports q List.mem_cons_self)
      obtain ⟨l, hl, hmatch⟩ := hfound
      rcases List.mem_append.mp (ih hslash' hrest ⟨l, List.mem_append_left _ hl, hmatch⟩ h) with
        hold | hnew
      · exact hold
      · rw [dummyLine_injective (List.mem_singleton.mp hnew)] at hmatch
        exact absurd ⟨l, hl, hmatch⟩ hq

/-- The lines that are there after the ports `before`. -/
theorem exists_found_iff {before : List Origin}
    (hadded : ∀ q, q ∈ added ↔ q ∈ before ∧ ¬ Named index q) :
    (∃ l ∈ (index.map fun l => awkCmd1 l.text) ++ added.map dummyLine,
      grep (port ++ [' ']) l = true) ↔ Found grep index before port := by
  constructor
  · rintro ⟨l, hl, hmatch⟩
    rcases List.mem_append.mp hl with hl | hl
    · obtain ⟨line, hline, rfl⟩ := List.mem_map.mp hl
      exact .inl ⟨line, hline, hmatch⟩
    · obtain ⟨q, hq, rfl⟩ := List.mem_map.mp hl
      obtain ⟨hbefore, hnamed⟩ := (hadded q).mp hq
      exact .inr ⟨q, hbefore, hnamed, hmatch⟩
  · rintro (⟨line, hline, hmatch⟩ | ⟨q, hq, hnamed, hmatch⟩)
    · exact ⟨_, List.mem_append_left _ (List.mem_map_of_mem hline), hmatch⟩
    · have hmem : q ∈ added := (hadded q).mpr ⟨hq, hnamed⟩
      exact ⟨_, List.mem_append_right _ (List.mem_map_of_mem hmem), hmatch⟩

theorem slash_mem_indexLines (index : List IndexLine) :
    ∀ l ∈ index.map fun l => awkCmd1 l.text, '/' ∈ l := by
  intro l hl
  obtain ⟨line, _, rfl⟩ := List.mem_map.mp hl
  rw [awkCmd1_text]
  exact List.mem_append_left _ line.name.slash_mem

theorem added_of_told (h : Run.Orderly (Told grep index) ports) (hports : ∀ q ∈ ports, '/' ∈ q) :
    ∃ added : List Origin,
      ports.foldl (addFixed grep) (index.map fun l => awkCmd1 l.text) =
        (index.map fun l => awkCmd1 l.text) ++ added.map dummyLine ∧
      ∀ q, q ∈ added ↔ q ∈ ports ∧ ¬ Named index q := by
  induction ports using List.reverseRecOn with
  | nil => exact ⟨[], by simp, by simp⟩
  | append_singleton ports port ih =>
    obtain ⟨added, hlines, hadded⟩ := ih h.init fun q hq => hports q (List.mem_append_left _ hq)
    have htold := h ports port [] rfl
    have hfound := @exists_found_iff grep index port added ports hadded
    have hslash := @slash_mem_foldl grep _ ports (slash_mem_indexLines index)
      fun q hq => hports q (List.mem_append_left [port] hq)
    rw [List.foldl_append, List.foldl_cons, List.foldl_nil]
    rw [← hlines] at hfound
    by_cases hmatch : Found grep index ports port
    · refine ⟨added, ?_, fun q => ?_⟩
      · rw [addFixed_of_found hslash (hfound.mpr hmatch), hlines]
      · have hport : ¬ Named index port → port ∈ ports := by
          intro hnamed
          by_contra hnew
          exact htold.2 hnamed hnew hmatch
        rw [hadded, List.mem_append, List.mem_singleton]
        constructor
        · exact fun hq => ⟨.inl hq.1, hq.2⟩
        · rintro ⟨hq | rfl, hnamed⟩
          · exact ⟨hq, hnamed⟩
          · exact ⟨hport hnamed, hnamed⟩
    · refine ⟨added ++ [port], ?_, fun q => ?_⟩
      · rw [addFixed_of_not_found fun hex => hmatch (hfound.mp hex), hlines, List.map_append,
          List.append_assoc, List.map_singleton]
      · have hnamed : ¬ Named index port := fun hnamed => hmatch (htold.1 hnamed)
        rw [List.mem_append, List.mem_append, hadded, List.mem_singleton]
        constructor
        · rintro (hq | rfl)
          · exact ⟨.inl hq.1, hq.2⟩
          · exact ⟨.inr rfl, hnamed⟩
        · rintro ⟨hq | rfl, hq'⟩
          · exact .inl ⟨hq, hq'⟩
          · exact .inr rfl

end Loop

theorem field_dummyLine (p : PortName) : Awk.field 1 (dummyLine p.origin) = p.origin :=
  field_origin p ['0']

section Complete
variable {grep} {index : List IndexLine} {files : List StatusFile}

theorem mem_worklist {line : Awk.Text} : line ∈ worklist grep index files ↔
    line ∈ (customPorts files).foldl (addFixed grep) (index.map fun l => awkCmd1 l.text) := by
  rw [worklist, mem_sortUnique, tmpfile_eq]

theorem slash_mem_customPorts : ∀ q ∈ customPorts files, '/' ∈ q := by
  intro q hq
  obtain ⟨f, _, rfl⟩ := List.mem_map.mp hq
  exact slash_mem_awkCmd3 f.path

theorem mem_customPorts {f : StatusFile} {p : PortName} (hf : f ∈ files) (hcustom : f.isCustom = true)
    (hdirs : f.dirs.map Name.chars = [p.category, p.port]) : p.origin ∈ customPorts files := by
  rw [← awkCmd3_path hdirs]
  exact List.mem_map_of_mem (List.mem_filter.mpr ⟨hf, hcustom⟩)

theorem field_of_mem_indexLines {line : Awk.Text} (h : line ∈ index.map fun l => awkCmd1 l.text) :
    Named index (Awk.field 1 line) := by
  obtain ⟨l, hl, rfl⟩ := List.mem_map.mp h
  rw [awkCmd1_text, field_origin]
  exact ⟨l, hl, rfl⟩

theorem complete_of_told (h : ToldApartByGrep grep index files) : Complete grep index files := by
  obtain ⟨added, hlines, hadded⟩ := added_of_told h slash_mem_customPorts
  have hindex : ∀ l ∈ index, awkCmd1 l.text ∈ worklist grep index files := by
    intro l hl
    rw [mem_worklist, hlines]
    exact List.mem_append_left _ (List.mem_map_of_mem hl)
  refine ⟨?_, ?_, added, ?_, fun port hport => ((hadded port).mp hport).2⟩
  · intro l hl
    rw [← awkCmd1_text]
    exact hindex l hl
  · intro f hf hcustom p hdirs
    by_cases hnamed : Named index p.origin
    · obtain ⟨l, hl, hname⟩ := hnamed
      refine ⟨_, hindex l hl, ?_⟩
      rw [awkCmd1_text, field_origin, hname]
    · have hmem := (hadded p.origin).mpr ⟨mem_customPorts hf hcustom hdirs, hnamed⟩
      refine ⟨dummyLine p.origin, ?_, field_dummyLine p⟩
      rw [mem_worklist, hlines]
      exact List.mem_append_right _ (List.mem_map_of_mem hmem)
  · rw [tmpfile_eq, hlines]

/-- The lines for ports of a complete worklist are told apart up to the port that comes next. -/
theorem told_next_of_complete (hat : AtPorts files) (h : Complete grep index files)
    {before after : List Origin} {port : Origin}
    (hports : customPorts files = before ++ port :: after)
    (htold : Run.Orderly (Told grep index) before) : Told grep index before port := by
  have hslash : ∀ q ∈ before, '/' ∈ q := fun q hq =>
    slash_mem_customPorts q (by rw [hports]; exact List.mem_append_left _ hq)
  obtain ⟨added, hlines, hadded⟩ := added_of_told htold hslash
  have hfound := @exists_found_iff grep index port added before hadded
  rw [← hlines] at hfound
  have hall : (customPorts files).foldl (addFixed grep) (index.map fun l => awkCmd1 l.text) =
      after.foldl (addFixed grep)
        (addFixed grep (before.foldl (addFixed grep) (index.map fun l => awkCmd1 l.text)) port) := by
    rw [hports, List.foldl_append, List.foldl_cons]
  constructor
  · intro hnamed
    by_contra hnot
    obtain ⟨ports, htmp, hunnamed⟩ := h.added
    have hpre := @prefix_foldl_addFixed grep (addFixed grep
      (before.foldl (addFixed grep) (index.map fun l => awkCmd1 l.text)) port) after
    rw [← hall, ← tmpfile_eq, htmp, addFixed_of_not_found fun hex => hnot (hfound.mp hex), hlines,
      List.append_assoc, List.prefix_append_right_inj] at hpre
    have hmem : dummyLine port ∈ ports.map dummyLine :=
      hpre.subset (List.mem_append_right _ (List.mem_singleton_self _))
    obtain ⟨q, hq, heq⟩ := List.mem_map.mp hmem
    rw [dummyLine_injective heq] at hq
    exact hunnamed port hq hnamed
  · intro hnamed hnew hmatch
    have hport : port ∈ customPorts files := by
      rw [hports]
      exact List.mem_append_right _ List.mem_cons_self
    obtain ⟨f, hf, rfl⟩ := List.mem_map.mp hport
    obtain ⟨hf, hcustom⟩ := List.mem_filter.mp hf
    obtain ⟨p, hdirs⟩ := hat f hf hcustom
    rw [awkCmd3_path hdirs] at *
    obtain ⟨line, hline, hfield⟩ := h.custom f hf hcustom p hdirs
    rw [mem_worklist] at hline
    have hdummy : dummyLine p.origin ∈
        (customPorts files).foldl (addFixed grep) (index.map fun l => awkCmd1 l.text) := by
      rcases mem_foldl_addFixed hline with hold | ⟨q, hq, rfl⟩
      · exact absurd (hfield ▸ field_of_mem_indexLines hold) hnamed
      · obtain ⟨g, hg, rfl⟩ := List.mem_map.mp hq
        obtain ⟨hg, hgcustom⟩ := List.mem_filter.mp hg
        obtain ⟨p', hdirs'⟩ := hat g hg hgcustom
        rw [awkCmd3_path hdirs', field_dummyLine] at hfield
        rwa [awkCmd3_path hdirs', hfield] at hline
    rw [hports, List.foldl_append] at hdummy
    have hafter : ∀ q ∈ p.origin :: after, '/' ∈ q := fun q hq =>
      slash_mem_customPorts q (by rw [hports]; exact List.mem_append_right _ hq)
    have hbefore := not_added_of_found (slash_mem_foldl (slash_mem_indexLines index) hslash) hafter
      (hfound.mpr hmatch) hdummy
    rw [hlines] at hbefore
    rcases List.mem_append.mp hbefore with hold | hold
    · exact hnamed (field_dummyLine p ▸ field_of_mem_indexLines hold)
    · obtain ⟨q, hq, heq⟩ := List.mem_map.mp hold
      rw [dummyLine_injective heq] at hq
      exact hnew ((hadded _).mp hq).1

theorem told_of_complete (hat : AtPorts files) (h : Complete grep index files) :
    ToldApartByGrep grep index files := by
  have hprefix {before after : List Origin} (hports : customPorts files = before ++ after) :
      Run.Orderly (Told grep index) before := by
    induction before using List.reverseRecOn generalizing after with
    | nil => exact Run.orderly_nil
    | append_singleton before port ih =>
      rw [List.append_assoc] at hports
      exact (ih hports).concat (told_next_of_complete hat h hports (ih hports))
  exact hprefix (List.append_nil _).symm

end Complete

/-- The worklist is complete where `grep` finds each port of `CUSTOM` that the `INDEX` names, and
no line of another port for the others; and only there, if the files are those of ports. -/
theorem complete_iff_told (index : List IndexLine) (files : List StatusFile) :
    (ToldApartByGrep grep index files → Complete grep index files) ∧
      (AtPorts files → (Complete grep index files ↔ ToldApartByGrep grep index files)) :=
  ⟨complete_of_told, fun hat => ⟨told_of_complete hat, complete_of_told⟩⟩

def subnetFoo : IndexLine where
  pkgname := "foo-1.0".toList
  above := "/usr/ports".toList
  name := ⟨"subnet".toList, "foo".toList, by decide, by decide, by decide⟩
  rest := "/usr/local".toList
  noBar := by decide

def netFoo : PortName := ⟨"net".toList, "foo".toList, by decide, by decide, by decide⟩

def netFooStatus : StatusFile where
  dirs := [⟨netFoo.category, by decide⟩, ⟨netFoo.port, by decide⟩]
  lines := ["DPORT".toList]
  shown := by decide

/-- `grep` for a pattern without special characters. -/
def grepLiteral (pattern line : Awk.Text) : Bool := decide (pattern <:+: line)

/-- The line of subnet/foo hides the delta port net/foo. -/
theorem netFoo_lost : ¬ Complete grepLiteral [subnetFoo] [netFooStatus] := by
  intro h
  have hat : AtPorts [netFooStatus] := by
    intro f hf _
    rw [List.mem_singleton.mp hf]
    exact ⟨netFoo, rfl⟩
  have hports : customPorts [netFooStatus] = [netFoo.origin] := by decide
  have htold := told_of_complete hat h
  rw [ToldApartByGrep, hports] at htold
  have hnamed : ¬ Named [subnetFoo] netFoo.origin := by
    rintro ⟨l, hl, hname⟩
    rw [List.mem_singleton.mp hl] at hname
    exact absurd hname (by decide)
  refine (htold [] netFoo.origin [] rfl).2 hnamed List.not_mem_nil (.inl ⟨subnetFoo, ?_, ?_⟩)
  · exact List.mem_singleton_self subnetFoo
  · decide

end DeltaPorts.Generator

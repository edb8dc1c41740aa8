import DeltaPorts.Library.Awk
import DeltaPorts.Library.LineTools

/-!
# Unified diffs

The text that `git diff` prints: for each file some header lines, and hunks of lines of the file
behind one more character.
-/

set_option autoImplicit false

namespace Diffs

abbrev Text := Awk.Text

structure FileLine where
  text : Text
  no_newline : '\n' ∉ text

inductive HunkLine where
  | context (line : FileLine)
  | added (line : FileLine)
  | removed (line : FileLine)
  | noNewline

/-- What the line without a newline at the end of the file is followed by. -/
def noNewlineText : Text := "\\ No newline at end of file".toList

def HunkLine.text : HunkLine → Text
  | .context line => ' ' :: line.text
  | .added line => '+' :: line.text
  | .removed line => '-' :: line.text
  | .noNewline => noNewlineText

/-- What follows `@@`, and the lines. -/
structure Hunk where
  place : FileLine
  lines : List HunkLine

def Hunk.texts (h : Hunk) : List Text :=
  ("@@ ".toList ++ h.place.text) :: h.lines.map HunkLine.text

/-- The first words of the lines before `---` and `+++`. -/
inductive HeaderWord where
  | diff | old | new | deleted | similarity | dissimilarity | copy | rename | index | binary
  | unmerged

def HeaderWord.text : HeaderWord → Text
  | .diff => "diff".toList
  | .old => "old".toList
  | .new => "new".toList
  | .deleted => "deleted".toList
  | .similarity => "similarity".toList
  | .dissimilarity => "dissimilarity".toList
  | .copy => "copy".toList
  | .rename => "rename".toList
  | .index => "index".toList
  | .binary => "Binary".toList
  | .unmerged => "*".toList

structure HeaderLine where
  word : HeaderWord
  rest : FileLine

def HeaderLine.text (h : HeaderLine) : Text := h.word.text ++ ' ' :: h.rest.text

/-- The names are there if hunks are. -/
structure FileDiff where
  headers : List HeaderLine
  names : Option (FileLine × FileLine)
  hunks : List Hunk

def FileDiff.nameLines (d : FileDiff) : List Text :=
  match d.names with
  | none => []
  | some (old, new) => ["--- ".toList ++ old.text, "+++ ".toList ++ new.text]

def FileDiff.texts (d : FileDiff) : List Text :=
  d.headers.map HeaderLine.text ++ d.nameLines ++ d.hunks.flatMap Hunk.texts

abbrev Diff := List FileDiff

def texts (d : Diff) : List Text := d.flatMap FileDiff.texts

def print (d : Diff) : Text := LineTools.unlines (texts d)

inductive Side where
  | added
  | removed
  deriving DecidableEq

def Side.sign : Side → Char
  | .added => '+'
  | .removed => '-'

/-- The first word of the line with the file's name. -/
def Side.mark (side : Side) : Text := [side.sign, side.sign, side.sign]

def HunkLine.changed : Side → HunkLine → List Text
  | .added, .added line => [line.text]
  | .removed, .removed line => [line.text]
  | _, _ => []

def Hunk.changed (side : Side) (h : Hunk) : List Text := h.lines.flatMap (HunkLine.changed side)

def FileDiff.changed (side : Side) (d : FileDiff) : List Text := d.hunks.flatMap (Hunk.changed side)

/-- The lines of all files that are added, or those that are removed, without their sign. -/
def changed (side : Side) (d : Diff) : List Text := d.flatMap (FileDiff.changed side)

theorem HeaderLine.newline_not_mem (header : HeaderLine) : '\n' ∉ header.text := by
  have hword : '\n' ∉ header.word.text := by cases header.word <;> decide
  have hrest := header.rest.no_newline
  simp [HeaderLine.text, hword, hrest]

theorem FileDiff.newline_not_mem {d : FileDiff} {l : Text} (h : l ∈ d.nameLines) : '\n' ∉ l := by
  unfold FileDiff.nameLines at h
  cases hnames : d.names with
  | none => simp [hnames] at h
  | some names =>
    have hold := names.1.no_newline
    have hnew := names.2.no_newline
    rw [hnames] at h
    simp only [List.mem_cons, List.not_mem_nil, or_false] at h
    obtain rfl | rfl := h
    · simp [hold]
    · simp [hnew]

theorem HunkLine.newline_not_mem (line : HunkLine) : '\n' ∉ line.text := by
  cases line with
  | context line => simp [HunkLine.text, line.no_newline]
  | added line => simp [HunkLine.text, line.no_newline]
  | removed line => simp [HunkLine.text, line.no_newline]
  | noNewline => decide

theorem Hunk.newline_not_mem {hunk : Hunk} {l : Text} (h : l ∈ hunk.texts) : '\n' ∉ l := by
  cases List.mem_cons.mp h with
  | inl heq =>
    have hplace := hunk.place.no_newline
    rw [heq]
    simp [hplace]
  | inr hmem =>
    obtain ⟨line, _, rfl⟩ := List.mem_map.mp hmem
    exact line.newline_not_mem

theorem newline_not_mem_texts {d : Diff} {l : Text} (h : l ∈ texts d) : '\n' ∉ l := by
  obtain ⟨file, _, hl⟩ := List.mem_flatMap.mp h
  unfold FileDiff.texts at hl
  rw [List.mem_append, List.mem_append, List.mem_map, List.mem_flatMap] at hl
  obtain (⟨header, _, rfl⟩ | hname) | ⟨hunk, _, hhunk⟩ := hl
  · exact header.newline_not_mem
  · exact FileDiff.newline_not_mem hname
  · exact Hunk.newline_not_mem hhunk

/-- What reads the printed diff line by line sees the lines of the diff. -/
theorem lines_print (d : Diff) : LineTools.lines (print d) = texts d :=
  LineTools.lines_unlines fun _ => newline_not_mem_texts

theorem HeaderWord.text_cons (side : Side) (word : HeaderWord) :
    ∃ c rest, word.text = c :: rest ∧ c ≠ side.sign := by
  cases side <;> cases word <;> exact ⟨_, _, rfl, by decide⟩

section Filter

variable {side : Side} {p : Text → Bool} (hsign : ∀ l, p l = true → l.head? = some side.sign)
include hsign

theorem not_of_sign {c : Char} (hc : c ≠ side.sign) (l : Text) : p (c :: l) = false := by
  rw [← Bool.not_eq_true]
  intro h
  exact hc (Option.some_inj.mp (hsign _ h))

theorem filter_hunkLine (line : HunkLine) :
    [line.text].filter p = ((line.changed side).map (side.sign :: ·)).filter p := by
  cases line with
  | context line =>
    have hno := not_of_sign hsign (c := ' ') (by cases side <;> decide) line.text
    rw [List.filter_singleton, HunkLine.text, hno]
    cases side <;> rfl
  | added line =>
    cases side with
    | added => rfl
    | removed =>
      have hno := not_of_sign hsign (c := '+') (by decide) line.text
      rw [List.filter_singleton, HunkLine.text, hno]
      rfl
  | removed line =>
    cases side with
    | added =>
      have hno := not_of_sign hsign (c := '-') (by decide) line.text
      rw [List.filter_singleton, HunkLine.text, hno]
      rfl
    | removed => rfl
  | noNewline =>
    have hno : p noNewlineText = false := not_of_sign hsign (c := '\\')
      (by cases side <;> decide) " No newline at end of file".toList
    rw [List.filter_singleton, HunkLine.text, hno]
    cases side <;> rfl

theorem filter_hunk (h : Hunk) :
    h.texts.filter p = ((h.changed side).map (side.sign :: ·)).filter p := by
  have hplace := not_of_sign hsign (c := '@') (by cases side <;> decide)
    ("@ ".toList ++ h.place.text)
  have hlines : h.lines.map HunkLine.text = h.lines.flatMap fun line => [line.text] :=
    List.map_eq_flatMap
  unfold Hunk.texts Hunk.changed
  rw [List.filter_cons_of_neg (Bool.not_eq_true _ ▸ hplace), hlines, List.filter_flatMap,
    List.map_flatMap, List.filter_flatMap]
  exact List.flatMap_congr fun line _ => filter_hunkLine hsign line

theorem filter_headers (headers : List HeaderLine) :
    (headers.map HeaderLine.text).filter p = [] := by
  rw [List.filter_eq_nil_iff]
  intro l hl
  obtain ⟨header, _, rfl⟩ := List.mem_map.mp hl
  obtain ⟨c, rest, htext, hc⟩ := HeaderWord.text_cons side header.word
  unfold HeaderLine.text
  rw [htext, List.cons_append, not_of_sign hsign hc]
  exact Bool.false_ne_true

variable (hmark : ∀ l, p (side.mark ++ ' ' :: l) = false)
include hmark

theorem filter_nameLines (d : FileDiff) : d.nameLines.filter p = [] := by
  unfold FileDiff.nameLines
  cases d.names with
  | none => rfl
  | some names =>
    have hother : ∀ c, c ≠ side.sign → ∀ l, ¬ p (c :: l) = true := by
      intro c hc l
      rw [not_of_sign hsign hc l]
      exact Bool.false_ne_true
    have hown : ∀ l, ¬ p (side.mark ++ ' ' :: l) = true := fun l => Bool.not_eq_true _ ▸ hmark l
    rw [List.filter_eq_nil_iff]
    cases side with
    | added =>
      exact List.forall_mem_cons.mpr
        ⟨hother '-' (by decide) _, List.forall_mem_singleton.mpr (hown names.2.text)⟩
    | removed =>
      exact List.forall_mem_cons.mpr
        ⟨hown names.1.text, List.forall_mem_singleton.mpr (hother '+' (by decide) _)⟩

/-- A test that tells the names apart sees the changed lines only. -/
theorem filter_texts (d : Diff) :
    (texts d).filter p = ((changed side d).map (side.sign :: ·)).filter p := by
  unfold texts changed
  rw [List.filter_flatMap, List.map_flatMap, List.filter_flatMap]
  refine List.flatMap_congr fun file _ => ?_
  unfold FileDiff.texts FileDiff.changed
  rw [List.filter_append, List.filter_append, filter_headers hsign, filter_nameLines hsign hmark,
    List.nil_append, List.nil_append, List.filter_flatMap, List.map_flatMap, List.filter_flatMap]
  exact List.flatMap_congr fun hunk _ => filter_hunk hsign hunk

end Filter

end Diffs

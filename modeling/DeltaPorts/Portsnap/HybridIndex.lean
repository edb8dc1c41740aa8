import DeltaPorts.Library.KeyedFiles
import DeltaPorts.Portsnap.Prepare

/-!
# The index that an update builds when ports are refused

Index files that are sorted on the path and have each path once are finite maps from paths to
lines. The hybrid of two of them is such a map again, the old one on the refused paths and the
new one on the others. `join` needs files of this kind.
-/

set_option autoImplicit false

namespace DeltaPorts.Portsnap

open LineTools Script

variable {t : Tools} {cfg : Config} {srv : Server} {d s : Dir} {l m path : Text}

/-- An index file that is sorted on the path and has one line for each path. -/
structure IndexFile where
  text : Bytes
  keyed : Keyed (field 1) (lines text)

namespace IndexFile

def entry (i : IndexFile) (path : Text) : Option Text :=
  (lines i.text).find? fun l => field 1 l == path

theorem entry_eq_some (i : IndexFile) :
    i.entry path = some l ↔ l ∈ lines i.text ∧ field 1 l = path := by
  constructor
  · intro h
    refine ⟨List.mem_of_find?_eq_some h, ?_⟩
    simpa using List.find?_some h
  · rintro ⟨hl, rfl⟩
    cases hfind : i.entry (field 1 l) with
    | none =>
      have hnone := List.find?_eq_none.mp hfind l hl
      simp at hnone
    | some m =>
      have hm := List.mem_of_find?_eq_some hfind
      have hkey : field 1 m = field 1 l := by simpa using List.find?_some hfind
      rw [i.keyed.eq_of_key hm hl hkey]

theorem entry_eq_none (i : IndexFile) :
    i.entry path = none ↔ ∀ l ∈ lines i.text, field 1 l ≠ path := by
  simp [entry]

end IndexFile

theorem bar_not_mem_path (l : Text) : '|' ∉ field 1 l := by
  by_cases hbar : '|' ∈ l
  · obtain ⟨first, rest, rfl, hfirst⟩ := List.eq_append_cons_of_mem hbar
    rw [field, List.splitOn_append_cons_self_of_not_mem hfirst]
    exact hfirst
  · rw [field, List.splitOn_eq_singleton hbar]
    exact hbar

theorem path_of_path (l : Text) : field 1 (field 1 l) = field 1 l := by
  rw [field, List.splitOn_eq_singleton (bar_not_mem_path l)]
  rfl

/-- A value of `REFUSE` that decides on a line by its path. `prints` is what `grep -E` prints. -/
structure PathExpression where
  prints : Text → Bool
  path_only : ∀ l m, field 1 l = field 1 m → prints l = prints m

theorem PathExpression.prints_path (e : PathExpression) (hl : field 1 l = path) :
    e.prints l = e.prints path := by
  subst hl
  exact e.path_only l _ (path_of_path l).symm

theorem lineBefore_iff (hne : field 1 l ≠ field 1 m) :
    lineBefore l m = true ↔ field 1 l < field 1 m := by
  simp [lineBefore, hne]

section Merged

variable (e : PathExpression) (old new : IndexFile)

def mergedLines : List Text := sortMerge lineBefore ((lines old.text).filter e.prints)
  ((lines new.text).filter fun l => !e.prints l)

theorem keyed_mergedLines : Keyed (field 1) (mergedLines e old new) := by
  refine Keyed.sortMerge (old.keyed.filter _) (new.keyed.filter _) ?_
  intro l hl m hm
  have hrefused := (List.mem_filter.mp hl).2
  have hkept := (List.mem_filter.mp hm).2
  -- a path is refused in both files or in none
  have hne : field 1 l ≠ field 1 m := by
    intro heq
    rw [← e.path_only l m heq, hrefused] at hkept
    cases hkept
  exact ⟨hne, lineBefore_iff hne.symm⟩

theorem mem_mergedLines : l ∈ mergedLines e old new ↔
    e.prints l = true ∧ l ∈ lines old.text ∨ e.prints l = false ∧ l ∈ lines new.text := by
  rw [mergedLines, mem_sortMerge, List.mem_filter, List.mem_filter]
  simp only [Bool.not_eq_true', and_comm]

theorem lines_mergedLines : lines (unlines (mergedLines e old new)) = mergedLines e old new := by
  apply lines_unlines
  intro l hl
  rcases (mem_mergedLines e old new).mp hl with ⟨-, hl⟩ | ⟨-, hl⟩
  · exact newline_not_mem_lines hl
  · exact newline_not_mem_lines hl

def IndexFile.merged : IndexFile where
  text := unlines (mergedLines e old new)
  keyed := by
    rw [lines_mergedLines]
    exact keyed_mergedLines e old new

end Merged

/-- What the new index becomes; `none` stands for an empty `REFUSE`. -/
def IndexFile.hybrid (refused : Option PathExpression) (old new : IndexFile) : IndexFile :=
  match refused with
  | none => new
  | some e => IndexFile.merged e old new

variable (refused : Option PathExpression) (old new : IndexFile)

def isRefused (l : Text) : Bool := refused.any (·.prints l)

theorem isRefused_path (hl : field 1 l = path) : isRefused refused l = isRefused refused path := by
  cases refused with
  | none => rfl
  | some e => simp [isRefused, e.prints_path hl]

theorem mem_hybrid : l ∈ lines (IndexFile.hybrid refused old new).text ↔
    isRefused refused l = true ∧ l ∈ lines old.text ∨
      isRefused refused l = false ∧ l ∈ lines new.text := by
  cases refused with
  | none => simp [isRefused, IndexFile.hybrid]
  | some e =>
    simp [isRefused, IndexFile.hybrid, IndexFile.merged, lines_mergedLines, mem_mergedLines]

theorem hybrid_eq (cfg : Config) (hcfg : cfg.refuse = refused.map PathExpression.prints)
    (hold : d.INDEX = some old.text) (hnew : d.INDEXnew = some new.text) :
    hybrid cfg d = { d with INDEXnew := some (IndexFile.hybrid refused old new).text } := by
  rw [hybrid, hcfg]
  cases refused with
  | none => simp [IndexFile.hybrid, ← hnew]
  | some e => simp [IndexFile.hybrid, IndexFile.merged, mergedLines, hold, hnew]

/-- The hybrid of two index files is an index file, with the lines of the old one for the refused
paths and with those of the new one for the others. -/
theorem hybrid_lines (cfg : Config) (d : Dir) : ∃ i : IndexFile,
    hybrid { cfg with refuse := refused.map PathExpression.prints }
      { d with INDEX := some old.text, INDEXnew := some new.text } =
        { d with INDEX := some old.text, INDEXnew := some i.text } ∧
    ∀ l, l ∈ lines i.text ↔ isRefused refused l = true ∧ l ∈ lines old.text ∨
      isRefused refused l = false ∧ l ∈ lines new.text :=
  ⟨IndexFile.hybrid refused old new, hybrid_eq refused old new _ rfl rfl rfl,
    fun _ => mem_hybrid refused old new⟩

-- `a` is refused, `c` is no longer there and `d` is new
example : (IndexFile.hybrid (some ⟨fun l => field 1 l == "a".toList, fun l m h => by rw [h]⟩)
    ⟨"a|1\nb|2\nc|3\n".toList, by unfold Keyed; decide +kernel⟩
    ⟨"a|4\nb|5\nd|6\n".toList, by unfold Keyed; decide +kernel⟩).text =
      "a|1\nb|5\nd|6\n".toList := by decide +kernel

theorem entry_hybrid_eq_some : (IndexFile.hybrid refused old new).entry path = some l ↔
    isRefused refused path = true ∧ old.entry path = some l ∨
      isRefused refused path = false ∧ new.entry path = some l := by
  simp only [IndexFile.entry_eq_some, mem_hybrid]
  constructor
  · rintro ⟨⟨hrefused, hl⟩ | ⟨hkept, hl⟩, hpath⟩
    · rw [isRefused_path refused hpath] at hrefused
      exact .inl ⟨hrefused, hl, hpath⟩
    · rw [isRefused_path refused hpath] at hkept
      exact .inr ⟨hkept, hl, hpath⟩
  · rintro (⟨hrefused, hl, hpath⟩ | ⟨hkept, hl, hpath⟩)
    · rw [← isRefused_path refused hpath] at hrefused
      exact ⟨.inl ⟨hrefused, hl⟩, hpath⟩
    · rw [← isRefused_path refused hpath] at hkept
      exact ⟨.inr ⟨hkept, hl⟩, hpath⟩

/-- The hybrid as a map: the old index on the refused paths, the new one on the others. -/
theorem entry_hybrid : (IndexFile.hybrid refused old new).entry path =
    if isRefused refused path then old.entry path else new.entry path := by
  ext l
  rw [entry_hybrid_eq_some]
  cases isRefused refused path <;> simp

theorem mem_join_iff {q : Text × Text} : q ∈ (join old.text new.text).1 ↔
    ∃ path l m, old.entry path = some l ∧ new.entry path = some m ∧ q = (field 2 l, field 2 m) := by
  simp only [join, List.mem_map, Prod.exists, mem_joinWalk_pairs old.keyed new.keyed,
    IndexFile.entry_eq_some]
  constructor
  · rintro ⟨l, m, ⟨hl, hm, hkey⟩, rfl⟩
    exact ⟨field 1 m, l, m, ⟨hl, hkey⟩, ⟨hm, rfl⟩, rfl⟩
  · rintro ⟨path, l, m, ⟨hl, hlpath⟩, ⟨hm, hmpath⟩, rfl⟩
    exact ⟨l, m, ⟨hl, hm, hlpath.trans hmpath.symm⟩, rfl⟩

theorem mem_join_single {y : Text} : y ∈ (join old.text new.text).2 ↔
    ∃ path m, old.entry path = none ∧ new.entry path = some m ∧ y = cut 2 m := by
  simp only [join, List.mem_map, mem_joinWalk_single old.keyed new.keyed, IndexFile.entry_eq_some,
    IndexFile.entry_eq_none]
  constructor
  · rintro ⟨m, ⟨hm, hnone⟩, rfl⟩
    exact ⟨field 1 m, m, hnone, ⟨hm, rfl⟩, rfl⟩
  · rintro ⟨path, m, hnone, ⟨hm, rfl⟩, rfl⟩
    exact ⟨m, ⟨hm, hnone⟩, rfl⟩

/-- What is fetched for the ports belongs to paths that are not refused. -/
theorem refused_not_fetched :
    (∀ q ∈ (join old.text (IndexFile.hybrid refused old new).text).1, q.1 ≠ q.2 →
      ∃ path m, isRefused refused path = false ∧ new.entry path = some m ∧ q.2 = field 2 m) ∧
    ∀ y ∈ (join old.text (IndexFile.hybrid refused old new).text).2,
      ∃ path m, isRefused refused path = false ∧ new.entry path = some m ∧ y = cut 2 m := by
  constructor
  · intro q hq hne
    obtain ⟨path, l, m, hl, hm, rfl⟩ := (mem_join_iff _ _).mp hq
    rcases (entry_hybrid_eq_some _ _ _).mp hm with ⟨-, hm⟩ | ⟨hkept, hm⟩
    · rw [hl] at hm
      cases hm
      exact absurd rfl hne
    · exact ⟨path, m, hkept, hm, rfl⟩
  · intro y hy
    obtain ⟨path, m, hnone, hm, rfl⟩ := (mem_join_single _ _).mp hy
    rcases (entry_hybrid_eq_some _ _ _).mp hm with ⟨-, hm⟩ | ⟨hkept, hm⟩
    · rw [hnone] at hm
      cases hm
    · exact ⟨path, m, hkept, hm, rfl⟩

/-- The new index that an update installs is the hybrid of its old one and the extracted one. -/
theorem prepare_hybrid (hs : s.Ready) (hash : List Text)
    (hcfg : cfg.refuse = refused.map PathExpression.prints) (hold : s.INDEX = some old.text) :
    Holds (· = s) (prepare t cfg srv hash) (fun _ => True) fun ok u => if ok then
      ∃ x m, hash = [t.sha256 x] ∧ ∀ new : IndexFile, extracted t m x = new.text →
        u.INDEXnew = some (IndexFile.hybrid refused old new).text
      else True := by
  refine (prepare_spec hs hash).weaken (fun _ h => h) (fun _ _ => trivial) fun ok u hu => ?_
  cases ok with
  | false => exact trivial
  | true =>
    obtain ⟨x, i, s', m, hhash, hsame, hp, hhybrid⟩ := hu
    refine ⟨x, m, hhash, fun new hnew => ?_⟩
    have hold' : s'.INDEX = some old.text := by rw [hsame.store, hold]
    have hINDEX : (extractIndex t m).INDEX = some old.text := hp.metadata_grows.INDEX.trans hold'
    have hINDEXnew : (extractIndex t m).INDEXnew = some new.text := by
      rw [← hnew, extractIndex, hp.metadata.tINDEXnew]
      rfl
    rw [hybrid_eq refused old new cfg hcfg hINDEX hINDEXnew] at hhybrid
    rw [hp.INDEXnew]
    exact (congrArg Dir.INDEXnew hhybrid).symm

end DeltaPorts.Portsnap

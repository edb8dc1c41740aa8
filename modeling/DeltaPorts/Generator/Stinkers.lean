import DeltaPorts.Generator.Prune
import DeltaPorts.Library.Leftovers

/-!
# stinkers.sh

The loop of `stinkers.sh` collects the package names of the ports that are not in `DPORTS` and
that are not masked. The variable `testmask` is unset at first.
-/

set_option autoImplicit false

namespace DeltaPorts.Generator.Stinkers

open Leftovers
open Prune (PortDir)

abbrev Text := Awk.Text

/-- The directories below `DPORTS`, and the files `STATUS` in those below `DELTA/ports`. -/
structure Trees where
  dports : Text → Bool
  status : Text → Option Text

/-- `substr($2, 12) " " $1`, with `|` between the fields. -/
def awkCmd (line : Text) : Text :=
  (((line.splitOn '|')[1]?).getD []).drop 11 ++ ' ' :: ((line.splitOn '|')[0]?).getD []

/-- `split ${line}`: `VAL1` and `VAL2`. -/
def split (line : Text) : Text × Text := (Awk.field 1 line, Awk.field 2 line)

def head (file : Text) : Text := Shell.captured ((LineTools.lines file).take 1)

structure Vars where
  testmask : Option Nat
  tmpfil2 : List Text

/-- `testmask` after the inner conditional. -/
def Vars.tested (v : Vars) (t : Trees) (val1 : Text) : Option Nat :=
  match t.status val1 with
  | some file => if head file = "MASK".toList then some 1 else v.testmask
  | none => some 0

/-- The body of the loop; `[ ${testmask} -eq 0 ]` fails if the variable is unset. -/
def body (t : Trees) (v : Vars) (line : Text) : Vars :=
  let (val1, val2) := split line
  if t.dports val1 = true then v
  else
    let testmask := v.tested t val1
    if testmask = some 0 then ⟨testmask, v.tmpfil2 ++ [val2]⟩ else ⟨testmask, v.tmpfil2⟩

/-- `TMPFIL2` after the loop. -/
def unbuiltList (t : Trees) (index : Text) : List Text :=
  (((LineTools.lines index).map awkCmd).foldl (body t) ⟨none, []⟩).tmpfil2

structure IndexEntry where
  pkgname : Name
  port : PortDir
  rest : Text
  noBar : '|' ∉ pkgname.chars ∧ '|' ∉ port.text
  noNewline : '\n' ∉ rest

def IndexEntry.path (e : IndexEntry) : Text := "/usr/ports/".toList ++ e.port.text

def IndexEntry.text (e : IndexEntry) : Text := LineTools.barred e.pkgname.chars e.path e.rest

def indexText (es : List IndexEntry) : Text := LineTools.unlines (es.map IndexEntry.text)

def masked (file : Text) : Prop := (LineTools.lines file).head? = some "MASK".toList

instance (file : Text) : Decidable (masked file) :=
  inferInstanceAs (Decidable ((LineTools.lines file).head? = some "MASK".toList))

variable (t : Trees)

def Missing (e : IndexEntry) : Prop := t.dports e.port.text = false

/-- A missing port without a `STATUS`. -/
def Bare (e : IndexEntry) : Prop := Missing t e ∧ t.status e.port.text = none

/-- A missing port with a `STATUS` that does not mask it. -/
def Known (e : IndexEntry) : Prop :=
  Missing t e ∧ ∃ file, t.status e.port.text = some file ∧ ¬ masked file

def round (e : IndexEntry) : Round :=
  if t.dports e.port.text = true then .pass
  else match t.status e.port.text with
    | none => .set
    | some file => if masked file then .clear else .leave

def unbuilt (es : List IndexEntry) : List Text :=
  (es.filter fun e =>
    !t.dports e.port.text && (t.status e.port.text).all fun file => !decide (masked file)).map
      fun e => e.pkgname.chars

/-- Each unmasked `STATUS` of a missing port comes after a missing port without one, and no
masked missing port is between them. -/
def Settled (es : List IndexEntry) : Prop :=
  ∀ before e after, es = before ++ e :: after → Known t e →
    lastSetting (round t) before = some .set

theorem head_eq_iff (file : Text) : head file = "MASK".toList ↔ masked file := by
  unfold head masked
  cases hlines : LineTools.lines file with
  | nil => exact iff_of_false (by decide) (by simp)
  | cons l ls =>
    have hnewline : '\n' ∉ l :=
      LineTools.newline_not_mem_lines (hlines ▸ List.mem_cons_self)
    rw [List.take_succ_cons, List.take_zero, Shell.captured_singleton hnewline, List.head?_cons,
      Option.some_inj]

theorem text_plain (d : PortDir) : Awk.Plain d.text ∧ d.text ≠ [] :=
  ⟨d.category.chars_plain.1.path d.port.chars_plain.1, List.append_ne_nil_of_right_ne_nil _
    (List.cons_ne_nil _ _)⟩

theorem splitOn_text (e : IndexEntry) :
    e.text.splitOn '|' = e.pkgname.chars :: e.path :: e.rest.splitOn '|' := by
  have hpath : '|' ∉ e.path := by
    unfold IndexEntry.path
    rw [List.mem_append, not_or]
    exact ⟨by decide, e.noBar.2⟩
  exact LineTools.splitOn_barred e.noBar.1 hpath e.rest

/-- Of an entry the loop sees its directory and its package name. -/
theorem split_awkCmd (e : IndexEntry) :
    split (awkCmd e.text) = (e.port.text, e.pkgname.chars) := by
  have hcmd : awkCmd e.text = e.port.text ++ ' ' :: e.pkgname.chars := by
    unfold awkCmd
    rw [splitOn_text]
    rfl
  obtain ⟨hdir, hdirne⟩ := text_plain e.port
  obtain ⟨hname, hnamene⟩ := e.pkgname.chars_plain
  have hwords : Awk.words (e.port.text ++ ' ' :: e.pkgname.chars) =
      [e.port.text, e.pkgname.chars] := by
    rw [Awk.words_append hdir hdirne rfl, Awk.words_blank_cons (by decide),
      Awk.words_plain hname hnamene]
  unfold split Awk.field
  rw [hcmd, hwords]
  rfl

theorem newline_not_mem_text (e : IndexEntry) : '\n' ∉ e.text := by
  have hname := e.pkgname.chars_plain.1.newline_not_mem
  have hdir := (text_plain e.port).1.newline_not_mem
  have hpath : '\n' ∉ e.path := by
    unfold IndexEntry.path
    rw [List.mem_append, not_or]
    exact ⟨by decide, hdir⟩
  exact LineTools.newline_not_mem_barred hname hpath e.noNewline

theorem lines_indexText (es : List IndexEntry) :
    LineTools.lines (indexText es) = es.map IndexEntry.text := by
  apply LineTools.lines_unlines
  intro l hl
  obtain ⟨e, _, rfl⟩ := List.mem_map.mp hl
  exact newline_not_mem_text e

variable {t}

def Vars.flag (v : Vars) : Bool := decide (v.testmask = some 0)

theorem tested_flag (v : Vars) {e : IndexEntry} (hmissing : Missing t e) :
    decide (v.tested t e.port.text = some 0) = (round t e).flag v.flag := by
  have hdports : ¬ t.dports e.port.text = true := Bool.eq_false_iff.mp hmissing
  unfold Vars.tested round
  rw [if_neg hdports]
  cases t.status e.port.text with
  | none => rfl
  | some file =>
    by_cases hmasked : masked file
    · simp only [if_pos ((head_eq_iff file).mpr hmasked), if_pos hmasked]
      rfl
    · simp only [if_neg (mt (head_eq_iff file).mp hmasked), if_neg hmasked]
      rfl

theorem round_ne_pass {e : IndexEntry} (hmissing : Missing t e) : round t e ≠ .pass := by
  have hdports : ¬ t.dports e.port.text = true := Bool.eq_false_iff.mp hmissing
  unfold round
  rw [if_neg hdports]
  cases t.status e.port.text with
  | none => decide
  | some file => by_cases hmasked : masked file <;> simp [hmasked]

theorem body_eq (v : Vars) (e : IndexEntry) :
    body t v (awkCmd e.text) =
      if t.dports e.port.text = true then v
      else if v.tested t e.port.text = some 0 then
        ⟨v.tested t e.port.text, v.tmpfil2 ++ [e.pkgname.chars]⟩
      else ⟨v.tested t e.port.text, v.tmpfil2⟩ := by
  unfold body
  rw [split_awkCmd]

theorem body_entry (v : Vars) (e : IndexEntry) :
    (body t v (awkCmd e.text)).flag = (round t e).flag v.flag ∧
      (body t v (awkCmd e.text)).tmpfil2 = v.tmpfil2 ++
        if (round t e).takes v.flag = true then [e.pkgname.chars] else [] := by
  rw [body_eq]
  by_cases hdports : t.dports e.port.text = true
  · have hround : round t e = .pass := if_pos hdports
    rw [if_pos hdports, hround]
    exact ⟨rfl, (List.append_nil v.tmpfil2).symm⟩
  · have hmissing : Missing t e := Bool.eq_false_of_not_eq_true hdports
    rw [if_neg hdports, takes_eq_flag (round_ne_pass hmissing), ← tested_flag v hmissing]
    by_cases htested : v.tested t e.port.text = some 0
    · simp only [if_pos htested, decide_eq_true htested]
      exact ⟨decide_eq_true htested, rfl⟩
    · simp only [if_neg htested, decide_eq_false htested]
      exact ⟨decide_eq_false htested, (List.append_nil v.tmpfil2).symm⟩

theorem foldl_body (v : Vars) (es : List IndexEntry) :
    ((es.map fun e => awkCmd e.text).foldl (body t) v).tmpfil2 =
      v.tmpfil2 ++ (taken (round t) v.flag es).map fun e => e.pkgname.chars := by
  induction es generalizing v with
  | nil => exact (List.append_nil v.tmpfil2).symm
  | cons e es ih =>
    obtain ⟨hflag, hlist⟩ := @body_entry t v e
    rw [List.map_cons, List.foldl_cons, ih, hflag, hlist, taken, List.append_assoc]
    split <;> rfl

theorem unbuiltList_eq (t : Trees) (es : List IndexEntry) :
    unbuiltList t (indexText es) =
      (taken (round t) false es).map fun e => e.pkgname.chars := by
  unfold unbuiltList
  rw [lines_indexText, List.map_map]
  exact foldl_body ⟨none, []⟩ es

theorem wanted_round (t : Trees) (es : List IndexEntry) :
    (wanted (round t) es).map (fun e => e.pkgname.chars) = unbuilt t es := by
  unfold wanted unbuilt
  refine congrArg _ (List.filter_congr fun e _ => ?_)
  unfold round
  by_cases hdports : t.dports e.port.text = true
  · rw [if_pos hdports, hdports]
    rfl
  · rw [if_neg hdports, Bool.eq_false_of_not_eq_true hdports]
    cases t.status e.port.text with
    | none => rfl
    | some file =>
      by_cases hmasked : masked file
      · simp only [if_pos hmasked, Option.all_some, decide_eq_true hmasked]
        rfl
      · simp only [if_neg hmasked, Option.all_some, decide_eq_false hmasked]
        rfl

theorem round_eq_leave_iff (e : IndexEntry) : round t e = .leave ↔ Known t e := by
  unfold round Known Missing
  by_cases hdports : t.dports e.port.text = true
  · simp [hdports]
  · cases t.status e.port.text with
    | none => simp [hdports]
    | some file => simp [hdports]

theorem round_eq_set_iff (e : IndexEntry) : round t e = .set ↔ Bare t e := by
  unfold round Bare Missing
  by_cases hdports : t.dports e.port.text = true
  · simp [hdports]
  · cases t.status e.port.text with
    | none => simp [hdports]
    | some file =>
      by_cases hmasked : masked file
      · simp [hdports, hmasked]
      · simp [hdports, hmasked]

theorem unbuiltList_perm_iff (t : Trees) (es : List IndexEntry) :
    (unbuiltList t (indexText es)).Perm (unbuilt t es) ↔ Settled t es := by
  rw [unbuiltList_eq, ← wanted_round, map_taken_perm_iff, taken_eq_wanted_iff]
  unfold Settled
  simp only [round_eq_leave_iff, flagAfter_false_iff]

/-- Only what the last missing port left behind makes the names right, and the order of `INDEX`
matters as soon as a port relies on it and another one sets it. -/
theorem collects_unbuilt_iff (t : Trees) (es : List IndexEntry) :
    ((unbuiltList t (indexText es)).Perm (unbuilt t es) ↔ Settled t es) ∧
    ((∀ es', es'.Perm es →
      (unbuiltList t (indexText es')).Perm (unbuiltList t (indexText es))) ↔
        (∀ e ∈ es, ¬ Known t e) ∨ ∀ e ∈ es, ¬ Bare t e) := by
  refine ⟨unbuiltList_perm_iff t es, ?_⟩
  simp only [unbuiltList_eq, taken_perm_iff, ne_eq, round_eq_leave_iff, round_eq_set_iff]

def twoMissing : Trees where
  dports _ := false
  status x := if x = "a/m".toList then some "MASK\n".toList else some "PORT\n".toList

def twoEntries : List IndexEntry := [
  { pkgname := ⟨"m-1".toList, by decide⟩
    port := ⟨⟨"a".toList, by decide⟩, ⟨"m".toList, by decide⟩⟩
    rest := []
    noBar := by decide
    noNewline := by decide },
  { pkgname := ⟨"k-1".toList, by decide⟩
    port := ⟨⟨"a".toList, by decide⟩, ⟨"k".toList, by decide⟩⟩
    rest := []
    noBar := by decide
    noNewline := by decide }]

theorem unmasked_not_collected :
    ¬ ∀ (t : Trees) (es : List IndexEntry),
      (unbuiltList t (indexText es)).Perm (unbuilt t es) := by
  intro h
  have hlist : unbuiltList twoMissing (indexText twoEntries) = [] := by decide +kernel
  have hnames : unbuilt twoMissing twoEntries = ["k-1".toList] := by decide +kernel
  have hperm := h twoMissing twoEntries
  rw [hlist, hnames] at hperm
  exact absurd hperm.length_eq (by decide)

end DeltaPorts.Generator.Stinkers

import DeltaPorts.Library.LineTools
import DeltaPorts.Library.Shell
import DeltaPorts.Library.WeightedChoice
import Mathlib.Data.Prod.Lex

/-!
# Picking a mirror

`fetch_pick_server` on the lines of its files, for SRV lines `priority weight target` with decimal
numbers. The shell's numbers are unbounded here; SRV records have 16 bits for each.
-/

set_option autoImplicit false

namespace DeltaPorts.Portsnap

open LineTools WeightedChoice

/-- `cut -f n -d ' '` -/
def cutBlank (n : Nat) (line : Text) : Text :=
  match line.splitOn ' ' with
  | [_] => line
  | fields => (fields[n - 1]?).getD []

def decimalValue (x : Text) : Nat := Nat.ofDigitChars 10 x 0

/-- `sort -n | head -1` -/
def numericFirst (fields : List Text) : Text :=
  match sort (fields.map fun x => toLex (decimalValue (x.takeWhile Char.isDigit), x)) with
  | [] => []
  | first :: _ => (ofLex first).2

/-- `read X`, of a line without backslashes: those `read` would take away. -/
def readX (line : Text) : Text := (line.dropWhile Awk.isBlank).rdropWhile Awk.isBlank

/-- `case "$X" in ${SRV_PRIORITY}\ *)` -/
def hasPriority (priority x : Text) : Bool := (priority ++ [' ']).isPrefixOf x

/-- `echo $X | cut -f 2 -d ' '`, of words that are no patterns for file names. -/
def srvWeight (x : Text) : Nat := decimalValue (cutBlank 2 (Shell.echo x))

/-- Add up the weights of the response lines at that priority level. -/
def srvWsum (priority : Text) (wsum : Nat) : List Text → Nat
  | [] => wsum
  | line :: rest =>
    let x := readX line
    srvWsum priority (if hasPriority priority x then wsum + srvWeight x else wsum) rest

/-- The line of the mirror that the second loop selects. -/
def srvPick (priority : Text) (add : Nat) : List Text → Nat → Option Text
  | [], _ => none
  | line :: rest, rnd =>
    let x := readX line
    if hasPriority priority x then
      let w := srvWeight x + add
      if rnd < w then some x else srvPick priority add rest (rnd - w)
    else srvPick priority add rest rnd

/-- The files, by their lines, and `SERVERNAME`. -/
structure Mirrors where
  full : List Text
  tried : List Text
  list : List Text
  servername : Text

/-- `true` stands for a return value of 0. -/
def fetchPickServer (randvalue : Nat) (d : Mirrors) : Bool × Mirrors :=
  let d := { d with list := comm23 d.full (sort d.tried) }
  if d.list.isEmpty then (false, d)
  else
    let priority := numericFirst (d.list.map (cutBlank 1))
    let sum := srvWsum priority 0 d.list
    -- If all the weights are 0, pretend that they are all 1 instead.
    let wsum := if sum = 0 then d.list.countP (hasPriority priority) else sum
    let add := if sum = 0 then 1 else 0
    match srvPick priority add d.list (randvalue % wsum) with
    | none => (true, d)
    | some x =>
      (true, { d with servername := cutBlank 3 (Shell.echo x), tried := d.tried ++ [x] })

/-- The target is the name of a host. It has no characters that `read` or an unquoted `$X` would
not leave as they are. -/
structure SrvLine where
  priority : Nat
  weight : Nat
  target : Text
  nonempty : target ≠ []
  plain : Awk.Plain target
  literal : ∀ c ∈ target, Shell.isGlob c = false
  deriving DecidableEq

def decimal (n : Nat) : Text := Nat.toDigits 10 n

def SrvLine.fields (l : SrvLine) : List Text := [decimal l.priority, decimal l.weight, l.target]

def SrvLine.text (l : SrvLine) : Text := Shell.unwords l.fields

theorem decimalValue_decimal (n : Nat) : decimalValue (decimal n) = n :=
  Nat.ofDigitChars_ten_toDigits

theorem isDigit_decimal {n : Nat} {c : Char} (hc : c ∈ decimal n) : c.isDigit = true :=
  Nat.isDigit_of_mem_toDigits (by decide) (by decide) hc

theorem decimal_ne_nil (n : Nat) : decimal n ≠ [] := Nat.toDigits_ne_nil

theorem not_blank_of_isDigit {c : Char} (hc : c.isDigit = true) : Awk.isBlank c = false := by
  rw [Bool.eq_false_iff]
  intro hblank
  simp only [Awk.isBlank, Bool.or_eq_true, decide_eq_true_eq] at hblank
  rcases hblank with (rfl | rfl) | rfl <;> exact absurd hc (by decide)

theorem plain_decimal (n : Nat) : Awk.Plain (decimal n) :=
  fun _ hc => not_blank_of_isDigit (isDigit_decimal hc)

theorem blank_not_mem {x : Text} (hx : Awk.Plain x) : ' ' ∉ x := by
  intro hmem
  exact absurd (hx ' ' hmem) (by decide)

theorem takeWhile_decimal (n : Nat) (rest : Text) :
    (decimal n ++ ' ' :: rest).takeWhile (· ≠ ' ') = decimal n := by
  rw [List.takeWhile_append_of_pos, List.takeWhile_cons_of_neg (by simp), List.append_nil]
  intro c hc
  have hne : c ≠ ' ' := by
    rintro rfl
    exact blank_not_mem (plain_decimal _) hc
  exact decide_eq_true hne

theorem decimal_injective : Function.Injective decimal := by
  intro m n h
  rw [← decimalValue_decimal m, h, decimalValue_decimal]

namespace SrvLine

variable (l : SrvLine)

theorem plain_fields : ∀ x ∈ l.fields, Awk.Plain x ∧ x ≠ [] := by
  intro x hx
  unfold fields at hx
  rw [List.mem_cons, List.mem_cons, List.mem_singleton] at hx
  rcases hx with rfl | rfl | rfl
  · exact ⟨plain_decimal _, decimal_ne_nil _⟩
  · exact ⟨plain_decimal _, decimal_ne_nil _⟩
  · exact ⟨l.plain, l.nonempty⟩

theorem splitOn_text : l.text.splitOn ' ' = l.fields :=
  List.splitOn_intercalate ' ' (fun x hx => blank_not_mem (l.plain_fields x hx).1) (by simp [fields])

theorem cutBlank_text (n : Nat) : cutBlank n l.text = (l.fields[n - 1]?).getD [] := by
  unfold cutBlank
  rw [splitOn_text]
  rfl

theorem echo_text : Shell.echo l.text = l.text := by
  unfold Shell.echo text
  rw [Shell.words_unwords l.plain_fields]

theorem text_eq : l.text = decimal l.priority ++ ' ' :: (decimal l.weight ++ ' ' :: l.target) := by
  unfold text fields
  rw [Shell.unwords_cons_cons, Shell.unwords_cons_cons]
  simp [Shell.unwords]

theorem readX_text : readX l.text = l.text := by
  have hhead : l.text.dropWhile Awk.isBlank = l.text := by
    obtain ⟨c, rest, hc⟩ := List.exists_cons_of_ne_nil (decimal_ne_nil l.priority)
    have hblank : Awk.isBlank c = false :=
      plain_decimal l.priority c (hc ▸ List.mem_cons_self)
    rw [text_eq, hc, List.cons_append, List.dropWhile_cons_of_neg (by simp [hblank])]
  unfold readX
  rw [hhead, List.rdropWhile_eq_self_iff]
  intro hne
  have hlast : l.text.getLast hne = l.target.getLast l.nonempty := by
    simp only [text_eq]
    rw [List.getLast_append_of_ne_nil, List.getLast_cons, List.getLast_append_of_ne_nil,
      List.getLast_cons]
    all_goals simp
  rw [hlast, l.plain _ (List.getLast_mem l.nonempty)]
  exact Bool.false_ne_true

theorem srvWeight_text : srvWeight l.text = l.weight := by
  unfold srvWeight
  rw [echo_text, cutBlank_text]
  exact decimalValue_decimal l.weight

theorem hasPriority_text (p : Nat) : hasPriority (decimal p) l.text = decide (l.priority = p) := by
  rw [Bool.eq_iff_iff, decide_eq_true_iff, hasPriority, List.isPrefixOf_iff_prefix]
  constructor
  · rintro ⟨rest, hrest⟩
    rw [text_eq, List.append_assoc, List.singleton_append] at hrest
    have htake := congrArg (List.takeWhile (· ≠ ' ')) hrest
    rw [takeWhile_decimal, takeWhile_decimal] at htake
    exact (decimal_injective htake).symm
  · rintro rfl
    exact ⟨decimal l.weight ++ ' ' :: l.target, by rw [text_eq, List.append_assoc]; rfl⟩

end SrvLine

theorem text_injective : Function.Injective SrvLine.text := by
  intro l m h
  have hfields : l.fields = m.fields := by rw [← l.splitOn_text, h, m.splitOn_text]
  obtain ⟨p, w, target, hne, hplain, hliteral⟩ := l
  obtain ⟨p', w', target', hne', hplain', hliteral'⟩ := m
  unfold SrvLine.fields at hfields
  obtain ⟨hp, hfields⟩ := List.cons.inj hfields
  obtain ⟨hw, hfields⟩ := List.cons.inj hfields
  obtain ⟨rfl, _⟩ := List.cons.inj hfields
  cases decimal_injective hp
  cases decimal_injective hw
  rfl

/-- The lines of the lowest priority. -/
def lowest (untried : List SrvLine) : List SrvLine :=
  untried.filter fun l => untried.all fun m => l.priority ≤ m.priority

/-- The weights, or 1 for each line if all of them are 0. -/
def share (lines : List SrvLine) (l : SrvLine) : Nat :=
  l.weight + if total SrvLine.weight lines = 0 then 1 else 0

section Untried

variable {untried : List SrvLine}

theorem lowest_eq {m : SrvLine} (hm : ∀ l ∈ untried, m.priority ≤ l.priority) (hmem : m ∈ untried) :
    lowest untried = untried.filter fun l => l.priority = m.priority := by
  apply List.filter_congr
  intro l hl
  rw [Bool.eq_iff_iff, List.all_eq_true, decide_eq_true_iff]
  simp only [decide_eq_true_iff]
  constructor
  · exact fun h => le_antisymm (h m hmem) (hm l hl)
  · exact fun h l' hl' => h ▸ hm l' hl'

theorem numericFirst_text (hne : untried ≠ []) :
    ∃ m ∈ untried, (∀ l ∈ untried, m.priority ≤ l.priority) ∧
      numericFirst ((untried.map SrvLine.text).map (cutBlank 1)) = decimal m.priority := by
  have hkeys : ((untried.map SrvLine.text).map (cutBlank 1)).map
      (fun x => toLex (decimalValue (x.takeWhile Char.isDigit), x)) =
      untried.map fun l => toLex (l.priority, decimal l.priority) := by
    rw [List.map_map, List.map_map]
    apply List.map_congr_left
    intro l _
    have hcut : cutBlank 1 l.text = decimal l.priority := l.cutBlank_text 1
    have htake : (decimal l.priority).takeWhile Char.isDigit = decimal l.priority :=
      List.takeWhile_eq_self_iff.mpr fun c hc => isDigit_decimal hc
    rw [Function.comp_apply, Function.comp_apply, hcut, htake, decimalValue_decimal]
  unfold numericFirst
  rw [hkeys]
  have hperm := List.perm_insertionSort (· ≤ ·)
    (untried.map fun l => toLex (l.priority, decimal l.priority))
  have hsorted := pairwise_sort (untried.map fun l => toLex (l.priority, decimal l.priority))
  cases hsort : sort (untried.map fun l => toLex (l.priority, decimal l.priority)) with
  | nil =>
    unfold sort at hsort
    rw [hsort, List.nil_perm, List.map_eq_nil_iff] at hperm
    exact absurd hperm hne
  | cons first rest =>
    rw [hsort] at hsorted
    unfold sort at hsort
    rw [hsort] at hperm
    obtain ⟨m, hm, rfl⟩ := List.mem_map.mp (hperm.subset List.mem_cons_self)
    refine ⟨m, hm, fun l hl => ?_, rfl⟩
    have hmem := hperm.symm.subset (List.mem_map_of_mem (f := fun l =>
      toLex (l.priority, decimal l.priority)) hl)
    rcases List.mem_cons.mp hmem with heq | hmem
    · exact (congrArg (fun k => (ofLex k).1) heq).ge
    · have hle := (List.pairwise_cons.mp hsorted).1 _ hmem
      rcases Prod.Lex.le_iff.mp hle with hlt | ⟨heq, _⟩
      · exact le_of_lt hlt
      · exact le_of_eq heq

theorem srvWsum_text (p wsum : Nat) (lines : List SrvLine) :
    srvWsum (decimal p) wsum (lines.map SrvLine.text) =
      wsum + total SrvLine.weight (lines.filter fun l => l.priority = p) := by
  induction lines generalizing wsum with
  | nil => rfl
  | cons l lines ih =>
    rw [List.map_cons, srvWsum, l.readX_text, l.hasPriority_text, l.srvWeight_text, ih]
    by_cases hp : l.priority = p
    · simp [hp, total, Nat.add_assoc]
    · simp [hp]

theorem srvPick_text (p add rnd : Nat) (lines : List SrvLine) :
    srvPick (decimal p) add (lines.map SrvLine.text) rnd =
      (choose (fun l => l.weight + add) (lines.filter fun l => l.priority = p) rnd).map
        SrvLine.text := by
  induction lines generalizing rnd with
  | nil => rfl
  | cons l lines ih =>
    rw [List.map_cons, srvPick, l.readX_text, l.hasPriority_text, l.srvWeight_text]
    by_cases hp : l.priority = p
    · rw [List.filter_cons_of_pos (by simpa using hp), choose]
      simp only [hp, decide_true, if_true]
      split
      · rfl
      · exact ih _
    · rw [List.filter_cons_of_neg (by simpa using hp)]
      simp only [hp, decide_false, Bool.false_eq_true, if_false]
      exact ih rnd

theorem countP_text (p : Nat) (lines : List SrvLine) :
    (lines.map SrvLine.text).countP (hasPriority (decimal p)) =
      (lines.filter fun l => l.priority = p).length := by
  rw [List.countP_map, List.countP_eq_length_filter]
  simp only [Function.comp_def, SrvLine.hasPriority_text]

theorem total_share (lines : List SrvLine) : total (share lines) lines =
    if total SrvLine.weight lines = 0 then lines.length else total SrvLine.weight lines := by
  by_cases hzero : total SrvLine.weight lines = 0
  · rw [if_pos hzero, ← total_one lines]
    apply total_congr
    intro l hl
    rw [share, if_pos hzero, total_eq_zero_iff.mp hzero l hl]
  · rw [if_neg hzero]
    apply total_congr
    intro l _
    rw [share, if_neg hzero, Nat.add_zero]

theorem lowest_ne_nil (hne : untried ≠ []) : lowest untried ≠ [] := by
  obtain ⟨m, hmem, hm, _⟩ := numericFirst_text hne
  rw [lowest_eq hm hmem]
  exact List.ne_nil_of_mem (List.mem_filter.mpr ⟨hmem, decide_eq_true rfl⟩)

theorem total_share_pos (hne : untried ≠ []) :
    0 < total (share (lowest untried)) (lowest untried) := by
  rw [total_share]
  split
  · exact List.length_pos_iff.mpr (lowest_ne_nil hne)
  · omega

end Untried

/-- The list of the mirrors, in the order of `sort`. -/
structure SrvList where
  lines : List SrvLine
  sorted : (lines.map SrvLine.text).Pairwise (· ≤ ·)

namespace SrvList

variable (f : SrvList)

/-- The lines that are left when one is taken off for each that has been tried. -/
def untried (tried : List SrvLine) : List SrvLine := f.lines.diff tried

/-- The files when `tried` have been tried. -/
structure At (tried : List SrvLine) (d : Mirrors) : Prop where
  full : d.full = f.lines.map SrvLine.text
  tried : d.tried = tried.map SrvLine.text

/-- What the residue of the random value decides. -/
def chosen (tried : List SrvLine) (randvalue : Nat) : Option SrvLine :=
  let lines := lowest (f.untried tried)
  choose (share lines) lines (randvalue % total (share lines) lines)

variable {f} {tried : List SrvLine} {d : Mirrors}

theorem At.list_eq (h : f.At tried d) :
    comm23 d.full (sort d.tried) = (f.untried tried).map SrvLine.text := by
  rw [h.full, h.tried, comm23_sort f.sorted, untried, List.map_diff text_injective]

theorem At.none_left (h : f.At tried d) (hnone : f.untried tried = []) (randvalue : Nat) :
    (fetchPickServer randvalue d).1 = false := by
  unfold fetchPickServer
  rw [h.list_eq, hnone]
  rfl

theorem At.pick (h : f.At tried d) (hne : f.untried tried ≠ []) (randvalue : Nat) :
    ∃ l, f.chosen tried randvalue = some l ∧ fetchPickServer randvalue d =
      (true, ⟨d.full, d.tried ++ [l.text], (f.untried tried).map SrvLine.text, l.target⟩) := by
  obtain ⟨m, hmem, hm, hfirst⟩ := numericFirst_text hne
  have hlowest := lowest_eq hm hmem
  have hlt := Nat.mod_lt randvalue (total_share_pos hne)
  obtain ⟨l, hl⟩ := exists_choose hlt
  refine ⟨l, hl, ?_⟩
  have hempty : ((f.untried tried).map SrvLine.text).isEmpty = false := by
    rw [List.isEmpty_eq_false_iff, ne_eq, List.map_eq_nil_iff]
    exact hne
  unfold fetchPickServer
  rw [h.list_eq]
  dsimp only
  rw [hempty, hfirst, srvWsum_text, countP_text, srvPick_text, Nat.zero_add, ← hlowest,
    ← total_share]
  have hchoose : choose (fun l => l.weight +
      if total SrvLine.weight (lowest (f.untried tried)) = 0 then 1 else 0)
      (lowest (f.untried tried)) (randvalue % total (share (lowest (f.untried tried)))
        (lowest (f.untried tried))) = some l := hl
  rw [hchoose]
  simp only [Bool.false_eq_true, if_false, Option.map_some, l.echo_text, l.cutBlank_text]
  rfl

theorem mem_untried {l : SrvLine} : l ∈ f.untried tried ↔ tried.count l < f.lines.count l := by
  unfold untried
  rw [← List.count_pos_iff, List.count_diff]
  omega

/-- The call picks a line that is left, of the lowest priority, and of the weight 0 only when the
others have that too. -/
structure Call (f : SrvList) (tried : List SrvLine) (d : Mirrors) (randvalue : Nat) (l : SrvLine) :
    Prop where
  returns : (fetchPickServer randvalue d).1 = true
  full : (fetchPickServer randvalue d).2.full = d.full
  servername : (fetchPickServer randvalue d).2.servername = l.target
  before : d.tried = tried.map SrvLine.text
  after : (fetchPickServer randvalue d).2.tried = (tried ++ [l]).map SrvLine.text
  untried : tried.count l < f.lines.count l
  lowest : ∀ m ∈ f.untried tried, l.priority ≤ m.priority
  weight : l.weight = 0 → ∀ m ∈ f.untried tried, m.priority = l.priority → m.weight = 0

theorem mem_lowest {lines : List SrvLine} {l : SrvLine} : l ∈ lowest lines ↔
    l ∈ lines ∧ ∀ m ∈ lines, l.priority ≤ m.priority := by
  unfold lowest
  rw [List.mem_filter, List.all_eq_true]
  simp only [decide_eq_true_iff]

theorem At.call (h : f.At tried d) (hne : f.untried tried ≠ []) (randvalue : Nat) :
    ∃ l, f.Call tried d randvalue l := by
  obtain ⟨l, hchosen, hcall⟩ := h.pick hne randvalue
  obtain ⟨hmem, hshare⟩ := choose_eq_some hchosen
  obtain ⟨huntried, hlowest⟩ := mem_lowest.mp hmem
  refine ⟨l, ?_, ?_, ?_, h.tried, ?_, mem_untried.mp huntried, hlowest, ?_⟩
  · rw [hcall]
  · rw [hcall]
  · rw [hcall]
  · rw [hcall, h.tried, List.map_append]
    rfl
  · intro hzero m hm hpriority
    have htotal : total SrvLine.weight (lowest (f.untried tried)) = 0 := by
      by_contra hne
      rw [share, hzero, if_neg hne] at hshare
      exact absurd hshare (lt_irrefl 0)
    apply total_eq_zero_iff.mp htotal
    exact mem_lowest.mpr ⟨hm, fun m' hm' => hpriority ▸ hlowest m' hm'⟩

/-- The sum of the weights, or the number of the lines if all of them are 0. -/
def wsum (lines : List SrvLine) : Nat :=
  if total SrvLine.weight lines = 0 then lines.length else total SrvLine.weight lines

/-- Each line is chosen by as many residues as its weight, each time that it is there. -/
structure Fair (f : SrvList) (tried : List SrvLine) (d : Mirrors) : Prop where
  residue : ∀ randvalue, fetchPickServer randvalue d =
    fetchPickServer (randvalue % wsum (lowest (f.untried tried))) d
  count : ∀ l ∈ lowest (f.untried tried),
    ((List.range (wsum (lowest (f.untried tried)))).countP fun r =>
      (fetchPickServer r d).2.tried = d.tried ++ [l.text]) =
    (lowest (f.untried tried)).count l *
      if total SrvLine.weight (lowest (f.untried tried)) = 0 then 1 else l.weight

theorem At.fair (h : f.At tried d) (hne : f.untried tried ≠ []) : f.Fair tried d := by
  have hwsum : wsum (lowest (f.untried tried)) =
      total (share (lowest (f.untried tried))) (lowest (f.untried tried)) :=
    (total_share _).symm
  constructor
  · intro randvalue
    have hsame : f.chosen tried (randvalue % wsum (lowest (f.untried tried))) =
        f.chosen tried randvalue := by
      unfold chosen
      dsimp only
      rw [hwsum, Nat.mod_mod]
    obtain ⟨l, hl, hcall⟩ := h.pick hne randvalue
    obtain ⟨l', hl', hcall'⟩ :=
      h.pick hne (randvalue % wsum (lowest (f.untried tried)))
    rw [hsame, hl] at hl'
    cases hl'
    rw [hcall, hcall']
  · intro l hl
    have hshare : share (lowest (f.untried tried)) l =
        if total SrvLine.weight (lowest (f.untried tried)) = 0 then 1 else l.weight := by
      unfold share
      split
      · next hzero => rw [total_eq_zero_iff.mp hzero l hl]
      · rfl
    rw [← hshare, ← countP_choose, hwsum]
    apply List.countP_congr
    intro r hr
    rw [decide_eq_true_iff, decide_eq_true_iff]
    obtain ⟨l', hl', hcall⟩ := h.pick hne r
    unfold chosen at hl'
    dsimp only at hl'
    rw [Nat.mod_eq_of_lt (List.mem_range.mp hr)] at hl'
    rw [hcall, hl']
    simp only [List.append_cancel_left_eq, List.cons.injEq, and_true, Option.some.injEq]
    exact text_injective.eq_iff

/-- After so many calls, from an empty `serverlist_tried` on. -/
def calls (f : SrvList) (servername : Text) (randvalue : Nat) : Nat → Mirrors
  | 0 => ⟨f.lines.map SrvLine.text, [], [], servername⟩
  | k + 1 => (fetchPickServer randvalue (calls f servername randvalue k)).2

theorem untried_ne_nil (hlen : tried.length < f.lines.length) : f.untried tried ≠ [] := by
  intro hnil
  have hsub : f.lines.Subperm tried := by
    rw [List.subperm_ext_iff]
    intro l _
    have hcount := congrArg (List.count l) hnil
    unfold untried at hcount
    rw [List.count_diff, List.count_nil] at hcount
    omega
  have hle := hsub.length_le
  omega

theorem calls_spec (f : SrvList) (servername : Text) (randvalue : Nat) {k : Nat}
    (hk : k ≤ f.lines.length) : ∃ picked : List SrvLine, picked.length = k ∧
      (∀ l, picked.count l ≤ f.lines.count l) ∧ f.At picked (f.calls servername randvalue k) ∧
      ∀ j l, picked[j]? = some l →
        f.Call (picked.take j) (f.calls servername randvalue j) randvalue l ∧
        f.Fair (picked.take j) (f.calls servername randvalue j) := by
  induction k with
  | zero =>
    refine ⟨[], rfl, fun l => ?_, ⟨rfl, rfl⟩, fun j l h => ?_⟩
    · rw [List.count_nil]
      exact Nat.zero_le _
    · cases h
  | succ k ih =>
    obtain ⟨picked, hlen, hcount, hat, hcalls⟩ := ih (by omega)
    have hne : f.untried picked ≠ [] := untried_ne_nil (by omega)
    obtain ⟨l, hcall⟩ := hat.call hne randvalue
    refine ⟨picked ++ [l], ?_, fun m => ?_, ⟨?_, hcall.after⟩, fun j m hm => ?_⟩
    · rw [List.length_append, hlen, List.length_singleton]
    · have huntried := hcall.untried
      have hpicked := hcount m
      rw [List.count_append, List.count_singleton]
      split
      · next hlm =>
        rw [← beq_iff_eq.mp hlm]
        omega
      · omega
    · exact hcall.full.trans hat.full
    · by_cases hj : j < k
      · rw [List.getElem?_append_left (by omega)] at hm
        rw [List.take_append_of_le_length (by omega)]
        exact hcalls j m hm
      · rw [List.getElem?_append_right (by omega)] at hm
        obtain rfl : j = k := by
          have hlast := (List.getElem?_eq_some_iff.mp hm).1
          rw [List.length_singleton] at hlast
          omega
        rw [hlen, Nat.sub_self] at hm
        cases hm
        rw [← hlen, List.take_left, hlen]
        exact ⟨hcall, hat.fair hne⟩

/-- The calls pick the lines one after the other, those of a lower priority first, and the call
after them gives up. -/
theorem mirrors_picked (f : SrvList) (servername : Text) (randvalue : Nat) :
    ∃ picked : List SrvLine, picked.Perm f.lines ∧
      (∀ k l, picked[k]? = some l →
        f.Call (picked.take k) (f.calls servername randvalue k) randvalue l ∧
        f.Fair (picked.take k) (f.calls servername randvalue k)) ∧
      (fetchPickServer randvalue (f.calls servername randvalue f.lines.length)).1 = false := by
  obtain ⟨picked, hlen, hcount, hat, hcalls⟩ := calls_spec f servername randvalue le_rfl
  have hperm : picked.Perm f.lines := by
    apply List.Subperm.perm_of_length_le _ hlen.ge
    rw [List.subperm_ext_iff]
    exact fun l _ => hcount l
  refine ⟨picked, hperm, hcalls, hat.none_left ?_ randvalue⟩
  apply List.eq_nil_iff_forall_not_mem.mpr
  intro l hl
  have hlt := mem_untried.mp hl
  rw [hperm.count_eq] at hlt
  exact lt_irrefl _ hlt

end SrvList

end DeltaPorts.Portsnap

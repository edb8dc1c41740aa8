import DeltaPorts.Library.Awk
import DeltaPorts.Library.LineTools

/-!
# The filter for `MOVED`

`AWKMOVED` keeps the comments of `MOVED` and the entries since 2013. Its rule sets `FS`, but the
first record has been split by then.
-/

set_option autoImplicit false

namespace DeltaPorts.Generator.Moved

abbrev Text := Awk.Text

/-- The values of `FS`: blanks, and `[| ]`. -/
inductive Separator where
  | blanks
  | barOrSpace

def isBarOrSpace (c : Char) : Bool := c = '|' || c = ' '

def Separator.split : Separator → Text → List Text
  | .blanks, record => Awk.words record
  | .barOrSpace, record => record.splitOnP isBarOrSpace

theorem split_barOrSpace (record : Text) :
    Separator.barOrSpace.split record = record.splitOnP isBarOrSpace := rfl

/-- `$n`. -/
def Separator.field (fs : Separator) (n : Nat) (record : Text) : Text :=
  ((fs.split record)[n - 1]?).getD []

variable (awk : Awk.Reading)

/-- `a[1] > 2012+0`, after `split(x,a,"-")`. -/
def recent (x : Text) : Bool :=
  awk.exceeds (((x.splitOn '-')[0]?).getD []) (.finite 2012) "2012".toList

/-- The record is printed. -/
def printed (fs : Separator) (record : Text) : Bool :=
  if fs.field 1 record = ['#'] then true else recent awk (fs.field 3 record)

structure State where
  fs : Separator
  output : List Text

/-- The rule for one record. -/
def rule (s : State) (record : Text) : State :=
  ⟨.barOrSpace, if printed awk s.fs record = true then s.output ++ [record] else s.output⟩

def awkMoved (moved : Text) : List Text :=
  ((LineTools.lines moved).foldl (rule awk) ⟨.blanks, []⟩).output

/-- A line whose first word is `#`. -/
structure Comment where
  text : Text
  first : Awk.field 1 text = ['#']
  oneLine : '\n' ∉ text

/-- `old|new|YYYY-MM-DD|reason`. -/
structure Entry where
  old : Text
  new : Text
  year : Text
  month : Text
  day : Text
  reason : Text
  names : ∀ c ∈ old ++ new, Awk.isBlank c = false ∧ c ≠ '|'
  digits : ∀ c ∈ year ++ month ++ day, c.isDigit = true
  lengths : year.length = 4 ∧ month.length = 2 ∧ day.length = 2
  oneLine : '\n' ∉ reason

namespace Entry

def date (e : Entry) : Text := e.year ++ '-' :: (e.month ++ '-' :: e.day)

def text (e : Entry) : Text := e.old ++ '|' :: (e.new ++ '|' :: (e.date ++ '|' :: e.reason))

def yearNumber (e : Entry) : Nat := (Awk.digits 0 e.year).1

/-- The third word between blanks. The names, the date and the beginning of the reason are one
word. -/
def thirdWord (e : Entry) : Text :=
  if e.reason.head?.all Awk.isBlank then Awk.field 2 e.reason else Awk.field 3 e.reason

end Entry

inductive MovedLine where
  | comment (c : Comment)
  | entry (e : Entry)

namespace MovedLine

def text : MovedLine → Text
  | .comment c => c.text
  | .entry e => e.text

/-- A comment or an entry since 2013. -/
def wanted : MovedLine → Bool
  | .comment _ => true
  | .entry e => decide (2013 ≤ e.yearNumber)

end MovedLine

def movedText (file : List MovedLine) : Text := LineTools.unlines (file.map MovedLine.text)

/-- The part of a word before its first dash is a number above 2012, or it is no number and comes
after `2012` in the order of texts. -/
def After2012 (word : Text) : Prop :=
  let year := word.takeWhile (· ≠ '-')
  (∃ x, awk.number year = some x ∧ Awk.Double.lt (.finite 2012) x = true) ∨
    (awk.number year = none ∧ "2012".toList < year)

/-- The comment is `#` alone, or `#` and a space come first. -/
def HashAndSpace (c : Comment) : Prop := c.text = ['#'] ∨ ['#', ' '] <+: c.text

/-- What the first line of the file must be, which is split at blanks. -/
def RightFirst : MovedLine → Prop
  | .comment _ => True
  | .entry e => After2012 awk e.thirdWord ↔ 2013 ≤ e.yearNumber

/-- What a later line must be, which is split at every bar and every space. -/
def RightLater : MovedLine → Prop
  | .comment c => HashAndSpace c ∨ After2012 awk (((c.text.splitOnP isBarOrSpace)[2]?).getD [])
  | .entry e => e.old = ['#'] → 2013 ≤ e.yearNumber

def Right : List MovedLine → Prop
  | [] => True
  | l :: ls => RightFirst awk l ∧ ∀ m ∈ ls, RightLater awk m

theorem names_plain (e : Entry) : Awk.Plain e.old ∧ Awk.Plain e.new := by
  constructor
  · intro c hc
    exact (e.names c (List.mem_append_left _ hc)).1
  · intro c hc
    exact (e.names c (List.mem_append_right _ hc)).1

theorem split_of_name {l : Text} (h : ∀ c ∈ l, Awk.isBlank c = false ∧ c ≠ '|') :
    ∀ c ∈ l, isBarOrSpace c = false := by
  intro c hc
  obtain ⟨hblank, hbar⟩ := h c hc
  have hspace : c ≠ ' ' := by
    rintro rfl
    cases hblank
  simp [isBarOrSpace, hbar, hspace]

theorem date_char (e : Entry) : ∀ c ∈ e.date, c.isDigit = true ∨ c = '-' := by
  intro c hc
  have hdigits := e.digits
  simp only [Entry.date, List.mem_append, List.mem_cons] at hc hdigits
  rcases hc with hc | rfl | hc | rfl | hc
  · exact .inl (hdigits c (.inl (.inl hc)))
  · exact .inr rfl
  · exact .inl (hdigits c (.inl (.inr hc)))
  · exact .inr rfl
  · exact .inl (hdigits c (.inr hc))

theorem date_plain (e : Entry) : Awk.Plain e.date := by
  intro c hc
  rcases date_char e c hc with hdigit | rfl
  · exact (Awk.digit_plain hdigit).1
  · rfl

theorem date_not (e : Entry) : ∀ c ∈ e.date, isBarOrSpace c = false ∧ c ≠ '\n' := by
  intro c hc
  rcases date_char e c hc with hdigit | rfl
  · constructor
    · cases h : isBarOrSpace c with
      | false => rfl
      | true =>
        simp only [isBarOrSpace, Bool.or_eq_true, decide_eq_true_eq] at h
        rcases h with rfl | rfl <;> cases hdigit
    · rintro rfl
      cases hdigit
  · decide

/-- After the first record the fields are those of the entry. -/
theorem split_entry (e : Entry) : ∃ rest,
    Separator.barOrSpace.split e.text = e.old :: e.new :: e.date :: rest := by
  have hold := split_of_name fun c hc => e.names c (List.mem_append_left _ hc)
  have hnew := split_of_name fun c hc => e.names c (List.mem_append_right _ hc)
  have hdate := fun c hc => (date_not e c hc).1
  refine ⟨e.reason.splitOnP isBarOrSpace, ?_⟩
  unfold Entry.text
  rw [split_barOrSpace, List.splitOnP_append_cons_of_forall_mem hold _ (by decide),
    List.splitOnP_append_cons_of_forall_mem hnew _ (by decide),
    List.splitOnP_append_cons_of_forall_mem hdate _ (by decide)]

theorem newline_not_mem_text (l : MovedLine) : '\n' ∉ l.text := by
  cases l with
  | comment c => exact c.oneLine
  | entry e =>
    have hdate : '\n' ∉ e.date := fun h => (date_not e '\n' h).2 rfl
    change '\n' ∉ e.text
    unfold Entry.text
    simp [(names_plain e).1.newline_not_mem, (names_plain e).2.newline_not_mem, hdate, e.oneLine]

theorem lines_movedText (file : List MovedLine) :
    LineTools.lines (movedText file) = file.map MovedLine.text := by
  apply LineTools.lines_unlines
  intro t ht
  obtain ⟨l, _, rfl⟩ := List.mem_map.mp ht
  exact newline_not_mem_text l

/-- The lines of a well-formed file can be told apart. -/
theorem entry_text_injective : Function.Injective Entry.text := by
  intro e f h
  have hbar (e : Entry) : '|' ∉ e.old ∧ '|' ∉ e.new ∧ '|' ∉ e.date :=
    ⟨fun hc => (e.names _ (List.mem_append_left _ hc)).2 rfl,
      fun hc => (e.names _ (List.mem_append_right _ hc)).2 rfl,
      fun hc => absurd (date_not e _ hc).1 (by decide)⟩
  have hsplit (e : Entry) : e.text.splitOn '|' =
      e.old :: e.new :: e.date :: e.reason.splitOn '|' := by
    obtain ⟨hold, hnew, hdate⟩ := hbar e
    unfold Entry.text
    rw [List.splitOn_append_cons_self_of_not_mem hold,
      List.splitOn_append_cons_self_of_not_mem hnew,
      List.splitOn_append_cons_self_of_not_mem hdate]
  have hfields := hsplit e
  rw [h, hsplit f] at hfields
  simp only [List.cons.injEq] at hfields
  obtain ⟨hold, hnew, hdate, hreason⟩ := hfields
  have hreason := congrArg (List.intercalate ['|']) hreason
  rw [List.intercalate_splitOn, List.intercalate_splitOn] at hreason
  obtain ⟨hyear, hmonth, hday⟩ := e.lengths
  obtain ⟨hyear', hmonth', hday'⟩ := f.lengths
  obtain ⟨hy, hrest⟩ := List.append_inj hdate (hyear'.trans hyear.symm)
  obtain ⟨hm, hrest⟩ := List.append_inj (List.cons.inj hrest).2 (hmonth'.trans hmonth.symm)
  have hd := (List.cons.inj hrest).2
  cases e
  cases f
  simp_all

theorem field_entry (e : Entry) : Awk.field 1 e.text ≠ ['#'] := by
  have hplain : Awk.Plain (e.old ++ ['|']) := by
    intro c hc
    rcases List.mem_append.mp hc with hc | hc
    · exact (names_plain e).1 c hc
    · rw [List.mem_singleton.mp hc]
      decide
  obtain ⟨w, ws, hwords⟩ := Awk.words_append_cons hplain (by simp)
    (e.new ++ '|' :: (e.date ++ '|' :: e.reason))
  rw [List.append_assoc, List.singleton_append] at hwords
  intro h
  have hbar : '|' ∈ Awk.field 1 e.text := by
    unfold Awk.field Entry.text
    rw [hwords]
    simp
  rw [h] at hbar
  exact absurd hbar (by decide)

theorem text_injective : Function.Injective MovedLine.text := by
  intro l m h
  cases l with
  | comment c =>
    cases m with
    | comment d =>
      cases c
      cases d
      exact congrArg MovedLine.comment (Comment.mk.injEq .. ▸ h)
    | entry f => exact absurd (congrArg (Awk.field 1) h ▸ c.first) (field_entry f)
  | entry e =>
    cases m with
    | comment d => exact absurd (congrArg (Awk.field 1) h.symm ▸ d.first) (field_entry e)
    | entry f => exact congrArg MovedLine.entry (entry_text_injective h)

theorem splitOnP_first (p : Char → Bool) (l : Text) :
    (l.splitOnP p)[0]? = some (l.takeWhile (!p ·)) := by
  induction l with
  | nil => rfl
  | cons c l ih =>
    rw [List.splitOnP_cons_eq_if_modifyHead, List.takeWhile_cons]
    cases hc : p c with
    | true => simp
    | false =>
      cases hsplit : l.splitOnP p with
      | nil => exact absurd hsplit (List.splitOnP_ne_nil p l)
      | cons w ws =>
        rw [hsplit] at ih
        simpa using ih

theorem recent_iff (word : Text) : recent awk word = true ↔ After2012 awk word := by
  have hyear : ((word.splitOn '-')[0]?).getD [] = word.takeWhile (· ≠ '-') := by
    rw [List.splitOn_eq_splitOnP, splitOnP_first, Option.getD_some]
    congr 1
    funext c
    simp [beq_eq_decide]
  unfold recent
  rw [hyear, awk.exceeds_iff]
  rfl

theorem recent_date (e : Entry) : recent awk e.date = decide (2013 ≤ e.yearNumber) := by
  obtain ⟨hyear, _, _⟩ := e.lengths
  have hdigits : ∀ c ∈ e.year, c.isDigit = true := fun c hc =>
    e.digits c (List.mem_append_left _ (List.mem_append_left _ hc))
  have hdash : '-' ∉ e.year := fun hc => absurd (hdigits _ hc) (by decide)
  have hsplit : (e.date.splitOn '-')[0]? = some e.year := by
    unfold Entry.date
    rw [List.splitOn_append_cons_self_of_not_mem hdash]
    rfl
  have hlt := Awk.digits_lt hdigits 0
  rw [hyear] at hlt
  have hnumber := awk.number_digits (List.ne_nil_of_length_eq_add_one hyear) hdigits (by omega)
  unfold recent Awk.Reading.exceeds
  rw [hsplit, Option.getD_some, hnumber]
  change decide ((2012 : ℚ) < (e.yearNumber : ℚ)) = _
  rw [decide_eq_decide]
  exact_mod_cast Iff.rfl

/-- The words before the reason are one, to which a reason that begins with no blank belongs. -/
theorem field_three (e : Entry) : Awk.field 3 e.text = e.thirdWord := by
  have hfront : Awk.Plain (e.old ++ '|' :: (e.new ++ '|' :: (e.date ++ ['|']))) := by
    intro c hc
    simp only [List.mem_append, List.mem_cons, List.not_mem_nil, or_false] at hc
    rcases hc with hc | rfl | hc | rfl | hc | rfl
    · exact (names_plain e).1 c hc
    · rfl
    · exact (names_plain e).2 c hc
    · rfl
    · exact date_plain e c hc
    · rfl
  have htext : e.text = e.old ++ '|' :: (e.new ++ '|' :: (e.date ++ ['|'])) ++ e.reason := by
    simp [Entry.text]
  unfold Entry.thirdWord Awk.field
  rw [htext]
  by_cases hhead : e.reason.head?.all Awk.isBlank = true
  · rw [if_pos hhead, Awk.words_append hfront (by simp) hhead]
    rfl
  · rw [if_neg hhead]
    obtain ⟨w, ws, hwords, happend⟩ :=
      Awk.words_append_word hfront (Bool.eq_false_of_not_eq_true hhead)
    rw [happend, hwords]
    rfl

theorem printed_first (l : MovedLine) :
    printed awk .blanks l.text = l.wanted ↔ RightFirst awk l := by
  cases l with
  | comment c =>
    have hfirst : printed awk .blanks c.text = true := if_pos c.first
    exact iff_of_true hfirst trivial
  | entry e =>
    have hprinted : printed awk .blanks e.text = recent awk (Awk.field 3 e.text) :=
      if_neg (field_entry e)
    change printed awk .blanks e.text = decide (2013 ≤ e.yearNumber) ↔ _
    rw [hprinted, field_three, RightFirst, Bool.eq_iff_iff, decide_eq_true_eq, recent_iff]

/-- Only a space can end the `#` of a comment where bars end fields too. -/
theorem field_comment (c : Comment) :
    Separator.barOrSpace.field 1 c.text = ['#'] ↔ HashAndSpace c := by
  have hfield : Separator.barOrSpace.field 1 c.text = c.text.takeWhile (!isBarOrSpace ·) := by
    unfold Separator.field
    rw [split_barOrSpace, splitOnP_first, Option.getD_some]
  rw [hfield]
  constructor
  · intro hhash
    obtain ⟨rest, htext⟩ : ['#'] <+: c.text := hhash ▸ List.takeWhile_prefix _
    cases rest with
    | nil => exact .inl htext.symm
    | cons d rest =>
      right
      rw [← htext, List.singleton_append, List.takeWhile_cons_of_pos (by decide),
        List.takeWhile_cons] at hhash
      have hd : isBarOrSpace d = true := by
        cases hsep : isBarOrSpace d with
        | true => rfl
        | false => simp [hsep] at hhash
      simp only [isBarOrSpace, Bool.or_eq_true, decide_eq_true_eq] at hd
      rcases hd with rfl | rfl
      · -- `#|` would be part of the first word
        have hfirst := c.first
        have hbar : (('|' :: rest).head?.any Awk.isBlank) = false := rfl
        rw [← htext, List.singleton_append, Awk.field_one_cons (by decide), hbar,
          if_neg Bool.false_ne_true, Awk.field_one_cons (by decide)] at hfirst
        split at hfirst <;> simp at hfirst
      · exact ⟨rest, htext⟩
  · rintro (htext | ⟨rest, htext⟩)
    · rw [htext]
      decide
    · rw [← htext]
      rfl

theorem printed_later (l : MovedLine) :
    printed awk .barOrSpace l.text = l.wanted ↔ RightLater awk l := by
  cases l with
  | comment c =>
    change printed awk .barOrSpace c.text = true ↔
      HashAndSpace c ∨ After2012 awk (Separator.barOrSpace.field 3 c.text)
    rw [← field_comment, ← recent_iff]
    unfold printed
    by_cases hfirst : Separator.barOrSpace.field 1 c.text = ['#']
    · simp [hfirst]
    · simp [hfirst]
  | entry e =>
    obtain ⟨rest, hrest⟩ := split_entry e
    have hold : Separator.barOrSpace.field 1 e.text = e.old := by
      unfold Separator.field
      rw [hrest]
      rfl
    have hdate : Separator.barOrSpace.field 3 e.text = e.date := by
      unfold Separator.field
      rw [hrest]
      rfl
    change printed awk .barOrSpace e.text = decide (2013 ≤ e.yearNumber) ↔ _
    unfold printed RightLater
    rw [hold, hdate, recent_date]
    by_cases hhash : e.old = ['#']
    · simp [hhash]
    · simp [hhash]

theorem foldl_rule (records output : List Text) :
    (records.foldl (rule awk) ⟨.barOrSpace, output⟩).output =
      output ++ records.filter (printed awk .barOrSpace) := by
  induction records generalizing output with
  | nil => exact (List.append_nil output).symm
  | cons r records ih =>
    have hstep : rule awk ⟨.barOrSpace, output⟩ r =
        ⟨.barOrSpace, output ++ if printed awk .barOrSpace r = true then [r] else []⟩ := by
      unfold rule
      split <;> simp
    rw [List.foldl_cons, hstep, ih, List.filter_cons]
    split <;> simp

theorem awkMoved_cons (l : MovedLine) (ls : List MovedLine) :
    awkMoved awk (movedText (l :: ls)) =
      ((if printed awk .blanks l.text = true then [l] else []) ++
        ls.filter fun m => printed awk .barOrSpace m.text).map MovedLine.text := by
  have hstep : rule awk ⟨.blanks, []⟩ l.text =
      ⟨.barOrSpace, if printed awk .blanks l.text = true then [l.text] else []⟩ := by
    unfold rule
    split <;> simp
  unfold awkMoved
  rw [lines_movedText, List.map_cons, List.foldl_cons, hstep, foldl_rule, List.filter_map,
    List.map_append]
  congr 1
  split <;> rfl

theorem count_filter_eq {α : Type} [DecidableEq α] (p : α → Bool) (xs : List α) (z : α) :
    (xs.filter p).count z = if p z = true then xs.count z else 0 := by
  split
  · rename_i hp
    exact List.count_filter hp
  · rename_i hp
    exact List.count_eq_zero.mpr fun hz => hp (List.mem_filter.mp hz).2

theorem eq_of_count {p k : Bool} {n : Nat} (hn : 0 < n)
    (h : (if p = true then n else 0) = if k = true then n else 0) : p = k := by
  cases p <;> cases k <;> simp at h ⊢ <;> omega

theorem eq_of_count_succ {first p k : Bool} {n : Nat}
    (h : (if first = true then 1 else 0) + (if p = true then n else 0) =
      if k = true then n + 1 else 0) : first = k ∧ (0 < n → p = k) := by
  cases first <;> cases p <;> cases k <;> simp at h ⊢ <;> omega

/-- Equal lines are decided alike after the first one, so no wrong decision makes up for
another. -/
theorem append_filter_eq_iff {α : Type} (first : Bool) (p k : α → Bool) (x : α) (xs : List α) :
    (if first = true then [x] else []) ++ xs.filter p = (x :: xs).filter k ↔
      first = k x ∧ ∀ y ∈ xs, p y = k y := by
  classical
  constructor
  · intro h
    have hcount (z : α) : (if first = true then [x] else []).count z +
        (if p z = true then xs.count z else 0) = if k z = true then (x :: xs).count z else 0 := by
      rw [← count_filter_eq p, ← count_filter_eq k, ← h, List.count_append]
    have hfirst (z : α) : (if first = true then [x] else []).count z =
        if first = true then [x].count z else 0 := by
      split <;> rfl
    have hself := hcount x
    rw [hfirst, List.count_singleton_self, List.count_cons_self] at hself
    obtain ⟨hx, hlater⟩ := eq_of_count_succ hself
    refine ⟨hx, fun y hy => ?_⟩
    by_cases hxy : x = y
    · rw [← hxy] at hy ⊢
      exact hlater (List.count_pos_iff.mpr hy)
    · have hother := hcount y
      rw [hfirst, List.count_cons_of_ne hxy, List.count_cons_of_ne hxy, List.count_nil, ite_self,
        Nat.zero_add] at hother
      exact eq_of_count (List.count_pos_iff.mpr hy) hother
  · rintro ⟨hfirst, hrest⟩
    rw [List.filter_cons, hfirst, List.filter_congr hrest]
    split <;> rfl

/-- The first record is split at blanks, so that of an entry there the third word is looked at and
not the year. A later comment must begin with `#` and a space, or it is taken for an entry. -/
theorem awkMoved_eq_iff (file : List MovedLine) :
    awkMoved awk (movedText file) = (file.filter MovedLine.wanted).map MovedLine.text ↔
      Right awk file := by
  cases file with
  | nil => exact iff_of_true rfl trivial
  | cons l ls =>
    rw [awkMoved_cons, text_injective.list_map.eq_iff, append_filter_eq_iff, printed_first]
    exact and_congr_right fun _ => forall₂_congr fun m _ => printed_later awk m

def goneEntry : Entry where
  old := "a/b".toList
  new := []
  year := "2014".toList
  month := "01".toList
  day := "02".toList
  reason := "Gone".toList
  names := @of_decide_eq_true _ (List.decidableBAll _ _) rfl
  digits := List.all_eq_true.mp (by decide)
  lengths := by decide
  oneLine := by decide

theorem first_entry_dropped :
    ¬ ∀ file : List MovedLine,
      awkMoved Awk.decimals (movedText file) =
        (file.filter MovedLine.wanted).map MovedLine.text := by
  intro h
  have hlines := h [.entry goneEntry]
  revert hlines
  decide +kernel

end DeltaPorts.Generator.Moved

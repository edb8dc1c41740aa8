import DeltaPorts.Library.Awk
import Mathlib.Data.List.DropRight

/-!
# Words and lines in the shell

An unquoted variable is split into words, and `echo` joins its operands by single spaces. A
text file is a list of lines; a command substitution strips the empty lines at its end.
-/

set_option autoImplicit false

namespace Shell

abbrev Text := Awk.Text

def unwords (ws : List Text) : Text := List.intercalate [' '] ws

/-- `echo ${x}`. -/
def echo (l : Text) : Text := unwords (Awk.words l)

/-- `echo "${x}"`, line by line. -/
def lines (l : Text) : List Text := l.splitOn '\n'

/-- `$(command)`, for the lines that the command prints. -/
def captured (ls : List Text) : Text :=
  (List.intercalate ['\n'] ls).rdropWhile (· = '\n')

/-- The text after the last `sep`; all of it if there is none. -/
def afterLast (sep : Char) : Text → Text
  | [] => []
  | c :: rest => if sep ∈ rest then afterLast sep rest else if c = sep then rest else c :: rest

theorem afterLast_of_not_mem {sep : Char} {l : Text} (h : sep ∉ l) : afterLast sep l = l := by
  cases l with
  | nil => rfl
  | cons c l =>
    rw [List.mem_cons, not_or] at h
    rw [afterLast, if_neg h.2, if_neg (Ne.symm h.1)]

theorem afterLast_cons_of_mem {sep : Char} {l : Text} (c : Char) (h : sep ∈ l) :
    afterLast sep (c :: l) = afterLast sep l := if_pos h

theorem unwords_cons_cons (v w : Text) (ws : List Text) :
    unwords (v :: w :: ws) = v ++ ' ' :: unwords (w :: ws) := by
  simp [unwords]

theorem unwords_cons_char (c : Char) (w : Text) (ws : List Text) :
    unwords ((c :: w) :: ws) = c :: unwords (w :: ws) := by
  cases ws <;> simp [unwords]

theorem words_intercalate {sep : Char} (hsep : Awk.isBlank sep = true) {ws : List Text}
    (h : ∀ w ∈ ws, Awk.Plain w ∧ w ≠ []) : Awk.words (List.intercalate [sep] ws) = ws := by
  induction ws with
  | nil => rfl
  | cons w ws ih =>
    obtain ⟨hplain, hne⟩ := h w List.mem_cons_self
    cases ws with
    | nil => rw [List.intercalate_singleton, Awk.words_plain hplain hne]
    | cons v ws =>
      have hhead : ([sep] ++ List.intercalate [sep] (v :: ws)).head?.all Awk.isBlank = true := by
        simpa using hsep
      rw [List.intercalate_cons_cons, List.append_assoc, Awk.words_append hplain hne hhead,
        List.singleton_append, Awk.words_blank_cons hsep,
        ih fun u hu => h u (List.mem_cons_of_mem w hu)]

theorem words_unwords {ws : List Text} (h : ∀ w ∈ ws, Awk.Plain w ∧ w ≠ []) :
    Awk.words (unwords ws) = ws := words_intercalate (by decide) h

theorem words_echo (l : Text) : Awk.words (echo l) = Awk.words l :=
  words_unwords fun _ hw => Awk.plain_of_mem_words hw

/-- The words of a text one character longer. -/
theorem words_cons (c : Char) (l : Text) (hc : Awk.isBlank c = false) :
    (l.head?.all Awk.isBlank = true ∧ Awk.words (c :: l) = [c] :: Awk.words l) ∨
      ∃ w ws, Awk.words l = w :: ws ∧ Awk.words (c :: l) = (c :: w) :: ws := by
  by_cases hl : l.head?.all Awk.isBlank = true
  · left
    exact ⟨hl, Awk.words_append (w := [c]) (by simpa [Awk.Plain] using hc) (by simp) hl⟩
  · right
    cases hwords : Awk.words l with
    | nil =>
      exfalso
      cases l with
      | nil => exact hl rfl
      | cons d l =>
        have hd : Awk.isBlank d = false := by simpa using hl
        unfold Awk.words at hwords
        simp only [hd] at hwords
        split at hwords
        · contradiction
        · split at hwords
          · cases hwords
          · split at hwords <;> cases hwords
    | cons w ws =>
      refine ⟨w, ws, rfl, ?_⟩
      rw [Awk.words, hwords]
      simp [hc, hl]

theorem echo_blank_cons {c : Char} (hc : Awk.isBlank c = true) (l : Text) :
    echo (c :: l) = echo l := by
  unfold echo
  rw [Awk.words_blank_cons hc]

theorem echo_cons {c : Char} (hc : Awk.isBlank c = false) (l : Text) :
    ∃ r, echo (c :: l) = c :: r ∧ (r = echo l ∨ r = ' ' :: echo l) := by
  unfold echo
  rcases words_cons c l hc with ⟨_, hwords⟩ | ⟨w, ws, hl, hwords⟩
  · rw [hwords]
    cases hl : Awk.words l with
    | nil => exact ⟨[], by simp [unwords], Or.inl rfl⟩
    | cons w ws => exact ⟨_, unwords_cons_cons [c] w ws, Or.inr rfl⟩
  · rw [hwords, hl]
    exact ⟨_, unwords_cons_char c w ws, Or.inl rfl⟩

theorem mem_echo {sep : Char} (hsep : Awk.isBlank sep = false) (l : Text) :
    sep ∈ echo l ↔ sep ∈ l := by
  induction l with
  | nil => rfl
  | cons c l ih =>
    cases hc : Awk.isBlank c with
    | true =>
      have hne : sep ≠ c := by
        rintro rfl
        rw [hsep] at hc
        cases hc
      rw [echo_blank_cons hc, ih]
      simp [hne]
    | false =>
      have hspace : sep ≠ ' ' := by
        rintro rfl
        cases hsep
      obtain ⟨r, hr, rfl | rfl⟩ := echo_cons hc l <;> simp [hr, ih, hspace]

theorem newline_not_mem_echo (l : Text) : '\n' ∉ echo l := by
  induction l with
  | nil => simp [echo, unwords, Awk.words]
  | cons c l ih =>
    cases hc : Awk.isBlank c with
    | true => rwa [echo_blank_cons hc]
    | false =>
      have hne : '\n' ≠ c := by
        rintro rfl
        cases hc
      obtain ⟨r, hr, rfl | rfl⟩ := echo_cons hc l <;> simp [hr, ih, hne]

theorem afterLast_subset (sep : Char) (l : Text) : afterLast sep l ⊆ l := by
  induction l with
  | nil => exact List.Subset.refl _
  | cons c l ih =>
    unfold afterLast
    split
    · exact List.subset_cons_of_subset c ih
    · split
      · exact List.subset_cons_self c l
      · exact List.Subset.refl _

theorem lines_of_not_mem {l : Text} (h : '\n' ∉ l) : lines l = [l] := List.splitOn_eq_singleton h

theorem words_concat_newline (l : Text) : Awk.words (l ++ ['\n']) = Awk.words l := by
  induction l with
  | nil => decide
  | cons c l ih =>
    have hhead : (l ++ ['\n']).head?.all Awk.isBlank = l.head?.all Awk.isBlank := by
      cases l with
      | nil => decide
      | cons d l => rfl
    rw [List.cons_append, Awk.words, Awk.words, hhead, ih]

theorem words_captured {ls : List Text} (h : ∀ l ∈ ls, Awk.Plain l ∧ l ≠ []) :
    Awk.words (captured ls) = ls := by
  have hstrip (l : Text) : Awk.words (l.rdropWhile (· = '\n')) = Awk.words l := by
    induction l using List.reverseRecOn with
    | nil => rfl
    | append_singleton l c ih =>
      by_cases hc : c = '\n'
      · rw [hc, List.rdropWhile_concat_pos _ _ _ (by simp), ih, words_concat_newline]
      · rw [List.rdropWhile_concat_neg _ _ _ (by simpa using hc)]
  rw [captured, hstrip, words_intercalate (by decide) h]

theorem infix_intercalate {sep l : Text} {ls : List Text} (h : l ∈ ls) :
    l <:+: List.intercalate sep ls := by
  induction ls with
  | nil => cases h
  | cons m ls ih =>
    cases ls with
    | nil => simp [List.mem_singleton.mp h]
    | cons m' ls =>
      rw [List.intercalate_cons_cons, List.append_assoc]
      rcases List.mem_cons.mp h with rfl | h
      · exact (List.prefix_append _ _).isInfix
      · refine (ih h).trans ?_
        rw [← List.append_assoc]
        exact (List.suffix_append _ _).isInfix

theorem concat_infix_intercalate {sep l : Text} {ls : List Text} (h : l ∈ ls.dropLast) :
    l ++ sep <:+: List.intercalate sep ls := by
  induction ls with
  | nil => cases h
  | cons m ls ih =>
    cases ls with
    | nil => cases h
    | cons m' ls =>
      rw [List.intercalate_cons_cons]
      rw [List.dropLast_cons_of_ne_nil (List.cons_ne_nil m' ls)] at h
      rcases List.mem_cons.mp h with rfl | h
      · exact (List.prefix_append _ _).isInfix
      · exact (ih h).trans (List.suffix_append _ _).isInfix

theorem mem_intercalate {sep l : Text} {ls : List Text} {c : Char} (hl : l ∈ ls) (hc : c ∈ l) :
    c ∈ List.intercalate sep ls :=
  (infix_intercalate hl).subset hc

theorem of_mem_intercalate {sep : Text} {ls : List Text} {c : Char}
    (h : c ∈ List.intercalate sep ls) : c ∈ sep ∨ ∃ l ∈ ls, c ∈ l := by
  induction ls with
  | nil => cases h
  | cons l ls ih =>
    cases ls with
    | nil =>
      rw [List.intercalate_singleton] at h
      exact .inr ⟨l, List.mem_cons_self, h⟩
    | cons l' ls =>
      rw [List.intercalate_cons_cons, List.append_assoc, List.mem_append, List.mem_append] at h
      rcases h with h | h | h
      · exact .inr ⟨l, List.mem_cons_self, h⟩
      · exact .inl h
      · rcases ih h with h | ⟨l'', hl'', h⟩
        · exact .inl h
        · exact .inr ⟨l'', List.mem_cons_of_mem l hl'', h⟩

theorem captured_ne_nil {l : Text} {ls : List Text} {c : Char} (hl : l ∈ ls) (hc : c ∈ l)
    (hnewline : c ≠ '\n') : captured ls ≠ [] := by
  intro hnil
  rw [captured, List.rdropWhile_eq_nil_iff] at hnil
  exact hnewline (by simpa using hnil c (mem_intercalate hl hc))

theorem captured_singleton {w : Text} (hw : '\n' ∉ w) : captured [w] = w := by
  unfold captured
  rw [List.intercalate_singleton, List.rdropWhile_eq_self_iff]
  intro hl hlast
  apply hw
  rw [← of_decide_eq_true hlast]
  exact List.getLast_mem hl

/-- The first word of a captured text is the first word of its first line. -/
theorem captured_word {w t : Text} (hw : Awk.Plain w) (ls : List Text) :
    ∃ t', t' <+: List.intercalate ['\n'] (t :: ls) ∧ captured ((w ++ t) :: ls) = w ++ t' := by
  have happend : List.intercalate ['\n'] ((w ++ t) :: ls) =
      w ++ List.intercalate ['\n'] (t :: ls) := by
    cases ls <;> simp
  have htrim : ∀ u : Text, ∃ t', t' <+: u ∧ (w ++ u).rdropWhile (· = '\n') = w ++ t' := by
    intro u
    induction u using List.reverseRecOn with
    | nil =>
      refine ⟨[], List.prefix_rfl, ?_⟩
      rw [List.append_nil, List.rdropWhile_eq_self_iff]
      intro hl
      have hlast := hw _ (List.getLast_mem hl)
      intro hnewline
      rw [decide_eq_true_eq] at hnewline
      rw [hnewline] at hlast
      cases hlast
    | append_singleton u c ih =>
      rw [← List.append_assoc]
      by_cases hc : c = '\n'
      · obtain ⟨t', hpre, heq⟩ := ih
        refine ⟨t', hpre.trans (List.prefix_append u [c]), ?_⟩
        rw [List.rdropWhile_concat_pos _ _ _ (by simpa using hc), heq]
      · refine ⟨u ++ [c], List.prefix_rfl, ?_⟩
        rw [List.rdropWhile_concat_neg _ _ _ (by simpa using hc), List.append_assoc]
  unfold captured
  rw [happend]
  exact htrim _

/-- Splitting into words and joining them again does not move the last separator. -/
theorem words_afterLast_echo {sep : Char} (hsep : Awk.isBlank sep = false) (l : Text) :
    Awk.words (afterLast sep (echo l)) = Awk.words (afterLast sep l) := by
  induction l with
  | nil => rfl
  | cons c l ih =>
    cases hc : Awk.isBlank c with
    | true =>
      rw [echo_blank_cons hc, ih]
      by_cases hmem : sep ∈ l
      · rw [afterLast_cons_of_mem c hmem]
      · have hne : c ≠ sep := by
          rintro rfl
          rw [hsep] at hc
          cases hc
        rw [afterLast_of_not_mem hmem, afterLast, if_neg hmem, if_neg hne, Awk.words_blank_cons hc]
    | false =>
      have hspace : Awk.isBlank ' ' = true := by decide
      have hne : sep ≠ ' ' := by
        rintro rfl
        cases hsep
      obtain ⟨r, hr, hrest⟩ := echo_cons hc l
      have hwords : Awk.words r = Awk.words l := by
        rcases hrest with rfl | rfl
        · exact words_echo l
        · rw [Awk.words_blank_cons hspace, words_echo]
      have hmem : sep ∈ r ↔ sep ∈ l := by
        rcases hrest with rfl | rfl <;> simp [mem_echo hsep, hne]
      by_cases hl : sep ∈ l
      · rw [hr, afterLast_cons_of_mem c (hmem.mpr hl), afterLast_cons_of_mem c hl, ← ih]
        rcases hrest with rfl | rfl
        · rfl
        · rw [afterLast_cons_of_mem ' ' ((mem_echo hsep l).mpr hl)]
      · have hr' : sep ∉ r := fun h => hl (hmem.mp h)
        rw [hr, afterLast, afterLast, if_neg hr', if_neg hl]
        split
        · exact hwords
        · rw [← hr, words_echo]

theorem echo_of_plain {w : Text} (hw : Awk.Plain w) : echo w = w := by
  by_cases hne : w = []
  · subst hne
    rfl
  · unfold echo
    rw [Awk.words_plain hw hne]
    simp [unwords]

/-- A last part without blanks is not touched by the expansion. -/
theorem afterLast_echo {sep : Char} (hsep : Awk.isBlank sep = false) {l : Text}
    (hplain : Awk.Plain (afterLast sep l)) : afterLast sep (echo l) = afterLast sep l := by
  induction l with
  | nil => rfl
  | cons c l ih =>
    by_cases hmem : sep ∈ l
    · have hl := (mem_echo hsep l).mpr hmem
      rw [afterLast_cons_of_mem c hmem] at hplain ⊢
      rw [← ih hplain]
      cases hc : Awk.isBlank c with
      | true => rw [echo_blank_cons hc]
      | false =>
        obtain ⟨r, hr, hrest⟩ := echo_cons hc l
        rcases hrest with rfl | rfl
        · rw [hr, afterLast_cons_of_mem c hl]
        · rw [hr, afterLast_cons_of_mem c (List.mem_cons_of_mem _ hl), afterLast_cons_of_mem ' ' hl]
    · have hall : Awk.Plain (c :: l) := by
        rw [afterLast, if_neg hmem] at hplain
        split at hplain
        · rename_i hc
          exact List.forall_mem_cons.mpr ⟨hc ▸ hsep, hplain⟩
        · exact hplain
      rw [echo_of_plain hall]

def isGlob (c : Char) : Bool := c = '*' || c = '?' || c = '[' || c = '\\'

/-- What the words of a command are expanded to among the files that are there. -/
structure Globbing where
  expand : Text → List Text
  ne_nil : ∀ w, expand w ≠ []
  noNewline : ∀ w, '\n' ∉ w → ∀ v ∈ expand w, '\n' ∉ v
  literal : ∀ u w, (∀ c ∈ u, isGlob c = false) → ∀ v ∈ expand (u ++ w), u <+: v

/-- `echo ${x}` where the words are expanded. -/
def Globbing.echo (g : Globbing) (l : Text) : Text := unwords ((Awk.words l).flatMap g.expand)

theorem Globbing.newline_not_mem_echo (g : Globbing) (l : Text) : '\n' ∉ g.echo l := by
  intro h
  rcases of_mem_intercalate h with h | ⟨v, hv, h⟩
  · exact absurd h (by decide)
  · obtain ⟨w, hw, hv⟩ := List.mem_flatMap.mp hv
    exact g.noNewline w (Awk.plain_of_mem_words hw).1.newline_not_mem v hv h

/-- What comes before the first character that a glob may contain is printed as it is. -/
theorem Globbing.prefix_echo (g : Globbing) {u : Text} (hplain : Awk.Plain u) (hne : u ≠ [])
    (hglob : ∀ c ∈ u, isGlob c = false) (l : Text) : u <+: g.echo (u ++ l) := by
  obtain ⟨w, ws, hwords⟩ := Awk.words_append_cons hplain hne l
  unfold Globbing.echo
  rw [hwords, List.flatMap_cons]
  cases hexpand : g.expand (u ++ w) with
  | nil => exact absurd hexpand (g.ne_nil (u ++ w))
  | cons v vs =>
    have hprefix : u <+: v := g.literal u w hglob v (hexpand ▸ List.mem_cons_self)
    refine hprefix.trans ?_
    unfold unwords
    rw [List.cons_append]
    cases vs ++ ws.flatMap g.expand with
    | nil => simp
    | cons v' vs' =>
      rw [List.intercalate_cons_cons, List.append_assoc]
      exact List.prefix_append _ _

end Shell

import Mathlib.Data.List.Infix

/-!
# grep

Basic regular expressions without bracket expressions, repetitions and backslashes. A `^` at the
start and a `$` at the end are anchors, a `.` stands for any character, and any other character
for itself.
-/

set_option autoImplicit false

namespace Grep

abbrev Text := List Char

/-- The pattern matches at the start of the text. -/
def matchHere : Text → Text → Bool
  | [], _ => true
  | p :: ps, l =>
    if p = '$' ∧ ps = [] then l.isEmpty
    else match l with
      | [] => false
      | c :: l => (p = '.' || p = c) && matchHere ps l

def matchAnywhere (ps : Text) : Text → Bool
  | [] => matchHere ps []
  | c :: l => matchHere ps (c :: l) || matchAnywhere ps l

/-- The line is one of those that `grep` selects. -/
def found (ps l : Text) : Bool :=
  if ps.head? = some '^' then matchHere ps.tail l else matchAnywhere ps l

def grep (ps : Text) (ls : List Text) : List Text := ls.filter (found ps)

/-- A pattern without anchors. -/
def Unanchored (ps : Text) : Prop := ps.head? ≠ some '^' ∧ ps.getLast? ≠ some '$'

instance (ps : Text) : Decidable (Unanchored ps) :=
  inferInstanceAs (Decidable (ps.head? ≠ some '^' ∧ ps.getLast? ≠ some '$'))

theorem matchHere_append {ps : Text} (h : ps.getLast? ≠ some '$') (l : Text) :
    matchHere ps (ps ++ l) = true := by
  induction ps with
  | nil => rfl
  | cons p ps ih =>
    have hlast : ¬ (p = '$' ∧ ps = []) := by
      rintro ⟨rfl, rfl⟩
      exact h rfl
    have htail : ps.getLast? ≠ some '$' := by
      cases ps with
      | nil => simp
      | cons q ps => simpa using h
    rw [List.cons_append, matchHere, if_neg hlast]
    simp [ih htail]

theorem matchAnywhere_append {ps r : Text} (h : matchHere ps r = true) (l : Text) :
    matchAnywhere ps (l ++ r) = true := by
  induction l with
  | nil =>
    cases r with
    | nil => exact h
    | cons c r => simp [matchAnywhere, h]
  | cons c l ih => simp [matchAnywhere, ih]

/-- A pattern is found where it stands as a text. -/
theorem found_of_infix {ps l : Text} (h : Unanchored ps) (hin : ps <:+: l) :
    found ps l = true := by
  obtain ⟨before, after, rfl⟩ := hin
  unfold found
  rw [if_neg h.1, List.append_assoc]
  exact matchAnywhere_append (matchHere_append h.2 after) before

end Grep

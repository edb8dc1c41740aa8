import Mathlib.Data.List.Basic
import Mathlib.Data.List.Perm.Basic

/-!
# A flag that is not set in every round

Elements are taken in turn. A round passes its element over, sets the flag, clears it, or leaves
it as it is, and the last three take the element if the flag is set then.
-/

set_option autoImplicit false

namespace Leftovers

inductive Round where
  | pass
  | set
  | clear
  | leave
  deriving DecidableEq

def Round.flag : Round → Bool → Bool
  | .pass, flag => flag
  | .set, _ => true
  | .clear, _ => false
  | .leave, flag => flag

def Round.takes : Round → Bool → Bool
  | .pass, _ => false
  | .set, _ => true
  | .clear, _ => false
  | .leave, flag => flag

variable {α β : Type} (round : α → Round)

/-- The elements that are taken. -/
def taken : Bool → List α → List α
  | _, [] => []
  | flag, x :: xs =>
    if (round x).takes flag = true then x :: taken ((round x).flag flag) xs
    else taken ((round x).flag flag) xs

def flagAfter (flag : Bool) (xs : List α) : Bool :=
  xs.foldl (fun flag x => (round x).flag flag) flag

/-- The elements that are taken if no round leaves the flag cleared from before. -/
def wanted (xs : List α) : List α := xs.filter fun x => (round x).takes true

/-- The last round that set the flag or cleared it. -/
def lastSetting (xs : List α) : Option Round :=
  ((xs.map round).filter fun r => r = .set || r = .clear).getLast?

variable {round}

theorem takes_true {r : Round} {flag : Bool} (h : r.takes flag = true) : r.takes true = true := by
  cases r with
  | pass => exact h
  | set => rfl
  | clear => exact h
  | leave => rfl

theorem takes_eq_flag {r : Round} (h : r ≠ .pass) (flag : Bool) : r.takes flag = r.flag flag := by
  cases r with
  | pass => exact absurd rfl h
  | set => rfl
  | clear => rfl
  | leave => rfl

theorem wanted_cons_of_pos {x : α} (h : (round x).takes true = true) (xs : List α) :
    wanted round (x :: xs) = x :: wanted round xs :=
  List.filter_cons_of_pos (p := fun x => (round x).takes true) h

theorem wanted_cons_of_neg {x : α} (h : ¬ (round x).takes true = true) (xs : List α) :
    wanted round (x :: xs) = wanted round xs :=
  List.filter_cons_of_neg (p := fun x => (round x).takes true) h

theorem taken_sublist (flag : Bool) (xs : List α) :
    (taken round flag xs).Sublist (wanted round xs) := by
  induction xs generalizing flag with
  | nil => exact .slnil
  | cons x xs ih =>
    have htail := ih ((round x).flag flag)
    rw [taken]
    by_cases htakes : (round x).takes flag = true
    · rw [if_pos htakes, wanted_cons_of_pos (takes_true htakes)]
      exact htail.cons_cons x
    · rw [if_neg htakes]
      exact htail.trans ((List.sublist_cons_self x xs).filter _)

theorem map_taken_perm_iff (f : α → β) {flag : Bool} {xs : List α} :
    ((taken round flag xs).map f).Perm ((wanted round xs).map f) ↔
      taken round flag xs = wanted round xs := by
  constructor
  · intro h
    have hlength := h.length_eq
    rw [List.length_map, List.length_map] at hlength
    exact (taken_sublist flag xs).eq_of_length hlength
  · exact fun h => h ▸ .refl _

/-- A round that leaves the flag cleared misses its element. -/
theorem taken_cons_eq_wanted_iff (flag : Bool) (x : α) (xs : List α) :
    taken round flag (x :: xs) = wanted round (x :: xs) ↔
      (round x = .leave → flag = true) ∧
        taken round ((round x).flag flag) xs = wanted round xs := by
  by_cases hmissed : round x = .leave ∧ flag = false
  · obtain ⟨hround, rfl⟩ := hmissed
    have hnot : ¬ (round x).takes false = true := by
      rw [hround]
      exact Bool.false_ne_true
    have hwanted : (round x).takes true = true := by
      rw [hround]
      rfl
    rw [taken, if_neg hnot, wanted_cons_of_pos hwanted]
    constructor
    · intro h
      have hle := (@taken_sublist α round ((round x).flag false) xs).length_le
      rw [h, List.length_cons] at hle
      exact absurd hle (Nat.not_succ_le_self _)
    · exact fun h => absurd (h.1 hround) Bool.false_ne_true
  · have hflag : round x = .leave → flag = true := by
      intro hround
      rw [← Bool.not_eq_false]
      exact fun hfalse => hmissed ⟨hround, hfalse⟩
    have htakes : (round x).takes flag = (round x).takes true := by
      cases hround : round x with
      | pass => rfl
      | set => rfl
      | clear => rfl
      | leave => rw [hflag hround]
    rw [taken, htakes]
    by_cases hx : (round x).takes true = true
    · rw [if_pos hx, wanted_cons_of_pos hx, List.cons_inj_right]
      exact (and_iff_right hflag).symm
    · rw [if_neg hx, wanted_cons_of_neg hx]
      exact (and_iff_right hflag).symm

/-- All that is wanted is taken when no round leaves the flag cleared. -/
theorem taken_eq_wanted_iff (flag : Bool) (xs : List α) :
    taken round flag xs = wanted round xs ↔
      ∀ before x after, xs = before ++ x :: after → round x = .leave →
        flagAfter round flag before = true := by
  induction xs generalizing flag with
  | nil => simp [taken, wanted]
  | cons x xs ih =>
    rw [taken_cons_eq_wanted_iff, ih]
    constructor
    · intro ⟨hx, hxs⟩ before y after heq hround
      cases before with
      | nil =>
        obtain ⟨rfl, _⟩ := List.cons.inj heq
        exact hx hround
      | cons z before =>
        obtain ⟨rfl, htail⟩ := List.cons.inj heq
        exact hxs before y after htail hround
    · intro h
      refine ⟨fun hround => h [] x xs rfl hround, fun before y after heq hround => ?_⟩
      exact h (x :: before) y after (congrArg (x :: ·) heq) hround

theorem taken_eq_wanted_of_no_leave {xs : List α} (h : ∀ x ∈ xs, round x ≠ .leave)
    (flag : Bool) : taken round flag xs = wanted round xs := by
  rw [taken_eq_wanted_iff]
  intro before x after heq hround
  refine absurd hround (h x ?_)
  rw [heq]
  exact List.mem_append_right before List.mem_cons_self

/-- The flag that is cleared at first is set by the last round that set it or cleared it. -/
theorem flagAfter_false_iff (xs : List α) :
    flagAfter round false xs = true ↔ lastSetting round xs = some .set := by
  have hgeneral : ∀ flag, flagAfter round flag xs =
      (lastSetting round xs).elim flag fun r => decide (r = .set) := by
    induction xs with
    | nil => exact fun _ => rfl
    | cons x xs ih =>
      intro flag
      have htail := ih ((round x).flag flag)
      unfold flagAfter lastSetting at htail ⊢
      rw [List.foldl_cons, htail, List.map_cons]
      cases hround : round x with
      | pass => rw [List.filter_cons_of_neg (by decide)]; rfl
      | leave => rw [List.filter_cons_of_neg (by decide)]; rfl
      | set =>
        rw [List.filter_cons_of_pos (by decide), List.getLast?_cons]
        cases ((xs.map round).filter fun r => r = .set || r = .clear).getLast? <;> rfl
      | clear =>
        rw [List.filter_cons_of_pos (by decide), List.getLast?_cons]
        cases ((xs.map round).filter fun r => r = .set || r = .clear).getLast? <;> rfl
  rw [hgeneral]
  cases lastSetting round xs with
  | none => simp
  | some r => simp

theorem taken_eq_nil_of_no_set {xs : List α} (h : ∀ x ∈ xs, round x ≠ .set) :
    taken round false xs = [] := by
  induction xs with
  | nil => rfl
  | cons x xs ih =>
    have htail := ih fun y hy => h y (List.mem_cons_of_mem x hy)
    rw [taken]
    cases hround : round x with
    | pass => exact htail
    | set => exact absurd hround (h x List.mem_cons_self)
    | clear => exact htail
    | leave => exact htail

theorem taken_leaves_cleared {xs : List α} (h : ∀ x ∈ xs, round x = .leave) (ys : List α) :
    taken round false (xs ++ ys) = taken round false ys := by
  induction xs with
  | nil => rfl
  | cons x xs ih =>
    rw [List.cons_append, taken, h x List.mem_cons_self]
    exact ih fun y hy => h y (List.mem_cons_of_mem x hy)

theorem taken_leaves_set {xs : List α} (h : ∀ x ∈ xs, round x = .leave) (ys : List α) :
    taken round true (xs ++ ys) = xs ++ taken round true ys := by
  induction xs with
  | nil => rfl
  | cons x xs ih =>
    rw [List.cons_append, taken, h x List.mem_cons_self]
    exact congrArg (x :: ·) (ih fun y hy => h y (List.mem_cons_of_mem x hy))

/-- An element that leaves the flag and one that sets it: which one comes first matters. -/
theorem exists_perm_of_leave_of_set {xs : List α} (hleave : ∃ x ∈ xs, round x = .leave)
    (hset : ∃ x ∈ xs, round x = .set) :
    ∃ ys zs, ys.Perm xs ∧ zs.Perm xs ∧
      (taken round false ys).length < (taken round false zs).length := by
  obtain ⟨s, hs, hround⟩ := hset
  obtain ⟨before, after, rfl⟩ := List.append_of_mem hs
  let rest := before ++ after
  let leaves := rest.filter fun x => decide (round x = .leave)
  let others := rest.filter fun x => !decide (round x = .leave)
  have hrest : (leaves ++ others).Perm rest := List.filter_append_perm _ rest
  have hxs : (s :: rest).Perm (before ++ s :: after) := List.perm_middle.symm
  have hleaves : ∀ x ∈ leaves, round x = .leave :=
    fun x hx => of_decide_eq_true (List.mem_filter.mp hx).2
  have hne : leaves ≠ [] := by
    obtain ⟨x, hx, hxround⟩ := hleave
    have hxrest : x ∈ rest := by
      cases List.mem_cons.mp (hxs.mem_iff.mpr hx) with
      | inl heq =>
        rw [heq, hround] at hxround
        cases hxround
      | inr hmem => exact hmem
    exact List.ne_nil_of_mem (List.mem_filter.mpr ⟨hxrest, decide_eq_true hxround⟩)
  have htakes : ∀ ys, taken round false (s :: ys) = s :: taken round true ys := by
    intro ys
    rw [taken, hround]
    rfl
  refine ⟨leaves ++ s :: others, s :: (leaves ++ others), ?_, ?_, ?_⟩
  · exact List.perm_middle.trans ((hrest.cons s).trans hxs)
  · exact (hrest.cons s).trans hxs
  · rw [taken_leaves_cleared hleaves, htakes, htakes, taken_leaves_set hleaves,
      List.length_cons, List.length_cons, List.length_append]
    have hpos := List.length_pos_of_ne_nil hne
    omega

/-- All orders take the same elements only if no round needs the flag of another one. -/
theorem taken_perm_iff (f : α → β) (xs : List α) :
    (∀ ys, ys.Perm xs →
      ((taken round false ys).map f).Perm ((taken round false xs).map f)) ↔
      (∀ x ∈ xs, round x ≠ .leave) ∨ ∀ x ∈ xs, round x ≠ .set := by
  constructor
  · intro h
    by_cases hleave : ∃ x ∈ xs, round x = .leave
    · refine .inr fun x hx hset => ?_
      obtain ⟨ys, zs, hys, hzs, hlt⟩ := exists_perm_of_leave_of_set hleave ⟨x, hx, hset⟩
      have hlength := ((h ys hys).trans (h zs hzs).symm).length_eq
      rw [List.length_map, List.length_map] at hlength
      exact absurd hlength (Nat.ne_of_lt hlt)
    · exact .inl fun x hx hround => hleave ⟨x, hx, hround⟩
  · intro h ys hys
    cases h with
    | inl hleave =>
      rw [taken_eq_wanted_of_no_leave hleave,
        taken_eq_wanted_of_no_leave fun y hy => hleave y (hys.mem_iff.mp hy)]
      exact (hys.filter _).map f
    | inr hset =>
      rw [taken_eq_nil_of_no_set hset,
        taken_eq_nil_of_no_set fun y hy => hset y (hys.mem_iff.mp hy)]

end Leftovers

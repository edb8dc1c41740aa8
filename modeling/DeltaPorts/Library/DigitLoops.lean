import Mathlib.Data.Int.Order.Basic
import Mathlib.Data.List.Infix
import Mathlib.Data.List.TakeWhile
import Mathlib.Order.Lattice

/-!
# Reading a number digit by digit in a signed type

`value = value * base + a + ... - s` for each digit, evaluated from left to right. What leaves the
range of the type has no defined result.
-/

set_option autoImplicit false

namespace DigitLoops

/-- A loop over digits: the type of its variable, what is added for a digit after the
multiplication and what is subtracted last, and the value from which on a digit is rejected. -/
structure Loop (α : Type) where
  low : Int
  high : Int
  base : Int
  isDigit : α → Bool
  added : α → List Int
  subtracted : α → Int
  limit : Option Int

inductive Reading where
  | undefined
  | rejected
  | value (v : Int)
  deriving DecidableEq

variable {α : Type} (L : Loop α)

namespace Loop

def fits (x : Int) : Option Int := if L.low ≤ x ∧ x ≤ L.high then some x else none

/-- The sum, if every partial sum fits. -/
def addAll (x : Int) : List Int → Option Int
  | [] => some x
  | a :: as => (L.fits (x + a)).bind fun x => addAll x as

def step (v : Int) (c : α) : Option Int :=
  (L.fits (v * L.base)).bind fun x => (L.addAll x (L.added c)).bind fun x =>
    L.fits (x - L.subtracted c)

def read (v : Int) : List α → Reading
  | [] => .value v
  | c :: s =>
    if L.isDigit c then
      if ∃ limit ∈ L.limit, limit ≤ v then .rejected
      else
        match L.step v c with
        | none => .undefined
        | some v => read v s
    else .value v

def total : List Int → Int
  | [] => 0
  | a :: as => a + total as

/-- The digits at the beginning. -/
def digits (s : List α) : List α := s.takeWhile L.isDigit

/-- The number that the digits write after one that is `v`. -/
def number (v : Int) : List α → Int
  | [] => v
  | c :: ds => number (v * L.base + total (L.added c) - L.subtracted c) ds

/-- What the loop relies on: nothing that is added is negative, and a digit has a value. -/
structure Lawful : Prop where
  low : L.low ≤ 0
  base : 1 ≤ L.base
  added : ∀ c, ∀ a ∈ L.added c, 0 ≤ a
  subtracted : ∀ c, 0 ≤ L.subtracted c
  digit : ∀ c, L.isDigit c = true → L.subtracted c ≤ total (L.added c)

/-- A digit that is not rejected, and the largest partial sum for it does not fit. -/
def Overflows (v : Int) (ds : List α) : Prop :=
  ∃ p c, p ++ [c] <+: ds ∧ (∀ limit ∈ L.limit, L.number v p < limit) ∧
    L.high < L.number v p * L.base + total (L.added c)

variable {L} {v : Int} {c : α} {ds s : List α}

theorem total_nonneg {as : List Int} (h : ∀ a ∈ as, 0 ≤ a) : 0 ≤ total as := by
  induction as with
  | nil => exact le_rfl
  | cons a as ih =>
    have ha := h a List.mem_cons_self
    have has := ih fun b hb => h b (List.mem_cons_of_mem a hb)
    unfold total
    omega

theorem number_append (p : List α) (c : α) : L.number v (p ++ [c]) =
    L.number v p * L.base + total (L.added c) - L.subtracted c := by
  induction p generalizing v with
  | nil => rfl
  | cons d p ih => exact ih

theorem number_append_list (p t : List α) :
    L.number v (p ++ t) = L.number (L.number v p) t := by
  induction p generalizing v with
  | nil => rfl
  | cons d p ih => exact ih

/-- An overflow by the number that the digits up to it write. -/
theorem overflows_iff : L.Overflows v ds ↔ ∃ p c, p ++ [c] <+: ds ∧
    (∀ limit ∈ L.limit, L.number v p < limit) ∧
    L.high - L.subtracted c < L.number v (p ++ [c]) := by
  unfold Overflows
  simp only [number_append]
  have hiff {x y z : Int} : x < y ↔ x - z < y - z := by omega
  simp only [← hiff]

/-- A number is below the limit when the next one is below the limit times the base. -/
theorem number_lt_iff {p : List α} {limit : Int} (hbase : 1 ≤ L.base)
    (hlow : L.subtracted c ≤ total (L.added c))
    (hhigh : total (L.added c) < L.subtracted c + L.base) :
    L.number v p < limit ↔ L.number v (p ++ [c]) < L.base * limit := by
  have hpos : 0 ≤ L.base := by omega
  rw [number_append, Int.mul_comm (L.number v p)]
  constructor
  · intro h
    have hmul := Int.mul_le_mul_of_nonneg_left (Int.add_one_le_of_lt h) hpos
    rw [Int.mul_add, Int.mul_one] at hmul
    omega
  · intro h
    by_contra hle
    have hmul := Int.mul_le_mul_of_nonneg_left (Int.not_lt.mp hle) hpos
    omega

/-- Where the limit is on the number before the digit, as a limit on the number with it. -/
theorem overflows_iff_of_limit {limit : Int} (hlimit : L.limit = some limit) (hbase : 1 ≤ L.base)
    (hadds : ∀ c ∈ ds, L.subtracted c ≤ total (L.added c) ∧
      total (L.added c) < L.subtracted c + L.base) :
    L.Overflows v ds ↔ ∃ p c, p ++ [c] <+: ds ∧
      L.high - L.subtracted c < L.number v (p ++ [c]) ∧
      L.number v (p ++ [c]) < L.base * limit := by
  rw [overflows_iff]
  apply exists_congr
  intro p
  apply exists_congr
  intro c
  apply and_congr_right
  intro hp
  obtain ⟨hlow, hhigh⟩ := hadds c (hp.subset (List.mem_append_right p (List.mem_singleton_self c)))
  rw [← number_lt_iff hbase hlow hhigh, and_comm, hlimit]
  simp only [Option.mem_def, Option.some.injEq, forall_eq']

theorem digits_digit (s : List α) : ∀ c ∈ L.digits s, L.isDigit c = true :=
  fun _ hc => List.mem_takeWhile_imp hc

namespace Lawful

variable (hL : L.Lawful)

include hL

theorem addAll_eq {x : Int} {as : List Int} (hx : 0 ≤ x) (has : ∀ a ∈ as, 0 ≤ a)
    (hfits : x ≤ L.high) :
    L.addAll x as = if x + total as ≤ L.high then some (x + total as) else none := by
  have hlow := hL.low
  induction as generalizing x with
  | nil => simp [addAll, total, hfits]
  | cons a as ih =>
    have ha := has a List.mem_cons_self
    have hrest : ∀ b ∈ as, 0 ≤ b := fun b hb => has b (List.mem_cons_of_mem a hb)
    have hnonneg := total_nonneg hrest
    unfold addAll fits total
    by_cases hsum : x + a ≤ L.high
    · rw [if_pos ⟨by omega, hsum⟩, Option.bind_some, ih (by omega) hrest hsum, Int.add_assoc]
    · rw [if_neg fun h => hsum h.2, Option.bind_none, if_neg (by omega)]

/-- A digit step is defined when the sum before the subtraction fits. -/
theorem step_eq (hv : 0 ≤ v) (hc : L.isDigit c = true) : L.step v c =
    if v * L.base + total (L.added c) ≤ L.high then some (L.number v [c]) else none := by
  have hlow := hL.low
  have hbase := hL.base
  have hprod : 0 ≤ v * L.base := Int.mul_nonneg hv (by omega)
  have hsum := total_nonneg (hL.added c)
  have hsub := hL.subtracted c
  have hdigit := hL.digit c hc
  unfold step fits
  by_cases hmul : v * L.base ≤ L.high
  · rw [if_pos ⟨by omega, hmul⟩, Option.bind_some, hL.addAll_eq hprod (hL.added c) hmul]
    by_cases hpeak : v * L.base + total (L.added c) ≤ L.high
    · rw [if_pos hpeak, if_pos hpeak, Option.bind_some, if_pos ⟨by omega, by omega⟩]
      rfl
    · rw [if_neg hpeak, if_neg hpeak, Option.bind_none]
  · rw [if_neg fun h => hmul h.2, Option.bind_none, if_neg (by omega)]

theorem number_nonneg (hv : 0 ≤ v) (hc : L.isDigit c = true) : v ≤ L.number v [c] := by
  have hdigit := hL.digit c hc
  have hbase := hL.base
  have hprod : v * 1 ≤ v * L.base := Int.mul_le_mul_of_nonneg_left hbase hv
  show v ≤ v * L.base + total (L.added c) - L.subtracted c
  omega

theorem le_number (hv : 0 ≤ v) (hds : ∀ c ∈ ds, L.isDigit c = true) : v ≤ L.number v ds := by
  induction ds generalizing v with
  | nil => exact le_rfl
  | cons c ds ih =>
    have hc := hL.number_nonneg hv (hds c List.mem_cons_self)
    exact hc.trans (ih (hv.trans hc) fun d hd => hds d (List.mem_cons_of_mem c hd))

theorem number_le_of_prefix {p : List α} (hv : 0 ≤ v) (hds : ∀ c ∈ ds, L.isDigit c = true)
    (hp : p <+: ds) : L.number v p ≤ L.number v ds := by
  obtain ⟨t, rfl⟩ := hp
  rw [number_append_list]
  refine hL.le_number (hv.trans (hL.le_number hv fun c hc => ?_)) fun c hc => ?_
  · exact hds c (List.mem_append_left t hc)
  · exact hds c (List.mem_append_right p hc)

theorem overflows_cons (hv : 0 ≤ v) (hc : L.isDigit c = true)
    (hds : ∀ d ∈ ds, L.isDigit d = true) : L.Overflows v (c :: ds) ↔
      (∀ limit ∈ L.limit, v < limit) ∧
        (L.high < v * L.base + total (L.added c) ∨ L.Overflows (L.number v [c]) ds) := by
  constructor
  · rintro ⟨p, d, hprefix, hlimit, hhigh⟩
    cases p with
    | nil =>
      obtain ⟨rfl, _⟩ := List.cons_prefix_cons.mp hprefix
      exact ⟨hlimit, .inl hhigh⟩
    | cons e p =>
      obtain ⟨rfl, hrest⟩ := List.cons_prefix_cons.mp hprefix
      refine ⟨fun limit h => ?_, .inr ⟨p, d, hrest, hlimit, hhigh⟩⟩
      have hp : ∀ e' ∈ e :: p, L.isDigit e' = true := by
        intro e' he'
        rcases List.mem_cons.mp he' with rfl | he'
        · exact hc
        · exact hds e' (hrest.subset (List.mem_append_left [d] he'))
      exact (hL.le_number hv hp).trans_lt (hlimit limit h)
  · rintro ⟨hlimit, hhigh | ⟨p, d, hrest, hlimit', hhigh⟩⟩
    · exact ⟨[], c, ⟨ds, rfl⟩, hlimit, hhigh⟩
    · exact ⟨c :: p, d, List.cons_prefix_cons.mpr ⟨rfl, hrest⟩, hlimit', hhigh⟩

/-- The loop reads the number or rejects it, unless a sum overflows. -/
theorem read_spec (hv : 0 ≤ v) (s : List α) :
    (L.read v s = .undefined ↔ L.Overflows v (L.digits s)) ∧
      (L.read v s ≠ .undefined → L.read v s = .rejected ∨
        L.read v s = .value (L.number v (L.digits s))) := by
  induction s generalizing v with
  | nil =>
    refine ⟨iff_of_false nofun ?_, fun _ => .inr rfl⟩
    rintro ⟨p, c, hprefix, _⟩
    exact absurd (List.prefix_nil.mp hprefix) (by simp)
  | cons c s ih =>
    unfold read
    by_cases hc : L.isDigit c = true
    · have hdigits : L.digits (c :: s) = c :: L.digits s := List.takeWhile_cons_of_pos hc
      rw [if_pos hc, hdigits, hL.overflows_cons hv hc (digits_digit s)]
      by_cases hlimit : ∃ limit ∈ L.limit, limit ≤ v
      · rw [if_pos hlimit]
        refine ⟨iff_of_false nofun ?_, fun _ => .inl rfl⟩
        rintro ⟨hbelow, _⟩
        obtain ⟨limit, h, hle⟩ := hlimit
        exact absurd (hbelow limit h) hle.not_gt
      · have hbelow : ∀ limit ∈ L.limit, v < limit := by
          intro limit h
          by_contra hle
          exact hlimit ⟨limit, h, Int.not_lt.mp hle⟩
        rw [if_neg hlimit, hL.step_eq hv hc]
        by_cases hpeak : v * L.base + total (L.added c) ≤ L.high
        · rw [if_pos hpeak]
          obtain ⟨hundefined, hread⟩ := ih (hv.trans (hL.number_nonneg hv hc))
          refine ⟨hundefined.trans ?_, hread⟩
          exact ⟨fun h => ⟨hbelow, .inr h⟩, fun h => h.2.resolve_left hpeak.not_gt⟩
        · rw [if_neg hpeak]
          exact ⟨iff_of_true rfl ⟨hbelow, .inl (Int.not_le.mp hpeak)⟩, fun h => absurd rfl h⟩
    · have hdigits : L.digits (c :: s) = [] := List.takeWhile_cons_of_neg hc
      rw [if_neg hc, hdigits]
      refine ⟨iff_of_false nofun ?_, fun _ => .inr rfl⟩
      rintro ⟨p, d, hprefix, _⟩
      exact absurd (List.prefix_nil.mp hprefix) (by simp)

end Lawful

/-- The number as it is written, or none. -/
def Exact (L : Loop α) (s : List α) : Prop :=
  L.read 0 s = .rejected ∨ L.read 0 s = .value (L.number 0 (L.digits s))

theorem Lawful.exact_iff (hL : L.Lawful) (s : List α) :
    L.Exact s ↔ ¬ L.Overflows 0 (L.digits s) := by
  obtain ⟨hundefined, hread⟩ := hL.read_spec le_rfl s
  rw [← hundefined]
  constructor
  · rintro (h | h) <;> simp [h]
  · exact hread

end Loop

end DigitLoops

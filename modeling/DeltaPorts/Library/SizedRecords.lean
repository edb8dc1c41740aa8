import Mathlib.Data.List.Basic

/-!
# Buffers of records that begin with their own size

The walk reads the size at its position, stops when the record does not fit into what is left, and
gives up at a size that is not the expected one.
-/

set_option autoImplicit false

namespace SizedRecords

variable {α β : Type} (sizeAt : List α → Nat) (header size : Nat) (found : List α → Option β)

/-- Whether the end of the buffer was reached, and what was found; nothing when the rounds were
too few. -/
def walk : Nat → List α → List β → Option (Bool × List β)
  | 0, _, _ => none
  | rounds + 1, rest, out =>
    if header < rest.length ∧ sizeAt rest ≤ rest.length then
      if sizeAt rest ≠ size then some (false, out)
      else walk rounds (rest.drop (sizeAt rest)) (out ++ (found (rest.take size)).toList)
    else some (true, out)

variable {sizeAt header size found}

/-- Each round takes a record out of the buffer. -/
theorem walk_terminates (hsize : 0 < size) {rounds : Nat} {rest : List α}
    (h : rest.length < rounds) (out : List β) :
    (walk sizeAt header size found rounds rest out).isSome = true := by
  induction rounds generalizing rest out with
  | zero => exact absurd h (Nat.not_lt_zero _)
  | succ rounds ih =>
    unfold walk
    split
    · rename_i hfits
      split
      · rfl
      · rename_i hsame
        apply ih
        rw [List.length_drop]
        omega
    · rfl

/-- A record of the expected size. -/
structure Sized (sizeAt : List α → Nat) (size : Nat) (record : List α) : Prop where
  length : record.length = size
  sizeAt_append : ∀ rest, sizeAt (record ++ rest) = size

theorem walk_flatten (hheader : header < size) {records : List (List α)}
    (hrecords : ∀ record ∈ records, Sized sizeAt size record) {rounds : Nat}
    (h : records.flatten.length < rounds) (out : List β) :
    walk sizeAt header size found rounds records.flatten out =
      some (true, out ++ records.filterMap found) := by
  induction records generalizing rounds out with
  | nil =>
    obtain ⟨rounds, rfl⟩ : ∃ n, rounds = n + 1 := ⟨rounds - 1, by omega⟩
    rw [walk, if_neg fun hfits => Nat.not_lt_zero _ hfits.1, List.filterMap_nil, List.append_nil]
  | cons record records ih =>
    obtain ⟨hlength, hsizeAt⟩ := hrecords record List.mem_cons_self
    have htail := fun r hr => hrecords r (List.mem_cons_of_mem record hr)
    obtain ⟨rounds, rfl⟩ : ∃ n, rounds = n + 1 := ⟨rounds - 1, by omega⟩
    rw [List.flatten_cons] at h ⊢
    rw [List.length_append] at h
    have hfits : header < (record ++ records.flatten).length ∧
        sizeAt (record ++ records.flatten) ≤ (record ++ records.flatten).length := by
      rw [hsizeAt, List.length_append]
      omega
    have hdrop : (record ++ records.flatten).drop size = records.flatten :=
      List.drop_left' hlength
    have htake : (record ++ records.flatten).take size = record := List.take_left' hlength
    rw [walk, if_pos hfits, hsizeAt, if_neg (not_not.mpr rfl), hdrop, htake,
      ih htail (by omega), List.append_assoc]
    cases hfound : found record with
    | none => rw [List.filterMap_cons_none hfound]; rfl
    | some b => rw [List.filterMap_cons_some hfound]; rfl

variable {few : List α → Option β}

theorem length_filterMap_le (hfew : ∀ record, few record = none ∨ few record = found record)
    (records : List (List α)) :
    (records.filterMap few).length ≤ (records.filterMap found).length := by
  induction records with
  | nil => exact Nat.le_refl _
  | cons record records ih =>
    cases hfew record with
    | inl hnone =>
      rw [List.filterMap_cons_none hnone]
      apply Nat.le_trans ih
      cases hfound : found record with
      | none => exact Nat.le_of_eq (List.filterMap_cons_none hfound ▸ rfl)
      | some b =>
        rw [List.filterMap_cons_some hfound, List.length_cons]
        exact Nat.le_succ _
    | inr hsame =>
      cases hfound : found record with
      | none =>
        rw [List.filterMap_cons_none hfound, List.filterMap_cons_none (hsame.trans hfound)]
        exact ih
      | some b =>
        rw [List.filterMap_cons_some hfound, List.filterMap_cons_some (hsame.trans hfound)]
        exact Nat.succ_le_succ ih

/-- A search that finds less finds the same list only if it misses nothing. -/
theorem filterMap_eq_iff (hfew : ∀ record, few record = none ∨ few record = found record)
    (records : List (List α)) :
    records.filterMap few = records.filterMap found ↔
      ∀ record ∈ records, few record = found record := by
  constructor
  · intro h
    induction records with
    | nil => exact fun record hrecord => absurd hrecord List.not_mem_nil
    | cons record records ih =>
      have hhead : few record = found record := by
        refine (hfew record).elim (fun hnone => ?_) id
        cases hfound : found record with
        | none => exact hnone
        | some b =>
          rw [List.filterMap_cons_none hnone, List.filterMap_cons_some hfound] at h
          have hle := length_filterMap_le hfew records
          rw [h, List.length_cons] at hle
          omega
      have htail : records.filterMap few = records.filterMap found := by
        cases hfound : found record with
        | none =>
          rwa [List.filterMap_cons_none hfound,
            List.filterMap_cons_none (hhead.trans hfound)] at h
        | some b =>
          rw [List.filterMap_cons_some hfound,
            List.filterMap_cons_some (hhead.trans hfound)] at h
          exact List.tail_eq_of_cons_eq h
      intro r hr
      cases List.mem_cons.mp hr with
      | inl heq => exact heq ▸ hhead
      | inr hmem => exact ih htail r hmem
  · exact List.filterMap_congr

end SizedRecords

import DeltaPorts.Library.Lexical
import DeltaPorts.MakeIndex.Ports

/-!
# The order of the ports and of the packages
-/

set_option autoImplicit false

namespace DeltaPorts.MakeIndex

/-- A byte of a portdir as `portcompare` ranks it. -/
def slashFirst (b : Byte) : Int := if b = slash then -200 else b.toInt8.toInt

theorem toInt8_injective : Function.Injective UInt8.toInt8 := by
  intro a b h
  rw [← a.toUInt8_toInt8, h, b.toUInt8_toInt8]

theorem slashFirst_slash_lt {b : Byte} (hb : b ≠ slash) : slashFirst slash < slashFirst b := by
  have hmin := b.toInt8.le_toInt
  unfold slashFirst
  rw [if_pos rfl, if_neg hb]
  omega

theorem slashFirst_injective : Function.Injective slashFirst := by
  intro a b h
  by_cases ha : a = slash
  · subst ha
    by_contra hne
    exact (slashFirst_slash_lt fun hb => hne hb.symm).ne h
  · by_cases hb : b = slash
    · subst hb
      exact absurd h.symm (slashFirst_slash_lt ha).ne
    · unfold slashFirst at h
      rw [if_neg ha, if_neg hb] at h
      exact toInt8_injective (Int8.toInt_inj.mp h)

theorem portcompare_eq (as bs : Bytes) : portcompare as bs = Lexical.compare slashFirst as bs := by
  induction as generalizing bs with
  | nil => cases bs <;> rfl
  | cons a as ih =>
    cases bs with
    | nil => rfl
    | cons b bs =>
      unfold portcompare Lexical.compare
      by_cases hab : a = b
      · rw [if_pos hab, if_pos hab, ih]
      · rw [if_neg hab, if_neg hab]
        by_cases ha : a = slash
        · have hlt : slashFirst a < slashFirst b := by
            subst ha
            exact slashFirst_slash_lt fun hb => hab hb.symm
          rw [if_pos ha, if_pos hlt]
        · rw [if_neg ha]
          by_cases hb : b = slash
          · have hgt : slashFirst b < slashFirst a := by
              subst hb
              exact slashFirst_slash_lt ha
            rw [if_pos hb, if_neg hgt.not_gt]
          · rw [if_neg hb]
            unfold slashFirst
            simp only [if_neg ha, if_neg hb, Int8.lt_iff_toInt_lt]

theorem toNat_injective : Function.Injective fun b : Byte => (b.toNat : Int) := by
  intro a b h
  exact UInt8.toNat_inj.mp (Int.ofNat_inj.mp h)

theorem strcmp_eq (as bs : Bytes) :
    strcmp as bs = Lexical.compare (fun b => (b.toNat : Int)) as bs := by
  induction as generalizing bs with
  | nil => cases bs <;> rfl
  | cons a as ih =>
    cases bs with
    | nil => rfl
    | cons b bs =>
      unfold strcmp Lexical.compare
      rw [ih]
      simp only [UInt8.lt_iff_toNat_lt, Int.ofNat_lt]

theorem portcompare_eq_zero_iff {a b : Bytes} : portcompare a b = 0 ↔ a = b := by
  rw [portcompare_eq]
  exact Lexical.compare_eq_zero_iff slashFirst_injective

theorem portcompare_pos_iff {a b : Bytes} : 0 < portcompare a b ↔ portcompare b a < 0 := by
  rw [portcompare_eq, portcompare_eq]
  exact Lexical.compare_pos_iff slashFirst_injective

theorem strcmp_pos_iff {a b : Bytes} : 0 < strcmp a b ↔ strcmp b a < 0 := by
  rw [strcmp_eq, strcmp_eq]
  exact Lexical.compare_pos_iff toNat_injective

theorem weakOrder_compare {rank : Byte → Int} (hrank : Function.Injective rank)
    {key : Nat → Bytes} {less : Nat → Nat → Bool}
    (hless : ∀ p q, less p q = decide (Lexical.compare rank (key p) (key q) < 0)) :
    HeapSort.WeakOrder less := by
  constructor
  · intro p q h
    rw [hless, decide_eq_true_iff, Lexical.compare_neg_iff hrank] at h
    rw [hless, decide_eq_false_iff_not, Lexical.compare_neg_iff hrank]
    exact h.not_gt
  · intro p q r hpq hqr
    rw [hless, decide_eq_false_iff_not, Lexical.compare_neg_iff hrank, not_lt] at hpq hqr ⊢
    exact hqr.trans hpq

section Ports

variable (ports : Nat → Port)

theorem weakOrder_portless : HeapSort.WeakOrder (portless ports) := by
  apply @weakOrder_compare _ slashFirst_injective fun p => (ports p).portdir
  intro p q
  unfold portless
  rw [portcompare_eq]

theorem weakOrder_pkgless : HeapSort.WeakOrder (pkgless ports) := by
  apply @weakOrder_compare _ toNat_injective fun p => (ports p).pkgname
  intro p q
  unfold pkgless
  rw [strcmp_eq]

theorem sortports_perm (pp : List Nat) : (sortports ports pp).Perm pp :=
  HeapSort.sort_perm (weakOrder_portless ports) pp

theorem sortpkgs_perm (d : List Nat) : (sortpkgs ports d).Perm d :=
  HeapSort.sort_perm (weakOrder_pkgless ports) d

theorem sortpkgs_pairwise (d : List Nat) :
    (sortpkgs ports d).Pairwise fun p q => strcmp (ports p).pkgname (ports q).pkgname ≤ 0 := by
  apply (HeapSort.sort_pairwise (weakOrder_pkgless ports) d).imp
  intro p q h
  unfold pkgless at h
  rw [decide_eq_false_iff_not, ← strcmp_pos_iff] at h
  omega

/-- Ports with different portdirs come out in strict order. -/
theorem sortports_pairwise {pp : List Nat} (hnodup : pp.Nodup)
    (hdirs : ∀ p ∈ pp, ∀ q ∈ pp, (ports p).portdir = (ports q).portdir → p = q) :
    (sortports ports pp).Pairwise fun p q => portcompare (ports p).portdir (ports q).portdir < 0 := by
  have hperm := sortports_perm ports pp
  have hle := HeapSort.sort_pairwise (weakOrder_portless ports) pp
  apply (hle.and (hperm.nodup_iff.mpr hnodup)).imp_of_mem
  intro p q hp hq h
  obtain ⟨h, hne⟩ := h
  unfold portless at h
  rw [decide_eq_false_iff_not, ← portcompare_pos_iff] at h
  have hzero : portcompare (ports p).portdir (ports q).portdir ≠ 0 := by
    intro heq
    exact hne (hdirs p (hperm.subset hp) q (hperm.subset hq) (portcompare_eq_zero_iff.mp heq))
  omega

theorem findport_eq {pp : List Nat} {p : Nat} (origin : Bytes)
    (hsorted : pp.Pairwise fun p q => portcompare (ports p).portdir (ports q).portdir < 0)
    (hp : p ∈ pp) : findport ports pp (ports p).portdir origin = .ok p := by
  obtain ⟨k, hk, rfl⟩ := List.getElem_of_mem hp
  have hget : ∀ {j}, (hj : j < pp.length) → pp.getD j 0 = pp[j] :=
    fun hj => List.getD_eq_getElem _ _ hj
  rw [List.pairwise_iff_getElem] at hsorted
  unfold findport
  rw [BinarySearch.search_eq_some (Nat.zero_le k) hk (by omega)]
  · exact congrArg Except.ok (hget hk)
  · rw [hget hk]
    exact portcompare_eq_zero_iff.mpr rfl
  · intro j _ hj
    rw [hget (hj.trans hk)]
    exact hsorted j k _ hk hj
  · intro j hj hlen
    rw [hget hlen, portcompare_pos_iff]
    exact hsorted k j hk hlen hj

end Ports

end DeltaPorts.MakeIndex

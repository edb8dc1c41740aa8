import DeltaPorts.MakeIndex.Order

/-!
# Sorting the ports and looking them up

The loops of `heapifyports`, `main` and `findport` as the source has them, run with fuel: `none`
is a loop that has not ended. They end for every array, and do what the other modules take them
to do.
-/

set_option autoImplicit false

namespace DeltaPorts.MakeIndex

section Loops

variable (ports : Nat → Port)

/-- From the label `top` on. The array is read at positions below `size` and at `i` and `pos`. -/
def heapifyTop (size : Nat) : Nat → (Nat → Nat) → Nat → Nat → Option (Nat → Nat)
  | 0, _, _, _ => none
  | fuel + 1, pp, i, pos =>
    let i := if 2 * pos + 1 < size ∧
      portcompare (ports (pp i)).portdir (ports (pp (2 * pos + 1))).portdir < 0 then 2 * pos + 1 else i
    let i := if 2 * pos + 2 < size ∧
      portcompare (ports (pp i)).portdir (ports (pp (2 * pos + 2))).portdir < 0 then 2 * pos + 2 else i
    if i ≠ pos then heapifyTop size fuel (HeapSort.swap pp pos i) i i else some pp

def heapifyports (fuel : Nat) (pp : Nat → Nat) (size pos : Nat) : Option (Nat → Nat) :=
  heapifyTop ports size fuel pp pos pos

/-- Build a heap: `for (i = pplen; i > 0; i--)`. -/
def buildLoop (fuel pplen : Nat) : Nat → (Nat → Nat) → Option (Nat → Nat)
  | 0, pp => some pp
  | i + 1, pp => (heapifyports ports fuel pp pplen i).bind fun pp => buildLoop fuel pplen i pp

/-- Extract elements: `for (i = pplen - 1; i > 0; i--)`. -/
def extractLoop (fuel : Nat) : Nat → (Nat → Nat) → Option (Nat → Nat)
  | 0, pp => some pp
  | i + 1, pp =>
    (heapifyports ports fuel (HeapSort.swap pp 0 (i + 1)) (i + 1) 0).bind fun pp =>
      extractLoop fuel i pp

/-- Step 2 of `main`, which has returned before when there are no ports. -/
def sortLoops (fuel : Nat) (pp : List Nat) : Option (List Nat) :=
  ((buildLoop ports fuel pp.length pp.length fun k => pp.getD k 0).bind fun a =>
    extractLoop ports fuel (pp.length - 1) a).map fun a => (List.range pp.length).map a

/-- `findport`, with the array of the whole length. -/
def findLoop (pp : List Nat) (name origin : Bytes) : Nat → Nat → Nat → Option (Except Failure Nat)
  | 0, _, _ => none
  | fuel + 1, st, en =>
    if st = en then some (.error (.errx (origin ++ bytes ": no entry for " ++ name)))
    else
      let mid := (st + en) / 2
      match pp[mid]? with
      | none => some (.error .undefinedBehaviour)
      | some p =>
        let r := portcompare (ports p).portdir name
        if r = 0 then some (.ok p)
        else if r < 0 then findLoop pp name origin fuel (mid + 1) en
        else findLoop pp name origin fuel st mid

end Loops

variable {ports : Nat → Port}

theorem heapifyTop_succ (size fuel : Nat) (pp : Nat → Nat) (pos : Nat) :
    heapifyTop ports size (fuel + 1) pp pos pos =
      let i := HeapSort.largest (portless ports) size pp pos
      if i ≠ pos then heapifyTop ports size fuel (HeapSort.swap pp pos i) i i else some pp := by
  simp only [heapifyTop, HeapSort.largest, portless, decide_eq_true_eq]

theorem heapifyTop_eq {size fuel fuel' : Nat} {pp : Nat → Nat} {pos : Nat}
    (hfuel : size - pos < fuel) (hfuel' : size - pos ≤ fuel') :
    heapifyTop ports size fuel pp pos pos =
      some (HeapSort.sift (portless ports) size fuel' pp pos) := by
  induction fuel generalizing fuel' pp pos with
  | zero => omega
  | succ fuel ih =>
    rw [heapifyTop_succ]
    dsimp only
    obtain ⟨heq | ⟨hchild, hsize, _⟩, _⟩ :=
      HeapSort.largest_spec (weakOrder_portless ports) size pp pos
    · rw [if_neg (not_not.mpr heq)]
      cases fuel' with
      | zero => rfl
      | succ fuel' =>
        unfold HeapSort.sift
        rw [if_neg (not_not.mpr heq)]
    · unfold HeapSort.IsChild at hchild
      cases fuel' with
      | zero => omega
      | succ fuel' =>
        unfold HeapSort.sift
        have hne : HeapSort.largest (portless ports) size pp pos ≠ pos := by omega
        rw [if_pos hne, if_pos hne]
        exact ih (by omega) (by omega)

theorem heapifyports_eq {fuel size : Nat} (hfuel : size < fuel) (pp : Nat → Nat) (pos : Nat) :
    heapifyports ports fuel pp size pos =
      some (HeapSort.heapify (portless ports) size pp pos) :=
  heapifyTop_eq (by omega) le_rfl

theorem buildLoop_eq {fuel pplen : Nat} (hfuel : pplen < fuel) (i : Nat) (pp : Nat → Nat) :
    buildLoop ports fuel pplen i pp = some (HeapSort.build (portless ports) pplen i pp) := by
  induction i generalizing pp with
  | zero => rfl
  | succ i ih =>
    rw [buildLoop, heapifyports_eq hfuel, Option.bind_some, ih]
    rfl

theorem extractLoop_eq {fuel i : Nat} (hfuel : i < fuel) (pp : Nat → Nat) :
    extractLoop ports fuel i pp = some (HeapSort.extract (portless ports) i pp) := by
  induction i generalizing pp with
  | zero => rfl
  | succ i ih =>
    rw [extractLoop, heapifyports_eq hfuel, Option.bind_some, ih (by omega)]
    rfl

theorem sortLoops_eq {fuel : Nat} {pp : List Nat} (hfuel : pp.length < fuel) :
    sortLoops ports fuel pp = some (sortports ports pp) := by
  unfold sortLoops
  rw [buildLoop_eq hfuel, Option.bind_some, extractLoop_eq (by omega), Option.map_some]
  rfl

theorem findLoop_eq {pp : List Nat} (name origin : Bytes) {fuel fuel' st en : Nat} (hst : st ≤ en)
    (hen : en ≤ pp.length) (hfuel : en - st < fuel) (hfuel' : en - st < fuel') :
    findLoop ports pp name origin fuel st en =
      some (match BinarySearch.search (fun mid => portcompare (ports (pp.getD mid 0)).portdir name)
          fuel' st en with
        | some mid => .ok (pp.getD mid 0)
        | none => .error (.errx (origin ++ bytes ": no entry for " ++ name))) := by
  induction fuel generalizing fuel' st en with
  | zero => omega
  | succ fuel ih =>
    obtain ⟨fuel', rfl⟩ : ∃ f, fuel' = f + 1 := ⟨fuel' - 1, by omega⟩
    unfold findLoop BinarySearch.search
    by_cases hempty : st = en
    · rw [if_pos hempty, if_pos hempty]
    · have hmid : (st + en) / 2 < pp.length := by omega
      rw [if_neg hempty, if_neg hempty]
      dsimp only
      rw [List.getElem?_eq_getElem hmid, List.getD_eq_getElem _ _ hmid]
      dsimp only
      split
      · exact congrArg some (congrArg Except.ok (List.getD_eq_getElem _ _ hmid).symm)
      · split
        · exact ih (by omega) hen (by omega) (by omega)
        · exact ih (by omega) (by omega) (by omega) (by omega)

/-- The search of the whole array ends. -/
theorem findLoop_findport {pp : List Nat} (name origin : Bytes) {fuel : Nat}
    (hfuel : pp.length < fuel) :
    findLoop ports pp name origin fuel 0 pp.length = some (findport ports pp name origin) :=
  findLoop_eq name origin (Nat.zero_le _) le_rfl hfuel (Nat.lt_succ_self _)

theorem isLinearOrder_portcompare : IsLinearOrder Bytes fun a b => portcompare a b ≤ 0 := by
  simp only [portcompare_eq]
  exact Lexical.isLinearOrder_compare slashFirst_injective

/-- A category comes before its ports, these before what else extends its name, and nothing in
between. -/
structure SortsFirst (category : Bytes) : Prop where
  first : ∀ s, category <+: s → portcompare category s ≤ 0
  ports : ∀ p s, category ++ [slash] <+: p → category <+: s → ¬ category ++ [slash] <+: s →
    s ≠ category → portcompare p s < 0
  between : ∀ s u t, category <+: s → category <+: t → portcompare s u ≤ 0 →
    portcompare u t ≤ 0 → category <+: u

theorem portcompare_append (w a b : Bytes) :
    portcompare (w ++ a) (w ++ b) = portcompare a b := by
  rw [portcompare_eq, portcompare_eq]
  exact Lexical.compare_append slashFirst w a b

theorem sortsFirst (category : Bytes) : SortsFirst category where
  first := by
    rintro s ⟨t, rfl⟩
    have happend := portcompare_append category [] t
    rw [List.append_nil] at happend
    rw [happend]
    cases t with
    | nil => exact le_rfl
    | cons c t => exact show (-1 : Int) ≤ 0 by decide
  ports := by
    rintro p s ⟨q, rfl⟩ ⟨t, rfl⟩ hslash hne
    rw [List.append_assoc, portcompare_append]
    cases t with
    | nil => exact absurd (List.append_nil category) hne
    | cons c t =>
      have hc : slash ≠ c := by
        rintro rfl
        exact hslash ⟨t, by rw [List.append_assoc]; rfl⟩
      show portcompare (slash :: q) (c :: t) < 0
      unfold portcompare
      rw [if_neg hc, if_pos rfl]
      decide
  between := by
    intro s u t hs ht hsu hut
    rw [portcompare_eq] at hsu hut
    exact Lexical.prefix_between hs ht hsu hut

theorem sortports_ordered (pp : List Nat) : (sortports ports pp).Pairwise fun p q =>
    portcompare (ports p).portdir (ports q).portdir ≤ 0 := by
  apply (HeapSort.sort_pairwise (weakOrder_portless ports) pp).imp
  intro p q h
  unfold portless at h
  rw [decide_eq_false_iff_not, ← portcompare_pos_iff] at h
  omega

theorem portcompare_neg_iff {a b : Bytes} :
    portcompare a b < 0 ↔ a.map slashFirst < b.map slashFirst := by
  rw [portcompare_eq]
  exact Lexical.compare_neg_iff slashFirst_injective

theorem portcompare_nonpos_iff {a b : Bytes} :
    portcompare a b ≤ 0 ↔ a.map slashFirst ≤ b.map slashFirst := by
  rw [portcompare_eq]
  exact Lexical.compare_nonpos_iff slashFirst_injective

theorem ascending {pp : List Nat} (hpp : pp.Pairwise fun p q =>
    portcompare (ports p).portdir (ports q).portdir ≤ 0) (name : Bytes) :
    BinarySearch.Ascending (fun mid => portcompare (ports (pp.getD mid 0)).portdir name)
      pp.length := by
  have hle {j k : Nat} (hjk : j < k) (hk : k < pp.length) :
      (ports (pp.getD j 0)).portdir.map slashFirst ≤ (ports (pp.getD k 0)).portdir.map slashFirst := by
    have hj : j < pp.length := by omega
    rw [List.getD_eq_getElem _ _ hj, List.getD_eq_getElem _ _ hk, ← portcompare_nonpos_iff]
    exact List.pairwise_iff_getElem.mp hpp j k hj hk hjk
  constructor
  · intro j k hjk hk hneg
    rw [portcompare_neg_iff] at hneg ⊢
    exact (hle hjk hk).trans_lt hneg
  · intro j k hjk hk hpos
    rw [portcompare_pos_iff, portcompare_neg_iff] at hpos ⊢
    exact hpos.trans_le (hle hjk hk)

theorem findport_spec {pp : List Nat} (hpp : pp.Pairwise fun p q =>
    portcompare (ports p).portdir (ports q).portdir ≤ 0) (name origin : Bytes) :
    (∃ p ∈ pp, (ports p).portdir = name ∧ findport ports pp name origin = .ok p) ∨
      (∀ p ∈ pp, (ports p).portdir ≠ name) ∧ findport ports pp name origin =
        .error (.errx (origin ++ bytes ": no entry for " ++ name)) := by
  have hfuel : pp.length - 0 < pp.length + 1 := by omega
  have hsearch := BinarySearch.search_spec (ascending hpp name) (Nat.zero_le _) le_rfl hfuel
  unfold findport
  generalize BinarySearch.search _ (pp.length + 1) 0 pp.length = place at hsearch ⊢
  cases place with
  | some k =>
    obtain ⟨_, hlen, hzero⟩ := hsearch
    refine .inl ⟨pp.getD k 0, ?_, portcompare_eq_zero_iff.mp hzero, rfl⟩
    rw [List.getD_eq_getElem _ _ hlen]
    exact List.getElem_mem hlen
  | none =>
    refine .inr ⟨?_, rfl⟩
    intro p hp
    obtain ⟨k, hk, rfl⟩ := List.getElem_of_mem hp
    have hne := hsearch k (Nat.zero_le _) hk
    rw [List.getD_eq_getElem _ _ hk] at hne
    exact fun h => hne (portcompare_eq_zero_iff.mpr h)

/-- `portcompare` is a total order that puts a category first; with fuel for one round more than
there are ports, the sorting ends with the ports in that order, and so does a search of them, with
a port of the name or with the error. -/
theorem ports_sorted_and_found :
    (IsLinearOrder Bytes fun a b => portcompare a b ≤ 0) ∧ (∀ category, SortsFirst category) ∧
    ∀ (ports : Nat → Port) (pp : List Nat), ∃ sorted,
      (∀ fuel > pp.length, sortLoops ports fuel pp = some sorted) ∧ sorted.Perm pp ∧
      (sorted.Pairwise fun p q => portcompare (ports p).portdir (ports q).portdir ≤ 0) ∧
      ∀ name origin, ∃ found,
        (∀ fuel > pp.length,
          findLoop ports sorted name origin fuel 0 sorted.length = some found) ∧
        ((∃ p ∈ sorted, (ports p).portdir = name ∧ found = .ok p) ∨
          (∀ p ∈ sorted, (ports p).portdir ≠ name) ∧
            found = .error (.errx (origin ++ bytes ": no entry for " ++ name))) := by
  refine ⟨isLinearOrder_portcompare, sortsFirst, fun ports pp => ?_⟩
  have hperm := sortports_perm ports pp
  refine ⟨sortports ports pp, fun fuel hfuel => sortLoops_eq hfuel, hperm, sortports_ordered pp, ?_⟩
  intro name origin
  refine ⟨findport ports (sortports ports pp) name origin, ?_,
    findport_spec (sortports_ordered pp) _ _⟩
  intro fuel hfuel
  rw [← hperm.length_eq] at hfuel
  exact findLoop_findport name origin hfuel

end DeltaPorts.MakeIndex

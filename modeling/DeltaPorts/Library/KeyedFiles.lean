import DeltaPorts.Library.LineTools

/-!
# Files sorted on a key

What `sort -m` and `join` give for files that are sorted on a key and have each key once.
-/

set_option autoImplicit false

namespace LineTools

variable {α κ : Type} [LinearOrder κ] (key : α → κ) {x y : α} {xs ys : List α}

/-- Sorted on the key, each key once. -/
def Keyed (xs : List α) : Prop := xs.Pairwise fun a b => key a < key b

variable {key}

theorem Keyed.eq_of_key (h : Keyed key xs) (hx : x ∈ xs) (hy : y ∈ xs) (hkey : key x = key y) :
    x = y := by
  induction xs with
  | nil => cases hx
  | cons z zs ih =>
    obtain ⟨hz, hzs⟩ := List.pairwise_cons.mp h
    rcases List.mem_cons.mp hx with hxz | hxzs
    · rcases List.mem_cons.mp hy with hyz | hyzs
      · rw [hxz, hyz]
      · exact absurd hkey (hxz ▸ (hz y hyzs).ne)
    · rcases List.mem_cons.mp hy with hyz | hyzs
      · exact absurd hkey (hyz ▸ (hz x hxzs).ne')
      · exact ih hzs hxzs hyzs

theorem Keyed.filter (h : Keyed key xs) (p : α → Bool) : Keyed key (xs.filter p) :=
  h.sublist List.filter_sublist

section While

variable {p : α → Bool} (h : xs.Pairwise fun a b => p b = true → p a = true)

include h

/-- Where the elements that pass a test stand first. -/
theorem takeWhile_eq_filter : xs.takeWhile p = xs.filter p := by
  induction xs with
  | nil => rfl
  | cons x xs ih =>
    obtain ⟨hx, hxs⟩ := List.pairwise_cons.mp h
    cases hp : p x with
    | true => rw [List.takeWhile_cons_of_pos hp, List.filter_cons_of_pos hp, ih hxs]
    | false =>
      have hnot : ¬ p x = true := by simp [hp]
      rw [List.takeWhile_cons_of_neg hnot, List.filter_cons_of_neg hnot, eq_comm,
        List.filter_eq_nil_iff]
      exact fun y hy hpy => hnot (hx y hy hpy)

theorem dropWhile_eq_filter : xs.dropWhile p = xs.filter fun a => !p a := by
  induction xs with
  | nil => rfl
  | cons x xs ih =>
    obtain ⟨hx, hxs⟩ := List.pairwise_cons.mp h
    cases hp : p x with
    | true =>
      rw [List.dropWhile_cons_of_pos hp, ih hxs, List.filter_cons_of_neg]
      simp [hp]
    | false =>
      have hnot : ¬ p x = true := by simp [hp]
      rw [List.dropWhile_cons_of_neg hnot, eq_comm, List.filter_eq_self]
      intro y hy
      rcases List.mem_cons.mp hy with rfl | hy
      · simp [hp]
      · simpa using fun hpy => hnot (hx y hy hpy)

end While

theorem Keyed.sortMerge {before : α → α → Bool} (hxs : Keyed key xs) (hys : Keyed key ys)
    (hbefore : ∀ x ∈ xs, ∀ y ∈ ys, key x ≠ key y ∧ (before y x = true ↔ key y < key x)) :
    Keyed key (sortMerge before xs ys) := by
  induction xs generalizing ys with
  | nil => exact hys
  | cons x xs ih =>
    obtain ⟨hx, hxs⟩ := List.pairwise_cons.mp hxs
    obtain ⟨hhere, hlater⟩ := List.forall_mem_cons.mp hbefore
    have hdropped : ∀ y ∈ ys.dropWhile (before · x), y ∈ ys := fun y hy =>
      (List.dropWhile_sublist _).subset hy
    have hrest : Keyed key (ys.dropWhile (before · x)) := hys.sublist (List.dropWhile_sublist _)
    have htail := ih hxs hrest fun z hz y hy => hlater z hz y (hdropped y hy)
    have hfirst : ys.Pairwise fun a b => before b x = true → before a x = true := by
      refine hys.imp_of_mem fun {a b} ha hb hab hbx => ?_
      exact (hhere a ha).2.mpr (hab.trans ((hhere b hb).2.mp hbx))
    have hbelow : ∀ z ∈ ys.takeWhile (before · x), key z < key x := by
      intro z hz
      have hbefore : before z x = true := List.mem_takeWhile_imp (p := (before · x)) hz
      exact (hhere z (List.takeWhile_subset _ hz)).2.mp hbefore
    have habove : ∀ z ∈ LineTools.sortMerge before xs (ys.dropWhile (before · x)),
        key x < key z := by
      intro z hz
      rcases (mem_sortMerge before).mp hz with hz | hz
      · exact hx z hz
      · obtain ⟨hne, hiff⟩ := hhere z (hdropped z hz)
        rw [dropWhile_eq_filter hfirst, List.mem_filter] at hz
        refine lt_of_le_of_ne (not_lt.mp fun hlt => ?_) hne
        simp [hiff.mpr hlt] at hz
    rw [Keyed, LineTools.sortMerge, List.pairwise_append, List.pairwise_cons]
    refine ⟨hys.sublist (List.takeWhile_sublist _), ⟨habove, htail⟩, ?_⟩
    intro a ha b hb
    rcases List.mem_cons.mp hb with rfl | hb
    · exact hbelow a ha
    · exact (hbelow a ha).trans (habove b hb)

theorem joinWalk_cons (hxs : Keyed key (x :: xs)) (hys : Keyed key ys) :
    joinWalk key (x :: xs) ys =
      (((ys.filter fun y => key y = key x).map (x, ·)) ++
        (joinWalk key xs (ys.filter fun y => key x < key y)).1,
       (ys.filter fun y => key y < key x) ++
        (joinWalk key xs (ys.filter fun y => key x < key y)).2) := by
  have hhead : (xs.head?.any fun z => key z = key x) = false := by
    cases xs with
    | nil => rfl
    | cons z zs => simpa using ((List.pairwise_cons.mp hxs).1 z List.mem_cons_self).ne'
  have hbefore : ys.Pairwise fun a b => decide (key b < key x) = true →
      decide (key a < key x) = true := by
    refine hys.imp fun hab hb => ?_
    simp only [decide_eq_true_eq] at hb ⊢
    exact hab.trans hb
  have hafter : ys.dropWhile (fun y => decide (key y < key x)) =
      ys.filter fun y => !decide (key y < key x) := dropWhile_eq_filter hbefore
  have hsame : (ys.filter fun y => !decide (key y < key x)).Pairwise fun a b =>
      decide (key b = key x) = true → decide (key a = key x) = true := by
    refine (hys.filter _).imp_of_mem fun {a b} ha _ hab hb => ?_
    simp only [decide_eq_true_eq] at hb ⊢
    have hle := (List.mem_filter.mp ha).2
    simp only [Bool.not_eq_true', decide_eq_false_iff_not, not_lt] at hle
    exact absurd (hab.trans_eq hb) (not_lt.mpr hle)
  have hmiddle : (ys.filter fun y => !decide (key y < key x)).filter (fun y => key y = key x) =
      ys.filter fun y => key y = key x := by
    rw [List.filter_filter]
    refine List.filter_congr fun y _ => ?_
    by_cases heq : key y = key x
    · simp [heq]
    · simp [heq]
  have hrest : (ys.filter fun y => !decide (key y < key x)).filter
      (fun y => !decide (key y = key x)) = ys.filter fun y => key x < key y := by
    rw [List.filter_filter]
    refine List.filter_congr fun y _ => ?_
    rw [Bool.eq_iff_iff]
    simp only [Bool.and_eq_true, Bool.not_eq_true', decide_eq_false_iff_not, decide_eq_true_eq]
    constructor
    · rintro ⟨hne, hle⟩
      exact lt_of_le_of_ne (not_lt.mp hle) (Ne.symm hne)
    · exact fun hlt => ⟨hlt.ne', hlt.not_gt⟩
  simp only [joinWalk, hhead, Bool.false_eq_true, if_false]
  rw [takeWhile_eq_filter hbefore, hafter, takeWhile_eq_filter hsame, dropWhile_eq_filter hsame,
    hmiddle, hrest]

/-- The pairs are those of one key. -/
theorem mem_joinWalk_pairs (hxs : Keyed key xs) (hys : Keyed key ys) :
    (x, y) ∈ (joinWalk key xs ys).1 ↔ x ∈ xs ∧ y ∈ ys ∧ key x = key y := by
  induction xs generalizing ys with
  | nil => simp [joinWalk]
  | cons z zs ih =>
    obtain ⟨hz, hzs⟩ := List.pairwise_cons.mp hxs
    rw [joinWalk_cons hxs hys, List.mem_append, ih hzs (hys.filter _)]
    simp only [List.mem_map, List.mem_filter, decide_eq_true_eq, Prod.mk.injEq, List.mem_cons]
    constructor
    · rintro (⟨w, ⟨hw, hkey⟩, rfl, rfl⟩ | ⟨hx, ⟨hy, -⟩, hkey⟩)
      · exact ⟨Or.inl rfl, hw, hkey.symm⟩
      · exact ⟨Or.inr hx, hy, hkey⟩
    · rintro ⟨rfl | hx, hy, hkey⟩
      · exact Or.inl ⟨y, ⟨hy, hkey.symm⟩, rfl, rfl⟩
      · exact Or.inr ⟨hx, ⟨hy, hkey ▸ hz x hx⟩, hkey⟩

/-- The lines without a partner are those whose key the first file does not have. -/
theorem mem_joinWalk_single (hxs : Keyed key xs) (hys : Keyed key ys) :
    y ∈ (joinWalk key xs ys).2 ↔ y ∈ ys ∧ ∀ x ∈ xs, key x ≠ key y := by
  induction xs generalizing ys with
  | nil => simp [joinWalk]
  | cons z zs ih =>
    obtain ⟨hz, hzs⟩ := List.pairwise_cons.mp hxs
    rw [joinWalk_cons hxs hys, List.mem_append, ih hzs (hys.filter _)]
    simp only [List.mem_filter, decide_eq_true_eq, List.forall_mem_cons]
    constructor
    · rintro (⟨hy, hlt⟩ | ⟨⟨hy, hlt⟩, hnone⟩)
      · exact ⟨hy, hlt.ne', fun x hx => (hlt.trans (hz x hx)).ne'⟩
      · exact ⟨hy, hlt.ne, hnone⟩
    · rintro ⟨hy, hne, hnone⟩
      rcases lt_or_gt_of_ne hne with hlt | hlt
      · exact Or.inr ⟨⟨hy, hlt⟩, hnone⟩
      · exact Or.inl ⟨hy, hlt⟩

end LineTools

import DeltaPorts.Wayland.Timespec

/-!
# The timer heap and the timers a dispatch takes off it

The patch to `event-loop.c` keeps wayland's heap functions as they are and does not show
them. `Upstream` lists them with what the patched code relies on: `data[0]` holds the
earliest deadline, and `wl_timer_heap_disarm` removes its timer.
-/

set_option autoImplicit false

namespace DeltaPorts.Wayland

/-- The functions of `event-loop.c` that the patch does not show. `root` is `data[0]`
with its deadline, `deadline` is `none` for a timer that is not in the heap, and `arm`
stands for `wl_timer_heap_arm` and for the sifting of a timer armed before. -/
structure Upstream (Timer : Type) [DecidableEq Timer] where
  Heap : Type
  empty : Heap
  active : Heap → Nat
  root : Heap → Option (Timer × Timespec)
  deadline : Heap → Timer → Option Timespec
  arm : Heap → Timer → Timespec → Heap
  disarm : Heap → Timer → Heap
  timeLt : Timespec → Timespec → Bool
  timeLt_iff : ∀ a b, timeLt a b = true ↔ a.ns < b.ns
  deadline_empty : ∀ t, deadline empty t = none
  deadline_arm : ∀ h t d u, deadline (arm h t d) u = if u = t then some d else deadline h u
  deadline_disarm : ∀ h t u, deadline (disarm h t) u = if u = t then none else deadline h u
  root_none : ∀ h, root h = none ↔ ∀ t, deadline h t = none
  root_armed : ∀ h r d, root h = some (r, d) → deadline h r = some d
  root_first : ∀ h r d t e, root h = some (r, d) → deadline h t = some e → d.ns ≤ e.ns
  active_root : ∀ h, active h = 0 ↔ root h = none
  active_disarm : ∀ h t d, deadline h t = some d → active (disarm h t) + 1 = active h

variable {Timer : Type} [DecidableEq Timer] (U : Upstream Timer)

namespace Upstream

theorem timeLt_eq_false {a b : Timespec} : U.timeLt a b = false ↔ b.ns ≤ a.ns := by
  rw [← Bool.not_eq_true, U.timeLt_iff, not_lt]

theorem root_empty : U.root U.empty = none := (U.root_none _).mpr U.deadline_empty

/-- The root after a disarm was armed before, so it is no earlier than the old root. -/
theorem root_disarm_le {h : U.Heap} {t r r' : Timer} {d d' : Timespec}
    (hr : U.root h = some (r, d)) (hr' : U.root (U.disarm h t) = some (r', d')) :
    d.ns ≤ d'.ns := by
  have ha := U.root_armed _ _ _ hr'
  rw [U.deadline_disarm] at ha
  split at ha
  · cases ha
  · exact U.root_first _ _ _ _ _ hr ha

/-- A root other than the timer just armed was armed before, so it is no earlier than the
old root. -/
theorem root_arm_le {h : U.Heap} {t r r' : Timer} {d d' e : Timespec}
    (hr : U.root h = some (r, d)) (hr' : U.root (U.arm h t e) = some (r', d')) (hne : r' ≠ t) :
    d.ns ≤ d'.ns := by
  have ha := U.root_armed _ _ _ hr'
  rw [U.deadline_arm, if_neg hne] at ha
  exact U.root_first _ _ _ _ _ hr ha

/-- The new root has a predecessor: a heap that is empty before holds nothing but `t` after. -/
theorem root_of_root_arm {h : U.Heap} {t r' : Timer} {d' e : Timespec}
    (hr' : U.root (U.arm h t e) = some (r', d')) (hne : r' ≠ t) : ∃ r d, U.root h = some (r, d) := by
  have ha := U.root_armed _ _ _ hr'
  rw [U.deadline_arm, if_neg hne] at ha
  cases hh : U.root h with
  | none => rw [(U.root_none h).mp hh r'] at ha; cases ha
  | some p => exact ⟨p.1, p.2, rfl⟩

theorem root_arm_self {h : U.Heap} {t : Timer} {d e : Timespec}
    (hr : U.root (U.arm h t e) = some (t, d)) : d = e := by
  have ha := U.root_armed _ _ _ hr
  rw [U.deadline_arm, if_pos rfl] at ha
  exact (Option.some.inj ha).symm

theorem root_arm_ne_none (h : U.Heap) (t : Timer) (e : Timespec) : U.root (U.arm h t e) ≠ none := by
  intro hn
  have ha := (U.root_none _).mp hn t
  rw [U.deadline_arm, if_pos rfl] at ha
  cases ha

theorem root_of_root_disarm {h : U.Heap} {t r' : Timer} {d' : Timespec}
    (hr' : U.root (U.disarm h t) = some (r', d')) : ∃ r d, U.root h = some (r, d) := by
  have ha := U.root_armed _ _ _ hr'
  rw [U.deadline_disarm] at ha
  cases hh : U.root h with
  | none => rw [(U.root_none h).mp hh r'] at ha; simp at ha
  | some p => exact ⟨p.1, p.2, rfl⟩

end Upstream

/-- The loop of `wl_timer_heap_dispatch` that takes the due timers off the heap. The number
is `timers->active`, which every turn lowers by one; `rootDue` is the flag that lets the
first root pass unchecked. -/
def collectDue (now : Timespec) : Nat → Bool → U.Heap → U.Heap × List (Timer × Timespec)
  | 0, _, h => (h, [])
  | n + 1, rootDue, h =>
    match U.root h with
    | none => (h, [])
    | some (root, deadline) =>
      if !rootDue && U.timeLt now deadline then (h, [])
      else
        let rest := collectDue now n false (U.disarm h root)
        (rest.1, (root, deadline) :: rest.2)

/-- What stays in the heap is what was not taken off. -/
theorem collectDue_deadline (now : Timespec) (n : Nat) (rootDue : Bool) (h : U.Heap) (t : Timer) :
    U.deadline (collectDue U now n rootDue h).1 t =
      if t ∈ (collectDue U now n rootDue h).2.map Prod.fst then none else U.deadline h t := by
  induction n generalizing rootDue h with
  | zero => simp [collectDue]
  | succ n ih =>
    unfold collectDue
    split
    · simp
    · rename_i root deadline hroot
      split
      · simp
      · simp only [ih, U.deadline_disarm, List.map_cons, List.mem_cons]
        by_cases h1 : t = root
        · simp [h1]
        · by_cases h2 : t ∈ (collectDue U now n false (U.disarm h root)).2.map Prod.fst
          · rw [if_pos h2, if_pos (Or.inr h2)]
          · rw [if_neg h2, if_neg h1, if_neg (not_or.mpr ⟨h1, h2⟩)]

theorem collectDue_armed (now : Timespec) (n : Nat) (rootDue : Bool) (h : U.Heap)
    {t : Timer} {d : Timespec} (ht : (t, d) ∈ (collectDue U now n rootDue h).2) :
    U.deadline h t = some d := by
  induction n generalizing rootDue h with
  | zero => simp [collectDue] at ht
  | succ n ih =>
    unfold collectDue at ht
    split at ht
    · simp at ht
    · rename_i root deadline hroot
      split at ht
      · simp at ht
      · rcases List.mem_cons.mp ht with heq | ht
        · cases heq
          exact U.root_armed _ _ _ hroot
        · have hd := ih false (U.disarm h root) ht
          rw [U.deadline_disarm] at hd
          split at hd
          · cases hd
          · exact hd

/-- Every timer taken off is due by the clock, except the root that was let through. -/
theorem collectDue_due (now : Timespec) (n : Nat) (rootDue : Bool) (h : U.Heap)
    {t : Timer} {d : Timespec} (ht : (t, d) ∈ (collectDue U now n rootDue h).2) :
    d.ns ≤ now.ns ∨ (rootDue = true ∧ U.root h = some (t, d)) := by
  induction n generalizing rootDue h with
  | zero => simp [collectDue] at ht
  | succ n ih =>
    unfold collectDue at ht
    split at ht
    · simp at ht
    · rename_i root deadline hroot
      split at ht
      · simp at ht
      · rename_i hdue
        rcases List.mem_cons.mp ht with heq | ht
        · cases heq
          cases rootDue with
          | true => exact Or.inr ⟨rfl, hroot⟩
          | false => exact Or.inl (U.timeLt_eq_false.mp (by simpa using hdue))
        · rcases ih false (U.disarm h root) ht with hle | ⟨hf, _⟩
          · exact Or.inl hle
          · cases hf

/-- The loop ends because the heap is empty or because its root lies in the future. -/
theorem collectDue_rest (now : Timespec) (n : Nat) (rootDue : Bool) (h : U.Heap)
    (hn : U.active h = n) (hflag : rootDue = false ∨ n ≠ 0)
    {r : Timer} {d : Timespec} (hr : U.root (collectDue U now n rootDue h).1 = some (r, d)) :
    now.ns < d.ns := by
  induction n generalizing rootDue h with
  | zero =>
    have hnone := (U.active_root h).mp hn
    simp [collectDue, hnone] at hr
  | succ n ih =>
    unfold collectDue at hr
    split at hr
    · rename_i hroot
      rw [(U.active_root h).mpr hroot] at hn
      cases hn
    · rename_i root deadline hroot
      split at hr
      · rename_i hlt
        rw [hroot] at hr
        cases hr
        exact (U.timeLt_iff _ _).mp (by simp at hlt; exact hlt.2)
      · have hact := U.active_disarm h root deadline (U.root_armed _ _ _ hroot)
        exact ih false (U.disarm h root) (by omega) (Or.inl rfl) hr

/-- A dispatch of a heap that is not empty takes off its root at least. -/
theorem collectDue_root (now : Timespec) (h : U.Heap) {r : Timer} {d : Timespec}
    (hr : U.root h = some (r, d)) : (r, d) ∈ (collectDue U now (U.active h) true h).2 := by
  cases hn : U.active h with
  | zero => rw [(U.active_root h).mp hn] at hr; cases hr
  | succ n => simp [collectDue, hr]

end DeltaPorts.Wayland

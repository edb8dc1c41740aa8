import DeltaPorts.Wayland.TimerHeap
import Mathlib.Data.List.AList
import Mathlib.Data.List.MinMax

/-!
# A heap of timers

An association list, with the earliest entry as its root.
-/

set_option autoImplicit false

namespace DeltaPorts.Wayland.AListHeap

abbrev Entries := AList fun _ : Nat => Timespec

def earliest (h : Entries) : Option (Sigma fun _ : Nat => Timespec) :=
  @List.argmin _ _ Int.instLinearOrder.toPreorder _ (fun e => e.2.ns) h.entries

def first (h : Entries) : Option (Nat × Timespec) := (earliest h).map fun e => (e.1, e.2)

theorem first_eq_some {h : Entries} {r : Nat} {d : Timespec} :
    first h = some (r, d) ↔ ⟨r, d⟩ ∈ earliest h := by
  simp only [first, Option.map_eq_some_iff, Option.mem_def]
  constructor
  · rintro ⟨⟨r', d'⟩, hmin, heq⟩
    cases heq
    exact hmin
  · exact fun hmin => ⟨⟨r, d⟩, hmin, rfl⟩

theorem first_eq_none {h : Entries} : first h = none ↔ h.entries = [] := by
  simp [first, earliest, List.argmin_eq_none]

theorem lookup_none_of_entries_nil {h : Entries} (hn : h.entries = []) (t : Nat) :
    h.lookup t = none := by
  rw [AList.lookup_eq_none]
  simp [AList.mem_keys, AList.keys, hn]

theorem length_erase_add_one {h : Entries} {t : Nat} (ht : t ∈ h) :
    (h.erase t).entries.length + 1 = h.entries.length := by
  have hlen := List.length_erase_of_mem (AList.mem_keys.mp ht)
  have hpos : 0 < h.keys.length := List.length_pos_of_mem (AList.mem_keys.mp ht)
  rw [← AList.keys_erase] at hlen
  simp only [AList.keys, List.keys, List.length_map] at hlen hpos
  omega

/-- The timer heap of the runs on fixed inputs. -/
def heap : Upstream Nat where
  Heap := Entries
  empty := ∅
  active h := h.entries.length
  root := first
  deadline h t := h.lookup t
  arm h t d := h.insert t d
  disarm h t := h.erase t
  timeLt a b := a.ns < b.ns
  timeLt_iff a b := decide_eq_true_iff
  deadline_empty t := AList.lookup_empty t
  deadline_arm h t d u := by
    by_cases hut : u = t
    · subst hut
      rw [if_pos rfl, AList.lookup_insert]
    · rw [if_neg hut, AList.lookup_insert_ne hut]
  deadline_disarm h t u := by
    by_cases hut : u = t
    · subst hut
      rw [if_pos rfl, AList.lookup_erase]
    · rw [if_neg hut, AList.lookup_erase_ne hut]
  root_none h := by
    rw [first_eq_none]
    constructor
    · exact fun hn t => lookup_none_of_entries_nil hn t
    · intro hall
      rcases hl : h.entries with _ | ⟨e, rest⟩
      · rfl
      · have hmem : e ∈ h.entries := by
          rw [hl]
          exact List.mem_cons_self
        have hsome := AList.mem_lookup_iff.mpr hmem
        rw [hall e.1] at hsome
        cases hsome
  root_armed h r d hr := by
    have hmem := List.argmin_mem (first_eq_some.mp hr)
    exact AList.mem_lookup_iff.mpr hmem
  root_first h r d t e hr ht := by
    have hmem : (⟨t, e⟩ : Sigma fun _ : Nat => Timespec) ∈ h.entries := AList.mem_lookup_iff.mp ht
    exact List.le_of_mem_argmin (f := fun e : Sigma fun _ : Nat => Timespec => e.2.ns) hmem
      (first_eq_some.mp hr)
  active_root h := by rw [first_eq_none, List.length_eq_zero_iff]
  active_disarm h t d ht := by
    apply length_erase_add_one
    apply AList.lookup_isSome.mp
    rw [ht]
    rfl

end DeltaPorts.Wayland.AListHeap

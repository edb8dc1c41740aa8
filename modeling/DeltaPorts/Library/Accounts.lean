import Mathlib.Data.List.Nodup
import Mathlib.Data.List.Perm.Basic

/-!
# Users and groups

Two files of named entries. An entry of the first refers to one of the second by a number.
-/

set_option autoImplicit false

namespace Accounts

variable {Name Id α : Type}

/-- A user with the number of its primary group, or a group with its own. -/
structure Entry (Name Id : Type) where
  name : Name
  gid : Option Id
  deriving DecidableEq

def Entry.Fresh (new old : List (Entry Name Id)) : Prop :=
  (new.map Entry.name).Nodup ∧ ∀ entry ∈ new, entry.name ∉ old.map Entry.name

def Defines (groups : List (Entry Name Id)) (gid : Option Id) : Prop :=
  gid ≠ none ∧ ∃ group ∈ groups, group.gid = gid

structure Consistent (users groups : List (Entry Name Id)) : Prop where
  users_nodup : (users.map Entry.name).Nodup
  groups_nodup : (groups.map Entry.name).Nodup
  defined : ∀ user ∈ users, Defines groups user.gid

variable {users users' groups groups' : List (Entry Name Id)}

theorem Defines.mono (hgroups : groups ⊆ groups') {gid : Option Id} (h : Defines groups gid) :
    Defines groups' gid := by
  obtain ⟨hgid, group, hgroup, heq⟩ := h
  exact ⟨hgid, group, hgroups hgroup, heq⟩

theorem defines_append_iff {gid : Option Id} :
    Defines (groups ++ groups') gid ↔ Defines groups gid ∨ Defines groups' gid := by
  unfold Defines
  rw [← and_or_left]
  simp only [List.mem_append, or_and_right, exists_or]

theorem Consistent.perm (husers : users.Perm users') (hgroups : groups.Perm groups')
    (h : Consistent users groups) : Consistent users' groups' where
  users_nodup := (husers.map Entry.name).nodup_iff.mp h.users_nodup
  groups_nodup := (hgroups.map Entry.name).nodup_iff.mp h.groups_nodup
  defined user huser := (h.defined user (husers.mem_iff.mpr huser)).mono hgroups.subset

theorem consistent_perm (husers : users.Perm users') (hgroups : groups.Perm groups') :
    Consistent users groups ↔ Consistent users' groups' :=
  ⟨Consistent.perm husers hgroups, Consistent.perm husers.symm hgroups.symm⟩

theorem nodup_append_iff (new : List (Entry Name Id)) (h : (users.map Entry.name).Nodup) :
    ((new ++ users).map Entry.name).Nodup ↔ Entry.Fresh new users := by
  rw [List.map_append, List.nodup_append']
  constructor
  · intro ⟨hnew, _, hdisjoint⟩
    exact ⟨hnew, fun entry hentry => hdisjoint (List.mem_map_of_mem hentry)⟩
  · intro ⟨hnew, hfresh⟩
    refine ⟨hnew, h, fun name hname => ?_⟩
    obtain ⟨entry, hentry, rfl⟩ := List.mem_map.mp hname
    exact hfresh entry hentry

/-- What new entries need beside consistent files. -/
theorem consistent_append_iff (newUsers newGroups : List (Entry Name Id))
    (h : Consistent users groups) :
    Consistent (newUsers ++ users) (newGroups ++ groups) ↔
      Entry.Fresh newUsers users ∧ Entry.Fresh newGroups groups ∧
        ∀ user ∈ newUsers, Defines (newGroups ++ groups) user.gid := by
  constructor
  · intro hall
    refine ⟨(nodup_append_iff newUsers h.users_nodup).mp hall.users_nodup,
      (nodup_append_iff newGroups h.groups_nodup).mp hall.groups_nodup, ?_⟩
    exact fun user huser => hall.defined user (List.mem_append_left users huser)
  · intro ⟨husers, hgroups, hdefined⟩
    refine ⟨(nodup_append_iff newUsers h.users_nodup).mpr husers,
      (nodup_append_iff newGroups h.groups_nodup).mpr hgroups, fun user huser => ?_⟩
    cases List.mem_append.mp huser with
    | inl hnew => exact hdefined user hnew
    | inr hold =>
      apply (h.defined user hold).mono
      exact List.subset_append_right newGroups groups

variable (here : α → Bool) (new : List α)

/-- The new lines stand before every line that is marked. -/
def insertBefore (ls : List α) : List α := ls.flatMap fun l => if here l then new ++ [l] else [l]

theorem insertBefore_of_none {ls : List α} (h : ls.countP here = 0) :
    insertBefore here new ls = ls := by
  induction ls with
  | nil => rfl
  | cons l ls ih =>
    have hnone := List.countP_eq_zero.mp h
    have htail := ih (List.countP_eq_zero.mpr fun m hm => hnone m (List.mem_cons_of_mem l hm))
    unfold insertBefore at htail ⊢
    rw [List.flatMap_cons, if_neg (hnone l List.mem_cons_self), htail, List.singleton_append]

/-- With one marked line the new lines are in the file once. -/
theorem insertBefore_perm {ls : List α} (h : ls.countP here = 1) :
    (insertBefore here new ls).Perm (new ++ ls) := by
  induction ls with
  | nil => exact absurd h (Nat.zero_ne_one)
  | cons l ls ih =>
    by_cases hl : here l = true
    · rw [List.countP_cons_of_pos hl] at h
      have htail := insertBefore_of_none here new (Nat.succ.inj h)
      unfold insertBefore at htail ⊢
      rw [List.flatMap_cons, if_pos hl, htail, List.append_assoc, List.singleton_append]
    · rw [List.countP_cons_of_neg hl] at h
      have htail := ih h
      unfold insertBefore at htail ⊢
      rw [List.flatMap_cons, if_neg hl, List.singleton_append]
      exact (htail.cons l).trans List.perm_middle.symm

theorem mem_insertBefore {ls : List α} {l : α} (h : l ∈ insertBefore here new ls) :
    l ∈ new ∨ l ∈ ls := by
  obtain ⟨m, hm, hl⟩ := List.mem_flatMap.mp h
  split at hl
  · cases List.mem_append.mp hl with
    | inl hnew => exact .inl hnew
    | inr heq => exact .inr (List.mem_singleton.mp heq ▸ hm)
  · exact .inr (List.mem_singleton.mp hl ▸ hm)

end Accounts

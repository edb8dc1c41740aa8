import DeltaPorts.Library.FileTree

/-!
# A path of a git repository

The working tree, the index and the last commit, restricted to one path, and the commands that
bring one to the other.
-/

set_option autoImplicit false

universe u v

namespace Git

variable {Name : Type u} {Content : Type v} [DecidableEq Name] [DecidableEq Content]

structure Repo (Name : Type u) (Content : Type v) [DecidableEq Name] where
  tree : FileTree Name Content
  index : FileTree Name Content
  head : FileTree Name Content

namespace Repo

/-- `git add --all`. -/
def addAll (r : Repo Name Content) : Repo Name Content := { r with index := r.tree }

/-- The files that git knows of. -/
def tracked (r : Repo Name Content) : Finset (Name × List Name) := r.index.paths ∪ r.head.paths

/-- What `git status --untracked-files=no` lists. -/
def tasks (r : Repo Name Content) : Finset (Name × List Name) :=
  r.tracked.filter fun p => r.index.file p ≠ r.head.file p ∨ r.tree.file p ≠ r.index.file p

/-- The tracked files as they are in the working tree. -/
def snapshot (r : Repo Name Content) : FileTree Name Content :=
  r.tree.restrict fun p => p ∈ r.tracked

/-- `git commit path`: the tracked files are committed as they are in the working tree. -/
def commitPath (r : Repo Name Content) : Repo Name Content :=
  { r with index := r.snapshot, head := r.snapshot }

/-- `git commit` without a path. -/
def commitIndex (r : Repo Name Content) : Repo Name Content := { r with head := r.index }

omit [DecidableEq Content] in
theorem snapshot_addAll (r : Repo Name Content) : r.addAll.snapshot = r.tree := by
  apply FileTree.ext
  intro p
  unfold snapshot addAll tracked
  rw [FileTree.file_restrict]
  by_cases hp : p ∈ r.tree.paths
  · simp [hp]
  · rw [FileTree.not_mem_paths.mp hp, ite_self]

/-- Without tasks, the commit is what is in the index, and in the tree as far as it is tracked. -/
theorem eq_head_of_tasks_eq_empty {r : Repo Name Content} (h : r.tasks = ∅) :
    r.index = r.head ∧ r.snapshot = r.head := by
  have hclean : ∀ p ∈ r.tracked, r.index.file p = r.head.file p ∧ r.tree.file p = r.index.file p := by
    intro p hp
    by_contra hne
    have htask : p ∈ r.tasks := Finset.mem_filter.mpr ⟨hp, not_and_or.mp hne⟩
    rw [h] at htask
    exact Finset.notMem_empty p htask
  have hnone : ∀ p, p ∉ r.tracked → r.index.file p = none ∧ r.head.file p = none := by
    intro p hp
    rw [tracked, Finset.mem_union, not_or] at hp
    exact ⟨FileTree.not_mem_paths.mp hp.1, FileTree.not_mem_paths.mp hp.2⟩
  constructor
  · apply FileTree.ext
    intro p
    by_cases hp : p ∈ r.tracked
    · exact (hclean p hp).1
    · rw [(hnone p hp).1, (hnone p hp).2]
  · apply FileTree.ext
    intro p
    unfold snapshot
    rw [FileTree.file_restrict]
    by_cases hp : p ∈ r.tracked
    · simp [hp, hclean p hp]
    · simp [hp, hnone p hp]

end Repo

end Git

import Mathlib.Data.Finset.Image
import Mathlib.Data.Finset.Sum
import Mathlib.Data.List.Infix

/-!
# File trees

A tree maps the paths of its files to their contents and has finitely many files. A path is
a name at the top of the tree and the names below it. Directories exist as far as they hold
files, and no path is a file and a directory at once: a command that would make it both
fails and leaves the tree as it is.
-/

set_option autoImplicit false

universe u v

namespace FileTree

variable {Name : Type u}

/-- The path `q` lies in the directory `p`. -/
def Below (q p : Name × List Name) : Prop := q.1 = p.1 ∧ p.2 <+: q.2 ∧ q ≠ p

instance [DecidableEq Name] (q p : Name × List Name) : Decidable (Below q p) :=
  inferInstanceAs (Decidable (_ ∧ _ ∧ _))

theorem Below.top {p q : Name × List Name} (h : Below q p) : q.1 = p.1 := h.1

theorem not_below_top (p : Name × List Name) (n : Name) : ¬ Below (n, []) p := by
  rintro ⟨htop, hpre, hne⟩
  apply hne
  obtain ⟨m, rest⟩ := p
  rw [List.prefix_nil] at hpre
  simp only at htop hpre
  rw [htop, hpre]

end FileTree

open FileTree in
/-- A finite map from paths to contents. -/
structure FileTree (Name : Type u) (Content : Type v) [DecidableEq Name] where
  file : Name × List Name → Option Content
  paths : Finset (Name × List Name)
  mem_paths : ∀ p, p ∈ paths ↔ (file p).isSome
  not_below : ∀ p ∈ paths, ∀ q ∈ paths, ¬ Below q p

namespace FileTree

variable {Name : Type u} {Content : Type v} [DecidableEq Name]

@[ext] theorem ext {s t : FileTree Name Content} (h : ∀ p, s.file p = t.file p) : s = t := by
  obtain ⟨f, ps, hf, _⟩ := s
  obtain ⟨g, qs, hg, _⟩ := t
  have hfg : f = g := funext h
  subst hfg
  have hps : ps = qs := by
    apply Finset.ext
    intro p
    rw [hf, hg]
  subst hps
  rfl

/-- The paths at which two trees differ. -/
def changes [DecidableEq Content] (s t : FileTree Name Content) : Finset (Name × List Name) :=
  (s.paths ∪ t.paths).filter fun p => s.file p ≠ t.file p

theorem changes_eq_empty [DecidableEq Content] {s t : FileTree Name Content} :
    s.changes t = ∅ ↔ s = t := by
  constructor
  · intro h
    apply ext
    intro p
    by_contra hne
    have hno : p ∉ s.changes t := by
      rw [h]
      exact Finset.notMem_empty p
    rw [changes, Finset.mem_filter, not_and, Finset.mem_union, s.mem_paths, t.mem_paths] at hno
    cases hs : s.file p with
    | none =>
      cases ht : t.file p with
      | none => exact hne (hs.trans ht.symm)
      | some c => exact hno (Or.inr (by rw [ht]; rfl)) hne
    | some c => exact hno (Or.inl (by rw [hs]; rfl)) hne
  · rintro rfl
    simp [changes]

instance [DecidableEq Content] : DecidableEq (FileTree Name Content) := fun _ _ =>
  decidable_of_iff _ changes_eq_empty

theorem mem_paths_iff {t : FileTree Name Content} {p : Name × List Name} :
    p ∈ t.paths ↔ ∃ c, t.file p = some c := by
  rw [t.mem_paths, Option.isSome_iff_exists]

theorem not_mem_paths {t : FileTree Name Content} {p : Name × List Name} :
    p ∉ t.paths ↔ t.file p = none := by
  rw [t.mem_paths, Option.not_isSome_iff_eq_none]

def IsDir (t : FileTree Name Content) (p : Name × List Name) : Prop := ∃ q ∈ t.paths, Below q p

/-- A directory of the tree, or a path through one of its files: no file can be made there. -/
def Blocked (t : FileTree Name Content) (p : Name × List Name) : Prop :=
  ∃ q ∈ t.paths, Below q p ∨ Below p q

instance (t : FileTree Name Content) (p : Name × List Name) : Decidable (t.IsDir p) :=
  inferInstanceAs (Decidable (∃ q ∈ t.paths, _))

instance (t : FileTree Name Content) (p : Name × List Name) : Decidable (t.Blocked p) :=
  inferInstanceAs (Decidable (∃ q ∈ t.paths, _))

theorem not_blocked_of_mem {t : FileTree Name Content} {p : Name × List Name}
    (hp : p ∈ t.paths) : ¬ t.Blocked p := by
  rintro ⟨q, hq, hbelow | hbelow⟩
  · exact t.not_below p hp q hq hbelow
  · exact t.not_below q hq p hp hbelow

theorem IsDir.blocked {t : FileTree Name Content} {p : Name × List Name} (h : t.IsDir p) :
    t.Blocked p := by
  obtain ⟨q, hq, hbelow⟩ := h
  exact ⟨q, hq, Or.inl hbelow⟩

/-- A name at the top is blocked by a directory only. -/
theorem blocked_top {t : FileTree Name Content} {n : Name} :
    t.Blocked (n, []) ↔ t.IsDir (n, []) := by
  constructor
  · rintro ⟨q, hq, hbelow | hbelow⟩
    · exact ⟨q, hq, hbelow⟩
    · exact absurd hbelow (not_below_top q n)
  · exact IsDir.blocked

/-- Whether a path is a directory depends on the files in it. -/
theorem isDir_congr {s t : FileTree Name Content} {p : Name × List Name}
    (h : ∀ q, Below q p → s.file q = t.file q) : s.IsDir p ↔ t.IsDir p := by
  unfold IsDir
  constructor
  · rintro ⟨q, hq, hbelow⟩
    refine ⟨q, ?_, hbelow⟩
    rwa [t.mem_paths, ← h q hbelow, ← s.mem_paths]
  · rintro ⟨q, hq, hbelow⟩
    refine ⟨q, ?_, hbelow⟩
    rwa [s.mem_paths, h q hbelow, ← t.mem_paths]

def empty : FileTree Name Content where
  file _ := none
  paths := ∅
  mem_paths p := by simp
  not_below p hp := absurd hp (Finset.notMem_empty p)

/-- The files whose paths satisfy `keep`. -/
def restrict (keep : Name × List Name → Bool) (t : FileTree Name Content) :
    FileTree Name Content where
  file p := if keep p then t.file p else none
  paths := t.paths.filter fun p => keep p
  mem_paths p := by
    rw [Finset.mem_filter, t.mem_paths]
    by_cases hp : keep p <;> simp [hp]
  not_below p hp q hq :=
    t.not_below p (Finset.mem_of_mem_filter p hp) q (Finset.mem_of_mem_filter q hq)

/-- `cp -r` of the files of `s` into the tree `t`. -/
def overlay (s t : FileTree Name Content) : FileTree Name Content where
  file p := if t.Blocked p then none else (s.file p).or (t.file p)
  paths := (s.paths.filter fun p => ¬ t.Blocked p) ∪ t.paths
  mem_paths p := by
    rw [Finset.mem_union, Finset.mem_filter, s.mem_paths]
    by_cases hp : t.Blocked p
    · have hno : p ∉ t.paths := fun h => not_blocked_of_mem h hp
      simp [hp, hno]
    · rw [t.mem_paths]
      cases s.file p <;> simp [hp]
  not_below p hp q hq hbelow := by
    rw [Finset.mem_union, Finset.mem_filter] at hp hq
    rcases hp with ⟨hp, hfree⟩ | hp
    · rcases hq with ⟨hq, _⟩ | hq
      · exact s.not_below p hp q hq hbelow
      · exact hfree ⟨q, hq, Or.inl hbelow⟩
    · rcases hq with ⟨hq, hfree⟩ | hq
      · exact hfree ⟨p, hp, Or.inr hbelow⟩
      · exact t.not_below p hp q hq hbelow

def erase (q : Name × List Name) (t : FileTree Name Content) : FileTree Name Content :=
  t.restrict fun p => p ≠ q

/-- The tree of a single file. -/
def single (q : Name × List Name) (c : Content) : FileTree Name Content where
  file p := if p = q then some c else none
  paths := {q}
  mem_paths p := by
    rw [Finset.mem_singleton]
    by_cases hp : p = q <;> simp [hp]
  not_below p hp r hr hbelow := by
    rw [Finset.mem_singleton] at hp hr
    exact hbelow.2.2 (hr.trans hp.symm)

/-- Write the file `q`. -/
def insert (q : Name × List Name) (c : Content) (t : FileTree Name Content) :
    FileTree Name Content := (single q c).overlay t

/-- The tree as the directory `n` of another tree. -/
def under (n : Name) (t : FileTree Name Content) : FileTree Name Content where
  file
    | (_, []) => none
    | (top, m :: rest) => if top = n then t.file (m, rest) else none
  paths := t.paths.image fun p => (n, p.1 :: p.2)
  mem_paths p := by
    obtain ⟨top, rest⟩ := p
    rw [Finset.mem_image]
    cases rest with
    | nil => simp
    | cons m rest =>
      by_cases htop : top = n
      · subst htop
        simp [t.mem_paths]
      · simp [htop, Ne.symm htop]
  not_below p hp q hq hbelow := by
    rw [Finset.mem_image] at hp hq
    obtain ⟨p, hp, rfl⟩ := hp
    obtain ⟨q, hq, rfl⟩ := hq
    obtain ⟨_, hpre, hne⟩ := hbelow
    rw [List.cons_prefix_cons] at hpre
    apply t.not_below p hp q hq
    refine ⟨hpre.1.symm, hpre.2, ?_⟩
    rintro rfl
    exact hne rfl

@[simp] theorem file_empty (p : Name × List Name) : (empty : FileTree Name Content).file p = none :=
  rfl

@[simp] theorem file_restrict (keep : Name × List Name → Bool) (t : FileTree Name Content)
    (p : Name × List Name) : (t.restrict keep).file p = if keep p then t.file p else none := rfl

theorem file_overlay (s t : FileTree Name Content) (p : Name × List Name) :
    (overlay s t).file p = if t.Blocked p then none else (s.file p).or (t.file p) := rfl

theorem file_overlay_of_free {s t : FileTree Name Content} {p : Name × List Name}
    (h : ¬ t.Blocked p) : (overlay s t).file p = (s.file p).or (t.file p) := if_neg h

@[simp] theorem file_erase (q : Name × List Name) (t : FileTree Name Content)
    (p : Name × List Name) : (t.erase q).file p = if p = q then none else t.file p := by
  unfold erase
  rw [file_restrict]
  by_cases hp : p = q <;> simp [hp]

theorem file_of_blocked {t : FileTree Name Content} {p : Name × List Name} (h : t.Blocked p) :
    t.file p = none := not_mem_paths.mp fun hp => not_blocked_of_mem hp h

theorem file_insert_of_ne {q : Name × List Name} {c : Content} {t : FileTree Name Content}
    {p : Name × List Name} (h : p ≠ q) : (t.insert q c).file p = t.file p := by
  unfold insert single
  rw [file_overlay]
  by_cases hp : t.Blocked p
  · rw [if_pos hp, file_of_blocked hp]
  · simp [hp, h]

theorem file_insert_self {q : Name × List Name} {c : Content} {t : FileTree Name Content}
    (h : ¬ t.Blocked q) : (t.insert q c).file q = some c := by
  unfold insert single
  rw [file_overlay_of_free h]
  simp

theorem insert_of_blocked {q : Name × List Name} {c : Content} {t : FileTree Name Content}
    (h : t.Blocked q) : t.insert q c = t := by
  apply ext
  intro p
  by_cases hp : p = q
  · subst hp
    unfold insert
    rw [file_overlay, if_pos h, file_of_blocked h]
  · exact file_insert_of_ne hp

theorem file_insert (q : Name × List Name) (c : Content) (t : FileTree Name Content)
    (p : Name × List Name) :
    (t.insert q c).file p = if p = q ∧ ¬ t.Blocked q then some c else t.file p := by
  by_cases hp : p = q
  · subst hp
    by_cases hblocked : t.Blocked p
    · simp [insert_of_blocked hblocked, hblocked]
    · simp [file_insert_self hblocked, hblocked]
  · simp [file_insert_of_ne hp, hp]

theorem not_blocked_of_top {t : FileTree Name Content} {p : Name × List Name}
    (h : ∀ q ∈ t.paths, q.1 ≠ p.1) : ¬ t.Blocked p := by
  rintro ⟨q, hq, hbelow | hbelow⟩
  · exact h q hq hbelow.top
  · exact h q hq hbelow.top.symm

section Glob

variable (hidden : Name → Bool)

/-- What `rm -rf dir/*` leaves of a directory. -/
def clear (t : FileTree Name Content) : FileTree Name Content := t.restrict fun p => hidden p.1

/-- What the operand `dir/*` of a copy stands for. -/
def star (t : FileTree Name Content) : FileTree Name Content := t.restrict fun p => !hidden p.1

theorem file_clear (t : FileTree Name Content) (p : Name × List Name) :
    (t.clear hidden).file p = if hidden p.1 then t.file p else none := rfl

theorem file_star (t : FileTree Name Content) (p : Name × List Name) :
    (t.star hidden).file p = if hidden p.1 then none else t.file p := by
  unfold star
  rw [file_restrict]
  cases hidden p.1 <;> rfl

/-- The glob copy into a cleared directory: what the globs do not name stays. -/
theorem file_star_overlay_clear (s t : FileTree Name Content) (p : Name × List Name) :
    ((s.star hidden).overlay (t.clear hidden)).file p =
      if hidden p.1 then t.file p else s.file p := by
  by_cases hp : hidden p.1 = true
  · rw [if_pos hp, file_overlay]
    split
    · rename_i hblocked
      have hnone := file_of_blocked hblocked
      rw [file_clear, if_pos hp] at hnone
      exact hnone.symm
    · rw [file_star, if_pos hp, file_clear, if_pos hp]
      rfl
  · have hfree : ¬ (t.clear hidden).Blocked p := by
      apply not_blocked_of_top
      intro q hq htop
      apply hp
      rw [← htop]
      exact (Finset.mem_filter.mp hq).2
    rw [file_overlay_of_free hfree, file_star, file_clear, if_neg hp, if_neg hp, if_neg hp]
    exact Option.or_none

end Glob

/-- A program, such as `find`, that lists the members of a finite set in an order of its own. -/
structure Listing (α : Type u) where
  list : Finset α → List α
  mem_list : ∀ s a, a ∈ list s ↔ a ∈ s
  nodup_list : ∀ s, (list s).Nodup

/-- The listing that chooses any order. -/
noncomputable def Listing.any (α : Type u) : Listing α where
  list := Finset.toList
  mem_list _ _ := Finset.mem_toList
  nodup_list s := s.nodup_toList

end FileTree

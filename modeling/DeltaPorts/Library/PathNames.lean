import DeltaPorts.Library.Shell

/-!
# Path names

A directory is the list of names that lead to it from the root. A path name is walked component
by component: nothing and `.` stay, `..` goes to the parent directory, and the parent directory
of the root is the root.
-/

set_option autoImplicit false

namespace PathNames

abbrev Text := List Char

abbrev Place := List Text

def enter (place : Place) (name : Text) : Place :=
  if name = [] ∨ name = ".".toList then place
  else if name = "..".toList then place.dropLast
  else place ++ [name]

def walk (place : Place) (names : List Text) : Place := names.foldl enter place

def components (path : Text) : List Text := path.splitOn '/'

/-- Where a path name leads from the working directory. -/
def resolve (cwd : Place) (path : Text) : Place :=
  walk (if path.head? = some '/' then [] else cwd) (components path)

def StrictlyBelow (place x : Place) : Prop := place <+: x ∧ x ≠ place

instance (place x : Place) : Decidable (StrictlyBelow place x) :=
  inferInstanceAs (Decidable (_ ∧ _))

/-- How many directories have to have been entered before a name, for the way to end below the
place where it has begun. -/
def rises (name : Text) : Nat :=
  if name = [] ∨ name = ".".toList then 1 else if name = "..".toList then 2 else 0

theorem enter_nil (place : Place) : enter place [] = place := by simp [enter]

theorem enter_ordinary (place : Place) {name : Text} (hne : name ≠ [])
    (hdot : name ≠ ".".toList) (hdots : name ≠ "..".toList) :
    enter place name = place ++ [name] := by
  rw [enter, if_neg (not_or.mpr ⟨hne, hdot⟩), if_neg hdots]

theorem walk_append (place : Place) (xs ys : List Text) :
    walk place (xs ++ ys) = walk (walk place xs) ys :=
  List.foldl_append

/-- Without `.` and `..` a walk only goes down. -/
theorem walk_ordinary {names : List Text}
    (h : ∀ name ∈ names, name ≠ ".".toList ∧ name ≠ "..".toList) (place : Place) :
    walk place names = place ++ names.filter fun name => !name.isEmpty := by
  induction names generalizing place with
  | nil => exact (List.append_nil place).symm
  | cons name names ih =>
    obtain ⟨hdot, hdots⟩ := h name List.mem_cons_self
    have htail := ih fun m hm => h m (List.mem_cons_of_mem name hm)
    rw [walk, List.foldl_cons, ← walk, htail]
    by_cases hne : name = []
    · rw [hne, enter_nil, List.filter_cons_of_neg (by simp)]
    · rw [enter_ordinary place hne hdot hdots, List.filter_cons_of_pos (by simpa using hne),
        List.append_assoc, List.singleton_append]

theorem strictlyBelow_append_iff (place up : Place) : StrictlyBelow place (place ++ up) ↔ up ≠ [] := by
  refine ⟨fun h hup => h.2 ?_, fun h => ⟨List.prefix_append place up, fun heq => h ?_⟩⟩
  · rw [hup, List.append_nil]
  · exact List.append_right_eq_self.mp heq

theorem not_strictlyBelow_dropLast (place : Place) : ¬ StrictlyBelow place place.dropLast := by
  intro h
  have hlen := h.1.length_le
  rw [List.length_dropLast] at hlen
  have hzero : place.length = 0 := by omega
  rw [List.length_eq_zero_iff] at hzero
  subst hzero
  exact h.2 rfl

theorem strictlyBelow_enter_iff (place up : Place) (name : Text) :
    StrictlyBelow place (enter (place ++ up) name) ↔ rises name ≤ up.length := by
  unfold enter rises
  by_cases hstay : name = [] ∨ name = ".".toList
  · rw [if_pos hstay, if_pos hstay, strictlyBelow_append_iff]
    exact List.length_pos_iff.symm
  · rw [if_neg hstay, if_neg hstay]
    by_cases hdots : name = "..".toList
    · rw [if_pos hdots, if_pos hdots]
      rcases List.eq_nil_or_concat' up with rfl | ⟨front, x, rfl⟩
      · rw [List.append_nil]
        exact iff_of_false (not_strictlyBelow_dropLast place) (by simp)
      · have hfront : (place ++ (front ++ [x])).dropLast = place ++ front := by
          rw [← List.append_assoc, List.dropLast_concat]
        rw [hfront, strictlyBelow_append_iff, List.length_append, List.length_singleton,
          ← List.length_pos_iff]
        omega
    · rw [if_neg hdots, if_neg hdots, List.append_assoc, strictlyBelow_append_iff]
      exact iff_of_true (by simp) (Nat.zero_le _)

theorem components_append_slash (p q : Text) :
    components (p ++ '/' :: q) = components p ++ components q :=
  List.splitOn_append_cons_self p q

theorem components_ne_nil (p : Text) : components p ≠ [] := List.splitOn_ne_nil '/' p

theorem resolve_append_slash (cwd : Place) (p q : Text) :
    resolve cwd (p ++ '/' :: q) = walk (resolve cwd (p ++ ['/'])) (components q) := by
  have hhead : (p ++ '/' :: q).head? = (p ++ ['/']).head? := by
    cases p <;> rfl
  rw [resolve, resolve, hhead, components_append_slash, components_append_slash, walk_append,
    walk_append]
  rfl

/-- A slash at the end makes no difference. -/
theorem resolve_concat_slash (cwd : Place) {p : Text} (hne : p ≠ []) :
    resolve cwd (p ++ ['/']) = resolve cwd p := by
  have hhead : (p ++ ['/']).head? = p.head? := List.head?_append_of_ne_nil p hne
  rw [resolve, resolve, hhead, components_append_slash, walk_append]
  exact enter_nil _

/-- A component with a slash after it stands in the path name with that slash. -/
theorem infix_of_mem_dropLast {name p : Text} (h : name ∈ (components p).dropLast) :
    name ++ ['/'] <:+: p := by
  have hpart : name ++ ['/'] <:+: List.intercalate ['/'] (p.splitOn '/') :=
    Shell.concat_infix_intercalate h
  rwa [List.intercalate_splitOn] at hpart

end PathNames

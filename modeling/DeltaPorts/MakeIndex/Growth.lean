import DeltaPorts.MakeIndex.Ports

/-!
# The array of `recurse_one`

`recurse_one` once more, with the array and the variables `N` and `*nd`. Every access to the array
is checked.
-/

set_option autoImplicit false

namespace DeltaPorts.MakeIndex.Growth

open Loops (ok_bind)

inductive Stop where
  | failed (e : Failure)
  | err (n : Nat)
  | fault

/-- The elements allocated; one that has not been written yet is `none`. -/
abbrev Cells := List (Option Nat)

def load (d : Cells) (k : Nat) : Except Stop Nat :=
  match d[k]? with
  | some (some p) => .ok p
  | _ => .error .fault

def store (d : Cells) (k p : Nat) : Except Stop Cells :=
  if k < d.length then .ok (d.set k (some p)) else .error .fault

structure Vars where
  d : Cells
  nd : Nat
  N : Nat

-- whether there is room for that many elements, and the run dependencies of the ports
variable (room : Nat → Bool) (rdep : Nat → List Nat)

def realloc (d : Cells) (n : Nat) : Except Stop Cells :=
  if room n = true then .ok (d.take n ++ List.replicate (n - d.length) none) else .error (.err n)

/-- `d[i].p->rdep[j].p` -/
def target (d : Cells) (i j : Nat) : Except Stop Nat := do
  let p ← load d i
  match (rdep p)[j]? with
  | some x => .ok x
  | none => .error .fault

/-- The loop over `k`, with `rest` elements still to be compared. -/
def search (d : Cells) (i j : Nat) : Nat → Nat → Except Stop Nat
  | 0, k => .ok k
  | rest + 1, k => do
    let x ← target rdep d i j
    let y ← load d k
    if x = y then return k else search d i j rest (k + 1)

/-- `if (N >= *nd)` -/
def grow (d : Cells) (nd N : Nat) : Except Stop (Cells × Nat) :=
  if nd ≤ N then do
    let d ← realloc room d (nd + nd)
    return (d, nd + nd)
  else return (d, nd)

/-- One round of the loop over `j`. -/
def round (i : Nat) (s : Vars) (j : Nat) : Except Stop Vars := do
  let k ← search rdep s.d i j s.N 0
  if k = s.N then
    let N := s.N + 1
    let (d, nd) ← grow room s.d s.nd N
    let x ← target rdep d i j
    let d ← store d k x
    return ⟨d, nd, N⟩
  else return s

def called : Except Failure Memory → Except Stop Memory
  | .ok m => .ok m
  | .error e => .error (.failed e)

/-- One round of the loop over `i`. While it runs the lists of the ports do not change. -/
def outerRound (recurse : Nat → Memory → Except Failure Memory) (s : Vars × Memory) (i : Nat) :
    Except Stop (Vars × Memory) := do
  let x ← load s.1.d i
  let m ← called (recurse x s.2)
  let p ← load s.1.d i
  let vars ← (List.range (m.dep p .rdep).length).foldlM (round room (m.dep · .rdep) i) s.1
  return (vars, m)

def recurseOne (recurse : Nat → Memory → Except Failure Memory) (d : Cells) (nd : Nat)
    (m : Memory) : Except Stop (Vars × Memory) := do
  let s ← (List.range nd).foldlM (outerRound room recurse) (⟨d, nd, nd⟩, m)
  return ({ s.1 with nd := s.1.N }, s.2)

/-- The list `l` is in the first `N` of the `*nd` elements. -/
structure Holds (s : Vars) (l : List Nat) : Prop where
  cells : ∃ free, s.d = l.map some ++ List.replicate free none
  count : s.N = l.length
  capacity : s.nd = s.d.length

/-- No access is out of bounds; what is returned is the list `d` and, once each, ports that were
not in it, and `*nd` is their number. -/
def Grows (d : List Nat) : Except Stop (Vars × Memory) → Prop
  | .error .fault => False
  | .error _ => True
  | .ok (s, _) => ∃ added free, s.d = (d ++ added).map some ++ List.replicate free none ∧
      s.nd = (d ++ added).length ∧ added.Nodup ∧ ∀ y ∈ added, y ∉ d

/-- A run with arrays follows one with lists, unless there is no room for the array. -/
inductive Follows {α β : Type} (R : α → β → Prop) : Except Stop α → Except Failure β → Prop
  | ok {a : α} {b : β} : R a b → Follows R (.ok a) (.ok b)
  | failed (e : Failure) : Follows R (.error (.failed e)) (.error e)
  | err {n : Nat} (x : Except Failure β) : room n = false → Follows R (.error (.err n)) x

theorem Follows.bind {α β γ δ : Type} {R : α → β → Prop} {S : γ → δ → Prop}
    {x : Except Stop α} {y : Except Failure β} {f : α → Except Stop γ}
    {g : β → Except Failure δ} (h : Follows room R x y)
    (hstep : ∀ a b, R a b → Follows room S (f a) (g b)) : Follows room S (x >>= f) (y >>= g) := by
  cases h with
  | ok hab => exact hstep _ _ hab
  | failed e => exact .failed e
  | err y hroom => exact .err _ hroom

variable {room rdep}

theorem Holds.load {s : Vars} {l : List Nat} (h : Holds s l) {k p : Nat} (hk : l[k]? = some p) :
    Growth.load s.d k = .ok p := by
  obtain ⟨free, hcells⟩ := h.cells
  have hlt : k < (l.map some).length := by
    rw [List.length_map]
    exact (List.getElem?_eq_some_iff.mp hk).1
  unfold Growth.load
  rw [hcells, List.getElem?_append_left hlt, List.getElem?_map, hk]
  rfl

theorem target_eq {d : Cells} {i j p x : Nat} (hi : load d i = .ok p)
    (hj : (rdep p)[j]? = some x) : target rdep d i j = .ok x := by
  unfold target
  rw [hi, ok_bind, hj]

/-- The search ends at the first place of the port, or behind the list. -/
theorem search_eq {d : Cells} {i j x : Nat} (hx : target rdep d i j = .ok x)
    (before after : List Nat) (hload : ∀ k p, (before ++ after)[k]? = some p → load d k = .ok p) :
    search rdep d i j after.length before.length = .ok (before.length + after.idxOf x) := by
  induction after generalizing before with
  | nil => rfl
  | cons y after ih =>
    have hy : load d before.length = .ok y := hload _ _ (by simp)
    rw [List.length_cons, search, hx, ok_bind, hy, ok_bind]
    by_cases hxy : x = y
    · rw [if_pos hxy, hxy, List.idxOf_cons_self]
      rfl
    · have htail := ih (before ++ [y]) (by simpa using hload)
      rw [List.length_append, List.length_singleton] at htail
      rw [if_neg hxy, htail, List.idxOf_cons_ne _ (Ne.symm hxy)]
      congr 1
      omega

/-- An array that holds a list and has room for one more port. -/
def HasRoom (d : Cells) (nd : Nat) (l : List Nat) : Prop :=
  ∃ free, d = l.map some ++ List.replicate (free + 1) none ∧ nd = d.length

/-- Doubling makes room for one more port, as `N` was at most `*nd` and the list is not empty. -/
theorem grow_cases {s : Vars} {l : List Nat} (h : Holds s l) (hl : 0 < l.length) :
    (∃ n, grow room s.d s.nd (s.N + 1) = .error (.err n) ∧ room n = false) ∨
      ∃ d nd, grow room s.d s.nd (s.N + 1) = .ok (d, nd) ∧ HasRoom d nd l := by
  obtain ⟨free, hcells⟩ := h.cells
  have hcount := h.count
  have hcapacity := h.capacity
  have hlength : s.d.length = l.length + free := by
    rw [hcells, List.length_append, List.length_map, List.length_replicate]
  unfold grow
  by_cases hfull : s.nd ≤ s.N + 1
  · rw [if_pos hfull]
    unfold realloc
    cases hroom : room (s.nd + s.nd) with
    | false => exact .inl ⟨s.nd + s.nd, rfl, hroom⟩
    | true =>
      right
      refine ⟨_, _, rfl, free + s.nd - 1, ?_, ?_⟩
      · rw [List.take_of_length_le (by omega), hcells, List.append_assoc,
          List.replicate_append_replicate, ← hcells]
        congr 2
        omega
      · rw [List.take_of_length_le (by omega), List.length_append, List.length_replicate]
        omega
  · rw [if_neg hfull]
    right
    refine ⟨_, _, rfl, free - 1, ?_, hcapacity⟩
    rw [Nat.sub_add_cancel (by omega)]
    exact hcells

theorem store_eq {d : Cells} {nd : Nat} {l : List Nat} (h : HasRoom d nd l) (x : Nat) :
    ∃ d', store d l.length x = .ok d' ∧ Holds ⟨d', nd, l.length + 1⟩ (l ++ [x]) := by
  obtain ⟨free, rfl, hnd⟩ := h
  have hlt : l.length < (l.map some ++ List.replicate (free + 1) none).length := by
    rw [List.length_append, List.length_map, List.length_replicate]
    omega
  refine ⟨_, if_pos hlt, ⟨free, ?_⟩, ?_, ?_⟩
  · change (l.map some ++ List.replicate (free + 1) none).set l.length (some x) = _
    rw [List.set_append_right _ _ (by rw [List.length_map]), List.length_map, Nat.sub_self,
      List.replicate_succ, List.set_cons_zero, List.map_append, List.append_assoc]
    rfl
  · rw [List.length_append, List.length_singleton]
  · exact hnd.trans (List.length_set).symm

theorem HasRoom.load {d : Cells} {nd : Nat} {l : List Nat} (h : HasRoom d nd l) {k p : Nat}
    (hk : l[k]? = some p) : Growth.load d k = .ok p := by
  obtain ⟨free, hcells, hnd⟩ := h
  have hholds : Holds ⟨d, nd, l.length⟩ l := ⟨⟨free + 1, hcells⟩, rfl, hnd⟩
  exact hholds.load hk

theorem round_cases {s : Vars} {l : List Nat} (h : Holds s l) {i j p x : Nat}
    (hi : l[i]? = some p) (hj : (rdep p)[j]? = some x) :
    (∃ e, round room rdep i s j = .error e ∧ ∃ n, e = .err n ∧ room n = false) ∨
      ∃ s', round room rdep i s j = .ok s' ∧ Holds s' (Loops.addNew l x) := by
  have hlen : i < l.length := (List.getElem?_eq_some_iff.mp hi).1
  have hx := target_eq (h.load hi) hj
  have hsearch := search_eq hx [] l fun k q hq => h.load hq
  rw [List.length_nil, Nat.zero_add, ← h.count] at hsearch
  unfold round Loops.addNew
  rw [hsearch, ok_bind]
  by_cases hmem : x ∈ l
  · have hlt := List.idxOf_lt_length_of_mem hmem
    rw [← h.count] at hlt
    rw [if_pos hmem, if_neg (by omega)]
    exact .inr ⟨s, rfl, h⟩
  · have hend : l.idxOf x = s.N := h.count ▸ List.idxOf_eq_length hmem
    rw [if_neg hmem, if_pos hend, hend, h.count]
    rcases @grow_cases room s l h (by omega) with ⟨n, hgrow, hroom⟩ | ⟨d, nd, hgrow, hd⟩
    · left
      rw [h.count] at hgrow
      simp only [hgrow]
      exact ⟨.err n, rfl, n, rfl, hroom⟩
    · right
      obtain ⟨d', hstore, hd'⟩ := store_eq hd x
      rw [h.count] at hgrow
      simp only [hgrow, ok_bind, target_eq (hd.load hi) hj, hstore]
      exact ⟨_, rfl, hd'⟩

theorem eq_of_range {done rest : List Nat} {n j : Nat} (h : done ++ j :: rest = List.range n) :
    j = done.length ∧ j < n := by
  have hj : (List.range n)[done.length]? = some j := by
    rw [← h]
    simp
  obtain ⟨hlt, heq⟩ := List.getElem?_eq_some_iff.mp hj
  rw [List.getElem_range] at heq
  rw [List.length_range] at hlt
  omega

/-- The loop over `j`: as the loop over the run dependencies themselves. -/
theorem inner_cases {s : Vars} {l : List Nat} (h : Holds s l) {i p : Nat} (hi : l[i]? = some p) :
    (∃ e, (List.range (rdep p).length).foldlM (round room rdep i) s = .error e ∧
      ∃ n, e = .err n ∧ room n = false) ∨
    ∃ s', (List.range (rdep p).length).foldlM (round room rdep i) s = .ok s' ∧
      Holds s' ((rdep p).foldl Loops.addNew l) := by
  have hkept (xs : List Nat) : (xs.foldl Loops.addNew l)[i]? = some p := by
    obtain ⟨extra, hextra, _⟩ := (Loops.Grown.start l).addAll xs
    rw [hextra, List.getElem?_append_left (List.getElem?_eq_some_iff.mp hi).1, hi]
  have hstep : ∀ done j rest s', done ++ j :: rest = List.range (rdep p).length →
      Holds s' (((rdep p).take done.length).foldl Loops.addNew l) →
      (∃ e, round room rdep i s' j = .error e ∧ ∃ n, e = .err n ∧ room n = false) ∨
        ∃ s'', round room rdep i s' j = .ok s'' ∧
          Holds s'' (((rdep p).take (done ++ [j]).length).foldl Loops.addNew l) := by
    intro done j rest s' hsplit hs'
    obtain ⟨hj, hlt⟩ := eq_of_range hsplit
    have hx : (rdep p)[j]? = some (rdep p)[j] := List.getElem?_eq_getElem hlt
    have htake : (rdep p).take (done ++ [j]).length = (rdep p).take done.length ++ [(rdep p)[j]] := by
      rw [List.length_append, List.length_singleton, ← hj, List.take_add_one, hx]
      rfl
    rw [htake, List.foldl_append]
    exact round_cases hs' (hkept _) hx
  have hrun := Loops.foldlM_cases (P := fun done s' =>
    Holds s' (((rdep p).take done.length).foldl Loops.addNew l))
    (E := fun e => ∃ n, e = Stop.err n ∧ room n = false) h hstep
  rw [List.length_range, List.take_length] at hrun
  exact hrun

/-- The array and the list at the beginning of a round of the loop over `i`. -/
def Between (d : List Nat) (s : Vars × Memory) (t : List Nat × Memory) : Prop :=
  Holds s.1 t.1 ∧ s.2 = t.2 ∧ ∃ New, Loops.Grown d t.1 New

/-- One round of the loop over `i`, for the port `x` that `d[i]` points to. -/
theorem outerRound_follows (recurse : Nat → Memory → Except Failure Memory)
    {d : List Nat} {s : Vars × Memory} {t : List Nat × Memory} (h : Between d s t) {i x : Nat}
    (hi : d[i]? = some x) :
    Follows room (Between d) (outerRound room recurse s i) (do
      let m ← recurse x t.2
      return ((m.dep x .rdep).foldl Loops.addNew t.1, m)) := by
  obtain ⟨hholds, hmemory, New, hgrown⟩ := h
  have hx : t.1[i]? = some x := by
    obtain ⟨extra, hextra, _⟩ := hgrown
    rw [hextra, List.getElem?_append_left (List.getElem?_eq_some_iff.mp hi).1, hi]
  unfold outerRound
  rw [hholds.load hx, ok_bind, hmemory]
  cases recurse x t.2 with
  | error e => exact .failed e
  | ok m =>
    simp only [called, ok_bind]
    rcases @inner_cases room (m.dep · .rdep) _ _ hholds _ _ hx with
      ⟨e, hloop, n, rfl, hroom⟩ | ⟨s', hloop, hs'⟩
    · rw [hloop]
      exact .err _ hroom
    · rw [hloop]
      exact .ok ⟨hs', rfl, _, hgrown.addAll _⟩

theorem outer_follows (recurse : Nat → Memory → Except Failure Memory) {before after : List Nat}
    {s : Vars × Memory} {t : List Nat × Memory} (h : Between (before ++ after) s t) :
    Follows room (Between (before ++ after))
      ((List.range' before.length after.length).foldlM (outerRound room recurse) s)
      (after.foldlM (fun t x => do
        let m ← recurse x t.2
        return ((m.dep x .rdep).foldl Loops.addNew t.1, m)) t) := by
  induction after generalizing before s t with
  | nil => exact .ok h
  | cons x after ih =>
    rw [List.length_cons, List.range'_succ, List.foldlM_cons, List.foldlM_cons]
    refine (outerRound_follows recurse h (by simp)).bind room ?_
    intro s' t' h'
    rw [List.append_cons] at h' ⊢
    have hrest := ih h'
    rw [List.length_append, List.length_singleton] at hrest
    exact hrest

theorem holds_start (d : List Nat) (m : Memory) :
    Between d (⟨d.map some, d.length, d.length⟩, m) (d, m) :=
  ⟨⟨⟨0, by simp⟩, rfl, (List.length_map _).symm⟩, rfl, _, Loops.Grown.start d⟩

/-- At the end `*nd` is set to `N`. -/
theorem grows_of_follows {d : List Nat} {x : Except Stop (Vars × Memory)}
    {y : Except Failure (List Nat × Memory)} (h : Follows room (Between d) x y) :
    Grows d (x >>= fun s => .ok ({ s.1 with nd := s.1.N }, s.2)) ∧
      Follows room (fun s t => s.1.d.take s.1.nd = t.1.map some ∧ s.2 = t.2)
        (x >>= fun s => .ok ({ s.1 with nd := s.1.N }, s.2)) y := by
  cases h with
  | failed e => exact ⟨trivial, .failed e⟩
  | err y hroom => exact ⟨trivial, .err y hroom⟩
  | @ok s t hbetween =>
    obtain ⟨hholds, hmemory, New, hgrown⟩ := hbetween
    obtain ⟨free, hcells⟩ := hholds.cells
    obtain ⟨added, hadded, hnodup, hnew, _⟩ := hgrown
    constructor
    · exact ⟨added, free, hadded ▸ hcells, hadded ▸ hholds.count, hnodup, hnew⟩
    · refine .ok ⟨?_, hmemory⟩
      change s.1.d.take s.1.N = _
      rw [hcells, List.take_left' (by rw [List.length_map, hholds.count])]

/-- Whatever the lists of run dependencies are, no access is out of bounds, and the array is that
of the function on lists. -/
theorem recurseOne_grows (room : Nat → Bool) (recurse : Nat → Memory → Except Failure Memory)
    (d : List Nat) (m : Memory) :
    Grows d (recurseOne room recurse (d.map some) d.length m) ∧
      Follows room (fun s t => s.1.d.take s.1.nd = t.1.map some ∧ s.2 = t.2)
        (recurseOne room recurse (d.map some) d.length m) (MakeIndex.recurseOne recurse d m) := by
  have hloop := @outer_follows room recurse [] d _ _ (holds_start d m)
  rw [List.length_nil, ← List.range_eq_range'] at hloop
  exact grows_of_follows hloop

end DeltaPorts.MakeIndex.Growth

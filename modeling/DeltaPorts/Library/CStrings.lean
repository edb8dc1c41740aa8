import Mathlib.Data.List.Count
import Mathlib.Data.List.Basic

/-!
# Strings in memory

A string is an allocated piece of memory with a zero byte in it. Every access is checked: one
outside the piece ends in `fault`, and so does the use of a null pointer.
-/

set_option autoImplicit false

namespace CStrings

abbrev Byte := UInt8

/-- The bytes of an allocated piece. -/
abbrev Piece := List Byte

variable {ε : Type} (fault : ε)

def load (m : Piece) (i : Int) : Except ε Byte :=
  if i < 0 then .error fault
  else match m[i.toNat]? with
    | some b => .ok b
    | none => .error fault

def store (m : Piece) (i : Int) (b : Byte) : Except ε Piece :=
  if i < 0 ∨ m.length ≤ i.toNat then .error fault else .ok (m.set i.toNat b)

/-- The position of the first byte that stops a loop which reads one byte after the other, for the
bytes from `i` on. -/
def seekFrom (stop : Byte → Bool) : Piece → Nat → Except ε Nat
  | [], _ => .error fault
  | b :: rest, i => if stop b then .ok i else seekFrom stop rest (i + 1)

def seek (stop : Byte → Bool) (m : Piece) (i : Nat) : Except ε Nat :=
  seekFrom fault stop (m.drop i) i

/-- How often `c` occurs before the zero byte, added to `n`. -/
def countFrom (c : Byte) : Piece → Nat → Except ε Nat
  | [], _ => .error fault
  | b :: rest, n => if b = 0 then .ok n else countFrom c rest (if b = c then n + 1 else n)

def strlen (m : Piece) (i : Nat) : Except ε Nat := do
  let j ← seek fault (· = 0) m i
  return j - i

/-- A copy of the string at a pointer. -/
def strdup (m : Piece) : Option Nat → Except ε Piece
  | none => .error fault
  | some i => do
    let n ← strlen fault m i
    return (m.drop i).take n ++ [0]

/-- A piece of memory and a pointer into it that `strsep` moves on. -/
structure Cursor where
  memory : Piece
  next : Option Nat

/-- The pointer to the token; the separator after it is overwritten by a zero byte. -/
def strsep (c : Byte) (x : Cursor) : Except ε (Option Nat × Cursor) :=
  match x.next with
  | none => .ok (none, x)
  | some i => do
    let j ← seek fault (fun b => b = 0 || b = c) x.memory i
    let b ← load fault x.memory j
    if b = 0 then return (some i, ⟨x.memory, none⟩)
    let memory ← store fault x.memory j 0
    return (some i, ⟨memory, some (j + 1)⟩)

/-- At the position `i` stands the string `u`. -/
structure Reads (m : Piece) (i : Nat) (u : List Byte) : Prop where
  noNul : 0 ∉ u
  stands : ∃ after, m.drop i = u ++ 0 :: after

theorem seekFrom_append {stop : Byte → Bool} {u : List Byte} (h : ∀ b ∈ u, stop b = false)
    {b : Byte} (hb : stop b = true) (after : List Byte) (i : Nat) :
    seekFrom fault stop (u ++ b :: after) i = .ok (i + u.length) := by
  induction u generalizing i with
  | nil => exact if_pos hb
  | cons a u ih =>
    have ha : stop a = false := h a List.mem_cons_self
    rw [List.cons_append, seekFrom, ha, if_neg Bool.false_ne_true,
      ih (fun b hb => h b (List.mem_cons_of_mem a hb)), List.length_cons]
    congr 1
    omega

theorem countFrom_append {c : Byte} {u : List Byte} (h : 0 ∉ u) (after : List Byte) (n : Nat) :
    countFrom fault c (u ++ 0 :: after) n = .ok (n + u.count c) := by
  induction u generalizing n with
  | nil => rfl
  | cons b u ih =>
    rw [List.mem_cons, not_or] at h
    rw [List.cons_append, countFrom, if_neg (Ne.symm h.1), ih h.2]
    by_cases hbc : b = c
    · rw [if_pos hbc, hbc, List.count_cons_self]
      congr 1
      omega
    · rw [if_neg hbc, List.count_cons_of_ne hbc]

theorem strlen_eq {m : Piece} {i : Nat} {u : List Byte} (h : Reads m i u) :
    strlen fault m i = .ok u.length := by
  obtain ⟨after, hstands⟩ := h.stands
  have hu : ∀ b ∈ u, decide (b = 0) = false := by
    intro b hb
    apply decide_eq_false
    intro hzero
    exact h.noNul (hzero ▸ hb)
  have hseek : seek fault (· = 0) m i = .ok (i + u.length) := by
    rw [seek, hstands]
    exact seekFrom_append fault hu (decide_eq_true rfl) after i
  rw [strlen, hseek]
  exact congrArg Except.ok (by omega)

theorem strdup_eq {m : Piece} {i : Nat} {u : List Byte} (h : Reads m i u) :
    strdup fault m (some i) = .ok (u ++ [0]) := by
  obtain ⟨after, hstands⟩ := h.stands
  rw [strdup, strlen_eq fault h, hstands]
  exact congrArg (fun t => Except.ok (t ++ [0])) (List.take_left' rfl)

theorem reads_concat {u : List Byte} (h : 0 ∉ u) : Reads (u ++ [0]) 0 u := ⟨h, [], rfl⟩

theorem load_drop {m : Piece} {i : Nat} {b : Byte} {after : List Byte}
    (h : m.drop i = b :: after) : load fault m i = .ok b := by
  have hget : m[i]? = some b := by
    rw [← List.head?_drop, h]
    rfl
  rw [load, if_neg (by omega), Int.toNat_natCast, hget]

variable {c : Byte} {limit : Nat} {x y : Cursor} {u : List Byte} {us : List (List Byte)}

/-- What a cursor is to give: the pieces of the string where it stands, which ends at `limit` at
the latest, or nothing. -/
def Holds (c : Byte) (limit : Nat) (x : Cursor) : List (List Byte) → Prop
  | [] => x.next = none
  | u :: us => ∃ i, x.next = some i ∧ Reads x.memory i ([c].intercalate (u :: us)) ∧
      (∀ v ∈ u :: us, c ∉ v) ∧ i + ([c].intercalate (u :: us)).length ≤ limit

/-- From `limit` on nothing has been written. -/
def Kept (limit : Nat) (m m' : Piece) : Prop := ∀ k, limit ≤ k → m'.drop k = m.drop k

/-- The token `u` stands at `i`, and the cursor goes on behind it. -/
structure Split (c : Byte) (limit : Nat) (x : Cursor) (u : List Byte) (us : List (List Byte))
    (i : Nat) (y : Cursor) : Prop where
  reads : Reads y.memory i u
  within : i + u.length ≤ limit
  later : ∀ k, y.next = some k → i + u.length ≤ k
  holds : Holds c limit y us
  kept : Kept limit x.memory y.memory

theorem Kept.trans {m m' m'' : Piece} (h : Kept limit m m') (h' : Kept limit m' m'') :
    Kept limit m m'' := fun k hk => (h' k hk).trans (h k hk)

/-- Writing before the cursor does not change what it gives. -/
theorem Holds.of_kept {m : Piece} {start : Nat} (h : Holds c limit x us)
    (hnext : ∀ k, x.next = some k → start ≤ k) (hkept : Kept start x.memory m) :
    Holds c limit ⟨m, x.next⟩ us := by
  cases us with
  | nil => exact h
  | cons u us =>
    obtain ⟨i, hi, ⟨hnul, after, hstands⟩, hfree, hlimit⟩ := h
    refine ⟨i, hi, ⟨hnul, after, ?_⟩, hfree, hlimit⟩
    rw [hkept i (hnext i hi)]
    exact hstands

theorem seek_separator {m after : Piece} {b : Byte} {i : Nat} (hnul : 0 ∉ u) (hc : c ∉ u)
    (hb : (b = 0 || b = c) = true) (h : m.drop i = u ++ b :: after) :
    seek fault (fun b => b = 0 || b = c) m i = .ok (i + u.length) := by
  rw [seek, h]
  apply seekFrom_append fault _ hb
  intro b hmem
  simp only [Bool.or_eq_false_iff, decide_eq_false_iff_not]
  constructor
  · intro hzero
    exact hnul (hzero ▸ hmem)
  · intro heq
    exact hc (heq ▸ hmem)

theorem drop_behind {m after : Piece} {i : Nat} (h : m.drop i = u ++ after) :
    m.drop (i + u.length) = after := by
  rw [← List.drop_drop, h, List.drop_left]

theorem strsep_split (h : Holds c limit x (u :: us)) :
    ∃ i y, strsep fault c x = .ok (some i, y) ∧ Split c limit x u us i y := by
  obtain ⟨i, hi, ⟨hnul, after, hstands⟩, hfree, hlimit⟩ := h
  have hcu : c ∉ u := hfree u List.mem_cons_self
  cases us with
  | nil =>
    rw [List.intercalate_singleton] at hnul hstands hlimit
    have hseek := seek_separator fault (c := c) hnul hcu (by simp) hstands
    have hload := load_drop fault (drop_behind hstands)
    refine ⟨i, ⟨x.memory, none⟩, ?_, ⟨hnul, after, hstands⟩, hlimit, nofun, rfl, fun _ _ => rfl⟩
    simp only [strsep, hi, hseek, hload, bind, Except.bind, pure, Except.pure, if_pos]
  | cons v us =>
    rw [List.intercalate_cons_cons] at hnul hstands hlimit
    simp only [List.append_assoc, List.cons_append] at hstands
    simp only [List.mem_append, List.mem_singleton, not_or] at hnul
    simp only [List.length_append, List.length_singleton] at hlimit
    obtain ⟨⟨hnulu, hnulc⟩, hnulrest⟩ := hnul
    have hseek := seek_separator fault hnulu hcu (by simp) hstands
    have hbehind := drop_behind hstands
    have hload := load_drop fault hbehind
    have hlen : i + u.length < x.memory.length := by
      apply Nat.lt_of_not_le
      intro hle
      rw [List.drop_eq_nil_of_le hle] at hbehind
      cases hbehind
    have hstore : store fault x.memory ((i + u.length : Nat) : Int) 0 =
        .ok (x.memory.set (i + u.length) 0) := by
      rw [store, Int.toNat_natCast, if_neg]
      omega
    refine ⟨i, ⟨x.memory.set (i + u.length) 0, some (i + u.length + 1)⟩, ?_, ?_⟩
    · simp only [strsep, hi, hseek, hload, hstore, bind, Except.bind, pure, Except.pure,
        if_neg (Ne.symm hnulc)]
    · have hpiece : (x.memory.set (i + u.length) 0).drop i =
          u ++ 0 :: (([c].intercalate (v :: us)) ++ 0 :: after) := by
        rw [List.drop_set, if_neg (by omega), hstands, Nat.add_sub_cancel_left,
          List.set_append_right u.length 0 (Nat.le_refl _), Nat.sub_self]
        rfl
      have hrest : (x.memory.set (i + u.length) 0).drop (i + u.length + 1) =
          [c].intercalate (v :: us) ++ 0 :: after := by
        rw [List.drop_set_of_lt (by omega), ← List.drop_drop, hbehind]
        rfl
      refine ⟨⟨hnulu, _, hpiece⟩, by omega, ?_, ?_, ?_⟩
      · intro k hk
        cases hk
        omega
      · refine ⟨i + u.length + 1, rfl, ⟨hnulrest, after, hrest⟩, ?_, by omega⟩
        exact fun w hw => hfree w (List.mem_cons_of_mem u hw)
      · intro k hk
        exact List.drop_set_of_lt (by omega)

/-- A copy of the next token. -/
def token (c : Byte) (x : Cursor) : Except ε (Piece × Cursor) := do
  let (p, y) ← strsep fault c x
  let copy ← strdup fault y.memory p
  return (copy, y)

theorem token_eq (h : Holds c limit x (u :: us)) :
    ∃ y, token fault c x = .ok (u ++ [0], y) ∧ 0 ∉ u ∧ Holds c limit y us ∧
      Kept limit x.memory y.memory := by
  obtain ⟨i, y, hstrsep, hsplit⟩ := strsep_split fault h
  refine ⟨y, ?_, hsplit.reads.noNul, hsplit.holds, hsplit.kept⟩
  rw [token, hstrsep]
  simp only [bind, Except.bind, strdup_eq fault hsplit.reads]
  rfl

end CStrings

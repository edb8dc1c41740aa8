import Mathlib.Data.List.Basic

/-!
# Scripts that can exit

A script gives a value, or exits with a status, and in both cases leaves a state.
`Spec P m Q E` says that from a state of `P` the script ends with a value and a state of `Q`,
or exits with a status and a state of `E`.
-/

set_option autoImplicit false

variable {σ α β : Type}

def Exits (σ α : Type) : Type := σ → Except Nat α × σ

namespace Exits

instance : Monad (Exits σ) where
  pure a := fun s => (.ok a, s)
  bind m k := fun s =>
    match m s with
    | (.ok a, s') => k a s'
    | (.error n, s') => (.error n, s')

def exit (n : Nat) : Exits σ α := fun s => (.error n, s)

def cmd (f : σ → σ) : Exits σ Unit := fun s => (.ok (), f s)

def read (f : σ → α) : Exits σ α := fun s => (.ok (f s), s)

/-- A loop over the words of a list. -/
def forWords (xs : List β) (body : β → Exits σ Unit) : Exits σ Unit :=
  match xs with
  | [] => pure ()
  | x :: xs => do
    body x
    forWords xs body

def Spec (P : σ → Prop) (m : Exits σ α) (Q : α → σ → Prop) (E : Nat → σ → Prop) : Prop :=
  ∀ s, P s → match m s with
    | (.ok a, s') => Q a s'
    | (.error n, s') => E n s'

variable {P P' : σ → Prop} {Q Q' : α → σ → Prop} {E E' : Nat → σ → Prop}

theorem Spec.pure {a : α} (h : ∀ s, P s → Q a s) : Spec P (pure a) Q E := fun s hs => h s hs

theorem Spec.bind {m : Exits σ β} {k : β → Exits σ α} {R : β → σ → Prop}
    (hm : Spec P m R E) (hk : ∀ b, Spec (R b) (k b) Q E) : Spec P (m >>= k) Q E := by
  intro s hs
  have hend := hm s hs
  change match (match m s with
    | (.ok b, s') => k b s'
    | (.error n, s') => (.error n, s')) with
    | (.ok a, s') => Q a s'
    | (.error n, s') => E n s'
  rcases hms : m s with ⟨_ | b, s'⟩
  · rw [hms] at hend
    exact hend
  · rw [hms] at hend
    exact hk b s' hend

theorem Spec.exit {n : Nat} (h : ∀ s, P s → E n s) : Spec P (exit n : Exits σ α) Q E :=
  fun s hs => h s hs

theorem Spec.cmd {f : σ → σ} {Q : Unit → σ → Prop} (h : ∀ s, P s → Q () (f s)) :
    Spec P (cmd f) Q E := fun s hs => h s hs

theorem Spec.read {f : σ → α} (h : ∀ s, P s → Q (f s) s) : Spec P (read f) Q E :=
  fun s hs => h s hs

theorem Spec.weaken {m : Exits σ α} (h : Spec P m Q E) (hP : ∀ s, P' s → P s)
    (hQ : ∀ a s, Q a s → Q' a s) (hE : ∀ n s, E n s → E' n s) : Spec P' m Q' E' := by
  intro s hs
  have hend := h s (hP s hs)
  rcases hms : m s with ⟨_ | a, s'⟩
  · rw [hms] at hend
    exact hE _ _ hend
  · rw [hms] at hend
    exact hQ _ _ hend

theorem Spec.and {m : Exits σ α} (h : Spec P m Q E) (h' : Spec P' m Q' E') :
    Spec (fun s => P s ∧ P' s) m (fun a s => Q a s ∧ Q' a s) fun n s => E n s ∧ E' n s := by
  intro s hs
  have hend := h s hs.1
  have hend' := h' s hs.2
  rcases hms : m s with ⟨_ | a, s'⟩
  · rw [hms] at hend hend'
    exact ⟨hend, hend'⟩
  · rw [hms] at hend hend'
    exact ⟨hend, hend'⟩

theorem Spec.ite {c : Prop} [Decidable c] {m m' : Exits σ α} (ht : c → Spec P m Q E)
    (hf : ¬ c → Spec P m' Q E) : Spec P (if c then m else m') Q E := by
  split
  · exact ht ‹c›
  · exact hf ‹¬ c›

/-- A test of the state. -/
theorem Spec.test {f : σ → Bool} {m m' : Exits σ α} (ht : Spec (fun s => P s ∧ f s = true) m Q E)
    (hf : Spec (fun s => P s ∧ f s = false) m' Q E) :
    Spec P (Exits.read f >>= fun b => if b = true then m else m') Q E := by
  have hread : Spec P (Exits.read f) (fun b s => P s ∧ f s = b) E :=
    Spec.read fun s hs => ⟨hs, rfl⟩
  refine Spec.bind hread fun b => Spec.ite (fun hb => ?_) fun hb => ?_
  · exact ht.weaken (fun s hs => ⟨hs.1, hs.2.trans hb⟩) (fun _ _ h => h) fun _ _ h => h
  · have hb' : b = false := eq_false_of_ne_true hb
    exact hf.weaken (fun s hs => ⟨hs.1, hs.2.trans hb'⟩) (fun _ _ h => h) fun _ _ h => h

/-- `J done` holds between two rounds, of the words that have been worked off. -/
theorem Spec.forWords (xs : List β) (body : β → Exits σ Unit) {J : List β → σ → Prop}
    (done : List β) (h : ∀ before x after, before ++ x :: after = done ++ xs →
      Spec (J before) (body x) (fun _ => J (before ++ [x])) E) :
    Spec (J done) (Exits.forWords xs body) (fun _ => J (done ++ xs)) E := by
  induction xs generalizing done with
  | nil =>
    refine Spec.pure fun s hs => ?_
    rw [List.append_nil]
    exact hs
  | cons x xs ih =>
    refine Spec.bind (h done x xs rfl) fun _ => ?_
    have hsplit : done ++ x :: xs = (done ++ [x]) ++ xs := List.append_cons done x xs
    rw [hsplit] at h ⊢
    exact ih (done ++ [x]) h

end Exits

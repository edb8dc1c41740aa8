import Mathlib.Data.List.Induction
import Mathlib.Order.Basic

/-!
# Runs whose steps meet a condition

`Step s e s'` is one step of a system on the event `e`. `Reach Start Step Ok` are the
states of the runs that begin in a state of `Start` and take only steps that meet `Ok`.
An invariant of the steps that meet `Ok` is proved once and for every such run.
-/

set_option autoImplicit false

namespace Run

universe u v

variable {State : Type u} {Event : Type v}

/-- The states reached from `Start` when every step taken meets `Ok`. -/
inductive Reach (Start : State → Prop) (Step : State → Event → State → Prop)
    (Ok : State → Event → Prop) : State → Prop where
  | start {s : State} : Start s → Reach Start Step Ok s
  | step {s s' : State} {e : Event} :
      Reach Start Step Ok s → Ok s e → Step s e s' → Reach Start Step Ok s'

/-- No condition on the steps: every reachable state. -/
def Always (_ : State) (_ : Event) : Prop := True

variable {Start : State → Prop} {Step : State → Event → State → Prop}
variable {Ok : State → Event → Prop} {Inv : State → Prop}

theorem Reach.invariant (hStart : ∀ s, Start s → Inv s)
    (hStep : ∀ s e s', Inv s → Ok s e → Step s e s' → Inv s')
    {s : State} (hs : Reach Start Step Ok s) : Inv s := by
  induction hs with
  | start h => exact hStart _ h
  | step _ hOk h ih => exact hStep _ _ _ ih hOk h

/-- A run from a state that a run has reached goes on with that run. -/
theorem Reach.trans {s s' : State} (hs : Reach Start Step Ok s)
    (h : Reach (fun x => x = s) Step Ok s') : Reach Start Step Ok s' := by
  induction h with
  | start h => exact h ▸ hs
  | step _ hOk h ih => exact .step ih hOk h

section Steps

variable {step : State → Event → Option State}

/-- The steps meet `Ok` as long as they can be taken. -/
def OkSteps (step : State → Event → Option State) (Ok : State → Event → Prop) :
    State → List Event → Prop
  | _, [] => True
  | s, e :: es => Ok s e ∧ ∀ s', step s e = some s' → OkSteps step Ok s' es

theorem okSteps_always (s : State) (es : List Event) : OkSteps step Always s es := by
  induction es generalizing s with
  | nil => trivial
  | cons e es ih => exact ⟨trivial, fun s' _ => ih s'⟩

theorem okSteps_congr {Ok Ok' : State → Event → Prop} (h : ∀ s e, Ok s e ↔ Ok' s e) (s : State)
    (es : List Event) : OkSteps step Ok s es ↔ OkSteps step Ok' s es := by
  induction es generalizing s with
  | nil => exact Iff.rfl
  | cons e es ih => exact and_congr (h s e) (forall₂_congr fun s' _ => ih s')

/-- Every state of the run has the property: the one it starts in, and each one after. -/
def Throughout (step : State → Event → Option State) (P : State → Prop) :
    State → List Event → Prop
  | s, [] => P s
  | s, e :: es => P s ∧ ∀ s', step s e = some s' → Throughout step P s' es

theorem Throughout.start {P : State → Prop} {s : State} {es : List Event}
    (h : Throughout step P s es) : P s := by
  cases es with
  | nil => exact h
  | cons e es => exact h.1

theorem throughout_of_forall {P : State → Prop} (h : ∀ s, P s) (s : State) (es : List Event) :
    Throughout step P s es := by
  induction es generalizing s with
  | nil => exact h s
  | cons e es ih => exact ⟨h s, fun s' _ => ih s'⟩

theorem throughout_of_okSteps {Ok : State → Event → Prop} {Inv P : State → Prop}
    (hstep : ∀ s e s', Inv s → Ok s e → step s e = some s' → Inv s')
    (hP : ∀ s, Inv s → P s) {s : State} (hs : Inv s) {es : List Event}
    (hOk : OkSteps step Ok s es) : Throughout step P s es := by
  induction es generalizing s with
  | nil => exact hP s hs
  | cons e es ih =>
    exact ⟨hP s hs, fun s' hnext => ih (hstep s e s' hs hOk.1 hnext) (hOk.2 s' hnext)⟩

/-- When a step keeps the property exactly on the events that meet `Ok`, a run has it
throughout exactly when all its steps meet `Ok`. -/
theorem throughout_iff {Ok : State → Event → Prop} {P : State → Prop}
    (hstep : ∀ s e s', P s → step s e = some s' → (P s' ↔ Ok s e))
    (hstuck : ∀ s e, step s e = none → Ok s e) {s : State} (hs : P s) (es : List Event) :
    Throughout step P s es ↔ OkSteps step Ok s es := by
  induction es generalizing s with
  | nil => exact iff_of_true hs trivial
  | cons e es ih =>
    constructor
    · rintro ⟨_, hrest⟩
      have hOk : Ok s e := by
        cases hnext : step s e with
        | none => exact hstuck s e hnext
        | some s' => exact (hstep s e s' hs hnext).mp (hrest s' hnext).start
      refine ⟨hOk, fun s' hnext => ?_⟩
      have hs' : P s' := (hstep s e s' hs hnext).mpr hOk
      exact (ih hs').mp (hrest s' hnext)
    · rintro ⟨hOk, hrest⟩
      refine ⟨hs, fun s' hnext => ?_⟩
      have hs' : P s' := (hstep s e s' hs hnext).mpr hOk
      exact (ih hs').mpr (hrest s' hnext)

theorem Reach.foldlM (hStep : ∀ s e s', step s e = some s' → Step s e s') {s t : State}
    {es : List Event} (hs : Reach Start Step Ok s) (hOk : OkSteps step Ok s es)
    (h : es.foldlM step s = some t) : Reach Start Step Ok t := by
  induction es generalizing s with
  | nil =>
    cases h
    exact hs
  | cons e es ih =>
    rw [List.foldlM_cons] at h
    cases hnext : step s e with
    | none =>
      rw [hnext] at h
      cases h
    | some s' =>
      rw [hnext] at h
      exact ih (hs.step hOk.1 (hStep s e s' hnext)) (hOk.2 s' hnext) h

end Steps

section Logs

variable {Allowed : List Event → Event → Prop} {log : List Event} {e : Event}

def Orderly (Allowed : List Event → Event → Prop) (log : List Event) : Prop :=
  ∀ before e after, log = before ++ e :: after → Allowed before e

theorem orderly_nil : Orderly Allowed [] := by
  intro before e after h
  simp at h

theorem Orderly.concat (h : Orderly Allowed log) (he : Allowed log e) :
    Orderly Allowed (log ++ [e]) := by
  intro before e' after hsplit
  cases after using List.reverseRecOn with
  | nil =>
    obtain ⟨rfl, heq⟩ := List.append_inj' hsplit rfl
    cases heq
    exact he
  | append_singleton after last =>
    rw [← List.cons_append, ← List.append_assoc] at hsplit
    exact h before e' after (List.append_inj' hsplit rfl).1

theorem Orderly.init (h : Orderly Allowed (log ++ [e])) : Orderly Allowed log := by
  intro before e' after hsplit
  exact h before e' (after ++ [e]) (by rw [hsplit, List.append_assoc, List.cons_append])

end Logs

end Run

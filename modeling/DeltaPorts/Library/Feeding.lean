import Mathlib.Data.List.Basic

/-!
# Machines that are fed a list element by element

A step takes one element and gives some output. What a machine gives for a list and the state it
ends in do not depend on how the list is cut.
-/

set_option autoImplicit false

namespace Feeding

variable {σ α β : Type} (step : σ → α → List β × σ)

def feed (s : σ) : List α → List β × σ
  | [] => ([], s)
  | a :: as => ((step s a).1 ++ (feed (step s a).2 as).1, (feed (step s a).2 as).2)

theorem feed_append (s : σ) (as bs : List α) :
    feed step s (as ++ bs) =
      ((feed step s as).1 ++ (feed step (feed step s as).2 bs).1,
        (feed step (feed step s as).2 bs).2) := by
  induction as generalizing s with
  | nil => rfl
  | cons a as ih =>
    rw [List.cons_append, feed, ih, feed]
    simp only [List.append_assoc]

/-- What each step keeps, for the elements fed so far. -/
theorem feed_keeps {P : List α → σ → Prop} {done : List α} {s : σ} (h : P done s)
    (hstep : ∀ done s a, P done s → P (done ++ [a]) (step s a).2) (as : List α) :
    P (done ++ as) (feed step s as).2 := by
  induction as generalizing done s with
  | nil =>
    rw [List.append_nil]
    exact h
  | cons a as ih =>
    rw [List.append_cons]
    exact ih (hstep done s a h)

theorem length_feed_le (hstep : ∀ s a, (step s a).1.length ≤ 1) (s : σ) (as : List α) :
    (feed step s as).1.length ≤ as.length := by
  induction as generalizing s with
  | nil => exact Nat.le_refl 0
  | cons a as ih =>
    have hone := hstep s a
    have hrest := ih (step s a).2
    rw [feed, List.length_append, List.length_cons]
    omega

theorem feed_map {γ : Type} (f : γ → α) (s : σ) (cs : List γ) :
    feed (fun s c => step s (f c)) s cs = feed step s (cs.map f) := by
  induction cs generalizing s with
  | nil => rfl
  | cons c cs ih => rw [List.map_cons, feed, feed, ih]

/-- Elements that change nothing and give nothing can be left out. -/
theorem feed_filter {p : α → Bool} (h : ∀ s a, p a = false → step s a = ([], s)) (s : σ)
    (as : List α) : feed step s as = feed step s (as.filter p) := by
  induction as generalizing s with
  | nil => rfl
  | cons a as ih =>
    cases hp : p a with
    | false => rw [feed, h s a hp, List.filter_cons_of_neg (by simp [hp]), ← ih, List.nil_append]
    | true => rw [List.filter_cons_of_pos hp, feed, feed, ih]

theorem countP_feed {p : β → Bool} (h : ∀ s a, (step s a).1.countP p = 1) (s : σ) (as : List α) :
    (feed step s as).1.countP p = as.length := by
  induction as generalizing s with
  | nil => rfl
  | cons a as ih =>
    rw [feed, List.countP_append, h, ih, List.length_cons]
    omega

theorem feed_congr {step step' : σ → α → List β × σ} {as : List α}
    (h : ∀ s, ∀ a ∈ as, step s a = step' s a) (s : σ) : feed step s as = feed step' s as := by
  induction as generalizing s with
  | nil => rfl
  | cons a as ih =>
    rw [feed, feed, h s a List.mem_cons_self,
      ih fun s b hb => h s b (List.mem_cons_of_mem a hb)]

end Feeding

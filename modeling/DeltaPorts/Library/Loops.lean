import Mathlib.Data.List.Count
import Mathlib.Data.List.Nodup
import Mathlib.Order.Basic

/-!
# Loops that can fail, and lists that grow by new elements
-/

set_option autoImplicit false

namespace Loops

variable {ε σ α β : Type}

theorem mapM_ok {f : α → Except ε β} {g : α → β} {xs : List α}
    (h : ∀ x ∈ xs, f x = .ok (g x)) : xs.mapM f = .ok (xs.map g) := by
  induction xs with
  | nil => rfl
  | cons x xs ih =>
    rw [List.mapM_cons, h x List.mem_cons_self, ih fun y hy => h y (List.mem_cons_of_mem x hy)]
    rfl

theorem foldlM_cases_from {f : σ → α → Except ε σ} {P : List α → σ → Prop} {E : ε → Prop}
    {before xs : List α} {s : σ} (h : P before s)
    (hstep : ∀ done x rest s, done ++ x :: rest = before ++ xs → P done s →
      (∃ e, f s x = .error e ∧ E e) ∨ ∃ s', f s x = .ok s' ∧ P (done ++ [x]) s') :
    (∃ e, xs.foldlM f s = .error e ∧ E e) ∨ ∃ s', xs.foldlM f s = .ok s' ∧ P (before ++ xs) s' := by
  induction xs generalizing before s with
  | nil =>
    rw [List.append_nil]
    exact .inr ⟨s, rfl, h⟩
  | cons x xs ih =>
    rcases hstep before x xs s rfl h with ⟨e, hf, he⟩ | ⟨s', hf, hs'⟩
    · refine .inl ⟨e, ?_, he⟩
      rw [List.foldlM_cons, hf]
      rfl
    · rw [List.foldlM_cons, hf]
      rw [List.append_cons] at hstep ⊢
      exact ih hs' hstep

/-- `P done s` holds of the elements done and the state between two rounds, unless a round fails
with an `E`. -/
theorem foldlM_cases {f : σ → α → Except ε σ} {P : List α → σ → Prop} {E : ε → Prop}
    {xs : List α} {s : σ} (h : P [] s)
    (hstep : ∀ done x rest s, done ++ x :: rest = xs → P done s →
      (∃ e, f s x = .error e ∧ E e) ∨ ∃ s', f s x = .ok s' ∧ P (done ++ [x]) s') :
    (∃ e, xs.foldlM f s = .error e ∧ E e) ∨ ∃ s', xs.foldlM f s = .ok s' ∧ P xs s' :=
  foldlM_cases_from h hstep

/-- `P done s` holds of the elements done and the state between two rounds. -/
theorem foldlM_ok {f : σ → α → Except ε σ} {P : List α → σ → Prop} {xs : List α} {s : σ}
    (h : P [] s) (hstep : ∀ done x rest s, done ++ x :: rest = xs → P done s →
      ∃ s', f s x = .ok s' ∧ P (done ++ [x]) s') :
    ∃ s', xs.foldlM f s = .ok s' ∧ P xs s' := by
  have hcases := foldlM_cases (E := fun _ => False) h
    fun done x rest s hsplit hs => .inr (hstep done x rest s hsplit hs)
  exact hcases.resolve_left fun ⟨_, _, hfalse⟩ => hfalse

theorem ok_bind (x : α) (f : α → Except ε β) : (Except.ok x >>= f) = f x := rfl

theorem bind_ok {x : Except ε α} {f : α → Except ε β} {r : β} (h : (x >>= f) = .ok r) :
    ∃ a, x = .ok a ∧ f a = .ok r := by
  cases x with
  | error e => cases h
  | ok a => exact ⟨a, rfl, h⟩

theorem bind_congr_of_ne {x y : Except ε α} {f : α → Except ε β} {e : ε}
    (h : (x >>= f) ≠ .error e) (hxy : x ≠ .error e → y = x) : (y >>= f) = (x >>= f) := by
  rw [hxy]
  rintro rfl
  exact h rfl

/-- A loop that does not fail with `e` stays as it is when only rounds that fail with `e` change. -/
theorem foldlM_congr_of_ne {f g : σ → α → Except ε σ} {e : ε} {xs : List α} {s : σ}
    (h : xs.foldlM f s ≠ .error e) (hstep : ∀ s x, f s x ≠ .error e → g s x = f s x) :
    xs.foldlM g s = xs.foldlM f s := by
  induction xs generalizing s with
  | nil => rfl
  | cons x xs ih =>
    rw [List.foldlM_cons] at h
    have hx : g s x = f s x := by
      apply hstep
      intro he
      rw [he] at h
      exact h rfl
    rw [List.foldlM_cons, List.foldlM_cons, hx]
    cases hf : f s x with
    | error e' => rfl
    | ok s' =>
      rw [hf] at h
      exact ih h

theorem mapM_forall₂ {f : α → Except ε β} {xs : List α} {ys : List β} (h : xs.mapM f = .ok ys) :
    List.Forall₂ (fun x y => f x = .ok y) xs ys := by
  induction xs generalizing ys with
  | nil =>
    cases h
    exact .nil
  | cons x xs ih =>
    rw [List.mapM_cons] at h
    obtain ⟨y, hy, h⟩ := bind_ok h
    obtain ⟨ys', hrest, h⟩ := bind_ok h
    cases h
    exact .cons hy (ih hrest)

theorem exists_of_forall₂ {R : α → β → Prop} {xs : List α} {ys : List β} (h : List.Forall₂ R xs ys)
    {y : β} (hy : y ∈ ys) : ∃ x ∈ xs, R x y := by
  induction h with
  | nil => cases hy
  | @cons a b xs ys hab _ ih =>
    rcases List.mem_cons.mp hy with rfl | hy
    · exact ⟨a, List.mem_cons_self, hab⟩
    · obtain ⟨x, hx, hxy⟩ := ih hy
      exact ⟨x, List.mem_cons_of_mem a hx, hxy⟩

/-- What each round that succeeds keeps, the loop keeps. -/
theorem foldlM_keeps {f : σ → α → Except ε σ} {P : List α → σ → Prop} {before xs : List α}
    {s s' : σ} (hloop : xs.foldlM f s = .ok s') (h : P before s)
    (hstep : ∀ done x s s', P done s → f s x = .ok s' → P (done ++ [x]) s') :
    P (before ++ xs) s' := by
  induction xs generalizing before s with
  | nil =>
    cases hloop
    rwa [List.append_nil]
  | cons x xs ih =>
    rw [List.foldlM_cons] at hloop
    obtain ⟨t, ht, hloop⟩ := bind_ok hloop
    rw [List.append_cons]
    exact ih hloop (hstep before x s t h ht)

/-- Both fail with the same error, or both return and the values are related. -/
inductive Alike (R : α → β → Prop) : Except ε α → Except ε β → Prop
  | error (e : ε) : Alike R (.error e) (.error e)
  | ok {a : α} {b : β} : R a b → Alike R (.ok a) (.ok b)

namespace Alike

variable {γ δ : Type} {R R' : α → β → Prop} {S : γ → δ → Prop} {x : Except ε α} {y : Except ε β}

theorem bind {f : α → Except ε γ} {g : β → Except ε δ} (h : Alike R x y)
    (hstep : ∀ a b, R a b → Alike S (f a) (g b)) : Alike S (x >>= f) (y >>= g) := by
  cases h with
  | error e => exact .error e
  | ok hab => exact hstep _ _ hab

theorem eq {y : Except ε α} (h : Alike (· = ·) x y) : x = y := by
  cases h with
  | error e => rfl
  | ok hab => rw [hab]

theorem foldlM {τ : Type} {R : σ → τ → Prop} {f : σ → α → Except ε σ} {g : τ → β → Except ε τ}
    {h : α → β} {xs : List α} {s : σ} {t : τ} (hst : R s t)
    (hstep : ∀ s t x, R s t → Alike R (f s x) (g t (h x))) :
    Alike R (xs.foldlM f s) ((xs.map h).foldlM g t) := by
  induction xs generalizing s t with
  | nil => exact .ok hst
  | cons x xs ih =>
    rw [List.map_cons, List.foldlM_cons, List.foldlM_cons]
    exact (hstep s t x hst).bind fun _ _ => ih

theorem mapM {f : α → Except ε β} {g : α → Except ε γ} {h : β → γ} (xs : List α)
    (hstep : ∀ x, Alike (fun y z => z = h y) (f x) (g x)) :
    Alike (fun ys zs => zs = ys.map h) (xs.mapM f) (xs.mapM g) := by
  induction xs with
  | nil => exact .ok rfl
  | cons x xs ih =>
    rw [List.mapM_cons, List.mapM_cons]
    refine (hstep x).bind fun y z hz => ih.bind fun ys zs hzs => .ok ?_
    rw [hz, hzs, List.map_cons]

end Alike

def addNew [DecidableEq α] (l : List α) (y : α) : List α := if y ∈ l then l else l ++ [y]

/-- `l` is `d` and after it, once each, the elements of `New` that are not in `d`. -/
def Grown (d l : List α) (New : α → Prop) : Prop :=
  ∃ extra, l = d ++ extra ∧ extra.Nodup ∧ (∀ y ∈ extra, y ∉ d) ∧ ∀ y, y ∈ l ↔ y ∈ d ∨ New y

variable {d l : List α} {New New' : α → Prop} {y : α}

theorem Grown.mem_iff (h : Grown d l New) : y ∈ l ↔ y ∈ d ∨ New y := by
  obtain ⟨_, _, _, _, hmem⟩ := h
  exact hmem y

theorem Grown.start (d : List α) : Grown d d fun _ => False := by
  refine ⟨[], (List.append_nil d).symm, List.nodup_nil, ?_, ?_⟩
  · exact fun y hy => absurd hy List.not_mem_nil
  · intro y
    rw [or_false]

theorem Grown.congr (h : Grown d l New) (hiff : ∀ y, New y ↔ New' y) : Grown d l New' := by
  obtain ⟨extra, rfl, hnodup, hdisj, hmem⟩ := h
  refine ⟨extra, rfl, hnodup, hdisj, ?_⟩
  intro y
  rw [hmem y, hiff y]

variable [DecidableEq α]

theorem Grown.addNew (h : Grown d l New) (y : α) :
    Grown d (addNew l y) fun z => New z ∨ z = y := by
  obtain ⟨extra, rfl, hnodup, hdisj, hmem⟩ := h
  unfold Loops.addNew
  split
  · rename_i hy
    refine ⟨extra, rfl, hnodup, hdisj, ?_⟩
    intro z
    rw [hmem z, ← or_assoc]
    refine (or_iff_left_of_imp ?_).symm
    rintro rfl
    exact (hmem z).mp hy
  · rename_i hy
    rw [List.mem_append, not_or] at hy
    refine ⟨extra ++ [y], List.append_assoc d extra [y], ?_, ?_, ?_⟩
    · rw [← List.concat_eq_append]
      exact hnodup.concat hy.2
    · intro z hz
      rcases List.mem_append.mp hz with hz | hz
      · exact hdisj z hz
      · rw [List.mem_singleton.mp hz]
        exact hy.1
    · intro z
      rw [List.mem_append, hmem z, List.mem_singleton, or_assoc]

theorem Grown.addAll (h : Grown d l New) (ys : List α) :
    Grown d (ys.foldl Loops.addNew l) fun z => New z ∨ z ∈ ys := by
  induction ys generalizing l New with
  | nil =>
    apply h.congr
    intro z
    rw [List.mem_nil_iff, or_false]
  | cons y ys ih =>
    apply (ih (h.addNew y)).congr
    intro z
    rw [List.mem_cons, or_assoc]

/-- Only `d` itself can hold an element twice. -/
theorem Grown.count (h : Grown d l New) (hy : y ∈ l) : l.count y = max 1 (d.count y) := by
  obtain ⟨extra, rfl, hnodup, hdisj, _⟩ := h
  rw [List.count_append]
  by_cases hd : y ∈ d
  · have hextra : y ∉ extra := fun h => hdisj y h hd
    rw [List.count_eq_zero_of_not_mem hextra, Nat.add_zero]
    have hpos := List.one_le_count_iff.mpr hd
    omega
  · have hextra : y ∈ extra := (List.mem_append.mp hy).resolve_left hd
    rw [List.count_eq_zero_of_not_mem hd, List.count_eq_one_of_mem hnodup hextra]
    rfl

end Loops

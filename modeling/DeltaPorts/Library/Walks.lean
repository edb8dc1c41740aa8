import DeltaPorts.Library.Script

/-!
# What a script does from one state to the next

`Walks P m R Q` says that from a state of `P` the states of the script follow one another by
`R`, up to the state it ends in, which is in `Q`. With a transitive `R`, every state is related
to every later one.
-/

set_option autoImplicit false

variable {σ α β : Type}

/-- The states follow `s` by `R`, and the last of them is `u`. -/
def Trail (R : σ → σ → Prop) (s : σ) : List σ → σ → Prop
  | [], u => u = s
  | v :: vs, u => R s v ∧ Trail R v vs u

namespace Trail

variable {R R' : σ → σ → Prop} {s v u : σ} {vs ws : List σ}

theorem append (h : Trail R s vs v) (h' : Trail R v ws u) : Trail R s (vs ++ ws) u := by
  induction vs generalizing s with
  | nil =>
    cases h
    exact h'
  | cons w vs ih => exact ⟨h.1, ih h.2⟩

theorem mono (hR : ∀ s u, R s u → R' s u) (h : Trail R s vs u) : Trail R' s vs u := by
  induction vs generalizing s with
  | nil => exact h
  | cons w vs ih => exact ⟨hR s w h.1, ih h.2⟩

theorem getLast (h : Trail R s vs u) : vs.getLast?.getD s = u := by
  induction vs generalizing s with
  | nil => exact h.symm
  | cons w vs ih =>
    rw [List.getLast?_cons, Option.getD_some]
    exact ih h.2

theorem take (h : Trail R s vs u) (n : Nat) : ∃ v, Trail R s (vs.take n) v := by
  induction n generalizing s vs with
  | zero => exact ⟨s, rfl⟩
  | succ n ih =>
    cases vs with
    | nil => exact ⟨s, rfl⟩
    | cons w vs =>
      obtain ⟨v, hv⟩ := ih h.2
      exact ⟨v, h.1, hv⟩

theorem rel (hrefl : ∀ s, R s s) (htrans : ∀ {s v u}, R s v → R v u → R s u)
    (h : Trail R s vs u) : R s u := by
  induction vs generalizing s with
  | nil =>
    cases h
    exact hrefl u
  | cons w vs ih => exact htrans h.1 (ih h.2)

theorem pairwise (htrans : ∀ {s v u}, R s v → R v u → R s u) (h : Trail R s vs u) :
    (s :: vs).Pairwise R := by
  induction vs generalizing s with
  | nil => exact List.pairwise_singleton R s
  | cons w vs ih =>
    have htail := ih h.2
    refine List.pairwise_cons.mpr ⟨?_, htail⟩
    intro x hx
    rcases List.mem_cons.mp hx with rfl | hx
    · exact h.1
    · exact htrans h.1 ((List.pairwise_cons.mp htail).1 x hx)

end Trail

namespace Script

def Walks (P : σ → Prop) (m : Script σ α) (R : σ → σ → Prop) (Q : α → σ → Prop) : Prop :=
  ∀ s, P s → Trail R s (m s).trace (m s).state ∧ Q (m s).value (m s).state

variable {P P' : σ → Prop} {R R' : σ → σ → Prop} {Q Q' : α → σ → Prop}

theorem Walks.pure {a : α} (h : ∀ s, P s → Q a s) : Walks P (pure a) R Q :=
  fun s hs => ⟨rfl, h s hs⟩

theorem Walks.bind {m : Script σ β} {k : β → Script σ α} {J : β → σ → Prop}
    (hm : Walks P m R J) (hk : ∀ b, Walks (J b) (k b) R Q) : Walks P (m >>= k) R Q := by
  intro s hs
  obtain ⟨hmpath, hmend⟩ := hm s hs
  obtain ⟨hkpath, hkend⟩ := hk _ _ hmend
  exact ⟨hmpath.append hkpath, hkend⟩

theorem Walks.cmd {f : σ → σ} {Q : Unit → σ → Prop} (h : ∀ s, P s → R s (f s) ∧ Q () (f s)) :
    Walks P (cmd f) R Q := fun s hs => ⟨⟨(h s hs).1, rfl⟩, (h s hs).2⟩

theorem Walks.read {f : σ → α} (h : ∀ s, P s → Q (f s) s) : Walks P (read f) R Q :=
  fun s hs => ⟨rfl, h s hs⟩

theorem Walks.weaken {m : Script σ α} (h : Walks P m R Q) (hP : ∀ s, P' s → P s)
    (hR : ∀ s u, R s u → R' s u) (hQ : ∀ a s, Q a s → Q' a s) : Walks P' m R' Q' := by
  intro s hs
  obtain ⟨hpath, hend⟩ := h s (hP s hs)
  exact ⟨hpath.mono hR, hQ _ _ hend⟩

/-- A specification that speaks of the state that the script begins in. -/
theorem Walks.from {m : Script σ α} (h : ∀ s, P s → Walks (· = s) m R Q) : Walks P m R Q :=
  fun s hs => h s hs s rfl

theorem Walks.ite {c : Prop} [Decidable c] {m m' : Script σ α} (ht : c → Walks P m R Q)
    (hf : ¬ c → Walks P m' R Q) : Walks P (if c then m else m') R Q := by
  split
  · exact ht ‹c›
  · exact hf ‹¬ c›

/-- With a transitive relation, the end is related to the beginning. -/
theorem Walks.ends (hrefl : ∀ s, R s s) (htrans : ∀ {s v u}, R s v → R v u → R s u)
    {m : Script σ α} {s : σ} (h : Walks (· = s) m R Q) :
    Walks (· = s) m R fun a u => R s u ∧ Q a u := by
  rintro v rfl
  obtain ⟨hpath, hend⟩ := h v rfl
  exact ⟨hpath, hpath.rel hrefl htrans, hend⟩

/-- What is known of the end by another specification. -/
theorem Walks.also {C : σ → Prop} {m : Script σ α} (h : Walks P m R Q) (h' : Holds P m C Q') :
    Walks P m R fun a u => Q a u ∧ Q' a u :=
  fun s hs => ⟨(h s hs).1, (h s hs).2, (h' s hs).2⟩

theorem Walks.bindRead {f : σ → α} {k : α → Script σ β} {Q : β → σ → Prop}
    (h : ∀ s, P s → Walks (· = s) (k (f s)) R Q) : Walks P (Script.read f >>= k) R Q :=
  fun s hs => h s hs s rfl

theorem Walks.bindCmd {f : σ → σ} {k : Unit → Script σ β} {J : σ → Prop} {Q : β → σ → Prop}
    (hf : ∀ s, P s → R s (f s) ∧ J (f s)) (hk : Walks J (k ()) R Q) :
    Walks P (Script.cmd f >>= k) R Q :=
  Walks.bind (J := fun _ => J) (Walks.cmd hf) fun _ => hk

theorem Walks.orFail {m rest : Script σ Bool} {J : σ → Prop} {Q : Bool → σ → Prop}
    (hm : Walks P m R fun ok s => if ok then J s else Q false s) (hrest : Walks J rest R Q) :
    Walks P (orFail m rest) R Q := by
  refine Walks.bind hm fun ok => ?_
  cases ok with
  | false => exact Walks.pure fun s hs => hs
  | true => exact hrest

/-- A loop walks as its bodies do. -/
theorem Walks.forLines (xs : List β) (body : β → Script σ Unit)
    (h : ∀ x ∈ xs, Walks P (body x) R fun _ => P) : Walks P (Script.forLines xs body) R fun _ => P := by
  induction xs with
  | nil => exact Walks.pure fun s hs => hs
  | cons x xs ih =>
    refine Walks.bind (h x List.mem_cons_self) fun _ => ?_
    exact ih fun y hy => h y (List.mem_cons_of_mem x hy)

theorem Walks.allLines (xs : List β) (body : β → Script σ Bool)
    (h : ∀ x ∈ xs, Walks P (body x) R fun _ => P) : Walks P (Script.allLines xs body) R fun _ => P := by
  induction xs with
  | nil => exact Walks.pure fun s hs => hs
  | cons x xs ih =>
    refine Walks.bind (h x List.mem_cons_self) fun ok => ?_
    cases ok with
    | false => exact Walks.pure fun s hs => hs
    | true => exact ih fun y hy => h y (List.mem_cons_of_mem x hy)

theorem Walks.anyLine (xs : List β) (body : β → Script σ Bool) {K : σ → Prop}
    (h : ∀ x ∈ xs, Walks P (body x) R fun ok s => if ok then K s else P s) :
    Walks P (Script.anyLine xs body) R fun ok s => if ok then K s else P s := by
  induction xs with
  | nil => exact Walks.pure fun s hs => hs
  | cons x xs ih =>
    refine Walks.bind (h x List.mem_cons_self) fun ok => ?_
    cases ok with
    | true => exact Walks.pure fun s hs => hs
    | false => exact ih fun y hy => h y (List.mem_cons_of_mem x hy)

end Script

import Mathlib.Data.List.Basic

/-!
# Scripts that can be interrupted

A script is a sequence of commands on a state. It gives its value, the state it ends in, and
the states in between, in which an interruption between two commands leaves the system.
`Holds P m C Q` says that from a state of `P` every state in between is in `C` and the script
ends in `Q`.
-/

set_option autoImplicit false

variable {σ α β γ : Type}

structure Outcome (σ α : Type) where
  trace : List σ
  value : α
  state : σ

/-- The value and the state at the end. -/
def Outcome.result (o : Outcome σ α) : α × σ := (o.value, o.state)

def Script (σ α : Type) : Type := σ → Outcome σ α

namespace Script

instance : Monad (Script σ) where
  pure a := fun s => ⟨[], a, s⟩
  bind m k := fun s =>
    let r := m s
    let r' := k r.value r.state
    ⟨r.trace ++ r'.trace, r'.value, r'.state⟩

/-- A command that changes the state. -/
def cmd (f : σ → σ) : Script σ Unit := fun s => ⟨[f s], (), f s⟩

/-- A test or a substitution, which reads the state. -/
def read (f : σ → α) : Script σ α := fun s => ⟨[], f s, s⟩

/-- A loop over the lines of a list. -/
def forLines (xs : List β) (body : β → Script σ Unit) : Script σ Unit :=
  match xs with
  | [] => pure ()
  | x :: xs => do
    body x
    forLines xs body

/-- `m || return 1`, and then the rest. -/
def orFail (m rest : Script σ Bool) : Script σ Bool := do
  if ← m then rest else pure false

/-- A loop that stops at the first line whose body fails. -/
def allLines (xs : List β) (body : β → Script σ Bool) : Script σ Bool :=
  match xs with
  | [] => pure true
  | x :: xs => orFail (body x) (allLines xs body)

/-- A loop that stops at the first line whose body succeeds. -/
def anyLine (xs : List β) (body : β → Script σ Bool) : Script σ Bool :=
  match xs with
  | [] => pure false
  | x :: xs => do
    if ← body x then pure true else anyLine xs body

theorem orFail_result_true {m rest : Script σ Bool} {s u : σ} (h : (m s).result = (true, u)) :
    (orFail m rest s).result = (rest u).result := by
  obtain ⟨hvalue, hstate⟩ := Prod.mk.inj h
  unfold orFail
  simp only [bind, hvalue, hstate, if_true]
  rfl

theorem orFail_result_false {m rest : Script σ Bool} {s u : σ} (h : (m s).result = (false, u)) :
    (orFail m rest s).result = (false, u) := by
  obtain ⟨hvalue, hstate⟩ := Prod.mk.inj h
  unfold orFail
  simp only [bind, hvalue, hstate, Bool.false_eq_true, if_false]
  rfl

theorem anyLine_result_true {x : β} {xs : List β} {body : β → Script σ Bool} {s u : σ}
    (h : (body x s).result = (true, u)) : (anyLine (x :: xs) body s).result = (true, u) := by
  obtain ⟨hvalue, hstate⟩ := Prod.mk.inj h
  unfold anyLine
  simp only [bind, hvalue, hstate, if_true]
  rfl

theorem anyLine_result_false {x : β} {xs : List β} {body : β → Script σ Bool} {s u : σ}
    (h : (body x s).result = (false, u)) :
    (anyLine (x :: xs) body s).result = (anyLine xs body u).result := by
  obtain ⟨hvalue, hstate⟩ := Prod.mk.inj h
  conv_lhs => unfold anyLine
  simp only [bind, hvalue, hstate, Bool.false_eq_true, if_false]
  rfl

theorem anyLine_map {xs : List β} (f : β → γ) (body : γ → Script σ Bool) :
    anyLine (xs.map f) body = anyLine xs fun x => body (f x) := by
  induction xs with
  | nil => rfl
  | cons x xs ih =>
    rw [List.map_cons]
    unfold anyLine
    rw [ih]

def Holds (P : σ → Prop) (m : Script σ α) (C : σ → Prop) (Q : α → σ → Prop) : Prop :=
  ∀ s, P s → (∀ u ∈ (m s).trace, C u) ∧ Q (m s).value (m s).state

variable {P P' C C' I : σ → Prop} {Q Q' R : α → σ → Prop}

theorem Holds.pure {a : α} (h : ∀ s, P s → Q a s) : Holds P (pure a) C Q := by
  intro s hs
  refine ⟨?_, h s hs⟩
  intro u hu
  cases hu

theorem Holds.bind {m : Script σ β} {k : β → Script σ α} {R : β → σ → Prop}
    (hm : Holds P m C R) (hk : ∀ b, Holds (R b) (k b) C Q) : Holds P (m >>= k) C Q := by
  intro s hs
  obtain ⟨hmtrace, hmend⟩ := hm s hs
  obtain ⟨hktrace, hkend⟩ := hk _ _ hmend
  refine ⟨?_, hkend⟩
  intro u hu
  rcases List.mem_append.mp hu with hu | hu
  · exact hmtrace u hu
  · exact hktrace u hu

theorem Holds.cmd {f : σ → σ} {Q : Unit → σ → Prop} (h : ∀ s, P s → C (f s) ∧ Q () (f s)) :
    Holds P (cmd f) C Q := by
  intro s hs
  refine ⟨?_, (h s hs).2⟩
  intro u hu
  rw [List.mem_singleton.mp hu]
  exact (h s hs).1

theorem Holds.read {f : σ → α} (h : ∀ s, P s → Q (f s) s) : Holds P (read f) C Q := by
  intro s hs
  refine ⟨?_, h s hs⟩
  intro u hu
  cases hu

theorem Holds.weaken {m : Script σ α} (h : Holds P m C Q) (hP : ∀ s, P' s → P s)
    (hC : ∀ s, C s → C' s) (hQ : ∀ a s, Q a s → Q' a s) : Holds P' m C' Q' := by
  intro s hs
  obtain ⟨htrace, hend⟩ := h s (hP s hs)
  exact ⟨fun u hu => hC u (htrace u hu), hQ _ _ hend⟩

/-- A specification that speaks of the state that the script begins in. -/
theorem Holds.from {m : Script σ α} (h : ∀ s, P s → Holds (· = s) m C Q) : Holds P m C Q :=
  fun s hs => h s hs s rfl

/-- The command at the head of a script, from a known state. -/
theorem Holds.bindRead {s : σ} {f : σ → α} {k : α → Script σ β} {Q : β → σ → Prop}
    (h : Holds (· = s) (k (f s)) C Q) : Holds (· = s) (Script.read f >>= k) C Q := by
  rintro u rfl
  exact h u rfl

theorem Holds.bindCmd {s : σ} {f : σ → σ} {k : Unit → Script σ β} {Q : β → σ → Prop} (hC : C (f s))
    (h : Holds (· = f s) (k ()) C Q) : Holds (· = s) (Script.cmd f >>= k) C Q := by
  rintro u rfl
  obtain ⟨htrace, hend⟩ := h (f u) rfl
  refine ⟨?_, hend⟩
  intro w hw
  rcases List.mem_cons.mp hw with rfl | hw
  · exact hC
  · exact htrace w hw

theorem Holds.pureAt {s : σ} {a : α} (h : Q a s) : Holds (· = s) (Pure.pure a) C Q :=
  Holds.pure fun _ hs => hs ▸ h

theorem Holds.cmdAt {s : σ} {f : σ → σ} {Q : Unit → σ → Prop} (hC : C (f s)) (h : Q () (f s)) :
    Holds (· = s) (Script.cmd f) C Q := by
  refine Holds.cmd ?_
  rintro u rfl
  exact ⟨hC, h⟩

theorem Holds.ite {c : Prop} [Decidable c] {m m' : Script σ α} (ht : c → Holds P m C Q)
    (hf : ¬ c → Holds P m' C Q) : Holds P (if c then m else m') C Q := by
  split
  · exact ht ‹c›
  · exact hf ‹¬ c›

theorem Holds.orFail {m rest : Script σ Bool} {J K F : σ → Prop}
    (hm : Holds P m C fun ok s => if ok then J s else F s)
    (hrest : Holds J rest C fun ok s => if ok then K s else F s) :
    Holds P (orFail m rest) C fun ok s => if ok then K s else F s := by
  refine Holds.bind hm fun ok => ?_
  cases ok with
  | false => exact Holds.pure fun s hs => hs
  | true => exact hrest

theorem Holds.orFailRead {s : σ} {f : σ → Bool} {rest : Script σ Bool} {Q : Bool → σ → Prop}
    (hfail : Q false s) (hrest : f s = true → Holds (· = s) rest C Q) :
    Holds (· = s) (Script.orFail (Script.read f) rest) C Q := by
  apply Holds.bindRead
  refine Holds.ite (fun hf => ?_) fun _ => Holds.pureAt hfail
  exact hrest hf

/-- What a loop has done when all of its bodies have succeeded. -/
theorem Holds.allLines (xs : List β) (body : β → Script σ Bool) {J : List β → σ → Prop}
    {F : σ → Prop} (done : List β)
    (h : ∀ done, ∀ x ∈ xs, Holds (J done) (body x) C fun ok s =>
      if ok then J (done ++ [x]) s else F s) :
    Holds (J done) (allLines xs body) C fun ok s => if ok then J (done ++ xs) s else F s := by
  induction xs generalizing done with
  | nil =>
    refine Holds.pure fun s hs => ?_
    rw [List.append_nil]
    exact hs
  | cons x xs ih =>
    refine Holds.orFail (h done x List.mem_cons_self) ?_
    have htail := ih (done ++ [x]) fun d y hy => h d y (List.mem_cons_of_mem x hy)
    rw [List.append_assoc, List.singleton_append] at htail
    exact htail

/-- What a loop has done when all of its lines have been worked off. -/
theorem Holds.forLinesDone (xs : List β) (body : β → Script σ Unit) {J : List β → σ → Prop}
    (done : List β) (h : ∀ done, ∀ x ∈ xs, Holds (J done) (body x) C fun _ => J (done ++ [x])) :
    Holds (J done) (Script.forLines xs body) C fun _ => J (done ++ xs) := by
  induction xs generalizing done with
  | nil =>
    refine Holds.pure fun s hs => ?_
    rw [List.append_nil]
    exact hs
  | cons x xs ih =>
    refine Holds.bind (h done x List.mem_cons_self) fun _ => ?_
    have htail := ih (done ++ [x]) fun d y hy => h d y (List.mem_cons_of_mem x hy)
    rw [List.append_assoc, List.singleton_append] at htail
    exact htail

end Script

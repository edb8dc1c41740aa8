import DeltaPorts.MakeIndex.Ports
import Mathlib.Data.Finset.Card
import Mathlib.Data.Finset.Range
import Mathlib.Logic.Relation

/-!
# What the recursion makes of the lists

`direct p k` are the dependencies that the line of `p` names. The recursion adds to them what
they need to run.
-/

set_option autoImplicit false

namespace DeltaPorts.MakeIndex

open Loops Relation

variable (direct : Nat → Kind → List Nat)

def DependsOn (p q : Nat) : Prop := ∃ k, q ∈ direct p k

def Runs (p q : Nat) : Prop := q ∈ direct p .rdep

/-- A dependency that the line names, or one that such a dependency needs to run. -/
def InColumn (p : Nat) (k : Kind) (q : Nat) : Prop :=
  q ∈ direct p k ∨ ∃ x ∈ direct p k, TransGen (Runs direct) x q

def Closed (p : Nat) (k : Kind) (d : List Nat) : Prop :=
  Grown (direct p k) d fun q => ∃ x ∈ direct p k, TransGen (Runs direct) x q

structure Inv (m : Memory) : Prop where
  fresh : ∀ p, m.recursed p = .fresh → m.dep p = direct p
  done : ∀ p k, m.recursed p = .done → Closed direct p k (m.dep p k)

/-- Ports that the recursion has come to stay as they are. -/
structure Kept (m m' : Memory) : Prop where
  recursed : ∀ q, m.recursed q ≠ .fresh → m'.recursed q = m.recursed q
  dep : ∀ q, m.recursed q ≠ .fresh → m'.dep q = m.dep q

/-- The two states round a loop or a call that has ended. -/
structure Between (m m' : Memory) : Prop where
  inv : Inv direct m'
  kept : Kept m m'
  inProgress : ∀ q, m'.recursed q = .inProgress → m.recursed q = .inProgress

variable {direct} {m m' m'' : Memory} {p q n : Nat} {k : Kind} {d : List Nat}

theorem Closed.mem_rdep_iff (h : Closed direct p .rdep d) :
    q ∈ d ↔ TransGen (Runs direct) p q := by
  rw [h.mem_iff, TransGen.head'_iff]
  simp only [reflTransGen_iff_eq_or_transGen]
  constructor
  · intro hq
    rcases hq with hq | ⟨x, hx, hxq⟩
    · exact ⟨q, hq, Or.inl rfl⟩
    · exact ⟨x, hx, Or.inr hxq⟩
  · intro hq
    obtain ⟨x, hx, heq | hxq⟩ := hq
    · subst heq
      exact Or.inl hx
    · exact Or.inr ⟨x, hx, hxq⟩

theorem Kept.trans (h : Kept m m') (h' : Kept m' m'') : Kept m m'' := by
  constructor
  · intro q hq
    rw [h'.recursed q, h.recursed q hq]
    rw [h.recursed q hq]
    exact hq
  · intro q hq
    rw [h'.dep q, h.dep q hq]
    rw [h.recursed q hq]
    exact hq

theorem Between.refl (h : Inv direct m) : Between direct m m :=
  ⟨h, ⟨fun _ _ => rfl, fun _ _ => rfl⟩, fun _ hq => hq⟩

theorem Between.trans (h : Between direct m m') (h' : Between direct m' m'') :
    Between direct m m'' :=
  ⟨h'.inv, h.kept.trans h'.kept, fun q hq => h.inProgress q (h'.inProgress q hq)⟩

theorem inProgress_ne_fresh : Recursed.inProgress ≠ Recursed.fresh := nofun

theorem done_ne_fresh : Recursed.done ≠ Recursed.fresh := nofun

theorem mark_self (m : Memory) (p : Nat) (r : Recursed) : (m.mark p r).recursed p = r := by
  simp [Memory.mark]

theorem mark_of_ne (m : Memory) (r : Recursed) (h : q ≠ p) :
    (m.mark p r).recursed q = m.recursed q := by
  simp [Memory.mark, h]

theorem of_mark {r r' : Recursed} (hq : (m.mark p r).recursed q = r') (hne : r ≠ r') :
    q ≠ p ∧ m.recursed q = r' := by
  have hqp : q ≠ p := by
    rintro rfl
    rw [mark_self] at hq
    exact hne hq
  rw [mark_of_ne m r hqp] at hq
  exact ⟨hqp, hq⟩

theorem ne_of_not_fresh (hfresh : m.recursed p = .fresh) (hq : m.recursed q ≠ .fresh) : q ≠ p := by
  rintro rfl
  exact hq hfresh

theorem setDep_self (m : Memory) (p : Nat) (k : Kind) (d : List Nat) :
    (m.setDep p k d).dep p = Function.update (m.dep p) k d := Function.update_self p _ m.dep

theorem setDep_of_ne (m : Memory) (k : Kind) (d : List Nat) (h : q ≠ p) :
    (m.setDep p k d).dep q = m.dep q := Function.update_of_ne h _ m.dep

def freshPorts (n : Nat) (m : Memory) : Finset Nat :=
  (Finset.range n).filter fun p => m.recursed p = .fresh

theorem freshPorts_lt (h : Kept m m') (hp : p < n) (hfresh : m.recursed p = .fresh)
    (hnot : m'.recursed p ≠ .fresh) : (freshPorts n m').card < (freshPorts n m).card := by
  apply Finset.card_lt_card
  refine Finset.ssubset_iff_of_subset ?_ |>.mpr ⟨p, ?_, ?_⟩
  · intro q hq
    unfold freshPorts at hq ⊢
    rw [Finset.mem_filter] at hq ⊢
    refine ⟨hq.1, ?_⟩
    by_contra hne
    rw [h.recursed q hne] at hq
    exact hne hq.2
  · exact Finset.mem_filter.mpr ⟨Finset.mem_range.mpr hp, hfresh⟩
  · intro hmem
    exact hnot (Finset.mem_filter.mp hmem).2

/-- Only finitely long chains of dependencies go on from the ports that are done. -/
def Grounded (direct : Nat → Kind → List Nat) (m : Memory) : Prop :=
  ∀ p, m.recursed p = .done → Acc (fun y x => DependsOn direct x y) p

theorem Kept.done (h : Kept m m') (hq : m.recursed q = .done) : m'.recursed q = .done := by
  rw [h.recursed q (hq.trans_ne done_ne_fresh), hq]

/-- A call that has ended without an error. -/
structure Called (direct : Nat → Kind → List Nat) (u : Memory) (x : Nat) (u' : Memory) : Prop where
  between : Between direct u u'
  grounded : Grounded direct u'
  done : u'.recursed x = .done

/-- The calls for the elements of a list are specified by `hcall`. -/
theorem recurseOne_cases {call : Nat → Memory → Except Failure Memory} {d : List Nat}
    {E : Failure → Prop} (hinv : Inv direct m) (hground : Grounded direct m)
    (hcall : ∀ x ∈ d, ∀ u, Between direct m u → Grounded direct u →
      (∃ e, call x u = .error e ∧ E e) ∨ ∃ u', call x u = .ok u' ∧ Called direct u x u') :
    (∃ e, recurseOne call d m = .error e ∧ E e) ∨
      ∃ s, recurseOne call d m = .ok s ∧ Between direct m s.2 ∧ Grounded direct s.2 ∧
        (Grown d s.1 fun q => ∃ x ∈ d, TransGen (Runs direct) x q) ∧
        ∀ x ∈ d, s.2.recursed x = .done := by
  unfold recurseOne
  apply foldlM_cases (P := fun (done : List Nat) (s : List Nat × Memory) =>
    Between direct m s.2 ∧ Grounded direct s.2 ∧
      (Grown d s.1 fun q => ∃ x ∈ done, TransGen (Runs direct) x q) ∧
      ∀ x ∈ done, s.2.recursed x = .done)
  · refine ⟨.refl hinv, hground, (Grown.start d).congr ?_, fun x hx => absurd hx List.not_mem_nil⟩
    intro q
    simp
  · intro done x rest s hsplit hs
    obtain ⟨hbetween, hground, hgrown, hdone⟩ := hs
    have hx : x ∈ d := by
      rw [← hsplit]
      exact List.mem_append_right done List.mem_cons_self
    rcases hcall x hx s.2 hbetween hground with ⟨e, he, hE⟩ | ⟨u, hu, hcalled⟩
    · rw [he]
      exact .inl ⟨e, rfl, hE⟩
    · rw [hu]
      refine .inr ⟨_, rfl, hbetween.trans hcalled.between, hcalled.grounded,
        (hgrown.addAll _).congr ?_, ?_⟩
      · intro q
        rw [(hcalled.between.inv.done x .rdep hcalled.done).mem_rdep_iff]
        simp only [List.mem_append, List.mem_singleton, or_and_right, exists_or, exists_eq_left]
      · intro y hy
        rcases List.mem_append.mp hy with hy | hy
        · exact hcalled.between.kept.done (hdone y hy)
        · rw [List.mem_singleton.mp hy]
          exact hcalled.done

/-- The lists of the port in progress that are `done`, in the middle of the call that began
with `m`. -/
structure Filling (direct : Nat → Kind → List Nat) (m : Memory) (p : Nat) (done : List Kind)
    (u : Memory) : Prop where
  inv : Inv direct u
  kept : Kept m u
  inProgress : ∀ q, u.recursed q = .inProgress → q = p ∨ m.recursed q = .inProgress
  self : u.recursed p = .inProgress
  filled : ∀ k ∈ done, Closed direct p k (u.dep p k)
  rest : ∀ k, k ∉ done → u.dep p k = direct p k

theorem filling_mark (hinv : Inv direct m) (hfresh : m.recursed p = .fresh) :
    Filling direct m p [] (m.mark p .inProgress) := by
  constructor
  · constructor
    · intro q hq
      exact hinv.fresh q (of_mark hq nofun).2
    · intro q k hq
      exact hinv.done q k (of_mark hq nofun).2
  · exact ⟨fun q hq => mark_of_ne m _ (ne_of_not_fresh hfresh hq), fun _ _ => rfl⟩
  · intro q hq
    by_cases hqp : q = p
    · exact Or.inl hqp
    · rw [mark_of_ne m _ hqp] at hq
      exact Or.inr hq
  · exact mark_self m p _
  · exact fun k hk => absurd hk List.not_mem_nil
  · exact fun k _ => congrFun (hinv.fresh p hfresh) k

theorem Filling.setDep {done : List Kind} {u u' : Memory} (h : Filling direct m p done u)
    (hfresh : m.recursed p = .fresh) (hbetween : Between direct u u')
    (hclosed : Closed direct p k d) : Filling direct m p (done ++ [k]) (u'.setDep p k d) := by
  have hself : u'.recursed p = .inProgress := by
    rw [hbetween.kept.recursed p, h.self]
    rw [h.self]
    exact inProgress_ne_fresh
  have hdep : u'.dep p = u.dep p := by
    apply hbetween.kept.dep p
    rw [h.self]
    exact inProgress_ne_fresh
  have hne : ∀ {q} {r : Recursed}, r ≠ .inProgress → u'.recursed q = r → q ≠ p := by
    rintro q r hr hq rfl
    exact hr (hq.symm.trans hself)
  have hkept := h.kept.trans hbetween.kept
  constructor
  · constructor
    · intro q hq
      rw [setDep_of_ne u' k d (hne (r := .fresh) nofun hq)]
      exact hbetween.inv.fresh q hq
    · intro q k' hq
      rw [setDep_of_ne u' k d (hne (r := .done) nofun hq)]
      exact hbetween.inv.done q k' hq
  · refine ⟨hkept.recursed, ?_⟩
    intro q hq
    rw [setDep_of_ne u' k d (ne_of_not_fresh hfresh hq)]
    exact hkept.dep q hq
  · exact fun q hq => h.inProgress q (hbetween.inProgress q hq)
  · exact hself
  · intro k' hk'
    rw [setDep_self]
    by_cases hkk : k' = k
    · rw [hkk, Function.update_self]
      exact hclosed
    · rw [Function.update_of_ne hkk, hdep]
      apply h.filled k'
      exact (List.mem_append.mp hk').resolve_right fun hmem => hkk (List.mem_singleton.mp hmem)
  · intro k' hk'
    rw [List.mem_append, not_or, List.mem_singleton] at hk'
    rw [setDep_self, Function.update_of_ne hk'.2, hdep]
    exact h.rest k' hk'.1

theorem Filling.mark_done {u : Memory} (h : Filling direct m p Kind.all u)
    (hfresh : m.recursed p = .fresh) : Between direct m (u.mark p .done) := by
  constructor
  · constructor
    · intro q hq
      exact h.inv.fresh q (of_mark hq nofun).2
    · intro q k hq
      by_cases hqp : q = p
      · subst hqp
        apply h.filled k
        cases k <;> decide
      · rw [mark_of_ne u _ hqp] at hq
        exact h.inv.done q k hq
  · refine ⟨?_, h.kept.dep⟩
    intro q hq
    rw [mark_of_ne u _ (ne_of_not_fresh hfresh hq)]
    exact h.kept.recursed q hq
  · intro q hq
    obtain ⟨hqp, hqu⟩ := of_mark hq nofun
    exact (h.inProgress q hqu).resolve_left hqp

theorem Grounded.mark_inProgress (h : Grounded direct m) (p : Nat) :
    Grounded direct (m.mark p .inProgress) := by
  intro q hq
  exact h q (of_mark hq nofun).2

/-- A port whose dependencies are done can be marked. -/
theorem Grounded.mark_done {u : Memory} (h : Grounded direct u)
    (hdone : ∀ k, ∀ x ∈ direct p k, u.recursed x = .done) : Grounded direct (u.mark p .done) := by
  have hp : Acc (fun y x => DependsOn direct x y) p := by
    constructor
    rintro x ⟨k, hx⟩
    exact h x (hdone k x hx)
  intro q hq
  by_cases hqp : q = p
  · rw [hqp]
    exact hp
  · rw [mark_of_ne u _ hqp] at hq
    exact h q hq

/-- The loop over the lists of a port whose calls are specified by `hcall`. -/
theorem recurseKinds_cases {call : Nat → Memory → Except Failure Memory} {E : Failure → Prop}
    (hinv : Inv direct m) (hground : Grounded direct m) (hfresh : m.recursed p = .fresh)
    (hcall : ∀ k, ∀ x ∈ direct p k, ∀ done u, Filling direct m p done u →
      ∀ v, Between direct u v → Grounded direct v →
        (∃ e, call x v = .error e ∧ E e) ∨ ∃ v', call x v = .ok v' ∧ Called direct v x v') :
    (∃ e, Kind.all.foldlM (recurseKind call p) (m.mark p .inProgress) = .error e ∧ E e) ∨
      ∃ u, Kind.all.foldlM (recurseKind call p) (m.mark p .inProgress) = .ok u ∧
        Filling direct m p Kind.all u ∧ Grounded direct u ∧
        ∀ k ∈ Kind.all, ∀ x ∈ direct p k, u.recursed x = .done := by
  apply foldlM_cases (P := fun (done : List Kind) (u : Memory) => Filling direct m p done u ∧
    Grounded direct u ∧ ∀ k ∈ done, ∀ x ∈ direct p k, u.recursed x = .done)
  · exact ⟨filling_mark hinv hfresh, hground.mark_inProgress p,
      fun k hk => absurd hk List.not_mem_nil⟩
  · intro done k rest u hsplit hu
    obtain ⟨hu, hgroundu, hdoneu⟩ := hu
    have hk : k ∉ done := by
      have hnodup : (done ++ k :: rest).Nodup := by
        rw [hsplit]
        decide
      intro hmem
      exact (List.nodup_append.mp hnodup).2.2 k hmem k List.mem_cons_self rfl
    unfold recurseKind
    rw [hu.rest k hk]
    rcases recurseOne_cases hu.inv hgroundu fun x hx => hcall k x hx done u hu with
      ⟨e, he, hE⟩ | ⟨⟨d, v⟩, hone, hbetween, hgroundv, hgrown, hdonev⟩
    · rw [he]
      exact .inl ⟨e, rfl, hE⟩
    · rw [hone]
      refine .inr ⟨_, rfl, hu.setDep hfresh hbetween hgrown, hgroundv, ?_⟩
      intro k' hk' x hx
      rcases List.mem_append.mp hk' with hk' | hk'
      · exact hbetween.kept.done (hdoneu k' hk' x hx)
      · rw [List.mem_singleton.mp hk'] at hx
        exact hdonev x hx

section Recursion

variable (ports : Nat → Port)

/-- The error of a port that depends upon itself, when it does. -/
def Circular (direct : Nat → Kind → List Nat) (e : Failure) : Prop :=
  ∃ q, e = .errx (bytes "Circular dependency loop found: " ++ (ports q).pkgname ++
    bytes " depends upon itself.\n") ∧ TransGen (DependsOn direct) q q

variable (hbound : ∀ p k, ∀ q ∈ direct p k, q < n)

include hbound

/-- The ports in progress are those on the way from the first call to `p`, so that `p` is among
them only on a cycle; every call nested in another starts a port, so that the fuel lasts. -/
theorem recurse_cases {fuel : Nat} (hinv : Inv direct m) (hground : Grounded direct m) (hp : p < n)
    (hfuel : (freshPorts n m).card < fuel)
    (hway : ∀ q, m.recursed q = .inProgress → TransGen (DependsOn direct) q p) :
    (∃ e, recurse ports fuel p m = .error e ∧ Circular ports direct e) ∨
      ∃ m', recurse ports fuel p m = .ok m' ∧ Called direct m p m' := by
  induction fuel generalizing m p with
  | zero => exact absurd hfuel (Nat.not_lt_zero _)
  | succ fuel ih =>
    unfold recurse
    cases hrec : m.recursed p with
    | inProgress => exact .inl ⟨_, rfl, p, rfl, hway p hrec⟩
    | done => exact .inr ⟨m, rfl, .refl hinv, hground, hrec⟩
    | fresh =>
      have hcall : ∀ k, ∀ x ∈ direct p k, ∀ done u, Filling direct m p done u →
          ∀ v, Between direct u v → Grounded direct v →
            (∃ e, recurse ports fuel x v = .error e ∧ Circular ports direct e) ∨
              ∃ v', recurse ports fuel x v = .ok v' ∧ Called direct v x v' := by
        intro k x hx done u hu v hv hgroundv
        have hprogress : u.recursed p ≠ .fresh := hu.self.trans_ne inProgress_ne_fresh
        have hself : v.recursed p ≠ .fresh := by
          rw [hv.kept.recursed p hprogress]
          exact hprogress
        have hless := freshPorts_lt (hu.kept.trans hv.kept) hp hrec hself
        apply ih hv.inv hgroundv (hbound p k x hx) (by omega)
        intro q hq
        rcases hu.inProgress q (hv.inProgress q hq) with rfl | hq
        · exact .single ⟨k, hx⟩
        · exact (hway q hq).tail ⟨k, hx⟩
      have hloop := recurseKinds_cases hinv hground hrec hcall
      rcases hloop with ⟨e, he, hE⟩ | ⟨u, hu, hfilling, hgroundu, hdoneu⟩
      · rw [he]
        exact .inl ⟨e, rfl, hE⟩
      · have hall : ∀ k, k ∈ Kind.all := by
          intro k
          cases k <;> decide
        refine .inr ⟨u.mark p .done, ?_, hfilling.mark_done hrec,
          hgroundu.mark_done fun k => hdoneu k (hall k), mark_self u p _⟩
        simp only [hu]
        rfl

/-- The loop of `main` ends with the closures of chains that end, or with the error. -/
theorem recurse_all_cases {pp : List Nat} (hpp : ∀ p ∈ pp, p < n) {fuel : Nat} (hfuel : n < fuel) :
    (∃ e, pp.foldlM (fun m p => recurse ports fuel p m) ⟨direct, fun _ => .fresh⟩ = .error e ∧
      Circular ports direct e) ∨
    ∃ m, pp.foldlM (fun m p => recurse ports fuel p m) ⟨direct, fun _ => .fresh⟩ = .ok m ∧
      ∀ p ∈ pp, (∀ k, Closed direct p k (m.dep p k)) ∧ Acc (fun y x => DependsOn direct x y) p := by
  have hstart : Inv direct ⟨direct, fun _ => .fresh⟩ := ⟨fun _ _ => rfl, fun _ _ h => nomatch h⟩
  have hloop : (∃ e, pp.foldlM (fun m p => recurse ports fuel p m) ⟨direct, fun _ => .fresh⟩ =
        .error e ∧ Circular ports direct e) ∨
      ∃ m, pp.foldlM (fun m p => recurse ports fuel p m) ⟨direct, fun _ => .fresh⟩ = .ok m ∧
        Between direct ⟨direct, fun _ => .fresh⟩ m ∧ Grounded direct m ∧
        ∀ p ∈ pp, m.recursed p = .done := by
    apply foldlM_cases (P := fun (done : List Nat) (m : Memory) =>
      Between direct ⟨direct, fun _ => .fresh⟩ m ∧ Grounded direct m ∧
        ∀ p ∈ done, m.recursed p = .done)
    · exact ⟨.refl hstart, fun p h => (nomatch h), fun p hp => absurd hp List.not_mem_nil⟩
    · intro done p rest m hsplit hm
      obtain ⟨hbetween, hground, hdone⟩ := hm
      have hp : p < n := by
        apply hpp
        rw [← hsplit]
        exact List.mem_append_right done List.mem_cons_self
      have hcard : (freshPorts n m).card ≤ n :=
        (Finset.card_filter_le _ _).trans (Finset.card_range n).le
      rcases recurse_cases ports hbound hbetween.inv hground hp (hcard.trans_lt hfuel)
        (fun q hq => nomatch hbetween.inProgress q hq) with ⟨e, he, hE⟩ | ⟨m', hm', hcalled⟩
      · exact .inl ⟨e, he, hE⟩
      · refine .inr ⟨m', hm', hbetween.trans hcalled.between, hcalled.grounded, ?_⟩
        intro q hq
        rcases List.mem_append.mp hq with hq | hq
        · exact hcalled.between.kept.done (hdone q hq)
        · rw [List.mem_singleton.mp hq]
          exact hcalled.done
  rcases hloop with herror | ⟨m, hm, hbetween, hground, hdone⟩
  · exact .inl herror
  · refine .inr ⟨m, hm, fun p hp => ⟨fun k => ?_, hground p (hdone p hp)⟩⟩
    exact hbetween.inv.done p k (hdone p hp)

theorem recurse_all (hacyclic : ∀ p, ¬ TransGen (DependsOn direct) p p) {pp : List Nat}
    (hpp : ∀ p ∈ pp, p < n) {fuel : Nat} (hfuel : n < fuel) :
    ∃ m, pp.foldlM (fun m p => recurse ports fuel p m) ⟨direct, fun _ => .fresh⟩ = .ok m ∧
      ∀ p ∈ pp, ∀ k, Closed direct p k (m.dep p k) := by
  rcases recurse_all_cases ports hbound hpp hfuel with ⟨_, _, q, _, hcycle⟩ | ⟨m, hm, hclosed⟩
  · exact absurd hcycle (hacyclic q)
  · exact ⟨m, hm, fun p hp => (hclosed p hp).1⟩

end Recursion

end DeltaPorts.MakeIndex

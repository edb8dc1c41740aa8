import DeltaPorts.MakeIndex.Closure
import DeltaPorts.MakeIndex.Sorting

/-!
# Circular dependencies

The recursion that `main` starts for each port ends, with the error exactly when the dependencies
have a cycle.
-/

set_option autoImplicit false

namespace DeltaPorts.MakeIndex

open Loops Relation

section Fuel

variable (ports : Nat → Port) {call call' : Nat → Memory → Except Failure Memory}

/-- `call'` does what `call` does, if that does not run out of fuel. -/
def Extends (call call' : Nat → Memory → Except Failure Memory) : Prop :=
  ∀ p m, call p m ≠ .error .outOfFuel → call' p m = call p m

theorem Extends.recurseOne (h : Extends call call') {d : List Nat} {m : Memory}
    (hfuel : recurseOne call d m ≠ .error .outOfFuel) :
    MakeIndex.recurseOne call' d m = MakeIndex.recurseOne call d m := by
  apply foldlM_congr_of_ne hfuel
  intro s x hs
  exact bind_congr_of_ne hs (h x s.2)

theorem Extends.recurseKind (h : Extends call call') {p : Nat} {m : Memory} {k : Kind}
    (hfuel : recurseKind call p m k ≠ .error .outOfFuel) :
    MakeIndex.recurseKind call' p m k = MakeIndex.recurseKind call p m k :=
  bind_congr_of_ne hfuel h.recurseOne

theorem recurse_extends (fuel : Nat) : Extends (recurse ports fuel) (recurse ports (fuel + 1)) := by
  induction fuel with
  | zero => exact fun p m hfuel => absurd rfl hfuel
  | succ fuel ih =>
    intro p m hfuel
    unfold recurse at hfuel ⊢
    cases hrec : m.recursed p with
    | inProgress => rfl
    | done => rfl
    | fresh =>
      rw [hrec] at hfuel
      apply bind_congr_of_ne hfuel
      intro hloop
      apply foldlM_congr_of_ne hloop
      exact fun m k hk => ih.recurseKind hk

end Fuel

/-- Step 4 of `main`. -/
def recurseLoop (ports : Nat → Port) (dep : Nat → Kind → List Nat) (fuel : Nat) (pp : List Nat) :
    Except Failure Memory :=
  pp.foldlM (fun m p => recurse ports fuel p m) ⟨dep, fun _ => .fresh⟩

theorem recurseLoop_succ {ports : Nat → Port} {dep : Nat → Kind → List Nat} {fuel : Nat}
    {pp : List Nat} (hfuel : recurseLoop ports dep fuel pp ≠ .error .outOfFuel) :
    recurseLoop ports dep (fuel + 1) pp = recurseLoop ports dep fuel pp := by
  apply foldlM_congr_of_ne hfuel
  exact fun m p hp => recurse_extends ports fuel p m hp

/-- Steps 2 and 3 of `main` for ports whose names are all found. -/
structure Resolved where
  ports : Nat → Port
  pplen : Nat
  dep : Nat → Kind → List Nat
  translated : translateports ports (sortports ports (List.range pplen)) = .ok dep

theorem translateport_ok {ports : Nat → Port} {pp : List Nat} {p : Port} {d : Kind → List Nat}
    (h : translateport ports pp p = .ok d) (k : Kind) :
    (p.names k).mapM (fun name => findport ports pp name p.portdir) = .ok (d k) := by
  unfold translateport at h
  obtain ⟨edep, hedep, h⟩ := bind_ok h
  obtain ⟨pdep, hpdep, h⟩ := bind_ok h
  obtain ⟨fdep, hfdep, h⟩ := bind_ok h
  obtain ⟨bdep, hbdep, h⟩ := bind_ok h
  obtain ⟨rdep, hrdep, h⟩ := bind_ok h
  cases h
  cases k with
  | edep => exact hedep
  | pdep => exact hpdep
  | fdep => exact hfdep
  | bdep => exact hbdep
  | rdep => exact hrdep

theorem translateports_ok {ports : Nat → Port} {pp : List Nat} {dep : Nat → Kind → List Nat}
    (h : translateports ports pp = .ok dep) (p : Nat) (k : Kind) :
    List.Forall₂ (fun name q => findport ports pp name (ports p).portdir = .ok q)
      (if p ∈ pp then (ports p).names k else []) (dep p k) := by
  unfold translateports at h
  have hloop : ∀ p, List.Forall₂ (fun name q => findport ports pp name (ports p).portdir = .ok q)
      (if p ∈ [] ++ pp then (ports p).names k else []) (dep p k) := by
    apply foldlM_keeps (P := fun (done : List Nat) (dep : Nat → Kind → List Nat) =>
      ∀ p, List.Forall₂ (fun name q => findport ports pp name (ports p).portdir = .ok q)
        (if p ∈ done then (ports p).names k else []) (dep p k)) h
    · intro p
      rw [if_neg List.not_mem_nil]
      exact .nil
    · intro done p dep dep' hdone hstep q
      obtain ⟨d, hd, hstep⟩ := bind_ok hstep
      cases hstep
      by_cases hq : q = p
      · subst hq
        rw [Function.update_self, if_pos (List.mem_append_right done List.mem_cons_self)]
        exact mapM_forall₂ (translateport_ok hd k)
      · rw [Function.update_of_ne hq]
        simp only [List.mem_append, List.mem_singleton, hq, or_false]
        exact hdone q
  exact hloop p

namespace Resolved

variable (r : Resolved)

def pp : List Nat := sortports r.ports (List.range r.pplen)

theorem mem_pp {p : Nat} : p ∈ r.pp ↔ p < r.pplen := by
  unfold pp
  rw [(sortports_perm r.ports (List.range r.pplen)).mem_iff, List.mem_range]

/-- The pointers are to ports, of the directories that the port names. -/
theorem found {p q : Nat} {k : Kind} (hq : q ∈ r.dep p k) :
    p < r.pplen ∧ q < r.pplen ∧ (r.ports q).portdir ∈ (r.ports p).names k := by
  have hall := translateports_ok r.translated p k
  by_cases hp : p ∈ sortports r.ports (List.range r.pplen)
  · rw [if_pos hp] at hall
    obtain ⟨name, hname, hfind⟩ := exists_of_forall₂ hall hq
    rcases findport_spec (sortports_ordered (List.range r.pplen)) name (r.ports p).portdir with
      ⟨q', hq', hdir, hok⟩ | ⟨_, herror⟩
    · rw [hok] at hfind
      cases hfind
      rw [hdir]
      exact ⟨r.mem_pp.mp hp, r.mem_pp.mp hq', hname⟩
    · rw [herror] at hfind
      cases hfind
  · rw [if_neg hp] at hall
    rw [List.forall₂_nil_left_iff.mp hall] at hq
    cases hq

theorem bound (p : Nat) (k : Kind) : ∀ q ∈ r.dep p k, q < r.pplen :=
  fun _ hq => (r.found hq).2.1

theorem cycle_bound {p q : Nat} (h : TransGen (DependsOn r.dep) p q) : p < r.pplen := by
  obtain ⟨_, ⟨_, hx⟩, _⟩ := TransGen.head'_iff.mp h
  exact (r.found hx).1

end Resolved

theorem not_cycle_of_acc {α : Type} {R : α → α → Prop} {p : α} (h : Acc (fun y x => R x y) p) :
    ¬ TransGen R p p := by
  induction h with
  | intro p _ ih =>
    intro hcycle
    obtain ⟨x, hpx, hxp⟩ := TransGen.head'_iff.mp hcycle
    exact ih x hpx (TransGen.tail' hxp hpx)

/-- With fuel for one call more than there are ports, the recursion ends; with the error for a
port that is found to depend upon itself if there is one, and else with the lists. -/
theorem circular_iff_cycle (r : Resolved) : ∃ result,
    (∀ fuel > r.pplen, recurseLoop r.ports r.dep fuel r.pp = result) ∧
    ((∃ q, result = .error (.errx (bytes "Circular dependency loop found: " ++
        (r.ports q).pkgname ++ bytes " depends upon itself.\n"))) ↔
      ∃ p, TransGen (DependsOn r.dep) p p) ∧
    ((∃ m, result = .ok m) ↔ ¬ ∃ p, TransGen (DependsOn r.dep) p p) := by
  have hcases {fuel : Nat} (hfuel : r.pplen < fuel) :=
    recurse_all_cases r.ports r.bound (fun p hp => r.mem_pp.mp hp) hfuel
  refine ⟨recurseLoop r.ports r.dep (r.pplen + 1) r.pp, ?_, ?_⟩
  · intro fuel hfuel
    induction fuel, hfuel using Nat.le_induction with
    | base => rfl
    | succ fuel hfuel ih =>
      rw [recurseLoop_succ, ih]
      intro hout
      rcases hcases hfuel with ⟨e, he, q, rfl, _⟩ | ⟨m, hm, _⟩
      · cases hout.symm.trans he
      · cases hout.symm.trans hm
  · rcases hcases (Nat.lt_succ_self _) with ⟨e, he, q, rfl, hcycle⟩ | ⟨m, hm, hclosed⟩
    · have hresult : recurseLoop r.ports r.dep (r.pplen + 1) r.pp = _ := he
      rw [hresult]
      exact ⟨iff_of_true ⟨q, rfl⟩ ⟨q, hcycle⟩, iff_of_false nofun fun h => h ⟨q, hcycle⟩⟩
    · have hresult : recurseLoop r.ports r.dep (r.pplen + 1) r.pp = _ := hm
      have hno : ¬ ∃ p, TransGen (DependsOn r.dep) p p := by
        rintro ⟨p, hp⟩
        exact not_cycle_of_acc (hclosed p (r.mem_pp.mpr (r.cycle_bound hp))).2 hp
      rw [hresult]
      exact ⟨iff_of_false nofun hno, iff_of_true ⟨m, rfl⟩ hno⟩

def dependent (name needs : Bytes) : Port where
  pkgname := name
  portdir := name
  installPrefix := []
  comment := []
  pkgdescr := []
  maintainer := []
  categories := []
  names k := if k = .rdep then [needs] else []
  www := []

/-- Two ports that need each other to run. -/
def eachOther (p : Nat) : Port :=
  if p = 0 then dependent (bytes "a") (bytes "b") else dependent (bytes "b") (bytes "a")

def eachOtherResolved : Resolved := ⟨eachOther, 2, _, rfl⟩

theorem eachOther_circular :
    ∃ q, recurseLoop eachOther eachOtherResolved.dep 3 eachOtherResolved.pp =
      .error (.errx (bytes "Circular dependency loop found: " ++ (eachOther q).pkgname ++
        bytes " depends upon itself.\n")) := by
  obtain ⟨result, hfuel, hcycle, _⟩ := circular_iff_cycle eachOtherResolved
  have hforth : DependsOn eachOtherResolved.dep 0 1 := ⟨.rdep, by decide⟩
  have hback : DependsOn eachOtherResolved.dep 1 0 := ⟨.rdep, by decide⟩
  obtain ⟨q, hq⟩ := hcycle.mpr ⟨0, .tail (.single hforth) hback⟩
  exact ⟨q, (hfuel 3 (Nat.lt_succ_self 2)).trans hq⟩

end DeltaPorts.MakeIndex

import DeltaPorts.MakeIndex.Closure
import DeltaPorts.MakeIndex.Fields
import DeltaPorts.MakeIndex.Order
import Mathlib.Data.List.Basic

/-!
# The INDEX of a file of describe lines
-/

set_option autoImplicit false

namespace DeltaPorts.MakeIndex

open Relation

section Lines

variable (ls : List Bytes)

def lineAt (p : Nat) : Bytes := ls.getD p []

def portdir (line : Bytes) : Bytes := field line 1

/-- The line of `p` names `q` as a dependency of the kind. -/
def Names (k : Kind) (p q : Nat) : Prop :=
  p < ls.length ∧ q < ls.length ∧ portdir (lineAt ls q) ∈ dependencies (lineAt ls p) k

/-- A direct dependency of the kind, or what one such needs to run. -/
def Needs (k : Kind) (p q : Nat) : Prop :=
  Names ls k p q ∨ ∃ x, Names ls k p x ∧ TransGen (Names ls .rdep) x q

structure DescribeLines : Prop where
  nonempty : ls ≠ []
  lines : ∀ line ∈ ls, newline ∉ line
  bars : ∀ line ∈ ls, (cString line).count bar = 12
  portdirs : (ls.map portdir).Nodup
  portdir_nonempty : ∀ line ∈ ls, portdir line ≠ []
  portdir_slash : ∀ line ∈ ls, (portdir line).getLast? ≠ some slash
  names : ∀ line ∈ ls, ∀ k, [] ∉ named line k
  known : ∀ line ∈ ls, ∀ k, ∀ name ∈ named line k, ∃ line' ∈ ls, portdir line' = stripped name
  acyclic : ∀ p, ¬ TransGen (fun x y => ∃ k, Names ls k x y) p p

def indexLine (column : Kind → List Nat) (p : Nat) : Bytes :=
  let f := field (lineAt ls p)
  let names := fun k => [space].intercalate ((column k).map fun q => field (lineAt ls q) 0)
  [bar].intercalate [f 0, f 1, f 2, f 3, f 4, f 5, f 6, names .bdep, names .rdep, f 12,
    names .edep, names .pdep, names .fdep] ++ [newline]

def portOf (dir : Bytes) : Nat := (ls.map portdir).idxOf dir

def direct (p : Nat) (k : Kind) : List Nat :=
  if p < ls.length then (dependencies (lineAt ls p) k).map (portOf ls) else []

end Lines

variable {ls : List Bytes} {p q : Nat} {k : Kind}

theorem lineAt_eq (hp : p < ls.length) : lineAt ls p = ls[p] := List.getD_eq_getElem ls [] hp

theorem lineAt_mem (hp : p < ls.length) : lineAt ls p ∈ ls := by
  rw [lineAt_eq hp]
  exact List.getElem_mem hp

namespace DescribeLines

variable (h : DescribeLines ls)

include h

theorem portOf_eq_iff {dir : Bytes} (hdir : dir ∈ ls.map portdir) (hq : q < ls.length) :
    portOf ls dir = q ↔ dir = portdir (lineAt ls q) := by
  have hlen : q < (ls.map portdir).length := by
    rw [List.length_map]
    exact hq
  have hget : (ls.map portdir)[q] = portdir (lineAt ls q) := by
    rw [List.getElem_map, lineAt_eq hq]
  unfold portOf
  constructor
  · intro heq
    rw [← hget, ← List.getElem_idxOf (List.idxOf_lt_length_iff.mpr hdir)]
    congr 1
  · intro heq
    rw [heq, ← hget]
    exact h.portdirs.idxOf_getElem q hlen

theorem dir_mem (hp : p < ls.length) {dir : Bytes} (hdir : dir ∈ dependencies (lineAt ls p) k) :
    dir ∈ ls.map portdir := by
  obtain ⟨name, hname, rfl⟩ := List.mem_map.mp hdir
  obtain ⟨line, hline, heq⟩ := h.known _ (lineAt_mem hp) k name hname
  exact List.mem_map.mpr ⟨line, hline, heq⟩

omit h in
theorem portOf_lt {dir : Bytes} (hdir : dir ∈ ls.map portdir) : portOf ls dir < ls.length := by
  have hlt := List.idxOf_lt_length_iff.mpr hdir
  rw [List.length_map] at hlt
  exact hlt

theorem mem_direct_iff : q ∈ direct ls p k ↔ Names ls k p q := by
  unfold direct Names
  by_cases hp : p < ls.length
  · rw [if_pos hp, List.mem_map]
    constructor
    · rintro ⟨dir, hdir, rfl⟩
      have hmem := h.dir_mem hp hdir
      have hlt := portOf_lt hmem
      rw [← (h.portOf_eq_iff hmem hlt).mp rfl]
      exact ⟨hp, hlt, hdir⟩
    · intro hq
      exact ⟨_, hq.2.2, (h.portOf_eq_iff (h.dir_mem hp hq.2.2) hq.2.1).mpr rfl⟩
  · rw [if_neg hp]
    exact iff_of_false List.not_mem_nil fun hq => hp hq.1

theorem inColumn_iff : InColumn (direct ls) p k q ↔ Needs ls k p q := by
  have hruns : Runs (direct ls) = Names ls .rdep := by
    funext x y
    exact propext h.mem_direct_iff
  unfold InColumn Needs
  rw [hruns, h.mem_direct_iff]
  simp only [h.mem_direct_iff]

theorem direct_acyclic (p : Nat) : ¬ TransGen (DependsOn (direct ls)) p p := by
  have hdepends : DependsOn (direct ls) = fun x y => ∃ k, Names ls k x y := by
    funext x y
    exact propext (exists_congr fun k => h.mem_direct_iff)
  rw [hdepends]
  exact h.acyclic p

/-- A port stands in the direct list as often as the line names it. -/
theorem count_direct (hp : p < ls.length) (hq : q < ls.length) :
    (direct ls p k).count q = (dependencies (lineAt ls p) k).count (portdir (lineAt ls q)) := by
  unfold direct
  rw [if_pos hp, List.count_eq_countP, List.countP_map, List.count_eq_countP]
  apply List.countP_congr
  intro dir hdir
  rw [Function.comp_apply, beq_iff_eq, beq_iff_eq]
  exact h.portOf_eq_iff (h.dir_mem hp hdir) hq

section Main

variable {ports : Nat → Port} (hports : ∀ p < ls.length, ports p = describe (lineAt ls p))

include hports

theorem portdir_injective (hp : p < ls.length) (hq : q < ls.length)
    (heq : (ports p).portdir = (ports q).portdir) : p = q := by
  rw [hports p hp, hports q hq] at heq
  have hmem : portdir (lineAt ls p) ∈ ls.map portdir := List.mem_map_of_mem (lineAt_mem hp)
  exact ((h.portOf_eq_iff hmem hp).mpr rfl).symm.trans ((h.portOf_eq_iff hmem hq).mpr heq)

theorem sorted : (sortports ports (List.range ls.length)).Pairwise fun p q =>
    portcompare (ports p).portdir (ports q).portdir < 0 := by
  apply sortports_pairwise ports List.nodup_range
  intro p hp q hq heq
  exact h.portdir_injective hports (List.mem_range.mp hp) (List.mem_range.mp hq) heq

theorem findport_portOf {dir : Bytes} (hdir : dir ∈ ls.map portdir) (origin : Bytes) :
    findport ports (sortports ports (List.range ls.length)) dir origin = .ok (portOf ls dir) := by
  have hlt := portOf_lt hdir
  have heq : dir = (ports (portOf ls dir)).portdir := by
    rw [hports _ hlt]
    exact (h.portOf_eq_iff hdir hlt).mp rfl
  have hmem : portOf ls dir ∈ sortports ports (List.range ls.length) :=
    (sortports_perm ports _).symm.subset (List.mem_range.mpr hlt)
  have hfind := findport_eq ports origin (h.sorted hports) hmem
  rw [← heq] at hfind
  exact hfind

theorem translateport_eq (hp : p < ls.length) :
    translateport ports (sortports ports (List.range ls.length)) (ports p) =
      .ok (direct ls p) := by
  have hlist : ∀ k, ((ports p).names k).mapM (fun name =>
      findport ports (sortports ports (List.range ls.length)) name (ports p).portdir) =
      .ok (direct ls p k) := by
    intro k
    unfold direct
    rw [if_pos hp, hports p hp]
    apply Loops.mapM_ok
    intro dir hdir
    exact h.findport_portOf hports (h.dir_mem hp hdir) _
  have hdirect : byKind (direct ls p .edep) (direct ls p .pdep) (direct ls p .fdep)
      (direct ls p .bdep) (direct ls p .rdep) = direct ls p := by
    funext k
    cases k <;> rfl
  unfold translateport
  simp only [hlist, bind, Except.bind, pure, Except.pure, hdirect]

theorem translateports_eq :
    translateports ports (sortports ports (List.range ls.length)) = .ok (direct ls) := by
  have hloop : ∃ dep, translateports ports (sortports ports (List.range ls.length)) = .ok dep ∧
      ∀ p, dep p = if p ∈ sortports ports (List.range ls.length) then direct ls p else fun _ => [] := by
    apply Loops.foldlM_ok (P := fun (done : List Nat) (dep : Nat → Kind → List Nat) =>
      ∀ p, dep p = if p ∈ done then direct ls p else fun _ => [])
    · intro p
      rw [if_neg List.not_mem_nil]
    · intro done p rest dep hsplit hdep
      have hmem : p ∈ sortports ports (List.range ls.length) := by
        rw [← hsplit]
        exact List.mem_append_right done List.mem_cons_self
      have hp : p < ls.length := List.mem_range.mp ((sortports_perm ports _).subset hmem)
      rw [h.translateport_eq hports hp]
      refine ⟨_, rfl, ?_⟩
      intro q
      by_cases hq : q = p
      · subst hq
        rw [Function.update_self, if_pos (List.mem_append_right done List.mem_cons_self)]
      · rw [Function.update_of_ne hq, hdep q]
        simp only [List.mem_append, List.mem_singleton, hq, or_false]
  obtain ⟨dep, hdep, hval⟩ := hloop
  rw [hdep]
  congr 1
  funext p k
  rw [hval p]
  by_cases hp : p < ls.length
  · rw [if_pos ((sortports_perm ports _).symm.subset (List.mem_range.mpr hp))]
  · rw [if_neg fun hmem => hp (List.mem_range.mp ((sortports_perm ports _).subset hmem))]
    unfold direct
    rw [if_neg hp]

omit h in
theorem printport_eq {dep : Kind → List Nat} (hp : p < ls.length)
    (hdep : ∀ k, ∀ q ∈ dep k, q < ls.length) :
    printport ports dep (ports p) = indexLine ls (fun k => sortpkgs ports (dep k)) p := by
  have hlist : ∀ k, printlist ports (sortpkgs ports (dep k)) = [space].intercalate
      ((sortpkgs ports (dep k)).map fun q => field (lineAt ls q) 0) := by
    intro k
    unfold printlist
    congr 1
    apply List.map_congr_left
    intro q hq
    rw [hports q (hdep k q ((sortpkgs_perm ports _).subset hq))]
    rfl
  unfold printport indexLine
  rw [hports p hp]
  simp only [hlist]
  simp [List.intercalate, describe]

theorem printindex_eq : ∃ dep : Nat → Kind → List Nat,
    (∀ p < ls.length, ∀ k, Closed (direct ls) p k (dep p k)) ∧
    printindex ports ls.length = .ok ((sortports ports (List.range ls.length)).flatMap fun p =>
      indexLine ls (fun k => sortpkgs ports (dep p k)) p) := by
  have hperm := sortports_perm ports (List.range ls.length)
  have hpp : ∀ p ∈ sortports ports (List.range ls.length), p < ls.length :=
    fun p hp => List.mem_range.mp (hperm.subset hp)
  have hbound : ∀ p k, ∀ q ∈ direct ls p k, q < ls.length :=
    fun p k q hq => (h.mem_direct_iff.mp hq).2.1
  obtain ⟨m, hm, hclosed⟩ := recurse_all ports hbound h.direct_acyclic hpp
    (Nat.lt_add_one ls.length)
  refine ⟨m.dep, fun p hp => hclosed p (hperm.symm.subset (List.mem_range.mpr hp)), ?_⟩
  simp only [printindex, h.translateports_eq hports, bind, Except.bind, hm, pure, Except.pure]
  apply congrArg Except.ok
  apply List.flatMap_congr
  intro p hp
  apply printport_eq hports (hpp p hp)
  intro k q hq
  rcases (hclosed p hp k).mem_iff.mp hq with hq | ⟨x, _, hxq⟩
  · exact hbound p k q hq
  · obtain ⟨y, _, hy⟩ := TransGen.tail'_iff.mp hxq
    exact hbound y .rdep q hy

end Main

theorem main_eq : main (ls.flatMap (· ++ [newline])) =
    printindex (fun p => (ls.map describe).getD p default) ls.length := by
  have hread : (fgetlns (ls.flatMap (· ++ [newline]))).mapM readLine = .ok (ls.map describe) := by
    rw [fgetlns_lines h.lines, List.mapM_map]
    apply Loops.mapM_ok
    exact fun line hline => readLine_eq (h.bars line hline) (h.names line hline)
  have hempty : (ls.map describe).isEmpty = false := by
    rw [List.isEmpty_eq_false_iff, ne_eq, List.map_eq_nil_iff]
    exact h.nonempty
  unfold main
  rw [hread]
  simp only [bind, Except.bind, hempty, List.length_map]
  rfl

end DescribeLines

theorem index_lists_what_is_needed (h : DescribeLines ls) :
    ∃ (order : List Nat) (column : Nat → Kind → List Nat),
      main (ls.flatMap (· ++ [newline])) =
        .ok (order.flatMap fun p => indexLine ls (column p) p) ∧
      order.Perm (List.range ls.length) ∧
      order.Pairwise (fun p q =>
        portcompare (portdir (lineAt ls p)) (portdir (lineAt ls q)) < 0) ∧
      ∀ p < ls.length, ∀ k,
        (column p k).Pairwise (fun x y =>
          strcmp (field (lineAt ls x) 0) (field (lineAt ls y) 0) ≤ 0) ∧
        (∀ q, q ∈ column p k ↔ Needs ls k p q) ∧
        ∀ q ∈ column p k, (column p k).count q =
          max 1 ((dependencies (lineAt ls p) k).count (portdir (lineAt ls q))) := by
  let ports : Nat → Port := fun p => (ls.map describe).getD p default
  have hports : ∀ p < ls.length, ports p = describe (lineAt ls p) := by
    intro p hp
    have hlen : p < (ls.map describe).length := by
      rw [List.length_map]
      exact hp
    exact (List.getD_eq_getElem _ _ hlen).trans (by rw [List.getElem_map, lineAt_eq hp])
  have hperm := sortports_perm ports (List.range ls.length)
  obtain ⟨dep, hclosed, hprint⟩ := h.printindex_eq hports
  refine ⟨sortports ports (List.range ls.length), fun p k => sortpkgs ports (dep p k),
    h.main_eq.trans hprint, hperm, ?_, ?_⟩
  · apply (h.sorted hports).imp_of_mem
    intro p q hp hq hlt
    rw [hports p (List.mem_range.mp (hperm.subset hp)),
      hports q (List.mem_range.mp (hperm.subset hq))] at hlt
    exact hlt
  · intro p hp k
    have hmem : ∀ q, q ∈ sortpkgs ports (dep p k) ↔ Needs ls k p q := by
      intro q
      rw [(sortpkgs_perm ports (dep p k)).mem_iff, (hclosed p hp k).mem_iff]
      exact h.inColumn_iff
    have hlt : ∀ q ∈ sortpkgs ports (dep p k), q < ls.length := by
      intro q hq
      rcases (hmem q).mp hq with hq | ⟨x, _, hxq⟩
      · exact hq.2.1
      · obtain ⟨y, _, hy⟩ := TransGen.tail'_iff.mp hxq
        exact hy.2.1
    refine ⟨?_, hmem, ?_⟩
    · apply (sortpkgs_pairwise ports (dep p k)).imp_of_mem
      intro x y hx hy hle
      rw [hports x (hlt x hx), hports y (hlt y hy)] at hle
      exact hle
    · intro q hq
      have hperm' := sortpkgs_perm ports (dep p k)
      rw [hperm'.count_eq, (hclosed p hp k).count (hperm'.subset hq), h.count_direct hp (hlt q hq)]

/-- The line of a port, with the lists that it is built with and runs with. -/
def shortLine (pkgname dir bdep rdep : Bytes) : Bytes :=
  pkgname ++ bar :: dir ++ bytes "|p|c|d|m|g||||" ++ bdep ++ bar :: rdep ++ bytes "|w"

def threeLines : List Bytes :=
  [shortLine (bytes "b-1") (bytes "x/b") (bytes "x/a/") [],
    shortLine (bytes "a-1") (bytes "x/a") [] (bytes "y/c"),
    shortLine (bytes "c-1") (bytes "y/c") [] []]

theorem threeLines_names {k : Kind} {p q : Nat} (h : Names threeLines k p q) : p < q := by
  have hall : ∀ k ∈ Kind.all, ∀ p < 3, ∀ q < 3, portdir (lineAt threeLines q) ∈
      dependencies (lineAt threeLines p) k → p < q := by decide +kernel
  have hk : k ∈ Kind.all := by cases k <;> decide
  exact hall k hk p h.1 q h.2.1 h.2.2

theorem describeLines_threeLines : DescribeLines threeLines := by
  have hknown : ∀ line ∈ threeLines, ∀ k ∈ Kind.all, [] ∉ named line k ∧
      ∀ name ∈ named line k, ∃ line' ∈ threeLines, portdir line' = stripped name := by
    decide +kernel
  have hall : ∀ k, k ∈ Kind.all := by
    intro k
    cases k <;> decide
  constructor
  · exact List.cons_ne_nil _ _
  · decide +kernel
  · decide +kernel
  · decide +kernel
  · decide +kernel
  · decide +kernel
  · exact fun line hline k => (hknown line hline k (hall k)).1
  · exact fun line hline k => (hknown line hline k (hall k)).2
  · intro p hp
    have hlt : ∀ {x y}, TransGen (fun x y => ∃ k, Names threeLines k x y) x y → x < y := by
      intro x y hxy
      induction hxy with
      | single hstep =>
        obtain ⟨k, hk⟩ := hstep
        exact threeLines_names hk
      | tail _ hstep ih =>
        obtain ⟨k, hk⟩ := hstep
        exact ih.trans (threeLines_names hk)
    exact lt_irrefl p (hlt hp)

theorem index_of_threeLines : ∃ (order : List Nat) (column : Nat → Kind → List Nat),
    main (threeLines.flatMap (· ++ [newline])) =
      .ok (order.flatMap fun p => indexLine threeLines (column p) p) ∧
    order.Perm [0, 1, 2] ∧ ∀ q, q ∈ column 0 .bdep ↔ Needs threeLines .bdep 0 q := by
  obtain ⟨order, column, hmain, hperm, _, hcolumn⟩ :=
    index_lists_what_is_needed describeLines_threeLines
  exact ⟨order, column, hmain, hperm, (hcolumn 0 (by decide) .bdep).2.1⟩

end DeltaPorts.MakeIndex

import DeltaPorts.MakeIndex.Index

/-!
# The order of the describe lines

The ports are sorted before anything else is done with them, so that a different order of the
lines only gives them other numbers. What `main` prints, and the error that it ends with, stay
the same.
-/

set_option autoImplicit false

namespace DeltaPorts.MakeIndex

open Loops

/-- The port with the number `p` has the number `σ p` for the other order. -/
structure Renumbers (σ : Nat → Nat) (ports ports' : Nat → Port) : Prop where
  injective : Function.Injective σ
  port : ∀ p, ports' (σ p) = ports p

/-- The same pointers and marks, under the other numbers. -/
structure Renumbers.Same (σ : Nat → Nat) (m m' : Memory) : Prop where
  dep : ∀ p k, m'.dep (σ p) k = (m.dep p k).map σ
  recursed : ∀ p, m'.recursed (σ p) = m.recursed p

namespace Renumbers

variable {σ : Nat → Nat} {ports ports' : Nat → Port} (h : Renumbers σ ports ports')
variable {m m' : Memory} {pp d : List Nat} {p : Nat} {k : Kind}

include h

theorem sortports {n : Nat} (hdirs : ∀ p < n, ∀ q < n,
    (ports p).portdir = (ports q).portdir → p = q) (hn : ((List.range n).map σ).Perm (List.range n)) :
    sortports ports' (List.range n) = (MakeIndex.sortports ports (List.range n)).map σ := by
  have hsorted := sortports_pairwise ports List.nodup_range fun p hp q hq =>
    hdirs p (List.mem_range.mp hp) q (List.mem_range.mp hq)
  have hmapped : ((MakeIndex.sortports ports (List.range n)).map σ).Pairwise fun p q =>
      portcompare (ports' p).portdir (ports' q).portdir < 0 := by
    rw [List.pairwise_map]
    refine hsorted.imp fun {p q} hlt => ?_
    rwa [h.port, h.port]
  have hperm' : (MakeIndex.sortports ports' (List.range n)).Perm
      ((MakeIndex.sortports ports (List.range n)).map σ) :=
    (sortports_perm ports' _).trans (hn.symm.trans ((sortports_perm ports _).symm.map σ))
  have hsorted' : (MakeIndex.sortports ports' (List.range n)).Pairwise fun p q =>
      portcompare (ports' p).portdir (ports' q).portdir < 0 := by
    refine sortports_pairwise ports' List.nodup_range fun p hp q hq heq => ?_
    obtain ⟨p', hp', rfl⟩ := List.mem_map.mp (hn.symm.subset hp)
    obtain ⟨q', hq', rfl⟩ := List.mem_map.mp (hn.symm.subset hq)
    rw [h.port, h.port] at heq
    rw [hdirs p' (List.mem_range.mp hp') q' (List.mem_range.mp hq') heq]
  refine hperm'.eq_of_pairwise ?_ hsorted' hmapped
  intro p q _ _ hpq hqp
  rw [← portcompare_pos_iff] at hqp
  omega

theorem findport (pp : List Nat) (name origin : Bytes) :
    Alike (fun q q' => q' = σ q) (findport ports pp name origin)
      (MakeIndex.findport ports' (pp.map σ) name origin) := by
  have hget : ∀ mid < pp.length, (pp.map σ).getD mid 0 = σ (pp.getD mid 0) := by
    intro mid hmid
    rw [List.getD_eq_getElem _ _ (by rwa [List.length_map]), List.getElem_map,
      List.getD_eq_getElem _ _ hmid]
  have hsearch : BinarySearch.search
      (fun mid => portcompare (ports' ((pp.map σ).getD mid 0)).portdir name) (pp.length + 1) 0
        pp.length =
      BinarySearch.search (fun mid => portcompare (ports (pp.getD mid 0)).portdir name)
        (pp.length + 1) 0 pp.length := by
    refine BinarySearch.search_congr (Nat.zero_le _) fun mid hmid => ?_
    rw [hget mid hmid, h.port]
  unfold MakeIndex.findport
  rw [List.length_map, hsearch]
  split
  · next mid hmid =>
    exact .ok (hget mid (BinarySearch.search_lt (Nat.zero_le _) hmid))
  · exact .error _

theorem translateport (pp : List Nat) (p : Port) :
    Alike (fun d d' => ∀ k, d' k = (d k).map σ) (translateport ports pp p)
      (MakeIndex.translateport ports' (pp.map σ) p) := by
  have hlist : ∀ names : List Bytes, Alike (fun d d' => d' = d.map σ)
      (names.mapM fun name => MakeIndex.findport ports pp name p.portdir)
      (names.mapM fun name => MakeIndex.findport ports' (pp.map σ) name p.portdir) :=
    fun names => Alike.mapM names fun name => h.findport pp name p.portdir
  unfold MakeIndex.translateport
  refine (hlist _).bind fun edep edep' hedep => (hlist _).bind fun pdep pdep' hpdep => ?_
  refine (hlist _).bind fun fdep fdep' hfdep => (hlist _).bind fun bdep bdep' hbdep => ?_
  refine (hlist _).bind fun rdep rdep' hrdep => .ok fun k => ?_
  cases k with
  | edep => exact hedep
  | pdep => exact hpdep
  | fdep => exact hfdep
  | bdep => exact hbdep
  | rdep => exact hrdep

theorem update {α β : Type} {f : Nat → α} {f' : Nat → β} {R : α → β → Prop}
    (hf : ∀ q, R (f q) (f' (σ q))) {a : α} {b : β} (hab : R a b) (p q : Nat) :
    R (Function.update f p a q) (Function.update f' (σ p) b (σ q)) := by
  by_cases hq : q = p
  · rw [hq, Function.update_self, Function.update_self]
    exact hab
  · rw [Function.update_of_ne hq, Function.update_of_ne fun heq => hq (h.injective heq)]
    exact hf q

theorem translateports (pp : List Nat) :
    Alike (fun dep dep' => ∀ p k, dep' (σ p) k = (dep p k).map σ) (translateports ports pp)
      (MakeIndex.translateports ports' (pp.map σ)) := by
  unfold MakeIndex.translateports
  refine Alike.foldlM (fun p k => rfl) fun dep dep' p hdep => ?_
  rw [h.port]
  refine (h.translateport pp (ports p)).bind fun d d' hd => .ok ?_
  exact h.update (R := fun d d' : Kind → List Nat => ∀ k, d' k = (d k).map σ) hdep hd p

theorem addNew (l : List Nat) (y : Nat) : (addNew l y).map σ = addNew (l.map σ) (σ y) := by
  unfold Loops.addNew
  by_cases hy : y ∈ l
  · rw [if_pos hy, if_pos (List.mem_map_of_mem hy)]
  · have hy' : σ y ∉ l.map σ := fun hmem => hy ((List.mem_map_of_injective h.injective).mp hmem)
    rw [if_neg hy, if_neg hy', List.map_append, List.map_singleton]

theorem addAll (l ys : List Nat) :
    (ys.foldl Loops.addNew l).map σ = (ys.map σ).foldl Loops.addNew (l.map σ) := by
  induction ys generalizing l with
  | nil => rfl
  | cons y ys ih => rw [List.foldl_cons, ih, h.addNew, List.map_cons, List.foldl_cons]

theorem mark (hm : Same σ m m') (p : Nat) (r : Recursed) :
    Same σ (m.mark p r) (m'.mark (σ p) r) where
  dep := hm.dep
  recursed := h.update (R := fun r r' : Recursed => r' = r) hm.recursed rfl p

theorem setDep (hm : Same σ m m') (p : Nat) (k : Kind) (d : List Nat) :
    Same σ (m.setDep p k d) (m'.setDep (σ p) k (d.map σ)) where
  dep := by
    refine h.update (R := fun d d' : Kind → List Nat => ∀ k, d' k = (d k).map σ) hm.dep ?_ p
    intro k'
    by_cases hk : k' = k
    · rw [hk, Function.update_self, Function.update_self]
    · rw [Function.update_of_ne hk, Function.update_of_ne hk, hm.dep]
  recursed := hm.recursed

theorem recurseOne {call call' : Nat → Memory → Except Failure Memory}
    (hcall : ∀ x m m', Same σ m m' → Alike (Same σ) (call x m) (call' (σ x) m')) (d : List Nat)
    (hm : Same σ m m') :
    Alike (fun s s' : List Nat × Memory => s'.1 = s.1.map σ ∧ Same σ s.2 s'.2)
      (recurseOne call d m) (MakeIndex.recurseOne call' (d.map σ) m') := by
  unfold MakeIndex.recurseOne
  refine Alike.foldlM ⟨rfl, hm⟩ fun s s' x hs => ?_
  refine (hcall x s.2 s'.2 hs.2).bind fun u u' hu => .ok ⟨?_, hu⟩
  rw [hu.dep, hs.1, h.addAll]

theorem recurse (fuel : Nat) (p : Nat) (hm : Same σ m m') :
    Alike (Same σ) (recurse ports fuel p m) (MakeIndex.recurse ports' fuel (σ p) m') := by
  induction fuel generalizing p m m' with
  | zero => exact .error _
  | succ fuel ih =>
    unfold MakeIndex.recurse
    rw [hm.recursed, h.port]
    cases m.recursed p with
    | inProgress => exact .error _
    | done => exact .ok hm
    | fresh =>
      have hkinds : Alike (Same σ)
          (Kind.all.foldlM (recurseKind (MakeIndex.recurse ports fuel) p) (m.mark p .inProgress))
          ((Kind.all.map id).foldlM (recurseKind (MakeIndex.recurse ports' fuel) (σ p))
            (m'.mark (σ p) .inProgress)) := by
        refine Alike.foldlM (h.mark hm p .inProgress) fun u u' k hu => ?_
        unfold recurseKind
        rw [hu.dep]
        refine (h.recurseOne (fun x _ _ hv => ih x hv) _ hu).bind fun s s' hs => .ok ?_
        rw [id, hs.1]
        exact h.setDep hs.2 p k s.1
      rw [List.map_id] at hkinds
      exact hkinds.bind fun u u' hu => .ok (h.mark hu p .done)

theorem printlist (d : List Nat) :
    printlist ports' (sortpkgs ports' (d.map σ)) = printlist ports (sortpkgs ports d) := by
  have hnames : ∀ ports : Nat → Port, ∀ d : List Nat,
      ((sortpkgs ports d).map fun p => (ports p).pkgname).Pairwise fun a b => strcmp a b ≤ 0 := by
    intro ports d
    rw [List.pairwise_map]
    exact sortpkgs_pairwise ports d
  have hperm : ((sortpkgs ports' (d.map σ)).map fun p => (ports' p).pkgname).Perm
      ((sortpkgs ports d).map fun p => (ports p).pkgname) := by
    refine ((sortpkgs_perm ports' _).map _).trans (.trans ?_ ((sortpkgs_perm ports d).map _).symm)
    rw [List.map_map]
    refine List.Perm.of_eq (List.map_congr_left fun p _ => ?_)
    rw [Function.comp_apply, h.port]
  unfold MakeIndex.printlist
  rw [hperm.eq_of_pairwise ?_ (hnames ports' _) (hnames ports d)]
  intro a b _ _ hab hba
  have hzero : strcmp a b = 0 := by
    have hpos : ¬ 0 < strcmp a b := hab.not_gt
    have hneg : ¬ strcmp a b < 0 := fun hlt => hba.not_gt (strcmp_pos_iff.mpr hlt)
    omega
  rw [strcmp_eq] at hzero
  exact (Lexical.compare_eq_zero_iff toNat_injective).mp hzero

theorem printindex {n : Nat} (hdirs : ∀ p < n, ∀ q < n,
    (ports p).portdir = (ports q).portdir → p = q) (hn : ((List.range n).map σ).Perm (List.range n)) :
    printindex ports n = MakeIndex.printindex ports' n := by
  apply Alike.eq
  unfold MakeIndex.printindex
  rw [h.sortports hdirs hn]
  refine (h.translateports _).bind fun dep dep' hdep => ?_
  have hstart : Same σ ⟨dep, fun _ => .fresh⟩ ⟨dep', fun _ => .fresh⟩ := ⟨hdep, fun _ => rfl⟩
  refine (Alike.foldlM hstart fun m m' p hm => h.recurse (n + 1) p hm).bind fun m m' hm => .ok ?_
  rw [List.flatMap_map]
  refine List.flatMap_congr fun p _ => ?_
  unfold printport
  simp only [hm.dep, h.port, h.printlist]

end Renumbers

theorem portdir_of_readLine {line : Bytes} {p : Port} (h : readLine (line ++ [newline]) = .ok p) :
    p.portdir = portdir line := by
  unfold readLine at h
  rw [List.getLast?_concat, if_neg (not_not.mpr rfl), List.dropLast_concat] at h
  unfold portify at h
  by_cases hbars : (cString line).count bar = 12
  · rw [if_neg (not_not.mpr hbars)] at h
    have hfields : strseps bar 13 (some (cString line)) = (cString line).splitOn bar := by
      rw [← strseps_eq_splitOn, hbars]
    obtain ⟨_, _, h⟩ := bind_ok h
    obtain ⟨_, _, h⟩ := bind_ok h
    obtain ⟨_, _, h⟩ := bind_ok h
    obtain ⟨_, _, h⟩ := bind_ok h
    obtain ⟨_, _, h⟩ := bind_ok h
    cases h
    rw [hfields]
    rfl
  · rw [if_pos hbars] at h
    cases h

/-- The number that a line has in the other order. -/
def renumber (ls ls' : List Bytes) (p : Nat) : Nat :=
  if p < ls.length then ls'.idxOf (lineAt ls p) else p

section Reordered

variable {ls ls' : List Bytes} (hperm : ls'.Perm ls) (hnodup : ls.Nodup)

include hperm

theorem renumber_lt {p : Nat} (hp : p < ls.length) : renumber ls ls' p < ls'.length := by
  unfold renumber
  rw [if_pos hp]
  exact List.idxOf_lt_length_of_mem (hperm.symm.subset (lineAt_mem hp))

theorem lineAt_renumber {p : Nat} (hp : p < ls.length) :
    lineAt ls' (renumber ls ls' p) = lineAt ls p := by
  rw [lineAt_eq (renumber_lt hperm hp)]
  unfold renumber
  simp only [if_pos hp]
  exact List.getElem_idxOf _

include hnodup

theorem renumber_injective : Function.Injective (renumber ls ls') := by
  have hlength := hperm.length_eq
  intro p q heq
  by_cases hp : p < ls.length
  · by_cases hq : q < ls.length
    · have hline : lineAt ls p = lineAt ls q := by
        rw [← lineAt_renumber hperm hp, heq, lineAt_renumber hperm hq]
      rw [lineAt_eq hp, lineAt_eq hq] at hline
      exact (hnodup.getElem_inj_iff).mp hline
    · have hlt := renumber_lt hperm hp
      rw [heq, renumber, if_neg hq] at hlt
      omega
  · by_cases hq : q < ls.length
    · have hlt := renumber_lt hperm hq
      rw [← heq, renumber, if_neg hp] at hlt
      omega
    · rwa [renumber, if_neg hp, renumber, if_neg hq] at heq

theorem renumber_range :
    ((List.range ls.length).map (renumber ls ls')).Perm (List.range ls.length) := by
  have hinjective := renumber_injective hperm hnodup
  refine List.perm_of_nodup_nodup_toFinset_eq ?_ List.nodup_range ?_
  · exact List.nodup_range.map hinjective
  · apply Finset.eq_of_subset_of_card_le
    · intro q hq
      rw [List.mem_toFinset] at hq ⊢
      obtain ⟨p, hp, rfl⟩ := List.mem_map.mp hq
      rw [List.mem_range] at hp ⊢
      rw [← hperm.length_eq]
      exact renumber_lt hperm hp
    · rw [List.toFinset_card_of_nodup List.nodup_range,
        List.toFinset_card_of_nodup (List.nodup_range.map hinjective), List.length_map]

/-- The ports of the lines, read one by one. -/
theorem renumbers (g : Bytes → Port) : Renumbers (renumber ls ls')
    (fun p => (ls.map g).getD p default) fun p => (ls'.map g).getD p default where
  injective := renumber_injective hperm hnodup
  port := by
    intro p
    by_cases hp : p < ls.length
    · have hp' := renumber_lt hperm hp
      rw [List.getD_eq_getElem _ _ (by rwa [List.length_map]), List.getElem_map,
        List.getD_eq_getElem _ _ (by rwa [List.length_map]), List.getElem_map, ← lineAt_eq hp',
        lineAt_renumber hperm hp, lineAt_eq hp]
    · have hlength := hperm.length_eq
      rw [renumber, if_neg hp, List.getD_eq_default _ _ (by rw [List.length_map]; omega),
        List.getD_eq_default _ _ (by rw [List.length_map]; omega)]

end Reordered

/-- A file of lines that `main` cannot read: the error of one of them. -/
def Unreadable (ls : List Bytes) (e : Failure) : Prop :=
  ∃ line ∈ ls, readLine (line ++ [newline]) = .error e

/-- All lines are read, or the reading ends with the error of one. -/
theorem readLines (ls : List Bytes) :
    (∃ g : Bytes → Port, ∀ line ∈ ls, readLine (line ++ [newline]) = .ok (g line)) ∨
      ∃ e, (ls.map (· ++ [newline])).mapM readLine = .error e ∧ Unreadable ls e := by
  induction ls with
  | nil => exact .inl ⟨fun _ => default, fun _ h => absurd h List.not_mem_nil⟩
  | cons line ls ih =>
    rw [List.map_cons, List.mapM_cons]
    cases hline : readLine (line ++ [newline]) with
    | error e => exact .inr ⟨e, rfl, line, List.mem_cons_self, hline⟩
    | ok p =>
      rcases ih with ⟨g, hg⟩ | ⟨e, he, bad, hbad, hread⟩
      · refine .inl ⟨fun l => if l = line then p else g l, fun l hl => ?_⟩
        dsimp only
        by_cases heq : l = line
        · rw [if_pos heq, heq, hline]
        · rw [if_neg heq]
          exact hg l ((List.mem_cons.mp hl).resolve_left heq)
      · rw [he]
        exact .inr ⟨e, rfl, bad, List.mem_cons_of_mem line hbad, hread⟩

theorem main_of_readable {ls : List Bytes} {g : Bytes → Port} (hlines : ∀ line ∈ ls, newline ∉ line)
    (hg : ∀ line ∈ ls, readLine (line ++ [newline]) = .ok (g line)) :
    main (ls.flatMap (· ++ [newline])) =
      if ls = [] then .ok [] else printindex (fun p => (ls.map g).getD p default) ls.length := by
  have hread : (ls.map (· ++ [newline])).mapM readLine = .ok (ls.map g) := by
    have hall : (ls.map (· ++ [newline])).mapM readLine =
        .ok ((ls.map (· ++ [newline])).map fun l => g l.dropLast) := by
      apply mapM_ok
      intro l hl
      obtain ⟨line, hline, rfl⟩ := List.mem_map.mp hl
      rw [List.dropLast_concat]
      exact hg line hline
    rw [hall, List.map_map]
    refine congrArg _ (List.map_congr_left fun line _ => ?_)
    rw [Function.comp_apply, List.dropLast_concat]
  unfold main
  rw [fgetlns_lines hlines, hread, ok_bind]
  by_cases hempty : ls = []
  · rw [if_pos hempty, hempty]
    rfl
  · rw [if_neg hempty, if_neg (by simpa using hempty), List.length_map]

theorem main_of_unreadable {ls : List Bytes} {e : Failure} (hlines : ∀ line ∈ ls, newline ∉ line)
    (he : (ls.map (· ++ [newline])).mapM readLine = .error e) :
    main (ls.flatMap (· ++ [newline])) = .error e := by
  unfold main
  rw [fgetlns_lines hlines, he]
  rfl

/-- The INDEX and the error depend on what lines there are and not on their order; of several
lines that cannot be read another one may be named. -/
theorem index_of_reordered {ls ls' : List Bytes} (hperm : ls'.Perm ls)
    (hlines : ∀ line ∈ ls, newline ∉ line) (hdirs : (ls.map portdir).Nodup) :
    main (ls'.flatMap (· ++ [newline])) = main (ls.flatMap (· ++ [newline])) ∨
      ∃ e e', main (ls.flatMap (· ++ [newline])) = .error e ∧ Unreadable ls e ∧
        main (ls'.flatMap (· ++ [newline])) = .error e' ∧ Unreadable ls e' := by
  have hlines' : ∀ line ∈ ls', newline ∉ line := fun line hline => hlines line (hperm.subset hline)
  rcases readLines ls with ⟨g, hg⟩ | ⟨e, he, hbad⟩
  · left
    have hg' : ∀ line ∈ ls', readLine (line ++ [newline]) = .ok (g line) :=
      fun line hline => hg line (hperm.subset hline)
    rw [main_of_readable hlines hg, main_of_readable hlines' hg', hperm.length_eq]
    by_cases hempty : ls = []
    · rw [if_pos hempty, if_pos (List.perm_nil.mp (hempty ▸ hperm))]
    · have hempty' : ls' ≠ [] := by
        rintro rfl
        exact hempty (List.nil_perm.mp hperm)
      rw [if_neg hempty, if_neg hempty']
      have hnodup : ls.Nodup := hdirs.of_map _
      refine ((renumbers hperm hnodup g).printindex ?_ (renumber_range hperm hnodup)).symm
      intro p hp q hq heq
      have hget : ∀ {p : Nat} (hp : p < ls.length),
          ((ls.map g).getD p default).portdir = portdir ls[p] := by
        intro p hp
        rw [List.getD_eq_getElem _ _ (by rwa [List.length_map]), List.getElem_map]
        exact portdir_of_readLine (hg _ (List.getElem_mem hp))
      rw [hget hp, hget hq] at heq
      exact hnodup.getElem_inj_iff.mp
        (List.inj_on_of_nodup_map hdirs (List.getElem_mem hp) (List.getElem_mem hq) heq)
  · right
    rcases readLines ls' with ⟨g, hg⟩ | ⟨e', he', bad, hbad', hread⟩
    · obtain ⟨bad, hmem, hread⟩ := hbad
      have hok := hg bad (hperm.symm.subset hmem)
      rw [hread] at hok
      cases hok
    · exact ⟨e, e', main_of_unreadable hlines he, hbad, main_of_unreadable hlines' he', bad,
        hperm.subset hbad', hread⟩

theorem reordered_threeLines :
    main (threeLines.reverse.flatMap (· ++ [newline])) =
        main (threeLines.flatMap (· ++ [newline])) ∨
      ∃ e e', main (threeLines.flatMap (· ++ [newline])) = .error e ∧ Unreadable threeLines e ∧
        main (threeLines.reverse.flatMap (· ++ [newline])) = .error e' ∧
        Unreadable threeLines e' :=
  index_of_reordered (List.reverse_perm threeLines) (by decide +kernel) (by decide +kernel)

end DeltaPorts.MakeIndex

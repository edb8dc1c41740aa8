import DeltaPorts.Generator.Independence
import DeltaPorts.Generator.Rebuild
import DeltaPorts.Hook.CommitRounds
import DeltaPorts.Hook.Status

/-!
# From FPORTS to the last commit of DPORTS

Runs of `merge.sh`, copies of ports from `MERGED` to the builder's `POTENTIAL`, builds and rounds
of the commit daemon, in any order. `merge.sh` may be stopped between two ports. The ports of
`FPORTS` and their overlays stay as they are; only the hook writes `STATUS`. What fills
`POTENTIAL` belongs to the builder: a port may be copied to it at any time.
-/

set_option autoImplicit false

namespace DeltaPorts.Generator.MergeHistory

open Hook
open Hook.CommitRounds (Port Round Fresh Lists SoundRound Works hook daemonRound statusOf)

variable {Diff : Type}

/-- `FPORTS`, and `DELTA/ports` but for the `STATUS` files. -/
structure Sources (Diff : Type) where
  fports : Origin → Tree
  overlay : Origin → Option (DeltaPort Diff)
  programs : Programs Diff

structure World where
  repos : CommitRounds.World
  state : State
  potential : Origin → Option Tree

def noOverlay : DeltaPort Diff := ⟨none, none, none, none, FileTree.empty⟩

def status (w : World) (origin : Origin) : Option (List Awk.Text) :=
  statusOf (w.repos.repo .delta origin).tree

/-- The hook makes the directory of an overlay for the sake of its `STATUS`. -/
def deltaPort (src : Sources Diff) (w : World) (origin : Origin) : Option (DeltaPort Diff) :=
  match src.overlay origin, status w origin with
  | none, none => none
  | dp, st => some { dp.getD noOverlay with status := st }

def env (src : Sources Diff) (w : World) : Env Diff where
  fports := src.fports
  dports origin := (w.repos.repo .dport origin).tree
  delta := deltaPort src w
  programs := src.programs

inductive Event where
  | line (l : Work)
  | copy (origin : Origin)
  | build (p : Port) (result : Result) (pkgname : Awk.Text)
  | wake (r : Round)

/-- A build is one of the port as it is in `POTENTIAL`, and the hook copies it from there. -/
def step (src : Sources Diff) (w : World) : Event → World
  | .line l => { w with state := mainStep (env src w) w.state l }
  | .copy origin =>
    { w with potential := Function.update w.potential origin (w.state.merged origin) }
  | .build p result pkgname =>
    { w with
      repos := (w.potential p.origin).elim w.repos fun t =>
        hook p ⟨result, pkgname, t⟩ w.repos }
  | .wake r => { w with repos := daemonRound r w.repos }

def Ok (src : Sources Diff) (w : World) : Event → Prop
  | .line l => FiltersClean (env src w) w.state l
  | .copy _ => True
  | .build p _ pkgname => (w.potential p.origin).isSome ∧ IsVersion (pkgv pkgname)
  | .wake r => Lists r w.repos ∧ SoundRound r w.repos

def OkRun (src : Sources Diff) : World → List Event → Prop
  | _, [] => True
  | w, ev :: events => Ok src w ev ∧ OkRun src (step src w ev) events

/-- A successful build of the port. -/
def Publishes (p : Port) : Event → Prop
  | .build q .success _ => q.origin = p.origin
  | _ => False

/-- A line of the worklist for the port. -/
def Merges (p : Port) : Event → Prop
  | .line l => l.port = p.origin
  | _ => False

/-- What `merge.sh` makes of the port when there is nothing else. -/
def fresh (e : Env Diff) (origin : Origin) : Option Tree :=
  (mainStep e freshStart ⟨origin, []⟩).merged origin

def verdictOf (type : Awk.Text) : Verdict :=
  if type = "LOCK".toList then .lock else .hold (modeOf type)

/-- A `STATUS` whose type the hook and `merge.sh` agree on. -/
inductive Regular : Option (List Awk.Text) → Verdict → Prop where
  | mask {line : Awk.Text} {rest : List Awk.Text} : Awk.field 1 line = "MASK".toList →
      Regular (some (line :: rest)) .mask
  | stands {st : Option (List Awk.Text)} {type success : Awk.Text} : Stands st type success →
      (type = "DPORT".toList → ∃ line₁ line₂ rest, st = some (line₁ :: line₂ :: rest)) →
      Regular st (verdictOf type)

/-- The verdict, unless the port is merged and skipped. -/
theorem awkCmd2_regular {st : Option (List Awk.Text)} {v : Verdict} (h : Regular st v)
    (awk : Awk.Reading) (latt : Awk.Text) (mex : Bool) : ∃ skips : Bool,
      (awkCmd2 awk latt mex (st.getD [])).getD (.hold .port) = (if skips then .skip else v) ∧
      (skips = true → mex = true) ∧ (v = .lock → skips = mex) := by
  cases h with
  | @mask line rest hline =>
    refine ⟨false, ?_, nofun, nofun⟩
    unfold awkCmd2
    simp only [Option.getD_some, hline]
    rfl
  | stands hstands hsecond =>
    cases hstands with
    | missing => exact ⟨false, rfl, nofun, fun h => absurd h (by decide)⟩
    | @file _ _ rest htype _ _ =>
      cases htype with
      | lock =>
        refine ⟨mex, ?_, id, fun _ => rfl⟩
        unfold awkCmd2
        cases mex <;> rfl
      | port =>
        match rest with
        | [] => exact ⟨false, rfl, nofun, fun h => absurd h (by decide)⟩
        | line :: rest =>
          refine ⟨awk.eqField latt (Awk.field 3 line) && mex, ?_, fun hskips =>
            (Bool.and_eq_true_iff.mp hskips).2, fun h => absurd h (by decide)⟩
          rw [Option.getD_some, awkCmd2]
          cases awk.eqField latt (Awk.field 3 line) && mex <;> rfl
      | dport =>
        obtain ⟨_, line, rest, heq⟩ := hsecond rfl
        cases heq
        refine ⟨awk.eqField latt (Awk.field 3 line) && mex, ?_, fun hskips =>
          (Bool.and_eq_true_iff.mp hskips).2, fun h => absurd h (by decide)⟩
        rw [Option.getD_some, awkCmd2]
        cases awk.eqField latt (Awk.field 3 line) && mex <;> rfl

/-- What a verdict makes of a port, given its directory in `DPORTS`. -/
def made (src : Sources Diff) (v : Verdict) (origin : Origin) (dports : Tree) : Option Tree :=
  match v with
  | .skip | .mask => none
  | .lock => some dports
  | .hold mode =>
    some (mergeAlone src.programs (src.fports origin)
      (some ((src.overlay origin).getD noOverlay)) mode)

section Line

variable {src : Sources Diff} {w : World} {v : Verdict}

theorem mergeAlone_status (programs : Programs Diff) (orig : Tree) (dp : DeltaPort Diff)
    (st : Option (List Awk.Text)) (mode : Mode) :
    mergeAlone programs orig (some { dp with status := st }) mode =
      mergeAlone programs orig (some dp) mode := by
  cases mode <;> rfl

theorem deltaPort_cases (src : Sources Diff) (w : World) (origin : Origin) :
    (deltaPort src w origin = none ∧ src.overlay origin = none ∧ status w origin = none) ∨
    deltaPort src w origin =
      some { (src.overlay origin).getD noOverlay with status := status w origin } := by
  unfold deltaPort
  cases src.overlay origin with
  | some dp => exact Or.inr rfl
  | none =>
    cases status w origin with
    | none => exact Or.inl ⟨rfl, rfl, rfl⟩
    | some st => exact Or.inr rfl

theorem Regular.of_none (h : Regular none v) : v = .hold .port := by
  cases h with
  | stands hstands _ =>
    cases hstands
    rfl

theorem Regular.ne_skip {st : Option (List Awk.Text)} (h : Regular st v) : v ≠ .skip := by
  cases h with
  | mask _ => nofun
  | stands _ _ =>
    unfold verdictOf
    split <;> nofun

/-- The line makes what its verdict makes alone, or leaves a merged port as it is. -/
theorem mainStep_regular {s : State} {line : Work} (hregular : Regular (status w line.port) v)
    (hclean : FiltersClean (env src w) s line) :
    (mainStep (env src w) s line).merged line.port =
        made src v line.port (w.repos.repo .dport line.port).tree ∨
      (s.merged line.port).isSome ∧
        (mainStep (env src w) s line).merged line.port = s.merged line.port := by
  have hhold : ∀ mode, decision (env src w) s line = .hold mode →
      (mainStep (env src w) s line).merged line.port =
        some (mergeAlone src.programs (src.fports line.port) (deltaPort src w line.port) mode) := by
    intro mode hmode
    have halone := (merge_alone_iff src.programs _ _ _ s.work).mpr (hclean mode hmode)
    exact (merged_of_hold hmode).trans (congrArg some halone)
  rcases deltaPort_cases src w line.port with ⟨hnone, hoverlay, hstatus⟩ | hsome
  · left
    have hmode : decision (env src w) s line = .hold .fast := by
      unfold decision env
      dsimp only
      rw [hnone]
    rw [hstatus] at hregular
    rw [hhold .fast hmode, hnone, hregular.of_none, made, hoverlay]
    rfl
  · obtain ⟨skips, hverdict, hmerged, hlocked⟩ := awkCmd2_regular hregular src.programs.awk
      (Awk.assigned line.version) (s.merged line.port).isSome
    have hdecision : decision (env src w) s line = if skips then .skip else v := by
      rw [← hverdict]
      unfold decision env
      dsimp only
      rw [hsome]
    cases skips with
    | true =>
      right
      refine ⟨hmerged rfl, ?_⟩
      rw [mainStep_of_skip hdecision]
    | false =>
      left
      have hv : decision (env src w) s line = v := hdecision
      cases v with
      | skip => exact absurd rfl hregular.ne_skip
      | lock => exact merged_of_lock hv
      | mask => exact merged_of_mask hv
      | hold mode =>
        rw [hhold mode hv, hsome, mergeAlone_status]
        rfl

theorem fresh_eq {origin : Origin} (hregular : Regular (status w origin) v) :
    fresh (env src w) origin = made src v origin (w.repos.repo .dport origin).tree := by
  have hclean : FiltersClean (env src w) freshStart ⟨origin, []⟩ :=
    fun _ _ _ p hp => absurd hp (Finset.notMem_empty p)
  have hregular' : Regular (status w (Work.port ⟨origin, []⟩)) v := hregular
  rcases mainStep_regular hregular' hclean with h | ⟨h, _⟩
  · exact h
  · cases h

end Line

theorem status_statusTree {st : List Awk.Text} (h : ∀ line ∈ st, '\n' ∉ line) :
    statusOf (CommitRounds.statusTree st) = some st := by
  have hfile : (CommitRounds.statusTree st).file CommitRounds.statusPath =
      some (LineTools.unlines st) := by
    unfold CommitRounds.statusTree FileTree.single
    dsimp only
    rw [if_pos rfl]
  unfold statusOf
  rw [hfile, Option.map_some, LineTools.lines_unlines h]

/-- The hook keeps the type of the port. -/
theorem regular_built {t : Tree} {v : Verdict} {e : Hook.Event} (h : Regular (statusOf t) v)
    (hmask : v ≠ .mask) (hversion : IsVersion (pkgv e.pkgname)) :
    Regular (statusOf (CommitRounds.builtTree .delta e t)) v := by
  have htree : CommitRounds.builtTree .delta e t =
      CommitRounds.statusTree (newStatus e (statusOf t)) := rfl
  rw [htree]
  generalize statusOf t = st at h
  cases h with
  | mask _ => exact absurd rfl hmask
  | @stands _ type success hstands hsecond =>
    have htype := hstands.type
    have hafter : IsVersion (successAfter success e) := by
      unfold successAfter
      cases e.result with
      | failed => exact htype.2
      | success => exact hversion
    have hwritten : newStatus e st = _ := newStatus_eq hstands e hversion
    have hlines : ∀ line ∈ newStatus e st, '\n' ∉ line := by
      rw [hwritten]
      simp only [List.mem_cons, List.not_mem_nil, or_false]
      rintro line (rfl | rfl | rfl)
      · exact htype.1.plain.1.newline_not_mem
      · unfold attemptLine
        rw [List.mem_append, not_or]
        exact ⟨by decide, hversion.plain.newline_not_mem⟩
      · unfold successLine
        rw [List.mem_append, List.mem_cons, not_or, not_or]
        exact ⟨by decide, by decide, hafter.plain.newline_not_mem⟩
    rw [status_statusTree hlines, hwritten]
    exact .stands (stands_written htype.1 hversion.plain hafter) fun _ => ⟨_, _, _, rfl⟩

section Run

variable {src : Sources Diff} {w : World} {p : Port} {v : Verdict} {t₀ : Tree}

/-- The port `p`, whose `STATUS` has the verdict `v`; `DPORTS` had `t₀` of it in the beginning. -/
structure Inv (src : Sources Diff) (p : Port) (v : Verdict) (t₀ : Tree) (w : World) : Prop where
  commits : CommitRounds.Inv w.repos
  regular : Regular (status w p.origin) v
  merged : w.state.merged p.origin = none ∨ w.state.merged p.origin = made src v p.origin t₀
  potential : w.potential p.origin = none ∨ w.potential p.origin = made src v p.origin t₀
  dports : (w.repos.repo .dport p.origin).tree = t₀ ∨
    made src v p.origin t₀ = some (w.repos.repo .dport p.origin).tree

theorem Inv.made_eq (h : Inv src p v t₀ w) :
    made src v p.origin (w.repos.repo .dport p.origin).tree = made src v p.origin t₀ := by
  cases v with
  | skip => rfl
  | mask => rfl
  | hold mode => rfl
  | lock =>
    rcases h.dports with heq | heq
    · rw [heq]
    · exact heq.symm

theorem line_merged (h : Inv src p v t₀ w) {l : Work} (hok : Ok src w (.line l))
    (hport : l.port = p.origin) :
    (step src w (.line l)).state.merged p.origin = made src v p.origin t₀ := by
  rcases mainStep_regular (hport.symm ▸ h.regular) hok with hmade | ⟨hsome, hsame⟩
  · rw [hport, h.made_eq] at hmade
    exact hmade
  · rw [hport] at hsome hsame
    refine hsame.trans (h.merged.resolve_left fun hnone => ?_)
    rw [hnone] at hsome
    cases hsome

theorem line_inv (h : Inv src p v t₀ w) {l : Work} (hok : Ok src w (.line l)) :
    Inv src p v t₀ (step src w (.line l)) where
  commits := h.commits
  regular := h.regular
  dports := h.dports
  potential := h.potential
  merged := by
    by_cases hport : l.port = p.origin
    · exact Or.inr (line_merged h hok hport)
    · rw [step, mainStep_merged_of_ne _ _ hport]
      exact h.merged

theorem copy_inv (h : Inv src p v t₀ w) (origin : Origin) :
    Inv src p v t₀ (step src w (.copy origin)) where
  commits := h.commits
  regular := h.regular
  merged := h.merged
  dports := h.dports
  potential := by
    by_cases hport : p.origin = origin
    · subst hport
      simp only [step, Function.update_self]
      exact h.merged
    · simp only [step, Function.update_of_ne hport]
      exact h.potential

theorem wake_tree (h : Inv src p v t₀ w) {r : Round} (hok : Ok src w (.wake r))
    (kind : CommitDaemon.Kind) : ((step src w (.wake r)).repos.repo kind p.origin).tree =
      (w.repos.repo kind p.origin).tree :=
  (CommitRounds.daemonRound_past h.commits.names hok.1 hok.2 kind).tree p.origin

theorem wake_inv (h : Inv src p v t₀ w) {r : Round} (hok : Ok src w (.wake r)) :
    Inv src p v t₀ (step src w (.wake r)) where
  commits := CommitRounds.daemonRound_inv h.commits hok.1 hok.2
  regular := by
    unfold status
    rw [wake_tree h hok]
    exact h.regular
  merged := h.merged
  potential := h.potential
  dports := by
    rw [wake_tree h hok]
    exact h.dports

section Build

variable {q : Port} {result : Result} {pkgname : Awk.Text} {t : Tree}

theorem step_build (ht : w.potential q.origin = some t) :
    step src w (.build q result pkgname) =
      { w with repos := hook q ⟨result, pkgname, t⟩ w.repos } := by
  rw [step, ht]
  rfl

theorem build_tree (ht : w.potential q.origin = some t) (hport : q.origin = p.origin)
    (kind : CommitDaemon.Kind) :
    ((step src w (.build q result pkgname)).repos.repo kind p.origin).tree =
      CommitRounds.builtTree kind ⟨result, pkgname, t⟩ (w.repos.repo kind p.origin).tree := by
  rw [step_build ht, ← hport]
  exact congrArg _ (CommitRounds.hook_repo q ⟨result, pkgname, t⟩ w.repos kind)

theorem build_other (hok : Ok src w (.build q result pkgname)) (hport : q.origin ≠ p.origin)
    (kind : CommitDaemon.Kind) :
    (step src w (.build q result pkgname)).repos.repo kind p.origin =
      w.repos.repo kind p.origin := by
  obtain ⟨t, ht⟩ := Option.isSome_iff_exists.mp hok.1
  rw [step_build ht]
  exact CommitRounds.hook_other _ _ _ _ (Ne.symm hport)

theorem Inv.made_of_potential (h : Inv src p v t₀ w) (ht : w.potential p.origin = some t) :
    made src v p.origin t₀ = some t := by
  refine (h.potential.resolve_left fun hnone => ?_).symm.trans ht
  rw [hnone] at ht
  cases ht

theorem build_dports (h : Inv src p v t₀ w) (hok : Ok src w (.build q result pkgname)) :
    (Publishes p (.build q result pkgname) → made src v p.origin t₀ =
      some ((step src w (.build q result pkgname)).repos.repo .dport p.origin).tree) ∧
    (¬ Publishes p (.build q result pkgname) →
      ((step src w (.build q result pkgname)).repos.repo .dport p.origin).tree =
        (w.repos.repo .dport p.origin).tree) := by
  by_cases hport : q.origin = p.origin
  · obtain ⟨t, ht⟩ := Option.isSome_iff_exists.mp hok.1
    rw [build_tree ht hport]
    cases result with
    | success => exact ⟨fun _ => h.made_of_potential (hport ▸ ht), fun hnot => absurd hport hnot⟩
    | failed => exact ⟨False.elim, fun _ => rfl⟩
  · rw [build_other hok hport]
    cases result with
    | success => exact ⟨fun h => absurd h hport, fun _ => rfl⟩
    | failed => exact ⟨False.elim, fun _ => rfl⟩

theorem build_inv (h : Inv src p v t₀ w) (hok : Ok src w (.build q result pkgname)) :
    Inv src p v t₀ (step src w (.build q result pkgname)) where
  commits := by
    obtain ⟨t, ht⟩ := Option.isSome_iff_exists.mp hok.1
    rw [step_build ht]
    exact CommitRounds.hook_inv q _ w.repos h.commits
  regular := by
    unfold status
    by_cases hport : q.origin = p.origin
    · obtain ⟨t, ht⟩ := Option.isSome_iff_exists.mp hok.1
      have hmask : v ≠ .mask := by
        rintro rfl
        cases h.made_of_potential (hport ▸ ht)
      rw [build_tree ht hport]
      exact regular_built h.regular hmask hok.2
    · rw [build_other hok hport]
      exact h.regular
  merged := by
    obtain ⟨t, ht⟩ := Option.isSome_iff_exists.mp hok.1
    rw [step_build ht]
    exact h.merged
  potential := by
    obtain ⟨t, ht⟩ := Option.isSome_iff_exists.mp hok.1
    rw [step_build ht]
    exact h.potential
  dports := by
    obtain ⟨hpublished, hkept⟩ := build_dports h hok
    by_cases hp : Publishes p (.build q result pkgname)
    · exact Or.inr (hpublished hp)
    · rw [hkept hp]
      exact h.dports

end Build

theorem step_inv (h : Inv src p v t₀ w) {ev : Event} (hok : Ok src w ev) :
    Inv src p v t₀ (step src w ev) := by
  cases ev with
  | line l => exact line_inv h hok
  | copy origin => exact copy_inv h origin
  | build q result pkgname => exact build_inv h hok
  | wake r => exact wake_inv h hok

theorem step_merged (h : Inv src p v t₀ w) {ev : Event} (hok : Ok src w ev) :
    (Merges p ev → (step src w ev).state.merged p.origin = made src v p.origin t₀) ∧
    (¬ Merges p ev → (step src w ev).state.merged p.origin = w.state.merged p.origin) := by
  cases ev with
  | line l => exact ⟨line_merged h hok, mainStep_merged_of_ne _ _⟩
  | copy origin => exact ⟨False.elim, fun _ => rfl⟩
  | build q result pkgname => exact ⟨False.elim, fun _ => rfl⟩
  | wake r => exact ⟨False.elim, fun _ => rfl⟩

theorem step_dports (h : Inv src p v t₀ w) {ev : Event} (hok : Ok src w ev) :
    (Publishes p ev → made src v p.origin t₀ =
      some ((step src w ev).repos.repo .dport p.origin).tree) ∧
    (¬ Publishes p ev → ((step src w ev).repos.repo .dport p.origin).tree =
      (w.repos.repo .dport p.origin).tree) := by
  cases ev with
  | line l => exact ⟨False.elim, fun _ => rfl⟩
  | copy origin => exact ⟨False.elim, fun _ => rfl⟩
  | build q result pkgname => exact build_dports h hok
  | wake r => exact ⟨False.elim, fun _ => wake_tree h hok .dport⟩

theorem run_inv (h : Inv src p v t₀ w) {events : List Event} (hok : OkRun src w events) :
    Inv src p v t₀ (events.foldl (step src) w) := by
  induction events generalizing w with
  | nil => exact h
  | cons ev events ih => exact ih (step_inv h hok.1) hok.2

/-- A value that the events of one kind set to `x`, and the others leave as it is. -/
theorem run_settles {α : Type} {f : World → α} {x : α} {P : Event → Prop}
    (hstep : ∀ {w : World} {ev : Event}, Inv src p v t₀ w → Ok src w ev →
      (P ev → f (step src w ev) = x) ∧ (¬ P ev → f (step src w ev) = f w))
    (h : Inv src p v t₀ w) {events : List Event} (hok : OkRun src w events) :
    ((∃ ev ∈ events, P ev) → f (events.foldl (step src) w) = x) ∧
    ((∀ ev ∈ events, ¬ P ev) → f (events.foldl (step src) w) = f w) := by
  induction events generalizing w with
  | nil => exact ⟨fun ⟨_, hmem, _⟩ => absurd hmem List.not_mem_nil, fun _ => rfl⟩
  | cons ev events ih =>
    obtain ⟨hset, hkept⟩ := ih (step_inv h hok.1) hok.2
    obtain ⟨hset₁, hkept₁⟩ := hstep h hok.1
    rw [List.foldl_cons]
    constructor
    · rintro ⟨ev', hmem, hev'⟩
      by_cases hlater : ∃ ev ∈ events, P ev
      · exact hset hlater
      · have hnone : ∀ ev ∈ events, ¬ P ev := fun e he hp => hlater ⟨e, he, hp⟩
        rcases List.mem_cons.mp hmem with rfl | hmem
        · exact (hkept hnone).trans (hset₁ hev')
        · exact absurd hev' (hnone ev' hmem)
    · intro hnone
      have hrest := hkept fun e he => hnone e (List.mem_cons_of_mem ev he)
      exact hrest.trans (hkept₁ (hnone ev List.mem_cons_self))

theorem start_inv (hfresh : Fresh w.repos) (hregular : Regular (status w p.origin) v)
    (hmerged : w.state.merged p.origin = none ∨
      w.state.merged p.origin = fresh (env src w) p.origin)
    (hpotential : w.potential p.origin = none ∨
      w.potential p.origin = fresh (env src w) p.origin) :
    Inv src p v (w.repos.repo .dport p.origin).tree w where
  commits := hfresh.inv
  regular := hregular
  merged := by
    rw [← fresh_eq hregular]
    exact hmerged
  potential := by
    rw [← fresh_eq hregular]
    exact hpotential
  dports := Or.inl rfl

/-- However runs of `merge.sh`, copies, builds and rounds of the daemon follow each other: a line of the
worklist gives a port what its own directories give alone, and a round in which git works leaves
that in the last commit of `DPORTS` for each port that was built. -/
theorem built_ports_published {events : List Event} (hfresh : Fresh w.repos)
    (hregular : Regular (status w p.origin) v)
    (hmerged : w.state.merged p.origin = none ∨
      w.state.merged p.origin = fresh (env src w) p.origin)
    (hpotential : w.potential p.origin = none ∨
      w.potential p.origin = fresh (env src w) p.origin)
    (hok : OkRun src w events) :
    ((∃ ev ∈ events, Merges p ev) →
      (events.foldl (step src) w).state.merged p.origin = fresh (env src w) p.origin) ∧
    ((∀ ev ∈ events, ¬ Merges p ev) →
      (events.foldl (step src) w).state.merged p.origin = w.state.merged p.origin) ∧
    ∀ r, Lists r (events.foldl (step src) w).repos →
      (∀ kind, ∀ name ∈ r.candidates kind, Works (r.outcome kind name)) →
      ((∃ ev ∈ events, Publishes p ev) → fresh (env src w) p.origin =
        some ((daemonRound r (events.foldl (step src) w).repos).repo .dport p.origin).head) ∧
      ((∀ ev ∈ events, ¬ Publishes p ev) →
        ((daemonRound r (events.foldl (step src) w).repos).repo .dport p.origin).head =
          (w.repos.repo .dport p.origin).head) := by
  have hstart := start_inv hfresh hregular hmerged hpotential
  obtain ⟨hmerges, hunmerged⟩ :=
    run_settles (P := Merges p) (f := fun w => w.state.merged p.origin)
      (fun h hok => step_merged h hok) hstart hok
  obtain ⟨hpublishes, hkept⟩ := run_settles (P := Publishes p)
    (f := fun w => some (w.repos.repo .dport p.origin).tree)
    (fun h hok => ⟨fun hp => ((step_dports h hok).1 hp).symm,
      fun hp => congrArg some ((step_dports h hok).2 hp)⟩) hstart hok
  rw [fresh_eq hregular]
  refine ⟨hmerges, hunmerged, fun r hlists hworks => ?_⟩
  rw [CommitRounds.daemonRound_head (run_inv hstart hok).commits hlists hworks]
  refine ⟨fun hp => (hpublishes hp).symm, fun hp => ?_⟩
  rw [← hfresh.committed]
  exact Option.some_inj.mp (hkept hp)

end Run

open CommitRounds (foo untouched fooRound)

def fooTree : Tree := FileTree.single (plainFile, []) "PORTNAME=foo".toList

noncomputable def fooSources : Sources Unit where
  fports _ := fooTree
  overlay _ := none
  programs := ⟨fun t _ => t, FileTree.Listing.any Path, Awk.decimals⟩

def nothingBuilt : World := ⟨untouched, freshStart, fun _ => none⟩

def fooEvents : List Event :=
  [.line ⟨foo.origin, "1.1".toList⟩, .copy foo.origin, .build foo .success "foo-1.1".toList]

/-- After the line and the copy. -/
noncomputable def fooCopied : World :=
  step fooSources (step fooSources nothingBuilt (.line ⟨foo.origin, "1.1".toList⟩))
    (.copy foo.origin)

theorem regular_foo : Regular (status nothingBuilt foo.origin) (.hold .port) :=
  .stands .missing fun h => absurd h (by decide)

theorem fresh_foo : fresh (env fooSources nothingBuilt) foo.origin = some fooTree := by
  have hlegacy : getLegacy fooTree = [] := by
    rw [List.eq_nil_iff_forall_not_mem]
    intro n hn
    obtain ⟨_, c, hc, hcontent⟩ := mem_getLegacy.mp hn
    unfold fooTree FileTree.single at hc
    dsimp only at hc
    split at hc
    · cases hc
      revert hcontent
      decide
    · cases hc
  have hplain : fastAndFiltered fooTree FileTree.empty = (fooTree, FileTree.empty) := by
    unfold fastAndFiltered
    rw [hlegacy]
    rfl
  rw [fresh_eq regular_foo]
  exact congrArg (fun m : Tree × Tree => some m.1) hplain

theorem foo_published :
    some ((daemonRound (fooRound true (fooEvents.foldl (step fooSources) nothingBuilt).repos)
      (fooEvents.foldl (step fooSources) nothingBuilt).repos).repo .dport foo.origin).head =
        some fooTree := by
  have hfresh : Fresh nothingBuilt.repos := ⟨fun _ _ => rfl, fun _ _ => rfl⟩
  have hline : Ok fooSources nothingBuilt (.line ⟨foo.origin, "1.1".toList⟩) :=
    fun _ _ _ p hp => absurd hp (Finset.notMem_empty p)
  have hmerged := line_merged (start_inv hfresh regular_foo (Or.inl rfl) (Or.inl rfl)) hline rfl
  rw [← fresh_eq regular_foo, fresh_foo] at hmerged
  have hcopied : (fooCopied.potential foo.origin) = some fooTree := by
    unfold fooCopied
    simp only [step, Function.update_self]
    exact hmerged
  have hbuild : Ok fooSources fooCopied (.build foo .success "foo-1.1".toList) := by
    refine ⟨?_, by decide, by decide⟩
    rw [hcopied]
    rfl
  have hqueue : ∀ kind name, name ≠ CommitRounds.queueName foo.origin →
      (fooEvents.foldl (step fooSources) nothingBuilt).repos.queue kind name = none := by
    intro kind name hne
    unfold fooEvents
    rw [List.foldl_cons, List.foldl_cons, List.foldl_cons, List.foldl_nil]
    change (step fooSources fooCopied _).repos.queue kind name = none
    rw [step_build hcopied]
    exact CommitRounds.hook_queue_other _ _ _ _ hne
  have hok : OkRun fooSources nothingBuilt fooEvents := ⟨hline, trivial, hbuild, trivial⟩
  have hpublished := (built_ports_published hfresh regular_foo (Or.inl rfl) (Or.inl rfl) hok).2.2 _
    (CommitRounds.fooRound_lists hqueue) fun _ _ _ => ⟨rfl, rfl, rfl⟩
  rw [fresh_foo] at hpublished
  have hbuilt : .build foo .success "foo-1.1".toList ∈ fooEvents :=
    List.mem_cons_of_mem _ (List.mem_cons_of_mem _ List.mem_cons_self)
  exact (hpublished.1 ⟨_, hbuilt, rfl⟩).symm

end DeltaPorts.Generator.MergeHistory

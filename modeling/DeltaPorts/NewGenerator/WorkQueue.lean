import Mathlib.Data.List.Nodup
import DeltaPorts.Library.RetriedJobs
import DeltaPorts.NewGenerator.Failure

/-!
# The filters as a queue of jobs

Between two invocations the generator knows what is left to do from the markers alone. On a work
directory it does what a queue of the filters does: an invocation goes on with the filter that
failed in the one before.
-/

set_option autoImplicit false

namespace DeltaPorts.NewGenerator

open Exits RetriedJobs

variable {Name : Type} {i : Invocation Name} {w₀ : World Name}

/-- A phase and one of its filters. -/
abbrev Job (Name : Type) := Name × Name

def Job.marker (job : Job Name) : Marker Name := .filter job.1 job.2

/-- The filters that were started, with their statuses. -/
def filterRuns (log : List (Event Name)) : List (Job Name × Nat) :=
  log.filterMap fun
    | .ran (.filter phase script) status => some ((phase, script), status)
    | _ => none

theorem filterRuns_concat (log : List (Event Name)) (e : Event Name) :
    filterRuns (log ++ [e]) = filterRuns log ++ filterRuns [e] := List.filterMap_append

/-- No filter was run and no marker set, and the directories are still there. -/
structure Still (w₀ w : World Name) : Prop where
  runs : filterRuns w.log = filterRuns w₀.log
  markers : w.markers = w₀.markers
  dirs : ∀ dir ∈ w₀.dirs, dir ∈ w.dirs

theorem Still.refl (w : World Name) : Still w w := ⟨rfl, rfl, fun _ h => h⟩

theorem Still.err {w : World Name} (h : Still w₀ w) (status : Nat) :
    Still w₀ (w.logged (.err status)) := by
  refine ⟨?_, h.markers, h.dirs⟩
  rw [World.logged, filterRuns_concat, h.runs]
  exact List.append_nil _

theorem Still.after {command : Command Name}
    (hnone : ∀ status, filterRuns [Event.ran command status] = []) {w : World Name}
    (h : Still w₀ w) (status : Nat) (leaves : Bool) : Still w₀ (w.after command status leaves) := by
  refine ⟨?_, h.markers, fun dir hdir => World.mem_dirs_after (h.dirs dir hdir) _ _ _⟩
  have hlog : (w.after command status leaves).log = w.log ++ [.ran command status] := rfl
  rw [hlog, filterRuns_concat, hnone, List.append_nil, h.runs]

variable {K : World Name → Prop}

/-- The command keeps it, and so does the message of an error. -/
structure Kept (i : Invocation Name) (K : World Name → Prop) (command : Command Name) :
    Prop where
  err : ∀ w, K w → K (w.logged (.err 1))
  after : ∀ w, K w → K (w.after command (i.status command) (i.leaves command))

theorem kept_orErr {m : Exits (World Name) Nat} {rest : Exits (World Name) Unit}
    (herr : ∀ w, K w → K (w.logged (.err 1))) (hm : Spec K m (fun _ => K) fun _ => K)
    (hrest : Spec K rest (fun _ => K) fun _ => K) :
    Spec K (m >>= fun status => if status ≠ 0 then err i 1 else rest) (fun _ => K) fun _ => K :=
  Spec.bind hm fun _ => Spec.ite (fun _ => spec_err herr) fun _ => hrest

theorem Kept.runcmd {command : Command Name} (h : Kept i K command) :
    Spec K (runcmd i command) (fun _ => K) fun _ => K :=
  spec_runcmd fun w hw => h.after w hw

theorem still_kept {command : Command Name}
    (hnone : ∀ status, filterRuns [Event.ran command status] = []) :
    Kept i (Still w₀) command :=
  ⟨fun _ hw => hw.err 1, fun _ hw => hw.after hnone _ _⟩

variable [LinearOrder Name] {fs : Filters Name}

def phaseJobs (fs : Filters Name) (phase : Name) : List (Job Name) :=
  (fs.filters phase).map fun script => (phase, script)

/-- All filters, in the order of the two loops. -/
def jobs (fs : Filters Name) : List (Job Name) := fs.phases.flatMap (phaseJobs fs)

def marked (w : World Name) (job : Job Name) : Bool := w.markers.contains (Job.marker job)

def left (fs : Filters Name) (w : World Name) : List (Job Name) :=
  (jobs fs).filter fun job => !marked w job

def tries (i : Invocation Name) : Try (Job Name) where
  succeeds job := i.executable job.1 job.2 && i.status (.filter job.1 job.2) = 0
  report job :=
    if i.executable job.1 job.2 then some (i.status (.filter job.1 job.2)) else none
  report_ne_zero job hjob := by
    cases hexec : i.executable job.1 job.2 with
    | false => simp
    | true => simpa [hexec] using hjob

/-- The invocation comes to the filters: it is one of `auto`, and nothing fails before. -/
def reaches (i : Invocation Name) (w : World Name) : Bool :=
  (match i.args with | .auto => true | _ => false) &&
  [Dir.gwrkdir, .merged, .potential, .comqueue].all
    (fun dir => w.dirs.contains dir || i.status (.mkdir dir) = 0) &&
  (w.dirs.contains .dports || i.status (.clone DPORTS_URL .dports) = 0) &&
  (w.dirs.contains .delta || i.status (.clone DELTA_URL .delta) = 0) &&
  (w.dirs.contains .fports ||
    i.status (.portsnapFetch .fports) = 0 && i.status (.portsnapExtract .fports) = 0)

/-- An invocation, with a log of its own. -/
def invoke (fs : Filters Name) (w : World Name) (i : Invocation Name) : World Name :=
  (generator i fs { w with log := [] }).2

def runsOf (fs : Filters Name) : World Name → List (Invocation Name) → List (Job Name × Nat)
  | _, [] => []
  | w, i :: is => filterRuns (invoke fs w i).log ++ runsOf fs (invoke fs w i) is

/-- The invocations that come to the filters. -/
def reaching (fs : Filters Name) : World Name → List (Invocation Name) → List (Invocation Name)
  | _, [] => []
  | w, i :: is =>
    if reaches i w = true then i :: reaching fs (invoke fs w i) is
    else reaching fs (invoke fs w i) is

/-- The marker of a phase stands where it has filters and those of all of them do. -/
def PhaseRight (fs : Filters Name) (w : World Name) (phase : Name) : Prop :=
  .phase phase ∈ w.markers ↔
    phase ∈ fs.phases ∧ fs.filters phase ≠ [] ∧ ∀ job ∈ phaseJobs fs phase, marked w job = true

theorem kept_unless {α : Type} {dir : Dir Name} {a : α} {m : Exits (World Name) α}
    (hm : Spec K m (fun _ => K) fun _ => K) :
    Spec K (isDir dir >>= fun b => if b = true then pure a else m) (fun _ => K) fun _ => K :=
  Spec.test (Spec.pure fun _ hw => hw.1)
    (hm.weaken (fun _ hw => hw.1) (fun _ _ hw => hw) fun _ _ hw => hw)

theorem kept_fixDirs (h : ∀ dir ∈ [Dir.gwrkdir, .merged, .potential, .comqueue],
    Kept i K (.mkdir dir)) : Spec K (fixDirs i) (fun _ => K) fun _ => K := by
  refine Spec.forWords (J := fun _ => K) _ _ [] fun before dir after hdirs => kept_unless ?_
  have hdir : dir ∈ [Dir.gwrkdir, .merged, .potential, .comqueue] := by
    rw [List.nil_append] at hdirs
    rw [← hdirs]
    exact List.mem_append_right before List.mem_cons_self
  exact kept_orErr (h dir hdir).err (h dir hdir).runcmd (Spec.pure fun _ hw => hw)

theorem kept_setupRepo {url : String} {dst : Dir Name} (h : Kept i K (.clone url dst)) :
    Spec K (setupRepo i url dst) (fun _ => K) fun _ => K :=
  kept_orErr h.err (kept_unless h.runcmd) (Spec.pure fun _ hw => hw)

theorem kept_psnapInit {dst : Dir Name} (hmkdir : Kept i K (.mkdir .portsnap))
    (hfetch : Kept i K (.portsnapFetch dst)) (hextract : Kept i K (.portsnapExtract dst)) :
    Spec K (psnapInit i (some dst)) (fun _ => K) fun _ => K :=
  kept_unless (Spec.bind hmkdir.runcmd fun _ => kept_orErr hfetch.err hfetch.runcmd
    (kept_orErr hextract.err hextract.runcmd (Spec.pure fun _ hw => hw)))

/-- What every command and every marker of a phase keeps, the loops over the phases keep. -/
theorem kept_phases (hmkdir : ∀ phase, Kept i K (.mkdir (.phase phase)))
    (hfilter : ∀ phase script, Kept i K (.filter phase script))
    (htouch : ∀ w, ∀ phase ∈ fs.phases, ∀ script, .phase phase ∈ w.dirs → K w →
      K { w.logged (.touched (.filter phase script)) with
        markers := .filter phase script :: w.markers })
    (hphase : ∀ w, ∀ phase ∈ fs.phases, K w →
      K { w.logged (.touched (.phase phase)) with markers := .phase phase :: w.markers }) :
    Spec K (forWords fs.phases fun phase => runPhase i fs (some phase)) (fun _ => K) fun _ => K := by
  have hskip {α : Type} {marker : Marker Name} {a : α} {m : Exits (World Name) α}
      (hm : Spec K m (fun _ => K) fun _ => K) :
      Spec K (isMarked marker >>= fun b => if b = true then pure a else m) (fun _ => K) fun _ => K :=
    Spec.test (Spec.pure fun _ hw => hw.1)
      (hm.weaken (fun _ hw => hw.1) (fun _ _ hw => hw) fun _ _ hw => hw)
  refine Spec.forWords (J := fun _ => K) _ _ [] fun before phase after hsplit => hskip (Spec.ite
    (fun _ => Spec.pure fun _ hw => hw) fun _ => ?_)
  have hmem : phase ∈ fs.phases := by
    rw [List.nil_append] at hsplit
    rw [← hsplit]
    exact List.mem_append_right before List.mem_cons_self
  have hrun (script : Name) : Spec K (runFilter i phase script) (fun _ => K) fun _ => K :=
    Spec.ite (fun _ => (hfilter phase script).runcmd) fun _ => Spec.pure fun _ hw => hw
  have htouched (script : Name) : Spec K (touchFilter phase script) (fun _ => K) fun _ => K := by
    refine Spec.test (Spec.cmd fun w hw => ?_) (Spec.pure fun _ hw => hw.1)
    exact htouch w phase hmem script (List.contains_iff_mem.mp hw.2) hw.1
  have hprocess (script : Name) : Spec K (processFilter i phase script) (fun _ => K) fun _ => K :=
    hskip (kept_orErr (hfilter phase script).err (hrun script) (htouched script))
  have hdir : Spec K (phaseDir i phase) (fun _ => K) fun _ => K :=
    kept_unless (Spec.bind (hmkdir phase).runcmd fun _ => Spec.pure fun _ hw => hw)
  have hloop : Spec K (forWords (fs.filters phase) (processFilter i phase)) (fun _ => K)
      fun _ => K := Spec.forWords (J := fun _ => K) _ _ [] fun _ script _ _ => hprocess script
  exact Spec.bind hdir fun _ => Spec.bind hloop fun _ => Spec.cmd fun w hw => hphase w phase hmem hw

/-- Only `mkdir` makes the work directory of a phase. -/
def Command.Ordinary (command : Command Name) : Prop :=
  ∀ phase, command.makes = some (.phase phase) → command = .mkdir (.phase phase)

theorem kept_main (hcommand : ∀ command, command.Ordinary → Kept i K command)
    (htouch : ∀ w, ∀ phase ∈ fs.phases, ∀ script, .phase phase ∈ w.dirs → K w →
      K { w.logged (.touched (.filter phase script)) with
        markers := .filter phase script :: w.markers })
    (hphase : ∀ w, ∀ phase ∈ fs.phases, K w →
      K { w.logged (.touched (.phase phase)) with markers := .phase phase :: w.markers }) :
    Spec K (main i fs) (fun _ => K) fun _ => K := by
  have hmkdir (dir : Dir Name) : Kept i K (.mkdir dir) := by
    refine hcommand _ fun phase hmakes => ?_
    rw [Option.some.inj hmakes]
  have hother {command : Command Name} (hmakes : ∀ phase, command.makes ≠ some (.phase phase)) :
      Kept i K command := hcommand _ fun phase h => absurd h (hmakes phase)
  have hdirs : Spec K (fixDirs i) (fun _ => K) fun _ => K := kept_fixDirs fun _ _ => hmkdir _
  have hrepos : Spec K (reposSetup i) (fun _ => K) fun _ => K :=
    Spec.bind (kept_setupRepo (hother (by simp [Command.makes])))
      fun _ => Spec.bind (kept_setupRepo (hother (by simp [Command.makes])))
      fun _ => kept_psnapInit (hmkdir _) (hother (by simp [Command.makes]))
        (hother (by simp [Command.makes]))
  have hphases := kept_phases (fun _ => hmkdir _)
    (fun _ _ => hother (by simp [Command.makes])) htouch hphase
  unfold main
  split
  · exact Spec.exit fun _ hw => hw
  · exact Spec.bind hdirs fun _ => Spec.bind hrepos fun _ => hphases
  · exact Spec.bind hdirs fun _ => Spec.exit fun _ hw => hw

theorem kept_invoke {w : World Name} (hcommand : ∀ command, command.Ordinary → Kept i K command)
    (htouch : ∀ w, ∀ phase ∈ fs.phases, ∀ script, .phase phase ∈ w.dirs → K w →
      K { w.logged (.touched (.filter phase script)) with
        markers := .filter phase script :: w.markers })
    (hphase : ∀ w, ∀ phase ∈ fs.phases, K w →
      K { w.logged (.touched (.phase phase)) with markers := .phase phase :: w.markers })
    (hw : K { w with log := [] }) : K (invoke fs w i) := by
  have hend := kept_main hcommand htouch hphase _ hw
  unfold invoke generator
  rcases hmain : main i fs { w with log := [] } with ⟨_ | _, w'⟩
  · rw [hmain] at hend
    exact hend
  · rw [hmain] at hend
    exact hend

theorem still_fixDirs :
    Spec (Still w₀) (fixDirs i) (fun _ => Still w₀) fun _ => Still w₀ :=
  kept_fixDirs fun _ _ => still_kept fun _ => rfl

theorem still_setupRepo {url : String} {dst : Dir Name} :
    Spec (Still w₀) (setupRepo i url dst) (fun _ => Still w₀) fun _ => Still w₀ :=
  kept_setupRepo (still_kept fun _ => rfl)

theorem still_psnapInit {dst : Dir Name} :
    Spec (Still w₀) (psnapInit i (some dst)) (fun _ => Still w₀) fun _ => Still w₀ :=
  kept_psnapInit (still_kept fun _ => rfl) (still_kept fun _ => rfl) (still_kept fun _ => rfl)

theorem still_reposSetup :
    Spec (Still w₀) (reposSetup i) (fun _ => Still w₀) fun _ => Still w₀ :=
  Spec.bind still_setupRepo fun _ => Spec.bind still_setupRepo fun _ => still_psnapInit

def noPhases : Filters Name where
  phases := []
  filters _ := []
  phases_sorted := List.Pairwise.nil
  filters_sorted _ := List.Pairwise.nil

theorem main_eq (hauto : i.args = .auto) : main i fs =
    main i noPhases >>= fun _ => Exits.forWords fs.phases fun phase => runPhase i fs (some phase) := by
  funext w
  unfold main
  rw [hauto]
  dsimp only [bind, doAutomode]
  rcases fixDirs i w with ⟨_ | _, w'⟩
  · rfl
  · dsimp only
    rcases reposSetup i w' with ⟨_ | _, w''⟩ <;> rfl

theorem reaches_eq (hauto : i.args = .auto) :
    reaches i w₀ = true ↔ NoFailure noPhases i w₀ := by
  unfold reaches
  rw [hauto]
  simp only [Bool.and_eq_true, Bool.or_eq_true, decide_eq_true_eq, List.all_eq_true,
    List.contains_iff_mem, true_and]
  constructor
  · rintro ⟨⟨⟨hdirs, hdports⟩, hdelta⟩, hports⟩
    exact ⟨hdirs, hdports, hdelta, hports, fun _ h => absurd h List.not_mem_nil⟩
  · exact fun h => ⟨⟨⟨h.dirs, h.dports⟩, h.delta⟩, h.ports⟩

/-- The script comes to the filters, or it ends in `err` before. -/
theorem spec_noPhases (hauto : i.args = .auto) (hlog : w₀.log = []) :
    Spec (fun w => w = w₀) (main i noPhases) (fun _ w => Still w₀ w ∧ reaches i w₀ = true)
      fun _ w => Still w₀ w ∧ reaches i w₀ = false := by
  have hstill : Spec (Still w₀) (main i noPhases) (fun _ => Still w₀) fun _ => Still w₀ := by
    unfold main
    rw [hauto]
    exact Spec.bind still_fixDirs fun _ => Spec.bind still_reposSetup fun _ =>
      Spec.pure fun _ hw => hw
  refine (hstill.and (@main_auto _ w₀ _ noPhases i hauto)).weaken ?_ (fun _ w hw => ⟨hw.1, ?_⟩)
    fun _ w hw => ⟨hw.1, ?_⟩
  · rintro w rfl
    refine ⟨.refl w, fun n hn => ?_, fun _ _ => Iff.rfl, fun _ _ => Iff.rfl, trivial⟩
    rw [hlog] at hn
    cases hn
  · exact (reaches_eq hauto).mpr hw.2.2.1
  · rw [← Bool.not_eq_true, reaches_eq hauto]
    exact hw.2.2.2.2

/-- The loops have gone through the filters in `visited`. -/
structure At (i : Invocation Name) (w₀ : World Name) (visited : List (Job Name))
    (w : World Name) : Prop where
  markers : ∀ job, marked w job = (marked w₀ job || decide (job ∈ visited))
  runs : filterRuns w.log =
    filterRuns w₀.log ++ (visited.filter fun job => !marked w₀ job).map fun job => (job, 0)
  done : ∀ job ∈ visited, marked w₀ job = false → (tries i).succeeds job = true

/-- What an invocation that comes to the filters leaves. -/
structure Attempted (fs : Filters Name) (i : Invocation Name) (w₀ w : World Name) : Prop where
  runs : filterRuns w.log = filterRuns w₀.log ++ (attempt (tries i) (left fs w₀)).1
  left : left fs w = (attempt (tries i) (left fs w₀)).2
  phases : ∀ phase, PhaseRight fs w phase

theorem nodup_jobs (fs : Filters Name) : (jobs fs).Nodup := by
  unfold jobs
  rw [List.nodup_flatMap]
  constructor
  · intro phase _
    have hfilters : (fs.filters phase).Nodup := (fs.filters_sorted phase).imp fun h => h.ne
    exact hfilters.map fun _ _ h => (Prod.mk.inj h).2
  · refine fs.phases_sorted.imp fun hlt job hjob hjob' => ?_
    obtain ⟨_, _, rfl⟩ := List.mem_map.mp hjob
    obtain ⟨_, _, heq⟩ := List.mem_map.mp hjob'
    exact hlt.ne (Prod.mk.inj heq).1.symm

section Loop

variable {visited rest : List (Job Name)} {job : Job Name} {w : World Name}

theorem At.front (h : At i w₀ visited w) :
    ∀ j ∈ visited.filter fun j => !marked w₀ j, (tries i).succeeds j = true := by
  intro j hj
  obtain ⟨hmem, hnot⟩ := List.mem_filter.mp hj
  exact h.done j hmem (by simpa using hnot)

/-- The loops are through. -/
theorem At.attempted (h : At i w₀ (jobs fs) w) (hphases : ∀ phase, PhaseRight fs w phase) :
    Attempted fs i w₀ w where
  runs := by
    rw [h.runs, left, attempt_of_all h.front]
  left := by
    have hall : left fs w = [] := by
      unfold left
      rw [List.filter_eq_nil_iff]
      intro j hj
      rw [h.markers]
      simp [hj]
    rw [hall, left, attempt_of_all h.front]
  phases := hphases

/-- A filter that has no marker fails. -/
theorem At.attempted_of_failed {w' : World Name} (h : At i w₀ visited w)
    (hsplit : jobs fs = visited ++ job :: rest) (hunmarked : marked w job = false)
    (hfailed : (tries i).succeeds job = false) (hmarkers : w'.markers = w.markers)
    (hruns : filterRuns w'.log =
      filterRuns w.log ++ ((tries i).report job).toList.map fun status => (job, status))
    (hphases : ∀ phase, PhaseRight fs w' phase) : Attempted fs i w₀ w' := by
  have hmarked : ∀ j, marked w' j = marked w j := fun j => by rw [marked, marked, hmarkers]
  have hnodup := nodup_jobs fs
  rw [hsplit, List.nodup_append] at hnodup
  have hstart : marked w₀ job = false := by
    rw [h.markers, Bool.or_eq_false_iff] at hunmarked
    exact hunmarked.1
  have hleft₀ : left fs w₀ = (visited.filter fun j => !marked w₀ j) ++
      job :: rest.filter fun j => !marked w₀ j := by
    rw [left, hsplit, List.filter_append, List.filter_cons_of_pos (by rw [hstart]; rfl)]
  have hleft : left fs w' = job :: rest.filter fun j => !marked w₀ j := by
    have hvisited : visited.filter (fun j => !marked w' j) = [] := by
      rw [List.filter_eq_nil_iff]
      intro j hj
      rw [hmarked, h.markers]
      simp [hj]
    have hrest : rest.filter (fun j => !marked w' j) = rest.filter fun j => !marked w₀ j := by
      refine List.filter_congr fun j hj => ?_
      have hnew : j ∉ visited := fun hv => hnodup.2.2 j hv j (List.mem_cons_of_mem job hj) rfl
      rw [hmarked, h.markers]
      simp [hnew]
    rw [left, hsplit, List.filter_append, hvisited, List.nil_append,
      List.filter_cons_of_pos (by rw [hmarked, hunmarked]; rfl), hrest]
  have hattempt := attempt_of_failed h.front hfailed (rest.filter fun j => !marked w₀ j)
  constructor
  · rw [hruns, h.runs, hleft₀, hattempt, List.append_assoc]
  · rw [hleft, hleft₀, hattempt]
  · exact hphases

/-- In the loop over the filters of a phase. -/
structure Entered (fs : Filters Name) (i : Invocation Name) (w₀ : World Name) (phase : Name)
    (visited : List (Job Name)) (w : World Name) : Prop where
  place : At i w₀ visited w
  others : ∀ p, p ≠ phase → PhaseRight fs w p
  unmarked : .phase phase ∉ w.markers
  dirs : ∀ dir ∈ w₀.dirs, dir ∈ w.dirs
  home : .phase phase ∈ w.dirs

theorem PhaseRight.congr {w' : World Name} {phase : Name} (h : PhaseRight fs w phase)
    (hmarker : .phase phase ∈ w'.markers ↔ .phase phase ∈ w.markers)
    (hmarked : ∀ job ∈ phaseJobs fs phase, marked w' job = marked w job) :
    PhaseRight fs w' phase := by
  have hw : .phase phase ∈ w.markers ↔ _ := h
  unfold PhaseRight
  rw [hmarker, hw]
  refine and_congr_right fun _ => and_congr_right fun _ => forall₂_congr fun job hjob => ?_
  rw [hmarked job hjob]

/-- With a filter that has no marker, the phase has none. -/
theorem Entered.phases {phase : Name} (h : Entered fs i w₀ phase visited w)
    (hjob : job ∈ phaseJobs fs phase) (hunmarked : marked w job = false) (p : Name) :
    PhaseRight fs w p := by
  by_cases hp : p = phase
  · subst hp
    refine iff_of_false h.unmarked fun hall => ?_
    rw [hall.2.2 job hjob] at hunmarked
    cases hunmarked
  · exact h.others p hp

theorem not_mem_visited (hsplit : jobs fs = visited ++ job :: rest) : job ∉ visited := by
  have hnodup := nodup_jobs fs
  rw [hsplit, List.nodup_append] at hnodup
  exact fun h => hnodup.2.2 job h job List.mem_cons_self rfl

theorem At.skip (h : At i w₀ visited w) (hstart : marked w₀ job = true) :
    At i w₀ (visited ++ [job]) w where
  markers j := by
    rw [h.markers]
    by_cases hj : j = job
    · rw [hj, hstart, Bool.true_or, Bool.true_or]
    · simp [hj]
  runs := by
    rw [h.runs, List.filter_append, List.filter_cons_of_neg (by rw [hstart]; decide),
      List.filter_nil, List.append_nil]
  done j hj hunmarked := by
    rcases List.mem_append.mp hj with hj | hj
    · exact h.done j hj hunmarked
    · rw [List.mem_singleton.mp hj, hstart] at hunmarked
      cases hunmarked

/-- What is there after a filter without a marker was run, before its marker is touched. -/
structure Ran (fs : Filters Name) (i : Invocation Name) (w₀ : World Name)
    (visited : List (Job Name)) (job : Job Name) (status : Nat) (w : World Name) : Prop where
  entered : ∃ w', Entered fs i w₀ job.1 visited w' ∧ marked w' job = false ∧
    w.markers = w'.markers ∧ (∀ dir ∈ w'.dirs, dir ∈ w.dirs) ∧
    filterRuns w.log = filterRuns w'.log ++
      ((tries i).report job).toList.map fun status => (job, status)
  status : (tries i).succeeds job = decide (status = 0)

theorem ran_runFilter {phase script : Name} :
    Spec (fun w => Entered fs i w₀ phase visited w ∧ marked w (phase, script) = false)
      (runFilter i phase script) (Ran fs i w₀ visited (phase, script)) fun _ =>
        Attempted fs i w₀ := by
  refine Spec.ite (fun hexec => spec_runcmd fun w hw => ?_) fun hexec => Spec.pure fun w hw => ?_
  · refine ⟨⟨w, hw.1, hw.2, rfl, fun _ hdir => World.mem_dirs_after hdir _ _ _, ?_⟩, ?_⟩
    · have hlog : (w.after (.filter phase script) (i.status (.filter phase script))
          (i.leaves (.filter phase script))).log =
          w.log ++ [.ran (.filter phase script) (i.status (.filter phase script))] := rfl
      rw [hlog, filterRuns_concat]
      simp [tries, hexec, filterRuns]
    · simp [tries, hexec]
  · refine ⟨⟨w, hw.1, hw.2, rfl, fun _ hdir => hdir, ?_⟩, ?_⟩
    · simp [tries, hexec]
    · simp [tries, hexec]

omit [LinearOrder Name] in
theorem report_of_succeeds (h : (tries i).succeeds job = true) : (tries i).report job = some 0 := by
  simp only [tries, Bool.and_eq_true, decide_eq_true_eq] at h ⊢
  rw [if_pos h.1, h.2]

theorem marked_touch (w : World Name) (job j : Job Name) :
    marked { w.logged (.touched job.marker) with markers := job.marker :: w.markers } j =
      (decide (j = job) || marked w j) := by
  have hmarker : j.marker = job.marker ↔ j = job := by
    unfold Job.marker
    rw [Marker.filter.injEq, Prod.ext_iff]
  rw [Bool.eq_iff_iff, marked, marked, Bool.or_eq_true, List.contains_iff_mem,
    List.contains_iff_mem, decide_eq_true_iff, List.mem_cons, hmarker]

/-- The filter has succeeded, and its marker is touched. -/
theorem Ran.touch (h : Ran fs i w₀ visited job 0 w) :
    Entered fs i w₀ job.1 (visited ++ [job])
      { w.logged (.touched job.marker) with markers := job.marker :: w.markers } := by
  obtain ⟨w', hentered, hunmarked, hmarkers, hdirs, hruns⟩ := h.entered
  have hsucceeds : (tries i).succeeds job = true := h.status
  have hsame : ∀ j, marked w j = marked w' j := fun j => by rw [marked, marked, hmarkers]
  have hstart : marked w₀ job = false := by
    rw [hentered.place.markers, Bool.or_eq_false_iff] at hunmarked
    exact hunmarked.1
  refine ⟨⟨fun j => ?_, ?_, fun j hj hnot => ?_⟩, fun p hp => ?_, ?_,
    fun dir hdir => hdirs dir (hentered.dirs dir hdir), hdirs _ hentered.home⟩
  · rw [marked_touch, hsame, hentered.place.markers, Bool.eq_iff_iff]
    simp only [Bool.or_eq_true, decide_eq_true_eq, List.mem_append, List.mem_singleton]
    tauto
  · have hfilter : (visited ++ [job]).filter (fun j => !marked w₀ j) =
        (visited.filter fun j => !marked w₀ j) ++ [job] := by
      rw [List.filter_append, List.filter_cons_of_pos (by rw [hstart]; rfl), List.filter_nil]
    rw [World.logged, filterRuns_concat, hruns, report_of_succeeds hsucceeds,
      hentered.place.runs, hfilter, List.map_append, List.append_assoc, List.append_assoc]
    rfl
  · rcases List.mem_append.mp hj with hj | hj
    · exact hentered.place.done j hj hnot
    · rw [List.mem_singleton.mp hj]
      exact hsucceeds
  · refine (hentered.others p hp).congr ?_ fun j hj => ?_
    · rw [hmarkers, List.mem_cons]
      exact or_iff_right (by simp [Job.marker])
    · obtain ⟨script, _, rfl⟩ := List.mem_map.mp hj
      have hne : (p, script) ≠ job := fun heq => hp (congrArg Prod.fst heq)
      rw [marked_touch, hsame, decide_eq_false hne, Bool.false_or]
  · rw [hmarkers, List.mem_cons]
    exact not_or_intro (by simp [Job.marker]) hentered.unmarked

theorem entered_processFilter {phase script : Name} (hscript : script ∈ fs.filters phase)
    (hsplit : jobs fs = visited ++ (phase, script) :: rest) :
    Spec (Entered fs i w₀ phase visited) (processFilter i phase script)
      (fun _ => Entered fs i w₀ phase (visited ++ [(phase, script)])) fun _ =>
        Attempted fs i w₀ := by
  have hjob : (phase, script) ∈ phaseJobs fs phase := List.mem_map_of_mem hscript
  have hnew := not_mem_visited hsplit
  refine Spec.test (Spec.pure fun w hw => ?_) ?_
  · have hmarked : marked w (phase, script) = true := hw.2
    rw [hw.1.place.markers] at hmarked
    have hstart : marked w₀ (phase, script) = true := by simpa [hnew] using hmarked
    exact ⟨hw.1.place.skip hstart, hw.1.others, hw.1.unmarked, hw.1.dirs, hw.1.home⟩
  · refine spec_orErr (ran_runFilter.weaken (fun w hw => hw) (fun _ _ hw => hw) fun _ _ hw => hw)
      (fun status w hne hw => ?_) ?_
    · obtain ⟨w', hentered, hunmarked, hmarkers, _, hruns⟩ := hw.entered
      have hfailed : (tries i).succeeds (phase, script) = false := by
        rw [hw.status]
        exact decide_eq_false hne
      refine hentered.place.attempted_of_failed hsplit hunmarked hfailed hmarkers ?_ fun p => ?_
      · rw [World.logged, filterRuns_concat, hruns]
        exact List.append_nil _
      · refine (hentered.phases hjob hunmarked p).congr ?_ fun j _ => ?_
        · rw [World.logged, hmarkers]
        · rw [marked, marked, World.logged, hmarkers]
    · refine Spec.test (Spec.cmd fun w hw => hw.1.touch) fun w hw => ?_
      obtain ⟨w', hentered, _, _, hdirs, _⟩ := hw.1.entered
      exact absurd (List.contains_iff_mem.mpr (hdirs _ hentered.home)) (ne_true_of_eq_false hw.2)

theorem entered_filters {phase : Name} {before after : List (Job Name)}
    (hsplit : jobs fs = before ++ phaseJobs fs phase ++ after) :
    Spec (Entered fs i w₀ phase before) (forWords (fs.filters phase) (processFilter i phase))
      (fun _ => Entered fs i w₀ phase (before ++ phaseJobs fs phase)) fun _ =>
        Attempted fs i w₀ := by
  have hloop := Spec.forWords (E := fun _ => Attempted fs i w₀) (fs.filters phase)
    (processFilter i phase)
    (J := fun done => Entered fs i w₀ phase (before ++ done.map fun script => (phase, script)))
    [] ?_
  · refine hloop.weaken (fun w hw => ?_) (fun _ _ hw => hw) fun _ _ hw => hw
    rw [List.map_nil, List.append_nil]
    exact hw
  · intro done script rest hdone
    rw [List.nil_append] at hdone
    have hscript : script ∈ fs.filters phase := by
      rw [← hdone]
      exact List.mem_append_right done List.mem_cons_self
    have hjobs : jobs fs = (before ++ done.map fun script => (phase, script)) ++
        (phase, script) :: ((rest.map fun script => (phase, script)) ++ after) := by
      rw [hsplit, phaseJobs, ← hdone, List.map_append, List.map_cons]
      simp only [List.append_assoc, List.cons_append]
    refine (entered_processFilter hscript hjobs).weaken (fun _ hw => hw) (fun _ w hw => ?_)
      fun _ _ hw => hw
    rw [List.map_append, ← List.append_assoc]
    exact hw

/-- Between two phases. -/
structure Passed (fs : Filters Name) (i : Invocation Name) (w₀ : World Name)
    (visited : List (Job Name)) (w : World Name) : Prop where
  place : At i w₀ visited w
  phases : ∀ phase, PhaseRight fs w phase
  dirs : ∀ dir ∈ w₀.dirs, dir ∈ w.dirs

theorem At.skipAll {front : List (Job Name)} (h : At i w₀ visited w)
    (hall : ∀ j ∈ front, marked w₀ j = true) : At i w₀ (visited ++ front) w := by
  induction front generalizing visited with
  | nil =>
    rw [List.append_nil]
    exact h
  | cons job front ih =>
    rw [List.append_cons]
    exact ih (h.skip (hall job List.mem_cons_self)) fun j hj => hall j (List.mem_cons_of_mem job hj)

theorem Passed.mkdir (h : Passed fs i w₀ visited w) (dir : Dir Name) (status : Nat)
    (leaves : Bool) : Passed fs i w₀ visited (w.after (.mkdir dir) status leaves) := by
  have hlog : (w.after (.mkdir dir) status leaves).log = w.log ++ [.ran (.mkdir dir) status] := rfl
  refine ⟨⟨h.place.markers, ?_, h.place.done⟩, h.phases,
    fun dir hdir => World.mem_dirs_after (h.dirs dir hdir) _ _ _⟩
  rw [hlog, filterRuns_concat, h.place.runs]
  exact List.append_nil _

/-- All filters of the phase have their markers, and that of the phase is touched. -/
theorem Entered.leave {phase : Name} (h : Entered fs i w₀ phase visited w)
    (hphase : phase ∈ fs.phases) (hfilters : fs.filters phase ≠ [])
    (hvisited : ∀ j ∈ phaseJobs fs phase, j ∈ visited) :
    Passed fs i w₀ visited
      { w.logged (.touched (.phase phase)) with markers := .phase phase :: w.markers } := by
  have hsame : ∀ j, marked
      { w.logged (.touched (.phase phase)) with markers := .phase phase :: w.markers } j =
        marked w j := by
    intro j
    rw [Bool.eq_iff_iff, marked, marked, List.contains_iff_mem, List.contains_iff_mem,
      List.mem_cons]
    exact or_iff_right (by simp [Job.marker])
  refine ⟨⟨fun j => ?_, ?_, h.place.done⟩, fun p => ?_, h.dirs⟩
  · rw [hsame, h.place.markers]
  · rw [World.logged, filterRuns_concat, h.place.runs]
    exact List.append_nil _
  · by_cases hp : p = phase
    · subst hp
      refine iff_of_true List.mem_cons_self ⟨hphase, hfilters, fun j hj => ?_⟩
      rw [hsame, h.place.markers, decide_eq_true (hvisited j hj), Bool.or_true]
    · refine (h.others p hp).congr ?_ fun j _ => hsame j
      rw [List.mem_cons]
      exact or_iff_right (by simp [hp])

theorem passed_runPhase {phase : Name} (hphase : phase ∈ fs.phases)
    (hmkdir : .phase phase ∈ w₀.dirs ∨ i.MakesDir phase)
    {before after : List (Job Name)} (hsplit : jobs fs = before ++ phaseJobs fs phase ++ after) :
    Spec (Passed fs i w₀ before) (runPhase i fs (some phase))
      (fun _ => Passed fs i w₀ (before ++ phaseJobs fs phase)) fun _ => Attempted fs i w₀ := by
  refine Spec.test (Spec.pure fun w hw => ?_) (Spec.ite (fun hempty => Spec.pure fun w hw => ?_)
    fun hnonempty => ?_)
  · have hmarked := ((hw.1.phases phase).mp (List.contains_iff_mem.mp hw.2)).2.2
    refine ⟨hw.1.place.skipAll fun j hj => ?_, hw.1.phases, hw.1.dirs⟩
    have hnew : j ∉ before := by
      have hnodup := nodup_jobs fs
      rw [hsplit, List.append_assoc, List.nodup_append] at hnodup
      exact fun h => hnodup.2.2 j h j (List.mem_append_left after hj) rfl
    have hj' := hmarked j hj
    rw [hw.1.place.markers] at hj'
    simpa [hnew] using hj'
  · have hnil : phaseJobs fs phase = [] := by
      rw [phaseJobs, List.isEmpty_iff.mp hempty]
      rfl
    rw [hnil, List.append_nil]
    exact hw.1
  · have hdir : Spec (fun w => Passed fs i w₀ before w ∧
          w.markers.contains (.phase phase) = false) (phaseDir i phase)
        (fun _ => Entered fs i w₀ phase before) fun _ => Attempted fs i w₀ := by
      have hentered {w : World Name} (hw : Passed fs i w₀ before w)
          (hmarker : w.markers.contains (.phase phase) = false) (hhome : .phase phase ∈ w.dirs) :
          Entered fs i w₀ phase before w :=
        ⟨hw.place, fun p _ => hw.phases p, by simpa using hmarker, hw.dirs, hhome⟩
      refine Spec.test (Spec.pure fun w hw => ?_) ?_
      · exact hentered hw.1.1 hw.1.2 (List.contains_iff_mem.mp hw.2)
      · refine Spec.bind (spec_runcmd fun w hw => ?_) fun _ => Spec.pure fun w hw => hw
        refine hentered (hw.1.1.mkdir _ _ _) hw.1.2 ?_
        rcases hmkdir with hthere | hmade
        · exact World.mem_dirs_after (hw.1.1.dirs _ hthere) _ _ _
        · exact World.mem_dirs_mkdir hmade w
    refine Spec.bind hdir fun _ => Spec.bind (entered_filters hsplit) fun _ =>
      Spec.cmd fun w hw => ?_
    have hfilters : fs.filters phase ≠ [] := fun h => hnonempty (List.isEmpty_iff.mpr h)
    exact hw.leave hphase hfilters fun j hj => List.mem_append_right before hj

theorem passed_phases (hmkdir : ∀ phase ∈ fs.phases, .phase phase ∈ w₀.dirs ∨ i.MakesDir phase) :
    Spec (Passed fs i w₀ []) (forWords fs.phases fun phase => runPhase i fs (some phase))
      (fun _ => Passed fs i w₀ (jobs fs)) fun _ => Attempted fs i w₀ := by
  refine Spec.forWords (E := fun _ => Attempted fs i w₀) fs.phases
    (fun phase => runPhase i fs (some phase))
    (J := fun done => Passed fs i w₀ (done.flatMap (phaseJobs fs))) [] ?_
  intro done phase rest hdone
  rw [List.nil_append] at hdone
  have hphase : phase ∈ fs.phases := by
    rw [← hdone]
    exact List.mem_append_right done List.mem_cons_self
  have hjobs : jobs fs =
      done.flatMap (phaseJobs fs) ++ phaseJobs fs phase ++ rest.flatMap (phaseJobs fs) := by
    rw [jobs, ← hdone, List.flatMap_append, List.flatMap_cons, List.append_assoc]
  refine (passed_runPhase hphase (hmkdir phase hphase) hjobs).weaken (fun _ hw => hw) (fun _ w hw => ?_) fun _ _ hw => hw
  rw [List.flatMap_append, List.flatMap_singleton]
  exact hw

theorem Still.passed {w : World Name} (h : Still w₀ w) (hphases : ∀ phase, PhaseRight fs w₀ phase) :
    Passed fs i w₀ [] w := by
  have hsame : ∀ j, marked w j = marked w₀ j := fun j => by rw [marked, marked, h.markers]
  refine ⟨⟨fun j => ?_, ?_, nofun⟩,
    fun p => (hphases p).congr (by rw [h.markers]) fun j _ => hsame j, h.dirs⟩
  · rw [hsame, decide_eq_false List.not_mem_nil, Bool.or_false]
  · rw [h.runs]
    exact (List.append_nil _).symm

/-- An invocation that does not come to the filters changes nothing of theirs. -/
theorem spec_main (hlog : w₀.log = []) (hphases : ∀ phase, PhaseRight fs w₀ phase)
    (hmkdir : ∀ phase ∈ fs.phases, .phase phase ∈ w₀.dirs ∨ i.MakesDir phase) :
    Spec (fun w => w = w₀) (main i fs) (fun _ w => reaches i w₀ = true ∧ Attempted fs i w₀ w)
      fun _ w => reaches i w₀ = true ∧ Attempted fs i w₀ w ∨
        reaches i w₀ = false ∧ Still w₀ w := by
  have hstart : ∀ w, w = w₀ → Still w₀ w := by
    rintro w rfl
    exact .refl w
  cases hargs : i.args with
  | auto =>
    rw [main_eq hargs]
    refine Spec.bind ((spec_noPhases hargs hlog).weaken (fun _ hw => hw) (fun _ _ hw => hw)
      fun _ _ hw => Or.inr ⟨hw.2, hw.1⟩) fun _ w hw => ?_
    refine ((passed_phases hmkdir).weaken (fun _ hw => hw)
      (fun _ w h => ⟨hw.2, h.place.attempted h.phases⟩)
      fun _ _ h => Or.inl ⟨hw.2, h⟩) w (hw.1.passed hphases)
  | badOption =>
    have hnot : reaches i w₀ = false := by simp [reaches, hargs]
    unfold main
    rw [hargs]
    exact Spec.exit fun w hw => Or.inr ⟨hnot, hstart w hw⟩
  | other =>
    have hnot : reaches i w₀ = false := by simp [reaches, hargs]
    unfold main
    rw [hargs]
    refine Spec.bind (still_fixDirs.weaken hstart (fun _ _ hw => hw)
      fun _ _ hw => Or.inr ⟨hnot, hw⟩) fun _ => Spec.exit fun _ hw => Or.inr ⟨hnot, hw⟩

end Loop

theorem invoke_spec {w : World Name} (hphases : ∀ phase, PhaseRight fs w phase)
    (hmkdir : ∀ phase ∈ fs.phases, .phase phase ∈ w.dirs ∨ i.MakesDir phase) :
    reaches i w = true ∧ Attempted fs i { w with log := [] } (invoke fs w i) ∨
      reaches i w = false ∧ Still { w with log := [] } (invoke fs w i) := by
  have hend := @spec_main _ i { w with log := [] } _ fs rfl hphases hmkdir _ rfl
  unfold invoke generator
  rcases hmain : main i fs { w with log := [] } with ⟨_ | _, w'⟩
  · rw [hmain] at hend
    exact hend
  · rw [hmain] at hend
    exact Or.inl hend

section Unchanged

variable {w w' : World Name} (h : Still { w with log := [] } w')
include h

theorem Still.marked (job : Job Name) : marked w' job = marked w job := by
  rw [NewGenerator.marked, NewGenerator.marked, h.markers]

theorem Still.left : left fs w' = left fs w :=
  List.filter_congr fun job _ => by rw [h.marked]

theorem Still.phases (hphases : ∀ phase, PhaseRight fs w phase) (phase : Name) :
    PhaseRight fs w' phase :=
  (hphases phase).congr (by rw [h.markers]) fun job _ => h.marked job

end Unchanged

theorem invocations_spec {w : World Name} (hphases : ∀ phase, PhaseRight fs w phase)
    (is : List (Invocation Name)) (hmkdir : ∀ i ∈ is, ∀ phase ∈ fs.phases, i.MakesDir phase) :
    runsOf fs w is = (work ((reaching fs w is).map tries) (left fs w)).1 ∧
    left fs (is.foldl (invoke fs) w) = (work ((reaching fs w is).map tries) (left fs w)).2 ∧
    ∀ phase, PhaseRight fs (is.foldl (invoke fs) w) phase := by
  induction is generalizing w with
  | nil => exact ⟨rfl, rfl, hphases⟩
  | cons i is ih =>
    rw [runsOf, reaching, List.foldl_cons]
    have hmade := hmkdir i List.mem_cons_self
    have hrest : ∀ j ∈ is, ∀ phase ∈ fs.phases, j.MakesDir phase :=
      fun j hj => hmkdir j (List.mem_cons_of_mem i hj)
    rcases invoke_spec hphases fun phase hphase => .inr (hmade phase hphase) with
      ⟨hreaches, hattempted⟩ | ⟨hreaches, hstill⟩
    · obtain ⟨hruns, hleft, hright⟩ := ih hattempted.phases hrest
      have hqueue : left fs { w with log := [] } = left fs w := rfl
      have hnow := hattempted.left
      have hlog : filterRuns (invoke fs w i).log = (attempt (tries i) (left fs w)).1 :=
        hattempted.runs
      rw [hqueue] at hnow
      rw [hnow] at hruns hleft
      rw [if_pos hreaches, List.map_cons, work, hlog, hruns]
      exact ⟨rfl, hleft, hright⟩
    · have hlog : filterRuns (invoke fs w i).log = [] := hstill.runs
      have hlater := ih (hstill.phases hphases) hrest
      rw [hstill.left] at hlater
      rw [if_neg (by rw [hreaches]; exact Bool.false_ne_true), hlog, List.nil_append]
      exact hlater

theorem phaseRight_new (fs : Filters Name) (dirs : List (Dir Name)) (phase : Name) :
    PhaseRight fs ⟨dirs, [], []⟩ phase := by
  refine iff_of_false List.not_mem_nil ?_
  rintro ⟨_, hne, hall⟩
  obtain ⟨script, rest, hfilters⟩ := List.exists_cons_of_ne_nil hne
  have hmarked := hall (phase, script) (by rw [phaseJobs, hfilters]; exact List.mem_cons_self)
  cases hmarked

/-- On a new work directory the generator is a queue of all filters, whatever the outcomes, as long
as the directories of the phases can be made: the invocations that come to the filters are its
attempts. Each filter succeeds once, in the order of the queue, and nothing is done behind one that
failed. -/
theorem filters_worked_off (fs : Filters Name) (dirs : List (Dir Name))
    (is : List (Invocation Name)) (hmkdir : ∀ i ∈ is, ∀ phase ∈ fs.phases, i.MakesDir phase) :
    runsOf fs ⟨dirs, [], []⟩ is =
      (work ((reaching fs ⟨dirs, [], []⟩ is).map tries) (jobs fs)).1 ∧
    left fs (is.foldl (invoke fs) ⟨dirs, [], []⟩) =
      (work ((reaching fs ⟨dirs, [], []⟩ is).map tries) (jobs fs)).2 ∧
    (∀ phase, PhaseRight fs (is.foldl (invoke fs) ⟨dirs, [], []⟩) phase) ∧
    successes (runsOf fs ⟨dirs, [], []⟩ is) ++ left fs (is.foldl (invoke fs) ⟨dirs, [], []⟩) =
      jobs fs := by
  have hqueue : left fs ⟨dirs, [], []⟩ = jobs fs := List.filter_eq_self.mpr fun _ _ => rfl
  obtain ⟨hruns, hleft, hright⟩ := invocations_spec (phaseRight_new fs dirs) is hmkdir
  rw [hqueue] at hruns hleft
  refine ⟨hruns, hleft, hright, ?_⟩
  rw [hruns, hleft]
  exact successes_work _ _

/-- Nothing fails. -/
def workingFilter : Invocation ℕ := { failingFilter with status := fun _ => 0 }

theorem onePhase_worked_off :
    runsOf onePhase ⟨[], [], []⟩ [failingFilter, workingFilter] = [((0, 0), 1), ((0, 0), 0)] ∧
    left onePhase ([failingFilter, workingFilter].foldl (invoke onePhase) ⟨[], [], []⟩) = [] := by
  have hmkdir : ∀ i ∈ [failingFilter, workingFilter], ∀ phase ∈ onePhase.phases,
      i.MakesDir phase := by
    simp [Invocation.MakesDir, failingFilter, workingFilter]
  obtain ⟨hruns, hleft, _⟩ := filters_worked_off onePhase [] [failingFilter, workingFilter] hmkdir
  exact ⟨hruns.trans (by decide), hleft.trans (by decide)⟩

/-- A filter that has a marker has a directory for it. -/
def Housed (w : World Name) : Prop :=
  ∀ phase script, .filter phase script ∈ w.markers → .phase phase ∈ w.dirs

theorem housed_invoke {w : World Name} (h : Housed w) (i : Invocation Name) :
    Housed (invoke fs w i) := by
  refine kept_invoke (fun command _ => ⟨fun _ hw => hw, fun w hw phase script hmem => ?_⟩) ?_ ?_ h
  · exact World.mem_dirs_after (hw phase script hmem) _ _ _
  · intro w phase _ script hdir hw p s hmem
    rcases List.mem_cons.mp hmem with heq | hmem
    · cases heq
      exact hdir
    · exact hw p s hmem
  · intro w phase _ hw p s hmem
    exact hw p s (List.mem_of_ne_of_mem (by simp) hmem)

/-- When no phase gets its directory, no filter gets a marker. -/
theorem unhoused_invoke {w : World Name} (hdirs : ∀ phase ∈ fs.phases, .phase phase ∉ w.dirs)
    (hmkdir : ∀ phase ∈ fs.phases, ¬ i.MakesDir phase) :
    ∀ m ∈ (invoke fs w i).markers, m ∈ w.markers ∨ ∃ phase ∈ fs.phases, m = .phase phase := by
  have hkept : ∀ command : Command Name, command.Ordinary →
      Kept i (fun w' => (∀ phase ∈ fs.phases, .phase phase ∉ w'.dirs) ∧
        ∀ m ∈ w'.markers, m ∈ w.markers ∨ ∃ phase ∈ fs.phases, m = .phase phase) command := by
    intro command hordinary
    refine ⟨fun _ hw => hw, fun w' hw => ⟨fun phase hphase => ?_, hw.2⟩⟩
    unfold World.after
    dsimp only
    split
    · next hmade =>
      rw [List.mem_append, not_or]
      refine ⟨fun hmem => ?_, hw.1 phase hphase⟩
      rw [hordinary phase (Option.mem_toList.mp hmem)] at hmade
      exact hmkdir phase hphase hmade
    · exact hw.1 phase hphase
  refine (kept_invoke hkept ?_ ?_ ⟨hdirs, fun m hm => .inl hm⟩).2
  · intro w' phase hphase script hdir hw
    exact absurd hdir (hw.1 phase hphase)
  · intro w' phase hphase hw
    refine ⟨hw.1, fun m hm => ?_⟩
    rcases List.mem_cons.mp hm with rfl | hm
    · exact .inr ⟨phase, hphase, rfl⟩
    · exact hw.2 m hm

/-- Phases that have their markers are not gone through again. -/
theorem settled_invoke {w : World Name}
    (hsettled : ∀ phase ∈ fs.phases, .phase phase ∈ w.markers) (i : Invocation Name) :
    Still { w with log := [] } (invoke fs w i) := by
  have hphases : Spec (Still { w with log := [] })
      (forWords fs.phases fun phase => runPhase i fs (some phase))
      (fun _ => Still { w with log := [] }) fun _ => Still { w with log := [] } := by
    refine Spec.forWords (J := fun _ => Still { w with log := [] }) _ _ []
      fun before phase after hsplit => ?_
    refine Spec.test (Spec.pure fun _ hw => hw.1) fun w' hw => ?_
    have hmem : phase ∈ fs.phases := by
      rw [List.nil_append] at hsplit
      rw [← hsplit]
      exact List.mem_append_right before List.mem_cons_self
    have hmarked : .phase phase ∈ w'.markers := by
      rw [hw.1.markers]
      exact hsettled phase hmem
    exact absurd (List.contains_iff_mem.mpr hmarked) (ne_true_of_eq_false hw.2)
  have hmain : Spec (Still { w with log := [] }) (main i fs) (fun _ => Still { w with log := [] })
      fun _ => Still { w with log := [] } := by
    unfold main
    split
    · exact Spec.exit fun _ hw => hw
    · exact Spec.bind still_fixDirs fun _ => Spec.bind still_reposSetup fun _ => hphases
    · exact Spec.bind still_fixDirs fun _ => Spec.exit fun _ hw => hw
  have hend := hmain _ (.refl _)
  unfold invoke generator
  rcases hresult : main i fs { w with log := [] } with ⟨_ | _, w'⟩
  · rw [hresult] at hend
    exact hend
  · rw [hresult] at hend
    exact hend

theorem left_of_unmarked {w : World Name} (h : ∀ job ∈ jobs fs, job.marker ∉ w.markers) :
    left fs w = jobs fs := by
  refine List.filter_eq_self.mpr fun job hjob => ?_
  have hnot : marked w job = false := eq_false_of_ne_true fun hmarked =>
    h job hjob (List.contains_iff_mem.mp hmarked)
  rw [hnot, Bool.not_false]

theorem phase_of_mem_jobs {job : Job Name} (hjob : job ∈ jobs fs) : job.1 ∈ fs.phases := by
  obtain ⟨phase, hphase, hmem⟩ := List.mem_flatMap.mp hjob
  obtain ⟨script, _, rfl⟩ := List.mem_map.mp hmem
  exact hphase

/-- Between two invocations: the filters that are left are known by their markers, or every phase has
its own marker and nothing is run any more. -/
def Between (fs : Filters Name) (w : World Name) : Prop :=
  Housed w ∧ ((∀ phase, PhaseRight fs w phase) ∨ ∀ phase ∈ fs.phases, .phase phase ∈ w.markers)

/-- With one phase, whatever can be made: the invocation is an attempt of the queue, or it runs
nothing, or no marker of a filter was there and none is made. -/
theorem between_invoke {phase : Name} (hone : fs.phases = [phase]) {w : World Name} (hw : Between fs w) (i : Invocation Name) :
    Between fs (invoke fs w i) ∧
      (filterRuns (invoke fs w i).log = (attempt (tries i) (left fs w)).1 ∧
          left fs (invoke fs w i) = (attempt (tries i) (left fs w)).2 ∨
        filterRuns (invoke fs w i).log = [] ∧ left fs (invoke fs w i) = left fs w ∨
        left fs w = jobs fs ∧ left fs (invoke fs w i) = jobs fs) := by
  obtain ⟨hhoused, hmarkers⟩ := hw
  have hhoused' : Housed (invoke fs w i) := housed_invoke hhoused i
  rcases hmarkers with hphases | hsettled
  · by_cases hdirs : .phase phase ∈ w.dirs ∨ i.MakesDir phase
    · have hmkdir : ∀ p ∈ fs.phases, .phase p ∈ w.dirs ∨ i.MakesDir p := by
        rw [hone]
        exact List.forall_mem_singleton.mpr hdirs
      rcases invoke_spec hphases hmkdir with ⟨_, hattempted⟩ | ⟨_, hstill⟩
      · exact ⟨⟨hhoused', .inl hattempted.phases⟩, .inl ⟨hattempted.runs, hattempted.left⟩⟩
      · exact ⟨⟨hhoused', .inl (hstill.phases hphases)⟩, .inr (.inl ⟨hstill.runs, hstill.left⟩)⟩
    · rw [not_or] at hdirs
      have hunhoused : ∀ p ∈ fs.phases, .phase p ∉ w.dirs ∧ ¬ i.MakesDir p := by
        rw [hone]
        exact List.forall_mem_singleton.mpr hdirs
      have hnone : ∀ job ∈ jobs fs, job.marker ∉ w.markers := fun job hjob hmem =>
        (hunhoused _ (phase_of_mem_jobs hjob)).1 (hhoused _ _ hmem)
      have hnew := unhoused_invoke (fun p hp => (hunhoused p hp).1) fun p hp => (hunhoused p hp).2
      have hnone' : ∀ job ∈ jobs fs, job.marker ∉ (invoke fs w i).markers := fun job hjob hmem =>
        (hnew _ hmem).elim (hnone job hjob) fun ⟨_, _, heq⟩ => by cases heq
      refine ⟨⟨hhoused', ?_⟩, .inr (.inr ⟨left_of_unmarked hnone, left_of_unmarked hnone'⟩)⟩
      by_cases hdone : .phase phase ∈ (invoke fs w i).markers
      · right
        rw [hone]
        exact List.forall_mem_singleton.mpr hdone
      · left
        refine fun p => iff_of_false (fun hmem => ?_) ?_
        · rcases hnew _ hmem with hold | ⟨p', hp', heq⟩
          · have hp := ((hphases p).mp hold).1
            rw [hone] at hp
            exact hdone (List.mem_singleton.mp hp ▸ hmem)
          · cases heq
            rw [hone] at hp'
            exact hdone (List.mem_singleton.mp hp' ▸ hmem)
        · rintro ⟨hp, hne, hall⟩
          obtain ⟨script, rest, hfilters⟩ := List.exists_cons_of_ne_nil hne
          have hjob : (p, script) ∈ phaseJobs fs p := by
            rw [phaseJobs, hfilters]
            exact List.mem_cons_self
          exact hnone' _ (List.mem_flatMap.mpr ⟨p, hp, hjob⟩)
            (List.contains_iff_mem.mp (hall _ hjob))
  · have hstill := settled_invoke hsettled i
    refine ⟨⟨hhoused', .inr fun p hp => ?_⟩, .inr (.inl ⟨hstill.runs, hstill.left⟩)⟩
    rw [hstill.markers]
    exact hsettled p hp

end DeltaPorts.NewGenerator

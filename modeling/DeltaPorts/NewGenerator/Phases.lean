import DeltaPorts.Library.Run
import DeltaPorts.NewGenerator.Generator

/-!
# The order of the phases

What the log of any number of invocations on one work directory can look like, whatever
their outcomes.
-/

set_option autoImplicit false

namespace DeltaPorts.NewGenerator

open Exits

variable {Name : Type} [LinearOrder Name] {fs : Filters Name} {i : Invocation Name}

/-- What each event needs before it. -/
def Allowed (fs : Filters Name) (before : List (Event Name)) : Event Name → Prop
  | .ran (.filter phase script) _ =>
    .touched (.filter phase script) ∉ before ∧
    (∀ earlier ∈ fs.phases, earlier < phase →
      ∀ s ∈ fs.filters earlier, .touched (.filter earlier s) ∈ before) ∧
    ∀ s ∈ fs.filters phase, s < script → .touched (.filter phase s) ∈ before
  | .touched (.filter phase script) => .ran (.filter phase script) 0 ∈ before
  | .touched (.phase phase) => ∀ s ∈ fs.filters phase, .touched (.filter phase s) ∈ before
  | _ => True

/-- The log is in order and the markers are those it says were touched. -/
def Inv (fs : Filters Name) (w : World Name) : Prop :=
  Run.Orderly (Allowed fs) w.log ∧ ∀ m, m ∈ w.markers ↔ .touched m ∈ w.log

/-- The invariant, and the markers of the filters in `T`. -/
def Marked (fs : Filters Name) (T : Name → Name → Prop) (w : World Name) : Prop :=
  Inv fs w ∧ ∀ phase script, T phase script → .filter phase script ∈ w.markers

variable {T T' : Name → Name → Prop}

theorem Marked.mono {w : World Name} (h : Marked fs T w) (hT : ∀ p s, T' p s → T p s) :
    Marked fs T' w := ⟨h.1, fun p s hps => h.2 p s (hT p s hps)⟩

theorem Inv.logged {w : World Name} {e : Event Name} (h : Inv fs w) (he : Allowed fs w.log e)
    (hne : ∀ m, e ≠ .touched m) : Inv fs (w.logged e) := by
  refine ⟨h.1.concat he, fun m => ?_⟩
  simp only [World.logged, List.mem_append, List.mem_singleton, (hne m).symm, or_false]
  exact h.2 m

theorem Inv.touch {w : World Name} {m : Marker Name} (h : Inv fs w)
    (hm : Allowed fs w.log (.touched m)) :
    Inv fs { w.logged (.touched m) with markers := m :: w.markers } := by
  refine ⟨h.1.concat hm, fun m' => ?_⟩
  simp only [World.logged, List.mem_cons, List.mem_append, List.not_mem_nil, or_false,
    Event.touched.injEq, h.2 m']
  exact or_comm

theorem Marked.logged {w : World Name} {e : Event Name} (h : Marked fs T w)
    (he : Allowed fs w.log e) (hne : ∀ m, e ≠ .touched m) : Marked fs T (w.logged e) :=
  ⟨h.1.logged he hne, h.2⟩

theorem Marked.after {w : World Name} {command : Command Name} (h : Marked fs T w) {status : Nat}
    (he : Allowed fs w.log (.ran command status)) (leaves : Bool) :
    Marked fs T (w.after command status leaves) := by
  have hran : ∀ m, Event.ran command status ≠ .touched m := by simp
  exact h.logged he hran

/-- A command that is no filter, with its failure passed to `err`. -/
theorem inv_orErr {m : Exits (World Name) Nat}
    (hm : Spec (Marked fs T) m (fun _ => Marked fs T) fun _ => Inv fs) :
    Spec (Marked fs T) (m >>= fun status => if status ≠ 0 then err i 1 else pure ())
      (fun _ => Marked fs T) fun _ => Inv fs :=
  spec_orErr hm (fun _ _ _ hw => hw.1.logged trivial (by simp)) (Spec.pure fun _ hw => hw)

/-- A command whose run needs nothing before it. -/
theorem inv_runcmd {command : Command Name}
    (h : ∀ before status, Allowed fs before (.ran command status)) :
    Spec (Marked fs T) (runcmd i command) (fun _ => Marked fs T) fun _ => Inv fs :=
  spec_runcmd fun w hw => hw.after (h w.log (i.status command)) (i.leaves command)

theorem inv_mkdir {dir : Dir Name} :
    Spec (Marked fs T) (runcmd i (.mkdir dir)) (fun _ => Marked fs T) fun _ => Inv fs :=
  inv_runcmd fun _ _ => trivial

theorem inv_unless {dir : Dir Name} {m : Exits (World Name) Unit}
    (hm : Spec (Marked fs T) m (fun _ => Marked fs T) fun _ => Inv fs) :
    Spec (Marked fs T) (isDir dir >>= fun b => if b = true then pure () else m)
      (fun _ => Marked fs T) fun _ => Inv fs :=
  Spec.test (Spec.pure fun _ hw => hw.1)
    (hm.weaken (fun _ hw => hw.1) (fun _ _ hw => hw) fun _ _ hw => hw)

theorem inv_fixDirs :
    Spec (Marked fs T) (fixDirs i) (fun _ => Marked fs T) fun _ => Inv fs :=
  Spec.forWords _ _ [] fun _ _ _ _ => inv_unless (inv_orErr inv_mkdir)

theorem inv_setupRepo (url : String) (dst : Dir Name) :
    Spec (Marked fs T) (setupRepo i url dst) (fun _ => Marked fs T) fun _ => Inv fs := by
  refine inv_orErr (Spec.test (Spec.pure fun _ hw => hw.1) ?_)
  have hclone : Spec (Marked fs T) (runcmd i (.clone url dst)) (fun _ => Marked fs T)
      fun _ => Inv fs := inv_runcmd fun _ _ => trivial
  exact hclone.weaken (fun _ hw => hw.1) (fun _ _ hw => hw) fun _ _ hw => hw

theorem inv_reposSetup :
    Spec (Marked fs T) (reposSetup i) (fun _ => Marked fs T) fun _ => Inv fs := by
  refine Spec.bind (inv_setupRepo _ _) fun _ => Spec.bind (inv_setupRepo _ _) fun _ => ?_
  refine inv_unless (Spec.bind inv_mkdir fun _ => ?_)
  have hfetch : Spec (Marked fs T) (runcmd i (.portsnapFetch .fports)) (fun _ => Marked fs T)
      fun _ => Inv fs := inv_runcmd fun _ _ => trivial
  refine spec_orErr hfetch (fun _ _ _ hw => hw.1.logged trivial (by simp)) ?_
  exact inv_orErr (inv_runcmd fun _ _ => trivial)

theorem mem_before_of_lt {before after : List Name} {x y : Name}
    (h : (before ++ x :: after).Pairwise (· < ·)) (hy : y ∈ before ++ x :: after) (hlt : y < x) :
    y ∈ before := by
  rcases List.mem_append.mp hy with hy | hy
  · exact hy
  · have hafter := (List.pairwise_cons.mp (List.pairwise_append.mp h).2.1).1
    rcases List.mem_cons.mp hy with rfl | hy
    · exact absurd hlt (lt_irrefl y)
    · exact absurd (hlt.trans (hafter y hy)) (lt_irrefl y)

/-- The filters of the phases in `done`. -/
def OfPhases (fs : Filters Name) (done : List Name) (phase script : Name) : Prop :=
  phase ∈ done ∧ script ∈ fs.filters phase

/-- These, and the scripts of `phase` in `done`. -/
def Within (fs : Filters Name) (before : List Name) (phase : Name) (done : List Name)
    (p s : Name) : Prop :=
  OfPhases fs before p s ∨ p = phase ∧ s ∈ done

variable {before after : List Name} {phase : Name}

/-- A filter that has no marker may run when the ones before it have theirs. -/
theorem allowed_ran {done rest : List Name} {script : Name} {w : World Name}
    (hphases : before ++ phase :: after = fs.phases)
    (hfilters : done ++ script :: rest = fs.filters phase)
    (hw : Marked fs (Within fs before phase done) w)
    (hmark : .filter phase script ∉ w.markers) (status : Nat) :
    Allowed fs w.log (.ran (.filter phase script) status) := by
  refine ⟨fun htouched => hmark ((hw.1.2 _).mpr htouched), ?_, ?_⟩
  · intro earlier hmem hlt s hs
    have hsorted := fs.phases_sorted
    rw [← hphases] at hsorted hmem
    exact (hw.1.2 _).mp (hw.2 _ _ (.inl ⟨mem_before_of_lt hsorted hmem hlt, hs⟩))
  · intro s hs hlt
    have hsorted := fs.filters_sorted phase
    rw [← hfilters] at hsorted hs
    exact (hw.1.2 _).mp (hw.2 _ _ (.inr ⟨rfl, mem_before_of_lt hsorted hs hlt⟩))

theorem inv_processFilter {done rest : List Name} {script : Name}
    (hphases : before ++ phase :: after = fs.phases)
    (hfilters : done ++ script :: rest = fs.filters phase) :
    Spec (fun w => Marked fs (Within fs before phase done) w ∧ .phase phase ∈ w.dirs)
      (processFilter i phase script)
      (fun _ w => Marked fs (Within fs before phase (done ++ [script])) w ∧ .phase phase ∈ w.dirs)
      fun _ => Inv fs := by
  have hadd {w : World Name} (hw : Marked fs (Within fs before phase done) w)
      (hmark : .filter phase script ∈ w.markers) :
      Marked fs (Within fs before phase (done ++ [script])) w := by
    refine ⟨hw.1, ?_⟩
    rintro p s (hold | ⟨rfl, hs⟩)
    · exact hw.2 p s (.inl hold)
    · rcases List.mem_append.mp hs with hs | hs
      · exact hw.2 p s (.inr ⟨rfl, hs⟩)
      · exact List.mem_singleton.mp hs ▸ hmark
  refine Spec.test (Spec.pure fun w hw => ?_) ?_
  · exact ⟨hadd hw.1.1 (List.contains_iff_mem.mp hw.2), hw.1.2⟩
  · have hrun : Spec (fun w => (Marked fs (Within fs before phase done) w ∧
          .phase phase ∈ w.dirs) ∧ w.markers.contains (.filter phase script) = false)
        (runFilter i phase script)
        (fun status w => Marked fs (Within fs before phase done) w ∧ .phase phase ∈ w.dirs ∧
          (status = 0 → .ran (.filter phase script) 0 ∈ w.log)) fun _ => Inv fs := by
      refine Spec.ite (fun _ => ?_) fun _ => Spec.pure fun w hw => ⟨hw.1.1, hw.1.2, fun h => ?_⟩
      · refine spec_runcmd fun w hw => ?_
        have hmark : .filter phase script ∉ w.markers := by simpa using hw.2
        refine ⟨hw.1.1.after (allowed_ran hphases hfilters hw.1.1 hmark _) _,
          World.mem_dirs_after hw.1.2 _ _ _, fun hzero => ?_⟩
        rw [hzero]
        exact List.mem_append_right w.log List.mem_cons_self
      · cases h
    refine spec_orErr hrun (fun _ _ _ hw => hw.1.1.logged trivial (by simp)) ?_
    refine Spec.test (Spec.cmd fun w hw => ?_) fun w hw => ?_
    · obtain ⟨hmarked, hdir, hran⟩ := hw.1
      refine ⟨hadd ⟨hmarked.1.touch (hran rfl), ?_⟩ List.mem_cons_self, hdir⟩
      exact fun p s hps => List.mem_cons_of_mem _ (hmarked.2 p s hps)
    · exact absurd (List.contains_iff_mem.mpr hw.1.2.1) (ne_true_of_eq_false hw.2)

theorem inv_runPhase (hdirs : ∀ phase ∈ fs.phases, i.MakesDir phase)
    (hphases : before ++ phase :: after = fs.phases) :
    Spec (Marked fs (OfPhases fs before)) (runPhase i fs (some phase))
      (fun _ => Marked fs (OfPhases fs (before ++ [phase]))) fun _ => Inv fs := by
  have hadd {w : World Name} (hw : Marked fs (OfPhases fs before) w)
      (hall : ∀ s ∈ fs.filters phase, .filter phase s ∈ w.markers) :
      Marked fs (OfPhases fs (before ++ [phase])) w := by
    refine ⟨hw.1, ?_⟩
    rintro p s ⟨hp, hs⟩
    rcases List.mem_append.mp hp with hp | hp
    · exact hw.2 p s ⟨hp, hs⟩
    · obtain rfl := List.mem_singleton.mp hp
      exact hall s hs
  refine Spec.test (Spec.pure fun w hw => hadd hw.1 fun s hs => ?_) ?_
  · -- the phase's marker stands only where those of its filters do
    have htouched := (hw.1.1.2 _).mp (List.contains_iff_mem.mp hw.2)
    obtain ⟨pre, post, hsplit⟩ := List.append_of_mem htouched
    have hbefore := hw.1.1.1 _ _ _ hsplit s hs
    refine (hw.1.1.2 _).mpr ?_
    rw [hsplit]
    exact List.mem_append_left _ hbefore
  · refine Spec.ite (fun hempty => ?_) fun _ => ?_
    · refine Spec.pure fun w hw => hadd hw.1 fun s hs => ?_
      rw [List.isEmpty_iff.mp hempty] at hs
      cases hs
    · have hdir : Spec (fun w => Marked fs (OfPhases fs before) w ∧
            w.markers.contains (.phase phase) = false) (phaseDir i phase)
          (fun _ w => Marked fs (Within fs before phase []) w ∧ .phase phase ∈ w.dirs)
          fun _ => Inv fs := by
        have hnone {w : World Name} (hw : Marked fs (OfPhases fs before) w) :
            Marked fs (Within fs before phase []) w :=
          hw.mono fun p s hps => hps.resolve_right fun hnil => List.not_mem_nil hnil.2
        have hmem : phase ∈ fs.phases := by
          rw [← hphases]
          exact List.mem_append_right before List.mem_cons_self
        refine Spec.test (Spec.pure fun w hw => ?_) ?_
        · exact ⟨hnone hw.1.1, List.contains_iff_mem.mp hw.2⟩
        · refine Spec.bind (spec_runcmd fun w hw => ?_) fun _ => Spec.pure fun _ hw => hw
          have hallowed : Allowed fs w.log
              (.ran (.mkdir (.phase phase)) (i.status (.mkdir (.phase phase)))) := trivial
          exact ⟨(hnone hw.1.1).after hallowed _, World.mem_dirs_mkdir (hdirs phase hmem) w⟩
      refine Spec.bind hdir fun _ => ?_
      refine Spec.bind (Spec.forWords _ _ [] fun done script rest hfilters =>
        inv_processFilter hphases hfilters) fun _ => ?_
      refine Spec.cmd fun w hw => ?_
      have hall : ∀ s ∈ fs.filters phase, .filter phase s ∈ w.markers :=
        fun s hs => hw.1.2 phase s (.inr ⟨rfl, hs⟩)
      have hold : Marked fs (OfPhases fs (before ++ [phase])) w :=
        hadd (hw.1.mono fun p s hps => .inl hps) hall
      refine ⟨hold.1.touch fun s hs => (hold.1.2 _).mp (hall s hs), fun p s hps => ?_⟩
      exact List.mem_cons_of_mem _ (hold.2 p s hps)

theorem inv_doAutomode (hdirs : ∀ phase ∈ fs.phases, i.MakesDir phase) :
    Spec (Marked fs (OfPhases fs [])) (doAutomode i fs) (fun _ => Inv fs) fun _ => Inv fs := by
  refine Spec.bind inv_reposSetup fun _ => ?_
  have hphases := Spec.forWords (E := fun _ => Inv fs) fs.phases
    (fun phase => runPhase i fs (some phase)) (J := fun done => Marked fs (OfPhases fs done)) []
    fun before phase after hsplit => inv_runPhase hdirs hsplit
  exact hphases.weaken (fun _ hw => hw) (fun _ _ hw => hw.1) fun _ _ hw => hw

theorem inv_main (hmkdir : ∀ phase ∈ fs.phases, i.MakesDir phase) :
    Spec (Inv fs) (main i fs) (fun _ => Inv fs) fun _ => Inv fs := by
  have hstart {w : World Name} (hw : Inv fs w) : Marked fs (OfPhases fs []) w :=
    ⟨hw, fun _ _ hps => absurd hps.1 List.not_mem_nil⟩
  have hdirs : Spec (Inv fs) (fixDirs i) (fun _ => Marked fs (OfPhases fs [])) fun _ => Inv fs :=
    inv_fixDirs.weaken (fun _ hw => hstart hw) (fun _ _ hw => hw) fun _ _ hw => hw
  unfold main
  split
  · exact Spec.exit fun _ hw => hw
  · exact Spec.bind hdirs fun _ => inv_doAutomode hmkdir
  · exact Spec.bind hdirs fun _ => Spec.exit fun _ hw => hw.1

theorem inv_generator {w : World Name} (h : Inv fs w)
    (hmkdir : ∀ phase ∈ fs.phases, i.MakesDir phase) : Inv fs (generator i fs w).2 := by
  have hend := inv_main hmkdir w h
  unfold generator
  split
  · next hmain => rwa [hmain] at hend
  · next hmain => rwa [hmain] at hend

theorem inv_invocations {w : World Name} (h : Inv fs w) (is : List (Invocation Name))
    (hmkdir : ∀ i ∈ is, ∀ phase ∈ fs.phases, i.MakesDir phase) :
    Inv fs (is.foldl (fun w i => (generator i fs w).2) w) := by
  induction is generalizing w with
  | nil => exact h
  | cons i is ih =>
    exact ih (inv_generator h (hmkdir i List.mem_cons_self))
      fun j hj => hmkdir j (List.mem_cons_of_mem i hj)

/-- The order of the runs and the markers, at every point of the log. -/
structure PhasesInOrder (fs : Filters Name) (w : World Name) : Prop where
  marker_iff : ∀ m, m ∈ w.markers ↔ .touched m ∈ w.log
  succeeded : ∀ before phase script after, w.log = before ++ .touched (.filter phase script) ::
    after → .ran (.filter phase script) 0 ∈ before
  not_run_again : ∀ before phase script after status, w.log = before ++
    .touched (.filter phase script) :: after → .ran (.filter phase script) status ∉ after
  in_name_order : ∀ before phase script after, w.log = before ++ .ran (.filter phase script) 0 ::
    after → ∀ s ∈ fs.filters phase, s < script → .ran (.filter phase s) 0 ∈ before
  after_earlier : ∀ before phase script status after, w.log = before ++
    .ran (.filter phase script) status :: after → ∀ earlier ∈ fs.phases, earlier < phase →
    ∀ s ∈ fs.filters earlier, .touched (.filter earlier s) ∈ before
  complete : ∀ before phase after, w.log = before ++ .touched (.phase phase) :: after →
    ∀ s ∈ fs.filters phase, .touched (.filter phase s) ∈ before

theorem phasesInOrder_of_inv {w : World Name} (h : Inv fs w) : PhasesInOrder fs w where
  marker_iff := h.2
  succeeded := fun before phase script after hlog => h.1 _ _ _ hlog
  not_run_again := by
    intro before phase script after status hlog hran
    obtain ⟨between, rest, rfl⟩ := List.append_of_mem hran
    rw [← List.cons_append, ← List.append_assoc] at hlog
    exact (h.1 _ _ _ hlog).1 (List.mem_append_right before List.mem_cons_self)
  in_name_order := by
    intro before phase script after hlog s hs hlt
    obtain ⟨pre, post, hsplit⟩ := List.append_of_mem ((h.1 _ _ _ hlog).2.2 s hs hlt)
    rw [hsplit, List.append_assoc, List.cons_append] at hlog
    rw [hsplit]
    exact List.mem_append_left _ (h.1 _ _ _ hlog)
  after_earlier := fun before phase script status after hlog => (h.1 _ _ _ hlog).2.1
  complete := fun before phase after hlog => h.1 _ _ _ hlog

/-- A work directory without markers, and any invocations on it, as long as the directories of the
phases can be made. -/
theorem phases_in_order (fs : Filters Name) (dirs : List (Dir Name))
    (is : List (Invocation Name)) (hmkdir : ∀ i ∈ is, ∀ phase ∈ fs.phases, i.MakesDir phase) :
    PhasesInOrder fs (is.foldl (fun w i => (generator i fs w).2) ⟨dirs, [], []⟩) :=
  phasesInOrder_of_inv (inv_invocations ⟨Run.orderly_nil, by simp⟩ is hmkdir)

/-- Two phases with two filters each. -/
def twoPhases : Filters Nat where
  phases := [0, 1]
  filters _ := [0, 1]
  phases_sorted := by decide
  filters_sorted _ := by decide

/-- The second filter of the second phase fails, and in the next invocation nothing does. -/
def retried : List (Invocation Nat) :=
  [1, 0].map fun status =>
    { args := .auto
      exitval := none
      echoStatus := 0
      status := fun
        | .filter 1 1 => status
        | _ => 0
      leaves := fun _ => false
      executable := fun _ _ => true }

theorem retried_in_order : PhasesInOrder twoPhases
    (retried.foldl (fun w i => (generator i twoPhases w).2) ⟨[], [], []⟩) := by
  refine phases_in_order twoPhases [] retried fun i hi phase _ => .inl ?_
  obtain ⟨status, _, rfl⟩ := List.mem_map.mp hi
  rfl

end DeltaPorts.NewGenerator

import DeltaPorts.NewGenerator.PortsSetup
import DeltaPorts.NewGenerator.WorkQueue

/-!
# One ports tree for all filters

The generator on a machine: what its log records has happened there, one event after the other.
Whatever fails in between, all filters that are ever started find the same tree, if they leave it as
it is.
-/

set_option autoImplicit false

namespace DeltaPorts.NewGenerator.PortsHistory

open LineTools (Text)
open Run Exits
open Portsnap (cleanServer serverKeyHash cleanServer_clean)
open Portsnap.Parameters (ConfFile ConfLine plainEvaluation plainWords)
open Portsnap.PortsTree (emptyTree makefileArchive)
open Portsnap.Delivery hiding Step
open PortsSetup hiding psnapInit

variable {Name Content : Type}

/-- An invocation, with what its `psnap_init` finds and what its filters make of the machine. -/
structure Round (Name Content : Type) where
  invocation : Invocation Name
  call : Call Content
  filter : Name → Name → Host Content → Host Content

/-- The filters leave the directories of portsnap and `FPORTS` as they are. -/
def Round.LeavesPorts (r : Round Name Content) : Prop :=
  ∀ phase script h, r.filter phase script h = h

section Machine

variable (σ : Setup Content) (env : Env) (r : Round Name Content)

/-- The invocation in which the commands of `psnap_init` end as they do on the machine. -/
def withRuns (h : Host Content) : Invocation Name where
  args := r.invocation.args
  exitval := r.invocation.exitval
  echoStatus := r.invocation.echoStatus
  status
    | .mkdir .portsnap => if r.call.mkdir env.workdir = true then 0 else 1
    | .portsnapFetch .fports => (runPortsnap σ env r.call .fetch (mkdirWork env r.call h)).1
    | .portsnapExtract .fports =>
      (runPortsnap σ env r.call .extract (fetchedHost σ env r.call h)).1
    | command => r.invocation.status command
  leaves
    | .portsnapExtract .fports =>
      (runPortsnap σ env r.call .extract (fetchedHost σ env r.call h)).2.ports.isSome
    | command => r.invocation.leaves command
  executable := r.invocation.executable

/-- What an event of the log is on the machine. -/
def happen (h : Host Content) : Event Name → Host Content
  | .ran (.mkdir .portsnap) _ => mkdirWork env r.call h
  | .ran (.portsnapFetch .fports) _ => (runPortsnap σ env r.call .fetch h).2
  | .ran (.portsnapExtract .fports) _ => (runPortsnap σ env r.call .extract h).2
  | .ran (.filter phase script) _ => r.filter phase script h
  | _ => h

def replay (log : List (Event Name)) (h : Host Content) : Host Content :=
  log.foldl (happen σ env r) h

structure State (Name Content : Type) where
  world : World Name
  host : Host Content

variable [LinearOrder Name]

/-- An invocation of the generator on the machine. -/
def step (fs : Filters Name) (s : State Name Content) : State Name Content :=
  let world := invoke fs s.world (withRuns σ env r s.host)
  ⟨world, replay σ env r world.log s.host⟩

/-- What every filter of the invocation finds when it is started. -/
def Finds (fs : Filters Name) (s : State Name Content) (h : Host Content) : Prop :=
  ∀ before phase script status after,
    (step σ env r fs s).world.log = before ++ .ran (.filter phase script) status :: after →
      replay σ env r before s.host = h

end Machine

variable {σ : Setup Content} {env : Env} {r : Round Name Content} {conf : ConfFile}
variable {h h' : Host Content} {w : World Name} {E : Nat → World Name → Prop}

theorem replay_concat (log : List (Event Name)) (e : Event Name) (h : Host Content) :
    replay σ env r (log ++ [e]) h = happen σ env r (replay σ env r log h) e := by
  unfold replay
  rw [List.foldl_append]
  rfl

/-- The machine is `h'`, and the generator knows whether it has `FPORTS`. -/
structure Shows (σ : Setup Content) (env : Env) (r : Round Name Content) (h h' : Host Content)
    (w : World Name) : Prop where
  machine : replay σ env r w.log h = h'
  fports : .fports ∈ w.dirs ↔ h'.ports.isSome = true

theorem Shows.logged (hw : Shows σ env r h h' w) {e : Event Name}
    (he : happen σ env r h' e = h') : Shows σ env r h h' (w.logged e) := by
  refine ⟨?_, hw.fports⟩
  rw [World.logged, replay_concat, hw.machine, he]

theorem mem_after (w : World Name) (command : Command Name) (status : Nat) (leaves : Bool)
    (dir : Dir Name) : dir ∈ (w.after command status leaves).dirs ↔
      command.makes = some dir ∧ (status = 0 ∨ leaves = true) ∨ dir ∈ w.dirs := by
  unfold World.after
  dsimp only [World.logged]
  by_cases hmade : status = 0 ∨ leaves = true
  · rw [if_pos hmade, List.mem_append, Option.mem_toList, and_iff_left hmade]
  · rw [if_neg hmade]
    exact (or_iff_right fun hdir => hmade hdir.2).symm

theorem Shows.after (hw : Shows σ env r h h' w) {command : Command Name} {status : Nat}
    {leaves : Bool} {h'' : Host Content}
    (hhappen : happen σ env r h' (Event.ran command status) = h'')
    (hfports : h''.ports.isSome = true ↔
      command.makes = some .fports ∧ (status = 0 ∨ leaves = true) ∨ h'.ports.isSome = true) :
    Shows σ env r h h'' (w.after command status leaves) := by
  refine ⟨?_, ?_⟩
  · have hlog : (w.after command status leaves).log = w.log ++ [.ran command status] := rfl
    rw [hlog, replay_concat, hw.machine, hhappen]
  · rw [mem_after, hw.fports, hfports]

/-- A command that is none of portsnap's. -/
theorem shows_kept {command : Command Name} (hmakes : command.makes ≠ some .fports)
    (hhappen : ∀ status, happen σ env r h' (Event.ran command status) = h') :
    Kept (withRuns σ env r h) (Shows σ env r h h') command := by
  refine ⟨fun w hw => hw.logged rfl, fun w hw => hw.after (hhappen _) ?_⟩
  exact (or_iff_right fun hmade => hmakes hmade.1).symm

/-- A new work directory, and no `FPORTS`. -/
def Start (s : State Name Content) : Prop :=
  .fports ∉ s.world.dirs ∧ s.host = ⟨none, none⟩

/-- What is assumed where `psnap_init` fetches, and of the filters. -/
structure Sound (σ : Setup Content) (env : Env) (s : State Name Content) (r : Round Name Content) :
    Prop where
  fetch : s.host.ports = none → Ok σ env s.host r.call
  filters : r.LeavesPorts

/-- Between two invocations. -/
structure Between (σ : Setup Content) (s : State Name Content) : Prop where
  fports : .fports ∈ s.world.dirs ↔ s.host.ports.isSome = true
  inv : PortsSetup.Inv σ s.host

theorem start_between {s : State Name Content} (hs : Start s) : Between σ s := by
  obtain ⟨hdirs, hhost⟩ := hs
  refine ⟨?_, ?_⟩
  · rw [hhost]
    exact iff_of_false hdirs Bool.false_ne_true
  · rw [hhost]
    exact ⟨nofun, nofun⟩

theorem shows_mkdir (hnone : h.ports = none) :
    Spec (Shows σ env r h h) (runcmd (withRuns σ env r h) (.mkdir .portsnap))
      (fun _ => Shows σ env r h (mkdirWork env r.call h)) E := by
  refine spec_runcmd fun w hw => hw.after rfl ?_
  rw [mkdirWork_ports, hnone]
  exact (or_iff_right fun hmade => nomatch hmade.1).symm

theorem shows_fetch (henv : env.Right conf) (hcfg : σ.cfg = ⟨conf.value .keyprint, none⟩)
    (hnone : h.ports = none) :
    Spec (Shows σ env r h (mkdirWork env r.call h))
      (runcmd (withRuns σ env r h) (.portsnapFetch .fports))
      (fun status w => status = (runPortsnap σ env r.call .fetch (mkdirWork env r.call h)).1 ∧
        Shows σ env r h (fetchedHost σ env r.call h) w) E := by
  refine spec_runcmd fun w hw => ⟨rfl, hw.after rfl ?_⟩
  rw [mkdirWork_ports, fetchedHost_ports henv hcfg hnone, hnone]
  exact (or_iff_right fun hmade => nomatch hmade.1).symm

theorem shows_extract (henv : env.Right conf) (hcfg : σ.cfg = ⟨conf.value .keyprint, none⟩)
    (hnone : h.ports = none) :
    Spec (Shows σ env r h (fetchedHost σ env r.call h))
      (runcmd (withRuns σ env r h) (.portsnapExtract .fports))
      (fun status w => status = (runPortsnap σ env r.call .extract (fetchedHost σ env r.call h)).1 ∧
        Shows σ env r h (extractedHost σ env r.call h) w) E := by
  refine spec_runcmd fun w hw => ⟨rfl, hw.after rfl ?_⟩
  have hfetched : (fetchedHost σ env r.call h).ports = none := fetchedHost_ports henv hcfg hnone
  constructor
  · exact fun hsome => .inl ⟨rfl, .inr hsome⟩
  · rintro (⟨_, hzero | hleaves⟩ | hsome)
    · obtain ⟨w', ⟨_, _, _, hend, _⟩, _⟩ := (extract_spec henv hfetched).1 hzero
      unfold extractedHost
      rw [hend]
      rfl
    · exact hleaves
    · rw [hfetched] at hsome
      cases hsome

/-- A filter that is started finds the machine `h'`. -/
def FoundAt (σ : Setup Content) (env : Env) (r : Round Name Content) (h h' : Host Content)
    (before : List (Event Name)) (e : Event Name) : Prop :=
  ∀ phase script status, e = .ran (.filter phase script) status → replay σ env r before h = h'

/-- What an invocation leaves: nothing has been started on the machine, or `psnap_init` has, and
if filters have been then it has gone on and they have found what it has left. -/
structure Left (σ : Setup Content) (env : Env) (r : Round Name Content) (h : Host Content)
    (w : World Name) : Prop where
  shows : Shows σ env r h h w ∨ Shows σ env r h (PortsSetup.psnapInit σ env r.call h).2 w
  filters : filterRuns w.log ≠ [] → (PortsSetup.psnapInit σ env r.call h).1 = true ∧
    Shows σ env r h (PortsSetup.psnapInit σ env r.call h).2 w
  found : Orderly (FoundAt σ env r h (PortsSetup.psnapInit σ env r.call h).2) w.log

theorem found_of_no_filters {log : List (Event Name)} (hnone : filterRuns log = []) :
    Orderly (FoundAt σ env r h h') log := by
  rintro before e after hlog phase script status rfl
  rw [hlog, List.append_cons, filterRuns, List.filterMap_append, List.filterMap_append] at hnone
  have hrun := (List.append_eq_nil_iff.mp (List.append_eq_nil_iff.mp hnone).1).2
  cases hrun

/-- In the loops over the phases. -/
def Going (σ : Setup Content) (env : Env) (r : Round Name Content) (h h' : Host Content)
    (w : World Name) : Prop :=
  Shows σ env r h h' w ∧ Orderly (FoundAt σ env r h h') w.log

theorem Going.logged (hw : Going σ env r h h' w) {e : Event Name} (he : happen σ env r h' e = h')
    (hnone : filterRuns [e] = []) : Going σ env r h h' (w.logged e) := by
  refine ⟨hw.1.logged he, hw.2.concat ?_⟩
  rintro phase script status rfl
  cases hnone

theorem Going.touched (hw : Going σ env r h h' w) (marker : Marker Name) :
    Going σ env r h h' { w.logged (.touched marker) with markers := marker :: w.markers } := by
  have he : happen σ env r h' (.touched marker) = h' := rfl
  obtain ⟨hshows, hfound⟩ := hw.logged he rfl
  exact ⟨⟨hshows.machine, hshows.fports⟩, hfound⟩

theorem going_mkdir (phase : Name) :
    Kept (withRuns σ env r h) (Going σ env r h h') (.mkdir (.phase phase)) := by
  have hkept := @shows_kept _ _ σ env r h h' (.mkdir (.phase phase)) (by simp [Command.makes])
    fun _ => rfl
  refine ⟨fun w hw => hw.logged rfl rfl, fun w hw => ⟨hkept.after w hw.1, hw.2.concat ?_⟩⟩
  rintro p script status heq
  cases heq

theorem going_filter (hleaves : r.LeavesPorts) (phase script : Name) :
    Kept (withRuns σ env r h) (Going σ env r h h') (.filter phase script) := by
  have hkept := @shows_kept _ _ σ env r h h' (.filter phase script) (by simp [Command.makes])
    fun _ => hleaves phase script h'
  refine ⟨fun w hw => hw.logged rfl rfl, fun w hw => ⟨hkept.after w hw.1, hw.2.concat ?_⟩⟩
  exact fun _ _ _ _ => hw.1.machine

variable {w₀ : World Name}

theorem left_of_still (hlog : w₀.log = []) (hw : Still w₀ w)
    (hshows : Shows σ env r h h w ∨ Shows σ env r h (PortsSetup.psnapInit σ env r.call h).2 w) :
    Left σ env r h w := by
  have hnone : filterRuns w.log = [] := by
    rw [hw.runs, hlog]
    rfl
  exact ⟨hshows, fun hruns => absurd hnone hruns, found_of_no_filters hnone⟩

variable [LinearOrder Name] {fs : Filters Name}

/-- The generator's `psnap_init` does on the machine what that of the machine does. -/
theorem shows_psnapInit (henv : env.Right conf) (hcfg : σ.cfg = ⟨conf.value .keyprint, none⟩) :
    Spec (Shows σ env r h h) (psnapInit (withRuns σ env r h) (some .fports))
      (fun _ w => (PortsSetup.psnapInit σ env r.call h).1 = true ∧
        Shows σ env r h (PortsSetup.psnapInit σ env r.call h).2 w)
      fun _ => Shows σ env r h (PortsSetup.psnapInit σ env r.call h).2 := by
  have hports {w : World Name} (hw : Shows σ env r h h w) :
      w.dirs.contains .fports = h.ports.isSome := by
    rw [Bool.eq_iff_iff, List.contains_iff_mem, hw.fports]
  refine Spec.test (Spec.pure fun w hw => ?_) ?_
  · have hsome : h.ports.isSome = true := (hports hw.1).symm.trans hw.2
    have hsame : PortsSetup.psnapInit σ env r.call h = (true, h) := if_pos hsome
    rw [hsame]
    exact ⟨rfl, hw.1⟩
  · by_cases hnone : h.ports = none
    · rw [psnapInit_none hnone]
      refine Spec.bind ((shows_mkdir hnone).weaken (fun _ hw => hw.1) (fun _ _ hw => hw)
        fun _ _ hw => hw) fun _ => spec_orErr (shows_fetch henv hcfg hnone) ?_ ?_
      · rintro _ w hne ⟨rfl, hw⟩
        rw [if_pos hne]
        exact hw.logged rfl
      · rintro w ⟨hzero, hw⟩
        rw [if_neg (not_not.mpr hzero.symm)]
        refine spec_orErr (shows_extract henv hcfg hnone) ?_ (Spec.pure ?_) w hw
        · rintro _ w hne ⟨rfl, hw⟩
          rw [if_pos hne]
          exact hw.logged rfl
        · rintro w ⟨hzero, hw⟩
          rw [if_neg (not_not.mpr hzero.symm)]
          exact ⟨rfl, hw⟩
    · rintro w ⟨hw, habsent⟩
      rw [hports hw] at habsent
      exact absurd (Option.isSome_eq_false_iff.mp habsent) (by simpa using hnone)

theorem going_phases (hleaves : r.LeavesPorts) :
    Spec (Going σ env r h h')
      (forWords fs.phases fun phase => runPhase (withRuns σ env r h) fs (some phase))
      (fun _ => Going σ env r h h') fun _ => Going σ env r h h' :=
  kept_phases going_mkdir (going_filter hleaves) (fun _ _ _ _ _ hw => hw.touched _)
    fun _ _ _ hw => hw.touched _

theorem left_main (henv : env.Right conf) (hcfg : σ.cfg = ⟨conf.value .keyprint, none⟩)
    (hleaves : r.LeavesPorts) (hlog : w₀.log = []) :
    Spec (fun w => Shows σ env r h h w ∧ Still w₀ w) (main (withRuns σ env r h) fs)
      (fun _ => Left σ env r h) fun _ => Left σ env r h := by
  have hstart {w : World Name} (hw : Shows σ env r h h w ∧ Still w₀ w) : Left σ env r h w :=
    left_of_still hlog hw.2 (.inl hw.1)
  have hdirs : Spec (fun w => Shows σ env r h h w ∧ Still w₀ w) (fixDirs (withRuns σ env r h))
      (fun _ w => Shows σ env r h h w ∧ Still w₀ w) fun _ => Left σ env r h := by
    refine ((kept_fixDirs fun dir hdir => ?_).and still_fixDirs).weaken (fun _ hw => hw)
      (fun _ _ hw => hw) fun _ _ hw => hstart hw
    simp only [List.mem_cons, List.not_mem_nil, or_false] at hdir
    rcases hdir with rfl | rfl | rfl | rfl <;> exact shows_kept (by simp [Command.makes]) fun _ => rfl
  have hrepo {url : String} {dst : Dir Name} (hdst : dst ≠ .fports) :
      Spec (fun w => Shows σ env r h h w ∧ Still w₀ w) (setupRepo (withRuns σ env r h) url dst)
        (fun _ w => Shows σ env r h h w ∧ Still w₀ w) fun _ => Left σ env r h := by
    refine ((kept_setupRepo (shows_kept (fun heq => hdst (Option.some.inj heq))
      fun _ => rfl)).and still_setupRepo).weaken (fun _ hw => hw) (fun _ _ hw => hw)
      fun _ _ hw => hstart hw
  have hports : Spec (fun w => Shows σ env r h h w ∧ Still w₀ w)
      (psnapInit (withRuns σ env r h) (some .fports))
      (fun _ w => (PortsSetup.psnapInit σ env r.call h).1 = true ∧
        Going σ env r h (PortsSetup.psnapInit σ env r.call h).2 w) fun _ => Left σ env r h := by
    refine ((shows_psnapInit henv hcfg).and still_psnapInit).weaken (fun _ hw => hw)
      (fun _ w hw => ⟨hw.1.1, hw.1.2, found_of_no_filters ?_⟩)
      fun _ _ hw => left_of_still hlog hw.2 (.inr hw.1)
    rw [hw.2.runs, hlog]
    rfl
  have hphases : Spec (fun w => (PortsSetup.psnapInit σ env r.call h).1 = true ∧
        Going σ env r h (PortsSetup.psnapInit σ env r.call h).2 w)
      (forWords fs.phases fun phase => runPhase (withRuns σ env r h) fs (some phase))
      (fun _ => Left σ env r h) fun _ => Left σ env r h := by
    rintro w ⟨hgoes, hw⟩
    have hleft {w : World Name} (hw : Going σ env r h (PortsSetup.psnapInit σ env r.call h).2 w) :
        Left σ env r h w := ⟨.inr hw.1, fun _ => ⟨hgoes, hw.1⟩, hw.2⟩
    exact ((going_phases hleaves).weaken (fun _ hw => hw) (fun _ _ hw => hleft hw)
      fun _ _ hw => hleft hw) w hw
  have hargs : (withRuns σ env r h).args = r.invocation.args := rfl
  unfold main
  rw [hargs]
  cases r.invocation.args with
  | badOption => exact Spec.exit fun w hw => hstart hw
  | other => exact Spec.bind hdirs fun _ => Spec.exit fun w hw => hstart hw
  | auto =>
    refine Spec.bind hdirs fun _ => Spec.bind (Spec.bind (hrepo (by simp)) fun _ =>
      Spec.bind (hrepo (by simp)) fun _ => hports) fun _ => hphases

theorem left_step (fs : Filters Name) (henv : env.Right conf)
    (hcfg : σ.cfg = ⟨conf.value .keyprint, none⟩)
    {s : State Name Content} (hs : .fports ∈ s.world.dirs ↔ s.host.ports.isSome = true)
    (hleaves : r.LeavesPorts) : Left σ env r s.host (step σ env r fs s).world := by
  have hend := @left_main _ _ σ env r conf s.host { s.world with log := [] } _ fs henv hcfg
    hleaves rfl { s.world with log := [] } ⟨⟨rfl, hs⟩, .refl _⟩
  unfold step invoke generator
  rcases hmain : main (withRuns σ env r s.host) fs { s.world with log := [] }
    with ⟨_ | _, w'⟩
  · rw [hmain] at hend
    exact hend
  · rw [hmain] at hend
    exact hend

theorem Left.machine {s : State Name Content}
    (hleft : Left σ env r s.host (step σ env r fs s).world) :
    ((step σ env r fs s).host = s.host ∨
      (step σ env r fs s).host = (PortsSetup.psnapInit σ env r.call s.host).2) ∧
    (.fports ∈ (step σ env r fs s).world.dirs ↔
      (step σ env r fs s).host.ports.isSome = true) := by
  have hhost : (step σ env r fs s).host =
      replay σ env r (step σ env r fs s).world.log s.host := rfl
  rcases hleft.shows with hw | hw
  · rw [hhost, hw.machine]
    exact ⟨.inl rfl, hw.fports⟩
  · rw [hhost, hw.machine]
    exact ⟨.inr rfl, hw.fports⟩

theorem Between.step (henv : env.Right conf) (hcfg : σ.cfg = ⟨conf.value .keyprint, none⟩)
    {s : State Name Content} (hs : Between σ s) (hsound : Sound σ env s r) :
    Between σ (step σ env r fs s) := by
  obtain ⟨hhost, hfports⟩ := (left_step fs henv hcfg hs.fports hsound.filters).machine
  refine ⟨hfports, ?_⟩
  rcases hhost with heq | heq
  · rw [heq]
    exact hs.inv
  · rw [heq]
    exact psnapInit_inv henv hcfg hs.inv hsound.fetch

theorem psnapInit_of_ports {c : Call Content} (hsome : h.ports.isSome = true) :
    PortsSetup.psnapInit σ env c h = (true, h) := if_pos hsome

/-- An invocation leaves `FPORTS` as it finds it. -/
theorem step_host (fs : Filters Name) (henv : env.Right conf)
    (hcfg : σ.cfg = ⟨conf.value .keyprint, none⟩)
    {s : State Name Content} (hs : .fports ∈ s.world.dirs ↔ s.host.ports.isSome = true)
    (hsome : s.host.ports.isSome = true) (hleaves : r.LeavesPorts) :
    (step σ env r fs s).host = s.host := by
  rcases (left_step fs henv hcfg hs hleaves).machine.1 with heq | heq
  · exact heq
  · rw [heq, psnapInit_of_ports hsome]

theorem later_host (henv : env.Right conf) (hcfg : σ.cfg = ⟨conf.value .keyprint, none⟩)
    {s : State Name Content} (hs : .fports ∈ s.world.dirs ↔ s.host.ports.isSome = true)
    (hsome : s.host.ports.isSome = true) (rs : List (Round Name Content))
    (hleaves : ∀ r ∈ rs, r.LeavesPorts) :
    (rs.foldl (fun s r => step σ env r fs s) s).host = s.host ∧
      (.fports ∈ (rs.foldl (fun s r => step σ env r fs s) s).world.dirs ↔
        s.host.ports.isSome = true) := by
  induction rs generalizing s with
  | nil => exact ⟨rfl, hs⟩
  | cons r rs ih =>
    have hfirst := hleaves r List.mem_cons_self
    have hsame := step_host fs henv hcfg hs hsome hfirst
    have hfports := (left_step fs henv hcfg hs hfirst).machine.2
    have hrest := ih hfports (by rw [hsame]; exact hsome) fun q hq =>
      hleaves q (List.mem_cons_of_mem r hq)
    rw [hsame] at hrest
    exact hrest

theorem Left.finds {s : State Name Content}
    (hleft : Left σ env r s.host (step σ env r fs s).world) :
    Finds σ env r fs s (PortsSetup.psnapInit σ env r.call s.host).2 :=
  fun before phase script status after hlog => hleft.found before _ after hlog phase script status rfl

def signedLines : List ConfLine :=
  [.set .servername "portsnap.FreeBSD.org".toList, .set .keyprint serverKeyHash]

theorem signedLines_valid : ∀ l ∈ signedLines, l.Valid := by
  intro l hl
  unfold signedLines at hl
  simp only [List.mem_cons, List.not_mem_nil, or_false] at hl
  rcases hl with rfl | rfl
  · exact ⟨by decide, by decide⟩
  · exact ⟨by decide +kernel, by decide +kernel⟩

def signedConf : ConfFile where
  lines := signedLines
  valid := signedLines_valid

def portEnv : Env where
  workdir := "/b/.portsnap".toList
  fports := "/b/fports".toList
  e := plainEvaluation
  g := plainWords
  confs f := if f = "/usr/local/etc/portsnap.conf".toList then some signedConf else none
  indexpairs := []

def portCall : Call Text where
  terminal := true
  mkdir _ := true
  writable _ := true
  srv := cleanServer
  index := portIndex
  made := emptyTree
  indices := true

def portInvocation : Invocation ℕ where
  args := .auto
  exitval := none
  echoStatus := 0
  status _ := 0
  leaves _ := false
  executable _ _ := true

def oneFilter : Filters ℕ where
  phases := onePhase.phases
  filters _ := [5]
  phases_sorted := onePhase.phases_sorted
  filters_sorted _ := List.pairwise_singleton _ _

def newMachine : State ℕ Text := ⟨⟨[], [], []⟩, ⟨none, none⟩⟩

theorem portEnv_right : portEnv.Right signedConf where
  fits f conf hconf := by
    dsimp only [portEnv] at hconf
    split at hconf
    · rw [← Option.some.inj hconf]
      decide +kernel
    · cases hconf
  names w hw hmem := hw (List.mem_singleton.mp hmem).symm
  args command := by
    cases command <;> decide +kernel
  workdir := by decide
  fports := by decide
  apart := by decide
  isConf := rfl
  nothingRefused := rfl

theorem portCall_ok : Ok portSetup portEnv ⟨none, none⟩ portCall where
  clean site hsite := by
    rw [← Option.some.inj hsite]
    exact cleanServer_clean historyTools_knowsPort
  isIndex site hsite := by
    rw [← Option.some.inj hsite]
    exact cleanSite_isIndex
  names := portIndex_names

def portRound : Round ℕ Text where
  invocation := portInvocation
  call := portCall
  filter _ _ h := h

theorem portRound_sound : Sound portSetup portEnv newMachine portRound :=
  ⟨fun _ => portCall_ok, fun _ _ _ => rfl⟩

theorem newMachine_fetched : (runPortsnap portSetup portEnv portCall .fetch
    (mkdirWork portEnv portCall newMachine.host)).1 = 0 := by
  rw [runPortsnap_eq portEnv_right]
  decide +kernel

theorem newMachine_extracted : (runPortsnap portSetup portEnv portCall .extract
    (fetchedHost portSetup portEnv portCall newMachine.host)).1 = 0 := by
  unfold fetchedHost
  rw [runPortsnap_eq portEnv_right, runPortsnap_eq portEnv_right]
  decide +kernel

theorem newMachine_reaches :
    reaches (withRuns portSetup portEnv portRound newMachine.host) newMachine.world = true := by
  have hfetch : (withRuns portSetup portEnv portRound newMachine.host).status
      (.portsnapFetch .fports) = 0 := newMachine_fetched
  have hextract : (withRuns portSetup portEnv portRound newMachine.host).status
      (.portsnapExtract .fports) = 0 := newMachine_extracted
  unfold reaches
  rw [hfetch, hextract]
  rfl

theorem newMachine_filters :
    filterRuns (step portSetup portEnv portRound oneFilter newMachine).world.log ≠ [] := by
  have hmkdir : ∀ phase ∈ oneFilter.phases, .phase phase ∈ newMachine.world.dirs ∨
      (withRuns portSetup portEnv portRound newMachine.host).MakesDir phase :=
    fun _ _ => .inr (.inl rfl)
  rcases invoke_spec (phaseRight_new oneFilter []) hmkdir with hruns | hstill
  · have hlog : filterRuns (step portSetup portEnv portRound oneFilter newMachine).world.log =
        [((0, 5), 0)] := hruns.2.runs
    rw [hlog]
    exact List.cons_ne_nil _ _
  · cases newMachine_reaches.symm.trans hstill.1

end DeltaPorts.NewGenerator.PortsHistory

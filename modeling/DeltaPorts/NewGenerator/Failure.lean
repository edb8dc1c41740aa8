import Mathlib.Data.Nat.Basic
import DeltaPorts.NewGenerator.Generator

/-!
# What the exit status of the generator reports
-/

set_option autoImplicit false

namespace DeltaPorts.NewGenerator

open Exits

variable {Name : Type}

/-- Facts that no step of the script can take back. -/
structure Stable (K : World Name → Prop) : Prop where
  after : ∀ w command status leaves, K w → K (w.after command status leaves)
  touch : ∀ w m, K w → K { w.logged (.touched m) with markers := m :: w.markers }

theorem stable_const (c : Prop) : Stable fun _ : World Name => c where
  after := fun _ _ _ _ h => h
  touch := fun _ _ h => h

theorem stable_log (e : Event Name) : Stable fun w => e ∈ w.log where
  after := fun _ _ _ _ h => List.mem_append_left _ h
  touch := fun _ _ h => List.mem_append_left _ h

theorem stable_marker (m : Marker Name) : Stable fun w => m ∈ w.markers where
  after := fun _ _ _ _ h => h
  touch := fun _ _ h => List.mem_cons_of_mem _ h

theorem Stable.and {K K' : World Name → Prop} (h : Stable K) (h' : Stable K') :
    Stable fun w => K w ∧ K' w where
  after := fun w c n l hw => ⟨h.after w c n l hw.1, h'.after w c n l hw.2⟩
  touch := fun w m hw => ⟨h.touch w m hw.1, h'.touch w m hw.2⟩

theorem Stable.imp {K : World Name → Prop} (h : Stable K) (c : Prop) :
    Stable fun w => c → K w where
  after := fun w c n l hw hc => h.after w c n l (hw hc)
  touch := fun w m hw hc => h.touch w m (hw hc)

theorem Stable.all {ι : Type} {K : ι → World Name → Prop} (h : ∀ x, Stable (K x)) :
    Stable fun w => ∀ x, K x w where
  after := fun w c n l hw x => (h x).after w c n l (hw x)
  touch := fun w m hw x => (h x).touch w m (hw x)

/-- No `err` yet; the directories of `D` and the markers of `M` are as they were in `w₀`. -/
structure Calm (w₀ : World Name) (D : Dir Name → Prop) (M : Marker Name → Prop)
    (K : World Name → Prop) (w : World Name) : Prop where
  quiet : ∀ n, .err n ∉ w.log
  dirs : ∀ d, D d → (d ∈ w.dirs ↔ d ∈ w₀.dirs)
  markers : ∀ m, M m → (m ∈ w.markers ↔ m ∈ w₀.markers)
  known : K w

variable {w₀ : World Name} {D D' : Dir Name → Prop} {M M' : Marker Name → Prop}
variable {K K' : World Name → Prop}

theorem Calm.mono {w : World Name} (h : Calm w₀ D M K w) (hD : ∀ d, D' d → D d)
    (hM : ∀ m, M' m → M m) (hK : K' w) : Calm w₀ D' M' K' w where
  quiet := h.quiet
  dirs := fun d hd => h.dirs d (hD d hd)
  markers := fun m hm => h.markers m (hM m hm)
  known := hK

theorem Calm.after {w : World Name} {command : Command Name} (h : Calm w₀ D M K w)
    (hK : Stable K) (hD : ∀ d, D' d → D d ∧ command.makes ≠ some d) (status : Nat)
    (leaves : Bool) : Calm w₀ D' M K (w.after command status leaves) where
  quiet := by
    intro n hn
    rcases List.mem_append.mp hn with hn | hn
    · exact h.quiet n hn
    · simp at hn
  dirs := by
    intro d hd
    rw [← h.dirs d (hD d hd).1]
    have hother := (hD d hd).2
    unfold World.after
    split <;> simp [hother]
  markers := h.markers
  known := hK.after w command status leaves h.known

theorem Calm.touch {w : World Name} {m : Marker Name} (h : Calm w₀ D M K w) (hK : Stable K)
    (hM : ∀ x, M' x → M x ∧ x ≠ m) :
    Calm w₀ D M' K { w.logged (.touched m) with markers := m :: w.markers } where
  quiet := by
    intro n hn
    rcases List.mem_append.mp hn with hn | hn
    · exact h.quiet n hn
    · simp at hn
  dirs := h.dirs
  markers := by
    intro x hx
    rw [← h.markers x (hM x hx).1, List.mem_cons]
    exact or_iff_right (hM x hx).2
  known := hK.touch w m h.known

/-- What is known of a repository once it was set up. -/
def Repo (i : Invocation Name) (w₀ : World Name) (url : String) (dst : Dir Name)
    (w : World Name) : Prop :=
  (dst ∈ w₀.dirs ∨ i.status (.clone url dst) = 0) ∧
    (dst ∈ w₀.dirs ∨ .ran (.clone url dst) 0 ∈ w.log)

theorem stable_repo (w₀ : World Name) (i : Invocation Name) (url : String) (dst : Dir Name) :
    Stable (Repo i w₀ url dst) := by
  refine (stable_const _).and ?_
  constructor
  · exact fun w _ _ _ h => h.imp_right (List.mem_append_left _)
  · exact fun w _ h => h.imp_right (List.mem_append_left _)

variable [LinearOrder Name] {fs : Filters Name} {i : Invocation Name}

/-- No command whose failure is passed to `err` is reached and fails. -/
structure NoFailure (fs : Filters Name) (i : Invocation Name) (w : World Name) : Prop where
  dirs : ∀ dir ∈ [Dir.gwrkdir, .merged, .potential, .comqueue],
    dir ∈ w.dirs ∨ i.status (.mkdir dir) = 0
  dports : .dports ∈ w.dirs ∨ i.status (.clone DPORTS_URL .dports) = 0
  delta : .delta ∈ w.dirs ∨ i.status (.clone DELTA_URL .delta) = 0
  ports : .fports ∈ w.dirs ∨
    i.status (.portsnapFetch .fports) = 0 ∧ i.status (.portsnapExtract .fports) = 0
  filters : ∀ phase ∈ fs.phases, .phase phase ∈ w.markers ∨
    ∀ script ∈ fs.filters phase, .filter phase script ∈ w.markers ∨
      i.executable phase script = true ∧ i.status (.filter phase script) = 0

/-- A status of 0 means that the repositories are there and the phases done, and a call of
`err` ends the program with its argument. -/
def Reports (fs : Filters Name) (dirs : List (Dir Name)) (r : Nat × World Name) : Prop :=
  (r.1 = 0 →
    (.dports ∈ dirs ∨ .ran (.clone DPORTS_URL .dports) 0 ∈ r.2.log) ∧
    (.delta ∈ dirs ∨ .ran (.clone DELTA_URL .delta) 0 ∈ r.2.log) ∧
    ∀ phase ∈ fs.phases, fs.filters phase ≠ [] → .phase phase ∈ r.2.markers) ∧
  ∀ status, .err status ∈ r.2.log → r.1 = status

/-- The end after a failure. -/
def Failed (fs : Filters Name) (i : Invocation Name) (w₀ : World Name) (status : Nat)
    (w : World Name) : Prop :=
  status = errStatus i ∧ .err 1 ∈ w.log ∧ (∀ n, .err n ∈ w.log → n = 1) ∧ ¬ NoFailure fs i w₀

theorem Calm.failed {w : World Name} (h : Calm w₀ D M K w) (hcause : ¬ NoFailure fs i w₀) :
    Failed fs i w₀ (errStatus i) (w.logged (.err 1)) := by
  refine ⟨rfl, List.mem_append_right w.log List.mem_cons_self, fun n hn => ?_, hcause⟩
  rcases List.mem_append.mp hn with hn | hn
  · exact absurd hn (h.quiet n)
  · simpa using hn

/-- A command whose failure is the invocation's. -/
theorem calm_orErr {command : Command Name} {rest : Exits (World Name) Unit}
    {Q : Unit → World Name → Prop} (hK : Stable K)
    (hD : ∀ d, D' d → D d ∧ command.makes ≠ some d)
    (hcause : i.status command ≠ 0 → ¬ NoFailure fs i w₀)
    (hrest : i.status command = 0 → Spec (Calm w₀ D' M fun w => K w ∧ .ran command 0 ∈ w.log)
      rest Q (Failed fs i w₀)) :
    Spec (Calm w₀ D M K) (runcmd i command >>= fun status =>
      if status ≠ 0 then err i 1 else rest) Q (Failed fs i w₀) := by
  have hrun : Spec (Calm w₀ D M K) (runcmd i command) (fun status w => i.status command = status ∧
      Calm w₀ D' M (fun w => K w ∧ .ran command status ∈ w.log) w) (Failed fs i w₀) := by
    refine spec_runcmd fun w hw => ⟨rfl, ?_⟩
    have hafter := hw.after hK hD (i.status command) (i.leaves command)
    exact hafter.mono (fun _ h => h) (fun _ h => h)
      ⟨hafter.known, List.mem_append_right w.log List.mem_cons_self⟩
  refine spec_orErr hrun (fun status w hne hw => hw.2.failed (hcause ?_)) ?_
  · rw [hw.1]
    exact hne
  · intro w hw
    exact hrest hw.1 w hw.2

theorem calm_fixDir {dir : Dir Name} (hK : Stable K) (hdir : D dir)
    (hcause : ¬ (dir ∈ w₀.dirs ∨ i.status (.mkdir dir) = 0) → ¬ NoFailure fs i w₀) :
    Spec (Calm w₀ D M K) (fixDir i dir) (fun _ => Calm w₀ (fun d => D d ∧ d ≠ dir) M
      fun w => K w ∧ (dir ∈ w₀.dirs ∨ i.status (.mkdir dir) = 0)) (Failed fs i w₀) := by
  refine Spec.test (Spec.pure fun w hw => ?_) ?_
  · have hmem := (hw.1.dirs dir hdir).mp (List.contains_iff_mem.mp hw.2)
    exact hw.1.mono (fun d hd => hd.1) (fun _ h => h) ⟨hw.1.known, .inl hmem⟩
  · intro w hw
    have hnot : dir ∉ w₀.dirs := by
      rw [← hw.1.dirs dir hdir]
      simpa using hw.2
    have hother : ∀ d, D d ∧ d ≠ dir → D d ∧ (Command.mkdir dir).makes ≠ some d :=
      fun d hd => ⟨hd.1, fun h => hd.2 (Option.some.inj h).symm⟩
    refine calm_orErr hK hother (fun hne => hcause fun h => h.elim hnot hne)
      (fun hzero => ?_) w hw.1
    exact Spec.pure fun w hw => hw.mono (fun _ h => h) (fun _ h => h) ⟨hw.known.1, .inr hzero⟩

theorem calm_fixDirs (hcause : ∀ dir ∈ [Dir.gwrkdir, .merged, .potential, .comqueue],
      ¬ (dir ∈ w₀.dirs ∨ i.status (.mkdir dir) = 0) → ¬ NoFailure fs i w₀) :
    Spec (Calm w₀ (fun _ => True) M fun _ => True) (fixDirs i)
      (fun _ => Calm w₀ (fun d => d ∉ [Dir.gwrkdir, .merged, .potential, .comqueue]) M fun _ =>
        ∀ dir ∈ [Dir.gwrkdir, .merged, .potential, .comqueue],
          dir ∈ w₀.dirs ∨ i.status (.mkdir dir) = 0) (Failed fs i w₀) := by
  have hloop := Spec.forWords (E := Failed fs i w₀) [Dir.gwrkdir, .merged, .potential, .comqueue]
    (fixDir i) (J := fun done => Calm w₀ (fun d => d ∉ done) M fun _ =>
      ∀ dir ∈ done, dir ∈ w₀.dirs ∨ i.status (.mkdir dir) = 0) [] ?_
  · refine hloop.weaken (fun w hw => ?_) (fun _ _ hw => hw) fun _ _ hw => hw
    exact hw.mono (fun _ _ => trivial) (fun _ h => h) (by simp)
  · intro before dir after hsplit
    have hmem : dir ∈ [Dir.gwrkdir, .merged, .potential, .comqueue] := by
      rw [List.nil_append] at hsplit
      rw [← hsplit]
      exact List.mem_append_right before List.mem_cons_self
    have hnew : dir ∉ before := by
      have hnodup : ([.gwrkdir, .merged, .potential, .comqueue] : List (Dir Name)).Nodup := by simp
      rw [List.nil_append] at hsplit
      rw [← hsplit] at hnodup
      exact fun h => (List.nodup_append.mp hnodup).2.2 dir h dir List.mem_cons_self rfl
    refine (calm_fixDir (stable_const _) hnew (hcause dir hmem)).weaken (fun _ hw => hw)
      (fun _ w hw => hw.mono (fun d hd => ?_) (fun _ h => h) ?_) fun _ _ hw => hw
    · simpa [not_or] using hd
    · intro d hd
      rcases List.mem_append.mp hd with hd | hd
      · exact hw.known.1 d hd
      · exact List.mem_singleton.mp hd ▸ hw.known.2

theorem calm_setupRepo {url : String} {dst : Dir Name} (hK : Stable K) (hdst : D dst)
    (hcause : ¬ (dst ∈ w₀.dirs ∨ i.status (.clone url dst) = 0) → ¬ NoFailure fs i w₀) :
    Spec (Calm w₀ D M K) (setupRepo i url dst) (fun _ => Calm w₀ (fun d => D d ∧ d ≠ dst) M
      fun w => K w ∧ Repo i w₀ url dst w) (Failed fs i w₀) := by
  have hclone : Spec (Calm w₀ D M K) (clonerepo i (some url) (some dst))
      (fun status => Calm w₀ (fun d => D d ∧ d ≠ dst) M fun w => K w ∧
        (status ≠ 0 → ¬ NoFailure fs i w₀) ∧ (status = 0 → Repo i w₀ url dst w))
      (Failed fs i w₀) := by
    refine Spec.test (Spec.pure fun w hw => ?_) (spec_runcmd fun w hw => ?_)
    · have hmem := (hw.1.dirs dst hdst).mp (List.contains_iff_mem.mp hw.2)
      refine hw.1.mono (fun d hd => hd.1) (fun _ h => h) ⟨hw.1.known, ?_, ?_⟩
      · exact fun hne => absurd rfl hne
      · exact fun _ => ⟨.inl hmem, .inl hmem⟩
    · have hnot : dst ∉ w₀.dirs := by
        rw [← hw.1.dirs dst hdst]
        simpa using hw.2
      have hother : ∀ d, D d ∧ d ≠ dst → D d ∧ (Command.clone url dst).makes ≠ some d :=
        fun d hd => ⟨hd.1, fun h => hd.2 (Option.some.inj h).symm⟩
      have hafter := hw.1.after hK hother (i.status (.clone url dst)) (i.leaves (.clone url dst))
      refine hafter.mono (fun _ h => h) (fun _ h => h) ⟨hafter.known, ?_, ?_⟩
      · exact fun hne => hcause fun h => h.elim hnot hne
      · intro hzero
        refine ⟨.inr hzero, .inr ?_⟩
        rw [← hzero]
        exact List.mem_append_right w.log List.mem_cons_self
  refine spec_orErr hclone (fun status w hne hw => hw.failed (hw.known.2.1 hne)) ?_
  exact Spec.pure fun w hw =>
    hw.mono (fun _ h => h) (fun _ h => h) ⟨hw.known.1, hw.known.2.2 rfl⟩

theorem calm_psnapInit (hK : Stable K) (hports : D .fports)
    (hcause : ¬ (.fports ∈ w₀.dirs ∨ i.status (.portsnapFetch .fports) = 0 ∧
      i.status (.portsnapExtract .fports) = 0) → ¬ NoFailure fs i w₀) :
    Spec (Calm w₀ D M K) (psnapInit i (some .fports))
      (fun _ => Calm w₀ (fun d => D d ∧ d ≠ .fports ∧ d ≠ .portsnap) M fun w => K w ∧
        (.fports ∈ w₀.dirs ∨ i.status (.portsnapFetch .fports) = 0 ∧
          i.status (.portsnapExtract .fports) = 0)) (Failed fs i w₀) := by
  refine Spec.test (Spec.pure fun w hw => ?_) ?_
  · have hmem := (hw.1.dirs _ hports).mp (List.contains_iff_mem.mp hw.2)
    exact hw.1.mono (fun d hd => hd.1) (fun _ h => h) ⟨hw.1.known, .inl hmem⟩
  · intro w hw
    have hnot : .fports ∉ w₀.dirs := by
      rw [← hw.1.dirs _ hports]
      simpa using hw.2
    have hmkdir : Spec (Calm w₀ D M K) (runcmd i (.mkdir .portsnap))
        (fun _ => Calm w₀ (fun d => D d ∧ d ≠ .portsnap) M K) (Failed fs i w₀) := by
      refine spec_runcmd fun w hw => hw.after hK (fun d hd => ⟨hd.1, fun h => ?_⟩) _ _
      exact hd.2 (Option.some.inj h).symm
    refine Spec.bind hmkdir (fun _ => ?_) w hw.1
    refine calm_orErr hK (fun d hd => ⟨hd, by simp [Command.makes]⟩)
      (fun hne => hcause fun h => h.elim hnot fun h => hne h.1) fun hfetch => ?_
    have hother : ∀ d, D d ∧ d ≠ .fports ∧ d ≠ .portsnap →
        (D d ∧ d ≠ .portsnap) ∧ (.portsnapExtract .fports : Command Name).makes ≠ some d :=
      fun d hd => ⟨⟨hd.1, hd.2.2⟩, fun h => hd.2.1 (Option.some.inj h).symm⟩
    refine calm_orErr (hK.and (stable_log _)) hother
      (fun hne => hcause fun h => h.elim hnot fun h => hne h.2) fun hextract => ?_
    exact Spec.pure fun w hw => hw.mono (fun _ h => h) (fun _ h => h)
      ⟨hw.known.1.1, .inr ⟨hfetch, hextract⟩⟩

def FilterOk (i : Invocation Name) (w₀ : World Name) (phase script : Name) : Prop :=
  .filter phase script ∈ w₀.markers ∨
    i.executable phase script = true ∧ i.status (.filter phase script) = 0

def PhaseOk (fs : Filters Name) (i : Invocation Name) (w₀ : World Name) (phase : Name) : Prop :=
  .phase phase ∈ w₀.markers ∨ ∀ script ∈ fs.filters phase, FilterOk i w₀ phase script

theorem calm_processFilter {phase script : Name} (hK : Stable K)
    (hscript : M (.filter phase script))
    (hcause : ¬ FilterOk i w₀ phase script → ¬ NoFailure fs i w₀) :
    Spec (Calm w₀ D M K) (processFilter i phase script)
      (fun _ => Calm w₀ D (fun m => M m ∧ m ≠ .filter phase script) fun w =>
        K w ∧ FilterOk i w₀ phase script) (Failed fs i w₀) := by
  refine Spec.test (Spec.pure fun w hw => ?_) ?_
  · have hmem := (hw.1.markers _ hscript).mp (List.contains_iff_mem.mp hw.2)
    exact hw.1.mono (fun _ h => h) (fun m hm => hm.1) ⟨hw.1.known, .inl hmem⟩
  · intro w hw
    have hnot : .filter phase script ∉ w₀.markers := by
      rw [← hw.1.markers _ hscript]
      simpa using hw.2
    have hrun : Spec (Calm w₀ D M K) (runFilter i phase script)
        (fun status => Calm w₀ D M fun w => K w ∧
          (status ≠ 0 → ¬ NoFailure fs i w₀) ∧ (status = 0 → FilterOk i w₀ phase script))
        (Failed fs i w₀) := by
      refine Spec.ite (fun hexec => spec_runcmd fun w hw => ?_)
        fun hexec => Spec.pure fun w hw => ?_
      · have hother : ∀ d, D d → D d ∧ (Command.filter phase script).makes ≠ some d :=
          fun d hd => ⟨hd, by simp [Command.makes]⟩
        have hafter := hw.after hK hother (i.status (.filter phase script))
          (i.leaves (.filter phase script))
        refine hafter.mono (fun _ h => h) (fun _ h => h)
          ⟨hafter.known, fun hne => ?_, fun hzero => ?_⟩
        · exact hcause fun h => h.elim hnot fun h => hne h.2
        · exact .inr ⟨hexec, hzero⟩
      · refine hw.mono (fun _ h => h) (fun _ h => h) ⟨hw.known, fun _ => ?_, fun h => ?_⟩
        · exact hcause fun h => h.elim hnot fun h => hexec h.1
        · cases h
    refine spec_orErr hrun (fun status w hne hw => hw.failed (hw.known.2.1 hne)) ?_ w hw.1
    have hok {w : World Name} (hw : Calm w₀ D M (fun w => K w ∧
        ((0 : Nat) ≠ 0 → ¬ NoFailure fs i w₀) ∧ ((0 : Nat) = 0 → FilterOk i w₀ phase script)) w) :
        Calm w₀ D M (fun w => K w ∧ FilterOk i w₀ phase script) w :=
      hw.mono (fun _ h => h) (fun _ h => h) ⟨hw.known.1, hw.known.2.2 rfl⟩
    refine Spec.test (Spec.cmd fun w hw => ?_) (Spec.pure fun w hw => ?_)
    · exact (hok hw.1).touch (hK.and (stable_const _)) fun _ hm => hm
    · exact (hok hw.1).mono (fun _ h => h) (fun _ hm => hm.1) (hok hw.1).known

theorem filters_split {phase script : Name} {done rest : List Name}
    (hsplit : done ++ script :: rest = fs.filters phase) :
    script ∈ fs.filters phase ∧ script ∉ done := by
  have hsorted := fs.filters_sorted phase
  rw [← hsplit] at hsorted ⊢
  refine ⟨List.mem_append_right done List.mem_cons_self, fun h => ?_⟩
  exact lt_irrefl _ ((List.pairwise_append.mp hsorted).2.2 script h script List.mem_cons_self)

/-- The loop over the filters of a phase that has no marker yet. -/
theorem calm_filters {phase : Name} (hmem : phase ∈ fs.phases) (hK : Stable K)
    (hfilters : ∀ s, M (.filter phase s)) (hnot : .phase phase ∉ w₀.markers) :
    Spec (Calm w₀ (fun _ => False) (fun m => M m ∧ ∀ s ∈ ([] : List Name), m ≠ .filter phase s)
        fun w => K w ∧ ∀ s ∈ ([] : List Name), FilterOk i w₀ phase s)
      (forWords (fs.filters phase) (processFilter i phase))
      (fun _ => Calm w₀ (fun _ => False)
        (fun m => M m ∧ ∀ s ∈ [] ++ fs.filters phase, m ≠ .filter phase s)
        fun w => K w ∧ ∀ s ∈ [] ++ fs.filters phase, FilterOk i w₀ phase s) (Failed fs i w₀) := by
  refine Spec.forWords (E := Failed fs i w₀) (fs.filters phase) (processFilter i phase)
    (J := fun done => Calm w₀ (fun _ => False) (fun m => M m ∧ ∀ s ∈ done, m ≠ .filter phase s)
      fun w => K w ∧ ∀ s ∈ done, FilterOk i w₀ phase s) [] ?_
  intro done script rest hsplit
  obtain ⟨hscript, hnew⟩ := filters_split hsplit
  have hcause : ¬ FilterOk i w₀ phase script → ¬ NoFailure fs i w₀ := fun hbad hok =>
    (hok.filters phase hmem).elim hnot fun hall => hbad (hall script hscript)
  refine (calm_processFilter (hK.and (stable_const _)) ?_ hcause).weaken
    (fun _ hw => hw) (fun _ w hw => ?_) fun _ _ hw => hw
  · refine ⟨hfilters script, fun s hs heq => hnew ?_⟩
    cases heq
    exact hs
  · refine hw.mono (fun _ h => h) (fun m hm => ?_) ⟨hw.known.1.1, fun s hs => ?_⟩
    · exact ⟨⟨hm.1, fun s hs => hm.2 s (List.mem_append_left _ hs)⟩,
        hm.2 script (List.mem_append_right _ List.mem_cons_self)⟩
    · rcases List.mem_append.mp hs with hs | hs
      · exact hw.known.1.2 s hs
      · exact List.mem_singleton.mp hs ▸ hw.known.2

theorem calm_phaseDir {phase : Name} (hK : Stable K) :
    Spec (Calm w₀ (fun _ => False) M K) (phaseDir i phase)
      (fun _ => Calm w₀ (fun _ => False) M K) (Failed fs i w₀) := by
  refine Spec.test (Spec.pure fun _ hw => hw.1) ?_
  refine Spec.bind (spec_runcmd fun w hw => hw.1.after hK ?_ _ _) fun _ =>
    Spec.pure fun _ hw => hw
  exact fun _ hd => hd.elim

theorem calm_runPhase {phase : Name} (hmem : phase ∈ fs.phases) (hK : Stable K)
    (hphase : M (.phase phase)) (hfilters : ∀ s, M (.filter phase s))
    (hM : ∀ m, M' m → M m ∧ m ≠ .phase phase ∧ ∀ s, m ≠ .filter phase s) :
    Spec (Calm w₀ (fun _ => False) M K) (runPhase i fs (some phase))
      (fun _ => Calm w₀ (fun _ => False) M' fun w => K w ∧ PhaseOk fs i w₀ phase ∧
        (fs.filters phase ≠ [] → .phase phase ∈ w.markers)) (Failed fs i w₀) := by
  refine Spec.test (Spec.pure fun w hw => ?_) (Spec.ite (fun hempty => Spec.pure fun w hw => ?_)
    fun _ => ?_)
  · have hmarked : .phase phase ∈ w.markers := List.contains_iff_mem.mp hw.2
    refine hw.1.mono (fun _ h => h) (fun m hm => (hM m hm).1) ⟨hw.1.known, ?_, fun _ => hmarked⟩
    exact .inl ((hw.1.markers _ hphase).mp hmarked)
  · have hnil : fs.filters phase = [] := List.isEmpty_iff.mp hempty
    refine hw.1.mono (fun _ h => h) (fun m hm => (hM m hm).1) ⟨hw.1.known, .inr ?_, ?_⟩
    · rw [hnil]
      exact fun s hs => absurd hs List.not_mem_nil
    · exact fun hne => absurd hnil hne
  · intro w hw
    have hnot : .phase phase ∉ w₀.markers := by
      rw [← hw.1.markers _ hphase]
      simpa using hw.2
    refine Spec.bind (calm_phaseDir hK) (fun _ => ?_) w hw.1
    refine Spec.bind ((calm_filters hmem hK hfilters hnot).weaken (fun w hw => ?_)
      (fun _ _ hw => hw) fun _ _ hw => hw) fun _ => Spec.cmd fun w hw => ?_
    · exact hw.mono (fun _ h => h) (fun m hm => hm.1)
        ⟨hw.known, fun s hs => absurd hs List.not_mem_nil⟩
    · have hleft : ∀ m, M' m → (M m ∧ ∀ s ∈ [] ++ fs.filters phase, m ≠ .filter phase s) ∧
          m ≠ .phase phase :=
        fun m hm => ⟨⟨(hM m hm).1, fun s _ => (hM m hm).2.2 s⟩, (hM m hm).2.1⟩
      have htouched := hw.touch (hK.and (stable_const _)) hleft
      refine htouched.mono (fun _ h => h) (fun _ h => h) ⟨htouched.known.1, .inr ?_, fun _ => ?_⟩
      · exact htouched.known.2
      · exact List.mem_cons_self

def Marker.ofPhase : Marker Name → Name
  | .filter name _ => name
  | .phase name => name

/-- What is known of a phase once it was gone through. -/
def PhaseDone (fs : Filters Name) (i : Invocation Name) (w₀ : World Name) (phase : Name)
    (w : World Name) : Prop :=
  PhaseOk fs i w₀ phase ∧ (fs.filters phase ≠ [] → .phase phase ∈ w.markers)

theorem stable_phaseDone (phase : Name) : Stable (PhaseDone fs i w₀ phase) :=
  (stable_const _).and ((stable_marker _).imp _)

theorem calm_phases (hK : Stable K) :
    Spec (Calm w₀ (fun _ => False) (fun _ => True) K)
      (Exits.forWords fs.phases fun phase => runPhase i fs (some phase))
      (fun _ => Calm w₀ (fun _ => False) (fun _ => False) fun w =>
        K w ∧ ∀ phase ∈ fs.phases, PhaseDone fs i w₀ phase w) (Failed fs i w₀) := by
  have hloop := Spec.forWords (E := Failed fs i w₀) fs.phases
    (fun phase => runPhase i fs (some phase)) (J := fun done => Calm w₀ (fun _ => False)
      (fun m => m.ofPhase ∉ done) fun w => K w ∧ ∀ phase ∈ done, PhaseDone fs i w₀ phase w) [] ?_
  · refine hloop.weaken (fun w hw => ?_) (fun _ w hw => ?_) fun _ _ hw => hw
    · exact hw.mono (fun _ h => h) (fun _ _ => trivial)
        ⟨hw.known, fun phase h => absurd h List.not_mem_nil⟩
    · exact hw.mono (fun _ h => h) (fun _ h => h.elim) hw.known
  · intro before phase after hsplit
    rw [List.nil_append] at hsplit
    have hmem : phase ∈ fs.phases := by
      rw [← hsplit]
      exact List.mem_append_right before List.mem_cons_self
    have hnew : phase ∉ before := by
      have hsorted := fs.phases_sorted
      rw [← hsplit] at hsorted
      intro h
      exact lt_irrefl _ ((List.pairwise_append.mp hsorted).2.2 phase h phase List.mem_cons_self)
    have hothers : ∀ m : Marker Name, m.ofPhase ∉ before ++ [phase] →
        m.ofPhase ∉ before ∧ m ≠ .phase phase ∧ ∀ s, m ≠ .filter phase s := by
      intro m hm
      have hne : m.ofPhase ≠ phase := fun h => hm (by simp [h])
      refine ⟨fun h => hm (List.mem_append_left _ h), ?_, ?_⟩
      · rintro rfl
        exact hne rfl
      · rintro s rfl
        exact hne rfl
    have hstable : Stable fun w => K w ∧ ∀ phase ∈ before, PhaseDone fs i w₀ phase w :=
      hK.and (Stable.all fun phase => (stable_phaseDone phase).imp _)
    refine (calm_runPhase (i := i) hmem hstable hnew (fun _ => hnew) hothers).weaken
      (fun _ hw => hw) (fun _ w hw => ?_) fun _ _ hw => hw
    refine hw.mono (fun _ h => h) (fun _ h => h) ⟨hw.known.1.1, fun p hp => ?_⟩
    rcases List.mem_append.mp hp with hp | hp
    · exact hw.known.1.2 p hp
    · exact List.mem_singleton.mp hp ▸ hw.known.2

/-- The script ends of its own with nothing that failed, or in `err`. -/
theorem main_auto (hauto : i.args = .auto) :
    Spec (Calm w₀ (fun _ => True) (fun _ => True) fun _ => True) (main i fs)
      (fun _ w => (∀ n, .err n ∉ w.log) ∧ NoFailure fs i w₀ ∧
        Repo i w₀ DPORTS_URL .dports w ∧ Repo i w₀ DELTA_URL .delta w ∧
        ∀ phase ∈ fs.phases, PhaseDone fs i w₀ phase w) (Failed fs i w₀) := by
  unfold main
  rw [hauto]
  refine Spec.bind (calm_fixDirs fun dir hdir hbad hok => hbad (hok.dirs dir hdir)) fun _ => ?_
  have hdirs : Stable fun _ : World Name => ∀ dir ∈ [Dir.gwrkdir, .merged, .potential, .comqueue],
      dir ∈ w₀.dirs ∨ i.status (.mkdir dir) = 0 := stable_const _
  have hdports := hdirs.and (stable_repo w₀ i DPORTS_URL .dports)
  have hdelta := hdports.and (stable_repo w₀ i DELTA_URL .delta)
  refine Spec.bind (Spec.bind (calm_setupRepo hdirs (by simp) fun hbad hok => hbad hok.dports)
    fun _ => Spec.bind (calm_setupRepo hdports (by simp) fun hbad hok => hbad hok.delta)
    fun _ => calm_psnapInit hdelta (by simp) fun hbad hok => hbad hok.ports) fun _ => ?_
  refine (calm_phases (hdelta.and (stable_const _))).weaken
    (fun w hw => hw.mono (fun _ h => h.elim) (fun _ h => h) hw.known) (fun _ w hw => ?_)
    fun _ _ hw => hw
  obtain ⟨⟨⟨⟨hd, hdp⟩, hde⟩, hports⟩, hphases⟩ := hw.known
  exact ⟨hw.quiet, ⟨hd, hdp.1, hde.1, hports, fun p hp => (hphases p hp).1⟩, hdp, hde, hphases⟩

/-- The program reports what happened exactly when nothing fails, or when what `err` exits
with happens to be 1. -/
theorem reports_iff_no_failure (fs : Filters Name) (i : Invocation Name) (dirs : List (Dir Name))
    (markers : List (Marker Name)) :
    Reports fs dirs (generator { i with args := .auto } fs ⟨dirs, markers, []⟩) ↔
      NoFailure fs i ⟨dirs, markers, []⟩ ∨ errStatus i = 1 := by
  have hstart : Calm ⟨dirs, markers, []⟩ (fun _ => True) (fun _ => True) (fun _ => True)
      ⟨dirs, markers, []⟩ :=
    ⟨fun _ => List.not_mem_nil, fun _ _ => Iff.rfl, fun _ _ => Iff.rfl, trivial⟩
  have hend := @main_auto Name _ _ fs { i with args := .auto } rfl _ hstart
  unfold generator
  rcases hmain : main { i with args := .auto } fs ⟨dirs, markers, []⟩ with ⟨status | ⟨⟩, w⟩
  · rw [hmain] at hend
    obtain ⟨hstatus, herr, honly, hfail⟩ := hend
    have hstatus' : status = errStatus i := hstatus
    have hfail' : ¬ NoFailure fs i ⟨dirs, markers, []⟩ :=
      fun h => hfail ⟨h.dirs, h.dports, h.delta, h.ports, h.filters⟩
    rw [or_iff_right hfail', ← hstatus']
    constructor
    · exact fun h => h.2 1 herr
    · intro hone
      refine ⟨fun hzero => ?_, fun n hn => ?_⟩
      · have hzero' : status = 0 := hzero
        omega
      · rw [honly n hn]
        exact hone
  · rw [hmain] at hend
    obtain ⟨hquiet, hok, hdports, hdelta, hphases⟩ := hend
    refine iff_of_true ⟨fun _ => ⟨hdports.2, hdelta.2, fun p hp => (hphases p hp).2⟩, ?_⟩ (.inl ?_)
    · exact fun n hn => absurd hn (hquiet n)
    · exact ⟨hok.dirs, hok.dports, hok.delta, hok.ports, hok.filters⟩

/-- One phase with one filter. -/
def onePhase : Filters Nat where
  phases := [0]
  filters := fun _ => [0]
  phases_sorted := List.pairwise_singleton _ 0
  filters_sorted := fun _ => List.pairwise_singleton _ 0

/-- The filter fails. -/
def failingFilter : Invocation Nat where
  args := .auto
  exitval := none
  echoStatus := 0
  status := fun command =>
    match command with
    | .filter _ _ => 1
    | _ => 0
  leaves := fun _ => false
  executable := fun _ _ => true

theorem failing_filter_exits_with_zero :
    ¬ ∀ (fs : Filters Nat) (i : Invocation Nat) (dirs : List (Dir Nat))
        (markers : List (Marker Nat)),
      Reports fs dirs (generator { i with args := .auto } fs ⟨dirs, markers, []⟩) := by
  intro h
  have hmarker := ((h onePhase failingFilter [] []).1 rfl).2.2 0 List.mem_cons_self
    (List.cons_ne_nil 0 [])
  exact List.not_mem_nil hmarker

end DeltaPorts.NewGenerator

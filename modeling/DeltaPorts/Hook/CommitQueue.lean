import DeltaPorts.Generator.Legacy
import DeltaPorts.Library.Git
import DeltaPorts.Library.Run

/-!
# The hook and the commit daemon

Both work on one origin without a lock. The hook replaces the directory in `DPORTS`, removes
the queue file and writes a new one; the daemon lists the queue, reads the item, adds, checks
and commits the directory, and removes the queue file.
-/

set_option autoImplicit false

namespace DeltaPorts.Hook.CommitQueue

open Generator (Name Content Tree)
open Run

inductive HookAt where
  | idle
  | replaced
  | removed
  deriving DecidableEq

/-- `known` says that the item was there to be read, and named the origin. -/
inductive DaemonAt where
  | idle
  | listed
  | read (known : Bool)
  | added (known : Bool)
  | dirty (known : Bool)
  | done
  deriving DecidableEq

structure State where
  repo : Git.Repo Name Content
  queued : Bool
  hook : HookAt
  daemon : DaemonAt

/-- One step of the hook or of the daemon. -/
inductive Event where
  | replace (port : Tree)
  | remove
  | write
  | list
  | read
  | add
  /-- `others`: the status of the whole repository lists files of other origins. -/
  | status (others : Bool)
  /-- `others`: the index differs from the last commit for other origins. -/
  | commit (others : Bool)
  | rm

/-- A daemon that read nothing works on the whole repository: its status covers the other
origins too, and its commit takes no path. A commit without changes fails, and the item stays. -/
def step (s : State) : Event → Option State
  | .replace port =>
    if s.hook = .idle then
      some { s with repo := { s.repo with tree := port }, hook := .replaced }
    else none
  | .remove => if s.hook = .replaced then some { s with queued := false, hook := .removed } else none
  | .write => if s.hook = .removed then some { s with queued := true, hook := .idle } else none
  | .list => if s.daemon = .idle ∧ s.queued then some { s with daemon := .listed } else none
  | .read => if s.daemon = .listed then some { s with daemon := .read s.queued } else none
  | .add =>
    match s.daemon with
    | .read known => some { s with repo := s.repo.addAll, daemon := .added known }
    | _ => none
  | .status others =>
    match s.daemon with
    | .added known =>
      if s.repo.tasks = ∅ ∧ (known ∨ ¬ others) then some { s with daemon := .done }
      else some { s with daemon := .dirty known }
    | _ => none
  | .commit others =>
    match s.daemon with
    | .dirty true =>
      if s.repo.snapshot = s.repo.head then some { s with daemon := .idle }
      else some { s with repo := s.repo.commitPath, daemon := .done }
    | .dirty false =>
      if s.repo.index = s.repo.head ∧ ¬ others then some { s with daemon := .idle }
      else some { s with repo := s.repo.commitIndex, daemon := .done }
    | _ => none
  | .rm => if s.daemon = .done then some { s with queued := false, daemon := .idle } else none

def Step (s : State) (e : Event) (s' : State) : Prop := step s e = some s'

def Committed (s : State) : Prop := s.repo.tree = s.repo.head

/-- Nothing is lost: what is not committed is queued. -/
def Kept (s : State) : Prop := Committed s ∨ s.queued = true

def Quiet (s : State) : Prop := s.hook = .idle ∧ s.daemon = .idle

def Start (s : State) : Prop := Quiet s ∧ Kept s

/-- The directory that the daemon's item takes with it into the repository when it is removed,
if it is going to be removed. -/
def captured (s : State) : Option Tree :=
  match s.daemon with
  | .idle | .listed | .read _ => none
  | .added true => if s.repo.tasks ≠ ∅ ∧ s.repo.snapshot = s.repo.head then none else
      some s.repo.snapshot
  | .dirty true => if s.repo.snapshot = s.repo.head then none else some s.repo.snapshot
  | .added false | .dirty false => some s.repo.index
  | .done => some s.repo.head

/-- When the hook writes its queue file, the item that the daemon is about to remove takes the
new directory with it. -/
def WritesCaptured (s : State) : Event → Prop
  | .write => ∀ t ∈ captured s, t = s.repo.tree
  | _ => True

/-- While the hook is idle, the daemon's item takes the whole directory with it, or nothing is
lost yet. -/
def Inv (s : State) : Prop :=
  s.hook = .idle → (captured s = none → Kept s) ∧ ∀ t ∈ captured s, t = s.repo.tree

theorem captured_of_idle {s : State} (h : s.daemon = .idle) : captured s = none := by
  unfold captured
  rw [h]

theorem inv_of_start {s : State} (h : Start s) : Inv s := by
  intro _
  rw [captured_of_idle h.1.2]
  exact ⟨fun _ => h.2, by simp⟩

theorem kept_of_inv {s : State} (h : Inv s) (hquiet : Quiet s) : Kept s :=
  (h hquiet.1).1 (captured_of_idle hquiet.2)

theorem inv_add {s s' : State} (h : Step s .add s') : Inv s' := by
  obtain ⟨repo, queued, hook, daemon⟩ := s
  cases daemon with
  | read known =>
    cases h
    intro _
    have htree : repo.addAll.snapshot = repo.addAll.tree := repo.snapshot_addAll
    cases known with
    | true =>
      constructor
      · intro hnone
        left
        by_cases hskip : repo.addAll.tasks ≠ ∅ ∧ repo.addAll.snapshot = repo.addAll.head
        · exact htree.symm.trans hskip.2
        · simp [captured, hskip] at hnone
      · intro t ht
        simp only [captured] at ht
        split at ht
        · cases ht
        · cases ht
          exact htree
    | false =>
      refine ⟨fun hnone => by simp [captured] at hnone, ?_⟩
      intro t ht
      cases ht
      rfl
  | _ => cases h

theorem inv_status {s s' : State} {others : Bool} (hinv : Inv s) (h : Step s (.status others) s') :
    Inv s' := by
  obtain ⟨repo, queued, hook, daemon⟩ := s
  cases daemon with
  | added known =>
    unfold Step step at h
    simp only at h
    split at h
    · rename_i hclean
      obtain ⟨hindex, hsnapshot⟩ := Git.Repo.eq_head_of_tasks_eq_empty hclean.1
      cases h
      intro hidle
      have hcaptured := (hinv hidle).2 repo.head
      refine ⟨fun hnone => by simp [captured] at hnone, ?_⟩
      intro t ht
      cases ht
      apply hcaptured
      cases known <;> simp [captured, hclean.1, hsnapshot, hindex]
    · rename_i hdirty
      cases h
      intro hidle
      have hsame : captured ⟨repo, queued, hook, .dirty known⟩ =
          captured ⟨repo, queued, hook, .added known⟩ := by
        cases known with
        | true =>
          have htasks : repo.tasks ≠ ∅ := by simpa using hdirty
          simp [captured, htasks]
        | false => rfl
      rw [hsame]
      exact hinv hidle
  | _ => cases h

theorem inv_commit {s s' : State} {others : Bool} (hinv : Inv s) (h : Step s (.commit others) s') :
    Inv s' := by
  obtain ⟨repo, queued, hook, daemon⟩ := s
  cases daemon with
  | dirty known =>
    unfold Step step at h
    cases known with
    | true =>
      simp only at h
      split at h
      · rename_i hsame
        cases h
        intro hidle
        rw [captured_of_idle rfl]
        exact ⟨fun _ => (hinv hidle).1 (by simp [captured, hsame]), by simp⟩
      · rename_i hchanged
        cases h
        intro hidle
        refine ⟨fun hnone => by simp [captured] at hnone, ?_⟩
        intro t ht
        cases ht
        exact (hinv hidle).2 repo.snapshot (by simp [captured, hchanged])
    | false =>
      simp only at h
      have hindex : hook = .idle → repo.index = repo.tree := fun hidle =>
        (hinv hidle).2 repo.index rfl
      split at h
      · rename_i hsame
        cases h
        intro hidle
        rw [captured_of_idle rfl]
        exact ⟨fun _ => Or.inl ((hindex hidle).symm.trans hsame.1), by simp⟩
      · cases h
        intro hidle
        refine ⟨fun hnone => by simp [captured] at hnone, ?_⟩
        intro t ht
        cases ht
        exact hindex hidle
  | _ => cases h

theorem inv_step {s s' : State} {e : Event} (hinv : Inv s) (hok : WritesCaptured s e)
    (h : Step s e s') : Inv s' := by
  cases e with
  | replace port =>
    simp only [Step, step] at h
    split at h <;> cases h
    intro hidle
    cases hidle
  | remove =>
    simp only [Step, step] at h
    split at h <;> cases h
    intro hidle
    cases hidle
  | write =>
    simp only [Step, step] at h
    split at h <;> cases h
    intro _
    exact ⟨fun _ => Or.inr rfl, hok⟩
  | list =>
    simp only [Step, step] at h
    split at h <;> cases h
    rename_i hlist
    intro hidle
    exact ⟨fun _ => Or.inr hlist.2, by simp [captured]⟩
  | read =>
    simp only [Step, step] at h
    split at h <;> cases h
    rename_i hlisted
    intro hidle
    have hkept : Kept s := (hinv hidle).1 (by simp [captured, hlisted])
    exact ⟨fun _ => hkept, by simp [captured]⟩
  | add => exact inv_add h
  | status others => exact inv_status hinv h
  | commit others => exact inv_commit hinv h
  | rm =>
    simp only [Step, step] at h
    split at h <;> cases h
    rename_i hdone
    intro hidle
    have hhead : s.repo.head = s.repo.tree := (hinv hidle).2 _ (by simp [captured, hdone])
    exact ⟨fun _ => Or.inl hhead.symm, by simp [captured]⟩

/-- The daemon and the hook take these steps one after the other. -/
def steps (s : State) (es : List Event) : Option State := es.foldlM step s

theorem steps_cons {s s' : State} {e : Event} (h : step s e = some s') (es : List Event) :
    steps s (e :: es) = steps s' es := by
  unfold steps
  rw [List.foldlM_cons, h]
  rfl

/-- Some steps from `s` lead to a quiet state in which the directory is lost. -/
def Loses (s : State) : Prop := ∃ es t, steps s es = some t ∧ Quiet t ∧ ¬ Kept t

theorem Loses.of_step {s s' : State} {e : Event} (hstep : step s e = some s') (h : Loses s') :
    Loses s := by
  obtain ⟨es, t, hes, ht⟩ := h
  exact ⟨e :: es, t, (steps_cons hstep es).trans hes, ht⟩

variable {repo : Git.Repo Name Content} {queued : Bool}

theorem loses_done (h : repo.head ≠ repo.tree) : Loses ⟨repo, queued, .idle, .done⟩ := by
  have hrm : step ⟨repo, queued, .idle, .done⟩ .rm = some ⟨repo, false, .idle, .idle⟩ := rfl
  apply Loses.of_step hrm
  refine ⟨[], _, rfl, ⟨rfl, rfl⟩, ?_⟩
  rintro (hkept | hkept)
  · exact h hkept.symm
  · cases hkept

theorem loses_dirty {known : Bool} {t : Tree}
    (ht : captured ⟨repo, queued, .idle, .dirty known⟩ = some t) (hne : t ≠ repo.tree) :
    Loses ⟨repo, queued, .idle, .dirty known⟩ := by
  cases known with
  | true =>
    by_cases hsame : repo.snapshot = repo.head
    · simp [captured, hsame] at ht
    · simp only [captured, if_neg hsame, Option.some_inj] at ht
      have hcommit : step ⟨repo, queued, .idle, .dirty true⟩ (.commit true) =
          some ⟨repo.commitPath, queued, .idle, .done⟩ := by
        simp [step, hsame]
      apply Loses.of_step hcommit
      apply loses_done
      rwa [← ht] at hne
  | false =>
    simp only [captured, Option.some_inj] at ht
    have hcommit : step ⟨repo, queued, .idle, .dirty false⟩ (.commit true) =
        some ⟨repo.commitIndex, queued, .idle, .done⟩ := by
      simp [step]
    apply Loses.of_step hcommit
    apply loses_done
    rwa [← ht] at hne

theorem loses_added {known : Bool} {t : Tree}
    (ht : captured ⟨repo, queued, .idle, .added known⟩ = some t) (hne : t ≠ repo.tree) :
    Loses ⟨repo, queued, .idle, .added known⟩ := by
  by_cases hclean : repo.tasks = ∅ ∧ known = true
  · obtain ⟨htasks, rfl⟩ := hclean
    have hsnapshot := (Git.Repo.eq_head_of_tasks_eq_empty htasks).2
    simp only [captured, htasks, ne_eq, not_true_eq_false, false_and, if_false,
      Option.some_inj] at ht
    have hstatus : step ⟨repo, queued, .idle, .added true⟩ (.status false) =
        some ⟨repo, queued, .idle, .done⟩ := by
      simp [step, htasks]
    apply Loses.of_step hstatus
    apply loses_done
    rwa [← hsnapshot, ht]
  · have hstatus : step ⟨repo, queued, .idle, .added known⟩ (.status true) =
        some ⟨repo, queued, .idle, .dirty known⟩ := by
      simp only [step, not_true_eq_false, or_false]
      exact if_neg hclean
    apply Loses.of_step hstatus
    apply loses_dirty _ hne
    cases known with
    | true =>
      have htasks : repo.tasks ≠ ∅ := fun h => hclean ⟨h, rfl⟩
      simpa [captured, htasks] using ht
    | false => exact ht

/-- After a write that is not captured, the daemon goes on and removes the new item. -/
theorem loses_of_not_captured {s s' : State} (hwrite : Step s .write s')
    (hn : ¬ WritesCaptured s .write) : Loses s' := by
  obtain ⟨repo, queued, hook, daemon⟩ := s
  have hhook : hook = .removed := by
    by_contra hne
    simp [Step, step, hne] at hwrite
  subst hhook
  cases hwrite
  simp only [WritesCaptured, not_forall] at hn
  obtain ⟨t, ht, hne⟩ := hn
  cases daemon with
  | added known => exact loses_added ht hne
  | dirty known => exact loses_dirty ht hne
  | done =>
    cases ht
    exact loses_done hne
  | _ => cases ht

theorem plainName_makefile : Generator.plainName "Makefile".toList = true := by decide

def fileName : Name := ⟨"Makefile".toList, plainName_makefile⟩

def oldPort : Tree := FileTree.single (fileName, []) "PORTVERSION=1.0".toList

def newPort : Tree := FileTree.single (fileName, []) "PORTVERSION=1.1".toList

/-- The old version was built for the first time and is queued. -/
def oldQueued : State := ⟨⟨oldPort, FileTree.empty, FileTree.empty⟩, true, .idle, .idle⟩

theorem oldQueued_start : Start oldQueued := ⟨⟨rfl, rfl⟩, Or.inr rfl⟩

/-- While the daemon commits the old version, the hook brings the new one and queues it. -/
def overlapped : List Event :=
  [.list, .read, .add, .status false, .commit false, .replace newPort, .remove, .write, .rm]

/-- The new version is neither committed nor queued. -/
theorem new_version_lost :
    ¬ ∀ s, Reach Start Step Always s → Quiet s → Kept s := by
  intro h
  have hrun : ∃ t, steps oldQueued overlapped = some t ∧ Quiet t ∧ t.queued = false ∧
      t.repo.tree.file (fileName, []) = some "PORTVERSION=1.1".toList ∧
      t.repo.head.file (fileName, []) = some "PORTVERSION=1.0".toList :=
    ⟨_, rfl, ⟨rfl, rfl⟩, rfl, rfl, rfl⟩
  obtain ⟨t, hsteps, hquiet, hqueued, htree, hhead⟩ := hrun
  have hreach : Reach Start Step Always t :=
    Reach.foldlM (fun _ _ _ h => h) (.start oldQueued_start) (okSteps_always _ _) hsteps
  rcases h t hreach hquiet with hkept | hkept
  · rw [hkept, hhead] at htree
    revert htree
    decide
  · rw [hqueued] at hkept
    cases hkept

/-- In every run in which each write of the hook finds the new directory captured by the item
that the daemon is about to remove, if there is one, nothing is lost; and every other write can
be followed to a state in which the new directory is lost. -/
theorem nothing_lost_iff_writes_captured (s : State) :
    (Reach Start Step WritesCaptured s → Quiet s → Kept s) ∧
    (∀ s', Reach Start Step Always s → Step s .write s' → ¬ WritesCaptured s .write →
      Loses s') := by
  constructor
  · intro hs
    have hinv : Inv s :=
      hs.invariant (fun _ h => inv_of_start h) fun _ _ _ hinv hok h => inv_step hinv hok h
    exact kept_of_inv hinv
  · intro s' _ hwrite hn
    exact loses_of_not_captured hwrite hn

/-- The hook runs while the daemon has read the item and not yet added the directory. -/
def readThenBuilt : List Event :=
  [.list, .read, .replace newPort, .remove, .write, .add, .status false, .commit false, .rm]

theorem writesCaptured_readThenBuilt : OkSteps step WritesCaptured oldQueued readThenBuilt := by
  refine ⟨trivial, fun s₁ h₁ => ⟨trivial, fun s₂ h₂ => ⟨trivial, fun s₃ h₃ => ⟨trivial,
    fun s₄ h₄ => ⟨?_, fun s₅ h₅ => ⟨trivial, fun s₆ h₆ => ⟨trivial, fun s₇ h₇ => ⟨trivial,
    fun s₈ h₈ => ⟨trivial, fun _ _ => trivial⟩⟩⟩⟩⟩⟩⟩⟩⟩
  cases h₁
  cases h₂
  cases h₃
  cases h₄
  intro t ht
  cases ht

theorem nothing_lost_readThenBuilt :
    ∃ t, steps oldQueued readThenBuilt = some t ∧ Kept t := by
  have hrun : ∃ t, steps oldQueued readThenBuilt = some t ∧ Quiet t := ⟨_, rfl, ⟨rfl, rfl⟩⟩
  obtain ⟨t, hsteps, hquiet⟩ := hrun
  have hreach : Reach Start Step WritesCaptured t :=
    Reach.foldlM (fun _ _ _ h => h) (.start oldQueued_start) writesCaptured_readThenBuilt hsteps
  exact ⟨t, hsteps, (nothing_lost_iff_writes_captured t).1 hreach hquiet⟩

end DeltaPorts.Hook.CommitQueue

import DeltaPorts.Hook.CommitQueue
import DeltaPorts.Library.Shell

/-!
# A turn of the commit daemon

One turn of the two loops of `dports-daemon.sh`, for one queue item and for every outcome of the
git commands. No one else writes to the repository or to the queue meanwhile.
-/

set_option autoImplicit false

namespace DeltaPorts.Hook.CommitDaemon

open Generator (Name Content Path)
open Shell (Text)

abbrev Repo := Git.Repo Name Content

/-- `oneline`, as `AWKCMD` prints it. -/
def oneline (item : List Text) : Text := item.flatMap fun line => Awk.field 1 line ++ [' ']

structure Vals where
  val1 : Text
  val2 : Text
  val3 : Text

def split (oneline : Text) : Vals :=
  ⟨Awk.field 1 oneline, Awk.field 2 oneline, Awk.field 3 oneline⟩

/-- The variables of `AWKCMD2`. -/
structure Counts where
  counter : Nat
  pv : Bool
  negcounter : Nat
  negfail : Bool

def Counts.line (c : Counts) (l : Text) : Counts :=
  let first := Awk.field 1 l
  match l with
  | '+' :: _ =>
    if first ≠ "+++".toList then
      { c with counter := c.counter + 1, pv := c.pv || first = "+PORTREVISION=".toList }
    else c
  | '-' :: _ =>
    if first ≠ "---".toList then
      let negcounter := c.negcounter + 1
      { c with
        negcounter := negcounter
        negfail := c.negfail || 1 < negcounter || first ≠ "-PORTREVISION=".toList }
    else c
  | _ => c

def bumpOrUpdate (diff : List Text) : Text :=
  let c := diff.foldl Counts.line ⟨0, false, 0, false⟩
  if c.counter = 1 ∧ c.pv = true ∧ c.negfail = false then "Bump".toList else "Update".toList

inductive Kind where
  | delta
  | dport
  deriving DecidableEq

/-- What the git commands of a turn come to. A failure changes nothing and prints nothing. -/
structure Outcome where
  add : Bool
  diff : Option (List Text)
  status : Bool
  commit : Bool

/-- The repository at the item's path, the commit messages, and `$?`. -/
structure State where
  repo : Repo
  queued : Bool
  log : List Text
  rc : Bool

def gitAdd (o : Outcome) (s : State) : State :=
  if o.add then { s with repo := s.repo.addAll, rc := true } else { s with rc := false }

/-- `TASKS`. -/
def gitStatus (o : Outcome) (s : State) : Finset Path := if o.status then s.repo.tasks else ∅

/-- `named`: the command is given a path. -/
def nothingToCommit (named : Bool) (repo : Repo) : Bool :=
  if named then repo.snapshot = repo.head else repo.index = repo.head

def gitCommit (o : Outcome) (named : Bool) (commitmsg : Text) (s : State) : State :=
  if o.commit && !nothingToCommit named s.repo then
    { s with
      repo := if named then s.repo.commitPath else s.repo.commitIndex
      log := s.log ++ [commitmsg]
      rc := true }
  else { s with rc := false }

def rm (s : State) : State := { s with queued := false, rc := true }

/-- From the assignment of `TASKS` on, where the two loops are alike. -/
def commitTasks (o : Outcome) (named : Bool) (commitmsg : Text) (s : State) : State :=
  if gitStatus o s = ∅ then rm s
  else
    let s := gitCommit o named commitmsg s
    if s.rc then rm s else s

def deltaTurn (o : Outcome) (item : List Text) (s : State) : State :=
  let v := split (oneline item)
  let commitmsg := v.val2 ++ ": ".toList ++ v.val1 ++ " v".toList ++ v.val3
  let s := gitAdd o s
  if s.rc then commitTasks o true commitmsg s else s

def dportTurn (o : Outcome) (item : List Text) (s : State) : State :=
  let v := split (oneline item)
  let s := gitAdd o s
  let update := v.val2 = "Update".toList
  let reflex := (if update then "to version ".toList else "version ".toList) ++ v.val3
  let val2 := if update then bumpOrUpdate (o.diff.getD []) else v.val2
  let commitmsg := val2 ++ ' ' :: v.val1 ++ ' ' :: reflex
  -- `$?` is that of the assignment of `commitmsg`
  let s := { s with rc := true }
  if s.rc then commitTasks o (v.val1 ≠ []) commitmsg s else s

def turn : Kind → Outcome → List Text → State → State
  | .delta => deltaTurn
  | .dport => dportTurn

/-- The item names the origin it is for. -/
def named (kind : Kind) (item : List Text) : Bool :=
  match kind with
  | .delta => true
  | .dport => (split (oneline item)).val1 ≠ []

/-- The turn begins with the item in the queue. -/
def pending (repo : Repo) (log : List Text) : State := ⟨repo, true, log, true⟩

theorem commitTasks_cases (o : Outcome) (named : Bool) (commitmsg : Text) (s : State) :
    (gitStatus o s = ∅ ∧ (commitTasks o named commitmsg s).repo = s.repo ∧
      (commitTasks o named commitmsg s).queued = false) ∨
    (gitStatus o s ≠ ∅ ∧ o.commit = true ∧ nothingToCommit named s.repo = false ∧
      (commitTasks o named commitmsg s).repo =
        (if named then s.repo.commitPath else s.repo.commitIndex) ∧
      (commitTasks o named commitmsg s).queued = false) ∨
    (gitStatus o s ≠ ∅ ∧ (o.commit = false ∨ nothingToCommit named s.repo = true) ∧
      (commitTasks o named commitmsg s).repo = s.repo ∧
      (commitTasks o named commitmsg s).queued = s.queued) := by
  by_cases htasks : gitStatus o s = ∅
  · left
    have hend : commitTasks o named commitmsg s = rm s := if_pos htasks
    rw [hend]
    exact ⟨htasks, rfl, rfl⟩
  · right
    have hend : commitTasks o named commitmsg s =
        if (gitCommit o named commitmsg s).rc then rm (gitCommit o named commitmsg s)
        else gitCommit o named commitmsg s := if_neg htasks
    rw [hend]
    unfold gitCommit
    cases hcommit : o.commit with
    | false =>
      right
      exact ⟨htasks, .inl rfl, rfl, rfl⟩
    | true =>
      cases hnothing : nothingToCommit named s.repo with
      | true =>
        right
        exact ⟨htasks, .inr rfl, rfl, rfl⟩
      | false =>
        left
        exact ⟨htasks, rfl, rfl, rfl, rfl⟩

/-- After a `git add` that succeeded, the item goes only with a commit of the path, unless
`git status` fails. -/
theorem commitTasks_added {o : Outcome} {named : Bool} {commitmsg : Text} {s : State} {repo : Repo}
    (hqueued : s.queued = true) (hrepo : s.repo = repo.addAll) :
    ((commitTasks o named commitmsg s).queued = false →
      (commitTasks o named commitmsg s).repo.tree = (commitTasks o named commitmsg s).repo.head) ↔
    (o.status = true ∨ repo.tree = repo.head) := by
  have hsnapshot : s.repo.snapshot = repo.tree := by rw [hrepo, Git.Repo.snapshot_addAll]
  have htree : s.repo.tree = repo.tree := by rw [hrepo]; rfl
  have hindex : s.repo.index = repo.tree := by rw [hrepo]; rfl
  have hhead : s.repo.head = repo.head := by rw [hrepo]; rfl
  rcases commitTasks_cases o named commitmsg s with
    ⟨htasks, hrepo', hend⟩ | ⟨htasks, _, _, hrepo', hend⟩ | ⟨htasks, _, _, hend⟩
  · rw [hrepo', hend, htree, hhead]
    constructor
    · exact fun h => .inr (h rfl)
    · rintro (hstatus | hsame) _
      · rw [gitStatus, if_pos hstatus] at htasks
        rw [← hindex, (Git.Repo.eq_head_of_tasks_eq_empty htasks).1, hhead]
      · exact hsame
  · have hstatus : o.status = true := by
      by_contra hno
      exact htasks (if_neg hno)
    rw [hrepo', hend]
    refine ⟨fun _ => .inl hstatus, fun _ _ => ?_⟩
    cases named with
    | true => exact htree.trans hsnapshot.symm
    | false => exact htree.trans hindex.symm
  · have hstatus : o.status = true := by
      by_contra hno
      exact htasks (if_neg hno)
    rw [hend, hqueued]
    refine ⟨fun _ => .inl hstatus, fun _ h => ?_⟩
    cases h

/-- The item stays if and only if there is something to commit and the commit fails. -/
theorem commitTasks_keeps (o : Outcome) (named : Bool) (commitmsg : Text) {s : State}
    (hqueued : s.queued = true) :
    (commitTasks o named commitmsg s).queued = true ↔
      (o.status = true ∧ s.repo.tasks ≠ ∅) ∧
        (o.commit = false ∨ nothingToCommit named s.repo = true) := by
  have hstatus : gitStatus o s ≠ ∅ ↔ o.status = true ∧ s.repo.tasks ≠ ∅ := by
    unfold gitStatus
    cases o.status <;> simp
  rw [← hstatus]
  rcases commitTasks_cases o named commitmsg s with
    ⟨htasks, _, hend⟩ | ⟨htasks, hcommit, hnothing, _, hend⟩ | ⟨htasks, hfails, _, hend⟩
  · simp [hend, htasks]
  · simp [hend, hcommit, hnothing]
  · rw [hend, hqueued]
    exact ⟨fun _ => ⟨htasks, hfails⟩, fun _ => rfl⟩

theorem turn_of_added {o : Outcome} (kind : Kind) (item : List Text) (s : State)
    (hadd : o.add = true) :
    ∃ commitmsg, turn kind o item s =
      commitTasks o (named kind item) commitmsg { s with repo := s.repo.addAll, rc := true } := by
  have hgit : gitAdd o s = { s with repo := s.repo.addAll, rc := true } := if_pos hadd
  cases kind with
  | delta =>
    have hturn : turn .delta o item s = deltaTurn o item s := rfl
    rw [hturn, deltaTurn, hgit]
    exact ⟨_, rfl⟩
  | dport =>
    have hturn : turn .dport o item s = dportTurn o item s := rfl
    rw [hturn, dportTurn, hgit]
    exact ⟨_, rfl⟩

theorem deltaTurn_of_failed {o : Outcome} (item : List Text) (s : State) (hadd : o.add = false) :
    turn .delta o item s = { s with rc := false } := by
  have hgit : gitAdd o s = { s with rc := false } := if_neg (by simp [hadd])
  have hturn : turn .delta o item s = deltaTurn o item s := rfl
  rw [hturn, deltaTurn, hgit]
  rfl

/-- The second loop goes on although nothing was added. -/
theorem dportTurn_of_failed {o : Outcome} (item : List Text) (s : State) (hadd : o.add = false) :
    ∃ commitmsg, turn .dport o item s =
      commitTasks o (named .dport item) commitmsg { s with rc := true } := by
  have hgit : gitAdd o s = { s with rc := false } := if_neg (by simp [hadd])
  have hturn : turn .dport o item s = dportTurn o item s := rfl
  rw [hturn, dportTurn, hgit]
  exact ⟨_, rfl⟩

/-- What was added and is not listed is what was committed last. -/
theorem tasks_addAll_of_nothingToCommit {repo : Repo}
    (h : nothingToCommit true repo.addAll = true) : repo.addAll.tasks = ∅ := by
  have hsnapshot : repo.addAll.snapshot = repo.addAll.head := of_decide_eq_true h
  have hhead : repo.tree = repo.head := by
    rwa [Git.Repo.snapshot_addAll] at hsnapshot
  apply Finset.filter_eq_empty_iff.mpr
  intro p _ hchanged
  rcases hchanged with hindex | htree
  · exact hindex (congrArg (fun t : FileTree Name Content => t.file p) hhead)
  · exact htree rfl

/-- The daemon of the queue model, taken step by step while the hook is idle, does what a turn
does in which all commands succeed. -/
theorem steps_eq_turn {o : Outcome} (kind : Kind) {item : List Text} (repo : Repo) (log : List Text)
    (hadd : o.add = true) (hstatus : o.status = true) (hcommit : o.commit = true)
    (hnamed : named kind item = true) :
    ∃ es, CommitQueue.steps ⟨repo, true, .idle, .idle⟩ es =
      some ⟨(turn kind o item (pending repo log)).repo,
        (turn kind o item (pending repo log)).queued, .idle, .idle⟩ := by
  obtain ⟨commitmsg, hturn⟩ := turn_of_added kind item (pending repo log) hadd
  have htasks : gitStatus o ⟨repo.addAll, true, log, true⟩ = repo.addAll.tasks := if_pos hstatus
  have hbegin (es : List CommitQueue.Event) :
      CommitQueue.steps ⟨repo, true, .idle, .idle⟩ (.list :: .read :: .add :: es) =
        CommitQueue.steps ⟨repo.addAll, true, .idle, .added true⟩ es := rfl
  have hrm (repo : Repo) : CommitQueue.step ⟨repo, true, .idle, .done⟩ .rm =
      some ⟨repo, false, .idle, .idle⟩ := rfl
  rw [hturn, hnamed]
  rcases commitTasks_cases o true commitmsg ⟨repo.addAll, true, log, true⟩ with
    ⟨hnone, hrepo, hend⟩ | ⟨hsome, _, hnothing, hrepo, hend⟩ | ⟨hsome, hfails, _, _⟩
  · have hclean : CommitQueue.step ⟨repo.addAll, true, .idle, .added true⟩ (.status false) =
        some ⟨repo.addAll, true, .idle, .done⟩ := by
      rw [htasks] at hnone
      simp [CommitQueue.step, hnone]
    refine ⟨[.list, .read, .add, .status false, .rm], ?_⟩
    rw [hbegin, CommitQueue.steps_cons hclean, CommitQueue.steps_cons (hrm _)]
    exact congrArg some (congrArg₂ (CommitQueue.State.mk · · .idle .idle) hrepo hend).symm
  · have hdirty : CommitQueue.step ⟨repo.addAll, true, .idle, .added true⟩ (.status false) =
        some ⟨repo.addAll, true, .idle, .dirty true⟩ := by
      rw [htasks] at hsome
      simp [CommitQueue.step, hsome]
    have hcommitted : CommitQueue.step ⟨repo.addAll, true, .idle, .dirty true⟩ (.commit false) =
        some ⟨repo.addAll.commitPath, true, .idle, .done⟩ := if_neg (of_decide_eq_false hnothing)
    refine ⟨[.list, .read, .add, .status false, .commit false, .rm], ?_⟩
    rw [hbegin, CommitQueue.steps_cons hdirty, CommitQueue.steps_cons hcommitted,
      CommitQueue.steps_cons (hrm _)]
    exact congrArg some (congrArg₂ (CommitQueue.State.mk · · .idle .idle) hrepo hend).symm
  · exfalso
    rw [htasks] at hsome
    rcases hfails with hfails | hfails
    · rw [hcommit] at hfails
      cases hfails
    · exact hsome (tasks_addAll_of_nothingToCommit hfails)

/-- For a `delta` item, `git add` fails, `git status` succeeds, or there is nothing to commit. For
a `dport` item, both succeed, or there is nothing to commit; or else the commit, which the daemon
tries for all that, fails. -/
def Sound (kind : Kind) (o : Outcome) (item : List Text) (repo : Repo) : Prop :=
  match kind, o.add with
  | .delta, false => True
  | _, true => o.status = true ∨ repo.tree = repo.head
  | .dport, false => (o.status = true ∧ repo.tasks ≠ ∅) ∧
      (o.commit = false ∨ nothingToCommit (named .dport item) repo = true)

/-- An item that goes leaves a path that was added and is committed, if and only if the outcomes
are sound. -/
theorem drops_only_committed_iff (kind : Kind) (o : Outcome) (item : List Text) (repo : Repo)
    (log : List Text) :
    ((turn kind o item (pending repo log)).queued = false →
      o.add = true ∧ (turn kind o item (pending repo log)).repo.tree =
        (turn kind o item (pending repo log)).repo.head) ↔
    Sound kind o item repo := by
  unfold Sound
  cases hadd : o.add with
  | true =>
    obtain ⟨commitmsg, hturn⟩ := turn_of_added kind item (pending repo log) hadd
    have hadded := @commitTasks_added o (named kind item) commitmsg
      ⟨repo.addAll, true, log, true⟩ repo rfl rfl
    rw [hturn]
    simp only [true_and]
    exact hadded
  | false =>
    cases kind with
    | delta =>
      rw [deltaTurn_of_failed item (pending repo log) hadd]
      simp [pending]
    | dport =>
      obtain ⟨commitmsg, hturn⟩ := dportTurn_of_failed item (pending repo log) hadd
      have hkeeps := @commitTasks_keeps o (named .dport item) commitmsg
        ⟨repo, true, log, true⟩ rfl
      rw [hturn, ← hkeeps]
      simp [pending]

/-- Another process holds the index of the repository. -/
def locked : Outcome := ⟨false, some [], true, true⟩

def newItem : List Text := ["misc/foo".toList, "New".toList, "1.1".toList]

/-- No one has committed the port before, so that `git status` lists nothing. -/
theorem new_port_dropped :
    ¬ ∀ kind o item repo log, (turn kind o item (pending repo log)).queued = false →
      o.add = true ∧ (turn kind o item (pending repo log)).repo.tree =
        (turn kind o item (pending repo log)).repo.head := by
  intro h
  have hgone : (turn .dport locked newItem
      (pending ⟨CommitQueue.newPort, FileTree.empty, FileTree.empty⟩ [])).queued = false := by
    decide +kernel
  obtain ⟨hadd, _⟩ := h _ _ _ _ _ hgone
  cases hadd

end DeltaPorts.Hook.CommitDaemon

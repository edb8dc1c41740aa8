import Mathlib.Data.List.Basic

/-!
# A queue of jobs that is tried again

An attempt does the jobs of a queue in turn until one fails. What it has done is off the queue,
and the next attempt begins with the job that failed. Where a job that failed can still do the same
as before, the queue comes to what it would have come to without failures.
-/

set_option autoImplicit false

namespace RetriedJobs

variable {Job : Type}

/-- What an attempt comes to: whether a job succeeds, and the status of one that does not, if it
was started at all. -/
structure Try (Job : Type) where
  succeeds : Job → Bool
  report : Job → Option Nat
  report_ne_zero : ∀ job, succeeds job = false → report job ≠ some 0

/-- The jobs that were started, with their statuses, and those that are left. -/
def attempt (t : Try Job) : List Job → List (Job × Nat) × List Job
  | [] => ([], [])
  | job :: queue =>
    if t.succeeds job = true then ((job, 0) :: (attempt t queue).1, (attempt t queue).2)
    else ((t.report job).toList.map fun status => (job, status), job :: queue)

def work : List (Try Job) → List Job → List (Job × Nat) × List Job
  | [], queue => ([], queue)
  | t :: ts, queue =>
    ((attempt t queue).1 ++ (work ts (attempt t queue).2).1, (work ts (attempt t queue).2).2)

/-- The jobs that a record of runs says were done. -/
def successes (runs : List (Job × Nat)) : List Job :=
  (runs.filter fun run => run.2 = 0).map Prod.fst

theorem successes_append (runs runs' : List (Job × Nat)) :
    successes (runs ++ runs') = successes runs ++ successes runs' := by
  unfold successes
  rw [List.filter_append, List.map_append]

theorem attempt_append {t : Try Job} {front : List Job} (h : ∀ job ∈ front, t.succeeds job = true)
    (queue : List Job) : attempt t (front ++ queue) =
      ((front.map fun job => (job, 0)) ++ (attempt t queue).1, (attempt t queue).2) := by
  induction front with
  | nil => rfl
  | cons job front ih =>
    rw [List.cons_append, attempt, if_pos (h job List.mem_cons_self),
      ih fun j hj => h j (List.mem_cons_of_mem job hj)]
    rfl

theorem attempt_of_all {t : Try Job} {queue : List Job} (h : ∀ job ∈ queue, t.succeeds job = true) :
    attempt t queue = (queue.map fun job => (job, 0), []) := by
  have happend := attempt_append h []
  rw [List.append_nil] at happend
  rw [happend, attempt, List.append_nil]

theorem attempt_of_failed {t : Try Job} {front : List Job} {job : Job}
    (h : ∀ j ∈ front, t.succeeds j = true) (hjob : t.succeeds job = false) (queue : List Job) :
    attempt t (front ++ job :: queue) =
      ((front.map fun j => (j, 0)) ++ (t.report job).toList.map fun status => (job, status),
        job :: queue) := by
  rw [attempt_append h, attempt, if_neg (by rw [hjob]; exact Bool.false_ne_true)]

/-- What an attempt does and what it leaves are the queue, in its order. -/
theorem successes_attempt (t : Try Job) (queue : List Job) :
    successes (attempt t queue).1 ++ (attempt t queue).2 = queue := by
  induction queue with
  | nil => rfl
  | cons job queue ih =>
    unfold attempt
    split
    · exact congrArg (List.cons job) ih
    · rename_i hjob
      have hne := t.report_ne_zero job (eq_false_of_ne_true hjob)
      cases hreport : t.report job with
      | none => rfl
      | some status =>
        have hstatus : status ≠ 0 := fun h => hne (by rw [hreport, h])
        simp [successes, hstatus]

theorem successes_work (ts : List (Try Job)) (queue : List Job) :
    successes (work ts queue).1 ++ (work ts queue).2 = queue := by
  induction ts generalizing queue with
  | nil => rfl
  | cons t ts ih =>
    unfold work
    rw [successes_append, List.append_assoc, ih, successes_attempt]

section Effects

variable {State : Type} {does : Job → State → Option State} {run : Job → Nat → State → State → Prop}

/-- The runs of a record happen one after the other. -/
inductive Happens (run : Job → Nat → State → State → Prop) :
    List (Job × Nat) → State → State → Prop
  | nil (s : State) : Happens run [] s s
  | cons {job : Job} {status : Nat} {runs : List (Job × Nat)} {s s' s'' : State} :
      run job status s s' → Happens run runs s' s'' → Happens run ((job, status) :: runs) s s''

/-- A job that succeeds does its work, and one that failed can still do the same as before. -/
structure Redoable (does : Job → State → Option State) (run : Job → Nat → State → State → Prop) :
    Prop where
  done : ∀ job s s', run job 0 s s' → does job s = some s'
  failed : ∀ job status s s', status ≠ 0 → run job status s s' → does job s' = does job s

/-- All jobs of a queue, each done once. -/
def doAll (does : Job → State → Option State) : List Job → State → Option State
  | [], s => some s
  | job :: queue, s => (does job s).bind (doAll does queue)

theorem doAll_append (queue queue' : List Job) (s : State) :
    doAll does (queue ++ queue') s = (doAll does queue s).bind (doAll does queue') := by
  induction queue generalizing s with
  | nil => rfl
  | cons job queue ih =>
    rw [List.cons_append, doAll, doAll, Option.bind_assoc]
    exact congrArg _ (funext ih)

theorem happens_append {runs runs' : List (Job × Nat)} {s s'' : State}
    (h : Happens run (runs ++ runs') s s'') :
    ∃ s', Happens run runs s s' ∧ Happens run runs' s' s'' := by
  induction runs generalizing s with
  | nil => exact ⟨s, .nil s, h⟩
  | cons first runs ih =>
    cases h with
    | cons hrun hrest =>
      obtain ⟨s', hruns, hruns'⟩ := ih hrest
      exact ⟨s', .cons hrun hruns, hruns'⟩

theorem Happens.append {runs runs' : List (Job × Nat)} {s s' s'' : State}
    (h : Happens run runs s s') (h' : Happens run runs' s' s'') :
    Happens run (runs ++ runs') s s'' := by
  induction h with
  | nil _ => exact h'
  | cons hrun _ ih => exact .cons hrun (ih h')

/-- The record of a queue that is worked off at once. -/
theorem happens_of_doAll (hrun : ∀ job s s', does job s = some s' → run job 0 s s')
    {queue : List Job} {s s' : State} (h : doAll does queue s = some s') :
    Happens run (queue.map fun job => (job, 0)) s s' := by
  induction queue generalizing s with
  | nil =>
    cases h
    exact .nil _
  | cons job queue ih =>
    obtain ⟨u, hdoes, hrest⟩ := Option.bind_eq_some_iff.mp h
    exact .cons (hrun job s u hdoes) (ih hrest)

theorem doAll_attempt (hredo : Redoable does run) (t : Try Job) (queue : List Job) {s s' : State}
    (h : Happens run (attempt t queue).1 s s') :
    doAll does (attempt t queue).2 s' = doAll does queue s := by
  induction queue generalizing s with
  | nil =>
    cases h
    rfl
  | cons job queue ih =>
    unfold attempt at h ⊢
    split at h
    · rename_i hjob
      rw [if_pos hjob]
      cases h with
      | cons hrun hrest =>
        rw [ih hrest, doAll, hredo.done job _ _ hrun]
        rfl
    · rename_i hjob
      rw [if_neg hjob]
      cases hreport : t.report job with
      | none =>
        rw [hreport] at h
        cases h
        rfl
      | some status =>
        have hne : status ≠ 0 := fun hzero =>
          t.report_ne_zero job (eq_false_of_ne_true hjob) (hzero ▸ hreport)
        rw [hreport] at h
        cases h with
        | cons hrun hrest =>
          cases hrest
          rw [doAll, doAll, hredo.failed job status _ _ hne hrun]

end Effects

end RetriedJobs

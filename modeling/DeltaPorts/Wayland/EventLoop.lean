import DeltaPorts.Library.Run
import DeltaPorts.Wayland.TimerHeap

/-!
# One event loop on a kqueue

All timers of a loop share one one-shot `EVFILT_TIMER`. The operations below are those of
the patched `event-loop.c`: `wl_event_source_timer_update` (arm and disarm), the timer
branch of `wl_event_source_remove`, and `wl_event_loop_dispatch` with the timer part of its
body, `wl_timer_heap_dispatch`. Every `kevent` call succeeds, and every clock reading that
the code takes is an argument of the operation.
-/

set_option autoImplicit false

namespace DeltaPorts.Wayland

open Run

variable {Timer : Type} [DecidableEq Timer] {U : Upstream Timer}

/-- The loop's kernel timer: when it was registered, and for how many milliseconds. -/
structure KTimer where
  registered : Timespec
  delay : Int
  deriving DecidableEq

namespace KTimer

/-- The moment the registration names. -/
def fires (k : KTimer) : Int := k.registered.ns + k.delay * millisecond

/-- The kernel delivers the event at most one millisecond before that moment. -/
def earliest (k : KTimer) : Int := k.registered.ns + (k.delay - 1) * millisecond

theorem earliest_eq (k : KTimer) : k.earliest = k.fires - millisecond := by
  unfold earliest fires millisecond
  omega

end KTimer

/-- The state of a loop. `knote` is the armed kernel timer: `none` when it was never armed,
was delivered, or was disabled by `clear_timer`. A removed timer has left the heap. -/
structure Loop (U : Upstream Timer) where
  heap : U.Heap
  knote : Option KTimer
  removed : List Timer
  live : ∀ t ∈ removed, U.deadline heap t = none

def Loop.create (U : Upstream Timer) : Loop U where
  heap := U.empty
  knote := none
  removed := []
  live := by simp

/-- `set_timer` on the reading `now`: `none` is its return of -1, which registers nothing. -/
def setTimer (U : Upstream Timer) (now deadline : Timespec) : Option KTimer :=
  if !U.timeLt now deadline then none
  else some { registered := now, delay := relDeadline now deadline }

theorem setTimer_eq_some {now deadline : Timespec} {k : KTimer} :
    setTimer U now deadline = some k ↔
      now.ns < deadline.ns ∧ k = { registered := now, delay := relDeadline now deadline } := by
  unfold setTimer
  rw [← U.timeLt_iff]
  cases U.timeLt now deadline <;> simp [eq_comm]

theorem setTimer_eq_none {now deadline : Timespec} :
    setTimer U now deadline = none ↔ deadline.ns ≤ now.ns := by
  unfold setTimer
  rw [← U.timeLt_eq_false]
  cases U.timeLt now deadline <;> simp

theorem setTimer_fires {now deadline : Timespec} {k : KTimer}
    (hk : setTimer U now deadline = some k) :
    deadline.ns - 499999 ≤ k.fires ∧ k.fires ≤ deadline.ns + 500000 := by
  obtain ⟨_, rfl⟩ := setTimer_eq_some.mp hk
  have hb := relDeadline_bounds now deadline
  unfold KTimer.fires
  dsimp only
  omega

/-- `clear_timer`: the registration that replaces the timer is disabled. -/
def clearTimer (s : Loop U) : Loop U := { s with knote := none }

/-- `wl_event_source_timer_update` with a positive delay, its return code beside the loop.
`tsource->heap_idx == 0` says that the timer has become the root. -/
def timerArm (t : Timer) (deadline now : Timespec) (s : Loop U) (ht : t ∉ s.removed) :
    Loop U × Int :=
  let armed : Loop U :=
    { s with
      heap := U.arm s.heap t deadline
      live := by
        intro u hu
        rw [U.deadline_arm, if_neg (fun h : u = t => ht (h ▸ hu))]
        exact s.live u hu }
  match U.root armed.heap with
  | none => (armed, 0)
  | some (root, rootDeadline) =>
    if root = t then
      match setTimer U now rootDeadline with
      | none => (armed, -1)
      | some k => ({ armed with knote := some k }, 0)
    else (armed, 0)

/-- `wl_event_source_timer_update` with a delay of 0. -/
def timerDisarm (t : Timer) (s : Loop U) : Loop U :=
  let disarmed : Loop U :=
    { s with
      heap := U.disarm s.heap t
      live := by
        intro u hu
        rw [U.deadline_disarm]
        split
        · rfl
        · exact s.live u hu }
  if U.active disarmed.heap = 0 then clearTimer disarmed else disarmed

@[simp] theorem timerDisarm_heap (t : Timer) (s : Loop U) :
    (timerDisarm t s).heap = U.disarm s.heap t := by
  unfold timerDisarm clearTimer
  dsimp only
  split <;> rfl

/-- The timer branch of `wl_event_source_remove`. -/
def sourceRemove (t : Timer) (s : Loop U) : Loop U :=
  if t ∈ s.removed then s
  else
    { timerDisarm t s with
      removed := t :: s.removed
      live := by
        intro u hu
        rw [timerDisarm_heap, U.deadline_disarm]
        split
        · rfl
        · rename_i hne
          exact s.live u ((List.mem_cons.mp hu).resolve_left hne) }

/-- The timers a dispatch takes off the heap as due, in order, with their deadlines. -/
def takenOff (now : Timespec) (s : Loop U) : List (Timer × Timespec) :=
  (collectDue U now (U.active s.heap) true s.heap).2

/-- The loop once the due timers are off the heap. -/
def collected (now : Timespec) (s : Loop U) : Loop U :=
  { s with
    heap := (collectDue U now (U.active s.heap) true s.heap).1
    live := by
      intro t ht
      rw [collectDue_deadline]
      split
      · rfl
      · exact s.live t ht }

/-- What a dispatch leaves to its callbacks: the loop, the collected timers that it goes
through then, and the return code. -/
structure Dispatched (U : Upstream Timer) where
  loop : Loop U
  due : List (Timer × Timespec)
  rc : Int

/-- `wl_timer_heap_dispatch` up to the callbacks: take the due timers off the heap on the
reading `now`, and re-arm the kernel timer on the reading `rearm`. -/
def timerHeapDispatch (now rearm : Timespec) (s : Loop U) : Dispatched U :=
  let c := collected now s
  match U.root c.heap with
  | none => ⟨clearTimer c, takenOff now s, 0⟩
  | some (_, deadline) =>
    match setTimer U rearm deadline with
    -- the failure returns from the function before the callbacks
    | none => ⟨c, [], -1⟩
    | some k => ⟨{ c with knote := some k }, takenOff now s, 0⟩

/-- One operation on a loop with the readings it takes. `wake` is when `kevent` returns in
`wl_event_loop_dispatch`. A dispatch goes through the timers it has collected by one `call`
each, and what a callback does to the loop are the operations before the next `call`. -/
inductive Op (Timer : Type) where
  | arm (t : Timer) (deadline now : Timespec)
  | disarm (t : Timer)
  | remove (t : Timer)
  | dispatch (delivered : Bool) (wake now rearm : Timespec)
  | call (now : Timespec)

/-- A loop, the collected timers whose turn is still to come with the deadlines they were
collected for, and the last clock reading. -/
structure State (U : Upstream Timer) where
  loop : Loop U
  due : List (Timer × Timespec)
  clock : Timespec

/-- The one-shot timer is gone once its event is delivered. -/
def deliver (delivered : Bool) (s : Loop U) : Loop U :=
  if delivered then { s with knote := none } else s

@[simp] theorem deliver_heap (delivered : Bool) (s : Loop U) :
    (deliver delivered s).heap = s.heap := by
  unfold deliver
  split <;> rfl

@[simp] theorem deliver_removed (delivered : Bool) (s : Loop U) :
    (deliver delivered s).removed = s.removed := by
  unfold deliver
  split <;> rfl

/-- `has_timers`: the timer event was delivered, or the earliest deadline has passed. -/
def hasTimers (delivered : Bool) (wake : Timespec) (s : Loop U) : Bool :=
  delivered ||
    match U.root s.heap with
    | none => false
    | some (_, deadline) => !U.timeLt wake deadline

/-- `wl_event_loop_dispatch`, as far as it concerns timers. -/
def eventLoopDispatch (delivered : Bool) (wake now rearm : Timespec) (s : Loop U) :
    Dispatched U :=
  if hasTimers delivered wake s then timerHeapDispatch now rearm (deliver delivered s)
  else ⟨deliver delivered s, [], 0⟩

def applyOp : Op Timer → Loop U → Loop U
  | .arm t deadline now, s =>
    if ht : t ∈ s.removed then s else (timerArm t deadline now s ht).1
  | .disarm t, s => timerDisarm t s
  | .remove t, s => sourceRemove t s
  | .dispatch delivered wake now rearm, s => (eventLoopDispatch delivered wake now rearm s).loop
  | .call _, s => s

/-- The collected timers that are still to be called after an operation. -/
def dueAfter (s : State U) : Op Timer → List (Timer × Timespec)
  | .dispatch delivered wake now rearm => (eventLoopDispatch delivered wake now rearm s.loop).due
  | .call _ => s.due.tail
  | _ => s.due

/-- The timer whose callback an operation runs, with the deadline it was collected for. A
timer that has been removed when its turn comes is passed over. -/
def called (s : State U) : Op Timer → List (Timer × Timespec)
  | .call _ => (s.due.take 1).filter fun c => c.1 ∉ s.loop.removed
  | _ => []

/-- The readings do not decrease, no removed timer is armed or disarmed, and the kernel
delivers a registered timer only, no sooner than it may. No callback dispatches the loop
that runs it. -/
def Admissible (s : State U) : Op Timer → Prop
  | .arm t _ now => t ∉ s.loop.removed ∧ s.clock.ns ≤ now.ns
  | .disarm t => t ∉ s.loop.removed
  | .remove _ => True
  | .dispatch delivered wake now rearm =>
    s.due = [] ∧ s.clock.ns ≤ wake.ns ∧ wake.ns ≤ now.ns ∧ now.ns ≤ rearm.ns ∧
      (delivered = true → ∃ k, s.loop.knote = some k ∧ k.earliest ≤ wake.ns)
  | .call now => s.due ≠ [] ∧ s.clock.ns ≤ now.ns

/-- The last reading of an operation. -/
def Op.clock (old : Timespec) : Op Timer → Timespec
  | .arm _ _ now => now
  | .disarm _ => old
  | .remove _ => old
  | .dispatch _ _ _ rearm => rearm
  | .call now => now

def nextState (s : State U) (op : Op Timer) : State U where
  loop := applyOp op s.loop
  due := dueAfter s op
  clock := op.clock s.clock

def Step (s : State U) (op : Op Timer) (s' : State U) : Prop :=
  Admissible s op ∧ s' = nextState s op

def Start (s : State U) : Prop := s.loop = Loop.create U ∧ s.due = []

theorem applyOp_arm {s : Loop U} {t : Timer} (ht : t ∉ s.removed) (d now : Timespec) :
    applyOp (.arm t d now) s = (timerArm t d now s ht).1 := by
  simp [applyOp, ht]

@[simp] theorem timerArm_heap (t : Timer) (d now : Timespec) (s : Loop U) (ht : t ∉ s.removed) :
    (timerArm t d now s ht).1.heap = U.arm s.heap t d := by
  unfold timerArm
  dsimp only
  split
  · rfl
  · split
    · split <;> rfl
    · rfl

@[simp] theorem timerArm_removed (t : Timer) (d now : Timespec) (s : Loop U)
    (ht : t ∉ s.removed) : (timerArm t d now s ht).1.removed = s.removed := by
  unfold timerArm
  dsimp only
  split
  · rfl
  · split
    · split <;> rfl
    · rfl

/-- The kernel timer is touched only when the armed timer is the root and lies in the future. -/
theorem timerArm_knote (t : Timer) (d now : Timespec) (s : Loop U) (ht : t ∉ s.removed) :
    (∃ e, U.root (U.arm s.heap t d) = some (t, e) ∧
      ∃ k, setTimer U now d = some k ∧ (timerArm t d now s ht).1.knote = some k) ∨
    ((∀ e, U.root (U.arm s.heap t d) = some (t, e) → d.ns ≤ now.ns) ∧
      (timerArm t d now s ht).1.knote = s.knote) := by
  cases hr : U.root (U.arm s.heap t d) with
  | none => exact absurd hr (U.root_arm_ne_none _ _ _)
  | some p =>
    obtain ⟨root, e⟩ := p
    by_cases hroot : root = t
    · subst hroot
      have he := U.root_arm_self hr
      subst he
      cases hk : setTimer U now e with
      | none =>
        refine Or.inr ⟨fun _ _ => setTimer_eq_none.mp hk, ?_⟩
        simp [timerArm, hr, hk]
      | some k =>
        refine Or.inl ⟨e, rfl, k, rfl, ?_⟩
        simp [timerArm, hr, hk]
    · refine Or.inr ⟨?_, ?_⟩
      · intro e' h
        cases h
        exact absurd rfl hroot
      · simp [timerArm, hr, hroot]

@[simp] theorem timerDisarm_removed (t : Timer) (s : Loop U) :
    (timerDisarm t s).removed = s.removed := by
  unfold timerDisarm clearTimer
  dsimp only
  split <;> rfl

theorem timerDisarm_knote (t : Timer) (s : Loop U) :
    (timerDisarm t s).knote = if U.active (U.disarm s.heap t) = 0 then none else s.knote := by
  unfold timerDisarm clearTimer
  dsimp only
  split <;> rfl

/-- Removal disarms; a second removal changes nothing. -/
theorem sourceRemove_eq (t : Timer) (s : Loop U) :
    sourceRemove t s = s ∨
      ((sourceRemove t s).heap = (timerDisarm t s).heap ∧
        (sourceRemove t s).knote = (timerDisarm t s).knote) := by
  unfold sourceRemove
  split
  · exact Or.inl rfl
  · exact Or.inr ⟨rfl, rfl⟩

theorem collected_root_future {now : Timespec} {s : Loop U} {r : Timer} {d : Timespec}
    (hr : U.root (collected now s).heap = some (r, d)) : now.ns < d.ns := by
  by_cases hn : U.active s.heap = 0
  · have hnone := (U.active_root _).mp hn
    simp [collected, collectDue, hn, hnone] at hr
  · exact collectDue_rest U now _ true s.heap rfl (Or.inr hn) hr

/-- The dispatch goes on to all the timers it has collected, or leaves before the first. -/
theorem timerHeapDispatch_due_or (now rearm : Timespec) (s : Loop U) :
    (timerHeapDispatch now rearm s).due = takenOff now s ∨
      (timerHeapDispatch now rearm s).due = [] := by
  unfold timerHeapDispatch
  dsimp only
  split
  · exact Or.inl rfl
  · split
    · exact Or.inr rfl
    · exact Or.inl rfl

theorem timerHeapDispatch_due {now rearm : Timespec} {s : Loop U} {c : Timer × Timespec}
    (hc : c ∈ (timerHeapDispatch now rearm s).due) : c ∈ takenOff now s := by
  rcases timerHeapDispatch_due_or now rearm s with h | h
  · exact h ▸ hc
  · rw [h] at hc
    cases hc

@[simp] theorem timerHeapDispatch_heap (now rearm : Timespec) (s : Loop U) :
    (timerHeapDispatch now rearm s).loop.heap = (collected now s).heap := by
  unfold timerHeapDispatch clearTimer
  dsimp only
  split
  · rfl
  · split <;> rfl

@[simp] theorem timerHeapDispatch_removed (now rearm : Timespec) (s : Loop U) :
    (timerHeapDispatch now rearm s).loop.removed = s.removed := by
  unfold timerHeapDispatch clearTimer
  dsimp only
  split
  · rfl
  · split <;> rfl

/-- A collected timer is off the heap when the callbacks begin. -/
theorem deadline_collected {now : Timespec} {s : Loop U} {c : Timer × Timespec}
    (hc : c ∈ takenOff now s) : U.deadline (collected now s).heap c.1 = none := by
  simp only [collected, collectDue_deadline]
  exact if_pos (List.mem_map_of_mem hc)

/-- The root is due when the loop goes to its timers without a delivered event. -/
theorem root_le_of_hasTimers {wake : Timespec} {s : Loop U} (h : hasTimers false wake s = true)
    {r : Timer} {d : Timespec} (hr : U.root s.heap = some (r, d)) : d.ns ≤ wake.ns := by
  simp only [hasTimers, hr, Bool.false_or, Bool.not_eq_true'] at h
  exact U.timeLt_eq_false.mp h

/-- Every collected timer gets its turn when the callbacks before it leave the loop alone. -/
theorem reach_due {s : State U} (skipped due : List (Timer × Timespec))
    (hs : s.due = skipped ++ due) : Reach (· = s) Step Always { s with due := due } := by
  induction skipped using List.reverseRecOn generalizing due with
  | nil =>
    have hsame : { s with due := due } = s := by rw [← List.nil_append due, ← hs]
    rw [hsame]
    exact .start rfl
  | append_singleton skipped c ih =>
    rw [List.append_assoc] at hs
    exact .step (e := .call s.clock) (ih (c :: due) hs) trivial ⟨⟨by simp, le_rfl⟩, rfl⟩

end DeltaPorts.Wayland

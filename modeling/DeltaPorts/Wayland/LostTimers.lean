import DeltaPorts.Wayland.AListHeap
import DeltaPorts.Wayland.EventLoop

/-!
# Timers that are lost

`set_timer` refuses a deadline that its own clock reading has reached. In the dispatch the
refusal leaves the function before the callbacks of the timers already off the heap; after
an arm it leaves the loop without a kernel timer for its root.
-/

set_option autoImplicit false

namespace DeltaPorts.Wayland

open Run

variable {Timer : Type} [DecidableEq Timer] {U : Upstream Timer}

/-- The kernel timer is registered and fires by the deadline, to the nearest millisecond,
or at once. -/
def FiresBy (knote : Option KTimer) (deadline : Timespec) : Prop :=
  ∃ k, knote = some k ∧ (k.delay = 0 ∨ k.fires ≤ deadline.ns + 500000)

/-- A loop whose heap is not empty has its kernel timer registered to fire for the root. -/
def Registered (s : Loop U) : Prop :=
  ∀ r d, U.root s.heap = some (r, d) → FiresBy s.knote d

/-- The timers that an operation takes off the heap as due. -/
def collectedBy : Op Timer → Loop U → List (Timer × Timespec)
  | .dispatch delivered wake now _, s =>
    if hasTimers delivered wake s then takenOff now (deliver delivered s) else []
  | _, _ => []

/-- The rest of a dispatch: the calls and what the callbacks do to the loop, up to the end
of the collected timers. The list holds the timers whose callbacks have run. -/
inductive Callbacks : State U → List (Timer × Timespec) → State U → Prop where
  | done {s : State U} : s.due = [] → Callbacks s [] s
  | step {s s' : State U} {op : Op Timer} {ran : List (Timer × Timespec)} :
      (∀ b w n r, op ≠ .dispatch b w n r) → Admissible s op →
      Callbacks (nextState s op) ran s' → Callbacks s (called s op ++ ran) s'

/-- However its callbacks go on, an operation has every timer called that it collects,
unless the timer is removed, and the kernel timer is registered afterwards. -/
def KeepsTimers (s : State U) (op : Op Timer) : Prop :=
  (∀ ran s', Callbacks (nextState s op) ran s' →
      ∀ c ∈ collectedBy op s.loop, c ∈ ran ∨ c.1 ∈ s'.loop.removed) ∧
    Registered (applyOp op s.loop)

/-- `set_timer` gets a deadline that is still ahead when it reads the clock, or an arm finds
the kernel timer registered by then already. -/
def SetInTime (s : State U) : Op Timer → Prop
  | .arm t d now =>
    ∀ e, U.root (U.arm s.loop.heap t d) = some (t, e) → now.ns < d.ns ∨ FiresBy s.loop.knote d
  | .dispatch delivered wake now rearm =>
    hasTimers delivered wake s.loop = true →
      ∀ r d, U.root (collected now (deliver delivered s.loop)).heap = some (r, d) → rearm.ns < d.ns
  | _ => True

theorem removed_nextState {s : State U} {op : Op Timer} {t : Timer}
    (ht : t ∈ s.loop.removed) : t ∈ (nextState s op).loop.removed := by
  cases op with
  | arm u d now =>
    simp only [nextState, applyOp]
    split
    · exact ht
    · rw [timerArm_removed]
      exact ht
  | disarm u =>
    simp only [nextState, applyOp, timerDisarm_removed]
    exact ht
  | remove u =>
    simp only [nextState, applyOp, sourceRemove]
    split
    · exact ht
    · exact List.mem_cons_of_mem u ht
  | dispatch delivered wake now rearm =>
    simp only [nextState, applyOp, eventLoopDispatch]
    split
    · rw [timerHeapDispatch_removed, deliver_removed]
      exact ht
    · rw [deliver_removed]
      exact ht
  | call now => exact ht

theorem Callbacks.removed {s s' : State U} {ran : List (Timer × Timespec)}
    (h : Callbacks s ran s') {t : Timer} (ht : t ∈ s.loop.removed) : t ∈ s'.loop.removed := by
  induction h with
  | done _ => exact ht
  | step _ _ _ ih => exact ih (removed_nextState ht)

/-- The callbacks leave out a collected timer only when it has been removed. -/
theorem Callbacks.complete {s s' : State U} {ran : List (Timer × Timespec)}
    (h : Callbacks s ran s') {c : Timer × Timespec} (hc : c ∈ s.due) :
    c ∈ ran ∨ c.1 ∈ s'.loop.removed := by
  induction h with
  | done hnone =>
    rw [hnone] at hc
    cases hc
  | @step s s' op ran hop hadm hrest ih =>
    cases op with
    | dispatch b w n r => exact absurd rfl (hop b w n r)
    | call now =>
      cases hdue : s.due with
      | nil => exact absurd hdue hadm.1
      | cons first rest =>
        rw [hdue] at hc
        rcases List.mem_cons.mp hc with rfl | hc
        · by_cases hrem : c.1 ∈ s.loop.removed
          · exact Or.inr (hrest.removed (removed_nextState hrem))
          · exact Or.inl (List.mem_append_left _ (by simp [called, hdue, hrem]))
        · have hnext : c ∈ (nextState s (.call now)).due := by
            simp only [nextState, dueAfter, hdue]
            exact hc
          exact (ih hnext).imp_left (List.mem_append_right _)
    | _ => exact (ih hc).imp_left (List.mem_append_right _)

theorem FiresBy.mono {knote : Option KTimer} {d d' : Timespec} (h : FiresBy knote d)
    (hle : d.ns ≤ d'.ns) : FiresBy knote d' := by
  obtain ⟨k, hk, hfire⟩ := h
  exact ⟨k, hk, hfire.imp_right fun h => h.trans (by omega)⟩

theorem firesBy_setTimer {now d : Timespec} {k : KTimer} (hk : setTimer U now d = some k) :
    FiresBy (some k) d := ⟨k, rfl, Or.inr (setTimer_fires hk).2⟩

theorem root_of_collected {s : Loop U} {now : Timespec} {r : Timer} {d : Timespec}
    (hr : U.root (collected now s).heap = some (r, d)) : ∃ r₀ d₀, U.root s.heap = some (r₀, d₀) := by
  cases hroot : U.root s.heap with
  | some p => exact ⟨p.1, p.2, rfl⟩
  | none =>
    have hzero := (U.active_root _).mpr hroot
    simp only [collected, hzero, collectDue, hroot] at hr
    cases hr

theorem registered_timerArm_iff {s : Loop U} (hs : Registered s) {t : Timer} {d now : Timespec}
    (ht : t ∉ s.removed) :
    Registered (timerArm t d now s ht).1 ↔
      ∀ e, U.root (U.arm s.heap t d) = some (t, e) → now.ns < d.ns ∨ FiresBy s.knote d := by
  constructor
  · intro h e hr
    have he := U.root_arm_self hr
    subst he
    rcases timerArm_knote t e now s ht with ⟨_, _, k, hk, _⟩ | ⟨_, hknote⟩
    · exact Or.inl (setTimer_eq_some.mp hk).1
    · have hf := h t e (by rw [timerArm_heap]; exact hr)
      rw [hknote] at hf
      exact Or.inr hf
  · intro h r e hr
    rw [timerArm_heap] at hr
    rcases timerArm_knote t d now s ht with ⟨e', hr', k, hk, hknote⟩ | ⟨hpast, hknote⟩
    · rw [hr] at hr'
      cases hr'
      rw [hknote, U.root_arm_self hr]
      exact firesBy_setTimer hk
    · rw [hknote]
      by_cases heq : r = t
      · subst heq
        rcases h e hr with hlt | hf
        · have hle := hpast e hr
          omega
        · rw [U.root_arm_self hr]
          exact hf
      · obtain ⟨r₀, d₀, hr₀⟩ := U.root_of_root_arm hr heq
        exact (hs r₀ d₀ hr₀).mono (U.root_arm_le hr₀ hr heq)

theorem registered_timerDisarm {s : Loop U} (hs : Registered s) (t : Timer) :
    Registered (timerDisarm t s) := by
  intro r d hr
  rw [timerDisarm_heap] at hr
  rw [timerDisarm_knote]
  split
  · rename_i hzero
    rw [(U.active_root _).mp hzero] at hr
    cases hr
  · obtain ⟨r₀, d₀, hr₀⟩ := U.root_of_root_disarm hr
    exact (hs r₀ d₀ hr₀).mono (U.root_disarm_le hr₀ hr)

theorem registered_sourceRemove {s : Loop U} (hs : Registered s) (t : Timer) :
    Registered (sourceRemove t s) := by
  rcases sourceRemove_eq t s with heq | ⟨hheap, hknote⟩
  · rw [heq]
    exact hs
  · intro r d hr
    rw [hheap] at hr
    rw [hknote]
    exact registered_timerDisarm hs t r d hr

/-- The dispatch goes on to its callbacks, with the kernel timer registered, exactly when
`set_timer` does not refuse the new root. -/
theorem timerHeapDispatch_keeps_iff {s : Loop U} {now rearm : Timespec} :
    ((timerHeapDispatch now rearm s).due = takenOff now s ∧
      Registered (timerHeapDispatch now rearm s).loop) ↔
    ∀ r d, U.root (collected now s).heap = some (r, d) → rearm.ns < d.ns := by
  cases hroot : U.root (collected now s).heap with
  | none =>
    have hreg : Registered (clearTimer (collected now s)) := by
      intro r d hr
      exact absurd (hroot.symm.trans hr) (by simp)
    simp only [timerHeapDispatch, hroot]
    exact iff_of_true ⟨trivial, hreg⟩ (by simp)
  | some p =>
    obtain ⟨r, d⟩ := p
    cases hset : setTimer U rearm d with
    | some k =>
      have hlt := (setTimer_eq_some.mp hset).1
      have hreg : Registered { collected now s with knote := some k } := by
        intro r' d' hr'
        cases hroot.symm.trans hr'
        exact firesBy_setTimer hset
      simp only [timerHeapDispatch, hroot, hset]
      refine iff_of_true ⟨trivial, hreg⟩ ?_
      intro r' d' h
      cases h
      exact hlt
    | none =>
      have hpast := setTimer_eq_none.mp hset
      simp only [timerHeapDispatch, hroot, hset]
      refine iff_of_false ?_ ?_
      · rintro ⟨hnone, _⟩
        obtain ⟨r₀, d₀, hr₀⟩ := root_of_collected hroot
        have htaken : (r₀, d₀) ∈ takenOff now s := collectDue_root U now s.heap hr₀
        rw [← hnone] at htaken
        cases htaken
      · intro h
        have hlt := h r d rfl
        omega

/-- A timer taken off the heap is not a removed one. -/
theorem takenOff_live {s : Loop U} {now : Timespec} {c : Timer × Timespec}
    (hc : c ∈ takenOff now s) : c.1 ∉ s.removed := by
  intro hrem
  have harmed := collectDue_armed U now _ _ _ hc
  rw [s.live c.1 hrem] at harmed
  cases harmed

/-- The collected timers are lost when the dispatch leaves before its callbacks, and in no
other way. -/
theorem callbacks_keep_iff {s : State U} {now rearm : Timespec} {delivered : Bool}
    {wake : Timespec} (hhas : hasTimers delivered wake s.loop = true) :
    (∀ ran s', Callbacks (nextState s (.dispatch delivered wake now rearm)) ran s' →
      ∀ c ∈ takenOff now (deliver delivered s.loop), c ∈ ran ∨ c.1 ∈ s'.loop.removed) ↔
    (timerHeapDispatch now rearm (deliver delivered s.loop)).due =
      takenOff now (deliver delivered s.loop) := by
  have hdue : (nextState s (.dispatch delivered wake now rearm)).due =
      (timerHeapDispatch now rearm (deliver delivered s.loop)).due := by
    simp only [nextState, dueAfter, eventLoopDispatch, if_pos hhas]
  have hremoved : (nextState s (.dispatch delivered wake now rearm)).loop.removed =
      (deliver delivered s.loop).removed := by
    simp only [nextState, applyOp, eventLoopDispatch, if_pos hhas, timerHeapDispatch_removed]
  constructor
  · intro h
    rcases timerHeapDispatch_due_or now rearm (deliver delivered s.loop) with hall | hleft
    · exact hall
    · rw [hleft]
      symm
      apply List.eq_nil_iff_forall_not_mem.mpr
      intro c hc
      rcases h [] _ (.done (hdue.trans hleft)) c hc with hran | hrem
      · cases hran
      · rw [hremoved] at hrem
        exact takenOff_live hc hrem
  · intro hall ran s' hrun c hc
    apply hrun.complete
    rw [hdue, hall]
    exact hc

/-- One operation on a loop whose timer is registered keeps its timers exactly when
`set_timer` is given a deadline that is still ahead. -/
theorem keepsTimers_iff {s : State U} (hs : Registered s.loop) {op : Op Timer}
    (hadm : Admissible s op) : KeepsTimers s op ↔ SetInTime s op := by
  cases op with
  | arm t d now =>
    simp only [KeepsTimers, SetInTime, collectedBy, applyOp_arm hadm.1]
    rw [registered_timerArm_iff hs hadm.1]
    simp
  | disarm t => exact iff_of_true ⟨by simp [collectedBy], registered_timerDisarm hs t⟩ trivial
  | remove t => exact iff_of_true ⟨by simp [collectedBy], registered_sourceRemove hs t⟩ trivial
  | dispatch delivered wake now rearm =>
    by_cases hhas : hasTimers delivered wake s.loop = true
    · simp only [KeepsTimers, SetInTime, collectedBy, applyOp, eventLoopDispatch, if_pos hhas]
      rw [callbacks_keep_iff hhas, timerHeapDispatch_keeps_iff]
      exact ⟨fun h _ => h, fun h => h hhas⟩
    · cases delivered with
      | true => simp [hasTimers] at hhas
      | false =>
        simp only [KeepsTimers, SetInTime, collectedBy, applyOp, eventLoopDispatch, if_neg hhas]
        exact iff_of_true ⟨by simp, hs⟩ fun h => absurd h hhas
  | call now => exact iff_of_true ⟨by simp [collectedBy], hs⟩ trivial

theorem registered_create (U : Upstream Timer) : Registered (Loop.create U) := by
  intro r d hr
  exact absurd (U.root_empty.symm.trans hr) (by simp)

/-- No operation of any run loses a timer. -/
def NoTimerIsLost (U : Upstream Timer) : Prop :=
  ∀ s : State U, Reach Start Step Always s → ∀ op, Admissible s op → KeepsTimers s op

/-- Timers for 10 ms and 20 ms. -/
def closeTimers : State AListHeap.heap :=
  nextState (nextState ⟨Loop.create _, [], msec 0⟩ (.arm 0 (msec 10) (msec 0)))
    (.arm 1 (msec 20) (msec 0))

theorem closeTimers_reach {Ok : State AListHeap.heap → Op Nat → Prop}
    (h₀ : Ok ⟨Loop.create _, [], msec 0⟩ (.arm 0 (msec 10) (msec 0)))
    (h₁ : Ok (nextState ⟨Loop.create _, [], msec 0⟩ (.arm 0 (msec 10) (msec 0)))
      (.arm 1 (msec 20) (msec 0))) : Reach Start Step Ok closeTimers := by
  have hstart : Start (U := AListHeap.heap) ⟨Loop.create _, [], msec 0⟩ := ⟨rfl, rfl⟩
  refine .step (.step (.start hstart) h₀ ⟨?_, rfl⟩) h₁ ⟨?_, rfl⟩
  · exact ⟨by decide, by decide⟩
  · exact ⟨by decide, by decide⟩

/-- The dispatch takes the first timer off at 15 ms and reads 25 ms when it re-arms for the
second: it returns -1 and the first timer's callback never runs. -/
theorem timer_is_lost : ¬ NoTimerIsLost AListHeap.heap := by
  intro h
  have hkeeps := (h closeTimers (closeTimers_reach trivial trivial)
    (.dispatch true (msec 10) (msec 15) (msec 25))
    ⟨rfl, by decide, by decide, by decide, fun _ => ⟨_, rfl, by decide⟩⟩).1
  have hlost := hkeeps [] _ (.done rfl) (0, msec 10) (by decide)
  revert hlost
  decide

/-- From a registered loop an operation keeps its timers exactly when its `set_timer` call
comes in time, and a run whose calls all do stays registered. -/
theorem timers_kept_iff_set_in_time (U : Upstream Timer) :
    (∀ s : State U, Registered s.loop →
      ∀ op, Admissible s op → (KeepsTimers s op ↔ SetInTime s op)) ∧
    (∀ s : State U, Reach Start Step SetInTime s → Registered s.loop) := by
  refine ⟨fun s hs op hadm => keepsTimers_iff hs hadm, ?_⟩
  have hstart : ∀ s : State U, Start s → Registered s.loop := by
    intro s h
    rw [h.1]
    exact registered_create U
  have hstep : ∀ (s : State U) (op : Op Timer) (s' : State U), Registered s.loop →
      SetInTime s op → Step s op s' → Registered s'.loop := by
    intro s op s' hInv hOk hStep
    obtain ⟨hadm, rfl⟩ := hStep
    exact ((keepsTimers_iff hInv hadm).mpr hOk).2
  exact fun s hs => hs.invariant hstart hstep

/-- Re-armed at 16 ms, the same dispatch runs the callback it collected. -/
theorem timers_kept_close_timers : KeepsTimers closeTimers
    (.dispatch true (msec 10) (msec 15) (msec 16)) := by
  have hall := timers_kept_iff_set_in_time AListHeap.heap
  have hreg : Registered closeTimers.loop := by
    apply hall.2
    apply closeTimers_reach
    · exact fun _ _ => Or.inl (by decide)
    · exact fun _ _ => Or.inl (by decide)
  apply (hall.1 closeTimers hreg _ _).mpr
  · intro _ r d hr
    have hroot : some (1, msec 20) = some (r, d) := hr
    cases hroot
    decide
  · exact ⟨rfl, by decide, by decide, by decide, fun _ => ⟨_, rfl, by decide⟩⟩

end DeltaPorts.Wayland

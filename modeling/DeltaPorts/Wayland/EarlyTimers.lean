import DeltaPorts.Wayland.AListHeap
import DeltaPorts.Wayland.EventLoop

/-!
# Timers that fire early

The dispatch lets the root pass unchecked, because the kernel timer that fired is taken to
be the one armed for it. That is so as long as the pending registration covers the root:
the root's deadline is at most the tolerance after the registration may be delivered, or
after the clock. A root that leaves the heap or is postponed uncovers the next one.
-/

set_option autoImplicit false

namespace DeltaPorts.Wayland

open Run

variable {Timer : Type} [DecidableEq Timer] {U : Upstream Timer}

/-- No registration is pending, or the root is due when it is delivered at the earliest. -/
def Covered (knote : Option KTimer) (clock : Timespec) (h : U.Heap) : Prop :=
  ∀ k, knote = some k → ∀ r d, U.root h = some (r, d) →
    d.ns ≤ k.earliest + tolerance ∨ d.ns ≤ clock.ns + tolerance

theorem Covered.mono {knote : Option KTimer} {c c' : Timespec} {h : U.Heap}
    (hc : Covered knote c h) (hle : c.ns ≤ c'.ns) : Covered knote c' h := by
  intro k hk r d hr
  exact (hc k hk r d hr).imp_right fun h => h.trans (by omega)

theorem covered_none (c : Timespec) (h : U.Heap) : Covered (U := U) none c h := by
  intro k hk
  cases hk

/-- A registration that `set_timer` has just made covers its root. -/
theorem covered_setTimer {now clock d : Timespec} {h : U.Heap} {r : Timer} {k : KTimer}
    (hr : U.root h = some (r, d)) (hk : setTimer U now d = some k) :
    Covered (some k) clock h := by
  intro k' hk' r' d' hr'
  cases hk'
  rw [hr] at hr'
  cases hr'
  have hb := (setTimer_fires hk).1
  rw [k.earliest_eq]
  unfold millisecond tolerance
  exact Or.inl (by omega)

/-- When an operation takes the first place from the earliest timer and registers nothing,
the pending registration covers the timer that comes first now. -/
def RootCovered (s : State U) : Op Timer → Prop
  | .arm t d now =>
    (∀ e, U.root (U.arm s.loop.heap t d) ≠ some (t, e)) →
      Covered s.loop.knote now (U.arm s.loop.heap t d)
  | .disarm t => Covered s.loop.knote s.clock (U.disarm s.loop.heap t)
  | .remove t => Covered s.loop.knote s.clock (U.disarm s.loop.heap t)
  | _ => True

/-- A timer that the dispatch has collected and not called yet is not postponed. -/
def NotPostponed (s : State U) : Op Timer → Prop
  | .arm t d now => t ∈ s.due.map Prod.fst → d.ns ≤ now.ns + tolerance
  | _ => True

def KeepsDeadlines (s : State U) (op : Op Timer) : Prop := RootCovered s op ∧ NotPostponed s op

/-- The deadline a collected timer has now: the one it is armed for again, or else the one
it was collected for. -/
def currentDeadline (s : State U) (c : Timer × Timespec) : Timespec :=
  (U.deadline s.loop.heap c.1).getD c.2

/-- No callback that the operation runs precedes its timer's deadline by more than 2 ms. -/
def FiresOnTime (s : State U) (op : Op Timer) : Prop :=
  ∀ c ∈ called s op, (currentDeadline s c).ns ≤ (op.clock s.clock).ns + tolerance

/-- No timer fires early in any run. -/
def NoTimerFiresEarly (U : Upstream Timer) : Prop :=
  ∀ s : State U, Reach Start Step Always s → ∀ op, Admissible s op → FiresOnTime s op

/-- The timers still to be called are due, by the deadlines they were collected for and by
those they have been armed for since. -/
def DueInTime (due : List (Timer × Timespec)) (clock : Timespec) (h : U.Heap) : Prop :=
  ∀ c ∈ due, c.2.ns ≤ clock.ns + tolerance ∧
    ∀ d, U.deadline h c.1 = some d → d.ns ≤ clock.ns + tolerance

structure LoopCovered (s : State U) : Prop where
  root : Covered s.loop.knote s.clock s.loop.heap
  due : DueInTime s.due s.clock s.loop.heap

theorem DueInTime.mono {due : List (Timer × Timespec)} {c c' : Timespec} {h : U.Heap}
    (hd : DueInTime due c h) (hle : c.ns ≤ c'.ns) : DueInTime due c' h := by
  intro x hx
  obtain ⟨h1, h2⟩ := hd x hx
  refine ⟨by omega, fun d hd => ?_⟩
  have hd := h2 d hd
  omega

theorem DueInTime.arm {due : List (Timer × Timespec)} {clock d : Timespec} {h : U.Heap}
    {t : Timer} (hd : DueInTime due clock h)
    (ht : t ∈ due.map Prod.fst → d.ns ≤ clock.ns + tolerance) :
    DueInTime due clock (U.arm h t d) := by
  intro c hc
  obtain ⟨hcollected, harmed⟩ := hd c hc
  refine ⟨hcollected, fun e he => ?_⟩
  rw [U.deadline_arm] at he
  split at he
  · rename_i heq
    cases he
    exact ht (heq ▸ List.mem_map_of_mem hc)
  · exact harmed e he

theorem DueInTime.disarm {due : List (Timer × Timespec)} {clock : Timespec} {h : U.Heap}
    (hd : DueInTime due clock h) (t : Timer) : DueInTime due clock (U.disarm h t) := by
  intro c hc
  obtain ⟨hcollected, harmed⟩ := hd c hc
  refine ⟨hcollected, fun e he => ?_⟩
  rw [U.deadline_disarm] at he
  split at he
  · cases he
  · exact harmed e he

/-- A collected timer is due by the clock, or it is the root that was let through. -/
theorem dueInTime_timerHeapDispatch {s : Loop U} {now rearm : Timespec}
    (hle : now.ns ≤ rearm.ns)
    (hroot : ∀ r d, U.root s.heap = some (r, d) → d.ns ≤ now.ns + tolerance) :
    DueInTime (timerHeapDispatch now rearm s).due rearm
      (timerHeapDispatch now rearm s).loop.heap := by
  intro c hc
  have htaken := timerHeapDispatch_due hc
  rw [timerHeapDispatch_heap]
  refine ⟨?_, fun d hd => ?_⟩
  · rcases collectDue_due U now _ _ _ htaken with hdue | ⟨_, hr⟩
    · unfold tolerance
      omega
    · have hdue := hroot _ _ hr
      omega
  · rw [deadline_collected htaken] at hd
    cases hd

theorem covered_timerArm {s : Loop U} {t : Timer} {d now : Timespec} (ht : t ∉ s.removed)
    (hc : (∀ e, U.root (U.arm s.heap t d) ≠ some (t, e)) →
      Covered s.knote now (U.arm s.heap t d)) :
    Covered (timerArm t d now s ht).1.knote now (timerArm t d now s ht).1.heap := by
  rw [timerArm_heap]
  rcases timerArm_knote t d now s ht with ⟨e, hr, k, hk, hknote⟩ | ⟨hpast, hknote⟩
  · have he := U.root_arm_self hr
    subst he
    rw [hknote]
    exact covered_setTimer hr hk
  · rw [hknote]
    by_cases hroot : ∃ e, U.root (U.arm s.heap t d) = some (t, e)
    · obtain ⟨e, hr⟩ := hroot
      intro k _ r' d' hr'
      have hle := hpast e hr
      have he := U.root_arm_self hr
      rw [hr] at hr'
      cases hr'
      subst he
      unfold tolerance
      exact Or.inr (by omega)
    · exact hc (fun e h => hroot ⟨e, h⟩)

theorem covered_timerDisarm {s : Loop U} {t : Timer} {clock : Timespec}
    (hc : Covered s.knote clock (U.disarm s.heap t)) :
    Covered (timerDisarm t s).knote clock (timerDisarm t s).heap := by
  rw [timerDisarm_heap, timerDisarm_knote]
  split
  · exact covered_none _ _
  · exact hc

theorem covered_timerHeapDispatch {s : Loop U} {now rearm : Timespec} :
    Covered (timerHeapDispatch now rearm s).loop.knote rearm
      (timerHeapDispatch now rearm s).loop.heap := by
  unfold timerHeapDispatch
  dsimp only
  split
  · exact covered_none _ _
  · rename_i r d hr
    split
    · rename_i hset
      have hpast := setTimer_eq_none.mp hset
      intro k _ r' d' hr'
      rw [hr] at hr'
      cases hr'
      unfold tolerance
      exact Or.inr (by omega)
    · rename_i k hset
      exact covered_setTimer hr hset

/-- The root is due when the loop goes to its timers. -/
theorem root_due {s : State U} (hInv : LoopCovered s) {delivered : Bool}
    {wake now rearm : Timespec} (hadm : Admissible s (.dispatch delivered wake now rearm))
    (hhas : hasTimers delivered wake s.loop = true) {r : Timer} {d : Timespec}
    (hr : U.root s.loop.heap = some (r, d)) : d.ns ≤ now.ns + tolerance := by
  obtain ⟨_, h1, h2, _, hdel⟩ := hadm
  cases delivered with
  | true =>
    obtain ⟨k, hk, hearly⟩ := hdel rfl
    rcases hInv.root k hk _ _ hr with h | h <;> omega
  | false =>
    have hdue := root_le_of_hasTimers hhas hr
    unfold tolerance
    omega

/-- One step that meets the condition keeps the root covered and the collected timers due. -/
theorem loopCovered_step (s : State U) (op : Op Timer) (s' : State U) (hInv : LoopCovered s)
    (hOk : KeepsDeadlines s op) (hStep : Step s op s') : LoopCovered s' := by
  obtain ⟨hroot, hdue⟩ := hOk
  obtain ⟨hadm, rfl⟩ := hStep
  cases op with
  | arm t d now =>
    obtain ⟨ht, hle⟩ := hadm
    refine ⟨?_, ?_⟩
    · simp only [nextState, applyOp_arm ht, Op.clock]
      exact covered_timerArm ht hroot
    · simp only [nextState, applyOp_arm ht, Op.clock, timerArm_heap, dueAfter]
      exact (hInv.due.mono hle).arm hdue
  | disarm t =>
    refine ⟨covered_timerDisarm hroot, ?_⟩
    simp only [nextState, applyOp, Op.clock, timerDisarm_heap, dueAfter]
    exact hInv.due.disarm t
  | remove t =>
    rcases sourceRemove_eq t s.loop with heq | ⟨hheap, hknote⟩
    · have hsame : nextState s (.remove t) = s := by
        simp only [nextState, applyOp, heq, dueAfter, Op.clock]
      rw [hsame]
      exact hInv
    · refine ⟨?_, ?_⟩
      · simp only [nextState, applyOp, Op.clock, hheap, hknote]
        exact covered_timerDisarm hroot
      · simp only [nextState, applyOp, Op.clock, hheap, timerDisarm_heap, dueAfter]
        exact hInv.due.disarm t
  | dispatch delivered wake now rearm =>
    obtain ⟨hnone, h1, h2, h3, _⟩ := id hadm
    by_cases hhas : hasTimers delivered wake s.loop = true
    · refine ⟨?_, ?_⟩
      · simp only [nextState, applyOp, Op.clock, eventLoopDispatch, if_pos hhas]
        exact covered_timerHeapDispatch
      · simp only [nextState, applyOp, Op.clock, dueAfter, eventLoopDispatch, if_pos hhas]
        apply dueInTime_timerHeapDispatch h3
        intro r d hr
        rw [deliver_heap] at hr
        exact root_due hInv hadm hhas hr
    · cases delivered with
      | true => simp [hasTimers] at hhas
      | false =>
        refine ⟨?_, ?_⟩
        · simp only [nextState, applyOp, Op.clock, eventLoopDispatch, if_neg hhas]
          exact Covered.mono hInv.root (h1.trans (h2.trans h3))
        · simp only [nextState, dueAfter, eventLoopDispatch, if_neg hhas]
          intro c hc
          cases hc
  | call now =>
    refine ⟨Covered.mono hInv.root hadm.2, fun c hc => ?_⟩
    exact hInv.due.mono hadm.2 c (List.mem_of_mem_tail hc)

/-- From a covered state every operation runs its callback on time. -/
theorem firesOnTime_of_covered {s : State U} (hInv : LoopCovered s) {op : Op Timer}
    (hadm : Admissible s op) : FiresOnTime s op := by
  intro c hc
  cases op with
  | call now =>
    have hmem : c ∈ s.due := List.mem_of_mem_take (List.mem_filter.mp hc).1
    obtain ⟨hcollected, harmed⟩ := hInv.due.mono hadm.2 c hmem
    simp only [currentDeadline, Op.clock]
    cases hd : U.deadline s.loop.heap c.1 with
    | none => exact hcollected
    | some d => exact harmed d hd
  | _ => cases hc

/-- A delivered event makes the dispatch collect the root, whatever its deadline. -/
theorem root_collected {s : Loop U} {r : Timer} {d w : Timespec}
    (hr : U.root s.heap = some (r, d)) : (r, d) ∈ (timerHeapDispatch w w s).due := by
  have htaken : (r, d) ∈ takenOff w s := collectDue_root U w s.heap hr
  unfold timerHeapDispatch
  dsimp only
  split
  · exact htaken
  · rename_i r' d' hr'
    have hfuture := collected_root_future hr'
    cases hset : setTimer U w d' with
    | none =>
      have hpast := setTimer_eq_none.mp hset
      omega
    | some k => exact htaken

/-- Some run from `s` comes to a callback that is early. -/
def CanFireEarly (s : State U) : Prop :=
  ∃ s', Reach (· = s) Step Always s' ∧ ∃ op, Admissible s' op ∧ ¬ FiresOnTime s' op

/-- A collected timer whose turn comes before its deadline is called all the same. -/
theorem fires_early_of_due {s : State U} {c : Timer × Timespec} (hc : c ∈ s.due)
    (hlive : c.1 ∉ s.loop.removed) (hearly : s.clock.ns + tolerance < (currentDeadline s c).ns) :
    CanFireEarly s := by
  obtain ⟨skipped, due, hs⟩ := List.append_of_mem hc
  refine ⟨_, reach_due skipped (c :: due) hs, .call s.clock, ⟨by simp, le_rfl⟩, fun honTime => ?_⟩
  have hd : (currentDeadline s c).ns ≤ s.clock.ns + tolerance :=
    honTime c (by simp [called, hlive])
  omega

/-- A pending registration that does not cover the root can be delivered before it is due. -/
theorem fires_early_of_not_covered {s : State U}
    (h : ¬ Covered s.loop.knote s.clock s.loop.heap) : CanFireEarly s := by
  unfold Covered at h
  push Not at h
  obtain ⟨k, hk, r, d, hr, hearly, hclock⟩ := h
  let w := Timespec.ofNs (max k.earliest s.clock.ns)
  have hw : w.ns = max k.earliest s.clock.ns := Timespec.ns_ofNs _
  let idle : State U := { s with due := [] }
  have hadm : Admissible idle (.dispatch true w w w) :=
    ⟨rfl, by simp only [idle]; omega, le_rfl, le_rfl, fun _ => ⟨k, hk, by omega⟩⟩
  let woken := nextState idle (.dispatch true w w w)
  have hreach : Reach (· = s) Step Always woken :=
    .step (reach_due s.due [] (by simp)) trivial ⟨hadm, rfl⟩
  have hloop : woken.loop = (timerHeapDispatch w w (deliver true s.loop)).loop := by
    simp [woken, nextState, applyOp, eventLoopDispatch, hasTimers, idle]
  have hdue : (r, d) ∈ woken.due := by
    simp only [woken, nextState, dueAfter, eventLoopDispatch, hasTimers, Bool.true_or, if_true]
    apply root_collected
    rw [deliver_heap]
    exact hr
  have hlive : r ∉ woken.loop.removed := by
    rw [hloop, timerHeapDispatch_removed, deliver_removed]
    intro hrem
    have hnone := s.loop.live r hrem
    rw [U.root_armed _ _ _ hr] at hnone
    cases hnone
  have hdeadline : currentDeadline woken (r, d) = d := by
    have htaken : (r, d) ∈ takenOff w (deliver true s.loop) := by
      apply collectDue_root
      rw [deliver_heap]
      exact hr
    simp only [currentDeadline, hloop, timerHeapDispatch_heap, deadline_collected htaken]
    rfl
  have hclock' : woken.clock = w := rfl
  obtain ⟨s', hs', hfires⟩ := fires_early_of_due hdue hlive (by rw [hdeadline, hclock']; omega)
  exact ⟨s', hreach.trans hs', hfires⟩

/-- A step that does not meet the condition leaves the root uncovered. -/
theorem not_covered_of_not_rootCovered {s : State U} {op : Op Timer} (hadm : Admissible s op)
    (h : ¬ RootCovered s op) :
    ¬ Covered (nextState s op).loop.knote (nextState s op).clock (nextState s op).loop.heap := by
  have disarmed (t : Timer) (hn : ¬ Covered s.loop.knote s.clock (U.disarm s.loop.heap t)) :
      ¬ Covered (timerDisarm t s.loop).knote s.clock (timerDisarm t s.loop).heap := by
    rw [timerDisarm_heap, timerDisarm_knote]
    split
    · rename_i hzero
      intro _
      apply hn
      intro k _ r d hr
      rw [(U.active_root _).mp hzero] at hr
      cases hr
    · exact hn
  cases op with
  | arm t d now =>
    simp only [RootCovered, Classical.not_imp] at h
    obtain ⟨hne, hn⟩ := h
    simp only [nextState, applyOp_arm hadm.1, Op.clock, timerArm_heap]
    rcases timerArm_knote t d now s.loop hadm.1 with ⟨e, hr, _⟩ | ⟨_, hknote⟩
    · exact absurd hr (hne e)
    · rw [hknote]
      exact hn
  | disarm t => exact disarmed t h
  | remove t =>
    simp only [nextState, applyOp, Op.clock]
    unfold sourceRemove
    split
    · rename_i hrem
      -- the timer is out of the heap already, so the disarm moves no deadline
      intro hc
      apply h
      intro k hk r d hr
      obtain ⟨r₀, d₀, hr₀⟩ := U.root_of_root_disarm hr
      have hne : r₀ ≠ t := by
        intro heq
        have hnone := s.loop.live t hrem
        rw [← heq, U.root_armed _ _ _ hr₀] at hnone
        cases hnone
      have hle : d.ns ≤ d₀.ns := by
        apply U.root_first _ _ _ r₀ d₀ hr
        rw [U.deadline_disarm, if_neg hne]
        exact U.root_armed _ _ _ hr₀
      rcases hc k hk r₀ d₀ hr₀ with h₀ | h₀
      · exact Or.inl (hle.trans h₀)
      · exact Or.inr (hle.trans h₀)
    · exact disarmed t h
  | dispatch delivered wake now rearm => exact absurd trivial h
  | call now => exact absurd trivial h

/-- A callback that postpones a timer collected with its own does not keep it from its turn. -/
theorem fires_early_of_postponed {s : State U} {op : Op Timer} (hadm : Admissible s op)
    (h : ¬ NotPostponed s op) : CanFireEarly (nextState s op) := by
  cases op with
  | arm t d now =>
    simp only [NotPostponed, Classical.not_imp] at h
    obtain ⟨hdue, hlate⟩ := h
    obtain ⟨c, hc, rfl⟩ := List.mem_map.mp hdue
    have hloop : (nextState s (.arm c.1 d now)).loop = (timerArm c.1 d now s.loop hadm.1).1 :=
      applyOp_arm hadm.1 d now
    have hlive : c.1 ∉ (nextState s (.arm c.1 d now)).loop.removed := by
      rw [hloop, timerArm_removed]
      exact hadm.1
    have hdue : c ∈ (nextState s (.arm c.1 d now)).due := hc
    apply fires_early_of_due hdue hlive
    simp only [currentDeadline, hloop, timerArm_heap, U.deadline_arm, if_true, Option.getD_some]
    show now.ns + tolerance < d.ns
    omega
  | _ => exact absurd trivial h

/-- A timer for 100 ms, and with it the kernel timer, and a second timer for 200 ms. -/
def twoTimers : State AListHeap.heap :=
  nextState (nextState ⟨Loop.create _, [], msec 0⟩ (.arm 0 (msec 100) (msec 0)))
    (.arm 1 (msec 200) (msec 0))

theorem twoTimers_reach {Ok : State AListHeap.heap → Op Nat → Prop}
    (h₀ : Ok ⟨Loop.create _, [], msec 0⟩ (.arm 0 (msec 100) (msec 0)))
    (h₁ : Ok (nextState ⟨Loop.create _, [], msec 0⟩ (.arm 0 (msec 100) (msec 0)))
      (.arm 1 (msec 200) (msec 0))) : Reach Start Step Ok twoTimers := by
  have hstart : Start (U := AListHeap.heap) ⟨Loop.create _, [], msec 0⟩ := ⟨rfl, rfl⟩
  refine .step (.step (.start hstart) h₀ ⟨?_, rfl⟩) h₁ ⟨?_, rfl⟩
  · exact ⟨by decide, by decide⟩
  · exact ⟨by decide, by decide⟩

/-- The dispatch at 100 ms, on whatever the loop holds then. -/
def wakeAt100 : Op Nat := .dispatch true (msec 100) (msec 100) (msec 100)

/-- The first timer is disarmed: the kernel timer stays, and at 100 ms the dispatch takes
the timer for 200 ms for due. -/
theorem timer_fires_early : ¬ NoTimerFiresEarly AListHeap.heap := by
  intro h
  have hdisarm : Admissible twoTimers (.disarm 0) := show 0 ∉ twoTimers.loop.removed by decide
  have hwake : Admissible (nextState twoTimers (.disarm 0)) wakeAt100 :=
    ⟨rfl, by decide, by decide, by decide, fun _ => ⟨_, rfl, by decide⟩⟩
  have hreach : Reach Start Step Always (nextState (nextState twoTimers (.disarm 0)) wakeAt100) :=
    .step (.step (twoTimers_reach trivial trivial) trivial ⟨hdisarm, rfl⟩) trivial ⟨hwake, rfl⟩
  have honTime := h _ hreach (.call (msec 100)) ⟨by decide, by decide⟩
  revert honTime
  unfold FiresOnTime
  decide

/-- In a run whose operations all leave the first timer covered and no collected timer
postponed, no timer fires early, and after an operation that does not, one can. -/
theorem fires_on_time_iff_root_covered (U : Upstream Timer) :
    (∀ s : State U, Reach Start Step KeepsDeadlines s →
      ∀ op, Admissible s op → FiresOnTime s op) ∧
    (∀ s : State U, Reach Start Step Always s → ∀ op, Admissible s op → ¬ KeepsDeadlines s op →
      CanFireEarly (nextState s op)) := by
  constructor
  · intro s hs op hadm
    have hInv : LoopCovered s := hs.invariant
      (fun s hstart => by
        refine ⟨?_, ?_⟩
        · rw [hstart.1]
          exact covered_none _ _
        · rw [hstart.2]
          exact fun c hc => absurd hc List.not_mem_nil)
      loopCovered_step
    exact firesOnTime_of_covered hInv hadm
  · intro s _ op hadm hn
    rcases not_and_or.mp hn with hroot | hdue
    · exact fires_early_of_not_covered (not_covered_of_not_rootCovered hadm hroot)
    · exact fires_early_of_postponed hadm hdue

/-- The two timers armed above, left alone: the callback at 100 ms is on time. -/
theorem fires_on_time_two_timers :
    FiresOnTime (nextState twoTimers wakeAt100) (.call (msec 100)) := by
  apply (fires_on_time_iff_root_covered AListHeap.heap).1 (nextState twoTimers wakeAt100)
  · refine .step (e := wakeAt100) (twoTimers_reach ⟨?_, ?_⟩ ⟨?_, ?_⟩) ⟨trivial, trivial⟩ ⟨?_, rfl⟩
    · intro h
      exact absurd rfl (h (msec 100))
    · intro h
      cases h
    · intro _ k hk r d hr
      have hknote : some ⟨msec 0, 100⟩ = some k := hk
      have hroot : some (0, msec 100) = some (r, d) := hr
      cases hknote
      cases hroot
      exact Or.inl (by decide)
    · intro h
      cases h
    · exact ⟨rfl, by decide, by decide, by decide, fun _ => ⟨_, rfl, by decide⟩⟩
  · exact ⟨by decide, by decide⟩

end DeltaPorts.Wayland

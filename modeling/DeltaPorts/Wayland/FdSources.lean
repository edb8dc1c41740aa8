import Mathlib.Logic.Function.Basic
import DeltaPorts.Library.Run

/-!
# The interest masks of fd sources

`epoll` keeps one mask for each source and `EPOLL_CTL_MOD` replaces it. A kqueue keeps one
knote for each descriptor and filter. The operations below are those of the patched
`event-loop.c` on fd sources; every `kevent` change that the kernel can make succeeds.
-/

set_option autoImplicit false

namespace DeltaPorts.Wayland

/-- The address of a `struct wl_event_source`. -/
abbrev Source := Nat

def WL_EVENT_READABLE : UInt32 := 0x01
def WL_EVENT_WRITABLE : UInt32 := 0x02

inductive Filter where
  | evfiltRead
  | evfiltWrite
  deriving DecidableEq

/-- Whether the mask has the bit that stands for the filter. -/
def asks (mask : UInt32) : Filter → Bool
  | .evfiltRead => mask &&& WL_EVENT_READABLE != 0
  | .evfiltWrite => mask &&& WL_EVENT_WRITABLE != 0

/-- What is registered: by descriptor and filter, the `udata` of the knote. -/
abbrev Knotes := Nat → Filter → Option Source

inductive Action where
  | evAdd (udata : Source)
  | evDelete

/-- One `EV_SET` entry of a change list. -/
structure Change where
  ident : Nat
  filter : Filter
  action : Action

def Knotes.set (k : Knotes) (ident : Nat) (filter : Filter) (udata : Option Source) : Knotes :=
  fun n f => if n = ident ∧ f = filter then udata else k n f

@[simp] theorem Knotes.set_apply (k : Knotes) (ident n : Nat) (filter f : Filter)
    (udata : Option Source) :
    k.set ident filter udata n f = if n = ident ∧ f = filter then udata else k n f := rfl

/-- `EV_ADD` registers or overwrites; `EV_DELETE` fails when nothing is registered. -/
def Knotes.register (k : Knotes) (c : Change) : Option Knotes :=
  match c.action with
  | .evAdd udata => some (k.set c.ident c.filter (some udata))
  | .evDelete =>
    match k c.ident c.filter with
    | none => none
    | some _ => some (k.set c.ident c.filter none)

/-- The return value and the knotes after the changes; the first that fails ends the call. -/
def kevent (k : Knotes) : List Change → Int × Knotes
  | [] => (0, k)
  | c :: cs =>
    match k.register c with
    | none => (-1, k)
    | some k' => kevent k' cs

/-- `close` takes the knotes of the descriptor with it. -/
def Knotes.close (k : Knotes) (fd : Nat) : Knotes := fun n f => if n = fd then none else k n f

/-- The change list `wl_event_loop_add_fd` and `wl_event_source_fd_update` build. -/
def maskChanges (fd : Nat) (mask : UInt32) (source : Source) : List Change :=
  (if asks mask .evfiltRead then
    [{ ident := fd, filter := .evfiltRead, action := .evAdd source }] else []) ++
  (if asks mask .evfiltWrite then
    [{ ident := fd, filter := .evfiltWrite, action := .evAdd source }] else [])

theorem kevent_maskChanges (k : Knotes) (fd : Nat) (mask : UInt32) (source : Source) :
    kevent k (maskChanges fd mask source) =
      (0, fun n f => if n = fd ∧ asks mask f then some source else k n f) := by
  have hk (n : Nat) (f : Filter) : f = .evfiltRead ∨ f = .evfiltWrite := by
    cases f <;> simp
  unfold maskChanges
  cases hread : asks mask .evfiltRead <;> cases hwrite : asks mask .evfiltWrite <;>
    simp only [kevent, Knotes.register, Bool.false_eq_true, if_false, if_true, List.nil_append,
      List.cons_append, Prod.mk.injEq, true_and] <;>
    funext n f <;> cases f <;> by_cases hn : n = fd <;> simp [hn, hread, hwrite]

/-- `fd` is `base.fd`, the loop's own duplicate, of each source that was added and not
removed. A duplicate belongs to one source. -/
structure FdLoop where
  fd : Source → Option Nat
  holder : Nat → Option Source
  knotes : Knotes
  held : ∀ source n, fd source = some n ↔ holder n = some source

namespace FdLoop

def create : FdLoop where
  fd := fun _ => none
  holder := fun _ => none
  knotes := fun _ _ => none
  held := by simp

theorem holder_eq_none {l : FdLoop} {source : Source} (h : l.fd source = none) (n : Nat) :
    l.holder n ≠ some source := by
  intro hn
  rw [(l.held source n).mpr hn] at h
  cases h

theorem fd_ne {l : FdLoop} {dup : Nat} (h : l.holder dup = none) (source : Source) :
    l.fd source ≠ some dup := by
  intro hs
  rw [(l.held source dup).mp hs] at h
  cases h

theorem held_opened (l : FdLoop) {source : Source} {dup : Nat} (hs : l.fd source = none)
    (hd : l.holder dup = none) (t : Source) (n : Nat) :
    Function.update l.fd source (some dup) t = some n ↔
      Function.update l.holder dup (some source) n = some t := by
  by_cases ht : t = source
  · subst ht
    by_cases hn : n = dup
    · simp [hn]
    · simp [hn, holder_eq_none hs n, Ne.symm hn]
  · by_cases hn : n = dup
    · subst hn
      simp [ht, fd_ne hd t, Ne.symm ht]
    · simp [ht, hn, l.held t n]

theorem fd_injective (l : FdLoop) {s t : Source} {n : Nat} (hs : l.fd s = some n)
    (ht : l.fd t = some n) : t = s := by
  have hs' := (l.held s n).mp hs
  rw [(l.held t n).mp ht] at hs'
  exact Option.some.inj hs'

theorem held_closed (l : FdLoop) {source : Source} {fd : Nat} (hs : l.fd source = some fd)
    (t : Source) (n : Nat) :
    Function.update l.fd source none t = some n ↔ Function.update l.holder fd none n = some t := by
  by_cases ht : t = source
  · subst ht
    by_cases hn : n = fd
    · simp [hn]
    · have hother : l.holder n ≠ some t := by
        intro h
        have h' := (l.held t n).mpr h
        rw [hs] at h'
        exact hn (Option.some.inj h').symm
      simp [hn, hother]
  · by_cases hn : n = fd
    · subst hn
      have hother : l.fd t ≠ some n := fun h => ht (l.fd_injective hs h)
      simp [ht, hother]
    · simp [ht, hn, l.held t n]

/-- `wl_event_loop_add_fd` with the address `zalloc` returned and the descriptor that
`wl_os_dupfd_cloexec` returned (`none`: -1, and the call returns `NULL`). It is no call of
the program when the address or the descriptor is in use. -/
def addFd (l : FdLoop) (source : Source) (dup : Option Nat) (mask : UInt32) : Option FdLoop :=
  match dup with
  | none => some l
  | some n =>
    if h : l.fd source = none ∧ l.holder n = none then
      some { fd := Function.update l.fd source (some n)
             holder := Function.update l.holder n (some source)
             knotes := (kevent l.knotes (maskChanges n mask source)).2
             held := l.held_opened h.1 h.2 }
    else none

/-- `wl_event_source_fd_update`; `source->fd` is -1 once the source was removed, and the
`kevent` call then fails. -/
def fdUpdate (l : FdLoop) (source : Source) (mask : UInt32) : Int × FdLoop :=
  match l.fd source with
  | none => (if (maskChanges 0 mask source).isEmpty then 0 else -1, l)
  | some fd =>
    let called := kevent l.knotes (maskChanges fd mask source)
    (called.1, { l with knotes := called.2 })

/-- The fd branch of `wl_event_source_remove`: two calls, since one of them may fail. -/
def remove (l : FdLoop) (source : Source) : FdLoop :=
  match h : l.fd source with
  | none => l
  | some fd =>
    let read := kevent l.knotes [{ ident := fd, filter := .evfiltRead, action := .evDelete }]
    let write := kevent read.2 [{ ident := fd, filter := .evfiltWrite, action := .evDelete }]
    { fd := Function.update l.fd source none
      holder := Function.update l.holder fd none
      knotes := write.2.close fd
      held := l.held_closed h }

theorem fdUpdate_fd (l : FdLoop) (source : Source) (mask : UInt32) :
    (l.fdUpdate source mask).2.fd = l.fd := by
  unfold fdUpdate
  split <;> rfl

theorem fdUpdate_knotes {l : FdLoop} {source : Source} {fd : Nat} (h : l.fd source = some fd)
    (mask : UInt32) (n : Nat) (f : Filter) :
    (l.fdUpdate source mask).2.knotes n f =
      if n = fd ∧ asks mask f then some source else l.knotes n f := by
  unfold fdUpdate
  rw [h]
  simp only [kevent_maskChanges]

theorem remove_of_none {l : FdLoop} {source : Source} (h : l.fd source = none) :
    l.remove source = l := by
  unfold remove
  split
  · rfl
  · next fd hfd =>
    rw [h] at hfd
    cases hfd

theorem remove_of_some {l : FdLoop} {source : Source} {fd : Nat} (h : l.fd source = some fd) :
    l.remove source =
      let read := kevent l.knotes [{ ident := fd, filter := .evfiltRead, action := .evDelete }]
      let write := kevent read.2 [{ ident := fd, filter := .evfiltWrite, action := .evDelete }]
      { fd := Function.update l.fd source none
        holder := Function.update l.holder fd none
        knotes := write.2.close fd
        held := l.held_closed h } := by
  unfold remove
  split
  · next hnone =>
    rw [h] at hnone
    cases hnone
  · next fd' hfd =>
    cases Option.some.inj (h.symm.trans hfd)
    rfl

theorem remove_fd {l : FdLoop} {source : Source} {fd : Nat} (h : l.fd source = some fd) :
    (l.remove source).fd = Function.update l.fd source none := by
  rw [remove_of_some h]

theorem kevent_delete_of_ne {k : Knotes} {fd n : Nat} (h : n ≠ fd) (filter f : Filter) :
    (kevent k [{ ident := fd, filter := filter, action := .evDelete }]).2 n f = k n f := by
  simp only [kevent, Knotes.register]
  cases k fd filter with
  | none => rfl
  | some t => simp [h]

theorem remove_knotes {l : FdLoop} {source : Source} {fd : Nat} (h : l.fd source = some fd)
    (n : Nat) (f : Filter) :
    (l.remove source).knotes n f = if n = fd then none else l.knotes n f := by
  rw [remove_of_some h]
  by_cases hn : n = fd
  · simp [Knotes.close, hn]
  · simp only [Knotes.close, hn, if_false, kevent_delete_of_ne hn]

end FdLoop

/-- The mask `epoll` holds for each source. -/
abbrev Masks := Source → Option UInt32

inductive FdOp where
  | addFd (source : Source) (dup : Option Nat) (mask : UInt32)
  | fdUpdate (source : Source) (mask : UInt32)
  | remove (source : Source)

def kqueueStep (l : FdLoop) : FdOp → Option FdLoop
  | .addFd source dup mask => l.addFd source dup mask
  | .fdUpdate source mask => some (l.fdUpdate source mask).2
  | .remove source => some (l.remove source)

/-- `EPOLL_CTL_ADD`, `EPOLL_CTL_MOD` and `EPOLL_CTL_DEL`; the last two fail for a source
that has no mask. -/
def epollStep (m : Masks) : FdOp → Masks
  | .addFd _ none _ => m
  | .addFd source (some _) mask => Function.update m source (some mask)
  | .fdUpdate source mask => Function.update m source ((m source).map fun _ => mask)
  | .remove source => Function.update m source none

/-- The same calls on both. -/
def bothStep (s : FdLoop × Masks) (op : FdOp) : Option (FdLoop × Masks) :=
  (kqueueStep s.1 op).map fun l => (l, epollStep s.2 op)

/-- The knotes of a source are on its descriptor, one for each bit of its mask; a source
without a mask has none. -/
structure Simulates (s : FdLoop × Masks) : Prop where
  live : ∀ source, s.1.fd source = none ↔ s.2 source = none
  knote_iff : ∀ source n f, s.1.knotes n f = some source ↔
    s.1.fd source = some n ∧ ∃ mask, s.2 source = some mask ∧ asks mask f = true

/-- An update leaves no bit of the mask before it out. -/
def KeepsMask (s : FdLoop × Masks) : FdOp → Prop
  | .fdUpdate source mask => ∀ old, s.2 source = some old →
      ∀ f, asks old f = true → asks mask f = true
  | _ => True

theorem simulates_create : Simulates (FdLoop.create, fun _ => none) where
  live := fun _ => iff_of_true rfl rfl
  knote_iff := by simp [FdLoop.create]

section Steps

variable {l l' : FdLoop} {m : Masks} {source : Source}

theorem Simulates.addFd (h : Simulates (l, m)) {dup : Option Nat} {mask : UInt32}
    (hadd : l.addFd source dup mask = some l') :
    Simulates (l', epollStep m (.addFd source dup mask)) := by
  cases dup with
  | none =>
    cases hadd
    exact h
  | some fd =>
    simp only [FdLoop.addFd] at hadd
    split at hadd
    · next hfree =>
      cases hadd
      have hnoKnote (n : Nat) (f : Filter) : l.knotes n f ≠ some source := by
        intro hk
        have hfd := ((h.knote_iff source n f).mp hk).1
        rw [hfree.1] at hfd
        cases hfd
      constructor
      · intro t
        by_cases ht : t = source
        · simp [epollStep, ht]
        · simpa [epollStep, ht] using h.live t
      · intro t n f
        simp only [kevent_maskChanges, epollStep]
        by_cases ht : t = source
        · subst ht
          by_cases hn : n = fd
          · simp [hn, hnoKnote]
          · simp [hn, Ne.symm hn, hnoKnote]
        · have hold := h.knote_iff t n f
          by_cases hn : n = fd ∧ asks mask f = true
          · obtain ⟨rfl, hf⟩ := hn
            simp [ht, hf, Ne.symm ht, FdLoop.fd_ne hfree.2 t]
          · simpa [hn, ht] using hold
    · cases hadd

theorem Simulates.remove (h : Simulates (l, m)) :
    Simulates (l.remove source, epollStep m (.remove source)) := by
  cases hfd : l.fd source with
  | none =>
    rw [FdLoop.remove_of_none hfd]
    have hm : epollStep m (.remove source) = m := by
      change Function.update m source none = m
      rw [← (h.live source).mp hfd, Function.update_eq_self]
    rwa [hm]
  | some fd =>
    constructor
    · intro t
      simp only [FdLoop.remove_fd hfd, epollStep]
      by_cases ht : t = source
      · simp [ht]
      · simpa [ht] using h.live t
    · intro t n f
      simp only [FdLoop.remove_fd hfd, FdLoop.remove_knotes hfd, epollStep]
      have hold := h.knote_iff t n f
      by_cases ht : t = source
      · subst ht
        by_cases hn : n = fd
        · simp [hn]
        · have hne : l.knotes n f ≠ some t := by
            intro hk
            have hfd' := (hold.mp hk).1
            rw [hfd] at hfd'
            exact hn (Option.some.inj hfd').symm
          simp [hn, hne]
      · by_cases hn : n = fd
        · subst hn
          have hne : l.fd t ≠ some n := fun htn => ht (l.fd_injective hfd htn)
          simp [ht, hne]
        · simpa [hn, ht] using hold

/-- An update for a source that has been removed changes nothing. -/
theorem Simulates.fdUpdate_of_none (h : Simulates (l, m)) (hfd : l.fd source = none)
    (mask : UInt32) :
    (l.fdUpdate source mask).2 = l ∧ epollStep m (.fdUpdate source mask) = m ∧
      KeepsMask (l, m) (.fdUpdate source mask) := by
  have hm : m source = none := (h.live source).mp hfd
  refine ⟨?_, ?_, ?_⟩
  · unfold FdLoop.fdUpdate
    rw [hfd]
  · change Function.update m source ((m source).map fun _ => mask) = m
    rw [hm, Option.map_none, ← hm, Function.update_eq_self]
  · intro old hold
    have hold' : m source = some old := hold
    rw [hm] at hold'
    cases hold'

theorem Simulates.exists_mask (h : Simulates (l, m)) {fd : Nat} (hfd : l.fd source = some fd) :
    ∃ old, m source = some old := by
  cases hm : m source with
  | none =>
    rw [(h.live source).mpr hm] at hfd
    cases hfd
  | some old => exact ⟨old, rfl⟩

section Update

variable {fd : Nat} {old mask : UInt32} (h : Simulates (l, m)) (hfd : l.fd source = some fd)
  (hold : m source = some old)

include h hfd hold

theorem Simulates.knote_iff_asks (n : Nat) (f : Filter) :
    l.knotes n f = some source ↔ n = fd ∧ asks old f = true := by
  refine (h.knote_iff source n f).trans (and_congr ?_ ?_)
  · simp only [hfd, Option.some.injEq]
    exact eq_comm
  · simp [hold]

/-- A filter that is no longer asked for is still registered after the update. -/
theorem Simulates.asks_of_fdUpdate
    (h' : Simulates ((l.fdUpdate source mask).2, Function.update m source (some mask)))
    {f : Filter} (hf : asks old f = true) : asks mask f = true := by
  by_contra hnot
  have hkept : (l.fdUpdate source mask).2.knotes fd f = some source := by
    rw [FdLoop.fdUpdate_knotes hfd, if_neg fun hadd => hnot hadd.2]
    exact (h.knote_iff_asks hfd hold fd f).mpr ⟨rfl, hf⟩
  obtain ⟨_, new, hnew, hasks⟩ := (h'.knote_iff source fd f).mp hkept
  have hnew' : mask = new := by simpa using hnew
  exact hnot (hnew' ▸ hasks)

theorem Simulates.fdUpdate (hmore : ∀ f, asks old f = true → asks mask f = true) :
    Simulates ((l.fdUpdate source mask).2, Function.update m source (some mask)) := by
  constructor
  · intro t
    simp only [FdLoop.fdUpdate_fd]
    by_cases ht : t = source
    · simp [ht, hfd]
    · simpa [ht] using h.live t
  · intro t n f
    have hwas := h.knote_iff_asks hfd hold
    simp only [FdLoop.fdUpdate_fd, FdLoop.fdUpdate_knotes hfd]
    by_cases ht : t = source
    · subst ht
      by_cases hn : n = fd
      · subst hn
        by_cases hf : asks mask f = true
        · simp [hf, hfd]
        · have hnot : asks old f ≠ true := fun ho => hf (hmore f ho)
          simp [hf, hfd, hwas, hnot]
      · simp [hn, hfd, hwas, Ne.symm hn]
    · by_cases hn : n = fd ∧ asks mask f = true
      · obtain ⟨rfl, hf⟩ := hn
        have hne : l.fd t ≠ some n := fun htn => ht (l.fd_injective hfd htn)
        simp [hf, Ne.symm ht, hne]
      · simpa [hn, ht] using h.knote_iff t n f

end Update

/-- An update that only adds filters is right exactly when it asks for all the old ones. -/
theorem Simulates.fdUpdate_iff (h : Simulates (l, m)) (mask : UInt32) :
    Simulates ((l.fdUpdate source mask).2, epollStep m (.fdUpdate source mask)) ↔
      KeepsMask (l, m) (.fdUpdate source mask) := by
  cases hfd : l.fd source with
  | none =>
    obtain ⟨hl, hm, hkeeps⟩ := h.fdUpdate_of_none hfd mask
    rw [hl, hm]
    exact iff_of_true h hkeeps
  | some fd =>
    obtain ⟨old, hold⟩ := h.exists_mask hfd
    have hm : epollStep m (.fdUpdate source mask) = Function.update m source (some mask) := by
      simp [epollStep, hold]
    rw [hm]
    constructor
    · intro h' asked hasked f hf
      have hasked' : old = asked := Option.some.inj (hold.symm.trans hasked)
      subst hasked'
      exact h.asks_of_fdUpdate hfd hold h' hf
    · exact fun hkeeps => h.fdUpdate hfd hold (hkeeps old hold)

end Steps

theorem simulates_step_iff {s s' : FdLoop × Masks} {op : FdOp} (h : Simulates s)
    (hstep : bothStep s op = some s') : Simulates s' ↔ KeepsMask s op := by
  obtain ⟨l, m⟩ := s
  obtain ⟨l', hl', rfl⟩ := Option.map_eq_some_iff.mp hstep
  cases op with
  | addFd source dup mask => exact iff_of_true (h.addFd hl') trivial
  | fdUpdate source mask =>
    cases hl'
    exact h.fdUpdate_iff mask
  | remove source =>
    cases hl'
    exact iff_of_true h.remove trivial

/-- The kqueue simulates the masks throughout a run exactly when no update of the run
leaves out a bit that the source's mask had. -/
theorem kqueue_simulates_iff_masks_kept (ops : List FdOp) :
    Run.Throughout bothStep Simulates (FdLoop.create, fun _ => none) ops ↔
      Run.OkSteps bothStep KeepsMask (FdLoop.create, fun _ => none) ops := by
  refine Run.throughout_iff (fun s op s' h hstep => simulates_step_iff h hstep) ?_
    simulates_create ops
  intro s op hstuck
  cases op with
  | addFd source dup mask => trivial
  | fdUpdate source mask => cases hstuck
  | remove source => trivial

/-- A source added for reading and writing and then asked to only read. -/
def narrowed : List FdOp :=
  [.addFd 1 (some 5) (WL_EVENT_READABLE ||| WL_EVENT_WRITABLE), .fdUpdate 1 WL_EVENT_READABLE]

theorem narrowed_mask_still_writes :
    ¬ ∀ ops, Run.Throughout bothStep Simulates (FdLoop.create, fun _ => none) ops := by
  intro h
  have hend := (((h narrowed).2 _ rfl).2 _ rfl).start
  obtain ⟨_, mask, hmask, hasks⟩ := (hend.knote_iff 1 5 .evfiltWrite).mp rfl
  have hread : WL_EVENT_READABLE = mask := Option.some.inj hmask
  rw [← hread] at hasks
  exact absurd hasks (by decide)

end DeltaPorts.Wayland

import DeltaPorts.Library.Feeding
import DeltaPorts.Library.Run
import Mathlib.Data.List.Nodup
import Mathlib.Logic.Function.Basic

/-!
# weston-launch

`handle_open` opens devices for the compositor and notes the descriptors of the drm device and of
the input devices, which `close_input_fds` revokes and closes when the VT is left. The name of a
device's driver is asked for correctly and each reply is sent.
-/

set_option autoImplicit false

namespace DeltaPorts.Weston.Launch

open Feeding

abbrev Text := List Char

/-- What is behind an open descriptor: something that was open from the start, or the device
that a request has named. -/
inductive Behind where
  | other
  | device (path driver : Text)

/-- The open descriptors of the process. -/
structure Table where
  entry : Nat → Option Behind
  bound : Nat
  free : ∀ fd, bound ≤ fd → entry fd = none

namespace Table

/-- The descriptor that `open` returns. -/
def lowestFree (t : Table) : Nat :=
  ((List.range (t.bound + 1)).find? fun fd => (t.entry fd).isNone).getD t.bound

def set (t : Table) (fd : Nat) (behind : Option Behind) : Table where
  entry := Function.update t.entry fd behind
  bound := max t.bound (fd + 1)
  free := by
    intro fd' hfd'
    rw [Function.update_of_ne (by omega)]
    exact t.free fd' (by omega)

theorem entry_lowestFree (t : Table) : t.entry t.lowestFree = none := by
  unfold lowestFree
  cases h : (List.range (t.bound + 1)).find? fun fd => (t.entry fd).isNone with
  | none => exact t.free _ (Nat.le_refl _)
  | some fd => simpa using List.find?_some h

end Table

def drm : Text := "drm".toList

def sysmouse : Text := "sysmouse".toList

/-- `struct weston_launch`, and the descriptors. -/
structure World where
  table : Table
  drmFd : Int
  lastInputFd : Int
  inputPath : Nat → Option Text

/-- What a path leads to: `open` fails, or there is a device with a driver. -/
inductive Target where
  | missing
  | device (driver : Text)

/-- `handle_open` up to the reply, with the descriptor that it sends; `none` is -1. -/
def openDevice (w : World) (path : Text) : Target → Option Nat × World
  | .missing => (none, w)
  | .device devdrv =>
    let fd := w.table.lowestFree
    let opened := { w with table := w.table.set fd (some (.device path devdrv)) }
    let closed := { w with table := opened.table.set fd none }
    if sysmouse ≠ devdrv ∧ drm ≠ devdrv then (none, closed)
    else if sysmouse = devdrv ∧ (fd : Int) - 3 ≥ 16 then (none, closed)
    else (some fd, opened)

/-- `strcmp("drm", devdrv)` is not 0. -/
def noteDrm (w : World) (devdrv : Text) (fd : Nat) : World :=
  if drm ≠ devdrv then { w with drmFd := fd } else w

def noteInput (w : World) (path devdrv : Text) (fd : Nat) : World :=
  if sysmouse = devdrv then
    { w with
      lastInputFd := if w.lastInputFd < fd then fd else w.lastInputFd
      inputPath := Function.update w.inputPath (fd - 3) (some path) }
  else w

def handleOpen (w : World) (path : Text) (target : Target) : World :=
  match openDevice w path target, target with
  | (some fd, w), .device devdrv => noteInput (noteDrm w devdrv fd) path devdrv fd
  | (_, w), _ => w

/-- One round of `close_input_fds`: what is revoked and closed, if anything. -/
def closeInput (w : World) (fd : Nat) : List (Nat × Text) × World :=
  if (w.table.entry fd).isSome ∧ fd - 3 < 16 then
    match w.inputPath (fd - 3) with
    | some path =>
      ([(fd, path)], { w with
        table := w.table.set fd none
        inputPath := Function.update w.inputPath (fd - 3) none })
    | none => ([], w)
  else ([], w)

def closeInputFds (w : World) : List (Nat × Text) × World :=
  feed closeInput w (List.range' 3 (w.lastInputFd - 2).toNat)

inductive Event where
  | open (path : Text) (target : Target)
  | closeInputFds

/-- The program, and beside it the descriptor of the drm device opened last. -/
structure Traced where
  world : World
  lastDrm : Int

def step (s : Traced) : Event → Traced
  | .open path target =>
    { world := handleOpen s.world path target
      lastDrm := match (openDevice s.world path target).1, target with
        | some fd, .device devdrv => if devdrv = drm then fd else s.lastDrm
        | _, _ => s.lastDrm }
  | .closeInputFds => { s with world := (closeInputFds s.world).2 }

/-- At the start the standard descriptors and perhaps others are open, and no device is. -/
def launch (drmFd lastInputFd : Int) (others : Nat → Bool) (bound : Nat) : Traced where
  world := {
    table := {
      entry := fun fd => if fd < 3 ∨ fd < bound ∧ others fd = true then some .other else none
      bound := max 3 bound
      free := by
        intro fd hfd
        rw [if_neg]
        omega }
    drmFd := drmFd
    lastInputFd := lastInputFd
    inputPath := fun _ => none }
  lastDrm := drmFd

/-- The path of the sysmouse device behind a descriptor. -/
def mouse (w : World) (fd : Nat) : Option Text :=
  match w.table.entry fd with
  | some (.device path driver) => if driver = sysmouse then some path else none
  | _ => none

/-- The input devices are where `close_input_fds` looks for them. -/
structure Books (w : World) : Prop where
  standard : ∀ fd, fd < 3 → mouse w fd = none
  taken : ∀ fd, fd < 3 → w.table.entry fd ≠ none
  input : ∀ i, i < 16 → w.inputPath i = mouse w (i + 3)
  bounds : ∀ fd, mouse w fd ≠ none → 3 ≤ fd ∧ fd < 19 ∧ (fd : Int) ≤ w.lastInputFd

/-- The sysmouse devices are closed and their paths revoked, and no other. -/
structure ClosesInput (w : World) : Prop where
  revoked : ∀ fd path, (fd, path) ∈ (closeInputFds w).1 ↔ mouse w fd = some path
  closed : ∀ fd, (closeInputFds w).2.table.entry fd =
    if mouse w fd = none then w.table.entry fd else none

/-- What is to hold of the descriptors at one moment. -/
structure Kept (s : Traced) : Prop where
  drm : s.world.drmFd = s.lastDrm
  books : Books s.world
  closes : ClosesInput s.world

/-- The path that is revoked when the loop comes to the descriptor. -/
def revokes (w : World) (fd : Nat) : Option Text :=
  if (w.table.entry fd).isSome ∧ fd - 3 < 16 then w.inputPath (fd - 3) else none

theorem closeInput_of_none {w : World} {fd : Nat} (h : revokes w fd = none) :
    closeInput w fd = ([], w) := by
  unfold revokes at h
  unfold closeInput
  split
  · rename_i hopen
    rw [if_pos hopen] at h
    rw [h]
  · rfl

theorem closeInput_of_some {w : World} {fd : Nat} {path : Text} (h : revokes w fd = some path) :
    closeInput w fd = ([(fd, path)], { w with
      table := w.table.set fd none
      inputPath := Function.update w.inputPath (fd - 3) none }) := by
  unfold revokes at h
  unfold closeInput
  split
  · rename_i hopen
    rw [if_pos hopen] at h
    rw [h]
  · rename_i hopen
    rw [if_neg hopen] at h
    cases h

/-- What the loop over the descriptors in `fds` has done. -/
structure Closed (fds : List Nat) (w : World) (r : List (Nat × Text) × World) : Prop where
  list : ∀ fd path, (fd, path) ∈ r.1 ↔ fd ∈ fds ∧ revokes w fd = some path
  entry : ∀ fd, r.2.table.entry fd =
    if fd ∈ fds ∧ revokes w fd ≠ none then none else w.table.entry fd
  input : ∀ i, r.2.inputPath i =
    if i + 3 ∈ fds ∧ revokes w (i + 3) ≠ none then none else w.inputPath i
  drmFd : r.2.drmFd = w.drmFd
  lastInputFd : r.2.lastInputFd = w.lastInputFd

theorem closed_cons {fd : Nat} {fds : List Nat} {w : World} {path : Text}
    (hnew : fd ∉ fds) (hfd : 3 ≤ fd) (hfds : ∀ fd ∈ fds, 3 ≤ fd) (hpath : revokes w fd = some path)
    {r : List (Nat × Text) × World} (h : Closed fds (closeInput w fd).2 r) :
    Closed (fd :: fds) w ((closeInput w fd).1 ++ r.1, r.2) := by
  rw [closeInput_of_some hpath] at h ⊢
  have hothers : ∀ fd', 3 ≤ fd' → fd' ≠ fd → revokes { w with
      table := w.table.set fd none
      inputPath := Function.update w.inputPath (fd - 3) none } fd' = revokes w fd' := by
    intro fd' hfd' hne
    have hindex : fd' - 3 ≠ fd - 3 := by omega
    simp only [revokes, Table.set, Function.update_of_ne hne, Function.update_of_ne hindex]
  refine ⟨fun fd' path' => ?_, fun fd' => ?_, fun i => ?_, h.drmFd, h.lastInputFd⟩
  · rw [List.singleton_append, List.mem_cons, h.list, List.mem_cons]
    by_cases hsame : fd' = fd
    · subst hsame
      simp only [hpath, hnew, Prod.mk.injEq, true_and, false_and, or_false, Option.some.injEq]
      exact eq_comm
    · simp only [hsame, Prod.mk.injEq, false_and, false_or]
      refine and_congr_right fun hmem => ?_
      rw [hothers fd' (hfds fd' hmem) hsame]
  · rw [h.entry]
    by_cases hsame : fd' = fd
    · subst hsame
      have hsome : revokes w fd' ≠ none := hpath ▸ Option.some_ne_none path
      rw [if_neg fun hmem => hnew hmem.1, if_pos ⟨List.mem_cons_self, hsome⟩]
      exact Function.update_self _ _ _
    · have hentry : (w.table.set fd none).entry fd' = w.table.entry fd' :=
        Function.update_of_ne hsame _ _
      by_cases hmem : fd' ∈ fds
      · simp only [hothers fd' (hfds fd' hmem) hsame, hentry, List.mem_cons, hmem, or_true]
      · simp only [hentry, List.mem_cons, hmem, hsame, or_false, false_and, if_false]
  · rw [h.input]
    by_cases hsame : i + 3 = fd
    · have hsome : revokes w (i + 3) ≠ none := hsame ▸ hpath ▸ Option.some_ne_none path
      have hindex : i = fd - 3 := by omega
      rw [if_neg fun hmem => hnew (hsame ▸ hmem.1), if_pos ⟨hsame ▸ List.mem_cons_self, hsome⟩, hindex]
      exact Function.update_self _ _ _
    · have hindex : i ≠ fd - 3 := by omega
      by_cases hmem : i + 3 ∈ fds
      · simp only [hothers (i + 3) (by omega) hsame, Function.update_of_ne hindex, List.mem_cons,
          hmem, or_true]
      · simp only [Function.update_of_ne hindex, List.mem_cons, hmem, hsame, or_false, false_and,
          if_false]

theorem feed_closed {fds : List Nat} (hnodup : fds.Nodup) (hfds : ∀ fd ∈ fds, 3 ≤ fd) (w : World) :
    Closed fds w (feed closeInput w fds) := by
  induction fds generalizing w with
  | nil =>
    refine ⟨fun fd path => ?_, fun fd => ?_, fun i => ?_, rfl, rfl⟩
    · exact iff_of_false List.not_mem_nil fun h => List.not_mem_nil h.1
    · exact (if_neg fun h => List.not_mem_nil h.1).symm
    · exact (if_neg fun h => List.not_mem_nil h.1).symm
  | cons fd fds ih =>
    rw [List.nodup_cons] at hnodup
    have htail : ∀ fd ∈ fds, 3 ≤ fd := fun fd' hmem => hfds fd' (List.mem_cons_of_mem fd hmem)
    have hrest := ih hnodup.2 htail (closeInput w fd).2
    rw [feed]
    cases hpath : revokes w fd with
    | some path => exact closed_cons hnodup.1 (hfds fd List.mem_cons_self) htail hpath hrest
    | none =>
      rw [closeInput_of_none hpath] at hrest ⊢
      have hskip : ∀ fd', (fd' ∈ fd :: fds ∧ revokes w fd' ≠ none) ↔
          (fd' ∈ fds ∧ revokes w fd' ≠ none) := by
        intro fd'
        rw [List.mem_cons]
        refine and_congr_left fun hsome => or_iff_right fun heq => hsome ?_
        rw [heq, hpath]
      refine ⟨fun fd' path => ?_, fun fd' => ?_, fun i => ?_, hrest.drmFd, hrest.lastInputFd⟩
      · rw [List.nil_append, hrest.list, List.mem_cons]
        refine and_congr_left fun hsome => (or_iff_right fun heq => ?_).symm
        rw [heq, hpath] at hsome
        cases hsome
      · rw [hrest.entry]
        simp only [hskip]
      · rw [hrest.input]
        simp only [hskip]

theorem mouse_some {w : World} {fd : Nat} {path : Text} :
    mouse w fd = some path ↔ w.table.entry fd = some (.device path sysmouse) := by
  unfold mouse
  split
  · rename_i path' driver h
    rw [h]
    by_cases hdriver : driver = sysmouse
    · simp [hdriver]
    · simp [hdriver]
  · rename_i hother
    refine iff_of_false nofun fun h => hother path sysmouse h

theorem mem_fds {w : World} (h : Books w) {fd : Nat} (hfd : mouse w fd ≠ none) :
    fd ∈ List.range' 3 (w.lastInputFd - 2).toNat := by
  have hbounds := h.bounds fd hfd
  rw [List.mem_range'_1]
  omega

/-- On the descriptors of the loop. -/
theorem Books.revokes_eq {w : World} (h : Books w) {fd : Nat} (hfd : 3 ≤ fd) :
    revokes w fd = mouse w fd := by
  unfold revokes
  by_cases hopen : (w.table.entry fd).isSome ∧ fd - 3 < 16
  · have hindex : fd - 3 + 3 = fd := by omega
    rw [if_pos hopen, h.input (fd - 3) hopen.2, hindex]
  · rw [if_neg hopen]
    cases hmouse : mouse w fd with
    | none => rfl
    | some path =>
      have hbounds := h.bounds fd (hmouse ▸ Option.some_ne_none path)
      refine absurd ⟨?_, by omega⟩ hopen
      rw [mouse_some.mp hmouse]
      rfl

theorem closeInputFds_closed (w : World) :
    Closed (List.range' 3 (w.lastInputFd - 2).toNat) w (closeInputFds w) := by
  refine feed_closed List.nodup_range' (fun fd hfd => ?_) w
  rw [List.mem_range'_1] at hfd
  exact hfd.1

theorem Books.chosen_iff {w : World} (h : Books w) (fd : Nat) :
    (fd ∈ List.range' 3 (w.lastInputFd - 2).toNat ∧ revokes w fd ≠ none) ↔ mouse w fd ≠ none := by
  constructor
  · intro hfd
    have hle := (List.mem_range'_1.mp hfd.1).1
    rw [← h.revokes_eq hle]
    exact hfd.2
  · intro hmouse
    refine ⟨mem_fds h hmouse, ?_⟩
    rw [h.revokes_eq (h.bounds fd hmouse).1]
    exact hmouse

theorem Books.closesInput {w : World} (h : Books w) : ClosesInput w where
  revoked fd path := by
    rw [(closeInputFds_closed _).list]
    constructor
    · intro hfd
      rw [← h.revokes_eq (List.mem_range'_1.mp hfd.1).1]
      exact hfd.2
    · intro hmouse
      have hsome : mouse w fd ≠ none := hmouse ▸ Option.some_ne_none path
      refine ⟨mem_fds h hsome, ?_⟩
      rw [h.revokes_eq (h.bounds fd hsome).1]
      exact hmouse
  closed fd := by
    rw [(closeInputFds_closed _).entry]
    simp only [h.chosen_iff, ne_eq, ite_not]

theorem Books.of_mouse {w w' : World} (h : Books w)
    (htaken : ∀ fd, w.table.entry fd ≠ none → w'.table.entry fd ≠ none)
    (hmouse : ∀ fd, mouse w' fd = mouse w fd) (hinput : w'.inputPath = w.inputPath)
    (hlast : w'.lastInputFd = w.lastInputFd) : Books w' where
  standard fd hfd := (hmouse fd).trans (h.standard fd hfd)
  taken fd hfd := htaken fd (h.taken fd hfd)
  input i hi := by
    rw [hinput, hmouse]
    exact h.input i hi
  bounds fd hfd := by
    rw [hmouse] at hfd
    rw [hlast]
    exact h.bounds fd hfd

/-- After `close_input_fds` there is no input device. -/
theorem Books.close {w : World} (h : Books w) : Books (closeInputFds w).2 := by
  have hentry := h.closesInput.closed
  have hnone : ∀ fd, mouse (closeInputFds w).2 fd = none := by
    intro fd
    have hfd := hentry fd
    by_cases hmouse : mouse w fd = none
    · rw [if_pos hmouse] at hfd
      unfold mouse at hmouse ⊢
      rwa [hfd]
    · rw [if_neg hmouse] at hfd
      unfold mouse
      rw [hfd]
  refine ⟨fun fd _ => hnone fd, fun fd hfd => ?_, fun i hi => ?_, fun fd hfd => absurd (hnone fd) hfd⟩
  · rw [hentry, if_pos (h.standard fd hfd)]
    exact h.taken fd hfd
  · rw [hnone, (closeInputFds_closed _).input]
    simp only [h.chosen_iff]
    by_cases hmouse : mouse w (i + 3) = none
    · rw [if_neg (not_not.mpr hmouse), h.input i hi, hmouse]
    · rw [if_pos hmouse]

/-- The devices that are passed on to the compositor. -/
def Accepted (w : World) (driver : Text) : Prop :=
  driver = drm ∨ driver = sysmouse ∧ w.table.lowestFree < 19

theorem drm_ne_sysmouse : drm ≠ sysmouse := by decide

theorem openDevice_of_accepted {w : World} {driver : Text} (h : Accepted w driver) (path : Text) :
    openDevice w path (.device driver) = (some w.table.lowestFree, { w with
      table := w.table.set w.table.lowestFree (some (.device path driver)) }) := by
  have hname : ¬ (sysmouse ≠ driver ∧ drm ≠ driver) := by
    intro hne
    rcases h with rfl | ⟨rfl, _⟩
    · exact hne.2 rfl
    · exact hne.1 rfl
  have hroom : ¬ (sysmouse = driver ∧ (w.table.lowestFree : Int) - 3 ≥ 16) := by
    intro hfull
    rcases h with rfl | ⟨_, hlt⟩
    · exact drm_ne_sysmouse hfull.1.symm
    · omega
  simp only [openDevice, if_neg hname, if_neg hroom]

theorem openDevice_of_not_accepted {w : World} {driver : Text} (h : ¬ Accepted w driver)
    (path : Text) :
    openDevice w path (.device driver) = (none, { w with
      table := (w.table.set w.table.lowestFree (some (.device path driver))).set
        w.table.lowestFree none }) := by
  by_cases hname : sysmouse ≠ driver ∧ drm ≠ driver
  · simp only [openDevice, if_pos hname]
  · have hsysmouse : sysmouse = driver := by
      by_contra hne
      exact hname ⟨hne, fun hdrm => h (.inl hdrm.symm)⟩
    have hfull : (w.table.lowestFree : Int) - 3 ≥ 16 := by
      by_contra hroom
      exact h (.inr ⟨hsysmouse.symm, by omega⟩)
    have hreject : sysmouse = driver ∧ (w.table.lowestFree : Int) - 3 ≥ 16 := ⟨hsysmouse, hfull⟩
    simp only [openDevice, if_neg hname, if_pos hreject]

theorem handleOpen_of_accepted {w : World} {driver : Text} (h : Accepted w driver) (path : Text) :
    handleOpen w path (.device driver) =
      noteInput (noteDrm { w with
        table := w.table.set w.table.lowestFree (some (.device path driver)) }
        driver w.table.lowestFree) path driver w.table.lowestFree := by
  unfold handleOpen
  rw [openDevice_of_accepted h]

theorem handleOpen_of_not_accepted {w : World} {driver : Text} (h : ¬ Accepted w driver)
    (path : Text) :
    handleOpen w path (.device driver) = { w with
      table := (w.table.set w.table.lowestFree (some (.device path driver))).set
        w.table.lowestFree none } := by
  unfold handleOpen
  rw [openDevice_of_not_accepted h]

theorem Books.three_le {w : World} (h : Books w) : 3 ≤ w.table.lowestFree := by
  by_contra hlt
  exact h.taken _ (by omega) w.table.entry_lowestFree

theorem Books.open_not_accepted {w : World} (h : Books w) {driver : Text}
    (hno : ¬ Accepted w driver) (path : Text) : Books (handleOpen w path (.device driver)) := by
  rw [handleOpen_of_not_accepted hno]
  have hentry : ∀ fd, ((w.table.set w.table.lowestFree (some (.device path driver))).set
      w.table.lowestFree none).entry fd = w.table.entry fd := by
    intro fd
    by_cases hfd : fd = w.table.lowestFree
    · rw [hfd, w.table.entry_lowestFree]
      exact Function.update_self _ _ _
    · exact (Function.update_of_ne hfd _ _).trans (Function.update_of_ne hfd _ _)
  refine h.of_mouse (fun fd htaken => ?_) (fun fd => ?_) rfl rfl
  · rwa [hentry]
  · unfold mouse
    rw [hentry]

/-- The table with a new device. -/
theorem mouse_set (w : World) (path driver : Text) (fd : Nat) :
    mouse { w with table := w.table.set w.table.lowestFree (some (.device path driver)) } fd =
      if fd = w.table.lowestFree then if driver = sysmouse then some path else none
      else mouse w fd := by
  unfold mouse
  by_cases hfd : fd = w.table.lowestFree
  · have hentry : (w.table.set w.table.lowestFree (some (.device path driver))).entry fd =
        some (.device path driver) := by
      rw [hfd]
      exact Function.update_self _ _ _
    rw [if_pos hfd, hentry]
  · have hentry : (w.table.set w.table.lowestFree (some (.device path driver))).entry fd =
        w.table.entry fd := Function.update_of_ne hfd _ _
    rw [if_neg hfd, hentry]

theorem taken_set (w : World) (behind : Behind) (fd : Nat) (h : w.table.entry fd ≠ none) :
    (w.table.set w.table.lowestFree (some behind)).entry fd ≠ none := by
  by_cases hfd : fd = w.table.lowestFree
  · rw [hfd, w.table.entry_lowestFree] at h
    exact absurd rfl h
  · have hentry : (w.table.set w.table.lowestFree (some behind)).entry fd = w.table.entry fd :=
      Function.update_of_ne hfd _ _
    rwa [hentry]

theorem Books.open_drm {w : World} (h : Books w) (path : Text) :
    Books (handleOpen w path (.device drm)) := by
  rw [handleOpen_of_accepted (.inl rfl), noteInput, if_neg (Ne.symm drm_ne_sysmouse), noteDrm,
    if_neg (not_not.mpr rfl)]
  refine h.of_mouse (taken_set w _) (fun fd => ?_) rfl rfl
  rw [mouse_set]
  by_cases hfd : fd = w.table.lowestFree
  · rw [if_pos hfd, if_neg drm_ne_sysmouse, hfd]
    unfold mouse
    rw [w.table.entry_lowestFree]
  · rw [if_neg hfd]

theorem Books.open_sysmouse {w : World} (h : Books w) (hroom : w.table.lowestFree < 19)
    (path : Text) : Books (handleOpen w path (.device sysmouse)) := by
  have hthree := h.three_le
  rw [handleOpen_of_accepted (.inr ⟨rfl, hroom⟩), noteInput, if_pos rfl, noteDrm,
    if_pos drm_ne_sysmouse]
  refine ⟨fun fd hfd => ?_, fun fd hfd => taken_set w _ fd (h.taken fd hfd), fun i hi => ?_,
    fun fd hfd => ?_⟩
  · refine (mouse_set w path sysmouse fd).trans ?_
    rw [if_neg (by omega)]
    exact h.standard fd hfd
  · refine Eq.trans ?_ (mouse_set w path sysmouse (i + 3)).symm
    by_cases hsame : i + 3 = w.table.lowestFree
    · have hindex : i = w.table.lowestFree - 3 := by omega
      rw [if_pos hsame, if_pos rfl, hindex]
      exact Function.update_self _ _ _
    · have hindex : i ≠ w.table.lowestFree - 3 := by omega
      rw [if_neg hsame, ← h.input i hi]
      exact Function.update_of_ne hindex _ _
  · have hlast : w.lastInputFd ≤ (if w.lastInputFd < w.table.lowestFree
        then (w.table.lowestFree : Int) else w.lastInputFd) ∧
        (w.table.lowestFree : Int) ≤ (if w.lastInputFd < w.table.lowestFree
        then (w.table.lowestFree : Int) else w.lastInputFd) := by
      split <;> omega
    have hmouse := (mouse_set w path sysmouse fd).symm.trans_ne hfd
    by_cases hsame : fd = w.table.lowestFree
    · subst hsame
      exact ⟨hthree, hroom, hlast.2⟩
    · rw [if_neg hsame] at hmouse
      obtain ⟨hle, hlt, hold⟩ := h.bounds fd hmouse
      have hnew := Int.le_trans hold hlast.1
      exact ⟨hle, hlt, hnew⟩

theorem Books.open {w : World} (h : Books w) (path : Text) (target : Target) :
    Books (handleOpen w path target) := by
  cases target with
  | missing => exact h
  | device driver =>
    by_cases haccepted : Accepted w driver
    · rcases haccepted with rfl | ⟨rfl, hroom⟩
      · exact h.open_drm path
      · exact h.open_sysmouse hroom path
    · exact h.open_not_accepted haccepted path

theorem Books.step {s : Traced} (h : Books s.world) (e : Event) : Books (step s e).world := by
  cases e with
  | «open» path target => exact h.open path target
  | closeInputFds => exact h.close

theorem books_launch (drmFd lastInputFd : Int) (others : Nat → Bool) (bound : Nat) :
    Books (launch drmFd lastInputFd others bound).world := by
  have hmouse : ∀ fd, mouse (launch drmFd lastInputFd others bound).world fd = none := by
    intro fd
    unfold mouse launch
    dsimp only
    split
    · rename_i h
      split at h <;> cases h
    · rfl
  refine ⟨fun fd _ => hmouse fd, fun fd hfd => ?_, fun i _ => (hmouse (i + 3)).symm,
    fun fd hfd => absurd (hmouse fd) hfd⟩
  unfold launch
  dsimp only
  rw [if_pos (.inl hfd)]
  exact Option.some_ne_none _

/-- A device that is opened comes to the descriptor that `drm_fd` has already. -/
def SameFd (s : Traced) : Event → Prop
  | .open _ (.device driver) =>
    Accepted s.world driver → (s.world.table.lowestFree : Int) = s.world.drmFd
  | _ => True

theorem lastDrm_of_accepted {s : Traced} {driver : Text} (h : Accepted s.world driver)
    (path : Text) : (step s (.open path (.device driver))).lastDrm =
      if driver = drm then (s.world.table.lowestFree : Int) else s.lastDrm := by
  simp only [step, openDevice_of_accepted h]

theorem lastDrm_of_not_accepted {s : Traced} {driver : Text} (h : ¬ Accepted s.world driver)
    (path : Text) : (step s (.open path (.device driver))).lastDrm = s.lastDrm := by
  simp only [step, openDevice_of_not_accepted h]

theorem drmFd_step_iff {s : Traced} (h : s.world.drmFd = s.lastDrm) (e : Event) :
    (step s e).world.drmFd = (step s e).lastDrm ↔ SameFd s e := by
  cases e with
  | closeInputFds =>
    refine iff_of_true ?_ trivial
    exact (closeInputFds_closed _).drmFd.trans h
  | «open» path target =>
    cases target with
    | missing => exact iff_of_true h trivial
    | device driver =>
      have hworld : (step s (.open path (.device driver))).world =
          handleOpen s.world path (.device driver) := rfl
      by_cases haccepted : Accepted s.world driver
      · rw [lastDrm_of_accepted haccepted, hworld, handleOpen_of_accepted haccepted]
        rcases haccepted with rfl | ⟨rfl, hroom⟩
        · -- `drm_fd` stays as it is
          rw [if_pos rfl, noteInput, if_neg (Ne.symm drm_ne_sysmouse), noteDrm,
            if_neg (not_not.mpr rfl)]
          exact ⟨fun heq _ => heq.symm, fun heq => (heq (.inl rfl)).symm⟩
        · -- `drm_fd` becomes the descriptor of the mouse
          rw [if_neg (Ne.symm drm_ne_sysmouse), noteInput, if_pos rfl, noteDrm,
            if_pos drm_ne_sysmouse, ← h]
          exact ⟨fun heq _ => heq, fun heq => heq (.inr ⟨rfl, hroom⟩)⟩
      · rw [lastDrm_of_not_accepted haccepted, hworld, handleOpen_of_not_accepted haccepted]
        exact iff_of_true h fun hfalse => absurd hfalse haccepted

/-- In every state of a run the descriptors are right exactly when each drm or sysmouse device
that is opened comes to the descriptor that `drm_fd` has already; all but `drm_fd` is always
right. -/
theorem kept_throughout_iff (drmFd lastInputFd : Int) (others : Nat → Bool) (bound : Nat)
    (events : List Event) :
    Run.Throughout (fun s e => some (step s e)) Kept (launch drmFd lastInputFd others bound) events ↔
      Run.OkSteps (fun s e => some (step s e)) SameFd (launch drmFd lastInputFd others bound)
        events := by
  have hbooks := books_launch drmFd lastInputFd others bound
  refine Run.throughout_iff (fun s e s' h hstep => ?_) (fun s e h => ?_)
    ⟨rfl, hbooks, hbooks.closesInput⟩ events
  · cases hstep
    rw [← drmFd_step_iff h.drm e]
    have hnext := h.books.step e
    exact ⟨fun hkept => hkept.drm, fun hdrm => ⟨hdrm, hnext, hnext.closesInput⟩⟩
  · cases h

/-- A graphics card is opened as descriptor 3, and `drm_fd` stays 0. -/
theorem drm_fd_not_set :
    ¬ ∀ (drmFd lastInputFd : Int) (others : Nat → Bool) (bound : Nat) (events : List Event),
      Run.Throughout (fun s e => some (step s e)) Kept (launch drmFd lastInputFd others bound)
        events := by
  intro h
  have hrun := h 0 0 (fun _ => false) 0 [.open "/dev/dri/card0".toList (.device drm)]
  have hdrm := (hrun.2 _ rfl).drm
  exact absurd hdrm (by decide +kernel)

end DeltaPorts.Weston.Launch

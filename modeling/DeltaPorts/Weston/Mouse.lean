import DeltaPorts.Library.Feeding

/-!
# The mouse of the drm backend

`drm_sysmouse_handler` reads packets of eight bytes. The first byte of a packet has bit 7 set and
the last one has not; the handler looks for both in the first packet of the buffer.
-/

set_option autoImplicit false

namespace DeltaPorts.Weston.Sysmouse

open Feeding

abbrev Bytes := List UInt8

inductive Button where
  | left | middle | right
  deriving DecidableEq

/-- The bit of the button, which is set when the button is up. -/
def Button.bit : Button → UInt8
  | .left => 4
  | .middle => 2
  | .right => 1

/-- What the seat is told; the axis and the motion in 256ths. -/
inductive Notice where
  | axis (value : Int)
  | motion (x y : Int)
  | button (button : Button) (pressed : Bool)
  deriving DecidableEq

def byte (buf : Bytes) (i : Nat) : UInt8 := buf.getD i 0

/-- Plain `char` is signed. -/
def char (b : UInt8) : Int := b.toInt8.toInt

def wlFixedFromInt (i : Int) : Int := i * 256

def zdelta (b5 b6 : UInt8) : Int :=
  if 0 < char b5 ∧ char b6 = 0 then (((char b5).toNat ||| 0x80 : Nat) : Int) else char b5 + char b6

def notifyAxis (b5 b6 : UInt8) : Notice :=
  .axis (wlFixedFromInt ((Int8.ofInt (zdelta b5 b6)).toInt * 10))

def notifyMotion (xdelta ydelta : Int) : List Notice :=
  if xdelta ≠ 0 ∨ ydelta ≠ 0 then [.motion (wlFixedFromInt xdelta) (wlFixedFromInt ydelta)] else []

def notifyButton (button : Button) (nm oldmask : UInt8) : List Notice :=
  if nm &&& button.bit ≠ oldmask &&& button.bit then
    [.button button (decide (nm &&& button.bit = 0))]
  else []

/-- The body of the loop: what is notified, and `oldmask` after it. -/
def handleAt (buf : Bytes) (oldmask : UInt8) (k : Nat) : List Notice × UInt8 :=
  if buf.length - k < 8 ∨ byte buf 0 &&& 0x80 = 0 ∨ byte buf 7 &&& 0x80 ≠ 0 then ([], oldmask)
  else
    let xdelta := char (byte buf (k + 1)) + char (byte buf (k + 3))
    let ydelta := char (byte buf (k + 2)) + char (byte buf (k + 4))
    let ydelta := -ydelta
    let moved := notifyAxis (byte buf (k + 5)) (byte buf (k + 6)) :: notifyMotion xdelta ydelta
    let nm := byte buf k &&& 7
    if nm ≠ oldmask then
      (moved ++ (notifyButton .left nm oldmask ++ notifyButton .middle nm oldmask ++
        notifyButton .right nm oldmask), nm)
    else (moved, oldmask)

def starts (n : Nat) : List Nat := (List.range ((n + 7) / 8)).map (8 * ·)

/-- `drm_sysmouse_handler`, for what `read` has put into the buffer. -/
def handler (oldmask : UInt8) (buf : Bytes) : List Notice × UInt8 :=
  feed (handleAt buf) oldmask (starts buf.length)

/-- One call of a handler for each buffer, with what each of them notifies. -/
def calls (handler : UInt8 → Bytes → List Notice × UInt8) (oldmask : UInt8)
    (reads : List Bytes) : List (List Notice) × UInt8 :=
  feed (fun oldmask buf => ([(handler oldmask buf).1], (handler oldmask buf).2)) oldmask reads

/-- `static int oldmask = 7` -/
def firstMask : UInt8 := 7

def groups (buf : Bytes) : List Bytes :=
  (List.range (buf.length / 8)).map fun i => (buf.drop (8 * i)).take 8

def Valid (group : Bytes) : Prop := byte group 0 &&& 0x80 ≠ 0 ∧ byte group 7 &&& 0x80 = 0

instance (group : Bytes) : Decidable (Valid group) := inferInstanceAs (Decidable (_ ∧ _))

def validGroups (buf : Bytes) : List Bytes := (groups buf).filter fun group => decide (Valid group)

def motion (group : Bytes) : Int × Int :=
  (char (byte group 1) + char (byte group 3), -(char (byte group 2) + char (byte group 4)))

/-- The scrolling, the motion when it is not zero, and each button whose bit differs. -/
def act (oldmask : UInt8) (group : Bytes) : List Notice × UInt8 :=
  (notifyAxis (byte group 5) (byte group 6) ::
      notifyMotion (motion group).1 (motion group).2 ++
    [Button.left, .middle, .right].flatMap fun b => notifyButton b (byte group 0) oldmask,
    byte group 0 &&& 7)

def reference (oldmask : UInt8) (buf : Bytes) : List Notice × UInt8 :=
  feed act oldmask (validGroups buf)

def report (b : Button) (pressed : Bool) (notice : Notice) : Bool :=
  match notice with
  | .button b' p => if b' = b then p else pressed
  | _ => pressed

/-- Whether the button is down, as reported last; at first all are up. -/
def reported (notices : List Notice) (b : Button) : Bool := notices.foldl (report b) false

def encoded (group : Option Bytes) (b : Button) : Bool :=
  group.any fun g => byte g 0 &&& b.bit = 0

/-- Each call acts on the valid groups of its buffer, and the buttons are reported as the last
of all valid groups has them. -/
structure Decodes (reads : List Bytes) : Prop where
  notices : (calls handler firstMask reads).1 = (calls reference firstMask reads).1
  buttons : ∀ b, reported (calls handler firstMask reads).1.flatten b =
    encoded (reads.flatMap validGroups).getLast? b

/-- In each buffer the complete groups are all valid or none of them is. -/
def Uniform (buf : Bytes) : Prop :=
  (∀ group ∈ groups buf, Valid group) ∨ ∀ group ∈ groups buf, ¬ Valid group

/-- What the handler looks for, at the beginning of the buffer. -/
def FirstValid (buf : Bytes) : Prop := byte buf 0 &&& 0x80 ≠ 0 ∧ byte buf 7 &&& 0x80 = 0

instance (buf : Bytes) : Decidable (FirstValid buf) := inferInstanceAs (Decidable (_ ∧ _))

theorem byte_group (buf : Bytes) (k : Nat) {j : Nat} (hj : j < 8) :
    byte ((buf.drop k).take 8) j = byte buf (k + j) := by
  rw [byte, byte, List.getD_eq_getElem?_getD, List.getD_eq_getElem?_getD,
    List.getElem?_take_of_lt hj, List.getElem?_drop]

theorem filter_starts (n : Nat) :
    (starts n).filter (fun k => decide (8 ≤ n - k)) = (List.range (n / 8)).map (8 * ·) := by
  have hall : ((List.range (n / 8)).map (8 * ·)).filter (fun k => decide (8 ≤ n - k)) =
      (List.range (n / 8)).map (8 * ·) := by
    apply List.filter_eq_self.mpr
    intro k hk
    obtain ⟨i, hi, rfl⟩ := List.mem_map.mp hk
    have hlt := List.mem_range.mp hi
    apply decide_eq_true
    omega
  unfold starts
  by_cases hpartial : n % 8 = 0
  · have hn : (n + 7) / 8 = n / 8 := by omega
    rw [hn, hall]
  · have hn : (n + 7) / 8 = n / 8 + 1 := by omega
    have hlast : decide (8 ≤ n - 8 * (n / 8)) = false := by
      apply decide_eq_false
      omega
    rw [hn, List.range_succ, List.map_append, List.filter_append, hall, List.map_singleton,
      List.filter_singleton, hlast, cond_false, List.append_nil]

theorem and_seven (x : UInt8) (b : Button) : x &&& 7 &&& b.bit = x &&& b.bit := by
  rw [UInt8.and_assoc]
  cases b <;> rfl

theorem notifyButton_and_seven (b : Button) (x oldmask : UInt8) :
    notifyButton b (x &&& 7) oldmask = notifyButton b x oldmask := by
  rw [notifyButton, notifyButton, and_seven]

theorem handleAt_eq_act {buf : Bytes} (hfirst : FirstValid buf) {k : Nat} (hk : 8 ≤ buf.length - k)
    (oldmask : UInt8) : handleAt buf oldmask k = act oldmask ((buf.drop k).take 8) := by
  have hacts : ¬ (buf.length - k < 8 ∨ byte buf 0 &&& 0x80 = 0 ∨ byte buf 7 &&& 0x80 ≠ 0) := by
    rw [not_or, not_or, not_not]
    exact ⟨by omega, hfirst⟩
  unfold handleAt act motion
  rw [if_neg hacts, byte_group buf k (by omega), byte_group buf k (by omega),
    byte_group buf k (by omega), byte_group buf k (by omega), byte_group buf k (by omega),
    byte_group buf k (by omega), byte_group buf k (by omega)]
  simp only [notifyButton_and_seven, Nat.add_zero, List.flatMap_cons, List.flatMap_nil,
    List.append_nil, List.append_assoc]
  by_cases hsame : byte buf k &&& 7 = oldmask
  · -- no bit differs
    have hnone : ∀ b, notifyButton b (byte buf k) oldmask = [] := by
      intro b
      rw [notifyButton, ← hsame, and_seven, if_neg (not_not.mpr rfl)]
    rw [if_neg (not_not.mpr hsame), hnone, hnone, hnone, hsame]
    simp only [List.append_nil]
  · rw [if_pos hsame]

theorem handler_eq (oldmask : UInt8) (buf : Bytes) :
    handler oldmask buf = if FirstValid buf then feed act oldmask (groups buf) else ([], oldmask) := by
  unfold handler
  by_cases hfirst : FirstValid buf
  · have hskip : ∀ (mask : UInt8) (k : Nat), decide (8 ≤ buf.length - k) = false →
        handleAt buf mask k = ([], mask) := by
      intro mask k hk
      have hlt : buf.length - k < 8 := by
        have := of_decide_eq_false hk
        omega
      exact if_pos (.inl hlt)
    have hstarts : ∀ mask, ∀ k ∈ (List.range (buf.length / 8)).map (8 * ·),
        handleAt buf mask k = act mask ((buf.drop k).take 8) := by
      intro mask k hk
      obtain ⟨i, hi, rfl⟩ := List.mem_map.mp hk
      have hlt := List.mem_range.mp hi
      exact handleAt_eq_act hfirst (by omega) mask
    rw [if_pos hfirst, feed_filter (handleAt buf) hskip, filter_starts, feed_congr hstarts,
      feed_map act fun k => (buf.drop k).take 8, List.map_map]
    rfl
  · have hskip : ∀ (mask : UInt8) (k : Nat), (fun _ : Nat => false) k = false →
        handleAt buf mask k = ([], mask) := by
      intro mask k _
      have hcase : byte buf 0 &&& 0x80 = 0 ∨ byte buf 7 &&& 0x80 ≠ 0 := by
        rw [FirstValid, not_and_or, not_not] at hfirst
        exact hfirst
      exact if_pos (.inr hcase)
    rw [if_neg hfirst, feed_filter (handleAt buf) hskip, List.filter_false]
    rfl

theorem firstValid_iff {buf group : Bytes} {rest : List Bytes} (h : groups buf = group :: rest) :
    FirstValid buf ↔ Valid group := by
  have hgroup : (buf.drop 0).take 8 = group := by
    have hhead := congrArg List.head? h
    rw [groups, List.head?_map] at hhead
    cases hn : buf.length / 8 with
    | zero => simp [hn] at hhead
    | succ n => simpa [hn, List.range_succ_eq_map] using hhead
  unfold FirstValid Valid
  rw [← hgroup, byte_group buf 0 (by omega), byte_group buf 0 (by omega)]

theorem handler_eq_reference {buf : Bytes} (h : Uniform buf) (oldmask : UInt8) :
    handler oldmask buf = reference oldmask buf := by
  rw [handler_eq, reference, validGroups]
  cases hgroups : groups buf with
  | nil => split <;> rfl
  | cons group rest =>
    have hfirst := firstValid_iff hgroups
    rw [Uniform, hgroups] at h
    rcases h with h | h
    · have hall : (group :: rest).filter (fun g => decide (Valid g)) = group :: rest := by
        apply List.filter_eq_self.mpr
        exact fun g hg => decide_eq_true (h g hg)
      rw [if_pos (hfirst.mpr (h group List.mem_cons_self)), hall]
    · have hnone : (group :: rest).filter (fun g => decide (Valid g)) = [] := by
        apply List.filter_eq_nil_iff.mpr
        exact fun g hg => by simpa using h g hg
      rw [if_neg (mt hfirst.mp (h group List.mem_cons_self)), hnone]
      rfl

def Notice.isAxis : Notice → Bool
  | .axis _ => true
  | _ => false

/-- Each group that is acted on is seen by one notice of the axis. -/
theorem countP_act (oldmask : UInt8) (group : Bytes) :
    (act oldmask group).1.countP Notice.isAxis = 1 := by
  have hbutton : ∀ b, (notifyButton b (byte group 0) oldmask).countP Notice.isAxis = 0 := by
    intro b
    unfold notifyButton
    split <;> rfl
  have hmotion : (notifyMotion (motion group).1 (motion group).2).countP Notice.isAxis = 0 := by
    unfold notifyMotion
    split <;> rfl
  unfold act
  simp only [List.countP_append, List.countP_cons, hmotion, List.flatMap_cons, List.flatMap_nil,
    List.append_nil, hbutton]
  rfl

theorem uniform_of_notices_eq {buf : Bytes} {oldmask : UInt8}
    (h : (handler oldmask buf).1 = (reference oldmask buf).1) : Uniform buf := by
  have hcount := congrArg (List.countP Notice.isAxis) h
  rw [handler_eq, reference, countP_feed act countP_act, validGroups] at hcount
  by_cases hfirst : FirstValid buf
  · rw [if_pos hfirst, countP_feed act countP_act] at hcount
    left
    intro group hgroup
    have hall := List.length_filter_eq_length_iff.mp hcount.symm group hgroup
    exact of_decide_eq_true hall
  · rw [if_neg hfirst] at hcount
    right
    intro group hgroup
    have hnone := List.filter_eq_nil_iff.mp (List.length_eq_zero_iff.mp hcount.symm) group hgroup
    simpa using hnone

theorem calls_cons (h : UInt8 → Bytes → List Notice × UInt8) (oldmask : UInt8) (buf : Bytes)
    (reads : List Bytes) :
    calls h oldmask (buf :: reads) =
      ((h oldmask buf).1 :: (calls h (h oldmask buf).2 reads).1,
        (calls h (h oldmask buf).2 reads).2) := rfl

theorem calls_notices_eq_iff (oldmask : UInt8) (reads : List Bytes) :
    (calls handler oldmask reads).1 = (calls reference oldmask reads).1 ↔
      ∀ buf ∈ reads, Uniform buf := by
  induction reads generalizing oldmask with
  | nil => exact iff_of_true rfl fun buf hbuf => absurd hbuf List.not_mem_nil
  | cons buf reads ih =>
    rw [List.forall_mem_cons]
    rw [calls_cons, calls_cons, List.cons_eq_cons]
    constructor
    · intro h
      have huniform := uniform_of_notices_eq h.1
      refine ⟨huniform, (ih (handler oldmask buf).2).mp ?_⟩
      have hrest := h.2
      rw [← handler_eq_reference huniform] at hrest
      exact hrest
    · intro h
      rw [handler_eq_reference h.1]
      exact ⟨rfl, (ih (reference oldmask buf).2).mpr h.2⟩

theorem calls_reference (oldmask : UInt8) (reads : List Bytes) :
    (calls reference oldmask reads).1.flatten = (feed act oldmask (reads.flatMap validGroups)).1 := by
  induction reads generalizing oldmask with
  | nil => rfl
  | cons buf reads ih =>
    rw [List.flatMap_cons, feed_append, calls_cons, List.flatten_cons, ih]
    rfl

theorem report_notifyMotion (b : Button) (pressed : Bool) (xdelta ydelta : Int) :
    (notifyMotion xdelta ydelta).foldl (report b) pressed = pressed := by
  unfold notifyMotion
  split <;> rfl

theorem report_notifyButton (b b' : Button) (pressed : Bool) (nm oldmask : UInt8) :
    (notifyButton b' nm oldmask).foldl (report b) pressed =
      if b' = b ∧ nm &&& b'.bit ≠ oldmask &&& b'.bit then decide (nm &&& b'.bit = 0)
      else pressed := by
  unfold notifyButton
  by_cases hdiffers : nm &&& b'.bit ≠ oldmask &&& b'.bit
  · rw [if_pos hdiffers, List.foldl_cons, List.foldl_nil, report]
    by_cases hb : b' = b
    · rw [if_pos hb, if_pos ⟨hb, hdiffers⟩]
    · rw [if_neg hb, if_neg fun h => hb h.1]
  · rw [if_neg hdiffers, if_neg fun h => hdiffers h.2]
    rfl

/-- What is reported of a button follows its bit. -/
theorem report_act (oldmask : UInt8) (group : Bytes) (b : Button) :
    (act oldmask group).1.foldl (report b) (decide (oldmask &&& b.bit = 0)) =
      decide ((act oldmask group).2 &&& b.bit = 0) := by
  have hbit : (if byte group 0 &&& b.bit ≠ oldmask &&& b.bit then
      decide (byte group 0 &&& b.bit = 0) else decide (oldmask &&& b.bit = 0)) =
      decide (byte group 0 &&& b.bit = 0) := by
    split
    · rfl
    · rename_i hsame
      rw [not_not.mp hsame]
  have haxis : ∀ pressed b5 b6, report b pressed (notifyAxis b5 b6) = pressed :=
    fun _ _ _ => rfl
  unfold act
  simp only [List.foldl_append, List.foldl_cons, List.flatMap_cons, List.flatMap_nil,
    List.append_nil, haxis, report_notifyMotion, report_notifyButton, and_seven]
  cases b with
  | left => simpa using hbit
  | middle => simpa using hbit
  | right => simpa using hbit

theorem report_feed (oldmask : UInt8) (gs : List Bytes) (b : Button) :
    (feed act oldmask gs).1.foldl (report b) (decide (oldmask &&& b.bit = 0)) =
      decide ((feed act oldmask gs).2 &&& b.bit = 0) := by
  induction gs generalizing oldmask with
  | nil => rfl
  | cons group gs ih =>
    rw [feed, List.foldl_append, report_act, ih]

theorem mask_feed (oldmask : UInt8) (gs : List Bytes) :
    (feed act oldmask gs).2 = (gs.getLast?.map fun g => byte g 0 &&& 7).getD oldmask := by
  rcases List.eq_nil_or_concat' gs with rfl | ⟨front, group, rfl⟩
  · rfl
  · rw [feed_append, List.getLast?_concat]
    rfl

theorem reported_reference (reads : List Bytes) (b : Button) :
    reported (calls reference firstMask reads).1.flatten b =
      encoded (reads.flatMap validGroups).getLast? b := by
  have hfirst : decide (firstMask &&& b.bit = 0) = false := by
    cases b <;> rfl
  rw [reported, calls_reference, ← hfirst, report_feed, mask_feed]
  cases (reads.flatMap validGroups).getLast? with
  | none => exact hfirst
  | some group =>
    rw [Option.map_some, Option.getD_some, and_seven]
    rfl

/-- The handler decodes all buffers exactly when in none of them valid and invalid groups are
mixed. -/
theorem decodes_iff (reads : List Bytes) : Decodes reads ↔ ∀ buf ∈ reads, Uniform buf := by
  constructor
  · intro h
    exact (calls_notices_eq_iff firstMask reads).mp h.notices
  · intro h
    have hnotices := (calls_notices_eq_iff firstMask reads).mpr h
    refine ⟨hnotices, fun b => ?_⟩
    rw [hnotices]
    exact reported_reference reads b

def moveRight (sync : UInt8) : Bytes := [sync, 5, 0, 0, 0, 0, 0, 0x7f]

/-- Of the second packet the first byte has not come through. -/
theorem invalid_group_acted_on : ¬ ∀ reads : List Bytes, Decodes reads := by
  intro h
  have hnotices := (h [moveRight 0x87 ++ moveRight 0x07]).notices
  exact absurd hnotices (by decide +kernel)

end DeltaPorts.Weston.Sysmouse

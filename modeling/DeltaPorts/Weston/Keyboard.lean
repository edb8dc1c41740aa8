import DeltaPorts.Library.Feeding
import Mathlib.Data.List.Destutter
import Mathlib.Data.List.Nodup
import Mathlib.Data.List.Perm.Subperm
import Mathlib.Logic.Function.Basic

/-!
# kbdev

`kbdev_read_events` turns the bytes of the keyboard into events and keeps the list of the keys
that are held down. How many bytes a `read` gives, and when it gives none, is not known: the
events are the same however the bytes come in.
-/

set_option autoImplicit false

namespace DeltaPorts.Weston.Kbdev

open Feeding

/-- `struct kbdev_event` -/
structure Event where
  keycode : Nat
  pressed : Bool
  deriving DecidableEq

/-- As in `sys/dev/misc/kbd/atkbd.c`, from DragonFly to evdev key values; 0 elsewhere. -/
def codeToKey (code : Nat) : Nat :=
  ([(0x54, 99), (0x59, 96), (0x5a, 97), (0x5b, 98), (0x5c, 210), (0x5d, 100), (0x5e, 102),
    (0x5f, 103), (0x60, 104), (0x61, 105), (0x62, 106), (0x63, 107), (0x64, 108), (0x65, 109),
    (0x66, 110), (0x67, 111), (0x68, 119), (0x69, 125), (0x6a, 126), (0x6b, 139),
    (0x6c, 0x19b)].lookup code).getD 0

def atcodeToEvent (atcode : UInt8) : Event :=
  let code := if atcode &&& 0x7f ≤ 0x58 then (atcode &&& 0x7f).toNat
    else codeToKey (atcode &&& 0x7f).toNat
  -- Fixes e.g. the '<' key which lies between 0x50 and 0x58
  let code := if code = 0 then (atcode &&& 0x7f).toNat else code
  { keycode := code, pressed := decide (atcode &&& 0x80 = 0) }

/-- `struct kbdev_state`; the array may hold anything from `npressed` on. -/
structure State where
  lastreadCode : UInt8
  pressed : Nat → UInt8
  npressed : Nat

def ispressed (state : State) (code : UInt8) : Bool :=
  (List.range state.npressed).any fun i => state.pressed i == code

def press (state : State) (code : UInt8) : State :=
  if ispressed state code then state
  else { state with
    pressed := Function.update state.pressed state.npressed code
    npressed := state.npressed + 1 }

/-- `memcpy(&pressed[i], &pressed[i+1], n)` -/
def moveDown (pressed : Nat → UInt8) (i n : Nat) : Nat → UInt8 :=
  fun j => if i ≤ j ∧ j < i + n then pressed (j + 1) else pressed j

/-- The loop of `release` from `i` on, for at most so many rounds. -/
def releaseFrom (code : UInt8) : Nat → Nat → State → State
  | 0, _, state => state
  | rounds + 1, i, state =>
    if i < state.npressed then
      if state.pressed i = code then
        releaseFrom code rounds (i + 1) { state with
          pressed := moveDown state.pressed i (state.npressed - 1 - i)
          npressed := state.npressed - 1 }
      else releaseFrom code rounds (i + 1) state
    else state

def release (state : State) (code : UInt8) : State := releaseFrom code state.npressed 0 state

def resetState (state : State) : State := { state with lastreadCode := 0, npressed := 0 }

/-- The body of the `for` loop, for one byte of the buffer. -/
def readByte (state : State) (byte : UInt8) : List Event × State :=
  if state.lastreadCode = byte ∧ byte &&& 0x80 = 0 then ([], state)
  else
    let ev := atcodeToEvent byte
    if ev.keycode = 0 then ([], state)
    else
      let state := { state with lastreadCode := byte }
      let state := if ev.pressed then press state (byte &&& 0x7f)
        else release state (byte &&& 0x7f)
      ([ev], state)

/-- What a `read` does: it gives at least one and at most so many more of the bytes that are
there, or it fails with `EAGAIN`, or it reports the end of the file. -/
inductive Answer where
  | bytes (more : Nat)
  | eagain
  | eof

/-- The most bytes the answer stands for. -/
def Answer.most : Answer → Nat
  | .bytes more => more + 1
  | .eagain => 0
  | .eof => 0

def Answer.gives (answer : Answer) : Bool := answer.most ≠ 0

/-- The most bytes that answers stand for, up to the first that gives none. -/
def offered : List Answer → Nat
  | [] => 0
  | answer :: answers => if answer.gives then answer.most + offered answers else 0

/-- `read` with room for `size` bytes; nothing for an error or the end of the file. -/
def read (answer : Answer) (size : Nat) (stream : List UInt8) : List UInt8 :=
  match answer with
  | .bytes more => stream.take (min (more + 1) size)
  | .eagain => []
  | .eof => []

/-- The `while` loop, with the events in `out` so far. -/
def readLoop (cnt : Int) : List Answer → State → List UInt8 → List Event →
    List Event × State × List UInt8
  | [], state, stream, out => (out, state, stream)
  | answer :: answers, state, stream, out =>
    if out.length < cnt then
      let buf := read answer (min (cnt.toNat - out.length) 128) stream
      if buf = [] then (out, state, stream)
      else
        let fed := feed readByte state buf
        readLoop cnt answers fed.2 (stream.drop buf.length) (out ++ fed.1)
    else (out, state, stream)

/-- The events, and what is not read yet. A call that reads more often than there are answers
gets `EAGAIN`. -/
def readEvents (state : State) (cnt : Int) (answers : List Answer) (stream : List UInt8) :
    List Event × State × List UInt8 := readLoop cnt answers state stream []

/-- One call after the other: the events of each, the state and the bytes left. -/
def calls : List (Int × List Answer) → State → List UInt8 →
    List (List Event) × State × List UInt8
  | [], state, stream => ([], state, stream)
  | (cnt, answers) :: rest, state, stream =>
    let r := readEvents state cnt answers stream
    let rs := calls rest r.2.1 r.2.2
    (r.1 :: rs.1, rs.2)

def isPress (byte : UInt8) : Prop := byte &&& 0x80 = 0

instance (byte : UInt8) : Decidable (isPress byte) := inferInstanceAs (Decidable (_ = _))

/-- Bytes that stand for a key: all but 0x00 and 0x80. -/
def isKey (byte : UInt8) : Bool := byte ≠ 0x00 && byte ≠ 0x80

/-- Runs of the same press are one press. -/
def decode (bytes : List UInt8) : List Event :=
  ((bytes.filter isKey).destutter fun a b => ¬ (a = b ∧ isPress b)).map atcodeToEvent

/-- The keys held down, as the array has them. -/
def held (state : State) : List UInt8 := (List.range state.npressed).map state.pressed

/-- The latest byte of the key was a press. -/
def Down (bytes : List UInt8) (key : UInt8) : Prop :=
  ∃ byte, ((bytes.filter isKey).filter fun b => b &&& 0x7f = key).getLast? = some byte ∧
    isPress byte

/-- What one call takes of the bytes that are there: what its reads give, up to the first one
that gives nothing, unless it comes to its limit. -/
structure Takes (cnt : Int) (answers : List Answer) (stream bytes : List UInt8)
    (out : List Event) : Prop where
  atMost : bytes.length ≤ offered answers
  atLeast : (out.length : Int) < cnt →
    min stream.length (answers.takeWhile Answer.gives).length ≤ bytes.length
  limit : out.length ≤ cnt.toNat

/-- What each of the calls takes, from the stream down to the bytes that are left. -/
inductive Taken : List (Int × List Answer) → List UInt8 → List (List UInt8) →
    List (List Event) → List UInt8 → Prop where
  | nil {left : List UInt8} : Taken [] left [] [] left
  | cons {cnt : Int} {answers : List Answer} {cs : List (Int × List Answer)}
      {bytes rest left : List UInt8} {taken : List (List UInt8)} {out : List Event}
      {events : List (List Event)} :
      Takes cnt answers (bytes ++ rest) bytes out → Taken cs rest taken events left →
      Taken ((cnt, answers) :: cs) (bytes ++ rest) (bytes :: taken) (out :: events) left

/-- What the calls give for the bytes they have read, and the keys after them. -/
structure Delivers (bytes : List UInt8) (events : List (List Event)) (state : State) : Prop where
  decoded : events.flatten = decode bytes
  nodup : (held state).Nodup
  atMost : state.npressed ≤ 127
  down : ∀ key, key ∈ held state ↔ Down bytes key

theorem forall_byte {P : UInt8 → Prop} (h : ∀ n : Fin 256, P (UInt8.ofNat n)) (byte : UInt8) :
    P byte := by
  have hbyte := h ⟨byte.toNat, byte.toNat_lt⟩
  rwa [UInt8.ofNat_toNat] at hbyte

theorem isKey_iff (byte : UInt8) : isKey byte = true ↔ byte &&& 0x7f ≠ 0 :=
  forall_byte (P := fun byte => isKey byte = true ↔ byte &&& 0x7f ≠ 0) (by decide +kernel) byte

theorem and_lt (byte : UInt8) : (byte &&& 0x7f).toNat < 128 :=
  forall_byte (P := fun byte => (byte &&& 0x7f).toNat < 128) (by decide +kernel) byte

/-- Only the bytes that stand for no key have no key code. -/
theorem keycode_eq_zero_iff (byte : UInt8) :
    (atcodeToEvent byte).keycode = 0 ↔ isKey byte = false := by
  have hzero : byte &&& 0x7f = 0 ↔ (byte &&& 0x7f).toNat = 0 := by
    rw [← UInt8.toNat_inj]
    rfl
  rw [← Bool.not_eq_true, isKey_iff, not_not, hzero]
  simp only [atcodeToEvent]
  by_cases hlow : byte &&& 0x7f ≤ 0x58
  · rw [if_pos hlow]
    split
    · exact Iff.rfl
    · exact Iff.rfl
  · rw [if_neg hlow]
    split
    · exact Iff.rfl
    · rename_i hcode
      refine iff_of_false hcode ?_
      intro hfalse
      rw [hzero.mpr hfalse] at hlow
      exact hlow (by decide)

variable {state : State} {code byte : UInt8}

theorem length_held (state : State) : (held state).length = state.npressed := by
  rw [held, List.length_map, List.length_range]

theorem ispressed_iff : ispressed state code = true ↔ code ∈ held state := by
  rw [ispressed, List.any_eq_true, held, List.mem_map]
  simp only [beq_iff_eq]

theorem getElem?_held (state : State) {i : Nat} (h : i < state.npressed) :
    (held state)[i]? = some (state.pressed i) := by
  rw [held, List.getElem?_map, List.getElem?_range h]
  rfl

theorem held_press (state : State) (code : UInt8) :
    held (press state code) = if code ∈ held state then held state else held state ++ [code] := by
  unfold press
  by_cases h : code ∈ held state
  · rw [if_pos (ispressed_iff.mpr h), if_pos h]
  · rw [if_neg (mt ispressed_iff.mp h), if_neg h]
    unfold held
    simp only [List.range_succ, List.map_append, List.map_singleton, Function.update_self]
    congr 1
    apply List.map_congr_left
    intro i hi
    have hlt := List.mem_range.mp hi
    exact Function.update_of_ne (by omega) _ _

/-- The key at the position `i` is taken out, and those behind it move down. -/
theorem held_moveDown {before after : List UInt8} (h : held state = before ++ code :: after) :
    held { state with
      pressed := moveDown state.pressed before.length (state.npressed - 1 - before.length)
      npressed := state.npressed - 1 } = before ++ after := by
  have hlen := length_held state
  rw [h, List.length_append, List.length_cons] at hlen
  have hget : ∀ i, i < state.npressed →
      (before ++ code :: after)[i]? = some (state.pressed i) := by
    intro i hi
    rw [← h]
    exact getElem?_held state hi
  apply List.ext_getElem?
  intro i
  by_cases hi : i < state.npressed - 1
  · rw [getElem?_held _ hi]
    by_cases hbefore : i < before.length
    · have hsame := hget i (by omega)
      rw [List.getElem?_append_left hbefore] at hsame ⊢
      have hnot : ¬ (before.length ≤ i ∧
          i < before.length + (state.npressed - 1 - before.length)) := by omega
      rw [hsame]
      simp only [moveDown, if_neg hnot]
    · have hnext := hget (i + 1) (by omega)
      rw [List.getElem?_append_right (by omega), Nat.sub_add_comm (by omega),
        List.getElem?_cons_succ] at hnext
      rw [List.getElem?_append_right (by omega), hnext]
      simp only [moveDown]
      rw [if_pos (by omega)]
  · rw [List.getElem?_eq_none, List.getElem?_eq_none]
    · rw [List.length_append]
      omega
    · rw [length_held]
      simp only
      omega

/-- Where the key does not occur any more, the loop changes nothing. -/
theorem releaseFrom_eq_self {i : Nat} (rounds : Nat)
    (h : ∀ j, i ≤ j → j < state.npressed → state.pressed j ≠ code) :
    releaseFrom code rounds i state = state := by
  induction rounds generalizing i with
  | zero => rfl
  | succ rounds ih =>
    unfold releaseFrom
    by_cases hi : i < state.npressed
    · rw [if_pos hi, if_neg (h i (Nat.le_refl i) hi)]
      exact ih fun j hj => h j (by omega)
    · rw [if_neg hi]

theorem held_releaseFrom (code : UInt8) {before after : List UInt8} (rounds : Nat)
    (h : held state = before ++ after) (hnodup : after.Nodup) (hrounds : after.length ≤ rounds) :
    held (releaseFrom code rounds before.length state) = before ++ after.erase code := by
  induction after generalizing before rounds with
  | nil =>
    have hlen := length_held state
    rw [h, List.append_nil] at hlen
    rw [releaseFrom_eq_self rounds (fun j hj hlt => by omega), h]
    rfl
  | cons c after ih =>
    rw [List.nodup_cons] at hnodup
    rw [List.length_cons] at hrounds
    obtain ⟨rounds, rfl⟩ : ∃ n, rounds = n + 1 := ⟨rounds - 1, by omega⟩
    have hlen := length_held state
    rw [h, List.length_append, List.length_cons] at hlen
    have hget : state.pressed before.length = c := by
      have hc := getElem?_held state (show before.length < state.npressed by omega)
      rw [h, List.getElem?_append_right (Nat.le_refl _), Nat.sub_self] at hc
      exact (Option.some.inj hc).symm
    unfold releaseFrom
    rw [if_pos (by omega)]
    by_cases hcode : c = code
    · subst hcode
      have hmoved := held_moveDown h
      rw [if_pos hget, List.erase_cons_head, releaseFrom_eq_self, hmoved]
      -- the loop goes on behind the element that has moved down
      intro j hj hlt heq
      have hj' := getElem?_held _ hlt
      rw [hmoved, List.getElem?_append_right (by omega), heq] at hj'
      exact hnodup.1 (List.mem_of_getElem? hj')
    · have happend : held state = (before ++ [c]) ++ after := by
        rw [h, List.append_assoc]
        rfl
      have hrest := ih rounds happend hnodup.2 (by omega)
      rw [List.length_append, List.length_singleton] at hrest
      rw [if_neg (hget.symm ▸ hcode), List.erase_cons_tail (by simpa using hcode), hrest,
        List.append_assoc]
      rfl

theorem held_release (hnodup : (held state).Nodup) (code : UInt8) :
    held (release state code) = (held state).erase code :=
  @held_releaseFrom state code [] (held state) state.npressed rfl hnodup
    (Nat.le_of_eq (length_held state))

theorem readByte_of_not_key (state : State) (h : isKey byte = false) :
    readByte state byte = ([], state) := by
  unfold readByte
  split
  · rfl
  · simp only [if_pos ((keycode_eq_zero_iff byte).mpr h)]

theorem readByte_of_repeat (h : state.lastreadCode = byte ∧ isPress byte) :
    readByte state byte = ([], state) := if_pos h

theorem readByte_of_key (hkey : isKey byte = true) (h : ¬ (state.lastreadCode = byte ∧ isPress byte)) :
    readByte state byte = ([atcodeToEvent byte],
      if isPress byte then press { state with lastreadCode := byte } (byte &&& 0x7f)
      else release { state with lastreadCode := byte } (byte &&& 0x7f)) := by
  have hcode : (atcodeToEvent byte).keycode ≠ 0 := by
    rw [ne_eq, keycode_eq_zero_iff, hkey]
    decide
  have hpressed : (atcodeToEvent byte).pressed = decide (isPress byte) := rfl
  have hnew : ¬ (state.lastreadCode = byte ∧ byte &&& 0x80 = 0) := h
  unfold readByte
  rw [if_neg hnew]
  simp only [if_neg hcode, hpressed, decide_eq_true_eq]

theorem length_readByte_le (state : State) (byte : UInt8) : (readByte state byte).1.length ≤ 1 := by
  cases hkey : isKey byte with
  | false =>
    rw [readByte_of_not_key state hkey]
    exact Nat.zero_le 1
  | true =>
    by_cases h : state.lastreadCode = byte ∧ isPress byte
    · rw [readByte_of_repeat h]
      exact Nat.zero_le 1
    · rw [readByte_of_key hkey h]
      exact Nat.le_refl 1

theorem lastreadCode_press (state : State) (code : UInt8) :
    (press state code).lastreadCode = state.lastreadCode := by
  unfold press
  split <;> rfl

theorem lastreadCode_releaseFrom (rounds i : Nat) (state : State) :
    (releaseFrom code rounds i state).lastreadCode = state.lastreadCode := by
  induction rounds generalizing i state with
  | zero => rfl
  | succ rounds ih =>
    unfold releaseFrom
    split
    · split
      · rw [ih]
      · rw [ih]
    · rfl

theorem lastreadCode_of_key (hkey : isKey byte = true)
    (h : ¬ (state.lastreadCode = byte ∧ isPress byte)) :
    (readByte state byte).2.lastreadCode = byte := by
  rw [readByte_of_key hkey h]
  dsimp only
  split
  · rw [lastreadCode_press]
  · rw [release, lastreadCode_releaseFrom]

theorem nodup_held_readByte (hkey : isKey byte = true)
    (h : ¬ (state.lastreadCode = byte ∧ isPress byte)) (hnodup : (held state).Nodup) :
    (held (readByte state byte).2).Nodup := by
  have hread : (held { state with lastreadCode := byte }).Nodup := hnodup
  rw [readByte_of_key hkey h]
  dsimp only
  split
  · rw [held_press]
    split
    · exact hnodup
    · rename_i hnew
      exact hnodup.append (List.nodup_singleton _) (List.disjoint_singleton.mpr hnew)
  · rw [held_release hread]
    exact hread.erase _

/-- The byte decides about its own key only. -/
theorem mem_held_readByte (hkey : isKey byte = true)
    (h : ¬ (state.lastreadCode = byte ∧ isPress byte)) (hnodup : (held state).Nodup)
    (key : UInt8) :
    key ∈ held (readByte state byte).2 ↔
      if byte &&& 0x7f = key then isPress byte else key ∈ held state := by
  have hread : (held { state with lastreadCode := byte }).Nodup := hnodup
  have hheld : held { state with lastreadCode := byte } = held state := rfl
  rw [readByte_of_key hkey h]
  dsimp only
  by_cases hpress : isPress byte
  · rw [if_pos hpress, held_press, hheld]
    by_cases hsame : byte &&& 0x7f = key
    · subst hsame
      rw [if_pos rfl]
      refine iff_of_true ?_ hpress
      split
      · assumption
      · exact List.mem_append_right _ List.mem_cons_self
    · rw [if_neg hsame]
      split
      · exact Iff.rfl
      · rw [List.mem_append, List.mem_singleton]
        exact or_iff_left fun heq => hsame heq.symm
  · rw [if_neg hpress, held_release hread, hheld, hnodup.mem_erase_iff]
    by_cases hsame : byte &&& 0x7f = key
    · rw [if_pos hsame]
      exact iff_of_false (fun hmem => hmem.1 hsame.symm) hpress
    · rw [if_neg hsame]
      exact and_iff_right fun heq => hsame heq.symm

/-- What is left of the bytes behind `last`. -/
def collapse (last : UInt8) : List UInt8 → List UInt8
  | [] => []
  | b :: bs => if last = b ∧ isPress b then collapse last bs else b :: collapse b bs

theorem destutter'_eq_collapse (last : UInt8) (bytes : List UInt8) :
    bytes.destutter' (fun a b => ¬ (a = b ∧ isPress b)) last = last :: collapse last bytes := by
  induction bytes generalizing last with
  | nil => rfl
  | cons b bs ih =>
    rw [collapse]
    by_cases h : last = b ∧ isPress b
    · rw [List.destutter'_cons_neg _ (not_not.mpr h), if_pos h, ih]
    · rw [List.destutter'_cons_pos _ h, if_neg h, ih]

/-- No key byte is 0, where the codes start. -/
theorem decode_eq (bytes : List UInt8) :
    decode bytes = (collapse 0 (bytes.filter isKey)).map atcodeToEvent := by
  unfold decode
  congr 1
  cases h : bytes.filter isKey with
  | nil => rfl
  | cons b bs =>
    have hkey : isKey b = true := (List.mem_filter.mp (h ▸ List.mem_cons_self : b ∈ bytes.filter isKey)).2
    have hne : ¬ (0 = b ∧ isPress b) := by
      intro hzero
      rw [← hzero.1] at hkey
      cases hkey
    rw [List.destutter_cons', destutter'_eq_collapse, collapse, if_neg hne]

theorem feed_events (state : State) (bytes : List UInt8) :
    (feed readByte state bytes).1 =
      (collapse state.lastreadCode (bytes.filter isKey)).map atcodeToEvent := by
  induction bytes generalizing state with
  | nil => rfl
  | cons b bs ih =>
    rw [feed, ih]
    cases hkey : isKey b with
    | false =>
      rw [readByte_of_not_key state hkey, List.filter_cons_of_neg (by simp [hkey])]
      rfl
    | true =>
      rw [List.filter_cons_of_pos hkey, collapse]
      by_cases h : state.lastreadCode = b ∧ isPress b
      · rw [readByte_of_repeat h, if_pos h]
        rfl
      · rw [lastreadCode_of_key hkey h, if_neg h, readByte_of_key hkey h]
        rfl

/-- The latest byte of each key, and the latest byte of all, as the state has them. -/
structure Tracks (bytes : List UInt8) (state : State) : Prop where
  last : state.lastreadCode = ((bytes.filter isKey).getLast?).getD 0
  nodup : (held state).Nodup
  down : ∀ key, key ∈ held state ↔ Down bytes key

theorem tracks_resetState (state : State) : Tracks [] (resetState state) where
  last := rfl
  nodup := List.nodup_nil
  down key := iff_of_false List.not_mem_nil (by simp [Down])

theorem down_of_not_key (h : isKey byte = false) (bytes : List UInt8) (key : UInt8) :
    Down (bytes ++ [byte]) key ↔ Down bytes key := by
  unfold Down
  rw [List.filter_append, List.filter_singleton, h, cond_false, List.append_nil]

theorem down_concat (h : isKey byte = true) (bytes : List UInt8) (key : UInt8) :
    Down (bytes ++ [byte]) key ↔
      if byte &&& 0x7f = key then isPress byte else Down bytes key := by
  unfold Down
  rw [List.filter_append, List.filter_singleton, h, cond_true, List.filter_append,
    List.filter_singleton]
  by_cases hkey : byte &&& 0x7f = key
  · simp [hkey]
  · simp [hkey]

theorem getLast?_filter {l : List UInt8} {b : UInt8} {p : UInt8 → Bool}
    (h : l.getLast? = some b) (hb : p b = true) : (l.filter p).getLast? = some b := by
  obtain ⟨front, rfl⟩ := List.getLast?_eq_some_iff.mp h
  rw [List.filter_append, List.filter_singleton, hb, cond_true, List.getLast?_concat]

/-- A press that is repeated is that of a key held down. -/
theorem Tracks.mem_of_repeat {bytes : List UInt8} (h : Tracks bytes state)
    (hkey : isKey state.lastreadCode = true) (hpress : isPress state.lastreadCode) :
    state.lastreadCode &&& 0x7f ∈ held state := by
  refine (h.down _).mpr ⟨state.lastreadCode, ?_, hpress⟩
  cases hlast : (bytes.filter isKey).getLast? with
  | none =>
    have hzero := h.last
    rw [hlast] at hzero
    rw [hzero] at hkey
    cases hkey
  | some b =>
    have hb := h.last
    rw [hlast] at hb
    rw [hb]
    exact getLast?_filter hlast (decide_eq_true rfl)

theorem Tracks.step {bytes : List UInt8} (h : Tracks bytes state) (byte : UInt8) :
    Tracks (bytes ++ [byte]) (readByte state byte).2 := by
  cases hkey : isKey byte with
  | false =>
    rw [readByte_of_not_key state hkey]
    refine ⟨?_, h.nodup, fun key => ?_⟩
    · rw [List.filter_append, List.filter_singleton, hkey, cond_false, List.append_nil]
      exact h.last
    · rw [down_of_not_key hkey]
      exact h.down key
  | true =>
    have hlast : (((bytes ++ [byte]).filter isKey).getLast?).getD 0 = byte := by
      rw [List.filter_append, List.filter_singleton, hkey, cond_true, List.getLast?_concat]
      rfl
    by_cases hrepeat : state.lastreadCode = byte ∧ isPress byte
    · rw [readByte_of_repeat hrepeat]
      obtain ⟨rfl, hpress⟩ := hrepeat
      refine ⟨hlast.symm, h.nodup, fun key => ?_⟩
      rw [down_concat hkey]
      by_cases hsame : state.lastreadCode &&& 0x7f = key
      · rw [if_pos hsame, ← hsame]
        exact iff_of_true (h.mem_of_repeat hkey hpress) hpress
      · rw [if_neg hsame]
        exact h.down key
    · refine ⟨(lastreadCode_of_key hkey hrepeat).trans hlast.symm,
        nodup_held_readByte hkey hrepeat h.nodup, fun key => ?_⟩
      rw [mem_held_readByte hkey hrepeat h.nodup, down_concat hkey]
      by_cases hsame : byte &&& 0x7f = key
      · rw [if_pos hsame, if_pos hsame]
      · rw [if_neg hsame, if_neg hsame]
        exact h.down key

theorem tracks_feed (state : State) (bytes : List UInt8) :
    Tracks bytes (feed readByte (resetState state) bytes).2 :=
  feed_keeps readByte (tracks_resetState state)
    (fun _ _ byte h => h.step byte) bytes

theorem read_prefix (answer : Answer) (size : Nat) (stream : List UInt8) :
    read answer size stream <+: stream ∧ (read answer size stream).length ≤ size := by
  cases answer with
  | bytes more =>
    refine ⟨List.take_prefix _ _, ?_⟩
    rw [read, List.length_take]
    omega
  | eagain => exact ⟨List.nil_prefix, Nat.zero_le _⟩
  | eof => exact ⟨List.nil_prefix, Nat.zero_le _⟩

/-- A read that gives bytes takes one of the stream at least. -/
theorem length_read (answer : Answer) {size : Nat} (hsize : 0 < size) (stream : List UInt8) :
    (read answer size stream).length ≤ answer.most ∧
      (answer.gives = true → stream ≠ [] → read answer size stream ≠ []) ∧
      (answer.gives = false → read answer size stream = []) := by
  cases answer with
  | bytes more =>
    have hlen : (read (.bytes more) size stream).length =
        min (min (more + 1) size) stream.length := List.length_take
    refine ⟨?_, fun _ hne hnil => ?_, fun h => by cases h⟩
    · rw [hlen, Answer.most]
      omega
    · have hpos := List.length_pos_iff.mpr hne
      rw [hnil, List.length_nil] at hlen
      omega
  | eagain => exact ⟨Nat.le_refl 0, (by cases ·), fun _ => rfl⟩
  | eof => exact ⟨Nat.le_refl 0, (by cases ·), fun _ => rfl⟩

/-- What a call makes of the bytes that it takes from the stream. -/
structure Fed (cnt : Int) (answers : List Answer) (state : State) (stream : List UInt8)
    (out : List Event) (bytes : List UInt8) (r : List Event × State × List UInt8) : Prop where
  taken : stream = bytes ++ r.2.2
  atMost : bytes.length ≤ offered answers
  atLeast : (r.1.length : Int) < cnt →
    min stream.length (answers.takeWhile Answer.gives).length ≤ bytes.length
  events : r.1 = out ++ (feed readByte state bytes).1
  state : r.2.1 = (feed readByte state bytes).2
  limit : out.length ≤ cnt.toNat → r.1.length ≤ cnt.toNat

/-- A call stops at its limit, or where nothing is read. -/
theorem Fed.stop {cnt : Int} {answers : List Answer} {state : State} {stream : List UInt8}
    {out : List Event} (h : (out.length : Int) < cnt →
      stream = [] ∨ answers.takeWhile Answer.gives = []) :
    Fed cnt answers state stream out [] (out, state, stream) where
  taken := rfl
  atMost := Nat.zero_le _
  atLeast hroom := by
    rcases h hroom with h | h
    · simp [h]
    · simp [h]
  events := (List.append_nil out).symm
  state := rfl
  limit := id

theorem readLoop_fed (cnt : Int) (answers : List Answer) (state : State) (stream : List UInt8)
    (out : List Event) :
    ∃ bytes, Fed cnt answers state stream out bytes (readLoop cnt answers state stream out) := by
  induction answers generalizing state stream out with
  | nil => exact ⟨[], Fed.stop fun _ => Or.inr rfl⟩
  | cons answer answers ih =>
    unfold readLoop
    by_cases hroom : (out.length : Int) < cnt
    · rw [if_pos hroom]
      have hsize : 0 < min (cnt.toNat - out.length) 128 := by omega
      obtain ⟨hfront, hlimit⟩ := read_prefix answer (min (cnt.toNat - out.length) 128) stream
      obtain ⟨hmost, hgives, hnone⟩ := length_read answer hsize stream
      generalize read answer (min (cnt.toNat - out.length) 128) stream = buf
        at hfront hlimit hmost hgives hnone
      dsimp only
      by_cases hbuf : buf = []
      · rw [if_pos hbuf]
        refine ⟨[], Fed.stop fun _ => ?_⟩
        by_cases hanswer : answer.gives = true
        · exact Or.inl (not_not.mp fun hne => hgives hanswer hne hbuf)
        · exact Or.inr (List.takeWhile_cons_of_neg hanswer)
      · rw [if_neg hbuf]
        have hanswer : answer.gives = true := by
          by_contra hfalse
          exact hbuf (hnone (Bool.not_eq_true _ ▸ hfalse))
        obtain ⟨rest, rfl⟩ := hfront
        rw [List.drop_left]
        obtain ⟨bytes, h⟩ := ih (feed readByte state buf).2 rest (out ++ (feed readByte state buf).1)
        have hpos := List.length_pos_iff.mpr hbuf
        refine ⟨buf ++ bytes, ?_, ?_, fun hless => ?_, ?_, ?_, fun _ => h.limit ?_⟩
        · rw [List.append_assoc, ← h.taken]
        · have hrest := h.atMost
          rw [offered, if_pos hanswer, List.length_append]
          omega
        · have hrest := h.atLeast hless
          rw [List.takeWhile_cons_of_pos hanswer, List.length_cons, List.length_append,
            List.length_append]
          omega
        · rw [h.events, feed_append, List.append_assoc]
        · rw [h.state, feed_append]
        · have hlen := length_feed_le readByte length_readByte_le state buf
          rw [List.length_append]
          omega
    · rw [if_neg hroom]
      exact ⟨[], Fed.stop fun h => absurd h hroom⟩

theorem calls_feed (cs : List (Int × List Answer)) (state : State) (stream : List UInt8) :
    ∃ taken, Taken cs stream taken (calls cs state stream).1 (calls cs state stream).2.2 ∧
      (calls cs state stream).1.flatten = (feed readByte state taken.flatten).1 ∧
      (calls cs state stream).2.1 = (feed readByte state taken.flatten).2 := by
  induction cs generalizing state stream with
  | nil => exact ⟨[], .nil, rfl, rfl⟩
  | cons call cs ih =>
    obtain ⟨cnt, answers⟩ := call
    obtain ⟨bytes, h⟩ := readLoop_fed cnt answers state stream []
    obtain ⟨taken, htaken, hevents, hstate⟩ :=
      ih (readEvents state cnt answers stream).2.1 (readEvents state cnt answers stream).2.2
    have hfed : (readEvents state cnt answers stream).2.1 = (feed readByte state bytes).2 := h.state
    have hstream : stream = bytes ++ (readEvents state cnt answers stream).2.2 := h.taken
    refine ⟨bytes :: taken, ?_, ?_, ?_⟩
    · have htakes : Takes cnt answers stream bytes (readEvents state cnt answers stream).1 :=
        ⟨h.atMost, h.atLeast, h.limit (Nat.zero_le _)⟩
      have hcons := Taken.cons (hstream ▸ htakes) htaken
      rwa [← hstream] at hcons
    · rw [List.flatten_cons, feed_append, ← hfed]
      exact congrArg₂ (· ++ ·) (h.events.trans (List.nil_append _)) hevents
    · rw [List.flatten_cons, feed_append, ← hfed]
      exact hstate

theorem npressed_le {bytes : List UInt8} (h : Tracks bytes state) : state.npressed ≤ 127 := by
  have hsub : (held state).map UInt8.toNat ⊆ List.range' 1 127 := by
    intro n hn
    obtain ⟨key, hkey, rfl⟩ := List.mem_map.mp hn
    obtain ⟨byte, hbyte, _⟩ := (h.down key).mp hkey
    have hmem := List.mem_filter.mp (List.mem_of_getLast? hbyte)
    have hand : byte &&& 0x7f = key := of_decide_eq_true hmem.2
    have hne := (isKey_iff byte).mp (List.mem_filter.mp hmem.1).2
    have hlt := and_lt byte
    rw [hand] at hne hlt
    have hpos : key.toNat ≠ 0 := fun hzero => hne (UInt8.toNat_inj.mp hzero)
    rw [List.mem_range'_1]
    omega
  have hnodup : ((held state).map UInt8.toNat).Nodup :=
    h.nodup.map fun a b hab => UInt8.toNat_inj.mp hab
  have hlen := (hnodup.subperm hsub).length_le
  rwa [List.length_map, length_held, List.length_range'] at hlen

/-- However the bytes come in: each call takes what its reads give, the events of all calls
together are those of the bytes that have been read, no call gives more events than asked for,
and the list of keys holds, once each, the keys whose latest byte was a press. -/
theorem calls_deliver (state : State) (cs : List (Int × List Answer)) (stream : List UInt8) :
    ∃ taken, Taken cs stream taken (calls cs (resetState state) stream).1
        (calls cs (resetState state) stream).2.2 ∧
      Delivers taken.flatten (calls cs (resetState state) stream).1
        (calls cs (resetState state) stream).2.1 := by
  obtain ⟨taken, htaken, hevents, hstate⟩ := calls_feed cs (resetState state) stream
  have htracks : Tracks taken.flatten (calls cs (resetState state) stream).2.1 := by
    rw [hstate]
    exact tracks_feed state taken.flatten
  refine ⟨taken, htaken, ?_, htracks.nodup, npressed_le htracks, htracks.down⟩
  rw [hevents, feed_events, decode_eq]
  rfl

end DeltaPorts.Weston.Kbdev

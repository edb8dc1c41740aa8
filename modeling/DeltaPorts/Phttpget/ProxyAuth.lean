import DeltaPorts.Library.Base64
import DeltaPorts.Library.CStrings
import DeltaPorts.Library.Loops

/-!
# b64enc

The encoding of user name and password for `Proxy-Authorization`. `char` is signed and `size_t`
has 64 bits. Every access is checked.
-/

set_option autoImplicit false

namespace DeltaPorts.Phttpget.ProxyAuth

open CStrings
open Loops (ok_bind)

inductive Fault where
  | outOfBounds

def SIZE_MAX : Nat := 18446744073709551615

/-- Arithmetic in `size_t`. -/
def size (n : Nat) : Nat := n % (SIZE_MAX + 1)

/-- What `malloc` returns: a piece with any bytes in it, or a null pointer. -/
structure Heap where
  malloc : Nat → Option Piece
  length : ∀ {n m}, malloc n = some m → m.length = n

def base64 : Piece :=
  ("ABCDEFGHIJKLMNOPQRSTUVWXYZ" ++ "abcdefghijklmnopqrstuvwxyz" ++
    "0123456789+/").toList.map (fun c => c.toNat.toUInt8) ++ [0]

/-- A `char` as an operand of `uint32_t`. -/
def promoted (c : Byte) : UInt32 := if c < 128 then c.toUInt32 else c.toUInt32 - 256

/-- `t <<= 8` and `t += *pt++`. -/
def readByte (ptext : Piece) (ptlen : Nat) (s : UInt32 × Nat) (j : Nat) :
    Except Fault (UInt32 × Nat) :=
  let (t, pt) := s
  if j < ptlen then do
    let c ← load .outOfBounds ptext pt
    return (t <<< 8 + promoted c, pt + 1)
  else return (t <<< 8, pt)

/-- `pc[j] = ...` and `t <<= 6`. -/
def writeChar (ptlen pc : Nat) (s : UInt32 × Piece) (j : Nat) : Except Fault (UInt32 × Piece) := do
  let (t, ctext) := s
  let c ← if j ≤ ptlen + 1 then load .outOfBounds base64 (t >>> 18 &&& 63).toNat else pure 61
  let ctext ← store .outOfBounds ctext (pc + j : Nat) c
  return (t <<< 6, ctext)

/-- The loop over the groups. -/
def groups (ptext : Piece) (ptlen pt pc : Nat) (ctext : Piece) : Except Fault Piece :=
  if ptlen = 0 then .ok ctext
  else do
    let (t, pt) ← [0, 1, 2].foldlM (readByte ptext ptlen) (0, pt)
    let (_, ctext) ← [0, 1, 2, 3].foldlM (writeChar ptlen pc) (t, ctext)
    if ptlen ≤ 3 then return ctext
    else groups ptext (ptlen - 3) pt (pc + 4) ctext
termination_by ptlen
decreasing_by omega

def ctlen (ptlen : Nat) : Nat := size (4 * (size (ptlen + 2) / 3) + 1)

/-- The string that is returned; `none` is a null pointer. -/
def b64enc (h : Heap) (ptext : Piece) : Except Fault (Option Piece) := do
  let ptlen ← strlen .outOfBounds ptext 0
  if (SIZE_MAX - 1) / 4 * 3 - 2 < ptlen then return none
  match h.malloc (ctlen ptlen) with
  | none => return none
  | some ctext =>
    let ctext ← store .outOfBounds ctext (ctlen ptlen - 1 : Nat) 0
    let ctext ← groups ptext ptlen 0 0 ctext
    return some ctext

/-- A string that passes the guard. -/
structure Plaintext where
  bytes : List Byte
  noNul : 0 ∉ bytes
  fits : bytes.length ≤ (SIZE_MAX - 1) / 4 * 3 - 2

def Plaintext.memory (u : Plaintext) : Piece := u.bytes ++ [0]

/-- The string returned is the encoding, and a decoder gives the text back. -/
def Encodes (h : Heap) (u : Plaintext) : Prop :=
  ∃ ctext, b64enc h u.memory = .ok (some (ctext ++ [0])) ∧
    ctext = Base64.encode u.bytes ∧ Base64.decode ctext = some u.bytes

/-- No group is incomplete, and only the first byte of one may be negative as a `char`. -/
structure Aligned (u : List Byte) : Prop where
  whole : 3 ∣ u.length
  positive : ∀ i c, u[i]? = some c → i % 3 ≠ 0 → c < 128

/-- The word into which the loop packs three bytes. -/
def word (a b c : Byte) : UInt32 := (promoted a <<< 8 + promoted b) <<< 8 + promoted c

theorem promoted_toNat (c : Byte) :
    (promoted c).toNat = if c < 128 then c.toNat else c.toNat + 4294967040 := by
  have hc := c.toNat_lt
  unfold promoted
  split
  · exact UInt8.toNat_toUInt32 c
  · rw [UInt32.toNat_sub, UInt8.toNat_toUInt32]
    change (4294967296 - 256 + c.toNat) % 4294967296 = _
    omega

theorem shiftLeft_toNat (t : UInt32) :
    (t <<< 6).toNat = t.toNat * 64 % 4294967296 ∧ (t <<< 8).toNat = t.toNat * 256 % 4294967296 := by
  constructor
  · rw [UInt32.toNat_shiftLeft]
    exact congrArg (· % _) (Nat.shiftLeft_eq t.toNat 6)
  · rw [UInt32.toNat_shiftLeft]
    exact congrArg (· % _) (Nat.shiftLeft_eq t.toNat 8)

theorem sextet_toNat (t : UInt32) : (t >>> 18 &&& 63).toNat = t.toNat / 262144 % 64 := by
  rw [UInt32.toNat_and, UInt32.toNat_shiftRight]
  change t.toNat >>> 18 &&& (2 ^ 6 - 1) = _
  rw [Nat.and_two_pow_sub_one_eq_mod, Nat.shiftRight_eq_div_pow]

/-- A negative byte borrows from the byte before; only from the first nothing is borrowed that
is looked at. -/
theorem word_eq_packed_iff (a b c : Byte) :
    (word a b c).toNat % 16777216 = Base64.packed a b c ↔ b < 128 ∧ c < 128 := by
  have ha := a.toNat_lt
  have hb := b.toNat_lt
  have hc := c.toNat_lt
  have hlt (x : Byte) : x < 128 ↔ x.toNat < 128 := UInt8.lt_iff_toNat_lt
  unfold word Base64.packed
  rw [UInt32.toNat_add, (shiftLeft_toNat _).2, UInt32.toNat_add, (shiftLeft_toNat _).2,
    promoted_toNat, promoted_toNat, promoted_toNat]
  simp only [hlt]
  constructor
  · intro h
    split at h <;> split at h <;> split at h <;> omega
  · rintro ⟨hb', hc'⟩
    rw [if_pos hb', if_pos hc']
    split <;> omega

theorem base64_eq : base64 = Base64.alphabet ++ [0] := by decide +kernel

theorem load_eq {m : Piece} {i : Nat} {c : Byte} (h : m[i]? = some c) :
    load Fault.outOfBounds m (i : Int) = .ok c := by
  unfold load
  rw [if_neg (by omega), Int.toNat_natCast, h]

theorem load_base64 (n : Nat) :
    load Fault.outOfBounds base64 ((n % 64 : Nat) : Int) = .ok (Base64.digit n) := by
  have hlt : n % 64 < Base64.alphabet.length := Nat.mod_lt n (by decide)
  apply load_eq
  rw [base64_eq, List.getElem?_append_left hlt, List.getElem?_eq_getElem hlt]
  unfold Base64.digit
  rw [List.getD_eq_getElem?_getD, List.getElem?_eq_getElem hlt, Option.getD_some]

theorem store_eq {out m : Piece} {i : Nat} (hi : i = out.length) (b c : Byte) :
    store Fault.outOfBounds (out ++ b :: m) (i : Int) c = .ok (out ++ c :: m) := by
  have hroom : ¬ ((i : Int) < 0 ∨ (out ++ b :: m).length ≤ (i : Int).toNat) := by
    rw [List.length_append, List.length_cons]
    omega
  unfold store
  rw [if_neg hroom, Int.toNat_natCast, hi, List.set_append_right _ _ (Nat.le_refl _),
    Nat.sub_self, List.set_cons_zero]

/-- One round of the loop that writes. -/
theorem writeChar_eq {ptlen pc j : Nat} {out m : Piece} (hj : pc + j = out.length) (t : UInt32)
    (b : Byte) :
    writeChar ptlen pc (t, out ++ b :: m) j =
      .ok (t <<< 6, out ++ (if j ≤ ptlen + 1 then Base64.digit (t.toNat / 262144) else 61) :: m) := by
  unfold writeChar
  by_cases hchar : j ≤ ptlen + 1
  · simp only [if_pos hchar, sextet_toNat, load_base64, Except.bind, bind, store_eq hj]
    rfl
  · simp only [if_neg hchar, Except.bind, bind, pure, Except.pure, store_eq hj]

/-- The four characters that are written for the word `t` when `ptlen` bytes are left. -/
def chars (ptlen : Nat) (t : UInt32) : List Byte :=
  if 2 ≤ ptlen then Base64.digits t.toNat else (Base64.digits t.toNat).take 3 ++ [61]

theorem chars_eq {ptlen : Nat} (hpos : 0 < ptlen) (t : UInt32) :
    [if 0 ≤ ptlen + 1 then Base64.digit (t.toNat / 262144) else 61,
      if 1 ≤ ptlen + 1 then Base64.digit ((t <<< 6).toNat / 262144) else 61,
      if 2 ≤ ptlen + 1 then Base64.digit ((t <<< 6 <<< 6).toNat / 262144) else 61,
      if 3 ≤ ptlen + 1 then Base64.digit ((t <<< 6 <<< 6 <<< 6).toNat / 262144) else 61] =
    chars ptlen t := by
  have h₁ : Base64.digit ((t <<< 6).toNat / 262144) = Base64.digit (t.toNat / 4096) := by
    rw [Base64.digit_eq_iff, (shiftLeft_toNat _).1]
    omega
  have h₂ : Base64.digit ((t <<< 6 <<< 6).toNat / 262144) = Base64.digit (t.toNat / 64) := by
    rw [Base64.digit_eq_iff, (shiftLeft_toNat _).1, (shiftLeft_toNat _).1]
    omega
  have h₃ : Base64.digit ((t <<< 6 <<< 6 <<< 6).toNat / 262144) = Base64.digit t.toNat := by
    rw [Base64.digit_eq_iff, (shiftLeft_toNat _).1, (shiftLeft_toNat _).1, (shiftLeft_toNat _).1]
    omega
  unfold chars
  rw [if_pos (by omega), if_pos (by omega), if_pos (by omega), h₁, h₂, h₃]
  by_cases htwo : 2 ≤ ptlen
  · rw [if_pos htwo, if_pos (by omega)]
    rfl
  · rw [if_neg htwo, if_neg (by omega)]
    rfl

theorem writeChars_eq {ptlen : Nat} (hpos : 0 < ptlen) (t : UInt32) (out m : Piece)
    (b₀ b₁ b₂ b₃ : Byte) :
    ∃ t', [0, 1, 2, 3].foldlM (writeChar ptlen out.length) (t, out ++ b₀ :: b₁ :: b₂ :: b₃ :: m) =
      .ok (t', out ++ chars ptlen t ++ m) := by
  have hround (cs : List Byte) (k : Nat) (hk : cs.length = k) (t : UInt32) (b : Byte) (m : Piece) :=
    @writeChar_eq ptlen out.length k (out ++ cs) m (by rw [List.length_append, hk]) t b
  simp only [List.append_assoc] at hround
  refine ⟨t <<< 6 <<< 6 <<< 6 <<< 6, ?_⟩
  rw [← chars_eq hpos t, List.foldlM_cons, writeChar_eq rfl t b₀, ok_bind, List.foldlM_cons]
  have h₁ (c₀ : Byte) := hround [c₀] 1 rfl (t <<< 6) b₁ (b₂ :: b₃ :: m)
  have h₂ (c₀ c₁ : Byte) := hround [c₀, c₁] 2 rfl (t <<< 6 <<< 6) b₂ (b₃ :: m)
  have h₃ (c₀ c₁ c₂ : Byte) := hround [c₀, c₁, c₂] 3 rfl (t <<< 6 <<< 6 <<< 6) b₃ m
  simp only [List.cons_append, List.nil_append] at h₁ h₂ h₃
  rw [h₁, ok_bind, List.foldlM_cons, h₂, ok_bind, List.foldlM_cons, h₃, ok_bind, List.foldlM_nil,
    List.append_assoc]
  rfl

theorem readByte_eq {ptext : Piece} {ptlen pt j : Nat} {c : Byte} (hj : j < ptlen)
    (hc : ptext[pt]? = some c) (t : UInt32) :
    readByte ptext ptlen (t, pt) j = .ok (t <<< 8 + promoted c, pt + 1) := by
  unfold readByte
  simp only [if_pos hj, load_eq hc]
  rfl

theorem readByte_past {ptext : Piece} {ptlen pt j : Nat} (hj : ptlen ≤ j) (t : UInt32) :
    readByte ptext ptlen (t, pt) j = .ok (t <<< 8, pt) := by
  have hnot : ¬ j < ptlen := by omega
  unfold readByte
  simp only [if_neg hnot]
  rfl

theorem shifted_zero (t : UInt32) : t <<< 8 = t <<< 8 + promoted 0 := (UInt32.add_zero _).symm

theorem start_word (a : Byte) : (0 : UInt32) <<< 8 + promoted a = promoted a := by
  rw [UInt32.zero_shiftLeft, UInt32.zero_add]

section

variable {ptext : Piece} {ptlen pt : Nat} {a b c : Byte}

theorem readBytes_three (hlen : 3 ≤ ptlen) (ha : ptext[pt]? = some a)
    (hb : ptext[pt + 1]? = some b) (hc : ptext[pt + 2]? = some c) :
    [0, 1, 2].foldlM (readByte ptext ptlen) (0, pt) = .ok (word a b c, pt + 3) := by
  rw [List.foldlM_cons, readByte_eq (by omega) ha, ok_bind, List.foldlM_cons,
    readByte_eq (by omega) hb, ok_bind, List.foldlM_cons, readByte_eq (by omega) hc, ok_bind,
    List.foldlM_nil, start_word]
  rfl

theorem readBytes_two (ha : ptext[pt]? = some a) (hb : ptext[pt + 1]? = some b) :
    [0, 1, 2].foldlM (readByte ptext 2) (0, pt) = .ok (word a b 0, pt + 2) := by
  rw [List.foldlM_cons, readByte_eq (by omega) ha, ok_bind, List.foldlM_cons,
    readByte_eq (by omega) hb, ok_bind, List.foldlM_cons, readByte_past (by omega), ok_bind,
    List.foldlM_nil, start_word, shifted_zero (promoted a <<< 8 + promoted b)]
  rfl

theorem readBytes_one (ha : ptext[pt]? = some a) :
    [0, 1, 2].foldlM (readByte ptext 1) (0, pt) = .ok (word a 0 0, pt + 1) := by
  rw [List.foldlM_cons, readByte_eq (by omega) ha, ok_bind, List.foldlM_cons,
    readByte_past (by omega), ok_bind, List.foldlM_cons, readByte_past (by omega), ok_bind,
    List.foldlM_nil, start_word, shifted_zero (promoted a),
    shifted_zero (promoted a <<< 8 + promoted 0)]
  rfl

end

/-- What the loop writes for the bytes that are left. -/
def encoded : List Byte → List Byte
  | [] => []
  | [a] => chars 1 (word a 0 0)
  | [a, b] => chars 2 (word a b 0)
  | a :: b :: c :: rest => chars (rest.length + 3) (word a b c) ++ encoded rest

theorem chars_length (ptlen : Nat) (t : UInt32) : (chars ptlen t).length = 4 := by
  unfold chars
  split <;> rfl

theorem encoded_length (u : List Byte) : (encoded u).length = 4 * ((u.length + 2) / 3) := by
  induction u using encoded.induct with
  | case1 => rfl
  | case2 a =>
    rw [encoded, chars_length, List.length_singleton]
  | case3 a b =>
    rw [encoded, chars_length, List.length_cons, List.length_singleton]
  | case4 a b c rest ih =>
    rw [encoded, List.length_append, chars_length, ih]
    simp only [List.length_cons]
    omega

theorem groups_step {ptext ctext ctext' : Piece} {ptlen pt pt' pc : Nat} {t : UInt32}
    (hpos : 0 < ptlen) (hread : [0, 1, 2].foldlM (readByte ptext ptlen) (0, pt) = .ok (t, pt'))
    (hwrite : ∃ t', [0, 1, 2, 3].foldlM (writeChar ptlen pc) (t, ctext) = .ok (t', ctext')) :
    groups ptext ptlen pt pc ctext =
      if ptlen ≤ 3 then .ok ctext' else groups ptext (ptlen - 3) pt' (pc + 4) ctext' := by
  obtain ⟨t', hwrite⟩ := hwrite
  rw [groups, if_neg (by omega), hread, ok_bind]
  simp only [hwrite, ok_bind]
  rfl

theorem exists_four {free : Piece} {n : Nat} (h : free.length = n + 4) :
    ∃ b₀ b₁ b₂ b₃ free', free = b₀ :: b₁ :: b₂ :: b₃ :: free' ∧ free'.length = n := by
  match free, h with
  | b₀ :: b₁ :: b₂ :: b₃ :: free', h => exact ⟨b₀, b₁, b₂, b₃, free', rfl, by simpa using h⟩

/-- The loop reads the bytes that are left and fills what is left of the string. -/
theorem groups_eq (u before after : List Byte) (out free last : Piece)
    (hfree : free.length = (encoded u).length) :
    groups (before ++ (u ++ after)) u.length before.length out.length (out ++ (free ++ last)) =
      .ok (out ++ (encoded u ++ last)) := by
  induction u using encoded.induct generalizing before out free with
  | case1 =>
    rw [groups, if_pos List.length_nil, List.length_eq_zero_iff.mp hfree]
    rfl
  | case2 a =>
    obtain ⟨b₀, b₁, b₂, b₃, free', rfl, hfree'⟩ := exists_four (hfree.trans (chars_length 1 _))
    rw [List.length_eq_zero_iff.mp hfree']
    have hread := @readBytes_one (before ++ ([a] ++ after)) before.length a (by simp)
    have hwrite := @writeChars_eq 1 (by omega) (word a 0 0) out last b₀ b₁ b₂ b₃
    rw [List.append_assoc] at hwrite
    exact groups_step (by simp) hread hwrite
  | case3 a b =>
    obtain ⟨b₀, b₁, b₂, b₃, free', rfl, hfree'⟩ := exists_four (hfree.trans (chars_length 2 _))
    rw [List.length_eq_zero_iff.mp hfree']
    have hread := @readBytes_two (before ++ ([a, b] ++ after)) before.length a b (by simp) (by simp)
    have hwrite := @writeChars_eq 2 (by omega) (word a b 0) out last b₀ b₁ b₂ b₃
    rw [List.append_assoc] at hwrite
    exact groups_step (by simp) hread hwrite
  | case4 a b c rest ih =>
    rw [encoded, List.length_append, chars_length, Nat.add_comm] at hfree
    obtain ⟨b₀, b₁, b₂, b₃, free', rfl, hfree'⟩ := exists_four hfree
    have hlen : (a :: b :: c :: rest).length = rest.length + 3 := rfl
    have hread := @readBytes_three (before ++ (a :: b :: c :: rest ++ after)) (rest.length + 3)
      before.length a b c (by omega) (by simp) (by simp) (by simp)
    have hwrite := @writeChars_eq (rest.length + 3) (by omega) (word a b c) out
      (free' ++ last) b₀ b₁ b₂ b₃
    rw [hlen, encoded, List.append_assoc]
    refine (groups_step (by omega) hread hwrite).trans ?_
    by_cases hrest : rest = []
    · rw [hrest] at hfree' ⊢
      rw [if_pos (by simp), List.length_eq_zero_iff.mp hfree', encoded, List.append_assoc]
    · have hpos : 0 < rest.length := List.length_pos_iff.mpr hrest
      have hloop := ih (before ++ [a, b, c]) (out ++ chars (rest.length + 3) (word a b c)) free'
        hfree'
      rw [List.length_append, List.length_append, chars_length] at hloop
      simp only [List.append_assoc, List.cons_append, List.nil_append] at hloop
      rw [if_neg (by omega), Nat.add_sub_cancel, List.append_assoc]
      exact hloop

theorem ctlen_eq (u : Plaintext) : ctlen u.bytes.length = (encoded u.bytes).length + 1 := by
  have hfits := u.fits
  rw [encoded_length]
  unfold ctlen size
  unfold SIZE_MAX at *
  omega

/-- Every access is within its memory, and the string is that of the loop. -/
theorem b64enc_eq (h : Heap) (u : Plaintext) :
    b64enc h u.memory =
      .ok ((h.malloc (ctlen u.bytes.length)).map fun _ => encoded u.bytes ++ [0]) := by
  have hfits := u.fits
  have hstrlen : strlen Fault.outOfBounds u.memory 0 = .ok u.bytes.length :=
    strlen_eq _ (reads_concat u.noNul)
  unfold b64enc
  rw [hstrlen, ok_bind, if_neg (by omega)]
  cases hmalloc : h.malloc (ctlen u.bytes.length) with
  | none => rfl
  | some m =>
    have hlen := h.length hmalloc
    rw [ctlen_eq] at hlen
    obtain ⟨free, b, rfl⟩ : ∃ free b, m = free ++ [b] :=
      ⟨m.dropLast, m.getLast (List.ne_nil_of_length_eq_add_one hlen),
        (List.dropLast_append_getLast _).symm⟩
    have hfree : free.length = (encoded u.bytes).length := by
      rw [List.length_append, List.length_singleton] at hlen
      omega
    have hstore := @store_eq free [] (ctlen u.bytes.length - 1) (by rw [ctlen_eq]; omega) b 0
    have hgroups := groups_eq u.bytes [] [0] [] free [0] hfree
    simp only [List.nil_append, List.length_nil] at hgroups
    simp only [hstore, ok_bind]
    rw [Plaintext.memory, hgroups]
    rfl

/-- An incomplete group has one character too many before its padding. -/
theorem chars_ne_padded (t : UInt32) (n : Nat) :
    chars 1 t ≠ (Base64.digits n).take 2 ++ [Base64.pad, Base64.pad] ∧
      chars 2 t ≠ (Base64.digits n).take 3 ++ [Base64.pad] := by
  constructor
  · intro h
    have hthird := congrArg (fun l : List Byte => l[2]?) h
    exact Base64.digit_ne_pad _ (Option.some.inj hthird)
  · intro h
    have hfourth := congrArg (fun l : List Byte => l[3]?) h
    exact Base64.digit_ne_pad _ (Option.some.inj hfourth)

theorem chars_eq_digits_iff (n : Nat) (a b c : Byte) :
    chars (n + 3) (word a b c) = Base64.digits (Base64.packed a b c) ↔ b < 128 ∧ c < 128 := by
  have hlt := Base64.packed_lt a b c
  unfold chars
  rw [if_pos (by omega), Base64.digits_eq_iff, Nat.mod_eq_of_lt hlt, word_eq_packed_iff]

theorem aligned_cons_iff (a b c : Byte) (rest : List Byte) :
    Aligned (a :: b :: c :: rest) ↔ (b < 128 ∧ c < 128) ∧ Aligned rest := by
  have hlen : (a :: b :: c :: rest).length = rest.length + 3 := rfl
  constructor
  · rintro ⟨hwhole, hpositive⟩
    rw [hlen] at hwhole
    refine ⟨⟨hpositive 1 b rfl (by omega), hpositive 2 c rfl (by omega)⟩, by omega, ?_⟩
    intro i d hd hi
    exact hpositive (i + 3) d hd (by omega)
  · rintro ⟨⟨hb, hc⟩, hwhole, hpositive⟩
    refine ⟨by omega, ?_⟩
    intro i d hd hi
    match i, hd, hi with
    | 0, _, hi => exact absurd rfl hi
    | 1, hd, _ => exact Option.some.inj hd ▸ hb
    | 2, hd, _ => exact Option.some.inj hd ▸ hc
    | i + 3, hd, hi => exact hpositive i d hd (by omega)

theorem encoded_eq_encode_iff (u : List Byte) : encoded u = Base64.encode u ↔ Aligned u := by
  induction u using encoded.induct with
  | case1 => exact iff_of_true rfl ⟨Nat.dvd_zero 3, by simp⟩
  | case2 a => exact iff_of_false (chars_ne_padded _ _).1 fun h => absurd h.whole (by simp)
  | case3 a b => exact iff_of_false (chars_ne_padded _ _).2 fun h => absurd h.whole (by simp)
  | case4 a b c rest ih =>
    rw [aligned_cons_iff, ← ih, ← chars_eq_digits_iff rest.length a b c, encoded, Base64.encode]
    constructor
    · exact fun h => List.append_inj h (chars_length _ _)
    · rintro ⟨hchars, hrest⟩
      rw [hchars, hrest]

/-- The string has a character too many before its padding, and a negative byte changes the one
before it in its group. -/
theorem encodes_iff_aligned (h : Heap) (u : Plaintext) {m : Piece}
    (hm : h.malloc (ctlen u.bytes.length) = some m) :
    (∃ ctext, b64enc h u.memory = .ok (some ctext) ∧ ctext.length = ctlen u.bytes.length) ∧
      (Encodes h u ↔ Aligned u.bytes) := by
  have hresult := b64enc_eq h u
  rw [hm, Option.map_some] at hresult
  refine ⟨⟨_, hresult, ?_⟩, ?_⟩
  · rw [List.length_append, List.length_singleton, ctlen_eq]
  · unfold Encodes
    rw [hresult, ← encoded_eq_encode_iff]
    constructor
    · rintro ⟨ctext, hctext, henc, _⟩
      have heq : encoded u.bytes ++ [0] = ctext ++ [0] := Option.some.inj (Except.ok.inj hctext)
      rw [List.append_left_injective [0] heq, henc]
    · intro h
      exact ⟨encoded u.bytes, rfl, h, h ▸ Base64.decode_encode u.bytes⟩

/-- Memory in which every byte is zero at first. -/
def zeroed : Heap where
  malloc n := some (List.replicate n 0)
  length h := Option.some.inj h ▸ List.length_replicate

def userColonPassword : Plaintext := ⟨[117, 115, 58, 112, 119, 100], by decide, by decide⟩

theorem userColonPassword_encoded :
    (∃ ctext, b64enc zeroed userColonPassword.memory = .ok (some ctext) ∧
      ctext.length = ctlen userColonPassword.bytes.length) ∧
      (Encodes zeroed userColonPassword ↔ Aligned userColonPassword.bytes) :=
  encodes_iff_aligned zeroed userColonPassword rfl

def oneLetter : Plaintext := ⟨[97], by decide, by decide⟩

theorem padding_one_short : ¬ ∀ u : Plaintext, Encodes zeroed u := by
  intro h
  obtain ⟨ctext, hctext, henc, _⟩ := h oneLetter
  rw [b64enc_eq] at hctext
  have heq : encoded oneLetter.bytes ++ [0] = ctext ++ [0] :=
    Option.some.inj (Except.ok.inj hctext)
  rw [henc] at heq
  revert heq
  decide +kernel

end DeltaPorts.Phttpget.ProxyAuth

import Mathlib.Data.List.Basic

/-!
# Base64

The encoding of RFC 4648 with its padding, and a decoder.
-/

set_option autoImplicit false

namespace Base64

abbrev Bytes := List UInt8

def alphabet : Bytes :=
  "ABCDEFGHIJKLMNOPQRSTUVWXYZabcdefghijklmnopqrstuvwxyz0123456789+/".toList.map
    fun c => c.toNat.toUInt8

def pad : UInt8 := 61

/-- The character for the last six bits of a number. -/
def digit (n : Nat) : UInt8 := alphabet.getD (n % 64) 0

/-- Three bytes as one number of 24 bits. -/
def packed (a b c : UInt8) : Nat := a.toNat * 65536 + b.toNat * 256 + c.toNat

def digits (n : Nat) : Bytes := [digit (n / 262144), digit (n / 4096), digit (n / 64), digit n]

def encode : Bytes → Bytes
  | [] => []
  | [a] => (digits (packed a 0 0)).take 2 ++ [pad, pad]
  | [a, b] => (digits (packed a b 0)).take 3 ++ [pad]
  | a :: b :: c :: rest => digits (packed a b c) ++ encode rest

def value (c : UInt8) : Option Nat := alphabet.findIdx? (· == c)

def unpacked (n : Nat) : Bytes :=
  [UInt8.ofNat (n / 65536), UInt8.ofNat (n / 256), UInt8.ofNat n]

/-- One group of four characters, of which the last ones may be padding. -/
def decodeGroup (a b c d : UInt8) : Option Bytes := do
  let x ← value a
  let y ← value b
  if c = pad ∧ d = pad then return (unpacked (x * 262144 + y * 4096)).take 1
  let z ← value c
  if d = pad then return (unpacked (x * 262144 + y * 4096 + z * 64)).take 2
  let w ← value d
  return unpacked (x * 262144 + y * 4096 + z * 64 + w)

/-- Only the last group may be padded. -/
def decode : Bytes → Option Bytes
  | [] => some []
  | a :: b :: c :: d :: rest => do
    let bytes ← decodeGroup a b c d
    if bytes.length < 3 ∧ rest ≠ [] then none
    else return bytes ++ (← decode rest)
  | _ => none

theorem alphabet_spec : ∀ n : Fin 64,
    value (alphabet.getD n 0) = some n.val ∧ alphabet.getD n 0 ≠ pad := by decide +kernel

theorem value_digit (n : Nat) : value (digit n) = some (n % 64) :=
  (alphabet_spec ⟨n % 64, Nat.mod_lt n (by omega)⟩).1

theorem digit_ne_pad (n : Nat) : digit n ≠ pad :=
  (alphabet_spec ⟨n % 64, Nat.mod_lt n (by omega)⟩).2

theorem digit_eq_iff (m n : Nat) : digit m = digit n ↔ m % 64 = n % 64 := by
  constructor
  · intro h
    have hvalue := congrArg value h
    rw [value_digit, value_digit] at hvalue
    exact Option.some.inj hvalue
  · intro h
    unfold digit
    rw [h]

/-- The four characters keep 24 bits. -/
theorem digits_eq_iff (m n : Nat) : digits m = digits n ↔ m % 16777216 = n % 16777216 := by
  unfold digits
  simp only [List.cons.injEq, digit_eq_iff, and_true]
  constructor
  · rintro ⟨h₀, h₁, h₂, h₃⟩
    omega
  · intro h
    refine ⟨?_, ?_, ?_, ?_⟩ <;> omega

theorem packed_lt (a b c : UInt8) : packed a b c < 16777216 := by
  have ha := a.toNat_lt
  have hb := b.toNat_lt
  have hc := c.toNat_lt
  unfold packed
  omega

theorem unpacked_packed (a b c : UInt8) : unpacked (packed a b c) = [a, b, c] := by
  have ha := a.toNat_lt
  have hb := b.toNat_lt
  have hc := c.toNat_lt
  have hbyte (n : Nat) (x : UInt8) (h : n % 256 = x.toNat) : UInt8.ofNat n = x := by
    apply UInt8.toNat_inj.mp
    rw [UInt8.toNat_ofNat', ← h]
  unfold unpacked packed
  rw [hbyte _ a (by omega), hbyte _ b (by omega), hbyte _ c (by omega)]

theorem decodeGroup_full (a b c : UInt8) {n : Nat} (hn : n = packed a b c) :
    decodeGroup (digit (n / 262144)) (digit (n / 4096)) (digit (n / 64)) (digit n) =
      some [a, b, c] := by
  have hlt : n < 16777216 := hn ▸ packed_lt a b c
  have hsum : n / 262144 % 64 * 262144 + n / 4096 % 64 * 4096 + n / 64 % 64 * 64 + n % 64 = n := by
    omega
  unfold decodeGroup
  simp only [value_digit, Option.bind_eq_bind, Option.bind_some, digit_ne_pad, false_and, if_false,
    hsum]
  rw [hn, unpacked_packed]
  rfl

theorem decodeGroup_two (a b : UInt8) {n : Nat} (hn : n = packed a b 0) :
    decodeGroup (digit (n / 262144)) (digit (n / 4096)) (digit (n / 64)) pad = some [a, b] := by
  have hlt : n < 16777216 := hn ▸ packed_lt a b 0
  have hsum : n / 262144 % 64 * 262144 + n / 4096 % 64 * 4096 + n / 64 % 64 * 64 = n := by
    rw [packed, UInt8.toNat_zero] at hn
    omega
  unfold decodeGroup
  simp only [value_digit, Option.bind_eq_bind, Option.bind_some, digit_ne_pad, false_and, if_false,
    if_true, hsum]
  rw [hn, unpacked_packed]
  rfl

theorem decodeGroup_one (a : UInt8) {n : Nat} (hn : n = packed a 0 0) :
    decodeGroup (digit (n / 262144)) (digit (n / 4096)) pad pad = some [a] := by
  have hlt : n < 16777216 := hn ▸ packed_lt a 0 0
  have hsum : n / 262144 % 64 * 262144 + n / 4096 % 64 * 4096 = n := by
    rw [packed, UInt8.toNat_zero] at hn
    omega
  unfold decodeGroup
  simp only [value_digit, Option.bind_eq_bind, Option.bind_some, and_self, if_true, hsum]
  rw [hn, unpacked_packed]
  rfl

theorem decode_encode (u : Bytes) : decode (encode u) = some u := by
  induction u using encode.induct with
  | case1 => rfl
  | case2 a =>
    change decode [_, _, pad, pad] = _
    rw [decode, decodeGroup_one a rfl]
    rfl
  | case3 a b =>
    change decode [_, _, _, pad] = _
    rw [decode, decodeGroup_two a b rfl]
    rfl
  | case4 a b c rest ih =>
    change decode (_ :: _ :: _ :: _ :: encode rest) = _
    rw [decode, decodeGroup_full a b c rfl, ih]
    rfl

end Base64

import DeltaPorts.Library.BitLoops
import Mathlib.Data.List.Infix

/-!
# npm-normalize-permissions.awk

The script after the patch of DragonFly: `band` and `bor` in the place of the bitwise functions of
gawk, and the rule that normalizes the mode in a line. `oct2dec` is not part of the patch.
-/

set_option autoImplicit false

namespace DeltaPorts.Special.NpmPermissions

abbrev Text := List Char

def band (a b : Nat) : Nat := BitLoops.loop (fun x y => x && y) a b 0 1

def bor (a b : Nat) : Nat := BitLoops.loop (fun x y => x || y) a b 0 1

/-- `[0-7]` -/
def isOctal (c : Char) : Bool := '0' ≤ c ∧ c ≤ '7'

def modeEq : Text := "mode=".toList

/-- `mode=[0-7]+` matches at the beginning of the text. -/
def matchesHere (l : Text) : Bool := modeEq.isPrefixOf l && (l.drop 5).head?.any isOctal

/-- `match($0, /mode=[0-7]+/)`: the text before the first match, its digits, as many as there are,
and the text after it. -/
def matchMode : Text → Option (Text × Text × Text)
  | [] => none
  | c :: l =>
    if matchesHere (c :: l) = true then
      some ([], ((c :: l).drop 5).takeWhile isOctal, ((c :: l).drop 5).dropWhile isOctal)
    else (matchMode l).map fun m => (c :: m.1, m.2)

/-- `sprintf("%04o", n)` -/
def sprintf04o (n : Nat) : Text := (Nat.toDigits 8 n).leftpad 4 '0'

def execBits : Nat := 73
def specialBits : Nat := 3584

def newmode (mode : Nat) : Nat :=
  let special := band mode specialBits
  if band mode execBits ≠ 0 then bor special 493 else bor special 420

/-- `$0` after the main rule. -/
def rule (oct2dec : Text → Nat) (line : Text) : Text :=
  match matchMode line with
  | none => line
  | some (before, modeStr, after) =>
    before ++ (modeEq ++ (sprintf04o (newmode (oct2dec modeStr)) ++ after))

/-- The number that octal digits write. -/
def octal (s : Text) : Nat := Nat.ofDigitChars 8 s 0

def OctalDigits (s : Text) : Prop := s ≠ [] ∧ ∀ c ∈ s, isOctal c = true

def ReadsOctal (oct2dec : Text → Nat) : Prop := ∀ s, OctalDigits s → oct2dec s = octal s

def HasMode (line : Text) : Prop :=
  ∃ u digits v, line = u ++ (modeEq ++ (digits ++ v)) ∧ OctalDigits digits

/-- The first mode of a line, with all of its digits. -/
structure FirstMode (line before digits after : Text) : Prop where
  split : line = before ++ (modeEq ++ (digits ++ after))
  octal : OctalDigits digits
  longest : after.head?.any isOctal = false
  first : ∀ u digits' v, line = u ++ (modeEq ++ (digits' ++ v)) → OctalDigits digits' →
    before.length ≤ u.length

/-- The same set-id and sticky bits, and the permissions that the execute bits ask for. -/
structure Normalized (mode n : Nat) : Prop where
  special : n &&& 0o7000 = mode &&& 0o7000
  permissions : n &&& 0o777 = if mode &&& 0o111 ≠ 0 then 0o755 else 0o644
  small : n < 0o10000

theorem band_eq (a b : Nat) : band a b = a &&& b := by
  unfold band
  rw [BitLoops.loop_eq rfl, Nat.zero_add, Nat.one_mul]
  rfl

theorem bor_eq (a b : Nat) : bor a b = a ||| b := by
  unfold bor
  rw [BitLoops.loop_eq rfl, Nat.zero_add, Nat.one_mul]
  rfl

theorem newmode_eq (mode : Nat) :
    newmode mode = (mode &&& 0o7000) ||| if mode &&& 0o111 ≠ 0 then 0o755 else 0o644 := by
  unfold newmode specialBits execBits
  simp only [band_eq, bor_eq]
  by_cases hmode : mode &&& 0o111 ≠ 0
  · rw [if_pos hmode, if_pos hmode]
  · rw [if_neg hmode, if_neg hmode]

/-- A mask picks from the special bits and from the permissions. -/
theorem or_and_mask (mode p mask : Nat) :
    ((mode &&& 0o7000) ||| p) &&& mask = (mode &&& (0o7000 &&& mask)) ||| (p &&& mask) := by
  rw [Nat.and_or_distrib_right, Nat.and_assoc]

theorem newmode_normalized (mode : Nat) : Normalized mode (newmode mode) := by
  rw [newmode_eq]
  constructor
  · rw [or_and_mask]
    split <;> exact Nat.or_zero _
  · have hmask : 0o7000 &&& 0o777 = 0 := by decide
    rw [or_and_mask, hmask, Nat.and_zero, Nat.zero_or]
    split <;> rfl
  · have hspecial : mode &&& 0o7000 < 2 ^ 12 := Nat.and_lt_two_pow mode (by omega)
    exact Nat.or_lt_two_pow hspecial (by split <;> omega)

theorem newmode_idem (mode : Nat) : newmode (newmode mode) = newmode mode := by
  have hspecial := (newmode_normalized mode).special
  have hexec : newmode mode &&& 0o111 ≠ 0 ↔ mode &&& 0o111 ≠ 0 := by
    rw [newmode_eq mode, or_and_mask]
    by_cases hmode : mode &&& 0o111 ≠ 0
    · rw [if_pos hmode]
      exact iff_of_true (by simp) hmode
    · rw [if_neg hmode]
      exact iff_of_false (by simp) hmode
  rw [newmode_eq (newmode mode), hspecial, newmode_eq mode]
  rw [newmode_eq mode] at hexec
  simp only [hexec]

theorem octal_digitChar : ∀ n < 8, isOctal n.digitChar = true := by decide

theorem octal_toDigits (n : Nat) : ∀ c ∈ Nat.toDigits 8 n, isOctal c = true := by
  induction n using Nat.strongRecOn with
  | ind n ih =>
    intro c hc
    by_cases hn : n < 8
    · rw [Nat.toDigits_of_lt_base hn] at hc
      rw [List.mem_singleton.mp hc]
      exact octal_digitChar n hn
    · rw [Nat.toDigits_of_base_le (by omega) (by omega)] at hc
      rcases List.mem_append.mp hc with hc | hc
      · exact ih (n / 8) (by omega) c hc
      · rw [List.mem_singleton.mp hc]
        exact octal_digitChar (n % 8) (by omega)

theorem sprintf_octalDigits (n : Nat) : OctalDigits (sprintf04o n) := by
  unfold sprintf04o List.leftpad
  constructor
  · exact List.append_ne_nil_of_right_ne_nil _ Nat.toDigits_ne_nil
  · intro c hc
    rcases List.mem_append.mp hc with hc | hc
    · rw [List.eq_of_mem_replicate hc]
      decide
    · exact octal_toDigits n c hc

/-- What is printed reads as the same number. -/
theorem octal_sprintf (n : Nat) : octal (sprintf04o n) = n := by
  unfold octal sprintf04o List.leftpad
  rw [Nat.ofDigitChars_append, Nat.ofDigitChars_replicate_zero, Nat.mul_zero,
    Nat.ofDigitChars_toDigits (by omega) (by omega)]

theorem takeWhile_digits {digits after : Text} (hdigits : ∀ c ∈ digits, isOctal c = true)
    (hafter : after.head?.any isOctal = false) :
    (digits ++ after).takeWhile isOctal = digits ∧ (digits ++ after).dropWhile isOctal = after := by
  have hstop : after.takeWhile isOctal = [] ∧ after.dropWhile isOctal = after := by
    cases after with
    | nil => exact ⟨rfl, rfl⟩
    | cons c after =>
      have hc : isOctal c = false := by simpa using hafter
      simp [hc]
  rw [List.takeWhile_append_of_pos hdigits, List.dropWhile_append_of_pos hdigits, hstop.1, hstop.2,
    List.append_nil]
  exact ⟨rfl, rfl⟩

theorem matchesHere_iff (l : Text) : matchesHere l = true ↔
    ∃ digits v, l = modeEq ++ (digits ++ v) ∧ OctalDigits digits := by
  unfold matchesHere
  rw [Bool.and_eq_true, List.isPrefixOf_iff_prefix]
  constructor
  · rintro ⟨⟨rest, rfl⟩, hdigit⟩
    have hdrop : (modeEq ++ rest).drop 5 = rest := List.drop_left' (by decide)
    rw [hdrop] at hdigit
    cases rest with
    | nil => cases hdigit
    | cons c rest =>
      refine ⟨[c], rest, rfl, List.cons_ne_nil c [], ?_⟩
      intro c' hc'
      rw [List.mem_singleton.mp hc']
      simpa using hdigit
  · rintro ⟨digits, v, rfl, hne, hdigits⟩
    have hdrop : (modeEq ++ (digits ++ v)).drop 5 = digits ++ v := List.drop_left' (by decide)
    refine ⟨List.prefix_append _ _, ?_⟩
    rw [hdrop]
    cases digits with
    | nil => exact absurd rfl hne
    | cons c digits => simpa using hdigits c List.mem_cons_self

/-- Whether a match begins depends on six characters. -/
theorem matchesHere_take (l : Text) : matchesHere (l.take 6) = matchesHere l := by
  have hprefix : modeEq <+: l.take 6 ↔ modeEq <+: l := by
    rw [List.prefix_take_iff]
    exact and_iff_left (by decide)
  have hdigit : ((l.take 6).drop 5).head? = (l.drop 5).head? := by
    rw [List.head?_drop, List.head?_drop, List.getElem?_take_of_lt (by omega)]
  unfold matchesHere
  rw [hdigit, Bool.eq_iff_iff, Bool.and_eq_true, Bool.and_eq_true, List.isPrefixOf_iff_prefix,
    List.isPrefixOf_iff_prefix, hprefix]

theorem firstMode_here {l : Text} (h : matchesHere l = true) :
    FirstMode l [] ((l.drop 5).takeWhile isOctal) ((l.drop 5).dropWhile isOctal) := by
  obtain ⟨digits, v, rfl, hne, hdigits⟩ := (matchesHere_iff l).mp h
  have hdrop : (modeEq ++ (digits ++ v)).drop 5 = digits ++ v := List.drop_left' (by decide)
  rw [hdrop]
  constructor
  · rw [List.takeWhile_append_dropWhile, List.nil_append]
  · constructor
    · cases digits with
      | nil => exact absurd rfl hne
      | cons c digits =>
        rw [List.cons_append, List.takeWhile_cons_of_pos (hdigits c List.mem_cons_self)]
        exact List.cons_ne_nil _ _
    · exact List.all_eq_true.mp List.all_takeWhile
  · have hstop := List.head?_dropWhile_not isOctal (digits ++ v)
    cases hrest : (digits ++ v).dropWhile isOctal with
    | nil => rfl
    | cons c rest =>
      rw [hrest] at hstop
      simpa using hstop
  · exact fun _ _ _ _ _ => Nat.zero_le _

theorem firstMode_cons {c : Char} {l before digits after : Text}
    (hnot : ¬ matchesHere (c :: l) = true) (h : FirstMode l before digits after) :
    FirstMode (c :: l) (c :: before) digits after := by
  constructor
  · rw [h.split, List.cons_append]
  · exact h.octal
  · exact h.longest
  · intro u digits' v heq hdigits'
    cases u with
    | nil => exact absurd ((matchesHere_iff _).mpr ⟨digits', v, heq, hdigits'⟩) hnot
    | cons d u =>
      have htail := h.first u digits' v (List.cons.inj heq).2 hdigits'
      rw [List.length_cons, List.length_cons]
      omega

theorem matchMode_firstMode {line : Text} {m : Text × Text × Text}
    (h : matchMode line = some m) : FirstMode line m.1 m.2.1 m.2.2 := by
  induction line generalizing m with
  | nil => cases h
  | cons c l ih =>
    rw [matchMode] at h
    by_cases hhere : matchesHere (c :: l) = true
    · rw [if_pos hhere] at h
      cases h
      exact firstMode_here hhere
    · rw [if_neg hhere] at h
      obtain ⟨m', hm', rfl⟩ := Option.map_eq_some_iff.mp h
      exact firstMode_cons hhere (ih hm')

theorem matchMode_ne_none {line : Text} (h : HasMode line) : matchMode line ≠ none := by
  induction line with
  | nil =>
    obtain ⟨u, digits, v, heq, _⟩ := h
    have hmode := congrArg List.length heq
    rw [List.length_append, List.length_append] at hmode
    change 0 = u.length + (5 + _) at hmode
    omega
  | cons c l ih =>
    rw [matchMode]
    by_cases hhere : matchesHere (c :: l) = true
    · rw [if_pos hhere]
      exact Option.some_ne_none _
    · rw [if_neg hhere]
      obtain ⟨u, digits, v, heq, hdigits⟩ := h
      cases u with
      | nil => exact absurd ((matchesHere_iff _).mpr ⟨digits, v, heq, hdigits⟩) hhere
      | cons d u =>
        intro hnone
        exact ih ⟨u, digits, v, (List.cons.inj heq).2, hdigits⟩ (Option.map_eq_none_iff.mp hnone)

theorem FirstMode.hasMode {line before digits after : Text}
    (h : FirstMode line before digits after) : HasMode line :=
  ⟨before, digits, after, h.split, h.octal⟩

theorem FirstMode.unique {line before digits after before' digits' after' : Text}
    (h : FirstMode line before digits after) (h' : FirstMode line before' digits' after') :
    before = before' ∧ digits = digits' ∧ after = after' := by
  have hlength : before.length = before'.length :=
    Nat.le_antisymm (h.first _ _ _ h'.split h'.octal) (h'.first _ _ _ h.split h.octal)
  obtain ⟨hbefore, hrest⟩ := List.append_inj (h.split.symm.trans h'.split) hlength
  have hrest := List.append_cancel_left hrest
  obtain ⟨htake, hdrop⟩ := takeWhile_digits h.octal.2 h.longest
  obtain ⟨htake', hdrop'⟩ := takeWhile_digits h'.octal.2 h'.longest
  rw [hrest] at htake hdrop
  exact ⟨hbefore, htake.symm.trans htake', hdrop.symm.trans hdrop'⟩

theorem FirstMode.matchMode_eq {line before digits after : Text}
    (h : FirstMode line before digits after) :
    matchMode line = some (before, digits, after) := by
  cases hm : matchMode line with
  | none => exact absurd hm (matchMode_ne_none h.hasMode)
  | some m =>
    obtain ⟨h₁, h₂, h₃⟩ := (matchMode_firstMode hm).unique h
    rw [← h₁, ← h₂, ← h₃]

/-- A line keeps the place of its first mode when the digits are replaced. -/
theorem FirstMode.replace {line before digits after : Text}
    (h : FirstMode line before digits after) {digits' : Text} (hdigits' : OctalDigits digits') :
    FirstMode (before ++ (modeEq ++ (digits' ++ after))) before digits' after := by
  refine ⟨rfl, hdigits', h.longest, ?_⟩
  intro u digits'' v heq hdigits''
  by_contra hlt
  -- The match at `u` would end its sixth character before the digits.
  have hshared (ds : Text) : ((before ++ (modeEq ++ (ds ++ after))).drop u.length).take 6 =
      ((before ++ modeEq).drop u.length).take 6 := by
    have hlength : (before ++ modeEq).length = before.length + 5 := List.length_append
    rw [← List.append_assoc, List.drop_append_of_le_length (by omega),
      List.take_append_of_le_length (by rw [List.length_drop]; omega)]
  have hhere : matchesHere (line.drop u.length) = true := by
    rw [← matchesHere_take, h.split, hshared, ← hshared digits', matchesHere_take, heq,
      List.drop_left]
    exact (matchesHere_iff _).mpr ⟨digits'', v, rfl, hdigits''⟩
  obtain ⟨ds, v', hv', hds⟩ := (matchesHere_iff _).mp hhere
  have hle := h.first (line.take u.length) ds v' (by rw [← hv', List.take_append_drop]) hds
  have htake := List.length_take_le u.length line
  omega

section

variable {oct2dec : Text → Nat} (hoct : ReadsOctal oct2dec)

include hoct

theorem rule_of_firstMode {line before digits after : Text}
    (h : FirstMode line before digits after) : rule oct2dec line =
      before ++ (modeEq ++ (sprintf04o (newmode (octal digits)) ++ after)) := by
  unfold rule
  rw [h.matchMode_eq]
  simp only [hoct digits h.octal]

theorem rule_idem (line : Text) : rule oct2dec (rule oct2dec line) = rule oct2dec line := by
  cases hm : matchMode line with
  | none =>
    have hsame : rule oct2dec line = line := by
      unfold rule
      rw [hm]
    rw [hsame, hsame]
  | some m =>
    have hfirst := matchMode_firstMode hm
    rw [rule_of_firstMode hoct hfirst,
      rule_of_firstMode hoct (hfirst.replace (sprintf_octalDigits _)), octal_sprintf, newmode_idem]

/-- `band` and `bor` are the bitwise operations, and the rule normalizes the first mode of a line
once and for all. -/
theorem rule_normalizes :
    (∀ a b, band a b = a &&& b ∧ bor a b = a ||| b) ∧
    (∀ line, HasMode line → ∃ before digits after n, FirstMode line before digits after ∧
      rule oct2dec line = before ++ (modeEq ++ (sprintf04o n ++ after)) ∧
      OctalDigits (sprintf04o n) ∧ octal (sprintf04o n) = n ∧ Normalized (octal digits) n) ∧
    ∀ line, rule oct2dec (rule oct2dec line) = rule oct2dec line := by
  refine ⟨fun a b => ⟨band_eq a b, bor_eq a b⟩, ?_, rule_idem hoct⟩
  intro line hline
  obtain ⟨m, hm⟩ := Option.ne_none_iff_exists'.mp (matchMode_ne_none hline)
  have hfirst := matchMode_firstMode hm
  exact ⟨_, _, _, _, hfirst, rule_of_firstMode hoct hfirst, sprintf_octalDigits _, octal_sprintf _,
    newmode_normalized _⟩

end

/-- Digit by digit. -/
def readOctal (s : Text) : Nat := s.foldl (fun val c => val * 8 + (c.toNat - 48)) 0

theorem readOctal_readsOctal : ReadsOctal readOctal := by
  intro s _
  unfold readOctal octal
  rw [Nat.ofDigitChars_eq_foldl]
  simp only [Nat.mul_comm]
  rfl

def setuidLine : Text := "a mode=104711 b".toList

theorem setuidLine_normalized :
    ∃ before digits after n, FirstMode setuidLine before digits after ∧
      rule readOctal setuidLine = before ++ (modeEq ++ (sprintf04o n ++ after)) ∧
      OctalDigits (sprintf04o n) ∧ octal (sprintf04o n) = n ∧ Normalized (octal digits) n :=
  (rule_normalizes readOctal_readsOctal).2.1 setuidLine
    ⟨"a ".toList, "104711".toList, " b".toList, by decide, by decide,
      List.all_eq_true.mp (by decide)⟩

end DeltaPorts.Special.NpmPermissions

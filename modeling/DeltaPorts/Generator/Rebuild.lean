import DeltaPorts.Generator.Merge
import DeltaPorts.Hook.PkgBuild

/-!
# Which ports merge.sh builds again

The hook writes the version of the last build into `STATUS`. `merge.sh` takes the version of
the `INDEX` line and leaves a merged port alone if awk finds the two equal.
-/

set_option autoImplicit false

namespace DeltaPorts.Generator

variable {Diff : Type}

/-- `port[nport-1]"/"port[nport]`. -/
def originOfPath (path : Awk.Text) : Origin :=
  match (path.splitOn '/').reverse with
  | last :: previous :: _ => previous ++ '/' :: last
  | [last] => '/' :: last
  | [] => ['/']

def lineOrigin (line : Awk.Text) : Origin := originOfPath (((line.splitOn '|')[1]?).getD [])

/-- `ver[nver]`. -/
def lineVersion (line : Awk.Text) : Awk.Text :=
  Shell.afterLast '-' (((line.splitOn '|')[0]?).getD [])

/-- What `AWKCMD1` prints for a line of `INDEX`. -/
def awkCmd1 (line : Awk.Text) : Awk.Text := lineOrigin line ++ ' ' :: lineVersion line

/-- `split ${fileline}`. -/
def split (fileline : Awk.Text) : Work := ⟨Awk.field 1 fileline, Awk.field 2 fileline⟩

theorem field_of_plain {w : Awk.Text} (h : Awk.Plain w) : Awk.field 1 w = w := by
  unfold Awk.field
  by_cases hw : w = []
  · rw [hw]
    rfl
  · rw [Awk.words_plain h hw]
    rfl

theorem lineOrigin_ne_nil (line : Awk.Text) : lineOrigin line ≠ [] := by
  unfold lineOrigin originOfPath
  split <;> simp

theorem split_awkCmd1 {line : Awk.Text} (horigin : Awk.Plain (lineOrigin line))
    (hversion : Awk.Plain (lineVersion line)) :
    split (awkCmd1 line) = ⟨lineOrigin line, lineVersion line⟩ := by
  have hspace : Awk.isBlank ' ' = true := by decide
  have hwords : Awk.words (awkCmd1 line) = lineOrigin line :: Awk.words (lineVersion line) := by
    unfold awkCmd1
    rw [Awk.words_append horigin (lineOrigin_ne_nil line) rfl, Awk.words_blank_cons hspace]
  have hfield := field_of_plain hversion
  unfold Awk.field at hfield
  unfold split Awk.field
  rw [hwords]
  simpa using hfield

theorem mainStep_merged_of_ne (env : Env Diff) (s : State) {line : Work} {port : Origin}
    (h : line.port ≠ port) : (mainStep env s line).merged port = s.merged port := by
  have hset : ∀ t, (s.setMerged line.port t).merged port = s.merged port := by
    intro t
    simp [State.setMerged, Function.update_of_ne (Ne.symm h)]
  unfold mainStep
  split
  · rfl
  · exact hset _
  · exact hset _
  · exact hset _

theorem mainLoop_merged_of_ne (env : Env Diff) (s : State) {lines : List Work} {port : Origin}
    (h : ∀ line ∈ lines, line.port ≠ port) :
    (mainLoop env s lines).merged port = s.merged port := by
  induction lines generalizing s with
  | nil => rfl
  | cons line lines ih =>
    have hrest := ih (mainStep env s line) fun l hl => h l (List.mem_cons_of_mem line hl)
    have hline := mainStep_merged_of_ne env s (h line List.mem_cons_self)
    exact hrest.trans hline

/-- The entry of a port that only one line of the worklist names. -/
theorem mainLoop_merged_line (env : Env Diff) (s : State) {before after : List Work} {line : Work}
    (h : ∀ l ∈ after, l.port ≠ line.port) :
    (mainLoop env s (before ++ line :: after)).merged line.port =
      (mainStep env (mainLoop env s before) line).merged line.port := by
  have hafter := mainLoop_merged_of_ne env (mainStep env (mainLoop env s before) line) h
  unfold mainLoop at hafter ⊢
  rw [List.foldl_append, List.foldl_cons]
  exact hafter

def modeOf (word : Awk.Text) : Mode := if word = "PORT".toList then .port else .dport

/-- What `AWKCMD2` decides for a port that is merged already. -/
theorem decision_of_merged {env : Env Diff} {s : State} {line : Work} {dp : DeltaPort Diff}
    {word line₁ line₂ : Awk.Text} {rest : List Awk.Text}
    (hdelta : env.delta line.port = some dp) (hstatus : dp.status = some (line₁ :: line₂ :: rest))
    (hmerged : (s.merged line.port).isSome) (hword : Awk.field 1 line₁ = word)
    (hknown : word = "PORT".toList ∨ word = "DPORT".toList) (hback : '\\' ∉ line.version) :
    decision env s line =
      if env.programs.awk.eqField line.version (Awk.field 3 line₂) then .skip else .hold (modeOf word) := by
  unfold decision awkCmd2 modeOf
  simp only [hdelta, hstatus, hmerged, Option.getD_some, hword, Awk.assigned_of_no_backslash hback]
  have hmask : word ≠ "MASK".toList := by rcases hknown with rfl | rfl <;> decide
  have hlock : word ≠ "LOCK".toList := by rcases hknown with rfl | rfl <;> decide
  rw [if_neg hmask, if_neg hlock, if_pos hknown, Bool.and_true]
  split <;> rfl

/-- The run leaves the entry of the line's origin untouched if the line names the version `v`,
and otherwise puts in its place what `merge` makes of the port. -/
def DecidesByVersion (env : Env Diff) (s : State) (before after : List Work) (line v : Awk.Text)
    (mode : Mode) : Prop :=
  (lineVersion line = v →
    decision env (mainLoop env s before) (split (awkCmd1 line)) = .skip ∧
    (mainLoop env s (before ++ split (awkCmd1 line) :: after)).merged (lineOrigin line) =
      s.merged (lineOrigin line)) ∧
  (lineVersion line ≠ v →
    decision env (mainLoop env s before) (split (awkCmd1 line)) = .hold mode ∧
    (mainLoop env s (before ++ split (awkCmd1 line) :: after)).merged (lineOrigin line) =
      some (merge env.programs (env.fports (lineOrigin line)) (env.delta (lineOrigin line)) mode
        (mainLoop env s before).work).1)

/-- Two versions that differ also differ for awk: `w` is not the first word of `v`, and the two
are not numbers that awk reads as the same double; a `v` without words may be its 0. -/
def ToldApart (awk : Awk.Reading) (w v : Awk.Text) : Prop :=
  w ≠ v → w ≠ Awk.field 1 v ∧
    ∀ x, awk.number w = some x → awk.fieldNumber (Awk.field 1 v) ≠ some x

theorem toldApart_iff {awk : Awk.Reading} {w v : Awk.Text} (hw : Awk.Plain w) :
    ToldApart awk w v ↔ (awk.eqField w (Awk.field 1 v) = true ↔ w = v) := by
  rw [awk.eqField_iff]
  constructor
  · intro h
    constructor
    · intro heq
      by_contra hne
      obtain ⟨hword, hnumber⟩ := h hne
      rcases heq with heq | ⟨x, hx, hy⟩
      · exact hword heq
      · exact hnumber x hx hy
    · rintro rfl
      exact Or.inl (field_of_plain hw).symm
  · intro h hne
    refine ⟨fun heq => hne (h.mp (Or.inl heq)), fun x hx hy => hne (h.mp (Or.inr ⟨x, hx, hy⟩))⟩

/-- One run of `merge.sh` on a port that is merged already, whose `STATUS` names the version `v`
on its second line. -/
theorem decidesByVersion_iff {env : Env Diff} {s : State} {before after : List Work}
    {line word v line₁ line₂ : Awk.Text} {rest : List Awk.Text} {dp : DeltaPort Diff}
    (horigin : Awk.Plain (lineOrigin line)) (hversion : Awk.Plain (lineVersion line))
    (hback : '\\' ∉ lineVersion line)
    (hsingle : ∀ l ∈ before ++ after, l.port ≠ lineOrigin line)
    (hmerged : (s.merged (lineOrigin line)).isSome)
    (hdelta : env.delta (lineOrigin line) = some dp)
    (hstatus : dp.status = some (line₁ :: line₂ :: rest)) (hword : Awk.field 1 line₁ = word)
    (hknown : word = "PORT".toList ∨ word = "DPORT".toList)
    (hattempt : Awk.field 3 line₂ = Awk.field 1 v) :
    DecidesByVersion env s before after line v (modeOf word) ↔
      ToldApart env.programs.awk (lineVersion line) v := by
  have hbefore := mainLoop_merged_of_ne env s fun l hl => hsingle l (List.mem_append_left _ hl)
  have hdecision : decision env (mainLoop env s before) (split (awkCmd1 line)) =
      if env.programs.awk.eqField (lineVersion line) (Awk.field 1 v) then .skip
      else .hold (modeOf word) := by
    rw [split_awkCmd1 horigin hversion, ← hattempt]
    refine decision_of_merged hdelta hstatus ?_ hword hknown hback
    rw [hbefore]
    exact hmerged
  have hport : (split (awkCmd1 line)).port = lineOrigin line := by
    rw [split_awkCmd1 horigin hversion]
  have hline := @mainLoop_merged_line _ env s before after (split (awkCmd1 line)) fun l hl =>
    hport ▸ hsingle l (List.mem_append_right _ hl)
  rw [hport] at hline
  have hkept : decision env (mainLoop env s before) (split (awkCmd1 line)) = .skip →
      (mainLoop env s (before ++ split (awkCmd1 line) :: after)).merged (lineOrigin line) =
        s.merged (lineOrigin line) := by
    intro hskip
    rw [hline, mainStep_of_skip hskip]
    exact hbefore
  have hbuilt : decision env (mainLoop env s before) (split (awkCmd1 line)) =
        .hold (modeOf word) →
      (mainLoop env s (before ++ split (awkCmd1 line) :: after)).merged (lineOrigin line) =
        some (merge env.programs (env.fports (lineOrigin line)) (env.delta (lineOrigin line))
          (modeOf word) (mainLoop env s before).work).1 := by
    intro hhold
    have hmade := merged_of_hold hhold
    rw [hport] at hmade
    exact hline.trans hmade
  rw [toldApart_iff hversion]
  unfold DecidesByVersion
  constructor
  · rintro ⟨hsame, hdiffer⟩
    constructor
    · intro heq
      by_contra hne
      have hhold := (hdiffer hne).1
      rw [hdecision, if_pos heq] at hhold
      cases hhold
    · intro heq
      by_contra hneq
      have hskip := (hsame heq).1
      rw [hdecision, if_neg hneq] at hskip
      cases hskip
  · intro h
    constructor
    · intro heq
      have hskip := hdecision.trans (if_pos (h.mpr heq))
      exact ⟨hskip, hkept hskip⟩
    · intro hne
      have hhold := hdecision.trans (if_neg fun heq => hne (h.mp heq))
      exact ⟨hhold, hbuilt hhold⟩

def indexLine : Awk.Text := "rsync-1.10|/usr/ports/net/rsync|/usr/local".toList

def netRsync : Origin := "net/rsync".toList

def builtOnce : Hook.Event := ⟨.success, "rsync-1.1".toList, FileTree.empty⟩

def neverBuilt : Hook.State := ⟨none, none, none, none⟩

/-- `net/rsync` with the `STATUS` that a run of the hook leaves. -/
noncomputable def builtEnv (events : List Hook.Event) : Env Unit where
  fports _ := FileTree.empty
  dports _ := FileTree.empty
  delta _ := some
    ⟨(events.foldl (Hook.run netRsync) neverBuilt).status, none, none, none, FileTree.empty⟩
  programs := ⟨fun t _ => t, FileTree.Listing.any Path, Awk.decimals⟩

def mergedOnce : State := ⟨FileTree.empty, fun _ => some FileTree.empty⟩

/-- Awk takes 1.10 and 1.1 for the same number, so the new version is not merged. -/
theorem new_version_left_unmerged :
    ¬ DecidesByVersion (builtEnv [builtOnce]) mergedOnce [] [] indexLine
      (Hook.version builtOnce.pkgname) .port := by
  have htype : Hook.HasType "PORT".toList neverBuilt.status := rfl
  obtain ⟨line₁, line₂, rest, hstatus, hword, hattempt⟩ :=
    @Hook.status_of_run netRsync _ _ htype [] builtOnce
  intro h
  have htold : ToldApart Awk.decimals (lineVersion indexLine) (Hook.version builtOnce.pkgname) :=
    (decidesByVersion_iff (by decide) (by decide) (by decide) (by simp) rfl rfl hstatus hword
      (Or.inl rfl) hattempt).mp h
  have hten : Awk.looksNumeric (lineVersion indexLine) = some ⟨110, -2⟩ := by decide
  have hone : Awk.looksNumeric (Awk.field 1 (Hook.version builtOnce.pkgname)) = some ⟨11, -1⟩ := by
    decide
  have hvalue : (⟨110, -2⟩ : Awk.Decimal).value = 11 / 10 ∧
      (⟨11, -1⟩ : Awk.Decimal).value = 11 / 10 := by
    simp only [Awk.Decimal.value]
    norm_num
  obtain ⟨x, hdouble⟩ : ∃ x, Awk.strtod (11 / 10) = some x := by
    have habs : |(11 / 10 : ℚ)| = 11 / 10 := abs_of_pos (by norm_num)
    have hpow : (2 : ℚ) ^ 1 ≤ 2 ^ 1000 := pow_le_pow_right₀ one_le_two (by omega)
    refine ⟨_, Awk.strtod_eq (habs.ge.trans' (by norm_num)) (habs.trans_lt ?_)⟩
    exact lt_of_lt_of_le (by norm_num) hpow
  refine (htold (by decide)).2 x ?_ ?_
  · simp only [Awk.decimals, hten, Option.bind_some, hvalue.1]
    exact hdouble
  · rw [Awk.Reading.fieldNumber, if_neg (by decide)]
    simp only [Awk.decimals, hone, Option.bind_some, hvalue.2]
    exact hdouble

/-- After any run of build events that ends with `e`, a port in `MERGED` is left alone exactly
when its version in `INDEX` is the version of `e`, if and only if awk tells the two versions
apart when they differ. -/
theorem rebuilt_by_version_iff_told_apart {env : Env Diff} {s : State} {before after : List Work}
    {line word : Awk.Text} {dp : DeltaPort Diff} {start : Hook.State} {events : List Hook.Event}
    {e : Hook.Event} (hknown : word = "PORT".toList ∨ word = "DPORT".toList)
    (htype : Hook.HasType word start.status)
    (hstatus : dp.status = ((events ++ [e]).foldl (Hook.run (lineOrigin line)) start).status)
    (hdelta : env.delta (lineOrigin line) = some dp)
    (hmerged : (s.merged (lineOrigin line)).isSome)
    (hsingle : ∀ l ∈ before ++ after, l.port ≠ lineOrigin line)
    (horigin : Awk.Plain (lineOrigin line)) (hversion : Awk.Plain (lineVersion line))
    (hback : '\\' ∉ lineVersion line) :
    DecidesByVersion env s before after line (Hook.version e.pkgname) (modeOf word) ↔
      ToldApart env.programs.awk (lineVersion line) (Hook.version e.pkgname) := by
  obtain ⟨line₁, line₂, rest, hrun, hword, hattempt⟩ :=
    @Hook.status_of_run (lineOrigin line) _ _ htype events e
  rw [hrun] at hstatus
  exact decidesByVersion_iff horigin hversion hback hsingle hmerged hdelta hstatus hword hknown
    hattempt

def patchedOnce : Hook.Event := ⟨.failed, "rsync-1.2.9".toList, FileTree.empty⟩

def patchLine : Awk.Text := "rsync-1.2.10|/usr/ports/net/rsync|/usr/local".toList

/-- 1.2.9 and 1.2.10 are no numbers. -/
theorem rebuilt_by_version_patch_level :
    DecidesByVersion (builtEnv [builtOnce, patchedOnce]) mergedOnce [] [] patchLine
      "1.2.9".toList .port := by
  have hstart : Hook.HasType "PORT".toList neverBuilt.status := rfl
  have hdelta : (builtEnv [builtOnce, patchedOnce]).delta (lineOrigin patchLine) =
      some ⟨([builtOnce, patchedOnce].foldl (Hook.run netRsync) neverBuilt).status, none, none,
        none, FileTree.empty⟩ := rfl
  have hstatus : ([builtOnce, patchedOnce].foldl (Hook.run netRsync) neverBuilt).status =
      (([builtOnce] ++ [patchedOnce]).foldl (Hook.run (lineOrigin patchLine)) neverBuilt).status :=
    rfl
  apply (rebuilt_by_version_iff_told_apart (Or.inl rfl) hstart hstatus hdelta rfl (by simp)
    (by decide) (by decide) (by decide)).mpr
  intro _
  have hnone : Awk.decimals.number (lineVersion patchLine) = none :=
    Awk.decimals.text _ (by decide) (by decide)
  refine ⟨by decide, ?_⟩
  intro x hx
  have hnumber : Awk.decimals.number (lineVersion patchLine) = some x := hx
  rw [hnone] at hnumber
  cases hnumber

end DeltaPorts.Generator

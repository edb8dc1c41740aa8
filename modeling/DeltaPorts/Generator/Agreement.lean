import DeltaPorts.Generator.Sync1

/-!
# Where merge.sh and sync1.sh agree

For every backup `x.orig` that the diffs leave, `merge.sh` touches `x` before it removes the
backup. Where a diff has deleted `x` the touch makes an empty file of it.
-/

set_option autoImplicit false

namespace DeltaPorts.Generator

variable {Diff : Type}

/-- Of the frags in this order, one touches `p` when there is no such file. -/
def TouchedBack (area : Tree) (order : List Path) (p : Path) : Prop :=
  ∃ before frag after, order = before ++ frag :: after ∧ fragBase frag = some p ∧
    ¬ area.IsDir p ∧ (p ∉ area.paths ∨ p ∈ before)

theorem touchedBack_snoc {area : Tree} {order : List Path} {frag p : Path} :
    TouchedBack area (order ++ [frag]) p ↔
      TouchedBack area order p ∨
        fragBase frag = some p ∧ ¬ area.IsDir p ∧ (p ∉ area.paths ∨ p ∈ order) := by
  constructor
  · rintro ⟨before, f, after, heq, h⟩
    rcases List.eq_nil_or_concat after with rfl | ⟨rest, last, rfl⟩
    · obtain ⟨rfl, hf⟩ := List.append_inj' heq rfl
      rw [List.singleton_inj.mp hf]
      exact Or.inr h
    · rw [List.concat_eq_append, ← List.cons_append, ← List.append_assoc] at heq
      obtain ⟨rfl, _⟩ := List.append_inj' heq rfl
      exact Or.inl ⟨before, f, rest, rfl, h⟩
  · rintro (⟨before, f, after, rfl, h⟩ | h)
    · refine ⟨before, f, after ++ [frag], ?_, h⟩
      rw [List.append_assoc, List.cons_append]
    · exact ⟨order, frag, [], rfl, h⟩

theorem lastName_withLastName (p : Path) (n : Name) : lastName (withLastName p n) = n := by
  unfold withLastName lastName
  split
  · rfl
  · simp

/-- Files that differ in their last names lie in the same directories. -/
theorem below_withLastName {p q : Path} {n : Name} :
    FileTree.Below (withLastName p n) q ↔ FileTree.Below p q := by
  obtain ⟨top, rest⟩ := p
  rcases List.eq_nil_or_concat rest with rfl | ⟨dirs, last, rfl⟩
  · have hno := FileTree.not_below_top q
    exact ⟨fun h => absurd h (hno n), fun h => absurd h (hno top)⟩
  · have hconcat : ∀ m : Name, FileTree.Below (top, dirs ++ [m]) q ↔ top = q.1 ∧ q.2 <+: dirs := by
      intro m
      unfold FileTree.Below
      rw [List.prefix_concat_iff]
      constructor
      · rintro ⟨htop, heq | hpre, hne⟩
        · exact absurd (Prod.ext htop heq.symm) hne
        · exact ⟨htop, hpre⟩
      · rintro ⟨htop, hpre⟩
        refine ⟨htop, Or.inr hpre, ?_⟩
        rintro rfl
        have hlen := hpre.length_le
        rw [List.length_append, List.length_singleton] at hlen
        omega
    have hsibling : withLastName (top, dirs ++ [last]) n = (top, dirs ++ [n]) := by
      simp [withLastName]
    rw [List.concat_eq_append, hsibling, hconcat, hconcat]

theorem fragBase_eq_some {frag base : Path} (h : fragBase frag = some base) :
    base ≠ frag ∧ ∀ q, FileTree.Below base q ↔ FileTree.Below frag q := by
  unfold fragBase at h
  simp only at h
  split at h
  · rename_i hplain
    rw [Option.some_inj] at h
    subst h
    refine ⟨?_, fun q => below_withLastName⟩
    intro heq
    have hlast := congrArg (fun p => (lastName p).chars.length) heq
    simp only [lastName_withLastName, List.length_take] at hlast
    have hext : origExt.length = 5 := by decide
    have hne : (lastName frag).chars.length - origExt.length ≠ 0 := by
      intro hzero
      rw [hzero, List.take_zero] at hplain
      cases hplain
    omega
  · cases h

/-- The work area after the loop has gone through the frags of `order`. -/
def CleanedBy (area : Tree) (order : List Path) (t : Tree) : Prop :=
  ∀ p, (TouchedBack area order p → t.file p = some []) ∧
    (¬ TouchedBack area order p → t.file p = if p ∈ order then none else area.file p)

theorem CleanedBy.mem_paths {area t : Tree} {order : List Path} (ht : CleanedBy area order t)
    {q : Path} (hq : q ∈ t.paths) : q ∈ area.paths ∨ TouchedBack area order q := by
  by_cases htouched : TouchedBack area order q
  · exact Or.inr htouched
  · left
    by_contra harea
    have hfile := (ht q).2 htouched
    rw [FileTree.not_mem_paths.mp harea, ite_self] at hfile
    exact FileTree.not_mem_paths.mpr hfile hq

/-- A base that is no directory can be touched in the middle of the loop. -/
theorem CleanedBy.not_blocked {area t : Tree} {order : List Path} (ht : CleanedBy area order t)
    (horder : ∀ f ∈ order, f ∈ area.paths) {frag base : Path} (hfrag : frag ∈ area.paths)
    (hbase : fragBase frag = some base) (hdir : ¬ area.IsDir base) : ¬ t.Blocked base := by
  have hsame := (fragBase_eq_some hbase).2
  rintro ⟨q, hq, hbelow | hbelow⟩
  · rcases ht.mem_paths hq with harea | ⟨before, f, after, rfl, hf, _⟩
    · exact hdir ⟨q, harea, hbelow⟩
    · have hmem : f ∈ area.paths := horder f (List.mem_append_right _ List.mem_cons_self)
      exact hdir ⟨f, hmem, ((fragBase_eq_some hf).2 base).mp hbelow⟩
  · have hunder := (hsame q).mp hbelow
    rcases ht.mem_paths hq with harea | ⟨_, _, _, _, _, hno, _⟩
    · exact area.not_below q harea frag hfrag hunder
    · exact hno ⟨frag, hfrag, hunder⟩

theorem file_touch_of_ne {area t : Tree} {base p : Path} (h : p ≠ base) :
    (touch area t base).file p = t.file p := by
  unfold touch
  split
  · rfl
  · exact FileTree.file_insert_of_ne h

/-- A base that is gone is an empty file after the touch. -/
theorem CleanedBy.touch_gone {area t : Tree} {order : List Path} (ht : CleanedBy area order t)
    {base : Path} (hfree : ¬ t.Blocked base) (hdir : ¬ area.IsDir base)
    (hgone : base ∉ area.paths ∨ base ∈ order) : (touch area t base).file base = some [] := by
  by_cases htouched : TouchedBack area order base
  · have hfile := (ht base).1 htouched
    have hsame : touch area t base = t := if_pos (Or.inr (by rw [hfile]; rfl))
    rw [hsame, hfile]
  · have hfile := (ht base).2 htouched
    have hnone : t.file base = none := by
      rw [hfile]
      split
      · rfl
      · rename_i hno
        exact FileTree.not_mem_paths.mp (hgone.resolve_right hno)
    have hmade : touch area t base = t.insert base [] := by
      unfold touch
      rw [if_neg]
      simp [hdir, hnone]
    rw [hmade, FileTree.file_insert_self hfree]

theorem CleanedBy.step {area t : Tree} {order : List Path} (ht : CleanedBy area order t)
    (horder : ∀ f ∈ order, f ∈ area.paths) {frag : Path} (hfrag : frag ∈ area.paths)
    (hnew : frag ∉ order) : CleanedBy area (order ++ [frag]) (cleanFrag area t frag) := by
  intro p
  rw [touchedBack_snoc]
  by_cases hp : p = frag
  · subst hp
    have hnone : (cleanFrag area t p).file p = none := by simp [cleanFrag]
    have hno : ¬ (TouchedBack area order p ∨
        fragBase p = some p ∧ ¬ area.IsDir p ∧ (p ∉ area.paths ∨ p ∈ order)) := by
      rintro (⟨before, f, after, rfl, _, _, harea | hbefore⟩ | ⟨hself, _⟩)
      · exact harea hfrag
      · exact hnew (List.mem_append_left _ hbefore)
      · exact (fragBase_eq_some hself).1 rfl
    refine ⟨fun h => absurd h hno, fun _ => ?_⟩
    rw [hnone, if_pos (by simp)]
  · have hmem : p ∈ order ++ [frag] ↔ p ∈ order := by simp [hp]
    simp only [hmem, cleanFrag, FileTree.file_erase, if_neg hp]
    cases hbase : fragBase frag with
    | none => simpa using ht p
    | some base =>
      simp only [Option.some_inj]
      by_cases hpb : p = base
      · subst hpb
        by_cases hdir : area.IsDir p
        · simpa [touch, hdir] using ht p
        · by_cases hkept : p ∈ area.paths ∧ p ∉ order
          · have hno : ¬ TouchedBack area order p := by
              rintro ⟨before, f, after, rfl, _, _, harea | hbefore⟩
              · exact harea hkept.1
              · exact hkept.2 (List.mem_append_left _ hbefore)
            have hfile := (ht p).2 hno
            have hthere : (t.file p).isSome := by
              rw [hfile, if_neg hkept.2, ← area.mem_paths]
              exact hkept.1
            have hsame : touch area t p = t := if_pos (Or.inr hthere)
            rw [hsame]
            refine ⟨fun h => ?_, fun _ => hfile⟩
            rcases h with h | ⟨_, _, harea | hbefore⟩
            · exact absurd h hno
            · exact absurd hkept.1 harea
            · exact absurd hbefore hkept.2
          · have hgone : p ∉ area.paths ∨ p ∈ order := by
              by_cases harea : p ∈ area.paths
              · exact Or.inr (not_not.mp fun hp => hkept ⟨harea, hp⟩)
              · exact Or.inl harea
            have hfree := ht.not_blocked horder hfrag hbase hdir
            refine ⟨fun _ => ?_, fun hno => absurd (Or.inr ⟨rfl, hdir, hgone⟩) hno⟩
            exact ht.touch_gone hfree hdir hgone
      · simp only [Ne.symm hpb, false_and, or_false]
        rw [file_touch_of_ne hpb]
        exact ht p

theorem cleanedBy_foldl {area : Tree} {order : List Path} (horder : ∀ f ∈ order, f ∈ area.paths)
    (hnodup : order.Nodup) : CleanedBy area order (order.foldl (cleanFrag area) area) := by
  induction order using List.reverseRecOn with
  | nil =>
    intro p
    constructor
    · rintro ⟨before, f, after, heq, _⟩
      simp at heq
    · intro _
      rfl
  | append_singleton order frag ih =>
    rw [List.nodup_append] at hnodup
    have horder' : ∀ f ∈ order, f ∈ area.paths := fun f hf => horder f (by simp [hf])
    have hnew : frag ∉ order := fun h => hnodup.2.2 frag h frag (by simp) rfl
    rw [List.foldl_append, List.foldl_cons, List.foldl_nil]
    exact (ih horder' hnodup.1).step horder' (horder frag (by simp)) hnew

/-- The area that `merge.sh` cleans differs from the one that `sync1.sh` cleans by the empty
files that the touches make. -/
theorem file_cleanFrags (find : FileTree.Listing Path) (area : Tree) (p : Path) :
    (TouchedBack area (find.list (frags area)) p →
      (cleanFrags find area).file p = some [] ∧ (Sync1.removeOrigs area).file p = none) ∧
    (¬ TouchedBack area (find.list (frags area)) p →
      (cleanFrags find area).file p = (Sync1.removeOrigs area).file p) := by
  have hmem : ∀ q, q ∈ find.list (frags area) ↔ q ∈ area.paths ∧ isOrig q = true := by
    intro q
    rw [find.mem_list, frags, Finset.mem_filter]
  have hcleaned : CleanedBy area (find.list (frags area)) (cleanFrags find area) :=
    cleanedBy_foldl (fun f hf => ((hmem f).mp hf).1) (find.nodup_list _)
  refine ⟨fun h => ⟨(hcleaned p).1 h, ?_⟩, fun h => ?_⟩
  · obtain ⟨before, f, after, heq, _, _, harea | hbefore⟩ := h
    · simp [Sync1.removeOrigs, FileTree.not_mem_paths.mp harea]
    · have horig := ((hmem p).mp (heq ▸ List.mem_append_left _ hbefore)).2
      simp [Sync1.removeOrigs, horig]
  · rw [(hcleaned p).2 h]
    simp only [hmem]
    by_cases harea : p ∈ area.paths
    · cases horig : isOrig p <;> simp [Sync1.removeOrigs, harea, horig]
    · simp [Sync1.removeOrigs, harea, FileTree.not_mem_paths.mp harea]

/-- The base of every backup is a directory or a file that is still there when the loop comes to
the backup, or it is a temporary file of the legacy filter. -/
def OriginalsKept (find : FileTree.Listing Path) (area : Tree) : Prop :=
  ∀ before frag after, find.list (frags area) = before ++ frag :: after →
    ∀ base, fragBase frag = some base →
      area.IsDir base ∨ base ∈ area.paths ∧ base ∉ before ∨
        ∃ item ∈ getLegacy (Sync1.removeOrigs area), base = (item.filtered, [])

theorem originalsKept_iff {find : FileTree.Listing Path} {area : Tree} :
    OriginalsKept find area ↔ ∀ p, TouchedBack area (find.list (frags area)) p →
      ∃ item ∈ getLegacy (Sync1.removeOrigs area), p = (item.filtered, []) := by
  constructor
  · rintro h p ⟨before, frag, after, heq, hbase, hdir, hgone⟩
    rcases h before frag after heq p hbase with hp | ⟨harea, hleft⟩ | hp
    · exact absurd hp hdir
    · rcases hgone with hgone | hgone
      · exact absurd harea hgone
      · exact absurd hgone hleft
    · exact hp
  · intro h before frag after heq base hbase
    by_cases hdir : area.IsDir base
    · exact Or.inl hdir
    · by_cases hthere : base ∈ area.paths ∧ base ∉ before
      · exact Or.inr (Or.inl hthere)
      · refine Or.inr (Or.inr (h base ⟨before, frag, after, heq, hbase, hdir, ?_⟩))
        by_cases harea : base ∈ area.paths
        · exact Or.inr (not_not.mp fun hleft => hthere ⟨harea, hleft⟩)
        · exact Or.inl harea

theorem getLegacy_cleanFrags (find : FileTree.Listing Path) (area : Tree) :
    getLegacy (cleanFrags find area) = getLegacy (Sync1.removeOrigs area) := by
  apply getLegacy_congr
  intro p
  by_cases h : TouchedBack area (find.list (frags area)) p
  · obtain ⟨hmade, hnone⟩ := (file_cleanFrags find area p).1 h
    rw [hmade, hnone]
    decide
  · rw [(file_cleanFrags find area p).2 h]

theorem transform_cleaned_iff (find : FileTree.Listing Path) (area : Tree) :
    transform (Sync1.removeOrigs area) (getLegacy (Sync1.removeOrigs area)) =
        transform (cleanFrags find area) (getLegacy (cleanFrags find area)) ↔
      OriginalsKept find area := by
  rw [getLegacy_cleanFrags, originalsKept_iff]
  have hlegacy : ∀ n ∈ getLegacy (Sync1.removeOrigs area),
      ¬ TouchedBack area (find.list (frags area)) (n, []) := by
    intro n hn h
    obtain ⟨c, hc, _⟩ := (mem_getLegacy.mp hn).2
    rw [((file_cleanFrags find area _).1 h).2] at hc
    cases hc
  constructor
  · intro heq p h
    by_contra hno
    have halone : ∀ n ∈ getLegacy (Sync1.removeOrigs area),
        p ≠ (n, []) ∧ p ≠ (n.filtered, []) := by
      intro n hn
      constructor
      · rintro rfl
        exact hlegacy n hn h
      · rintro rfl
        exact hno ⟨n, hn, rfl⟩
    have hfile := congrArg (fun t : Tree => t.file p) heq
    obtain ⟨hmade, hnone⟩ := (file_cleanFrags find area p).1 h
    simp only [file_transform_of_not_mem halone, hmade, hnone] at hfile
    cases hfile
  · intro h
    apply transform_congr
    · intro n hn
      exact ((file_cleanFrags find area _).2 (hlegacy n hn)).symm
    · intro p
      by_cases htouched : TouchedBack area (find.list (frags area)) p
      · exact Or.inr (h p htouched)
      · exact Or.inl ((file_cleanFrags find area p).2 htouched).symm

def patchedArea (env : Env Diff) (port : Origin) (dp : DeltaPort Diff) (d : Diffs Diff) : Tree :=
  applyDiffs env.programs.patch d (copyOverlay dp (env.fports port))

theorem sync1_merge_eq_iff (env : Env Diff) (port : Origin) (dp : DeltaPort Diff) :
    Sync1.merge env.programs (env.fports port) (some dp) .port =
        (merge env.programs (env.fports port) (some dp) .port FileTree.empty).1 ↔
      ∀ d ∈ dp.diffs, OriginalsKept env.programs.find (patchedArea env port dp d) := by
  by_cases hbare : dp.bare = true
  · have hdiffs : dp.diffs = none := by
      simp only [DeltaPort.bare, Bool.and_eq_true, Option.isNone_iff_eq_none] at hbare
      exact hbare.2
    simp [Sync1.merge, merge, hbare, hdiffs]
  · simp only [Sync1.merge, merge, hbare]
    cases hdiffs : dp.diffs with
    | none => simp [Sync1.overlaidArea, overlaidArea, hdiffs]
    | some d =>
      simp only [Sync1.overlaidArea, overlaidArea, hdiffs, Option.mem_some_iff, forall_eq']
      exact transform_cleaned_iff env.programs.find _

/-- `STATUS` is missing, or has two lines at least and starts with one of the known words. -/
def StatusKnown (dp : DeltaPort Diff) : Prop :=
  dp.status = none ∨ ∃ line₁ line₂ rest, dp.status = some (line₁ :: line₂ :: rest) ∧
    Awk.field 1 line₁ ∈ ["PORT".toList, "DPORT".toList, "LOCK".toList, "MASK".toList]

/-- The port is merged from `FPORTS` with an overlay. -/
def DeltaPort.TakenAsPort (dp : DeltaPort Diff) : Prop :=
  Sync1.firstWord dp.status = [] ∨ Sync1.firstWord dp.status = "PORT".toList

/-- What both scripts do with the port, neither of whose results exists yet. -/
theorem decision_of_statusKnown {env : Env Diff} {s : State} {line : Work} {dp : DeltaPort Diff}
    (hdelta : env.delta line.port = some dp) (hstatus : StatusKnown dp)
    (hmerged : s.merged line.port = none) :
    (dp.TakenAsPort ∧ decision env s line = .hold .port) ∨
    (Sync1.firstWord dp.status = "DPORT".toList ∧ decision env s line = .hold .dport) ∨
    (Sync1.firstWord dp.status = "LOCK".toList ∧ decision env s line = .lock) ∨
    (Sync1.firstWord dp.status = "MASK".toList ∧ decision env s line = .mask) := by
  unfold decision DeltaPort.TakenAsPort
  simp only [hdelta, hmerged, Option.isSome_none]
  rcases hstatus with hnone | ⟨line₁, line₂, rest, hsome, hword⟩
  · simp [hnone, Sync1.firstWord, awkCmd2]
  · simp only [List.mem_cons, List.not_mem_nil, or_false] at hword
    rcases hword with hword | hword | hword | hword <;>
      simp [hsome, Sync1.firstWord, awkCmd2, hword]

/-- `sync1.sh` leaves in `POTENTIAL/<port>` what `merge.sh` leaves in `MERGED/<port>`. -/
def Agrees (env : Env Diff) (s : State) (t : Sync1.State) (line : Work) : Prop :=
  (Sync1.sync1 env t line.port).potential line.port = (mainStep env s line).merged line.port

theorem agrees_port_iff {env : Env Diff} {s : State} {t : Sync1.State} {line : Work}
    {dp : DeltaPort Diff} (hdelta : env.delta line.port = some dp) (htaken : dp.TakenAsPort)
    (hport : decision env s line = .hold .port) (hwork : s.work = FileTree.empty) :
    Agrees env s t line ↔
      ∀ d ∈ dp.diffs, OriginalsKept env.programs.find (patchedArea env line.port dp d) := by
  rw [← sync1_merge_eq_iff]
  unfold Agrees mainStep Sync1.sync1 Sync1.potential
  rw [hport, hwork]
  rcases htaken with hword | hword <;> simp [hdelta, hword, State.setMerged]

/-- If the port is merged from `FPORTS` and has diffs, these leave every file whose backup they
leave. -/
def DiffsKeepOriginals (env : Env Diff) (port : Origin) : Prop :=
  ∀ dp ∈ env.delta port, dp.TakenAsPort → ∀ d ∈ dp.diffs,
    OriginalsKept env.programs.find (patchedArea env port dp d)

def oldFile : Name := ⟨"pkg-message".toList, by decide⟩

def oldBackup : Name := ⟨"pkg-message.orig".toList, by decide⟩

/-- `patch` empties the file, removes it and leaves the backup. -/
def deleteOld (t : Tree) (_ : Unit) : Tree :=
  (t.erase (oldFile, [])).insert (oldBackup, []) ((t.file (oldFile, [])).getD [])

def deletingPort : DeltaPort Unit where
  status := some ["PORT".toList, "Last attempt: 1.0".toList]
  makefileDragonFly := none
  dragonfly := none
  diffs := some ⟨none, [()]⟩
  newport := FileTree.empty

noncomputable def deletingEnv : Env Unit where
  fports _ := FileTree.single (oldFile, []) "Start it from rc.conf.".toList
  dports _ := FileTree.empty
  delta _ := some deletingPort
  programs := ⟨deleteOld, FileTree.Listing.any Path, Awk.decimals⟩

def emptyStart : State := ⟨FileTree.empty, fun _ => none⟩

def emptySync : Sync1.State := ⟨fun _ => none, fun _ => none⟩

theorem statusKnown_deletingPort : StatusKnown deletingPort :=
  Or.inr ⟨_, _, _, rfl, by decide⟩

def deletingLine : Work := ⟨"net/a".toList, "1.0".toList⟩

noncomputable def deletedArea : Tree := patchedArea deletingEnv deletingLine.port deletingPort ⟨none, [()]⟩

theorem backup_left : (oldBackup, []) ∈ frags deletedArea := by decide

theorem decision_deletingLine : decision deletingEnv emptyStart deletingLine = .hold .port := by
  have hdelta : deletingEnv.delta deletingLine.port = some deletingPort := rfl
  have hmerged : emptyStart.merged deletingLine.port = none := rfl
  rcases decision_of_statusKnown hdelta statusKnown_deletingPort hmerged with
    ⟨_, h⟩ | ⟨hword, _⟩ | ⟨hword, _⟩ | ⟨hword, _⟩
  · exact h
  all_goals
    revert hword
    decide

/-- In `MERGED` the deleted file is back, and empty. -/
theorem deleted_file_comes_back : ¬ Agrees deletingEnv emptyStart emptySync deletingLine := by
  intro h
  rw [agrees_port_iff rfl (Or.inr (by decide)) decision_deletingLine rfl] at h
  have hlisted := (deletingEnv.programs.find.mem_list _ _).mpr backup_left
  obtain ⟨before, after, heq⟩ := List.append_of_mem hlisted
  have hbase : fragBase (oldBackup, []) = some (oldFile, []) := by decide
  have hgone : (oldFile, []) ∉ deletedArea.paths := by decide
  rcases h _ rfl before (oldBackup, []) after heq (oldFile, []) hbase with
    hdir | ⟨hfile, _⟩ | ⟨item, _, hlegacy⟩
  · revert hdir
    decide
  · exact hgone hfile
  · have hext : ".filtered".toList <:+ oldFile.chars :=
      ⟨item.chars, (congrArg (fun p : Path => p.1.chars) hlegacy).symm⟩
    revert hext
    decide

/-- The two scripts agree on a port that neither has merged yet, if and only if the diffs of a
port taken from `FPORTS` leave each file whose backup they leave. -/
theorem sync1_agrees_iff_diffs_keep_originals {env : Env Diff} {s : State} {t : Sync1.State} {line : Work}
    (hstatus : ∀ dp ∈ env.delta line.port, StatusKnown dp) (hwork : s.work = FileTree.empty)
    (hmerged : s.merged line.port = none) :
    Agrees env s t line ↔ DiffsKeepOriginals env line.port := by
  unfold DiffsKeepOriginals
  cases hdelta : env.delta line.port with
  | none =>
    unfold Agrees mainStep Sync1.sync1 Sync1.potential
    simp [decision, hdelta, State.setMerged, merge, Sync1.merge, hwork]
  | some dp =>
    rw [hdelta] at hstatus
    simp only [Option.mem_some_iff, forall_eq'] at hstatus ⊢
    rcases decision_of_statusKnown hdelta hstatus hmerged with
      ⟨htaken, hd⟩ | ⟨hword, hd⟩ | ⟨hword, hd⟩ | ⟨hword, hd⟩
    · rw [agrees_port_iff hdelta htaken hd hwork]
      simp [htaken]
    all_goals
      unfold Agrees mainStep Sync1.sync1 Sync1.potential
      simp [hd, hdelta, hword, State.setMerged, DeltaPort.TakenAsPort, Sync1.merge, merge]

/-- A diff that changes a file and leaves it and its backup. -/
def changeOld (t : Tree) (_ : Unit) : Tree :=
  (t.insert (oldBackup, []) ((t.file (oldFile, [])).getD [])).insert (oldFile, []) []

noncomputable def changingEnv : Env Unit :=
  { deletingEnv with programs := ⟨changeOld, FileTree.Listing.any Path, Awk.decimals⟩ }

noncomputable def changedArea : Tree :=
  patchedArea changingEnv deletingLine.port deletingPort ⟨none, [()]⟩

/-- The same port with a diff that changes the file is merged alike. -/
theorem sync1_agrees_changed_file : Agrees changingEnv emptyStart emptySync deletingLine := by
  apply (sync1_agrees_iff_diffs_keep_originals (fun dp hdp => ?_) rfl rfl).mpr
  · rintro dp hdp _ d hd before frag after heq base hbase
    cases hdp
    cases hd
    have honly : ∀ f ∈ frags changedArea, f = (oldBackup, []) := by decide
    have hlisted : ∀ f ∈ before ++ frag :: after, f = (oldBackup, []) := fun f hf =>
      honly f ((changingEnv.programs.find.mem_list _ f).mp (heq ▸ hf))
    rw [hlisted frag (by simp)] at hbase
    have hfound : fragBase (oldBackup, []) = some (oldFile, []) := by decide
    rw [hfound, Option.some_inj] at hbase
    subst hbase
    refine Or.inr (Or.inl ⟨?_, fun h => ?_⟩)
    · have hkept : (oldFile, []) ∈ changedArea.paths := by decide
      exact hkept
    · have hbackup := hlisted _ (List.mem_append_left _ h)
      revert hbackup
      decide
  · cases hdp
    exact statusKnown_deletingPort

end DeltaPorts.Generator

import DeltaPorts.Library.Accounts
import DeltaPorts.Library.Awk
import DeltaPorts.Library.LineTools
import Mathlib.Data.List.Infix

/-!
# The users and groups of the ports

The filters `00.fix_gids.sh` and `01.fix_uids.sh` write the ports' `GIDs` and `UIDs` again, each
with two entries of its own. The old generator's `merge-mk.sh` has the same entries but one.
-/

set_option autoImplicit false

namespace DeltaPorts.NewGenerator.UserIds

open Accounts
open LineTools (lines unlines)

abbrev Text := Awk.Text

/-- `awk '/pattern/ { print …; print …; } 1'` -/
def awkInsert (pattern : Text) (printed : List Text) (file : Text) : Text :=
  unlines (insertBefore (fun line => decide (pattern <:+: line)) printed (lines file))

def nogroup : Text := "nogroup:".toList

def nobody : Text := "nobody:".toList

/-- What `AWKGID` prints. -/
def gidLines : List Text := ["avenger:*:60149:".toList, "cbsd:*:60150:".toList]

/-- What `AWKUID` prints. -/
def uidLines : List Text :=
  ["avenger:*:60149:60149::0:0:Mail Avenger:/var/spool/avenger:/usr/sbin/nologin".toList,
    "cbsd:*:60150:150::0:0:Cbsd user:/nonexistent:/bin/sh".toList]

/-- What `AWKUID` of `merge-mk.sh` prints. -/
def mergeMkUidLines : List Text :=
  ["avenger:*:60149:60149::0:0:Mail Avenger:/var/spool/avenger:/usr/sbin/nologin".toList,
    "cbsd:*:60150:60150::0:0:Cbsd user:/nonexistent:/bin/sh".toList]

/-- `00.fix_gids.sh` -/
def fixGids (gids : Text) : Text := awkInsert nogroup gidLines gids

/-- `01.fix_uids.sh` -/
def fixUids (uids : Text) : Text := awkInsert nobody uidLines uids

def mergeMkUids (uids : Text) : Text := awkInsert nobody mergeMkUidLines uids

/-- A line with fields that is no comment. -/
def isEntry (line : Text) : Bool := line.head? ≠ some '#' && decide (':' ∈ line)

def number (field : Text) : Option Nat :=
  match Awk.digits 0 field with
  | (n, _ + 1, []) => some n
  | _ => none

def entryOf (gidField : Nat) (line : Text) : Entry Text Nat :=
  { name := ((line.splitOn ':')[0]?).getD []
    gid := ((line.splitOn ':')[gidField - 1]?).bind number }

def entries (gidField : Nat) (ls : List Text) : List (Entry Text Nat) :=
  (ls.filter isEntry).map (entryOf gidField)

def users (uids : Text) : List (Entry Text Nat) := entries 4 (lines uids)

def groups (gids : Text) : List (Entry Text Nat) := entries 3 (lines gids)

def containing (pattern file : Text) : Nat :=
  (lines file).countP fun line => decide (pattern <:+: line)

structure Upstream where
  uids : Text
  gids : Text
  one_nobody : containing nobody uids = 1
  one_nogroup : containing nogroup gids = 1
  consistent : Consistent (users uids) (groups gids)

theorem lines_awkInsert {pattern file : Text} {printed : List Text}
    (hprinted : ∀ line ∈ printed, '\n' ∉ line) :
    lines (awkInsert pattern printed file) =
      insertBefore (fun line => decide (pattern <:+: line)) printed (lines file) := by
  apply LineTools.lines_unlines
  intro line hline
  cases mem_insertBefore _ _ hline with
  | inl hnew => exact hprinted line hnew
  | inr hold => exact LineTools.newline_not_mem_lines hold

/-- The printed lines are entries of the file beside those that it had. -/
theorem entries_awkInsert {pattern file : Text} {printed : List Text} (gidField : Nat)
    (hprinted : ∀ line ∈ printed, '\n' ∉ line) (hone : containing pattern file = 1) :
    (entries gidField (lines (awkInsert pattern printed file))).Perm
      (entries gidField printed ++ entries gidField (lines file)) := by
  rw [lines_awkInsert hprinted]
  unfold entries
  rw [← List.map_append, ← List.filter_append]
  exact ((insertBefore_perm _ printed hone).filter isEntry).map (entryOf gidField)

def avenger : Entry Text Nat := ⟨"avenger".toList, some 60149⟩

def cbsd (gid : Nat) : Entry Text Nat := ⟨"cbsd".toList, some gid⟩

theorem gidLines_entries : entries 3 gidLines = [avenger, cbsd 60150] := by decide +kernel

theorem uidLines_entries : entries 4 uidLines = [avenger, cbsd 150] := by decide +kernel

theorem mergeMkUidLines_entries : entries 4 mergeMkUidLines = [avenger, cbsd 60150] := by decide +kernel

def Unnamed (names : List Text) : Prop := avenger.name ∉ names ∧ "cbsd".toList ∉ names

theorem fresh_iff (gid : Nat) (old : List (Entry Text Nat)) :
    Entry.Fresh [avenger, cbsd gid] old ↔ Unnamed (old.map Entry.name) := by
  have hnodup : ([avenger, cbsd gid].map Entry.name).Nodup := by
    change ["avenger".toList, "cbsd".toList].Nodup
    decide
  unfold Entry.Fresh Unnamed
  rw [List.forall_mem_cons, List.forall_mem_singleton]
  exact and_iff_right hnodup

theorem defines_own_iff (gid : Nat) :
    Defines [avenger, cbsd 60150] (some gid) ↔ gid = 60149 ∨ gid = 60150 := by
  constructor
  · intro ⟨_, group, hgroup, hgid⟩
    cases List.mem_cons.mp hgroup with
    | inl heq =>
      rw [heq] at hgid
      exact .inl (Option.some_inj.mp hgid).symm
    | inr hmem =>
      rw [List.mem_singleton.mp hmem] at hgid
      exact .inr (Option.some_inj.mp hgid).symm
  · intro h
    refine ⟨Option.some_ne_none gid, ?_⟩
    cases h with
    | inl heq => exact ⟨avenger, List.mem_cons_self, congrArg some heq.symm⟩
    | inr heq =>
      exact ⟨cbsd 60150, List.mem_cons_of_mem avenger List.mem_cons_self, congrArg some heq.symm⟩

/-- The entries that are printed are right when nobody had their names and when the group of
`cbsd` is there. -/
theorem inserted_consistent_iff (p : Upstream) {printed : List Text} {gid : Nat}
    (hprinted : ∀ line ∈ printed, '\n' ∉ line)
    (hentries : entries 4 printed = [avenger, cbsd gid]) :
    Consistent (users (awkInsert nobody printed p.uids)) (groups (fixGids p.gids)) ↔
      Unnamed ((users p.uids).map Entry.name) ∧ Unnamed ((groups p.gids).map Entry.name) ∧
        (gid = 60149 ∨ gid = 60150 ∨ Defines (groups p.gids) (some gid)) := by
  have hgidLines : ∀ line ∈ gidLines, '\n' ∉ line := by decide
  have husers := entries_awkInsert 4 hprinted p.one_nobody
  have hgroups := entries_awkInsert 3 hgidLines p.one_nogroup
  rw [hentries] at husers
  rw [gidLines_entries] at hgroups
  refine (consistent_perm husers hgroups).trans ?_
  refine (consistent_append_iff _ _ p.consistent).trans ?_
  rw [fresh_iff, fresh_iff, List.forall_mem_cons, List.forall_mem_singleton]
  have havenger : Defines ([avenger, cbsd 60150] ++ groups p.gids) avenger.gid :=
    defines_append_iff.mpr (.inl ((defines_own_iff 60149).mpr (.inl rfl)))
  have hcbsd : Defines ([avenger, cbsd 60150] ++ groups p.gids) (cbsd gid).gid ↔
      gid = 60149 ∨ gid = 60150 ∨ Defines (groups p.gids) (some gid) := by
    rw [defines_append_iff, ← or_assoc]
    exact or_congr_left (defines_own_iff gid)
  rw [hcbsd]
  exact and_congr_right fun _ => and_congr_right fun _ => and_iff_right havenger

/-- The files stay consistent only where upstream has a group 150 for the new user `cbsd`. -/
theorem written_consistent_iff (p : Upstream) :
    Consistent (users (fixUids p.uids)) (groups (fixGids p.gids)) ↔
      Unnamed ((users p.uids).map Entry.name) ∧ Unnamed ((groups p.gids).map Entry.name) ∧
        Defines (groups p.gids) (some 150) := by
  unfold fixUids
  have hother : ¬ (150 = 60149) ∧ ¬ (150 = 60150) := by decide
  rw [inserted_consistent_iff p (by decide) uidLines_entries, or_iff_right hother.1,
    or_iff_right hother.2]

/-- The old generator gives `cbsd` the group that it adds. -/
theorem mergeMk_consistent_iff (p : Upstream) :
    Consistent (users (mergeMkUids p.uids)) (groups (fixGids p.gids)) ↔
      Unnamed ((users p.uids).map Entry.name) ∧
        Unnamed ((groups p.gids).map Entry.name) := by
  unfold mergeMkUids
  rw [inserted_consistent_iff p (by decide) mergeMkUidLines_entries]
  exact and_congr_right fun _ => and_iff_left (.inr (.inl rfl))

def smallUids : Text :=
  "nobody:*:65534:65534::0:0:Unprivileged user:/nonexistent:/usr/sbin/nologin\n".toList

def smallGids : Text := "nogroup:*:65533:\nnobody:*:65534:\n".toList

def small : Upstream where
  uids := smallUids
  gids := smallGids
  one_nobody := by decide +kernel
  one_nogroup := by decide +kernel
  consistent := by
    have husers : users smallUids = [⟨"nobody".toList, some 65534⟩] := by
      decide +kernel
    have hgroups : groups smallGids =
        [⟨"nogroup".toList, some 65533⟩, ⟨"nobody".toList, some 65534⟩] := by decide +kernel
    rw [husers, hgroups]
    exact {
      users_nodup := List.nodup_singleton _
      groups_nodup := by decide
      defined := List.forall_mem_singleton.mpr
        ⟨Option.some_ne_none _, _, List.mem_cons_of_mem _ List.mem_cons_self, rfl⟩ }

theorem cbsd_group_undefined :
    ¬ ∀ p : Upstream, Consistent (users (fixUids p.uids)) (groups (fixGids p.gids)) := by
  intro h
  have husers : cbsd 150 ∈ users (fixUids smallUids) := by decide +kernel
  obtain ⟨_, group, hgroup, hgid⟩ := (h small).defined _ husers
  have hgids : ∀ group ∈ groups (fixGids smallGids), group.gid ≠ some 150 := by
    decide +kernel
  exact hgids group hgroup hgid

end DeltaPorts.NewGenerator.UserIds

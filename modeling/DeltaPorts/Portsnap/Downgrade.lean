import DeltaPorts.Library.Walks
import DeltaPorts.Portsnap.Recovery

/-!
# No downgrade

Once a snapshot is in place, every run takes the path of an update, wherever the runs before it
were interrupted. An update leaves the snapshot in place after each of its commands, and moves
the new tag over the old one only when its date is not older, unless the tag has no date or the
words of its third field name the files of the snapshot, which `rm -f ${SNAPSHOTHASH}` removes.
-/

set_option autoImplicit false

namespace DeltaPorts.Portsnap

open LineTools Script

variable {t : Tools} {cfg : Config} {srv : Server} {d s u v : Dir} {new : Bytes}
variable {words : List Text}

def tagDate (d : Dir) : Option Nat := d.tag.bind snapshotDate

/-- A snapshot in `u` is still there in `v`, and is not older. -/
def NoDowngrade (u v : Dir) : Prop :=
  hasSnapshot u = true →
    hasSnapshot v = true ∧ ∀ a, tagDate u = some a → ∃ b, tagDate v = some b ∧ a ≤ b

/-- The directory after each command of a run. -/
def passed (t : Tools) (cfg : Config) (d : Dir) : Event → List Dir
  | .finish srv => (fetchRun t cfg srv d).trace
  | .interrupt srv commands => (fetchRun t cfg srv d).trace.take commands

/-- The directory after each command of the runs. -/
def history (t : Tools) (cfg : Config) (d : Dir) : List Event → List Dir
  | [] => []
  | e :: es =>
    let ds := passed t cfg d e
    ds ++ history t cfg (ds.getLast?.getD d) es

/-- The second field is a number, and the third one does not name the lists. -/
def Harmless (new : Bytes) : Prop :=
  snapshotDate new ≠ none ∧ ¬ NamesLists (snapshotHash new)

instance (new : Bytes) : Decidable (Harmless new) := by
  unfold Harmless
  infer_instance

/-- The tag that the update of a run from `d` goes on with. -/
def HarmlessRun (t : Tools) (cfg : Config) (d : Dir) (e : Event) : Prop :=
  ∀ s new, Start t cfg e.server d s → Takes t e.server s new true → Harmless new

def HarmlessRuns (t : Tools) (cfg : Config) (d : Dir) : List Event → Prop
  | [] => True
  | e :: es => HarmlessRun t cfg d e ∧ HarmlessRuns t cfg ((passed t cfg d e).getLast?.getD d) es

structure Keeps (u v : Dir) : Prop where
  tag : v.tag = u.tag
  tINDEX : v.tINDEX = u.tINDEX
  INDEX : v.INDEX = u.INDEX
  files : v.files.isSome = u.files.isSome

theorem Keeps.refl (u : Dir) : Keeps u u := ⟨rfl, rfl, rfl, rfl⟩

theorem keeps_of_store (h : v.toStore = u.toStore) : Keeps u v := by
  refine ⟨?_, ?_, ?_, ?_⟩ <;> rw [h]

theorem Keeps.trans (hsu : Keeps s u) (huv : Keeps u v) : Keeps s v :=
  ⟨huv.tag.trans hsu.tag, huv.tINDEX.trans hsu.tINDEX, huv.INDEX.trans hsu.INDEX,
    huv.files.trans hsu.files⟩

theorem Keeps.hasSnapshot_eq (h : Keeps u v) : hasSnapshot v = hasSnapshot u := by
  unfold hasSnapshot
  rw [h.tag, h.tINDEX, h.INDEX, h.files]

theorem Keeps.noDowngrade (h : Keeps u v) : NoDowngrade u v := by
  intro hu
  refine ⟨h.hasSnapshot_eq.trans hu, fun a ha => ⟨a, ?_, Nat.le_refl a⟩⟩
  rw [← ha, tagDate, tagDate, h.tag]

theorem NoDowngrade.trans (hsu : NoDowngrade s u) (huv : NoDowngrade u v) : NoDowngrade s v := by
  intro hs
  obtain ⟨hu, hdate⟩ := hsu hs
  obtain ⟨hv, hdate'⟩ := huv hu
  refine ⟨hv, fun a ha => ?_⟩
  obtain ⟨b, hb, hab⟩ := hdate a ha
  obtain ⟨c, hc, hbc⟩ := hdate' b hb
  exact ⟨c, hc, Nat.le_trans hab hbc⟩

theorem noDowngrade_of_missing (h : hasSnapshot u = false) : NoDowngrade u v := by
  intro hu
  rw [h] at hu
  cases hu

/-- Only the files in the store and the files that were fetched have changed. -/
structure Brings (u v : Dir) : Prop where
  dir : v = { u with files := v.files, fetched := v.fetched }
  files : v.files.isSome = u.files.isSome

theorem Brings.refl (u : Dir) : Brings u u := ⟨rfl, rfl⟩

theorem Brings.trans (hsu : Brings s u) (huv : Brings u v) : Brings s v := by
  refine ⟨?_, huv.files.trans hsu.files⟩
  rw [huv.dir, hsu.dir]

theorem Brings.keeps (h : Brings u v) : Keeps u v := by
  refine ⟨?_, ?_, ?_, h.files⟩ <;> rw [h.dir]

theorem brings_putFile (name : Text) (b : Bytes) (u : Dir) : Brings u (putFile name b u) :=
  ⟨rfl, by simp [putFile]⟩

theorem brings_rmFile (name : Text) (u : Dir) : Brings u (rmFile name u) :=
  ⟨rfl, by simp [rmFile]⟩

theorem brings_gzipFile (name : Text) (u : Dir) : Brings u (gzipFile t name u) := by
  unfold gzipFile
  split
  · exact (brings_putFile _ _ u).trans (brings_rmFile _ _)
  · exact .refl u

theorem brings_moveFetched (y : Text) (u : Dir) : Brings u (moveFetched y u) := by
  unfold moveFetched
  split
  · exact .refl u
  · exact (brings_putFile _ _ u).trans ⟨rfl, rfl⟩

theorem bring_brings (b : Batch) : Walks (fun _ => True) (bring t b) Brings fun _ _ => True := by
  have hdownload (names : List Text) (server : Members) :
      Walks (fun _ => True) (downloadAll names server) Brings fun _ _ => True :=
    Walks.forLines names _ fun name _ => Walks.cmd fun u _ => ⟨⟨rfl, rfl⟩, trivial⟩
  have hrm (name : Text) : Walks (fun _ => True) (cmd (rmFetched name)) Brings fun _ _ => True :=
    Walks.cmd fun u _ => ⟨⟨rfl, rfl⟩, trivial⟩
  have hpatch (p : Text × Text) :
      Walks (fun _ => True) (applyPatch t b p) Brings fun _ _ => True := by
    unfold applyPatch
    refine Walks.bindRead fun u _ => ?_
    split
    · exact Walks.pure fun _ _ => trivial
    · refine Walks.bindRead fun u _ => ?_
      split
      · exact (hrm _).weaken (fun _ _ => trivial) (fun _ _ h => h) fun _ _ h => h
      · refine Walks.ite (fun _ => ?_) fun _ =>
          (hrm _).weaken (fun _ _ => trivial) (fun _ _ h => h) fun _ _ h => h
        refine Walks.bindCmd (J := fun _ => True) (fun u _ => ⟨brings_putFile _ _ u, trivial⟩) ?_
        refine Walks.bindCmd (J := fun _ => True) (fun u _ => ⟨brings_gzipFile _ u, trivial⟩) ?_
        exact hrm _
  have hverify (y : Text) : Walks (fun _ => True) (verifyFile t y) Brings fun _ _ => True := by
    unfold verifyFile
    refine Walks.bindRead fun u _ => Walks.ite (fun _ => ?_) fun _ => Walks.pure fun _ _ => trivial
    refine Walks.bindCmd (J := fun _ => True) (fun u _ => ⟨brings_moveFetched y u, trivial⟩) ?_
    exact Walks.pure fun _ _ => trivial
  unfold bring
  refine Walks.bindRead fun u _ => Walks.bind (J := fun _ _ => True) ?_ fun _ => ?_
  · exact (hdownload _ _).weaken (fun _ _ => trivial) (fun _ _ h => h) fun _ _ h => h
  refine Walks.bind (J := fun _ _ => True) (Walks.forLines _ _ fun p _ => hpatch p) fun _ => ?_
  refine Walks.bindRead fun u _ => Walks.bind (J := fun _ _ => True) ?_ fun _ => ?_
  · exact (hdownload _ _).weaken (fun _ _ => trivial) (fun _ _ h => h) fun _ _ h => h
  exact Walks.allLines _ _ fun y _ => hverify y

/-- The commands that ask for the key or for a tag keep the snapshot. -/
theorem fetchKeys_keep (t : Tools) (cfg : Config) (srv : Server) :
    Walks (· = d) (anyLine srv.pubs (fetchKey t cfg)) Keeps fun ok u =>
      ok = true → u = keyed t cfg srv d ∧ goodKey t cfg u = true := by
  have hpub (k : Option Bytes) (u : Dir) : Keeps u { u with pub := k } := ⟨rfl, rfl, rfl, rfl⟩
  have hkey (answer : Option Bytes) : Walks (fun _ => True) (fetchKey t cfg answer) Keeps
      fun _ _ => True := by
    unfold fetchKey
    refine Walks.bindRead fun s _ => Walks.ite (fun _ => Walks.pure fun _ _ => trivial) fun _ => ?_
    refine Walks.bindCmd (J := fun _ => True) (fun u _ => ⟨hpub none u, trivial⟩) ?_
    refine Walks.bindCmd (J := fun _ => True) (fun u _ => ⟨hpub answer u, trivial⟩) ?_
    refine Walks.bindRead fun u _ => Walks.ite (fun _ => Walks.pure fun _ _ => trivial) fun _ => ?_
    exact Walks.bindCmd (J := fun _ => True) (fun v _ => ⟨hpub none v, trivial⟩)
      (Walks.pure fun _ _ => trivial)
  have hkeys : Walks (fun _ => True) (anyLine srv.pubs (fetchKey t cfg)) Keeps fun _ _ => True :=
    (Walks.anyLine (K := fun _ => True) _ _ fun answer _ => (hkey answer).weaken (fun _ h => h)
      (fun _ _ h => h) fun ok _ _ => by cases ok <;> trivial).weaken (fun _ h => h)
      (fun _ _ h => h) fun _ _ _ => trivial
  have hfrom : Walks (· = d) (anyLine srv.pubs (fetchKey t cfg)) Keeps fun _ _ => True :=
    hkeys.weaken (fun _ _ => trivial) (fun _ _ h => h) fun _ _ h => h
  refine (hfrom.also (fetchKeys_spec srv.pubs)).weaken (fun _ h => h) (fun _ _ h => h)
    fun ok u hu hok => ?_
  subst hok
  exact hu.2

theorem fetchTags_keep (t : Tools) (srv : Server) (which : Which) :
    Walks (· = s) (anyLine (srv.ssls which) (fetchTag t which)) Keeps fun ok u => ok = true →
      Keeps s u ∧ TagCalled which s u ∧
        ∃ new, offeredTag t srv s which = some new ∧ u.tagNew = some new := by
  have hsame (u v : Dir) (h : v.toStore = u.toStore) : Keeps u v := keeps_of_store h
  have htag (answer : Option Bytes) : Walks (fun _ => True) (fetchTag t which answer) Keeps
      fun _ _ => True := by
    unfold fetchTag
    refine Walks.bindCmd (J := fun _ => True) (fun u _ => ⟨hsame _ _ rfl, trivial⟩) ?_
    refine Walks.bindCmd (J := fun _ => True) (fun u _ => ⟨hsame _ _ rfl, trivial⟩) ?_
    refine Walks.bindRead fun s _ => ?_
    split
    · exact Walks.pure fun _ _ => trivial
    refine Walks.bindCmd (J := fun _ => True) (fun u _ => ⟨hsame _ _ rfl, trivial⟩) ?_
    refine Walks.bindCmd (J := fun _ => True) (fun u _ => ⟨hsame _ _ rfl, trivial⟩) ?_
    exact Walks.read fun _ _ => trivial
  have htags : Walks (fun _ => True) (anyLine (srv.ssls which) (fetchTag t which)) Keeps
      fun _ _ => True :=
    (Walks.anyLine (K := fun _ => True) _ _ fun answer _ => (htag answer).weaken (fun _ h => h)
      (fun _ _ h => h) fun ok _ _ => by cases ok <;> trivial).weaken (fun _ h => h)
      (fun _ _ h => h) fun _ _ _ => trivial
  have hends := Walks.ends Keeps.refl Keeps.trans (s := s)
    (htags.weaken (fun _ _ => trivial) (fun _ _ h => h) fun _ _ h => h)
  refine (hends.also (fetchTags_spec which)).weaken (fun _ h => h) (fun _ _ h => h)
    fun ok u hu hok => ?_
  subst hok
  exact ⟨hu.1.1, hu.2⟩

theorem fetchMetadata_walks {P : Dir → Prop} {R : Dir → Dir → Prop}
    (hrm : ∀ u, P u → R u { rmNames words u with tINDEXnew := none } ∧
      P { rmNames words u with tINDEXnew := none })
    (hput : ∀ u x, P u → R u { u with tINDEXnew := some x } ∧ P { u with tINDEXnew := some x }) :
    Walks P (fetchMetadata t srv words) R fun _ => P := by
  unfold fetchMetadata
  refine Walks.bindCmd (J := P) hrm ?_
  split
  · split
    · exact Walks.pure fun _ h => h
    · rename_i x _
      refine Walks.ite (fun _ => ?_) fun _ => Walks.pure fun _ h => h
      exact Walks.bindCmd (J := P) (fun u hu => hput u x hu) (Walks.pure fun _ h => h)
  · exact Walks.pure fun _ h => h

/-- The new files are there to be renamed, with this tag. -/
structure Fetched (new : Bytes) (u : Dir) : Prop where
  tagNew : u.tagNew = some new
  tINDEXnew : u.tINDEXnew ≠ none
  INDEXnew : u.INDEXnew ≠ none

theorem Fetched.of_brings (hu : Fetched new u) (h : Brings u v) : Fetched new v := by
  refine ⟨?_, ?_, ?_⟩ <;> rw [h.dir]
  · exact hu.tagNew
  · exact hu.tINDEXnew
  · exact hu.INDEXnew

/-- `prepare` keeps the snapshot, but for what the words of the hash name. -/
theorem prepare_walks {R : Dir → Dir → Prop} (hR : ∀ u v, Keeps u v → R u v)
    (hrm : ∀ u, R u { rmNames words u with tINDEXnew := none }) (t : Tools) (cfg : Config)
    (srv : Server) (hnew : s.tagNew = some new) :
    Walks (· = s) (prepare t cfg srv words) R fun ok u => ok = true → Fetched new u := by
  unfold prepare
  refine Walks.orFail (J := fun u => u.tagNew = some new ∧ u.tINDEXnew ≠ none) ?_ ?_
  · have hall : Walks (fun _ => True) (fetchMetadata t srv words) R fun _ _ => True :=
      fetchMetadata_walks (fun u _ => ⟨hrm u, trivial⟩)
        fun u _ _ => ⟨hR _ _ (keeps_of_store rfl), trivial⟩
    have hmetadata : Walks (· = s) (fetchMetadata t srv words) R fun _ _ => True :=
      hall.weaken (fun _ _ => trivial) (fun _ _ h => h) fun _ _ h => h
    refine (hmetadata.also (fetchMetadata_spec words)).weaken (fun _ h => h) (fun _ _ h => h)
      fun ok u hu => ?_
    cases ok with
    | false => exact nofun
    | true =>
      obtain ⟨_, x, s', _, _, hsame, rfl⟩ := hu
      exact ⟨hsame.tagNew.trans hnew, Option.some_ne_none x⟩
  refine Walks.orFail (J := fun u => u.tagNew = some new ∧ u.tINDEXnew ≠ none) ?_ ?_
  · refine Walks.read fun u hu => ?_
    split
    · exact hu
    · exact nofun
  refine Walks.orFail (J := fun u => u.tagNew = some new ∧ u.tINDEXnew ≠ none) ?_ ?_
  · unfold bringMetadata
    refine Walks.bindRead fun s hs => ?_
    have hbring := Walks.ends Brings.refl Brings.trans (s := s)
      ((bring_brings (t := t) (metadataBatch t srv (s.tINDEX.getD []) (s.tINDEXnew.getD []))).weaken
        (fun _ _ => trivial) (fun _ _ h => h) fun _ _ h => h)
    refine hbring.weaken (fun _ h => h) (fun _ _ h => hR _ _ h.keeps) fun ok u hu => ?_
    cases ok with
    | false => exact nofun
    | true =>
      show u.tagNew = some new ∧ u.tINDEXnew ≠ none
      rw [hu.1.dir]
      exact hs
  refine Walks.bindCmd (J := Fetched new)
    (fun u hu => ⟨hR _ _ (keeps_of_store rfl), hu.1, hu.2, Option.some_ne_none _⟩) ?_
  refine Walks.orFail (J := Fetched new) ?_ ?_
  · refine Walks.read fun u hu => ?_
    split
    · exact hu
    · exact nofun
  refine Walks.bindCmd (J := Fetched new) (fun u hu => ?_) ?_
  · unfold hybrid
    split
    · exact ⟨hR _ _ (.refl u), hu⟩
    · exact ⟨hR _ _ (keeps_of_store rfl), hu.tagNew, hu.tINDEXnew, Option.some_ne_none _⟩
  unfold bringPorts
  refine Walks.bindRead fun s hs => ?_
  have hbring := Walks.ends Brings.refl Brings.trans (s := s)
    ((bring_brings (t := t) (portsBatch t srv (s.INDEX.getD []) (s.INDEXnew.getD []))).weaken
      (fun _ _ => trivial) (fun _ _ h => h) fun _ _ h => h)
  exact hbring.weaken (fun _ h => h) (fun _ _ h => hR _ _ h.keeps)
    fun ok u hu _ => hs.of_brings hu.1

theorem removeUnneeded_brings : Walks (fun _ => True) removeUnneeded Brings fun _ _ => True := by
  unfold removeUnneeded
  refine Walks.bindRead fun s _ => ?_
  have hloop : Walks (fun _ => True) (forLines (unneeded s) fun h => cmd (rmFile (gz h))) Brings
      fun _ _ => True :=
    Walks.forLines _ _ fun h _ => Walks.cmd fun u _ => ⟨brings_rmFile _ u, trivial⟩
  exact hloop.weaken (fun _ _ => trivial) (fun _ _ h => h) fun _ _ h => h

/-- The tag in `u` is not newer than `new`. -/
def NotNewer (new : Bytes) (u : Dir) : Prop :=
  ∀ a, tagDate u = some a → ∃ b, snapshotDate new = some b ∧ a ≤ b

theorem noDowngrade_of_tag_eq (htag : v.tag = u.tag)
    (hsnap : hasSnapshot u = true → hasSnapshot v = true) : NoDowngrade u v := by
  intro hu
  refine ⟨hsnap hu, fun a ha => ⟨a, ?_, Nat.le_refl a⟩⟩
  rw [← ha, tagDate, tagDate, htag]

theorem rename_noDowngrade : Walks (fun u => Fetched new u ∧ NotNewer new u) rename NoDowngrade
    fun _ _ => True := by
  unfold rename
  refine Walks.bindCmd (J := fun u => u.tagNew = some new ∧ u.tINDEXnew ≠ none ∧ NotNewer new u) ?_ <|
    Walks.bindCmd (J := fun u => u.tagNew = some new ∧ NotNewer new u) ?_ <| Walks.cmd ?_
  · rintro u ⟨hu, hnewer⟩
    refine ⟨noDowngrade_of_tag_eq rfl fun hsnap => ?_, hu.tagNew, hu.tINDEXnew, hnewer⟩
    simp only [hasSnapshot, Bool.and_eq_true] at hsnap ⊢
    exact ⟨⟨hsnap.1.1, Option.isSome_iff_ne_none.mpr hu.INDEXnew⟩, hsnap.2⟩
  · rintro u ⟨htag, htINDEX, hnewer⟩
    refine ⟨noDowngrade_of_tag_eq rfl fun hsnap => ?_, htag, hnewer⟩
    simp only [hasSnapshot, Bool.and_eq_true] at hsnap ⊢
    exact ⟨hsnap.1, Option.isSome_iff_ne_none.mpr htINDEX⟩
  · rintro u ⟨htag, hnewer⟩
    refine ⟨fun hsnap => ⟨?_, fun a ha => ?_⟩, trivial⟩
    · simp only [hasSnapshot, Bool.and_eq_true] at hsnap ⊢
      refine ⟨⟨⟨hsnap.1.1.1, ?_⟩, hsnap.1.2⟩, hsnap.2⟩
      rw [htag]
      rfl
    · obtain ⟨b, hb, hab⟩ := hnewer a ha
      refine ⟨b, ?_, hab⟩
      show u.tagNew.bind snapshotDate = some b
      rw [htag]
      exact hb

/-- What the date check of an update is for. -/
theorem notNewer_of_sane {now : Nat} (hdate : snapshotDate new ≠ none)
    (hsane : updateTagSanity now (u.tag.getD []) new = true) : NotNewer new u := by
  intro a ha
  obtain ⟨b, hb⟩ := Option.ne_none_iff_exists'.mp hdate
  obtain ⟨old, hold, hdate⟩ := Option.bind_eq_some_iff.mp ha
  refine ⟨b, hb, ?_⟩
  simp only [updateTagSanity, hold, Option.getD_some, hdate, hb, Bool.and_eq_true,
    Bool.not_eq_true', decide_eq_false_iff_not] at hsane
  omega

theorem fetchUpdate_noDowngrade (hsame : SameStart s u)
    (hharmless : ∀ new, Takes t srv s new true → Harmless new) :
    Walks (· = u) (fetchUpdate t cfg srv) NoDowngrade fun _ _ => True := by
  have hkeeps : ∀ u v, Keeps u v → NoDowngrade u v := fun _ _ h => h.noDowngrade
  unfold fetchUpdate
  refine Walks.bindCmd (J := fun v => v = { u with INDEXnew := none }) ?_ ?_
  · rintro v rfl
    exact ⟨hkeeps _ _ (keeps_of_store rfl), rfl⟩
  refine Walks.bindRead ?_
  rintro v rfl
  refine Walks.orFail (J := fun v => Keeps u v ∧
    ∃ new, offeredTag t srv s .latest = some new ∧ v.tagNew = some new) ?_ ?_
  · refine (fetchTags_keep t srv .latest).weaken (fun _ h => h) hkeeps fun ok v hv => ?_
    cases ok with
    | false => trivial
    | true =>
      obtain ⟨hkept, _, new, hoffered, hnew⟩ := hv rfl
      refine ⟨(keeps_of_store rfl : Keeps u { u with INDEXnew := none }).trans hkept, new, ?_, hnew⟩
      rw [← hsame.offeredTag]
      exact hoffered
  refine Walks.bindRead fun v hv => ?_
  obtain ⟨hkept, new, hoffered, hnew⟩ := hv
  rw [hnew, Option.getD_some]
  refine Walks.ite (fun _ => Walks.pure fun _ _ => trivial) fun hsane => ?_
  refine Walks.ite (fun _ => ?_) fun hneeded => ?_
  · refine Walks.bindCmd (J := fun _ => True) ?_ (Walks.pure fun _ _ => trivial)
    exact fun v _ => ⟨hkeeps _ _ (keeps_of_store rfl), trivial⟩
  have hsane : updateTagSanity srv.now (u.tag.getD []) new = true := by simpa using hsane
  have htag : u.tag = s.tag := by rw [hsame.store]
  obtain ⟨hdate, hnames⟩ := hharmless new
    ⟨hoffered, htag ▸ hsane, htag ▸ (by simpa using hneeded)⟩
  have hsane' : updateTagSanity srv.now (v.tag.getD []) new = true := by
    rw [hkept.tag]
    exact hsane
  have hnewer : NotNewer new v := notNewer_of_sane hdate hsane'
  refine Walks.orFail (J := fun v => Fetched new v ∧ NotNewer new v) ?_ ?_
  · have hprepare := Walks.ends Keeps.refl Keeps.trans (s := v)
      (prepare_walks (fun _ _ h => h) (fun u => keeps_of_store (rmNames_store hnames u)) t cfg srv
        hnew)
    refine hprepare.weaken (fun _ h => h) hkeeps fun ok w hw => ?_
    cases ok with
    | false => trivial
    | true =>
      refine ⟨hw.2 rfl, fun a ha => hnewer a ?_⟩
      rw [← ha, tagDate, tagDate, hw.1.tag]
  refine Walks.bind (J := fun _ v => Fetched new v ∧ NotNewer new v)
    (Walks.from fun v hv => ?_) fun _ => ?_
  · have hremove := Walks.ends Brings.refl Brings.trans (s := v)
      (removeUnneeded_brings.weaken (fun _ _ => trivial) (fun _ _ h => h) fun _ _ h => h)
    refine hremove.weaken (fun _ h => h) (fun _ _ h => hkeeps _ _ h.keeps) fun _ w hw => ?_
    refine ⟨hv.1.of_brings hw.1, fun a ha => hv.2 a ?_⟩
    rw [← ha, tagDate, tagDate, hw.1.keeps.tag]
  · exact Walks.bind rename_noDowngrade fun _ => Walks.pure fun _ _ => trivial

/-- No snapshot is there until the last of the files is renamed. -/
theorem installSnapshot_noDowngrade : Walks (fun u => hasSnapshot u = false) installSnapshot
    NoDowngrade fun _ _ => True := by
  have hnone (u : Dir) (hu : u.files = none) : hasSnapshot u = false := by
    simp [hasSnapshot, hu]
  unfold installSnapshot
  refine Walks.bindCmd (J := fun u => hasSnapshot u = false)
    (fun u hu => ⟨noDowngrade_of_missing hu, by simp [hasSnapshot]⟩) ?_
  refine Walks.bindCmd (J := fun u => u.files = none)
    (fun u hu => ⟨noDowngrade_of_missing hu, rfl⟩) ?_
  refine Walks.bindCmd (J := fun u => u.files = none)
    (fun u hu => ⟨noDowngrade_of_missing (hnone u hu), hu⟩) ?_
  refine Walks.bindCmd (J := fun u => u.files = none)
    (fun u hu => ⟨noDowngrade_of_missing (hnone u hu), hu⟩) ?_
  refine Walks.bindCmd (J := fun u => u.files = none)
    (fun u hu => ⟨noDowngrade_of_missing (hnone u hu), hu⟩) ?_
  exact Walks.cmd fun u hu => ⟨noDowngrade_of_missing (hnone u hu), trivial⟩

theorem fetchSnapshot_noDowngrade : Walks (fun u => hasSnapshot u = false) (fetchSnapshot t srv)
    NoDowngrade fun _ _ => True := by
  have hcmd (f : Dir → Dir) (hf : ∀ u, Keeps u (f u)) (u : Dir) (hu : hasSnapshot u = false) :
      NoDowngrade u (f u) ∧ hasSnapshot (f u) = false :=
    ⟨(hf u).noDowngrade, (hf u).hasSnapshot_eq.trans hu⟩
  have hread (f : Dir → Bool) : Walks (fun u => hasSnapshot u = false) (read f) NoDowngrade
      fun ok u => if ok then hasSnapshot u = false else True := by
    refine Walks.read fun u hu => ?_
    split
    · exact hu
    · trivial
  unfold fetchSnapshot
  refine Walks.orFail (J := fun u => hasSnapshot u = false) (Walks.from fun s hs => ?_) ?_
  · refine (fetchTags_keep t srv .snapshot).weaken (fun _ h => h)
      (fun _ _ h => h.noDowngrade) fun ok u hu => ?_
    cases ok with
    | false => trivial
    | true => exact (hu rfl).1.hasSnapshot_eq.trans hs
  refine Walks.bindRead fun s hs => Walks.ite (fun _ => Walks.pure fun _ _ => trivial) fun _ => ?_
  refine Walks.orFail (J := fun u => hasSnapshot u = false) ?_
    (Walks.orFail (J := fun u => hasSnapshot u = false) (hread _) ?_)
  · have hmetadata : Walks (fun u => hasSnapshot u = false)
        (fetchMetadata t srv (snapshotHash (s.tagNew.getD []))) NoDowngrade
        fun _ u => hasSnapshot u = false :=
      fetchMetadata_walks
        (fun u hu => ⟨noDowngrade_of_missing hu, (left_rmNames _ u none).hasSnapshot_eq hu⟩)
        (fun u x hu => ⟨noDowngrade_of_missing hu, hu⟩)
    refine hmetadata.weaken (fun _ h => h ▸ hs) (fun _ _ h => h) fun ok u hu => ?_
    cases ok with
    | false => trivial
    | true => exact hu
  refine Walks.bindCmd (J := fun u => hasSnapshot u = false)
    (hcmd _ fun _ => keeps_of_store rfl) ?_
  split
  · exact Walks.pure fun _ _ => trivial
  refine Walks.bindCmd (J := fun u => hasSnapshot u = false)
    (hcmd _ fun _ => keeps_of_store rfl) ?_
  refine Walks.orFail (J := fun u => hasSnapshot u = false) (hread _) ?_
  refine Walks.bindCmd (J := fun u => hasSnapshot u = false)
    (hcmd _ fun _ => keeps_of_store rfl) ?_
  refine Walks.bindCmd (J := fun u => hasSnapshot u = false)
    (hcmd _ fun _ => keeps_of_store rfl) ?_
  refine Walks.orFail (J := fun u => hasSnapshot u = false) (hread _) ?_
  refine Walks.orFail (J := fun u => hasSnapshot u = false) (hread _) ?_
  exact Walks.bind installSnapshot_noDowngrade fun _ => Walks.pure fun _ _ => trivial

theorem fetchRun_noDowngrade
    (hharmless : ∀ s new, Start t cfg srv d s → Takes t srv s new true → Harmless new) :
    Walks (· = d) (fetchRun t cfg srv) NoDowngrade fun _ _ => True := by
  have hkeeps : ∀ u v, Keeps u v → NoDowngrade u v := fun _ _ h => h.noDowngrade
  unfold fetchRun
  refine Walks.orFail (J := fun u => u = keyed t cfg srv d ∧ goodKey t cfg u = true) ?_ ?_
  · refine (fetchKeys_keep t cfg srv).weaken (fun _ h => h) hkeeps fun ok u hu => ?_
    cases ok with
    | false => trivial
    | true => exact hu rfl
  refine Walks.bindRead ?_
  rintro _ ⟨rfl, hkey⟩
  refine Walks.ite (fun hsnapshot => ?_) fun hsnapshot => ?_
  · exact fetchUpdate_noDowngrade (.refl _) fun new => hharmless _ new (.present hkey hsnapshot)
  have hkeyed : hasSnapshot (keyed t cfg srv d) = false := by simpa using hsnapshot
  refine Walks.orFail (J := fun u => ∃ s, Start t cfg srv d s ∧ SameStart s u) ?_
    (Walks.from ?_)
  · have hwalks : Walks (· = keyed t cfg srv d) (fetchSnapshot t srv) NoDowngrade fun _ _ => True :=
      fetchSnapshot_noDowngrade.weaken (by rintro _ rfl; exact hkeyed) (fun _ _ h => h)
        fun _ _ h => h
    refine (hwalks.also (fetchSnapshot_spec hkeyed)).weaken (fun _ h => h) (fun _ _ h => h)
      fun ok u hu => ?_
    cases ok with
    | false => trivial
    | true =>
      obtain ⟨_, new, x, members, hsnapshot, hsame⟩ := hu
      exact ⟨_, .fetched hkey hkeyed hsnapshot, hsame⟩
  rintro u ⟨s, hstart, hsame⟩
  exact fetchUpdate_noDowngrade hsame fun new => hharmless s new hstart

theorem passed_trail {e : Event} (h : HarmlessRun t cfg d e) :
    ∃ u, Trail NoDowngrade d (passed t cfg d e) u := by
  cases e with
  | finish srv => exact ⟨_, (fetchRun_noDowngrade h d rfl).1⟩
  | interrupt srv commands => exact (fetchRun_noDowngrade h d rfl).1.take commands

theorem history_trail {es : List Event} (h : HarmlessRuns t cfg d es) :
    ∃ u, Trail NoDowngrade d (history t cfg d es) u := by
  induction es generalizing d with
  | nil => exact ⟨d, rfl⟩
  | cons e es ih =>
    obtain ⟨v, hv⟩ := passed_trail h.1
    have hrest := h.2
    rw [hv.getLast] at hrest
    obtain ⟨u, hu⟩ := ih hrest
    refine ⟨u, ?_⟩
    unfold history
    simp only [hv.getLast]
    exact hv.append hu

def wordsKey : Bytes := unlines (["-----BEGIN PUBLIC KEY-----",
  "MIGfMA0GCSqGSIb3DQEBAQUAA4GNADCBiQKBgQCj+mQf5Rc5OZoHviadKP32/6Mt",
  "kRV4eWQXroe+g0mFsuN9LwUIDx7SVPeJOn4aIQmipa0BM8PnVIhCvtRps8XHT8wa",
  "T+QBAzhPkr6JYJI2xc9qjyeEyHWSDRUtEn48Er6Qep4FK/5pA1LHabQV0CyQ/hOg",
  "czRBW6q+Q7b6QRaB/QIDAQAB",
  "-----END PUBLIC KEY-----"].map String.toList)

def wordsKeyHash : Text := hash 0x81eec45a5c4c289f0112b78fa43c2f4c084997e405f20312064f7543d59d51cb

def wordsTag : Bytes := tagLine 1200086400 (onePortMetadataHash ++ " tag INDEX".toList)

def wordsSignature : Bytes := ofBytes
  [56, 216, 25, 237, 57, 92, 209, 247, 243, 63, 130, 63, 167, 156, 176, 126, 209, 213, 77, 167,
   90, 28, 227, 33, 226, 57, 226, 202, 52, 168, 58, 60, 161, 89, 254, 105, 244, 76, 119, 20, 91,
   173, 33, 100, 246, 59, 130, 105, 48, 66, 17, 124, 202, 239, 186, 237, 61, 79, 161, 138, 244,
   147, 99, 163, 26, 228, 15, 13, 129, 219, 51, 228, 134, 86, 233, 141, 170, 76, 85, 147, 104,
   163, 32, 59, 249, 249, 110, 206, 56, 173, 137, 42, 128, 16, 238, 244, 187, 87, 145, 21, 30, 61,
   218, 125, 223, 215, 85, 231, 159, 106, 83, 29, 117, 98, 110, 253, 200, 129, 53, 150, 152, 56,
   156, 132, 116, 211, 208, 127]

def wordsTools : Tools :=
  tableTools [([], emptyHash), (wordsKey, wordsKeyHash)] [] [(wordsSignature, wordsTag)] wordsKey

def wordsConfig : Config := ⟨wordsKeyHash, none⟩

def wordsServer : Server :=
  { someServer wordsSignature onePortMetadata onePortMetadataHash fun _ => none with
    pubs := [some wordsKey] }

theorem words_removed : hasSnapshot twoPortsDir = true ∧
    (passed wordsTools wordsConfig twoPortsDir (.finish wordsServer)).any (fun d => !hasSnapshot d) =
      true := by
  decide +kernel

theorem lists_named_by_tag_removed : isTag wordsTag = true ∧
    wordsTools.verify wordsKey wordsSignature = wordsTag ∧
    ¬ (twoPortsDir :: history wordsTools wordsConfig twoPortsDir
      [.finish wordsServer]).Pairwise NoDowngrade := by
  obtain ⟨hsnapshot, hremoved⟩ := words_removed
  refine ⟨by decide +kernel, by decide +kernel, fun hpairwise => ?_⟩
  obtain ⟨u, hu, hnone⟩ := List.any_eq_true.mp hremoved
  have hmem : u ∈ history wordsTools wordsConfig twoPortsDir [.finish wordsServer] :=
    List.mem_append_left _ hu
  have hkept := (List.pairwise_cons.mp hpairwise).1 u hmem hsnapshot
  rw [hkept.1] at hnone
  cases hnone

/-- Of any two directories that the runs pass through, the later one has a snapshot if the
earlier one has, and no older one, as long as the tags are harmless. -/
theorem never_downgrades_when_harmless (d : Dir) (es : List Event)
    (hharmless : HarmlessRuns t cfg d es) : (d :: history t cfg d es).Pairwise NoDowngrade := by
  obtain ⟨u, hu⟩ := history_trail hharmless
  exact hu.pairwise NoDowngrade.trans

/-- Runs are harmless when the owner of the key has signed nothing else. -/
theorem harmlessRuns_of_signed (h : ∀ x, SignedTag t cfg x → Harmless x) (d : Dir)
    (es : List Event) : HarmlessRuns t cfg d es := by
  induction es generalizing d with
  | nil => trivial
  | cons e es ih =>
    refine ⟨fun s new hstart htakes => ?_, ih _⟩
    exact h new (signed_of_offeredTag hstart.goodKey htakes.tag)

theorem someTools_harmless : ∀ x, SignedTag someTools someConfig x → Harmless x := by
  rintro x ⟨⟨key, signature, _, rfl⟩, htag⟩
  rw [someTools_signed key signature htag]
  decide +kernel

theorem never_downgrades_twoPorts : (twoPortsDir :: history someTools someConfig twoPortsDir
    [.interrupt onePortServer 12, .finish cleanServer]).Pairwise NoDowngrade :=
  never_downgrades_when_harmless _ _ (harmlessRuns_of_signed someTools_harmless _ _)

end DeltaPorts.Portsnap

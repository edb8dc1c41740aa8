import DeltaPorts.Portsnap.Prepare

/-!
# What a run asks for

The key and the tags that a run takes are the first ones among the answers that pass the checks.
From the tag of the snapshot follow its metadata and its tarball, and so the store that the update
starts from; from the latest tag follows the metadata that the update is for.
-/

set_option autoImplicit false

namespace DeltaPorts.Portsnap

open LineTools Script

variable {t : Tools} {cfg : Config} {srv : Server} {d s s' u : Dir} {new x : Bytes}
variable {members : Members}

/-- The key that is there, or else the first answer with the right checksum. -/
def keyOf (t : Tools) (cfg : Config) (pub : Option Bytes) (answers : List (Option Bytes)) :
    Option Bytes :=
  (pub :: answers).reduceOption.find? fun key => t.sha256 key == cfg.keyprint

/-- The first text that is signed and looks like a tag. -/
def tagOf (t : Tools) (key : Bytes) (signatures : List (Option Bytes)) : Option Bytes :=
  (signatures.reduceOption.map (t.verify key)).find? isTag

/-- When the first download fails, the file that an interrupted run has left is looked at. -/
def signatures (left : Option Bytes) : List (Option Bytes) → List (Option Bytes)
  | [] => []
  | answer :: answers => answer.or left :: answers

/-- The signature that a call of `fetch_tag` finds in the directory. -/
def leftSignature (d : Dir) : Which → Option Bytes
  | .snapshot => none
  | .latest => d.ssl .latest

/-- The directory of a run when the key is there. -/
def keyed (t : Tools) (cfg : Config) (srv : Server) (d : Dir) : Dir :=
  { d with pub := keyOf t cfg d.pub srv.pubs }

theorem sameStore_keyed (t : Tools) (cfg : Config) (srv : Server) (d : Dir) :
    SameStore d (keyed t cfg srv d) := .of_eq rfl rfl

def offeredTag (t : Tools) (srv : Server) (s : Dir) (which : Which) : Option Bytes :=
  tagOf t (s.pub.getD []) (signatures (leftSignature s which) (srv.ssls which))

/-- The tag that an update from `s` takes, and whether it is needed. -/
structure Takes (t : Tools) (srv : Server) (s : Dir) (new : Bytes) (needed : Bool) : Prop where
  tag : offeredTag t srv s .latest = some new
  sane : updateTagSanity srv.now (s.tag.getD []) new = true
  needed : updateNeeded (s.tag.getD []) new = needed

/-- The metadata that a tag names. -/
structure Names (t : Tools) (srv : Server) (new x : Bytes) : Prop where
  hash : snapshotHash new = [t.sha256 x]
  served : srv.metadata (t.sha256 x) = some x
  metadataLines : metadataLines x = true
  look : (t.look "INDEX".toList x).length = 1

/-- The update from `s` is for the metadata `x`. -/
structure Asks (t : Tools) (srv : Server) (s : Dir) (new x : Bytes) : Prop
    extends Takes t srv s new true, Names t srv new x

def snapshotIndex (t : Tools) (x : Bytes) (members : Members) : Bytes :=
  gunzipName t members (gz (indexHash t x))

/-- The snapshot that is fetched into `s`, with the checks that it passes. -/
structure Snapshot (t : Tools) (srv : Server) (s : Dir) (new x : Bytes) (members : Members) : Prop
    extends Names t srv new x where
  tag : offeredTag t srv s .snapshot = some new
  sane : snapshotTagSanity srv.now new = true
  tarball : srv.tarball (t.sha256 x) = some members
  indexLines : indexLines (snapshotIndex t x members) = true
  verified : ∀ f ∈ hashes x ++ hashes (snapshotIndex t x members),
    t.sha256 (gunzipName t members f) = f

def snapshotStore (t : Tools) (new x : Bytes) (members : Members) : Store :=
  ⟨some new, some x, some (snapshotIndex t x members), some members⟩

/-- The directory that the update of a run in `d` starts from. -/
inductive Start (t : Tools) (cfg : Config) (srv : Server) (d : Dir) : Dir → Prop where
  | present : goodKey t cfg (keyed t cfg srv d) = true → hasSnapshot d = true →
      Start t cfg srv d (keyed t cfg srv d)
  | fetched {new x : Bytes} {members : Members} : goodKey t cfg (keyed t cfg srv d) = true →
      hasSnapshot d = false → Snapshot t srv (keyed t cfg srv d) new x members →
      Start t cfg srv d { keyed t cfg srv d with toStore := snapshotStore t new x members }

/-- `SameStore`, and the key and what is left of the signatures are as they were. -/
structure SameStart (s u : Dir) : Prop extends SameStore s u where
  pub : u.pub = s.pub
  left : leftSignature u = leftSignature s

theorem SameStart.refl (s : Dir) : SameStart s s := ⟨.refl s, rfl, rfl⟩

theorem SameStart.offeredTag (h : SameStart s u) (which : Which) :
    offeredTag t srv u which = offeredTag t srv s which := by
  unfold Portsnap.offeredTag
  rw [h.pub, h.left]

theorem SameStart.takes {needed : Bool} (h : SameStart s u) (htakes : Takes t srv u new needed) :
    Takes t srv s new needed := by
  have htag : u.tag = s.tag := by rw [h.store]
  exact ⟨(h.offeredTag .latest).symm.trans htakes.tag, htag ▸ htakes.sane, htag ▸ htakes.needed⟩

theorem SameStart.asks (h : SameStart s u) (hasks : Asks t srv u new x) : Asks t srv s new x :=
  ⟨h.takes hasks.toTakes, hasks.toNames⟩

theorem ready_snapshotStore (h : Snapshot t srv s new x members) :
    (snapshotStore t new x members).Ready where
  tag := Option.some_ne_none new
  tINDEX := ⟨x, rfl, h.metadataLines⟩
  INDEX := ⟨_, rfl, h.indexLines⟩
  files := Option.some_ne_none members

theorem Start.ready (hd : hasSnapshot d = true → d.Ready) (h : Start t cfg srv d s) : s.Ready := by
  cases h with
  | present _ hsnapshot => exact hd hsnapshot
  | fetched _ _ hsnapshot => exact ready_snapshotStore hsnapshot

theorem Start.goodKey (h : Start t cfg srv d s) : goodKey t cfg s = true := by
  cases h with
  | present hkey _ => exact hkey
  | fetched hkey _ _ => exact hkey

/-- What the owner of the key has signed, and `fetch_tag` takes for a tag. -/
structure SignedTag (t : Tools) (cfg : Config) (x : Bytes) : Prop where
  signed : ∃ key signature, t.sha256 key = cfg.keyprint ∧ t.verify key signature = x
  isTag : isTag x = true

theorem signed_of_offeredTag {which : Which} (hkey : Portsnap.goodKey t cfg s = true)
    (h : offeredTag t srv s which = some new) : SignedTag t cfg new := by
  obtain ⟨key, hpub, hsum⟩ := (Option.any_eq_true _ _).mp hkey
  unfold offeredTag tagOf at h
  rw [hpub, Option.getD_some] at h
  obtain ⟨signature, _, hverify⟩ := List.mem_map.mp (List.mem_of_find?_eq_some h)
  exact ⟨⟨key, signature, eq_of_beq hsum, hverify⟩, List.find?_some h⟩

theorem keyOf_of_goodKey {answers : List (Option Bytes)} (h : goodKey t cfg s = true) :
    keyOf t cfg s.pub answers = s.pub := by
  unfold goodKey at h
  cases hpub : s.pub with
  | none =>
    rw [hpub] at h
    cases h
  | some key =>
    rw [hpub] at h
    exact List.find?_cons_of_pos (p := fun key => t.sha256 key == cfg.keyprint) h

theorem keyOf_of_badKey {answers : List (Option Bytes)} (h : ¬ goodKey t cfg s = true) :
    keyOf t cfg s.pub answers = keyOf t cfg none answers := by
  unfold goodKey at h
  cases hpub : s.pub with
  | none => rfl
  | some key =>
    rw [hpub] at h
    exact List.find?_cons_of_neg (p := fun key => t.sha256 key == cfg.keyprint) h

theorem fetchKey_spec (answer : Option Bytes) (rest : List (Option Bytes)) :
    Holds (· = s) (fetchKey t cfg answer) (SameStore s) fun ok u => if ok
      then u = { s with pub := keyOf t cfg s.pub (answer :: rest) } ∧ goodKey t cfg u = true
      else u = { s with pub := none } ∧
        keyOf t cfg s.pub (answer :: rest) = keyOf t cfg none rest := by
  unfold fetchKey
  apply Holds.bindRead
  refine Holds.ite (fun hgood => Holds.pureAt ?_) fun hbad => ?_
  · rw [if_pos rfl, keyOf_of_goodKey hgood]
    exact ⟨rfl, hgood⟩
  have hnext : keyOf t cfg s.pub (answer :: rest) = keyOf t cfg answer rest :=
    keyOf_of_badKey hbad
  refine Holds.bindCmd (.of_eq rfl rfl) (Holds.bindCmd (.of_eq rfl rfl) (Holds.bindRead ?_))
  refine Holds.ite (fun hgood => Holds.pureAt ?_) fun hbad' => ?_
  · have hkey : keyOf t cfg answer rest = answer := keyOf_of_goodKey hgood
    rw [if_pos rfl, hnext, hkey]
    exact ⟨rfl, hgood⟩
  · refine Holds.bindCmd (.of_eq rfl rfl) (Holds.pureAt ⟨rfl, hnext.trans ?_⟩)
    exact keyOf_of_badKey (s := { s with pub := answer }) hbad'

theorem fetchKeys_spec (answers : List (Option Bytes)) :
    Holds (· = s) (anyLine answers (fetchKey t cfg)) (SameStore s) fun ok u =>
      if ok then u = { s with pub := keyOf t cfg s.pub answers } ∧ goodKey t cfg u = true
      else SameStore s u := by
  induction answers generalizing s with
  | nil => exact Holds.pureAt (SameStore.refl s)
  | cons answer answers ih =>
    refine Holds.bind (fetchKey_spec answer answers) fun ok => Holds.from fun u hu => ?_
    cases ok with
    | true => exact Holds.pureAt hu
    | false =>
      obtain ⟨rfl, hkey⟩ := hu
      have hsame : SameStore s { s with pub := none } := .of_eq rfl rfl
      refine ih.weaken (fun _ h => h) (fun _ h => hsame.trans h) fun ok v hv => ?_
      cases ok with
      | true => exact ⟨hv.1.trans (by rw [hkey]), hv.2⟩
      | false => exact hsame.trans hv

theorem signatures_none (answers : List (Option Bytes)) : signatures none answers = answers := by
  cases answers with
  | nil => rfl
  | cons answer answers => rw [signatures, Option.or_none]

theorem tagOf_none (key : Bytes) (answers : List (Option Bytes)) :
    tagOf t key (none :: answers) = tagOf t key answers := rfl

theorem tagOf_some_of_isTag {key signature : Bytes} (h : isTag (t.verify key signature) = true)
    (answers : List (Option Bytes)) :
    tagOf t key (some signature :: answers) = some (t.verify key signature) :=
  List.find?_cons_of_pos (p := isTag) h

theorem tagOf_some_of_not_isTag {key signature : Bytes}
    (h : isTag (t.verify key signature) = false) (answers : List (Option Bytes)) :
    tagOf t key (some signature :: answers) = tagOf t key answers :=
  List.find?_cons_of_neg (p := isTag) (by rw [h]; exact Bool.false_ne_true)

/-- What a call of `fetch_tag` leaves alone, and the signatures that it uses up. -/
structure TagCalled (which : Which) (s u : Dir) : Prop extends SameStore s u where
  pub : u.pub = s.pub
  left : which = .snapshot → leftSignature u = leftSignature s
  used : leftSignature u which = none

theorem fetchTag_spec (which : Which) (answer : Option Bytes) (rest : List (Option Bytes)) :
    Holds (· = s) (fetchTag t which answer) (SameStore s) fun ok u => TagCalled which s u ∧
      if ok then u.tagNew ≠ none ∧ u.tagNew =
        tagOf t (s.pub.getD []) (signatures (leftSignature s which) (answer :: rest))
      else tagOf t (s.pub.getD []) (signatures (leftSignature s which) (answer :: rest)) =
        tagOf t (s.pub.getD []) rest := by
  have hfound : answer.or (Function.update s.ssl .snapshot none which) =
      answer.or (leftSignature s which) := by
    cases which <;> rfl
  unfold fetchTag
  refine Holds.bindCmd (.of_eq rfl rfl) (Holds.bindCmd (.of_eq rfl rfl) (Holds.bindRead ?_))
  simp only [Function.update_self, hfound, signatures]
  cases hsignature : answer.or (leftSignature s which) with
  | none =>
    refine Holds.pureAt ⟨⟨.of_eq rfl rfl, rfl, ?_, ?_⟩, tagOf_none _ _⟩
    · rintro rfl
      funext w
      cases w <;> rfl
    · cases which <;> rfl
  | some signature =>
    refine Holds.bindCmd (.of_eq rfl rfl) (Holds.bindCmd (.of_eq rfl rfl) (Holds.read ?_))
    rintro u rfl
    refine ⟨⟨.of_eq rfl rfl, rfl, ?_, ?_⟩, ?_⟩
    · rintro rfl
      funext w
      cases w <;> rfl
    · cases which <;> rfl
    · rw [Option.any_some]
      cases htag : isTag (t.verify (s.pub.getD []) signature) with
      | true =>
        exact ⟨Option.some_ne_none _, (tagOf_some_of_isTag htag rest).symm⟩
      | false => exact tagOf_some_of_not_isTag htag rest

theorem TagCalled.trans {which : Which} {v : Dir} (hsu : TagCalled which s u)
    (huv : TagCalled which u v) : TagCalled which s v :=
  ⟨hsu.toSameStore.trans huv.toSameStore, huv.pub.trans hsu.pub,
    fun h => (huv.left h).trans (hsu.left h), huv.used⟩

theorem fetchTags_spec (which : Which) :
    Holds (· = s) (anyLine (srv.ssls which) (fetchTag t which)) (SameStore s) fun ok u =>
      if ok then TagCalled which s u ∧ ∃ new, offeredTag t srv s which = some new ∧
        u.tagNew = some new else SameStore s u := by
  have hloop (answers : List (Option Bytes)) : ∀ s : Dir,
      Holds (· = s) (anyLine answers (fetchTag t which)) (SameStore s) fun ok u =>
        if ok then TagCalled which s u ∧ u.tagNew ≠ none ∧ u.tagNew =
          tagOf t (s.pub.getD []) (signatures (leftSignature s which) answers)
        else SameStore s u := by
    induction answers with
    | nil => exact fun s => Holds.pureAt (SameStore.refl s)
    | cons answer answers ih =>
      intro s
      refine Holds.bind (fetchTag_spec which answer answers) fun ok => Holds.from fun u hu => ?_
      obtain ⟨hcalled, hu⟩ := hu
      cases ok with
      | true => exact Holds.pureAt ⟨hcalled, hu⟩
      | false =>
        have hnext : tagOf t (s.pub.getD []) (signatures (leftSignature s which)
          (answer :: answers)) = tagOf t (s.pub.getD []) answers := hu
        refine (ih u).weaken (fun _ h => h) (fun _ h => hcalled.toSameStore.trans h)
          fun ok v hv => ?_
        cases ok with
        | false => exact hcalled.toSameStore.trans hv
        | true =>
          obtain ⟨hcalled', hsome, htag⟩ := hv
          rw [hcalled.used, signatures_none, hcalled.pub] at htag
          exact ⟨hcalled.trans hcalled', hsome, htag.trans hnext.symm⟩
  refine (hloop (srv.ssls which) s).weaken (fun _ h => h) (fun _ h => h) fun ok u hu => ?_
  cases ok with
  | false => exact hu
  | true =>
    obtain ⟨hcalled, hsome, htag⟩ := hu
    obtain ⟨new, hnew⟩ := Option.ne_none_iff_exists'.mp hsome
    exact ⟨hcalled, new, htag.symm.trans hnew, hnew⟩

end DeltaPorts.Portsnap

import DeltaPorts.Portsnap.Offers

/-!
# The states of a run

An update that is under way has grown, or it is removing what only the old index files name,
or it is renaming the new files over the old ones. In each state of a run the lists are well formed
if there is a snapshot.
-/

set_option autoImplicit false

namespace DeltaPorts.Portsnap

open LineTools Script

variable {t : Tools} {cfg : Config} {srv : Server} {d s s' m p u v : Dir} {new x i : Bytes}
variable {h n : Text} {members : Members}

def removed (done : List Text) (p : Dir) : Dir :=
  { p with files := p.files.map fun f n => if (done.map gz).contains n then none else f n }

theorem stored_removed (done : List Text) (p : Dir) (n : Text) :
    (removed done p).stored n = if n ∈ done.map gz then none else p.stored n := by
  cases hf : p.files with
  | none => simp [Store.stored, removed, hf]
  | some f =>
    simp only [Store.stored, removed, hf, Option.map_some, Option.bind_some, List.contains_iff_mem]

theorem stored_gz_removed (done : List Text) (p : Dir) (h : Text) :
    (removed done p).stored (gz h) = if h ∈ done then none else p.stored (gz h) := by
  simp only [stored_removed, List.mem_map_of_injective gz_injective]

theorem removed_nil (p : Dir) : removed [] p = p := by
  simp [removed]

theorem rmFile_removed (done : List Text) (p : Dir) (h : Text) :
    rmFile (gz h) (removed done p) = removed (done ++ [h]) p := by
  unfold rmFile removed
  congr 2
  cases p.files with
  | none => rfl
  | some f =>
    simp only [Option.map_some, Option.some.injEq]
    funext n
    by_cases hn : n = gz h
    · simp [hn]
    · simp [hn]

/-- If there is a snapshot, its lists are well formed. -/
def Usable (u : Dir) : Prop := hasSnapshot u = true → u.Ready

theorem usable_of_none (h : hasSnapshot u = false) : Usable u := by
  intro hu
  rw [h] at hu
  cases hu

theorem ready_removed (done : List Text) (hp : p.Ready) : (removed done p).Ready := by
  refine ⟨hp.tag, hp.tINDEX, hp.INDEX, ?_⟩
  obtain ⟨files, hfiles⟩ := Option.ne_none_iff_exists'.mp hp.files
  simp [removed, hfiles]

theorem removeUnneeded_spec (hp : p.Ready) : Holds (· = p) removeUnneeded Usable
    fun _ u => u = removed (unneeded p) p := by
  unfold removeUnneeded
  apply Holds.bindRead
  have hloop := Holds.forLinesDone (unneeded p) (fun h => cmd (rmFile (gz h))) (C := Usable)
    (J := fun done u => u = removed done p) [] ?_
  · refine hloop.weaken ?_ (fun _ h => h) fun _ _ h => h
    rintro u rfl
    exact (removed_nil u).symm
  · intro done h _
    refine Holds.cmd ?_
    rintro u rfl
    rw [rmFile_removed]
    exact ⟨fun _ => ready_removed _ hp, rfl⟩

structure Installed (new x i : Bytes) (p u : Dir) : Prop where
  files : u.files = (removed (unneeded p) p).files
  INDEX : u.INDEX = some i
  tINDEX : u.tINDEX = some x
  tag : u.tag = some new

/-- How an update that returns 0 ends: nothing was to be done, or everything is installed. -/
inductive Updated (t : Tools) (cfg : Config) (srv : Server) (s u : Dir) : Prop where
  | upToDate {new : Bytes} : Takes t srv s new false → u.toStore = s.toStore → Updated t cfg srv s u
  | installed {new x i : Bytes} {s' m p : Dir} : Asks t srv s new x → SameStore s s' →
      Prepared t cfg srv x i s' m p →
      hybrid cfg (extractIndex t m) = { m with INDEXnew := some i } → Installed new x i p u →
      Updated t cfg srv s u

/-- How it ends otherwise: the store has grown, or there is none, because the tag names the lists. -/
def Refused (t : Tools) (srv : Server) (s u : Dir) : Prop :=
  Grows t s u ∨ ∃ new, Takes t srv s new true ∧ NamesLists (snapshotHash new) ∧
    hasSnapshot u = false

theorem rename_spec (hp : Prepared t cfg srv x i s m p) (hready : (removed (unneeded p) p).Ready)
    (htag : p.tagNew = some new) : Holds (· = removed (unneeded p) p) rename Usable
      fun _ u => Installed new x i p u := by
  have hINDEX : ∃ i', p.INDEXnew = some i' ∧ indexLines i' = true := ⟨i, hp.INDEXnew, hp.indexLines⟩
  have htINDEX : ∃ x', p.tINDEXnew = some x' ∧ metadataLines x' = true :=
    ⟨x, hp.tINDEXnew, hp.metadataLines⟩
  have hnew : p.tagNew ≠ none := by
    rw [htag]
    exact Option.some_ne_none new
  unfold rename
  refine Holds.bindCmd (C := Usable) (fun _ => ⟨hready.tag, hready.tINDEX, hINDEX, hready.files⟩) ?_
  refine Holds.bindCmd (C := Usable) (fun _ => ⟨hready.tag, htINDEX, hINDEX, hready.files⟩) ?_
  refine Holds.cmdAt (fun _ => ⟨hnew, htINDEX, hINDEX, hready.files⟩) ?_
  exact ⟨rfl, hp.INDEXnew, hp.tINDEXnew, htag⟩

theorem Held.usable {hash : List Text} (hs : s.Ready) (h : Held t hash s u) : Usable u := by
  rcases h with hgrows | ⟨_, hnone⟩
  · exact fun _ => ready_of_grows hs hgrows
  · exact usable_of_none hnone

theorem SameStore.usable (hs : s.Ready) (h : SameStore s u) : Usable u := by
  intro _
  rw [h.store]
  exact hs

theorem fetchUpdate_spec (cfg : Config) (srv : Server) (hs : s.Ready) :
    Holds (· = s) (fetchUpdate t cfg srv) Usable
      fun ok u => if ok then Updated t cfg srv s u else Refused t srv s u := by
  unfold fetchUpdate
  refine Holds.bindCmd (fun _ => hs) (Holds.bindRead ?_)
  have hstart : SameStore s { s with INDEXnew := none } := .of_eq rfl rfl
  refine Holds.orFail (J := fun u => SameStore s u ∧
    ∃ new, offeredTag t srv s .latest = some new ∧ u.tagNew = some new) ?_
    (Holds.from fun s1 hs1 => ?_)
  · refine (fetchTags_spec .latest).weaken (fun _ h => h)
      (fun u hu => (hstart.trans hu).usable hs) fun ok u hu => ?_
    cases ok with
    | false => exact Or.inl (hstart.trans hu).grows
    | true => exact ⟨hstart.trans hu.1.toSameStore, hu.2⟩
  obtain ⟨hsame, new, hoffered, hnew⟩ := hs1
  have hs1Ready : s1.Ready := hsame.store ▸ hs
  apply Holds.bindRead
  rw [hnew, Option.getD_some]
  refine Holds.ite (fun _ => Holds.pureAt (Or.inl hsame.grows)) fun hsane => ?_
  have htakes (needed : Bool) (hneeded : updateNeeded (s.tag.getD []) new = needed) :
      Takes t srv s new needed := ⟨hoffered, by simpa using hsane, hneeded⟩
  refine Holds.ite (fun hneeded => ?_) fun hneeded => ?_
  · have htakes := htakes false (by simpa using hneeded)
    refine Holds.bindCmd (C := Usable) (fun _ => hs1Ready) (Holds.pureAt ?_)
    exact Updated.upToDate htakes hsame.store
  have htakes := htakes true (by simpa using hneeded)
  refine Holds.orFail (J := fun p => ∃ x i s' m, Asks t srv s new x ∧ SameStore s s' ∧
    Prepared t cfg srv x i s' m p ∧ hybrid cfg (extractIndex t m) = { m with INDEXnew := some i } ∧
    p.tagNew = some new) ?_ (Holds.from ?_)
  · refine (prepare_spec hs1Ready (snapshotHash new)).weaken (fun _ h => h)
      (fun u hu => hu.usable hs1Ready) fun ok u hu => ?_
    cases ok with
    | false =>
      refine hu.imp (hsame.grows.trans ·) ?_
      exact fun h => ⟨new, htakes, h⟩
    | true =>
      obtain ⟨x, i, s', m, hhash, hsame', hp, hhybrid⟩ := hu
      have hnames : Names t srv new x := ⟨hhash, hp.served, hp.metadataLines, hp.look⟩
      exact ⟨x, i, s', m, ⟨htakes, hnames⟩, hsame.trans hsame'.toSameStore, hp, hhybrid,
        hp.tagNew.trans (hsame'.tagNew.trans hnew)⟩
  rintro p ⟨x, i, s', m, hasks, hsame', hp, hhybrid, htag⟩
  have hpReady : p.Ready := ready_of_grows hs (hsame'.grows.trans hp.grows)
  refine Holds.bind (removeUnneeded_spec hpReady) fun _ => ?_
  refine Holds.bind (rename_spec hp (ready_removed _ hpReady) htag) fun _ => Holds.pure fun u hu => ?_
  exact Updated.installed hasks hsame' hp hhybrid hu

theorem Updated.of_start (hsu : SameStart s u) (hupdated : Updated t cfg srv u v) :
    Updated t cfg srv s v := by
  cases hupdated with
  | upToDate htakes hstore => exact .upToDate (hsu.takes htakes) (hstore.trans hsu.store)
  | installed hasks hsame hp hhybrid hv =>
    exact .installed (hsu.asks hasks) (hsu.toSameStore.trans hsame) hp hhybrid hv

theorem Updated.ready (hs : s.Ready) (hupdated : Updated t cfg srv s u) : u.Ready := by
  cases hupdated with
  | upToDate _ hstore => exact hstore ▸ hs
  | @installed new x i _ _ p _ hsame hp _ hu =>
    have hready := ready_removed (unneeded p) (ready_of_grows hs (hsame.grows.trans hp.grows))
    refine ⟨by rw [hu.tag]; exact Option.some_ne_none new, ⟨x, hu.tINDEX, hp.metadataLines⟩,
      ⟨i, hu.INDEX, hp.indexLines⟩, ?_⟩
    rw [hu.files]
    exact hready.files

theorem Left.hasSnapshot_eq {hash : List Text} (hs : hasSnapshot s = false) (h : Left hash s u) :
    hasSnapshot u = false := by
  rcases h with hstore | ⟨_, hnone⟩
  · unfold hasSnapshot at hs ⊢
    rw [hstore]
    exact hs
  · exact hnone

theorem leftSignature_congr (h : u.ssl = s.ssl) : leftSignature u = leftSignature s := by
  funext which
  cases which with
  | snapshot => rfl
  | latest => exact congrFun h .latest

/-- What `fetch_snapshot` has made when it renames its files. -/
def snapshotReady (s : Dir) : Dir :=
  { s with
    toStore := ⟨s.tagNew, s.tINDEXnew, s.INDEXnew, s.snap⟩
    tagNew := none
    tINDEXnew := none
    INDEXnew := none
    snap := none }

theorem installSnapshot_spec (hready : (snapshotReady s).Ready) :
    Holds (· = s) installSnapshot Usable fun _ u => u = snapshotReady s := by
  have hnone (u : Dir) (hfiles : u.files = none) : Usable u := by
    apply usable_of_none
    unfold hasSnapshot
    rw [hfiles, Option.isSome_none, Bool.false_and, Bool.false_and, Bool.false_and]
  unfold installSnapshot
  refine Holds.bindCmd (C := Usable) (usable_of_none ?_) ?_
  · simp only [hasSnapshot, Option.isSome_none, Bool.and_false]
  refine Holds.bindCmd (hnone _ rfl) (Holds.bindCmd (hnone _ rfl) ?_)
  refine Holds.bindCmd (hnone _ rfl) (Holds.bindCmd (hnone _ rfl) ?_)
  exact Holds.cmdAt (fun _ => hready) rfl

theorem fetchSnapshot_spec (hs : hasSnapshot s = false) : Holds (· = s) (fetchSnapshot t srv) Usable
    fun ok u => if ok then ∃ new x members, Snapshot t srv s new x members ∧
      SameStart { s with toStore := snapshotStore t new x members } u else hasSnapshot u = false := by
  have hsameNone (u : Dir) (hu : SameStore s u) : hasSnapshot u = false :=
    @Left.hasSnapshot_eq s u [] hs (Or.inl hu.store)
  unfold fetchSnapshot
  refine Holds.orFail (J := fun u => TagCalled .snapshot s u ∧
    ∃ new, offeredTag t srv s .snapshot = some new ∧ u.tagNew = some new) ?_
    (Holds.from fun s1 hs1 => ?_)
  · refine (fetchTags_spec .snapshot).weaken (fun _ h => h)
      (fun u hu => usable_of_none (hsameNone u hu)) fun ok u hu => ?_
    cases ok with
    | false => exact hsameNone u hu
    | true => exact hu
  obtain ⟨hcalled, new, hoffered, hnew⟩ := hs1
  have hs1None := hsameNone s1 hcalled.toSameStore
  apply Holds.bindRead
  rw [hnew, Option.getD_some]
  refine Holds.ite (fun _ => Holds.pureAt hs1None) fun hsane => ?_
  refine Holds.orFail (J := fun u => ∃ x s', snapshotHash new = [t.sha256 x] ∧
    srv.metadata (t.sha256 x) = some x ∧ SameTag s1 s' ∧ u = { s' with tINDEXnew := some x }) ?_
    (Holds.from ?_)
  · refine (fetchMetadata_spec (snapshotHash new)).weaken (fun _ h => h)
      (fun u hu => usable_of_none (hu.hasSnapshot_eq hs1None)) fun ok u hu => ?_
    cases ok with
    | false => exact Left.hasSnapshot_eq hs1None hu
    | true => exact hu
  rintro s2 ⟨x, s', hhash, hserved, hsame, rfl⟩
  have hsame' : SameStore s s' := hcalled.toSameStore.trans hsame.toSameStore
  have hnone : hasSnapshot s' = false := hsameNone s' hsame'
  refine Holds.orFailRead hnone fun hmetadata => ?_
  simp only [metadataSanity, Bool.and_eq_true, beq_iff_eq] at hmetadata
  obtain ⟨hxlines, hlook⟩ := hmetadata
  rw [Option.getD_some] at hxlines hlook
  refine Holds.bindCmd (usable_of_none hnone) ?_
  have hname : Shell.unwords (snapshotHash new) = t.sha256 x := by
    rw [hhash]
    exact List.intercalate_singleton ..
  rw [hname]
  cases htarball : srv.tarball (t.sha256 x) with
  | none => exact Holds.pureAt hnone
  | some members =>
    refine Holds.bindCmd (usable_of_none hnone) (Holds.orFailRead hnone fun hverified => ?_)
    refine Holds.bindCmd (usable_of_none hnone) (Holds.bindCmd (usable_of_none hnone) ?_)
    refine Holds.orFailRead hnone fun hsaneIndex => ?_
    refine Holds.orFailRead hnone fun hverifiedIndex => ?_
    simp only [indexSanity, Bool.and_eq_true] at hsaneIndex
    have hverifies : ∀ f ∈ hashes x ++ hashes (snapshotIndex t x members),
        t.sha256 (gunzipName t members f) = f := by
      intro f hf
      rcases List.mem_append.mp hf with hf | hf
      · exact eq_of_beq (List.all_eq_true.mp hverified f hf)
      · exact eq_of_beq (List.all_eq_true.mp hverifiedIndex f hf)
    have hsnapshot : Snapshot t srv s new x members :=
      ⟨⟨hhash, hserved, hxlines, hlook⟩, hoffered, by simpa using hsane, htarball, hsaneIndex.1,
        hverifies⟩
    have htag : s'.tagNew = some new := hsame.tagNew.trans hnew
    refine Holds.bind (installSnapshot_spec ?_) fun _ => Holds.pure fun u hu => ?_
    · exact ⟨htag ▸ Option.some_ne_none new, ⟨x, rfl, hxlines⟩, ⟨_, rfl, hsaneIndex.1⟩,
        Option.some_ne_none members⟩
    · subst hu
      refine ⟨new, x, members, hsnapshot, ⟨?_, hsame'.fetched⟩, hsame.pub.trans hcalled.pub, ?_⟩
      · show (⟨s'.tagNew, _, _, _⟩ : Store) = _
        rw [htag]
        rfl
      · exact (leftSignature_congr hsame.ssl).trans (hcalled.left rfl)

/-- How a run ends that does not return 0. -/
inductive Failed (t : Tools) (cfg : Config) (srv : Server) (d u : Dir) : Prop where
  | same : u.toStore = d.toStore → Failed t cfg srv d u
  | kept {s : Dir} : Start t cfg srv d s → Grows t s u → Failed t cfg srv d u
  | awaiting : hasSnapshot d = false → hasSnapshot u = false → Failed t cfg srv d u
  | lost {s : Dir} {new : Bytes} : Start t cfg srv d s → Takes t srv s new true →
      NamesLists (snapshotHash new) → hasSnapshot u = false → Failed t cfg srv d u

theorem Refused.failed (hstart : Start t cfg srv d s) (hsame : SameStart s s')
    (h : Refused t srv s' u) : Failed t cfg srv d u := by
  rcases h with hgrows | ⟨new, htakes, hnames, hnone⟩
  · exact .kept hstart (hsame.grows.trans hgrows)
  · exact .lost hstart (hsame.takes htakes) hnames hnone

theorem Failed.usable (hd : Usable d) (h : Failed t cfg srv d u) : Usable u := by
  cases h with
  | same hstore =>
    unfold Usable hasSnapshot at *
    rw [hstore]
    exact hd
  | kept hstart hgrows => exact fun _ => ready_of_grows (hstart.ready hd) hgrows
  | awaiting _ hnone => exact usable_of_none hnone
  | lost _ _ _ hnone => exact usable_of_none hnone

theorem fetchRun_spec (cfg : Config) (srv : Server) (hd : Usable d) :
    Holds (· = d) (fetchRun t cfg srv) Usable fun ok u => if ok
      then ∃ s, Start t cfg srv d s ∧ Updated t cfg srv s u else Failed t cfg srv d u := by
  have hsame (u : Dir) (hu : SameStore d u) : Usable u := by
    intro hsnapshot
    unfold hasSnapshot at hsnapshot
    rw [hu.store] at hsnapshot ⊢
    exact hd hsnapshot
  unfold fetchRun
  refine Holds.orFail (J := fun u => u = keyed t cfg srv d ∧ goodKey t cfg u = true) ?_
    (Holds.from ?_)
  · refine (fetchKeys_spec srv.pubs).weaken (fun _ h => h) hsame fun ok u hu => ?_
    cases ok with
    | true => exact hu
    | false => exact Failed.same (SameStore.store hu)
  rintro _ ⟨rfl, hkey⟩
  apply Holds.bindRead
  refine Holds.ite (fun hsnapshot => ?_) fun hsnapshot => ?_
  · have hstart : Start t cfg srv d (keyed t cfg srv d) := .present hkey hsnapshot
    refine (fetchUpdate_spec cfg srv (hstart.ready hd)).weaken (fun _ h => h) (fun _ h => h)
      fun ok u hu => ?_
    cases ok with
    | true => exact ⟨_, hstart, hu⟩
    | false => exact Refused.failed hstart (.refl _) hu
  have hkeyed : hasSnapshot (keyed t cfg srv d) = false := by simpa using hsnapshot
  have hnone : hasSnapshot d = false := hkeyed
  refine Holds.orFail (J := fun u => ∃ s, Start t cfg srv d s ∧ SameStart s u) ?_ (Holds.from ?_)
  · refine (fetchSnapshot_spec hkeyed).weaken (fun _ h => h) (fun _ h => h) fun ok u hu => ?_
    cases ok with
    | false => exact Failed.awaiting hnone hu
    | true =>
      obtain ⟨new, x, members, hsnapshot, hsame⟩ := hu
      exact ⟨_, .fetched hkey hnone hsnapshot, hsame⟩
  rintro s' ⟨s, hstart, hsame'⟩
  have hready : s'.Ready := hsame'.store ▸ hstart.ready hd
  refine (fetchUpdate_spec cfg srv hready).weaken (fun _ h => h) (fun _ h => h) fun ok u hu => ?_
  cases ok with
  | true => exact ⟨s, hstart, Updated.of_start hsame' hu⟩
  | false => exact Refused.failed hstart hsame' hu

end DeltaPorts.Portsnap

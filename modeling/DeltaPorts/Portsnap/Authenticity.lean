import DeltaPorts.Library.Run
import DeltaPorts.Portsnap.Completeness

/-!
# Authenticity of the store

A snapshot is checked under the bare names of its files, where `gunzip -c` prefers an
uncompressed file, and used under the names that end in `.gz`. What is in the store is not
checked again.
-/

set_option autoImplicit false

namespace DeltaPorts.Portsnap

open LineTools Script Run

variable {t : Tools} {cfg : Config} {srv : Server} {s s' m p u d : Dir} {new x i : Bytes}
variable {h : Text} {members : Members}

def fetchSite (t : Tools) (cfg : Config) (srv : Server) (site : Site) : Site :=
  let r := fetchRun t cfg srv site.dir
  ⟨r.state, some r.value⟩

def FetchStep (t : Tools) (cfg : Config) (site : Site) (srv : Server) (site' : Site) : Prop :=
  site' = fetchSite t cfg srv site

def emptySite : Site where
  dir := ⟨⟨none, none, none, none⟩, none, fun _ => none, none, none, none, none, fun _ => none⟩
  returned := none

/-- Compressed files that are named by a hash decompress to contents with that hash. -/
def GoodFiles (t : Tools) (files : Members) : Prop :=
  ∀ h c, isHash h = true → files (gz h) = some c → t.sha256 (t.gunzip c) = h

structure AuthenticStore (t : Tools) (cfg : Config) (s : Store) (new x i : Bytes) : Prop where
  tag : s.tag = some new
  tINDEX : s.tINDEX = some x
  INDEX : s.INDEX = some i
  signed : SignedTag t cfg new
  metadata : snapshotHash new = [t.sha256 x]
  index : cfg.refuse = none → t.sha256 i = indexHash t x
  files : ∀ h ∈ s.named, ∀ c, s.stored (gz h) = some c → t.sha256 (t.gunzip c) = h

/-- If the last run returned 0, the store is what the tag stands for. -/
def Authentic (t : Tools) (cfg : Config) (site : Site) : Prop :=
  site.returned = some true → ∃ new x i, AuthenticStore t cfg site.dir.toStore new x i

/-- The index file of the tarball is there, and each of its compressed files is good or is one
that the check looks at: it is named, and has no uncompressed sibling. -/
structure CleanTarball (t : Tools) (cfg : Config) (x : Bytes) (members : Members) : Prop where
  index : cfg.refuse = none → members (gz (indexHash t x)) ≠ none
  files : ∀ h c, isHash h = true → members (gz h) = some c → t.sha256 (t.gunzip c) = h ∨
    h ∈ hashes x ++ hashes (snapshotIndex t x members) ∧ members h = none

/-- The index file of the new metadata is in the store, or its line is not dropped from the
list of patches, and when it is the empty file it arrives. -/
def IndexAsked (t : Tools) (srv : Server) (d : Dir) (x : Bytes) : Prop :=
  let b := metadataBatch t srv (d.tINDEX.getD []) x
  (d.stored (gz (indexHash t x)) ≠ none ∨ b.Asked d (indexHash t x)) ∧
    (indexHash t x = t.sha256 [] → b.Arrives t d (indexHash t x))

structure CleanRun (t : Tools) (cfg : Config) (site : Site) (srv : Server) : Prop where
  tarball : hasSnapshot site.dir = false → ∀ new x members,
    Snapshot t srv (keyed t cfg srv site.dir) new x members → CleanTarball t cfg x members
  index : cfg.refuse = none → ∀ s new x, Start t cfg srv site.dir s → Asks t srv s new x →
    IndexAsked t srv s x

theorem newline_not_mem_of_isHash (hh : isHash h = true) : '\n' ∉ h := by
  simp only [isHash, Bool.and_eq_true, List.all_eq_true] at hh
  intro hmem
  exact absurd (hh.2 _ hmem) (by decide)

theorem indexHash_mem (hx : metadataLines x = true)
    (hlook : (t.look "INDEX".toList x).length = 1) :
    isHash (indexHash t x) = true ∧ indexHash t x ∈ hashes x := by
  obtain ⟨l, hl⟩ := List.length_eq_one_iff.mp hlook
  obtain ⟨hmem, _⟩ := t.look_subset "INDEX".toList x l (hl ▸ List.mem_singleton_self l)
  have hhash : isHash (cut 2 l) = true := isHash_cut (List.all_eq_true.mp hx l hmem)
  have hcut : indexHash t x = cut 2 l := by
    unfold indexHash
    rw [hl, List.map_singleton, Shell.captured_singleton (newline_not_mem_of_isHash hhash)]
  rw [hcut]
  exact ⟨hhash, List.mem_map_of_mem hmem⟩

/-- The store is there and everything in it is good, whether it is named or not. -/
structure GoodStore (t : Tools) (cfg : Config) (s : Store) (new x i : Bytes) : Prop where
  tag : s.tag = some new
  tINDEX : s.tINDEX = some x
  INDEX : s.INDEX = some i
  metadataLines : metadataLines x = true
  indexLines : indexLines i = true
  signed : SignedTag t cfg new
  metadata : snapshotHash new = [t.sha256 x]
  index : cfg.refuse = none → t.sha256 i = indexHash t x
  present : s.files ≠ none
  files : GoodFiles t s.stored

def Inv (t : Tools) (cfg : Config) (d : Dir) : Prop :=
  hasSnapshot d = true → ∃ new x i, GoodStore t cfg d.toStore new x i

theorem GoodStore.ready {s : Store} (hs : GoodStore t cfg s new x i) : s.Ready where
  tag := by rw [hs.tag]; exact Option.some_ne_none new
  tINDEX := ⟨x, hs.tINDEX, hs.metadataLines⟩
  INDEX := ⟨i, hs.INDEX, hs.indexLines⟩
  files := hs.present

theorem GoodStore.authentic {s : Store} (hs : GoodStore t cfg s new x i) :
    AuthenticStore t cfg s new x i where
  tag := hs.tag
  tINDEX := hs.tINDEX
  INDEX := hs.INDEX
  signed := hs.signed
  metadata := hs.metadata
  index := hs.index
  files := by
    intro h hh c hc
    exact hs.files h c (hs.ready.isHash_of_mem_named hh) hc

theorem GoodFiles.of_grows (hs : GoodFiles t s.stored) (hg : Grows t s u) :
    GoodFiles t u.stored := by
  intro h c hh hc
  rcases hg.sound h c hh hc with hold | hgood
  · exact hs h c hh hold
  · exact hgood

theorem GoodStore.of_grows (hs : GoodStore t cfg s.toStore new x i) (hg : Grows t s u) :
    GoodStore t cfg u.toStore new x i where
  tag := hg.tag.trans hs.tag
  tINDEX := hg.tINDEX.trans hs.tINDEX
  INDEX := hg.INDEX.trans hs.INDEX
  metadataLines := hs.metadataLines
  indexLines := hs.indexLines
  signed := hs.signed
  metadata := hs.metadata
  index := hs.index
  present := (ready_of_grows hs.ready hg).files
  files := hs.files.of_grows hg

/-- The index file is there when it is to be extracted. -/
theorem Prepared.index_stored (hp : Prepared t cfg srv x i s m p) (hasked : IndexAsked t srv s x) :
    m.stored (gz (indexHash t x)) ≠ none := by
  obtain ⟨hhash, _⟩ := indexHash_mem hp.metadataLines hp.look
  rcases hasked.1 with hold | hline
  · rw [hp.metadata_grows.stored_gz hhash hold]
    exact hold
  · by_cases hempty : indexHash t x = t.sha256 []
    · exact (hp.metadata.stored _ hhash).mpr (hasked.2 hempty)
    · exact hp.metadata.asked _ hhash hline hempty

/-- The index that an update extracts has the hash of the index line. -/
theorem sha256_extracted (hp : Prepared t cfg srv x i s m p) (hs : GoodFiles t s.stored)
    (hasked : IndexAsked t srv s x) (hrefuse : cfg.refuse = none) :
    t.sha256 i = indexHash t x := by
  obtain ⟨hhash, _⟩ := indexHash_mem hp.metadataLines hp.look
  obtain ⟨c, hc⟩ := Option.ne_none_iff_exists'.mp (hp.index_stored hasked)
  rw [hp.extracted hrefuse, extracted, gunzipName, hc]
  exact hs.of_grows hp.metadata_grows _ c hhash hc

theorem SameStore.indexAsked (hss : SameStore s s') (hasked : IndexAsked t srv s x) :
    IndexAsked t srv s' x := by
  unfold IndexAsked at hasked ⊢
  simp only [hss.arrives_iff, hss.asked_iff, hss.store]
  exact hasked

theorem goodStore_of_updated {oldx oldi oldTag : Bytes}
    (hs : GoodStore t cfg s.toStore oldTag oldx oldi) (hkey : goodKey t cfg s = true)
    (hasked : cfg.refuse = none → ∀ new x, Asks t srv s new x → IndexAsked t srv s x)
    (hu : Updated t cfg srv s u) : ∃ new x i, GoodStore t cfg u.toStore new x i := by
  have hready := hu.ready hs.ready
  cases hu with
  | upToDate _ hstore => exact ⟨oldTag, oldx, oldi, hs.of_grows (Grows.of_eq hstore)⟩
  | @installed new x i s' m p hasks hss hp _ hu =>
    have hs' : GoodFiles t s'.stored := by
      rw [hss.store]
      exact hs.files
    have hgood := hs'.of_grows hp.grows
    refine ⟨new, x, i, hu.tag, hu.tINDEX, hu.INDEX, hp.metadataLines, hp.indexLines,
      signed_of_offeredTag hkey hasks.tag, hasks.hash, ?_, ?_, ?_⟩
    · intro hrefuse
      exact sha256_extracted hp hs' (hss.indexAsked (hasked hrefuse new x hasks)) hrefuse
    · exact hready.files
    · intro h c hh hc
      have hstored : u.stored (gz h) = (removed (unneeded p) p).stored (gz h) := by
        unfold Store.stored
        rw [hu.files]
      rw [hstored, stored_gz_removed] at hc
      split at hc
      · cases hc
      · exact hgood h c hh hc

/-- From a clean tarball comes a good store. -/
theorem goodStore_of_snapshot (hkey : goodKey t cfg s = true)
    (hs : Snapshot t srv s new x members) (hclean : CleanTarball t cfg x members) :
    GoodStore t cfg (snapshotStore t new x members) new x (snapshotIndex t x members) := by
  have hgood : GoodFiles t members := by
    intro h c hh hc
    rcases hclean.files h c hh hc with hsum | ⟨hnamed, hnone⟩
    · exact hsum
    · have hverified := hs.verified h hnamed
      rw [gunzipName, hnone, hc] at hverified
      exact hverified
  refine ⟨rfl, rfl, rfl, hs.metadataLines, hs.indexLines, signed_of_offeredTag hkey hs.tag, hs.hash,
    fun hrefuse => ?_, Option.some_ne_none members, hgood⟩
  obtain ⟨c, hc⟩ := Option.ne_none_iff_exists'.mp (hclean.index hrefuse)
  rw [snapshotIndex, gunzipName, hc]
  exact hgood _ c (indexHash_mem hs.metadataLines hs.look).1 hc

theorem Start.good {site : Site} (hinv : Inv t cfg site.dir) (hclean : CleanRun t cfg site srv)
    (hstart : Start t cfg srv site.dir s) : ∃ new x i, GoodStore t cfg s.toStore new x i := by
  cases hstart with
  | present _ hsnapshot => exact hinv hsnapshot
  | @fetched new x members hkey hnone hsnapshot =>
    have htarball := hclean.tarball hnone new x members hsnapshot
    exact ⟨new, x, _, goodStore_of_snapshot hkey hsnapshot htarball⟩

/-- A run that returns 0 leaves a good store, and any other run leaves one or none. -/
theorem inv_fetchRun {site : Site} (hinv : Inv t cfg site.dir) (hclean : CleanRun t cfg site srv) :
    Holds (· = site.dir) (fetchRun t cfg srv) (fun _ => True) fun ok u =>
      if ok then ∃ new x i, GoodStore t cfg u.toStore new x i else Inv t cfg u := by
  have husable : Usable site.dir := by
    intro hsnapshot
    obtain ⟨new, x, i, hgood⟩ := hinv hsnapshot
    exact hgood.ready
  refine (fetchRun_spec cfg srv husable).weaken (fun _ h => h) (fun _ _ => trivial) fun ok u hu => ?_
  cases ok with
  | true =>
    obtain ⟨s, hstart, hupdated⟩ := hu
    obtain ⟨new, x, i, hgood⟩ := hstart.good hinv hclean
    exact goodStore_of_updated hgood hstart.goodKey
      (fun hrefuse new x => hclean.index hrefuse s new x hstart) hupdated
  | false =>
    intro hsnapshot
    have hu : Failed t cfg srv site.dir u := hu
    cases hu with
    | same hstore =>
      unfold Inv hasSnapshot at *
      rw [hstore] at hsnapshot ⊢
      exact hinv hsnapshot
    | kept hstart hgrows =>
      obtain ⟨new, x, i, hgood⟩ := hstart.good hinv hclean
      exact ⟨new, x, i, hgood.of_grows hgrows⟩
    | awaiting _ hnone => exact absurd hsnapshot (by simp [hnone])
    | lost _ _ _ hnone => exact absurd hsnapshot (by simp [hnone])

/-- Every site has a good store or none, and a good one when the last run returned 0. -/
def InvSite (t : Tools) (cfg : Config) (site : Site) : Prop :=
  Inv t cfg site.dir ∧
    (site.returned = some true → ∃ new x i, GoodStore t cfg site.dir.toStore new x i)

theorem invSite_empty : InvSite t cfg emptySite := by
  refine ⟨fun hsnapshot => ?_, nofun⟩
  cases hsnapshot

theorem invSite_step {site site' : Site} (hinv : InvSite t cfg site)
    (hclean : CleanRun t cfg site srv) (hstep : FetchStep t cfg site srv site') :
    InvSite t cfg site' := by
  obtain ⟨_, hend⟩ := inv_fetchRun hinv.1 hclean site.dir rfl
  subst hstep
  show Inv t cfg (fetchRun t cfg srv site.dir).state ∧
    (some (fetchRun t cfg srv site.dir).value = some true →
      ∃ new x i, GoodStore t cfg (fetchRun t cfg srv site.dir).state.toStore new x i)
  cases hvalue : (fetchRun t cfg srv site.dir).value with
  | false =>
    rw [hvalue] at hend
    exact ⟨hend, nofun⟩
  | true =>
    rw [hvalue] at hend
    exact ⟨fun _ => hend, fun _ => hend⟩

theorem mem_of_lookup {l : List (Bytes × Bytes)} {a b : Bytes} (hl : l.lookup a = some b) :
    (a, b) ∈ l := by
  obtain ⟨l₁, l₂, rfl, _⟩ := List.lookup_eq_some_iff.mp hl
  exact List.mem_append_right l₁ List.mem_cons_self

theorem replicate_append_inj {a b : Char} (hab : a ≠ b) {m n : Nat} {l l' : Text}
    (h : List.replicate m a ++ b :: l = List.replicate n a ++ b :: l') : m = n ∧ l = l' := by
  induction m generalizing n with
  | zero =>
    cases n with
    | zero => exact ⟨rfl, (List.cons.inj h).2⟩
    | succ n => exact absurd (List.cons.inj h).1.symm hab
  | succ m ih =>
    cases n with
    | zero => exact absurd (List.cons.inj h).1 hab
    | succ n =>
      obtain ⟨hmn, hl⟩ := ih (List.cons.inj h).2
      exact ⟨congrArg Nat.succ hmn, hl⟩

theorem unlistedSum_injective : Function.Injective unlistedSum := by
  intro a b hab
  have hcodes := List.append_cancel_left hab
  clear hab
  induction a generalizing b with
  | nil =>
    cases b with
    | nil => rfl
    | cons d b => simp at hcodes
  | cons c a ih =>
    cases b with
    | nil => simp at hcodes
    | cons d b =>
      simp only [List.flatMap_cons, List.append_assoc, List.singleton_append] at hcodes
      obtain ⟨hcd, hrest⟩ := replicate_append_inj (by decide) hcodes
      rw [Char.toNat_inj.mp hcd, ih hrest]

theorem unlistedSum_length (b : Bytes) : 64 < (unlistedSum b).length := by
  rw [unlistedSum, List.length_append, List.length_replicate]
  omega

/-- The tools have no collisions when the table has none, and lists hashes. -/
theorem tableTools_injective {sums zips signed : List (Bytes × Bytes)} {key : Bytes}
    (hhash : ∀ p ∈ sums, isHash p.2 = true)
    (hsums : ∀ p ∈ sums, ∀ q ∈ sums, p.2 = q.2 → p.1 = q.1) :
    Function.Injective (tableTools sums zips signed key).sha256 := by
  have hlisted {a v : Bytes} (ha : sums.lookup a = some v) :
      (tableTools sums zips signed key).sha256 a = v := by
    have hhex : v.all isHexDigit = true := by
      have := hhash _ (mem_of_lookup ha)
      simp only [isHash, Bool.and_eq_true] at this
      exact this.2
    simp only [tableTools, ha, Option.filter_some, hhex, if_true, Option.getD_some]
  have hunlisted {a : Bytes} (ha : sums.lookup a = none) :
      (tableTools sums zips signed key).sha256 a = unlistedSum a := by
    simp only [tableTools, ha, Option.filter_none, Option.getD_none]
  have hne {a v : Bytes} (b : Bytes) (ha : sums.lookup a = some v) : v ≠ unlistedSum b := by
    intro heq
    have hv := hhash _ (mem_of_lookup ha)
    simp only [isHash, Bool.and_eq_true, beq_iff_eq] at hv
    have hlength := unlistedSum_length b
    rw [← heq, hv.1] at hlength
    exact absurd hlength (by decide)
  intro a b hab
  cases ha : sums.lookup a with
  | none =>
    rw [hunlisted ha] at hab
    cases hb : sums.lookup b with
    | none =>
      rw [hunlisted hb] at hab
      exact unlistedSum_injective hab
    | some w =>
      rw [hlisted hb] at hab
      exact absurd hab.symm (hne a hb)
  | some v =>
    rw [hlisted ha] at hab
    cases hb : sums.lookup b with
    | none =>
      rw [hunlisted hb] at hab
      exact absurd hab (hne b ha)
    | some w =>
      rw [hlisted hb] at hab
      exact hsums _ (mem_of_lookup ha) _ (mem_of_lookup hb) hab

def cleanServer : Server := { onePortServer with
  tarball := fun _ => some fun n => if n = gz portHash then some zippedPort else
    if n = gz onePortHash then some zippedOnePort else none }

/-- The tarball has the port `a` under its hash, and other contents under the hash and `.gz`. -/
def shadowServer : Server := { onePortServer with
  tarball := fun _ => some fun n => if n = portHash then some zippedPort else
    if n = gz portHash then some zippedOnePort else
      if n = gz onePortHash then some zippedOnePort else none }

theorem someTools_injective : Function.Injective someTools.sha256 :=
  tableTools_injective (by decide +kernel) (by decide +kernel)

/-- The owner of the key has signed one tag. -/
theorem someTools_signed (key signature : Bytes) (htag : isTag (someTools.verify key signature) = true) :
    someTools.verify key signature = onePortTag := by
  have hverify : someTools.verify key signature = if key = serverKey then
    ((List.lookup signature [(onePortSignature, onePortTag)]).filter (·.all isTagChar)).getD []
    else [] := rfl
  have hnone : isTag [] = false := by decide +kernel
  rw [hverify] at htag ⊢
  by_cases hkey : key = serverKey
  · rw [if_pos hkey] at htag ⊢
    cases hlookup : (List.lookup signature [(onePortSignature, onePortTag)]).filter
      (·.all isTagChar) with
    | none =>
      rw [hlookup, Option.getD_none, hnone] at htag
      cases htag
    | some tag =>
      have hmem := List.mem_singleton.mp (mem_of_lookup (Option.filter_eq_some_iff.mp hlookup).1)
      exact congrArg Prod.snd hmem
  · rw [if_neg hkey, hnone] at htag
    cases htag

def shadowedSite : Site := fetchSite someTools someConfig shadowServer emptySite

theorem shadowed_fetched : shadowedSite.returned = some true ∧
    shadowedSite.dir.INDEX = some onePort ∧
    shadowedSite.dir.stored (gz portHash) = some zippedOnePort ∧
    someTools.sha256 (someTools.gunzip zippedOnePort) ≠ portHash := by
  decide +kernel

theorem shadowed_file_installed : Function.Injective someTools.sha256 ∧
    (∀ key signature, isTag (someTools.verify key signature) = true →
      someTools.verify key signature = onePortTag) ∧
    ∃ site, Reach (· = emptySite) (FetchStep someTools someConfig) Always site ∧
      ¬ Authentic someTools someConfig site := by
  obtain ⟨hreturned, hINDEX, hstored, hsum⟩ := shadowed_fetched
  refine ⟨someTools_injective, someTools_signed, shadowedSite, .step (.start rfl) trivial rfl, ?_⟩
  intro hauthentic
  obtain ⟨new, x, i, hstore⟩ := hauthentic hreturned
  have hnamed : portHash ∈ hashes onePort := by decide +kernel
  refine hsum (hstore.files portHash ?_ zippedOnePort hstored)
  rw [Store.named, hINDEX]
  exact List.mem_append_right _ hnamed

/-- Whatever the server sends, the store is authentic after each run that returns 0, as long as
every run is clean. -/
theorem authentic_when_runs_clean {site : Site}
    (hsite : Reach (· = emptySite) (FetchStep t cfg) (CleanRun t cfg) site) :
    Authentic t cfg site := by
  have hinv : InvSite t cfg site := by
    refine hsite.invariant ?_ fun _ _ _ hs hOk hstep => invSite_step hs hOk hstep
    rintro s rfl
    exact invSite_empty
  intro hreturned
  obtain ⟨new, x, i, hgood⟩ := hinv.2 hreturned
  exact ⟨new, x, i, hgood.authentic⟩

theorem cleanServer_metadata {name x : Bytes} (hx : cleanServer.metadata name = some x) :
    x = onePortMetadata := by
  change (if name = onePortMetadataHash then some onePortMetadata else none) = some x at hx
  split at hx
  · exact (Option.some.inj hx).symm
  · cases hx

/-- What the programs say about the files of the server. -/
structure KnowsPort (t : Tools) : Prop where
  index : indexHash t onePortMetadata = onePortHash
  unpackedPort : t.sha256 (t.gunzip zippedPort) = portHash
  unpackedIndex : t.sha256 (t.gunzip zippedOnePort) = onePortHash
  notEmpty : onePortHash ≠ t.sha256 []

theorem someTools_knowsPort : KnowsPort someTools where
  index := by decide +kernel
  unpackedPort := by decide +kernel
  unpackedIndex := by decide +kernel
  notEmpty := by decide +kernel

def cleanMembers : Members := fun n => if n = gz portHash then some zippedPort else
  if n = gz onePortHash then some zippedOnePort else none

theorem cleanMembers_index (ht : KnowsPort t) :
    cleanMembers (gz (indexHash t onePortMetadata)) ≠ none := by
  have hhash : cleanMembers (gz onePortHash) ≠ none := by decide +kernel
  rwa [ht.index]

theorem cleanMembers_clean (ht : KnowsPort t) :
    CleanTarball t cfg onePortMetadata cleanMembers where
  index _ := cleanMembers_index ht
  files := by
    intro h c _ hc
    left
    unfold cleanMembers at hc
    split at hc
    · rename_i hh
      rw [← Option.some.inj hc, ht.unpackedPort, gz_injective hh]
    · split at hc
      · rename_i hh
        rw [← Option.some.inj hc, ht.unpackedIndex, gz_injective hh]
      · cases hc

theorem cleanServer_clean (ht : KnowsPort t) : CleanRun t cfg emptySite cleanServer where
  tarball := by
    intro _ new x members hsnapshot
    have htarball : some cleanMembers = some members := hsnapshot.tarball
    rw [cleanServer_metadata hsnapshot.served, ← Option.some.inj htarball]
    exact cleanMembers_clean ht
  index := by
    intro _ s new x hstart hasks
    rw [cleanServer_metadata hasks.served]
    cases hstart with
    | present _ hsnapshot => cases hsnapshot
    | @fetched _ _ members _ _ hsnapshot =>
      have htarball : some cleanMembers = some members := hsnapshot.tarball
      refine ⟨Or.inl ?_, fun hempty => absurd (ht.index.symm.trans hempty) ht.notEmpty⟩
      rw [← Option.some.inj htarball]
      exact cleanMembers_index ht

theorem authentic_clean :
    Authentic someTools someConfig (fetchSite someTools someConfig cleanServer emptySite) :=
  authentic_when_runs_clean (.step (.start rfl) (cleanServer_clean someTools_knowsPort) rfl)

end DeltaPorts.Portsnap

import DeltaPorts.Portsnap.Authenticity

/-!
# Interrupted updates

An update removes old files before it renames the index files. When it is interrupted in
between, the next run compares the new lists with old ones whose files are gone, and leaves a
file out that it neither can patch nor has. It recovers when it finds what it leaves out.
-/

set_option autoImplicit false

namespace DeltaPorts.Portsnap

open LineTools Script Run

variable {t : Tools} {cfg : Config} {srv : Server} {s s' m p u : Dir} {new x i j : Bytes}
variable {h : Text}

inductive Event where
  | finish (srv : Server)
  | interrupt (srv : Server) (commands : Nat)

def Event.server : Event → Server
  | .finish srv => srv
  | .interrupt srv _ => srv

def run (t : Tools) (cfg : Config) (site : Site) : Event → Option Site
  | .finish srv =>
    let r := fetchRun t cfg srv site.dir
    some ⟨r.state, some r.value⟩
  | .interrupt srv commands =>
    ((site.dir :: (fetchRun t cfg srv site.dir).trace)[commands]?).map fun d => ⟨d, none⟩

def RunStep (t : Tools) (cfg : Config) (site : Site) (e : Event) (site' : Site) : Prop :=
  run t cfg site e = some site'

theorem runStep_finish (srv : Server) (site : Site) : RunStep t cfg site (.finish srv)
    ⟨(fetchRun t cfg srv site.dir).state, some (fetchRun t cfg srv site.dir).value⟩ := rfl

def CompleteStore (site : Site) : Prop := site.dir.Ready ∧ site.dir.Complete

/-- The file that the index line of `x` stands for: the stored one, or any with its checksum. -/
def IsIndex (t : Tools) (s : Dir) (x j : Bytes) : Prop :=
  match s.stored (gz (indexHash t x)) with
  | some c => j = t.gunzip c
  | none => t.sha256 j = indexHash t x

/-- The file is in the store, or it is asked for: its line has no partner in the old list, or the
file of its partner is there by then. If it is the empty file, it arrives. -/
def Comes (t : Tools) (srv : Server) (s : Dir) (x i : Bytes) (h : Text) : Prop :=
  let metadata := metadataBatch t srv (s.tINDEX.getD []) x
  let ports := portsBatch t srv (s.INDEX.getD []) i
  (s.stored (gz h) ≠ none ∨ metadata.Asked s h ∨ h ∈ ports.single ∨
    ∃ y, (y, h) ∈ ports.pairs ∧ metadata.Arrives t s y) ∧
  (h = t.sha256 [] → Arrives t srv s x i h)

/-- The update from `s` comes through: the store is complete if the tag is already there; else the
index file is asked for, and each file that the new lists name comes and is named at least as
often as by the old ones. -/
structure Survives (t : Tools) (cfg : Config) (srv : Server) (s : Dir) : Prop where
  upToDate : ∀ new, Takes t srv s new false → s.Complete
  index : ∀ new x, Asks t srv s new x → IndexAsked t srv s x
  lists : ∀ new x j i, Asks t srv s new x → IsIndex t s x j →
    (hybrid cfg { s with INDEXnew := some j }).INDEXnew = some i → ∀ h ∈ hashes x ++ hashes i,
      s.named.count h ≤ (hashes x ++ hashes i).count h ∧ Comes t srv s x i h

/-- A run that is not interrupted comes through, from what it finds. -/
def SurvivesRun (t : Tools) (cfg : Config) (site : Site) : Event → Prop
  | .finish srv => ∀ s, Start t cfg srv site.dir s → Survives t cfg srv s
  | .interrupt _ _ => True

theorem hybrid_congr {d e : Dir} (hINDEX : d.INDEX = e.INDEX) (hINDEXnew : d.INDEXnew = e.INDEXnew) :
    (hybrid cfg d).INDEXnew = (hybrid cfg e).INDEXnew := by
  unfold hybrid
  cases cfg.refuse with
  | none => exact hINDEXnew
  | some refuse => simp only [hINDEX, hINDEXnew]

/-- What an update extracts is what the index line stands for. -/
theorem Prepared.isIndex (hp : Prepared t cfg srv x i s m p) (hasked : IndexAsked t srv s x) :
    IsIndex t s x (Portsnap.extracted t m x) := by
  obtain ⟨hhash, _⟩ := indexHash_mem hp.metadataLines hp.look
  obtain ⟨c, hc⟩ := Option.ne_none_iff_exists'.mp (hp.index_stored hasked)
  have hextracted : Portsnap.extracted t m x = t.gunzip c := by
    rw [Portsnap.extracted, gunzipName, hc]
    rfl
  unfold IsIndex
  rw [hextracted]
  cases hold : s.stored (gz (indexHash t x)) with
  | some b =>
    rw [hp.metadata_grows.kept _ b (isHash_gz _ hhash) hold] at hc
    rw [Option.some.inj hc]
  | none =>
    refine (hp.metadata_grows.sound _ c hhash hc).resolve_left fun hs => ?_
    rw [hold] at hs
    cases hs

/-- What comes is there before the removal. -/
theorem Prepared.stored_of_comes (hs : s.Ready) (hp : Prepared t cfg srv x i s m p)
    (hh : isHash h = true) (hcomes : Comes t srv s x i h) : p.stored (gz h) ≠ none := by
  have hkept : m.stored (gz h) ≠ none → p.stored (gz h) ≠ none := by
    intro hm
    rw [hp.ports_grows.stored_gz hh hm]
    exact hm
  by_cases hempty : h = t.sha256 []
  · exact hp.stored_of_arrives hs hh (hcomes.2 hempty)
  rcases hcomes.1 with hold | hasked | hsingle | ⟨y, hpair, hy⟩
  · rw [hp.grows.stored_gz hh hold]
    exact hold
  · exact hkept (hp.metadata.asked h hh hasked hempty)
  · exact hp.ports.asked h hh (Or.inl hsingle) hempty
  · have hyhash := (isHash_ports_pair hs hp.indexLines hpair).1
    exact hp.ports.asked h hh (Or.inr ⟨y, hpair, (hp.metadata.stored y hyhash).mpr hy⟩) hempty

theorem SameStore.comes (hss : SameStore s s') (hcomes : Comes t srv s x i h) :
    Comes t srv s' x i h := by
  unfold Comes at hcomes ⊢
  simp only [hss.arrives_iff, hss.asked_iff, hss.allArrive_iff, hss.store]
  exact hcomes

theorem isHash_of_mem_lists (hp : Prepared t cfg srv x i s m p) (hh : h ∈ hashes x ++ hashes i) :
    isHash h = true := by
  rcases List.mem_append.mp hh with hh | hh
  · exact isHash_of_mem_hashes hp.metadataLines hh
  · exact isHash_of_mem_hashes hp.indexLines hh

/-- An update that comes through and returns 0 leaves a complete store. -/
theorem complete_of_updated (hs : s.Ready) (hsurvives : Survives t cfg srv s)
    (hu : Updated t cfg srv s u) : u.Complete := by
  cases hu with
  | upToDate htakes hstore =>
    rw [hstore]
    exact hsurvives.upToDate _ htakes
  | @installed new x i s' m p hasks hss hp hhybrid hu =>
    have hs' : s'.Ready := hss.store ▸ hs
    have hindex := hp.isIndex (hss.indexAsked (hsurvives.index new x hasks))
    have hisIndex : IsIndex t s x (extracted t m x) := by
      unfold IsIndex at hindex ⊢
      rw [hss.stored_eq] at hindex
      exact hindex
    have hINDEXnew : (hybrid cfg { s with INDEXnew := some (extracted t m x) }).INDEXnew = some i := by
      rw [hybrid_congr (e := extractIndex t m), hhybrid]
      · show s.INDEX = m.INDEX
        rw [hp.metadata_grows.INDEX, hss.store]
      · rw [extractIndex, hp.metadata.tINDEXnew]
        rfl
    have hlists := hsurvives.lists new x _ i hasks hisIndex hINDEXnew
    have hnamed : s'.named = s.named := by rw [hss.store]
    intro h hh
    rw [Store.named, hu.tINDEX, hu.INDEX, Option.getD_some, Option.getD_some] at hh
    obtain ⟨hcount, hcomes⟩ := hlists h hh
    refine (stored_of_removed hp hu.files).mpr ⟨by rw [hnamed]; exact hcount, ?_⟩
    exact hp.stored_of_comes hs' (isHash_of_mem_lists hp hh) (hss.comes hcomes)

/-- If the last run returned 0, the store is complete. -/
def Recovered (site : Site) : Prop := site.returned = some true → site.dir.Complete

theorem recovered_runStep {site site' : Site} {e : Event} (husable : Usable site.dir)
    (hsurvives : SurvivesRun t cfg site e) (hstep : RunStep t cfg site e site') :
    Usable site'.dir ∧ Recovered site' := by
  cases e with
  | finish srv =>
    obtain ⟨_, hend⟩ := fetchRun_spec (t := t) cfg srv husable site.dir rfl
    cases Option.some.inj hstep
    show Usable (fetchRun t cfg srv site.dir).state ∧
      (some (fetchRun t cfg srv site.dir).value = some true →
        (fetchRun t cfg srv site.dir).state.Complete)
    cases hvalue : (fetchRun t cfg srv site.dir).value with
    | false =>
      rw [hvalue] at hend
      exact ⟨Failed.usable husable hend, nofun⟩
    | true =>
      rw [hvalue] at hend
      obtain ⟨s, hstart, hupdated⟩ := hend
      have hready := hstart.ready husable
      exact ⟨fun _ => hupdated.ready hready,
        fun _ => complete_of_updated hready (hsurvives s hstart) hupdated⟩
  | interrupt srv commands =>
    obtain ⟨htrace, _⟩ := fetchRun_spec (t := t) cfg srv husable site.dir rfl
    obtain ⟨d, hd, hsite⟩ := Option.map_eq_some_iff.mp hstep
    subst hsite
    refine ⟨?_, nofun⟩
    rcases List.mem_cons.mp (List.mem_of_getElem? hd) with hd | hd
    · rw [hd]
      exact husable
    · exact htrace d hd

def changedPortHash : Text := hash 0xa3a5e715f0cc574a73c3f9bebb6bc24f32ffd5b67b387244c2c909da779a1478

def changedPort : Bytes := indexLine "a/" changedPortHash

def changedIndexHash : Text := hash 0x6201bc6cc2edc491cad53e939b1915ce74f572593556379e0a3cb406aea57bb9

def changedMetadata : Bytes := indexLine "INDEX" changedIndexHash

def changedMetadataHash : Text :=
  hash 0x0e19021ebc4d081709c823c4b1430ffbc7bc6628110f2b64dfcbfa2a1be6cef7

def laterIndexHash : Text := hash 0xf905f53cafbf3874a32b8d967b8bcc2c8faee5706ba74178cc8633dcac0dd050

def laterMetadata : Bytes := indexLine "INDEX" laterIndexHash

def laterMetadataHash : Text := hash 0xe78363cc19f0520c4ebb8de5d4ade16b0dccf18bffdd39c3fe5eb66963c4fec0

def zippedChangedPort : Bytes := ofBytes
  [31, 139, 8, 0, 0, 0, 0, 0, 0, 3, 75, 230, 2, 0, 133, 195, 220, 239, 2, 0, 0, 0]

def zippedChangedIndex : Bytes := ofBytes
  [31, 139, 8, 0, 0, 0, 0, 0, 0, 3, 5, 193, 201, 1, 192, 32, 8, 4, 192, 127, 154, 137, 114, 184,
   82, 14, 139, 82, 69, 138, 207, 76, 190, 95, 106, 250, 197, 244, 30, 85, 14, 75, 104, 105, 7,
   47, 185, 88, 98, 173, 210, 125, 156, 11, 212, 13, 49, 43, 169, 24, 113, 18, 136, 156, 134, 253,
   252, 123, 57, 173, 94, 68, 0, 0, 0]

def changedSignature : Bytes := ofBytes
  [137, 120, 204, 157, 160, 237, 138, 43, 144, 23, 145, 44, 178, 155, 127, 110, 110, 105, 149, 39,
   204, 81, 186, 107, 191, 77, 208, 114, 195, 187, 130, 170, 23, 44, 197, 214, 194, 62, 185, 60,
   91, 244, 125, 107, 3, 104, 87, 61, 214, 7, 206, 13, 134, 250, 187, 229, 17, 91, 151, 245, 38,
   24, 219, 245, 191, 150, 168, 215, 204, 232, 6, 206, 37, 231, 106, 97, 10, 75, 77, 31, 129, 218,
   95, 193, 187, 142, 39, 174, 34, 136, 22, 15, 203, 11, 44, 129]

def laterSignature : Bytes := ofBytes
  [65, 39, 250, 254, 99, 188, 49, 51, 9, 98, 250, 98, 183, 116, 177, 30, 121, 157, 162, 164, 199,
   29, 212, 10, 231, 163, 138, 239, 188, 104, 123, 152, 119, 74, 15, 193, 182, 182, 194, 156, 163,
   29, 103, 244, 104, 8, 215, 201, 126, 4, 37, 153, 17, 255, 167, 160, 7, 12, 218, 66, 11, 17,
   248, 102, 76, 192, 90, 80, 65, 36, 18, 200, 154, 119, 2, 30, 185, 125, 163, 228, 232, 172, 18,
   45, 218, 60, 62, 60, 60, 190, 139, 232, 168, 207, 236, 131]

def laterTools : Tools :=
  tableTools [([], emptyHash), ("c\n".toList, changedPortHash), (changedPort, changedIndexHash),
    (changedMetadata, changedMetadataHash), (laterMetadata, laterMetadataHash),
    (serverKey, serverKeyHash)]
    [(zippedChangedPort, "c\n".toList), (zippedChangedIndex, changedPort)]
    [(changedSignature, tagLine 1200172800 changedMetadataHash),
      (laterSignature, tagLine 1200259200 laterMetadataHash)] serverKey

def onePortDir : Dir where
  tag := some onePortTag
  tINDEX := some onePortMetadata
  INDEX := some onePort
  files := some fun n => if n = gz portHash then some zippedPort else
    if n = gz onePortHash then some zippedOnePort else none
  pub := some serverKey
  ssl _ := none
  tagNew := none
  tINDEXnew := none
  INDEXnew := none
  snap := none
  fetched _ := none

def changedServer : Server := someServer changedSignature changedMetadata changedMetadataHash
  fun n => if n = gz changedIndexHash then some zippedChangedIndex else
    if n = gz changedPortHash then some zippedChangedPort else none

def laterServer : Server := someServer laterSignature laterMetadata laterMetadataHash fun _ => none

set_option maxRecDepth 10000

def onePortSite : Site := ⟨onePortDir, none⟩

theorem onePortSite_complete : CompleteStore onePortSite := by
  refine ⟨⟨Option.some_ne_none _, ⟨_, rfl, by decide +kernel⟩, ⟨_, rfl, by decide +kernel⟩,
    Option.some_ne_none _⟩, ?_⟩
  unfold Store.Complete
  decide +kernel

def interruptedEvents : List Event := [.interrupt changedServer 17, .finish laterServer]

theorem index_left_out : (interruptedEvents.foldlM (run laterTools someConfig) onePortSite).any
    (fun site => site.returned == some true && site.dir.tINDEX == some laterMetadata &&
      (site.dir.stored (gz laterIndexHash)).isNone) = true := by
  decide +kernel

/-- The port `a` has changed twice. The first update is interrupted when it has removed what only
the old lists name; the second one finds neither the old index file nor the new one. -/
theorem interrupted_update_loses_index : CompleteStore onePortSite ∧
    ∃ site, interruptedEvents.foldlM (run laterTools someConfig) onePortSite = some site ∧
      ¬ Recovered site := by
  have hlast := index_left_out
  cases hsite : interruptedEvents.foldlM (run laterTools someConfig) onePortSite with
  | none =>
    rw [hsite] at hlast
    cases hlast
  | some site =>
  rw [hsite] at hlast
  have hend : (site.returned == some true && site.dir.tINDEX == some laterMetadata &&
      (site.dir.stored (gz laterIndexHash)).isNone) = true := hlast
  simp only [Bool.and_eq_true, beq_iff_eq, Option.isNone_iff_eq_none] at hend
  obtain ⟨⟨hreturned, htINDEX⟩, hnone⟩ := hend
  refine ⟨onePortSite_complete, site, rfl, fun hrecovered => ?_⟩
  have hnamed : laterIndexHash ∈ hashes laterMetadata := by decide +kernel
  refine hrecovered hreturned laterIndexHash ?_ hnone
  rw [Store.named, htINDEX]
  exact List.mem_append_left _ hnamed

/-- From a complete store on, a run that returns 0 leaves a complete store, wherever the runs before
it were interrupted, as long as every run that is not interrupted comes through. -/
theorem recovered_when_runs_survive {site : Site}
    (hsite : Reach CompleteStore (RunStep t cfg) (SurvivesRun t cfg) site) : Recovered site := by
  have hinv : Usable site.dir ∧ Recovered site := by
    refine hsite.invariant ?_ fun _ _ _ hs hOk hstep => recovered_runStep hs.1 hOk hstep
    exact fun _ h => ⟨fun _ => h.1, fun _ => h.2⟩
  exact hinv.2

def changedTag : Bytes := tagLine 1200172800 changedMetadataHash

def changedLists : List Text := hashes changedMetadata ++ hashes changedPort

/-- The run from `d` is for the new lists, whose files are there. -/
def changedFound (d : Dir) : Bool :=
  hasSnapshot d && offeredTag laterTools changedServer (keyed laterTools someConfig changedServer d)
      .latest == some changedTag &&
    updateNeeded (d.tag.getD []) changedTag &&
    d.stored (gz changedIndexHash) == some zippedChangedIndex &&
    changedLists.all fun h => decide (d.named.count h ≤ changedLists.count h) &&
      (d.stored (gz h)).isSome

theorem changed_found : (run laterTools someConfig onePortSite (.interrupt changedServer 17)).any
    (fun site => changedFound site.dir && (site.dir.stored (gz portHash)).isNone) = true := by
  decide +kernel

theorem changed_sums : indexHash laterTools changedMetadata = changedIndexHash ∧
    laterTools.gunzip zippedChangedIndex = changedPort ∧
    ∀ h ∈ changedLists, h ≠ laterTools.sha256 [] := by
  decide +kernel

theorem changedServer_metadata {name x : Bytes} (hx : changedServer.metadata name = some x) :
    x = changedMetadata := by
  change (if name = changedMetadataHash then some changedMetadata else none) = some x at hx
  split at hx
  · exact (Option.some.inj hx).symm
  · cases hx

theorem survives_of_changedFound {d : Dir} (h : changedFound d = true) :
    Survives laterTools someConfig changedServer (keyed laterTools someConfig changedServer d) := by
  simp only [changedFound, Bool.and_eq_true, beq_iff_eq, List.all_eq_true, decide_eq_true_eq] at h
  obtain ⟨⟨⟨⟨_, htag⟩, hneeded⟩, hindex⟩, hlists⟩ := h
  obtain ⟨hhash, hunpacked, hempty⟩ := changed_sums
  have hstored : (keyed laterTools someConfig changedServer d).stored
      (gz (indexHash laterTools changedMetadata)) = some zippedChangedIndex := hhash ▸ hindex
  refine ⟨?_, ?_, ?_⟩
  · intro new htakes
    rw [← Option.some.inj (htag.symm.trans htakes.tag)] at htakes
    exact absurd (hneeded.symm.trans htakes.needed) Bool.true_eq_false.mp
  · intro new x hasks
    rw [changedServer_metadata hasks.served]
    refine ⟨Or.inl ?_, fun h => absurd h ?_⟩
    · rw [hstored]
      exact Option.some_ne_none _
    · rw [hhash]
      exact hempty _ (by decide +kernel)
  · intro new x j i hasks hj hi
    rw [changedServer_metadata hasks.served] at hj ⊢
    unfold IsIndex at hj
    rw [hstored] at hj
    have hj : j = changedPort := hj.trans hunpacked
    have hi : j = i := Option.some.inj hi
    subst hi hj
    intro h hh
    obtain ⟨hcount, hsome⟩ := hlists h hh
    exact ⟨hcount, Or.inl (Option.isSome_iff_ne_none.mp hsome), fun he => absurd he (hempty h hh)⟩

/-- The same interruption, and then the same server: the old files are gone, but the new ones are
there. -/
theorem recovered_same : ∃ site, RunStep laterTools someConfig onePortSite
      (.interrupt changedServer 17) site ∧ site.dir.stored (gz portHash) = none ∧
    Recovered ⟨(fetchRun laterTools someConfig changedServer site.dir).state,
      some (fetchRun laterTools someConfig changedServer site.dir).value⟩ := by
  obtain ⟨site, hsite, hfound⟩ := (Option.any_eq_true _ _).mp changed_found
  simp only [Bool.and_eq_true, Option.isNone_iff_eq_none] at hfound
  have hsurvives : SurvivesRun laterTools someConfig site (.finish changedServer) := by
    intro s hstart
    cases hstart with
    | present _ _ => exact survives_of_changedFound hfound.1
    | fetched _ hnone _ =>
      have hsnapshot := hfound.1
      simp only [changedFound, Bool.and_eq_true] at hsnapshot
      rw [hsnapshot.1.1.1.1] at hnone
      cases hnone
  have hinterrupted : SurvivesRun laterTools someConfig onePortSite
      (.interrupt changedServer 17) := trivial
  exact ⟨site, hsite, hfound.2, recovered_when_runs_survive (.step (.step
    (.start onePortSite_complete) hinterrupted hsite) hsurvives (runStep_finish _ _))⟩

end DeltaPorts.Portsnap

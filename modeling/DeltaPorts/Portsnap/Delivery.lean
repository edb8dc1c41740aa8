import DeltaPorts.Portsnap.Recovery
import DeltaPorts.Portsnap.TreeMatch

/-!
# From the signed tag to the ports tree

Runs of `portsnap fetch` and `portsnap update` on one machine, after one `portsnap extract`. The
updates unpack what the fetches have stored, as long as it is there, and do nothing when there is no
snapshot; a line of the index that does not change keeps the files that it had.
-/

set_option autoImplicit false

namespace DeltaPorts.Portsnap.Delivery

open LineTools Parcels Script Run
open PortsTree hiding Inv Event

variable {Content : Type}

/-- The work directory, and `PORTSDIR`. -/
structure Machine (Content : Type) where
  site : Site
  world : World Content

inductive Command (Content : Type) where
  | fetch (srv : Server)
  | update (made : Tree Text Content) (indices : Bool)

/-- How the programs are set up. -/
structure Setup (Content : Type) where
  tools : Tools
  cfg : Config
  /-- The members of a tar file. -/
  untar : Bytes → Archive Content
  tar : Archiver Text Content
  own : List (List Text)

variable (σ : Setup Content)

/-- `files/HASH.gz`, uncompressed. -/
def Setup.stored (d : Dir) (hash : Text) : Archive Content :=
  σ.untar (unpacked σ.tools (d.stored (gz hash)))

/-- A stored file is readable. -/
def callsOf (d : Dir) (made : Tree Text Content) (indices : Bool) : Calls Content where
  readable hash := (d.stored (gz hash)).isSome
  made := made
  indices := indices

def IndexOf (d : Dir) (index : Index) : Prop := index.lines = lines (d.INDEX.getD [])

/-- `portsnap update`. -/
def updateCommand (made : Tree Text Content) (indices : Bool) (m : Machine Content) :
    World Content :=
  if hasSnapshot m.site.dir = true then
    updateRun (σ.stored m.site.dir) σ.tar σ.own (callsOf m.site.dir made indices) m.world
  else { m.world with status := some false }

inductive Step : Machine Content → Command Content → Machine Content → Prop where
  | fetch {site : Site} {w : World Content} {srv : Server} {index : Index} :
      IndexOf (fetchSite σ.tools σ.cfg srv site).dir index →
      Step ⟨site, w⟩ (.fetch srv)
        ⟨fetchSite σ.tools σ.cfg srv site, { w with index := index, status := none }⟩
  | update {m : Machine Content} {made : Tree Text Content} {indices : Bool} :
      Step m (.update made indices) ⟨m.site, updateCommand σ made indices m⟩

/-- What `portsnap extract` makes of `PORTSDIR` after some fetches. -/
structure Extracted (index : Index) (t₀ : Tree Text Content) (m : Machine Content) : Prop where
  fetched : Reach (· = emptySite) (FetchStep σ.tools σ.cfg) (CleanRun σ.tools σ.cfg) m.site
  present : hasSnapshot m.site.dir = true
  isIndex : IndexOf m.site.dir index
  names : NamesNoOwn σ.own index
  free : Unobstructed t₀ index
  world : ∃ made indices, m.world =
    extractRun (σ.stored m.site.dir) σ.tar σ.own (callsOf m.site.dir made indices) index t₀

/-- Fetches are clean, and no index names the files that portsnap makes itself; an update that
finds all archives finds the tree untouched. -/
def Clean (foreign : List Text → Prop) (m : Machine Content) : Command Content → Prop
  | .fetch srv => CleanRun σ.tools σ.cfg m.site srv ∧
      ∀ index, IndexOf (fetchSite σ.tools σ.cfg srv m.site).dir index → NamesNoOwn σ.own index
  | .update made indices => hasSnapshot m.site.dir = true →
      PortsTree.Ok σ.own foreign m.world (.update (callsOf m.site.dir made indices))

/-- The tree is what the owner of the key has signed: there is a signed tag, the metadata and the
index have the hashes that lead from it to the lines, and the files of each line are those of an
archive with its hash. -/
def Genuine (m : Machine Content) : Prop :=
  ∃ new x i, SignedTag σ.tools σ.cfg new ∧ snapshotHash new = [σ.tools.sha256 x] ∧
    σ.tools.sha256 i = indexHash σ.tools x ∧ ∀ l ∈ lines i, ∃ b, σ.tools.sha256 b = cut 2 l ∧
      Holds m.world.tree (parcel (fun _ => σ.untar b) l)

section Loops

variable {archive archive' : Text → Archive Content} {tar : Archiver Text Content}
variable {readable : Text → Bool} {ls : List Text}

theorem parcel_congr {l : Text} (h : archive (cut 2 l) = archive' (cut 2 l)) :
    parcel archive l = parcel archive' l := by
  unfold parcel
  simp only [h]

/-- Archives that are not readable do not matter. -/
theorem extractLines_congr (prepare : Text → Tree Text Content → Tree Text Content)
    (h : ∀ l ∈ ls, readable (cut 2 l) = true → archive (cut 2 l) = archive' (cut 2 l))
    (last : Bool) (t : Tree Text Content) :
    extractLines archive tar prepare readable last t ls =
      extractLines archive' tar prepare readable last t ls := by
  induction ls generalizing last t with
  | nil => rfl
  | cons l ls ih =>
    unfold extractLines
    by_cases hread : readable (cut 2 l) = false
    · rw [if_pos hread, if_pos hread]
    · rw [if_neg hread, if_neg hread,
        parcel_congr (h l List.mem_cons_self (by simpa using hread))]
      exact ih (fun l' hl' => h l' (List.mem_cons_of_mem l hl')) _ _

theorem readable_of_extractLines (prepare : Text → Tree Text Content → Tree Text Content)
    {last : Bool} {t : Tree Text Content}
    (h : (extractLines archive tar prepare readable last t ls).1 = true) :
    ∀ l ∈ ls, readable (cut 2 l) = true := by
  induction ls generalizing last t with
  | nil => exact fun l hl => absurd hl List.not_mem_nil
  | cons l ls ih =>
    unfold extractLines at h
    by_cases hread : readable (cut 2 l) = false
    · rw [if_pos hread] at h
      cases h
    · rw [if_neg hread] at h
      exact List.forall_mem_cons.mpr ⟨by simpa using hread, ih h⟩

end Loops

variable {σ}

/-- Contents with one hash are one archive. -/
def Setup.NoCollision (σ : Setup Content) : Prop :=
  ∀ b b', σ.tools.sha256 b = σ.tools.sha256 b' → σ.untar b = σ.untar b'

open Classical in
/-- The archive of a hash. -/
noncomputable def Setup.named (σ : Setup Content) (hash : Text) : Archive Content :=
  if h : ∃ b, σ.tools.sha256 b = hash then σ.untar h.choose else ⟨fun _ => none, nofun⟩

theorem named_sha256 (hcollision : σ.NoCollision) (b : Bytes) :
    σ.named (σ.tools.sha256 b) = σ.untar b := by
  have h : ∃ b', σ.tools.sha256 b' = σ.tools.sha256 b := ⟨b, rfl⟩
  unfold Setup.named
  rw [dif_pos h]
  exact hcollision _ _ h.choose_spec

variable {d : Dir} {index : Index} {made : Tree Text Content} {indices : Bool}

/-- What a good store has under a hash. -/
theorem stored_eq_named (hcollision : σ.NoCollision) (hfiles : GoodFiles σ.tools d.stored)
    {hash : Text} (hhash : isHash hash = true)
    (hread : (callsOf d made indices).readable hash = true) :
    (∃ b, σ.tools.sha256 b = hash) ∧ σ.stored d hash = σ.named hash := by
  obtain ⟨c, hc⟩ := Option.isSome_iff_exists.mp hread
  have hsum : σ.tools.sha256 (σ.tools.gunzip c) = hash := hfiles hash c hhash hc
  refine ⟨⟨_, hsum⟩, ?_⟩
  unfold Setup.stored
  rw [hc, ← named_sha256 hcollision]
  exact congrArg σ.named hsum

theorem isHash_line {l : Text} (hl : l ∈ index.lines) : isHash (cut 2 l) = true :=
  isHash_cut (index.isLine l hl)

/-- The commands take what they find in a good store for the archives of the hashes. -/
theorem extractLines_named (hcollision : σ.NoCollision) (hfiles : GoodFiles σ.tools d.stored)
    (prepare : Text → Tree Text Content → Tree Text Content) {ls : List Text}
    (hls : ∀ l ∈ ls, isHash (cut 2 l) = true) (last : Bool) (t : Tree Text Content) :
    extractLines (σ.stored d) σ.tar prepare (callsOf d made indices).readable last t ls =
      extractLines σ.named σ.tar prepare (callsOf d made indices).readable last t ls :=
  extractLines_congr prepare
    (fun l hl hread => (stored_eq_named hcollision hfiles (hls l hl) hread).2) last t

/-- Each line of the record is one whose archive has been there. -/
def Recorded (σ : Setup Content) (w : World Content) : Prop :=
  ∀ record, w.record = some record → ∀ l ∈ record, ∃ b, σ.tools.sha256 b = cut 2 l

structure Inv (σ : Setup Content) (foreign : List Text → Prop) (m : Machine Content) : Prop where
  site : InvSite σ.tools σ.cfg m.site
  index : IndexOf m.site.dir m.world.index
  tree : PortsTree.Inv σ.named σ.own foreign m.world
  recorded : Recorded σ m.world
  present : m.world.status = some true → hasSnapshot m.site.dir = true

theorem Inv.genuine {foreign : List Text → Prop} {m : Machine Content} (h : Inv σ foreign m)
    (hcollision : σ.NoCollision) (hrefuse : σ.cfg.refuse = none)
    (hstatus : m.world.status = some true) : Genuine σ m := by
  obtain ⟨new, x, i, hgood⟩ := h.site.1 (h.present hstatus)
  obtain ⟨hrecord, hheld⟩ := h.tree.status hstatus
  refine ⟨new, x, i, hgood.signed, hgood.metadata, hgood.index hrefuse, fun l hl => ?_⟩
  have hlines : m.world.index.lines = lines i := by
    have hindex := h.index
    rwa [IndexOf, hgood.INDEX, Option.getD_some] at hindex
  rw [← hlines] at hl
  obtain ⟨b, hb⟩ := h.recorded _ hrecord l (mem_sort.mpr hl)
  have hnamed : σ.named (cut 2 l) = σ.untar b := by rw [← hb, named_sha256 hcollision]
  refine ⟨b, hb, ?_⟩
  have hparcel : parcel σ.named l = parcel (fun _ => σ.untar b) l := parcel_congr hnamed
  rw [← hparcel]
  exact hheld l hl

theorem extractRun_named (hcollision : σ.NoCollision) (hfiles : GoodFiles σ.tools d.stored)
    (t₀ : Tree Text Content) :
    extractRun (σ.stored d) σ.tar σ.own (callsOf d made indices) index t₀ =
      extractRun σ.named σ.tar σ.own (callsOf d made indices) index t₀ := by
  unfold extractRun
  rw [extractLines_named hcollision hfiles _ fun l hl => isHash_line hl]

theorem updateRun_named (hcollision : σ.NoCollision) (hfiles : GoodFiles σ.tools d.stored)
    (w : World Content) :
    updateRun (σ.stored d) σ.tar σ.own (callsOf d made indices) w =
      updateRun σ.named σ.tar σ.own (callsOf d made indices) w := by
  unfold updateRun
  cases w.record with
  | none => rfl
  | some record =>
    have hls : ∀ l ∈ comm13 record (sort w.index.lines), isHash (cut 2 l) = true :=
      fun l hl => isHash_line (mem_sort.mp ((comm13_sublist _ _).subset hl))
    simp only [extractLines_named hcollision hfiles _ hls]

theorem updateRun_index {archive : Text → Archive Content} {tar : Archiver Text Content}
    {own : List (List Text)} {calls : Calls Content} (w : World Content) :
    (updateRun archive tar own calls w).index = w.index := by
  unfold updateRun
  split
  · rfl
  · dsimp only
    split
    · rfl
    · split <;> rfl

theorem recorded_extractRun (hcollision : σ.NoCollision) (hfiles : GoodFiles σ.tools d.stored)
    (t₀ : Tree Text Content) :
    Recorded σ (extractRun σ.named σ.tar σ.own (callsOf d made indices) index t₀) := by
  intro record hrecord l hl
  unfold extractRun at hrecord
  rcases hresult : extractLines σ.named σ.tar clearPlace (callsOf d made indices).readable true t₀
    index.lines with ⟨_ | _, t⟩
  · rw [hresult] at hrecord
    cases hrecord
  · rw [hresult] at hrecord
    cases hrecord
    have hmem := mem_sort.mp hl
    have hread := readable_of_extractLines _ (congrArg Prod.fst hresult) l hmem
    exact (stored_eq_named hcollision hfiles (isHash_line hmem) hread).1

/-- The lines of a new record are those of the old one or have just been extracted. -/
theorem recorded_updateRun (hcollision : σ.NoCollision) (hfiles : GoodFiles σ.tools d.stored)
    {w : World Content} (hw : Recorded σ w) :
    Recorded σ (updateRun σ.named σ.tar σ.own (callsOf d made indices) w) := by
  intro record hrecord l hl
  unfold updateRun at hrecord
  cases hold : w.record with
  | none =>
    rw [hold] at hrecord
    cases hrecord
  | some old =>
    rw [hold] at hrecord
    simp only at hrecord
    by_cases hsame : sort w.index.lines = old
    · rw [if_pos hsame] at hrecord
      exact hw record (hold.trans hrecord) l hl
    · rw [if_neg hsame] at hrecord
      split at hrecord
      · exact hw record (hold.trans hrecord) l hl
      · next t hresult =>
        cases hrecord
        by_cases hmem : l ∈ old
        · exact hw old hold l hmem
        · have hadded := mem_comm13_of_not_mem hl hmem
          have hread := readable_of_extractLines _ (congrArg Prod.fst hresult) l hadded
          exact (stored_eq_named hcollision hfiles (isHash_line (mem_sort.mp hl)) hread).1

variable {t₀ : Tree Text Content} {m m' : Machine Content}

theorem inv_extracted (hcollision : σ.NoCollision) (h : Extracted σ index t₀ m) :
    Inv σ (Foreign t₀ index) m := by
  have hsite : InvSite σ.tools σ.cfg m.site := by
    refine h.fetched.invariant ?_ fun _ _ _ hs hOk hstep => invSite_step hs hOk hstep
    rintro s rfl
    exact invSite_empty
  obtain ⟨new, x, i, hstore⟩ := hsite.1 h.present
  obtain ⟨made, indices, hworld⟩ := h.world
  rw [extractRun_named hcollision hstore.files] at hworld
  refine ⟨hsite, ?_, ?_, ?_, fun _ => h.present⟩
  · have hindex : m.world.index = index := by
      rw [hworld]
      unfold extractRun
      split <;> rfl
    rw [hindex]
    exact h.isIndex
  · rw [hworld]
    exact inv_extractRun h.names h.free
  · rw [hworld]
    exact recorded_extractRun hcollision hstore.files t₀

theorem inv_update (hcollision : σ.NoCollision) {foreign : List Text → Prop}
    (h : Inv σ foreign m)
    (hok : hasSnapshot m.site.dir = true →
      PortsTree.Ok σ.own foreign m.world (.update (callsOf m.site.dir made indices))) :
    Inv σ foreign ⟨m.site, updateCommand σ made indices m⟩ := by
  unfold updateCommand
  by_cases hsnapshot : hasSnapshot m.site.dir = true
  · rw [if_pos hsnapshot]
    obtain ⟨new, x, i, hstore⟩ := h.site.1 hsnapshot
    rw [updateRun_named hcollision hstore.files]
    refine ⟨h.site, ?_, ?_, recorded_updateRun hcollision hstore.files h.recorded,
      fun _ => hsnapshot⟩
    · unfold IndexOf
      rw [updateRun_index]
      exact h.index
    · exact PortsTree.Inv.step (e := .update (callsOf m.site.dir made indices)) h.tree
        (hok hsnapshot)
  · rw [if_neg hsnapshot]
    refine ⟨h.site, h.index, ⟨h.tree.names, fun hrecord => ?_, nofun⟩, h.recorded, nofun⟩
    obtain ⟨prev, hsync⟩ := h.tree.sync hrecord
    exact ⟨prev, hsync.record, hsync.held, hsync.explained⟩

theorem inv_step (hcollision : σ.NoCollision) {foreign : List Text → Prop} {e : Command Content}
    (h : Inv σ foreign m) (hclean : Clean σ foreign m e) (hstep : Step σ m e m') :
    Inv σ foreign m' := by
  cases hstep with
  | @fetch site w srv index hindex =>
    obtain ⟨hrun, hnames⟩ := hclean
    refine ⟨invSite_step h.site hrun rfl, hindex, ?_, h.recorded, nofun⟩
    exact @PortsTree.Inv.step _ σ.named σ.tar _ _ _ (.fetch index) h.tree (hnames index hindex)
  | update => exact inv_update hcollision h hclean

/-- The owner of the key has signed two tags. -/
def historyTools : Tools :=
  tableTools [([], emptyHash), (onePort, onePortHash), (onePortMetadata, onePortMetadataHash),
    ("a\n".toList, portHash), ("c\n".toList, changedPortHash), (changedPort, changedIndexHash),
    (changedMetadata, changedMetadataHash), (serverKey, serverKeyHash)]
    [(zippedPort, "a\n".toList), (zippedOnePort, onePort), (zippedChangedPort, "c\n".toList),
      (zippedChangedIndex, changedPort)]
    [(onePortSignature, onePortTag), (changedSignature, changedTag)] serverKey

theorem historyTools_injective : Function.Injective historyTools.sha256 :=
  tableTools_injective (by decide +kernel) (by decide +kernel)

theorem historyTools_knowsPort : KnowsPort historyTools where
  index := by decide +kernel
  unpackedPort := by decide +kernel
  unpackedIndex := by decide +kernel
  notEmpty := by decide +kernel

def portSetup : Setup Text where
  tools := historyTools
  cfg := someConfig
  untar := makefileArchive
  tar := plainTar
  own := recordPath

def portLine : Text := "a/|".toList ++ portHash

def changedLine : Text := "a/|".toList ++ changedPortHash

def portIndex : Index := oneLine portLine (by decide +kernel) (by decide +kernel)

def changedIndex : Index := oneLine changedLine (by decide +kernel) (by decide +kernel)

def cleanSite : Site := fetchSite historyTools someConfig cleanServer emptySite

def changedSite : Site := fetchSite historyTools someConfig changedServer cleanSite

theorem cleanSite_INDEX : cleanSite.dir.INDEX = some onePort := by decide +kernel

theorem cleanSite_isIndex : IndexOf cleanSite.dir portIndex := by
  unfold IndexOf
  rw [cleanSite_INDEX]
  decide +kernel

theorem changedSite_INDEX : changedSite.dir.INDEX = some changedPort := by decide +kernel

theorem changedSite_isIndex : IndexOf changedSite.dir changedIndex := by
  unfold IndexOf
  rw [changedSite_INDEX]
  decide +kernel

theorem cleanSite_hasSnapshot : hasSnapshot cleanSite.dir = true := by decide +kernel

theorem cleanSite_reached :
    Reach (· = emptySite) (FetchStep historyTools someConfig) (CleanRun historyTools someConfig)
      cleanSite := .step (.start rfl) (cleanServer_clean historyTools_knowsPort) rfl

/-- The index file of the new metadata is the partner of one that is there. -/
theorem changed_asked : cleanSite.dir.tINDEX = some onePortMetadata ∧
    indexHash historyTools changedMetadata = changedIndexHash ∧
    changedIndexHash ≠ historyTools.sha256 [] ∧
    (onePortHash, changedIndexHash) ∈
      (metadataBatch historyTools changedServer onePortMetadata changedMetadata).pairs ∧
    cleanSite.dir.stored (gz onePortHash) ≠ none := by
  decide +kernel

theorem changedServer_clean : CleanRun historyTools someConfig cleanSite changedServer where
  tarball hnone := by
    rw [cleanSite_hasSnapshot] at hnone
    cases hnone
  index := by
    obtain ⟨htINDEX, hindex, hempty, hpair, hold⟩ := changed_asked
    intro _ s new x hstart hasks
    rw [changedServer_metadata hasks.served]
    cases hstart with
    | fetched _ hnone _ =>
      rw [cleanSite_hasSnapshot] at hnone
      cases hnone
    | present _ _ =>
      refine SameStore.indexAsked (sameStore_keyed _ _ _ _) ?_
      unfold IndexAsked
      rw [htINDEX, hindex]
      exact ⟨Or.inr (Or.inr ⟨onePortHash, hpair, hold⟩), fun h => absurd h hempty⟩

theorem namesNoOwn_oneLine {l : Text} (hline : Portsnap.isLine isIndexChar l = true)
    (hnames : ∀ n ∈ placeOf l, n ≠ ".".toList ∧ n ≠ "..".toList)
    (hapart : Apart [".portsnap.INDEX".toList] (placeOf l)) :
    NamesNoOwn recordPath (oneLine l hline hnames) := by
  intro l' hl' x hx
  rw [List.mem_singleton.mp hl', List.mem_singleton.mp hx]
  exact hapart

theorem portIndex_names : NamesNoOwn recordPath portIndex :=
  namesNoOwn_oneLine _ _ (by unfold Apart; decide +kernel)

theorem changedIndex_names : NamesNoOwn recordPath changedIndex :=
  namesNoOwn_oneLine _ _ (by unfold Apart; decide +kernel)

def portMachine : Machine Text :=
  ⟨cleanSite, extractRun (portSetup.stored cleanSite.dir) portSetup.tar portSetup.own
    (callsOf cleanSite.dir emptyTree true) portIndex emptyTree⟩

theorem portMachine_site : portMachine.site = cleanSite := by
  dsimp only [portMachine]

theorem portMachine_world : portMachine.world =
    extractRun (portSetup.stored cleanSite.dir) portSetup.tar portSetup.own
      (callsOf cleanSite.dir emptyTree true) portIndex emptyTree := by
  dsimp only [portMachine]

theorem portMachine_eq : portMachine = ⟨cleanSite, portMachine.world⟩ := by
  dsimp only [portMachine]

theorem portMachine_extracted : Extracted portSetup portIndex emptyTree portMachine where
  fetched := by
    rw [portMachine_site]
    exact cleanSite_reached
  present := by
    rw [portMachine_site]
    exact cleanSite_hasSnapshot
  isIndex := by
    rw [portMachine_site]
    exact cleanSite_isIndex
  names := portIndex_names
  free := emptyTree_unobstructed portIndex
  world := by
    rw [portMachine_site]
    exact ⟨emptyTree, true, portMachine_world⟩

/-- The port has changed, and the next `portsnap update` has its new files to extract. -/
def changedMachine : Machine Text :=
  ⟨changedSite, { portMachine.world with index := changedIndex, status := none }⟩

def updatedMachine : Machine Text :=
  ⟨changedSite, updateCommand portSetup emptyTree true changedMachine⟩

theorem indexOf_unique {d : Dir} {index index' : Index} (h : IndexOf d index)
    (h' : IndexOf d index') : index = index' := by
  cases index
  cases index'
  cases h.trans h'.symm
  rfl

theorem changedMachine_reached :
    Reach (Extracted portSetup portIndex emptyTree) (Step portSetup)
      (Clean portSetup (Foreign emptyTree portIndex)) changedMachine := by
  have hstart : Extracted portSetup portIndex emptyTree ⟨cleanSite, portMachine.world⟩ := by
    rw [← portMachine_eq]
    exact portMachine_extracted
  have hclean : Clean portSetup (Foreign emptyTree portIndex) ⟨cleanSite, portMachine.world⟩
      (.fetch changedServer) := by
    refine ⟨changedServer_clean, fun index hindex => ?_⟩
    rw [indexOf_unique hindex changedSite_isIndex]
    exact changedIndex_names
  have hstep : Step portSetup ⟨cleanSite, portMachine.world⟩ (.fetch changedServer)
      ⟨changedSite, { portMachine.world with index := changedIndex, status := none }⟩ :=
    @Step.fetch _ portSetup cleanSite portMachine.world changedServer changedIndex
      changedSite_isIndex
  exact .step (.start hstart) hclean hstep

theorem updatedMachine_reached :
    Reach (Extracted portSetup portIndex emptyTree) (Step portSetup)
      (Clean portSetup (Foreign emptyTree portIndex)) updatedMachine := by
  have hhistory : changedMachine.world.lost = [] ∧ changedMachine.world.left = [] := by
    dsimp only [changedMachine]
    rw [portMachine_world]
    exact history_extractRun portIndex emptyTree
  have hclean : Clean portSetup (Foreign emptyTree portIndex) changedMachine
      (.update emptyTree true) := by
    refine fun _ record _ _ => ⟨?_, ?_, ?_⟩
    · intro l _ _ hmem
      rw [hhistory.1] at hmem
      cases hmem
    · intro l _ _ q hq
      rw [hhistory.2] at hq
      cases hq
    · exact fun l _ _ x hx => absurd rfl hx.1
  exact .step changedMachine_reached hclean .update

theorem updatedMachine_extracted : updatedMachine.world.status = some true ∧
    portMachine.world.tree (placeOf portLine ++ ["Makefile".toList]) = some "a\n".toList ∧
    updatedMachine.world.tree (placeOf portLine ++ ["Makefile".toList]) = some "c\n".toList := by
  decide +kernel

end DeltaPorts.Portsnap.Delivery

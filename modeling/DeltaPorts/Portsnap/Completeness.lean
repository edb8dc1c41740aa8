import DeltaPorts.Portsnap.Update

/-!
# Completeness of the store after an update

The removal at the end of an update works on lists with repetitions: a hash that the old index
files name more often than the new ones is removed, although the new ones name it.
-/

set_option autoImplicit false

namespace DeltaPorts.Portsnap

open LineTools Script

variable {t : Tools} {cfg : Config} {srv : Server} {s s' m p u : Dir} {new x i : Bytes}
variable {h : Text}

/-- The file is in the store before the update or comes in with it. -/
def Arrives (t : Tools) (srv : Server) (s : Dir) (x i : Bytes) (h : Text) : Prop :=
  (metadataBatch t srv (s.tINDEX.getD []) x).Arrives t s h ∨
    (portsBatch t srv (s.INDEX.getD []) i).Arrives t s h

theorem or_ne_none {a b : Option Bytes} : a.or b ≠ none ↔ a ≠ none ∨ b ≠ none := by
  rw [ne_eq, Option.or_eq_none_iff, not_and_or]

section Complete

variable (hs : s.Ready) (hc : s.Complete)

theorem stored_of_mem_tINDEX (hc : s.Complete) (hh : h ∈ hashes (s.tINDEX.getD [])) :
    s.stored (gz h) ≠ none := hc h (List.mem_append_left _ hh)

theorem stored_of_mem_INDEX (hc : s.Complete) (hh : h ∈ hashes (s.INDEX.getD [])) :
    s.stored (gz h) ≠ none := hc h (List.mem_append_right _ hh)

include hs hc

theorem asked_metadata (hx : metadataLines x = true) (hh : h ∈ hashes x) :
    (metadataBatch t srv (s.tINDEX.getD []) x).Asked s h := by
  obtain ⟨old, hold, holdLines⟩ := hs.tINDEX
  have hlines : metadataLines (s.tINDEX.getD []) = true := by rw [hold]; exact holdLines
  rcases single_or_pair hlines hx hh with hsingle | ⟨y, hy, hpair⟩
  · exact Or.inl hsingle
  · exact Or.inr ⟨y, hpair, stored_of_mem_tINDEX hc hy⟩

theorem asked_ports (srv : Server) (hi : indexLines i = true) (hh : h ∈ hashes i) :
    (portsBatch t srv (s.INDEX.getD []) i).Asked s h := by
  obtain ⟨old, hold, holdLines⟩ := hs.INDEX
  have hlines : indexLines (s.INDEX.getD []) = true := by rw [hold]; exact holdLines
  rcases single_or_pair hlines hi hh with hsingle | ⟨y, hy, hpair⟩
  · exact Or.inl hsingle
  · exact Or.inr ⟨y, hpair, stored_of_mem_INDEX hc hy⟩

omit hc in
theorem isHash_ports_pair (hi : indexLines i = true) {q : Text × Text}
    (hq : q ∈ (portsBatch t srv (s.INDEX.getD []) i).pairs) :
    isHash q.1 = true ∧ isHash q.2 = true := by
  obtain ⟨old, hold, holdLines⟩ := hs.INDEX
  have hlines : indexLines (s.INDEX.getD []) = true := by rw [hold]; exact holdLines
  exact (isHash_join hlines hi).1 q hq

theorem stored_of_ports_pair (hi : indexLines i = true) {q : Text × Text}
    (hq : q ∈ (portsBatch t srv (s.INDEX.getD []) i).pairs) : s.stored (gz q.1) ≠ none := by
  obtain ⟨old, hold, holdLines⟩ := hs.INDEX
  have hlines : indexLines (s.INDEX.getD []) = true := by rw [hold]; exact holdLines
  exact stored_of_mem_INDEX hc (mem_join_pairs hlines hi hq).1

omit hc in
/-- The metadata batch leaves the ports patches as they were. -/
theorem portsPatch_ne_metadataPatch (hx : metadataLines x = true) {q r : Text × Text} {old : Bytes}
    (hq : isHash q.1 = true ∧ isHash q.2 = true)
    (hr : r ∈ (metadataBatch t srv (s.tINDEX.getD []) x).pairs) :
    (portsBatch t srv old i).patchFile q ≠
      (metadataBatch t srv (s.tINDEX.getD []) x).patchFile r := by
  obtain ⟨tINDEX, htINDEX, holdLines⟩ := hs.tINDEX
  have hlines : metadataLines (s.tINDEX.getD []) = true := by rw [htINDEX]; exact holdLines
  obtain ⟨hr1, hr2⟩ := (wf_metadataBatch hlines hx).pairs r hr
  intro heq
  have hlength : q.1.length = r.1.length := by
    simp only [isHash, Bool.and_eq_true, beq_iff_eq] at hq hr1
    rw [hq.1.1, hr1.1]
  obtain ⟨_, hrest⟩ := List.append_inj heq hlength
  have hgz : q.2 ++ [] = gz r.2 := (List.cons.inj hrest).2
  rw [List.append_nil] at hgz
  exact gz_ne_of_isHash hq.2 hr2 hgz.symm

omit hc in
theorem Prepared.goodPatch_iff (hp : Prepared t cfg srv x i s m p) {y : Text}
    (hpair : (y, h) ∈ (portsBatch t srv (s.INDEX.getD []) i).pairs)
    (hold : s.stored (gz y) ≠ none) :
    (portsBatch t srv (s.INDEX.getD []) i).GoodPatch t { m with INDEXnew := some i } (y, h) ↔
      (portsBatch t srv (s.INDEX.getD []) i).GoodPatch t s (y, h) := by
  obtain ⟨hy, hh⟩ := isHash_ports_pair hs hp.indexLines hpair
  have hstored : m.stored (gz y) = s.stored (gz y) := hp.metadata_grows.stored_gz hy hold
  have hfetched : m.fetched ((portsBatch t srv (s.INDEX.getD []) i).patchFile (y, h)) =
      s.fetched ((portsBatch t srv (s.INDEX.getD []) i).patchFile (y, h)) := by
    refine hp.metadata.others _ ?_ ?_
    · intro k hk heq
      exact patchFile_ne_gz _ hk heq.symm
    · intro r hr
      exact portsPatch_ne_metadataPatch hs hp.metadataLines ⟨hy, hh⟩ hr
  unfold Batch.GoodPatch
  rw [show Store.stored _ _ = _ from hstored, show Dir.fetched _ _ = _ from hfetched]

omit hc in
/-- What arrives is there before the removal. -/
theorem Prepared.stored_of_arrives (hp : Prepared t cfg srv x i s m p) (hh : isHash h = true)
    (harrives : Arrives t srv s x i h) : p.stored (gz h) ≠ none := by
  have hkept : m.stored (gz h) ≠ none → p.stored (gz h) ≠ none := by
    intro hm
    rw [hp.ports_grows.stored_gz hh hm]
    exact hm
  rcases harrives with harrives | hs' | ⟨y, hpair, hgood⟩ | ⟨hasked, hserved⟩
  · exact hkept ((hp.metadata.stored h hh).mpr harrives)
  · refine hkept ?_
    rw [hp.metadata_grows.stored_gz hh hs']
    exact hs'
  · have hold : s.stored (gz y) ≠ none := by
      obtain ⟨old, _, _, hold, _⟩ := hgood
      rw [hold]
      exact Option.some_ne_none old
    apply (hp.ports.stored h hh).mpr
    exact Or.inr (Or.inl ⟨y, hpair, (hp.goodPatch_iff hs hpair hold).mpr hgood⟩)
  · have hasked' : (portsBatch t srv (s.INDEX.getD []) i).Asked { m with INDEXnew := some i } h := by
      rcases hasked with hsingle | ⟨y, hpair, hy⟩
      · exact Or.inl hsingle
      · refine Or.inr ⟨y, hpair, ?_⟩
        have hyhash := (isHash_ports_pair hs hp.indexLines hpair).1
        rw [show Store.stored _ _ = _ from hp.metadata_grows.stored_gz hyhash hy]
        exact hy
    have hserves : (portsBatch t srv (s.INDEX.getD []) i).served (gz h) ≠ none ∨
        m.fetched (gz h) ≠ none → p.stored (gz h) ≠ none := by
      intro hserves
      apply (hp.ports.stored h hh).mpr
      exact Or.inr (Or.inr ⟨hasked', or_ne_none.mpr hserves⟩)
    rcases or_ne_none.mp hserved with hserved | hserved
    · exact hserves (Or.inl hserved)
    · rcases hp.metadata.used h hh hserved with hm | hm
      · exact hserves (Or.inr hm)
      · exact hkept hm

/-- A file is there before the removal if and only if it arrives. -/
theorem Prepared.stored_iff (hp : Prepared t cfg srv x i s m p) (hh : isHash h = true) :
    p.stored (gz h) ≠ none ↔ Arrives t srv s x i h := by
  refine ⟨fun hstored => ?_, hp.stored_of_arrives hs hh⟩
  rcases (hp.ports.stored h hh).mp hstored with hm | ⟨y, hpair, hgood⟩ | ⟨hasked, hserved⟩
  · exact Or.inl ((hp.metadata.stored h hh).mp hm)
  · have hold := stored_of_ports_pair hs hc hp.indexLines hpair
    exact Or.inr (Or.inr (Or.inl ⟨y, hpair, (hp.goodPatch_iff hs hpair hold).mp hgood⟩))
  · refine Or.inr (Or.inr (Or.inr ⟨?_, ?_⟩))
    · rcases hasked with hsingle | ⟨y, hpair, _⟩
      · exact Or.inl hsingle
      · exact Or.inr ⟨y, hpair, stored_of_ports_pair hs hc hp.indexLines hpair⟩
    · rw [or_ne_none] at hserved ⊢
      exact hserved.imp_right fun hm => hp.metadata.fetched h hh hm

/-- Only the empty file can be missing before the removal. -/
theorem Prepared.stored_of_named (hp : Prepared t cfg srv x i s m p)
    (hh : h ∈ hashes x ++ hashes i) (hne : h ≠ t.sha256 []) : p.stored (gz h) ≠ none := by
  rcases List.mem_append.mp hh with hh | hh
  · have hhash := isHash_of_mem_hashes hp.metadataLines hh
    have hm := hp.metadata.asked h hhash (asked_metadata hs hc hp.metadataLines hh) hne
    rw [hp.ports_grows.stored_gz hhash hm]
    exact hm
  · have hhash := isHash_of_mem_hashes hp.indexLines hh
    refine hp.ports.asked h hhash ?_ hne
    rcases asked_ports (t := t) hs hc srv hp.indexLines hh with hsingle | ⟨y, hpair, hy⟩
    · exact Or.inl hsingle
    · refine Or.inr ⟨y, hpair, ?_⟩
      have hyhash := (isHash_ports_pair hs hp.indexLines hpair).1
      rw [show Store.stored _ _ = _ from hp.metadata_grows.stored_gz hyhash hy]
      exact hy

end Complete

theorem mem_unneeded (hx : p.tINDEXnew = some x) (hi : p.INDEXnew = some i) :
    h ∈ unneeded p ↔ (hashes x ++ hashes i).count h < p.named.count h := by
  unfold unneeded
  rw [hx, hi, Option.getD_some, Option.getD_some, mem_comm13_sort]

/-- The store has all files but those that the old lists name more often than the new ones. -/
theorem stored_of_removed (hp : Prepared t cfg srv x i s m p)
    (hfiles : u.files = (removed (unneeded p) p).files) : u.stored (gz h) ≠ none ↔
      s.named.count h ≤ (hashes x ++ hashes i).count h ∧ p.stored (gz h) ≠ none := by
  have hstored : u.stored (gz h) = (removed (unneeded p) p).stored (gz h) := by
    unfold Store.stored
    rw [hfiles]
  rw [hstored, stored_gz_removed, ← hp.grows.named]
  have hmem := mem_unneeded (h := h) hp.tINDEXnew hp.INDEXnew
  by_cases hneeded : h ∈ unneeded p
  · have hlt := Nat.not_le.mpr (hmem.mp hneeded)
    simp only [hneeded, hlt, if_true, ne_eq, not_true, false_and]
  · have hle := Nat.not_lt.mp (mt hmem.mpr hneeded)
    simp only [hneeded, hle, if_false, true_and]

theorem arrives_of_stored (hh : s.stored (gz h) ≠ none) : Arrives t srv s x i h :=
  Or.inl (Or.inl hh)

theorem SameStore.allArrive_iff (hss : SameStore s s') :
    Arrives t srv s' x i h ↔ Arrives t srv s x i h := by
  unfold Arrives
  rw [hss.arrives_iff, hss.arrives_iff, hss.store]

/-- Each file that the new lists name has arrived, if it is the empty file, and is named at least
as often as by the old lists. -/
def KeepsNamed (t : Tools) (srv : Server) (s : Dir) (x i : Bytes) : Prop :=
  ∀ h ∈ hashes x ++ hashes i, s.named.count h ≤ (hashes x ++ hashes i).count h ∧
    (h = t.sha256 [] → Arrives t srv s x i h)

theorem Prepared.stored_iff_arrives (hss : SameStore s s') (hs : s.Ready) (hc : s.Complete)
    (hp : Prepared t cfg srv x i s' m p) (hh : h ∈ hashes x ++ hashes i) :
    p.stored (gz h) ≠ none ↔ (h = t.sha256 [] → Arrives t srv s x i h) := by
  have hs' : s'.Ready := hss.store ▸ hs
  have hc' : s'.Complete := by
    rw [hss.store]
    exact hc
  have hhash : isHash h = true := by
    rcases List.mem_append.mp hh with hh | hh
    · exact isHash_of_mem_hashes hp.metadataLines hh
    · exact isHash_of_mem_hashes hp.indexLines hh
  by_cases hne : h = t.sha256 []
  · rw [hp.stored_iff hs' hc' hhash, hss.allArrive_iff]
    simp [hne]
  · have hstored := hp.stored_of_named hs' hc' hh hne
    simp [hne, hstored]

def ofBytes (l : List Nat) : Bytes := l.map Char.ofNat

/-- The last `k` digits of a number. -/
def digits (base : Nat) : Nat → Nat → Text
  | 0, _ => []
  | k + 1, n => digits base k (n / base) ++ [Nat.digitChar (n % base)]

def hash (n : Nat) : Text := digits 16 64 n

def tagLine (date : Nat) (hash : Text) : Bytes :=
  "portsnap|".toList ++ digits 10 10 date ++ '|' :: (hash ++ ['\n'])

def indexLine (path : String) (hash : Text) : Bytes := path.toList ++ '|' :: (hash ++ ['\n'])

def emptyHash : Text := hash 0xe3b0c44298fc1c149afbf4c8996fb92427ae41e4649b934ca495991b7852b855

def portHash : Text := hash 0x87428fc522803d31065e7bce3cf03fe475096631e5e07bbd7a0fde60c4cf25c7

def twoPorts : Bytes := indexLine "a/" portHash ++ indexLine "b/" portHash

def twoPortsHash : Text := hash 0xd74ca95936e228bb236d8ba8fc2d6727d7f2514ff9a51f3c8e5c873a9029e2da

def onePort : Bytes := indexLine "a/" portHash

def onePortHash : Text := hash 0x7da8af6202cd592276d0e62da1cabaf512ee22daa26a02ef30a824915683667e

def onePortMetadata : Bytes := indexLine "INDEX" onePortHash

def onePortMetadataHash : Text :=
  hash 0xd4a6e6cbb09bb77282a364c0da6cd84a616425755f4c67e5486658e38e6e181e

def onePortTag : Bytes := tagLine 1200086400 onePortMetadataHash

def zippedPort : Bytes := ofBytes
  [31, 139, 8, 0, 0, 0, 0, 0, 0, 3, 75, 228, 2, 0, 7, 161, 234, 221, 2, 0, 0, 0]

def zippedOnePort : Bytes := ofBytes
  [31, 139, 8, 0, 0, 0, 0, 0, 0, 3, 5, 193, 199, 1, 192, 32, 12, 4, 176, 127, 150, 201, 97, 227,
   146, 113, 112, 155, 130, 225, 35, 157, 247, 186, 109, 242, 73, 33, 114, 112, 241, 130, 74, 91,
   100, 115, 14, 120, 122, 155, 224, 83, 229, 213, 210, 176, 136, 178, 131, 169, 86, 228, 206, 33,
   73, 123, 126, 158, 42, 31, 238, 68, 0, 0, 0]

def serverKey : Bytes := unlines (["-----BEGIN PUBLIC KEY-----",
  "MHwwDQYJKoZIhvcNAQEBBQADawAwaAJhAJYYnLWG3BrZwoosRbV11i6T7bnqXhhI",
  "lyVe9sTR3Scf3Tuzt3khy6dnVd8k2Pgb/m8PPv1hpud5qfM4c9LoLt3WiQHXI7Yc",
  "DnwgCtoPQt+7KiSlpXCHG+AQGLseOkSXQwIDAQAB",
  "-----END PUBLIC KEY-----"].map String.toList)

def serverKeyHash : Text := hash 0x303cf499c4523ee787906f37efddb1a1bd229bf6057923c264bb12cc240ced84

def onePortSignature : Bytes := ofBytes
  [83, 96, 178, 195, 132, 165, 0, 102, 34, 6, 205, 92, 180, 228, 180, 228, 42, 77, 77, 29, 205,
   21, 248, 184, 181, 186, 189, 249, 255, 4, 29, 133, 181, 175, 202, 131, 120, 251, 206, 224, 220,
   122, 126, 252, 237, 113, 35, 131, 72, 38, 95, 99, 210, 155, 44, 155, 7, 48, 233, 39, 136, 11,
   196, 161, 130, 172, 63, 238, 41, 6, 27, 54, 103, 80, 53, 31, 151, 102, 81, 233, 185, 217, 96,
   156, 74, 153, 238, 181, 132, 84, 162, 164, 11, 107, 137, 135]

def someTools : Tools :=
  tableTools [([], emptyHash), (onePort, onePortHash), (onePortMetadata, onePortMetadataHash),
    ("a\n".toList, portHash), (serverKey, serverKeyHash)]
    [(zippedPort, "a\n".toList), (zippedOnePort, onePort)] [(onePortSignature, onePortTag)] serverKey

def someConfig : Config := ⟨serverKeyHash, none⟩

/-- A server with one snapshot, and without patches. -/
def someServer (signature metadata : Bytes) (hash : Text) (files : Members) : Server where
  now := 1200300000
  pubs := [some serverKey]
  ssls _ := [some signature]
  metadata name := if name = hash then some metadata else none
  tarball _ := none
  metadataPatches _ := none
  metadataFiles := files
  portsPatches _ := none
  portsFiles := files

def twoPortsDir : Dir where
  tag := some (tagLine 1200000000
    (hash 0x220e6f1e4acf17e777d6825da13e5ee243ca9181de4cd2b780627434d24f37bf))
  tINDEX := some (indexLine "INDEX" twoPortsHash)
  INDEX := some twoPorts
  files := some fun n => if n = gz portHash then some zippedPort else
    if n = gz twoPortsHash then some [] else none
  pub := some serverKey
  ssl _ := none
  tagNew := none
  tINDEXnew := none
  INDEXnew := none
  snap := none
  fetched _ := none

def onePortServer : Server := someServer onePortSignature onePortMetadata onePortMetadataHash
  fun n => if n = gz onePortHash then some zippedOnePort else none

theorem twoPortsDir_ready : twoPortsDir.Ready where
  tag := Option.some_ne_none _
  tINDEX := ⟨_, rfl, by decide +kernel⟩
  INDEX := ⟨_, rfl, by decide +kernel⟩
  files := Option.some_ne_none _

theorem twoPortsDir_complete : twoPortsDir.Complete := by
  unfold Store.Complete
  decide +kernel

theorem twoPorts_updated :
    (fetchUpdate someTools someConfig onePortServer twoPortsDir).value = true ∧
    (fetchUpdate someTools someConfig onePortServer twoPortsDir).state.tINDEX =
      some onePortMetadata ∧
    (fetchUpdate someTools someConfig onePortServer twoPortsDir).state.INDEX = some onePort ∧
    (fetchUpdate someTools someConfig onePortServer twoPortsDir).state.stored (gz portHash) = none := by
  decide +kernel

/-- The ports `a` and `b` have the same hash. When `b` is deleted, the old lists name the hash
twice and the new ones name it once. -/
theorem shared_file_removed : twoPortsDir.Ready ∧ twoPortsDir.Complete ∧
    (fetchUpdate someTools someConfig onePortServer twoPortsDir).value = true ∧
    ¬ (fetchUpdate someTools someConfig onePortServer twoPortsDir).state.Complete := by
  obtain ⟨hrc, _, hINDEX, hgone⟩ := twoPorts_updated
  refine ⟨twoPortsDir_ready, twoPortsDir_complete, hrc, fun hcomplete => ?_⟩
  have hnamed : portHash ∈ hashes onePort := by decide +kernel
  refine hcomplete portHash ?_ hgone
  rw [Store.named, hINDEX]
  exact List.mem_append_right _ hnamed

/-- An update that returns 0 leaves a complete store if and only if the new lists name nothing
that the removal takes away. -/
theorem update_complete_iff_keeps_named (hs : s.Ready) (hc : s.Complete)
    (hrc : (fetchUpdate t cfg srv s).value = true)
    (hx : (fetchUpdate t cfg srv s).state.tINDEX = some x)
    (hi : (fetchUpdate t cfg srv s).state.INDEX = some i) :
    (fetchUpdate t cfg srv s).state.Complete ↔ KeepsNamed t srv s x i := by
  have hspec := (fetchUpdate_spec (t := t) cfg srv hs s rfl).2
  rw [hrc, if_pos rfl] at hspec
  have hnamed : (fetchUpdate t cfg srv s).state.named = hashes x ++ hashes i := by
    rw [Store.named, hx, hi, Option.getD_some, Option.getD_some]
  unfold Store.Complete KeepsNamed
  rw [hnamed]
  cases hspec with
  | upToDate _ hstore =>
    have hold : hashes x ++ hashes i = s.named := by rw [← hnamed, hstore]
    rw [hstore, hold]
    constructor
    · intro hcomplete h hh
      exact ⟨le_refl _, fun _ => arrives_of_stored (hcomplete h hh)⟩
    · intro _ h hh
      exact hc h hh
  | @installed _ _ _ s' _ _ _ hss hp _ hu =>
    rw [hu.tINDEX] at hx
    rw [hu.INDEX] at hi
    cases hx
    cases hi
    have hsnamed : s'.named = s.named := by rw [hss.store]
    constructor
    · intro hcomplete h hh
      obtain ⟨hcount, hstored⟩ := (stored_of_removed hp hu.files).mp (hcomplete h hh)
      rw [hsnamed] at hcount
      exact ⟨hcount, (hp.stored_iff_arrives hss hs hc hh).mp hstored⟩
    · intro hkeeps h hh
      obtain ⟨hcount, harrives⟩ := hkeeps h hh
      rw [← hsnamed] at hcount
      exact (stored_of_removed hp hu.files).mpr
        ⟨hcount, (hp.stored_iff_arrives hss hs hc hh).mpr harrives⟩

theorem update_complete_iff_twoPorts :
    (fetchUpdate someTools someConfig onePortServer twoPortsDir).state.Complete ↔
      KeepsNamed someTools onePortServer twoPortsDir onePortMetadata onePort :=
  update_complete_iff_keeps_named twoPortsDir_ready twoPortsDir_complete twoPorts_updated.1
    twoPorts_updated.2.1 twoPorts_updated.2.2.1

end DeltaPorts.Portsnap

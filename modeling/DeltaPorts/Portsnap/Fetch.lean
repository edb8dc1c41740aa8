import DeltaPorts.Portsnap.Store

/-!
# portsnap fetch

The commands of `fetch_run` and of the functions it calls. `true` stands for a return value
of 0. Messages, statistics and the lists that a run writes for itself are left out.
-/

set_option autoImplicit false

namespace DeltaPorts.Portsnap

open LineTools Script

variable (t : Tools)

def putFile (name : Text) (b : Bytes) (d : Dir) : Dir :=
  { d with files := d.files.map fun f => Function.update f name (some b) }

def rmFile (name : Text) (d : Dir) : Dir :=
  { d with files := d.files.map fun f => Function.update f name none }

/-- A failed download leaves a file of that name as it was. -/
def download (name : Text) (answer : Option Bytes) (d : Dir) : Dir :=
  { d with fetched := Function.update d.fetched name (answer.or (d.fetched name)) }

def rmFetched (name : Text) (d : Dir) : Dir :=
  { d with fetched := Function.update d.fetched name none }

def Which.file : Which → String
  | .snapshot => "snapshot.ssl"
  | .latest => "latest.ssl"

/-- `rm -f names`, which leaves the directories `files` and `snap`. -/
def rmNames (names : List Text) (d : Dir) : Dir :=
  let left (name : String) (b : Option Bytes) := if names.contains name.toList then none else b
  { d with
    tag := left "tag" d.tag
    tINDEX := left "tINDEX" d.tINDEX
    INDEX := left "INDEX" d.INDEX
    pub := left "pub.ssl" d.pub
    ssl := fun which => left which.file (d.ssl which)
    tagNew := left "tag.new" d.tagNew
    tINDEXnew := left "tINDEX.new" d.tINDEXnew
    INDEXnew := left "INDEX.new" d.INDEXnew
    fetched := fun name => if names.contains name then none else d.fetched name }

/-- `gunzip -c < file`, which prints nothing when the file is missing. -/
def unpacked (b : Option Bytes) : Bytes := b.elim [] t.gunzip

/-- `gunzip -c name`, which reads `name` when it exists and `name.gz` otherwise. -/
def gunzipName (dir : Members) (name : Text) : Bytes :=
  unpacked t ((dir name).or (dir (gz name)))

/-- `gzip -n files/name`, which does not overwrite a compressed file. -/
def gzipFile (name : Text) (d : Dir) : Dir :=
  match d.stored name, d.stored (gz name) with
  | some b, none => rmFile name (putFile (gz name) (t.gzip b) d)
  | _, _ => d

def goodKey (cfg : Config) (d : Dir) : Bool := d.pub.any fun k => t.sha256 k == cfg.keyprint

def fetchKey (cfg : Config) (answer : Option Bytes) : Script Dir Bool := do
  if ← read (goodKey t cfg) then pure true
  else
    cmd fun d => { d with pub := none }
    cmd fun d => { d with pub := answer }
    if ← read (goodKey t cfg) then pure true
    else
      cmd fun d => { d with pub := none }
      pure false

/-- `grep -qE "^portsnap\|[0-9]{10}\|[0-9a-f]{64}"` -/
def isTagLine (l : Text) : Bool :=
  "portsnap|".toList.isPrefixOf l && (l.drop 19).head? == some '|' &&
    (let date := (l.drop 9).take 10; date.length == 10 && date.all Char.isDigit) &&
    isHash ((l.drop 20).take 64)

def isTag (x : Bytes) : Bool := x.count '\n' == 1 && (lines x).any isTagLine

/-- A value as `[` and `expr` need it for a comparison of numbers. -/
def number (x : Text) : Option Nat :=
  if x != [] && x.all Char.isDigit then
    some (x.foldl (fun n c => n * 10 + (c.toNat - '0'.toNat)) 0)
  else none

/-- `${SNAPSHOTDATE}`, which is not quoted: more words than one are no number. -/
def snapshotDate (tag : Bytes) : Option Nat :=
  match Awk.words (Shell.captured ((lines tag).map (cut 2))) with
  | [date] => number date
  | _ => none

/-- The words of `${SNAPSHOTHASH}`, which is not quoted either. -/
def snapshotHash (tag : Bytes) : List Text :=
  Awk.words (Shell.captured ((lines tag).map (cut 3)))

def fetchTag (which : Which) (answer : Option Bytes) : Script Dir Bool := do
  cmd fun d => { d with ssl := Function.update d.ssl .snapshot none, tagNew := none }
  cmd fun d => { d with ssl := Function.update d.ssl which (answer.or (d.ssl which)) }
  match ← read fun d => d.ssl which with
  | none => pure false
  | some signature =>
    cmd fun d => { d with tagNew := some (t.verify (d.pub.getD []) signature) }
    cmd fun d => { d with ssl := Function.update d.ssl which none }
    read fun d => d.tagNew.any isTag

def snapshotTagSanity (now : Nat) (tag : Bytes) : Bool :=
  match snapshotDate tag with
  | some date => !(now > date + 31536000) && !(now + 86400 < date)
  | none => true

def updateTagSanity (now : Nat) (old new : Bytes) : Bool :=
  snapshotTagSanity now new && match snapshotDate old, snapshotDate new with
    | some oldDate, some date => !(oldDate > date)
    | _, _ => true

/-- `[ ${a} = ${b} ]`, which fails when the values are not single words. -/
def sameWord : List Text → List Text → Bool
  | [a], [b] => a == b
  | _, _ => false

def updateNeeded (old new : Bytes) : Bool :=
  !((snapshotDate old).isSome && snapshotDate old == snapshotDate new) &&
    !sameWord (snapshotHash old) (snapshotHash new)

/-- Of several words only the first one is an address, so that `fetch` fails. -/
def fetchMetadata (srv : Server) (hash : List Text) : Script Dir Bool := do
  cmd fun d => { rmNames hash d with tINDEXnew := none }
  match hash with
  | [h] =>
    match srv.metadata h with
    | none => pure false
    | some x =>
      if t.sha256 x = h then
        cmd fun d => { d with tINDEXnew := some x }
        pure true
      else pure false
  | _ => pure false

def metadataSanity (d : Dir) : Bool :=
  let x := d.tINDEXnew.getD []
  metadataLines x && (t.look "INDEX".toList x).length == 1

def indexHash (x : Bytes) : Text := Shell.captured ((t.look "INDEX".toList x).map (cut 2))

def dotSlash : Text → Bool
  | '.' :: '/' :: _ => true
  | _ :: rest => dotSlash rest
  | [] => false

def indexSanity (d : Dir) : Bool :=
  let i := d.INDEXnew.getD []
  indexLines i && !dotSlash i

/-- The lines of the two index files that `join` pairs, as hashes, and the hashes of the new
lines that find no partner, with the names and the programs for one kind of file. -/
structure Batch where
  pairs : List (Text × Text)
  single : List Text
  patchEnd : Text
  patches : Members
  patch : Bytes → Bytes → Option Bytes
  served : Members

def join (old new : Bytes) : List (Text × Text) × List Text :=
  let r := joinWalk (field 1) (lines old) (lines new)
  (r.1.map fun p => (field 2 p.1, field 2 p.2), r.2.map (cut 2))

/-- The order of `sort -k 1,1 -t '|'`. -/
def lineBefore (l m : Text) : Bool :=
  field 1 l < field 1 m || (field 1 l == field 1 m && decide (l < m))

def metadataPatch (diff old : Bytes) : Bytes :=
  let kept := (joinWalk (field 1) ((lines diff).map (·.drop 1)) (lines old)).2
  let added := ((lines diff).filter fun l => l.head? == some '+').map (·.drop 1)
  unlines (sortMerge lineBefore added kept)

def metadataBatch (srv : Server) (old new : Bytes) : Batch where
  pairs := (join old new).1
  single := (join old new).2
  patchEnd := ".gz".toList
  patches := srv.metadataPatches
  patch := fun old p => some (metadataPatch (t.gunzip p) old)
  served := srv.metadataFiles

def portsBatch (srv : Server) (old new : Bytes) : Batch where
  pairs := (join old new).1
  single := (join old new).2
  patchEnd := []
  patches := srv.portsPatches
  patch := t.bspatch
  served := srv.portsFiles

variable (b : Batch)

/-- `${X}-${Y}.gz` for the metadata, `${X}-${Y}` for the ports. -/
def Batch.patchFile (p : Text × Text) : Text := p.1 ++ '-' :: (p.2 ++ b.patchEnd)

def downloadAll (names : List Text) (server : Members) : Script Dir Unit :=
  forLines names fun name => cmd (download name (server name))

def makePatchlist (d : Dir) : List (Text × Text) :=
  b.pairs.filter fun p => !(isHash p.1 && p.1 == p.2) && (d.stored (gz p.2)).isNone &&
    (d.stored (gz p.1)).isSome

def applyPatch (p : Text × Text) : Script Dir Unit := do
  match ← read fun d => d.fetched (b.patchFile p) with
  | none => pure ()
  | some patch =>
    match ← read fun d => b.patch (unpacked t (d.stored (gz p.1))) patch with
    | none => cmd (rmFetched (b.patchFile p))
    | some new =>
      if t.sha256 new = p.2 then
        cmd (putFile p.2 new)
        cmd (gzipFile t p.2)
        cmd (rmFetched (b.patchFile p))
      else cmd (rmFetched (b.patchFile p))

def makeFilelist (patchlist : List (Text × Text)) (d : Dir) : List Text :=
  (b.single ++ patchlist.map Prod.snd).filter fun y => (d.stored (gz y)).isNone

def moveFetched (y : Text) (d : Dir) : Dir :=
  match d.fetched (gz y) with
  | none => d
  | some x => rmFetched (gz y) (putFile (gz y) x d)

def verifyFile (y : Text) : Script Dir Bool := do
  if ← read fun d => t.sha256 (unpacked t (d.fetched (gz y))) == y then
    cmd (moveFetched y)
    pure true
  else pure false

/-- Patches first, then whole files for what is still missing. -/
def bring : Script Dir Bool := do
  let patchlist ← read (makePatchlist b)
  downloadAll (patchlist.map b.patchFile) b.patches
  forLines patchlist (applyPatch t b)
  let filelist ← read (makeFilelist b patchlist)
  downloadAll (filelist.map gz) b.served
  allLines filelist (verifyFile t)

def extractIndex (d : Dir) : Dir :=
  let name := gz (indexHash t (d.tINDEXnew.getD []))
  { d with INDEXnew := some (gunzipName t d.stored name) }

/-- The old index for the ports that are refused, the new one for the others. -/
def hybrid (cfg : Config) (d : Dir) : Dir :=
  match cfg.refuse with
  | none => d
  | some refuse =>
    let old := (lines (d.INDEX.getD [])).filter refuse
    let new := (lines (d.INDEXnew.getD [])).filter fun l => !refuse l
    { d with INDEXnew := some (unlines (sortMerge lineBefore old new)) }

def bringMetadata (srv : Server) : Script Dir Bool := do
  bring t (← read fun d => metadataBatch t srv (d.tINDEX.getD []) (d.tINDEXnew.getD []))

def bringPorts (srv : Server) : Script Dir Bool := do
  bring t (← read fun d => portsBatch t srv (d.INDEX.getD []) (d.INDEXnew.getD []))

/-- From the metadata to the last file that is to be fetched. -/
def prepare (cfg : Config) (srv : Server) (hash : List Text) : Script Dir Bool :=
  orFail (fetchMetadata t srv hash) <|
  orFail (read (metadataSanity t)) <|
  orFail (bringMetadata t srv) <| do
    cmd (extractIndex t)
    orFail (read indexSanity) <| do
      cmd (hybrid cfg)
      bringPorts t srv

/-- The hashes in the lines that only the old index files have. -/
def unneeded (d : Dir) : List Text :=
  comm13 (sort (hashes (d.tINDEXnew.getD []) ++ hashes (d.INDEXnew.getD []))) (sort d.named)

def removeUnneeded : Script Dir Unit := do
  forLines (← read unneeded) fun h => cmd (rmFile (gz h))

def rename : Script Dir Unit := do
  cmd fun d => { d with INDEX := d.INDEXnew, INDEXnew := none }
  cmd fun d => { d with tINDEX := d.tINDEXnew, tINDEXnew := none }
  cmd fun d => { d with tag := d.tagNew, tagNew := none }

def fetchUpdate (cfg : Config) (srv : Server) : Script Dir Bool := do
  cmd fun d => { d with INDEXnew := none }
  let old ← read fun d => d.tag.getD []
  orFail (anyLine (srv.ssls .latest) (fetchTag t .latest)) <| do
    let new ← read fun d => d.tagNew.getD []
    if ¬ updateTagSanity srv.now old new then pure false
    else if ¬ updateNeeded old new then
      cmd fun d => { d with tagNew := none }
      pure true
    else
      orFail (prepare t cfg srv (snapshotHash new)) <| do
        removeUnneeded
        rename
        pure true

def Dir.unpackedSnap (d : Dir) (name : Text) : Option Bytes := d.snap.bind (· name)

def snapshotVerify (names : List Text) (d : Dir) : Bool :=
  names.all fun f => t.sha256 (gunzipName t d.unpackedSnap f) == f

def extractSnapshotIndex (d : Dir) : Dir :=
  let name := gz (indexHash t (d.tINDEXnew.getD []))
  { d with INDEXnew := some (gunzipName t d.unpackedSnap name) }

def installSnapshot : Script Dir Unit := do
  cmd fun d => { d with tag := none, INDEX := none, tINDEX := none }
  cmd fun d => { d with files := none }
  cmd fun d => { d with tag := d.tagNew, tagNew := none }
  cmd fun d => { d with tINDEX := d.tINDEXnew, tINDEXnew := none }
  cmd fun d => { d with INDEX := d.INDEXnew, INDEXnew := none }
  cmd fun d => { d with files := d.snap, snap := none }

def fetchSnapshot (srv : Server) : Script Dir Bool :=
  orFail (anyLine (srv.ssls .snapshot) (fetchTag t .snapshot)) <| do
    let new ← read fun d => d.tagNew.getD []
    if ¬ snapshotTagSanity srv.now new then pure false
    else
      orFail (fetchMetadata t srv (snapshotHash new)) <|
      orFail (read (metadataSanity t)) <| do
        cmd fun d => { d with snap := none }
        match srv.tarball (Shell.unwords (snapshotHash new)) with
        | none => pure false
        | some members =>
          cmd fun d => { d with snap := some members }
          orFail (read fun d => snapshotVerify t (hashes (d.tINDEXnew.getD [])) d) <| do
            cmd fun d => { d with INDEXnew := none }
            cmd (extractSnapshotIndex t)
            orFail (read indexSanity) <|
            orFail (read fun d => snapshotVerify t (hashes (d.INDEXnew.getD [])) d) <| do
              installSnapshot
              pure true

def hasSnapshot (d : Dir) : Bool :=
  d.files.isSome && d.tag.isSome && d.INDEX.isSome && d.tINDEX.isSome

def fetchRun (cfg : Config) (srv : Server) : Script Dir Bool :=
  orFail (anyLine srv.pubs (fetchKey t cfg)) <| do
    if ← read hasSnapshot then fetchUpdate t cfg srv
    else orFail (fetchSnapshot t srv) (fetchUpdate t cfg srv)

/-- The directory, and what the last run returned unless it was interrupted. -/
structure Site where
  dir : Dir
  returned : Option Bool

end DeltaPorts.Portsnap

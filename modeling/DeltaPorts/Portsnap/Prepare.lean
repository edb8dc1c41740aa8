import DeltaPorts.Portsnap.Downloads

/-!
# What an update has in the store before it removes anything
-/

set_option autoImplicit false

namespace DeltaPorts.Portsnap

open LineTools Script

variable {t : Tools} {cfg : Config} {srv : Server} {s m p u : Dir} {old new x i : Bytes}
variable {h : Text}

section Join

variable {isPathChar : Char → Bool} (hold : (lines old).all (isLine isPathChar) = true)
variable (hnew : (lines new).all (isLine isPathChar) = true)

include hold hnew

theorem mem_join_pairs {q : Text × Text} (hq : q ∈ (join old new).1) :
    q.1 ∈ hashes old ∧ q.2 ∈ hashes new := by
  obtain ⟨r, hr, rfl⟩ := List.mem_map.mp hq
  obtain ⟨hfst, hsnd⟩ := (joinWalk_subset (field 1)).2 r hr
  simp only [field_eq_cut (List.all_eq_true.mp hold _ hfst),
    field_eq_cut (List.all_eq_true.mp hnew _ hsnd)]
  exact ⟨List.mem_map_of_mem hfst, List.mem_map_of_mem hsnd⟩

/-- Every new hash is paired or alone. -/
theorem single_or_pair (hh : h ∈ hashes new) :
    h ∈ (join old new).2 ∨ ∃ x ∈ hashes old, (x, h) ∈ (join old new).1 := by
  obtain ⟨l, hl, rfl⟩ := List.mem_map.mp hh
  rcases @mem_joinWalk _ _ _ (field 1) (lines old) _ _ hl with hsingle | ⟨k, hk, hpair⟩
  · exact Or.inl (List.mem_map_of_mem hsingle)
  · refine Or.inr ⟨cut 2 k, List.mem_map_of_mem hk, ?_⟩
    rw [← field_eq_cut (List.all_eq_true.mp hold _ hk), ← field_eq_cut (List.all_eq_true.mp hnew _ hl)]
    exact List.mem_map_of_mem (f := fun q : Text × Text => (field 2 q.1, field 2 q.2)) hpair

theorem isHash_join : (∀ q ∈ (join old new).1, isHash q.1 = true ∧ isHash q.2 = true) ∧
    ∀ h ∈ (join old new).2, isHash h = true := by
  constructor
  · intro q hq
    obtain ⟨hfst, hsnd⟩ := mem_join_pairs hold hnew hq
    exact ⟨isHash_of_mem_hashes hold hfst, isHash_of_mem_hashes hnew hsnd⟩
  · intro h hh
    obtain ⟨l, hl, rfl⟩ := List.mem_map.mp hh
    exact isHash_cut (List.all_eq_true.mp hnew l ((joinWalk_subset (field 1)).1 hl))

end Join

theorem wf_metadataBatch (hold : metadataLines old = true) (hnew : metadataLines new = true) :
    (metadataBatch t srv old new).WF :=
  ⟨(isHash_join hold hnew).1, (isHash_join hold hnew).2⟩

theorem wf_portsBatch (hold : indexLines old = true) (hnew : indexLines new = true) :
    (portsBatch t srv old new).WF :=
  ⟨(isHash_join hold hnew).1, (isHash_join hold hnew).2⟩

/-- One of the words is the name of a file without which there is no snapshot. -/
def NamesLists (hash : List Text) : Prop :=
  "tag".toList ∈ hash ∨ "tINDEX".toList ∈ hash ∨ "INDEX".toList ∈ hash

theorem contains_lists_iff (hash : List Text) :
    ["tag".toList, "tINDEX".toList, "INDEX".toList].any hash.contains = true ↔ NamesLists hash := by
  simp only [List.any_cons, List.any_nil, Bool.or_false, Bool.or_eq_true, List.contains_iff_mem,
    NamesLists]

instance (hash : List Text) : Decidable (NamesLists hash) :=
  decidable_of_iff _ (contains_lists_iff hash)

theorem rmNames_store {hash : List Text} (h : ¬ NamesLists hash) (d : Dir) :
    (rmNames hash d).toStore = d.toStore := by
  simp only [NamesLists, not_or] at h
  simp only [rmNames, List.contains_iff_mem, h, if_false]

theorem hasSnapshot_rmNames {hash : List Text} (h : NamesLists hash) (d : Dir) :
    hasSnapshot (rmNames hash d) = false := by
  unfold hasSnapshot rmNames
  simp only [List.contains_iff_mem]
  rcases h with h | h | h
  · simp only [h, if_true, Option.isSome_none, Bool.and_false, Bool.false_and]
  · simp only [h, if_true, Option.isSome_none, Bool.and_false]
  · simp only [h, if_true, Option.isSome_none, Bool.and_false, Bool.false_and]

/-- What a checksum names is none of the files of the directory. -/
theorem rmNames_hex {w : Text} (hw : w.all isHexDigit = true) (d : Dir) : rmNames [w] d =
    { d with fetched := fun name => if [w].contains name then none else d.fetched name } := by
  have hname (name : String) (hnot : name.toList.all isHexDigit = false) : name.toList ∉ [w] := by
    intro hmem
    rw [List.mem_singleton.mp hmem, hw] at hnot
    cases hnot
  have hfile (which : Which) : which.file.toList ∉ [w] := by
    cases which
    · exact hname "snapshot.ssl" (by decide)
    · exact hname "latest.ssl" (by decide)
  simp only [rmNames, List.contains_iff_mem, hname "tag" (by decide), hname "tINDEX" (by decide),
    hname "INDEX" (by decide), hname "pub.ssl" (by decide), hfile, hname "tag.new" (by decide),
    hname "tINDEX.new" (by decide), hname "INDEX.new" (by decide), if_false]

/-- `SameStore`, and the key, the tag that has been fetched and the signatures are as they were. -/
structure SameTag (s u : Dir) : Prop extends SameStore s u where
  pub : u.pub = s.pub
  ssl : u.ssl = s.ssl
  tagNew : u.tagNew = s.tagNew

/-- The store is as it was, or the lists that the words name are gone. -/
def Left (hash : List Text) (s u : Dir) : Prop :=
  u.toStore = s.toStore ∨ NamesLists hash ∧ hasSnapshot u = false

theorem left_rmNames (hash : List Text) (s : Dir) (x : Option Bytes) :
    Left hash s { rmNames hash s with tINDEXnew := x } := by
  by_cases h : NamesLists hash
  · exact Or.inr ⟨h, hasSnapshot_rmNames h s⟩
  · exact Or.inl (rmNames_store h s)

theorem fetchMetadata_spec (hash : List Text) :
    Holds (· = s) (fetchMetadata t srv hash) (Left hash s)
    fun ok u => if ok then ∃ x s', hash = [t.sha256 x] ∧ srv.metadata (t.sha256 x) = some x ∧
      SameTag s s' ∧ u = { s' with tINDEXnew := some x } else Left hash s u := by
  have hleft (x : Option Bytes) := left_rmNames hash s x
  unfold fetchMetadata
  refine Holds.bindCmd (hleft none) ?_
  split
  · rename_i h
    cases hx : srv.metadata h with
    | none => exact Holds.pureAt (hleft none)
    | some x =>
      refine Holds.ite (fun hsum => ?_) fun _ => Holds.pureAt (hleft none)
      refine Holds.bindCmd (hleft (some x)) (Holds.pureAt ?_)
      subst hsum
      refine ⟨x, { s with fetched := (rmNames [t.sha256 x] s).fetched }, rfl, hx, ⟨⟨rfl, ?_⟩, rfl,
        rfl, rfl⟩, ?_⟩
      · intro n hn
        refine if_neg fun hmem => ?_
        rw [List.mem_singleton.mp (List.contains_iff_mem.mp hmem), t.sha256_hex] at hn
        cases hn
      · rw [rmNames_hex (t.sha256_hex x)]
  · exact Holds.pureAt (hleft none)

/-- The index that is extracted, before lines of the old one may replace some of its lines. -/
def extracted (t : Tools) (m : Dir) (x : Bytes) : Bytes := gunzipName t m.stored (gz (indexHash t x))

/-- `x` and `i` are the new `tINDEX` and `INDEX`, `m` is the directory when the metadata files
are there, `p` the one when the ports files are there. -/
structure Prepared (t : Tools) (cfg : Config) (srv : Server) (x i : Bytes) (s m p : Dir) : Prop where
  metadata : Brought t (metadataBatch t srv (s.tINDEX.getD []) x) { s with tINDEXnew := some x } m
  ports : Brought t (portsBatch t srv (s.INDEX.getD []) i) { m with INDEXnew := some i } p
  metadataLines : metadataLines x = true
  indexLines : indexLines i = true
  look : (t.look "INDEX".toList x).length = 1
  served : srv.metadata (t.sha256 x) = some x
  extracted : cfg.refuse = none → i = extracted t m x

theorem Prepared.metadata_grows (hp : Prepared t cfg srv x i s m p) : Grows t s m := by
  have hs : Grows t s { s with tINDEXnew := some x } := Grows.of_eq rfl
  exact hs.trans hp.metadata.toGrows

theorem Prepared.ports_grows (hp : Prepared t cfg srv x i s m p) : Grows t m p := by
  have hm : Grows t m { m with INDEXnew := some i } := Grows.of_eq rfl
  exact hm.trans hp.ports.toGrows

theorem Prepared.grows (hp : Prepared t cfg srv x i s m p) : Grows t s p :=
  hp.metadata_grows.trans hp.ports_grows

theorem Prepared.tagNew (hp : Prepared t cfg srv x i s m p) : p.tagNew = s.tagNew :=
  hp.ports.tagNew.trans hp.metadata.tagNew

theorem Prepared.tINDEXnew (hp : Prepared t cfg srv x i s m p) : p.tINDEXnew = some x :=
  hp.ports.tINDEXnew.trans hp.metadata.tINDEXnew

theorem Prepared.INDEXnew (hp : Prepared t cfg srv x i s m p) : p.INDEXnew = some i :=
  hp.ports.INDEXnew

theorem newline_not_mem_of_mem_filter {l : Text} {f : Text → Bool} (hl : l ∈ (lines x).filter f) :
    '\n' ∉ l := newline_not_mem_lines (List.mem_of_mem_filter hl)

/-- The lines of the hybrid index are lines of the old index and of the new one. -/
theorem indexLines_hybrid (refuse : Text → Bool) (hold : indexLines old = true)
    (hnew : indexLines new = true) :
    indexLines (unlines (sortMerge lineBefore ((lines old).filter refuse)
      ((lines new).filter fun l => !refuse l))) = true := by
  unfold indexLines
  rw [lines_unlines]
  · apply List.all_eq_true.mpr
    intro l hl
    rcases (mem_sortMerge lineBefore).mp hl with hl | hl
    · exact List.all_eq_true.mp hold l (List.mem_of_mem_filter hl)
    · exact List.all_eq_true.mp hnew l (List.mem_of_mem_filter hl)
  · intro l hl
    rcases (mem_sortMerge lineBefore).mp hl with hl | hl
    · exact newline_not_mem_of_mem_filter hl
    · exact newline_not_mem_of_mem_filter hl

theorem hybrid_spec (cfg : Config) (hINDEX : ∃ i, s.INDEX = some i ∧ indexLines i = true)
    (hnew : s.INDEXnew = some new) (hlines : indexLines new = true) :
    ∃ i, hybrid cfg s = { s with INDEXnew := some i } ∧ indexLines i = true ∧
      (cfg.refuse = none → i = new) := by
  unfold hybrid
  cases hrefuse : cfg.refuse with
  | none =>
    refine ⟨new, ?_, hlines, fun _ => rfl⟩
    rw [← hnew]
  | some refuse =>
    obtain ⟨i, hi, hilines⟩ := hINDEX
    refine ⟨_, rfl, ?_, fun h => by cases h⟩
    rw [hi, hnew]
    exact indexLines_hybrid refuse hilines hlines

/-- The store has grown, or the lists that the words name are gone. -/
def Held (t : Tools) (hash : List Text) (s u : Dir) : Prop :=
  Grows t s u ∨ NamesLists hash ∧ hasSnapshot u = false

theorem Left.held {hash : List Text} (h : Left hash s u) : Held t hash s u := h.imp_left Grows.of_eq

theorem prepare_spec (hs : s.Ready) (hash : List Text) :
    Holds (· = s) (prepare t cfg srv hash) (Held t hash s)
      fun ok u => if ok then ∃ x i s' m, hash = [t.sha256 x] ∧ SameTag s s' ∧
          Prepared t cfg srv x i s' m u ∧
          hybrid cfg (extractIndex t m) = { m with INDEXnew := some i }
        else Held t hash s u := by
  unfold prepare
  refine Holds.orFail (J := fun u => ∃ x s', hash = [t.sha256 x] ∧
    srv.metadata (t.sha256 x) = some x ∧ SameTag s s' ∧ u = { s' with tINDEXnew := some x }) ?_
    (Holds.from ?_)
  · refine (fetchMetadata_spec hash).weaken (fun _ h => h) (fun _ h => h.held) fun ok u hu => ?_
    cases ok with
    | false => exact Left.held hu
    | true => exact hu
  rintro s1 ⟨x, s', hhash, hserved, hsame, rfl⟩
  have hs' : s'.Ready := hsame.store ▸ hs
  obtain ⟨oldx, holdx, holdxLines⟩ := hs'.tINDEX
  obtain ⟨oldi, holdi, holdiLines⟩ := hs'.INDEX
  have hfiles : s'.files.isSome = true := Option.isSome_iff_ne_none.mpr hs'.files
  have hheld : ∀ u, Grows t s' u → Held t hash s u := fun u hu => Or.inl (hsame.grows.trans hu)
  refine Holds.orFailRead (hheld _ (Grows.of_eq rfl)) fun hsane => ?_
  simp only [metadataSanity, Bool.and_eq_true, beq_iff_eq] at hsane
  obtain ⟨hxlines, hlook⟩ := hsane
  rw [Option.getD_some] at hxlines hlook
  have hgrows1 : Grows t s' { s' with tINDEXnew := some x } := Grows.of_eq rfl
  have hmetadata := bring_spec (t := t) (b := metadataBatch t srv (s'.tINDEX.getD []) x)
    (s := { s' with tINDEXnew := some x })
    (wf_metadataBatch (by rw [holdx]; exact holdxLines) hxlines) hfiles
  refine Holds.orFail (J := Brought t (metadataBatch t srv (s'.tINDEX.getD []) x)
    { s' with tINDEXnew := some x }) (Holds.bindRead ?_) (Holds.from fun m hm => ?_)
  · refine hmetadata.weaken (fun _ h => h) (fun u hu => hheld u (hgrows1.trans hu.toGrows))
      fun ok u hu => ?_
    cases ok with
    | false => exact hheld u (hgrows1.trans hu.toGrows)
    | true => exact hu
  · have hgrows : Grows t s' m := hgrows1.trans hm.toGrows
    have hextract : m.tINDEXnew = some x := hm.tINDEXnew
    apply Holds.bindCmd (hheld _ (hgrows.trans (Grows.of_eq rfl)))
    refine Holds.orFailRead (hheld _ (hgrows.trans (Grows.of_eq rfl))) fun hsaneIndex => ?_
    have hlines : indexLines (extracted t m x) = true := by
      simp only [indexSanity, extractIndex, hextract, Bool.and_eq_true] at hsaneIndex
      exact hsaneIndex.1
    have hINDEX : ∃ i, (extractIndex t m).INDEX = some i ∧ indexLines i = true :=
      ⟨oldi, hgrows.INDEX.trans holdi, holdiLines⟩
    have hINDEXnew : (extractIndex t m).INDEXnew = some (extracted t m x) := by
      simp only [extractIndex, extracted, hextract, Option.getD_some]
    obtain ⟨i, hhybrid, hilines, hrefuse⟩ := hybrid_spec cfg hINDEX hINDEXnew hlines
    have hstore : hybrid cfg (extractIndex t m) = { m with INDEXnew := some i } := hhybrid
    have hgrows2 : Grows t s' { m with INDEXnew := some i } := hgrows.trans (Grows.of_eq rfl)
    apply Holds.bindCmd
    · rw [hstore]
      exact hheld _ hgrows2
    rw [hstore]
    apply Holds.bindRead
    have hbatch : portsBatch t srv (m.INDEX.getD []) i = portsBatch t srv (s'.INDEX.getD []) i := by
      rw [hgrows.INDEX]
    have hports := bring_spec (t := t) (b := portsBatch t srv (s'.INDEX.getD []) i)
      (s := { m with INDEXnew := some i })
      (wf_portsBatch (by rw [holdi]; exact holdiLines) hilines) (hgrows.files.trans hfiles)
    show Holds _ (bring t (portsBatch t srv (m.INDEX.getD []) i)) _ _
    rw [hbatch]
    refine hports.weaken (fun _ h => h) (fun u hu => hheld u (hgrows2.trans hu.toGrows))
      fun ok u hu => ?_
    cases ok with
    | false => exact hheld u (hgrows2.trans hu.toGrows)
    | true =>
      have hp : Prepared t cfg srv x i s' m u := ⟨hm, hu, hxlines, hilines, hlook, hserved, hrefuse⟩
      exact ⟨x, i, s', m, hhash, hsame, hp, hstore⟩

end DeltaPorts.Portsnap

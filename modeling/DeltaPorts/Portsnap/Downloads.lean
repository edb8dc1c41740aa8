import DeltaPorts.Portsnap.Fetch

/-!
# What a batch of patches and files brings into the store

A batch only adds files, and every compressed file it adds has the contents that its name
asks for. `Brought` says which files are there when the batch has ended well.
-/

set_option autoImplicit false

namespace DeltaPorts.Portsnap

open LineTools Script

variable {t : Tools} {b : Batch} {d s u v : Dir} {n m h x y : Text}

theorem stored_putFile (hfiles : d.files.isSome = true) (n m : Text) (c : Bytes) :
    (putFile n c d).stored m = if m = n then some c else d.stored m := by
  obtain ⟨f, hf⟩ := Option.isSome_iff_exists.mp hfiles
  simp only [Store.stored, putFile, hf, Option.map_some, Option.bind_some, Function.update_apply]

theorem stored_rmFile (n m : Text) (d : Dir) :
    (rmFile n d).stored m = if m = n then none else d.stored m := by
  cases hf : d.files with
  | none => simp [Store.stored, rmFile, hf]
  | some f =>
    simp only [Store.stored, rmFile, hf, Option.map_some, Option.bind_some, Function.update_apply]

@[simp] theorem fetched_rmFetched (n m : Text) (d : Dir) :
    (rmFetched n d).fetched m = if m = n then none else d.fetched m := by
  simp only [rmFetched, Function.update_apply]

@[simp] theorem stored_rmFetched (n m : Text) (d : Dir) :
    (rmFetched n d).stored m = d.stored m := rfl

theorem gz_ne_of_isHash (hy : isHash y = true) (hh : isHash h = true) : gz h ≠ y := by
  rintro rfl
  rw [isHash_gz h hh] at hy
  cases hy

/-- The store has what it had, under every name but the bare hashes, and the compressed files
that have come in have the right contents. -/
structure Grows (t : Tools) (s u : Dir) : Prop where
  tag : u.tag = s.tag
  tINDEX : u.tINDEX = s.tINDEX
  INDEX : u.INDEX = s.INDEX
  files : u.files.isSome = s.files.isSome
  kept : ∀ n c, isHash n = false → s.stored n = some c → u.stored n = some c
  sound : ∀ h c, isHash h = true → u.stored (gz h) = some c →
    s.stored (gz h) = some c ∨ t.sha256 (t.gunzip c) = h

theorem Grows.of_eq (hstore : u.toStore = s.toStore) : Grows t s u where
  tag := by rw [hstore]
  tINDEX := by rw [hstore]
  INDEX := by rw [hstore]
  files := by rw [hstore]
  kept := by
    intro n c _ hn
    rw [hstore]
    exact hn
  sound := by
    intro h c _ hh
    rw [hstore] at hh
    exact Or.inl hh

theorem Grows.refl (s : Dir) : Grows t s s := Grows.of_eq rfl

theorem Grows.trans (hsu : Grows t s u) (huv : Grows t u v) : Grows t s v where
  tag := huv.tag.trans hsu.tag
  tINDEX := huv.tINDEX.trans hsu.tINDEX
  INDEX := huv.INDEX.trans hsu.INDEX
  files := huv.files.trans hsu.files
  kept := fun n c hn hc => huv.kept n c hn (hsu.kept n c hn hc)
  sound := by
    intro h c hh hc
    rcases huv.sound h c hh hc with hc | hc
    · exact hsu.sound h c hh hc
    · exact Or.inr hc

theorem Grows.stored_gz (hg : Grows t s u) (hh : isHash h = true) (hs : s.stored (gz h) ≠ none) :
    u.stored (gz h) = s.stored (gz h) := by
  obtain ⟨c, hc⟩ := Option.ne_none_iff_exists'.mp hs
  rw [hc, hg.kept _ c (isHash_gz h hh) hc]

theorem Grows.named (hg : Grows t s u) : u.named = s.named := by
  rw [Store.named, Store.named, hg.tINDEX, hg.INDEX]

theorem ready_of_grows (hs : s.Ready) (hg : Grows t s u) : u.Ready where
  tag := by rw [hg.tag]; exact hs.tag
  tINDEX := by rw [hg.tINDEX]; exact hs.tINDEX
  INDEX := by rw [hg.INDEX]; exact hs.INDEX
  files := Option.isSome_iff_ne_none.mp (hg.files.trans (Option.isSome_iff_ne_none.mpr hs.files))

/-- The store and the downloads are as they were, but for a file named by a checksum. -/
structure SameStore (s u : Dir) : Prop where
  store : u.toStore = s.toStore
  fetched : ∀ n, n.all isHexDigit = false → u.fetched n = s.fetched n

theorem SameStore.refl (s : Dir) : SameStore s s := ⟨rfl, fun _ _ => rfl⟩

theorem SameStore.of_eq (hstore : u.toStore = s.toStore) (hfetched : u.fetched = s.fetched) :
    SameStore s u := ⟨hstore, fun _ _ => congrFun hfetched _⟩

theorem SameStore.trans (hsu : SameStore s u) (huv : SameStore u v) : SameStore s v :=
  ⟨huv.store.trans hsu.store, fun n hn => (huv.fetched n hn).trans (hsu.fetched n hn)⟩

theorem SameStore.grows (hsu : SameStore s u) : Grows t s u := Grows.of_eq hsu.store

/-- `Grows`, and the new files of the update are as they were. -/
structure Adds (t : Tools) (s u : Dir) : Prop extends Grows t s u where
  tagNew : u.tagNew = s.tagNew
  tINDEXnew : u.tINDEXnew = s.tINDEXnew
  INDEXnew : u.INDEXnew = s.INDEXnew

theorem Adds.refl (s : Dir) : Adds t s s := ⟨Grows.refl s, rfl, rfl, rfl⟩

theorem Adds.trans (hsu : Adds t s u) (huv : Adds t u v) : Adds t s v where
  toGrows := hsu.toGrows.trans huv.toGrows
  tagNew := huv.tagNew.trans hsu.tagNew
  tINDEXnew := huv.tINDEXnew.trans hsu.tINDEXnew
  INDEXnew := huv.INDEXnew.trans hsu.INDEXnew

theorem adds_fetched (f : Members) : Adds t s { s with fetched := f } :=
  ⟨Grows.of_eq rfl, rfl, rfl, rfl⟩

theorem adds_putFile (hfiles : s.files.isSome = true) (hn : isHash n = true) (c : Bytes) :
    Adds t s (putFile n c s) where
  tag := rfl
  tINDEX := rfl
  INDEX := rfl
  files := by simp [putFile]
  kept := by
    intro m e hm he
    rw [stored_putFile hfiles, if_neg, he]
    rintro rfl
    rw [hn] at hm
    cases hm
  sound := by
    intro h e hh he
    rw [stored_putFile hfiles, if_neg (gz_ne_of_isHash hn hh)] at he
    exact Or.inl he
  tagNew := rfl
  tINDEXnew := rfl
  INDEXnew := rfl

/-- A compressed file that was not there comes in with the right contents. -/
theorem adds_putFile_gz (hfiles : s.files.isSome = true)
    (hnone : s.stored (gz h) = none) {c : Bytes} (hc : t.sha256 (t.gunzip c) = h) :
    Adds t s (putFile (gz h) c s) where
  tag := rfl
  tINDEX := rfl
  INDEX := rfl
  files := by simp [putFile]
  kept := by
    intro m e hm he
    rw [stored_putFile hfiles, if_neg, he]
    rintro rfl
    rw [hnone] at he
    cases he
  sound := by
    intro k e hk he
    rw [stored_putFile hfiles] at he
    by_cases hkh : gz k = gz h
    · rw [if_pos hkh] at he
      cases he
      right
      rw [gz_injective hkh, hc]
    · rw [if_neg hkh] at he
      exact Or.inl he
  tagNew := rfl
  tINDEXnew := rfl
  INDEXnew := rfl

theorem adds_rmFile (hn : isHash n = true) : Adds t s (rmFile n s) where
  tag := rfl
  tINDEX := rfl
  INDEX := rfl
  files := by simp [rmFile]
  kept := by
    intro m e hm he
    rw [stored_rmFile, if_neg, he]
    rintro rfl
    rw [hn] at hm
    cases hm
  sound := by
    intro h e hh he
    rw [stored_rmFile, if_neg (gz_ne_of_isHash hn hh)] at he
    exact Or.inl he
  tagNew := rfl
  tINDEXnew := rfl
  INDEXnew := rfl

/-- After `gzip`, the compressed file is there, the new one or one that was there before. -/
theorem gzipFile_spec (hfiles : s.files.isSome = true) (hy : isHash y = true) {c : Bytes}
    (hstored : s.stored y = some c) (hc : t.sha256 c = y) :
    Adds t s (gzipFile t y s) ∧ (gzipFile t y s).fetched = s.fetched ∧
      ∀ h, isHash h = true →
        ((gzipFile t y s).stored (gz h) ≠ none ↔ s.stored (gz h) ≠ none ∨ h = y) := by
  unfold gzipFile
  cases hgz : s.stored (gz y) with
  | some e =>
    rw [hstored]
    refine ⟨Adds.refl s, rfl, ?_⟩
    intro h hh
    refine ⟨Or.inl, ?_⟩
    rintro (hne | rfl)
    · exact hne
    · simp [hgz]
  | none =>
    rw [hstored]
    have hput : Adds t s (putFile (gz y) (t.gzip c) s) := by
      apply adds_putFile_gz hfiles hgz
      rw [t.gunzip_gzip, hc]
    refine ⟨hput.trans (adds_rmFile hy), rfl, ?_⟩
    intro h hh
    rw [stored_rmFile, if_neg (gz_ne_of_isHash hy hh), stored_putFile hfiles]
    by_cases hhy : h = y
    · simp [hhy]
    · simp [hhy, gz_injective.ne hhy]

def downloaded (names : List Text) (server f : Members) : Members :=
  fun n => if n ∈ names then (server n).or (f n) else f n

def withDownloads (names : List Text) (server : Members) (d : Dir) : Dir :=
  { d with fetched := downloaded names server d.fetched }

theorem adds_withDownloads (names : List Text) (server : Members) (s : Dir) :
    Adds t s (withDownloads names server s) := adds_fetched _

theorem downloadAll_spec (names : List Text) (server : Members) (s : Dir) :
    Holds (· = s) (downloadAll names server) (Adds t s)
      fun _ u => u = withDownloads names server s := by
  have hloop := Holds.forLinesDone (C := Adds t s) names
    (fun name => cmd (download name (server name)))
    (J := fun done u => u = withDownloads done server s) [] ?_
  · refine hloop.weaken ?_ (fun _ h => h) fun _ _ h => h
    rintro u rfl
    rfl
  · intro done name _
    refine Holds.cmd ?_
    rintro u rfl
    refine ⟨adds_fetched _, ?_⟩
    unfold download withDownloads
    congr 1
    funext n
    by_cases hn : n = name
    · by_cases hdone : name ∈ done
      · cases hserver : server name <;> simp [downloaded, hn, hdone, hserver]
      · simp [downloaded, hn, hdone]
    · simp [downloaded, hn]

/-- The patches and files of a batch have hashes for names. -/
structure Batch.WF (b : Batch) : Prop where
  pairs : ∀ p ∈ b.pairs, isHash p.1 = true ∧ isHash p.2 = true
  single : ∀ h ∈ b.single, isHash h = true

theorem patchFile_injective {p q : Text × Text} (hp : isHash p.1 = true) (hq : isHash q.1 = true)
    (h : b.patchFile p = b.patchFile q) : p = q := by
  simp only [isHash, Bool.and_eq_true, beq_iff_eq] at hp hq
  obtain ⟨hfst, hrest⟩ := List.append_inj h (hp.1.trans hq.1.symm)
  have hsnd := List.append_cancel_right (List.cons.inj hrest).2
  exact Prod.ext hfst hsnd

theorem patchFile_ne_gz (p : Text × Text) (hh : isHash h = true) : gz h ≠ b.patchFile p := by
  intro heq
  apply dash_not_mem_gz hh
  rw [heq]
  simp [Batch.patchFile]

/-- The patch is there and gives the file that it is for. -/
def Patches (t : Tools) (b : Batch) (s : Dir) (p : Text × Text) : Prop :=
  ∃ patch new, s.fetched (b.patchFile p) = some patch ∧
    b.patch (unpacked t (s.stored (gz p.1))) patch = some new ∧ t.sha256 new = p.2

/-- What the patches in `done` have brought. -/
structure Patched (t : Tools) (b : Batch) (s : Dir) (done : List (Text × Text)) (u : Dir) : Prop
    extends Adds t s u where
  hashes : ∀ p ∈ done, isHash p.1 = true
  stored : ∀ h, isHash h = true → (u.stored (gz h) ≠ none ↔
    s.stored (gz h) ≠ none ∨ ∃ p ∈ done, p.2 = h ∧ Patches t b s p)
  fetched : ∀ n, u.fetched n = if n ∈ done.map b.patchFile then none else s.fetched n

theorem Patched.snoc {done : List (Text × Text)} {p : Text × Text} (hu : Patched t b s done u)
    (hv : Adds t u v) (hx : isHash p.1 = true)
    (hstored : ∀ h, isHash h = true →
      (v.stored (gz h) ≠ none ↔ u.stored (gz h) ≠ none ∨ p.2 = h ∧ Patches t b s p))
    (hfetched : ∀ n, v.fetched n = if n = b.patchFile p then none else u.fetched n) :
    Patched t b s (done ++ [p]) v where
  toAdds := hu.toAdds.trans hv
  hashes := by
    intro q hq
    rcases List.mem_append.mp hq with hq | hq
    · exact hu.hashes q hq
    · rw [List.mem_singleton.mp hq]
      exact hx
  stored := by
    intro h hh
    rw [hstored h hh, hu.stored h hh]
    simp only [List.mem_append, List.mem_singleton, or_and_right, exists_or, exists_eq_left,
      or_assoc]
  fetched := by
    intro n
    rw [hfetched n, hu.fetched n]
    by_cases hn : n = b.patchFile p
    · simp [hn]
    · simp only [hn, if_false, List.map_append, List.map_singleton, List.mem_append,
        List.mem_singleton, or_false]

/-- A patch that is not there or not good leaves the store as it was. -/
theorem Patched.skip {done : List (Text × Text)} {p : Text × Text} (hu : Patched t b s done u)
    (hstore : v.toStore = u.toStore) (hv : Adds t u v) (hx : isHash p.1 = true)
    (hfetched : ∀ n, v.fetched n = if n = b.patchFile p then none else u.fetched n)
    (hp : Patches t b s p → u.stored (gz p.2) ≠ none) : Patched t b s (done ++ [p]) v := by
  refine hu.snoc hv hx (fun h _ => ?_) hfetched
  rw [hstore]
  constructor
  · exact Or.inl
  · rintro (hstored | ⟨rfl, hpatch⟩)
    · exact hstored
    · exact hp hpatch

section ApplyPatch

variable {done : List (Text × Text)} {p : Text × Text}

/-- The patch was not fetched, or it is gone because an equal line has been worked off. -/
theorem Patched.missing (hu : Patched t b s done u) (hx : isHash p.1 = true)
    (hy : isHash p.2 = true) (hpatch : u.fetched (b.patchFile p) = none) :
    Patched t b s (done ++ [p]) u := by
  refine hu.skip rfl (Adds.refl u) hx ?_ ?_
  · intro n
    split
    · rename_i hn
      rw [hn, hpatch]
    · rfl
  · rintro ⟨patch, new, hfetched, hrest⟩
    rw [hu.fetched] at hpatch
    split at hpatch
    · rename_i hmem
      obtain ⟨q, hq, hqp⟩ := List.mem_map.mp hmem
      cases patchFile_injective (hu.hashes q hq) hx hqp
      exact (hu.stored _ hy).mpr (Or.inr ⟨p, hq, rfl, patch, new, hfetched, hrest⟩)
    · rw [hfetched] at hpatch
      cases hpatch

theorem Patched.fetched_of_some (hu : Patched t b s done u) {patch : Bytes}
    (hpatch : u.fetched n = some patch) : s.fetched n = some patch := by
  rw [hu.fetched] at hpatch
  split at hpatch
  · cases hpatch
  · exact hpatch

/-- The patch does not give the file that it is for. -/
theorem Patched.bad (hu : Patched t b s done u) (hx : isHash p.1 = true) {patch : Bytes}
    (hfetched : s.fetched (b.patchFile p) = some patch)
    (hbad : ∀ c, b.patch (unpacked t (s.stored (gz p.1))) patch = some c → t.sha256 c ≠ p.2) :
    Patched t b s (done ++ [p]) (rmFetched (b.patchFile p) u) := by
  refine hu.skip rfl (adds_fetched _) hx (fun n => fetched_rmFetched _ n u) ?_
  rintro ⟨patch', c, hpatch', hc, hsum⟩
  rw [hfetched] at hpatch'
  cases hpatch'
  exact absurd hsum (hbad c hc)

/-- The file that the patch gives is stored. -/
theorem Patched.good (hu : Patched t b s done u) (hx : isHash p.1 = true) (hy : isHash p.2 = true)
    (hfiles : u.files.isSome = true) (hpatches : Patches t b s p) {c : Bytes}
    (hsum : t.sha256 c = p.2) :
    Adds t u (putFile p.2 c u) ∧
      Adds t (putFile p.2 c u) (gzipFile t p.2 (putFile p.2 c u)) ∧
      Patched t b s (done ++ [p])
        (rmFetched (b.patchFile p) (gzipFile t p.2 (putFile p.2 c u))) := by
  have hput : Adds t u (putFile p.2 c u) := adds_putFile hfiles hy c
  have hputStored : (putFile p.2 c u).stored p.2 = some c := by
    rw [stored_putFile hfiles, if_pos rfl]
  obtain ⟨hzip, hzipFetched, hzipStored⟩ :=
    gzipFile_spec (hput.files.trans hfiles) hy hputStored hsum
  refine ⟨hput, hzip, hu.snoc ((hput.trans hzip).trans (adds_fetched _)) hx ?_ ?_⟩
  · intro h hh
    rw [stored_rmFetched, hzipStored h hh, stored_putFile hfiles, if_neg (gz_ne_of_isHash hy hh)]
    simp only [hpatches, and_true, eq_comm (a := h)]
  · intro n
    rw [fetched_rmFetched, hzipFetched]
    rfl

theorem applyPatch_spec (hx : isHash p.1 = true) (hy : isHash p.2 = true)
    (hfiles : s.files.isSome = true) (hold : s.stored (gz p.1) ≠ none) :
    Holds (Patched t b s done) (applyPatch t b p) (Adds t s)
      fun _ => Patched t b s (done ++ [p]) := by
  refine Holds.from fun u hu => ?_
  have hsource : u.stored (gz p.1) = s.stored (gz p.1) := hu.stored_gz hx hold
  unfold applyPatch
  apply Holds.bindRead
  cases hpatch : u.fetched (b.patchFile p) with
  | none => exact Holds.pureAt (hu.missing hx hy hpatch)
  | some patch =>
    have hfetched := hu.fetched_of_some hpatch
    apply Holds.bindRead
    cases hnew : b.patch (unpacked t (u.stored (gz p.1))) patch with
    | none =>
      rw [hsource] at hnew
      have hdone := hu.bad hx hfetched fun c hc => by
        rw [hnew] at hc
        cases hc
      exact Holds.cmdAt hdone.toAdds hdone
    | some c =>
      rw [hsource] at hnew
      refine Holds.ite (fun hsum => ?_) fun hsum => ?_
      · obtain ⟨hput, hzip, hdone⟩ := hu.good hx hy (hu.files.trans hfiles)
          ⟨patch, c, hfetched, hnew, hsum⟩ hsum
        apply Holds.bindCmd (hu.toAdds.trans hput)
        apply Holds.bindCmd ((hu.toAdds.trans hput).trans hzip)
        exact Holds.cmdAt hdone.toAdds hdone
      · have hdone := hu.bad hx hfetched fun e he => by
          rw [hnew] at he
          cases he
          exact hsum
        exact Holds.cmdAt hdone.toAdds hdone

end ApplyPatch

/-- What the loop over the files in `done` has moved into the store. -/
structure Verified (t : Tools) (s : Dir) (done : List Text) (u : Dir) : Prop
    extends Adds t s u where
  stored : ∀ h, isHash h = true → (u.stored (gz h) ≠ none ↔
    s.stored (gz h) ≠ none ∨ h ∈ done ∧ s.fetched (gz h) ≠ none)
  fetched : ∀ n, u.fetched n = if n ∈ done.map gz then none else s.fetched n
  present : ∀ h ∈ done, h ≠ t.sha256 [] → s.fetched (gz h) ≠ none

theorem mem_map_gz {done : List Text} : gz h ∈ done.map gz ↔ h ∈ done :=
  List.mem_map_of_injective gz_injective

theorem Verified.missing {done : List Text} (hu : Verified t s done u)
    (hnone : u.fetched (gz y) = none) (hsum : t.sha256 [] = y) : Verified t s (done ++ [y]) u where
  toAdds := hu.toAdds
  stored := by
    intro h hh
    rw [hu.stored h hh, List.mem_append, List.mem_singleton]
    constructor
    · rintro (hs | ⟨hdone, hf⟩)
      · exact Or.inl hs
      · exact Or.inr ⟨Or.inl hdone, hf⟩
    · rintro (hs | ⟨hdone | rfl, hf⟩)
      · exact Or.inl hs
      · exact Or.inr ⟨hdone, hf⟩
      · rw [hu.fetched] at hnone
        split at hnone
        · exact Or.inr ⟨mem_map_gz.mp ‹_›, hf⟩
        · exact absurd hnone hf
  fetched := by
    intro n
    rw [hu.fetched n, List.map_append, List.map_singleton]
    by_cases hn : n = gz y
    · rw [hn, ← hu.fetched, hnone]
      simp
    · simp [hn]
  present := by
    intro h hmem hne
    rcases List.mem_append.mp hmem with hmem | hmem
    · exact hu.present h hmem hne
    · rw [List.mem_singleton.mp hmem] at hne
      exact absurd hsum.symm hne

theorem Verified.moved {done : List Text} {c : Bytes} (hu : Verified t s done u)
    (hfiles : s.files.isSome = true) (hmissing : s.stored (gz y) = none)
    (hy : isHash y = true) (hsome : u.fetched (gz y) = some c) (hsum : t.sha256 (t.gunzip c) = y) :
    Verified t s (done ++ [y]) (rmFetched (gz y) (putFile (gz y) c u)) := by
  have huFiles := hu.files.trans hfiles
  have hfresh : gz y ∉ done.map gz ∧ s.fetched (gz y) = some c := by
    rw [hu.fetched] at hsome
    split at hsome
    · cases hsome
    · exact ⟨‹_›, hsome⟩
  have huNone : u.stored (gz y) = none := by
    by_contra hne
    rcases (hu.stored y hy).mp hne with hs | ⟨hdone, _⟩
    · exact hs hmissing
    · exact hfresh.1 (mem_map_gz.mpr hdone)
  have hput : Adds t u (putFile (gz y) c u) := adds_putFile_gz huFiles huNone hsum
  refine ⟨(hu.toAdds.trans hput).trans (adds_fetched _), ?_, ?_, ?_⟩
  · intro h hh
    rw [stored_rmFetched, stored_putFile huFiles]
    by_cases hhy : h = y
    · simp [hhy, hfresh.2]
    · rw [if_neg (gz_injective.ne hhy), hu.stored h hh]
      simp [hhy]
  · intro n
    rw [fetched_rmFetched, List.map_append, List.map_singleton]
    by_cases hn : n = gz y
    · simp [hn]
    · rw [if_neg hn]
      refine (hu.fetched n).trans ?_
      simp [hn]
  · intro h hmem hne
    rcases List.mem_append.mp hmem with hmem | hmem
    · exact hu.present h hmem hne
    · rw [List.mem_singleton.mp hmem, hfresh.2]
      exact Option.some_ne_none c

theorem verifyFile_spec {done : List Text} (hfiles : s.files.isSome = true)
    (hmissing : s.stored (gz y) = none) (hy : isHash y = true) :
    Holds (Verified t s done) (verifyFile t y) (Adds t s)
      fun ok u => if ok then Verified t s (done ++ [y]) u else Adds t s u := by
  refine Holds.from fun u hu => ?_
  unfold verifyFile
  apply Holds.bindRead
  refine Holds.ite (fun hsum => ?_) fun _ => Holds.pureAt hu.toAdds
  suffices hmoved : Verified t s (done ++ [y]) (moveFetched y u) from
    Holds.bindCmd hmoved.toAdds (Holds.pureAt hmoved)
  rw [beq_iff_eq] at hsum
  unfold moveFetched
  cases hfetched : u.fetched (gz y) with
  | none =>
    rw [hfetched] at hsum
    exact hu.missing hfetched hsum
  | some c =>
    rw [hfetched] at hsum
    exact hu.moved hfiles hmissing hy hfetched hsum

/-- The patch can be had, and it gives the file that it is for. -/
def Batch.GoodPatch (t : Tools) (b : Batch) (s : Dir) (p : Text × Text) : Prop :=
  ∃ old patch new, s.stored (gz p.1) = some old ∧
    (b.patches (b.patchFile p)).or (s.fetched (b.patchFile p)) = some patch ∧
    b.patch (t.gunzip old) patch = some new ∧ t.sha256 new = p.2

/-- A line asks for the file, unless the lists of patches and of files both leave it out. -/
def Batch.Asked (b : Batch) (s : Dir) (h : Text) : Prop :=
  h ∈ b.single ∨ ∃ x, (x, h) ∈ b.pairs ∧ s.stored (gz x) ≠ none

/-- The file is in the store before the batch or comes in with it. -/
def Batch.Arrives (t : Tools) (b : Batch) (s : Dir) (h : Text) : Prop :=
  s.stored (gz h) ≠ none ∨ (∃ x, (x, h) ∈ b.pairs ∧ b.GoodPatch t s (x, h)) ∨
    (b.Asked s h ∧ (b.served (gz h)).or (s.fetched (gz h)) ≠ none)

theorem gz_not_hex (h : Text) : (gz h).all isHexDigit = false := by
  have hdot : isHexDigit '.' = false := by decide
  simp [gz, hdot]

theorem patchFile_not_hex (p : Text × Text) : (b.patchFile p).all isHexDigit = false := by
  have hdash : isHexDigit '-' = false := by decide
  simp [Batch.patchFile, hdash]

theorem SameStore.stored_eq (hsu : SameStore s u) (n : Text) : u.stored n = s.stored n := by
  rw [hsu.store]

theorem SameStore.asked_iff (hsu : SameStore s u) : b.Asked u h ↔ b.Asked s h := by
  simp only [Batch.Asked, hsu.stored_eq]

theorem SameStore.arrives_iff (hsu : SameStore s u) : b.Arrives t u h ↔ b.Arrives t s h := by
  have hgz := hsu.fetched _ (gz_not_hex h)
  have hpatch (p : Text × Text) := hsu.fetched _ (patchFile_not_hex (b := b) p)
  simp only [Batch.Arrives, Batch.GoodPatch, hsu.asked_iff, hsu.stored_eq, hgz, hpatch]

structure Brought (t : Tools) (b : Batch) (s u : Dir) : Prop extends Adds t s u where
  stored : ∀ h, isHash h = true → (u.stored (gz h) ≠ none ↔ b.Arrives t s h)
  asked : ∀ h, isHash h = true → b.Asked s h → h ≠ t.sha256 [] → u.stored (gz h) ≠ none
  fetched : ∀ h, isHash h = true → u.fetched (gz h) ≠ none → s.fetched (gz h) ≠ none
  used : ∀ h, isHash h = true → s.fetched (gz h) ≠ none →
    u.fetched (gz h) ≠ none ∨ u.stored (gz h) ≠ none
  others : ∀ n, (∀ h, isHash h = true → n ≠ gz h) → (∀ p ∈ b.pairs, n ≠ b.patchFile p) →
    u.fetched n = s.fetched n

theorem mem_makePatchlist {p : Text × Text} : p ∈ makePatchlist b s ↔
    p ∈ b.pairs ∧ ¬ (isHash p.1 = true ∧ p.1 = p.2) ∧ s.stored (gz p.2) = none ∧
      s.stored (gz p.1) ≠ none := by
  simp [makePatchlist, Option.isSome_iff_ne_none, and_assoc, Classical.or_iff_not_imp_left]

theorem mem_makeFilelist {patchlist : List (Text × Text)} : h ∈ makeFilelist b patchlist s ↔
    (h ∈ b.single ∨ ∃ x, (x, h) ∈ patchlist) ∧ s.stored (gz h) = none := by
  simp [makeFilelist, or_and_right]

theorem downloaded_of_not_mem {names : List Text} {server f : Members} (hn : n ∉ names) :
    downloaded names server f n = f n := if_neg hn

theorem downloaded_of_mem {names : List Text} {server f : Members} (hn : n ∈ names) :
    downloaded names server f n = (server n).or (f n) := if_pos hn

theorem gz_not_mem_patchFiles (patchlist : List (Text × Text)) (hh : isHash h = true) :
    gz h ∉ patchlist.map b.patchFile := by
  intro hmem
  obtain ⟨p, _, hp⟩ := List.mem_map.mp hmem
  exact patchFile_ne_gz p hh hp.symm

/-- With the patch files of the list downloaded, the patches that work are the good ones. -/
theorem patches_withDownloads_iff {p : Text × Text} {names : List Text}
    (hp : b.patchFile p ∈ names) (hold : s.stored (gz p.1) ≠ none) :
    Patches t b (withDownloads names b.patches s) p ↔ b.GoodPatch t s p := by
  obtain ⟨old, hold⟩ := Option.ne_none_iff_exists'.mp hold
  have hfetched : (withDownloads names b.patches s).fetched (b.patchFile p) =
      (b.patches (b.patchFile p)).or (s.fetched (b.patchFile p)) := downloaded_of_mem hp
  have hstored : (withDownloads names b.patches s).stored (gz p.1) = some old := hold
  constructor
  · rintro ⟨patch, new, hpatch, hnew, hsum⟩
    rw [hfetched] at hpatch
    rw [hstored] at hnew
    exact ⟨old, patch, new, hold, hpatch, hnew, hsum⟩
  · rintro ⟨old', patch, new, hold', hpatch, hnew, hsum⟩
    rw [hold] at hold'
    cases hold'
    refine ⟨patch, new, hfetched.trans hpatch, ?_, hsum⟩
    rw [hstored]
    exact hnew

/-- The directory when the patches can be applied. -/
def patchesFetched (b : Batch) (s : Dir) : Dir :=
  withDownloads ((makePatchlist b s).map b.patchFile) b.patches s

/-- The files that are still missing when the patches are applied. -/
def missingFiles (b : Batch) (s s2 : Dir) : List Text := makeFilelist b (makePatchlist b s) s2

def filesFetched (b : Batch) (s s2 : Dir) : Dir :=
  withDownloads ((missingFiles b s s2).map gz) b.served s2

section Brought

variable {s2 : Dir} (hpatched : Patched t b (patchesFetched b s) (makePatchlist b s) s2)

include hpatched

theorem fetched_gz_of_patched (hh : isHash h = true) : s2.fetched (gz h) = s.fetched (gz h) := by
  have hnot := gz_not_mem_patchFiles (b := b) (makePatchlist b s) hh
  rw [hpatched.fetched, if_neg hnot]
  exact downloaded_of_not_mem hnot

theorem fetched_gz_filesFetched (hh : isHash h = true) : (filesFetched b s s2).fetched (gz h) =
    if h ∈ missingFiles b s s2 then (b.served (gz h)).or (s.fetched (gz h))
    else s.fetched (gz h) := by
  show downloaded _ _ _ _ = _
  simp only [downloaded, mem_map_gz, fetched_gz_of_patched hpatched hh]

theorem stored_of_patched (hh : isHash h = true) : s2.stored (gz h) ≠ none ↔
    s.stored (gz h) ≠ none ∨ ∃ x, (x, h) ∈ makePatchlist b s ∧ b.GoodPatch t s (x, h) := by
  have hpatch : ∀ p ∈ makePatchlist b s, (Patches t b (patchesFetched b s) p ↔ b.GoodPatch t s p) := by
    intro p hp
    exact patches_withDownloads_iff (List.mem_map_of_mem hp) (mem_makePatchlist.mp hp).2.2.2
  rw [hpatched.stored h hh]
  constructor
  · rintro (hs | ⟨⟨x, y⟩, hp, rfl, hgood⟩)
    · exact Or.inl hs
    · exact Or.inr ⟨x, hp, (hpatch _ hp).mp hgood⟩
  · rintro (hs | ⟨x, hp, hgood⟩)
    · exact Or.inl hs
    · exact Or.inr ⟨(x, h), hp, rfl, (hpatch _ hp).mpr hgood⟩

omit hpatched in
theorem mem_makePatchlist_of_stored {x : Text} (hpair : (x, h) ∈ b.pairs)
    (hx : s.stored (gz x) ≠ none) (hnone : s.stored (gz h) = none) : (x, h) ∈ makePatchlist b s := by
  refine mem_makePatchlist.mpr ⟨hpair, ?_, hnone, hx⟩
  rintro ⟨_, heq⟩
  rw [show x = h from heq] at hx
  exact hx hnone

theorem stored_of_goodPatch (hh : isHash h = true) (hpair : (x, h) ∈ b.pairs)
    (hgood : b.GoodPatch t s (x, h)) : s2.stored (gz h) ≠ none := by
  rw [stored_of_patched hpatched hh]
  by_cases hs : s.stored (gz h) = none
  · have hold : s.stored (gz x) ≠ none := by
      obtain ⟨old, _, _, hold, _⟩ := hgood
      rw [hold]
      exact Option.some_ne_none old
    exact Or.inr ⟨x, mem_makePatchlist_of_stored hpair hold hs, hgood⟩
  · exact Or.inl hs

theorem missing_of_asked (hh : isHash h = true) (hasked : b.Asked s h)
    (hnone : s2.stored (gz h) = none) : h ∈ missingFiles b s s2 := by
  refine mem_makeFilelist.mpr ⟨?_, hnone⟩
  rcases hasked with hsingle | ⟨x, hpair, hx⟩
  · exact Or.inl hsingle
  · have hs : s.stored (gz h) = none := by
      by_contra hs
      exact (stored_of_patched hpatched hh).mpr (Or.inl hs) hnone
    exact Or.inr ⟨x, mem_makePatchlist_of_stored hpair hx hs⟩

omit hpatched in
theorem isHash_of_mem_missingFiles (hwf : b.WF) (hmem : h ∈ missingFiles b s s2) :
    isHash h = true := by
  rcases (mem_makeFilelist.mp hmem).1 with hsingle | ⟨x, hx⟩
  · exact hwf.single h hsingle
  · exact (hwf.pairs _ (mem_makePatchlist.mp hx).1).2

omit hpatched in
theorem asked_of_mem_missingFiles (hmem : h ∈ missingFiles b s s2) : b.Asked s h := by
  rcases (mem_makeFilelist.mp hmem).1 with hsingle | ⟨x, hx⟩
  · exact Or.inl hsingle
  · obtain ⟨hpair, _, _, hold⟩ := mem_makePatchlist.mp hx
    exact Or.inr ⟨x, hpair, hold⟩

/-- Files of other names stay as they were. -/
theorem fetched_of_other (hwf : b.WF)
    (hverified : Verified t (filesFetched b s s2) (missingFiles b s s2) u)
    (hgz : ∀ h, isHash h = true → n ≠ gz h) (hpairs : ∀ p ∈ b.pairs, n ≠ b.patchFile p) :
    u.fetched n = s.fetched n := by
  have hfile : n ∉ (missingFiles b s s2).map gz := by
    intro hmem
    obtain ⟨h, hh, rfl⟩ := List.mem_map.mp hmem
    exact hgz h (isHash_of_mem_missingFiles hwf hh) rfl
  have hpatch : n ∉ (makePatchlist b s).map b.patchFile := by
    intro hmem
    obtain ⟨p, hp, rfl⟩ := List.mem_map.mp hmem
    exact hpairs p (mem_makePatchlist.mp hp).1 rfl
  rw [hverified.fetched, if_neg hfile]
  refine (downloaded_of_not_mem hfile).trans ?_
  rw [hpatched.fetched, if_neg hpatch]
  exact downloaded_of_not_mem hpatch

theorem brought_of_verified (hwf : b.WF)
    (hverified : Verified t (filesFetched b s s2) (missingFiles b s s2) u) : Brought t b s u := by
  have hadds2 : Adds t s s2 := (adds_withDownloads _ _ s).trans hpatched.toAdds
  have hadds3 : Adds t s2 (filesFetched b s s2) := adds_withDownloads _ _ s2
  have hgrows := hverified.toAdds
  have hend : ∀ h, isHash h = true → (u.stored (gz h) ≠ none ↔ s2.stored (gz h) ≠ none ∨
      h ∈ missingFiles b s s2 ∧ (filesFetched b s s2).fetched (gz h) ≠ none) := hverified.stored
  refine ⟨hadds2.trans (hadds3.trans hverified.toAdds), ?_, ?_, ?_, ?_, ?_⟩
  · intro h hh
    rw [hend h hh, stored_of_patched hpatched hh, fetched_gz_filesFetched hpatched hh]
    constructor
    · rintro ((hs | ⟨x, hx, hgood⟩) | ⟨hmem, hserved⟩)
      · exact Or.inl hs
      · exact Or.inr (Or.inl ⟨x, (mem_makePatchlist.mp hx).1, hgood⟩)
      · rw [if_pos hmem] at hserved
        exact Or.inr (Or.inr ⟨asked_of_mem_missingFiles hmem, hserved⟩)
    · intro harrives
      by_cases hs2 : s2.stored (gz h) = none
      · right
        suffices hasked : b.Asked s h ∧ (b.served (gz h)).or (s.fetched (gz h)) ≠ none by
          have hmem := missing_of_asked hpatched hh hasked.1 hs2
          rw [if_pos hmem]
          exact ⟨hmem, hasked.2⟩
        rcases harrives with hs | ⟨x, hpair, hgood⟩ | hasked
        · exact absurd hs2 ((stored_of_patched hpatched hh).mpr (Or.inl hs))
        · exact absurd hs2 (stored_of_goodPatch hpatched hh hpair hgood)
        · exact hasked
      · exact Or.inl ((stored_of_patched hpatched hh).mp hs2)
  · intro h hh hasked hne
    rw [hend h hh]
    by_cases hs2 : s2.stored (gz h) = none
    · have hmem := missing_of_asked hpatched hh hasked hs2
      exact Or.inr ⟨hmem, hverified.present h hmem hne⟩
    · exact Or.inl hs2
  · intro h hh hu
    rw [hverified.fetched, fetched_gz_filesFetched hpatched hh] at hu
    by_cases hmem : h ∈ missingFiles b s s2
    · rw [if_pos (mem_map_gz.mpr hmem)] at hu
      exact absurd rfl hu
    · rw [if_neg (mt mem_map_gz.mp hmem), if_neg hmem] at hu
      exact hu
  · intro h hh hs
    by_cases hmem : h ∈ missingFiles b s s2
    · right
      rw [hend h hh, fetched_gz_filesFetched hpatched hh, if_pos hmem]
      refine Or.inr ⟨hmem, ?_⟩
      cases hserved : b.served (gz h) with
      | none => exact hs
      | some c => exact Option.some_ne_none c
    · left
      rw [hverified.fetched, if_neg (mt mem_map_gz.mp hmem), fetched_gz_filesFetched hpatched hh,
        if_neg hmem]
      exact hs
  · exact fun n hgz hpairs => fetched_of_other hpatched hwf hverified hgz hpairs

end Brought

theorem bring_spec (hwf : b.WF) (hfiles : s.files.isSome = true) :
    Holds (· = s) (bring t b) (Adds t s)
      fun ok u => if ok then Brought t b s u else Adds t s u := by
  unfold bring
  apply Holds.bindRead
  refine Holds.bind (downloadAll_spec _ _ s) fun _ => ?_
  have hs1 : Adds t s (patchesFetched b s) := adds_withDownloads _ _ s
  refine Holds.bind (R := fun _ => Patched t b (patchesFetched b s) (makePatchlist b s)) ?_
    fun _ => ?_
  · have hloop := Holds.forLinesDone (C := Adds t s) (makePatchlist b s)
      (applyPatch t b) (J := Patched t b (patchesFetched b s)) [] ?_
    · refine hloop.weaken ?_ (fun _ h => h) fun _ _ h => h
      rintro u rfl
      exact ⟨Adds.refl _, by simp, by simp [patchesFetched], by simp [patchesFetched]⟩
    · intro done p hp
      obtain ⟨hmem, _, _, hold⟩ := mem_makePatchlist.mp hp
      obtain ⟨hx, hy⟩ := hwf.pairs p hmem
      exact (applyPatch_spec (s := patchesFetched b s) hx hy hfiles hold).weaken (fun _ h => h)
        (fun _ h => hs1.trans h) fun _ _ h => h
  · refine Holds.from fun s2 hs2 => ?_
    have hadds2 := hs1.trans hs2.toAdds
    apply Holds.bindRead
    have hdownload := downloadAll_spec (t := t) ((missingFiles b s s2).map gz) b.served s2
    refine Holds.bind (hdownload.weaken (fun _ h => h) (fun _ h => hadds2.trans h)
      fun _ _ h => h) fun _ => ?_
    have hadds3 : Adds t s (filesFetched b s s2) := hadds2.trans (adds_withDownloads _ _ s2)
    have hloop := Holds.allLines (C := Adds t s) (missingFiles b s s2)
      (verifyFile t) (F := Adds t s) (J := Verified t (filesFetched b s s2)) [] ?_
    · refine hloop.weaken ?_ (fun _ h => h) fun ok u hu => ?_
      · rintro u rfl
        exact ⟨Adds.refl _, by simp [filesFetched], by simp [filesFetched], by simp⟩
      · cases ok with
        | false => exact hu
        | true => exact brought_of_verified hs2 hwf hu
    · intro done y hy
      refine (verifyFile_spec (hadds3.files.trans hfiles) (mem_makeFilelist.mp hy).2
        (isHash_of_mem_missingFiles hwf hy)).weaken (fun _ h => h)
        (fun _ h => hadds3.trans h) fun ok u hu => ?_
      cases ok with
      | false => exact hadds3.trans hu
      | true => exact hu

end DeltaPorts.Portsnap

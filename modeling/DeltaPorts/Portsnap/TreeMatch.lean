import DeltaPorts.Portsnap.PortsTree
import Mathlib.Data.List.Pairwise

/-!
# The tree matches its index

An update relies on the record for what it leaves alone. The lines of the record that no failed
update has removed are held by the tree, and every file is accounted for by such a line, by a
line that a failed update has left, or it was there before.
-/

set_option autoImplicit false

namespace DeltaPorts.Portsnap.PortsTree

open LineTools Parcels

variable {Content : Type} {archive : Text → Archive Content} {tar : Archiver Text Content}
variable {own : List (List Text)} {foreign : List Text → Prop}
variable {t : Tree Text Content} {w : World Content} {index prev : Index}
variable {lines : List Text} {readable : Text → Bool} {calls : Calls Content}

theorem Index.apart_of_ne {l l' : Text} (hl : l ∈ index.lines) (hl' : l' ∈ index.lines)
    (hne : l ≠ l') : Apart (placeOf l) (placeOf l') := by
  have hsymm : Std.Symm fun l l' => Apart (placeOf l) (placeOf l') := ⟨fun _ _ h => h.symm⟩
  exact index.apart.forall hl hl' hne

theorem Index.nodup (index : Index) : index.lines.Nodup := by
  refine index.apart.imp fun {l l'} hapart heq => ?_
  rw [heq] at hapart
  exact hapart.1 (List.prefix_refl _)

/-- The lines that an update from the record of `prev` drops, and those that it adds. -/
def dropped (prev index : Index) : List Text := comm23 (sort prev.lines) (sort index.lines)

def added (prev index : Index) : List Text := comm13 (sort prev.lines) (sort index.lines)

theorem mem_dropped {d : Text} : d ∈ dropped prev index ↔ d ∈ prev.lines ∧ d ∉ index.lines :=
  mem_comm13_of_nodup index.nodup prev.nodup

theorem mem_added {l : Text} : l ∈ added prev index ↔ l ∈ index.lines ∧ l ∉ prev.lines :=
  mem_comm13_of_nodup prev.nodup index.nodup

theorem mem_sort {l : Text} : l ∈ sort lines ↔ l ∈ lines :=
  (List.perm_insertionSort _ lines).mem_iff

theorem mem_iff_of_sort_eq (h : sort index.lines = sort prev.lines) (l : Text) :
    l ∈ index.lines ↔ l ∈ prev.lines := by
  have hperm : index.lines.Perm prev.lines :=
    (List.perm_insertionSort _ _).symm.trans ((List.Perm.of_eq h).trans (List.perm_insertionSort _ _))
  exact hperm.mem_iff

theorem pairwise_parcels (hnodup : lines.Nodup) (hsub : ∀ l ∈ lines, l ∈ index.lines) :
    (lines.map (parcel archive)).Pairwise fun p q => Apart p.place q.place := by
  rw [List.pairwise_map]
  exact hnodup.pairwise_of_forall_ne fun l hl l' hl' hne =>
    Index.apart_of_ne (hsub l hl) (hsub l' hl') hne

theorem extractLines_spec (last : Bool) :
    (extractLines archive tar (fun _ t => t) readable last t lines).2 =
      unpackAll tar t ((lines.takeWhile fun l => readable (cut 2 l)).map (parcel archive)) ∧
    ((extractLines archive tar (fun _ t => t) readable last t lines).1 = true →
      ∀ l ∈ lines, readable (cut 2 l) = true) := by
  induction lines generalizing last t with
  | nil => exact ⟨rfl, fun _ l hl => by cases hl⟩
  | cons line lines ih =>
    unfold extractLines
    by_cases hread : readable (cut 2 line) = false
    · rw [if_pos hread, List.takeWhile_cons_of_neg (by simp [hread])]
      exact ⟨rfl, fun h => by cases h⟩
    · have htrue : readable (cut 2 line) = true := by simpa using hread
      rw [if_neg hread, List.takeWhile_cons_of_pos (by simpa using htrue)]
      obtain ⟨htree, hall⟩ := @ih (tar.unpack t (parcel archive line)) (tar.ok t (parcel archive line))
      refine ⟨htree, fun h l hl => ?_⟩
      rcases List.mem_cons.mp hl with rfl | hl
      · exact htrue
      · exact hall h l hl

/-- The lines that account for the files of the tree. -/
def Accounts (archive : Text → Archive Content) (prev : Index) (lost left : List Text)
    (p : Parcel Text Content) : Prop :=
  ∃ l, (l ∈ prev.lines ∧ l ∉ lost ∨ l ∈ left) ∧ p = parcel archive l

variable (archive own foreign)

structure Sync (w : World Content) (prev : Index) : Prop where
  record : w.record = some (sort prev.lines)
  held : ∀ l ∈ prev.lines, l ∉ w.lost → Holds w.tree (parcel archive l)
  explained : Explained (Accounts archive prev w.lost w.left) (fun x => x ∈ own ∨ foreign x) w.tree

structure Inv (w : World Content) : Prop where
  names : NamesNoOwn own w.index
  sync : w.record ≠ none → ∃ prev, Sync archive own foreign w prev
  status : w.status = some true → Matches archive w

variable {archive own foreign}

/-- The tree when the lines that the new index does not have are removed. -/
def stripped (w : World Content) (prev : Index) : Tree Text Content :=
  remove ((dropped prev w.index).map placeOf) w.tree

/-- The lines that account for it. -/
def Remains (archive : Text → Archive Content) (w : World Content) (prev : Index)
    (p : Parcel Text Content) : Prop :=
  ∃ l, (l ∈ prev.lines ∧ l ∈ w.index.lines ∧ l ∉ w.lost ∨ l ∈ w.left) ∧
    (∀ d ∈ dropped prev w.index, ¬ placeOf d <+: placeOf l) ∧ p = parcel archive l

theorem Sync.explained_stripped (h : Sync archive own foreign w prev) :
    Explained (Remains archive w prev) (fun x => x ∈ own ∨ foreign x) (stripped w prev) := by
  refine h.explained.remove.mono ?_ fun _ hx => hx
  rintro p ⟨⟨l, hl, rfl⟩, hfree⟩
  have hfree' : ∀ d ∈ dropped prev w.index, ¬ placeOf d <+: placeOf l :=
    fun d hd => hfree _ (List.mem_map_of_mem hd)
  refine ⟨l, ?_, hfree', rfl⟩
  rcases hl with ⟨hprev, hlost⟩ | hleft
  · refine .inl ⟨hprev, ?_, hlost⟩
    by_contra hnew
    exact hfree' l (mem_dropped.mpr ⟨hprev, hnew⟩) (List.prefix_refl _)
  · exact .inr hleft

theorem Sync.held_stripped (h : Sync archive own foreign w prev) {l : Text} (hprev : l ∈ prev.lines)
    (hnew : l ∈ w.index.lines) (hlost : l ∉ w.lost) : Holds (stripped w prev) (parcel archive l) := by
  refine (h.held l hprev hlost).remove fun d hd => ?_
  obtain ⟨d, hd', rfl⟩ := List.mem_map.mp hd
  obtain ⟨hdprev, hdnew⟩ := mem_dropped.mp hd'
  exact Index.apart_of_ne hdprev hprev fun heq => hdnew (heq ▸ hnew)

/-- A line of both indices is apart from all that is added. -/
theorem apart_added {l : Text} (hprev : l ∈ prev.lines) (hnew : l ∈ index.lines)
    {lines : List Text} (hsub : ∀ l' ∈ lines, l' ∈ added prev index) :
    ∀ q ∈ lines.map (parcel archive), Apart q.place (parcel archive l).place := by
  intro q hq
  obtain ⟨l', hl', rfl⟩ := List.mem_map.mp hq
  obtain ⟨hnew', hprev'⟩ := mem_added.mp (hsub l' hl')
  exact Index.apart_of_ne hnew' hnew fun heq => hprev' (heq ▸ hprev)

/-- What an update leaves of the lines that failed updates have left. -/
def stillLeft (w : World Content) (prev : Index) : List Text :=
  w.left.filter fun l => (dropped prev w.index).all fun d => !(placeOf d).isPrefixOf (placeOf l)

theorem mem_stillLeft {l : Text} : l ∈ stillLeft w prev ↔
    l ∈ w.left ∧ ∀ d ∈ dropped prev w.index, ¬ placeOf d <+: placeOf l := by
  rw [stillLeft, List.mem_filter, List.all_eq_true]
  refine and_congr_right fun _ => forall₂_congr fun d _ => ?_
  rw [Bool.not_eq_true', ← List.isPrefixOf_iff_prefix, Bool.not_eq_true]

theorem Sync.failed (h : Sync archive own foreign w prev)
    (hlines : ∀ l ∈ lines, l ∈ added prev w.index) :
    Sync archive own foreign
      { w with
        tree := unpackAll tar (stripped w prev) (lines.map (parcel archive))
        lost := w.lost ++ dropped prev w.index
        left := stillLeft w prev ++ lines
        status := some false } prev where
  record := h.record
  held := by
    intro l hprev hlost
    rw [List.mem_append, not_or] at hlost
    have hnew : l ∈ w.index.lines := by
      by_contra hnew
      exact hlost.2 (mem_dropped.mpr ⟨hprev, hnew⟩)
    exact (h.held_stripped hprev hnew hlost.1).unpackAll (apart_added hprev hnew hlines)
  explained := by
    refine h.explained_stripped.unpackAll.mono ?_ fun _ hx => hx
    rintro p (⟨l, hl, hfree, rfl⟩ | hp)
    · refine ⟨l, ?_, rfl⟩
      rcases hl with ⟨hprev, hnew, hlost⟩ | hleft
      · refine .inl ⟨hprev, fun hmem => ?_⟩
        rcases List.mem_append.mp hmem with hmem | hmem
        · exact hlost hmem
        · exact (mem_dropped.mp hmem).2 hnew
      · exact .inr (List.mem_append_left _ (mem_stillLeft.mpr ⟨hleft, hfree⟩))
    · obtain ⟨l, hl, rfl⟩ := List.mem_map.mp hp
      exact ⟨l, .inr (List.mem_append_right _ hl), rfl⟩

theorem install_of_own {made : Tree Text Content} {x : List Text} (hx : x ∉ own) :
    install own made t x = t x := by
  unfold install
  rw [if_neg]
  simpa using hx

theorem Holds.install {p : Parcel Text Content} {made : Tree Text Content} (h : Holds t p)
    (hown : ∀ x ∈ own, Apart x p.place) : Holds (install own made t) p :=
  h.congr fun _ hx => install_of_own fun hmem => (hown _ hmem).2 hx

theorem Explained.install {P : Parcel Text Content → Prop} {made : Tree Text Content}
    (h : Explained P (fun x => x ∈ own ∨ foreign x) t) :
    Explained P (fun x => x ∈ own ∨ foreign x) (install own made t) := by
  intro x hx
  by_cases hmem : x ∈ own
  · exact .inr (.inl hmem)
  · rw [install_of_own hmem] at hx ⊢
    exact h x hx

/-- The tree when all lines are extracted. -/
def updated (archive : Text → Archive Content) (tar : Archiver Text Content) (w : World Content)
    (prev : Index) : Tree Text Content :=
  unpackAll tar (stripped w prev) ((added prev w.index).map (parcel archive))

theorem Sync.held_updated (h : Sync archive own foreign w prev) (hnames : NamesNoOwn own w.index)
    (huntouched : Untouched foreign w (sort prev.lines)) :
    ∀ l ∈ w.index.lines, Holds (updated archive tar w prev) (parcel archive l) := by
  have hadded : ∀ p ∈ (added prev w.index).map (parcel archive),
      Holds (updated archive tar w prev) p := by
    refine h.explained_stripped.holds_unpackAll ?_ ?_ ?_
    · exact pairwise_parcels (nodup_comm13 w.index.nodup _) fun l hl => (mem_added.mp hl).1
    · intro p hp q hq
      obtain ⟨l, hl, rfl⟩ := List.mem_map.mp hp
      obtain ⟨hnew, hprev⟩ := mem_added.mp hl
      obtain ⟨l', hl', hfree, rfl⟩ := hq
      rcases hl' with ⟨hprev', hnew', _⟩ | hleft
      · exact .inl (Index.apart_of_ne hnew' hnew fun heq => hprev (heq ▸ hprev'))
      · have hclear := huntouched.clear l hnew (fun hmem => hprev (mem_sort.mp hmem)) l' hleft
          fun d hd hdnew => hfree d (mem_dropped.mpr ⟨mem_sort.mp hd, hdnew⟩)
        exact hclear.imp id fun heq => congrArg (parcel archive) heq
    · rintro p hp x hx
      obtain ⟨l, hl, rfl⟩ := List.mem_map.mp hp
      obtain ⟨hnew, hprev⟩ := mem_added.mp hl
      rcases hx with hx | hx
      · exact hnames l hnew x hx
      · exact huntouched.free l hnew (fun hmem => hprev (mem_sort.mp hmem)) x hx
  intro l hl
  by_cases hprev : l ∈ prev.lines
  · have hlost := huntouched.kept l hl (mem_sort.mpr hprev)
    exact (h.held_stripped hprev hl hlost).unpackAll (apart_added hprev hl fun _ h => h)
  · exact hadded _ (List.mem_map_of_mem (mem_added.mpr ⟨hl, hprev⟩))

theorem Sync.updated (h : Sync archive own foreign w prev) (hnames : NamesNoOwn own w.index)
    (huntouched : Untouched foreign w (sort prev.lines)) (made : Tree Text Content)
    (status : Option Bool) :
    Sync archive own foreign
      { w with
        record := some (sort w.index.lines)
        tree := install own made (PortsTree.updated archive tar w prev)
        lost := []
        left := stillLeft w prev
        status := status } w.index where
  record := rfl
  held := fun l hl _ => Holds.install (h.held_updated hnames huntouched l hl) (hnames l hl)
  explained := by
    refine Explained.install ?_
    refine h.explained_stripped.unpackAll.mono ?_ fun _ hx => hx
    rintro p (⟨l, hl, hfree, rfl⟩ | hp)
    · refine ⟨l, ?_, rfl⟩
      rcases hl with ⟨_, hnew, _⟩ | hleft
      · exact .inl ⟨hnew, List.not_mem_nil⟩
      · exact .inr (mem_stillLeft.mpr ⟨hleft, hfree⟩)
    · obtain ⟨l, hl, rfl⟩ := List.mem_map.mp hp
      exact ⟨l, .inl ⟨(mem_added.mp hl).1, List.not_mem_nil⟩, rfl⟩

theorem updateRun_eq (hrecord : w.record = some (sort prev.lines)) :
    updateRun archive tar own calls w =
      if sort w.index.lines = sort prev.lines then { w with status := some true }
      else
        match extractLines archive tar (fun _ t => t) calls.readable true (stripped w prev)
          (added prev w.index) with
        | (false, t) => { w with
            tree := t
            lost := w.lost ++ dropped prev w.index
            left := stillLeft w prev ++
              (added prev w.index).takeWhile fun l => calls.readable (cut 2 l)
            status := some false }
        | (true, t) => { w with
            record := some (sort w.index.lines)
            tree := install own calls.made t
            lost := []
            left := stillLeft w prev
            status := some calls.indices } := by
  unfold updateRun
  split
  · next hnone =>
    rw [hnone] at hrecord
    cases hrecord
  · next record hsome =>
    obtain rfl : sort prev.lines = record := Option.some.inj (hrecord.symm.trans hsome)
    rfl

theorem Inv.update (h : Inv archive own foreign w) (hok : Ok own foreign w (.update calls)) :
    Inv archive own foreign (updateRun archive tar own calls w) := by
  by_cases hnone : w.record = none
  · unfold updateRun
    split
    · exact ⟨h.names, fun hne => absurd hnone hne, fun hstatus => by cases hstatus⟩
    · next record hsome =>
      rw [hnone] at hsome
      cases hsome
  · obtain ⟨prev, hsync⟩ := h.sync hnone
    have huntouched := hok _ hsync.record
    rw [updateRun_eq hsync.record]
    by_cases hsame : sort w.index.lines = sort prev.lines
    · rw [if_pos hsame]
      have hmem (l : Text) : l ∈ w.index.lines ↔ l ∈ prev.lines := mem_iff_of_sort_eq hsame l
      have hkept := (huntouched fun l hl hprev =>
        absurd (mem_sort.mpr ((hmem l).mp hl)) hprev).kept
      refine ⟨h.names, fun _ => ⟨prev, ⟨hsync.record, hsync.held, hsync.explained⟩⟩, fun _ => ?_⟩
      refine ⟨hsync.record.trans (congrArg some hsame.symm), fun l hl => ?_⟩
      exact hsync.held l ((hmem l).mp hl) (hkept l hl (mem_sort.mpr ((hmem l).mp hl)))
    · rw [if_neg hsame]
      have hloop := @extractLines_spec _ archive tar (stripped w prev) (added prev w.index)
        calls.readable true
      rcases hresult : extractLines archive tar (fun _ t => t) calls.readable true (stripped w prev)
        (added prev w.index) with ⟨_ | _, t⟩
      · rw [hresult] at hloop
        obtain ⟨htree, _⟩ := hloop
        have hfailed := @Sync.failed _ archive tar own foreign w prev _ hsync
          fun l hl => (List.takeWhile_sublist fun l => calls.readable (cut 2 l)).subset hl
        rw [← htree] at hfailed
        exact ⟨h.names, fun _ => ⟨prev, hfailed⟩, fun hstatus => by cases hstatus⟩
      · rw [hresult] at hloop
        obtain ⟨htree, hall⟩ := hloop
        have hread : ∀ l ∈ added prev w.index, calls.readable (cut 2 l) = true := hall rfl
        have huntouched' := huntouched fun l hl hprev =>
          hread l (mem_added.mpr ⟨hl, fun hmem => hprev (mem_sort.mpr hmem)⟩)
        have hall' : (added prev w.index).takeWhile (fun l => calls.readable (cut 2 l)) =
            added prev w.index := List.takeWhile_eq_self_iff.mpr hread
        rw [hall'] at htree
        have hupdated := @Sync.updated _ archive tar own foreign w prev hsync h.names huntouched'
          calls.made (some calls.indices)
        rw [PortsTree.updated, ← htree] at hupdated
        refine ⟨h.names, fun _ => ⟨w.index, hupdated⟩, fun _ => ⟨rfl, fun l hl => ?_⟩⟩
        exact hupdated.held l hl List.not_mem_nil

/-- The tree while `extract_run` is at work. -/
structure Extracting (archive : Text → Archive Content) (t₀ t : Tree Text Content)
    (done : List Text) : Prop where
  held : ∀ l ∈ done, Holds t (parcel archive l)
  explained : Explained (fun p => ∃ l ∈ done, p = parcel archive l)
    (fun x => t₀ x ≠ none ∧ ∀ l ∈ done, ¬ placeOf l <+: x) t

variable {t₀ : Tree Text Content} {done rest : List Text} {line : Text}

theorem Extracting.apart_done (hlines : index.lines = done ++ line :: rest) {l : Text}
    (hl : l ∈ done) : Apart (placeOf l) (placeOf line) := by
  have hpair := index.apart
  rw [hlines, List.pairwise_append] at hpair
  exact hpair.2.2 l hl line List.mem_cons_self

theorem Extracting.clearPlace (h : Extracting archive t₀ t done) (hfree : Unobstructed t₀ index)
    (hlines : index.lines = done ++ line :: rest) :
    (∀ x, placeOf line <+: x → PortsTree.clearPlace line t x = none) ∧
      ∀ x, ¬ placeOf line <+: x → PortsTree.clearPlace line t x = t x := by
  have hmem : line ∈ index.lines := by
    rw [hlines]
    exact List.mem_append_right _ List.mem_cons_self
  unfold PortsTree.clearPlace
  by_cases hdir : isDir line = true
  · rw [if_pos hdir]
    constructor
    · exact fun x hx => remove_of_below (List.mem_singleton_self _) hx
    · refine fun x hx => remove_of_not_below fun d hd => ?_
      rwa [List.mem_singleton.mp hd]
  · rw [if_neg hdir]
    constructor
    · intro x hx
      by_cases heq : x = placeOf line
      · rw [if_pos heq]
      · rw [if_neg heq]
        by_contra hfile
        rcases h.explained x hfile with ⟨p, ⟨l, hl, rfl⟩, r, hxr, _⟩ | ⟨hx₀, _⟩
        · have hbelow : placeOf l <+: x := ⟨r, hxr.symm⟩
          exact not_apart_of_below hbelow hx (apart_done hlines hl)
        · exact heq (hfree.below line hmem (by simpa using hdir) x hx₀ hx)
    · intro x hx
      rw [if_neg]
      rintro rfl
      exact hx (List.prefix_refl _)

theorem Extracting.extractLine (h : Extracting archive t₀ t done) (hfree : Unobstructed t₀ index)
    (hlines : index.lines = done ++ line :: rest) :
    Extracting archive t₀ (tar.unpack (PortsTree.clearPlace line t) (parcel archive line))
      (done ++ [line]) := by
  obtain ⟨hbelow, helse⟩ := h.clearPlace hfree hlines
  have hmem : line ∈ index.lines := by
    rw [hlines]
    exact List.mem_append_right _ List.mem_cons_self
  have hexplained : Explained (fun p => ∃ l ∈ done, p = parcel archive l)
      (fun x => t₀ x ≠ none ∧ ∀ l ∈ done ++ [line], ¬ placeOf l <+: x)
      (PortsTree.clearPlace line t) := by
    intro x hx
    have hnot : ¬ placeOf line <+: x := fun hpre => hx (hbelow x hpre)
    rw [helse x hnot] at hx ⊢
    refine (h.explained x hx).imp id fun hother => ⟨hother.1, fun l hl => ?_⟩
    rcases List.mem_append.mp hl with hl | hl
    · exact hother.2 l hl
    · rwa [List.mem_singleton.mp hl]
  have hready : Ready (PortsTree.clearPlace line t) (parcel archive line) := by
    refine hexplained.ready ?_ fun x hx => ⟨fun habove => ?_, ?_⟩
    · rintro q ⟨l, hl, rfl⟩
      exact .inl (apart_done hlines hl)
    · have heq := hfree.above line hmem x hx.1 habove
      exact hx.2 line (by simp) (heq ▸ List.prefix_refl _)
    · exact hx.2 line (by simp)
  constructor
  · intro l hl
    rcases List.mem_append.mp hl with hl | hl
    · have hapart := apart_done hlines hl
      have hcleared : Holds (PortsTree.clearPlace line t) (parcel archive l) :=
        (h.held l hl).congr fun x hx =>
          helse x fun hline => not_apart_of_below hx hline hapart
      exact hcleared.unpack tar hapart.symm
    · rw [List.mem_singleton.mp hl]
      exact tar.onto _ _ hready
  · refine (hexplained.unpack tar _).mono ?_ fun _ hx => hx
    rintro p (⟨l, hl, rfl⟩ | rfl)
    · exact ⟨l, List.mem_append_left _ hl, rfl⟩
    · exact ⟨line, by simp, rfl⟩

theorem Extracting.extractLines (h : Extracting archive t₀ t done) (hfree : Unobstructed t₀ index)
    (hlines : index.lines = done ++ rest) (last : Bool)
    (hloop : (PortsTree.extractLines archive tar PortsTree.clearPlace readable last t rest).1 =
      true) :
    Extracting archive t₀
      (PortsTree.extractLines archive tar PortsTree.clearPlace readable last t rest).2
      index.lines := by
  induction rest generalizing t done last with
  | nil =>
    rw [hlines, List.append_nil]
    exact h
  | cons line rest ih =>
    unfold PortsTree.extractLines at hloop ⊢
    by_cases hread : readable (cut 2 line) = false
    · rw [if_pos hread] at hloop
      cases hloop
    · rw [if_neg hread] at hloop ⊢
      have hnext : index.lines = (done ++ [line]) ++ rest := by
        rw [List.append_assoc]
        exact hlines
      exact ih (h.extractLine hfree hlines) hnext _ hloop

theorem inv_extractRun (hnames : NamesNoOwn own index) (hfree : Unobstructed t₀ index) :
    Inv archive own (Foreign t₀ index) (extractRun archive tar own calls index t₀) := by
  have hstart : Extracting archive t₀ t₀ [] := by
    constructor
    · intro l hl
      cases hl
    · intro x hx
      refine .inr ⟨hx, fun l hl => ?_⟩
      cases hl
  unfold extractRun
  rcases hresult : extractLines archive tar PortsTree.clearPlace calls.readable true t₀ index.lines
    with ⟨_ | _, t⟩
  · exact ⟨hnames, fun hne => absurd rfl hne, fun hstatus => by cases hstatus⟩
  · have hlines :=
      @Extracting.extractLines _ archive tar t₀ index calls.readable t₀ [] index.lines hstart
      hfree rfl true
    rw [hresult] at hlines
    have hall := hlines rfl
    have hheld : ∀ l ∈ index.lines, Holds (install own calls.made t) (parcel archive l) :=
      fun l hl => Holds.install (hall.held l hl) (hnames l hl)
    refine ⟨hnames, fun _ => ⟨index, rfl, fun l hl _ => hheld l hl, ?_⟩, fun _ => ⟨rfl, hheld⟩⟩
    refine Explained.install (hall.explained.mono ?_ fun x hx => .inr hx)
    rintro p ⟨l, hl, rfl⟩
    exact ⟨l, .inl ⟨hl, List.not_mem_nil⟩, rfl⟩

theorem Inv.step {e : Event Content} (h : Inv archive own foreign w) (hok : Ok own foreign w e) :
    Inv archive own foreign (step archive tar own w e) := by
  cases e with
  | fetch index =>
    refine ⟨hok, fun hne => ?_, fun hstatus => by cases hstatus⟩
    obtain ⟨prev, hsync⟩ := h.sync hne
    exact ⟨prev, hsync.record, hsync.held, hsync.explained⟩
  | update calls => exact h.update hok

/-- An archiver for trees where nothing is in the way. -/
def plainTar : Archiver Text Content where
  unpack t p x :=
    if p.place.isPrefixOf x = true ∧ p.content (x.drop p.place.length) ≠ none then
      p.content (x.drop p.place.length)
    else t x
  ok _ _ := true
  elsewhere t p x hx := if_neg fun h => hx (List.isPrefixOf_iff_prefix.mp h.1)
  mixed := by
    intro t p r
    rw [List.drop_left]
    split
    · exact .inr (.inr rfl)
    · exact .inr (.inl rfl)
  onto := by
    intro t p hready r
    dsimp only
    rw [List.drop_left]
    split
    · rfl
    · next hnone =>
      have hpre : p.place.isPrefixOf (p.place ++ r) = true :=
        List.isPrefixOf_iff_prefix.mpr (List.prefix_append _ r)
      have hcontent : p.content r = none := not_not.mp fun hne => hnone ⟨hpre, hne⟩
      rw [hcontent]
      exact (hready.own r).elim id fun h => h.trans hcontent

def oneLine (l : Text) (hline : Portsnap.isLine isIndexChar l = true)
    (hnames : ∀ n ∈ placeOf l, n ≠ ".".toList ∧ n ≠ "..".toList) : Index where
  lines := [l]
  isLine := by simpa using hline
  names := by simpa using hnames
  apart := List.pairwise_singleton _ l

def fooLine : Text := "net/foo/|".toList ++ List.replicate 64 'a'

def barLine : Text := "net/bar/|".toList ++ List.replicate 64 'b'

def fooIndex : Index := oneLine fooLine (by decide +kernel) (by decide +kernel)

def barIndex : Index := oneLine barLine (by decide +kernel) (by decide +kernel)

/-- A Makefile that holds its own checksum. -/
def makefileArchive (hash : Text) : Archive Text where
  member r := if r = ["Makefile".toList] then some hash else none
  proper := by
    intro r r' hr hr' _
    have hname : r = ["Makefile".toList] := not_not.mp fun h => hr (if_neg h)
    have hname' : r' = ["Makefile".toList] := not_not.mp fun h => hr' (if_neg h)
    rw [hname, hname']

def emptyTree : Tree Text Text := fun _ => none

def recordPath : List (List Text) := [[".portsnap.INDEX".toList]]

/-- All archives but that of net/bar, if `bar` is false. -/
def reads (bar : Bool) : Calls Text where
  readable hash := bar || hash != List.replicate 64 'b'
  made := emptyTree
  indices := true

theorem fooIndex_names : NamesNoOwn recordPath fooIndex := by
  intro l hl x hx
  rw [List.mem_singleton.mp hl, List.mem_singleton.mp hx]
  unfold Apart
  decide +kernel

theorem barIndex_names : NamesNoOwn recordPath barIndex := by
  intro l hl x hx
  rw [List.mem_singleton.mp hl, List.mem_singleton.mp hx]
  unfold Apart
  decide +kernel

theorem emptyTree_unobstructed (index : Index) : Unobstructed emptyTree index :=
  ⟨fun _ _ _ hx => absurd rfl hx, fun _ _ _ _ hx => absurd rfl hx⟩

theorem history_extractRun (index : Index) (t : Tree Text Content) :
    (extractRun archive tar own calls index t).lost = [] ∧
      (extractRun archive tar own calls index t).left = [] := by
  unfold extractRun
  split
  · exact ⟨rfl, rfl⟩
  · exact ⟨rfl, rfl⟩

/-- The update to net/bar removes net/foo and fails. -/
def halfway : World Text :=
  [Event.fetch barIndex, .update (reads false)].foldl (step makefileArchive plainTar recordPath)
    (extractRun makefileArchive plainTar recordPath (reads true) fooIndex emptyTree)

theorem halfway_failed : halfway.status = some false ∧ halfway.index.lines = [barLine] ∧
    halfway.record = some [fooLine] ∧ halfway.lost = [fooLine] ∧ halfway.left = [] := by
  decide +kernel

/-- The update to net/bar removes net/foo and fails; when the old INDEX comes back, the record
says that the tree is up to date. -/
def comesBack : World Text :=
  [Event.fetch barIndex, .update (reads false), .fetch fooIndex, .update (reads true)].foldl
    (step makefileArchive plainTar recordPath)
    (extractRun makefileArchive plainTar recordPath (reads true) fooIndex emptyTree)

end DeltaPorts.Portsnap.PortsTree

import Mathlib.Data.List.Basic
import DeltaPorts.Wayland.FdSources

/-!
# Signal sources

All sources of a signal share one `EVFILT_SIGNAL` knote, whose `udata` is one of them.
`wl_event_loop_dispatch` fetches a batch of events and dispatches them one by one; a
callback may add and remove sources meanwhile. A removed source keeps its memory, with `fd`
set to -1 and no links, until the end of the dispatch.
-/

set_option autoImplicit false

namespace DeltaPorts.Wayland

variable {s t : Source} {n : Nat}

theorem ne_of_mem_erase {l : List Source} (hl : l.Nodup) (ht : t ∈ l.erase s) : t ≠ s :=
  (hl.mem_erase_iff.mp ht).1

/-- The signal sources of a loop. `list` is `loop->signal_list`, `removed` the sources that
wait on the destroy list, `knotes` gives by signal number the `udata` of its knote. -/
structure SigLoop where
  list : List Source
  number : Source → Nat
  removed : List Source
  knotes : Nat → Option Source
  nodup : list.Nodup
  apart : ∀ s ∈ list, s ∉ removed
  udata : ∀ n s, knotes n = some s → s ∈ list ∧ number s = n
  knoted : ∀ s ∈ list, knotes (number s) ≠ none

namespace SigLoop

def create : SigLoop where
  list := []
  number := fun _ => 0
  removed := []
  knotes := fun _ => none
  nodup := List.nodup_nil
  apart := by simp
  udata := by simp
  knoted := by simp

theorem udata_added (l : SigLoop) (hs : s ∉ l.list) (n m : Nat) (t : Source)
    (h : Function.update l.knotes n (some s) m = some t) :
    t ∈ s :: l.list ∧ Function.update l.number s n t = m := by
  by_cases hm : m = n
  · subst hm
    have ht : s = t := by simpa using h
    simp [← ht]
  · rw [Function.update_of_ne hm] at h
    obtain ⟨hmem, hnumber⟩ := l.udata m t h
    have ht : t ≠ s := fun heq => hs (heq ▸ hmem)
    simp [hmem, ht, hnumber]

theorem knoted_added (l : SigLoop) (n : Nat) (t : Source) (ht : t ∈ s :: l.list) :
    Function.update l.knotes n (some s) (Function.update l.number s n t) ≠ none := by
  by_cases hts : t = s
  · simp [hts]
  · rw [Function.update_of_ne hts]
    by_cases hn : l.number t = n
    · simp [hn]
    · rw [Function.update_of_ne hn]
      exact l.knoted t ((List.mem_cons.mp ht).resolve_left hts)

/-- `wl_event_loop_add_signal`; `EV_ADD` on a knote that exists sets its `udata`. No memory
that is in use is given out again. -/
def addSignal (l : SigLoop) (s : Source) (n : Nat) : SigLoop :=
  if h : s ∉ l.list ∧ s ∉ l.removed then
    { list := s :: l.list
      number := Function.update l.number s n
      removed := l.removed
      knotes := Function.update l.knotes n (some s)
      nodup := List.nodup_cons.mpr ⟨h.1, l.nodup⟩
      apart := List.forall_mem_cons.mpr ⟨h.2, l.apart⟩
      udata := l.udata_added h.1 n
      knoted := l.knoted_added n }
  else l

/-- The first source of the list that watches the signal. -/
def survivor (list : List Source) (number : Source → Nat) (n : Nat) : Option Source :=
  list.find? fun t => number t == n

theorem survivor_eq_some {list : List Source} {number : Source → Nat}
    (h : survivor list number n = some t) : t ∈ list ∧ number t = n :=
  ⟨List.mem_of_find?_eq_some h, by simpa using List.find?_some h⟩

theorem survivor_ne_none {list : List Source} {number : Source → Nat} (ht : t ∈ list) :
    survivor list number (number t) ≠ none := by
  intro h
  simpa using List.find?_eq_none.mp h t ht

theorem apart_removed (l : SigLoop) (s : Source) : ∀ t ∈ l.list.erase s, t ∉ s :: l.removed := by
  intro t ht
  exact List.not_mem_cons_of_ne_of_not_mem (ne_of_mem_erase l.nodup ht)
    (l.apart t (List.mem_of_mem_erase ht))

theorem udata_removed (l : SigLoop) (s : Source) (m : Nat) (t : Source)
    (h : Function.update l.knotes (l.number s)
      (survivor (l.list.erase s) l.number (l.number s)) m = some t) :
    t ∈ l.list.erase s ∧ l.number t = m := by
  by_cases hm : m = l.number s
  · subst hm
    rw [Function.update_self] at h
    exact survivor_eq_some h
  · rw [Function.update_of_ne hm] at h
    obtain ⟨hmem, hnumber⟩ := l.udata m t h
    have ht : t ≠ s := fun heq => hm (heq ▸ hnumber.symm)
    exact ⟨(List.mem_erase_of_ne ht).mpr hmem, hnumber⟩

theorem knoted_removed (l : SigLoop) (s t : Source) (ht : t ∈ l.list.erase s) :
    Function.update l.knotes (l.number s) (survivor (l.list.erase s) l.number (l.number s))
      (l.number t) ≠ none := by
  by_cases hn : l.number t = l.number s
  · rw [hn, Function.update_self, ← hn]
    exact survivor_ne_none ht
  · rw [Function.update_of_ne hn]
    exact l.knoted t (List.mem_of_mem_erase ht)

/-- The signal branch of `wl_event_source_remove`: the knote goes to the survivor by
`EV_ADD`, or away by `EV_DELETE` when there is none. -/
def remove (l : SigLoop) (s : Source) : SigLoop :=
  if s ∈ l.list then
    { list := l.list.erase s
      number := l.number
      removed := s :: l.removed
      knotes := Function.update l.knotes (l.number s)
        (survivor (l.list.erase s) l.number (l.number s))
      nodup := l.nodup.erase s
      apart := l.apart_removed s
      udata := l.udata_removed s
      knoted := l.knoted_removed s }
  else l

end SigLoop

/-- A call that a callback, or the program between two dispatches, makes. -/
inductive SigOp where
  | addSignal (s : Source) (n : Nat)
  | remove (s : Source)
  deriving DecidableEq

def SigLoop.apply (l : SigLoop) : SigOp → SigLoop
  | .addSignal s n => l.addSignal s n
  | .remove s => l.remove s

def SigLoop.applyAll (l : SigLoop) (ops : List SigOp) : SigLoop := ops.foldl SigLoop.apply l

/-- A link of the list: `NULL` in a source that was unlinked, `head` the list's own. -/
inductive Link where
  | null
  | head
  | at (s : Source)
  deriving DecidableEq

def firstLink : List Source → Link
  | [] => .head
  | s :: _ => .at s

/-- `s->signal_link.next` when the list is `list`. -/
def nextIn : List Source → Source → Link
  | [], _ => .null
  | t :: rest, s => if t = s then firstLink rest else nextIn rest s

/-- `wl_list_for_each_safe` of `wl_event_source_signal_dispatch`: the state afterwards and
the sources whose callback was called. `run` is what each callback does. `none` is the
crash on the links of a source that was unlinked while it was the next one to visit. -/
def walk (n : Nat) (run : Source → List SigOp) :
    Nat → SigLoop → Link → Option (SigLoop × List Source)
  | 0, _, _ => none
  | _ + 1, _, .null => none
  | _ + 1, l, .head => some (l, [])
  | fuel + 1, l, .at sig =>
    let tmp := nextIn l.list sig
    if l.number sig ≠ n ∨ sig ∈ l.removed then walk n run fuel l tmp
    else (walk n run fuel (l.applyAll (run sig)) tmp).map fun r => (r.1, sig :: r.2)

/-- One turn of the loop in `wl_event_loop_dispatch`, on an event for the signal `n` that
was fetched with `udata`. -/
def dispatchSignal (l : SigLoop) (n : Nat) (udata : Source) (run : Source → List SigOp) :
    Option (SigLoop × List Source) :=
  if udata ∈ l.removed then some (l, [])
  else walk n run (l.list.length + 2) l (firstLink l.list)

/-- The sources that the calls remove. -/
def removals : List SigOp → List Source
  | [] => []
  | .addSignal _ _ :: ops => removals ops
  | .remove s :: ops => s :: removals ops

theorem mem_removals_iff {ops : List SigOp} : s ∈ removals ops ↔ .remove s ∈ ops := by
  induction ops with
  | nil => simp [removals]
  | cons op ops ih => cases op <;> simp [removals, ih]

/-- What is left of a list after `gone` was removed. -/
def left (gone list : List Source) : List Source := list.filter fun s => s ∉ gone

theorem mem_left {gone list : List Source} : s ∈ left gone list ↔ s ∈ list ∧ s ∉ gone := by
  simp [left]

theorem left_append (gone before after : List Source) :
    left gone (before ++ after) = left gone before ++ left gone after := List.filter_append ..

theorem left_cons_of_mem {gone rest : List Source} (h : s ∈ gone) :
    left gone (s :: rest) = left gone rest := by
  simp [left, h]

theorem left_cons_of_not_mem {gone rest : List Source} (h : s ∉ gone) :
    left gone (s :: rest) = s :: left gone rest := by
  simp [left, h]

theorem left_left (gone more list : List Source) :
    left more (left gone list) = left (gone ++ more) list := by
  simp [left, List.filter_filter, Bool.and_comm]

theorem left_singleton {list : List Source} (h : list.Nodup) (s : Source) :
    left [s] list = list.erase s := by
  rw [h.erase_eq_filter]
  refine List.filter_congr fun t _ => ?_
  by_cases ht : t = s <;> simp [ht]

theorem erase_append_left_singleton {added gone list : List Source} (s : Source)
    (h : (added ++ left gone list).Nodup) :
    ∃ added', (added ++ left gone list).erase s = added' ++ left (gone ++ [s]) list := by
  have hleft : left (gone ++ [s]) list = (left gone list).erase s := by
    rw [← left_left, left_singleton (List.nodup_append.mp h).2.1]
  rw [hleft]
  by_cases hs : s ∈ added
  · have hnot : s ∉ left gone list := fun hl => (List.nodup_append.mp h).2.2 s hs s hl rfl
    exact ⟨added.erase s, by rw [List.erase_append_left _ hs, List.erase_of_not_mem hnot]⟩
  · exact ⟨added, List.erase_append_right _ hs⟩

/-- `l` is a loop whose list was `list` when the walk began; `gone` was removed since and
other sources may have been added in front. -/
structure Since (list : List Source) (number : Source → Nat) (gone : List Source)
    (l : SigLoop) : Prop where
  kept : ∃ added, l.list = added ++ left gone list
  number : ∀ s ∈ list, l.number s = number s
  removed : ∀ s ∈ list, s ∈ gone → s ∈ l.removed

theorem Since.start (l : SigLoop) : Since l.list l.number [] l where
  kept := ⟨[], by simp [left]⟩
  number := fun _ _ => rfl
  removed := by simp

section Since

variable {list gone : List Source} {number : Source → Nat} {l : SigLoop}

theorem Since.mem_list (h : Since list number gone l) (hs : s ∈ list) (hgone : s ∉ gone) :
    s ∈ l.list := by
  obtain ⟨added, hadded⟩ := h.kept
  rw [hadded]
  exact List.mem_append_right added (mem_left.mpr ⟨hs, hgone⟩)

theorem Since.addSignal (h : Since list number gone l) (s : Source) (n : Nat) :
    Since list number gone (l.addSignal s n) := by
  unfold SigLoop.addSignal
  split
  · next hfresh =>
    constructor
    · obtain ⟨added, hadded⟩ := h.kept
      exact ⟨s :: added, by simp [hadded]⟩
    · intro t ht
      have hts : t ≠ s := by
        rintro rfl
        by_cases hgone : t ∈ gone
        · exact hfresh.2 (h.removed t ht hgone)
        · exact hfresh.1 (h.mem_list ht hgone)
      simpa [hts] using h.number t ht
    · exact h.removed
  · exact h

theorem Since.remove (h : Since list number gone l) (s : Source) :
    Since list number (gone ++ [s]) (l.remove s) := by
  obtain ⟨added, hadded⟩ := h.kept
  obtain ⟨added', herase⟩ := erase_append_left_singleton s (hadded ▸ l.nodup)
  rw [← hadded] at herase
  unfold SigLoop.remove
  split
  · next hmem =>
    refine ⟨⟨added', herase⟩, h.number, fun t ht hgone => ?_⟩
    rcases List.mem_append.mp hgone with hgone | hts
    · exact List.mem_cons_of_mem s (h.removed t ht hgone)
    · exact List.mem_singleton.mp hts ▸ List.mem_cons_self
  · next hmem =>
    rw [List.erase_of_not_mem hmem] at herase
    refine ⟨⟨added', herase⟩, h.number, fun t ht hgone => ?_⟩
    by_cases hold : t ∈ gone
    · exact h.removed t ht hold
    · have hts : t = s := by simpa [hold] using hgone
      exact absurd (h.mem_list ht hold) (hts ▸ hmem)

theorem Since.applyAll (h : Since list number gone l) (ops : List SigOp) :
    Since list number (gone ++ removals ops) (l.applyAll ops) := by
  induction ops generalizing l gone with
  | nil => simpa [removals, SigLoop.applyAll] using h
  | cons op ops ih =>
    cases op with
    | addSignal s n => exact ih (h.addSignal s n)
    | remove s =>
      have hrest := ih (h.remove s)
      rwa [List.append_assoc] at hrest

end Since

theorem nextIn_append {before after : List Source} (h : s ∉ before) :
    nextIn (before ++ s :: after) s = firstLink after := by
  induction before with
  | nil => simp [nextIn]
  | cons t before ih =>
    have ht : t ≠ s := fun heq => h (heq ▸ List.mem_cons_self)
    have hrest := ih fun hmem => h (List.mem_cons_of_mem t hmem)
    simpa [nextIn, ht] using hrest

theorem nextIn_of_not_mem {list : List Source} (h : s ∉ list) : nextIn list s = .null := by
  induction list with
  | nil => rfl
  | cons t rest ih =>
    have ht : t ≠ s := fun heq => h (heq ▸ List.mem_cons_self)
    have hrest := ih fun hmem => h (List.mem_cons_of_mem t hmem)
    simpa [nextIn, ht] using hrest

section Walk

variable (number : Source → Nat) (n : Nat) (run : Source → List SigOp)

/-- The sources called on the way through the list, when the links hold. -/
def visited : List Source → List Source → List Source
  | _, [] => []
  | gone, s :: rest =>
    if s ∈ gone ∨ number s ≠ n then visited gone rest
    else s :: visited (gone ++ removals (run s)) rest

/-- No callback that is called on the way removes the source that comes next. -/
def NextKept : List Source → List Source → Prop
  | _, [] => True
  | gone, s :: rest =>
    if s ∈ gone ∨ number s ≠ n then NextKept gone rest
    else (∀ t ∈ (left gone rest).head?, .remove t ∉ run s) ∧
      NextKept (gone ++ removals (run s)) rest

variable {number n run} {list before rest gone : List Source} {l : SigLoop} {fuel : Nat}

/-- At a source that was not removed, the next one is the first that is left after it. -/
theorem Since.nextIn_eq (h : Since list number gone l) (hlist : list = before ++ s :: rest)
    (hs : s ∉ gone) : nextIn l.list s = firstLink (left gone rest) := by
  obtain ⟨added, hadded⟩ := h.kept
  rw [hlist, left_append, left_cons_of_not_mem hs, ← List.append_assoc] at hadded
  have hnodup := hadded ▸ l.nodup
  rw [hadded]
  refine nextIn_append fun hmem => ?_
  exact (List.nodup_append.mp hnodup).2.2 s hmem s List.mem_cons_self rfl

theorem walk_removed (hlist : s ∉ l.list) (hremoved : s ∈ l.removed) :
    walk n run fuel l (.at s) = none := by
  cases fuel with
  | zero => rfl
  | succ fuel =>
    simp only [walk, hremoved, or_true, if_true, nextIn_of_not_mem hlist]
    cases fuel <;> rfl

theorem firstLink_kept {more : List Source} (h : ∀ t ∈ (left gone rest).head?, t ∉ more) :
    firstLink (left (gone ++ more) rest) = firstLink (left gone rest) := by
  rw [← left_left]
  cases hleft : left gone rest with
  | nil => rfl
  | cons t after =>
    rw [hleft] at h
    rw [left_cons_of_not_mem (h t rfl)]
    rfl

/-- A source of the number is called, and the walk goes on in what its callback leaves. -/
theorem Since.walk_called (h : Since list number gone l) (hlist : list = before ++ s :: rest)
    (hs : s ∉ gone) (hn : number s = n) :
    walk n run (fuel + 1) l (.at s) =
      (walk n run fuel (l.applyAll (run s)) (firstLink (left gone rest))).map
        fun r => (r.1, s :: r.2) := by
  have hmem : s ∈ list := by simp [hlist]
  have hlive : s ∉ l.removed := l.apart s (h.mem_list hmem hs)
  have hnumber : l.number s = number s := h.number s hmem
  simp [walk, hnumber, hn, hlive, h.nextIn_eq hlist hs]

theorem Since.walk_skipped (h : Since list number gone l) (hlist : list = before ++ s :: rest)
    (hs : s ∉ gone) (hn : number s ≠ n) :
    walk n run (fuel + 1) l (.at s) = walk n run fuel l (firstLink (left gone rest)) := by
  have hmem : s ∈ list := by simp [hlist]
  have hlive : s ∉ l.removed := l.apart s (h.mem_list hmem hs)
  have hnumber : l.number s = number s := h.number s hmem
  simp [walk, hnumber, hn, hlive, h.nextIn_eq hlist hs]

/-- The walk crashes where the source that comes next was removed. -/
theorem Since.walk_crashes {more : List SigOp}
    (h : Since list number (gone ++ removals more) l) (hrest : ∀ t ∈ rest, t ∈ list)
    {t : Source} (ht : t ∈ (left gone rest).head?) (hremove : .remove t ∈ more) :
    walk n run fuel l (firstLink (left gone rest)) = none := by
  obtain ⟨after, hleft⟩ := List.head?_eq_some_iff.mp ht
  have htlist : t ∈ list := hrest t (mem_left.mp (hleft ▸ List.mem_cons_self)).1
  have htgone : t ∈ gone ++ removals more :=
    List.mem_append_right gone (mem_removals_iff.mpr hremove)
  have htremoved := h.removed t htlist htgone
  rw [hleft]
  exact walk_removed (fun hin => l.apart t hin htremoved) htremoved

/-- The induction is on the part of the list, as it was at the start, that the walk has
still to pass. -/
theorem walk_since (h : Since list number gone l) (hlist : list = before ++ rest)
    (hfuel : rest.length + 1 < fuel) :
    (NextKept number n run gone rest →
      ∃ l', walk n run fuel l (firstLink (left gone rest)) =
        some (l', visited number n run gone rest)) ∧
    (¬ NextKept number n run gone rest →
      walk n run fuel l (firstLink (left gone rest)) = none) := by
  induction rest generalizing gone l before fuel with
  | nil =>
    obtain ⟨fuel, rfl⟩ : ∃ k, fuel = k + 1 := ⟨fuel - 1, by omega⟩
    exact ⟨fun _ => ⟨l, rfl⟩, fun hnot => absurd trivial hnot⟩
  | cons s rest ih =>
    have hlist' : list = (before ++ [s]) ++ rest := by simp [hlist]
    rw [List.length_cons] at hfuel
    by_cases hs : s ∈ gone
    · have hfuel' : rest.length + 1 < fuel := by omega
      have hrest := ih h hlist' hfuel'
      simpa [left_cons_of_mem hs, NextKept, visited, hs] using hrest
    · obtain ⟨fuel, rfl⟩ : ∃ k, fuel = k + 1 := ⟨fuel - 1, by omega⟩
      have hfuel' : rest.length + 1 < fuel := by omega
      rw [left_cons_of_not_mem hs, firstLink]
      by_cases hn : number s = n
      · have hafter := h.applyAll (run s)
        rw [h.walk_called hlist hs hn]
        simp only [NextKept, visited, hs, hn, false_or, ne_eq, not_true, if_false]
        by_cases hkeep : ∀ t ∈ (left gone rest).head?, .remove t ∉ run s
        · have hfirst := firstLink_kept fun t ht => mt mem_removals_iff.mp (hkeep t ht)
          have hrest := ih hafter hlist' hfuel'
          rw [hfirst] at hrest
          constructor
          · intro hkept
            obtain ⟨l', hl'⟩ := hrest.1 hkept.2
            exact ⟨l', by rw [hl', Option.map_some]⟩
          · intro hnot
            rw [hrest.2 fun hkept => hnot ⟨hkeep, hkept⟩, Option.map_none]
        · constructor
          · exact fun hkept => absurd hkept.1 hkeep
          · intro _
            simp only [not_forall, not_not] at hkeep
            obtain ⟨t, ht, hremove⟩ := hkeep
            rw [hafter.walk_crashes (fun u hu => by simp [hlist, hu]) ht hremove, Option.map_none]
      · have hrest := ih h hlist' hfuel'
        simpa [h.walk_skipped hlist hs hn, NextKept, visited, hn] using hrest

theorem visited_subset (h : s ∈ visited number n run gone rest) : s ∈ rest := by
  induction rest generalizing gone with
  | nil => exact h
  | cons u rest ih =>
    unfold visited at h
    split at h
    · exact List.mem_cons_of_mem u (ih h)
    · rcases List.mem_cons.mp h with rfl | h
      · exact List.mem_cons_self
      · exact List.mem_cons_of_mem u (ih h)

/-- The callback of a source that was called removed `s` before the turn of `s`. -/
def RemovedBefore (run : Source → List SigOp) (list called : List Source) (s : Source) : Prop :=
  ∃ t ∈ called, [t, s].Sublist list ∧ .remove s ∈ run t

theorem visited_count (hnodup : rest.Nodup) (hs : s ∈ rest) (hn : number s = n)
    (hgone : s ∉ gone) (hnot : ¬ RemovedBefore run rest (visited number n run gone rest) s) :
    (visited number n run gone rest).count s = 1 := by
  induction rest generalizing gone with
  | nil => cases hs
  | cons u rest ih =>
    have hrest : rest.Nodup := (List.nodup_cons.mp hnodup).2
    by_cases hu : u ∈ gone ∨ number u ≠ n
    · have hsu : s ≠ u := by
        rintro rfl
        exact hu.elim hgone fun hne => hne hn
      simp only [visited, hu, if_true] at hnot ⊢
      refine ih hrest ((List.mem_cons.mp hs).resolve_left hsu) hgone ?_
      rintro ⟨t, ht, hsub, hremove⟩
      exact hnot ⟨t, ht, hsub.cons u, hremove⟩
    · simp only [visited, hu, if_false] at hnot ⊢
      by_cases hsu : s = u
      · subst hsu
        have hlater : s ∉ visited number n run (gone ++ removals (run s)) rest :=
          fun hin => (List.nodup_cons.mp hnodup).1 (visited_subset hin)
        rw [List.count_cons_self, List.count_eq_zero_of_not_mem hlater]
      · have hin : s ∈ rest := (List.mem_cons.mp hs).resolve_left hsu
        have hkept : .remove s ∉ run u := fun hremove =>
          hnot ⟨u, List.mem_cons_self, (List.singleton_sublist.mpr hin).cons_cons u, hremove⟩
        have hgone' : s ∉ gone ++ removals (run u) := by
          simp [hgone, mem_removals_iff, hkept]
        rw [List.count_cons_of_ne (Ne.symm hsu)]
        refine ih hrest hin hgone' ?_
        rintro ⟨t, ht, hsub, hremove⟩
        exact hnot ⟨t, List.mem_cons_of_mem u ht, hsub.cons u, hremove⟩

end Walk

/-- The walk came to its end, and each source that watched the signal at the event's turn
and was not removed before its own was called exactly once. -/
def Delivered (l : SigLoop) (n : Nat) (run : Source → List SigOp)
    (result : Option (SigLoop × List Source)) : Prop :=
  ∃ l' called, result = some (l', called) ∧ ∀ s ∈ l.list, l.number s = n →
    ¬ RemovedBefore run l.list called s → called.count s = 1

/-- The source the event was fetched with is still there, or nobody watches the signal any
more; and no callback removes the source that is next in the list. -/
def LinksHold (l : SigLoop) (n : Nat) (udata : Source) (run : Source → List SigOp) : Prop :=
  if udata ∈ l.removed then ∀ s ∈ l.list, l.number s ≠ n
  else NextKept l.number n run [] l.list

/-- An event that is not dispatched is due to nobody only when nobody watches its signal. -/
theorem delivered_none_iff (l : SigLoop) (n : Nat) (run : Source → List SigOp) :
    Delivered l n run (some (l, [])) ↔ ∀ s ∈ l.list, l.number s ≠ n := by
  constructor
  · rintro ⟨l', called, hresult, hcount⟩ s hs hn
    obtain ⟨rfl, rfl⟩ : l = l' ∧ [] = called := by simpa using hresult
    have hzero := hcount s hs hn (by simp [RemovedBefore])
    simp at hzero
  · intro hnobody
    exact ⟨l, [], rfl, fun s hs hn => absurd hn (hnobody s hs)⟩

theorem delivered_iff (l : SigLoop) (n : Nat) (udata : Source) (run : Source → List SigOp) :
    Delivered l n run (dispatchSignal l n udata run) ↔ LinksHold l n udata run := by
  unfold dispatchSignal LinksHold
  split
  · exact delivered_none_iff l n run
  · have hfuel : l.list.length + 1 < l.list.length + 2 := Nat.lt_succ_self _
    have hwalk := @walk_since l.number n run l.list [] l.list [] l _ (Since.start l) rfl hfuel
    have hall : left [] l.list = l.list := by simp [left]
    rw [hall] at hwalk
    constructor
    · rintro ⟨l', called, hresult, _⟩
      by_contra hnot
      rw [hwalk.2 hnot] at hresult
      cases hresult
    · intro hkept
      obtain ⟨l', hl'⟩ := hwalk.1 hkept
      exact ⟨l', _, hl', fun s hs hn hnot => visited_count l.nodup hs hn List.not_mem_nil hnot⟩

/-- What one `wl_event_loop_dispatch` meets after its timers: an event of a signal, with
what each callback does, or another event or source and the calls it makes. -/
inductive BatchEvent where
  | signal (n : Nat) (run : Source → List SigOp)
  | other (ops : List SigOp)

inductive Fetched where
  | signal (n : Nat) (udata : Source) (run : Source → List SigOp)
  | other (ops : List SigOp)

/-- `kevent` returns no event of a signal that has no knote. -/
def SigLoop.fetch (l : SigLoop) (batch : List BatchEvent) : List Fetched :=
  batch.filterMap fun event =>
    match event with
    | .signal n run => (l.knotes n).map fun udata => .signal n udata run
    | .other ops => some (.other ops)

def dispatchEvent (l : SigLoop) : Fetched → Option SigLoop
  | .signal n udata run => (dispatchSignal l n udata run).map fun r => r.1
  | .other ops => some (l.applyAll ops)

/-- `wl_event_loop_process_destroy_list`. -/
def SigLoop.processDestroyList (l : SigLoop) : SigLoop :=
  { l with removed := [], apart := fun _ _ => List.not_mem_nil }

/-- `wl_event_loop_dispatch`: the events are fetched before the timers are dispatched, and
`timers` are the calls that the timers' callbacks make. It is `none` when
`wl_timer_heap_dispatch` fails, which it does before the first callback. -/
def dispatch (l : SigLoop) (timers : Option (List SigOp)) (batch : List BatchEvent) :
    Option SigLoop :=
  match timers with
  -- `return -1`: the fetched events and the destroy list are left as they are
  | none => some l
  | some ops =>
    ((l.fetch batch).foldlM dispatchEvent (l.applyAll ops)).map SigLoop.processDestroyList

inductive LoopOp where
  | call (op : SigOp)
  | dispatch (timers : Option (List SigOp)) (batch : List BatchEvent)

def loopStep (l : SigLoop) : LoopOp → Option SigLoop
  | .call op => some (l.apply op)
  | .dispatch timers batch => dispatch l timers batch

/-- A signal has a knote exactly when a source watches it, and the `udata` is one that does. -/
def KnotesRight (l : SigLoop) : Prop :=
  ∀ n, ((l.knotes n).isSome ↔ ∃ s ∈ l.list, l.number s = n) ∧
    ∀ s, l.knotes n = some s → s ∈ l.list ∧ l.number s = n

theorem knotesRight (l : SigLoop) : KnotesRight l := by
  intro n
  refine ⟨⟨fun hsome => ?_, ?_⟩, fun s hs => l.udata n s hs⟩
  · obtain ⟨s, hs⟩ := Option.isSome_iff_exists.mp hsome
    exact ⟨s, l.udata n s hs⟩
  · rintro ⟨s, hs, rfl⟩
    exact Option.isSome_iff_ne_none.mpr (l.knoted s hs)

def EventDelivered (l : SigLoop) : Fetched → Prop
  | .signal n udata run => Delivered l n run (dispatchSignal l n udata run)
  | .other _ => True

def EventLinksHold (l : SigLoop) : Fetched → Prop
  | .signal n udata run => LinksHold l n udata run
  | .other _ => True

/-- Every event of the dispatch is delivered at its turn. An event that never has a turn
calls nobody. -/
def BatchDelivered (l : SigLoop) : LoopOp → Prop
  | .call _ => True
  | .dispatch none batch =>
    ∀ n udata run, Fetched.signal n udata run ∈ l.fetch batch → Delivered l n run (some (l, []))
  | .dispatch (some ops) batch =>
    Run.OkSteps dispatchEvent EventDelivered (l.applyAll ops) (l.fetch batch)

/-- The links hold for every event of the dispatch at its turn; a dispatch that fails in its
timers has fetched no event of a signal that is watched. -/
def BatchLinksHold (l : SigLoop) : LoopOp → Prop
  | .call _ => True
  | .dispatch none batch =>
    ∀ n run, BatchEvent.signal n run ∈ batch → ∀ s ∈ l.list, l.number s ≠ n
  | .dispatch (some ops) batch =>
    Run.OkSteps dispatchEvent EventLinksHold (l.applyAll ops) (l.fetch batch)

theorem mem_fetch_signal {l : SigLoop} {batch : List BatchEvent} {udata : Source}
    {run : Source → List SigOp} : Fetched.signal n udata run ∈ l.fetch batch ↔
      BatchEvent.signal n run ∈ batch ∧ l.knotes n = some udata := by
  simp only [SigLoop.fetch, List.mem_filterMap]
  constructor
  · rintro ⟨event, hmem, hfetched⟩
    cases event with
    | signal m run' =>
      obtain ⟨u, hu, heq⟩ := Option.map_eq_some_iff.mp hfetched
      cases heq
      exact ⟨hmem, hu⟩
    | other ops => simp at hfetched
  · rintro ⟨hmem, hknote⟩
    exact ⟨_, hmem, by simp [hknote]⟩

theorem eventDelivered_iff (l : SigLoop) (event : Fetched) :
    EventDelivered l event ↔ EventLinksHold l event := by
  cases event with
  | signal n udata run => exact delivered_iff l n udata run
  | other ops => exact Iff.rfl

theorem batchDelivered_iff (l : SigLoop) (op : LoopOp) :
    BatchDelivered l op ↔ BatchLinksHold l op := by
  cases op with
  | call op => exact Iff.rfl
  | dispatch timers batch =>
    cases timers with
    | some ops => exact Run.okSteps_congr eventDelivered_iff _ _
    | none =>
      simp only [BatchDelivered, BatchLinksHold, mem_fetch_signal, delivered_none_iff]
      constructor
      · intro h m run hmem s hs hn
        obtain ⟨udata, hu⟩ := Option.ne_none_iff_exists'.mp (l.knoted s hs)
        rw [hn] at hu
        exact h m udata run ⟨hmem, hu⟩ s hs hn
      · exact fun h m _ run hfetched => h m run hfetched.1

theorem signals_delivered_iff_links_hold (ops : List LoopOp) :
    (Run.Throughout loopStep KnotesRight SigLoop.create ops ∧
      Run.OkSteps loopStep BatchDelivered SigLoop.create ops) ↔
    Run.OkSteps loopStep BatchLinksHold SigLoop.create ops := by
  rw [Run.okSteps_congr batchDelivered_iff]
  exact and_iff_right (Run.throughout_of_forall knotesRight _ _)

/-- Two sources watch signal 10. Its event carries the younger one, which another callback
of the same batch removes first. -/
def staleEvent : List LoopOp :=
  [.call (.addSignal 1 10), .call (.addSignal 2 10),
    .dispatch (some []) [.other [.remove 2], .signal 10 fun _ => []]]

theorem surviving_source_not_called :
    ¬ ∀ ops, Run.Throughout loopStep KnotesRight SigLoop.create ops ∧
      Run.OkSteps loopStep BatchDelivered SigLoop.create ops := by
  intro h
  have hbatch := ((((h staleEvent).2.2 _ rfl).2 _ rfl).1.2 _ rfl).1
  obtain ⟨l', called, hresult, hcount⟩ := hbatch
  have hnone : [] = called := congrArg Prod.snd (Option.some.inj hresult)
  subst hnone
  have honce := hcount 1 List.mem_cons_self rfl (by simp [RemovedBefore])
  cases honce

end DeltaPorts.Wayland

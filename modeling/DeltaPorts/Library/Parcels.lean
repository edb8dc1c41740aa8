import Mathlib.Data.List.Infix

/-!
# Parcels in a tree of files

A parcel is a set of files with a place in a tree. An archiver unpacks it there; what it makes
of files that are in the way is left open, but it touches no file elsewhere. A tree whose
files are accounted for by parcels is ready for another one that is apart from these.
-/

set_option autoImplicit false

universe u v

namespace Parcels

variable {Name : Type u} {Content : Type v}

/-- The files of a directory, by their paths from it. -/
abbrev Tree (Name : Type u) (Content : Type v) := List Name → Option Content

/-- Neither path is the other one or lies below it. -/
def Apart (p q : List Name) : Prop := ¬ p <+: q ∧ ¬ q <+: p

theorem Apart.symm {p q : List Name} (h : Apart p q) : Apart q p := ⟨h.2, h.1⟩

theorem not_apart_of_below {p q x : List Name} (hp : p <+: x) (hq : q <+: x) : ¬ Apart p q := by
  rintro ⟨hpq, hqp⟩
  rcases List.prefix_or_prefix_of_prefix hp hq with h | h
  · exact hpq h
  · exact hqp h

structure Parcel (Name : Type u) (Content : Type v) where
  place : List Name
  content : Tree Name Content
  /-- No file of the parcel is a directory of it. -/
  proper : ∀ r r', content r ≠ none → content r' ≠ none → r <+: r' → r = r'

variable {t : Tree Name Content} {p q : Parcel Name Content} {x : List Name}

/-- The tree has just the files of the parcel at its place. -/
def Holds (t : Tree Name Content) (p : Parcel Name Content) : Prop :=
  ∀ r, t (p.place ++ r) = p.content r

/-- Nothing is in the way of the parcel; some files of it may be there already. -/
structure Ready (t : Tree Name Content) (p : Parcel Name Content) : Prop where
  own : ∀ r, t (p.place ++ r) = none ∨ t (p.place ++ r) = p.content r
  above : ∀ x, x <+: p.place → x ≠ p.place → t x = none

structure Archiver (Name : Type u) (Content : Type v) where
  unpack : Tree Name Content → Parcel Name Content → Tree Name Content
  /-- The exit status. -/
  ok : Tree Name Content → Parcel Name Content → Bool
  elsewhere : ∀ t p x, ¬ p.place <+: x → unpack t p x = t x
  mixed : ∀ t p r, unpack t p (p.place ++ r) = none ∨
    unpack t p (p.place ++ r) = t (p.place ++ r) ∨ unpack t p (p.place ++ r) = p.content r
  onto : ∀ t p, Ready t p → Holds (unpack t p) p

theorem Holds.congr {t' : Tree Name Content} (h : Holds t p)
    (heq : ∀ x, p.place <+: x → t' x = t x) : Holds t' p := by
  intro r
  rw [heq _ (List.prefix_append p.place r)]
  exact h r

theorem Holds.unpack (h : Holds t p) (a : Archiver Name Content) (hapart : Apart q.place p.place) :
    Holds (a.unpack t q) p :=
  h.congr fun x hx => a.elsewhere t q x fun hq => not_apart_of_below hq hx hapart

section Remove
variable [DecidableEq Name]

/-- `rm -rf` of some places. -/
def remove (places : List (List Name)) (t : Tree Name Content) : Tree Name Content :=
  fun x => if places.any fun d => d.isPrefixOf x then none else t x

theorem remove_of_below {places : List (List Name)} {d : List Name} (hd : d ∈ places)
    (hx : d <+: x) : remove places t x = none := by
  have hany : (places.any fun d => d.isPrefixOf x) = true :=
    List.any_eq_true.mpr ⟨d, hd, List.isPrefixOf_iff_prefix.mpr hx⟩
  exact if_pos hany

theorem remove_of_not_below {places : List (List Name)} (h : ∀ d ∈ places, ¬ d <+: x) :
    remove places t x = t x := by
  refine if_neg fun hany => ?_
  obtain ⟨d, hd, hpre⟩ := List.any_eq_true.mp hany
  exact h d hd (List.isPrefixOf_iff_prefix.mp hpre)

theorem Holds.remove {places : List (List Name)} (h : Holds t p)
    (hapart : ∀ d ∈ places, Apart d p.place) : Holds (remove places t) p :=
  h.congr fun _ hx => remove_of_not_below fun d hd hd' => not_apart_of_below hd' hx (hapart d hd)

end Remove

/-- The parcel has the content at the path. -/
def Parcel.Gives (p : Parcel Name Content) (x : List Name) (c : Option Content) : Prop :=
  ∃ r, x = p.place ++ r ∧ c = p.content r

/-- Each file is one of a parcel that satisfies `P`, or it lies at a path of `other`. -/
def Explained (P : Parcel Name Content → Prop) (other : List Name → Prop)
    (t : Tree Name Content) : Prop :=
  ∀ x, t x ≠ none → (∃ p, P p ∧ p.Gives x (t x)) ∨ other x

variable {P P' : Parcel Name Content → Prop} {other other' : List Name → Prop}

theorem Explained.mono (h : Explained P other t) (hP : ∀ p, P p → P' p)
    (hother : ∀ x, other x → other' x) : Explained P' other' t := by
  intro x hx
  rcases h x hx with ⟨p, hp, hgives⟩ | hx
  · exact .inl ⟨p, hP p hp, hgives⟩
  · exact .inr (hother x hx)

theorem Explained.unpack (h : Explained P other t) (a : Archiver Name Content)
    (p : Parcel Name Content) : Explained (fun q => P q ∨ q = p) other (a.unpack t p) := by
  intro x hx
  have hold (heq : a.unpack t p x = t x) :
      (∃ q, (P q ∨ q = p) ∧ q.Gives x (a.unpack t p x)) ∨ other x := by
    rw [heq] at hx ⊢
    exact h.mono (fun q hq => .inl hq) (fun _ hx => hx) x hx
  by_cases hpre : p.place <+: x
  · obtain ⟨r, rfl⟩ := hpre
    rcases a.mixed t p r with hnone | heq | hcontent
    · exact absurd hnone hx
    · exact hold heq
    · exact .inl ⟨p, .inr rfl, r, rfl, hcontent⟩
  · exact hold (a.elsewhere t p x hpre)

theorem Explained.remove [DecidableEq Name] {places : List (List Name)} (h : Explained P other t) :
    Explained (fun p => P p ∧ ∀ d ∈ places, ¬ d <+: p.place) other (Parcels.remove places t) := by
  intro x hx
  have hfree : ∀ d ∈ places, ¬ d <+: x := fun d hd hpre => hx (remove_of_below hd hpre)
  rw [remove_of_not_below hfree] at hx ⊢
  rcases h x hx with ⟨p, hp, r, rfl, hc⟩ | hx
  · refine .inl ⟨p, ⟨hp, fun d hd hpre => ?_⟩, r, rfl, hc⟩
    exact hfree d hd (hpre.trans (List.prefix_append p.place r))
  · exact .inr hx

theorem Explained.ready (h : Explained P other t)
    (hP : ∀ q, P q → Apart q.place p.place ∨ q = p)
    (hother : ∀ x, other x → Apart x p.place) : Ready t p := by
  constructor
  · intro r
    by_cases hnone : t (p.place ++ r) = none
    · exact .inl hnone
    · have hpre := List.prefix_append p.place r
      rcases h _ hnone with ⟨q, hq, r', heq, hc⟩ | hx
      · rcases hP q hq with hapart | rfl
        · have hq' : q.place <+: p.place ++ r := ⟨r', heq.symm⟩
          exact absurd hapart (not_apart_of_below hq' hpre)
        · rw [List.append_cancel_left heq]
          rw [← heq]
          exact .inr hc
      · exact absurd hpre (hother _ hx).2
  · intro x hx hne
    by_contra hfile
    rcases h x hfile with ⟨q, hq, r, rfl, _⟩ | hx'
    · have hqp : q.place <+: p.place := (List.prefix_append q.place r).trans hx
      rcases hP q hq with hapart | rfl
      · exact hapart.1 hqp
      · exact hne (hx.eq_of_length_le (List.prefix_append _ _).length_le)
    · exact (hother x hx').1 hx

def unpackAll (a : Archiver Name Content) (t : Tree Name Content)
    (ps : List (Parcel Name Content)) : Tree Name Content := ps.foldl a.unpack t

variable {a : Archiver Name Content} {ps : List (Parcel Name Content)}

theorem Holds.unpackAll (h : Holds t p) (hapart : ∀ q ∈ ps, Apart q.place p.place) :
    Holds (unpackAll a t ps) p := by
  induction ps generalizing t with
  | nil => exact h
  | cons q ps ih =>
    exact ih (h.unpack a (hapart q List.mem_cons_self))
      fun q' hq' => hapart q' (List.mem_cons_of_mem q hq')

theorem Explained.unpackAll (h : Explained P other t) :
    Explained (fun q => P q ∨ q ∈ ps) other (unpackAll a t ps) := by
  induction ps generalizing t P with
  | nil => exact h.mono (fun q hq => .inl hq) fun _ hx => hx
  | cons p ps ih =>
    refine (ih (h.unpack a p)).mono (fun q hq => ?_) fun _ hx => hx
    rcases hq with (hq | rfl) | hq
    · exact .inl hq
    · exact .inr List.mem_cons_self
    · exact .inr (List.mem_cons_of_mem p hq)

/-- Parcels that are apart from each other and from what is there are all held in the end. -/
theorem Explained.holds_unpackAll (h : Explained P other t)
    (hps : ps.Pairwise fun p q => Apart p.place q.place)
    (hP : ∀ p ∈ ps, ∀ q, P q → Apart q.place p.place ∨ q = p)
    (hother : ∀ p ∈ ps, ∀ x, other x → Apart x p.place) :
    ∀ p ∈ ps, Holds (Parcels.unpackAll a t ps) p := by
  induction ps generalizing t P with
  | nil =>
    intro p hp
    cases hp
  | cons p ps ih =>
    obtain ⟨hfirst, hrest⟩ := List.pairwise_cons.mp hps
    have hready : Ready t p := h.ready (hP p List.mem_cons_self) (hother p List.mem_cons_self)
    have hlater := ih (h.unpack a p) hrest (fun q hq q' hq' => ?_)
      fun q hq => hother q (List.mem_cons_of_mem p hq)
    · intro q hq
      rcases List.mem_cons.mp hq with heq | hq
      · have hheld : Holds (Parcels.unpackAll a (a.unpack t p) ps) p :=
          (a.onto t p hready).unpackAll fun q' hq' => (hfirst q' hq').symm
        rw [heq]
        exact hheld
      · exact hlater q hq
    · rcases hq' with hq' | rfl
      · exact hP q (List.mem_cons_of_mem p hq) q' hq'
      · exact .inl (hfirst q hq)

end Parcels

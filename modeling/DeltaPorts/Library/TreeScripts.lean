import DeltaPorts.Library.Parcels

/-!
# Scripts of commands on a tree of files

A command writes at some paths only, and one that fails leaves there what it likes. A script goes
on behind a command that fails. It fails itself if it looks at the status of such a command. What
a script makes does not show what was at the paths where it writes, if it writes there before it
reads: then it can be run again after a failure.
-/

set_option autoImplicit false

universe u v

namespace TreeScripts

open Parcels (Tree)

variable {Name : Type u} {Content : Type v}

/-- The files are the same but for those at the paths of `P`. -/
def SameBut (P : List Name → Prop) (t t' : Tree Name Content) : Prop := ∀ x, ¬ P x → t' x = t x

variable {P Q : List Name → Prop} {t t' t'' : Tree Name Content}

theorem SameBut.mono (h : SameBut P t t') (hsub : ∀ x, P x → Q x) : SameBut Q t t' :=
  fun x hx => h x fun hp => hx (hsub x hp)

theorem SameBut.trans (h : SameBut P t t') (h' : SameBut P t' t'') : SameBut P t t'' :=
  fun x hx => (h' x hx).trans (h x hx)

theorem SameBut.eq (h : SameBut P t t') (hnone : ∀ x, ¬ P x) : t' = t :=
  funext fun x => h x (hnone x)

/-- A command: what it makes, which counts at the paths where it writes, and whether the script looks
at its status. -/
structure Instruction (Name : Type u) (Content : Type v) where
  makes : Tree Name Content → Option (Tree Name Content)
  writes : List Name → Bool
  checked : Bool

namespace Instruction

/-- `none` is a command that cannot succeed. -/
def does (c : Instruction Name Content) (t : Tree Name Content) : Option (Tree Name Content) :=
  (c.makes t).map fun made x => if c.writes x = true then made x else t x

variable {c : Instruction Name Content}

theorem does_sameBut (h : c.does t = some t') : SameBut (fun x => c.writes x = true) t t' := by
  obtain ⟨made, _, rfl⟩ := Option.map_eq_some_iff.mp h
  intro x hx
  exact if_neg hx

/-- A command that does not read at the paths of `P`. -/
def Blind (c : Instruction Name Content) (P : List Name → Prop) : Prop :=
  ∀ t t', SameBut P t t' → c.makes t' = c.makes t

theorem Blind.mono (h : c.Blind P) (hsub : ∀ x, Q x → P x) : c.Blind Q :=
  fun t t' hsame => h t t' (hsame.mono hsub)

/-- It ends alike on both trees, and where it writes they do not differ any more. -/
theorem Blind.does (h : c.Blind P) (hsame : SameBut P t t') :
    (c.does t = none ∧ c.does t' = none) ∨ ∃ u u', c.does t = some u ∧ c.does t' = some u' ∧
      SameBut (fun x => P x ∧ c.writes x = false) u u' := by
  unfold Instruction.does
  rw [h t t' hsame]
  cases c.makes t with
  | none => exact .inl ⟨rfl, rfl⟩
  | some made =>
    refine .inr ⟨_, _, rfl, rfl, fun x hx => ?_⟩
    dsimp only
    cases hwrites : c.writes x with
    | true => rfl
    | false => exact hsame x fun hp => hx ⟨hp, hwrites⟩

end Instruction

abbrev Program (Name : Type u) (Content : Type v) := List (Instruction Name Content)

/-- The script where every command succeeds. -/
def clean : Program Name Content → Tree Name Content → Option (Tree Name Content)
  | [], t => some t
  | c :: script, t => (c.does t).bind (clean script)

theorem clean_cons {c : Instruction Name Content} {script : Program Name Content}
    {t t' : Tree Name Content} (h : clean (c :: script) t = some t') :
    ∃ u, c.does t = some u ∧ clean script u = some t' := Option.bind_eq_some_iff.mp h

/-- A run of a script: `good` if no command failed whose status it looks at, and `sound` if no
other one failed. -/
inductive Runs : Program Name Content → Bool → Bool → Tree Name Content → Tree Name Content → Prop
  | nil (t : Tree Name Content) : Runs [] true true t t
  | done {c : Instruction Name Content} {script : Program Name Content} {good sound : Bool}
      {t t' t'' : Tree Name Content} : c.does t = some t' → Runs script good sound t' t'' →
      Runs (c :: script) good sound t t''
  | broken {c : Instruction Name Content} {script : Program Name Content} {good sound : Bool}
      {t t' t'' : Tree Name Content} : SameBut (fun x => c.writes x = true) t t' →
      Runs script good sound t' t'' →
      Runs (c :: script) (good && !c.checked) (sound && c.checked) t t''

variable {script rest : Program Name Content} {good sound : Bool}

theorem Runs.clean (h : Runs script good sound t t') (hgood : good = true) (hsound : sound = true) :
    clean script t = some t' := by
  induction h with
  | nil t => rfl
  | done hdoes _ ih =>
    unfold TreeScripts.clean
    rw [hdoes]
    exact ih hgood hsound
  | broken _ _ _ =>
    -- it was either looked at, or not
    rw [Bool.and_eq_true] at hgood hsound
    rw [hsound.2] at hgood
    cases hgood.2

theorem runs_of_clean (h : clean script t = some t') : Runs script true true t t' := by
  induction script generalizing t with
  | nil =>
    cases h
    exact .nil _
  | cons c script ih =>
    obtain ⟨u, hdoes, hrest⟩ := clean_cons h
    exact .done hdoes (ih hrest)

def Writes (script : Program Name Content) (x : List Name) : Prop :=
  ∃ c ∈ script, c.writes x = true

theorem Runs.sameBut (h : Runs script good sound t t') : SameBut (Writes script) t t' := by
  induction h with
  | nil t => exact fun _ _ => rfl
  | @done c script _ _ _ _ _ hdoes _ ih =>
    refine ((Instruction.does_sameBut hdoes).mono fun x hx => ?_).trans (ih.mono fun x hx => ?_)
    · exact ⟨c, List.mem_cons_self, hx⟩
    · exact hx.imp fun c hc => ⟨List.mem_cons_of_mem _ hc.1, hc.2⟩
  | @broken c script _ _ _ _ _ hsame _ ih =>
    refine (hsame.mono fun x hx => ?_).trans (ih.mono fun x hx => ?_)
    · exact ⟨c, List.mem_cons_self, hx⟩
    · exact hx.imp fun c hc => ⟨List.mem_cons_of_mem _ hc.1, hc.2⟩

/-- The script writes at each path of `P`, and before that it does not read there. -/
def Rewrites : (List Name → Prop) → Program Name Content → Prop
  | P, [] => ∀ x, ¬ P x
  | P, c :: script => c.Blind P ∧ Rewrites (fun x => P x ∧ c.writes x = false) script

theorem Rewrites.mono (h : Rewrites P script) (hsub : ∀ x, Q x → P x) : Rewrites Q script := by
  induction script generalizing P Q with
  | nil => exact fun x hx => h x (hsub x hx)
  | cons c script ih =>
    exact ⟨h.1.mono hsub, ih h.2 fun x hx => ⟨hsub x hx.1, hx.2⟩⟩

theorem rewrites_of_none (hnone : ∀ x, ¬ P x) : Rewrites P script := by
  induction script generalizing P with
  | nil => exact hnone
  | cons c script ih =>
    refine ⟨fun t t' hsame => ?_, ih fun x hx => hnone x hx.1⟩
    rw [hsame.eq hnone]

/-- A first command that reads nothing, and writes wherever the others do. -/
theorem rewrites_of_head {c : Instruction Name Content} (hblind : ∀ P, c.Blind P)
    (hcovers : ∀ c' ∈ script, ∀ x, c'.writes x = true → c.writes x = true) :
    Rewrites (Writes (c :: script)) (c :: script) := by
  refine ⟨hblind _, rewrites_of_none fun x hx => ?_⟩
  obtain ⟨⟨c', hc', hwrites⟩, hfalse⟩ := hx
  rcases List.mem_cons.mp hc' with rfl | hc'
  · exact absurd hwrites (ne_true_of_eq_false hfalse)
  · exact absurd (hcovers c' hc' x hwrites) (ne_true_of_eq_false hfalse)

theorem Rewrites.append (hblind : ∀ c ∈ script, c.Blind P) (h : Rewrites P rest) :
    Rewrites P (script ++ rest) := by
  induction script with
  | nil => exact h
  | cons c script ih =>
    refine ⟨hblind c List.mem_cons_self, ?_⟩
    exact (ih fun c' hc' => hblind c' (List.mem_cons_of_mem c hc')).mono fun x hx => hx.1

/-- Of the paths of `P`, the script does not read any where it has not written before. -/
def BlindTo : (List Name → Prop) → Program Name Content → Prop
  | _, [] => True
  | P, c :: script => c.Blind P ∧ BlindTo (fun x => P x ∧ c.writes x = false) script

theorem blindTo_of_forall (h : ∀ c ∈ script, c.Blind P) : BlindTo P script := by
  induction script generalizing P with
  | nil => trivial
  | cons c script ih =>
    refine ⟨h c List.mem_cons_self, ih fun c' hc' => ?_⟩
    exact (h c' (List.mem_cons_of_mem c hc')).mono fun x hx => hx.1

theorem BlindTo.rewrites (h : BlindTo P script)
    (hrest : Rewrites (fun x => P x ∧ ¬ Writes script x) rest) : Rewrites P (script ++ rest) := by
  induction script generalizing P with
  | nil => exact hrest.mono fun x hx => ⟨hx, fun ⟨_, hc, _⟩ => List.not_mem_nil hc⟩
  | cons c script ih =>
    refine ⟨h.1, ih h.2 (hrest.mono ?_)⟩
    rintro x ⟨⟨hx, hfalse⟩, hnot⟩
    refine ⟨hx, ?_⟩
    rintro ⟨c', hc', hwrites⟩
    rcases List.mem_cons.mp hc' with rfl | hc'
    · rw [hfalse] at hwrites
      cases hwrites
    · exact hnot ⟨c', hc', hwrites⟩

/-- Scripts that read only what they have written, one after the other. -/
theorem rewrites_flatten {scripts : List (Program Name Content)} {last : Program Name Content}
    (hblind : ∀ s ∈ scripts, ∀ P, BlindTo P s) (hlast : Rewrites (Writes last) last) :
    Rewrites (fun x => ∃ s ∈ scripts ++ [last], Writes s x) (scripts ++ [last]).flatten := by
  induction scripts with
  | nil =>
    rw [List.nil_append, List.flatten_singleton]
    refine hlast.mono ?_
    rintro x ⟨s, hs, hwrites⟩
    rwa [List.mem_singleton.mp hs] at hwrites
  | cons s scripts ih =>
    rw [List.cons_append, List.flatten_cons]
    refine (hblind s List.mem_cons_self _).rewrites
      ((ih fun s' hs' => hblind s' (List.mem_cons_of_mem s hs')).mono ?_)
    rintro x ⟨⟨s', hs', hwrites⟩, hnot⟩
    rcases List.mem_cons.mp hs' with rfl | hs'
    · exact absurd hwrites hnot
    · exact ⟨s', hs', hwrites⟩

theorem clean_append (t : Tree Name Content) :
    clean (script ++ rest) t = (clean script t).bind (clean rest) := by
  induction script generalizing t with
  | nil => rfl
  | cons c script ih =>
    rw [List.cons_append, clean, clean, Option.bind_assoc]
    exact congrArg _ (funext ih)

theorem Rewrites.clean_eq (h : Rewrites P script) (hsame : SameBut P t t') :
    clean script t' = clean script t := by
  induction script generalizing P t t' with
  | nil => rw [hsame.eq h]
  | cons c script ih =>
    unfold clean
    rcases h.1.does hsame with ⟨hnone, hnone'⟩ | ⟨u, u', hdoes, hdoes', hrest⟩
    · rw [hnone, hnone']
    · rw [hdoes, hdoes']
      exact ih h.2 hrest

/-- After any run, a script that rewrites what it writes makes the same as before it. -/
theorem Runs.clean_eq (h : Runs script good sound t t') (hrewrites : Rewrites (Writes script) script) :
    TreeScripts.clean script t' = TreeScripts.clean script t := hrewrites.clean_eq h.sameBut

end TreeScripts

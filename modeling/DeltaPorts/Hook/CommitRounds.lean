import DeltaPorts.Generator.Prune
import DeltaPorts.Generator.Worklist
import DeltaPorts.Hook.CommitDaemon
import DeltaPorts.Hook.PkgBuild

/-!
# Builds and rounds of the commit daemon

The hook and the daemon on all ports, taking turns: a run of the hook is over when the daemon
lists the queue, and a round of the daemon when the next port is built. The commands of git may
fail. What the daemon fetches from and sends to other repositories is left out.
-/

set_option autoImplicit false

namespace DeltaPorts.Hook.CommitRounds

open CommitDaemon Generator
open Shell (Text)

/-- A port that is built; no category has an underscore in its name. -/
structure Port where
  name : PortName
  noUnderscore : '_' ∉ name.category

def Port.origin (p : Port) : Origin := p.name.origin

/-- `sed -e 's|/|__|g'` -/
def queueName (origin : Origin) : Text :=
  origin.flatMap fun c => if c = '/' then "__".toList else [c]

/-- The queue file that the hook has written for a port. -/
structure Item where
  port : Port
  word : Text
  version : Text

def Item.lines (i : Item) : List Text := [i.port.origin, i.word, i.version]

def actionWord : Action → Text
  | .importPort => "Import".toList
  | .update => "Update".toList
  | .tweak => "Tweak".toList

def resultWord : Result → Text
  | .failed => "Failure".toList
  | .success => "Success".toList

/-- `DELTA/ports/<origin>/STATUS` and `DPORTS/<origin>` in their repositories, the files in
`COMQUEUE`, and the commit messages. -/
structure World where
  repo : Kind → Origin → Repo
  queue : Kind → Text → Option Item
  log : List Text

def statusPath : Path := (Prune.statusName, [])

def statusTree (status : List Text) : Tree := FileTree.single statusPath (LineTools.unlines status)

def statusOf (t : Tree) : Option (List Text) := (t.file statusPath).map LineTools.lines

def directory (t : Tree) : Option Tree := if t.paths = ∅ then none else some t

/-- The files of a port, as the hook finds them. -/
def found (w : World) (origin : Origin) : State where
  status := statusOf (w.repo .delta origin).tree
  dports := directory (w.repo .dport origin).tree
  dport := none
  delta := none

/-- The working tree that the hook leaves. -/
def writtenTree (s : State) : Kind → Option Tree
  | .delta => s.status.map statusTree
  | .dport => s.dports

def writtenItem (p : Port) (s : State) : Kind → Option Item
  | .delta => s.delta.map fun i => ⟨p, resultWord i.result, i.version⟩
  | .dport => s.dport.map fun i => ⟨p, actionWord i.action, i.version⟩

def hook (p : Port) (e : Hook.Event) (w : World) : World where
  repo kind := Function.update (w.repo kind) p.origin
    { w.repo kind p.origin with
      tree := (writtenTree (run p.origin (found w p.origin) e) kind).getD
        (w.repo kind p.origin).tree }
  queue kind := Function.update (w.queue kind) (queueName p.origin)
    ((writtenItem p (run p.origin (found w p.origin) e) kind).or
      (w.queue kind (queueName p.origin)))
  log := w.log

/-- One turn of a loop of the daemon. -/
def daemonItem (kind : Kind) (o : Outcome) (name : Text) (w : World) : World :=
  match w.queue kind name with
  | none => w
  | some item =>
    let origin := (CommitDaemon.split (oneline item.lines)).val1
    let s := turn kind o item.lines (pending (w.repo kind origin) w.log)
    { repo := Function.update w.repo kind (Function.update (w.repo kind) origin s.repo)
      queue := Function.update w.queue kind
        (Function.update (w.queue kind) name (if s.queued then some item else none))
      log := s.log }

/-- `CANDIDATES1` and `CANDIDATES2`, and what the commands of git come to. -/
structure Round where
  candidates : Kind → List Text
  outcome : Kind → Text → Outcome

def daemonLoop (kind : Kind) (r : Round) (w : World) : World :=
  (r.candidates kind).foldl (fun w name => daemonItem kind (r.outcome kind name) name w) w

def daemonRound (r : Round) (w : World) : World := daemonLoop .dport r (daemonLoop .delta r w)

inductive Event where
  | build (p : Port) (e : Hook.Event)
  | wake (r : Round)

def step (w : World) : Event → World
  | .build p e => hook p e w
  | .wake r => daemonRound r w

/-- `find` prints each file once. -/
def Lists (r : Round) (w : World) : Prop :=
  ∀ kind, (r.candidates kind).Nodup ∧ ∀ name, name ∈ r.candidates kind ↔ w.queue kind name ≠ none

/-- No turn of the round drops an item that it has not committed. -/
def SoundRound (r : Round) (w : World) : Prop :=
  ∀ kind name item, w.queue kind name = some item →
    Sound kind (r.outcome kind name) item.lines (w.repo kind item.port.origin)

def Ok (w : World) : Event → Prop
  | .build _ _ => True
  | .wake r => Lists r w ∧ SoundRound r w

def OkRun : World → List Event → Prop
  | _, [] => True
  | w, e :: events => Ok w e ∧ OkRun (step w e) events

/-- Everything is committed, and the queue is empty. -/
structure Fresh (w : World) : Prop where
  committed : ∀ kind origin, (w.repo kind origin).tree = (w.repo kind origin).head
  empty : ∀ kind name, w.queue kind name = none

def Works (o : Outcome) : Prop := o.add = true ∧ o.status = true ∧ o.commit = true

/-- What a build leaves of a port's files. -/
def builtTree (kind : Kind) (e : Hook.Event) (t : Tree) : Tree :=
  match kind, e.result with
  | .delta, _ => statusTree (newStatus e (statusOf t))
  | .dport, .success => e.potential
  | .dport, .failed => t

def built (p : Port) (kind : Kind) (t : Tree) : Event → Tree
  | .build q e => if q.origin = p.origin then builtTree kind e t else t
  | .wake _ => t

theorem queueName_of_not_mem {x : Text} (hx : '/' ∉ x) : queueName x = x := by
  unfold queueName
  induction x with
  | nil => rfl
  | cons c x ih =>
    rw [List.mem_cons, not_or] at hx
    rw [List.flatMap_cons, if_neg (Ne.symm hx.1), ih hx.2]
    rfl

theorem queueName_origin (p : Port) :
    queueName p.origin = p.name.category ++ '_' :: '_' :: p.name.port := by
  have happend (x y : Text) : queueName (x ++ y) = queueName x ++ queueName y :=
    List.flatMap_append
  have hslash (y : Text) : queueName ('/' :: y) = '_' :: '_' :: queueName y := rfl
  rw [Port.origin, PortName.origin, happend, hslash, queueName_of_not_mem p.name.noSlash.1,
    queueName_of_not_mem p.name.noSlash.2]

/-- Two ports have two queue files. -/
theorem origin_eq_of_queueName {p q : Port} (h : queueName p.origin = queueName q.origin) :
    p.origin = q.origin := by
  have htake (r : Port) : (queueName r.origin).takeWhile (· ≠ '_') = r.name.category := by
    rw [queueName_origin, List.takeWhile_append_of_pos, List.takeWhile_cons_of_neg (by simp),
      List.append_nil]
    intro c hc
    refine decide_eq_true ?_
    rintro rfl
    exact r.noUnderscore hc
  have hcategory : p.name.category = q.name.category := by rw [← htake p, h, htake q]
  rw [queueName_origin, queueName_origin, hcategory] at h
  have hport := List.append_cancel_left h
  rw [List.cons.injEq, List.cons.injEq] at hport
  rw [Port.origin, Port.origin, PortName.origin, PortName.origin, hcategory, hport.2.2]

theorem Port.origin_ne_nil (p : Port) : p.origin ≠ [] := by
  intro h
  have hmem := p.name.slash_mem
  rw [show p.name.origin = [] from h] at hmem
  cases hmem

theorem Port.origin_plain (p : Port) : Awk.Plain p.origin := p.name.origin_plain

/-- The daemon reads the origin from the first line. -/
theorem val1_lines (i : Item) :
    (CommitDaemon.split (oneline i.lines)).val1 = i.port.origin := by
  have hfield : Awk.field 1 i.port.origin = i.port.origin := field_of_plain i.port.origin_plain
  have hblank : Awk.isBlank ' ' = true := by decide
  unfold CommitDaemon.split oneline Item.lines
  rw [List.flatMap_cons, hfield, List.append_assoc, List.singleton_append]
  unfold Awk.field
  rw [Awk.words_append i.port.origin_plain i.port.origin_ne_nil (by simp [hblank])]
  rfl

theorem named_lines (kind : Kind) (i : Item) : named kind i.lines = true := by
  cases kind with
  | delta => rfl
  | dport =>
    unfold named
    rw [val1_lines]
    exact decide_eq_true i.port.origin_ne_nil

section Turn

variable {kind : Kind} {o : Outcome} {item : List Text} {repo : Repo} {log : List Text}

theorem commitTasks_tree (named : Bool) (commitmsg : Text) (s : CommitDaemon.State) :
    (commitTasks o named commitmsg s).repo.tree = s.repo.tree := by
  rcases commitTasks_cases o named commitmsg s with
    ⟨_, hrepo, _⟩ | ⟨_, _, _, hrepo, _⟩ | ⟨_, _, hrepo, _⟩
  · rw [hrepo]
  · rw [hrepo]
    cases named <;> rfl
  · rw [hrepo]

theorem turn_tree : (turn kind o item (pending repo log)).repo.tree = repo.tree := by
  cases hadd : o.add with
  | true =>
    obtain ⟨commitmsg, hturn⟩ := turn_of_added kind item (pending repo log) hadd
    rw [hturn, commitTasks_tree]
    rfl
  | false =>
    cases kind with
    | delta => rw [deltaTurn_of_failed item (pending repo log) hadd]; rfl
    | dport =>
      obtain ⟨commitmsg, hturn⟩ := dportTurn_of_failed item (pending repo log) hadd
      rw [hturn, commitTasks_tree]
      rfl

/-- In a sound turn, an item that goes is committed. -/
theorem turn_committed (hsound : Sound kind o item repo)
    (hgone : (turn kind o item (pending repo log)).queued = false) :
    (turn kind o item (pending repo log)).repo.tree =
      (turn kind o item (pending repo log)).repo.head := by
  unfold Sound at hsound
  cases hadd : o.add with
  | true =>
    rw [hadd] at hsound
    obtain ⟨commitmsg, hturn⟩ := turn_of_added kind item (pending repo log) hadd
    have hadded := @commitTasks_added o (named kind item) commitmsg
      ⟨repo.addAll, true, log, true⟩ repo rfl rfl
    rw [hturn] at hgone ⊢
    have hsound' : o.status = true ∨ repo.tree = repo.head := by
      cases kind <;> exact hsound
    exact hadded.mpr hsound' hgone
  | false =>
    rw [hadd] at hsound
    cases kind with
    | delta =>
      rw [deltaTurn_of_failed item (pending repo log) hadd] at hgone
      cases hgone
    | dport =>
      obtain ⟨commitmsg, hturn⟩ := dportTurn_of_failed item (pending repo log) hadd
      have hkept : (commitTasks o (named .dport item) commitmsg
          { pending repo log with rc := true }).queued = true :=
        (@commitTasks_keeps o (named .dport item) commitmsg ⟨repo, true, log, true⟩ rfl).mpr hsound
      rw [hturn, hkept] at hgone
      cases hgone

variable (repo log) in
/-- A turn in which all commands succeed is sound, and the item goes. -/
theorem turn_works (hworks : Works o) (hnamed : named kind item = true) :
    Sound kind o item repo ∧ (turn kind o item (pending repo log)).queued = false := by
  obtain ⟨hadd, hstatus, hcommit⟩ := hworks
  constructor
  · unfold Sound
    rw [hadd]
    cases kind <;> exact Or.inl hstatus
  · obtain ⟨commitmsg, hturn⟩ := turn_of_added kind item (pending repo log) hadd
    rw [hturn, hnamed]
    rw [← Bool.not_eq_true, commitTasks_keeps o true commitmsg rfl]
    rintro ⟨⟨_, htasks⟩, hfails⟩
    rcases hfails with hfails | hfails
    · rw [hcommit] at hfails
      cases hfails
    · exact htasks (tasks_addAll_of_nothingToCommit hfails)

end Turn

/-- Each queue file has the name of its port. -/
def Names (kind : Kind) (w : World) : Prop :=
  ∀ name item, w.queue kind name = some item → name = queueName item.port.origin

theorem Names.origin_ne {kind : Kind} {w : World} (h : Names kind w) {name name' : Text}
    {item item' : Item} (hitem : w.queue kind name = some item)
    (hitem' : w.queue kind name' = some item') (hne : name' ≠ name) :
    item'.port.origin ≠ item.port.origin := by
  intro horigin
  apply hne
  rw [h _ _ hitem, h _ _ hitem', horigin]

section Loop

variable {kind : Kind} {r : Round} {w w' : World} {name : Text} {item : Item} {o : Outcome}

theorem daemonItem_some (h : w.queue kind name = some item) : daemonItem kind o name w =
    { repo := Function.update w.repo kind (Function.update (w.repo kind) item.port.origin
        (turn kind o item.lines (pending (w.repo kind item.port.origin) w.log)).repo)
      queue := Function.update w.queue kind (Function.update (w.queue kind) name
        (if (turn kind o item.lines (pending (w.repo kind item.port.origin) w.log)).queued
          then some item else none))
      log := (turn kind o item.lines (pending (w.repo kind item.port.origin) w.log)).log } := by
  unfold daemonItem
  rw [h]
  dsimp only
  rw [val1_lines]

/-- What a loop has done to its kind when it has come past the files in `names`. -/
structure Past (kind : Kind) (r : Round) (names : List Text) (w w' : World) : Prop where
  tree : ∀ origin, (w'.repo kind origin).tree = (w.repo kind origin).tree
  queue : ∀ name, name ∉ names → w'.queue kind name = w.queue kind name
  repo : ∀ origin, (∀ name ∈ names, ∀ item, w.queue kind name = some item →
    item.port.origin ≠ origin) → w'.repo kind origin = w.repo kind origin
  kept : ∀ name ∈ names, ∀ item, w.queue kind name = some item → w'.queue kind name = some item ∨
    w'.queue kind name = none ∧
      (w'.repo kind item.port.origin).tree = (w'.repo kind item.port.origin).head
  drained : ∀ name ∈ names, Works (r.outcome kind name) → w'.queue kind name = none

structure After (kind : Kind) (r : Round) (names : List Text) (w w' : World) : Prop
    extends Past kind r names w w' where
  others : ∀ kind', kind' ≠ kind → w'.repo kind' = w.repo kind' ∧ w'.queue kind' = w.queue kind'

theorem after_concat {names : List Text} (hnames : Names kind w)
    (hsound : ∀ item, w.queue kind name = some item →
      Sound kind (r.outcome kind name) item.lines (w.repo kind item.port.origin))
    (hnew : name ∉ names) (h : After kind r names w w') (hitem : w.queue kind name = some item) :
    After kind r (names ++ [name]) w (daemonItem kind (r.outcome kind name) name w') := by
  have hqueue : w'.queue kind name = some item := (h.queue name hnew).trans hitem
  have hrepo : w'.repo kind item.port.origin = w.repo kind item.port.origin := by
    refine h.repo _ fun name' hname' item' hitem' => ?_
    exact hnames.origin_ne hitem hitem' fun heq => hnew (heq ▸ hname')
  rw [daemonItem_some hqueue, hrepo]
  generalize hturn : turn kind (r.outcome kind name) item.lines
    (pending (w.repo kind item.port.origin) w'.log) = s
  have htree : s.repo.tree = (w.repo kind item.port.origin).tree := hturn ▸ turn_tree
  have hcommitted : s.queued = false → s.repo.tree = s.repo.head := by
    intro hgone
    rw [← hturn] at hgone ⊢
    exact turn_committed (hsound item hitem) hgone
  refine ⟨⟨fun origin => ?_, fun name' hname' => ?_, fun origin horigin => ?_,
    fun name' hname' item' hitem' => ?_, fun name' hname' hworks => ?_⟩, fun kind' hne => ?_⟩
  · dsimp only
    rw [Function.update_self]
    by_cases heq : origin = item.port.origin
    · rw [heq, Function.update_self, htree]
    · rw [Function.update_of_ne heq]
      exact h.tree origin
  · rw [List.mem_append, List.mem_singleton, not_or] at hname'
    dsimp only
    rw [Function.update_self, Function.update_of_ne hname'.2]
    exact h.queue name' hname'.1
  · have hne := horigin name (List.mem_append_right _ (List.mem_singleton_self name)) item hitem
    dsimp only
    rw [Function.update_self, Function.update_of_ne hne.symm]
    exact h.repo origin fun name' hmem => horigin name' (List.mem_append_left _ hmem)
  · dsimp only
    rw [Function.update_self, Function.update_self]
    by_cases heq : name' = name
    · subst heq
      rw [hitem] at hitem'
      cases hitem'
      rw [Function.update_self, Function.update_self]
      cases hqueued : s.queued with
      | true => exact Or.inl rfl
      | false => exact Or.inr ⟨rfl, hcommitted hqueued⟩
    · have hmem : name' ∈ names := by
        rcases List.mem_append.mp hname' with hmem | hmem
        · exact hmem
        · exact absurd (List.mem_singleton.mp hmem) heq
      have horigin := hnames.origin_ne hitem hitem' heq
      rw [Function.update_of_ne heq, Function.update_of_ne horigin]
      exact h.kept name' hmem item' hitem'
  · dsimp only
    rw [Function.update_self]
    by_cases heq : name' = name
    · subst heq
      have hgone := (turn_works (w.repo kind item.port.origin) w'.log hworks
        (named_lines kind item)).2
      rw [hturn] at hgone
      rw [Function.update_self, hgone]
      rfl
    · have hmem : name' ∈ names := by
        rcases List.mem_append.mp hname' with hmem | hmem
        · exact hmem
        · exact absurd (List.mem_singleton.mp hmem) heq
      rw [Function.update_of_ne heq]
      exact h.drained name' hmem hworks
  · simp only [Function.update_of_ne hne]
    exact h.others kind' hne

theorem daemonLoop_after (hnames : Names kind w) (hnodup : (r.candidates kind).Nodup)
    (hlists : ∀ name, name ∈ r.candidates kind ↔ w.queue kind name ≠ none)
    (hsound : ∀ name item, w.queue kind name = some item →
      Sound kind (r.outcome kind name) item.lines (w.repo kind item.port.origin)) :
    After kind r (r.candidates kind) w (daemonLoop kind r w) := by
  have hloop : ∀ names, names <+: r.candidates kind → After kind r names w
      (names.foldl (fun w name => daemonItem kind (r.outcome kind name) name w) w) := by
    intro names
    induction names using List.reverseRecOn with
    | nil => exact fun _ => ⟨⟨fun _ => rfl, fun _ _ => rfl, fun _ _ => rfl, nofun, nofun⟩,
        fun _ _ => ⟨rfl, rfl⟩⟩
    | append_singleton names name ih =>
      intro hprefix
      have hmem := hprefix.subset (List.mem_append_right names (List.mem_singleton_self name))
      obtain ⟨item, hitem⟩ := Option.ne_none_iff_exists'.mp ((hlists name).mp hmem)
      have hnew : name ∉ names := by
        have hnodup' := hnodup.sublist hprefix.sublist
        exact fun h => (List.nodup_append.mp hnodup').2.2 name h name
          (List.mem_singleton_self name) rfl
      rw [List.foldl_append, List.foldl_cons, List.foldl_nil]
      exact after_concat hnames (hsound name) hnew
        (ih ((List.prefix_append names [name]).trans hprefix)) hitem
  exact hloop _ (List.prefix_refl _)

end Loop

theorem Past.congr {kind : Kind} {r : Round} {names : List Text} {w w' v v' : World}
    (h : Past kind r names w w') (hw : w.repo kind = v.repo kind ∧ w.queue kind = v.queue kind)
    (hw' : w'.repo kind = v'.repo kind ∧ w'.queue kind = v'.queue kind) :
    Past kind r names v v' where
  tree := by rw [← hw.1, ← hw'.1]; exact h.tree
  queue := by rw [← hw.2, ← hw'.2]; exact h.queue
  repo := by rw [← hw.1, ← hw'.1, ← hw.2]; exact h.repo
  kept := by rw [← hw'.1, ← hw.2, ← hw'.2]; exact h.kept
  drained := by rw [← hw'.2]; exact h.drained

theorem daemonRound_past {r : Round} {w : World} (hnames : ∀ kind, Names kind w)
    (hlists : Lists r w) (hsound : SoundRound r w) (kind : Kind) :
    Past kind r (r.candidates kind) w (daemonRound r w) := by
  have hdelta := daemonLoop_after (hnames .delta) (hlists .delta).1 (hlists .delta).2 (hsound .delta)
  have hsame := hdelta.others .dport (by decide)
  have hdport : After .dport r (r.candidates .dport) (daemonLoop .delta r w) (daemonRound r w) := by
    refine daemonLoop_after ?_ (hlists .dport).1 ?_ ?_
    · unfold Names
      rw [hsame.2]
      exact hnames .dport
    · rw [hsame.2]
      exact (hlists .dport).2
    · rw [hsame.1, hsame.2]
      exact hsound .dport
  cases kind with
  | delta =>
    have hsame' := hdport.others .delta (by decide)
    exact hdelta.toPast.congr ⟨rfl, rfl⟩ ⟨hsame'.1.symm, hsame'.2.symm⟩
  | dport => exact hdport.toPast.congr hsame ⟨rfl, rfl⟩

/-- A port with files that are not committed is in the queue. -/
structure Inv (w : World) : Prop where
  names : ∀ kind, Names kind w
  queued : ∀ kind (p : Port), (w.repo kind p.origin).tree = (w.repo kind p.origin).head ∨
    w.queue kind (queueName p.origin) ≠ none

theorem Fresh.inv {w : World} (h : Fresh w) : Inv w where
  names kind name item hitem := by
    rw [h.empty] at hitem
    cases hitem
  queued kind p := Or.inl (h.committed kind p.origin)

section Build

variable (p : Port) (e : Hook.Event) (w : World) (kind : Kind)

theorem hook_other {origin : Origin} (hne : origin ≠ p.origin) :
    (hook p e w).repo kind origin = w.repo kind origin :=
  Function.update_of_ne hne _ _

theorem hook_queue_other {name : Text} (hne : name ≠ queueName p.origin) :
    (hook p e w).queue kind name = w.queue kind name :=
  Function.update_of_ne hne _ _

theorem hook_repo : (hook p e w).repo kind p.origin =
    { w.repo kind p.origin with tree := builtTree kind e (w.repo kind p.origin).tree } := by
  have htree : (writtenTree (run p.origin (found w p.origin) e) kind).getD
      (w.repo kind p.origin).tree = builtTree kind e (w.repo kind p.origin).tree := by
    unfold run builtTree
    cases hresult : e.result with
    | success => cases kind <;> rfl
    | failed =>
      cases kind with
      | delta => rfl
      | dport =>
        dsimp only [writtenTree, found]
        unfold directory
        split <;> rfl
  rw [← htree]
  exact Function.update_self _ _ _

/-- The hook leaves the port in the queue, or nothing of this kind is new. -/
theorem hook_cases :
    (∃ item, item.port = p ∧ (hook p e w).queue kind (queueName p.origin) = some item) ∨
    (hook p e w).repo kind p.origin = w.repo kind p.origin ∧
      (hook p e w).queue kind (queueName p.origin) = w.queue kind (queueName p.origin) := by
  have hqueue : (hook p e w).queue kind (queueName p.origin) =
      (writtenItem p (run p.origin (found w p.origin) e) kind).or
        (w.queue kind (queueName p.origin)) := Function.update_self _ _ _
  have hrepo := hook_repo p e w kind
  unfold run at hqueue
  unfold builtTree at hrepo
  cases hresult : e.result with
  | success =>
    rw [hresult] at hqueue
    cases kind <;> exact Or.inl ⟨_, rfl, hqueue⟩
  | failed =>
    rw [hresult] at hqueue hrepo
    cases kind with
    | delta => exact Or.inl ⟨_, rfl, hqueue⟩
    | dport => exact Or.inr ⟨hrepo, hqueue⟩

theorem hook_inv (h : Inv w) : Inv (hook p e w) where
  names kind name item hitem := by
    by_cases heq : name = queueName p.origin
    · rw [heq] at hitem ⊢
      rcases hook_cases p e w kind with ⟨item', hport, hitem'⟩ | ⟨_, hsame⟩
      · rw [hitem] at hitem'
        cases hitem'
        rw [hport]
      · exact h.names kind _ _ (hsame ▸ hitem)
    · rw [hook_queue_other p e w kind heq] at hitem
      exact h.names kind name item hitem
  queued kind q := by
    by_cases heq : q.origin = p.origin
    · rw [heq]
      rcases hook_cases p e w kind with ⟨item, _, hitem⟩ | ⟨hrepo, hqueue⟩
      · rw [hitem]
        exact Or.inr (Option.some_ne_none item)
      · rw [hrepo, hqueue, ← heq]
        exact h.queued kind q
    · rw [hook_other p e w kind heq,
        hook_queue_other p e w kind fun hname => heq (origin_eq_of_queueName hname)]
      exact h.queued kind q

end Build

section Wake

variable {r : Round} {w : World}

theorem daemonRound_inv (h : Inv w) (hlists : Lists r w) (hsound : SoundRound r w) :
    Inv (daemonRound r w) where
  names kind name item hitem := by
    have hpast := daemonRound_past h.names hlists hsound kind
    by_cases hmem : name ∈ r.candidates kind
    · obtain ⟨item', hitem'⟩ := Option.ne_none_iff_exists'.mp (((hlists kind).2 name).mp hmem)
      rcases hpast.kept name hmem item' hitem' with hkept | ⟨hgone, _⟩
      · rw [hkept, ← hitem'] at hitem
        exact h.names kind name item hitem
      · rw [hgone] at hitem
        cases hitem
    · rw [hpast.queue name hmem] at hitem
      exact h.names kind name item hitem
  queued kind p := by
    have hpast := daemonRound_past h.names hlists hsound kind
    cases hqueue : w.queue kind (queueName p.origin) with
    | none =>
      left
      rw [hpast.repo p.origin fun name _ item hitem horigin => ?_]
      · exact (h.queued kind p).resolve_right (not_not_intro hqueue)
      · rw [h.names kind name item hitem, horigin, hqueue] at hitem
        cases hitem
    | some item =>
      have hmem : queueName p.origin ∈ r.candidates kind :=
        ((hlists kind).2 _).mpr (hqueue ▸ Option.some_ne_none item)
      have horigin := origin_eq_of_queueName (h.names kind _ item hqueue)
      rw [horigin]
      rcases hpast.kept _ hmem item hqueue with hkept | ⟨_, hcommitted⟩
      · rw [← horigin, hkept]
        exact Or.inr (Option.some_ne_none item)
      · exact Or.inl hcommitted

theorem soundRound_of_works (hlists : Lists r w)
    (hworks : ∀ kind, ∀ name ∈ r.candidates kind, Works (r.outcome kind name)) :
    SoundRound r w := by
  intro kind name item hitem
  have hmem := ((hlists kind).2 name).mpr (hitem ▸ Option.some_ne_none item)
  exact (turn_works _ [] (hworks kind name hmem) (named_lines kind item)).1

theorem daemonRound_drained (h : Inv w) (hlists : Lists r w)
    (hworks : ∀ kind, ∀ name ∈ r.candidates kind, Works (r.outcome kind name)) (kind : Kind)
    (name : Text) : (daemonRound r w).queue kind name = none := by
  have hpast := daemonRound_past h.names hlists (soundRound_of_works hlists hworks) kind
  by_cases hmem : name ∈ r.candidates kind
  · exact hpast.drained name hmem (hworks kind name hmem)
  · rw [hpast.queue name hmem]
    exact not_not.mp (mt ((hlists kind).2 name).mpr hmem)

theorem daemonRound_head (h : Inv w) (hlists : Lists r w)
    (hworks : ∀ kind, ∀ name ∈ r.candidates kind, Works (r.outcome kind name)) (kind : Kind)
    (p : Port) :
    ((daemonRound r w).repo kind p.origin).head = (w.repo kind p.origin).tree := by
  have hsound := soundRound_of_works hlists hworks
  have hempty := daemonRound_drained h hlists hworks kind (queueName p.origin)
  have hafter := (daemonRound_inv h hlists hsound).queued kind p
  rw [← hafter.resolve_right (not_not_intro hempty)]
  exact (daemonRound_past h.names hlists hsound kind).tree p.origin

end Wake

section Run

variable {w : World}

theorem step_inv {ev : Event} (h : Inv w) (hok : Ok w ev) : Inv (step w ev) := by
  cases ev with
  | build p e => exact hook_inv p e w h
  | wake r => exact daemonRound_inv h hok.1 hok.2

theorem step_tree {ev : Event} (h : Inv w) (hok : Ok w ev) (kind : Kind) (p : Port) :
    ((step w ev).repo kind p.origin).tree = built p kind (w.repo kind p.origin).tree ev := by
  cases ev with
  | build q e =>
    rw [step, built]
    by_cases heq : q.origin = p.origin
    · rw [if_pos heq, ← heq, hook_repo]
    · rw [if_neg heq, hook_other q e w kind (Ne.symm heq)]
  | wake r => exact (daemonRound_past h.names hok.1 hok.2 kind).tree p.origin

theorem run_inv {events : List Event} (h : Inv w) (hok : OkRun w events) :
    Inv (events.foldl step w) ∧ ∀ kind (p : Port),
      ((events.foldl step w).repo kind p.origin).tree =
        events.foldl (built p kind) (w.repo kind p.origin).tree := by
  induction events generalizing w with
  | nil => exact ⟨h, fun _ _ => rfl⟩
  | cons ev events ih =>
    obtain ⟨hinv, htree⟩ := ih (step_inv h hok.1) hok.2
    refine ⟨hinv, fun kind p => ?_⟩
    rw [List.foldl_cons, List.foldl_cons, htree kind p, step_tree h hok.1]

/-- However builds and rounds follow each other, with commands of git that fail now and then: a
round in which they work leaves an empty queue, and the last commit of each port has what the
builds of the port have made of it. -/
theorem builds_committed {events : List Event} {r : Round} (hfresh : Fresh w)
    (hok : OkRun w events) (hlists : Lists r (events.foldl step w))
    (hworks : ∀ kind, ∀ name ∈ r.candidates kind, Works (r.outcome kind name)) :
    (∀ kind name, (daemonRound r (events.foldl step w)).queue kind name = none) ∧
    ∀ kind (p : Port), ((daemonRound r (events.foldl step w)).repo kind p.origin).head =
      events.foldl (built p kind) (w.repo kind p.origin).head := by
  obtain ⟨hinv, htree⟩ := run_inv hfresh.inv hok
  refine ⟨daemonRound_drained hinv hlists hworks, fun kind p => ?_⟩
  rw [daemonRound_head hinv hlists hworks, htree kind p, hfresh.committed]

end Run

def foo : Port where
  name := ⟨"misc".toList, "foo".toList, by decide, by decide, by decide⟩
  noUnderscore := by decide

def fooBuilt : Hook.Event := ⟨.success, "foo-1.1".toList, CommitQueue.newPort⟩

def untouched : World where
  repo _ _ := ⟨FileTree.empty, FileTree.empty, FileTree.empty⟩
  queue _ _ := none
  log := []

def commits (works : Bool) : Outcome := ⟨true, some [], true, works⟩

/-- No other port is in the queue. -/
def fooRound (works : Bool) (w : World) : Round where
  candidates kind := [queueName foo.origin].filter fun name => (w.queue kind name).isSome
  outcome _ _ := commits works

theorem fooRound_lists {works : Bool} {w : World}
    (h : ∀ kind name, name ≠ queueName foo.origin → w.queue kind name = none) :
    Lists (fooRound works w) w := by
  intro kind
  unfold fooRound
  refine ⟨List.Nodup.filter _ (List.nodup_singleton _), fun name => ?_⟩
  rw [List.mem_filter, List.mem_singleton, Option.isSome_iff_ne_none]
  refine ⟨And.right, fun hname => ⟨?_, hname⟩⟩
  by_contra hne
  exact hname (h kind name hne)

theorem fooRound_sound {works : Bool} {w : World} : SoundRound (fooRound works w) w :=
  fun kind _ _ _ => by cases kind <;> exact Or.inl rfl

def fooEvents : List Event :=
  [.build foo fooBuilt, .wake (fooRound false (hook foo fooBuilt untouched))]

theorem foo_committed :
    ((daemonRound (fooRound true (fooEvents.foldl step untouched))
      (fooEvents.foldl step untouched)).repo .dport foo.origin).head = CommitQueue.newPort := by
  have hfresh : Fresh untouched := ⟨fun _ _ => rfl, fun _ _ => rfl⟩
  have hbuilt : ∀ kind name, name ≠ queueName foo.origin →
      (hook foo fooBuilt untouched).queue kind name = none :=
    fun kind name hne => hook_queue_other foo fooBuilt untouched kind hne
  have hlists : Lists (fooRound false (hook foo fooBuilt untouched)) _ := fooRound_lists hbuilt
  have hok : OkRun untouched fooEvents := ⟨trivial, ⟨hlists, fooRound_sound⟩, trivial⟩
  have hlast : ∀ kind name, name ≠ queueName foo.origin →
      (fooEvents.foldl step untouched).queue kind name = none := by
    intro kind name hne
    have hpast := daemonRound_past (hook_inv foo fooBuilt untouched hfresh.inv).names hlists
      fooRound_sound kind
    refine (hpast.queue name fun hmem => ?_).trans (hbuilt kind name hne)
    rw [fooRound] at hmem
    dsimp only at hmem
    exact hne (List.mem_singleton.mp (List.mem_of_mem_filter hmem))
  have hhead := (builds_committed hfresh hok (fooRound_lists hlast)
    fun _ _ _ => ⟨rfl, rfl, rfl⟩).2 .dport foo
  exact hhead

end DeltaPorts.Hook.CommitRounds

import DeltaPorts.NewGenerator.Generator
import DeltaPorts.Portsnap.Commands
import DeltaPorts.Portsnap.Delivery

/-!
# The FreeBSD ports of the new generator

`psnap_init` on a machine, with the two runs of portsnap that it starts. It takes `FPORTS` as it is
when there is a directory of that name: a tree whose extraction has failed halfway is never
extracted again. Otherwise the generator goes on only with a tree that the owner of the key has
signed.
-/

set_option autoImplicit false

namespace DeltaPorts.NewGenerator.PortsSetup

open LineTools (Text)
open Shell (Globbing)
open Parcels Run Exits
open Portsnap hiding run
open Portsnap.Parameters hiding Command
open Portsnap.Commands Portsnap.Delivery
open Portsnap.PortsTree (Index extractRun updateRun NamesNoOwn)

variable {Content : Type}

/-- `${BASEDIR}/.portsnap` and `${FPORTS}`, if they are directories. -/
structure Host (Content : Type) where
  site : Option Site
  ports : Option (PortsTree.World Content)

/-- The names of the two directories, and what portsnap reads besides its arguments. -/
structure Env where
  workdir : Text
  fports : Text
  e : Evaluation
  g : Globbing
  confs : Text → Option ConfFile
  indexpairs : Text

/-- What a call of `psnap_init` finds. -/
structure Call (Content : Type) where
  terminal : Bool
  /-- Whether `mkdir -p` makes the directory. -/
  mkdir : Text → Bool
  writable : Text → Bool
  srv : Server
  /-- `INDEX` in the work directory, after the fetch. -/
  index : Index
  made : Tree Text Content
  indices : Bool

def configOf (p : Params) : Config := ⟨p.keyprint, none⟩

variable (σ : Setup Content) (env : Env) (c : Call Content)

/-- For the parameters that `psnap_init` gives: no path, and nothing is refused. -/
def programs : Programs (Host Content) where
  terminal := c.terminal
  isDir dir h :=
    if dir = env.workdir then h.site.isSome
    else if dir = env.fports then h.ports.isSome
    else false
  isWritable dir _ := c.writable dir
  hasSnapshot dir h := decide (dir = env.workdir) && h.site.any fun site => hasSnapshot site.dir
  hasRecord dir h := decide (dir = env.fports) && h.ports.any fun w => w.record.isSome
  fetchRun p h :=
    match h.site with
    | none => (false, h)
    | some site =>
      let site := fetchSite σ.tools (configOf p) c.srv site
      (site.returned == some true, { h with site := some site })
  extractRun _ h :=
    match h.site with
    | none => (false, h)
    | some site =>
      if c.mkdir env.fports = false then (false, h)
      else
        let w := extractRun (σ.stored site.dir) σ.tar σ.own (callsOf site.dir c.made c.indices)
          c.index (h.ports.elim (fun _ => none) fun w => w.tree)
        (w.status == some true, { h with ports := some w })
  updateRun p h :=
    match h.site, h.ports with
    | some site, some w =>
      if p.indexonly ≠ [] then (c.indices, h)
      else
        let w := updateRun (σ.stored site.dir) σ.tar σ.own (callsOf site.dir c.made c.indices)
          { w with index := c.index }
        (w.status == some true, { h with ports := some w })
    | _, _ => (false, h)

/-- `portsnap -d ${BASEDIR}/.portsnap -p ${_dst} command` -/
def commandLine (command : Parameters.Command) : CommandLine where
  items := [.valued .workdir env.workdir, .valued .portsdir env.fports, .command command]
  path := none

def runPortsnap (command : Parameters.Command) (h : Host Content) : Nat × Host Content :=
  portsnap (programs σ env c) env.e env.g (textsOf env.confs) env.indexpairs
    (commandLine env command).words h

def mkdirWork (h : Host Content) : Host Content :=
  if c.mkdir env.workdir = true then { h with site := some (h.site.getD emptySite) } else h

/-- Whether the generator goes on, and the machine. -/
def psnapInit (h : Host Content) : Bool × Host Content :=
  if h.ports.isSome = true then (true, h)
  else
    let fetched := runPortsnap σ env c .fetch (mkdirWork env c h)
    if fetched.1 ≠ 0 then (false, fetched.2)
    else
      let extracted := runPortsnap σ env c .extract fetched.2
      if extracted.1 ≠ 0 then (false, extracted.2) else (true, extracted.2)

/-- The names are words of their own in the shell, and the configuration file has the key. -/
structure Env.Right (env : Env) (conf : ConfFile) : Prop where
  fits : ∀ f conf, env.confs f = some conf → conf.text.length ≤ env.e.limit
  names : ∀ w, w ≠ [] → [] ∉ env.g.expand w
  args : ∀ command, expanded env.g (expanded env.g (commandLine env command).words) =
    (commandLine env command).words
  workdir : env.workdir ≠ []
  fports : env.fports ≠ []
  apart : env.fports ≠ env.workdir
  isConf : env.confs "/usr/local/etc/portsnap.conf".toList = some conf
  nothingRefused : conf.refused = []

/-- The fetch is clean, and the index that it installs is what is extracted. -/
structure Ok (h : Host Content) (c : Call Content) : Prop where
  clean : ∀ site, (mkdirWork env c h).site = some site → CleanRun σ.tools σ.cfg site c.srv
  isIndex : ∀ site, (mkdirWork env c h).site = some site →
    IndexOf (fetchSite σ.tools σ.cfg c.srv site).dir c.index
  names : NamesNoOwn σ.own c.index

/-- The store is what fetches have made of an empty directory, and the tree what one extraction
has made of it. -/
structure Inv (h : Host Content) : Prop where
  fetched : ∀ site, h.site = some site →
    Reach (· = emptySite) (FetchStep σ.tools σ.cfg) (CleanRun σ.tools σ.cfg) site
  extracted : ∀ w, h.ports = some w → ∃ site index, h.site = some site ∧
    Extracted σ index (fun _ => none) ⟨site, w⟩

section Run

variable {σ} {env} {c} {conf : ConfFile} {command : Parameters.Command}

def paramsOf (env : Env) (conf : ConfFile) (command : Parameters.Command) : Params :=
  meant env.indexpairs (commandLine env command) (some conf)

theorem commandLine_wellFormed (env : Env) (command : Parameters.Command) :
    (commandLine env command).WellFormed where
  once := by
    have honce : [Valued.workdir, Valued.portsdir].Nodup := by decide
    exact honce
  commands := by simp [commandLine, commandsOf, Item.command?]
  path := nofun

theorem given_conffile (env : Env) (command : Parameters.Command) :
    given (commandLine env command).items .conffile = [] := rfl

theorem getParams_commandLine (henv : env.Right conf) (command : Parameters.Command) :
    getParams env.e env.g (textsOf env.confs) env.indexpairs (commandLine env command).words =
      .ok (paramsOf env conf command) := by
  have haccepted : Accepted env.g (commandLine env command).words (commandLine env command) :=
    ⟨commandLine_wellFormed env command, (henv.args command).symm⟩
  have hparams := getParams_of_accepted henv.fits henv.names env.indexpairs haccepted
  rw [given_conffile, if_neg fun h => h.1 rfl] at hparams
  rw [hparams]
  exact congrArg (fun conf => Except.ok (meant env.indexpairs (commandLine env command) conf))
    henv.isConf

theorem paramsOf_workdir (henv : env.Right conf) : (paramsOf env conf command).workdir = env.workdir :=
  if_neg henv.workdir

theorem configOf_paramsOf : configOf (paramsOf env conf command) = ⟨conf.value .keyprint, none⟩ := rfl

theorem runPortsnap_eq (henv : env.Right conf) (h : Host Content) :
    runPortsnap σ env c command h =
      match runCommands (programs σ env c) (paramsOf env conf command) h with
      | (.ok _, h') => (0, h')
      | (.error n, h') => (n, h') := by
  unfold runPortsnap portsnap
  rw [getParams_commandLine henv]
  dsimp only
  rcases runCommands (programs σ env c) (paramsOf env conf command) h with ⟨_ | _, h'⟩
  · rfl
  · rfl

/-- A run of portsnap is one of its command. -/
theorem runPortsnap_spec (henv : env.Right conf) {P E : Host Content → Prop}
    {Q : Unit → Host Content → Prop}
    (hcmd : Spec P (cmd (programs σ env c) (paramsOf env conf command) command) Q
      fun n h => n ≠ 0 ∧ E h) {h : Host Content} (hP : P h) :
    (runPortsnap σ env c command h).1 = 0 ∧ Q () (runPortsnap σ env c command h).2 ∨
      (runPortsnap σ env c command h).1 ≠ 0 ∧ E (runPortsnap σ env c command h).2 := by
  have hrun : Spec P (runCommands (programs σ env c) (paramsOf env conf command)) Q
      fun n h => n ≠ 0 ∧ E h :=
    Spec.bind hcmd fun _ => Spec.pure fun _ hQ => hQ
  have hend := hrun h hP
  rw [runPortsnap_eq henv]
  rcases hresult : runCommands (programs σ env c) (paramsOf env conf command) h with ⟨_ | _, h'⟩
  · rw [hresult] at hend
    exact .inr hend
  · rw [hresult] at hend
    exact .inl ⟨rfl, hend⟩

/-- What a fetch makes of the machine. -/
def Fetched (σ : Setup Content) (c : Call Content) (h h' : Host Content) : Prop :=
  ∃ site, h.site = some site ∧ h' = { h with site := some (fetchSite σ.tools σ.cfg c.srv site) }

theorem isDir_workdir (henv : env.Right conf) (h : Host Content) :
    (programs σ env c).isDir (paramsOf env conf command).workdir h = h.site.isSome := by
  rw [paramsOf_workdir henv]
  exact if_pos rfl

theorem exists_site (henv : env.Right conf) {h : Host Content}
    (hdir : (programs σ env c).isDir (paramsOf env conf command).workdir h = true) :
    ∃ site, h.site = some site := by
  rw [isDir_workdir henv] at hdir
  exact Option.isSome_iff_exists.mp hdir

theorem fetch_spec (henv : env.Right conf) (hcfg : σ.cfg = ⟨conf.value .keyprint, none⟩)
    (h : Host Content) :
    ((runPortsnap σ env c .fetch h).1 = 0 → Fetched σ c h (runPortsnap σ env c .fetch h).2) ∧
      ((runPortsnap σ env c .fetch h).2 = h ∨ Fetched σ c h (runPortsnap σ env c .fetch h).2) := by
  have hfetch : ∀ s, (s = h ∧ c.terminal = true) ∧
      FetchReady (programs σ env c) (paramsOf env conf .fetch) s →
      Fetched σ c h ((programs σ env c).fetchRun (paramsOf env conf .fetch) s).2 := by
    rintro s ⟨⟨rfl, _⟩, hready⟩
    obtain ⟨site, hsite⟩ := exists_site henv hready.isDir
    refine ⟨site, hsite, ?_⟩
    unfold programs
    simp only [hsite, configOf_paramsOf, ← hcfg]
  have hcmd : Spec (· = h) (cmd (programs σ env c) (paramsOf env conf .fetch) .fetch)
      (fun _ => Fetched σ c h) fun n h' => n ≠ 0 ∧ (h' = h ∨ Fetched σ c h h') :=
    spec_orStop (spec_fetchCheckParams
      (spec_orExit (fun s hs _ => hfetch s hs) fun s hs _ => ⟨Nat.one_ne_zero, .inr (hfetch s hs)⟩)
      fun s hs => ⟨Nat.one_ne_zero, .inl hs.1⟩) fun s hs => ⟨Nat.one_ne_zero, .inl hs⟩
  rcases runPortsnap_spec henv hcmd rfl with ⟨_, hfetched⟩ | ⟨hne, hend⟩
  · exact ⟨fun _ => hfetched, .inr hfetched⟩
  · exact ⟨fun hzero => absurd hzero hne, hend⟩

/-- What an extraction makes of a machine without `FPORTS`. -/
def Extraction (σ : Setup Content) (c : Call Content) (h h' : Host Content)
    (w : PortsTree.World Content) : Prop :=
  ∃ site, h.site = some site ∧ hasSnapshot site.dir = true ∧ h' = { h with ports := some w } ∧
    w = extractRun (σ.stored site.dir) σ.tar σ.own (callsOf site.dir c.made c.indices) c.index
      fun _ => none

theorem extract_spec (henv : env.Right conf) {h : Host Content} (hports : h.ports = none) :
    ((runPortsnap σ env c .extract h).1 = 0 →
      ∃ w, Extraction σ c h (runPortsnap σ env c .extract h).2 w ∧ w.status = some true) ∧
      ((runPortsnap σ env c .extract h).2 = h ∨
        ∃ w, Extraction σ c h (runPortsnap σ env c .extract h).2 w) := by
  have hextract : ∀ s, s = h ∧ ExtractReady (programs σ env c) (paramsOf env conf .extract) s →
      ((programs σ env c).extractRun (paramsOf env conf .extract) s = (false, h)) ∨
        ∃ w, Extraction σ c h ((programs σ env c).extractRun (paramsOf env conf .extract) s).2 w ∧
          ((programs σ env c).extractRun (paramsOf env conf .extract) s).1 =
            (w.status == some true) := by
    rintro s ⟨rfl, hready⟩
    obtain ⟨site, hsite⟩ := exists_site henv hready.isDir
    have hsnapshot := hready.snapshot
    unfold programs at hsnapshot ⊢
    simp only [hsite, hports]
    by_cases hmkdir : c.mkdir env.fports = false
    · rw [if_pos hmkdir]
      exact .inl rfl
    · rw [if_neg hmkdir]
      refine .inr ⟨_, ⟨site, hsite, ?_, ?_, rfl⟩, rfl⟩
      · simpa [hsite] using (Bool.and_eq_true_iff.mp hsnapshot).2
      · rw [hsite]
        rfl
  have hcmd : Spec (· = h) (cmd (programs σ env c) (paramsOf env conf .extract) .extract)
      (fun _ h' => ∃ w, Extraction σ c h h' w ∧ w.status = some true)
      fun n h' => n ≠ 0 ∧ (h' = h ∨ ∃ w, Extraction σ c h h' w) := by
    refine spec_extractCheckParams (spec_orExit (fun s hs hok => ?_) fun s hs hfail => ?_)
      fun s hs => ⟨Nat.one_ne_zero, .inl hs⟩
    · rcases hextract s hs with hnone | ⟨w, hw, hstatus⟩
      · rw [hnone] at hok
        cases hok
      · rw [hok] at hstatus
        exact ⟨w, hw, eq_of_beq hstatus.symm⟩
    · refine ⟨Nat.one_ne_zero, ?_⟩
      rcases hextract s hs with hnone | ⟨w, hw, _⟩
      · rw [hnone]
        exact .inl rfl
      · exact .inr ⟨w, hw⟩
  rcases runPortsnap_spec henv hcmd rfl with ⟨_, hdone⟩ | ⟨hne, hend⟩
  · exact ⟨fun _ => hdone, .inr (hdone.imp fun _ h => h.1)⟩
  · exact ⟨fun hzero => absurd hzero hne, hend⟩

end Run

variable {σ} {env} {c} {conf : ConfFile} {h : Host Content}

theorem mkdirWork_ports (h : Host Content) : (mkdirWork env c h).ports = h.ports := by
  unfold mkdirWork
  split <;> rfl

theorem mkdirWork_reach (hinv : Inv σ h) {site : Site}
    (hsite : (mkdirWork env c h).site = some site) :
    Reach (· = emptySite) (FetchStep σ.tools σ.cfg) (CleanRun σ.tools σ.cfg) site := by
  unfold mkdirWork at hsite
  split at hsite
  · cases hold : h.site with
    | none =>
      rw [hold] at hsite
      exact .start (Option.some.inj hsite).symm
    | some old =>
      rw [hold] at hsite
      rw [← Option.some.inj hsite]
      exact hinv.fetched old hold
  · exact hinv.fetched site hsite

theorem unobstructed_empty (index : Index) :
    PortsTree.Unobstructed (fun _ => none : Tree Text Content) index :=
  ⟨fun _ _ _ hx => absurd rfl hx, fun _ _ _ _ hx => absurd rfl hx⟩

/-- The machine after the fetch of a call. -/
def fetchedHost (σ : Setup Content) (env : Env) (c : Call Content) (h : Host Content) :
    Host Content := (runPortsnap σ env c .fetch (mkdirWork env c h)).2

/-- The machine after both runs of portsnap. -/
def extractedHost (σ : Setup Content) (env : Env) (c : Call Content) (h : Host Content) :
    Host Content := (runPortsnap σ env c .extract (fetchedHost σ env c h)).2

theorem psnapInit_none (hnone : h.ports = none) : psnapInit σ env c h =
    if (runPortsnap σ env c .fetch (mkdirWork env c h)).1 ≠ 0 then (false, fetchedHost σ env c h)
    else if (runPortsnap σ env c .extract (fetchedHost σ env c h)).1 ≠ 0 then
      (false, extractedHost σ env c h)
    else (true, extractedHost σ env c h) := by
  have habsent : ¬ h.ports.isSome = true := by
    rw [hnone]
    exact Bool.false_ne_true
  exact if_neg habsent

/-- What a call can do. -/
theorem psnapInit_cases (σ : Setup Content) (env : Env) (c : Call Content) (h : Host Content) :
    (h.ports.isSome = true ∧ psnapInit σ env c h = (true, h)) ∨
      (h.ports = none ∧ psnapInit σ env c h = (false, fetchedHost σ env c h)) ∨
      h.ports = none ∧ (runPortsnap σ env c .fetch (mkdirWork env c h)).1 = 0 ∧
        psnapInit σ env c h =
          (decide ((runPortsnap σ env c .extract (fetchedHost σ env c h)).1 = 0),
            extractedHost σ env c h) := by
  by_cases hports : h.ports.isSome = true
  · exact .inl ⟨hports, if_pos hports⟩
  · have hnone : h.ports = none := by simpa using hports
    rw [psnapInit_none hnone]
    by_cases hzero : (runPortsnap σ env c .fetch (mkdirWork env c h)).1 = 0
    · refine .inr (.inr ⟨hnone, hzero, ?_⟩)
      rw [if_neg (not_not.mpr hzero)]
      by_cases hdone : (runPortsnap σ env c .extract (fetchedHost σ env c h)).1 = 0
      · rw [if_neg (not_not.mpr hdone), decide_eq_true hdone]
      · rw [if_pos hdone, decide_eq_false hdone]
    · exact .inr (.inl ⟨hnone, if_pos hzero⟩)

theorem fetchedHost_ports (henv : env.Right conf) (hcfg : σ.cfg = ⟨conf.value .keyprint, none⟩)
    (hports : h.ports = none) : (fetchedHost σ env c h).ports = none := by
  have hnone : (mkdirWork env c h).ports = none := (mkdirWork_ports h).trans hports
  unfold fetchedHost
  rcases (fetch_spec henv hcfg (mkdirWork env c h)).2 with hsame | ⟨site, _, hfetched⟩
  · rw [hsame]
    exact hnone
  · rw [hfetched]
    exact hnone

theorem fetchedHost_inv (henv : env.Right conf) (hcfg : σ.cfg = ⟨conf.value .keyprint, none⟩)
    (hinv : Inv σ h) (hOk : Ok σ env h c) (hports : h.ports = none) :
    Inv σ (fetchedHost σ env c h) := by
  have hstill : (fetchedHost σ env c h).ports = none := fetchedHost_ports henv hcfg hports
  refine ⟨fun site hsite => ?_, fun w hw => ?_⟩
  · unfold fetchedHost at hsite
    rcases (fetch_spec henv hcfg (mkdirWork env c h)).2 with hsame | ⟨old, hold, hfetched⟩
    · rw [hsame] at hsite
      exact mkdirWork_reach hinv hsite
    · rw [hfetched] at hsite
      rw [← Option.some.inj hsite]
      exact .step (mkdirWork_reach hinv hold) (hOk.clean old hold) rfl
  · rw [hstill] at hw
    cases hw

/-- What the second run of portsnap has extracted. -/
theorem extraction_inv (henv : env.Right conf) (hcfg : σ.cfg = ⟨conf.value .keyprint, none⟩)
    (hinv : Inv σ h) (hOk : Ok σ env h c) (hports : h.ports = none)
    (hzero : (runPortsnap σ env c .fetch (mkdirWork env c h)).1 = 0) {h' : Host Content}
    {w : PortsTree.World Content} (hw : Extraction σ c (fetchedHost σ env c h) h' w) :
    Inv σ h' := by
  have hfetched := fetchedHost_inv henv hcfg hinv hOk hports
  obtain ⟨site, hsite, hsnapshot, rfl, hworld⟩ := hw
  refine ⟨hfetched.fetched, fun w' hw' => ⟨site, c.index, hsite, ?_⟩⟩
  obtain ⟨old, hold, hnew⟩ := (fetch_spec henv hcfg (mkdirWork env c h)).1 hzero
  have heq : site = fetchSite σ.tools σ.cfg c.srv old := by
    have hstep : (fetchedHost σ env c h).site = some (fetchSite σ.tools σ.cfg c.srv old) := by
      unfold fetchedHost
      rw [hnew]
    rw [hsite] at hstep
    exact Option.some.inj hstep
  refine ⟨hfetched.fetched site hsite, hsnapshot, ?_, hOk.names, unobstructed_empty c.index, ?_⟩
  · rw [heq]
    exact hOk.isIndex old hold
  · rw [← Option.some.inj hw']
    exact ⟨c.made, c.indices, hworld⟩

theorem psnapInit_inv (henv : env.Right conf) (hcfg : σ.cfg = ⟨conf.value .keyprint, none⟩)
    (hinv : Inv σ h) (hOk : h.ports = none → Ok σ env h c) : Inv σ (psnapInit σ env c h).2 := by
  rcases psnapInit_cases σ env c h with ⟨_, heq⟩ | ⟨hnone, heq⟩ | ⟨hnone, hzero, heq⟩
  · rw [heq]
    exact hinv
  · rw [heq]
    exact fetchedHost_inv henv hcfg hinv (hOk hnone) hnone
  · rw [heq]
    unfold extractedHost
    rcases (extract_spec henv (fetchedHost_ports henv hcfg hnone)).2 with hsame | ⟨w, hw⟩
    · rw [hsame]
      exact fetchedHost_inv henv hcfg hinv (hOk hnone) hnone
    · exact extraction_inv henv hcfg hinv (hOk hnone) hnone hzero hw

/-- The generator goes on with the directory that was there, or after an extraction that has
returned 0. -/
theorem psnapInit_goes_on (henv : env.Right conf) (hcfg : σ.cfg = ⟨conf.value .keyprint, none⟩)
    (hgoes : (psnapInit σ env c h).1 = true) :
    (h.ports.isSome = true ∧ psnapInit σ env c h = (true, h)) ∨
      ∃ w, (psnapInit σ env c h).2.ports = some w ∧ w.status = some true := by
  rcases psnapInit_cases σ env c h with hsame | ⟨_, heq⟩ | ⟨hnone, _, heq⟩
  · exact .inl hsame
  · rw [heq] at hgoes
    cases hgoes
  · rw [heq] at hgoes ⊢
    obtain ⟨w, ⟨_, _, _, hend, _⟩, hstatus⟩ :=
      (extract_spec henv (fetchedHost_ports henv hcfg hnone)).1 (of_decide_eq_true hgoes)
    exact .inr ⟨w, congrArg Host.ports hend, hstatus⟩

theorem status_of_extraction {archive : Text → PortsTree.Archive Content}
    {tar : Archiver Text Content} {own : List (List Text)} {calls : PortsTree.Calls Content}
    {index : Index} {t : Tree Text Content} :
    (extractRun archive tar own calls index t).status = some true ∨
      (extractRun archive tar own calls index t).status = some false := by
  unfold extractRun
  split
  · exact .inr rfl
  · cases calls.indices with
    | true => exact .inl rfl
    | false => exact .inr rfl

/-- Where the generator goes on, the ports are what the owner of the key has signed, or an earlier
call has failed in the middle of the extraction and this one has done nothing. -/
theorem goes_on_genuine (henv : env.Right conf) (hcfg : σ.cfg = ⟨conf.value .keyprint, none⟩)
    (hcollision : σ.NoCollision) (hinv : Inv σ h) (hOk : h.ports = none → Ok σ env h c)
    (hgoes : (psnapInit σ env c h).1 = true) :
    ∃ site w, (psnapInit σ env c h).2 = ⟨some site, some w⟩ ∧
      (Genuine σ ⟨site, w⟩ ∨ w.status = some false ∧ psnapInit σ env c h = (true, h)) := by
  have hend := psnapInit_inv henv hcfg hinv hOk
  have hrefuse : σ.cfg.refuse = none := by rw [hcfg]
  have hports : ∃ w, (psnapInit σ env c h).2.ports = some w ∧
      (w.status = some true ∨ psnapInit σ env c h = (true, h)) := by
    rcases psnapInit_goes_on henv hcfg hgoes with ⟨hsome, hsame⟩ | ⟨w, hw, hstatus⟩
    · obtain ⟨w, hw⟩ := Option.isSome_iff_exists.mp hsome
      refine ⟨w, ?_, .inr hsame⟩
      rw [hsame]
      exact hw
    · exact ⟨w, hw, .inl hstatus⟩
  obtain ⟨w, hw, hcase⟩ := hports
  obtain ⟨site, index, hsite, hextracted⟩ := hend.extracted w hw
  refine ⟨site, w, ?_, ?_⟩
  · rw [← hsite, ← hw]
  · have hgenuine (hstatus : w.status = some true) : Genuine σ ⟨site, w⟩ :=
      (inv_extracted hcollision hextracted).genuine hcollision hrefuse hstatus
    obtain ⟨made, indices, hworld⟩ := hextracted.world
    have hworld' : w = extractRun (σ.stored site.dir) σ.tar σ.own (callsOf site.dir made indices)
        index fun _ => none := hworld
    rcases hcase with hstatus | hsame
    · exact .inl (hgenuine hstatus)
    · rcases status_of_extraction with hstatus | hstatus
      · rw [← hworld'] at hstatus
        exact .inl (hgenuine hstatus)
      · rw [← hworld'] at hstatus
        exact .inr ⟨hstatus, hsame⟩

end DeltaPorts.NewGenerator.PortsSetup

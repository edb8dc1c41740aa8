import DeltaPorts.Library.Exits
import DeltaPorts.Portsnap.Parameters
import DeltaPorts.Portsnap.Store

/-!
# The commands of portsnap

`portsnap` from its arguments to its exit status. Before a command runs anything it looks whether
what it needs is there; the commands are run in the order in which they are given, up to the first
one that fails.
-/

set_option autoImplicit false

namespace DeltaPorts.Portsnap.Commands

open LineTools (Text)
open Shell (Globbing)
open Parameters Exits

variable {σ : Type}

/-- What the commands look at, and what they run, on a machine. -/
structure Programs (σ : Type) where
  /-- Whether standard input is a terminal. -/
  terminal : Bool
  isDir : Text → σ → Bool
  isWritable : Text → σ → Bool
  /-- `files`, `tag`, `INDEX` and `tINDEX` in a directory. -/
  hasSnapshot : Text → σ → Bool
  /-- `.portsnap.INDEX` in a directory. -/
  hasRecord : Text → σ → Bool
  fetchRun : Params → σ → Bool × σ
  extractRun : Params → σ → Bool × σ
  updateRun : Params → σ → Bool × σ

variable (programs : Programs σ) (p : Params)

/-- `if ! test; then ...; exit 1; fi` -/
def orStop (test : σ → Bool) (rest : Exits σ Unit) : Exits σ Unit := do
  if ← Exits.read test then rest else Exits.exit 1

/-- `run || exit 1` -/
def orExit (run : σ → Bool × σ) : Exits σ Unit := fun s =>
  if (run s).1 = true then (.ok (), (run s).2) else (.error 1, (run s).2)

def fetchCheckParams (rest : Exits σ Unit) : Exits σ Unit :=
  orStop (fun _ => p.servername ≠ []) <|
  orStop (fun _ => p.keyprint ≠ []) <|
  orStop (fun _ => isHash p.keyprint) <|
  orStop (fun s => programs.isDir p.workdir s && programs.isWritable p.workdir s) rest

def extractCheckParams (rest : Exits σ Unit) : Exits σ Unit :=
  orStop (programs.isDir p.workdir) <|
  orStop (fun s => !(programs.isDir p.portsdir s && !programs.isWritable p.portsdir s)) <|
  orStop (programs.hasSnapshot p.workdir) rest

def updateCheckParams (rest : Exits σ Unit) : Exits σ Unit :=
  extractCheckParams programs p <| orStop (programs.hasRecord p.portsdir) rest

def cmdFetch : Exits σ Unit :=
  orStop (fun _ => programs.terminal) <| fetchCheckParams programs p <|
    orExit (programs.fetchRun p)

/-- After a while, and with the output in a file. -/
def cmdCron : Exits σ Unit := fetchCheckParams programs p <| orExit (programs.fetchRun p)

def cmdExtract : Exits σ Unit := extractCheckParams programs p <| orExit (programs.extractRun p)

def cmdUpdate : Exits σ Unit := updateCheckParams programs p <| orExit (programs.updateRun p)

/-- The first half of `cmd_alfred`. -/
def fetchOrCron : Exits σ Unit :=
  if programs.terminal = true then cmdFetch programs p else cmdCron programs p

def cmdAlfred : Exits σ Unit := do
  fetchOrCron programs p
  if ← Exits.read (programs.isDir p.portsdir) then cmdUpdate programs p
  else cmdExtract programs p

def cmd : Command → Exits σ Unit
  | .cron => cmdCron programs p
  | .extract => cmdExtract programs p
  | .fetch => cmdFetch programs p
  | .update => cmdUpdate programs p
  | .alfred => cmdAlfred programs p

def runCommands : Exits σ Unit := Exits.forWords p.commands (cmd programs p)

/-- The exit status and the machine; `usage` exits with 0. -/
def portsnap (e : Evaluation) (g : Globbing) (files : Text → Option Text) (indexpairs : Text)
    (args : List Text) (s : σ) : Nat × σ :=
  match getParams e g files indexpairs args with
  | .error .usage => (0, s)
  | .error (.unreadable _) => (1, s)
  | .ok p =>
    match runCommands programs p s with
    | (.ok _, s') => (0, s')
    | (.error n, s') => (n, s')

structure FetchReady (s : σ) : Prop where
  servername : p.servername ≠ []
  keyprint : isHash p.keyprint = true
  isDir : programs.isDir p.workdir s = true
  isWritable : programs.isWritable p.workdir s = true

structure ExtractReady (s : σ) : Prop where
  isDir : programs.isDir p.workdir s = true
  isWritable : programs.isDir p.portsdir s = true → programs.isWritable p.portsdir s = true
  snapshot : programs.hasSnapshot p.workdir s = true

variable {programs p} {P : σ → Prop} {Q : Unit → σ → Prop} {E : Nat → σ → Prop}

theorem spec_orStop {test : σ → Bool} {rest : Exits σ Unit}
    (hrest : Spec (fun s => P s ∧ test s = true) rest Q E) (hE : ∀ s, P s → E 1 s) :
    Spec P (orStop test rest) Q E :=
  Spec.test hrest (Spec.exit fun s hs => hE s hs.1)

theorem spec_orExit {run : σ → Bool × σ} (hok : ∀ s, P s → (run s).1 = true → Q () (run s).2)
    (hE : ∀ s, P s → (run s).1 = false → E 1 (run s).2) : Spec P (orExit run) Q E := by
  intro s hs
  unfold orExit
  cases hrun : (run s).1 with
  | true =>
    rw [if_pos rfl]
    exact hok s hs hrun
  | false =>
    rw [if_neg Bool.false_ne_true]
    exact hE s hs hrun

theorem spec_fetchCheckParams {rest : Exits σ Unit}
    (hrest : Spec (fun s => P s ∧ FetchReady programs p s) rest Q E) (hE : ∀ s, P s → E 1 s) :
    Spec P (fetchCheckParams programs p rest) Q E := by
  refine spec_orStop (spec_orStop (spec_orStop (spec_orStop (hrest.weaken ?_ (fun _ _ h => h)
    fun _ _ h => h) ?_) ?_) ?_) hE
  · rintro s ⟨⟨⟨⟨hs, hserver⟩, _⟩, hkey⟩, hdir⟩
    obtain ⟨hisDir, hwritable⟩ := Bool.and_eq_true_iff.mp hdir
    exact ⟨hs, of_decide_eq_true hserver, hkey, hisDir, hwritable⟩
  · exact fun s hs => hE s hs.1.1.1
  · exact fun s hs => hE s hs.1.1
  · exact fun s hs => hE s hs.1

theorem spec_extractCheckParams {rest : Exits σ Unit}
    (hrest : Spec (fun s => P s ∧ ExtractReady programs p s) rest Q E) (hE : ∀ s, P s → E 1 s) :
    Spec P (extractCheckParams programs p rest) Q E := by
  refine spec_orStop (spec_orStop (spec_orStop (hrest.weaken ?_ (fun _ _ h => h)
    fun _ _ h => h) ?_) ?_) hE
  · rintro s ⟨⟨⟨hs, hdir⟩, hwritable⟩, hsnapshot⟩
    refine ⟨hs, hdir, fun hports => ?_, hsnapshot⟩
    rw [hports, Bool.true_and, Bool.not_not] at hwritable
    exact hwritable
  · exact fun s hs => hE s hs.1.1
  · exact fun s hs => hE s hs.1

end DeltaPorts.Portsnap.Commands

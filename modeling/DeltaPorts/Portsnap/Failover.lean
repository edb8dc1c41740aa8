import DeltaPorts.Portsnap.Fetch
import DeltaPorts.Portsnap.Mirrors

/-!
# From one mirror to the next

The three loops of a fetch that go on to the next mirror, with the files that they share, from
the answer of the name server on. A run asks the mirrors in the order of their priorities and
goes on only after a failure; it is a run of `fetchRun` on what the mirrors have answered, but
that the snapshot and the update may come from different ones.
-/

set_option autoImplicit false

namespace DeltaPorts.Portsnap.Failover

open LineTools Script

/-- A name in a regular expression, whose dots match any character; what follows the match. -/
def matchName : Text → Text → Option Text
  | [], x => some x
  | p :: ps, c :: cs => if p = '.' ∨ p = c then matchName ps cs else none
  | _ :: _, [] => none

/-- `${MLIST} (has SRV record|server selection) ` -/
def matchRecord (mlist x : Text) : Option Text :=
  match matchName mlist x with
  | none => none
  | some x =>
    if " has SRV record ".toList.isPrefixOf x then some (x.drop 16)
    else if " server selection ".toList.isPrefixOf x then some (x.drop 18)
    else none

/-- `sed -nE "s/${MLIST} (has SRV record|server selection) //p"`, for one line. -/
def dropRecord (mlist : Text) : Text → Option Text
  | [] => matchRecord mlist []
  | c :: cs =>
    match matchRecord mlist (c :: cs) with
    | some rest => some rest
    | none => (dropRecord mlist cs).map (c :: ·)

/-- `cut -f 1,2,4 -d ' '` -/
def cutSrv (line : Text) : Text :=
  match line.splitOn ' ' with
  | [_] => line
  | fields => Shell.unwords (fields[0]?.toList ++ fields[1]?.toList ++ fields[3]?.toList)

/-- `sed -e 's/\.$//'` -/
def dropDot (line : Text) : Text := if line.getLast? = some '.' then line.dropLast else line

def serverlistFull (mlist : Text) (output : List Text) : List Text :=
  sort (output.filterMap fun l => (dropRecord mlist l).map fun rest => dropDot (cutSrv rest))

def mlistOf (servername : Text) : Text := "_http._tcp.".toList ++ servername

/-- The lines that `host` prints; `none` without `host`. -/
def fetchPickServerInit (output : Option (List Text)) (d : Mirrors) : Bool × Mirrors :=
  let d := { d with tried := [] }
  match output with
  | none => (false, { d with full := [] })
  | some output =>
    let full := serverlistFull (mlistOf d.servername) output
    (!full.isEmpty, { d with full := full })

/-- What a server answers during one run. -/
structure Mirror where
  pub : Option Bytes
  ssl : Which → Option Bytes
  metadata : Members
  tarball : Text → Option Members
  metadataPatches : Members
  metadataFiles : Members
  portsPatches : Members
  portsFiles : Members

def Mirror.server (m : Mirror) (now : Nat) (pubs : List (Option Bytes))
    (ssls : Which → List (Option Bytes)) : Server :=
  ⟨now, pubs, ssls, m.metadata, m.tarball, m.metadataPatches, m.metadataFiles, m.portsPatches,
    m.portsFiles⟩

inductive Request where
  | key
  | tag (which : Which)
  deriving DecidableEq

/-- A call of `fetch_key` or `fetch_tag`. -/
structure Ask where
  request : Request
  servername : Text
  ok : Bool

/-- The directory, the files of the mirrors, and the calls so far. -/
structure MirrorRun where
  dir : Dir
  mirrors : Mirrors
  log : List Ask

/-- Where a run fetches from. -/
structure Net where
  now : Nat
  randvalue : Nat
  mirror : Text → Mirror

variable (t : Tools) (cfg : Config) (net : Net)

def ask (request : Request) (m : Mirror) : Script Dir Bool :=
  match request with
  | .key => fetchKey t cfg m.pub
  | .tag which => fetchTag t which (m.ssl which)

/-- `while ! fetch_tag latest; do fetch_pick_server || return 1; done`, and the same for the other
two; `none` without enough fuel. -/
def retry (request : Request) : Nat → MirrorRun → Option (Bool × MirrorRun)
  | 0, _ => none
  | fuel + 1, r =>
    let o := ask t cfg request (net.mirror r.mirrors.servername) r.dir
    let r := { r with
      dir := o.state, log := r.log ++ [⟨request, r.mirrors.servername, o.value⟩] }
    if o.value then some (true, r)
    else
      match fetchPickServer net.randvalue r.mirrors with
      | (true, mirrors) => retry request fuel { r with mirrors := mirrors }
      | (false, mirrors) => some (false, { r with mirrors := mirrors })

/-- `fetch_snapshot` after its loop. -/
def snapshotRest (srv : Server) : Script Dir Bool := do
  let new ← read fun d => d.tagNew.getD []
  if ¬ snapshotTagSanity srv.now new then pure false
  else
    orFail (fetchMetadata t srv (snapshotHash new)) <|
    orFail (read (metadataSanity t)) <| do
      cmd fun d => { d with snap := none }
      match srv.tarball (Shell.unwords (snapshotHash new)) with
      | none => pure false
      | some members =>
        cmd fun d => { d with snap := some members }
        orFail (read fun d => snapshotVerify t (hashes (d.tINDEXnew.getD [])) d) <| do
          cmd fun d => { d with INDEXnew := none }
          cmd (extractSnapshotIndex t)
          orFail (read indexSanity) <|
          orFail (read fun d => snapshotVerify t (hashes (d.INDEXnew.getD [])) d) <| do
            installSnapshot
            pure true

/-- `fetch_update` after its loop, with the tag that it has found before. -/
def updateRest (srv : Server) (old : Bytes) : Script Dir Bool := do
  let new ← read fun d => d.tagNew.getD []
  if ¬ updateTagSanity srv.now old new then pure false
  else if ¬ updateNeeded old new then
    cmd fun d => { d with tagNew := none }
    pure true
  else
    orFail (prepare t cfg srv (snapshotHash new)) <| do
      removeUnneeded
      rename
      pure true

/-- The server that the rest of a function asks. -/
def MirrorRun.server (r : MirrorRun) : Server :=
  (net.mirror r.mirrors.servername).server net.now [] fun _ => []

def MirrorRun.after (r : MirrorRun) (m : Script Dir Bool) : Bool × MirrorRun :=
  let o := m r.dir
  (o.value, { r with dir := o.state })

def fetchSnapshotOver (fuel : Nat) (r : MirrorRun) : Option (Bool × MirrorRun) :=
  match retry t cfg net (.tag .snapshot) fuel r with
  | none => none
  | some (false, r) => some (false, r)
  | some (true, r) => some (r.after (snapshotRest t (r.server net)))

def fetchUpdateOver (fuel : Nat) (r : MirrorRun) : Option (Bool × MirrorRun) :=
  let r := { r with dir := { r.dir with INDEXnew := none } }
  let old := r.dir.tag.getD []
  match retry t cfg net (.tag .latest) fuel r with
  | none => none
  | some (false, r) => some (false, r)
  | some (true, r) => some (r.after (updateRest t cfg (r.server net) old))

def fetchRunOver (fuel : Nat) (output : Option (List Text)) (mirrors : Mirrors) (d : Dir) :
    Option (Bool × MirrorRun) :=
  let (found, mirrors) := fetchPickServerInit output mirrors
  let mirrors := if found then (fetchPickServer net.randvalue mirrors).2 else mirrors
  match retry t cfg net .key fuel ⟨d, mirrors, []⟩ with
  | none => none
  | some (false, r) => some (false, r)
  | some (true, r) =>
    if hasSnapshot r.dir then fetchUpdateOver t cfg net fuel r
    else
      match fetchSnapshotOver t cfg net fuel r with
      | none => none
      | some (false, r) => some (false, r)
      | some (true, r) => fetchUpdateOver t cfg net fuel r

/-- A record that `host` prints, in the words of BIND 9 or of BIND 8. -/
structure SrvRecord where
  line : SrvLine
  port : Nat
  bind9 : Bool

def SrvRecord.text (mlist : Text) (r : SrvRecord) : Text :=
  mlist ++ (if r.bind9 then " has SRV record ".toList else " server selection ".toList) ++
    Shell.unwords [decimal r.line.priority, decimal r.line.weight, decimal r.port,
      r.line.target ++ ['.']]

/-- A line that `host` prints. -/
inductive HostLine (mlist : Text) where
  | record (r : SrvRecord)
  | other (x : Text) (none : dropRecord mlist x = none)

def HostLine.text {mlist : Text} : HostLine mlist → Text
  | .record r => r.text mlist
  | .other x _ => x

def records {mlist : Text} (output : List (HostLine mlist)) : List SrvLine :=
  output.filterMap fun
    | .record r => some r.line
    | .other _ _ => none

theorem matchName_self (name x : Text) : matchName name (name ++ x) = some x := by
  induction name with
  | nil => rfl
  | cons c cs ih =>
    rw [List.cons_append, matchName, if_pos (Or.inr rfl)]
    exact ih

theorem dropRecord_of_match {mlist x rest : Text} (h : matchRecord mlist x = some rest) :
    dropRecord mlist x = some rest := by
  cases x with
  | nil => exact h
  | cons c cs =>
    unfold dropRecord
    rw [h]

theorem dropRecord_text (mlist : Text) (r : SrvRecord) : dropRecord mlist (r.text mlist) =
    some (Shell.unwords [decimal r.line.priority, decimal r.line.weight, decimal r.port,
      r.line.target ++ ['.']]) := by
  apply dropRecord_of_match
  unfold SrvRecord.text matchRecord
  rw [List.append_assoc, matchName_self]
  cases r.bind9 <;> rfl

theorem dropDot_concat (x : Text) : dropDot (x ++ ['.']) = x := by
  unfold dropDot
  rw [List.getLast?_concat, if_pos rfl, List.dropLast_concat]

theorem dropDot_cutSrv (r : SrvRecord) : dropDot (cutSrv (Shell.unwords
    [decimal r.line.priority, decimal r.line.weight, decimal r.port, r.line.target ++ ['.']])) =
    r.line.text := by
  have hblank : ' ' ∉ r.line.target ++ ['.'] := by
    rw [List.mem_append]
    exact not_or.mpr ⟨blank_not_mem r.line.plain, by decide⟩
  have hsplit : (Shell.unwords [decimal r.line.priority, decimal r.line.weight, decimal r.port,
      r.line.target ++ ['.']]).splitOn ' ' = [decimal r.line.priority, decimal r.line.weight,
      decimal r.port, r.line.target ++ ['.']] := by
    refine List.splitOn_intercalate ' ' (fun x hx => ?_) (List.cons_ne_nil _ _)
    simp only [List.mem_cons, List.not_mem_nil, or_false] at hx
    rcases hx with rfl | rfl | rfl | rfl
    · exact blank_not_mem (plain_decimal _)
    · exact blank_not_mem (plain_decimal _)
    · exact blank_not_mem (plain_decimal _)
    · exact hblank
  unfold cutSrv
  rw [hsplit]
  have hcut : Shell.unwords [decimal r.line.priority, decimal r.line.weight,
      r.line.target ++ ['.']] = r.line.text ++ ['.'] := by
    rw [r.line.text_eq]
    simp [Shell.unwords]
  exact (congrArg dropDot hcut).trans (dropDot_concat _)

theorem serverlistFull_text (mlist : Text) (output : List (HostLine mlist)) :
    serverlistFull mlist (output.map HostLine.text) =
      sort ((records output).map SrvLine.text) := by
  unfold serverlistFull records
  rw [List.filterMap_map, List.map_filterMap]
  congr 2
  funext l
  cases l with
  | record r =>
    show (dropRecord mlist (r.text mlist)).map _ = some r.line.text
    rw [dropRecord_text, Option.map_some, dropDot_cutSrv]
  | other x hnone =>
    show (dropRecord mlist x).map _ = none
    rw [hnone]
    rfl

/-- The lines of `serverlist_full`, as records. -/
theorem exists_srvList (lines : List SrvLine) :
    ∃ f : SrvList, f.lines.Perm lines ∧ sort (lines.map SrvLine.text) =
      f.lines.map SrvLine.text := by
  have hmap : (lines.insertionSort fun l m => l.text ≤ m.text).map SrvLine.text =
      sort (lines.map SrvLine.text) :=
    List.map_insertionSort _ _ _ _ fun _ _ _ _ => Iff.rfl
  refine ⟨⟨lines.insertionSort fun l m => l.text ≤ m.text, ?_⟩, List.perm_insertionSort _ _,
    hmap.symm⟩
  rw [hmap]
  exact pairwise_sort _

def failures (log : List Ask) : Nat := log.countP fun a => !a.ok

section Place

variable (f : SrvList) (servername : Text) (randvalue base : Nat)

/-- Each call asks the mirror whose place is the number of the calls that have failed. -/
def InPlace (log : List Ask) : Prop := ∀ i a, log[i]? = some a →
  a.servername = (f.calls servername randvalue (base + failures (log.take i))).servername

/-- The files of the mirrors are those that so many calls of `fetch_pick_server` leave. -/
structure Position (r : MirrorRun) : Prop where
  mirrors : ∃ list, r.mirrors =
    { f.calls servername randvalue (base + failures r.log) with list := list }
  le : base + failures r.log ≤ f.lines.length
  inPlace : InPlace f servername randvalue base r.log

variable {f servername randvalue base} {r : MirrorRun}

theorem failures_append (log log' : List Ask) :
    failures (log ++ log') = failures log + failures log' := List.countP_append

theorem failures_singleton (a : Ask) : failures [a] = if a.ok then 0 else 1 := by
  unfold failures
  rw [List.countP_singleton]
  cases a.ok <;> rfl

theorem InPlace.concat {log : List Ask} {a : Ask} (h : InPlace f servername randvalue base log)
    (ha : a.servername =
      (f.calls servername randvalue (base + failures log)).servername) :
    InPlace f servername randvalue base (log ++ [a]) := by
  intro i b hb
  by_cases hi : i < log.length
  · rw [List.getElem?_append_left hi] at hb
    rw [List.take_append_of_le_length (by omega)]
    exact h i b hb
  · have hlast : i = log.length := by
      have hlt := (List.getElem?_eq_some_iff.mp hb).1
      rw [List.length_append, List.length_singleton] at hlt
      omega
    subst hlast
    rw [List.getElem?_concat_length] at hb
    cases hb
    rw [List.take_left]
    exact ha

variable (f servername randvalue) in
theorem calls_returns {k : Nat} (hk : k < f.lines.length) :
    (fetchPickServer randvalue (f.calls servername randvalue k)).1 = true := by
  obtain ⟨picked, hlen, _, _, hcalls⟩ := f.calls_spec servername randvalue (k := k + 1) hk
  obtain ⟨l, hl⟩ : ∃ l, picked[k]? = some l :=
    ⟨picked.get ⟨k, by omega⟩, List.getElem?_eq_getElem (by omega)⟩
  exact (hcalls k l hl).1.returns

variable (f servername randvalue) in
/-- So many calls as there are lines pick all of them. -/
theorem calls_pick_all : ∃ picked, picked.Perm f.lines ∧
    f.At picked (f.calls servername randvalue f.lines.length) ∧
    ∀ k l, picked[k]? = some l →
      f.Call (picked.take k) (f.calls servername randvalue k) randvalue l := by
  obtain ⟨picked, hlen, hcount, hat, hcalls⟩ := f.calls_spec servername randvalue le_rfl
  refine ⟨picked, ?_, hat, fun k l hl => (hcalls k l hl).1⟩
  apply List.Subperm.perm_of_length_le _ hlen.ge
  rw [List.subperm_ext_iff]
  exact fun l _ => hcount l

variable (f servername randvalue) in
theorem calls_give_up :
    (fetchPickServer randvalue (f.calls servername randvalue f.lines.length)).1 = false := by
  obtain ⟨picked, hperm, hat, _⟩ := calls_pick_all f servername randvalue
  refine hat.none_left (List.eq_nil_iff_forall_not_mem.mpr fun l hl => ?_) randvalue
  have hlt := SrvList.mem_untried.mp hl
  rw [hperm.count_eq] at hlt
  exact lt_irrefl _ hlt

/-- `serverlist` is written before it is read. -/
theorem fetchPickServer_list (m : Mirrors) (list : List Text) :
    fetchPickServer randvalue { m with list := list } = fetchPickServer randvalue m := rfl

end Place

section Loop

variable {t : Tools} {cfg : Config} {net : Net} {f : SrvList} {servername : Text} {base : Nat}
variable {request : Request} {r r' : MirrorRun} {asks : List Ask}

/-- The calls of one loop: all but the last have failed. -/
structure Calls (request : Request) (asks : List Ask) (ok : Bool) : Prop where
  request : ∀ a ∈ asks, a.request = request
  failed : ∀ a ∈ asks.dropLast, a.ok = false
  last : ∃ a, asks.getLast? = some a ∧ a.ok = ok

theorem Calls.singleton (a : Ask) : Calls a.request [a] a.ok where
  request := by
    intro b hb
    rw [List.mem_singleton.mp hb]
  failed := nofun
  last := ⟨a, rfl, rfl⟩

theorem Calls.cons {a : Ask} {ok : Bool} (h : Calls request asks ok) (hrequest : a.request = request)
    (ha : a.ok = false) : Calls request (a :: asks) ok := by
  obtain ⟨b, hb, hok⟩ := h.last
  have hne : asks ≠ [] := by
    rintro rfl
    cases hb
  refine ⟨List.forall_mem_cons.mpr ⟨hrequest, h.request⟩, ?_, b, ?_, hok⟩
  · rw [List.dropLast_cons_of_ne_nil hne]
    exact List.forall_mem_cons.mpr ⟨ha, h.failed⟩
  · rw [List.getLast?_cons, hb]
    rfl

theorem Calls.eq_concat {ok : Bool} (h : Calls request asks ok) :
    ∃ fails a, asks = fails ++ [a] ∧ (∀ b ∈ fails, b.ok = false) ∧ a.ok = ok := by
  obtain ⟨a, ha, hok⟩ := h.last
  have heq := List.dropLast_append_getLast? a ha
  exact ⟨asks.dropLast, a, heq.symm, h.failed, hok⟩

theorem Calls.length {ok : Bool} (h : Calls request asks ok) :
    asks.length = failures asks + if ok then 1 else 0 := by
  obtain ⟨fails, a, rfl, hfails, rfl⟩ := h.eq_concat
  have hall : failures fails = fails.length := by
    apply List.countP_eq_length.mpr
    intro b hb
    rw [hfails b hb]
    rfl
  rw [failures_append, failures_singleton, hall, List.length_append, List.length_singleton]
  cases a.ok <;> rfl

/-- What a loop has done. -/
structure Retried (t : Tools) (cfg : Config) (net : Net) (f : SrvList) (servername : Text)
    (base : Nat) (request : Request) (r : MirrorRun) (asks : List Ask) (ok : Bool)
    (r' : MirrorRun) : Prop where
  log : r'.log = r.log ++ asks
  calls : Calls request asks ok
  run : (anyLine (asks.map fun a => net.mirror a.servername) (ask t cfg request) r.dir).result =
    (ok, r'.dir)
  inPlace : InPlace f servername net.randvalue base r'.log
  found : ok = true → Position f servername net.randvalue base r' ∧
    ∀ a, asks.getLast? = some a → r'.mirrors.servername = a.servername
  exhausted : ok = false → base + failures r'.log = f.lines.length + 1

/-- The mirror in hand is the one whose turn it is. -/
theorem Position.concat (h : Position f servername net.randvalue base r) (ok : Bool) :
    InPlace f servername net.randvalue base
      (r.log ++ [⟨request, r.mirrors.servername, ok⟩]) := by
  obtain ⟨list, hmirrors⟩ := h.mirrors
  apply h.inPlace.concat
  rw [hmirrors]

section Asked

variable {dir : Dir}

/-- A call that succeeds ends the loop. -/
theorem Position.asked_ok (h : Position f servername net.randvalue base r)
    (hresult : (ask t cfg request (net.mirror r.mirrors.servername) r.dir).result = (true, dir)) :
    Retried t cfg net f servername base request r [⟨request, r.mirrors.servername, true⟩] true
      ⟨dir, r.mirrors, r.log ++ [⟨request, r.mirrors.servername, true⟩]⟩ where
  log := rfl
  calls := Calls.singleton ⟨request, r.mirrors.servername, true⟩
  run := anyLine_result_true hresult
  inPlace := h.concat true
  found _ := by
    obtain ⟨list, hmirrors⟩ := h.mirrors
    have hfailures : failures (r.log ++ [⟨request, r.mirrors.servername, true⟩]) =
        failures r.log := by
      rw [failures_append, failures_singleton]
      rfl
    refine ⟨⟨⟨list, ?_⟩, ?_, h.concat true⟩, fun a ha => ?_⟩
    · rw [hfailures]
      exact hmirrors
    · rw [hfailures]
      exact h.le
    · cases ha
      rfl
  exhausted := nofun

theorem failures_concat_failed (log : List Ask) (servername : Text) :
    failures (log ++ [⟨request, servername, false⟩]) = failures log + 1 := by
  rw [failures_append, failures_singleton]
  rfl

/-- A call that fails ends the loop when all mirrors have been picked. -/
theorem Position.asked_last (h : Position f servername net.randvalue base r)
    (hlast : base + failures r.log = f.lines.length) (mirrors : Mirrors)
    (hresult : (ask t cfg request (net.mirror r.mirrors.servername) r.dir).result = (false, dir)) :
    Retried t cfg net f servername base request r [⟨request, r.mirrors.servername, false⟩] false
      ⟨dir, mirrors, r.log ++ [⟨request, r.mirrors.servername, false⟩]⟩ where
  log := rfl
  calls := Calls.singleton ⟨request, r.mirrors.servername, false⟩
  run := (anyLine_result_false hresult).trans rfl
  inPlace := h.concat false
  found := nofun
  exhausted _ := by rw [failures_concat_failed, ← hlast, Nat.add_assoc]

variable (request) in
/-- Another mirror is picked after a call that fails. -/
theorem Position.asked_next (h : Position f servername net.randvalue base r)
    (hleft : base + failures r.log < f.lines.length) (dir : Dir) :
    Position f servername net.randvalue base
      ⟨dir, f.calls servername net.randvalue (base + failures r.log + 1),
        r.log ++ [⟨request, r.mirrors.servername, false⟩]⟩ := by
  refine ⟨⟨(f.calls servername net.randvalue (base + failures r.log + 1)).list, ?_⟩, ?_,
    h.concat false⟩
  · rw [failures_concat_failed, ← Nat.add_assoc]
  · rw [failures_concat_failed]
    omega

/-- The loop that goes on after a call that has failed. -/
theorem Retried.cons {mirrors : Mirrors} {ok : Bool}
    (hresult : (ask t cfg request (net.mirror r.mirrors.servername) r.dir).result = (false, dir))
    (h : Retried t cfg net f servername base request
      ⟨dir, mirrors, r.log ++ [⟨request, r.mirrors.servername, false⟩]⟩ asks ok r') :
    Retried t cfg net f servername base request r
      (⟨request, r.mirrors.servername, false⟩ :: asks) ok r' where
  log := by
    rw [h.log, List.append_assoc]
    rfl
  calls := h.calls.cons rfl rfl
  run := by
    rw [List.map_cons]
    exact (anyLine_result_false hresult).trans h.run
  inPlace := h.inPlace
  found hok := by
    obtain ⟨hfound, hname⟩ := h.found hok
    refine ⟨hfound, fun b hb => hname b ?_⟩
    obtain ⟨c, hc, _⟩ := h.calls.last
    rw [List.getLast?_cons, hc] at hb
    rw [hc]
    exact hb
  exhausted := h.exhausted

end Asked

/-- What `fetch_pick_server` makes of the mirrors does not depend on `serverlist`. -/
theorem Position.pick_eq (h : Position f servername net.randvalue base r) :
    fetchPickServer net.randvalue r.mirrors = fetchPickServer net.randvalue
      (f.calls servername net.randvalue (base + failures r.log)) := by
  obtain ⟨list, hmirrors⟩ := h.mirrors
  rw [hmirrors, fetchPickServer_list]

variable (t cfg request) in
theorem retry_spec {fuel : Nat} (h : Position f servername net.randvalue base r)
    (hfuel : f.lines.length < fuel + (base + failures r.log)) :
    ∃ asks ok r', retry t cfg net request fuel r = some (ok, r') ∧
      Retried t cfg net f servername base request r asks ok r' := by
  induction fuel generalizing r with
  | zero => exact absurd h.le (by omega)
  | succ fuel ih =>
    generalize ho : ask t cfg request (net.mirror r.mirrors.servername) r.dir = o
    have hresult : (ask t cfg request (net.mirror r.mirrors.servername) r.dir).result =
        (o.value, o.state) := by
      rw [ho]
      rfl
    unfold retry
    simp only [ho]
    cases hvalue : o.value with
    | true =>
      rw [hvalue] at hresult
      exact ⟨_, true, _, rfl, h.asked_ok hresult⟩
    | false =>
      rw [hvalue] at hresult
      simp only [Bool.false_eq_true, if_false]
      rw [h.pick_eq]
      by_cases hlast : base + failures r.log = f.lines.length
      · have hgive := calls_give_up f servername net.randvalue
        rw [← hlast] at hgive
        generalize fetchPickServer net.randvalue
          (f.calls servername net.randvalue (base + failures r.log)) = next at hgive
        obtain ⟨ok, mirrors⟩ := next
        cases hgive
        exact ⟨_, false, _, rfl, h.asked_last hlast mirrors hresult⟩
      · have hleft : base + failures r.log < f.lines.length := lt_of_le_of_ne h.le hlast
        have hcalls : fetchPickServer net.randvalue
            (f.calls servername net.randvalue (base + failures r.log)) =
            (true, f.calls servername net.randvalue (base + failures r.log + 1)) :=
          Prod.ext (calls_returns f servername net.randvalue hleft) rfl
        rw [hcalls]
        have hnext := h.asked_next request hleft o.state
        obtain ⟨asks, ok, r', hretry, hr'⟩ := ih hnext (by
          rw [failures_concat_failed]
          omega)
        exact ⟨_, ok, r', hretry, hr'.cons hresult⟩

/-- What the mirrors have answered to the calls. -/
def tagAnswers (net : Net) (which : Which) (asks : List Ask) : List (Option Bytes) :=
  asks.map fun a => (net.mirror a.servername).ssl which

def keyAnswers (net : Net) (asks : List Ask) : List (Option Bytes) :=
  asks.map fun a => (net.mirror a.servername).pub

/-- A server with these answers, and the rest from one mirror. -/
def Answers (net : Net) (m : Mirror) (srv : Server) : Prop :=
  srv = m.server net.now srv.pubs srv.ssls

/-- What `fetch_snapshot` or `fetch_update` has done, as a run of `whole` on one server. -/
structure Phase (net : Net) (f : SrvList) (servername : Text) (base : Nat) (which : Which)
    (whole : Server → Script Dir Bool) (r : MirrorRun) (asks : List Ask) (ok value : Bool)
    (r' : MirrorRun) : Prop where
  log : r'.log = r.log ++ asks
  calls : Calls (.tag which) asks ok
  inPlace : InPlace f servername net.randvalue base r'.log
  found : ok = true → Position f servername net.randvalue base r'
  exhausted : ok = false → value = false ∧ base + failures r'.log = f.lines.length + 1
  run : ∀ srv a, asks.getLast? = some a → srv.ssls which = tagAnswers net which asks →
    Answers net (net.mirror a.servername) srv → (whole srv r.dir).result = (value, r'.dir)

theorem Retried.tags {which : Which} {ok : Bool} {srv : Server}
    (h : Retried t cfg net f servername base (.tag which) r asks ok r')
    (hssls : srv.ssls which = tagAnswers net which asks) :
    (anyLine (srv.ssls which) (fetchTag t which) r.dir).result = (ok, r'.dir) := by
  rw [hssls, tagAnswers, anyLine_map]
  have hrun := h.run
  rw [anyLine_map] at hrun
  exact hrun

/-- The rest of a function, from the mirror that has answered. -/
theorem Retried.phase {which : Which} (whole rest : Server → Script Dir Bool) {ok : Bool}
    (start : MirrorRun)
    (h : Retried t cfg net f servername base (.tag which) r asks ok r')
    (hlog : r.log = start.log)
    (hwhole : ∀ srv, (whole srv start.dir).result =
      (orFail (anyLine (srv.ssls which) (fetchTag t which)) (rest srv) r.dir).result)
    (hrest : ∀ m pubs ssls, rest (Mirror.server m net.now pubs ssls) =
      rest (m.server net.now [] fun _ => [])) :
    Phase net f servername base which whole start asks ok
      (if ok then (r'.after (rest (r'.server net))).1 else false)
      (if ok then (r'.after (rest (r'.server net))).2 else r') := by
  cases ok with
  | false =>
    refine ⟨hlog ▸ h.log, h.calls, h.inPlace, nofun, fun hok => ⟨rfl, h.exhausted hok⟩, ?_⟩
    intro srv a _ hssls _
    rw [hwhole]
    exact orFail_result_false (h.tags hssls)
  | true =>
    obtain ⟨hposition, hname⟩ := h.found rfl
    refine ⟨hlog ▸ h.log, h.calls, h.inPlace, fun _ => ?_, nofun, ?_⟩
    · exact ⟨hposition.mirrors, hposition.le, hposition.inPlace⟩
    · intro srv a ha hssls hanswers
      rw [hwhole, orFail_result_true (h.tags hssls), hanswers, hrest, ← hname a ha]
      rfl

variable (t cfg) in
theorem fetchUpdateOver_spec {fuel : Nat} (h : Position f servername net.randvalue base r)
    (hfuel : f.lines.length < fuel + (base + failures r.log)) :
    ∃ asks ok value r', fetchUpdateOver t cfg net fuel r = some (value, r') ∧
      Phase net f servername base .latest (fetchUpdate t cfg) r asks ok value r' := by
  have hstart : Position f servername net.randvalue base
      { r with dir := { r.dir with INDEXnew := none } } := ⟨h.mirrors, h.le, h.inPlace⟩
  obtain ⟨asks, ok, r', hretry, hr'⟩ :=
    retry_spec t cfg (.tag .latest) hstart hfuel
  have hphase := hr'.phase (fetchUpdate t cfg)
    (fun srv => updateRest t cfg srv (r.dir.tag.getD [])) r rfl (fun _ => rfl) fun _ _ _ => rfl
  refine ⟨asks, ok, _, _, ?_, hphase⟩
  unfold fetchUpdateOver
  dsimp only
  rw [hretry]
  cases ok <;> rfl

variable (t cfg) in
theorem fetchSnapshotOver_spec {fuel : Nat} (h : Position f servername net.randvalue base r)
    (hfuel : f.lines.length < fuel + (base + failures r.log)) :
    ∃ asks ok value r', fetchSnapshotOver t cfg net fuel r = some (value, r') ∧
      Phase net f servername base .snapshot (fetchSnapshot t) r asks ok value r' := by
  obtain ⟨asks, ok, r', hretry, hr'⟩ :=
    retry_spec t cfg (.tag .snapshot) h hfuel
  have hphase := hr'.phase (fetchSnapshot t) (snapshotRest t) r rfl (fun _ => rfl)
    fun _ _ _ => rfl
  refine ⟨asks, ok, _, _, ?_, hphase⟩
  unfold fetchSnapshotOver
  rw [hretry]
  cases ok <;> rfl

end Loop

section Order

variable {f : SrvList} {servername : Text} {randvalue : Nat} {picked : List SrvLine}

/-- The server names of a run, in the order in which they are asked. -/
def namesOf (servername : Text) (picked : List SrvLine) : List Text :=
  if picked = [] then [servername] else picked.map SrvLine.target

/-- One call of `fetch_pick_server` comes before the first question if there are mirrors. -/
def firstPlace (lines : List SrvLine) : Nat := if lines = [] then 0 else 1

theorem length_namesOf : (namesOf servername picked).length = picked.length + 1 - firstPlace picked := by
  unfold namesOf firstPlace
  split
  · next h => rw [h]; rfl
  · rw [List.length_map]
    rfl

/-- The lines in the order in which they are picked. -/
structure Picked (f : SrvList) (servername : Text) (randvalue : Nat) (picked : List SrvLine) :
    Prop where
  perm : picked.Perm f.lines
  order : picked.Pairwise fun l m => l.priority ≤ m.priority
  name : ∀ k l, picked[k]? = some l → (f.calls servername randvalue (k + 1)).servername = l.target

theorem exists_picked (f : SrvList) (servername : Text) (randvalue : Nat) :
    ∃ picked, Picked f servername randvalue picked := by
  obtain ⟨picked, hperm, _, hcalls⟩ := calls_pick_all f servername randvalue
  refine ⟨picked, hperm, ?_, fun k l hl => (hcalls k l hl).servername⟩
  rw [List.pairwise_iff_getElem]
  intro i j hi hj hij
  have hcall := hcalls i _ (List.getElem?_eq_getElem hi)
  apply hcall.lowest
  rw [SrvList.mem_untried, ← hperm.count_eq]
  -- the line at j is among those that are picked later
  have hdrop : picked[j] ∈ picked.drop i :=
    List.mem_drop_iff_getElem.mpr ⟨j - i, by omega, by simp only [Nat.add_sub_cancel' hij.le]⟩
  have hcount := congrArg (List.count picked[j]) (List.take_append_drop i picked)
  rw [List.count_append] at hcount
  have hpos := List.count_pos_iff.mpr hdrop
  omega

theorem Picked.nil_iff (h : Picked f servername randvalue picked) : picked = [] ↔ f.lines = [] := by
  rw [← List.length_eq_zero_iff, h.perm.length_eq, List.length_eq_zero_iff]

theorem Picked.firstPlace_eq (h : Picked f servername randvalue picked) :
    firstPlace picked = firstPlace f.lines := by
  unfold firstPlace
  simp only [h.nil_iff]

theorem Picked.length_names (h : Picked f servername randvalue picked) :
    (namesOf servername picked).length = f.lines.length + 1 - firstPlace f.lines := by
  rw [length_namesOf, h.perm.length_eq, h.firstPlace_eq]

theorem Picked.names (h : Picked f servername randvalue picked) {k : Nat}
    (hk : firstPlace f.lines + k ≤ f.lines.length) : (namesOf servername picked)[k]? =
      some (f.calls servername randvalue (firstPlace f.lines + k)).servername := by
  rw [← h.firstPlace_eq, ← h.perm.length_eq] at hk
  rw [← h.firstPlace_eq]
  unfold namesOf firstPlace at *
  split
  · next hnil =>
    rw [if_pos hnil, hnil, Nat.zero_add] at hk
    rw [Nat.le_zero.mp hk]
    rfl
  · next hne =>
    rw [if_neg hne] at hk
    have hlt : k < picked.length := by omega
    rw [List.getElem?_map, List.getElem?_eq_getElem hlt, Option.map_some,
      Nat.add_comm, h.name k _ (List.getElem?_eq_getElem hlt)]

end Order

section Run

variable {t : Tools} {cfg : Config} {net : Net}

/-- `fetch_run` with the snapshot from one server and the update from another. -/
def fetchRunFrom (t : Tools) (cfg : Config) (snap latest : Server) : Script Dir Bool :=
  orFail (anyLine snap.pubs (fetchKey t cfg)) <| do
    if ← read hasSnapshot then fetchUpdate t cfg latest
    else orFail (fetchSnapshot t snap) (fetchUpdate t cfg latest)

def asksFor (request : Request) (log : List Ask) : List Ask :=
  log.filter fun a => a.request = request

/-- The answers of a whole run, and the rest from one mirror. -/
def answered (net : Net) (log : List Ask) (m : Mirror) : Server :=
  m.server net.now (keyAnswers net (asksFor .key log)) fun which =>
    tagAnswers net which (asksFor (.tag which) log)

/-- A run asks the mirrors in turn, and does what `fetch_run` does with their answers. -/
structure InTurn (t : Tools) (cfg : Config) (net : Net) (names : List Text) (d : Dir)
    (value : Bool) (r : MirrorRun) : Prop where
  place : ∀ i a, r.log[i]? = some a → names[failures (r.log.take i)]? = some a.servername
  bound : r.log.length ≤ names.length + 2
  gaveUp : ∀ a, r.log.getLast? = some a → a.ok = false →
    value = false ∧ failures r.log = names.length
  run : ∃ snap latest,
    (∀ a, (asksFor (.tag .snapshot) r.log).getLast? = some a → snap = net.mirror a.servername) ∧
    (∀ a, (asksFor (.tag .latest) r.log).getLast? = some a → latest = net.mirror a.servername) ∧
    (fetchRunFrom t cfg (answered net r.log snap) (answered net r.log latest) d).result =
      (value, r.dir)

variable (net) in
theorem fetchPickServerInit_position (mirrors : Mirrors)
    (output : Option (List (HostLine (mlistOf mirrors.servername)))) (d : Dir) :
    ∃ f : SrvList, f.lines.Perm (output.elim [] records) ∧
      Position f mirrors.servername net.randvalue (firstPlace f.lines)
        ⟨d, let (found, m) := fetchPickServerInit (output.map (List.map HostLine.text)) mirrors
          if found then (fetchPickServer net.randvalue m).2 else m, []⟩ := by
  cases output with
  | none =>
    refine ⟨⟨[], List.Pairwise.nil⟩, List.Perm.refl _, ⟨⟨mirrors.list, rfl⟩, le_rfl, nofun⟩⟩
  | some output =>
    obtain ⟨f, hperm, hfull⟩ := exists_srvList (records output)
    refine ⟨f, hperm, ?_⟩
    have hinit : fetchPickServerInit ((some output).map (List.map HostLine.text)) mirrors =
        (!(f.lines.map SrvLine.text).isEmpty,
          { f.calls mirrors.servername net.randvalue 0 with list := mirrors.list }) := by
      unfold fetchPickServerInit
      rw [Option.map_some]
      dsimp only
      rw [serverlistFull_text, hfull]
      rfl
    rw [hinit]
    by_cases hnil : f.lines = []
    · have hfirst : firstPlace f.lines = 0 := if_pos hnil
      rw [hnil, List.map_nil, List.isEmpty_nil] at *
      refine ⟨⟨mirrors.list, ?_⟩, ?_, nofun⟩
      · rfl
      · exact Nat.zero_le _
    · have hfirst : firstPlace f.lines = 1 := if_neg hnil
      have hempty : (f.lines.map SrvLine.text).isEmpty = false := by
        rw [List.isEmpty_eq_false_iff, ne_eq, List.map_eq_nil_iff]
        exact hnil
      rw [hempty, hfirst]
      refine ⟨⟨(f.calls mirrors.servername net.randvalue 1).list, ?_⟩, ?_, nofun⟩
      · exact congrArg Prod.snd (fetchPickServer_list _ _)
      · exact List.length_pos_iff.mpr hnil

variable {f : SrvList} {servername : Text} {base : Nat} {picked : List SrvLine}
variable {request : Request} {asks : List Ask} {r : MirrorRun} {ok value : Bool}

theorem asksFor_of_forall {log : List Ask} (h : ∀ a ∈ log, a.request = request) (other : Request) :
    asksFor other log = if request = other then log else [] := by
  unfold asksFor
  split
  · next heq => exact List.filter_eq_self.mpr fun a ha => decide_eq_true ((h a ha).trans heq)
  · next hne =>
    refine List.filter_eq_nil_iff.mpr fun a ha => ?_
    rw [h a ha]
    exact fun heq => hne (of_decide_eq_true heq)

/-- The calls of a run, loop by loop. -/
structure Split (log keys snaps latests : List Ask) : Prop where
  log : log = keys ++ (snaps ++ latests)
  keys : ∀ a ∈ keys, a.request = .key
  snaps : ∀ a ∈ snaps, a.request = .tag .snapshot
  latests : ∀ a ∈ latests, a.request = .tag .latest

theorem Split.asksFor {log keys snaps latests : List Ask} (h : Split log keys snaps latests) :
    asksFor .key log = keys ∧ asksFor (.tag .snapshot) log = snaps ∧
      asksFor (.tag .latest) log = latests := by
  have hall (other : Request) : DeltaPorts.Portsnap.Failover.asksFor other log =
      (if Request.key = other then keys else []) ++
        ((if Request.tag .snapshot = other then snaps else []) ++
          if Request.tag .latest = other then latests else []) := by
    rw [← asksFor_of_forall h.keys, ← asksFor_of_forall h.snaps, ← asksFor_of_forall h.latests,
      h.log]
    unfold DeltaPorts.Portsnap.Failover.asksFor
    rw [List.filter_append, List.filter_append]
  refine ⟨?_, ?_, ?_⟩
  · rw [hall]
    simp
  · rw [hall]
    simp
  · rw [hall]
    simp

/-- Where a run stands when it ends. -/
structure Ended (net : Net) (f : SrvList) (servername : Text) (base : Nat) (ok value : Bool)
    (r : MirrorRun) : Prop where
  inPlace : InPlace f servername net.randvalue base r.log
  last : ∃ a, r.log.getLast? = some a ∧ a.ok = ok
  found : ok = true → base + failures r.log ≤ f.lines.length
  exhausted : ok = false → value = false ∧ base + failures r.log = f.lines.length + 1
  length : r.log.length ≤ failures r.log + 2 + if ok then 1 else 0

theorem Ended.place (h : Ended net f servername (firstPlace f.lines) ok value r)
    (hpicked : Picked f servername net.randvalue picked) (i : Nat) (a : Ask)
    (ha : r.log[i]? = some a) :
    (namesOf servername picked)[failures (r.log.take i)]? = some a.servername := by
  have hlt := (List.getElem?_eq_some_iff.mp ha).1
  have hle : firstPlace f.lines + failures (r.log.take i) ≤ f.lines.length := by
    have htotal := congrArg failures (List.take_append_drop i r.log)
    rw [failures_append] at htotal
    cases ok with
    | true =>
      have hfound := h.found rfl
      omega
    | false =>
      -- the last call is not among the calls before one of the log
      obtain ⟨b, hb, hok⟩ := h.last
      have hmem : b ∈ r.log.drop i := by
        have hne : r.log.drop i ≠ [] := by
          rw [ne_eq, List.drop_eq_nil_iff]
          omega
        rw [List.getLast?_eq_some_getLast (by rintro hnil; rw [hnil] at hlt; cases hlt)] at hb
        rw [← Option.some.inj hb, ← List.getLast_drop hne]
        exact List.getLast_mem hne
      have hpos : 0 < failures (r.log.drop i) :=
        List.countP_pos_iff.mpr ⟨b, hmem, by rw [hok]; rfl⟩
      have hexhausted := (h.exhausted rfl).2
      omega
  rw [hpicked.names hle, h.inPlace i a ha]

theorem Ended.inTurn (h : Ended net f servername (firstPlace f.lines) ok value r) {d : Dir}
    (hpicked : Picked f servername net.randvalue picked)
    (hrun : ∃ snap latest,
      (∀ a, (asksFor (.tag .snapshot) r.log).getLast? = some a → snap = net.mirror a.servername) ∧
      (∀ a, (asksFor (.tag .latest) r.log).getLast? = some a → latest = net.mirror a.servername) ∧
      (fetchRunFrom t cfg (answered net r.log snap) (answered net r.log latest) d).result =
        (value, r.dir)) :
    InTurn t cfg net (namesOf servername picked) d value r := by
  have hfirst : firstPlace f.lines ≤ 1 := by
    unfold firstPlace
    split <;> omega
  have hfirst' : firstPlace f.lines ≤ f.lines.length := by
    unfold firstPlace
    split
    · exact Nat.zero_le _
    · next hne => exact List.length_pos_iff.mpr hne
  refine ⟨h.place hpicked, ?_, ?_, hrun⟩
  · have hlength := h.length
    rw [hpicked.length_names]
    cases ok with
    | true =>
      have hfound := h.found rfl
      rw [if_pos rfl] at hlength
      omega
    | false =>
      have hexhausted := (h.exhausted rfl).2
      simp only [Bool.false_eq_true, if_false] at hlength
      omega
  · intro a ha hok
    obtain ⟨b, hb, hb'⟩ := h.last
    rw [ha] at hb
    cases hb
    rw [hok] at hb'
    cases hb'
    obtain ⟨hvalue, hexhausted⟩ := h.exhausted rfl
    refine ⟨hvalue, ?_⟩
    rw [hpicked.length_names]
    omega

theorem Calls.last_append (h : Calls request asks ok) (log : List Ask) :
    ∃ a, (log ++ asks).getLast? = some a ∧ a.ok = ok := by
  obtain ⟨a, ha, hok⟩ := h.last
  refine ⟨a, ?_, hok⟩
  rw [List.getLast?_append, ha]
  rfl

theorem Phase.ended {which : Which} {whole : Server → Script Dir Bool} {r' : MirrorRun}
    (h : Phase net f servername base which whole r asks ok value r')
    (hlength : r.log.length ≤ failures r.log + 2) : Ended net f servername base ok value r' where
  inPlace := h.inPlace
  last := h.log ▸ h.calls.last_append r.log
  found hok := (h.found hok).le
  exhausted := h.exhausted
  length := by
    rw [h.log, List.length_append, failures_append, h.calls.length]
    omega

theorem Retried.keys {r' : MirrorRun} {pubs : List (Option Bytes)}
    (h : Retried t cfg net f servername base .key r asks ok r')
    (hpubs : pubs = keyAnswers net asks) :
    (anyLine pubs (fetchKey t cfg) r.dir).result = (ok, r'.dir) := by
  rw [hpubs, keyAnswers, anyLine_map]
  have hrun := h.run
  rw [anyLine_map] at hrun
  exact hrun

variable (net) in
/-- The mirror of the last call of a phase. -/
theorem Calls.mirror (h : Calls request asks ok) :
    ∃ m, ∀ a, asks.getLast? = some a → m = net.mirror a.servername := by
  obtain ⟨a, ha, _⟩ := h.last
  refine ⟨net.mirror a.servername, fun b hb => ?_⟩
  rw [ha] at hb
  cases hb
  rfl

section FetchRunFrom

variable {snap latest : Server} {d u : Dir}

theorem fetchRunFrom_update (hkeys : (anyLine snap.pubs (fetchKey t cfg) d).result = (true, u))
    (hsnapshot : hasSnapshot u = true) :
    (fetchRunFrom t cfg snap latest d).result = (fetchUpdate t cfg latest u).result := by
  refine (orFail_result_true hkeys).trans ?_
  simp only [bind, Script.read, hsnapshot, if_true]
  rfl

theorem fetchRunFrom_snapshot (hkeys : (anyLine snap.pubs (fetchKey t cfg) d).result = (true, u))
    (hsnapshot : hasSnapshot u = false) : (fetchRunFrom t cfg snap latest d).result =
      (orFail (fetchSnapshot t snap) (fetchUpdate t cfg latest) u).result := by
  refine (orFail_result_true hkeys).trans ?_
  simp only [bind, Script.read, hsnapshot, Bool.false_eq_true, if_false]
  rfl

end FetchRunFrom

/-- The part of a run after the loop that fetches the key. -/
structure Keyed (t : Tools) (cfg : Config) (net : Net) (f : SrvList) (servername : Text)
    (d : Dir) (keys : List Ask) (r : MirrorRun) : Prop where
  log : r.log = keys
  calls : Calls .key keys true
  position : Position f servername net.randvalue (firstPlace f.lines) r
  run : ∀ log m, asksFor .key log = keys →
    (anyLine (answered net log m).pubs (fetchKey t cfg) d).result = (true, r.dir)

theorem Keyed.length {keys : List Ask} {d : Dir} (h : Keyed t cfg net f servername d keys r) :
    r.log.length ≤ failures r.log + 1 := by
  rw [h.log]
  exact h.calls.length.le

/-- There is a snapshot. -/
theorem Keyed.update {keys : List Ask} {d : Dir} (h : Keyed t cfg net f servername d keys r)
    (hpicked : Picked f servername net.randvalue picked) (hsnapshot : hasSnapshot r.dir = true)
    {fuel : Nat} (hfuel : f.lines.length < fuel) :
    ∃ value r', fetchUpdateOver t cfg net fuel r = some (value, r') ∧
      InTurn t cfg net (namesOf servername picked) d value r' := by
  obtain ⟨latests, ok, value, r', hover, hphase⟩ :=
    fetchUpdateOver_spec t cfg h.position (Nat.lt_add_right _ hfuel)
  have hlength := h.length
  obtain ⟨m, hm⟩ := hphase.calls.mirror net
  obtain ⟨a, ha, _⟩ := hphase.calls.last
  have hsplit : Split r'.log keys [] latests :=
    ⟨h.log ▸ hphase.log, h.calls.request, nofun, hphase.calls.request⟩
  obtain ⟨hkey, hsnap, hlatest⟩ := hsplit.asksFor
  refine ⟨value, r', hover, (hphase.ended (by omega)).inTurn hpicked ⟨m, m, ?_, ?_, ?_⟩⟩
  · rw [hsnap]
    exact nofun
  · rw [hlatest]
    exact hm
  · rw [fetchRunFrom_update (h.run _ m hkey) hsnapshot]
    exact hphase.run _ a ha (congrArg (tagAnswers net .latest) hlatest) (hm a ha ▸ rfl)

/-- There is none, and it is fetched first. -/
theorem Keyed.snapshot {keys : List Ask} {d : Dir} (h : Keyed t cfg net f servername d keys r)
    (hpicked : Picked f servername net.randvalue picked) (hsnapshot : hasSnapshot r.dir = false)
    {fuel : Nat} (hfuel : f.lines.length < fuel) :
    ∃ value r', (match fetchSnapshotOver t cfg net fuel r with
      | none => none
      | some (false, r) => some (false, r)
      | some (true, r) => fetchUpdateOver t cfg net fuel r) = some (value, r') ∧
      InTurn t cfg net (namesOf servername picked) d value r' := by
  obtain ⟨snaps, ok, value, u, hover, hphase⟩ :=
    fetchSnapshotOver_spec t cfg h.position (Nat.lt_add_right _ hfuel)
  have hlength := h.length
  obtain ⟨m, hm⟩ := hphase.calls.mirror net
  obtain ⟨a, ha, _⟩ := hphase.calls.last
  have hlog : u.log = keys ++ snaps := h.log ▸ hphase.log
  have hsnaps (log : List Ask) (hasks : asksFor (.tag .snapshot) log = snaps) :
      (fetchSnapshot t (answered net log m) r.dir).result = (value, u.dir) :=
    hphase.run _ a ha (congrArg (tagAnswers net .snapshot) hasks) (hm a ha ▸ rfl)
  rw [hover]
  cases value with
  | false =>
    have hsplit : Split u.log keys snaps [] :=
      ⟨hlog.trans (by rw [List.append_nil]), h.calls.request, hphase.calls.request, nofun⟩
    obtain ⟨hkey, hsnap, hlatest⟩ := hsplit.asksFor
    refine ⟨false, u, rfl, (hphase.ended (by omega)).inTurn hpicked ⟨m, m, ?_, ?_, ?_⟩⟩
    · rw [hsnap]
      exact hm
    · rw [hlatest]
      exact nofun
    · rw [fetchRunFrom_snapshot (h.run _ m hkey) hsnapshot]
      exact orFail_result_false (hsnaps _ hsnap)
  | true =>
    have hok : ok = true := by
      by_contra hok
      cases (hphase.exhausted (Bool.eq_false_iff.mpr hok)).1
    obtain ⟨latests, ok', value, r', hover', hphase'⟩ :=
      fetchUpdateOver_spec t cfg (hphase.found hok) (Nat.lt_add_right _ hfuel)
    obtain ⟨m', hm'⟩ := hphase'.calls.mirror net
    obtain ⟨a', ha', _⟩ := hphase'.calls.last
    have hlength' : u.log.length ≤ failures u.log + 2 := by
      rw [hphase.log, List.length_append, failures_append, hphase.calls.length, hok, if_pos rfl]
      omega
    have hsplit : Split r'.log keys snaps latests :=
      ⟨by rw [hphase'.log, hlog, List.append_assoc], h.calls.request, hphase.calls.request,
        hphase'.calls.request⟩
    obtain ⟨hkey, hsnap, hlatest⟩ := hsplit.asksFor
    refine ⟨value, r', hover', (hphase'.ended hlength').inTurn hpicked ⟨m, m', ?_, ?_, ?_⟩⟩
    · rw [hsnap]
      exact hm
    · rw [hlatest]
      exact hm'
    · rw [fetchRunFrom_snapshot (h.run _ m hkey) hsnapshot,
        orFail_result_true (hsnaps _ hsnap)]
      exact hphase'.run _ a' ha' (congrArg (tagAnswers net .latest) hlatest) (hm' a' ha' ▸ rfl)

end Run

end DeltaPorts.Portsnap.Failover

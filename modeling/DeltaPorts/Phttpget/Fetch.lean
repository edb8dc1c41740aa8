import DeltaPorts.Library.Run
import DeltaPorts.Phttpget.Headers
import Mathlib.Logic.Function.Basic

/-!
# The main loop

`main` of `phttpget.c` from the connection on. Requests may run ahead of the responses; what
is sent and what is completed on each connection is kept as a history beside the variables.
-/

set_option autoImplicit false

namespace DeltaPorts.Phttpget

/-- What `main` takes from its arguments and the environment. -/
structure Env where
  proxy : Bool
  server : Bytes
  userAgent : Bytes
  proxyauth : Bytes
  argv : List Bytes
  /-- `open` of the file for an argument, on a connection. -/
  canOpen : Nat → Nat → Bool

variable (env : Env)

def Env.argc : Nat := env.argv.length

def Env.path (n : Nat) : Bytes := env.argv.getD n []

def makerequest (path : Bytes) (connclose : Bool) : Bytes :=
  ascii "GET " ++ (if env.proxy then ascii "http://" ++ env.server else []) ++ ascii "/" ++ path ++
    ascii " HTTP/1.1\r\n" ++ ascii "Host: " ++ env.server ++ ascii "\r\n" ++ ascii "User-Agent: " ++
    env.userAgent ++ ascii "\r\n" ++ env.proxyauth ++
    (if connclose then ascii "Connection: Close\r\n" else ascii "Connection: Keep-Alive\r\n") ++
    ascii "\r\n"

def Env.request (n : Nat) : Bytes := makerequest env (env.path n) (n + 1 == env.argc)

/-- The part of a path after the last slash. -/
def basename (path : Bytes) : Bytes := (path.reverse.takeWhile fun c => c != 47).reverse

/-- A call of `send` takes `more + 1` bytes, or all there are. -/
inductive SendResult where
  | sent (more : Nat)
  | eagain
  | failed

inductive SendError where
  | eagain
  | other

/-- What a loop of `send` has done. -/
structure Sent where
  bytes : Bytes
  left : Bytes
  error : Option SendError
  sends : List SendResult

def sendAll : List SendResult → Bytes → Sent
  | sends, [] => ⟨[], [], none, sends⟩
  | [], req => ⟨[], req, some .other, []⟩
  | .eagain :: sends, req => ⟨[], req, some .eagain, sends⟩
  | .failed :: sends, req => ⟨[], req, some .other, sends⟩
  | .sent more :: sends, req =>
    let r := sendAll sends (req.drop (more + 1))
    ⟨req.take (more + 1) ++ r.bytes, r.left, r.error, r.sends⟩

/-- What the sending part of a round has done: `wire` is what it has sent. -/
structure Sending where
  nreq : Nat
  reqbuf : Option Bytes
  sends : List SendResult
  wire : Bytes
  died : Bool

/-- Requests are constructed and sent without blocking. -/
def sendRequests (nreq : Nat) (reqbuf : Option Bytes) (sends : List SendResult) : Sending :=
  if nreq < env.argc then
    let r := sendAll sends (reqbuf.getD (env.request nreq))
    match r.error with
    | none =>
      let later := sendRequests (nreq + 1) none r.sends
      { later with wire := r.bytes ++ later.wire }
    | some .eagain => ⟨nreq, some r.left, r.sends, r.bytes, false⟩
    | some .other => ⟨nreq, some r.left, r.sends, r.bytes, true⟩
  else ⟨nreq, reqbuf, sends, [], false⟩
termination_by env.argc - nreq

def construct (pipelined : Bool) (nreq : Nat) (reqbuf : Option Bytes) (sends : List SendResult) :
    Sending :=
  if pipelined then sendRequests env nreq reqbuf sends
  else if nreq < env.argc ∧ reqbuf = none then ⟨nreq, some (env.request nreq), sends, [], false⟩
  else ⟨nreq, reqbuf, sends, [], false⟩

/-- The request of the next response is sent, blocking, where it has not been. -/
def blockingSend (nres : Nat) (s : Sending) : Sending :=
  if s.died = true ∨ nres ≠ s.nreq then s
  else
    let r := sendAll s.sends (s.reqbuf.getD [])
    match r.error with
    | none => ⟨s.nreq + 1, none, r.sends, s.wire ++ r.bytes, false⟩
    | some _ => ⟨s.nreq, some r.left, r.sends, s.wire ++ r.bytes, true⟩

structure Conn where
  sends : List SendResult
  sock : Sock

/-- One connection: `firstreq`, and the history of it. -/
structure Session where
  firstreq : Nat
  /-- The bytes sent. -/
  wire : Bytes
  /-- Status and body of the responses completed. -/
  completed : List (Nat × Bytes)

/-- The variables of `main`, the files, and the sessions before this one. -/
structure Main where
  nreq : Nat
  nres : Nat
  pipelined : Bool
  reqbuf : Option Bytes
  buf : Buf
  files : Bytes → Option Bytes
  closed : List Session
  sd : Option (Conn × Session)

inductive Step where
  | next (st : Main)
  | exit (st : Main)

def cleanupconn (st : Main) (session : Session) : Main :=
  { st with
    nreq := st.nres
    pipelined := false
    reqbuf := none
    buf := ⟨[], 0⟩
    closed := st.closed ++ [session]
    sd := none }

def conndied (st : Main) (conn : Conn) (session : Session) : Step :=
  if st.nres = session.firstreq then .exit { st with sd := some (conn, session) }
  else .next (cleanupconn st session)

def Session.complete (session : Session) (statuscode : Nat) (body : Bytes) : Session :=
  { session with completed := session.completed ++ [(statuscode, body)] }

/-- What follows the header: no body for 204 and 304, a file only for 200. -/
def receiveBody (st : Main) (conn : Conn) (session : Session) (head : Head) : Step :=
  if head.statuscode = 204 ∨ head.statuscode = 304 then
    .next { st with
      nres := st.nres + 1
      sd := some (conn, session.complete head.statuscode []) }
  else
    let fname := basename (env.path st.nres)
    if head.statuscode = 200 ∧ (fname = [] ∨ env.canOpen st.closed.length st.nres = false) then
      .exit { st with sd := some (conn, session) }
    else
      let body := readBody head conn.sock st.buf
      let files :=
        if head.statuscode = 200 then Function.update st.files fname (some body.written)
        else st.files
      if body.complete = false then
        conndied { st with files := files } ⟨conn.sends, body.sock⟩ session
      else
        let st := { st with
          nres := st.nres + 1
          pipelined := pipelinedAfter head
          buf := body.buf
          files := files }
        let session := session.complete head.statuscode body.written
        if st.pipelined = false ∧ head.keepalive = false then .next (cleanupconn st session)
        else .next { st with sd := some (⟨conn.sends, body.sock⟩, session) }

def receive (st : Main) (conn : Conn) (session : Session) : Step :=
  match readHeaders conn.sock st.buf ⟨0, none, false, false, st.pipelined⟩ with
  | none => conndied st conn session
  | some (head, sock, buf) =>
    receiveBody env { st with buf := buf, pipelined := head.pipelined } ⟨conn.sends, sock⟩ session
      head

/-- A round of the loop on a connected socket. -/
def exchange (st : Main) (conn : Conn) (session : Session) : Step :=
  let s := blockingSend st.nres (construct env st.pipelined st.nreq st.reqbuf conn.sends)
  let st := { st with nreq := s.nreq, reqbuf := s.reqbuf }
  let session := { session with wire := session.wire ++ s.wire }
  if s.died then conndied st ⟨s.sends, conn.sock⟩ session
  else receive env st ⟨s.sends, conn.sock⟩ session

/-- A round of the loop. `connect` gives the socket for the connection of a number that begins
at a file, when one of the addresses can be connected to. -/
def round (connect : Nat → Nat → Option Conn) (st : Main) : Step :=
  match st.sd with
  | some (conn, session) => exchange env st conn session
  | none =>
    match connect st.closed.length st.nres with
    | none => .exit st
    | some conn => exchange env st conn ⟨st.nres, [], []⟩

/-- The loop, with the exit status. -/
def run (connect : Nat → Nat → Option Conn) : Nat → Main → Option (Nat × Main)
  | 0, _ => none
  | rounds + 1, st =>
    if env.argc ≤ st.nres then some (0, st)
    else
      match round env connect st with
      | .exit st => some (1, st)
      | .next st => run connect rounds st

def start (files : Bytes → Option Bytes) : Main := ⟨0, 0, false, none, ⟨[], 0⟩, files, [], none⟩

/-- What `f` gives for `first`, ..., `last - 1`. -/
def span (f : Nat → Bytes) (first last : Nat) : Bytes :=
  (List.range' first (last - first)).flatMap f

section Span
variable {f : Nat → Bytes} {first mid last : Nat}

theorem span_self (first : Nat) : span f first first = [] := by simp [span]

theorem span_append (hfirst : first ≤ mid) (hlast : mid ≤ last) :
    span f first last = span f first mid ++ span f mid last := by
  obtain ⟨a, rfl⟩ := Nat.exists_eq_add_of_le hfirst
  obtain ⟨b, rfl⟩ := Nat.exists_eq_add_of_le hlast
  have hab : first + a + b - first = a + b := by omega
  have ha : first + a - first = a := by omega
  have hb : first + a + b - (first + a) = b := by omega
  rw [span, span, span, hab, ha, hb, ← List.flatMap_append, List.range'_append_1]

theorem span_one (n : Nat) : span f n (n + 1) = f n := by simp [span]

theorem span_succ (h : first ≤ last) : span f first (last + 1) = span f first last ++ f last := by
  rw [span_append h (Nat.le_succ last), span_one]

theorem span_cons (h : first < last) : span f first last = f first ++ span f (first + 1) last := by
  rw [span_append (Nat.le_succ first) h, span_one]

end Span

section Requests
variable {env : Env} {first nreq nres : Nat} {reqbuf : Option Bytes} {wire : Bytes}

/-- The bytes sent are the requests before `nreq`, in order, and what `reqbuf` has lost of the
next one. -/
inductive Pending (env : Env) (first : Nat) : Nat → Option Bytes → Bytes → Prop where
  | idle {nreq : Nat} : nreq ≤ env.argc → Pending env first nreq none (span env.request first nreq)
  | within {nreq : Nat} {sent left : Bytes} : nreq < env.argc → sent ++ left = env.request nreq →
      Pending env first nreq (some left) (span env.request first nreq ++ sent)

theorem Pending.wire_prefix (h : Pending env first nreq reqbuf wire) (hfirst : first ≤ nreq) :
    wire <+: span env.request first env.argc := by
  cases h with
  | idle hle => exact ⟨_, (span_append hfirst hle).symm⟩
  | within hlt heq =>
    rw [span_append hfirst (Nat.le_of_lt hlt), span_cons hlt, ← heq, List.append_assoc,
      ← List.append_assoc]
    exact List.prefix_append _ _

/-- The requests before `nreq` are sent in full. -/
theorem Pending.prefix_wire (h : Pending env first nreq reqbuf wire) (hfirst : first ≤ nres)
    (hle : nres ≤ nreq) : span env.request first nres <+: wire := by
  have hsent : span env.request first nres <+: span env.request first nreq :=
    ⟨_, (span_append hfirst hle).symm⟩
  cases h with
  | idle _ => exact hsent
  | within _ _ => exact hsent.trans (List.prefix_append _ _)

theorem Pending.le_argc (h : Pending env first nreq reqbuf wire) : nreq ≤ env.argc := by
  cases h with
  | idle hle => exact hle
  | within hlt _ => exact Nat.le_of_lt hlt

/-- What a loop of `send` leaves of the request in hand. -/
theorem Pending.send {left : Bytes} (h : Pending env first nreq (some left) wire)
    (hfirst : first ≤ nreq) (sends : List SendResult) :
    Pending env first nreq (some (sendAll sends left).left) (wire ++ (sendAll sends left).bytes) ∧
      ((sendAll sends left).error = none →
        Pending env first (nreq + 1) none (wire ++ (sendAll sends left).bytes)) := by
  have hsent : (sendAll sends left).bytes ++ (sendAll sends left).left = left ∧
      ((sendAll sends left).error = none → (sendAll sends left).left = []) := by
    clear h
    fun_induction sendAll sends left with
    | case1 sends => exact ⟨rfl, fun _ => rfl⟩
    | case2 req => exact ⟨rfl, fun herror => by cases herror⟩
    | case3 req sends => exact ⟨rfl, fun herror => by cases herror⟩
    | case4 req sends => exact ⟨rfl, fun herror => by cases herror⟩
    | case5 req more sends hne r ih =>
      refine ⟨?_, ih.2⟩
      rw [List.append_assoc, ih.1, List.take_append_drop]
  cases h with
  | @within _ sent hlt heq =>
    rw [List.append_assoc]
    constructor
    · refine .within hlt ?_
      rw [List.append_assoc, hsent.1, heq]
    · intro herror
      have hall := hsent.1
      rw [hsent.2 herror, List.append_nil] at hall
      rw [hall, heq, ← span_succ hfirst]
      exact .idle hlt

/-- What the sending part keeps, from `nreq` and the bytes sent on the connection before. -/
structure Sends (env : Env) (first nreq : Nat) (wire : Bytes) (s : Sending) : Prop where
  pending : Pending env first s.nreq s.reqbuf (wire ++ s.wire)
  le : nreq ≤ s.nreq

theorem Pending.request (h : Pending env first nreq reqbuf wire)
    (hlt : nreq < env.argc) :
    Pending env first nreq (some (reqbuf.getD (env.request nreq))) wire := by
  cases h with
  | idle _ =>
    rw [← List.append_nil (span env.request first nreq)]
    exact .within hlt rfl
  | within _ heq => exact .within hlt heq

theorem sendRequests_spec (h : Pending env first nreq reqbuf wire) (hfirst : first ≤ nreq)
    (sends : List SendResult) : Sends env first nreq wire (sendRequests env nreq reqbuf sends) ∧
      ((sendRequests env nreq reqbuf sends).nreq < env.argc →
        (sendRequests env nreq reqbuf sends).reqbuf ≠ none) := by
  fun_induction sendRequests env nreq reqbuf sends generalizing wire with
  | case1 nreq reqbuf sends hlt r herror later =>
    rename_i ih
    have hnext := ((h.request hlt).send hfirst sends).2 herror
    obtain ⟨hlater, hready⟩ := ih hnext (Nat.le_succ_of_le hfirst)
    refine ⟨⟨?_, Nat.le_of_succ_le hlater.le⟩, hready⟩
    have hpending := hlater.pending
    rwa [List.append_assoc] at hpending
  | case2 nreq reqbuf sends hlt r =>
    exact ⟨⟨((h.request hlt).send hfirst sends).1, Nat.le_refl nreq⟩, by simp⟩
  | case3 nreq reqbuf sends hlt r =>
    exact ⟨⟨((h.request hlt).send hfirst sends).1, Nat.le_refl nreq⟩, by simp⟩
  | case4 nreq reqbuf sends hge =>
    refine ⟨⟨?_, Nat.le_refl nreq⟩, fun hlt => absurd hlt hge⟩
    rwa [List.append_nil]

theorem construct_spec (pipelined : Bool) (h : Pending env first nreq reqbuf wire)
    (hfirst : first ≤ nreq) (sends : List SendResult) :
    Sends env first nreq wire (construct env pipelined nreq reqbuf sends) ∧
      ((construct env pipelined nreq reqbuf sends).nreq < env.argc →
        (construct env pipelined nreq reqbuf sends).reqbuf ≠ none) := by
  unfold construct
  split
  · exact sendRequests_spec h hfirst sends
  · split
    · next hnew =>
      obtain ⟨hlt, rfl⟩ := hnew
      refine ⟨⟨?_, Nat.le_refl nreq⟩, by simp⟩
      rw [List.append_nil]
      exact h.request hlt
    · next hold =>
      refine ⟨⟨?_, Nat.le_refl nreq⟩, fun hlt hnone => hold ⟨hlt, hnone⟩⟩
      rwa [List.append_nil]

theorem blockingSend_spec {s : Sending} (h : Sends env first nreq wire s) (hfirst : first ≤ nreq)
    (hready : s.nreq < env.argc → s.reqbuf ≠ none) (hnres : nres ≤ nreq) (hlt : nres < env.argc) :
    Sends env first nreq wire (blockingSend nres s) ∧
      ((blockingSend nres s).died = false → nres < (blockingSend nres s).nreq) := by
  have hle := h.le
  unfold blockingSend
  split
  · next hskip =>
    refine ⟨h, fun halive => ?_⟩
    rcases hskip with hdied | hne
    · rw [hdied] at halive
      cases halive
    · omega
  · next hsend =>
    have heq : nres = s.nreq := not_not.mp fun hne => hsend (.inr hne)
    rw [heq] at hlt
    obtain ⟨left, hleft⟩ := Option.ne_none_iff_exists'.mp (hready hlt)
    have hpending := h.pending
    rw [hleft] at hpending ⊢
    have hsent := hpending.send (Nat.le_trans hfirst hle) s.sends
    rw [List.append_assoc] at hsent
    dsimp only [Option.getD_some]
    split
    · next herror => exact ⟨⟨hsent.2 herror, Nat.le_succ_of_le hle⟩, fun _ => by simp [heq]⟩
    · exact ⟨⟨hsent.1, hle⟩, fun halive => by cases halive⟩

end Requests

def Response.answer (r : Response) : Nat × Bytes := (r.final.status, r.body)

/-- The responses completed, in the order of their completion. -/
def answers (sessions : List Session) : List (Nat × Bytes) := sessions.flatMap Session.completed

theorem answers_concat (sessions : List Session) (session : Session) :
    answers (sessions ++ [session]) = answers sessions ++ session.completed := by
  simp [answers]

def Main.sessions (st : Main) : List Session := st.closed ++ (st.sd.map Prod.snd).toList

/-- What arrives on connection `c` is cut off somewhere in its responses to the requests. -/
structure Server (env : Env) where
  connect : Nat → Nat → Option Conn
  response : Nat → Nat → Response
  inOrder : ∀ c firstreq conn, connect c firstreq = some conn →
    conn.sock.content <+: span (fun n => (response c n).encode) firstreq env.argc

/-- A session after the sessions `before`. -/
structure Session.InStep {env : Env} (server : Server env) (before : List Session) (s : Session) :
    Prop where
  firstreq : s.firstreq = (answers before).length
  /-- The requests are sent in order, those of the completed responses in full. -/
  wire : s.wire <+: span env.request s.firstreq env.argc
  requested : span env.request s.firstreq (s.firstreq + s.completed.length) <+: s.wire
  completed : s.completed = (List.range' s.firstreq s.completed.length).map fun n =>
    (server.response before.length n).answer

/-- The files hold the bodies of the completed responses of status 200. -/
def Written (env : Env) (files : Bytes → Option Bytes) (completed : List (Nat × Bytes)) : Prop :=
  ∀ n body, completed[n]? = some (200, body) →
    (∀ m, n < m → m < env.argc → basename (env.path m) ≠ basename (env.path n)) →
    files (basename (env.path n)) = some body

section Files
variable {env : Env} {files : Bytes → Option Bytes} {completed : List (Nat × Bytes)}

theorem Written.update (h : Written env files completed) (hlt : completed.length < env.argc)
    (content : Option Bytes) :
    Written env (Function.update files (basename (env.path completed.length)) content)
      completed := by
  intro n body hn hlater
  obtain ⟨hlen, _⟩ := List.getElem?_eq_some_iff.mp hn
  rw [Function.update_of_ne (hlater completed.length hlen hlt).symm]
  exact h n body hn hlater

theorem Written.concat {statuscode : Nat} {body : Bytes} (h : Written env files completed)
    (hfile : statuscode = 200 → files (basename (env.path completed.length)) = some body) :
    Written env files (completed ++ [(statuscode, body)]) := by
  intro n body' hn hlater
  rcases Nat.lt_trichotomy n completed.length with hlt | rfl | hgt
  · rw [List.getElem?_append_left hlt] at hn
    exact h n body' hn hlater
  · rw [List.getElem?_concat_length] at hn
    obtain ⟨rfl, rfl⟩ := Prod.mk.inj (Option.some.inj hn)
    exact hfile rfl
  · rw [List.getElem?_eq_none (by simp only [List.length_append, List.length_singleton]; omega)] at hn
    cases hn

end Files

variable {env}
variable (server : Server env)

/-- The sessions before the present one. -/
structure Finished (closed : List Session) : Prop where
  inStep : Run.Orderly (Session.InStep server) closed
  nonempty : ∀ s ∈ closed, s.completed ≠ []

/-- Without a connection. -/
structure Idle (st : Main) : Prop where
  closed : Finished server st.closed
  nres : st.nres = (answers st.closed).length
  le : st.nres ≤ env.argc
  nreq : st.nreq = st.nres
  pipelined : st.pipelined = false
  reqbuf : st.reqbuf = none
  buf : st.buf = ⟨[], 0⟩
  written : Written env st.files (answers st.closed)

/-- On a connection. -/
structure Live (st : Main) (session : Session) : Prop where
  closed : Finished server st.closed
  firstreq : session.firstreq = (answers st.closed).length
  completed : session.completed = (List.range' session.firstreq session.completed.length).map
    fun n => (server.response st.closed.length n).answer
  nres : st.nres = session.firstreq + session.completed.length
  le : st.nres ≤ st.nreq
  pending : Pending env session.firstreq st.nreq st.reqbuf session.wire
  written : Written env st.files (answers st.closed ++ session.completed)

/-- What is still to be read belongs to the responses `nres`, ... -/
def Arriving (nres : Nat) (closed : List Session) (sock : Sock) (buf : Buf) : Prop :=
  stream sock buf <+: span (fun n => (server.response closed.length n).encode) nres env.argc

/-- Between two rounds. -/
def Inv (st : Main) : Prop :=
  match st.sd with
  | none => Idle server st
  | some (conn, session) => Live server st session ∧ session.completed ≠ [] ∧
      Arriving server st.nres st.closed conn.sock st.buf

/-- At the end of the program. -/
structure Over (st : Main) : Prop where
  inStep : Run.Orderly (Session.InStep server) st.sessions
  nres : st.nres = (answers st.sessions).length
  nonempty : ∀ before s after, st.sessions = before ++ s :: after → s.completed = [] → after = []
  written : Written env st.files (answers st.sessions)

/-- Why the program gives up: there is no connection, no response has completed on it, or the
file of the next response cannot be opened. -/
def GivesUp (st : Main) : Prop :=
  match st.sd with
  | none => server.connect st.closed.length st.nres = none
  | some (_, session) => session.completed = [] ∨
      (server.response st.closed.length st.nres).final.status = 200 ∧
        (basename (env.path st.nres) = [] ∨ env.canOpen st.closed.length st.nres = false)

/-- A connection that is open has completed a response, so that another may follow it. -/
def rounds (env : Env) (nres : Nat) (opened : Bool) : Nat :=
  2 * (env.argc - nres) + if opened then 1 else 0

/-- A round that begins after the sessions `closed` and `nres` responses ends the program
there, or there are less rounds to come. -/
def Goes (closed : List Session) (nres bound : Nat) : Step → Prop
  | .exit st => Over server st ∧ GivesUp server st ∧ st.closed = closed ∧ st.nres = nres
  | .next st => Inv server st ∧ rounds env st.nres st.sd.isSome < bound

variable {server} {st : Main} {conn : Conn} {session : Session}

theorem Goes.ite {p : Prop} [Decidable p] {closed : List Session} {nres bound : Nat}
    {yes no : Step} (hyes : p → Goes server closed nres bound yes)
    (hno : ¬ p → Goes server closed nres bound no) :
    Goes server closed nres bound (if p then yes else no) := by
  split
  · next h => exact hyes h
  · next h => exact hno h

theorem Live.inStep (h : Live server st session) :
    Session.InStep server st.closed session where
  firstreq := h.firstreq
  wire := by
    have hle : session.firstreq ≤ st.nreq := by
      have hnres := h.nres
      have hle := h.le
      omega
    exact h.pending.wire_prefix hle
  requested := by
    have hle := h.le
    rw [h.nres] at hle
    exact h.pending.prefix_wire (Nat.le_add_right _ _) hle
  completed := h.completed

theorem Live.over (h : Live server st session) (conn : Conn) :
    Over server { st with sd := some (conn, session) } where
  inStep := h.closed.inStep.concat h.inStep
  nres := by
    rw [Main.sessions]
    simp [answers_concat, h.nres, h.firstreq]
  nonempty := by
    intro before s after hsplit hempty
    cases after using List.reverseRecOn with
    | nil => rfl
    | append_singleton after last =>
      rw [← List.cons_append, ← List.append_assoc] at hsplit
      have hclosed := (List.append_inj' hsplit rfl).1
      have hmem : s ∈ st.closed :=
        hclosed ▸ List.mem_append_right before List.mem_cons_self
      exact absurd hempty (h.closed.nonempty s hmem)
  written := by
    rw [Main.sessions]
    simpa [answers_concat] using h.written

theorem Idle.over (h : Idle server st) (hsd : st.sd = none) : Over server st := by
  have hsessions : st.sessions = st.closed := by simp [Main.sessions, hsd]
  refine ⟨?_, ?_, ?_, ?_⟩
  · rw [hsessions]
    exact h.closed.inStep
  · rw [hsessions]
    exact h.nres
  · intro before s after hsplit hempty
    rw [hsessions] at hsplit
    exact absurd hempty (h.closed.nonempty s (by simp [hsplit]))
  · rw [hsessions]
    exact h.written

theorem Live.cleanupconn (h : Live server st session) (hnonempty : session.completed ≠ []) :
    Idle server (cleanupconn st session) where
  closed := by
    refine ⟨h.closed.inStep.concat h.inStep, fun s hs => ?_⟩
    rcases List.mem_append.mp hs with hs | hs
    · exact h.closed.nonempty s hs
    · rw [List.mem_singleton.mp hs]
      exact hnonempty
  nres := by
    have hnres := h.nres
    rw [h.firstreq] at hnres
    simp [Phttpget.cleanupconn, answers_concat, hnres]
  le := by
    have hle := h.le
    have hargc := h.pending.le_argc
    simp only [Phttpget.cleanupconn]
    omega
  nreq := rfl
  pipelined := rfl
  reqbuf := rfl
  buf := rfl
  written := by
    simpa [Phttpget.cleanupconn, answers_concat] using h.written

theorem Live.conndied (h : Live server st session) (conn : Conn) :
    Goes server st.closed st.nres (rounds env st.nres !session.completed.isEmpty) (conndied st conn session) := by
  unfold Phttpget.conndied
  split
  · next hnone =>
    have hlength := h.nres
    refine ⟨h.over conn, Or.inl (List.eq_nil_of_length_eq_zero ?_), rfl, rfl⟩
    omega
  · next hmore =>
    have hnonempty : session.completed ≠ [] := by
      intro hempty
      have hnres := h.nres
      rw [hempty] at hnres
      exact hmore hnres
    refine ⟨h.cleanupconn hnonempty, ?_⟩
    simp [rounds, Phttpget.cleanupconn, hnonempty]

theorem Live.refile {files : Bytes → Option Bytes} (h : Live server st session)
    (hwritten : Written env files (answers st.closed ++ session.completed)) :
    Live server { st with files := files } session :=
  ⟨h.closed, h.firstreq, h.completed, h.nres, h.le, h.pending, hwritten⟩

/-- The response to the request `nres` is completed. -/
theorem Live.complete {statuscode : Nat} {body : Bytes} {buf : Buf} {pipelined : Bool}
    {files : Bytes → Option Bytes} {sd : Option (Conn × Session)} (h : Live server st session)
    (hlt : st.nres < st.nreq)
    (hanswer : (server.response st.closed.length st.nres).answer = (statuscode, body))
    (hwritten : Written env files (answers st.closed ++ session.completed ++ [(statuscode, body)])) :
    Live server
      { st with
        nres := st.nres + 1
        pipelined := pipelined
        buf := buf
        files := files
        sd := sd }
      (session.complete statuscode body) where
  closed := h.closed
  firstreq := h.firstreq
  completed := by
    have hcompleted := h.completed
    simp only [Session.complete, List.length_append, List.length_singleton, List.range'_concat,
      List.map_append, Nat.one_mul, List.map_singleton]
    rw [← hcompleted, ← h.nres, hanswer]
  nres := by
    have hnres := h.nres
    simp only [Session.complete, List.length_append, List.length_singleton]
    omega
  le := hlt
  pending := h.pending
  written := by
    rwa [List.append_assoc] at hwritten

theorem rounds_lt {nres : Nat} (h : nres < env.argc) (opened opened' : Bool) :
    rounds env (nres + 1) opened < rounds env nres opened' := by
  unfold rounds
  split <;> omega

theorem Live.lt_argc (h : Live server st session) (hlt : st.nres < st.nreq) :
    st.nres < env.argc := Nat.lt_of_lt_of_le hlt h.pending.le_argc

theorem Live.answered_length (h : Live server st session) :
    (answers st.closed ++ session.completed).length = st.nres := by
  rw [List.length_append, h.nres, h.firstreq]

/-- The file of the request `nres` may be written at any time. -/
theorem Live.write (h : Live server st session) (hlt : st.nres < st.nreq) (statuscode : Nat)
    (content : Bytes) :
    Written env
      (if statuscode = 200 then
        Function.update st.files (basename (env.path st.nres)) (some content)
      else st.files) (answers st.closed ++ session.completed) := by
  split
  · rw [← h.answered_length]
    exact h.written.update (by rw [h.answered_length]; exact h.lt_argc hlt) _
  · exact h.written

theorem receiveBody_spec {head : Head} (h : Live server st session) (hlt : st.nres < st.nreq)
    (hhead : AfterHeader (server.response st.closed.length st.nres) head)
    (hcut : stream conn.sock st.buf <+: (server.response st.closed.length st.nres).body ++
      span (fun n => (server.response st.closed.length n).encode) (st.nres + 1) env.argc) :
    Goes server st.closed st.nres (rounds env st.nres !session.completed.isEmpty)
      (receiveBody env st conn session head) := by
  have hargc := h.lt_argc hlt
  have hstatus := hhead.statuscode
  unfold receiveBody
  refine Goes.ite (fun hnone => ?_) fun hbody => ?_
  · rw [hstatus] at hnone
    have hempty := (server.response st.closed.length st.nres).noBody hnone
    have hanswer : (server.response st.closed.length st.nres).answer = (head.statuscode, []) := by
      rw [Response.answer, hempty, hstatus]
    have hconcat : Written env st.files (answers st.closed ++ session.completed ++
        [(head.statuscode, [])]) := h.written.concat fun h200 => by omega
    rw [hempty, List.nil_append] at hcut
    refine ⟨⟨h.complete hlt hanswer hconcat, ?_, hcut⟩, rounds_lt hargc _ _⟩
    simp [Session.complete]
  · rw [hstatus] at hbody
    refine Goes.ite (fun hfile => ?_) fun _ => ?_
    · rw [hstatus] at hfile
      exact ⟨h.over conn, Or.inr hfile, rfl, rfl⟩
    have hread := readBody_cut hhead.chunked (hhead.contentlength hbody) hcut
    have hfiles := h.write hlt head.statuscode (readBody head conn.sock st.buf).written
    refine Goes.ite (fun _ => (h.refile hfiles).conndied _) fun hcomplete => ?_
    obtain ⟨hwritten, _, hrest⟩ := hread (by simpa using hcomplete)
    have hanswer : (server.response st.closed.length st.nres).answer =
        (head.statuscode, (readBody head conn.sock st.buf).written) := by
      rw [Response.answer, hwritten, hstatus]
    have hconcat := hfiles.concat fun h200 => by
      rw [if_pos h200, h.answered_length, Function.update_self]
    have hnonempty : (session.complete head.statuscode
        (readBody head conn.sock st.buf).written).completed ≠ [] := by simp [Session.complete]
    refine Goes.ite (fun _ => ?_) fun _ => ?_
    · exact ⟨(h.complete hlt hanswer hconcat).cleanupconn hnonempty, rounds_lt hargc _ _⟩
    · exact ⟨⟨h.complete hlt hanswer hconcat, hnonempty, hrest⟩, rounds_lt hargc _ _⟩

theorem receive_spec (h : Live server st session) (hlt : st.nres < st.nreq)
    (harriving : Arriving server st.nres st.closed conn.sock st.buf) :
    Goes server st.closed st.nres (rounds env st.nres !session.completed.isEmpty) (receive env st conn session) := by
  unfold Arriving at harriving
  rw [span_cons (h.lt_argc hlt), Response.encode, List.append_assoc] at harriving
  have hread := @readHeaders_response conn.sock st.buf ⟨0, none, false, false, st.pipelined⟩ _ _ rfl
    rfl harriving
  unfold receive
  rcases hread with hnone | ⟨head, sock, buf, heq, _, hrest, hafter⟩
  · rw [hnone]
    exact h.conndied conn
  · rw [heq]
    exact receiveBody_spec { h with } hlt hafter hrest

theorem exchange_spec (h : Live server st session) (hargc : st.nres < env.argc)
    (harriving : Arriving server st.nres st.closed conn.sock st.buf) :
    Goes server st.closed st.nres (rounds env st.nres !session.completed.isEmpty) (exchange env st conn session) := by
  have hfirst : session.firstreq ≤ st.nreq := by
    have hnres := h.nres
    have hle := h.le
    omega
  obtain ⟨hconstruct, hready⟩ := construct_spec st.pipelined h.pending hfirst conn.sends
  obtain ⟨hsends, hsent⟩ := blockingSend_spec hconstruct hfirst hready h.le hargc
  have hlive : Live server
      { st with
        nreq := (blockingSend st.nres (construct env st.pipelined st.nreq st.reqbuf conn.sends)).nreq
        reqbuf :=
          (blockingSend st.nres (construct env st.pipelined st.nreq st.reqbuf conn.sends)).reqbuf }
      { session with
        wire := session.wire ++
          (blockingSend st.nres (construct env st.pipelined st.nreq st.reqbuf conn.sends)).wire } :=
    { h with le := Nat.le_trans h.le hsends.le, pending := hsends.pending }
  unfold exchange
  refine Goes.ite (fun _ => hlive.conndied _) fun halive => ?_
  exact receive_spec hlive (hsent (by simpa using halive)) harriving

theorem round_spec (h : Inv server st) (hargc : st.nres < env.argc) :
    Goes server st.closed st.nres (rounds env st.nres st.sd.isSome) (round env server.connect st) := by
  unfold Inv at h
  unfold round
  split
  · next conn session hsd =>
    rw [hsd] at h ⊢
    obtain ⟨hlive, hnonempty, harriving⟩ := h
    have hgoes := exchange_spec hlive hargc harriving
    have hopened : (!session.completed.isEmpty) = true := by simp [hnonempty]
    rwa [hopened] at hgoes
  · next hsd =>
    rw [hsd] at h ⊢
    split
    · next hconnect =>
      refine ⟨Idle.over h hsd, ?_, rfl, rfl⟩
      unfold GivesUp
      rw [hsd]
      exact hconnect
    · next conn hconnect =>
      have hidle : Idle server st := h
      have hlive : Live server st ⟨st.nres, [], []⟩ := by
        refine ⟨hidle.closed, hidle.nres, rfl, rfl, Nat.le_of_eq hidle.nreq.symm, ?_, ?_⟩
        · rw [hidle.nreq, hidle.reqbuf, ← span_self st.nres]
          exact .idle hidle.le
        · rw [List.append_nil]
          exact hidle.written
      refine exchange_spec hlive hargc ?_
      have harriving := server.inOrder _ _ _ hconnect
      rwa [Arriving, hidle.buf]

theorem Inv.over (h : Inv server st) (hargc : env.argc ≤ st.nres) :
    Over server st ∧ (∀ s ∈ st.sessions, s.completed ≠ []) ∧
      (answers st.sessions).length = env.argc := by
  unfold Inv at h
  split at h
  · next hsd =>
    have hsessions : st.sessions = st.closed := by simp [Main.sessions, hsd]
    refine ⟨h.over hsd, ?_, ?_⟩
    · rw [hsessions]
      exact h.closed.nonempty
    · rw [hsessions, ← h.nres]
      exact Nat.le_antisymm h.le hargc
  · next conn session hsd =>
    obtain ⟨hlive, hnonempty, _⟩ := h
    have hsessions : st.sessions = st.closed ++ [session] := by simp [Main.sessions, hsd]
    have hover := hlive.over conn
    rw [← hsd] at hover
    refine ⟨hover, ?_, ?_⟩
    · intro s hs
      rw [hsessions] at hs
      rcases List.mem_append.mp hs with hs | hs
      · exact hlive.closed.nonempty s hs
      · rwa [List.mem_singleton.mp hs]
    · rw [hsessions, answers_concat, hlive.answered_length]
      exact Nat.le_antisymm (Nat.le_trans hlive.le hlive.pending.le_argc) hargc

/-- The exit status, beside what holds of the sessions and the files. -/
structure Exited (server : Server env) (code : Nat) (st : Main) : Prop where
  ended : Over server st
  status : code = 0 ∨ code = 1
  nonempty : code = 0 → ∀ s ∈ st.sessions, s.completed ≠ []
  all : code = 0 → (answers st.sessions).length = env.argc
  givesUp : code = 1 → GivesUp server st

theorem run_spec {n : Nat} (h : Inv server st) (hn : rounds env st.nres st.sd.isSome < n) :
    ∃ code st', run env server.connect n st = some (code, st') ∧ Exited server code st' := by
  induction n generalizing st with
  | zero => omega
  | succ n ih =>
    unfold run
    by_cases hargc : env.argc ≤ st.nres
    · rw [if_pos hargc]
      obtain ⟨hover, hnonempty, hall⟩ := h.over hargc
      exact ⟨0, st, rfl, hover, .inl rfl, fun _ => hnonempty, fun _ => hall,
        fun h => absurd h Nat.zero_ne_one⟩
    · rw [if_neg hargc]
      have hround := round_spec h (Nat.lt_of_not_le hargc)
      cases hstep : round env server.connect st with
      | exit st' =>
        rw [hstep] at hround
        exact ⟨1, st', rfl, hround.1, .inr rfl, fun h => absurd h Nat.one_ne_zero,
          fun h => absurd h Nat.one_ne_zero, fun _ => hround.2.1⟩
      | next st' =>
        rw [hstep] at hround
        exact ih hround.1 (Nat.lt_of_lt_of_le hround.2 (Nat.le_of_lt_succ hn))

theorem inv_start (files : Bytes → Option Bytes) : Inv server (start files) := by
  refine ⟨⟨Run.orderly_nil, fun s hs => ?_⟩, rfl, Nat.zero_le _, rfl, rfl, rfl, rfl, ?_⟩
  · cases hs
  · intro n body hn
    cases hn

theorem answered {sessions : List Session} (h : Run.Orderly (Session.InStep server) sessions)
    {n : Nat} {a : Nat × Bytes} (hn : (answers sessions)[n]? = some a) :
    ∃ c < sessions.length, a = (server.response c n).answer := by
  induction sessions using List.reverseRecOn with
  | nil => cases hn
  | append_singleton sessions s ih =>
    rw [answers_concat] at hn
    rcases Nat.lt_or_ge n (answers sessions).length with hlt | hge
    · rw [List.getElem?_append_left hlt] at hn
      obtain ⟨c, hc, ha⟩ := ih h.init hn
      exact ⟨c, by simp only [List.length_append]; omega, ha⟩
    · rw [List.getElem?_append_right hge] at hn
      have hs := h sessions s [] rfl
      rw [hs.completed, List.getElem?_map, Option.map_eq_some_iff] at hn
      obtain ⟨m, hm, rfl⟩ := hn
      obtain ⟨hlen, rfl⟩ := List.getElem?_eq_some_iff.mp hm
      refine ⟨sessions.length, by simp, ?_⟩
      rw [List.getElem_range', hs.firstreq, Nat.one_mul, Nat.add_sub_cancel' hge]

end DeltaPorts.Phttpget

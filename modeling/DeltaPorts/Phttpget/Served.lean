import DeltaPorts.Phttpget.Fetch
import DeltaPorts.Phttpget.Interim

/-!
# What a run fetches

A connection on which the first request is sent and its response arrives completes one response,
whatever else goes wrong on it, and the loop of `main` comes back with another connection for what
is left.
-/

set_option autoImplicit false

namespace DeltaPorts.Phttpget

def Block.toHeaderBlock (b : Block) : HeaderBlock where
  minor := b.minor
  version := []
  code := b.code
  reason := b.reason
  lines := b.fields.map Field.line
  minor_digit := b.minor_digit
  version_blank := List.not_mem_nil
  code_digits := b.code_digits
  reason_head := b.reason_head
  oneLine := b.oneLine
  lines_oneLine := by
    intro l hl
    obtain ⟨f, _, rfl⟩ := List.mem_map.mp hl
    exact ⟨by simp [Field.line], f.oneLine⟩

theorem toHeaderBlock_encode (b : Block) : b.toHeaderBlock.encode = b.encode := by
  simp [HeaderBlock.encode, Block.encode, Block.lines, HeaderBlock.first, Block.statusLine,
    Block.toHeaderBlock]

/-- Each line of the header fits into the buffer, and no length overflows. -/
def Response.Readable (r : Response) : Prop :=
  (∀ b ∈ r.interim, b.toHeaderBlock.Readable) ∧ r.final.toHeaderBlock.Readable

variable {sock : Sock} {buf : Buf} {head : Head} {rest : Bytes}

theorem readHeaders_final {b : Block} (hread : b.toHeaderBlock.Readable)
    (hcode : 200 ≤ b.status ∧ b.status ≤ 599) (hhead : head.statuscode = 0) (hfits : buf.Fits)
    (hstream : stream sock buf = b.encode ++ rest) : readHeaders sock buf head ≠ none := by
  rw [← toHeaderBlock_encode] at hstream
  have hrange : 100 ≤ b.toHeaderBlock.status ∧ b.toHeaderBlock.status ≤ 599 :=
    ⟨Nat.le_trans (by omega) hcode.1, hcode.2⟩
  have hfinal : ¬ (100 ≤ b.toHeaderBlock.status ∧ b.toHeaderBlock.status ≤ 199) :=
    fun h => absurd (Nat.le_trans hcode.1 h.2) (by omega)
  obtain ⟨sock', buf', _, _, heq⟩ := (readHeaders_block hhead hrange hfits hstream).1 hread
  rw [heq, if_neg hfinal]
  exact Option.some_ne_none _

theorem readHeaders_readable {r : Response} {interim : List Block}
    (hinterim : ∀ b ∈ interim, b.toHeaderBlock.Readable ∧ 100 ≤ b.status ∧ b.status ≤ 199)
    (hfinal : r.final.toHeaderBlock.Readable) (hhead : head.statuscode = 0) (hfits : buf.Fits)
    (hstream : stream sock buf = (interim.flatMap Block.encode ++ r.final.encode) ++ rest) :
    readHeaders sock buf head ≠ none := by
  induction interim generalizing sock buf head with
  | nil => exact readHeaders_final hfinal r.final_status hhead hfits hstream
  | cons b interim ih =>
    obtain ⟨hread, hcode⟩ := hinterim b List.mem_cons_self
    have hrange : 100 ≤ b.toHeaderBlock.status ∧ b.toHeaderBlock.status ≤ 599 :=
      ⟨hcode.1, Nat.le_trans hcode.2 (by omega)⟩
    rw [List.flatMap_cons, List.append_assoc, List.append_assoc, ← toHeaderBlock_encode,
      ← List.append_assoc _ _ rest] at hstream
    obtain ⟨sock', buf', hrest, hfits', heq⟩ :=
      (readHeaders_block hhead hrange hfits hstream).1 hread
    have hagain : 100 ≤ b.toHeaderBlock.status ∧ b.toHeaderBlock.status ≤ 199 := hcode
    rw [heq, if_pos hagain]
    exact ih (fun b' hb' => hinterim b' (List.mem_cons_of_mem b hb')) rfl hfits' hrest

def GoesOn : Step → Prop
  | .exit _ => False
  | .next _ => True

variable {env : Env} {st : Main} {conn : Conn} {session : Session}

theorem conndied_goesOn (hmore : st.nres ≠ session.firstreq) :
    GoesOn (conndied st conn session) := by
  unfold conndied
  rw [if_neg hmore]
  trivial

/-- The body ends the program only if its file cannot be opened or nothing came before it. -/
theorem receiveBody_goesOn {head : Head} (hname : basename (env.path st.nres) ≠ [])
    (hopen : env.canOpen st.closed.length st.nres = true)
    (hmore : st.nres ≠ session.firstreq ∨ head.statuscode = 204 ∨ head.statuscode = 304 ∨
      (readBody head conn.sock st.buf).complete = true) :
    GoesOn (receiveBody env st conn session head) := by
  unfold receiveBody
  by_cases hnone : head.statuscode = 204 ∨ head.statuscode = 304
  · rw [if_pos hnone]
    trivial
  · have hfile : ¬ (head.statuscode = 200 ∧ (basename (env.path st.nres) = [] ∨
        env.canOpen st.closed.length st.nres = false)) := by
      simp [hname, hopen]
    rw [if_neg hnone]
    dsimp only
    rw [if_neg hfile]
    by_cases hcomplete : (readBody head conn.sock st.buf).complete = false
    · rw [if_pos hcomplete]
      refine conndied_goesOn (hmore.resolve_right fun h => ?_)
      rcases h with h | h | h
      · exact hnone (Or.inl h)
      · exact hnone (Or.inr h)
      · exact absurd h (by simp [hcomplete])
    · rw [if_neg hcomplete]
      split
      · trivial
      · trivial

/-- A whole response is there for a connection. -/
structure Arrived (r : Response) (sock : Sock) (buf : Buf) : Prop where
  readable : r.Readable
  fits : buf.Fits
  arrives : r.encode <+: stream sock buf

theorem Arrived.body {r : Response} (h : Arrived r sock buf) (pipelined : Bool) :
    ∃ head sock' buf', readHeaders sock buf ⟨0, none, false, false, pipelined⟩ =
      some (head, sock', buf') ∧ (head.statuscode = 204 ∨ head.statuscode = 304 ∨
        (readBody head sock' buf').complete = true) := by
  obtain ⟨rest, hrest⟩ := h.arrives
  rw [Response.encode, List.append_assoc] at hrest
  have hsome : readHeaders sock buf ⟨0, none, false, false, pipelined⟩ ≠ none :=
    readHeaders_readable (fun b hb => ⟨h.readable.1 b hb, r.interim_status b hb⟩) h.readable.2 rfl
      h.fits hrest.symm
  have hcut : stream sock buf <+: r.header ++ (r.body ++ rest) := by rw [hrest]
  obtain ⟨head, sock', buf', heq, hsplit, _, hafter⟩ :=
    (readHeaders_response rfl rfl hcut).resolve_left hsome
  refine ⟨head, sock', buf', heq, ?_⟩
  have hbody : stream sock' buf' = r.body ++ rest := by
    rw [← hrest] at hsplit
    exact (List.append_cancel_left hsplit).symm
  by_cases hnone : r.final.status = 204 ∨ r.final.status = 304
  · rw [hafter.statuscode]
    exact hnone.imp_right Or.inl
  · refine Or.inr (Or.inr ?_)
    have hlong : r.body.length ≤ (stream sock' buf').length := by
      rw [hbody, List.length_append]
      exact Nat.le_add_right _ _
    unfold readBody
    rw [hafter.chunked, hafter.contentlength hnone]
    exact decide_eq_true ((copybytes_spec _ _ _).error_iff.mpr hlong)

theorem receive_goesOn (hname : basename (env.path st.nres) ≠ [])
    (hopen : env.canOpen st.closed.length st.nres = true)
    (hmore : st.nres ≠ session.firstreq ∨ ∃ r, Arrived r conn.sock st.buf) :
    GoesOn (receive env st conn session) := by
  unfold receive
  rcases hmore with hmore | ⟨r, harrived⟩
  · split
    · exact conndied_goesOn hmore
    · exact receiveBody_goesOn hname hopen (Or.inl hmore)
  · obtain ⟨head, sock', buf', heq, hbody⟩ := harrived.body st.pipelined
    rw [heq]
    exact receiveBody_goesOn hname hopen (Or.inr hbody)

/-- The first request of a connection is constructed and sent before anything is read. -/
theorem blockingSend_first {sends : List SendResult} (hargc : st.nres < env.argc)
    (hsent : (sendAll sends (env.request st.nres)).error = none) :
    (blockingSend st.nres (construct env false st.nres none sends)).died = false := by
  have hconstruct : construct env false st.nres none sends =
      ⟨st.nres, some (env.request st.nres), sends, [], false⟩ := by
    unfold construct
    rw [if_neg Bool.false_ne_true, if_pos ⟨hargc, rfl⟩]
  have hnext : ¬ (false = true ∨ st.nres ≠ st.nres) := by simp
  rw [hconstruct]
  unfold blockingSend
  dsimp only
  rw [if_neg hnext, Option.getD_some, hsent]

theorem exchange_goesOn (hname : basename (env.path st.nres) ≠ [])
    (hopen : env.canOpen st.closed.length st.nres = true)
    (hmore : st.nres ≠ session.firstreq ∨
      (blockingSend st.nres (construct env st.pipelined st.nreq st.reqbuf conn.sends)).died =
          false ∧ ∃ r, Arrived r conn.sock st.buf) :
    GoesOn (exchange env st conn session) := by
  unfold exchange
  dsimp only
  rcases hmore with hmore | ⟨halive, harrived⟩
  · split
    · exact conndied_goesOn hmore
    · exact receive_goesOn hname hopen (Or.inl hmore)
  · rw [halive, if_neg Bool.false_ne_true]
    exact receive_goesOn hname hopen (Or.inr harrived)

/-- A connection takes its first request, and carries the response to it that has a file. -/
structure Server.Answers (server : Server env) (c n : Nat) : Prop where
  carries : ∀ conn, server.connect c n = some conn →
    (sendAll conn.sends (env.request n)).error = none ∧
    (server.response c n).encode <+: conn.sock.content
  readable : (server.response c n).Readable
  opens : basename (env.path n) ≠ [] ∧ env.canOpen c n = true

variable {server : Server env}

theorem round_goesOn (h : Inv server st) (hargc : st.nres < env.argc)
    (hanswers : server.Answers st.closed.length st.nres)
    (hconnects : st.sd = none → server.connect st.closed.length st.nres ≠ none) :
    GoesOn (round env server.connect st) := by
  obtain ⟨hname, hopen⟩ := hanswers.opens
  unfold Inv at h
  unfold round
  split
  · next conn session hsd =>
    rw [hsd] at h
    obtain ⟨hlive, hnonempty, _⟩ := h
    refine exchange_goesOn hname hopen (Or.inl fun heq => hnonempty ?_)
    have hnres := hlive.nres
    exact List.eq_nil_of_length_eq_zero (by omega)
  · next hsd =>
    rw [hsd] at h
    obtain ⟨conn, hconnect⟩ := Option.ne_none_iff_exists'.mp (hconnects hsd)
    obtain ⟨hsent, harrives⟩ := hanswers.carries conn hconnect
    rw [hconnect]
    refine exchange_goesOn hname hopen
      (Or.inr ⟨?_, server.response st.closed.length st.nres, hanswers.readable, ?_, ?_⟩)
    · rw [h.pipelined, h.nreq, h.reqbuf]
      exact blockingSend_first hargc hsent
    · rw [h.buf]
      exact Nat.zero_le _
    · rwa [h.buf]

/-- The sessions of a run without a completed response: their connections did not answer. -/
def Excused (server : Server env) (st : Main) : Prop :=
  ∀ before s after, st.sessions = before ++ s :: after → s.completed = [] →
    ¬ server.Answers before.length s.firstreq

theorem Inv.finished (h : Inv server st) : Finished server st.closed := by
  unfold Inv at h
  split at h
  · exact h.closed
  · exact h.1.closed

/-- A round that ends the program comes from a connection that does not answer, when nothing
has completed on it. -/
theorem round_excused {last : Main} (h : Inv server st) (hargc : st.nres < env.argc)
    (hround : round env server.connect st = .exit last) : Excused server last := by
  have hgoes := round_spec h hargc
  rw [hround] at hgoes
  obtain ⟨hover, _, hclosed, hnres⟩ := hgoes
  intro before s after hsplit hempty
  obtain rfl := hover.nonempty before s after hsplit hempty
  have hsd : ∃ conn, last.sd = some (conn, s) ∧ last.closed = before := by
    cases hsd : last.sd with
    | none =>
      have hmem : s ∈ st.closed := by
        simp only [Main.sessions, hsd, Option.map_none, Option.toList_none, List.append_nil] at hsplit
        rw [← hclosed, hsplit]
        exact List.mem_append_right _ List.mem_cons_self
      exact absurd hempty (h.finished.nonempty s hmem)
    | some p =>
      simp only [Main.sessions, hsd, Option.map_some, Option.toList_some] at hsplit
      obtain ⟨heq, hs⟩ := List.append_inj' hsplit rfl
      exact ⟨p.1, by rw [← (List.cons.inj hs).1], heq⟩
  obtain ⟨conn, hsd, rfl⟩ := hsd
  have hfirst : s.firstreq = st.nres := by
    have hall := hover.nres
    rw [hsplit, answers_concat, hempty, List.append_nil] at hall
    rw [(hover.inStep _ s [] hsplit).firstreq, ← hall, hnres]
  intro hanswers
  rw [hclosed, hfirst] at hanswers
  have hconnects : st.sd = none → server.connect st.closed.length st.nres ≠ none := by
    intro hnone hconnect
    unfold round at hround
    rw [hnone] at hround
    dsimp only at hround
    rw [hconnect] at hround
    cases hround
    rw [hnone] at hsd
    cases hsd
  have hgoes := round_goesOn h hargc hanswers hconnects
  rw [hround] at hgoes
  exact hgoes

theorem run_excused {n : Nat} (h : Inv server st) {code : Nat} {last : Main}
    (hrun : run env server.connect n st = some (code, last)) : Excused server last := by
  induction n generalizing st with
  | zero => cases hrun
  | succ n ih =>
    unfold run at hrun
    by_cases hargc : env.argc ≤ st.nres
    · rw [if_pos hargc] at hrun
      cases hrun
      intro before s after hsplit hempty
      have hnonempty := (h.over hargc).2.1 s (by rw [hsplit]; simp)
      exact absurd hempty hnonempty
    · rw [if_neg hargc] at hrun
      have hround := round_spec h (Nat.lt_of_not_le hargc)
      cases hstep : round env server.connect st with
      | exit st' =>
        rw [hstep] at hrun
        cases hrun
        exact round_excused h (Nat.lt_of_not_le hargc) hstep
      | next st' =>
        rw [hstep] at hround hrun
        exact ih hround.1 hrun

/-- The loop of `main` ends. On each connection the requests are sent in order from the first
file without a response; the responses completed answer the arguments in order, the files
keep the bodies, and only the last connection may be without one. It is then one that does
not carry its first request and the response to it. -/
theorem run_inStep (server : Server env) (files : Bytes → Option Bytes) :
    ∃ code st, run env server.connect (2 * env.argc + 1) (start files) = some (code, st) ∧
      (∀ before s after, st.sessions = before ++ s :: after →
        Session.InStep server before s ∧ (s.completed = [] →
          after = [] ∧ code = 1 ∧ ¬ server.Answers before.length s.firstreq)) ∧
      (∀ n a, (answers st.sessions)[n]? = some a →
        ∃ c < st.sessions.length, a = (server.response c n).answer) ∧
      Written env st.files (answers st.sessions) ∧
      ((code = 0 ∧ (answers st.sessions).length = env.argc) ∨
        (code = 1 ∧ GivesUp server st)) := by
  have hrounds : rounds env 0 false < 2 * env.argc + 1 := by
    unfold rounds
    simp
  obtain ⟨code, st, hrun, hexited⟩ := run_spec (inv_start files) hrounds
  have hexcused := run_excused (inv_start files) hrun
  refine ⟨code, st, hrun, ?_, ?_, hexited.ended.written, ?_⟩
  · intro before s after hsplit
    have hs := hexited.ended.inStep before s after hsplit
    refine ⟨hs, fun hempty => ⟨?_, ?_, hexcused before s after hsplit hempty⟩⟩
    · exact hexited.ended.nonempty before s after hsplit hempty
    · refine hexited.status.resolve_left fun hzero => ?_
      exact hexited.nonempty hzero s (by rw [hsplit]; simp) hempty
  · intro n a hn
    exact answered hexited.ended.inStep hn
  · exact hexited.status.imp (fun h => ⟨h, hexited.all h⟩) fun h => ⟨h, hexited.givesUp h⟩

/-- Every connection takes the first request and carries the response to it. -/
structure Server.Serves (server : Server env) : Prop where
  connects : ∀ c n, n < env.argc → ∃ conn, server.connect c n = some conn ∧
    (sendAll conn.sends (env.request n)).error = none ∧
    (server.response c n).encode <+: conn.sock.content
  readable : ∀ c n, n < env.argc → (server.response c n).Readable
  opens : ∀ c n, n < env.argc → basename (env.path n) ≠ [] ∧ env.canOpen c n = true

theorem Server.Serves.answers (h : server.Serves) {c n : Nat} (hn : n < env.argc) :
    server.Answers c n where
  carries := by
    intro conn hconn
    obtain ⟨conn', hconnect, hcarries⟩ := h.connects c n hn
    rw [hconn] at hconnect
    cases hconnect
    exact hcarries
  readable := h.readable c n hn
  opens := h.opens c n hn

theorem run_serves (hserves : server.Serves) {n : Nat} (h : Inv server st) {code : Nat}
    {last : Main} (hrun : run env server.connect n st = some (code, last)) : code = 0 := by
  induction n generalizing st with
  | zero => cases hrun
  | succ n ih =>
    unfold run at hrun
    by_cases hargc : env.argc ≤ st.nres
    · rw [if_pos hargc] at hrun
      cases hrun
      rfl
    · rw [if_neg hargc] at hrun
      have hlt := Nat.lt_of_not_le hargc
      have hround := round_spec h hlt
      have hgoes := round_goesOn h hlt (hserves.answers hlt) fun _ => by
        obtain ⟨conn, hconnect, _⟩ := hserves.connects st.closed.length st.nres hlt
        rw [hconnect]
        exact Option.some_ne_none conn
      cases hstep : round env server.connect st with
      | exit st' =>
        rw [hstep] at hgoes
        exact hgoes.elim
      | next st' =>
        rw [hstep] at hround hrun
        exact ih hround.1 hrun

/-- Connections may break off after their first response in any way: all responses are completed,
in order, and the program ends with status 0. -/
theorem run_fetches (server : Server env) (hserves : server.Serves)
    (files : Bytes → Option Bytes) :
    ∃ st, run env server.connect (2 * env.argc + 1) (start files) = some (0, st) ∧
      ∀ n < env.argc, ∃ c < st.sessions.length,
        (answers st.sessions)[n]? = some (server.response c n).answer ∧
        ((server.response c n).final.status = 200 →
          (∀ m, n < m → m < env.argc → basename (env.path m) ≠ basename (env.path n)) →
          st.files (basename (env.path n)) = some (server.response c n).body) := by
  have hrounds : rounds env 0 false < 2 * env.argc + 1 := by
    unfold rounds
    simp
  have hinv : Inv server (start files) := inv_start files
  obtain ⟨code, st, hrun, hexited⟩ := run_spec hinv hrounds
  obtain rfl := run_serves hserves (inv_start files) hrun
  refine ⟨st, hrun, fun n hn => ?_⟩
  rw [← hexited.all rfl] at hn
  obtain ⟨c, hc, hanswer⟩ := answered hexited.ended.inStep (List.getElem?_eq_getElem hn)
  refine ⟨c, hc, (List.getElem?_eq_getElem hn).trans (congrArg some hanswer), fun h200 hlater => ?_⟩
  apply hexited.ended.written n _ _ hlater
  rw [List.getElem?_eq_getElem hn, hanswer, Response.answer, h200]

def lengthOne : Field := ⟨ascii "Content-Length", ascii " 1", by decide +kernel, by decide +kernel⟩

def okBlock : Block where
  minor := 49
  code := ascii "200"
  reason := ascii " OK"
  fields := [lengthOne]
  minor_digit := rfl
  code_digits := by decide +kernel
  reason_head := by decide +kernel
  oneLine := by decide +kernel
  noEncoding := by
    intro f hf
    rw [List.mem_singleton.mp hf]
    unfold Field.isNamed
    decide +kernel

def okResponse : Response where
  interim := []
  final := okBlock
  body := [120]
  interim_status := by simp
  final_status := by decide +kernel
  noBody := fun h => absurd h (by decide +kernel)
  delimited := fun _ => ⟨lengthOne, List.mem_singleton_self lengthOne, rfl⟩
  lengths := by
    intro _ f hf _
    rw [List.mem_singleton.mp hf]
    exact ⟨[32], [49], [], rfl, by decide +kernel, by decide +kernel, by decide +kernel, rfl⟩

theorem okResponse_readable : okResponse.Readable := by
  refine ⟨nofun, ⟨by decide +kernel, by decide +kernel⟩, ?_⟩
  intro l hl
  rw [List.mem_singleton.mp hl]
  exact ⟨⟨by decide +kernel, by decide +kernel⟩, fun _ => by decide +kernel⟩

def twoFiles : Env where
  proxy := false
  server := ascii "dports"
  userAgent := ascii "phttpget/0.1"
  proxyauth := []
  argv := [ascii "s/tag", ascii "s/pub"]
  canOpen _ _ := true

/-- A peer that answers one request on each connection and closes it. -/
def onceServer : Server twoFiles where
  connect _ n := if n < 2 then
    some ⟨[.sent 2000], ⟨[.bytes 72 okResponse.encode.tail], false⟩⟩ else none
  response _ _ := okResponse
  inOrder := by
    intro c n conn hconn
    by_cases hn : n < 2
    · rw [if_pos hn] at hconn
      cases hconn
      have hcons : span (fun _ => okResponse.encode) n twoFiles.argc =
          okResponse.encode ++ span (fun _ => okResponse.encode) (n + 1) twoFiles.argc :=
        span_cons hn
      rw [hcons]
      exact List.prefix_append okResponse.encode _
    · rw [if_neg hn] at hconn
      cases hconn

theorem onceServer_serves : onceServer.Serves where
  connects := by
    intro c n hn
    refine ⟨_, if_pos hn, ?_, List.prefix_rfl⟩
    have hcases : n = 0 ∨ n = 1 := by
      have hargc : twoFiles.argc = 2 := rfl
      omega
    rcases hcases with rfl | rfl <;> decide +kernel
  readable _ _ _ := okResponse_readable
  opens := by
    intro c n hn
    have hcases : n = 0 ∨ n = 1 := by
      have hargc : twoFiles.argc = 2 := rfl
      omega
    rcases hcases with rfl | rfl <;> exact ⟨by decide +kernel, rfl⟩

theorem twoFiles_fetched :
    ∃ st, run twoFiles onceServer.connect (2 * twoFiles.argc + 1) (start fun _ => none) =
        some (0, st) ∧
      ∀ n < twoFiles.argc, ∃ c < st.sessions.length,
        (answers st.sessions)[n]? = some (onceServer.response c n).answer ∧
        ((onceServer.response c n).final.status = 200 →
          (∀ m, n < m → m < twoFiles.argc →
            basename (twoFiles.path m) ≠ basename (twoFiles.path n)) →
          st.files (basename (twoFiles.path n)) = some (onceServer.response c n).body) :=
  run_fetches onceServer onceServer_serves fun _ => none

end DeltaPorts.Phttpget

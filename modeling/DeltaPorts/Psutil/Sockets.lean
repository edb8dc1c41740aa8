import DeltaPorts.Library.SizedRecords

/-!
# The sockets of psutil

`psutil_net_connections` walks through the four lists of protocol control blocks that the kernel
gives and makes a tuple of each socket that a process has open. All allocations and all calls of
Python succeed.
-/

set_option autoImplicit false

namespace DeltaPorts.Psutil

open SizedRecords

abbrev Bytes := List UInt8

abbrev Text := List Char

/-- `struct kinfo_file` -/
structure File where
  fData : Nat
  fFd : Int
  fPid : Int

/-- `struct inpcb`; the ports in network order. -/
structure Inp where
  isIPv4 : Bool
  isIPv6 : Bool
  lport : Nat
  fport : Nat
  laddr : Bytes
  faddr : Bytes
  laddr6 : Bytes
  faddr6 : Bytes

/-- `struct xtcpcb` and `struct xinpcb`: their size, which is the first member, and what is read
of the members `inp` and `so`. -/
structure InetLayout where
  size : Nat
  large : 8 < size
  inp : Bytes → Inp
  so : Bytes → Nat

/-- `struct xunpcb`, with `sun_len` and `sun_path` of its address. -/
structure UnixLayout where
  size : Nat
  large : 8 < size
  so : Bytes → Nat
  sunLen : Bytes → Nat
  sunPath : Bytes → Bytes

/-- What variables hold that nothing has been assigned to. -/
structure Unset where
  family : Int
  type : Int
  status : Int
  lip : Text
  rip : Text

structure System where
  tcp : InetLayout
  udp : InetLayout
  stream : UnixLayout
  dgram : UnixLayout
  afInet : Int
  afInet6 : Int
  afUnix : Int
  sockStream : Int
  sockDgram : Int
  connNone : Int
  /-- `sizeof(*sun) - sizeof(sun->sun_path)` -/
  sunHeader : Nat
  pathMax : Nat
  inetNtop : Int → Bytes → Text
  decode : Bytes → Text
  unset : Bytes → Unset

inductive Address where
  | none
  | inet (host : Text) (port : Nat)
  | path (name : Text)
  deriving DecidableEq

structure Conn where
  fd : Int
  family : Int
  type : Int
  laddr : Address
  raddr : Address
  status : Int
  pid : Int
  deriving DecidableEq

def toInt (n : Nat) : Int :=
  if n % 4294967296 < 2147483648 then (n % 4294967296 : Nat)
  else (n % 4294967296 : Nat) - 4294967296

/-- `psutil_get_file_from_sock` -/
def getFileFromSock (xfiles : List File) (sock : Nat) : Option File :=
  (xfiles.take (toInt xfiles.length).toNat).find? fun xf => xf.fData = sock

/-- `*(size_t *)so_begin` -/
def sizeAt (memory : Bytes) : Nat := (memory.take 8).foldr (fun b n => b.toNat + 256 * n) 0

def ntohs (n : Nat) : Nat := n % 256 * 256 + n / 256 % 256

/-- `py_tuple` of `psutil_gather_inet` -/
def inetTuple (sys : System) (layout : InetLayout) (record : Bytes) (xf : File) : Conn :=
  let inp := layout.inp record
  let unset := sys.unset record
  let lport := ntohs inp.lport
  let rport := ntohs inp.fport
  let (family, lip, rip) :=
    if inp.isIPv4 then
      (sys.afInet, sys.inetNtop sys.afInet inp.laddr, sys.inetNtop sys.afInet inp.faddr)
    else if inp.isIPv6 then
      (sys.afInet6, sys.inetNtop sys.afInet6 inp.laddr6, sys.inetNtop sys.afInet6 inp.faddr6)
    else (unset.family, unset.lip, unset.rip)
  { fd := xf.fFd
    family := family
    type := unset.type
    laddr := .inet lip lport
    raddr := if rport ≠ 0 then .inet rip rport else .none
    status := unset.status
    pid := xf.fPid }

/-- `snprintf(path, sizeof(path), "%.*s", …)`; a negative precision counts as none. -/
def sunText (sys : System) (sunLen : Nat) (sunPath : Bytes) : Bytes :=
  let precision := toInt (sunLen + 18446744073709551616 - sys.sunHeader)
  let path := if precision < 0 then sunPath else sunPath.take precision.toNat
  (path.takeWhile (· ≠ 0)).take (sys.pathMax - 1)

/-- `py_tuple` of `psutil_gather_unix` -/
def unixTuple (sys : System) (layout : UnixLayout) (proto : Int) (record : Bytes) (xf : File) :
    Conn :=
  { fd := xf.fFd
    family := sys.afUnix
    type := proto
    laddr := .path (sys.decode (sunText sys (layout.sunLen record) (layout.sunPath record)))
    raddr := .path []
    status := sys.connNone
    pid := xf.fPid }

inductive Source where
  | tcp | udp | stream | dgram
  deriving DecidableEq

def layoutSize (sys : System) : Source → Nat
  | .tcp => sys.tcp.size
  | .udp => sys.udp.size
  | .stream => sys.stream.size
  | .dgram => sys.dgram.size

def sockOf (sys : System) : Source → Bytes → Nat
  | .tcp => sys.tcp.so
  | .udp => sys.udp.so
  | .stream => sys.stream.so
  | .dgram => sys.dgram.so

def tupleOf (sys : System) : Source → Bytes → File → Conn
  | .tcp => inetTuple sys sys.tcp
  | .udp => inetTuple sys sys.udp
  | .stream => unixTuple sys sys.stream sys.sockStream
  | .dgram => unixTuple sys sys.dgram sys.sockDgram

def appended (sys : System) (xfiles : List File) (source : Source) (record : Bytes) :
    Option Conn :=
  match getFileFromSock xfiles (sockOf sys source record) with
  | none => none
  | some xf => some (tupleOf sys source record xf)

/-- The loop of both functions, with at most one round for each byte. -/
def walkRecords (sys : System) (xfiles : List File) (source : Source) (buf : Bytes)
    (out : List Conn) : Option (Bool × List Conn) :=
  walk sizeAt 8 (layoutSize sys source) (appended sys xfiles source) (buf.length + 1) buf out

/-- The list after the call and the value that is returned. After the loop of
`psutil_gather_inet` comes its label `error`. -/
def gather (sys : System) (xfiles : List File) (source : Source) (buf : Bytes)
    (out : List Conn) : Option (List Conn × Int) :=
  match walkRecords sys xfiles source buf out with
  | none => none
  | some (complete, out) =>
    match source with
    | .tcp | .udp => some (out, 0)
    | .stream | .dgram => some (out, if complete then 1 else 0)

/-- The sources in turn, as long as what is returned is not 0; `none` is `NULL`. -/
def gatherAll (sys : System) (xfiles : List File) (bufs : Source → Bytes) :
    List Source → List Conn → Option (Option (List Conn))
  | [], out => some (some out)
  | source :: sources, out =>
    match gather sys xfiles source (bufs source) out with
    | none => none
    | some (out, ret) => if ret = 0 then some none else gatherAll sys xfiles bufs sources out

/-- `psutil_net_connections` -/
def netConnections (sys : System) (xfiles : List File) (bufs : Source → Bytes) :
    Option (Option (List Conn)) := gatherAll sys xfiles bufs [.tcp, .udp, .stream, .dgram] []

/-- A record that starts with its own correct size. -/
structure Pcb (sys : System) (source : Source) where
  bytes : Bytes
  length : bytes.length = layoutSize sys source
  ownSize : sizeAt bytes = layoutSize sys source

variable {sys : System} {source : Source}

def buffer (pcbs : List (Pcb sys source)) : Bytes := (pcbs.map Pcb.bytes).flatten

def Pcb.file (xfiles : List File) (pcb : Pcb sys source) : Option File :=
  xfiles.find? fun xf => xf.fData = sockOf sys source pcb.bytes

/-- One tuple for each record whose socket occurs in the file table, in record order. -/
def listed (xfiles : List File) (pcbs : List (Pcb sys source)) : List Conn :=
  pcbs.filterMap fun pcb => (pcb.file xfiles).map (tupleOf sys source pcb.bytes)

def Gathers (xfiles : List File) (pcbs : List (Pcb sys source)) : Prop :=
  ∀ out, gather sys xfiles source (buffer pcbs) out = some (out ++ listed xfiles pcbs, 1)

/-- The number of files, as an `int`, reaches to a file with the socket if there is one. -/
def Counted (xfiles : List File) (pcb : Pcb sys source) : Prop :=
  (pcb.file xfiles).isSome = true →
    ∃ xf ∈ xfiles.take (toInt xfiles.length).toNat, xf.fData = sockOf sys source pcb.bytes

theorem layoutSize_large (sys : System) (source : Source) : 8 < layoutSize sys source := by
  cases source with
  | tcp => exact sys.tcp.large
  | udp => exact sys.udp.large
  | stream => exact sys.stream.large
  | dgram => exact sys.dgram.large

theorem walkRecords_terminates (xfiles : List File) (buf : Bytes) (out : List Conn) :
    (walkRecords sys xfiles source buf out).isSome = true :=
  walk_terminates (Nat.lt_trans (Nat.succ_pos 7) (layoutSize_large sys source))
    (Nat.lt_succ_self _) out

/-- Each call returns, whatever the buffer holds. -/
theorem gather_terminates (xfiles : List File) (buf : Bytes) (out : List Conn) :
    (gather sys xfiles source buf out).isSome = true := by
  obtain ⟨⟨complete, found⟩, hwalk⟩ :=
    Option.isSome_iff_exists.mp (@walkRecords_terminates sys source xfiles buf out)
  unfold gather
  rw [hwalk]
  cases source <;> rfl

/-- The size is read off the first eight bytes, whatever follows the record. -/
theorem Pcb.sized (pcb : Pcb sys source) : Sized sizeAt (layoutSize sys source) pcb.bytes := by
  refine ⟨pcb.length, fun rest => ?_⟩
  have hlong : 8 ≤ pcb.bytes.length := by
    rw [pcb.length]
    exact Nat.le_of_lt (layoutSize_large sys source)
  rw [← pcb.ownSize]
  unfold sizeAt
  rw [List.take_append_of_le_length hlong]

theorem walkRecords_buffer (xfiles : List File) (pcbs : List (Pcb sys source))
    (out : List Conn) :
    walkRecords sys xfiles source (buffer pcbs) out =
      some (true, out ++ (pcbs.map Pcb.bytes).filterMap (appended sys xfiles source)) := by
  apply walk_flatten (layoutSize_large sys source)
  · intro record hrecord
    obtain ⟨pcb, _, rfl⟩ := List.mem_map.mp hrecord
    exact pcb.sized
  · exact Nat.lt_succ_self _

def returned : Source → Int
  | .tcp | .udp => 0
  | .stream | .dgram => 1

theorem gather_buffer (xfiles : List File) (pcbs : List (Pcb sys source)) (out : List Conn) :
    gather sys xfiles source (buffer pcbs) out =
      some (out ++ (pcbs.map Pcb.bytes).filterMap (appended sys xfiles source),
        returned source) := by
  unfold gather
  rw [walkRecords_buffer]
  cases source <;> rfl

theorem returned_eq_one_iff : returned source = 1 ↔ source = .stream ∨ source = .dgram := by
  cases source <;> simp [returned]

def wanted (sys : System) (xfiles : List File) (source : Source) (record : Bytes) :
    Option Conn :=
  (xfiles.find? fun xf => xf.fData = sockOf sys source record).map (tupleOf sys source record)

theorem listed_eq (xfiles : List File) (pcbs : List (Pcb sys source)) :
    listed xfiles pcbs = (pcbs.map Pcb.bytes).filterMap (wanted sys xfiles source) := by
  rw [List.filterMap_map]
  rfl

theorem appended_none_or (sys : System) (xfiles : List File) (source : Source) (record : Bytes) :
    appended sys xfiles source record = none ∨
      appended sys xfiles source record = wanted sys xfiles source record := by
  unfold appended
  cases hfile : getFileFromSock xfiles (sockOf sys source record) with
  | none => exact .inl rfl
  | some xf =>
    refine .inr ?_
    unfold getFileFromSock at hfile
    have hwhole : (xfiles.find? fun xf => xf.fData = sockOf sys source record) = some xf :=
      calc
        _ = (xfiles.take (toInt xfiles.length).toNat ++
            xfiles.drop (toInt xfiles.length).toNat).find?
              (fun xf => xf.fData = sockOf sys source record) := by
          rw [List.take_append_drop]
        _ = some xf := by rw [List.find?_append, hfile]; rfl
    unfold wanted
    rw [hwhole]
    rfl

theorem appended_eq_wanted_iff (xfiles : List File) (pcb : Pcb sys source) :
    appended sys xfiles source pcb.bytes = wanted sys xfiles source pcb.bytes ↔
      Counted xfiles pcb := by
  have hfound : (getFileFromSock xfiles (sockOf sys source pcb.bytes)).isSome = true ↔
      ∃ xf ∈ xfiles.take (toInt xfiles.length).toNat,
        xf.fData = sockOf sys source pcb.bytes := by
    unfold getFileFromSock
    simp
  have happended : (appended sys xfiles source pcb.bytes).isSome =
      (getFileFromSock xfiles (sockOf sys source pcb.bytes)).isSome := by
    unfold appended
    cases getFileFromSock xfiles (sockOf sys source pcb.bytes) <;> rfl
  have hwanted : (wanted sys xfiles source pcb.bytes).isSome = (pcb.file xfiles).isSome :=
    Option.isSome_map
  constructor
  · intro heq hfile
    rw [← hfound, ← happended, heq, hwanted]
    exact hfile
  · intro hcounted
    refine (appended_none_or sys xfiles source pcb.bytes).elim (fun hnone => ?_) id
    rw [hnone] at happended ⊢
    symm
    rw [← Option.not_isSome_iff_eq_none, hwanted]
    intro hfile
    have := hfound.mpr (hcounted hfile)
    rw [← happended] at this
    exact Bool.noConfusion this

theorem gathers_iff (xfiles : List File) (pcbs : List (Pcb sys source)) :
    Gathers xfiles pcbs ↔
      (source = .stream ∨ source = .dgram) ∧ ∀ pcb ∈ pcbs, Counted xfiles pcb := by
  have hlists : (pcbs.map Pcb.bytes).filterMap (appended sys xfiles source) =
      listed xfiles pcbs ↔ ∀ pcb ∈ pcbs, Counted xfiles pcb := by
    rw [listed_eq, filterMap_eq_iff (appended_none_or sys xfiles source), List.forall_mem_map]
    exact forall₂_congr fun pcb _ => appended_eq_wanted_iff xfiles pcb
  rw [← returned_eq_one_iff, ← hlists]
  unfold Gathers
  constructor
  · intro h
    have hnil := h []
    rw [gather_buffer, Option.some_inj, Prod.mk.injEq] at hnil
    exact ⟨hnil.2, hnil.1⟩
  · intro ⟨hreturned, hlist⟩ out
    rw [gather_buffer, hreturned, hlist]

theorem netConnections_null (xfiles : List File) (bufs : Source → Bytes) :
    netConnections sys xfiles bufs = some none := by
  obtain ⟨⟨complete, out⟩, hwalk⟩ := Option.isSome_iff_exists.mp
    (@walkRecords_terminates sys .tcp xfiles (bufs .tcp) [])
  have hgather : gather sys xfiles .tcp (bufs .tcp) [] = some (out, 0) := by
    unfold gather
    rw [hwalk]
  unfold netConnections gatherAll
  rw [hgather]
  rfl

def allListed (xfiles : List File) (pcbs : ∀ source, List (Pcb sys source)) : List Conn :=
  listed xfiles (pcbs .tcp) ++ listed xfiles (pcbs .udp) ++ listed xfiles (pcbs .stream) ++
    listed xfiles (pcbs .dgram)

/-- The lists of local sockets are gathered when the file table is counted right. Those of
internet sockets never are, and so there is no result at all. -/
theorem sockets_gathered_iff (sys : System) (xfiles : List File)
    (pcbs : ∀ source, List (Pcb sys source)) :
    (∀ source, Gathers xfiles (pcbs source) ↔
      (source = .stream ∨ source = .dgram) ∧ ∀ pcb ∈ pcbs source, Counted xfiles pcb) ∧
    netConnections sys xfiles (fun source => buffer (pcbs source)) ≠
      some (some (allListed xfiles pcbs)) := by
  refine ⟨fun source => gathers_iff xfiles (pcbs source), ?_⟩
  rw [netConnections_null]
  exact fun h => nomatch Option.some_inj.mp h

/-- Every record is 16 bytes long and names its socket after its size. -/
def smallSystem : System where
  tcp := ⟨16, by decide, fun _ => ⟨true, false, 20480, 0, [], [], [], []⟩,
    fun record => (record.drop 8).headI.toNat⟩
  udp := ⟨16, by decide, fun _ => ⟨true, false, 20480, 0, [], [], [], []⟩,
    fun record => (record.drop 8).headI.toNat⟩
  stream := ⟨16, by decide, fun record => (record.drop 8).headI.toNat, fun _ => 2, fun _ => []⟩
  dgram := ⟨16, by decide, fun record => (record.drop 8).headI.toNat, fun _ => 2, fun _ => []⟩
  afInet := 2
  afInet6 := 28
  afUnix := 1
  sockStream := 1
  sockDgram := 2
  connNone := 128
  sunHeader := 2
  pathMax := 1024
  inetNtop _ _ := []
  decode _ := []
  unset _ := ⟨0, 0, 0, [], []⟩

def oneSocket : Pcb smallSystem .tcp where
  bytes := [16, 0, 0, 0, 0, 0, 0, 0, 5, 0, 0, 0, 0, 0, 0, 0]
  length := rfl
  ownSize := by decide

theorem tcp_socket_not_gathered :
    ¬ ∀ (sys : System) (xfiles : List File) (pcbs : ∀ source, List (Pcb sys source)),
      (∀ source, Gathers xfiles (pcbs source)) ∧
      netConnections sys xfiles (fun source => buffer (pcbs source)) =
        some (some (allListed xfiles pcbs)) := by
  intro h
  have htcp := (h smallSystem [⟨5, 3, 700⟩]
    fun source => match source with | .tcp => [oneSocket] | _ => []).1 .tcp []
  have hreturned : gather smallSystem [⟨5, 3, 700⟩] .tcp (buffer [oneSocket]) [] =
      some ([⟨3, 2, 0, .inet [] 80, .none, 0, 700⟩], 0) := by decide
  rw [hreturned] at htcp
  exact absurd (congrArg Prod.snd (Option.some_inj.mp htcp)) (by decide)

end DeltaPorts.Psutil

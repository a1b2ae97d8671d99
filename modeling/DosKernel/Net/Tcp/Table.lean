import DosKernel.Net.Tcp.Calls
import Mathlib.Logic.Function.Basic

namespace DosKernel.Net.Tcp

-- The connection table of kernel/core/net.c: slots are taken, given back and passed on.

def tcpMaxConns : ℕ := 32
def tcpAcceptq : ℕ := tcpMaxConns

structure Packet where
  dev : Device
  srcIp : ℕ
  dstIp : ℕ
  srcPort : ℕ
  dstPort : ℕ
  seg : Segment
deriving DecidableEq

structure Table where
  conns : ℕ → Conn := fun _ => {}
  isn : Seq := 0x2000
  ephem : ℕ := 0

def Event.isCall : Event → Bool
  | .input .. | .sweep => false
  | _ => true

def Event.isLast : Event → Bool
  | .closeEnd => true
  | _ => false

-- Where `tcp_input` takes a segment: nowhere, to a listener, or to a connection.
inductive Route where
  | refused
  | spawn (l j : ℕ)
  | deliver (i : ℕ)
deriving DecidableEq

namespace Conn

variable (link : Link) (now : ℕ) (c : Conn)

def isFor (localIp localPort peerIp peerPort : ℕ) : Bool :=
  c.used && !c.listener && decide (c.localPort = localPort) && decide (c.peerPort = peerPort) &&
    decide (c.peerIp = peerIp) && (decide (c.localIp = localIp) || decide (c.localIp = 0))

def isListeningAt (localIp localPort : ℕ) : Bool :=
  c.used && c.listener && decide (c.state = .listen) && decide (c.localPort = localPort) &&
    (decide (c.localIp = 0) || decide (c.localIp = localIp))

def queueFull : Bool :=
  decide (tcpAcceptq ≤ c.aq.length + 1) || decide (c.backlog ≤ c.aq.length)

def completes (seg : Segment) : Bool :=
  decide (c.state = .synRcvd) && !seg.flags.rst && seg.flags.ack &&
    seqLeq (c.ackWindow link now seg).sndNxt seg.ack

def connectEnd : Conn := if c.state = .established then c else c.free

def refuse : Conn := if c.used then (c.emit link c.sndNxt { rst := true } []).2.free else c

end Conn

def listenConn (ip port : ℕ) (backlog : ℤ) : Conn where
  used := true
  listener := true
  state := .listen
  localIp := ip
  localPort := port
  backlog := if backlog ≤ 0 ∨ tcpAcceptq - 1 < backlog then tcpAcceptq - 1 else backlog.toNat

namespace Table

-- `links` says for each slot which of its segments the device takes.
variable (links : ℕ → Link) (now : ℕ) (s : Table)

def set (i : ℕ) (c : Conn) : Table := { s with conns := Function.update s.conns i c }

def alloc : Option ℕ := (List.range tcpMaxConns).find? fun i => !(s.conns i).used

def portTaken (port : ℕ) : Bool :=
  (List.range tcpMaxConns).any fun i => (s.conns i).used && decide ((s.conns i).localPort = port)

-- A free port of the ephemeral range, 0 for none, with the counter behind it.
def ephemPort : ℕ → ℕ → ℕ × ℕ
  | 0, n => (0, n)
  | tries + 1, n =>
    let port := 0xC000 + n % 0x4000
    if s.portTaken port then ephemPort tries (n + 1) else (port, n + 1)

def lookup (localIp localPort peerIp peerPort : ℕ) : Option ℕ :=
  ((List.range tcpMaxConns).find? fun i =>
      (s.conns i).isFor localIp localPort peerIp peerPort).or
    ((List.range tcpMaxConns).find? fun i => (s.conns i).isListeningAt localIp localPort)

def route (p : Packet) : Route :=
  match s.lookup p.dstIp p.dstPort p.srcIp p.srcPort with
  | none => .refused
  | some i =>
    if (s.conns i).listener then
      if p.seg.flags.rst || !p.seg.flags.syn then .refused
      else
        match s.alloc with
        | none => .refused
        | some j => .spawn i j
    else .deliver i

def spawn (p : Packet) (l j : ℕ) : Table :=
  { s with isn := s.isn + 0x10000 }.set j
    (childConn (links j) now p.dev (s.isn + 0x10000) p.dstIp p.dstPort p.srcIp p.srcPort l p.seg)

def parentFull (i : ℕ) : Bool :=
  match (s.conns i).parent with
  | none => false
  | some l => (s.conns l).queueFull

-- A child that completes its handshake goes to whatever its parent's slot holds.
def enqueue (l i : ℕ) : Table := s.set l { s.conns l with aq := (s.conns l).aq ++ [i] }

def deliver (i : ℕ) (seg : Segment) : Table :=
  let s' := s.set i ((s.conns i).input (links i) now (s.parentFull i) seg)
  match (s.conns i).parent with
  | none => s'
  | some l =>
    if (s.conns i).completes (links i) now seg && !s.parentFull i then s'.enqueue l i else s'

def sweep : Table := { s with conns := fun i => (s.conns i).sweep (links i) now }

def listen (ip port : ℕ) (backlog : ℤ) : Option ℕ × Table :=
  if s.portTaken port then (none, s)
  else
    match s.alloc with
    | none => (none, s)
    | some l => (some l, s.set l (listenConn ip port backlog))

def connect (dev : Device) (localIp ip port : ℕ) : Option ℕ × Table :=
  match s.alloc with
  | none => (none, s)
  | some i =>
    let (localPort, ephem) := (s.set i { used := true }).ephemPort 0x4000 s.ephem
    (some i, { s with isn := s.isn + 0x10000, ephem := ephem }.set i
      (connectConn (links i) now dev (s.isn + 0x10000) localIp localPort ip port))

def accept (l : ℕ) : Option ℕ × Table :=
  if (s.conns l).used then
    match (s.conns l).aq with
    | [] => (none, s)
    | i :: rest =>
      let s' := s.set l { s.conns l with aq := rest }
      (some i, s'.set i { s'.conns i with parent := none })
  else (none, s)

def closeListener (l : ℕ) : Table :=
  let s' := (s.conns l).aq.foldl (fun s i => s.set i ((s.conns i).refuse (links i))) s
  s'.set l { (s'.conns l).free with aq := [] }

end Table

end DosKernel.Net.Tcp

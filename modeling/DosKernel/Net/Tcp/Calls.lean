import DosKernel.Net.Tcp.Steps

namespace DosKernel.Net.Tcp

open DosKernel.Lib

inductive RecvResult where
  | bytes (data : List Byte)
  | eof
  | again
  | error
deriving DecidableEq, Repr

namespace Conn

variable (link : Link) (now : ℕ) (c : Conn)

-- The first locked part of `net_tcp_send`: may bytes be queued at all?
def sendCheck : Bool :=
  c.used && !c.reset && !c.finPending &&
    !decide (c.state ∈ [.closed, .finWait1, .finWait2, .lastAck])

def queue (data : List Byte) : Conn := { c with tx := c.tx ++ data }

def sendCopy (buf : List Byte) : Option ℕ × Conn :=
  if c.reset ∨ c.state = .closed then (none, c)
  else
    let n := min buf.length (tcpTxbuf - c.tx.length)
    (some n, (c.queue (buf.take n)).output link now)

def recvEnd : RecvResult := if c.reset then .error else if c.peerFin then .eof else .again

def recvTake (len : ℕ) : RecvResult × Conn :=
  let out := c.rx.contents.take len
  if out = [] then (c.recvEnd, c)
  else
    let c' := { c with rx := c.rx.drop len }
    (.bytes out, if c.state = .established ∨ c.state = .closeWait then c'.emitAck link else c')

def askFin : Conn :=
  { c with finPending := true, state := if c.state = .closeWait then .lastAck else .finWait1 }

def startFin : Conn := c.askFin.output link now

def needFin : Bool := decide (c.state = .established) || decide (c.state = .closeWait)

def shutdown : Conn := if c.used && !c.listener && c.needFin then c.startFin link now else c

def closeBegin : Conn := if c.needFin then c.startFin link now else c

def closeEnd : Conn :=
  if c.state = .closed ∨ c.reset then c.free
  else { c with orphan := true, lingerDeadline := now + nsPerMs * tcpOrphanMs }

end Conn

def Conn.sendSyn (link : Link) (now : ℕ) (c : Conn) (flags : Flags) : Conn :=
  ({ (c.emit link c.sndNxt flags []).2 with sndNxt := c.sndNxt + 1 } : Conn).armRto now

def connectConn (link : Link) (now : ℕ) (dev : Device) (isn : Seq)
    (localIp localPort peerIp peerPort : ℕ) : Conn :=
  ({ used := true, dev := some dev, localIp := localIp, localPort := localPort, peerIp := peerIp,
     peerPort := peerPort, sndUna := isn, sndNxt := isn, sndWnd := 1460, state := .synSent } :
    Conn).sendSyn link now { syn := true }

def childConn (link : Link) (now : ℕ) (dev : Device) (isn : Seq)
    (localIp localPort peerIp peerPort : ℕ) (parent : ℕ) (syn : Segment) : Conn :=
  ({ used := true, dev := some dev, localIp := localIp, localPort := localPort, peerIp := peerIp,
     peerPort := peerPort, parent := some parent, rcvNxt := syn.seq + 1, sndUna := isn,
     sndNxt := isn, sndWnd := syn.window, state := .synRcvd } :
    Conn).sendSyn link now { syn := true, ack := true }

-- A call is cut where it drops the lock, so the parts of several calls mix.
inductive Event where
  | input (full : Bool) (seg : Segment)
  | sweep
  | send (buf : List Byte)
  | recv (len : ℕ)
  | shutdown
  | closeBegin
  | closeEnd

def Conn.step (link : Link) (c : Conn) (e : ℕ × Event) : Conn :=
  match e.2 with
  | .input full seg => c.input link e.1 full seg
  | .sweep => c.sweep link e.1
  | .send buf => (c.sendCopy link e.1 buf).2
  | .recv len => (c.recvTake link len).2
  | .shutdown => c.shutdown link e.1
  | .closeBegin => c.closeBegin link e.1
  | .closeEnd => c.closeEnd e.1

inductive Started (link : Link) : Conn → Prop
  | connect (now : ℕ) (dev : Device) (isn : Seq) (localIp localPort peerIp peerPort : ℕ) :
      Started link (connectConn link now dev isn localIp localPort peerIp peerPort)
  | child (now : ℕ) (dev : Device) (isn : Seq) (localIp localPort peerIp peerPort parent : ℕ)
      (syn : Segment) :
      Started link (childConn link now dev isn localIp localPort peerIp peerPort parent syn)

def Conn.handedOut (c : Conn) : Event → Bool
  | .input .. | .sweep => true
  | _ => decide (c.state ≠ .synSent) && decide (c.state ≠ .synRcvd)

end DosKernel.Net.Tcp

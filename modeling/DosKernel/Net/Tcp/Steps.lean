import DosKernel.Net.Tcp.Conn

namespace DosKernel.Net.Tcp.Conn

open DosKernel.Lib

variable (link : Link) (now : ℕ) (c : Conn)

-- `tcp_input` for a connection, in the order of the source.

-- An acknowledgement one past what we sent is that of a window probe.
def pullNxt (seg : Segment) : Conn :=
  if seqGt seg.ack c.sndNxt && seqLeq seg.ack (c.sndNxt + 1) then { c with sndNxt := seg.ack } else c

def rearm : Conn := if c.sndUna ≠ c.sndNxt then c.armRto now else c

-- New data is acknowledged: the buffer is compacted, the timer starts again. A SYN or a FIN takes
-- a number and no byte.
def compact (seg : Segment) : Conn :=
  { c with
    tx := c.tx.drop (min (seg.ack - c.sndUna).toNat c.tx.length)
    sndUna := seg.ack
    retries := 0
    rtoMs := 0
    rtoDeadline := 0 }

def acksNew (seg : Segment) : Bool := seqGt seg.ack c.sndUna && seqLeq seg.ack c.sndNxt

def ackData (seg : Segment) : Conn :=
  if c.acksNew seg then ((c.compact seg).rearm now).output link now else c

-- The handshake ends. `full` says that the parent's accept queue has no place left.
def establish (full : Bool) (seg : Segment) : Conn :=
  if c.state = .synRcvd ∧ seqLeq c.sndNxt seg.ack then
    let c' := { c with state := .established, rtoDeadline := 0 }
    if c.parent.isSome && full then (c'.emit link c'.sndNxt { rst := true } []).2.free else c'
  else c

def finAcked (seg : Segment) : Bool := c.finSent && seqGt seg.ack c.finSeq

def ackFin1 (seg : Segment) : Conn :=
  if c.state = .finWait1 ∧ c.finAcked seg then { c with state := .finWait2 } else c

-- The window may have opened even if nothing new is acknowledged.
def ackWindow (seg : Segment) : Conn :=
  ({ (c.pullNxt seg).ackData link now seg with sndWnd := seg.window } : Conn).output link now

def takeAck (full : Bool) (seg : Segment) : Conn :=
  ((c.ackWindow link now seg).establish link full seg).ackFin1 seg

-- As much of the payload as fits; the rest is not acknowledged.
def rxStore (data : List Byte) : Conn :=
  { c with
    rx := c.rx.store data
    rcvNxt := c.rcvNxt + BitVec.ofNat 32 (min data.length c.rx.free) }

def takeData (seg : Segment) : Conn :=
  if seg.data = [] then c
  else if seg.seq = c.rcvNxt then (c.rxStore seg.data).emitAck link
  else c.emitAck link

def closing : TcpState → TcpState
  | .established => .closeWait
  | .finWait1 | .finWait2 => .timeWait
  | st => st

-- The FIN is ours to take once the data before it has been accepted.
def finSeen : Conn := { c with rcvNxt := c.rcvNxt + 1, peerFin := true }

def moveOn : Conn :=
  { c with
    state := closing c.state
    lingerDeadline := if closing c.state = .timeWait ∧ c.state ≠ .timeWait then
      now + nsPerMs * tcpTimeWaitMs else c.lingerDeadline }

def takeFin (seg : Segment) : Conn :=
  if !seg.flags.fin then c
  else if seg.seq + BitVec.ofNat 32 seg.data.length = c.rcvNxt then
    (c.finSeen.emitAck link).moveOn now
  else c.emitAck link

def inputRst : Conn := { c with reset := true, peerFin := true, state := .closed, rtoDeadline := 0 }

def connected (seg : Segment) : Conn :=
  { c with
    rcvNxt := seg.seq + 1
    sndUna := seg.ack
    sndWnd := seg.window
    state := .established
    rtoDeadline := 0
    retries := 0
    rtoMs := 0 }

def inputSynSent (seg : Segment) : Conn :=
  if seg.flags.syn && seg.flags.ack && decide (seg.ack = c.sndNxt) then
    ((c.connected seg).emitAck link).output link now
  else c

def acknowledge (full : Bool) (seg : Segment) : Conn :=
  if seg.flags.ack then c.takeAck link now full seg else c

def conclude (seg : Segment) : Conn :=
  if seg.flags.ack ∧ c.state = .lastAck ∧ c.finAcked seg then
    { c with state := .closed, rtoDeadline := 0 }
  else (c.takeData link seg).takeFin link now seg

def input (full : Bool) (seg : Segment) : Conn :=
  if seg.flags.rst then c.inputRst
  else if c.state = .synSent then c.inputSynSent link now seg
  else (c.acknowledge link now full seg).conclude link now seg

-- `tcp_sweep_locked` for one connection.

-- Go back to the first unacknowledged byte; a FIN behind it is unsent again.
def resend : Conn :=
  if c.state = .synSent then (c.emit link c.sndUna { syn := true } []).2
  else if c.state = .synRcvd then (c.emit link c.sndUna { syn := true, ack := true } []).2
  else if c.tx ≠ [] then
    let mss := (c.dev.map Device.mss).getD tcpMssCap
    let n := if c.sndWnd = 0 then 1 else min c.tx.length mss
    let c' := (c.emit link c.sndUna { psh := true, ack := true } (c.tx.take n)).2
    { c' with
      sndNxt := if n < c.inflight then c.sndUna + BitVec.ofNat 32 n else c.sndNxt
      finSent := false }
  else if c.finSent then (c.emit link c.finSeq { fin := true, ack := true } []).2
  else c

def backoff : Conn :=
  let ms := min (if c.rtoMs = 0 then tcpRtoInitialMs else c.rtoMs * 2) tcpRtoMaxMs
  { c with rtoMs := ms, rtoDeadline := now + nsPerMs * ms }

def due : Bool := c.armed && decide (c.rtoDeadline ≤ now)

def expired : Bool := decide (c.lingerDeadline ≠ 0) && decide (c.lingerDeadline ≤ now)

def reclaim : Conn :=
  if c.state = .timeWait ∧ c.expired now then
    if c.orphan then c.free else { c with state := .closed }
  else if c.orphan && (decide (c.state = .closed) || c.expired now) then c.free
  else c

def sweep : Conn :=
  if !c.used || c.listener then c
  else if c.due now then
    if tcpRetriesMax < c.retries + 1 then
      { c with retries := c.retries + 1, reset := true, peerFin := true, state := .closed,
               rtoDeadline := 0 }
    else ((({ c with retries := c.retries + 1 } : Conn).resend link).backoff now).reclaim now
  else c.reclaim now

end DosKernel.Net.Tcp.Conn

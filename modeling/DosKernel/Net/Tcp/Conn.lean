import DosKernel.Lib.Ring

namespace DosKernel.Net.Tcp

open DosKernel.Lib

-- One connection of kernel/core/net.c. A function runs under the stack lock, cut where it drops it.

abbrev Byte := UInt8
abbrev Seq := BitVec 32

def seqLeq (a b : Seq) : Bool := (a - b).sle 0
def seqGt (a b : Seq) : Bool := (0 : Seq).slt (a - b)

inductive TcpState where
  | closed
  | listen
  | synSent
  | synRcvd
  | established
  | finWait1
  | finWait2
  | closeWait
  | lastAck
  | timeWait
deriving DecidableEq, Repr

def tcpRxbuf : ℕ := 8192
def tcpTxbuf : ℕ := 8192
def tcpMssCap : ℕ := 1460
def tcpRtoInitialMs : ℕ := 200
def tcpRtoMaxMs : ℕ := 3000
def tcpRetriesMax : ℕ := 8
def tcpTimeWaitMs : ℕ := 1000
def tcpOrphanMs : ℕ := 10000
def nsPerMs : ℕ := 1000000

structure Flags where
  fin : Bool := false
  syn : Bool := false
  rst : Bool := false
  psh : Bool := false
  ack : Bool := false
deriving DecidableEq, Repr

structure Segment where
  seq : Seq
  ack : Seq
  flags : Flags
  window : ℕ
  data : List Byte := []
deriving DecidableEq, Repr

-- A device whose MTU leaves room behind the IPv4 and TCP headers.
structure Device where
  mtu : ℕ
  big : 40 < mtu
deriving DecidableEq

def Device.mss (dev : Device) : ℕ := min (dev.mtu - 40) tcpMssCap

-- `struct tcp_conn` without statistics and next hop. `tx` and `aq` are the filled parts, `wire`
-- what the device took.
structure Conn where
  used : Bool := false
  listener : Bool := false
  state : TcpState := .closed
  finPending : Bool := false
  finSent : Bool := false
  finSeq : Seq := 0
  orphan : Bool := false
  peerFin : Bool := false
  reset : Bool := false
  dev : Option Device := none
  localIp : ℕ := 0
  peerIp : ℕ := 0
  localPort : ℕ := 0
  peerPort : ℕ := 0
  sndUna : Seq := 0
  sndNxt : Seq := 0
  sndWnd : ℕ := 0
  tx : List Byte := []
  rcvNxt : Seq := 0
  rx : Ring Byte tcpRxbuf := .empty 0
  rtoDeadline : ℕ := 0
  rtoMs : ℕ := 0
  retries : ℕ := 0
  lingerDeadline : ℕ := 0
  aq : List ℕ := []
  backlog : ℕ := 0
  parent : Option ℕ := none
  txSegs : ℕ := 0
  wire : List Segment := []

-- Whether the device takes the n-th segment a connection hands to it.
abbrev Link := ℕ → Bool

namespace Conn

variable (link : Link) (now : ℕ) (c : Conn)

def inflight : ℕ := (c.sndNxt - c.sndUna).toNat

def armed : Bool := decide (c.rtoDeadline ≠ 0)

def free : Conn := { c with state := .closed, used := false }

def emit (seq : Seq) (flags : Flags) (data : List Byte) : Bool × Conn :=
  match c.dev with
  | none => (false, c)
  | some _ =>
    let seg : Segment :=
      { seq := seq, ack := c.rcvNxt, flags := flags, window := min c.rx.free 65535, data := data }
    if link c.txSegs then (true, { c with txSegs := c.txSegs + 1, wire := c.wire ++ [seg] })
    else (false, { c with txSegs := c.txSegs + 1 })

def emitAck : Conn := (c.emit link c.sndNxt { ack := true } []).2

def armRto : Conn :=
  let ms := if c.rtoMs = 0 then tcpRtoInitialMs else c.rtoMs
  { c with rtoMs := ms, rtoDeadline := now + nsPerMs * ms }

-- The data part of `tcp_output_locked`; every round sends at least a byte.
def outputLoop (mss : ℕ) : ℕ → Conn → Conn
  | 0, c => c
  | fuel + 1, c =>
    if c.tx.length ≤ c.inflight then c
    else if c.sndWnd ≤ c.inflight then c
    else
      let n := min (min (c.tx.length - c.inflight) (c.sndWnd - c.inflight)) mss
      match c.emit link c.sndNxt { psh := true, ack := true } ((c.tx.drop c.inflight).take n) with
      | (true, c') => outputLoop mss fuel { c' with sndNxt := c.sndNxt + BitVec.ofNat 32 n }
      | (false, c') => c'

def outputFin : Conn :=
  if c.finPending && !c.finSent && decide (c.tx.length ≤ c.inflight) then
    match c.emit link c.sndNxt { fin := true, ack := true } [] with
    | (true, c') => { c' with finSent := true, finSeq := c.sndNxt, sndNxt := c.sndNxt + 1 }
    | (false, c') => c'
  else c

def armOutstanding : Conn :=
  if c.sndNxt ≠ c.sndUna ∧ c.rtoDeadline = 0 then c.armRto now else c

end Conn

def TcpState.sends : TcpState → Bool
  | .established | .closeWait | .finWait1 | .lastAck => true
  | _ => false

namespace Conn

variable (link : Link) (now : ℕ) (c : Conn)

def output : Conn :=
  match c.dev with
  | none => c
  | some dev =>
    if c.used && c.state.sends then
      (((c.outputLoop link dev.mss c.tx.length).outputFin link).armOutstanding now)
    else c

end Conn

end DosKernel.Net.Tcp

import Mathlib.Tactic.Common

namespace DosKernel.Net

open List

-- The receive path of kernel/core/net.c. A frame is the first `len` bytes of `mem`; what the code
-- reads is recorded access by access.

abbrev Byte := UInt8
abbrev Mem := ℕ → Byte
abbrev Mac := List Byte

def ethAlen : ℕ := 6
def ethHlen : ℕ := 14
def ethMtu : ℕ := 1500
def ethertypeIpv4 : ℕ := 0x0800
def ethertypeArp : ℕ := 0x0806
def ipProtoIcmp : ℕ := 1
def ipProtoTcp : ℕ := 6
def ipProtoUdp : ℕ := 17
def arpOpRequest : ℕ := 1
def icmpEchoRequest : ℕ := 8
def icmpEchoReply : ℕ := 0

def arpPktSize : ℕ := 28
def ipv4HdrSize : ℕ := 20
def icmpHdrSize : ℕ := 8
def udpHdrSize : ℕ := 8
def tcpHdrSize : ℕ := 20

def sub32 (a b : ℕ) : ℕ := (a + 4294967296 - b) % 4294967296

def ntohs (mem : Mem) (off : ℕ) : ℕ := (mem off).toNat * 256 + (mem (off + 1)).toNat

def ntohl (mem : Mem) (off : ℕ) : ℕ := ntohs mem off * 65536 + ntohs mem (off + 2)

def bytes (mem : Mem) (off n : ℕ) : List Byte := (List.range n).map fun i => mem (off + i)

structure Access where
  off : ℕ
  width : ℕ
deriving DecidableEq, Repr

structure TcpHead where
  srcPort : ℕ
  dstPort : ℕ
  seq : ℕ
  ack : ℕ
  flags : ℕ
  window : ℕ
deriving DecidableEq, Repr

inductive Effect where
  | learn (ip : ℕ) (mac : Mac)
  | arpReply (mac : Mac) (ip : ℕ)
  | echoReply (ip off len : ℕ)
  | pingReply (id seq : ℕ)
  | datagram (ip srcPort dstPort off len : ℕ)
  | segment (src dst : ℕ) (head : TcpHead) (off len : ℕ)
deriving DecidableEq, Repr

structure Handed where
  proto : ℕ
  off : ℕ
  len : ℕ
deriving DecidableEq, Repr

structure Rx where
  reads : List Access := []
  handed : Option Handed := none
  effects : List Effect := []
deriving DecidableEq, Repr

def Rx.drop : Rx := {}

def Rx.reading (as : List Access) (r : Rx) : Rx := { r with reads := as ++ r.reads }

structure NetDevice where
  mac : Mac
  ip : ℕ
  adminDown : Bool := false
deriving DecidableEq, Repr

def bcastMac : Mac := List.replicate ethAlen 0xFF

def arpInput (dev : NetDevice) (mem : Mem) (p len : ℕ) : Rx :=
  if len < arpPktSize then .drop
  else .reading [⟨p + 2, 2⟩, ⟨p + 5, 1⟩] <|
    if ntohs mem (p + 2) ≠ ethertypeIpv4 ∨ mem (p + 5) ≠ 4 then .drop
    else .reading [⟨p + 14, 4⟩, ⟨p + 24, 4⟩, ⟨p + 8, ethAlen⟩, ⟨p + 6, 2⟩] <|
      let sha := bytes mem (p + 8) ethAlen
      let spa := ntohl mem (p + 14)
      if ntohs mem (p + 6) = arpOpRequest ∧ ntohl mem (p + 24) = dev.ip then
        { effects := [.learn spa sha, .arpReply sha spa] }
      else { effects := [.learn spa sha] }

def icmpInput (srcIp : ℕ) (mem : Mem) (p len : ℕ) : Rx :=
  if len < icmpHdrSize then .drop
  else .reading [⟨p, 1⟩] <|
    if (mem p).toNat = icmpEchoRequest then
      if ethMtu < len then .drop
      else .reading [⟨p, len⟩] { effects := [.echoReply srcIp p len] }
    else if (mem p).toNat = icmpEchoReply then
      .reading [⟨p + 4, 2⟩, ⟨p + 6, 2⟩]
        { effects := [.pingReply (ntohs mem (p + 4)) (ntohs mem (p + 6))] }
    else .drop

def udpInput (srcIp : ℕ) (mem : Mem) (p len : ℕ) : Rx :=
  if len < udpHdrSize then .drop
  else .reading [⟨p + 2, 2⟩, ⟨p, 2⟩, ⟨p + 4, 2⟩] <|
    let ulen := ntohs mem (p + 4)
    if ulen < udpHdrSize ∨ len < ulen then .drop
    else
      { effects := [.datagram srcIp (ntohs mem p) (ntohs mem (p + 2)) (p + udpHdrSize)
          (ulen - udpHdrSize)] }

-- `room` is what a segment's connection stores of it: its free space for the next in order,
-- nothing otherwise.
def tcpInputFrame (room : TcpHead → ℕ) (src dst : ℕ) (mem : Mem) (p len : ℕ) : Rx :=
  if len < tcpHdrSize then .drop
  else .reading [⟨p, 2⟩, ⟨p + 2, 2⟩, ⟨p + 12, 1⟩] <|
    let hlen := (mem (p + 12)).toNat / 16 * 4
    if hlen < tcpHdrSize ∨ len < hlen then .drop
    else
      let head : TcpHead :=
        { srcPort := ntohs mem p, dstPort := ntohs mem (p + 2), seq := ntohl mem (p + 4)
          ack := ntohl mem (p + 8), flags := (mem (p + 13)).toNat, window := ntohs mem (p + 14) }
      let dlen := len - hlen
      .reading [⟨p + 4, 4⟩, ⟨p + 8, 4⟩, ⟨p + 13, 1⟩, ⟨p + 14, 2⟩, ⟨p + hlen, min dlen (room head)⟩]
        { effects := [.segment src dst head (p + hlen) dlen] }

def transport (room : TcpHead → ℕ) (src dst : ℕ) (mem : Mem) (proto l4 l4len : ℕ) : Rx :=
  if proto = ipProtoIcmp then { icmpInput src mem l4 l4len with handed := some ⟨proto, l4, l4len⟩ }
  else if proto = ipProtoUdp then
    { udpInput src mem l4 l4len with handed := some ⟨proto, l4, l4len⟩ }
  else if proto = ipProtoTcp then
    { tcpInputFrame room src dst mem l4 l4len with handed := some ⟨proto, l4, l4len⟩ }
  else .drop

def ihlOf (mem : Mem) (p : ℕ) : ℕ := (mem p).toNat % 16 * 4
def totalOf (mem : Mem) (p : ℕ) : ℕ := ntohs mem (p + 2)

def ipv4Input (dev : NetDevice) (room : TcpHead → ℕ) (mem : Mem) (p len : ℕ) : Rx :=
  if len < ipv4HdrSize then .drop
  else .reading [⟨p, 1⟩] <|
    if (mem p).toNat / 16 ≠ 4 then .drop
    else if ihlOf mem p < ipv4HdrSize ∨ len < ihlOf mem p then .drop
    else .reading [⟨p + 16, 4⟩] <|
      let dst := ntohl mem (p + 16)
      if dev.ip ≠ 0 ∧ dst ≠ dev.ip ∧ dst ≠ 0xFFFFFFFF then .drop
      else .reading [⟨p + 12, 4⟩, ⟨p + 2, 2⟩] <|
        if len < totalOf mem p then .drop
        else .reading [⟨p + 9, 1⟩] <|
          transport room (ntohl mem (p + 12)) dst mem (mem (p + 9)).toNat (p + ihlOf mem p)
            (sub32 (totalOf mem p) (ihlOf mem p))

def netRx (dev : NetDevice) (room : TcpHead → ℕ) (mem : Mem) (len : ℕ) : Rx :=
  if len < ethHlen then .drop
  else if dev.adminDown then .drop
  else .reading [⟨0, ethAlen⟩] <|
    if bytes mem 0 ethAlen ≠ dev.mac ∧ bytes mem 0 ethAlen ≠ bcastMac then .drop
    else .reading [⟨12, 2⟩] <|
      let payload := ethHlen
      let plen := len - ethHlen
      if ntohs mem 12 = ethertypeArp then arpInput dev mem payload plen
      else if ntohs mem 12 = ethertypeIpv4 then
        .reading [⟨6, ethAlen⟩] (ipv4Input dev room mem payload plen)
      else .drop

def Rx.Inside (r : Rx) (len : ℕ) : Prop := ∀ a ∈ r.reads, a.off + a.width ≤ len

-- The length fields of an IPv4 packet at `p` contradict each other, or the frame's `len` bytes.
def Ipv4Contradictory (mem : Mem) (p len : ℕ) : Prop :=
  let ihl := ihlOf mem p
  let total := totalOf mem p
  let proto := (mem (p + 9)).toNat
  ihl < ipv4HdrSize ∨ len < ihl ∨ len < total ∨ total < ihl ∨
    proto = ipProtoUdp ∧ (ntohs mem (p + ihl + 4) < udpHdrSize ∨
      total - ihl < ntohs mem (p + ihl + 4)) ∨
    proto = ipProtoTcp ∧ ((mem (p + ihl + 12)).toNat / 16 * 4 < tcpHdrSize ∨
      total - ihl < (mem (p + ihl + 12)).toNat / 16 * 4)

-- The two pairs of addresses of the lengths an ARP packet at `p` states.
def arpLen (mem : Mem) (p : ℕ) : ℕ := 8 + 2 * ((mem (p + 4)).toNat + (mem (p + 5)).toNat)

def Contradictory (mem : Mem) (len : ℕ) : Prop :=
  ntohs mem 12 = ethertypeIpv4 ∧ Ipv4Contradictory mem ethHlen (len - ethHlen) ∨
    ntohs mem 12 = ethertypeArp ∧ len - ethHlen < arpLen mem ethHlen

-- A frame is read only inside itself, a transport gets the bytes between header length and total
-- length, and contradictory lengths have no effect.
structure Contained (dev : NetDevice) (room : TcpHead → ℕ) (mem : Mem) (len : ℕ) : Prop where
  inside : (netRx dev room mem len).Inside len
  length : ∀ h ∈ (netRx dev room mem len).handed, h.off = ethHlen + ihlOf mem ethHlen ∧
    h.len + ihlOf mem ethHlen = totalOf mem ethHlen
  dropped : Contradictory mem len → (netRx dev room mem len).effects = []

-- The IPv4 packet at `p` passes the checks of `ipv4_input` up to a transport.
def Passes (dev : NetDevice) (mem : Mem) (p len : ℕ) : Prop :=
  ipv4HdrSize ≤ len ∧ (mem p).toNat / 16 = 4 ∧ ipv4HdrSize ≤ ihlOf mem p ∧ ihlOf mem p ≤ len ∧
    (dev.ip = 0 ∨ ntohl mem (p + 16) = dev.ip ∨ ntohl mem (p + 16) = 0xFFFFFFFF) ∧
    totalOf mem p ≤ len ∧ (mem (p + 9)).toNat ∈ [ipProtoIcmp, ipProtoUdp, ipProtoTcp]

def Accepted (dev : NetDevice) (mem : Mem) (len : ℕ) : Prop :=
  ethHlen ≤ len ∧ dev.adminDown = false ∧
    (bytes mem 0 ethAlen = dev.mac ∨ bytes mem 0 ethAlen = bcastMac)

def Demuxed (dev : NetDevice) (mem : Mem) (len : ℕ) : Prop :=
  Accepted dev mem len ∧ ntohs mem 12 = ethertypeIpv4 ∧ Passes dev mem ethHlen (len - ethHlen)

-- The ARP packet passes the checks of `arp_input`.
def Resolves (dev : NetDevice) (mem : Mem) (len : ℕ) : Prop :=
  Accepted dev mem len ∧ ntohs mem 12 = ethertypeArp ∧ arpPktSize ≤ len - ethHlen ∧
    ntohs mem (ethHlen + 2) = ethertypeIpv4 ∧ mem (ethHlen + 5) = 4

-- The contradictions that are not looked for: a total length below the header's in `ipv4_input`,
-- and hardware addresses longer than the packet in `arp_input`.
def HeaderFits (dev : NetDevice) (mem : Mem) (len : ℕ) : Prop :=
  (Demuxed dev mem len → ihlOf mem ethHlen ≤ totalOf mem ethHlen) ∧
    (Resolves dev mem len → arpLen mem ethHlen ≤ len - ethHlen)

variable {dev : NetDevice} {room : TcpHead → ℕ} {mem : Mem} {r : Rx} {as : List Access}
  {p len n src dst proto : ℕ}

theorem inside_drop : Rx.drop.Inside n := nofun

theorem inside_guard {c : Prop} [Decidable c] (h : ¬ c → r.Inside n) :
    (if c then Rx.drop else r).Inside n := by
  split
  · exact inside_drop
  · exact h ‹_›

theorem inside_reading :
    (r.reading as).Inside n ↔ (∀ a ∈ as, a.off + a.width ≤ n) ∧ r.Inside n := by
  simp [Rx.Inside, Rx.reading, or_imp, forall_and]

@[simp] theorem handed_reading : (r.reading as).handed = r.handed := rfl
@[simp] theorem effects_reading : (r.reading as).effects = r.effects := rfl

section

variable (h : p + len ≤ n)

include h

theorem inside_arpInput : (arpInput dev mem p len).Inside n := by
  refine inside_guard fun hlen => inside_reading.mpr ⟨?_, inside_guard fun _ =>
    inside_reading.mpr ⟨?_, by split <;> exact nofun⟩⟩
  all_goals
    simp [arpPktSize, ethAlen] at hlen ⊢
    omega

theorem inside_icmpInput : (icmpInput src mem p len).Inside n := by
  refine inside_guard fun hlen => inside_reading.mpr ⟨by simp [icmpHdrSize] at hlen ⊢; omega, ?_⟩
  split
  · exact inside_guard fun _ => inside_reading.mpr ⟨by simpa using h, nofun⟩
  · split
    · exact inside_reading.mpr ⟨by simp [icmpHdrSize] at hlen ⊢; omega, nofun⟩
    · exact inside_drop

theorem inside_udpInput : (udpInput src mem p len).Inside n := by
  refine inside_guard fun hlen => inside_reading.mpr ⟨?_, inside_guard fun _ => nofun⟩
  simp [udpHdrSize] at hlen ⊢
  omega

theorem inside_tcpInputFrame :
    (tcpInputFrame room src dst mem p len).Inside n := by
  refine inside_guard fun hlen => inside_reading.mpr ⟨?_, inside_guard fun hhlen =>
    inside_reading.mpr ⟨?_, nofun⟩⟩
  all_goals
    simp only [tcpHdrSize, mem_cons, not_mem_nil, or_false, forall_eq_or_imp, forall_eq] at hlen ⊢
    omega

theorem inside_transport : (transport room src dst mem proto p len).Inside n := by
  unfold transport
  split
  · exact inside_icmpInput h
  split
  · exact inside_udpInput h
  split
  · exact inside_tcpInputFrame h
  · exact inside_drop

end

theorem handed_transport (h : Handed) (hh : (transport room src dst mem proto p len).handed = some h) :
    h = ⟨proto, p, len⟩ := by
  unfold transport at hh
  split at hh
  · exact (Option.some.inj hh).symm
  split at hh
  · exact (Option.some.inj hh).symm
  split at hh
  · exact (Option.some.inj hh).symm
  · cases hh

theorem handed_eq_of_mem (h : proto ∈ [ipProtoIcmp, ipProtoUdp, ipProtoTcp]) :
    (transport room src dst mem proto p len).handed = some ⟨proto, p, len⟩ := by
  simp only [mem_cons, not_mem_nil, or_false] at h
  obtain rfl | rfl | rfl := h <;> rfl

theorem effects_transport (hudp : proto = ipProtoUdp → ntohs mem (p + 4) < udpHdrSize ∨
      len < ntohs mem (p + 4)) (hicmp : proto ≠ ipProtoIcmp)
    (htcp : proto = ipProtoTcp → (mem (p + 12)).toNat / 16 * 4 < tcpHdrSize ∨
      len < (mem (p + 12)).toNat / 16 * 4) :
    (transport room src dst mem proto p len).effects = [] := by
  unfold transport
  rw [if_neg hicmp]
  split
  next hp =>
    show (udpInput src mem p len).effects = []
    unfold udpInput
    split
    · rfl
    · rw [effects_reading]
      rw [if_pos (hudp hp)]
      rfl
  split
  next hp =>
    show (tcpInputFrame room src dst mem p len).effects = []
    unfold tcpInputFrame
    split
    · rfl
    · rw [effects_reading]
      rw [if_pos (htcp hp)]
      rfl
  · rfl

def headerReads : List Access :=
  [⟨0, 6⟩, ⟨12, 2⟩, ⟨6, 6⟩, ⟨14, 1⟩, ⟨30, 4⟩, ⟨26, 4⟩, ⟨16, 2⟩, ⟨23, 1⟩]

theorem ipv4Input_passes (h : Passes dev mem p len) :
    ipv4Input dev room mem p len = (transport room (ntohl mem (p + 12)) (ntohl mem (p + 16)) mem
      (mem (p + 9)).toNat (p + ihlOf mem p) (sub32 (totalOf mem p) (ihlOf mem p))).reading
        [⟨p, 1⟩, ⟨p + 16, 4⟩, ⟨p + 12, 4⟩, ⟨p + 2, 2⟩, ⟨p + 9, 1⟩] := by
  obtain ⟨hlen, hver, hihl, hihl', hdst, htotal, -⟩ := h
  have hdst' : ¬ (dev.ip ≠ 0 ∧ ntohl mem (p + 16) ≠ dev.ip ∧ ntohl mem (p + 16) ≠ 0xFFFFFFFF) := by
    rintro ⟨h1, h2, h3⟩
    exact hdst.elim h1 fun h => h.elim h2 h3
  unfold ipv4Input
  simp only [Nat.not_lt.mpr hlen, hver, Nat.not_lt.mpr hihl, Nat.not_lt.mpr hihl', hdst',
    Nat.not_lt.mpr htotal, ne_eq, not_true_eq_false, or_self, if_false]
  rfl

variable (room) in
theorem netRx_demuxed (h : Demuxed dev mem len) :
    netRx dev room mem len = (transport room (ntohl mem 26) (ntohl mem 30) mem (mem 23).toNat
      (ethHlen + ihlOf mem ethHlen) (sub32 (totalOf mem ethHlen) (ihlOf mem ethHlen))).reading
        headerReads := by
  obtain ⟨⟨hlen, hup, hmac⟩, htype, hpasses⟩ := h
  have hmac' : ¬ (bytes mem 0 ethAlen ≠ dev.mac ∧ bytes mem 0 ethAlen ≠ bcastMac) := by
    rintro ⟨h1, h2⟩
    exact hmac.elim h1 h2
  unfold netRx
  simp only [Nat.not_lt.mpr hlen, hup, hmac', htype, ipv4Input_passes hpasses, if_false, if_true,
    Bool.false_eq_true, show ethertypeIpv4 ≠ ethertypeArp from by decide]
  rfl

-- Only read from, inside the frame, and, if `q`, without effect.
structure Fruitless (q : Prop) (n : ℕ) (r : Rx) : Prop where
  inside : r.Inside n
  handed : r.handed = none
  effects : q → r.effects = []

section

variable {q : Prop}

theorem Fruitless.drop : Fruitless q n .drop := ⟨inside_drop, rfl, fun _ => rfl⟩

theorem Fruitless.guard {c : Prop} [Decidable c] (h : ¬ c → Fruitless q n r) :
    Fruitless q n (if c then .drop else r) := by
  split
  · exact .drop
  · exact h ‹_›

theorem Fruitless.reading (ha : ∀ a ∈ as, a.off + a.width ≤ n) (h : Fruitless q n r) :
    Fruitless q n (r.reading as) :=
  ⟨inside_reading.mpr ⟨ha, h.inside⟩, h.handed, h.effects⟩

theorem ipv4Input_fails (hfails : ¬ Passes dev mem p len) (h : p + len ≤ n) :
    Fruitless q n (ipv4Input dev room mem p len) := by
  refine .guard fun h1 => .reading ?_ (.guard fun h2 => .guard fun h3 => .reading ?_
    (.guard fun h4 => .reading ?_ (.guard fun h5 => .reading ?_ ?_)))
  all_goals simp only [ipv4HdrSize] at h1
  iterate 4
    · simp
      omega
  have hproto : (mem (p + 9)).toNat ∉ [ipProtoIcmp, ipProtoUdp, ipProtoTcp] := by
    intro hmem
    refine hfails ⟨by simp only [ipv4HdrSize]; omega, not_not.mp h2, by omega, by omega, ?_,
      by omega, hmem⟩
    by_contra hdst
    push Not at hdst
    exact h4 hdst
  simp only [mem_cons, not_mem_nil, or_false, not_or] at hproto
  simp only [transport, hproto, if_false]
  exact .drop

variable (room) in
theorem netRx_not_demuxed (h : ¬ Demuxed dev mem len) :
    Fruitless (¬ Resolves dev mem len) len (netRx dev room mem len) := by
  refine .guard fun hlen => .guard fun hup => .reading ?_ (.guard fun hmac => .reading ?_ ?_)
  all_goals simp only [ethHlen] at hlen
  iterate 2
    · simp [ethAlen]
      omega
  have hpay : ethHlen + (len - ethHlen) ≤ len := by
    simp only [ethHlen]
    omega
  have hacc : Accepted dev mem len := ⟨Nat.not_lt.mp hlen, by simpa using hup, by tauto⟩
  dsimp only
  split
  next harp =>
    refine ⟨inside_arpInput hpay, ?_, fun hno => ?_⟩
    · simp only [arpInput]
      split_ifs <;> rfl
    · simp only [arpInput]
      split
      · rfl
      next hsize =>
        rw [effects_reading, if_pos]
        · rfl
        by_contra hpass
        push Not at hpass
        exact hno ⟨hacc, harp, Nat.not_lt.mp hsize, hpass⟩
  split
  next hip =>
    have hfails : ¬ Passes dev mem ethHlen (len - ethHlen) := fun hp => h ⟨hacc, hip, hp⟩
    refine .reading ?_ (ipv4Input_fails hfails hpay)
    simp [ethAlen]
    omega
  · exact .drop

end

variable (room) in
theorem effects_resolves (h : Resolves dev mem len) : (netRx dev room mem len).effects ≠ [] := by
  obtain ⟨⟨hlen, hup, hmac⟩, htype, hsize, hptype, hplen⟩ := h
  have hmac' : ¬ (bytes mem 0 ethAlen ≠ dev.mac ∧ bytes mem 0 ethAlen ≠ bcastMac) := by
    rintro ⟨h1, h2⟩
    exact hmac.elim h1 h2
  unfold netRx arpInput
  simp only [Nat.not_lt.mpr hlen, hup, hmac', htype, Nat.not_lt.mpr hsize, hptype, hplen, if_false,
    if_true, Bool.false_eq_true, effects_reading, ne_eq, not_true_eq_false, or_self]
  split
  · exact cons_ne_nil _ _
  · exact cons_ne_nil _ _

theorem sub32_eq {a b : ℕ} (h : b ≤ a) (ha : a < 4294967296) : sub32 a b = a - b := by
  unfold sub32
  omega

theorem totalOf_lt : totalOf mem p < 65536 := by
  unfold totalOf ntohs
  have h1 := (mem (p + 2)).toNat_lt
  have h2 := (mem (p + 2 + 1)).toNat_lt
  omega

theorem contained_of_fits (hd : Demuxed dev mem len)
    (hfits : ihlOf mem ethHlen ≤ totalOf mem ethHlen) : Contained dev room mem len := by
  obtain ⟨⟨hlen, -, -⟩, htype, hpasses⟩ := id hd
  obtain ⟨h20, -, hihl, hihl', -, htotal, hproto⟩ := hpasses
  have hlt : totalOf mem ethHlen < 65536 := totalOf_lt
  have hsub := sub32_eq hfits (by omega)
  have hrx := netRx_demuxed room hd
  rw [hsub] at hrx
  simp only [ethHlen, ipv4HdrSize] at hlen h20 hihl hihl' htotal
  refine ⟨?_, fun h hh => ?_, fun hcon => ?_⟩
  · rw [hrx, inside_reading]
    refine ⟨?_, inside_transport (by simp only [ethHlen]; omega)⟩
    simp only [headerReads, mem_cons, not_mem_nil, or_false, forall_eq_or_imp, forall_eq]
    omega
  · rw [hrx, handed_reading] at hh
    rw [handed_transport h hh]
    exact ⟨rfl, Nat.sub_add_cancel hfits⟩
  · rw [hrx, effects_reading]
    have hno : ntohs mem 12 ≠ ethertypeArp := by
      rw [htype]
      decide
    obtain ⟨-, h | h | h | h | ⟨hudp, h⟩ | ⟨htcp, h⟩⟩ | ⟨harp, -⟩ := hcon
    · simp only [ethHlen, ipv4HdrSize] at h
      omega
    · simp only [ethHlen] at h
      omega
    · simp only [ethHlen] at h
      omega
    · omega
    · have hudp : (mem 23).toNat = ipProtoUdp := hudp
      rw [hudp]
      exact effects_transport (fun _ => h) (by decide) (fun h => by cases h)
    · have htcp : (mem 23).toNat = ipProtoTcp := htcp
      rw [htcp]
      exact effects_transport (fun h => by cases h) (by decide) (fun _ => h)
    · exact absurd harp hno

theorem contained_iff_headerFits : Contained dev room mem len ↔ HeaderFits dev mem len := by
  by_cases hd : Demuxed dev mem len
  · have harp : ¬ Resolves dev mem len := fun hr => by cases hd.2.1.symm.trans hr.2.1
    refine ⟨fun h => ⟨fun _ => ?_, fun hr => absurd hr harp⟩, fun h => contained_of_fits hd (h.1 hd)⟩
    have hlen := (h.length ⟨(mem 23).toNat, _, _⟩ (by
      rw [netRx_demuxed room hd, handed_reading]
      exact handed_eq_of_mem hd.2.2.2.2.2.2.2.2)).2
    omega
  · have hno := netRx_not_demuxed room hd
    refine ⟨fun h => ⟨fun hd' => absurd hd' hd, fun hr => ?_⟩, fun h => ⟨hno.inside, fun _ hh => ?_,
      fun hcon => ?_⟩⟩
    · by_contra hlong
      exact effects_resolves room hr (h.dropped (.inr ⟨hr.2.1, Nat.not_le.mp hlong⟩))
    · rw [hno.handed] at hh
      cases hh
    · refine hno.effects fun hr => ?_
      obtain ⟨hip, -⟩ | ⟨-, hlong⟩ := hcon
      · cases hip.symm.trans hr.2.1
      · exact Nat.not_le.mpr hlong (h.2 hr)

-- A packet of only a header with total length zero: the ICMP type is read behind the frame.
def bareHeader : Mem := fun off =>
  ([0xFF, 0xFF, 0xFF, 0xFF, 0xFF, 0xFF, 0, 0, 0, 0, 0, 0, 0x08, 0x00,
    0x45, 0, 0, 0, 0, 0, 0x40, 0, 64, 1, 0, 0, 10, 0, 2, 2, 10, 0, 2, 15] : List Byte).getD off 0

def eth0 : NetDevice := { mac := [0x52, 0x54, 0, 0x12, 0x34, 0x56], ip := 167772687 }

theorem bareHeader_not_contained :
    (⟨34, 1⟩ : Access) ∈ (netRx eth0 (fun _ => 0) bareHeader 34).reads ∧
      (netRx eth0 (fun _ => 0) bareHeader 34).handed = some ⟨1, 34, 4294967276⟩ ∧
      ¬ Contained eth0 (fun _ => 0) bareHeader 34 := by
  refine ⟨by decide +kernel, by decide +kernel, fun h => ?_⟩
  exact absurd (h.inside ⟨34, 1⟩ (by decide +kernel)) (by decide)

end DosKernel.Net

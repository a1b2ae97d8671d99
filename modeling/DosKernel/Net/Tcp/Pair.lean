import DosKernel.Net.Tcp.Delivery

namespace DosKernel.Net.Tcp

open DosKernel.Lib List

-- Two ends of one connection. Each end has one task, whose calls are cut where they drop the lock.

-- Where the task is: before the call that hands the connection out, between calls, or inside one.
inductive Pc where
  | opening
  | idle
  | sending (buf : List Byte)
  | polling
  | taking (len : ℕ)
  | closing
  | gone
deriving DecidableEq

-- An end with what `net_tcp_send` accepted and `net_tcp_recv` returned, and whether that was 0.
structure Endpoint where
  c : Conn
  pc : Pc := .opening
  sent : List Byte := []
  got : List Byte := []
  ended : Bool := false

inductive Act where
  | deliver (full : Bool) (seg : Segment)
  | reset
  | sweep
  | openEnd
  | send (buf : List Byte)
  | sendCopy
  | sendAgain
  | recv (len : ℕ) (nonblock : Bool)
  | recvPoll
  | recvTake
  | shutdown
  | closeBegin
  | closeEnd

namespace Endpoint

variable (link : Link) (now : ℕ) (s : Endpoint)

def returned : RecvResult → List Byte
  | .bytes data => data
  | _ => []

def recvEnd (r : RecvResult) (c : Conn) : Endpoint :=
  { s with c := c, pc := .idle, got := s.got ++ returned r, ended := s.ended || decide (r = .eof) }

def openEnd : Endpoint :=
  if s.c.parent.isSome then { s with c := { s.c with parent := none }, pc := .idle }
  else { s with c := s.c.connectEnd, pc := if s.c.state = .established then .idle else .gone }

def sendCopy : Endpoint :=
  match s.pc with
  | .sending buf =>
    { s with
      c := (s.c.sendCopy link now buf).2
      pc := .idle
      sent := s.sent ++ buf.take ((s.c.sendCopy link now buf).1.getD 0) }
  | _ => s

-- The first look at the ring; a caller that does not block goes on to ask for the end.
def recv (len : ℕ) (nonblock : Bool) : Endpoint :=
  if s.c.rx.avail = 0 ∧ nonblock then { s with pc := .polling } else { s with pc := .taking len }

def recvTake : Endpoint :=
  match s.pc with
  | .taking len => s.recvEnd (s.c.recvTake link len).1 (s.c.recvTake link len).2
  | _ => s

def step : Act → Endpoint
  | .deliver full seg => { s with c := s.c.input link now full seg }
  | .reset => { s with c := s.c.inputRst }
  | .sweep => { s with c := s.c.sweep link now }
  | .openEnd => s.openEnd
  | .send buf => if s.c.sendCheck then { s with pc := .sending buf } else s
  | .sendCopy => s.sendCopy link now
  | .sendAgain => { s with pc := .idle }
  | .recv len nonblock => if s.c.used then s.recv len nonblock else s
  | .recvPoll => s.recvEnd s.c.recvEnd s.c
  | .recvTake => s.recvTake link
  | .shutdown => { s with c := s.c.shutdown link now }
  | .closeBegin => { s with c := s.c.closeBegin link now, pc := .closing }
  | .closeEnd => { s with c := s.c.closeEnd now, pc := .gone }

def small (more : ℕ) : Bool := decide (s.sent.length + more + 4 < 2147483648)

-- The network delivers what the peer sent, in any order, again or never. The task makes its calls
-- in turn, once the connection is handed out.
def legal (s peer : Endpoint) : Act → Bool
  | .deliver _ seg => s.c.used && decide (seg ∈ peer.c.wire)
  | .reset => s.c.used
  | .sweep => true
  | .openEnd => decide (s.pc = .opening) &&
      (!s.c.parent.isSome || decide (s.c.state ≠ .synSent) && decide (s.c.state ≠ .synRcvd))
  | .send _ | .recv _ _ | .shutdown | .closeBegin => decide (s.pc = .idle)
  | .sendCopy => match s.pc with
    | .sending buf => s.small buf.length
    | _ => false
  | .sendAgain => match s.pc with
    | .sending _ => true
    | _ => false
  | .recvPoll => decide (s.pc = .polling)
  | .recvTake => match s.pc with
    | .taking _ => true
    | _ => false
  | .closeEnd => decide (s.pc = .closing)

def hides : Bool := s.c.peerFin && !s.c.reset && decide (s.c.rx.avail ≠ 0)

-- A call that does not look at the ring, or asks for no byte of it, finds no byte hidden there.
def candid : Act → Bool
  | .recvPoll => !s.hides
  | .recvTake => match s.pc with
    | .taking len => decide (0 < len) || !s.hides
    | _ => true
  | _ => true

end Endpoint

-- What was returned is a prefix of what was accepted, the queue holds the bytes of its numbers,
-- and the end is reported behind the last byte.
structure Delivers (isn : Seq) (x y : Endpoint) : Prop where
  order : y.got <+: x.sent
  queue : ∀ i < x.c.tx.length, ∃ p, posn isn (x.c.sndUna + BitVec.ofNat 32 i) = p + 1 ∧
    p < x.sent.length ∧ x.c.tx[i]? = x.sent[p]?
  ended : y.ended = true → y.got = x.sent

structure Flow (isn : Seq) (x y : Endpoint) : Prop where
  sender : x.c.Sender isn x.sent
  early : x.c.Early isn
  synced : Conn.Receiver isn x.sent y.got x.c y.c ∨ Conn.Unsynced y.got x.c y.c
  ended : y.ended = true → y.got = x.sent ∧ x.c.finPending = true

structure Task (s : Endpoint) : Prop where
  late : s.pc ≠ .opening → s.c.state ≠ .synSent ∧ s.c.state ≠ .synRcvd
  sending : ∀ buf, s.pc = .sending buf → s.c.finPending = false

namespace Conn

structure Calm (isn : Seq) (sent : List Byte) (c c' : Conn) : Prop where
  keeps : Keeps isn sent c c'
  early : Early isn c'
  told : Told c c'
  mute : Mute c → Mute c'
  state : c'.state = .synRcvd → c.state = .synRcvd
  wire : Mute c → c.state ≠ .synRcvd → ∀ seg ∈ c'.wire, seg ∈ c.wire ∨ seg.flags.ack = false

variable {link : Link} {now : ℕ} {c c' : Conn} {isn : Seq} {sent : List Byte}

theorem Calm.refl (he : Early isn c) : Calm isn sent c c :=
  ⟨.refl, he, .refl, id, id, fun _ _ _ => .inl⟩

theorem calm_quiet (he : Early isn c) (hst : c'.state = c.state ∨ c'.state = .closed)
    (hfin : c'.peerFin = c.peerFin ∧ c'.reset = c.reset ∨ c'.reset = true := by exact .inl ⟨rfl, rfl⟩)
    (hside : c'.sendSide = c.sendSide := by rfl) (hrcv : c'.rcvNxt = c.rcvNxt := by rfl)
    (hrx : c'.rx = c.rx := by rfl) (hwire : c'.wire = c.wire := by rfl) : Calm isn sent c c' where
  keeps := keeps_quiet (fun _ => hst) hside hwire
  early hs := by
    rw [show c'.sndUna = c.sndUna from congrArg (·.1) hside]
    obtain heq | heq := hst
    · exact he (heq ▸ hs)
    · obtain h | h := hs <;> cases heq.symm.trans h
  told := by
    refine ⟨fun hs => ?_, hrcv, hrx, fun hf hr => ?_, fun _ hseg => .inl (hwire ▸ hseg)⟩
    · obtain heq | heq := hst
      · exact heq ▸ hs
      · cases heq.symm.trans hs
    · obtain ⟨hp, hq⟩ | hq := hfin
      · exact ⟨hp ▸ hf, hq ▸ hr⟩
      · cases hq.symm.trans hr
  mute hm := by
    simp only [sendSide, Prod.mk.injEq] at hside
    obtain ⟨-, -, htx, -, hsent, -⟩ := hside
    exact hm.of_fields hst htx hsent hwire
  state hs := by
    obtain heq | heq := hst
    · exact heq ▸ hs
    · cases heq.symm.trans hs
  wire _ _ _ hseg := .inl (hwire ▸ hseg)

theorem calm_sweep (he : Early isn c) : Calm isn sent c (c.sweep link now) where
  keeps := keeps_sweep link now he
  early := early_sweep link now he
  told := told_sweep link now c
  mute hm := hm.sweep link now
  state := sweep_synRcvd
  wire hm hst _ := mem_wire_sweep hst hm.tx hm.finSent

theorem calm_startFin (hneed : c.needFin = true) : Calm isn sent c (c.startFin link now) where
  keeps := keeps_startFin link now hneed
  early := early_startFin
  told := told_startFin link now c
  mute hm := by cases hm.needFin.symm.trans hneed
  state hs := by
    rw [show (c.startFin link now).state = c.askFin.state from sent_output.state] at hs
    exact askFin_rule (P := (· = .synRcvd → _)) nofun nofun hs
  wire hm := by cases hm.needFin.symm.trans hneed

end Conn

open Conn

variable {link : Link} {now : ℕ} {isn : Seq} {s s' t : Endpoint} {buf : List Byte}

theorem Flow.calm_to {isn' : Seq} (h : Flow isn t s) (hc : Calm isn' s.sent s.c s'.c)
    (hgot : s'.got = s.got) (hended : s'.ended = s.ended) : Flow isn t s' where
  sender := h.sender
  early := h.early
  synced := by
    rw [hgot]
    refine h.synced.imp (fun hr => hr.told hc.told) fun hu => ?_
    exact hu.told hc.told (hc.mute hu.mute) hc.state (hc.wire hu.mute hu.state)
  ended := by
    rw [hgot, hended]
    exact h.ended

theorem Flow.calm_from (h : Flow isn s t) (hc : Calm isn s.sent s.c s'.c)
    (hsent : s'.sent = s.sent) : Flow isn s' t := by
  obtain ⟨hs, hp, hr⟩ := hc.keeps h.sender
  refine ⟨hsent ▸ hs, hc.early, ?_, fun he => ?_⟩
  · rw [hsent]
    refine h.synced.imp (fun hq => hq.sender hp hr) fun hu => ?_
    exact ⟨hc.mute hu.peer, hu.mute, hu.state, hu.rx, hu.got, hu.fin, hu.wire⟩
  · rw [hsent]
    exact ⟨(h.ended he).1, hp (h.ended he).2⟩

theorem Flow.awaited {seg : Segment} (h : Flow isn s t) (hseg : seg ∈ t.c.wire)
    (hack : seg.flags.ack = true) : Awaited isn s.sent s.c seg.ack := by
  obtain hr | hu := h.synced
  · exact hr.awaited hseg hack
  · cases (hu.wire seg hseg).symm.trans hack

theorem Flow.deliver_from {seg : Segment} {full : Bool} (h : Flow isn s t) (hseg : seg ∈ t.c.wire) :
    Flow isn { s with c := s.c.input link now full seg } t := by
  obtain ⟨hs, hp, hr⟩ := keeps_input link now full h.early (h.awaited hseg) h.sender
  refine ⟨hs, h.sender.early_input link now full h.early (h.awaited hseg), ?_, fun he => ?_⟩
  · refine h.synced.imp (fun hq => hq.sender hp hr) fun hu => ?_
    refine ⟨?_, hu.mute, hu.state, hu.rx, hu.got, hu.fin, hu.wire⟩
    obtain ⟨hdata, hfin⟩ := hu.mute.wire seg hseg
    show Mute (s.c.input link now full seg)
    obtain heq | heq := hu.peer.input_bare link now full hdata hfin (hu.wire seg hseg)
    · rw [heq]
      exact hu.peer
    · rw [heq]
      exact hu.peer.of_fields (.inr rfl)
  · exact ⟨(h.ended he).1, hp (h.ended he).2⟩

theorem Flow.deliver_to {seg : Segment} {full : Bool} (h : Flow isn t s) (hseg : seg ∈ t.c.wire) :
    Flow isn t { s with c := s.c.input link now full seg } := by
  have hcar := h.sender.wire seg hseg
  refine ⟨h.sender, h.early, ?_, h.ended⟩
  obtain hr | hu := h.synced
  · exact .inl (hr.input link now full h.sender.small hcar)
  · exact (hu.input link now full hcar hseg).symm

theorem Task.late_at {q : Pc} (h : Task s) (hpc : s.pc = q) (hq : q ≠ .opening) :
    s.c.state ≠ .synSent ∧ s.c.state ≠ .synRcvd :=
  h.late (hpc ▸ hq)

theorem Conn.Mute.closed {c : Conn} (h : Mute c) (hl : c.state ≠ .synSent ∧ c.state ≠ .synRcvd) :
    c.state = .closed := by
  obtain hst | hst | hst := h.state
  · exact absurd hst hl.1
  · exact absurd hst hl.2
  · exact hst

theorem sendCopy_eq (hpc : s.pc = .sending buf)
    (hc : ¬ (s.c.reset = true ∨ s.c.state = .closed)) :
    s.sendCopy link now = { s with
      c := (s.c.queue (buf.take (min buf.length (tcpTxbuf - s.c.tx.length)))).output link now
      pc := .idle
      sent := s.sent ++ buf.take (min buf.length (tcpTxbuf - s.c.tx.length)) } := by
  have hcopy : s.c.sendCopy link now buf = (some (min buf.length (tcpTxbuf - s.c.tx.length)),
      (s.c.queue (buf.take (min buf.length (tcpTxbuf - s.c.tx.length)))).output link now) := if_neg hc
  unfold Endpoint.sendCopy
  rw [hpc]
  dsimp only
  rw [hcopy]
  rfl

theorem sendCopy_refused (hpc : s.pc = .sending buf)
    (hc : s.c.reset = true ∨ s.c.state = .closed) :
    s.sendCopy link now = { s with pc := .idle } := by
  have hcopy : s.c.sendCopy link now buf = (none, s.c) := if_pos hc
  unfold Endpoint.sendCopy
  rw [hpc]
  dsimp only
  rw [hcopy]
  simp

theorem Flow.queue_from (h : Flow isn s t) (ht : Task s)
    (hpc : s.pc = .sending buf) (hsmall : s.small buf.length = true)
    (hc : ¬ (s.c.reset = true ∨ s.c.state = .closed)) : Flow isn (s.sendCopy link now) t := by
  have hp := ht.sending buf hpc
  have hlate := ht.late_at hpc (by simp)
  have hbound := h.sender.bound
  have hopen : s.c.state ≠ .closed := fun hs => hc (.inr hs)
  rw [Endpoint.small, decide_eq_true_eq] at hsmall
  rw [sendCopy_eq hpc hc]
  generalize hmore : buf.take (min buf.length (tcpTxbuf - s.c.tx.length)) = more
  have hlen : more.length ≤ buf.length ∧ s.c.tx.length + more.length ≤ tcpTxbuf := by
    rw [← hmore, length_take]
    omega
  have hq : (s.c.queue more).Sender isn (s.sent ++ more) :=
    h.sender.queue hp ⟨hopen, hlate⟩ hlen.2 (by rw [length_append]; omega)
  obtain ⟨hs, hpend, hren⟩ := keeps_output link now hq
  refine ⟨hs, early_sent sent_output fun hst => (hst.elim hlate.1 hlate.2).elim, ?_, fun he => ?_⟩
  · obtain hr | hu := h.synced
    · have happ : Receiver isn (s.sent ++ more) t.got (s.c.queue more) t.c := hr.append more hp
      exact .inl (happ.sender hpend hren)
    · exact absurd (hu.peer.closed hlate) hopen
  · cases hp.symm.trans (h.ended he).2

theorem Flow.queue_to (h : Flow isn t s) (ht : Task s)
    (hpc : s.pc = .sending buf) (hc : ¬ (s.c.reset = true ∨ s.c.state = .closed)) :
    Flow isn t (s.sendCopy link now) := by
  rw [sendCopy_eq hpc hc]
  refine ⟨h.sender, h.early, ?_, h.ended⟩
  obtain hr | hu := h.synced
  · have hq : ∀ more, Told s.c (s.c.queue more) := fun _ => told_quiet id rfl
    exact .inl (hr.told ((hq _).trans told_output))
  · exact absurd (.inr (hu.mute.closed (ht.late_at hpc (by simp)))) hc

theorem Flow.recvPoll (h : Flow isn t s) (hc : s.hides = false) :
    Flow isn t (s.recvEnd s.c.recvEnd s.c) := by
  have hnone : s.got ++ Endpoint.returned s.c.recvEnd = s.got := by
    have hret : Endpoint.returned s.c.recvEnd = [] := by
      unfold Conn.recvEnd
      split_ifs <;> rfl
    rw [hret, append_nil]
  refine ⟨h.sender, h.early, ?_, fun he => ?_⟩
  · show Conn.Receiver isn t.sent (s.got ++ _) t.c s.c ∨ Conn.Unsynced (s.got ++ _) t.c s.c
    rw [hnone]
    exact h.synced
  · show s.got ++ _ = _ ∧ _
    rw [hnone]
    simp only [Endpoint.recvEnd, Bool.or_eq_true, decide_eq_true_eq] at he
    obtain he | he := he
    · exact h.ended he
    · obtain ⟨hf, hr⟩ := recvEnd_eof he
      obtain hq | hu := h.synced
      · refine hq.complete hf hr (eq_nil_of_length_eq_zero ?_)
        simpa [Endpoint.hides, hf, hr] using hc
      · cases (hu.fin hf).symm.trans hr

theorem recvTake_eq {len : ℕ} (hpc : s.pc = .taking len) :
    s.recvTake link = s.recvEnd (s.c.recvTake link len).1 (s.c.recvTake link len).2 := by
  unfold Endpoint.recvTake
  rw [hpc]

theorem Flow.recvTake {len : ℕ} (h : Flow isn t s) (hpc : s.pc = .taking len)
    (hc : 0 < len ∨ s.hides = false) : Flow isn t (s.recvTake link) := by
  rw [recvTake_eq hpc]
  by_cases hnil : s.c.rx.contents.take len = []
  · have hsame : s.c.recvTake link len = (s.c.recvEnd, s.c) := if_pos hnil
    rw [hsame]
    by_cases hh : s.hides = false
    · exact h.recvPoll hh
    · -- a byte is there and was asked for
      have hlen : 0 < len := hc.resolve_right hh
      simp only [Endpoint.hides, Bool.not_eq_false, Bool.and_eq_true, decide_eq_true_eq] at hh
      have hav := congrArg length hnil
      rw [length_take, Ring.length_contents, length_nil] at hav
      omega
  · have hres : (s.c.recvTake link len).1 = .bytes (s.c.rx.contents.take len) := by
      rw [recvTake_result, if_neg hnil]
    refine ⟨h.sender, h.early, ?_, fun he => ?_⟩
    · show Conn.Receiver isn t.sent (s.got ++ Endpoint.returned _) t.c _ ∨ Conn.Unsynced (s.got ++ _) t.c _
      rw [hres]
      obtain hr | hu := h.synced
      · exact .inl (hr.recvTake len)
      · rw [hu.rx] at hnil
        exact absurd (take_nil ..) hnil
    · have hend : s.ended = true := by
        simpa [Endpoint.recvEnd, hres] using he
      obtain hr | hu := h.synced
      · rw [hr.incomplete (h.ended hend).1] at hnil
        exact absurd (take_nil ..) hnil
      · rw [hu.rx] at hnil
        exact absurd (take_nil ..) hnil

theorem recvTake_conn (link : Link) (c : Conn) (len : ℕ) :
    (c.recvTake link len).2.state = c.state ∧
      (Mute c → c.state = .closed → Mute (c.recvTake link len).2) := by
  have hem := emitted_emitAck link { c with rx := c.rx.drop len }
  unfold Conn.recvTake
  dsimp only
  split
  · exact ⟨rfl, fun hm _ => hm⟩
  split
  next hst =>
    refine ⟨hem.sent.state, fun _ hc => ?_⟩
    obtain h | h := hst <;> cases hc.symm.trans h
  · exact ⟨rfl, fun hm _ => hm.of_fields⟩

theorem Flow.recvTake_from {len : ℕ} (h : Flow isn s t) (ht : Task s) (hpc : s.pc = .taking len) :
    Flow isn (s.recvTake link) t := by
  obtain ⟨hst, hmute⟩ := recvTake_conn link s.c len
  have hlate := ht.late_at hpc (by simp)
  have hk : Keeps isn s.sent s.c (s.c.recvTake link len).2 := keeps_recvTake len
  obtain ⟨hs, hp, hr⟩ := hk h.sender
  rw [recvTake_eq hpc]
  refine ⟨hs, early_of_late (hst ▸ hlate.1) (hst ▸ hlate.2), ?_,
    fun he => ⟨(h.ended he).1, hp (h.ended he).2⟩⟩
  refine h.synced.imp (fun hq => hq.sender hp hr) fun hu => ?_
  exact ⟨hmute hu.peer (hu.peer.closed hlate), hu.mute, hu.state, hu.rx, hu.got, hu.fin, hu.wire⟩

theorem calm_openEnd (he : s.c.Early isn) : Calm isn s.sent s.c s.openEnd.c := by
  unfold Endpoint.openEnd
  split
  · exact calm_quiet he (.inl rfl)
  · show Calm isn s.sent s.c s.c.connectEnd
    unfold connectEnd
    split
    · exact .refl he
    · exact calm_quiet he (.inr rfl)

theorem calm_closeEnd (he : s.c.Early isn) : Calm isn s.sent s.c (s.c.closeEnd now) := by
  unfold closeEnd
  exact refuse_rule (calm_quiet he (.inr rfl)) fun _ => calm_quiet he (.inl rfl)

theorem calm_shutdown (he : s.c.Early isn) : Calm isn s.sent s.c (s.c.shutdown link now) := by
  unfold Conn.shutdown
  exact guard_rule (.refl he) fun hneed => calm_startFin (Bool.and_eq_true_iff.mp hneed).2

theorem calm_closeBegin (he : s.c.Early isn) : Calm isn s.sent s.c (s.c.closeBegin link now) := by
  unfold Conn.closeBegin
  exact guard_rule (.refl he) calm_startFin

def Act.calm : Act → Bool
  | .deliver .. | .sendCopy | .recvPoll | .recvTake => false
  | _ => true

variable (link now) in
theorem calm_step {a : Act} (he : s.c.Early isn) (ha : a.calm = true) :
    Calm isn s.sent s.c (s.step link now a).c ∧ (s.step link now a).sent = s.sent ∧
      (s.step link now a).got = s.got ∧ (s.step link now a).ended = s.ended := by
  cases a with
  | deliver | sendCopy | recvPoll | recvTake => cases ha
  | reset =>
    exact ⟨calm_quiet he (.inr rfl) (.inr rfl), rfl, rfl, rfl⟩
  | sweep => exact ⟨calm_sweep he, rfl, rfl, rfl⟩
  | openEnd =>
    refine ⟨calm_openEnd he, ?_⟩
    simp only [Endpoint.step, Endpoint.openEnd]
    split <;> exact ⟨rfl, rfl, rfl⟩
  | send buf =>
    simp only [Endpoint.step]
    split <;> exact ⟨.refl he, rfl, rfl, rfl⟩
  | sendAgain => exact ⟨.refl he, rfl, rfl, rfl⟩
  | recv len nonblock =>
    simp only [Endpoint.step, Endpoint.recv]
    split
    · split <;> exact ⟨.refl he, rfl, rfl, rfl⟩
    · exact ⟨.refl he, rfl, rfl, rfl⟩
  | shutdown => exact ⟨calm_shutdown he, rfl, rfl, rfl⟩
  | closeBegin => exact ⟨calm_closeBegin he, rfl, rfl, rfl⟩
  | closeEnd => exact ⟨calm_closeEnd he, rfl, rfl, rfl⟩

theorem flow_step {isn' : Seq} {a : Act} (hto : Flow isn t s) (hfrom : Flow isn' s t) (ht : Task s)
    (hl : s.legal t a = true) (hc : s.candid a = true) :
    Flow isn t (s.step link now a) ∧ Flow isn' (s.step link now a) t := by
  have hcalm : a.calm = true →
      Flow isn t (s.step link now a) ∧ Flow isn' (s.step link now a) t := by
    intro ha
    obtain ⟨hcalm, hsent, hgot, hended⟩ := calm_step link now hfrom.early ha
    exact ⟨hto.calm_to hcalm hgot hended, hfrom.calm_from hcalm hsent⟩
  cases a with
  | deliver full seg =>
    simp only [Endpoint.legal, Bool.and_eq_true, decide_eq_true_eq] at hl
    exact ⟨hto.deliver_to hl.2, hfrom.deliver_from hl.2⟩
  | sendCopy =>
    simp only [Endpoint.legal] at hl
    split at hl
    next buf hpc =>
      by_cases hclosed : s.c.reset = true ∨ s.c.state = .closed
      · rw [Endpoint.step, sendCopy_refused hpc hclosed]
        exact ⟨⟨hto.sender, hto.early, hto.synced, hto.ended⟩,
          ⟨hfrom.sender, hfrom.early, hfrom.synced, hfrom.ended⟩⟩
      · exact ⟨hto.queue_to ht hpc hclosed, hfrom.queue_from ht hpc hl hclosed⟩
    · cases hl
  | recvPoll =>
    refine ⟨hto.recvPoll (by simpa [Endpoint.candid] using hc), ?_⟩
    exact ⟨hfrom.sender, hfrom.early, hfrom.synced, hfrom.ended⟩
  | recvTake =>
    simp only [Endpoint.legal] at hl
    split at hl
    next len hpc =>
      simp only [Endpoint.candid, hpc, Bool.or_eq_true, decide_eq_true_eq, Bool.not_eq_true'] at hc
      exact ⟨hto.recvTake hpc hc, hfrom.recvTake_from ht hpc⟩
    · cases hl
  | _ => exact hcalm rfl

theorem task_step {a : Act} (h : Task s) (he : s.c.Early isn) (hl : s.legal t a = true) :
    Task (s.step link now a) := by
  have hlate : a.calm = true → s.pc ≠ .opening →
      (s.step link now a).c.state ≠ .synSent ∧ (s.step link now a).c.state ≠ .synRcvd := by
    intro ha hp
    have hc := (calm_step link now he ha).1
    obtain ⟨h1, h2⟩ := h.late hp
    exact ⟨fun hs => h1 (hc.told.state hs), fun hs => h2 (hc.state hs)⟩
  cases a with
  | deliver full seg =>
    refine ⟨fun hp => ?_, fun buf hp => ?_⟩
    · obtain ⟨h1, h2⟩ := h.late hp
      exact ⟨input_synSent link now seg full h1, (input_other link now seg full h2).2⟩
    · exact (finPending_input link now s.c seg full).trans (h.sending buf hp)
  | reset => exact ⟨hlate rfl, h.sending⟩
  | sweep =>
    exact ⟨hlate rfl, fun buf hp => (finPending_sweep link now s.c).trans (h.sending buf hp)⟩
  | openEnd =>
    simp only [Endpoint.legal, Bool.and_eq_true, decide_eq_true_eq] at hl
    simp only [Endpoint.step, Endpoint.openEnd]
    split
    next hpar =>
      simp only [hpar, Bool.not_true, Bool.false_or, Bool.and_eq_true, decide_eq_true_eq] at hl
      exact ⟨fun _ => hl.2, fun buf hp => (by cases hp)⟩
    · by_cases hest : s.c.state = .established
      · refine ⟨fun _ => ?_, fun buf hp => ?_⟩
        · simp [connectEnd, hest]
        · simp [hest] at hp
      · refine ⟨fun _ => ?_, fun buf hp => ?_⟩
        · simp [connectEnd, hest, free]
        · simp [hest] at hp
  | send buf =>
    simp only [Endpoint.legal, decide_eq_true_eq] at hl
    simp only [Endpoint.step]
    split
    next hcheck =>
      refine ⟨fun _ => h.late_at hl (by simp), fun _ _ => ?_⟩
      simp only [sendCheck, Bool.and_eq_true, Bool.not_eq_true'] at hcheck
      exact hcheck.1.2
    · exact h
  | sendCopy =>
    simp only [Endpoint.legal] at hl
    split at hl
    next buf hpc =>
      have hlate := h.late_at hpc (by simp)
      by_cases hc : s.c.reset = true ∨ s.c.state = .closed
      · rw [Endpoint.step, sendCopy_refused hpc hc]
        exact ⟨fun _ => hlate, fun buf hp => (by cases hp)⟩
      · rw [Endpoint.step, sendCopy_eq hpc hc]
        refine ⟨fun _ => ?_, fun buf hp => (by cases hp)⟩
        show (Conn.output link now _).state ≠ _ ∧ (Conn.output link now _).state ≠ _
        rw [sent_output.state]
        exact hlate
    · cases hl
  | sendAgain =>
    simp only [Endpoint.legal] at hl
    split at hl
    next buf hpc =>
      exact ⟨fun _ => h.late_at hpc (by simp), fun buf hp => (by cases hp)⟩
    · cases hl
  | recv len nonblock =>
    simp only [Endpoint.legal, decide_eq_true_eq] at hl
    simp only [Endpoint.step, Endpoint.recv]
    split
    · split
      · exact ⟨fun _ => h.late_at hl (by simp), fun buf hp => (by cases hp)⟩
      · exact ⟨fun _ => h.late_at hl (by simp), fun buf hp => (by cases hp)⟩
    · exact h
  | recvPoll =>
    simp only [Endpoint.legal, decide_eq_true_eq] at hl
    exact ⟨fun _ => h.late_at hl (by simp), fun buf hp => (by cases hp)⟩
  | recvTake =>
    simp only [Endpoint.legal] at hl
    split at hl
    next len hpc =>
      simp only [Endpoint.step, Endpoint.recvTake, hpc]
      refine ⟨fun _ => ?_, fun buf hp => (by cases hp)⟩
      show (s.c.recvTake link len).2.state ≠ _ ∧ (s.c.recvTake link len).2.state ≠ _
      rw [(recvTake_conn link s.c len).1]
      exact h.late_at hpc (by simp)
    · cases hl
  | shutdown =>
    simp only [Endpoint.legal, decide_eq_true_eq] at hl
    exact ⟨hlate rfl, fun buf hp => (by cases hl.symm.trans hp)⟩
  | closeBegin | closeEnd =>
    simp only [Endpoint.legal, decide_eq_true_eq] at hl
    exact ⟨fun _ => hlate rfl fun hp => (by cases hl.symm.trans hp), fun buf hp => (by cases hp)⟩

structure Pair where
  a : Endpoint
  b : Endpoint

structure Move where
  now : ℕ
  atA : Bool
  act : Act

namespace Pair

def step (la lb : Link) (p : Pair) (m : Move) : Pair :=
  if m.atA then { p with a := p.a.step la m.now m.act } else { p with b := p.b.step lb m.now m.act }

def legal (p : Pair) (m : Move) : Bool :=
  if m.atA then p.a.legal p.b m.act else p.b.legal p.a m.act

def candid (p : Pair) (m : Move) : Bool :=
  if m.atA then p.a.candid m.act else p.b.candid m.act

end Pair

-- One end has connected, its SYN has opened the other. The numbers are those the ends chose.
structure Opening where
  nowA : ℕ := 1
  nowB : ℕ := 1
  devA : Device
  devB : Device
  isnA : Seq
  isnB : Seq
  ipA : ℕ
  portA : ℕ
  ipB : ℕ
  portB : ℕ
  parent : ℕ := 0

def synFrom (isn : Seq) : Segment :=
  { seq := isn, ack := 0, flags := { syn := true }, window := tcpRxbuf }

def Opening.start (o : Opening) (la lb : Link) : Pair where
  a := { c := connectConn la o.nowA o.devA o.isnA o.ipA o.portA o.ipB o.portB }
  b := { c := childConn lb o.nowB o.devB o.isnB o.ipB o.portB o.ipA o.portA o.parent (synFrom o.isnA) }

structure Pair.Inv (o : Opening) (p : Pair) : Prop where
  ab : Flow o.isnA p.a p.b
  ba : Flow o.isnB p.b p.a
  taskA : Task p.a
  taskB : Task p.b

theorem Pair.Inv.step {o : Opening} {la lb : Link} {p : Pair} {m : Move} (h : p.Inv o)
    (hl : p.legal m = true) (hc : p.candid m = true) : (p.step la lb m).Inv o := by
  unfold Pair.legal at hl
  unfold Pair.candid at hc
  unfold Pair.step
  split at hl
  next hA =>
    rw [if_pos hA] at hc ⊢
    obtain ⟨hba, hab⟩ := flow_step h.ba h.ab h.taskA hl hc
    exact ⟨hab, hba, task_step h.taskA h.ab.early hl, h.taskB⟩
  next hA =>
    rw [if_neg hA] at hc ⊢
    obtain ⟨hab, hba⟩ := flow_step h.ab h.ba h.taskB hl hc
    exact ⟨hab, hba, h.taskA, task_step h.taskB h.ba.early hl⟩

theorem mute_sendSyn {c : Conn} {flags : Flags} (hf : flags.fin = false) (hwire : c.wire = [])
    (htx : c.tx = []) (hns : c.finSent = false)
    (hst : c.state = .synSent ∨ c.state = .synRcvd) : Mute (c.sendSyn link now flags) := by
  have hm : Mute c := by
    refine ⟨hst.imp_right .inl, htx, hns, fun seg hseg => ?_⟩
    rw [hwire] at hseg
    cases hseg
  have hem : Mute (c.emit link c.sndNxt flags []).2 := hm.emit hf
  exact hem.of_fields

theorem wire_sendSyn {c : Conn} {flags : Flags} {seg : Segment} (hwire : c.wire = [])
    (hseg : seg ∈ (c.sendSyn link now flags).wire) : seg = c.segment c.sndNxt flags [] := by
  obtain hs | hs := mem_wire_emit hseg
  · rw [hwire] at hs
    cases hs
  · exact hs

theorem receiver_start (o : Opening) (la lb : Link) :
    Receiver o.isnA [] [] (o.start la lb).a.c (o.start la lb).b.c := by
  have hone : posn o.isnA (o.isnA + 1) = 1 := by
    unfold posn
    bv_omega
  have hsent : ∀ c : Conn, Sent c (c.sendSyn lb o.nowB { syn := true, ack := true }) :=
    fun c => sent_sendSyn lb o.nowB c _
  have hrcv : (o.start la lb).b.c.rcvNxt = o.isnA + 1 := (hsent _).rcvNxt
  refine ⟨fun hs => ?_, ?_, ?_, fun hf => ?_, fun seg hseg _ => ?_⟩
  · cases (hsent _).state.symm.trans hs
  · rw [hrcv]
    exact ⟨hone.ge, .inl hone.le⟩
  · rw [show (o.start la lb).b.c.rx = .empty 0 from (hsent _).rx, take_nil]
    rfl
  · cases (hsent _).peerFin.symm.trans hf
  · have hack : seg.ack = o.isnA + 1 := by
      rw [wire_sendSyn rfl hseg]
      rfl
    rw [hack, hrcv, hone]
    exact ⟨le_rfl, le_rfl⟩

theorem unsynced_start (o : Opening) (la lb : Link) :
    Unsynced [] (o.start la lb).b.c (o.start la lb).a.c := by
  have hsent : ∀ c : Conn, Sent c (c.sendSyn la o.nowA { syn := true }) :=
    fun c => sent_sendSyn la o.nowA c _
  refine ⟨mute_sendSyn rfl rfl rfl rfl (.inr rfl), mute_sendSyn rfl rfl rfl rfl (.inl rfl),
    fun hs => ?_, ?_, rfl, fun hf => ?_, fun seg hseg => ?_⟩
  · cases (hsent _).state.symm.trans hs
  · rw [show (o.start la lb).a.c.rx = .empty 0 from (hsent _).rx]
    rfl
  · cases (hsent _).peerFin.symm.trans hf
  · rw [wire_sendSyn rfl hseg]
    rfl

theorem inv_start (o : Opening) (la lb : Link) : (o.start la lb).Inv o := by
  have hA : (o.start la lb).a.c.Sender o.isnA [] ∧ (o.start la lb).a.c.Early o.isnA :=
    sender_sendSyn rfl rfl rfl rfl rfl rfl rfl (.inl rfl)
  have hB : (o.start la lb).b.c.Sender o.isnB [] ∧ (o.start la lb).b.c.Early o.isnB :=
    sender_sendSyn rfl rfl rfl rfl rfl rfl rfl (.inr rfl)
  exact ⟨⟨hA.1, hA.2, .inl (receiver_start o la lb), fun he => (by cases he)⟩,
    ⟨hB.1, hB.2, .inr (unsynced_start o la lb), fun he => (by cases he)⟩,
    ⟨fun hp => absurd rfl hp, fun _ hp => (by cases hp)⟩,
    ⟨fun hp => absurd rfl hp, fun _ hp => (by cases hp)⟩⟩

theorem Conn.Sender.queued {c : Conn} {sent : List Byte} (h : c.Sender isn sent) (i : ℕ)
    (hi : i < c.tx.length) : ∃ p, posn isn (c.sndUna + BitVec.ofNat 32 i) = p + 1 ∧
      p < sent.length ∧ c.tx[i]? = sent[p]? := by
  have hlen := h.length
  have hsmall := h.small
  have hz : posn isn c.sndUna ≠ 0 := fun hz => by
    obtain ⟨-, rfl, -⟩ := h.opening hz
    simp only [length_nil] at hlen
    omega
  refine ⟨posn isn c.sndUna - 1 + i, ?_, by omega, ?_⟩
  · rw [posn_add (by omega)]
    omega
  · rw [h.tx, getElem?_drop]

theorem Flow.delivers (h : Flow isn s t) : Delivers isn s t where
  order := by
    obtain hr | hu := h.synced
    · exact hr.is_prefix
    · rw [hu.got]
      exact nil_prefix
  queue := h.sender.queued
  ended he := (h.ended he).1

theorem Flow.hides_shows (h : Flow isn t s) (hh : s.hides = true) : s.got ≠ t.sent := by
  simp only [Endpoint.hides, Bool.and_eq_true, Bool.not_eq_true', decide_eq_true_eq] at hh
  obtain ⟨⟨hf, hr⟩, hav⟩ := hh
  intro heq
  obtain hq | hu := h.synced
  · have hnil := congrArg length (hq.incomplete heq)
    rw [Ring.length_contents, length_nil] at hnil
    exact hav hnil
  · cases (hu.fin hf).symm.trans hr

theorem Flow.candid_of_delivers {a : Act} (h : Flow isn t s)
    (hd : Delivers isn t (s.step link now a)) : s.candid a = true := by
  have heof : s.hides = true → s.c.recvEnd = .eof := fun hh => by
    simp only [Endpoint.hides, Bool.and_eq_true, Bool.not_eq_true'] at hh
    simp [Conn.recvEnd, hh.1.1, hh.1.2]
  cases a with
  | recvPoll =>
    by_contra hc
    have hh : s.hides = true := by simpa [Endpoint.candid] using hc
    have hend := hd.ended (by simp [Endpoint.step, Endpoint.recvEnd, heof hh])
    refine h.hides_shows hh ?_
    simpa [Endpoint.step, Endpoint.recvEnd, heof hh, Endpoint.returned] using hend
  | recvTake =>
    by_contra hc
    simp only [Endpoint.candid] at hc
    split at hc
    next len hpc =>
      simp only [Bool.or_eq_true, decide_eq_true_eq, Bool.not_eq_true', not_or,
        Bool.not_eq_false] at hc
      obtain ⟨hlen, hh⟩ := hc
      have hzero : len = 0 := by omega
      subst hzero
      have hnil : s.c.rx.contents.take 0 = [] := take_zero
      have hres : s.c.recvTake link 0 = (.eof, s.c) := by
        simp only [Conn.recvTake, hnil, if_true, heof hh]
      have hend := hd.ended (by simp [Endpoint.step, Endpoint.recvTake, hpc, hres, Endpoint.recvEnd])
      refine h.hides_shows hh ?_
      simpa [Endpoint.step, Endpoint.recvTake, hpc, hres, Endpoint.recvEnd, Endpoint.returned] using hend
    · exact hc rfl
  | _ => rfl

-- Each stream is delivered, whatever the network does, exactly as long as no call reports its end
-- with bytes still in the ring.
theorem delivers_iff_candid (o : Opening) (la lb : Link) (moves : List Move)
    (h : Allowed (Pair.step la lb) (fun p m => p.legal m = true) (o.start la lb) moves) :
    Always (Pair.step la lb) (fun p => Delivers o.isnA p.a p.b ∧ Delivers o.isnB p.b p.a)
        (o.start la lb) moves ↔
      Allowed (Pair.step la lb) (fun p m => p.candid m = true) (o.start la lb) moves := by
  apply always_iff_allowed (I := Pair.Inv o) fun _ _ hi => hi.step
  · exact fun p hi => ⟨hi.ab.delivers, hi.ba.delivers⟩
  · rintro p m hi - ⟨hab, hba⟩
    unfold Pair.candid
    unfold Pair.step at hab hba
    split
    next hA =>
      rw [if_pos hA] at hba
      exact hi.ba.candid_of_delivers hba
    next hA =>
      rw [if_neg hA] at hab
      exact hi.ab.candid_of_delivers hab
  · exact inv_start o la lb
  · exact h

def talk : Opening :=
  { devA := eth, devB := eth, isnA := 0x10000, isnB := 0x20000, ipA := 1, portA := 4000, ipB := 2,
    portB := 80 }

def takesAll : Link := fun _ => true

def synAck : Segment :=
  { seq := 0x20000, ack := 0x10001, flags := { syn := true, ack := true }, window := 8192 }

def lastHand : Segment := { seq := 0x10001, ack := 0x20001, flags := { ack := true }, window := 8192 }

def oneByte : Segment :=
  { seq := 0x10001, ack := 0x20001, flags := { psh := true, ack := true }, window := 8192, data := [7] }

def itsFin : Segment :=
  { seq := 0x10002, ack := 0x20001, flags := { fin := true, ack := true }, window := 8192 }

def handshake : List Move :=
  [⟨2, true, .deliver false synAck⟩, ⟨2, false, .deliver false lastHand⟩, ⟨3, true, .openEnd⟩,
    ⟨3, false, .openEnd⟩]

def readMoves : List Move :=
  handshake ++ [⟨4, true, .send [7]⟩, ⟨4, true, .sendCopy⟩, ⟨5, true, .shutdown⟩,
    ⟨6, false, .deliver false oneByte⟩, ⟨6, false, .deliver false itsFin⟩,
    ⟨6, false, .deliver false oneByte⟩, ⟨7, false, .recv 4 true⟩, ⟨7, false, .recvTake⟩,
    ⟨8, false, .recv 4 true⟩, ⟨8, false, .recvPoll⟩]

theorem readMoves_delivered :
    Allowed (Pair.step takesAll takesAll) (fun p m => p.legal m = true)
        (talk.start takesAll takesAll) readMoves ∧
      Always (Pair.step takesAll takesAll) (fun p => Delivers talk.isnA p.a p.b ∧
        Delivers talk.isnB p.b p.a) (talk.start takesAll takesAll) readMoves :=
  have hlegal : Allowed (Pair.step takesAll takesAll) (fun p m => p.legal m = true)
      (talk.start takesAll takesAll) readMoves := by decide +kernel
  ⟨hlegal, (delivers_iff_candid talk takesAll takesAll readMoves hlegal).mpr (by decide +kernel)⟩

-- The byte and the FIN arrive between the two looks of a call that does not block.
def hiddenMoves : List Move :=
  handshake ++ [⟨4, false, .recv 4 true⟩, ⟨4, true, .send [7]⟩, ⟨4, true, .sendCopy⟩,
    ⟨5, true, .shutdown⟩, ⟨6, false, .deliver false oneByte⟩, ⟨6, false, .deliver false itsFin⟩,
    ⟨7, false, .recvPoll⟩]

theorem hiddenMoves_not_delivered :
    Allowed (Pair.step takesAll takesAll) (fun p m => p.legal m = true)
        (talk.start takesAll takesAll) hiddenMoves ∧
      ¬ Always (Pair.step takesAll takesAll) (fun p => Delivers talk.isnA p.a p.b ∧
        Delivers talk.isnB p.b p.a) (talk.start takesAll takesAll) hiddenMoves := by
  refine ⟨by decide +kernel, fun h => ?_⟩
  have hlast := h.last.1.ended (by decide +kernel)
  have hne : (run (Pair.step takesAll takesAll) (talk.start takesAll takesAll) hiddenMoves).b.got ≠
      (run (Pair.step takesAll takesAll) (talk.start takesAll takesAll) hiddenMoves).a.sent := by
    decide +kernel
  exact hne hlast

end DosKernel.Net.Tcp

import DosKernel.Net.Tcp.Kept

namespace DosKernel.Net.Tcp.Conn

open DosKernel.Lib Conn

variable {link : Link} {now : ℕ} {c : Conn} {seg : Segment} {limit : Seq} {queue : List Byte}

-- A connection whose owner has asked for the FIN. `limit` is its number, right behind the bytes
-- queued then; `acked`: the peer has acknowledged it; `late`: the orphan deadline has passed.
structure Parting where
  c : Conn
  queue : List Byte
  limit : Seq
  acked : Bool
  late : Bool

def acksLimit (limit : Seq) : Event → Bool
  | .input _ seg => seg.flags.ack && seqGt seg.ack limit
  | _ => false

def Parting.next (link : Link) (l : Parting) (e : ℕ × Event) : Parting :=
  { l with
    c := l.c.step link e
    acked := l.acked || acksLimit l.limit e.2
    late := l.late || l.c.orphan && l.c.expired e.1 }

def Parting.start (link : Link) (now : ℕ) (c : Conn) : Parting where
  c := c.startFin link now
  queue := c.tx
  limit := c.sndUna + BitVec.ofNat 32 c.tx.length
  acked := false
  late := false

-- Every byte not acknowledged is queued at its number. A FIN that is sent has its number behind
-- them and is outstanding; before that, no more than the bytes is.
structure Side (limit : Seq) (queue : List Byte) (c : Conn) : Prop where
  suffix : c.tx <:+ queue
  bytes : (limit - c.sndUna).toNat = c.tx.length
  bound : c.tx.length ≤ tcpTxbuf
  fin : c.finSent = true → c.finSeq = limit ∧ c.sndNxt = limit + 1
  flight : c.finSent = false → c.inflight ≤ c.tx.length

-- The FIN is still wanted and the state sends; what is outstanding has its timer.
structure Eligible (limit : Seq) (queue : List Byte) (c : Conn) : Prop
    extends Side limit queue c where
  used : c.used = true
  state : c.state = .finWait1 ∨ c.state = .lastAck
  finPending : c.finPending = true
  timer : c.sndNxt ≠ c.sndUna → c.armed = true

def Orderly (l : Parting) : Prop :=
  l.acked = true ∨ l.late = true ∨ Eligible l.limit l.queue l.c

def settled (l : Parting) (e : ℕ × Event) : Bool :=
  l.acked || acksLimit l.limit e.2 || (l.late || l.c.orphan && l.c.expired e.1)

-- The peer's FIN in FIN_WAIT_1 without an acknowledgement of ours, and the last retransmission.
def givesUp (c : Conn) : ℕ × Event → Bool
  | (_, .input _ seg) => decide (c.state = .finWait1) && c.finTaken seg
  | (t, .sweep) => c.due t && decide (tcpRetriesMax ≤ c.retries)
  | _ => false

def abandons (l : Parting) (e : ℕ × Event) : Bool := !settled l e && givesUp l.c e

-- The calls and segments the close is exposed to: no reset, and no more data.
def orderlyEvent : Event → Bool
  | .input _ seg => !seg.flags.rst
  | .send _ => false
  | _ => true

theorem Side.of_flow {a : Conn} (h : Side limit queue c) (hflow : a.flow = c.flow) :
    Side limit queue a := by
  simp only [flow, Prod.mk.injEq] at hflow
  obtain ⟨htx, huna, hnxt, hsent, hseq⟩ := hflow
  refine ⟨htx ▸ h.suffix, ?_, htx ▸ h.bound, ?_, ?_⟩
  · rw [huna, htx]
    exact h.bytes
  · rw [hsent, hseq, hnxt]
    exact h.fin
  · rw [hsent, Conn.inflight, hnxt, huna, htx]
    exact h.flight

theorem Side.inflight (h : Side limit queue c) (hfin : c.finSent = true) :
    c.inflight = c.tx.length + 1 := by
  have hb := h.bytes
  have hbound := h.bound
  simp only [tcpTxbuf] at hbound
  unfold Conn.inflight
  rw [(h.fin hfin).2]
  bv_omega

theorem Side.modest (h : Side limit queue c) : c.Modest := by
  refine ⟨h.bound, ?_⟩
  cases hfin : c.finSent with
  | true =>
    exact (h.inflight hfin).trans_le (Nat.add_le_add_right (le_max_right 1 _) 1)
  | false => exact (h.flight hfin).trans (le_max_right 1 _)

theorem Side.output (h : Side limit queue c) : Side limit queue (c.output link now) := by
  refine output_rule h (fun {a n} _ _ hr ha => ?_) (fun ha => ha.of_flow rfl)
    (fun {a} _ _ _ hns hlen ha => ?_) fun ha => ha.of_flow rfl
  · have hadd := (ha.modest.sendData hr).1
    have hq := hr.queued
    have hpos := hr.pos
    refine ⟨ha.suffix, ha.bytes, ha.bound, fun hf => ?_, fun _ => ?_⟩
    · have := ha.inflight hf
      omega
    · exact hadd ▸ hq
  · have hem := (emitted_emit link (c := a) a.sndNxt { fin := true, ack := true } []).sent
    have htx : (a.finOut link).tx = a.tx := hem.tx
    -- all bytes are out, so the next number is the limit
    have hnxt : a.sndNxt = limit := by
      have hfl := ha.flight hns
      have hb := ha.bytes
      unfold Conn.inflight at hfl hlen
      bv_omega
    refine ⟨htx ▸ ha.suffix, ?_, htx ▸ ha.bound, fun _ => ⟨hnxt, congrArg (· + 1) hnxt⟩,
      fun hf => by cases hf⟩
    rw [htx, show (a.finOut link).sndUna = a.sndUna from hem.sndUna]
    exact ha.bytes

theorem Side.acked_le (h : Side limit queue c) (hno : seqGt seg.ack limit = false)
    (hnew : (c.pullNxt seg).acksNew seg = true) :
    (seg.ack - c.sndUna).toNat ≤ c.tx.length := by
  have hb := h.bytes
  have hpast : ¬ (0 < (seg.ack - limit).toNat ∧ (seg.ack - limit).toNat < 2147483648) := by
    rw [← seqGt_iff, hno]
    simp
  have hle : (seg.ack - c.sndUna).toNat ≤ c.tx.length + 3 := by
    have hlt := h.modest.flight
    have hone := c.finSent.toNat_le
    rw [pullNxt_eq] at hnew
    split at hnew
    next hpull =>
      unfold Conn.inflight at hlt
      bv_omega
    · have := ((acksNew_iff h.modest).mp hnew).2
      omega
  by_contra hgt
  apply hpast
  constructor <;> bv_omega

theorem Side.compact (h : Side limit queue c) (hno : seqGt seg.ack limit = false)
    (hnew : (c.pullNxt seg).acksNew seg = true) :
    Side limit queue ((c.pullNxt seg).compact seg) := by
  have hk := h.acked_le hno hnew
  have hb := h.bytes
  have hbound := h.bound
  simp only [tcpTxbuf] at hbound
  obtain ⟨htx, huna, -⟩ := pullNxt_tx c seg
  have htx' : ((c.pullNxt seg).compact seg).tx = c.tx.drop (seg.ack - c.sndUna).toNat := by
    rw [Conn.compact, htx, huna, Nat.min_eq_left hk]
  have hlen : ((c.pullNxt seg).compact seg).tx.length =
      c.tx.length - (seg.ack - c.sndUna).toNat := by rw [htx', List.length_drop]
  -- only a probe is acknowledged past what was sent, and there is none once the FIN is out
  have hnxt : (c.pullNxt seg).sndNxt = c.sndNxt ∧ (seg.ack - c.sndUna).toNat ≤ c.inflight ∨
      c.finSent = false ∧ (c.pullNxt seg).sndNxt = seg.ack := by
    rw [pullNxt_eq] at hnew ⊢
    split at hnew
    next hpull =>
      rw [if_pos hpull]
      refine .inr ⟨?_, rfl⟩
      by_contra hfin
      have hlim := (h.fin (by simpa using hfin)).2
      bv_omega
    next hpull =>
      rw [if_neg hpull]
      exact .inl ⟨rfl, ((acksNew_iff h.modest).mp hnew).2⟩
  obtain ⟨hfs, hfq⟩ : (c.pullNxt seg).finSent = c.finSent ∧ (c.pullNxt seg).finSeq = c.finSeq := by
    unfold pullNxt
    split <;> exact ⟨rfl, rfl⟩
  refine ⟨htx' ▸ (List.drop_suffix ..).trans h.suffix, ?_, hlen ▸ (Nat.sub_le ..).trans h.bound,
    fun hfin => ?_, fun hfin => ?_⟩
  · rw [hlen]
    show (limit - seg.ack).toNat = _
    bv_omega
  · replace hfin : c.finSent = true := hfs ▸ hfin
    obtain ⟨hseq, hlim⟩ := h.fin hfin
    obtain ⟨hsame, -⟩ | ⟨hns, -⟩ := hnxt
    · exact ⟨hfq.trans hseq, hsame.trans hlim⟩
    · rw [hfin] at hns
      cases hns
  · rw [hlen]
    show ((c.pullNxt seg).sndNxt - seg.ack).toNat ≤ _
    obtain ⟨hsame, hle⟩ | ⟨-, hall⟩ := hnxt
    · have hfl := h.flight (hfs ▸ hfin)
      unfold Conn.inflight at hfl hle
      bv_omega
    · rw [hall]
      simp

variable (link now) in
theorem Side.ackWindow (h : Side limit queue c) (hno : seqGt seg.ack limit = false) :
    Side limit queue (c.ackWindow link now seg) := by
  refine ackWindow_rule (fun hold => ?_) (h.compact hno) (fun ha => ha.of_flow rfl)
    (fun ha => ha.of_flow rfl) Side.output
  rw [pullNxt_of_old h.modest hold]
  exact h

variable (link) in
theorem Side.resend (h : Side limit queue c) : Side limit queue (c.resend link) := by
  have hlog : ∀ {a : Conn}, Emitted c a → Side limit queue a := fun he =>
    h.of_flow (congrArg flow he :)
  refine resend_rule h (fun _ _ => hlog (emitted_emit ..)) (fun {n} _ hle => ?_)
    fun _ => hlog (emitted_emit ..)
  -- back at the first unacknowledged byte, with the FIN unsent
  have hem := emitted_emit link (c := c) c.sndUna { psh := true, ack := true } (c.tx.take n)
  generalize (c.emit link c.sndUna { psh := true, ack := true } (c.tx.take n)).2 = a at hem ⊢
  have hside := hlog hem
  refine ⟨hside.suffix, hside.bytes, hside.bound, fun hf => (by cases hf), fun _ => ?_⟩
  exact inflight_back hem.sent h.bound hle

structure Engaged (limit : Seq) (queue : List Byte) (c : Conn) : Prop
    extends Side limit queue c where
  used : c.used = true
  listener : c.listener = false
  state : c.state = .finWait1 ∨ c.state = .lastAck
  finPending : c.finPending = true
  reset : c.reset = false
  dev : c.dev.isSome = true
  timer : c.sndNxt ≠ c.sndUna → c.armed = true

theorem Engaged.eligible (h : Engaged limit queue c) : Eligible limit queue c :=
  ⟨h.toSide, h.used, h.state, h.finPending, h.timer⟩

theorem Engaged.sending (h : Engaged limit queue c) : c.Sending :=
  ⟨h.used, by obtain hs | hs := h.state <;> rw [hs] <;> rfl, h.dev⟩

variable (link now) in
theorem Engaged.ackWindow (h : Engaged limit queue c) (hno : seqGt seg.ack limit = false) :
    Engaged limit queue (c.ackWindow link now seg) := by
  have hacked := acked_ackWindow link now c seg
  have hside := h.toSide.ackWindow link now hno
  refine ⟨hside, hacked.used.trans h.used, hacked.listener.trans h.listener,
    hacked.state ▸ h.state, hacked.finPending.trans h.finPending, hacked.reset.trans h.reset,
    hacked.dev ▸ h.dev, fun hne => ?_⟩
  have hdata : Acked c ((c.pullNxt seg).ackData link now seg) := acked_pullNxt.trans acked_ackData
  exact armed_output_of_outstanding (h.sending.acked (hdata.trans rfl)) hne

variable (link now) in
theorem Engaged.acknowledge (h : Engaged limit queue c) (full : Bool)
    (hno : (seg.flags.ack && seqGt seg.ack limit) = false) :
    ∃ a, c.acknowledge link now full seg = a ∧ Engaged limit queue a ∧ Acked c a ∧
      (seg.flags.ack = true → a.finAcked seg = false) := by
  unfold Conn.acknowledge
  split
  next hack =>
    rw [hack, Bool.true_and] at hno
    have hw := h.ackWindow link now hno
    have hfa : (c.ackWindow link now seg).finAcked seg = false := by
      rw [finAcked, Bool.and_eq_false_iff]
      cases hfin : (c.ackWindow link now seg).finSent with
      | true => exact .inr ((hw.fin hfin).1 ▸ hno)
      | false => exact .inl rfl
    refine ⟨_, ?_, hw, acked_ackWindow .., fun _ => hfa⟩
    have hne : (c.ackWindow link now seg).state ≠ .synRcvd := by
      obtain hs | hs := hw.state <;> simp [hs]
    rw [takeAck, establish_fields.2.2 hne, ackFin1, if_neg]
    simp [hfa]
  next hack =>
    exact ⟨c, rfl, h, rfl, fun ht => (hack ht).elim⟩

theorem Engaged.received {c' : Conn} (h : Engaged limit queue c) (hr : Received c c')
    (hst : c'.state = .finWait1 ∨ c'.state = .lastAck) : Engaged limit queue c' where
  toSide := h.of_flow (congrArg flow hr :)
  used := hr.used.trans h.used
  listener := hr.listener.trans h.listener
  state := hst
  finPending := hr.finPending.trans h.finPending
  reset := hr.reset.trans h.reset
  dev := hr.dev ▸ h.dev
  timer := by
    rw [hr.sndNxt, hr.sndUna, hr.armed]
    exact h.timer

variable (link now) in
theorem engaged_input (full : Bool) (h : Engaged limit queue c) (hrst : seg.flags.rst = false)
    (hno : (seg.flags.ack && seqGt seg.ack limit) = false) :
    if c.state = .finWait1 ∧ c.finTaken seg = true then
      (c.input link now full seg).state = .timeWait
    else Engaged limit queue (c.input link now full seg) := by
  obtain ⟨a, heq, ha, hacked, hfa⟩ := h.acknowledge link now full hno
  have hne : c.state ≠ .synSent := by obtain hs | hs := h.state <;> simp [hs]
  have hlast : ¬ (seg.flags.ack = true ∧ a.state = .lastAck ∧ a.finAcked seg = true) := by
    rintro ⟨hack, -, hf⟩
    rw [hfa hack] at hf
    cases hf
  have hin : c.input link now full seg = (a.takeData link seg).takeFin link now seg := by
    rw [input, if_neg (by simp [hrst]), if_neg hne, heq, conclude, if_neg hlast]
  have hst : ((a.takeData link seg).takeFin link now seg).state =
      if c.finTaken seg then closing c.state else c.state := by
    rw [state_received, finTaken_acked hacked, hacked.state]
  rw [hin]
  split
  next htaken =>
    rw [hst, if_pos htaken.2, htaken.1]
    rfl
  next hkeep =>
    refine ha.received (received_takeData.trans received_takeFin) ?_
    rw [hst]
    split
    next htaken =>
      obtain hs | hs := h.state
      · exact (hkeep ⟨hs, htaken⟩).elim
      · rw [hs]
        exact .inr rfl
    · exact h.state

theorem Engaged.reclaim (h : Engaged limit queue c) (hlate : (c.orphan && c.expired now) = false) :
    c.reclaim now = c := by
  unfold Conn.reclaim
  have hst : c.state ≠ .timeWait ∧ c.state ≠ .closed := by
    obtain hs | hs := h.state <;> simp [hs]
  rw [if_neg fun ht => hst.1 ht.1, if_neg]
  simp only [hst.2, decide_false, Bool.false_or, hlate]
  simp

variable (link) in
theorem engaged_sweep (h : Engaged limit queue c) (hlate : (c.orphan && c.expired now) = false) :
    if c.due now = true ∧ tcpRetriesMax ≤ c.retries then (c.sweep link now).state = .closed
    else Engaged limit queue (c.sweep link now) := by
  have hlive : ¬ (!c.used || c.listener) = true := by simp [h.used, h.listener]
  unfold sweep
  split
  next hdead =>
    rw [if_pos hdead.1, if_pos (Nat.lt_succ_of_le hdead.2)]
  next hkeep =>
    split
    next hdue =>
      rw [if_neg fun hr => hkeep ⟨hdue, Nat.le_of_lt_succ hr⟩]
      have hr : Side limit queue ({ c with retries := c.retries + 1 } : Conn) := h.of_flow rfl
      have hside := hr.resend link
      have hsent := sent_resend link ({ c with retries := c.retries + 1 } : Conn)
      generalize ({ c with retries := c.retries + 1 } : Conn).resend link = a at hside hsent ⊢
      have hb : Engaged limit queue (a.backoff now) :=
        ⟨hside.of_flow rfl,
          hsent.used.trans h.used, hsent.listener.trans h.listener, hsent.state ▸ h.state,
          hsent.finPending.trans h.finPending, hsent.reset.trans h.reset, hsent.dev ▸ h.dev,
          fun _ => armed_backoff⟩
      rw [hb.reclaim]
      · exact hb
      · show (a.orphan && a.expired now) = false
        rw [hsent.orphan, expired, hsent.lingerDeadline]
        exact hlate
    · rw [h.reclaim hlate]
      exact h

theorem Engaged.recv {len : ℕ} (h : Engaged limit queue c) :
    Engaged limit queue (c.recvTake link len).2 := by
  have hst : ¬ (c.state = .established ∨ c.state = .closeWait) := by
    obtain hs | hs := h.state <;> simp [hs]
  simp only [recvTake, if_neg hst]
  split
  · exact h
  · exact ⟨h.of_flow rfl, h.used, h.listener, h.state,
      h.finPending, h.reset, h.dev, h.timer⟩

theorem Engaged.closeEnd (h : Engaged limit queue c) : Engaged limit queue (c.closeEnd now) := by
  have hend : ¬ (c.state = .closed ∨ c.reset = true) := by
    obtain hs | hs := h.state <;> simp [hs, h.reset]
  rw [Conn.closeEnd, if_neg hend]
  exact ⟨h.of_flow rfl, h.used, h.listener, h.state,
    h.finPending, h.reset, h.dev, h.timer⟩

theorem Engaged.needFin (h : Engaged limit queue c) : c.needFin = false := by
  obtain hs | hs := h.state <;> simp [Conn.needFin, hs]

variable (link) in
theorem engaged_next {l : Parting} {e : ℕ × Event} (h : Engaged l.limit l.queue l.c)
    (hok : orderlyEvent e.2 = true) (hopen : settled l e = false) :
    if givesUp l.c e then ¬ Eligible l.limit l.queue (l.c.step link e)
    else Engaged l.limit l.queue (l.c.step link e) := by
  obtain ⟨t, ev⟩ := e
  simp only [settled, Bool.or_eq_false_iff] at hopen
  obtain ⟨⟨-, hno⟩, -, hexp⟩ := hopen
  have hover : ∀ {a : Conn}, a.state = .timeWait ∨ a.state = .closed →
      ¬ Eligible l.limit l.queue a := by
    intro a ha hel
    obtain hs | hs := hel.state <;> simp [hs] at ha
  cases ev with
  | input full seg =>
    have hin := engaged_input link t full h (by simpa [orderlyEvent] using hok) hno
    simp only [givesUp, Bool.and_eq_true, decide_eq_true_eq]
    split
    next htaken =>
      rw [if_pos htaken] at hin
      exact hover (.inl hin)
    next hkeep =>
      rw [if_neg hkeep] at hin
      exact hin
  | sweep =>
    have hsw := engaged_sweep link h hexp
    simp only [givesUp, Bool.and_eq_true, decide_eq_true_eq]
    split
    next hdead =>
      rw [if_pos hdead] at hsw
      exact hover (.inr hsw)
    next hkeep =>
      rw [if_neg hkeep] at hsw
      exact hsw
  | send buf => cases hok
  | recv len => exact h.recv
  | shutdown =>
    exact guard_rule (P := Engaged l.limit l.queue) h fun hneed => by simp [h.needFin] at hneed
  | closeBegin =>
    exact guard_rule (P := Engaged l.limit l.queue) h fun hneed => by simp [h.needFin] at hneed
  | closeEnd => exact h.closeEnd

structure Closable (c : Conn) : Prop where
  used : c.used = true
  listener : c.listener = false
  needFin : c.needFin = true
  reset : c.reset = false
  finSent : c.finSent = false
  dev : c.dev.isSome = true
  bound : c.tx.length ≤ tcpTxbuf
  flight : c.inflight ≤ c.tx.length

def unclosed : TcpState → Bool
  | .synSent | .synRcvd | .established | .closeWait => true
  | _ => false

-- Until the close a connection is a live one, and no FIN was asked for.
def Plain (c : Conn) : Prop := unclosed c.state = true →
  c.used = true ∧ c.listener = false ∧ c.reset = false ∧ c.finPending = false ∧ c.finSent = false

theorem Plain.emitted {c' : Conn} (h : c.Plain) (he : Emitted c c') : c'.Plain :=
  (congrArg Plain he).mpr h

theorem Plain.output (h : c.Plain) : (c.output link now).Plain := by
  refine output_rule h (fun _ _ _ ha => ha) (fun ha => ha) (fun {a} _ _ hp _ _ ha hst => ?_)
    fun ha => ha
  have hem := (emitted_emit link (c := a) a.sndNxt { fin := true, ack := true } []).sent
  have hplain := ha (congrArg unclosed hem.state ▸ hst)
  exact (Bool.false_ne_true (hplain.2.2.2.1.symm.trans hp)).elim

theorem Plain.input {full : Bool} (h : c.Plain) : (c.input link now full seg).Plain := by
  have hpull : (c.pullNxt seg).Plain := by
    unfold pullNxt
    exact guard_rule h fun _ => h
  have hack : (c.acknowledge link now full seg).Plain :=
    acknowledge_rule (fun _ => h)
      (fun _ => ackWindow_rule (fun _ => hpull) (fun _ => hpull) (fun ha => ha) (fun ha => ha)
        Plain.output)
      (fun hst ha _ => ha (hst ▸ rfl)) (fun _ => nofun) fun _ => nofun
  refine input_rule h nofun (fun hst _ _ => ?_) fun _ => conclude_rule hack nofun
    (fun ha => ha.emitted (emitted_emitAck ..)) (fun _ _ => hack) (fun _ _ ha => ha)
    fun {a} ha hs => ha ?_
  · have hc : (c.connected seg).Plain := fun _ => h (hst ▸ rfl)
    exact (hc.emitted (emitted_emitAck ..)).output
  · have hback : ∀ st, unclosed (closing st) = true → unclosed st = true := by
      intro st
      cases st <;> exact id
    exact hback a.state hs

theorem Plain.sweep (h : c.Plain) : (c.sweep link now).Plain := by
  refine sweep_rule h nofun ?_ (fun _ => nofun) fun _ _ => nofun
  have hem : ∀ {seq flags data}, (({ c with retries := c.retries + 1 } : Conn).emit link seq flags
      data).2.Plain := Plain.emitted (c := { c with retries := c.retries + 1 }) h (emitted_emit ..)
  refine resend_rule (P := fun a => (a.backoff now).Plain) h (fun _ _ => hem) (fun _ _ hst => ?_)
    fun _ => hem
  exact (hem hst).imp_right (And.imp_right (And.imp_right (And.imp_right fun _ => rfl)))

theorem Plain.startFin : (c.startFin link now).Plain :=
  Plain.output (askFin_rule (P := (unclosed · = true → _)) nofun nofun)

theorem Plain.step {e : ℕ × Event} (h : c.Plain) : (c.step link e).Plain := by
  refine step_rule h (fun _ => h.input) (fun _ => h.sweep) (fun _ => ?_) h
    (fun ha => ha.emitted (emitted_emitAck ..)) (fun _ => Plain.startFin)
    fun _ => refuse_rule nofun fun _ => h
  unfold sendCopy
  split
  · exact h
  · exact Plain.output (c := c.queue _) h

theorem plain_of_started (h : Started link c) : c.Plain := by
  have hsyn : ∀ {a : Conn} {now flags}, a.Plain → (a.sendSyn link now flags).Plain :=
    fun {a _ flags} ha => (ha.emitted (emitted_emit link a.sndNxt flags []) :)
  cases h with
  | connect | child => exact hsyn fun _ => ⟨rfl, rfl, rfl, rfl, rfl⟩

-- Whatever happened to a connection before, with bytes queued it can be closed.
theorem closable_of_run (h : Started link c) {events : List (ℕ × Event)}
    (hout : Allowed (step link) (fun c e => c.handedOut e.2 = true) c events) :
    Always (step link) (fun c => c.needFin = true → c.tx ≠ [] → Closable c) c events := by
  refine always_of_allowed (I := fun c => c.Kept ∧ c.Plain)
    (fun _ _ hinv hok => ⟨hinv.1.step hok, hinv.2.step⟩) ?_
    ⟨kept_of_started h, plain_of_started h⟩ hout
  rintro c ⟨hk, hp⟩ hfin htx
  have hst : unclosed c.state = true := by
    simp only [needFin, Bool.or_eq_true, decide_eq_true_eq] at hfin
    obtain hs | hs := hfin <;> rw [hs] <;> rfl
  obtain ⟨hused, hlis, hreset, -, hsent⟩ := hp hst
  have hflight := hk.modest.flight
  have hpos := List.length_pos_iff.mpr htx
  rw [hsent, Bool.toNat_false] at hflight
  exact ⟨hused, hlis, hfin, hreset, hsent, hk.dev, hk.modest.tx, by omega⟩

theorem Closable.engaged (h : Closable c) :
    Engaged (c.sndUna + BitVec.ofNat 32 c.tx.length) c.tx (c.startFin link now) := by
  have hbound := h.bound
  simp only [tcpTxbuf] at hbound
  have hst : c.askFin.state = .finWait1 ∨ c.askFin.state = .lastAck :=
    askFin_rule (P := fun st => st = .finWait1 ∨ st = .lastAck) (.inl rfl) (.inr rfl)
  have hside : Side (c.sndUna + BitVec.ofNat 32 c.tx.length) c.tx c.askFin := by
    refine ⟨List.suffix_refl _, ?_, h.bound, fun hf => ?_, fun _ => h.flight⟩
    · show (c.sndUna + BitVec.ofNat 32 c.tx.length - c.sndUna).toNat = c.tx.length
      bv_omega
    · cases h.finSent.symm.trans hf
  have hsend : c.askFin.Sending :=
    ⟨h.used, by obtain hs | hs := hst <;> rw [hs] <;> rfl, h.dev⟩
  have hsent : Sent c.askFin (c.startFin link now) := sent_output
  exact ⟨hside.output, hsent.used.trans h.used, hsent.listener.trans h.listener,
    hsent.state ▸ hst, hsent.finPending, hsent.reset.trans h.reset, hsent.dev ▸ h.dev,
    armed_output_of_outstanding hsend⟩

theorem orderly_next {l : Parting} {e : ℕ × Event} {P : Prop} :
    ((l.next link e).acked = true ∨ (l.next link e).late = true ∨ P) ↔
      (settled l e = true ∨ P) := by
  simp only [Parting.next, settled, Bool.or_eq_true, or_assoc]

def halfSent : Conn :=
  run (step fun _ => true) (passive 2) [(2, .input false (ackOf 0x12001 2)), (3, .send [1, 2, 3, 4])]

def takenRun : List (ℕ × Event) := [
  (5, .input false (ackOf 0x12003 100)), (6, .input false (ackOf 0x12006 100)), (7, .closeEnd),
  (8, .input false { ackOf 0x12006 100 with flags := { fin := true, ack := true } }),
  (1000000009, .sweep)]

theorem halfSent_closable : Closable halfSent :=
  (closable_of_run (.child ..) (by decide +kernel)).last (by decide +kernel) (by decide +kernel)

-- The peer's FIN ends FIN_WAIT_1, and the bytes and the FIN behind the window are never sent.
def simultaneousRun : List (ℕ × Event) := [
  (5, .input false { ackOf 0x12001 2 with flags := { fin := true, ack := true } })]

end DosKernel.Net.Tcp.Conn

import DosKernel.Net.Tcp.Output

namespace DosKernel.Net.Tcp.Conn

open DosKernel.Lib Conn

variable {link : Link} {now : ℕ} {c : Conn} {seg : Segment}

def nextRcv (c : Conn) (seg : Segment) : Seq :=
  if seg.data ≠ [] ∧ seg.seq = c.rcvNxt then
    c.rcvNxt + BitVec.ofNat 32 (min seg.data.length c.rx.free)
  else c.rcvNxt

def finTaken (c : Conn) (seg : Segment) : Bool :=
  seg.flags.fin && decide (seg.seq + BitVec.ofNat 32 seg.data.length = c.nextRcv seg)

theorem pullNxt_eq : c.pullNxt seg =
    if seg.ack = c.sndNxt + 1 then { c with sndNxt := seg.ack } else c := by
  have hiff : (seqGt seg.ack c.sndNxt && seqLeq seg.ack (c.sndNxt + 1)) = true ↔
      seg.ack = c.sndNxt + 1 := by
    rw [Bool.and_eq_true, seqGt_iff, seqLeq_iff]
    constructor
    · rintro ⟨h1, h2⟩
      bv_omega
    · intro h
      bv_omega
  unfold pullNxt
  simp only [hiff]

section

variable (hm : c.Modest)

include hm

theorem acksNew_iff : c.acksNew seg = true ↔
    0 < (seg.ack - c.sndUna).toNat ∧ (seg.ack - c.sndUna).toNat ≤ c.inflight := by
  have hlt := hm.lt
  unfold inflight at hlt ⊢
  rw [acksNew, Bool.and_eq_true, seqGt_iff, seqLeq_iff]
  bv_omega

theorem acksNew_pulled (h : seg.ack = c.sndNxt + 1) :
    ({ c with sndNxt := seg.ack } : Conn).acksNew seg = true := by
  have hlt := hm.lt
  unfold inflight at hlt
  rw [acksNew, Bool.and_eq_true, seqGt_iff, seqLeq_iff]
  show (0 < (seg.ack - c.sndUna).toNat ∧ _) ∧ ((seg.ack - seg.ack).toNat = 0 ∨ _)
  bv_omega

theorem pullNxt_of_old (h : ¬ (c.pullNxt seg).acksNew seg = true) :
    c.pullNxt seg = c := by
  rw [pullNxt_eq] at h ⊢
  split
  next hpull =>
    rw [if_pos hpull] at h
    exact absurd (acksNew_pulled hm hpull) h
  · rfl

theorem inflight_compact (h : (c.pullNxt seg).acksNew seg = true) :
    ((c.pullNxt seg).compact seg).inflight = c.inflight - (seg.ack - c.sndUna).toNat ∧
      0 < (seg.ack - c.sndUna).toNat := by
  rw [pullNxt_eq] at h ⊢
  split at h
  next hpull =>
    have hlt := hm.lt
    rw [if_pos hpull, inflight_eq_zero.mpr rfl, hpull]
    unfold inflight at hlt ⊢
    bv_omega
  next hpull =>
    obtain ⟨hpos, hle⟩ := (acksNew_iff hm).mp h
    rw [if_neg hpull]
    refine ⟨?_, hpos⟩
    show (c.sndNxt - seg.ack).toNat = _
    unfold inflight at hle ⊢
    bv_omega

theorem modest_compact (h : (c.pullNxt seg).acksNew seg = true) :
    ((c.pullNxt seg).compact seg).Modest := by
  have htx := hm.tx
  have hflight := hm.flight
  obtain ⟨hsub, hpos⟩ := inflight_compact hm h
  obtain ⟨hptx, huna, hfs⟩ : (c.pullNxt seg).tx = c.tx ∧ (c.pullNxt seg).sndUna = c.sndUna ∧
      (c.pullNxt seg).finSent = c.finSent := by
    unfold pullNxt
    split <;> exact ⟨rfl, rfl, rfl⟩
  have hlen : ((c.pullNxt seg).compact seg).tx.length =
      c.tx.length - min (seg.ack - c.sndUna).toNat c.tx.length := by
    rw [compact, hptx, huna, List.length_drop]
  refine ⟨by rw [hlen]; omega, ?_⟩
  show _ ≤ max 1 _ + (c.pullNxt seg).finSent.toNat
  rw [hfs]
  omega

end

theorem Sending.acked {c' : Conn} (h : c.Sending) (ha : Acked c c') : c'.Sending :=
  ⟨ha.used.trans h.used, (congrArg TcpState.sends ha.state).trans h.sends,
    (congrArg Option.isSome ha.dev).trans h.dev⟩

theorem Modest.sent {c' : Conn} (h : c.Modest) (hs : Sent c c') (hnxt : c'.sndNxt = c.sndNxt)
    (hfin : c'.finSent = c.finSent) : c'.Modest := by
  have hf : c'.inflight = c.inflight := by rw [inflight, hnxt, hs.sndUna, inflight]
  exact ⟨hs.tx ▸ h.tx, by rw [hf, hs.tx, hfin]; exact h.flight⟩

variable (c seg) in
theorem pullNxt_tx : (c.pullNxt seg).tx = c.tx ∧ (c.pullNxt seg).sndUna = c.sndUna ∧
    (c.pullNxt seg).armed = c.armed := by
  unfold pullNxt
  split <;> exact ⟨rfl, rfl, rfl⟩

theorem tx_ackWindow : (c.ackWindow link now seg).tx =
    if (c.pullNxt seg).acksNew seg then
      c.tx.drop (min (seg.ack - c.sndUna).toNat c.tx.length) else c.tx := by
  obtain ⟨htx, huna, -⟩ := pullNxt_tx c seg
  unfold ackWindow
  rw [sent_output.tx]
  unfold ackData
  split
  · show (((c.pullNxt seg).compact seg).rearm now |>.output link now).tx = _
    rw [sent_output.tx, sent_rearm.tx, compact, htx, huna]
  · exact htx

theorem sndNxt_ackWindow (h : c.state.sends = false) :
    (c.ackWindow link now seg).sndNxt = (c.pullNxt seg).sndNxt := by
  have hpull : (c.pullNxt seg).state.sends = false :=
    (congrArg TcpState.sends acked_pullNxt.state).trans h
  refine (ackWindow_rule (P := fun a => a.state.sends = false ∧ a.sndNxt = (c.pullNxt seg).sndNxt)
    (fun _ => ⟨hpull, rfl⟩) (fun _ => ⟨hpull, rfl⟩) id id fun ha => ?_).2
  rwa [output_idle fun hs => by cases ha.1.symm.trans hs.sends]

structure Kept (c : Conn) : Prop where
  dev : c.dev.isSome = true
  modest : c.Modest
  early : c.state = .synSent ∨ c.state = .synRcvd → c.tx = []

theorem Modest.output (h : c.Modest) : (c.output link now).Modest := (output_flight link now h).2

theorem Modest.ackWindow (h : c.Modest) : (c.ackWindow link now seg).Modest := by
  refine ackWindow_rule (fun hold => ?_) (modest_compact h) (fun ha => ⟨ha.tx, ha.flight⟩)
    (fun ha => ⟨ha.tx, ha.flight⟩) Modest.output
  rw [pullNxt_of_old h hold]
  exact h

def flow (c : Conn) : List Byte × Seq × Seq × Bool × Seq :=
  (c.tx, c.sndUna, c.sndNxt, c.finSent, c.finSeq)

theorem Kept.of_flow {c' : Conn} (h : c.Kept)
    (hstate : c'.state = c.state ∨ c'.state ≠ .synSent ∧ c'.state ≠ .synRcvd := by exact .inl rfl)
    (hdev : c'.dev = c.dev := by rfl) (hflow : c'.flow = c.flow := by rfl) : c'.Kept := by
  simp only [flow, Prod.mk.injEq] at hflow
  obtain ⟨htx, huna, hnxt, hfin, -⟩ := hflow
  have hf : c'.inflight = c.inflight := by rw [inflight, hnxt, huna, inflight]
  refine ⟨hdev ▸ h.dev, ⟨htx ▸ h.modest.tx, by rw [hf, htx, hfin]; exact h.modest.flight⟩,
    fun hs => ?_⟩
  rw [htx]
  obtain hst | hst := hstate
  · exact h.early (hst ▸ hs)
  · exact (hs.elim hst.1 hst.2).elim

theorem Kept.past {c' : Conn} (h : c.Kept)
    (hstate : decide (c'.state ≠ .synSent ∧ c'.state ≠ .synRcvd) = true := by rfl)
    (hdev : c'.dev = c.dev := by rfl) (hflow : c'.flow = c.flow := by rfl) : c'.Kept :=
  h.of_flow (.inr (of_decide_eq_true hstate)) hdev hflow

theorem Kept.sent {c' : Conn} (h : c.Kept) (hs : Sent c c') (hm : c'.Modest) : c'.Kept :=
  ⟨hs.dev ▸ h.dev, hm, fun he => hs.tx ▸ h.early (hs.state ▸ he)⟩

theorem Kept.emitted {c' : Conn} (h : c.Kept) (he : Emitted c c') : c'.Kept :=
  h.sent he.sent (h.modest.sent he.sent he.sndNxt he.finSent)

variable (link) in
theorem Kept.resend (h : c.Kept) : (c.resend link).Kept := by
  refine resend_rule h (fun _ _ => h.emitted (emitted_emit ..)) (fun {n} _ hle => ?_)
    fun _ => h.emitted (emitted_emit ..)
  have hem := emitted_emit link (c := c) c.sndUna { psh := true, ack := true } (c.tx.take n)
  generalize (c.emit link c.sndUna { psh := true, ack := true } (c.tx.take n)).2 = c' at hem ⊢
  refine h.sent (hem.sent.trans rfl) ⟨hem.sent.tx ▸ h.modest.tx, ?_⟩
  exact (inflight_back hem.sent h.modest.tx hle).trans (le_max_right 1 _)

theorem sweep_rule {P : Conn → Prop} (h : P c)
    (hdead : P { c with retries := c.retries + 1, reset := true, peerFin := true, state := .closed,
                        rtoDeadline := 0 })
    (hagain : P ((({ c with retries := c.retries + 1 } : Conn).resend link).backoff now))
    (hclosed : ∀ {a : Conn}, P a → P { a with state := .closed })
    (hfree : ∀ {a : Conn}, a.orphan = true → P a → P a.free) : P (c.sweep link now) := by
  have hreclaim : ∀ {a : Conn}, P a → P (a.reclaim now) := fun ha => by
    unfold reclaim
    split_ifs with _ ho ho
    · exact hfree ho ha
    · exact hclosed ha
    · exact hfree (Bool.and_eq_true_iff.mp ho).1 ha
    · exact ha
  unfold sweep
  split_ifs
  · exact h
  · exact hdead
  · exact hreclaim hagain
  · exact hreclaim h

theorem Kept.sweep (h : c.Kept) : (c.sweep link now).Kept := by
  have hr : ({ c with retries := c.retries + 1 } : Conn).Kept :=
    h.of_flow
  refine sweep_rule h ?_ ((hr.resend link).of_flow)
    (fun ha => ?_) fun _ ha => ?_
  · exact h.past
  · exact ha.past
  · exact ha.past

theorem Kept.ackWindow (h : c.Kept) : (c.ackWindow link now seg).Kept := by
  have hacked := acked_ackWindow link now c seg
  refine ⟨hacked.dev ▸ h.dev, h.modest.ackWindow, fun he => ?_⟩
  have hnil := h.early (hacked.state ▸ he)
  rw [tx_ackWindow, hnil]
  split <;> simp

theorem closing_early {st : TcpState} :
    closing st = st ∨ closing st ≠ .synSent ∧ closing st ≠ .synRcvd := by
  cases st <;> decide

theorem Kept.connected (h : c.Kept) (hst : c.state = .synSent) (hack : seg.ack = c.sndNxt) :
    (c.connected seg).Kept := by
  refine ⟨h.dev, ⟨h.modest.tx, ?_⟩, fun _ => h.early (.inl hst)⟩
  have hz : (c.sndNxt - seg.ack).toNat = 0 := by rw [hack]; simp
  exact le_trans hz.le (Nat.zero_le _)

theorem Kept.input {full : Bool} (h : c.Kept) : (c.input link now full seg).Kept := by
  have hack : (c.acknowledge link now full seg).Kept :=
    acknowledge_rule (fun _ => h) (fun _ => h.ackWindow) (fun _ ha => ha.past)
      (fun ha => (ha.emitted (emitted_emit ..)).past) fun ha => ha.past
  refine input_rule h (h.past) (fun hst _ heq => ?_) fun _ => ?_
  · have hk := (h.connected hst heq).emitted (emitted_emitAck link _)
    exact hk.sent sent_output hk.modest.output
  · exact conclude_rule hack (hack.past) (fun ha => ha.emitted (emitted_emitAck ..))
      (fun _ _ => hack.of_flow) (fun _ _ ha => ha.of_flow)
      fun ha => ha.of_flow closing_early

theorem askFin_rule {P : TcpState → Prop} (hfirst : P .finWait1) (hlast : P .lastAck) :
    P c.askFin.state := by
  unfold askFin
  exact refuse_rule hlast fun _ => hfirst

theorem sends_of_needFin (h : c.needFin = true) : c.state.sends = true := by
  simp only [needFin, Bool.or_eq_true, decide_eq_true_eq] at h
  obtain h | h := h <;> rw [h] <;> rfl

theorem Kept.startFin (h : c.Kept) : (c.startFin link now).Kept := by
  have hk : c.askFin.Kept := h.of_flow
    (.inr (askFin_rule (P := fun st => st ≠ .synSent ∧ st ≠ .synRcvd) (by decide) (by decide)))
  exact hk.sent sent_output hk.modest.output

theorem Modest.queue (h : c.Modest) (buf : List Byte) :
    (c.queue (buf.take (min buf.length (tcpTxbuf - c.tx.length)))).Modest := by
  have hflight := h.flight
  have htx := h.tx
  refine ⟨?_, ?_⟩
  · simp only [Conn.queue, List.length_append, List.length_take]
    omega
  · show c.inflight ≤ max 1 (c.tx ++ _).length + c.finSent.toNat
    rw [List.length_append]
    omega

theorem Kept.sendCopy {buf : List Byte} (h : c.Kept)
    (hst : c.state ≠ .synSent ∧ c.state ≠ .synRcvd) : (c.sendCopy link now buf).2.Kept := by
  unfold Conn.sendCopy
  split
  · exact h
  · have hk : (c.queue (buf.take (min buf.length (tcpTxbuf - c.tx.length)))).Kept :=
      ⟨h.dev, h.modest.queue buf, fun he => (he.elim hst.1 hst.2).elim⟩
    exact hk.sent sent_output hk.modest.output

theorem step_rule {P : Conn → Prop} {e : ℕ × Event} (h : P c)
    (hin : ∀ {full seg}, e.2 = .input full seg → P (c.input link e.1 full seg))
    (hsweep : e.2 = .sweep → P (c.sweep link e.1))
    (hsend : ∀ {buf}, e.2 = .send buf → P (c.sendCopy link e.1 buf).2)
    (hrx : ∀ {len}, P { c with rx := c.rx.drop len })
    (hack : ∀ {a : Conn}, P a → P (a.emitAck link))
    (hfin : c.needFin = true → P (c.startFin link e.1))
    (hend : e.2 = .closeEnd → P (c.closeEnd e.1)) : P (c.step link e) := by
  obtain ⟨t, ev⟩ := e
  cases ev with
  | input full seg => exact hin rfl
  | sweep => exact hsweep rfl
  | send buf => exact hsend rfl
  | recv len =>
    simp only [Conn.step, recvTake]
    split_ifs
    · exact h
    · exact hack hrx
    · exact hrx
  | shutdown => exact guard_rule h fun hneed => hfin (Bool.and_eq_true_iff.mp hneed).2
  | closeBegin => exact guard_rule h hfin
  | closeEnd => exact hend rfl

theorem Kept.step {e : ℕ × Event} (h : c.Kept) (hout : c.handedOut e.2 = true) :
    (c.step link e).Kept := by
  refine step_rule h (fun _ => h.input) (fun _ => h.sweep) (fun hev => ?_) h.of_flow
    (fun ha => ha.emitted (emitted_emitAck ..)) (fun _ => h.startFin) fun _ =>
      refuse_rule h.past fun _ => h.of_flow
  simp only [hev, handedOut, Bool.and_eq_true, decide_eq_true_eq] at hout
  exact h.sendCopy hout

variable (link c seg) in
theorem rcvNxt_takeData : (c.takeData link seg).rcvNxt = c.nextRcv seg ∧
    (c.takeData link seg).state = c.state := by
  unfold takeData nextRcv
  by_cases hnil : seg.data = []
  · simp [hnil]
  · by_cases heq : seg.seq = c.rcvNxt
    · simp only [hnil, heq, if_false, if_true, ne_eq, not_false_eq_true, and_self]
      have hem := emitted_emitAck link (c.rxStore seg.data)
      exact ⟨hem.sent.rcvNxt, hem.sent.state⟩
    · simp only [hnil, heq, if_false, and_false]
      have hem := emitted_emitAck link c
      exact ⟨hem.sent.rcvNxt, hem.sent.state⟩

theorem state_received : ((c.takeData link seg).takeFin link now seg).state =
    if c.finTaken seg then closing c.state else c.state := by
  obtain ⟨hrcv, hst⟩ := rcvNxt_takeData link c seg
  generalize c.takeData link seg = a at hrcv hst
  unfold takeFin finTaken
  rw [hrcv, ← hst]
  by_cases hfin : seg.flags.fin = true
  · by_cases heq : seg.seq + BitVec.ofNat 32 seg.data.length = c.nextRcv seg
    · simp only [hfin, heq, Bool.not_true, Bool.false_eq_true, if_false, if_true, decide_true,
        Bool.and_self]
      exact congrArg closing (emitted_emitAck link a.finSeen).sent.state
    · simp only [hfin, heq, Bool.not_true, Bool.false_eq_true, if_false, decide_false,
        Bool.and_false]
      exact (emitted_emitAck ..).sent.state
  · simp [hfin]

theorem finTaken_acked {a : Conn} (h : Acked c a) : a.finTaken seg = c.finTaken seg := by
  unfold finTaken nextRcv
  rw [h.rcvNxt, h.rx]

theorem establish_fields {full : Bool} : (c.establish link full seg).tx = c.tx ∧
    ((c.establish link full seg).used = true → c.used = true) ∧
    (c.state ≠ .synRcvd → c.establish link full seg = c) := by
  unfold establish
  split
  next hest =>
    split
    · exact ⟨(emitted_emit ..).sent.tx, fun h => (Bool.false_ne_true h).elim, fun hne => (hne hest.1).elim⟩
    · exact ⟨rfl, id, fun hne => (hne hest.1).elim⟩
  · exact ⟨rfl, id, fun _ => rfl⟩

theorem ackFin1_fields : (c.ackFin1 seg).tx = c.tx ∧ (c.ackFin1 seg).used = c.used ∧
    (c.state ≠ .finWait1 → c.ackFin1 seg = c) := by
  unfold ackFin1
  split
  next hfin =>
    exact ⟨rfl, rfl, fun hne => (hne hfin.1).elim⟩
  · exact ⟨rfl, rfl, fun _ => rfl⟩

variable (link now c) in
theorem sent_sendSyn (flags : Flags) : Sent c (c.sendSyn link now flags) := by
  have hem := (emitted_emit link (c := c) c.sndNxt flags []).sent
  exact hem.trans rfl

theorem kept_sendSyn {flags : Flags} (hdev : c.dev.isSome = true) (htx : c.tx = [])
    (huna : c.sndUna = c.sndNxt) : (c.sendSyn link now flags).Kept := by
  have hsent := sent_sendSyn link now c flags
  refine ⟨hsent.dev ▸ hdev, ⟨by simp [hsent.tx, htx], ?_⟩, fun _ => hsent.tx.trans htx⟩
  show (c.sndNxt + 1 - (c.sendSyn link now flags).sndUna).toNat ≤ _
  rw [hsent.sndUna, huna]
  have hone : (c.sndNxt + 1 - c.sndNxt).toNat = 1 := by bv_omega
  omega

theorem kept_of_started (h : Started link c) : c.Kept := by
  cases h with
  | connect | child => exact kept_sendSyn rfl rfl rfl

def eth : Device := ⟨1500, by decide⟩

def synOf (window : ℕ) : Segment := { seq := 99, ack := 0, flags := { syn := true }, window := window }

def passive (window : ℕ) : Conn :=
  childConn (fun _ => true) 1 eth 0x12000 1 80 2 4000 0 (synOf window)

def ackOf (ack : Seq) (window : ℕ) : Segment :=
  { seq := 100, ack := ack, flags := { ack := true }, window := window }

example : (passive 0).Kept := kept_of_started (.child ..)

end DosKernel.Net.Tcp.Conn

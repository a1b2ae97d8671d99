import DosKernel.Net.Tcp.Kept

namespace DosKernel.Net.Tcp.Conn

open DosKernel.Lib List

variable {link : Link} {now : ℕ} {c : Conn} {seg : Segment}

-- A sender with queued data has its timer to wait for, or what the next sweep sends.
def Waits (link : Link) (c : Conn) : Prop :=
  c.used = true → c.state.sends = true → c.tx ≠ [] →
    c.armed = true ∨ ∀ t, c.txSegs < (c.sweep link t).txSegs

def blocked (link : Link) (wnd k : ℕ) : Bool := decide (wnd = 0) || !link k

def ackedAll (c : Conn) (seg : Segment) : Bool :=
  seqGt seg.ack c.sndUna && (decide (seg.ack = c.sndNxt) || decide (seg.ack = c.sndNxt + 1))

-- More is queued than is acknowledged, and neither the old window nor the new one lets any leave.
def stallsAck (link : Link) (c : Conn) (seg : Segment) : Bool :=
  c.ackedAll seg && decide ((seg.ack - c.sndUna).toNat < c.tx.length) &&
    blocked link c.sndWnd c.txSegs &&
    blocked link seg.window (if c.sndWnd = 0 then c.txSegs else c.txSegs + 1)

def leaves (c : Conn) (seg : Segment) : Bool :=
  (decide (c.state = .finWait1) || decide (c.state = .lastAck)) && c.finAcked seg ||
    decide (c.state = .finWait1) && c.finTaken seg

def stalls (link : Link) (c : Conn) : Event → Bool
  | .send buf =>
    c.used && c.state.sends && !c.reset && !c.armed && decide (c.sndNxt = c.sndUna) &&
      decide (buf ≠ []) && blocked link c.sndWnd c.txSegs
  | .input _ seg =>
    c.used && c.state.sends && !seg.flags.rst && seg.flags.ack && c.stallsAck link seg &&
      !c.leaves seg
  | _ => false

theorem txSegs_sweep (h : c.armed = false) : (c.sweep link now).txSegs = c.txSegs := by
  have hdue : c.due now = false := by simp [due, h]
  unfold sweep
  split
  · rfl
  simp only [hdue, Bool.false_eq_true, if_false]
  unfold reclaim
  split_ifs <;> rfl

theorem waits_iff : Waits link c ↔
    (c.used = true → c.state.sends = true → c.tx ≠ [] → c.armed = true) := by
  refine ⟨fun h hu hs ht => ?_, fun h hu hs ht => .inl (h hu hs ht)⟩
  obtain ha | hsweep := h hu hs ht
  · exact ha
  · by_contra hna
    exact absurd (hsweep 0) (by rw [txSegs_sweep (by simpa using hna)]; omega)

variable (link) in
theorem outputLoop_first (hdev : c.dev.isSome = true) (hempty : c.sndNxt = c.sndUna)
    (htx : c.tx ≠ []) (hwnd : c.sndWnd ≠ 0) (dev : Device) : ∃ n fuel, Round c n ∧
    c.outputLoop link dev.mss c.tx.length =
      if link c.txSegs then (c.sendData n).outputLoop link dev.mss fuel else c.lost := by
  obtain ⟨fuel, hfuel⟩ := Nat.exists_eq_succ_of_ne_zero (length_pos_iff.mpr htx).ne'
  have hzero := inflight_eq_zero.mpr hempty
  have hmss := dev.mss_pos
  refine ⟨min (min (c.tx.length - c.inflight) (c.sndWnd - c.inflight)) dev.mss, fuel,
    ⟨by omega, by omega⟩, ?_⟩
  rw [show c.outputLoop link dev.mss c.tx.length = c.outputLoop link dev.mss (fuel + 1) by
    rw [hfuel], outputLoop, if_neg (by omega), if_neg (by omega)]
  dsimp only
  rw [emit_eq link hdev]
  cases link c.txSegs <;> rfl

structure Drained (c : Conn) : Prop extends c.Sending, c.Modest where
  empty : c.sndNxt = c.sndUna
  queued : c.tx ≠ []
  unarmed : c.armed = false

theorem Drained.window (h : c.Drained) (w : ℕ) : ({ c with sndWnd := w } : Conn).Drained :=
  ⟨⟨h.used, h.sends, h.dev⟩, ⟨h.tx, h.flight⟩, h.empty, h.queued, h.unarmed⟩

theorem Drained.lost (h : c.Drained) : c.lost.Drained :=
  ⟨⟨h.used, h.sends, h.dev⟩, ⟨h.tx, h.flight⟩, h.empty, h.queued, h.unarmed⟩

variable (link now) in
theorem Drained.stays (h : c.Drained) (hb : blocked link c.sndWnd c.txSegs = true) :
    (c.output link now).Drained ∧
      (c.output link now).txSegs = (if c.sndWnd = 0 then c.txSegs else c.txSegs + 1) ∧
      (c.output link now).finSent = c.finSent ∧ (c.output link now).finSeq = c.finSeq := by
  have hrest : ∀ {a : Conn}, a.Drained → (a.outputFin link).armOutstanding now = a := by
    intro a ha
    have hzero := inflight_eq_zero.mpr ha.empty
    have hpos := length_pos_iff.mpr ha.queued
    rw [outputFin, if_neg (by simp; omega), armOutstanding, if_neg (by simp [ha.empty])]
  have hzero := inflight_eq_zero.mpr h.empty
  obtain ⟨dev, heq⟩ := output_eq link now h.toSending
  rw [heq]
  split
  next hw =>
    obtain ⟨fuel, hfuel⟩ := Nat.exists_eq_succ_of_ne_zero (length_pos_iff.mpr h.queued).ne'
    rw [hfuel, outputLoop, if_neg (by omega), if_pos (by omega), hrest h]
    exact ⟨h, rfl, rfl, rfl⟩
  next hw =>
    obtain ⟨n, fuel, -, hl⟩ := outputLoop_first link h.dev h.empty h.queued hw dev
    rw [hl, if_neg (by simpa [blocked, hw] using hb), hrest h.lost]
    exact ⟨h.lost, rfl, rfl, rfl⟩

theorem Drained.moves (h : c.Drained) (hb : blocked link c.sndWnd c.txSegs = false) :
    (c.output link now).armed = true := by
  simp only [blocked, Bool.or_eq_false_iff, decide_eq_false_iff_not, Bool.not_eq_false'] at hb
  obtain ⟨dev, heq⟩ := output_eq link now h.toSending
  obtain ⟨n, fuel, hround, hl⟩ := outputLoop_first link h.dev h.empty h.queued hb.1 dev
  rw [if_pos hb.2] at hl
  obtain ⟨hadd, hm'⟩ := h.toModest.sendData hround
  have hpos := hround.pos
  have hloop : Sent (c.sendData n) ((c.sendData n).outputLoop link dev.mss fuel) ∧
      ((c.sendData n).outputLoop link dev.mss fuel).Modest ∧
      0 < ((c.sendData n).outputLoop link dev.mss fuel).inflight := by
    refine outputLoop_inv (P := fun a => Sent (c.sendData n) a ∧ a.Modest ∧ 0 < a.inflight) h.dev
      ⟨.refl _, hm', by omega⟩ (fun ha hr _ => ?_) fun ha => ⟨ha.1.trans rfl,
        ⟨ha.2.1.tx, ha.2.1.flight⟩, ha.2.2⟩
    obtain ⟨hmore, hm''⟩ := ha.2.1.sendData hr
    exact ⟨ha.1.trans rfl, hm'', by omega⟩
  rw [← hl] at hloop
  generalize c.outputLoop link dev.mss c.tx.length = a at heq hloop
  obtain ⟨hsent, ha, hout⟩ := hloop
  have hfin : 0 < (a.outputFin link).inflight :=
    outputFin_rule (P := fun b => 0 < b.inflight) (hsent.dev ▸ h.dev) hout hout
      fun _ hns _ => hout.trans_le (ha.finOut link hns).1
  rw [heq]
  refine armed_armOutstanding (.inr fun hsame => ?_)
  have := inflight_eq_zero.mpr hsame
  omega

variable (link now) in
theorem ackWindow_drained (hnew : (c.pullNxt seg).acksNew seg = true)
    (hall : seg.ack = (c.pullNxt seg).sndNxt) (h : ((c.pullNxt seg).compact seg).Drained) :
    if blocked link c.sndWnd c.txSegs &&
        blocked link seg.window (if c.sndWnd = 0 then c.txSegs else c.txSegs + 1) then
      (c.ackWindow link now seg).armed = false ∧ (c.ackWindow link now seg).finSent = c.finSent ∧
        (c.ackWindow link now seg).finSeq = c.finSeq
    else (c.ackWindow link now seg).armed = true := by
  have hpull : ((c.pullNxt seg).compact seg).sndWnd = c.sndWnd ∧
      ((c.pullNxt seg).compact seg).txSegs = c.txSegs ∧
      ((c.pullNxt seg).compact seg).finSent = c.finSent ∧
      ((c.pullNxt seg).compact seg).finSeq = c.finSeq := by
    unfold pullNxt
    split <;> exact ⟨rfl, rfl, rfl, rfl⟩
  have hrearm : ((c.pullNxt seg).compact seg).rearm now = (c.pullNxt seg).compact seg := by
    unfold rearm
    exact if_neg (not_not.mpr hall)
  unfold ackWindow ackData
  rw [if_pos hnew, hrearm]
  generalize (c.pullNxt seg).compact seg = b at h hpull ⊢
  obtain ⟨hwnd, hsegs, hfs, hfq⟩ := hpull
  rw [← hwnd, ← hsegs, ← hfs, ← hfq]
  cases hb : blocked link b.sndWnd b.txSegs with
  | false => exact armed_output (h.moves hb)
  | true =>
    obtain ⟨hd, hout, hfs, hfq⟩ := h.stays link now hb
    have hnext := congrArg (blocked link seg.window) hout
    rw [Bool.true_and]
    cases hb' : blocked link seg.window (if b.sndWnd = 0 then b.txSegs else b.txSegs + 1) with
    | false => exact (hd.window seg.window).moves (hnext.trans hb')
    | true =>
      obtain ⟨hd', -, hfs', hfq'⟩ := (hd.window seg.window).stays link now (hnext.trans hb')
      exact ⟨hd'.unarmed, hfs'.trans hfs, hfq'.trans hfq⟩

theorem ackedAll_iff (hm : c.Modest) : c.ackedAll seg = true ↔
    (c.pullNxt seg).acksNew seg = true ∧ seg.ack = (c.pullNxt seg).sndNxt := by
  rw [pullNxt_eq]
  by_cases hpull : seg.ack = c.sndNxt + 1
  · rw [if_pos hpull]
    have hnew := acksNew_pulled hm hpull
    refine iff_of_true ?_ ⟨hnew, rfl⟩
    have hgt : seqGt seg.ack c.sndUna = true := (Bool.and_eq_true_iff.mp hnew).1
    rw [ackedAll, hgt]
    simp [hpull]
  · rw [if_neg hpull]
    simp only [ackedAll, acksNew, hpull, decide_false, Bool.or_false, Bool.and_eq_true,
      decide_eq_true_eq]
    constructor
    · rintro ⟨hgt, heq⟩
      refine ⟨⟨hgt, ?_⟩, heq⟩
      rw [seqLeq_iff, heq]
      simp
    · rintro ⟨⟨hgt, -⟩, heq⟩
      exact ⟨hgt, heq⟩

variable (link now seg) in
theorem ackWindow_waits (h : c.Sending) (hm : c.Modest) (hwait : c.tx ≠ [] → c.armed = true) :
    if c.stallsAck link seg then
      (c.ackWindow link now seg).tx ≠ [] ∧ (c.ackWindow link now seg).armed = false ∧
        (c.ackWindow link now seg).finSent = c.finSent ∧
        (c.ackWindow link now seg).finSeq = c.finSeq
    else (c.ackWindow link now seg).tx ≠ [] → (c.ackWindow link now seg).armed = true := by
  obtain ⟨htx, huna, harmed⟩ := pullNxt_tx c seg
  by_cases hnew : (c.pullNxt seg).acksNew seg = true
  · by_cases hall : seg.ack = (c.pullNxt seg).sndNxt
    · have hacked : c.ackedAll seg = true := (ackedAll_iff hm).mpr ⟨hnew, hall⟩
      rw [tx_ackWindow, if_pos hnew]
      by_cases hmore : (seg.ack - c.sndUna).toNat < c.tx.length
      · have hne : c.tx.drop (min (seg.ack - c.sndUna).toNat c.tx.length) ≠ [] := by
          intro hnil
          have := drop_eq_nil_iff.mp hnil
          omega
        have hdr : ((c.pullNxt seg).compact seg).Drained :=
          ⟨h.acked (acked_pullNxt.trans acked_compact), modest_compact hm hnew, hall.symm,
            by rw [compact, htx, huna]; exact hne, by simp [armed, compact]⟩
        have hcase := ackWindow_drained link now hnew hall hdr
        simp only [stallsAck, hacked, hmore, decide_true, Bool.true_and]
        generalize (blocked link c.sndWnd c.txSegs && blocked link seg.window
          (if c.sndWnd = 0 then c.txSegs else c.txSegs + 1)) = stuck at hcase ⊢
        cases stuck with
        | true => exact ⟨hne, hcase⟩
        | false => exact fun _ => hcase
      · have hno : c.stallsAck link seg = false := by
          rw [stallsAck, decide_eq_false hmore, Bool.and_false, Bool.false_and, Bool.false_and]
        rw [hno]
        intro hne
        exact absurd (drop_eq_nil_iff.mpr (by omega)) hne
    · have hno : c.stallsAck link seg = false := by
        have : c.ackedAll seg ≠ true := fun ha => hall ((ackedAll_iff hm).mp ha).2
        simp [stallsAck, this]
      rw [if_neg (by simp [hno])]
      intro _
      refine armed_output ?_
      show ((c.pullNxt seg).ackData link now seg).armed = true
      rw [ackData, if_pos hnew]
      refine armed_output ?_
      have hout : ((c.pullNxt seg).compact seg).sndUna ≠ ((c.pullNxt seg).compact seg).sndNxt := hall
      rw [rearm, if_pos hout]
      exact armed_armRto
  · have hno : c.stallsAck link seg = false := by
      have : c.ackedAll seg ≠ true := fun ha => hnew ((ackedAll_iff hm).mp ha).1
      simp [stallsAck, this]
    rw [if_neg (by simp [hno]), tx_ackWindow, if_neg hnew]
    intro hne
    refine armed_output ?_
    show ((c.pullNxt seg).ackData link now seg).armed = true
    rw [ackData, if_neg hnew, harmed]
    exact hwait hne

def Waiting (c : Conn) : Prop :=
  c.used = true → c.state.sends = true → c.tx ≠ [] → c.armed = true

theorem Waiting.of_armed {c' : Conn} (hw : c.Waiting) (hused : c'.used = true → c.used = true)
    (hsends : c'.state.sends = true → c.state.sends = true) (htx : c'.tx = c.tx)
    (harmed : c.armed = true → c'.armed = true) : c'.Waiting :=
  fun hu hs ht => harmed (hw (hused hu) (hsends hs) (htx ▸ ht))

theorem Waiting.sweep (hw : c.Waiting) : (c.sweep link now).Waiting := by
  refine sweep_rule hw (fun _ hs => ?_) (fun _ _ _ => armed_backoff) (fun _ _ hs => ?_) fun _ _ hu => ?_
  · cases hs
  · cases hs
  · cases hu

theorem Waiting.startFin (hw : c.Waiting) (hsends : c.state.sends = true) :
    (c.startFin link now).Waiting := by
  have hsent : Sent c.askFin (c.startFin link now) := sent_output
  exact hw.of_armed (fun hu => hsent.used.symm.trans hu) (fun _ => hsends) hsent.tx
    fun ha => armed_output (c := c.askFin) ha

theorem waiting_sendCopy {buf : List Byte} (hk : c.Kept) (hw : c.Waiting) :
    (c.sendCopy link now buf).2.Waiting ↔ c.stalls link (.send buf) = false := by
  unfold sendCopy
  split
  next hend =>
    refine iff_of_true hw ?_
    obtain hr | hst := hend
    · simp [stalls, hr]
    · simp [stalls, hst, TcpState.sends]
  next hend =>
    push Not at hend
    obtain ⟨hreset, hst⟩ := hend
    dsimp only
    generalize hn : min buf.length (tcpTxbuf - c.tx.length) = n
    by_cases hs : c.used = true ∧ c.state.sends = true
    swap
    · refine iff_of_true (fun hu hs' => ?_) ?_
      · rw [sent_output.used] at hu
        rw [sent_output.state] at hs'
        exact (hs ⟨hu, hs'⟩).elim
      · cases hu : c.used <;> cases hss : c.state.sends <;> simp_all [stalls]
    have hsend : (c.queue (buf.take n)).Sending := ⟨hs.1, hs.2, hk.dev⟩
    cases harm : c.armed with
    | true =>
      refine iff_of_true (fun _ _ _ => armed_output (c := c.queue _) harm) ?_
      simp [stalls, harm]
    | false =>
      have hnil : c.tx = [] := by
        by_contra hne
        rw [hw hs.1 hs.2 hne] at harm
        cases harm
      have htxn : (c.queue (buf.take n)).tx = buf.take n := by simp [queue, hnil]
      have hlen : n = min buf.length tcpTxbuf := by rw [← hn, hnil, length_nil, Nat.sub_zero]
      have hmod : (c.queue (buf.take n)).Modest := hn ▸ hk.modest.queue buf
      by_cases hempty : c.sndNxt = c.sndUna
      · by_cases hbuf : buf = []
        · refine iff_of_true (fun _ _ hne => ?_) (by simp [stalls, hbuf])
          rw [sent_output.tx, htxn, hbuf] at hne
          simp at hne
        · have hq : (c.queue (buf.take n)).tx ≠ [] := by
            have := length_pos_iff.mpr hbuf
            rw [htxn]
            simp only [tcpTxbuf] at hlen
            intro hz
            obtain hz | hz := take_eq_nil_iff.mp hz
            · omega
            · exact hbuf hz
          have hd : (c.queue (buf.take n)).Drained := ⟨hsend, hmod, hempty, hq, harm⟩
          have hst : c.stalls link (.send buf) = blocked link c.sndWnd c.txSegs := by
            simp [stalls, hs.1, hs.2, hreset, harm, hempty, hbuf]
          rw [hst]
          cases hb : blocked link c.sndWnd c.txSegs with
          | true =>
            obtain ⟨hout, -⟩ := hd.stays link now hb
            refine iff_of_false (fun hwait => ?_) (by simp)
            cases hout.unarmed.symm.trans (hwait hout.used hout.sends hout.queued)
          | false => exact iff_of_true (fun _ _ _ => hd.moves hb) rfl
      · refine iff_of_true (fun _ _ _ => armed_output_of_outstanding hsend fun hz => ?_)
          (by simp [stalls, hempty])
        have hle := (output_flight link now hmod).1
        rw [inflight_eq_zero.mpr hz] at hle
        exact hempty (inflight_eq_zero.mp (Nat.le_zero.mp hle))

theorem sends_closing {st : TcpState} (h : (closing st).sends = true) : st.sends = true := by
  cases st <;> first | rfl | cases h

theorem waiting_conclude {a : Conn} : (a.conclude link now seg).Waiting ↔
    (a.used = true → ¬ (seg.flags.ack = true ∧ a.state = .lastAck ∧ a.finAcked seg = true) →
      (if a.finTaken seg then closing a.state else a.state).sends = true → a.tx ≠ [] →
      a.armed = true) := by
  unfold conclude
  split
  next hlast =>
    exact iff_of_true (fun _ hs => by cases hs) fun _ hno => (hno hlast).elim
  next hno =>
    have hrec : Received a ((a.takeData link seg).takeFin link now seg) :=
      received_takeData.trans received_takeFin
    unfold Waiting
    rw [hrec.used, state_received, hrec.tx, hrec.armed]
    exact ⟨fun h hu _ => h hu, fun h hu => h hu hno⟩

theorem waiting_acknowledged {full : Bool} (hk : c.Kept) (hw : c.Waiting) (hused : c.used = true)
    (hsends : c.state.sends = true) (hack : seg.flags.ack = true) :
    ((c.takeAck link now full seg).conclude link now seg).Waiting ↔
      (c.stallsAck link seg && !c.leaves seg) = false := by
  have hacked := acked_ackWindow link now c seg
  have hwait := ackWindow_waits link now seg ⟨hused, hsends, hk.dev⟩
    hk.modest (hw hused hsends)
  have hft : (c.ackWindow link now seg).finTaken seg = c.finTaken seg := finTaken_acked hacked
  have hne : (c.ackWindow link now seg).state ≠ .synRcvd := fun hst => by
    rw [← hacked.state, hst] at hsends
    cases hsends
  rw [takeAck, establish_fields.2.2 hne]
  have hst := hacked.state
  have hu := hacked.used
  generalize c.ackWindow link now seg = a at hwait hst hu hft
  -- the two acknowledgement tests on our FIN leave the rest of the connection alone
  have hfin1 : (a.ackFin1 seg).used = a.used ∧ (a.ackFin1 seg).tx = a.tx ∧
      (a.ackFin1 seg).armed = a.armed ∧ (a.ackFin1 seg).finTaken seg = a.finTaken seg ∧
      (a.ackFin1 seg).finAcked seg = a.finAcked seg ∧ (a.ackFin1 seg).state =
        if a.state = .finWait1 ∧ a.finAcked seg then .finWait2 else a.state := by
    unfold ackFin1
    split <;> exact ⟨rfl, rfl, rfl, rfl, rfl, rfl⟩
  obtain ⟨hu1, htx1, harm1, hft1, hfa1, hst1⟩ := hfin1
  rw [waiting_conclude, hu1, htx1, harm1, hft1, hfa1, hst1, hu, hst, hft]
  cases hstall : c.stallsAck link seg with
  | false =>
    rw [hstall] at hwait
    exact iff_of_true (fun _ _ _ htx => hwait htx) rfl
  | true =>
    rw [hstall] at hwait
    obtain ⟨htx, hun, hfs, hfq⟩ := hwait
    have hfa : a.finAcked seg = c.finAcked seg := by rw [finAcked, hfs, hfq, finAcked]
    simp only [Bool.true_and, Bool.not_eq_false', leaves]
    cases hfinAcked : c.finAcked seg <;> cases hfinTaken : c.finTaken seg <;>
      cases hcs : c.state <;> simp_all [TcpState.sends, closing]

theorem waiting_quiet {full : Bool} (hk : c.Kept) (hquiet : c.used = true → c.state.sends = false) :
    ((c.acknowledge link now full seg).conclude link now seg).Waiting := by
  -- only the end of the handshake makes the state one that sends, and then nothing is queued
  let Q (a : Conn) : Prop :=
    (a.used = true → a.state.sends = true → a.tx = []) ∧ (a.state = .synRcvd → a.tx = [])
  have hidle : ∀ {a : Conn}, Acked c a → a.Kept → Q a := fun hacked ha =>
    ⟨fun hu hs => (by cases (hquiet (hacked.used ▸ hu)).symm.trans (hacked.state ▸ hs)),
      fun hst => ha.early (.inr hst)⟩
  have hack : Q (c.acknowledge link now full seg) :=
    acknowledge_rule (P := Q) (fun _ => hidle rfl hk)
      (fun _ => hidle (acked_ackWindow ..) hk.ackWindow)
      (fun hst ha => ⟨fun _ _ => ha.2 hst, nofun⟩) (fun _ => ⟨nofun, nofun⟩)
      fun _ => ⟨fun _ => nofun, nofun⟩
  rw [waiting_conclude]
  intro hu _ hs htx
  refine absurd (hack.1 hu ?_) htx
  split at hs
  · exact sends_closing hs
  · exact hs

theorem waiting_input {full : Bool} (hk : c.Kept) (hw : c.Waiting) :
    (c.input link now full seg).Waiting ↔ c.stalls link (.input full seg) = false := by
  unfold input
  split
  next hrst =>
    exact iff_of_true (fun _ hs => by cases hs) (by simp [stalls, hrst])
  rename_i hrst
  split
  next hst =>
    refine iff_of_true (fun _ _ htx => ?_) (by simp [stalls, hst, TcpState.sends])
    have hnil : (c.inputSynSent link now seg).tx = c.tx := by
      unfold inputSynSent
      split
      · have hem := emitted_emitAck link (c.connected seg)
        exact sent_output.tx.trans hem.sent.tx
      · rfl
    exact absurd (hnil.trans (hk.early (.inl hst))) htx
  by_cases hs : c.used = true ∧ c.state.sends = true
  · cases hack : seg.flags.ack with
    | true =>
      rw [acknowledge, if_pos hack, waiting_acknowledged hk hw hs.1 hs.2 hack]
      simp [stalls, hs.1, hs.2, hrst, hack]
    | false =>
      rw [acknowledge, if_neg (by simp [hack]), waiting_conclude]
      refine iff_of_true (fun hu _ hsend htx => ?_) (by simp [stalls, hack])
      exact hw hu hs.2 htx
  · refine iff_of_true (waiting_quiet hk fun hu => ?_) ?_
    · simpa using fun hsend => hs ⟨hu, hsend⟩
    · cases hu : c.used <;> cases hss : c.state.sends <;> simp_all [stalls]

theorem Waiting.step {e : ℕ × Event} (hw : c.Waiting) (hin : ∀ {full seg}, e.2 ≠ .input full seg)
    (hsend : ∀ {buf}, e.2 ≠ .send buf) : (c.step link e).Waiting := by
  refine step_rule hw (fun hev => (hin hev).elim) (fun _ => hw.sweep) (fun hev => (hsend hev).elim)
    hw (fun {a} ha => ?_) (fun hneed => hw.startFin (sends_of_needFin hneed))
    fun _ => guard_rule hw fun _ hu => by cases hu
  have hem := emitted_emitAck link a
  exact ha.of_armed (fun hu => hem.sent.used ▸ hu) (fun hs => hem.sent.state ▸ hs) hem.sent.tx
    fun harm => by rwa [armed, hem.rtoDeadline]

theorem waiting_step {e : ℕ × Event} (hk : c.Kept) (hw : c.Waiting) :
    (c.step link e).Waiting ↔ c.stalls link e.2 = false := by
  obtain ⟨t, ev⟩ := e
  cases ev with
  | input full seg => exact waiting_input hk hw
  | send buf => exact waiting_sendCopy hk hw
  | sweep | recv | shutdown | closeBegin | closeEnd => exact iff_of_true (hw.step nofun nofun) rfl

theorem waiting_of_started (h : Started link c) : c.Waiting := by
  cases h with
  | connect | child => exact fun _ _ _ => armed_armRto

-- A sender is never left with nothing to wait for, exactly as long as no event stalls it.
theorem waits_iff_never_stalls (h : Started link c) {events : List (ℕ × Event)}
    (hout : Allowed (step link) (fun c e => c.handedOut e.2 = true) c events) :
    Always (step link) (Waits link) c events ↔
      Allowed (step link) (fun c e => c.stalls link e.2 = false) c events := by
  have hstep : ∀ (c : Conn) (e : ℕ × Event), c.Kept ∧ c.Waiting → c.handedOut e.2 = true →
      c.stalls link e.2 = false → (c.step link e).Kept ∧ (c.step link e).Waiting :=
    fun c e hinv hok hno => ⟨hinv.1.step hok, (waiting_step hinv.1 hinv.2).mpr hno⟩
  apply always_iff_allowed hstep
  · exact fun c hinv => waits_iff.mpr hinv.2
  · exact fun c e hinv _ hP => (waiting_step hinv.1 hinv.2).mp (waits_iff.mp hP)
  · exact ⟨kept_of_started h, waiting_of_started h⟩
  · exact hout

def openedRun : List (ℕ × Event) := [
  (2, .input false (ackOf 0x12001 2)), (3, .send [1, 2, 3, 4]), (4, .input false (ackOf 0x12003 0)),
  (500000000, .sweep), (500000001, .input false (ackOf 0x12005 100)), (500000002, .shutdown)]

theorem openedRun_waits : Always (step fun _ => true) (Waits fun _ => true) (passive 2) openedRun :=
  (waits_iff_never_stalls (.child ..) (by decide +kernel)).mpr (by decide +kernel)

-- The window is shut when the first byte is queued: no timer runs, the probe sends nothing.
def shutRun : List (ℕ × Event) := [(2, .input false (ackOf 0x12001 0)), (3, .send [1])]

theorem shutRun_stalls :
    Allowed (step fun _ => true) (fun c e => c.handedOut e.2 = true) (passive 0) shutRun ∧
      ¬ Always (step fun _ => true) (Waits fun _ => true) (passive 0) shutRun := by
  refine ⟨by decide +kernel, fun h => ?_⟩
  have hw := waits_iff.mp h.2.2 (by decide +kernel) (by decide +kernel) (by decide +kernel)
  exact absurd hw (by decide +kernel)

end DosKernel.Net.Tcp.Conn

import DosKernel.Net.Tcp.Kept
import DosKernel.Net.Tcp.Table

namespace DosKernel.Net.Tcp.Conn

variable {link : Link} {now : ℕ} {c : Conn} {seg : Segment} {full : Bool}

def mark (c : Conn) : Bool × Option ℕ × ℕ × List ℕ × Bool :=
  (c.listener, c.parent, c.backlog, c.aq, c.orphan)

section Mark

variable {c' : Conn} (h : c'.mark = c.mark)

include h

theorem mark_listener : c'.listener = c.listener := congrArg Prod.fst h

theorem mark_parent : c'.parent = c.parent := congrArg (fun m => m.2.1) h

theorem mark_backlog : c'.backlog = c.backlog := congrArg (fun m => m.2.2.1) h

theorem mark_aq : c'.aq = c.aq := congrArg (fun m => m.2.2.2.1) h

theorem mark_orphan : c'.orphan = c.orphan := congrArg (fun m => m.2.2.2.2) h

end Mark

theorem Sent.mark {c' : Conn} (h : Sent c c') : c'.mark = c.mark := (congrArg Conn.mark h :)

theorem Acked.mark {c' : Conn} (h : Acked c c') : c'.mark = c.mark := (congrArg Conn.mark h :)

theorem Received.mark {c' : Conn} (h : Received c c') : c'.mark = c.mark :=
  (congrArg Conn.mark h :)

variable (link now c full seg) in
theorem acknowledge_mark : (c.acknowledge link now full seg).mark = c.mark ∧
    (c.acknowledge link now full seg).lingerDeadline = c.lingerDeadline := by
  have hacked := acked_ackWindow link now c seg
  refine acknowledge_rule (P := fun a => a.mark = c.mark ∧ a.lingerDeadline = c.lingerDeadline)
    (fun _ => ⟨rfl, rfl⟩) (fun _ => ⟨hacked.mark, hacked.lingerDeadline⟩) (fun _ => id)
    (fun {a} h => ?_) id
  have hem := (emitted_emit link (c := a) a.sndNxt { rst := true } []).sent
  exact ⟨hem.mark.trans h.1, hem.lingerDeadline.trans h.2⟩

theorem mark_conclude : (c.conclude link now seg).mark = c.mark ∧
    (c.conclude link now seg).used = c.used := by
  refine conclude_rule (P := fun a => a.mark = c.mark ∧ a.used = c.used) ⟨rfl, rfl⟩ ⟨rfl, rfl⟩
    (fun {a} h => ?_) (fun _ _ => ⟨rfl, rfl⟩) (fun _ _ => id) id
  have hem := (emitted_emitAck link a).sent
  exact ⟨hem.mark.trans h.1, hem.used.trans h.2⟩

variable (link now c full seg) in
theorem mark_input : (c.input link now full seg).mark = c.mark := by
  refine input_rule (P := fun a => a.mark = c.mark) rfl rfl (fun _ _ _ => ?_) fun _ => ?_
  · exact sent_output.mark.trans (emitted_emitAck link (c.connected seg)).sent.mark
  · exact mark_conclude.1.trans (acknowledge_mark ..).1

variable (link now c) in
theorem mark_sweep : (c.sweep link now).mark = c.mark := by
  refine sweep_rule (P := fun a => a.mark = c.mark) rfl rfl ?_ id fun _ => id
  exact (sent_resend link ({ c with retries := c.retries + 1 } : Conn)).mark

theorem synRcvd_conclude (h : (c.conclude link now seg).state = .synRcvd) :
    c.state = .synRcvd := by
  refine conclude_rule (P := fun a => a.state = .synRcvd → c.state = .synRcvd) id
    (fun h => ?_) (fun {a} ha hs => ?_) (fun _ _ => id) (fun _ _ => id) (fun {a} ha hs => ha ?_) h
  · cases h
  · exact ha ((emitted_emitAck link a).sent.state.symm.trans hs)
  · change closing a.state = _ at hs
    cases hst : a.state <;> rw [hst] at hs <;> first | rfl | cases hs

variable (link now seg full) in
theorem acknowledge_other (h : c.state ≠ .synRcvd) :
    (c.acknowledge link now full seg).used = c.used ∧
      (c.acknowledge link now full seg).state ≠ .synRcvd := by
  have hacked := acked_ackWindow link now c seg
  unfold acknowledge
  split
  · unfold takeAck
    rw [establish_fields.2.2 (hacked.state ▸ h), ackFin1_fields.2.1]
    refine ⟨hacked.used, ?_⟩
    unfold ackFin1
    split
    · exact fun h => by cases h
    · exact hacked.state ▸ h
  · exact ⟨rfl, h⟩

variable (link now full seg) in
theorem input_other (h : c.state ≠ .synRcvd) : (c.input link now full seg).used = c.used ∧
    (c.input link now full seg).state ≠ .synRcvd := by
  refine input_rule (P := fun a => a.used = c.used ∧ a.state ≠ .synRcvd) ⟨rfl, h⟩
    ⟨rfl, fun h => by cases h⟩ (fun _ _ _ => ?_) fun _ => ?_
  · have hem := emitted_emitAck link (c.connected seg)
    refine ⟨sent_output.used.trans hem.sent.used, fun hs => ?_⟩
    cases hem.sent.state.symm.trans (sent_output.state.symm.trans hs)
  · obtain ⟨hused, hst⟩ := acknowledge_other link now seg full h
    exact ⟨mark_conclude.2.trans hused, fun hs => hst (synRcvd_conclude hs)⟩

structure Half (c : Conn) : Prop where
  state : c.state = .synRcvd
  listener : c.listener = false
  orphan : c.orphan = false
  parent : c.parent.isSome = true
  tx : c.tx = []
  syn : c.sndNxt = c.sndUna + 1
  armed : c.armed = true

theorem Half.inflight (h : c.Half) : c.inflight = 1 := by
  unfold Conn.inflight
  rw [h.syn]
  bv_omega

theorem Half.modest (h : c.Half) : c.Modest := by
  have := h.inflight
  exact ⟨by simp [h.tx], by omega⟩

theorem Half.marked {c' : Conn} (h : c.Half) (hm : c'.mark = c.mark) (hst : c'.state = c.state)
    (htx : c'.tx = c.tx) (hnxt : c'.sndNxt = c.sndNxt) (huna : c'.sndUna = c.sndUna)
    (harm : c'.armed = true) : c'.Half :=
  ⟨hst.trans h.state, (mark_listener hm).trans h.listener, (mark_orphan hm).trans h.orphan,
    mark_parent hm ▸ h.parent, htx.trans h.tx, by rw [hnxt, huna, h.syn], harm⟩

variable (link now seg) in
theorem Half.ackWindow (h : c.Half) :
    (c.ackWindow link now seg).sndNxt = seg.ack ∧ seqLeq c.sndNxt seg.ack = true ∨
      (c.ackWindow link now seg).Half ∧ (c.ackWindow link now seg).sndNxt = c.sndNxt := by
  rw [sndNxt_ackWindow (h.state ▸ rfl)]
  by_cases hnew : (c.pullNxt seg).acksNew seg = true
  · left
    have hflight := h.inflight
    rw [seqLeq_iff]
    rw [pullNxt_eq] at hnew ⊢
    split at hnew
    next hpull =>
      rw [if_pos hpull, hpull]
      exact ⟨rfl, by bv_omega⟩
    next hpull =>
      rw [if_neg hpull]
      obtain ⟨hpos, hle⟩ := (acksNew_iff h.modest).mp hnew
      have hsyn := h.syn
      have heq : c.sndNxt = seg.ack := by bv_omega
      exact ⟨heq, .inl (by simp [heq])⟩
  · right
    have hold := pullNxt_of_old h.modest hnew
    refine ⟨ackWindow_rule (fun _ => hold.symm ▸ h) (fun hn => absurd hn hnew)
      (fun ha => ha.marked rfl rfl rfl rfl rfl armed_armRto)
      (fun ha => ha.marked rfl rfl rfl rfl rfl ha.armed) fun {a} ha => ?_, by rw [hold]⟩
    rwa [output_idle fun hs => by cases (ha.state ▸ hs.sends : TcpState.synRcvd.sends = true)]

theorem completes_eq (hst : c.state = .synRcvd) (hrst : seg.flags.rst = false) :
    c.completes link now seg =
      (seg.flags.ack && seqLeq (c.ackWindow link now seg).sndNxt seg.ack) := by
  simp [completes, hst, hrst]

variable (full) in
theorem Half.completed (h : c.Half) (hc : c.completes link now seg = true) :
    if full then (c.input link now full seg).used = false
    else (c.input link now full seg).used = c.used ∧
      (c.input link now full seg).state ≠ .synRcvd := by
  simp only [completes, Bool.and_eq_true, decide_eq_true_eq, Bool.not_eq_true'] at hc
  obtain ⟨⟨⟨hst, hrst⟩, hack⟩, hleq⟩ := hc
  have hacked := acked_ackWindow link now c seg
  have hpar : (c.ackWindow link now seg).parent.isSome = true := hacked.parent ▸ h.parent
  have hin : c.input link now full seg = (c.takeAck link now full seg).conclude link now seg := by
    rw [input, if_neg (by simp [hrst]), if_neg (by simp [hst]), acknowledge, if_pos hack]
  have hest : (c.ackWindow link now seg).state = .synRcvd := hacked.state.trans hst
  rw [hin, mark_conclude.2, takeAck, ackFin1_fields.2.1]
  generalize c.ackWindow link now seg = a at hest hleq hpar hacked
  cases full with
  | true =>
    have hfree : (a.establish link true seg).used = false := by
      rw [establish, if_pos ⟨hest, hleq⟩]
      simp only [hpar, Bool.and_self, if_true]
      rfl
    exact hfree
  | false =>
    have hestab : a.establish link false seg =
        { a with state := .established, rtoDeadline := 0 } := by
      rw [establish, if_pos ⟨hest, hleq⟩]
      simp only [Bool.and_false, Bool.false_eq_true, if_false]
    rw [if_neg Bool.false_ne_true, hestab]
    refine ⟨hacked.used, fun hs => ?_⟩
    have hs' := synRcvd_conclude hs
    unfold ackFin1 at hs'
    split at hs' <;> cases hs'

variable (full) in
theorem Half.continued (h : c.Half) (hrst : seg.flags.rst = false)
    (hc : c.completes link now seg = false) : (c.input link now full seg).Half := by
  rw [completes_eq h.state hrst] at hc
  obtain ⟨a, heq, ha⟩ : ∃ a, c.acknowledge link now full seg = a ∧ a.Half := by
    unfold acknowledge
    split
    next hack =>
      rw [hack, Bool.true_and] at hc
      obtain ⟨hnxt, -⟩ | ⟨hw, -⟩ := h.ackWindow link now seg
      · rw [hnxt, seqLeq_iff.mpr (by simp)] at hc
        cases hc
      · refine ⟨_, ?_, hw⟩
        have hne : ¬ ((c.ackWindow link now seg).state = .synRcvd ∧
            seqLeq (c.ackWindow link now seg).sndNxt seg.ack = true) := by simp [hc]
        have hfin : ¬ ((c.ackWindow link now seg).state = .finWait1 ∧
            (c.ackWindow link now seg).finAcked seg = true) := by simp [hw.state]
        rw [takeAck, establish, if_neg hne, ackFin1, if_neg hfin]
    · exact ⟨c, rfl, h⟩
  have hin : c.input link now full seg = a.conclude link now seg := by
    rw [input, if_neg (by simp [hrst]), if_neg (by simp [h.state]), heq]
  have hlast : ¬ (seg.flags.ack = true ∧ a.state = .lastAck ∧ a.finAcked seg = true) := by
    simp [ha.state]
  have hr : Received a ((a.takeData link seg).takeFin link now seg) :=
    received_takeData.trans received_takeFin
  rw [hin, conclude, if_neg hlast]
  refine ha.marked hr.mark ?_ hr.tx hr.sndNxt hr.sndUna (hr.armed ▸ ha.armed)
  rw [state_received, ha.state]
  split <;> rfl

theorem linger_input (h : c.lingerDeadline ≠ 0) :
    (c.input link now full seg).lingerDeadline ≠ 0 := by
  refine input_rule (P := fun a => a.lingerDeadline ≠ 0) h h (fun _ _ _ => ?_) fun _ => ?_
  · have hem := emitted_emitAck link (c.connected seg)
    rw [sent_output.lingerDeadline, hem.sent.lingerDeadline]
    exact h
  · have hack : (c.acknowledge link now full seg).lingerDeadline ≠ 0 :=
      (acknowledge_mark link now c seg full).2 ▸ h
    refine conclude_rule (P := fun a => a.lingerDeadline ≠ 0) hack hack (fun ha => ?_)
      (fun _ _ => hack) (fun _ _ => id) fun {a} ha => ?_
    · rw [(emitted_emitAck ..).sent.lingerDeadline]
      exact ha
    · show (if _ then _ else a.lingerDeadline) ≠ 0
      split
      · simp only [nsPerMs, tcpTimeWaitMs, ne_eq, Nat.add_eq_zero_iff]
        omega
      · exact ha

variable (link now c) in
theorem sweep_fields : (c.orphan = false → (c.sweep link now).used = c.used) ∧
    ((c.sweep link now).used = true → c.used = true) ∧
    ((c.sweep link now).state = c.state ∨ (c.sweep link now).state = .closed) ∧
    (c.sweep link now).lingerDeadline = c.lingerDeadline := by
  have hsent := sent_resend link ({ c with retries := c.retries + 1 } : Conn)
  refine (sweep_rule (P := fun a => a.orphan = c.orphan ∧ (c.orphan = false → a.used = c.used) ∧
    (a.used = true → c.used = true) ∧ (a.state = c.state ∨ a.state = .closed) ∧
    a.lingerDeadline = c.lingerDeadline) ?_ ?_ ?_ (fun ha => ?_) fun ho ha => ?_).2
  · exact ⟨rfl, fun _ => rfl, id, .inl rfl, rfl⟩
  · exact ⟨rfl, fun _ => rfl, id, .inr rfl, rfl⟩
  · exact ⟨hsent.orphan, fun _ => hsent.used, fun hu => hsent.used.symm.trans hu, .inl hsent.state,
      hsent.lingerDeadline⟩
  · exact ⟨ha.1, ha.2.1, ha.2.2.1, .inr rfl, ha.2.2.2.2⟩
  · refine ⟨ha.1, fun hc => ?_, fun hu => ?_, .inr rfl, ha.2.2.2.2⟩
    · cases (ho.symm.trans ha.1).trans hc
    · cases hu

variable (link now) in
theorem Half.sweep (h : c.Half) (hused : c.used = true) :
    if c.due now = true ∧ tcpRetriesMax ≤ c.retries then (c.sweep link now).state = .closed
    else (c.sweep link now).Half := by
  have hlive : ¬ (!c.used || c.listener) = true := by simp [hused, h.listener]
  have hreclaim : ∀ {a : Conn}, a.state = .synRcvd → a.orphan = false → a.reclaim now = a := by
    intro a hst horph
    rw [reclaim, if_neg (by simp [hst]), if_neg (by simp [horph])]
  unfold Conn.sweep
  split
  next hdead =>
    rw [if_pos hdead.1, if_pos (Nat.lt_succ_of_le hdead.2)]
  next hkeep =>
    split
    next hdue =>
      rw [if_neg fun hr => hkeep ⟨hdue, Nat.le_of_lt_succ hr⟩]
      have hres : ({ c with retries := c.retries + 1 } : Conn).resend link =
          (({ c with retries := c.retries + 1 } : Conn).emit link c.sndUna
            { syn := true, ack := true } []).2 := by
        rw [resend, if_neg (by simp [h.state]), if_pos h.state]
      have hem := emitted_emit link (c := { c with retries := c.retries + 1 }) c.sndUna
        { syn := true, ack := true } []
      rw [hres]
      generalize (({ c with retries := c.retries + 1 } : Conn).emit link c.sndUna
            { syn := true, ack := true } []).2 = a at hem
      have hb : (a.backoff now).Half := h.marked hem.sent.mark hem.sent.state
        hem.sent.tx hem.sndNxt hem.sent.sndUna armed_backoff
      rw [hreclaim hb.state hb.orphan]
      exact hb
    · rw [hreclaim h.state h.orphan]
      exact h

structure SlotOk (c : Conn) (owned : Bool) : Prop where
  held : owned = true → c.used = true ∧ c.orphan = false ∧ c.state ≠ .synRcvd
  listening : c.used = true → c.listener = true → c.orphan = false ∧ c.parent = none
  backlog : c.used = true → c.listener = false → c.backlog = 0 ∧ c.aq = []
  half : c.used = true → c.state = .synRcvd → c.Half
  lingers : c.orphan = true → c.lingerDeadline ≠ 0

variable {owned : Bool}

theorem SlotOk.input (h : c.SlotOk owned) (hused : c.used = true) (hl : c.listener = false) :
    (c.input link now full seg).SlotOk owned := by
  have hm := mark_input link now c seg full
  have hl' := (mark_listener hm).trans hl
  refine ⟨fun ho => ?_, fun _ hlis => ?_, fun _ _ => ?_,
    fun hu hs => ?_, fun ho => linger_input (h.lingers (mark_orphan hm ▸ ho))⟩
  · obtain ⟨hu, horph, hst⟩ := h.held ho
    obtain ⟨hu', hst'⟩ := input_other link now seg full hst
    exact ⟨hu'.trans hu, (mark_orphan hm).trans horph, hst'⟩
  · rw [hl'] at hlis
    cases hlis
  · rw [mark_backlog hm, mark_aq hm]
    exact h.backlog hused hl
  · by_cases hst : c.state = .synRcvd
    swap
    · exact absurd hs (input_other link now seg full hst).2
    have hhalf := h.half hused hst
    cases hrst : seg.flags.rst with
    | true =>
      rw [Conn.input, if_pos hrst] at hs
      cases hs
    | false =>
      cases hc : c.completes link now seg with
      | false => exact hhalf.continued full hrst hc
      | true =>
        have hdone := hhalf.completed full hc
        cases full with
        | true => cases hdone.symm.trans hu
        | false => exact absurd hs hdone.2

theorem SlotOk.sweep (h : c.SlotOk owned) : (c.sweep link now).SlotOk owned := by
  have hm := mark_sweep link now c
  obtain ⟨hkeep, hused, hstate, hlinger⟩ := sweep_fields link now c
  refine ⟨fun ho => ?_, fun hu hl => ?_, fun hu hl => ?_, fun hu hs => ?_, fun ho => ?_⟩
  · obtain ⟨hu, horph, hst⟩ := h.held ho
    refine ⟨(hkeep horph).trans hu, (mark_orphan hm).trans horph, fun hs => ?_⟩
    obtain hst' | hst' := hstate
    · exact hst (hst'.symm.trans hs)
    · cases hst'.symm.trans hs
  · rw [mark_orphan hm, mark_parent hm]
    exact h.listening (hused hu) (mark_listener hm ▸ hl)
  · rw [mark_backlog hm, mark_aq hm]
    exact h.backlog (hused hu) (mark_listener hm ▸ hl)
  · have hst : c.state = .synRcvd := by
      obtain hst | hst := hstate
      · exact hst.symm.trans hs
      · cases hst.symm.trans hs
    have hsw := (h.half (hused hu) hst).sweep link now (hused hu)
    split at hsw
    · cases hsw.symm.trans hs
    · exact hsw
  · rw [hlinger]
    exact h.lingers (mark_orphan hm ▸ ho)

variable (link) in
theorem call_fields {e : ℕ × Event} (hcall : e.2.isCall = true) (hlast : e.2.isLast = false) :
    (c.step link e).mark = c.mark ∧ (c.step link e).used = c.used ∧
      ((c.step link e).state = .synRcvd → c.state = .synRcvd) := by
  let P (a : Conn) : Prop :=
    a.mark = c.mark ∧ a.used = c.used ∧ (a.state = .synRcvd → c.state = .synRcvd)
  have hsent : ∀ {a a' : Conn}, Sent a a' → P a → P a' := fun hs ha =>
    ⟨hs.mark.trans ha.1, hs.used.trans ha.2.1, fun h => ha.2.2 (hs.state.symm.trans h)⟩
  have hask : c.askFin.state = .synRcvd → c.state = .synRcvd :=
    askFin_rule (P := (· = .synRcvd → _)) nofun nofun
  refine step_rule (P := P) ⟨rfl, rfl, id⟩ (fun hev => ?_) (fun hev => ?_) (fun {buf} _ => ?_)
    ⟨rfl, rfl, id⟩ (fun ha => hsent (emitted_emitAck ..).sent ha)
    (fun _ => hsent (a := c.askFin) sent_output ⟨rfl, rfl, hask⟩) fun hev => ?_
  · cases hev ▸ hcall
  · cases hev ▸ hcall
  · simp only [sendCopy]
    split
    · exact ⟨rfl, rfl, id⟩
    · exact hsent (a := c.queue _) sent_output ⟨rfl, rfl, id⟩
  · cases hev ▸ hlast

variable (link) in
theorem call_kin {e : ℕ × Event} (hcall : e.2.isCall = true) :
    (c.step link e).listener = c.listener ∧ (c.step link e).parent = c.parent ∧
      ((c.step link e).used = true → c.used = true) := by
  cases hlast : e.2.isLast with
  | false =>
    obtain ⟨hm, hused, -⟩ := call_fields link (c := c) hcall hlast
    exact ⟨mark_listener hm, mark_parent hm, fun hu => hused.symm.trans hu⟩
  | true =>
    obtain ⟨t, ev⟩ := e
    obtain rfl : ev = .closeEnd := by cases ev <;> first | rfl | cases hlast
    simp only [step, closeEnd]
    split
    · exact ⟨rfl, rfl, fun hu => by cases hu⟩
    · exact ⟨rfl, rfl, id⟩

theorem slotOk_of_free (hused : c.used = false)
    (hlinger : c.orphan = true → c.lingerDeadline ≠ 0) : c.SlotOk false := by
  refine ⟨fun hf => ?_, fun hu => ?_, fun hu => ?_, fun hu => ?_, hlinger⟩
  · cases hf
  all_goals cases hused.symm.trans hu

theorem SlotOk.call {e : ℕ × Event} (h : c.SlotOk true) (hl : c.listener = false)
    (hcall : e.2.isCall = true) : (c.step link e).SlotOk (!e.2.isLast) := by
  obtain ⟨hu, horph, hst⟩ := h.held rfl
  cases hlast : e.2.isLast with
  | false =>
    obtain ⟨hm, hused, hstate⟩ := call_fields link (c := c) hcall hlast
    refine ⟨fun _ => ⟨hused.trans hu, (mark_orphan hm).trans horph, fun hs => hst (hstate hs)⟩,
      fun _ hlis => ?_, fun _ _ => ?_, fun _ hs => (hst (hstate hs)).elim, fun ho => ?_⟩
    · cases hl.symm.trans ((mark_listener hm).symm.trans hlis)
    · rw [mark_backlog hm, mark_aq hm]
      exact h.backlog hu hl
    · cases horph.symm.trans ((mark_orphan hm).symm.trans ho)
  | true =>
    obtain ⟨t, ev⟩ := e
    obtain rfl : ev = .closeEnd := by cases ev <;> first | rfl | cases hlast
    show (c.closeEnd t).SlotOk false
    unfold closeEnd
    split
    · exact slotOk_of_free rfl h.lingers
    · refine ⟨fun hf => (by cases hf), fun _ hlis => ?_, fun _ _ => h.backlog hu hl,
        fun _ hs => (hst hs).elim, fun _ => ?_⟩
      · cases hl.symm.trans hlis
      · simp only [nsPerMs, tcpOrphanMs, ne_eq, Nat.add_eq_zero_iff]
        omega

theorem slotOk_listenConn {ip port : ℕ} {backlog : ℤ} :
    (listenConn ip port backlog).SlotOk true where
  held _ := ⟨rfl, rfl, fun h => by cases h⟩
  listening _ _ := ⟨rfl, rfl⟩
  backlog _ hl := by cases hl
  half _ hs := by cases hs
  lingers ho := by cases ho

theorem SlotOk.sent {c' : Conn} (h : c.SlotOk owned) (hs : Sent c c')
    (hhalf : c'.used = true → c'.state = .synRcvd → c'.Half) : c'.SlotOk owned where
  held := by
    rw [hs.used, hs.orphan, hs.state]
    exact h.held
  listening := by
    rw [hs.used, hs.listener, hs.orphan, hs.parent]
    exact h.listening
  backlog := by
    rw [hs.used, hs.listener, hs.backlog, hs.aq]
    exact h.backlog
  half := hhalf
  lingers := by
    rw [hs.orphan, hs.lingerDeadline]
    exact h.lingers

variable {dev : Device} {isn : Seq} {localIp localPort ip port l : ℕ}

theorem slotOk_connectConn :
    (connectConn link now dev isn localIp localPort ip port).SlotOk true := by
  unfold connectConn
  refine SlotOk.sent ?_ (sent_sendSyn ..) fun _ hs => ?_
  · exact ⟨fun _ => ⟨rfl, rfl, fun h => by cases h⟩, fun _ hl => (by cases hl),
      fun _ _ => ⟨rfl, rfl⟩, fun _ hs => (by cases hs), fun ho => by cases ho⟩
  · rw [(sent_sendSyn ..).state] at hs
    cases hs

theorem half_sendSyn {flags : Flags} (hst : c.state = .synRcvd) (hl : c.listener = false)
    (ho : c.orphan = false) (hp : c.parent.isSome = true) (htx : c.tx = [])
    (huna : c.sndUna = c.sndNxt) : (c.sendSyn link now flags).Half := by
  have hs := sent_sendSyn link now c flags
  exact ⟨hs.state.trans hst, hs.listener.trans hl, hs.orphan.trans ho, hs.parent ▸ hp,
    hs.tx.trans htx, congrArg (· + 1) (huna.symm.trans hs.sndUna.symm), armed_armRto⟩

theorem Half.slotOk (h : c.Half) (hb : c.backlog = 0 ∧ c.aq = []) : c.SlotOk false := by
  refine ⟨fun hf => ?_, fun _ hl => ?_, fun _ _ => hb, fun _ _ => h, fun ho => ?_⟩
  · cases hf
  · cases h.listener.symm.trans hl
  · cases h.orphan.symm.trans ho

theorem half_childConn : (childConn link now dev isn localIp localPort ip port l seg).Half :=
  half_sendSyn rfl rfl rfl rfl rfl rfl

variable (link now) in
theorem quiet_sendSyn {flags : Flags} (h : c.backlog = 0 ∧ c.aq = []) :
    (c.sendSyn link now flags).backlog = 0 ∧ (c.sendSyn link now flags).aq = [] := by
  have hs := sent_sendSyn link now c flags
  exact ⟨hs.backlog.trans h.1, hs.aq.trans h.2⟩

theorem quiet_childConn :
    (childConn link now dev isn localIp localPort ip port l seg).backlog = 0 ∧
      (childConn link now dev isn localIp localPort ip port l seg).aq = [] :=
  quiet_sendSyn link now ⟨rfl, rfl⟩

theorem parent_childConn :
    (childConn link now dev isn localIp localPort ip port l seg).parent = some l := by
  unfold childConn
  exact (sent_sendSyn ..).parent

theorem parent_connectConn :
    (connectConn link now dev isn localIp localPort ip port).parent = none ∧
      (connectConn link now dev isn localIp localPort ip port).orphan = false := by
  unfold connectConn
  exact ⟨(sent_sendSyn ..).parent, (sent_sendSyn ..).orphan⟩

theorem slotOk_childConn :
    (childConn link now dev isn localIp localPort ip port l seg).SlotOk false :=
  half_childConn.slotOk quiet_childConn

end DosKernel.Net.Tcp.Conn

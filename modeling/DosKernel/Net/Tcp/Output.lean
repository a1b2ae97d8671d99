import DosKernel.Lib.Run
import DosKernel.Lib.Serial
import DosKernel.Net.Tcp.Calls

namespace DosKernel.Net.Tcp

open DosKernel.Lib

theorem Device.mss_pos (dev : Device) : 0 < dev.mss := by
  have := dev.big
  simp only [mss, tcpMssCap]
  omega

theorem seqGt_iff {a b : Seq} :
    seqGt a b = true ↔ 0 < (a - b).toNat ∧ (a - b).toNat < 2147483648 := slt_zero_iff

theorem seqLeq_iff {a b : Seq} :
    seqLeq a b = true ↔ (a - b).toNat = 0 ∨ 2147483648 ≤ (a - b).toNat := sle_zero_iff

end DosKernel.Net.Tcp

namespace DosKernel.Net.Tcp.Conn

open DosKernel.Lib

variable {link : Link} {now : ℕ} {c c' c'' : Conn} {seg : Segment}

def unlogged (c : Conn) : Conn := { c with txSegs := 0, wire := [] }

def unsent (c : Conn) : Conn :=
  { c.unlogged with sndNxt := 0, finSent := false, finSeq := 0, rtoDeadline := 0, rtoMs := 0 }

def Emitted (c c' : Conn) : Prop := c'.unlogged = c.unlogged

def Sent (c c' : Conn) : Prop := c'.unsent = c.unsent

namespace Sent

theorem refl (c : Conn) : Sent c c := rfl

theorem trans (h : Sent c c') (h' : Sent c' c'') : Sent c c'' := Eq.trans h' h

variable (h : Sent c c')

include h

theorem used : c'.used = c.used := (congrArg Conn.used h :)
theorem listener : c'.listener = c.listener := (congrArg Conn.listener h :)
theorem state : c'.state = c.state := (congrArg Conn.state h :)
theorem finPending : c'.finPending = c.finPending := (congrArg Conn.finPending h :)
theorem orphan : c'.orphan = c.orphan := (congrArg Conn.orphan h :)
theorem peerFin : c'.peerFin = c.peerFin := (congrArg Conn.peerFin h :)
theorem reset : c'.reset = c.reset := (congrArg Conn.reset h :)
theorem dev : c'.dev = c.dev := (congrArg Conn.dev h :)
theorem sndUna : c'.sndUna = c.sndUna := (congrArg Conn.sndUna h :)
theorem tx : c'.tx = c.tx := (congrArg Conn.tx h :)
theorem rcvNxt : c'.rcvNxt = c.rcvNxt := (congrArg Conn.rcvNxt h :)
theorem rx : c'.rx = c.rx := (congrArg Conn.rx h :)
theorem lingerDeadline : c'.lingerDeadline = c.lingerDeadline := (congrArg Conn.lingerDeadline h :)
theorem aq : c'.aq = c.aq := (congrArg Conn.aq h :)
theorem backlog : c'.backlog = c.backlog := (congrArg Conn.backlog h :)
theorem parent : c'.parent = c.parent := (congrArg Conn.parent h :)

end Sent

namespace Emitted

variable (h : Emitted c c')

include h

theorem sent : Sent c c' := by
  show c'.unlogged.unsent = c.unlogged.unsent
  rw [show c'.unlogged = c.unlogged from h]

theorem sndNxt : c'.sndNxt = c.sndNxt := (congrArg Conn.sndNxt h :)
theorem finSent : c'.finSent = c.finSent := (congrArg Conn.finSent h :)
theorem rtoDeadline : c'.rtoDeadline = c.rtoDeadline := (congrArg Conn.rtoDeadline h :)
end Emitted

variable (link) in
theorem emitted_emit (seq : Seq) (flags : Flags) (data : List Byte) :
    Emitted c (c.emit link seq flags data).2 := by
  unfold emit
  split
  · exact rfl
  · dsimp only
    split <;> exact rfl

variable (link c) in
theorem emitted_emitAck : Emitted c (c.emitAck link) := emitted_emit ..

def segment (c : Conn) (seq : Seq) (flags : Flags) (data : List Byte) : Segment :=
  { seq := seq, ack := c.rcvNxt, flags := flags, window := min c.rx.free 65535, data := data }

def logged (c : Conn) (seg : Segment) : Conn :=
  { c with txSegs := c.txSegs + 1, wire := c.wire ++ [seg] }

def lost (c : Conn) : Conn := { c with txSegs := c.txSegs + 1 }

variable (link) in
theorem emit_eq (h : c.dev.isSome = true) (seq : Seq) (flags : Flags) (data : List Byte) :
    c.emit link seq flags data =
      if link c.txSegs then (true, c.logged (c.segment seq flags data)) else (false, c.lost) := by
  obtain ⟨dev, hdev⟩ := Option.isSome_iff_exists.mp h
  unfold emit
  split
  next hnone =>
    cases hdev.symm.trans hnone
  · rfl

structure Round (c : Conn) (n : ℕ) : Prop where
  queued : c.inflight + n ≤ c.tx.length
  pos : 0 < n

def sendData (c : Conn) (n : ℕ) : Conn :=
  { c.logged (c.segment c.sndNxt { psh := true, ack := true } ((c.tx.drop c.inflight).take n)) with
    sndNxt := c.sndNxt + BitVec.ofNat 32 n }

theorem outputLoop_inv {dev : Device} {fuel : ℕ} {P : Conn → Prop} (hdev : c.dev.isSome = true)
    (hc : P c) (hsend : ∀ {a : Conn} {n}, P a → Round a n → n ≤ dev.mss → P (a.sendData n))
    (hlose : ∀ {a : Conn}, P a → P a.lost) : P (c.outputLoop link dev.mss fuel) := by
  have hmss := dev.mss_pos
  induction fuel generalizing c with
  | zero => exact hc
  | succ fuel ih =>
    unfold outputLoop
    split
    · exact hc
    split
    · exact hc
    dsimp only
    rw [emit_eq link hdev]
    cases hl : link c.txSegs with
    | true =>
      exact ih hdev (hsend hc ⟨by omega, by omega⟩ (by omega))
    | false =>
      exact hlose hc

structure Sending (c : Conn) : Prop where
  used : c.used = true
  sends : c.state.sends = true
  dev : c.dev.isSome = true

variable (link now) in
theorem output_eq (h : c.Sending) : ∃ dev : Device, c.output link now =
    ((c.outputLoop link dev.mss c.tx.length).outputFin link).armOutstanding now := by
  obtain ⟨dev, hdev⟩ := Option.isSome_iff_exists.mp h.dev
  refine ⟨dev, ?_⟩
  simp only [output, hdev, h.used, h.sends, Bool.and_self, if_true]

theorem output_idle (h : ¬ c.Sending) : c.output link now = c := by
  unfold output
  split
  · rfl
  rename_i dev hdev
  split
  next hs =>
    rw [Bool.and_eq_true] at hs
    exact absurd ⟨hs.1, hs.2, by simp [hdev]⟩ h
  · rfl

def finOut (c : Conn) (link : Link) : Conn :=
  { (c.emit link c.sndNxt { fin := true, ack := true } []).2 with
    finSent := true, finSeq := c.sndNxt, sndNxt := c.sndNxt + 1 }

theorem outputFin_rule {P : Conn → Prop} (hdev : c.dev.isSome = true) (h : P c) (hlost : P c.lost)
    (hfin : c.finPending = true → c.finSent = false → c.tx.length ≤ c.inflight →
      P (c.finOut link)) : P (c.outputFin link) := by
  unfold outputFin
  split
  next hcond =>
    simp only [Bool.and_eq_true, Bool.not_eq_true', decide_eq_true_eq] at hcond
    have hout := hfin hcond.1.1 hcond.1.2 hcond.2
    unfold finOut at hout
    rw [emit_eq link hdev] at hout ⊢
    cases hl : link c.txSegs with
    | true =>
      rw [hl, if_pos rfl] at hout
      exact hout
    | false => exact hlost
  · exact h

theorem output_rule {P : Conn → Prop} (h : P c)
    (hround : ∀ {a : Conn} {n}, c.Sending → Sent c a → Round a n → P a → P (a.sendData n))
    (hlost : ∀ {a : Conn}, P a → P a.lost)
    (hfin : ∀ {a : Conn}, c.Sending → Sent c a → a.finPending = true → a.finSent = false →
      a.tx.length ≤ a.inflight → P a → P (a.finOut link))
    (harm : ∀ {a : Conn}, P a → P (a.armRto now)) : P (c.output link now) := by
  by_cases hs : c.Sending
  · obtain ⟨dev, heq⟩ := output_eq link now hs
    obtain ⟨hsent, ha⟩ : Sent c (c.outputLoop link dev.mss c.tx.length) ∧
        P (c.outputLoop link dev.mss c.tx.length) :=
      outputLoop_inv (P := fun a => Sent c a ∧ P a) hs.dev ⟨.refl c, h⟩
        (fun ha hr _ => ⟨ha.1.trans rfl, hround hs ha.1 hr ha.2⟩)
        fun ha => ⟨ha.1.trans rfl, hlost ha.2⟩
    rw [heq]
    generalize c.outputLoop link dev.mss c.tx.length = a at hsent ha
    have hout : P (a.outputFin link) :=
      outputFin_rule (hsent.dev ▸ hs.dev) ha (hlost ha) fun hp hns hlen =>
        hfin hs hsent hp hns hlen ha
    exact guard_rule hout fun _ => harm hout
  · rw [output_idle hs]
    exact h

theorem sent_output : Sent c (c.output link now) :=
  output_rule (.refl c) (fun _ _ _ h => h.trans rfl) (fun h => h.trans rfl)
    (fun _ _ _ _ _ h => h.trans ((emitted_emit ..).sent.trans rfl)) fun h => h.trans rfl

theorem resend_rule {P : Conn → Prop} (h : P c)
    (hsyn : ∀ {flags : Flags}, c.state = .synSent ∨ c.state = .synRcvd → flags.fin = false →
      P (c.emit link c.sndUna flags []).2)
    (hback : ∀ {n}, c.tx ≠ [] → n ≤ c.tx.length →
      P { (c.emit link c.sndUna { psh := true, ack := true } (c.tx.take n)).2 with
          sndNxt := if n < c.inflight then c.sndUna + BitVec.ofNat 32 n else c.sndNxt
          finSent := false })
    (hfin : c.finSent = true → P (c.emit link c.finSeq { fin := true, ack := true } []).2) :
    P (c.resend link) := by
  unfold resend
  split
  next hs => exact hsyn (.inl hs) rfl
  split
  next hs => exact hsyn (.inr hs) rfl
  split
  next hne =>
    have hpos := List.length_pos_iff.mpr hne
    exact hback hne (by split <;> omega)
  split
  next hf => exact hfin hf
  · exact h

variable (link c) in
theorem sent_resend : Sent c (c.resend link) :=
  resend_rule (.refl c) (fun _ _ => (emitted_emit ..).sent)
    (fun _ _ => (emitted_emit link c.sndUna { psh := true, ack := true } _).sent.trans rfl)
    fun _ => (emitted_emit ..).sent

theorem armed_armRto : (c.armRto now).armed = true := by
  have hms : 0 < (if c.rtoMs = 0 then tcpRtoInitialMs else c.rtoMs) := by
    split
    · decide
    · omega
  apply decide_eq_true
  simp only [armRto, nsPerMs]
  omega

theorem armed_backoff : (c.backoff now).armed = true := by
  have hms : 0 < min (if c.rtoMs = 0 then tcpRtoInitialMs else c.rtoMs * 2) tcpRtoMaxMs := by
    simp only [tcpRtoInitialMs, tcpRtoMaxMs]
    split <;> omega
  apply decide_eq_true
  simp only [backoff, nsPerMs]
  omega

theorem armed_armOutstanding (h : c.armed = true ∨ c.sndNxt ≠ c.sndUna) :
    (c.armOutstanding now).armed = true := by
  unfold armOutstanding
  split
  · exact armed_armRto
  next hno =>
    obtain h | h := h
    · exact h
    · simpa [armed] using fun hz => hno ⟨h, hz⟩

theorem armed_output (h : c.armed = true) : (c.output link now).armed = true := by
  refine output_rule (P := fun a => a.armed = true) h (fun _ _ _ h => h) id
    (fun {a} _ _ _ _ _ h => ?_) fun _ => armed_armRto
  have hem := emitted_emit link (c := a) a.sndNxt { fin := true, ack := true } []
  rw [armed, finOut, hem.rtoDeadline]
  exact h

theorem armed_output_of_outstanding (h : c.Sending)
    (hne : (c.output link now).sndNxt ≠ (c.output link now).sndUna) :
    (c.output link now).armed = true := by
  obtain ⟨dev, heq⟩ := output_eq link now h
  rw [heq] at hne ⊢
  apply armed_armOutstanding
  refine .inr fun hsame => hne ?_
  unfold armOutstanding
  split <;> exact hsame

structure Modest (c : Conn) : Prop where
  tx : c.tx.length ≤ tcpTxbuf
  flight : c.inflight ≤ max 1 c.tx.length + c.finSent.toNat

theorem Modest.lt (h : c.Modest) : c.inflight ≤ 8194 := by
  have h1 := h.tx
  have h2 := h.flight
  have h3 := c.finSent.toNat_le
  simp only [tcpTxbuf] at h1
  omega

theorem toNat_add_sub {a b : Seq} {n : ℕ} (h : (a - b).toNat + n < 4294967296) :
    (a + BitVec.ofNat 32 n - b).toNat = (a - b).toNat + n := by
  have hsub : a + BitVec.ofNat 32 n - b = (a - b) + BitVec.ofNat 32 n := by bv_omega
  rw [hsub, BitVec.toNat_add, BitVec.toNat_ofNat]
  omega

theorem inflight_eq_zero : c.inflight = 0 ↔ c.sndNxt = c.sndUna := by
  unfold inflight
  bv_omega

theorem inflight_back {n : ℕ} (hs : Sent c c') (htx : c.tx.length ≤ tcpTxbuf)
    (hle : n ≤ c.tx.length) : ({ c' with
      sndNxt := if n < c.inflight then c.sndUna + BitVec.ofNat 32 n else c.sndNxt
      finSent := false } : Conn).inflight ≤ c'.tx.length := by
  show ((if n < c.inflight then c.sndUna + BitVec.ofNat 32 n else c.sndNxt) - c'.sndUna).toNat ≤ _
  simp only [tcpTxbuf] at htx
  rw [hs.sndUna, hs.tx]
  split
  · have hsub : (c.sndUna + BitVec.ofNat 32 n - c.sndUna).toNat = n := by bv_omega
    omega
  · show c.inflight ≤ _
    omega

theorem Modest.sendData {n : ℕ} (h : c.Modest) (hr : Round c n) :
    (c.sendData n).inflight = c.inflight + n ∧ (c.sendData n).Modest := by
  have hq := hr.queued
  have htx := h.tx
  simp only [tcpTxbuf] at htx
  have hadd : (c.sendData n).inflight = c.inflight + n := by
    show (c.sndNxt + BitVec.ofNat 32 n - c.sndUna).toNat = c.inflight + n
    apply toNat_add_sub
    unfold inflight at hq
    omega
  refine ⟨hadd, h.tx, ?_⟩
  show _ ≤ max 1 c.tx.length + _
  omega

variable (link) in
theorem Modest.finOut (h : c.Modest) (hns : c.finSent = false) :
    c.inflight ≤ (c.finOut link).inflight ∧ (c.finOut link).Modest := by
  have hem := (emitted_emit link (c := c) c.sndNxt { fin := true, ack := true } []).sent
  have hlt := h.lt
  have hflight := h.flight
  rw [hns, Bool.toNat_false] at hflight
  have htx : (c.finOut link).tx = c.tx := hem.tx
  have hadd : (c.finOut link).inflight = c.inflight + 1 := by
    show (c.sndNxt + 1 - (c.finOut link).sndUna).toNat = _
    rw [show (c.finOut link).sndUna = c.sndUna from hem.sndUna]
    exact toNat_add_sub (n := 1) (by unfold inflight at hlt; omega)
  refine ⟨by omega, htx ▸ h.tx, ?_⟩
  rw [hadd, htx]
  show _ ≤ max 1 c.tx.length + 1
  omega

variable (link now) in
theorem output_flight (h : c.Modest) :
    c.inflight ≤ (c.output link now).inflight ∧ (c.output link now).Modest := by
  refine output_rule (P := fun a => c.inflight ≤ a.inflight ∧ a.Modest) ⟨le_rfl, h⟩
    (fun _ _ hr ha => ?_) (fun ha => ⟨ha.1, ha.2.tx, ha.2.flight⟩) (fun _ _ _ hns _ ha => ?_)
    fun ha => ⟨ha.1, ha.2.tx, ha.2.flight⟩
  · obtain ⟨hadd, hm⟩ := ha.2.sendData hr
    exact ⟨by omega, hm⟩
  · obtain ⟨hle, hm⟩ := ha.2.finOut link hns
    exact ⟨ha.1.trans hle, hm⟩

theorem ackWindow_rule {P : Conn → Prop}
    (hold : ¬ (c.pullNxt seg).acksNew seg = true → P (c.pullNxt seg))
    (hnew : (c.pullNxt seg).acksNew seg = true → P ((c.pullNxt seg).compact seg))
    (harm : ∀ {a : Conn}, P a → P (a.armRto now))
    (hwnd : ∀ {a : Conn}, P a → P { a with sndWnd := seg.window })
    (hout : ∀ {a : Conn}, P a → P (a.output link now)) : P (c.ackWindow link now seg) := by
  unfold ackWindow ackData rearm
  split_ifs with h
  · exact hout (hwnd (hout (harm (hnew h))))
  · exact hout (hwnd (hout (hnew h)))
  · exact hout (hwnd (hold h))

theorem acknowledge_rule {P : Conn → Prop} {full : Bool} (h : ¬ seg.flags.ack = true → P c)
    (hwin : seg.flags.ack = true → P (c.ackWindow link now seg))
    (hest : ∀ {a : Conn}, a.state = .synRcvd → P a →
      P { a with state := .established, rtoDeadline := 0 })
    (hfull : ∀ {a : Conn}, P a → P (a.emit link a.sndNxt { rst := true } []).2.free)
    (hfin : ∀ {a : Conn}, P a → P { a with state := .finWait2 }) :
    P (c.acknowledge link now full seg) := by
  unfold acknowledge takeAck ackFin1
  split
  next hack =>
    have hdone : P ((c.ackWindow link now seg).establish link full seg) := by
      unfold establish
      split_ifs with hst
      · exact hfull (hest hst.1 (hwin hack))
      · exact hest hst.1 (hwin hack)
      · exact hwin hack
    exact guard_rule hdone fun _ => hfin hdone
  next hno => exact h hno

theorem conclude_rule {P : Conn → Prop} (h : P c)
    (hlast : P { c with state := .closed, rtoDeadline := 0 })
    (hack : ∀ {a : Conn}, P a → P (a.emitAck link))
    (hstore : seg.data ≠ [] → seg.seq = c.rcvNxt → P (c.rxStore seg.data))
    (hseen : ∀ {a : Conn}, seg.flags.fin = true →
      seg.seq + BitVec.ofNat 32 seg.data.length = a.rcvNxt → P a → P a.finSeen)
    (hmove : ∀ {a : Conn}, P a → P (a.moveOn now)) : P (c.conclude link now seg) := by
  have hdata : P (c.takeData link seg) := by
    unfold takeData
    split_ifs with hnil hseq
    · exact h
    · exact hack (hstore hnil hseq)
    · exact hack h
  unfold conclude takeFin
  split_ifs with _ hfin hseq
  · exact hlast
  · exact hdata
  · exact hmove (hack (hseen (by simpa using hfin) hseq hdata))
  · exact hack hdata

theorem input_rule {P : Conn → Prop} {full : Bool} (h : P c) (hrst : P c.inputRst)
    (hconn : c.state = .synSent → seg.flags.syn = true → seg.ack = c.sndNxt →
      P (((c.connected seg).emitAck link).output link now))
    (hrest : c.state ≠ .synSent → P ((c.acknowledge link now full seg).conclude link now seg)) :
    P (c.input link now full seg) := by
  unfold input inputSynSent
  split_ifs with _ hst hsyn
  · exact hrst
  · simp only [Bool.and_eq_true, decide_eq_true_eq] at hsyn
    exact hconn hst hsyn.1.1 hsyn.2
  · exact h
  · exact hrest hst

def unacked (c : Conn) : Conn := { c.unsent with sndUna := 0, sndWnd := 0, tx := [], retries := 0 }

def Acked (c c' : Conn) : Prop := c'.unacked = c.unacked

namespace Acked

theorem trans (h : Acked c c') (h' : Acked c' c'') : Acked c c'' := Eq.trans h' h

variable (h : Acked c c')

include h

theorem used : c'.used = c.used := (congrArg Conn.used h :)
theorem listener : c'.listener = c.listener := (congrArg Conn.listener h :)
theorem state : c'.state = c.state := (congrArg Conn.state h :)
theorem finPending : c'.finPending = c.finPending := (congrArg Conn.finPending h :)
theorem peerFin : c'.peerFin = c.peerFin := (congrArg Conn.peerFin h :)
theorem reset : c'.reset = c.reset := (congrArg Conn.reset h :)
theorem dev : c'.dev = c.dev := (congrArg Conn.dev h :)
theorem rcvNxt : c'.rcvNxt = c.rcvNxt := (congrArg Conn.rcvNxt h :)
theorem rx : c'.rx = c.rx := (congrArg Conn.rx h :)
theorem lingerDeadline : c'.lingerDeadline = c.lingerDeadline := (congrArg Conn.lingerDeadline h :)
theorem parent : c'.parent = c.parent := (congrArg Conn.parent h :)

end Acked

theorem Sent.acked (h : Sent c c') : Acked c c' := by
  show ({ c'.unsent with sndUna := 0, sndWnd := 0, tx := [], retries := 0 } : Conn) = _
  rw [show c'.unsent = c.unsent from h]
  rfl

theorem acked_pullNxt : Acked c (c.pullNxt seg) := by
  unfold pullNxt
  split <;> exact rfl

theorem acked_compact : Acked c (c.compact seg) := rfl

theorem sent_rearm : Sent c (c.rearm now) := by
  unfold rearm
  split <;> exact rfl

theorem acked_ackData : Acked c (c.ackData link now seg) := by
  unfold ackData
  split
  · exact acked_compact.trans (sent_rearm.trans sent_output).acked
  · exact rfl

variable (link now c) in
theorem acked_ackWindow (seg : Segment) : Acked c (c.ackWindow link now seg) := by
  have h1 : Acked c ((c.pullNxt seg).ackData link now seg) := acked_pullNxt.trans acked_ackData
  exact h1.trans (Acked.trans rfl sent_output.acked)

def unread (c : Conn) : Conn :=
  { c.unlogged with rx := .empty 0, rcvNxt := 0, peerFin := false, state := .closed,
                    lingerDeadline := 0 }

def Received (c c' : Conn) : Prop := c'.unread = c.unread

namespace Received

theorem trans (h : Received c c') (h' : Received c' c'') : Received c c'' := Eq.trans h' h

variable (h : Received c c')

include h

theorem used : c'.used = c.used := (congrArg Conn.used h :)
theorem listener : c'.listener = c.listener := (congrArg Conn.listener h :)
theorem finPending : c'.finPending = c.finPending := (congrArg Conn.finPending h :)
theorem reset : c'.reset = c.reset := (congrArg Conn.reset h :)
theorem dev : c'.dev = c.dev := (congrArg Conn.dev h :)
theorem sndUna : c'.sndUna = c.sndUna := (congrArg Conn.sndUna h :)
theorem sndNxt : c'.sndNxt = c.sndNxt := (congrArg Conn.sndNxt h :)
theorem tx : c'.tx = c.tx := (congrArg Conn.tx h :)
theorem rtoDeadline : c'.rtoDeadline = c.rtoDeadline := (congrArg Conn.rtoDeadline h :)
theorem armed : c'.armed = c.armed := by rw [Conn.armed, h.rtoDeadline, Conn.armed]

end Received

theorem Emitted.received (h : Emitted c c') : Received c c' := by
  show c'.unlogged.unread = c.unlogged.unread
  rw [show c'.unlogged = c.unlogged from h]

theorem received_takeData : Received c (c.takeData link seg) := by
  unfold takeData
  split
  · exact rfl
  split
  · have hstore : Received c (c.rxStore seg.data) := rfl
    exact hstore.trans (emitted_emitAck ..).received
  · exact (emitted_emitAck ..).received

theorem received_takeFin : Received c (c.takeFin link now seg) := by
  unfold takeFin
  split
  · exact rfl
  split
  · have hseen : Received c c.finSeen := rfl
    have hmove : Received (c.finSeen.emitAck link) ((c.finSeen.emitAck link).moveOn now) := rfl
    exact (hseen.trans (emitted_emitAck ..).received).trans hmove
  · exact (emitted_emitAck ..).received

end DosKernel.Net.Tcp.Conn

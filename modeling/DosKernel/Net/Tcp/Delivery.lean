import DosKernel.Net.Tcp.Stream

namespace DosKernel.Net.Tcp.Conn

open DosKernel.Lib List Conn

variable {link : Link} {now : ℕ} {c c' c'' x x' y y' : Conn} {seg : Segment} {isn : Seq}
  {sent got : List Byte} {full : Bool}

-- What `y` returned and has in its ring is the stream of `x` up to the number expected next, and
-- nothing beyond was acknowledged.
structure Receiver (isn : Seq) (sent got : List Byte) (x y : Conn) : Prop where
  state : y.state ≠ .synSent
  place : Awaited isn sent x y.rcvNxt
  stream : got ++ y.rx.contents = sent.take (posn isn y.rcvNxt - 1)
  fin : y.peerFin = true → y.reset = false → sent.length + 1 < posn isn y.rcvNxt
  acks : ∀ seg ∈ y.wire, seg.flags.ack = true →
    1 ≤ posn isn seg.ack ∧ posn isn seg.ack ≤ posn isn y.rcvNxt

theorem Awaited.of_le {s t : Seq} (h : Awaited isn sent c s) (hpos : 1 ≤ posn isn t)
    (hle : posn isn t ≤ posn isn s) : Awaited isn sent c t := by
  obtain ⟨-, hs | ⟨hp, hs | ⟨hs, hr⟩⟩⟩ := h
  · exact ⟨hpos, .inl (hle.trans hs)⟩
  · by_cases heq : posn isn t = sent.length + 2
    · exact ⟨hpos, .inr ⟨hp, .inl heq⟩⟩
    · exact ⟨hpos, .inl (by omega)⟩
  · by_cases heq : posn isn t = sent.length + 3
    · exact ⟨hpos, .inr ⟨hp, .inr ⟨heq, hr⟩⟩⟩
    · by_cases heq' : posn isn t = sent.length + 2
      · exact ⟨hpos, .inr ⟨hp, .inl heq'⟩⟩
      · exact ⟨hpos, .inl (by omega)⟩

theorem Receiver.awaited (h : Receiver isn sent got x y) (hseg : seg ∈ y.wire)
    (hack : seg.flags.ack = true) : Awaited isn sent x seg.ack :=
  have ha := h.acks seg hseg hack
  h.place.of_le ha.1 ha.2

theorem Receiver.sender (h : Receiver isn sent got x y)
    (hp : x.finPending = true → x'.finPending = true)
    (hr : Renumbered isn sent x → Renumbered isn sent x') : Receiver isn sent got x' y :=
  ⟨h.state, ⟨h.place.1, h.place.2.imp_right fun hq => ⟨hp hq.1, hq.2.imp_right fun hq => ⟨hq.1, hr hq.2⟩⟩⟩,
    h.stream, h.fin, h.acks⟩

theorem Receiver.append (more : List Byte) (h : Receiver isn sent got x y)
    (hp : x.finPending = false) : Receiver isn (sent ++ more) got x' y := by
  have hle : posn isn y.rcvNxt ≤ sent.length + 1 := by
    obtain ⟨-, hle | ⟨hp', -⟩⟩ := h.place
    · exact hle
    · cases hp.symm.trans hp'
  refine ⟨h.state, ⟨h.place.1, .inl ?_⟩, ?_, fun hf hr => ?_, h.acks⟩
  · rw [length_append]
    omega
  · rw [take_append_of_le_length (by omega)]
    exact h.stream
  · have := h.fin hf hr
    omega

structure Told (c c' : Conn) : Prop where
  state : c'.state = .synSent → c.state = .synSent
  rcvNxt : c'.rcvNxt = c.rcvNxt
  rx : c'.rx = c.rx
  fin : c'.peerFin = true → c'.reset = false → c.peerFin = true ∧ c.reset = false
  wire : ∀ seg ∈ c'.wire, seg ∈ c.wire ∨ seg.ack = c.rcvNxt

theorem Told.refl : Told c c := ⟨id, rfl, rfl, fun hf hr => ⟨hf, hr⟩, fun _ => .inl⟩

theorem Told.trans (h : Told c c') (h' : Told c' c'') : Told c c'' where
  state hs := h.state (h'.state hs)
  rcvNxt := h'.rcvNxt.trans h.rcvNxt
  rx := h'.rx.trans h.rx
  fin hf hr := have hq := h'.fin hf hr
    h.fin hq.1 hq.2
  wire seg hseg := by
    obtain hs | hs := h'.wire seg hseg
    · exact h.wire seg hs
    · exact .inr (hs.trans h.rcvNxt)

theorem Receiver.told (h : Receiver isn sent got x y) (ht : Told y y') :
    Receiver isn sent got x y' := by
  refine ⟨fun hs => h.state (ht.state hs), ?_, ?_, fun hf hr => ?_, fun seg hseg hack => ?_⟩
  · rw [ht.rcvNxt]
    exact h.place
  · rw [ht.rcvNxt, ht.rx]
    exact h.stream
  · have hq := ht.fin hf hr
    rw [ht.rcvNxt]
    exact h.fin hq.1 hq.2
  · rw [ht.rcvNxt]
    obtain hs | hs := ht.wire seg hseg
    · exact h.acks seg hs hack
    · rw [hs]
      exact ⟨h.place.1, le_rfl⟩

theorem told_of_sent (hs : Sent c c') (hw : ∀ seg ∈ c'.wire, seg ∈ c.wire ∨ seg.ack = c.rcvNxt) :
    Told c c' :=
  ⟨fun h => hs.state ▸ h, hs.rcvNxt, hs.rx, fun hf hr => ⟨hs.peerFin ▸ hf, hs.reset ▸ hr⟩, hw⟩

def recvSide (c : Conn) : Seq × Ring Byte tcpRxbuf × Bool × Bool × List Segment :=
  (c.rcvNxt, c.rx, c.peerFin, c.reset, c.wire)

theorem told_quiet (hst : c'.state = .synSent → c.state = .synSent)
    (hside : c'.recvSide = c.recvSide) : Told c c' := by
  simp only [recvSide, Prod.mk.injEq] at hside
  obtain ⟨hrcv, hrx, hfin, hreset, hwire⟩ := hside
  exact ⟨hst, hrcv, hrx, fun hf hr => ⟨hfin ▸ hf, hreset ▸ hr⟩, fun _ hs => .inl (hwire ▸ hs)⟩

variable (link c) in
theorem told_emit (seq : Seq) (flags : Flags) (data : List Byte) :
    Told c (c.emit link seq flags data).2 := by
  refine told_of_sent (emitted_emit ..).sent fun seg hseg => ?_
  obtain hs | rfl := mem_wire_emit hseg
  · exact .inl hs
  · exact .inr rfl

theorem told_output : Told c (c.output link now) := by
  refine output_rule (P := Told c) .refl (fun {a n} _ _ _ h => h.trans ?_)
    (fun h => h.trans (told_quiet id rfl)) (fun {a} _ _ _ _ _ h => h.trans ?_)
    fun h => h.trans (told_quiet id rfl)
  · refine ⟨id, rfl, rfl, fun hf hr => ⟨hf, hr⟩, fun seg hseg => ?_⟩
    obtain hs | hs := mem_append.mp hseg
    · exact .inl hs
    · rw [mem_singleton.mp hs]
      exact .inr rfl
  · exact (told_emit link a a.sndNxt { fin := true, ack := true } []).trans (told_quiet id rfl)

variable (link now c seg) in
theorem told_ackWindow : Told c (c.ackWindow link now seg) := by
  have hpull : Told c (c.pullNxt seg) := by
    unfold pullNxt
    split
    · exact told_quiet id rfl
    · exact .refl
  exact ackWindow_rule (fun _ => hpull) (fun _ => hpull.trans (told_quiet id rfl))
    (fun h => h.trans (told_quiet id rfl)) (fun h => h.trans (told_quiet id rfl))
    fun h => h.trans told_output

variable (link now c seg full) in
theorem told_acknowledge : Told c (c.acknowledge link now full seg) := by
  have hmove : ∀ {a b : Conn}, Told c a → b.state ≠ .synSent → b.recvSide = a.recvSide →
      Told c b := fun h hst hside => h.trans (told_quiet (fun hs => absurd hs hst) hside)
  refine acknowledge_rule (fun _ => .refl) (fun _ => told_ackWindow link now c seg)
    (fun _ h => hmove h (fun hs => by cases hs) rfl)
    (fun {a} h => hmove (h.trans (told_emit link a a.sndNxt { rst := true } []))
      (fun hs => by cases hs) rfl)
    fun h => hmove h (fun hs => by cases hs) rfl

theorem Receiver.rxStore (h : Receiver isn sent got x y) (hsmall : sent.length + 4 < 2147483648)
    (hseg : Carries isn sent x seg) (hne : seg.data ≠ []) (hseq : seg.seq = y.rcvNxt) :
    Receiver isn sent got x (y.rxStore seg.data) := by
  obtain ⟨p, hle, hplace, hdata⟩ := hseg.data hne
  rw [hseq] at hplace
  have hadd : posn isn (y.rcvNxt + BitVec.ofNat 32 (min seg.data.length y.rx.free)) =
      p + 1 + min seg.data.length y.rx.free := by
    rw [posn_add (by omega), hplace]
  have hmore : posn isn y.rcvNxt ≤ posn isn (y.rxStore seg.data).rcvNxt := by
    show _ ≤ posn isn (y.rcvNxt + _)
    omega
  refine ⟨h.state, ⟨h.place.1.trans hmore, .inl ?_⟩, ?_, fun hf hr => ?_, fun s hs hack => ?_⟩
  · show posn isn (y.rcvNxt + _) ≤ _
    omega
  · show got ++ (y.rx.store seg.data).contents = sent.take (posn isn (y.rcvNxt + _) - 1)
    have hpiece : seg.data.take y.rx.free = (sent.drop p).take (min seg.data.length y.rx.free) := by
      conv_lhs => rw [hdata, take_take]
      rw [Nat.min_comm]
    have hp : posn isn y.rcvNxt - 1 = p := by omega
    have hp' : p + 1 + min seg.data.length y.rx.free - 1 = p + min seg.data.length y.rx.free := by
      omega
    rw [Ring.contents_store, ← append_assoc, h.stream, hpiece, hadd, hp, hp', take_add]
  · exact (h.fin hf hr).trans_le hmore
  · have ha := h.acks s hs hack
    exact ⟨ha.1, ha.2.trans hmore⟩

theorem Receiver.finSeen (h : Receiver isn sent got x y) (hsmall : sent.length + 4 < 2147483648)
    (hseg : Carries isn sent x seg) (hfin : seg.flags.fin = true)
    (hseq : seg.seq + BitVec.ofNat 32 seg.data.length = y.rcvNxt) :
    Receiver isn sent got x y.finSeen := by
  obtain ⟨hnil, hp, hplace⟩ := hseg.fin hfin
  have hrcv : seg.seq = y.rcvNxt := by
    rw [← hseq, hnil, length_nil]
    simp
  rw [hrcv] at hplace
  have hadd : posn isn (y.rcvNxt + 1) = posn isn y.rcvNxt + 1 := posn_add (n := 1) (by omega)
  refine ⟨h.state, ⟨?_, .inr ⟨hp, ?_⟩⟩, ?_, fun _ _ => ?_, fun s hs hack => ?_⟩
  · show 1 ≤ posn isn (y.rcvNxt + 1)
    omega
  · show posn isn (y.rcvNxt + 1) = _ ∨ posn isn (y.rcvNxt + 1) = _ ∧ _
    exact hplace.imp (fun hq => by omega) fun hq => ⟨by omega, hq.2⟩
  · show got ++ y.rx.contents = sent.take (posn isn (y.rcvNxt + 1) - 1)
    rw [h.stream, hadd, take_of_length_le (by omega), take_of_length_le (by omega)]
  · show _ < posn isn (y.rcvNxt + 1)
    omega
  · have ha := h.acks s hs hack
    refine ⟨ha.1, ha.2.trans ?_⟩
    show _ ≤ posn isn (y.rcvNxt + 1)
    omega

variable (link now full) in
theorem Receiver.input (h : Receiver isn sent got x y) (hsmall : sent.length + 4 < 2147483648)
    (hseg : Carries isn sent x seg) : Receiver isn sent got x (y.input link now full seg) := by
  have hack := h.told (told_acknowledge link now y seg full)
  refine input_rule h (h.told ⟨fun hs => (by cases hs), rfl, rfl, fun _ hr => (by cases hr),
    fun _ => .inl⟩) (fun hst => absurd hst h.state) fun _ => ?_
  refine conclude_rule hack (hack.told (told_quiet (fun hs => by cases hs) rfl))
    (fun ha => ha.told (told_emit ..)) (hack.rxStore hsmall hseg)
    (fun hfin hseq ha => ha.finSeen hsmall hseg hfin hseq)
    fun {a} ha => ha.told (told_quiet (fun hs => ?_) rfl)
  have hcl : closing a.state = .synSent := hs
  obtain heq | ⟨hne, -⟩ := @closing_early a.state
  · exact heq ▸ hcl
  · exact absurd hcl hne

variable (link c) in
theorem told_resend : Told c (c.resend link) :=
  resend_rule .refl (fun _ _ => told_emit ..)
    (fun _ _ => (told_emit link c c.sndUna { psh := true, ack := true } _).trans (told_quiet id rfl))
    fun _ => told_emit ..

variable (link now c) in
theorem told_sweep : Told c (c.sweep link now) := by
  have htry : Told c { c with retries := c.retries + 1 } := told_quiet id rfl
  refine sweep_rule .refl ⟨fun hs => ?_, rfl, rfl, fun _ hr => ?_, fun _ => .inl⟩ ?_
    (fun ha => ha.trans (told_quiet (fun hs => ?_) rfl))
    fun _ ha => ha.trans (told_quiet (fun hs => ?_) rfl)
  · cases hs
  · cases hr
  · exact (htry.trans (told_resend link _)).trans (told_quiet id rfl)
  · cases hs
  · cases hs

variable (link now c) in
theorem told_startFin : Told c (c.startFin link now) := by
  have hask : Told c c.askFin :=
    told_quiet (askFin_rule (P := (· = .synSent → _)) nofun nofun) rfl
  exact hask.trans told_output

structure Mute (c : Conn) : Prop where
  state : c.state = .synSent ∨ c.state = .synRcvd ∨ c.state = .closed
  tx : c.tx = []
  finSent : c.finSent = false
  wire : ∀ seg ∈ c.wire, seg.data = [] ∧ seg.flags.fin = false

theorem Mute.idle (h : Mute c) : ¬ c.Sending := fun hs => by
  have hsends := hs.sends
  obtain hst | hst | hst := h.state <;> rw [hst] at hsends <;> cases hsends

theorem Mute.of_fields (h : Mute c) (hst : c'.state = c.state ∨ c'.state = .closed := by exact .inl rfl)
    (htx : c'.tx = c.tx := by rfl) (hsent : c'.finSent = c.finSent := by rfl)
    (hwire : c'.wire = c.wire := by rfl) : Mute c' where
  state := hst.elim (fun he => he ▸ h.state) fun he => .inr (.inr he)
  tx := htx.trans h.tx
  finSent := hsent.trans h.finSent
  wire := hwire ▸ h.wire

theorem Mute.emit {seq : Seq} {flags : Flags} (h : Mute c) (hf : flags.fin = false) :
    Mute (c.emit link seq flags []).2 := by
  have hem := emitted_emit link (c := c) seq flags []
  refine ⟨hem.sent.state ▸ h.state, hem.sent.tx.trans h.tx, hem.finSent.trans h.finSent,
    fun seg hseg => ?_⟩
  obtain hs | rfl := mem_wire_emit hseg
  · exact h.wire seg hs
  · exact ⟨rfl, hf⟩

theorem Mute.resend (h : Mute c) : Mute (c.resend link) :=
  resend_rule h (fun _ hf => h.emit hf) (fun hne => absurd h.tx hne)
    fun hf => by cases hf.symm.trans h.finSent

variable (link now) in
theorem Mute.sweep (h : Mute c) : Mute (c.sweep link now) := by
  have htry : Mute { c with retries := c.retries + 1 } := h.of_fields
  have hre : Mute (({ c with retries := c.retries + 1 } : Conn).resend link) := htry.resend
  exact sweep_rule h (h.of_fields (.inr rfl))
    (hre.of_fields)
    (fun ha => ha.of_fields (.inr rfl))
    fun _ ha => ha.of_fields (.inr rfl)

theorem Mute.needFin (h : Mute c) : c.needFin = false := by
  obtain hst | hst | hst := h.state <;> simp [Conn.needFin, hst]

theorem conclude_bare (hdata : seg.data = []) (hfin : seg.flags.fin = false)
    (hst : c.state ≠ .lastAck) : c.conclude link now seg = c := by
  unfold conclude
  rw [if_neg fun h => hst h.2.1]
  unfold takeData
  rw [if_pos hdata]
  unfold takeFin
  simp [hfin]

theorem Mute.not_lastAck (h : Mute c) : c.state ≠ .lastAck := fun hs => by
  obtain hst | hst | hst := h.state <;> cases hs.symm.trans hst

variable (link now full) in
theorem Mute.input_bare (h : Mute c) (hdata : seg.data = []) (hfin : seg.flags.fin = false)
    (hack : seg.flags.ack = false) :
    c.input link now full seg = c ∨ c.input link now full seg = c.inputRst := by
  unfold input
  split
  · exact .inr rfl
  left
  split
  · unfold inputSynSent
    simp [hack]
  · unfold acknowledge
    rw [if_neg (by simp [hack])]
    exact conclude_bare hdata hfin h.not_lastAck

variable (link now seg) in
theorem Mute.ackWindow (h : Mute c) :
    Mute (c.ackWindow link now seg) ∧ (c.ackWindow link now seg).wire = c.wire := by
  have hpull : Mute (c.pullNxt seg) ∧ (c.pullNxt seg).wire = c.wire := by
    unfold pullNxt
    split
    · exact ⟨h.of_fields, rfl⟩
    · exact ⟨h, rfl⟩
  refine ackWindow_rule (P := fun a => Mute a ∧ a.wire = c.wire) (fun _ => hpull) (fun _ => ?_)
    (fun ha => ⟨ha.1.of_fields, ha.2⟩)
    (fun ha => ⟨ha.1.of_fields, ha.2⟩) fun ha => ?_
  · refine ⟨⟨hpull.1.state, ?_, hpull.1.finSent, hpull.1.wire⟩, hpull.2⟩
    simp [compact, hpull.1.tx]
  · rwa [output_idle ha.1.idle]

structure Unsynced (got : List Byte) (x y : Conn) : Prop where
  peer : Mute x
  mute : Mute y
  state : y.state ≠ .synRcvd
  rx : y.rx.contents = []
  got : got = []
  fin : y.peerFin = true → y.reset = true
  wire : ∀ seg ∈ y.wire, seg.flags.ack = false

theorem Unsynced.connected (h : Unsynced got x y) (hseg : Carries isn sent x seg)
    (hsyn : seg.flags.syn = true) : Receiver isn sent got x (y.connected seg) := by
  have hone : posn isn (seg.seq + 1) = 1 := by
    rw [(hseg.syn hsyn).1]
    unfold posn
    bv_omega
  refine ⟨fun hs => (by cases hs), ⟨hone.ge, .inl ?_⟩, ?_, fun hf hr => ?_, fun s hs hack => ?_⟩
  · exact hone.le.trans (Nat.le_add_left ..)
  · show got ++ y.rx.contents = sent.take (posn isn (seg.seq + 1) - 1)
    rw [hone, h.got, h.rx]
    rfl
  · cases (h.fin hf).symm.trans hr
  · cases (h.wire s hs).symm.trans hack

variable (link now full) in
theorem Unsynced.input (h : Unsynced got x y) (hseg : Carries isn sent x seg) (hmem : seg ∈ x.wire) :
    Unsynced got x (y.input link now full seg) ∨
      Receiver isn sent got x (y.input link now full seg) := by
  refine input_rule (P := fun a => Unsynced got x a ∨ Receiver isn sent got x a) (.inl h)
    (.inl ⟨h.peer, h.mute.of_fields (.inr rfl), nofun, h.rx, h.got, fun _ => rfl, h.wire⟩)
    (fun _ hsyn _ => ?_) fun _ => .inl ?_
  · exact .inr (((h.connected hseg hsyn).told (told_emit ..)).told told_output)
  obtain ⟨hdata, hfin⟩ := h.peer.wire seg hmem
  unfold acknowledge
  split
  · obtain ⟨hm, hwire⟩ := h.mute.ackWindow link now seg
    have hacked := acked_ackWindow link now y seg
    have hstate : (y.ackWindow link now seg).state ≠ .synRcvd := hacked.state ▸ h.state
    have hfin1 : (y.ackWindow link now seg).state ≠ .finWait1 := fun hs => by
      obtain hst | hst | hst := hm.state <;> cases hs.symm.trans hst
    unfold takeAck
    rw [establish_fields.2.2 hstate, ackFin1_fields.2.2 hfin1,
      conclude_bare hdata hfin hm.not_lastAck]
    exact ⟨h.peer, hm, hstate, hacked.rx ▸ h.rx, h.got,
      fun hf => hacked.reset ▸ h.fin (hacked.peerFin ▸ hf), hwire ▸ h.wire⟩
  · rw [conclude_bare hdata hfin h.mute.not_lastAck]
    exact h

theorem Unsynced.told (h : Unsynced got x y) (ht : Told y y') (hm : Mute y')
    (hst : y'.state = .synRcvd → y.state = .synRcvd)
    (hwire : ∀ seg ∈ y'.wire, seg ∈ y.wire ∨ seg.flags.ack = false) : Unsynced got x y' where
  peer := h.peer
  mute := hm
  state hs := h.state (hst hs)
  rx := ht.rx ▸ h.rx
  got := h.got
  fin hf := by
    by_contra hr
    have hq := ht.fin hf ((Bool.not_eq_true _).mp hr)
    cases (h.fin hq.1).symm.trans hq.2
  wire seg hseg := (hwire seg hseg).elim (h.wire seg) id

theorem mem_wire_resend (hst : c.state ≠ .synRcvd) (htx : c.tx = []) (hns : c.finSent = false)
    (hseg : seg ∈ (c.resend link).wire) : seg ∈ c.wire ∨ seg.flags.ack = false := by
  unfold resend at hseg
  split at hseg
  · exact (mem_wire_emit hseg).imp_right fun he => by rw [he]; rfl
  · rw [if_neg (by simp [htx]), if_neg (by simp [hns])] at hseg
    exact .inl hseg

theorem mem_wire_sweep (hst : c.state ≠ .synRcvd) (htx : c.tx = []) (hns : c.finSent = false)
    (hseg : seg ∈ (c.sweep link now).wire) : seg ∈ c.wire ∨ seg.flags.ack = false :=
  sweep_rule (P := fun a => seg ∈ a.wire → seg ∈ c.wire ∨ seg.flags.ack = false) .inl .inl
    (mem_wire_resend (c := { c with retries := c.retries + 1 }) hst htx hns) id (fun _ => id) hseg

theorem sweep_synRcvd (h : (c.sweep link now).state = .synRcvd) : c.state = .synRcvd := by
  obtain ⟨-, -, hst | hst, -⟩ := sweep_fields link now c
  · exact hst.symm.trans h
  · cases hst.symm.trans h

variable (link now c seg full) in
theorem finPending_input : (c.input link now full seg).finPending = c.finPending := by
  have hack : (c.acknowledge link now full seg).finPending = c.finPending :=
    acknowledge_rule (P := fun a => a.finPending = c.finPending) (fun _ => rfl)
      (fun _ => (acked_ackWindow link now c seg).finPending) (fun _ => id)
      (fun h => (emitted_emit ..).sent.finPending.trans h) id
  refine input_rule (P := fun a => a.finPending = c.finPending) rfl rfl (fun _ _ _ => ?_) fun _ => ?_
  · exact sent_output.finPending.trans (emitted_emitAck link (c.connected seg)).sent.finPending
  · exact conclude_rule (P := fun a => a.finPending = c.finPending) hack hack
      (fun h => (emitted_emitAck ..).sent.finPending.trans h) (fun _ _ => hack) (fun _ _ => id) id

variable (link now c) in
theorem finPending_sweep : (c.sweep link now).finPending = c.finPending := by
  refine sweep_rule (P := fun a => a.finPending = c.finPending) rfl rfl ?_ id fun _ => id
  exact (sent_resend link ({ c with retries := c.retries + 1 } : Conn)).finPending

variable (link now seg full) in
theorem input_synSent (h : c.state ≠ .synSent) : (c.input link now full seg).state ≠ .synSent := by
  have hack : (c.acknowledge link now full seg).state ≠ .synSent :=
    fun hs => h ((told_acknowledge link now c seg full).state hs)
  refine input_rule (P := fun a => a.state ≠ .synSent) h (fun hs => by cases hs)
    (fun hst => absurd hst h) fun _ => ?_
  refine conclude_rule (P := fun a => a.state ≠ .synSent) hack (fun hs => by cases hs)
    (fun ha hs => ?_) (fun _ _ => hack) (fun _ _ => id) fun {a} ha hs => ?_
  · exact ha ((emitted_emitAck ..).sent.state ▸ hs)
  · obtain heq | ⟨hne, -⟩ := @closing_early a.state
    · exact ha (heq ▸ hs)
    · exact hne hs

variable (link) in
theorem told_recvTake (len : ℕ) : Told { c with rx := c.rx.drop len } (c.recvTake link len).2 ∨
    c.rx.contents.take len = [] ∧ (c.recvTake link len).2 = c := by
  unfold recvTake
  dsimp only
  split
  next hnil =>
    exact .inr ⟨hnil, rfl⟩
  · left
    split
    · exact told_emit ..
    · exact .refl

theorem Receiver.taken (len : ℕ) (h : Receiver isn sent got x y) :
    Receiver isn sent (got ++ y.rx.contents.take len) x { y with rx := y.rx.drop len } := by
  refine ⟨h.state, h.place, ?_, h.fin, h.acks⟩
  show (got ++ y.rx.contents.take len) ++ (y.rx.drop len).contents = _
  rw [Ring.contents_drop, append_assoc, take_append_drop]
  exact h.stream

theorem Receiver.recvTake (len : ℕ) (h : Receiver isn sent got x y) :
    Receiver isn sent (got ++ y.rx.contents.take len) x (y.recvTake link len).2 := by
  obtain ht | ⟨hnil, heq⟩ := told_recvTake link (c := y) len
  · exact (h.taken len).told ht
  · rw [hnil, heq, append_nil]
    exact h

theorem keeps_recvTake (len : ℕ) : Keeps isn sent c (c.recvTake link len).2 := by
  have hrx : Keeps isn sent c { c with rx := c.rx.drop len } :=
    keeps_quiet
  unfold recvTake
  dsimp only
  split
  · exact .refl
  split
  · exact hrx.trans keeps_emitAck
  · exact hrx

variable (link c) in
theorem recvTake_result (len : ℕ) :
    (c.recvTake link len).1 = if c.rx.contents.take len = [] then c.recvEnd
      else .bytes (c.rx.contents.take len) := by
  unfold recvTake
  dsimp only
  split <;> rfl

theorem recvEnd_eof (h : c.recvEnd = .eof) : c.peerFin = true ∧ c.reset = false := by
  unfold recvEnd at h
  split_ifs at h with h1 h2
  exact ⟨h2, (Bool.not_eq_true _).mp h1⟩

section

variable (h : Receiver isn sent got x y)

include h

theorem Receiver.complete (hf : y.peerFin = true)
    (hr : y.reset = false) (hnil : y.rx.contents = []) :
    got = sent ∧ x.finPending = true := by
  have hall := h.fin hf hr
  have hstream := h.stream
  rw [hnil, append_nil, take_of_length_le (by omega)] at hstream
  obtain ⟨-, hle | ⟨hp, -⟩⟩ := h.place
  · omega
  · exact ⟨hstream, hp⟩

theorem Receiver.incomplete (heq : got = sent) :
    y.rx.contents = [] := by
  have hlen := congrArg length h.stream
  rw [length_append, length_take, heq] at hlen
  apply eq_nil_of_length_eq_zero
  omega

theorem Receiver.is_prefix : got <+: sent :=
  (prefix_append got y.rx.contents).trans (h.stream ▸ take_prefix ..)

end

end DosKernel.Net.Tcp.Conn

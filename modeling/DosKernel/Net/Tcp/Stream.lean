import DosKernel.Net.Tcp.Slots

namespace DosKernel.Net.Tcp

open List

-- The place of a sequence number: the SYN at 0, the bytes from 1 on, the FIN behind them.
def posn (isn s : Seq) : ℕ := (s - isn).toNat

namespace Conn

variable {link : Link} {now : ℕ} {c c' c'' : Conn} {seg : Segment} {isn : Seq} {sent : List Byte}

-- An acknowledgement of a FIN that was sent again one number later takes that one along.
def Renumbered (isn : Seq) (sent : List Byte) (c : Conn) : Prop :=
  c.finSent = true ∧ posn isn c.finSeq = sent.length + 2

-- What a segment may carry: bytes of the stream at their places, and a FIN behind all of them.
structure Carries (isn : Seq) (sent : List Byte) (c : Conn) (seg : Segment) : Prop where
  data : seg.data ≠ [] → ∃ p, p + seg.data.length ≤ sent.length ∧ posn isn seg.seq = p + 1 ∧
    seg.data = (sent.drop p).take seg.data.length
  fin : seg.flags.fin = true → seg.data = [] ∧ c.finPending = true ∧
    (posn isn seg.seq = sent.length + 1 ∨ posn isn seg.seq = sent.length + 2 ∧ Renumbered isn sent c)
  syn : seg.flags.syn = true → seg.seq = isn ∧ seg.data = [] ∧ seg.flags.fin = false

structure Sender (isn : Seq) (sent : List Byte) (c : Conn) : Prop where
  small : sent.length + 4 < 2147483648
  order : posn isn c.sndUna ≤ posn isn c.sndNxt
  opening : posn isn c.sndUna = 0 → posn isn c.sndNxt = 1 ∧ sent = [] ∧ c.finPending = false ∧
    (c.state = .synSent ∨ c.state = .synRcvd ∨ c.state = .closed)
  tx : c.tx = sent.drop (posn isn c.sndUna - 1)
  bound : c.tx.length ≤ tcpTxbuf
  unsent : c.finSent = false → posn isn c.sndNxt ≤ sent.length + 1 ∨
    posn isn c.sndNxt = sent.length + 2 ∧ posn isn c.sndUna = sent.length + 2 ∧ c.finPending = true
  fin : c.finSent = true → c.finPending = true ∧ posn isn c.sndNxt = posn isn c.finSeq + 1 ∧
    (posn isn c.finSeq = sent.length + 1 ∨
      posn isn c.finSeq = sent.length + 2 ∧ sent.length + 2 ≤ posn isn c.sndUna)
  wire : ∀ seg ∈ c.wire, Carries isn sent c seg

theorem Carries.of_fields (h : Carries isn sent c seg)
    (hp : c.finPending = true → c'.finPending = true)
    (hr : Renumbered isn sent c → Renumbered isn sent c') : Carries isn sent c' seg :=
  ⟨h.data, fun hf => have hfin := h.fin hf
    ⟨hfin.1, hp hfin.2.1, hfin.2.2.imp_right fun hq => ⟨hq.1, hr hq.2⟩⟩, h.syn⟩

theorem carries_nothing (hd : seg.data = []) (hf : seg.flags.fin = false)
    (hs : seg.flags.syn = false) : Carries isn sent c seg := by
  refine ⟨fun hne => absurd hd hne, fun h => ?_, fun h => ?_⟩
  · cases hf.symm.trans h
  · cases hs.symm.trans h

namespace Sender

variable (h : Sender isn sent c)

include h

theorem lt : posn isn c.sndNxt ≤ sent.length + 3 := by
  cases hf : c.finSent with
  | false =>
    obtain hle | ⟨heq, -⟩ := h.unsent hf <;> omega
  | true =>
    obtain ⟨-, he, hf' | ⟨hf', -⟩⟩ := h.fin hf <;> omega

theorem inflight : c.inflight = posn isn c.sndNxt - posn isn c.sndUna := by
  have horder := h.order
  unfold Conn.inflight
  unfold posn at *
  bv_omega

theorem length : c.tx.length = sent.length + 1 - max (posn isn c.sndUna) 1 := by
  rw [h.tx, length_drop]
  omega

theorem modest : c.Modest := by
  refine ⟨h.bound, ?_⟩
  have hlen := h.length
  rw [h.inflight]
  by_cases hz : posn isn c.sndUna = 0
  · have := (h.opening hz).1
    omega
  cases hf : c.finSent with
  | false => obtain hle | ⟨heq, hu, -⟩ := h.unsent hf <;> omega
  | true =>
    simp only [Bool.toNat_true]
    obtain ⟨-, he, hf' | ⟨hf', hu⟩⟩ := h.fin hf <;> omega

theorem all_out (hf : c.finSent = true) : c.tx.length < c.inflight ∨ c.tx = [] := by
  have hlen := h.length
  rw [h.inflight]
  obtain ⟨-, he, hf' | ⟨hf', hu⟩⟩ := h.fin hf
  · by_cases hlt : posn isn c.sndUna ≤ sent.length + 1
    · left
      omega
    · right
      apply eq_nil_of_length_eq_zero
      omega
  · right
    apply eq_nil_of_length_eq_zero
    omega

end Sender

def Keeps (isn : Seq) (sent : List Byte) (c c' : Conn) : Prop :=
  Sender isn sent c → Sender isn sent c' ∧ (c.finPending = true → c'.finPending = true) ∧
    (Renumbered isn sent c → Renumbered isn sent c')

theorem Keeps.refl : Keeps isn sent c c := fun h => ⟨h, id, id⟩

theorem Keeps.trans (h : Keeps isn sent c c') (h' : Keeps isn sent c' c'') : Keeps isn sent c c'' :=
  fun hs => have h1 := h hs
    have h2 := h' h1.1
    ⟨h2.1, fun hp => h2.2.1 (h1.2.1 hp), fun hr => h2.2.2 (h1.2.2 hr)⟩

def sendSide (c : Conn) : Seq × Seq × List Byte × Bool × Bool × Seq :=
  (c.sndUna, c.sndNxt, c.tx, c.finPending, c.finSent, c.finSeq)

theorem keeps_of_side (hside : c'.sendSide = c.sendSide)
    (hwire : Sender isn sent c → ∀ seg ∈ c'.wire, Carries isn sent c seg)
    (hst : posn isn c.sndUna = 0 → c'.state = c.state ∨ c'.state = .closed) :
    Keeps isn sent c c' := by
  intro h
  simp only [sendSide, Prod.mk.injEq] at hside
  obtain ⟨huna, hnxt, htx, hpend, hsent, hseq⟩ := hside
  have hren : Renumbered isn sent c → Renumbered isn sent c' := by
    rw [Renumbered, Renumbered, hsent, hseq]
    exact id
  refine ⟨⟨h.small, ?_, fun hz => ?_, ?_, htx ▸ h.bound, ?_, ?_, fun seg hseg => ?_⟩,
    fun hp => hpend.trans hp, hren⟩
  · rw [huna, hnxt]
    exact h.order
  · rw [huna] at hz
    obtain ⟨he, hs, hp, hstate⟩ := h.opening hz
    refine ⟨hnxt ▸ he, hs, hpend.trans hp, ?_⟩
    obtain heq | hclosed := hst hz
    · exact heq ▸ hstate
    · exact .inr (.inr hclosed)
  · rw [htx, huna]
    exact h.tx
  · rw [hsent, hnxt, huna, hpend]
    exact h.unsent
  · rw [hsent, hpend, hnxt, hseq, huna]
    exact h.fin
  · exact (hwire h seg hseg).of_fields (fun hp => hpend.trans hp) hren

theorem keeps_quiet
    (hst : posn isn c.sndUna = 0 → c'.state = c.state ∨ c'.state = .closed := by exact fun _ => .inl rfl)
    (hside : c'.sendSide = c.sendSide := by rfl) (hwire : c'.wire = c.wire := by rfl) :
    Keeps isn sent c c' :=
  keeps_of_side hside (fun h s hs => h.wire s (hwire ▸ hs)) hst

theorem mem_wire_emit {seq : Seq} {flags : Flags} {data : List Byte} {s : Segment}
    (hs : s ∈ (c.emit link seq flags data).2.wire) : s ∈ c.wire ∨ s = c.segment seq flags data := by
  unfold Conn.emit at hs
  split at hs
  · exact .inl hs
  · dsimp only at hs
    split at hs
    · obtain hs | hs := mem_append.mp hs
      · exact .inl hs
      · exact .inr (mem_singleton.mp hs)
    · exact .inl hs

theorem keeps_emit {seq : Seq} {flags : Flags} {data : List Byte}
    (hseg : Sender isn sent c → Carries isn sent c (c.segment seq flags data)) :
    Keeps isn sent c (c.emit link seq flags data).2 := by
  have he := emitted_emit link (c := c) seq flags data
  refine keeps_of_side (congrArg sendSide he :) (fun h s hs => ?_) fun _ => .inl he.sent.state
  obtain hs | rfl := mem_wire_emit hs
  · exact h.wire s hs
  · exact hseg h

theorem keeps_emitAck : Keeps isn sent c (c.emitAck link) :=
  keeps_emit fun _ => carries_nothing rfl rfl rfl

theorem posn_add {s : Seq} {n : ℕ} (h : posn isn s + n < 4294967296) :
    posn isn (s + BitVec.ofNat 32 n) = posn isn s + n := toNat_add_sub h

theorem Sender.opened (h : Sender isn sent c) (hsends : c.state.sends = true) :
    posn isn c.sndUna ≠ 0 := by
  intro hz
  obtain ⟨-, -, -, hs | hs | hs⟩ := h.opening hz <;> rw [hs] at hsends <;> cases hsends

theorem Sender.carries_piece {k n : ℕ} {s : Seq} (h : Sender isn sent c)
    (hz : posn isn c.sndUna ≠ 0) (hk : k + n ≤ c.tx.length)
    (hs : posn isn s = posn isn c.sndUna + k) :
    Carries isn sent c (c.segment s { psh := true, ack := true } ((c.tx.drop k).take n)) := by
  have hlen := h.length
  have hdata : ((c.tx.drop k).take n).length = n := by
    rw [length_take, length_drop]
    omega
  refine ⟨fun hne => ⟨posn isn s - 1, ?_, ?_, ?_⟩, fun hf => (by cases hf), fun hf => (by cases hf)⟩
  · have hpos : 0 < n := hdata ▸ length_pos_iff.mpr hne
    show _ + ((c.tx.drop k).take n).length ≤ _
    omega
  · show posn isn s = _
    omega
  · show (c.tx.drop k).take n = (sent.drop _).take ((c.tx.drop k).take n).length
    rw [hdata, h.tx, drop_drop, hs]
    congr 2
    omega

theorem keeps_sendData {n : ℕ} (hsends : c.state.sends = true) (hround : Round c n) :
    Keeps isn sent c (c.sendData n) := by
  intro h
  have hsmall := h.small
  have horder := h.order
  have hq := hround.queued
  have hpos := hround.pos
  have hlen := h.length
  have hz := h.opened hsends
  have hfl := h.inflight
  have hns : c.finSent = false := by
    by_contra hf
    obtain ho | ho := h.all_out ((Bool.not_eq_false _).mp hf)
    · omega
    · rw [ho, length_nil] at hq
      omega
  have hadd : posn isn (c.sndNxt + BitVec.ofNat 32 n) = posn isn c.sndNxt + n := posn_add (by omega)
  have hseg := h.carries_piece hz hq (s := c.sndNxt) (by omega)
  refine ⟨⟨hsmall, ?_, fun hz' => absurd hz' hz, h.tx, h.bound, fun _ => .inl ?_, fun hf => ?_,
    fun s hs => ?_⟩, id, id⟩
  · show _ ≤ posn isn (c.sndNxt + BitVec.ofNat 32 n)
    rw [hadd]
    exact horder.trans (Nat.le_add_right ..)
  · show posn isn (c.sndNxt + BitVec.ofNat 32 n) ≤ _
    omega
  · cases hns.symm.trans hf
  · obtain hs | hs := mem_append.mp hs
    · exact (h.wire s hs).of_fields id id
    · rw [mem_singleton.mp hs]
      exact hseg.of_fields id id

theorem Sender.fin_place (h : Sender isn sent c) (hz : posn isn c.sndUna ≠ 0)
    (hns : c.finSent = false) (hlen : c.tx.length ≤ c.inflight) :
    posn isn c.sndNxt = sent.length + 1 ∨
      posn isn c.sndNxt = sent.length + 2 ∧ posn isn c.sndUna = sent.length + 2 := by
  have htx := h.length
  have hfl := h.inflight
  have horder := h.order
  obtain hle | ⟨he, hu, -⟩ := h.unsent hns
  · left
    omega
  · exact .inr ⟨he, hu⟩

theorem keeps_finOut (hsends : c.state.sends = true) (hpend : c.finPending = true)
    (hns : c.finSent = false) (hlen : c.tx.length ≤ c.inflight) :
    Keeps isn sent c (c.finOut link) := by
  intro h
  have hz := h.opened hsends
  have hsmall := h.small
  have hplace := h.fin_place hz hns hlen
  have he := emitted_emit link (c := c) c.sndNxt { fin := true, ack := true } []
  have hadd : posn isn (c.sndNxt + 1) = posn isn c.sndNxt + 1 :=
    posn_add (n := 1) (by omega)
  have hold : Renumbered isn sent c → Renumbered isn sent (c.finOut link) := fun hr => by
    cases hns.symm.trans hr.1
  have horder := h.order
  refine ⟨⟨hsmall, ?_, fun hz' => ?_, ?_, ?_, fun hf => (by cases hf), fun _ => ?_, fun s hs => ?_⟩,
    fun _ => he.sent.finPending.trans hpend, hold⟩
  · show posn isn (c.finOut link).sndUna ≤ posn isn (c.sndNxt + 1)
    rw [show (c.finOut link).sndUna = c.sndUna from he.sent.sndUna, hadd]
    omega
  · exact absurd (he.sent.sndUna ▸ hz') hz
  · show (c.finOut link).tx = sent.drop (posn isn (c.finOut link).sndUna - 1)
    rw [show (c.finOut link).sndUna = c.sndUna from he.sent.sndUna,
      show (c.finOut link).tx = c.tx from he.sent.tx]
    exact h.tx
  · exact he.sent.tx ▸ h.bound
  · refine ⟨he.sent.finPending.trans hpend, hadd, ?_⟩
    show posn isn c.sndNxt = _ ∨ posn isn c.sndNxt = _ ∧ _ ≤ posn isn (c.finOut link).sndUna
    rw [show (c.finOut link).sndUna = c.sndUna from he.sent.sndUna]
    exact hplace.imp_right fun hp => ⟨hp.1, hp.2.ge⟩
  · obtain hs | rfl := mem_wire_emit hs
    · exact (h.wire s hs).of_fields (fun hp => he.sent.finPending.trans hp) hold
    · exact ⟨fun hne => absurd rfl hne, fun _ => ⟨rfl, he.sent.finPending.trans hpend,
        hplace.imp_right fun hp => ⟨hp.1, rfl, hp.1⟩⟩, fun hf => (by cases hf)⟩

variable (link now) in
theorem keeps_output : Keeps isn sent c (c.output link now) :=
  output_rule .refl (fun hs ha hr h => h.trans (keeps_sendData (ha.state ▸ hs.sends) hr))
    (fun h => h.trans keeps_quiet)
    (fun hs ha hp hns hlen h => h.trans (keeps_finOut (ha.state ▸ hs.sends) hp hns hlen))
    fun h => h.trans keeps_quiet

def Awaited (isn : Seq) (sent : List Byte) (c : Conn) (s : Seq) : Prop :=
  1 ≤ posn isn s ∧ (posn isn s ≤ sent.length + 1 ∨ c.finPending = true ∧
    (posn isn s = sent.length + 2 ∨ posn isn s = sent.length + 3 ∧ Renumbered isn sent c))

theorem Sender.compact_place (h : Sender isn sent c) (ha : Awaited isn sent c seg.ack)
    (hnew : (c.pullNxt seg).acksNew seg = true) :
    (c.pullNxt seg).finSent = c.finSent ∧ posn isn c.sndUna < posn isn seg.ack ∧
      (posn isn (c.pullNxt seg).sndNxt = posn isn c.sndNxt ∧ posn isn seg.ack ≤ posn isn c.sndNxt ∨
        c.finSent = false ∧ posn isn c.sndUna ≠ 0 ∧
          posn isn (c.pullNxt seg).sndNxt = posn isn seg.ack ∧
          (posn isn seg.ack ≤ sent.length + 1 ∨
            posn isn seg.ack = sent.length + 2 ∧ c.finPending = true)) := by
  have hsmall := h.small
  have hlt := h.lt
  have horder := h.order
  rw [pullNxt_eq] at hnew ⊢
  split at hnew
  next hpull =>
    rw [if_pos hpull]
    have hadd : posn isn seg.ack = posn isn c.sndNxt + 1 := by
      rw [hpull]
      exact posn_add (n := 1) (by omega)
    refine ⟨rfl, by omega, .inr ?_⟩
    have hns : c.finSent = false := by
      by_contra hf
      obtain ⟨-, hf1, hf2⟩ := h.fin ((Bool.not_eq_false _).mp hf)
      obtain ⟨-, hle | ⟨-, heq | ⟨heq, -, hr⟩⟩⟩ := ha <;> omega
    refine ⟨hns, fun hz => ?_, rfl, ?_⟩
    · obtain ⟨he, rfl, hp, -⟩ := h.opening hz
      obtain ⟨-, hle | ⟨hp', -⟩⟩ := ha
      · simp only [length_nil] at hle
        omega
      · cases hp.symm.trans hp'
    · obtain ⟨-, hle | ⟨hp, heq | ⟨-, hr, -⟩⟩⟩ := ha
      · exact .inl hle
      · exact .inr ⟨heq, hp⟩
      · cases hns.symm.trans hr
  next hpull =>
    rw [if_neg hpull]
    obtain ⟨hpos, hle⟩ := (acksNew_iff h.modest).mp hnew
    rw [h.inflight] at hle
    refine ⟨rfl, ?_, .inl ⟨rfl, ?_⟩⟩ <;> unfold posn at * <;> bv_omega

theorem keeps_compact (ha : Awaited isn sent c seg.ack)
    (hnew : (c.pullNxt seg).acksNew seg = true) :
    Keeps isn sent c ((c.pullNxt seg).compact seg) := by
  intro h
  have hlen := h.length
  have hsmall := h.small
  obtain ⟨hfs, hgt, hplace⟩ := h.compact_place ha hnew
  obtain ⟨htx, huna, -⟩ := pullNxt_tx c seg
  obtain ⟨hpend, hseq, hwire⟩ : (c.pullNxt seg).finPending = c.finPending ∧
      (c.pullNxt seg).finSeq = c.finSeq ∧ (c.pullNxt seg).wire = c.wire := by
    unfold pullNxt
    split <;> exact ⟨rfl, rfl, rfl⟩
  have hren : Renumbered isn sent c → Renumbered isn sent ((c.pullNxt seg).compact seg) := by
    show _ → (c.pullNxt seg).finSent = true ∧ posn isn (c.pullNxt seg).finSeq = _
    rw [hfs, hseq]
    exact id
  have hsub : (seg.ack - c.sndUna).toNat = posn isn seg.ack - posn isn c.sndUna := by
    unfold posn at hgt ⊢
    bv_omega
  refine ⟨⟨hsmall, ?_, fun hz => ?_, ?_, ?_, fun hf => ?_, fun hf => ?_, fun s hs => ?_⟩,
    fun hp => hpend.trans hp, hren⟩
  · show posn isn seg.ack ≤ posn isn (c.pullNxt seg).sndNxt
    omega
  · have hz : posn isn seg.ack = 0 := hz
    omega
  · show (c.pullNxt seg).tx.drop (min (seg.ack - (c.pullNxt seg).sndUna).toNat _) =
      sent.drop (posn isn seg.ack - 1)
    rw [htx, huna, hsub]
    by_cases hz : posn isn c.sndUna = 0
    · obtain ⟨-, rfl, -⟩ := h.opening hz
      simp [h.tx]
    · by_cases hall : posn isn seg.ack ≤ sent.length + 1
      · rw [Nat.min_eq_left (by omega), h.tx, drop_drop]
        congr 1
        omega
      · rw [Nat.min_eq_right (by omega), drop_length, drop_eq_nil_of_le (by omega)]
  · show ((c.pullNxt seg).tx.drop _).length ≤ _
    rw [htx, length_drop]
    exact (Nat.sub_le ..).trans h.bound
  · show posn isn (c.pullNxt seg).sndNxt ≤ _ ∨
      posn isn (c.pullNxt seg).sndNxt = _ ∧ posn isn seg.ack = _ ∧ (c.pullNxt seg).finPending = true
    rw [hpend]
    obtain ⟨he, hle⟩ | ⟨-, -, he, hle | ⟨heq, hp⟩⟩ := hplace
    · rw [he]
      obtain hu | ⟨hn, hu, hp⟩ := h.unsent (hfs ▸ hf)
      · exact .inl hu
      · omega
    · exact .inl (he ▸ hle)
    · exact .inr ⟨he.trans heq, heq, hp⟩
  · show (c.pullNxt seg).finPending = true ∧ posn isn (c.pullNxt seg).sndNxt =
      posn isn (c.pullNxt seg).finSeq + 1 ∧ (posn isn (c.pullNxt seg).finSeq = _ ∨
      posn isn (c.pullNxt seg).finSeq = _ ∧ _ ≤ posn isn seg.ack)
    have hfs' : c.finSent = true := hfs ▸ hf
    obtain ⟨hp, he', hpl⟩ := h.fin hfs'
    obtain ⟨he, hle⟩ | ⟨hns, -⟩ := hplace
    · rw [hpend, hseq, he]
      exact ⟨hp, he', hpl.imp_right fun hq => ⟨hq.1, by omega⟩⟩
    · cases hns.symm.trans hfs'
  · exact (h.wire s (hwire ▸ hs)).of_fields (fun hp => hpend.trans hp) hren

variable (link now) in
theorem keeps_ackWindow (ha : Awaited isn sent c seg.ack) :
    Keeps isn sent c (c.ackWindow link now seg) := by
  intro h
  refine ackWindow_rule (P := Keeps isn sent c) (fun hold => ?_) (keeps_compact ha)
    (fun hk => hk.trans keeps_quiet)
    (fun hk => hk.trans keeps_quiet)
    (fun hk => hk.trans (keeps_output link now)) h
  rw [pullNxt_of_old h.modest hold]
  exact .refl

def Early (isn : Seq) (c : Conn) : Prop :=
  c.state = .synSent ∨ c.state = .synRcvd → posn isn c.sndUna = 0

theorem early_of_late (h1 : c.state ≠ .synSent) (h2 : c.state ≠ .synRcvd) : Early isn c :=
  fun h => (h.elim h1 h2).elim

theorem early_closed (h : c.state = .closed) : Early isn c := by
  refine early_of_late ?_ ?_ <;> simp [h]

theorem posn_inj {s t : Seq} (h : posn isn s = posn isn t) : s = t := by
  unfold posn at h
  bv_omega

variable (link now c seg) in
theorem sndUna_ackWindow : (c.ackWindow link now seg).sndUna =
    if (c.pullNxt seg).acksNew seg then seg.ack else c.sndUna := by
  unfold ackWindow
  rw [sent_output.sndUna]
  unfold ackData
  split
  · show ((((c.pullNxt seg).compact seg).rearm now).output link now).sndUna = _
    rw [sent_output.sndUna, sent_rearm.sndUna]
    rfl
  · exact (pullNxt_tx c seg).2.1

variable (link now) in
theorem Sender.una_ackWindow (h : Sender isn sent c) (ha : Awaited isn sent c seg.ack) :
    posn isn (c.ackWindow link now seg).sndUna ≠ 0 := by
  have hpos := ha.1
  rw [sndUna_ackWindow]
  split
  · omega
  next hnew =>
    intro hz
    obtain ⟨he, rfl, hp, -⟩ := h.opening hz
    -- the peer can only have acknowledged our SYN, which would have been new
    obtain ⟨-, hle | ⟨hp', -⟩⟩ := ha
    · have hplace : posn isn seg.ack = posn isn c.sndNxt := by
        rw [length_nil] at hle
        omega
      have heq : seg.ack = c.sndNxt := posn_inj hplace
      rw [pullNxt_of_old h.modest hnew] at hnew
      refine hnew ((acksNew_iff h.modest).mpr ?_)
      rw [h.inflight, he, hz, heq]
      have hone : (c.sndNxt - c.sndUna).toNat = c.inflight := rfl
      rw [hone, h.inflight]
      omega
    · cases hp.symm.trans hp'

theorem keeps_acknowledge {full : Bool} (ha : seg.flags.ack = true → Awaited isn sent c seg.ack) :
    Keeps isn sent c (c.acknowledge link now full seg) := by
  intro h
  by_cases hack : seg.flags.ack = true
  swap
  · rw [acknowledge, if_neg hack]
    exact Keeps.refl h
  refine (acknowledge_rule (P := fun a => Keeps isn sent c a ∧ posn isn a.sndUna ≠ 0)
    (absurd hack) (fun _ => ⟨keeps_ackWindow link now (ha hack), h.una_ackWindow link now (ha hack)⟩)
    (fun _ hk => ⟨hk.1.trans (keeps_quiet fun hz => absurd hz hk.2), hk.2⟩) (fun {a} hk => ?_)
    fun hk => ⟨hk.1.trans (keeps_quiet fun hz => absurd hz hk.2), hk.2⟩).1 h
  have hem := (emitted_emit link (c := a) a.sndNxt { rst := true } []).sent
  have hrst : Keeps isn sent a (a.emit link a.sndNxt { rst := true } []).2 :=
    keeps_emit fun _ => carries_nothing rfl rfl rfl
  exact ⟨(hk.1.trans hrst).trans (keeps_quiet fun _ => .inr rfl), hem.sndUna ▸ hk.2⟩

theorem Sender.closing (h : Sender isn sent c) (hz : posn isn c.sndUna = 0) :
    closing c.state = c.state := by
  obtain ⟨-, -, -, hs | hs | hs⟩ := h.opening hz <;> rw [hs] <;> rfl

theorem keeps_conclude : Keeps isn sent c (c.conclude link now seg) := by
  refine conclude_rule .refl (keeps_quiet fun _ => .inr rfl)
    (fun h => h.trans keeps_emitAck) (fun _ _ => keeps_quiet)
    (fun _ _ h => h.trans keeps_quiet) fun h hc => ?_
  exact h.trans (keeps_quiet fun hz => .inl ((h hc).1.closing hz)) hc

theorem keeps_connected (hst : c.state = .synSent) (he : Early isn c)
    (hack : seg.ack = c.sndNxt) : Keeps isn sent c (c.connected seg) := by
  intro h
  obtain ⟨hnxt, rfl, hpend, -⟩ := h.opening (he (.inl hst))
  have hone : posn isn seg.ack = 1 := by rw [hack, hnxt]
  have hns : c.finSent = false := by
    by_contra hf
    cases hpend.symm.trans (h.fin ((Bool.not_eq_false _).mp hf)).1
  refine ⟨⟨h.small, ?_, fun hz => ?_, ?_, h.bound, fun _ => .inl ?_, fun hf => ?_, fun s hs => ?_⟩,
    id, id⟩
  · show posn isn seg.ack ≤ posn isn c.sndNxt
    omega
  · have hz : posn isn seg.ack = 0 := hz
    omega
  · show c.tx = [].drop _
    rw [h.tx, drop_nil, drop_nil]
  · exact hnxt.le.trans (Nat.le_add_left ..)
  · cases hns.symm.trans hf
  · exact (h.wire s hs).of_fields id id

variable (link now) in
theorem keeps_input (full : Bool) (he : Early isn c)
    (ha : seg.flags.ack = true → Awaited isn sent c seg.ack) :
    Keeps isn sent c (c.input link now full seg) := by
  refine input_rule .refl (keeps_quiet fun _ => .inr rfl) (fun hst _ heq => ?_) fun _ => ?_
  · exact ((keeps_connected hst he heq).trans keeps_emitAck).trans (keeps_output link now)
  · exact (keeps_acknowledge ha).trans keeps_conclude

theorem Sender.established {full : Bool} (h : Sender isn sent c) (he : Early isn c)
    (ha : Awaited isn sent c seg.ack) (hst : c.state = .synRcvd) :
    (c.takeAck link now full seg).state ≠ .synSent ∧
      (c.takeAck link now full seg).state ≠ .synRcvd := by
  obtain ⟨hnxt, rfl, hpend, -⟩ := h.opening (he (.inr hst))
  have hack : seg.ack = c.sndNxt := by
    obtain ⟨hpos, hle | ⟨hp, -⟩⟩ := ha
    · have hplace : posn isn seg.ack = posn isn c.sndNxt := by
        rw [length_nil] at hle
        omega
      exact posn_inj hplace
    · cases hpend.symm.trans hp
  have hpull : c.pullNxt seg = c := by
    rw [pullNxt_eq, if_neg]
    bv_omega
  have hacked := acked_ackWindow link now c seg
  have hleq : seqLeq (c.ackWindow link now seg).sndNxt seg.ack = true := by
    rw [sndNxt_ackWindow (hst ▸ rfl), hpull, hack, seqLeq_iff]
    simp
  unfold takeAck
  rw [establish, if_pos ⟨hacked.state.trans hst, hleq⟩]
  split <;> rw [ackFin1_fields.2.2 fun h => (by cases h)] <;>
    exact ⟨fun h => (by cases h), fun h => (by cases h)⟩

theorem early_sent (hs : Sent c c') (he : Early isn c) : Early isn c' := fun hst => by
  rw [hs.sndUna]
  exact he (hs.state ▸ hst)

theorem early_conclude (he : Early isn c) : Early isn (c.conclude link now seg) := by
  refine conclude_rule he (early_closed rfl) (early_sent (emitted_emitAck ..).sent) (fun _ _ => he)
    (fun _ _ => id) fun {a} ha hst => ?_
  obtain hc | ⟨h1, h2⟩ := @closing_early a.state
  · exact ha (hc ▸ hst)
  · exact (hst.elim h1 h2).elim

variable (link now) in
theorem Sender.early_input (full : Bool) (h : Sender isn sent c) (he : Early isn c)
    (ha : seg.flags.ack = true → Awaited isn sent c seg.ack) :
    Early isn (c.input link now full seg) := by
  refine input_rule he (early_closed rfl) (fun _ _ _ => ?_) fun hns => early_conclude ?_
  · have hopen : Early isn (c.connected seg) := early_of_late nofun nofun
    exact early_sent sent_output (early_sent (emitted_emitAck ..).sent hopen)
  unfold acknowledge
  split
  next hack =>
    by_cases hst : c.state = .synRcvd
    · obtain ⟨h1, h2⟩ := h.established he (ha hack) hst
      exact early_of_late h1 h2
    · have hacked := acked_ackWindow link now c seg
      unfold takeAck
      rw [establish_fields.2.2 (hacked.state ▸ hst)]
      unfold ackFin1
      split
      · exact early_of_late nofun nofun
      · exact early_of_late (hacked.state ▸ hns) (hacked.state ▸ hst)
  · exact he

theorem keeps_rollback {n : ℕ} (hne : c.tx ≠ []) (hn : n ≤ c.tx.length) :
    Keeps isn sent c
      { (c.emit link c.sndUna { psh := true, ack := true } (c.tx.take n)).2 with
        sndNxt := if n < c.inflight then c.sndUna + BitVec.ofNat 32 n else c.sndNxt
        finSent := false } := by
  intro h
  have hem := emitted_emit link (c := c) c.sndUna { psh := true, ack := true } (c.tx.take n)
  have hwire := @mem_wire_emit link c c.sndUna { psh := true, ack := true } (c.tx.take n)
  generalize (c.emit link c.sndUna { psh := true, ack := true } (c.tx.take n)).2 = a at hem hwire ⊢
  have hsmall := h.small
  have hlen := h.length
  have hfl := h.inflight
  have horder := h.order
  have hpos := length_pos_iff.mpr hne
  have hz : posn isn c.sndUna ≠ 0 := fun hz => by
    obtain ⟨-, rfl, -⟩ := h.opening hz
    simp [h.tx] at hne
  have hadd : posn isn (c.sndUna + BitVec.ofNat 32 n) = posn isn c.sndUna + n := posn_add (by omega)
  have hnxt : posn isn c.sndUna ≤
        posn isn (if n < c.inflight then c.sndUna + BitVec.ofNat 32 n else c.sndNxt) ∧
      posn isn (if n < c.inflight then c.sndUna + BitVec.ofNat 32 n else c.sndNxt) ≤
        sent.length + 1 := by
    split <;> omega
  have hren : ¬ Renumbered isn sent c := fun hr => by
    obtain ⟨-, -, hf | ⟨-, hf⟩⟩ := h.fin hr.1
    · have := hr.2
      omega
    · omega
  have hseg := h.carries_piece hz (n := n) (s := c.sndUna) (by omega : 0 + n ≤ _) rfl
  refine ⟨⟨hsmall, ?_, fun hz' => ?_, ?_, hem.sent.tx ▸ h.bound, fun _ => .inl hnxt.2,
    fun hf => (by cases hf), fun s hs => ?_⟩, fun hp => hem.sent.finPending.trans hp,
    fun hr => absurd hr hren⟩
  · rw [show posn isn _ = posn isn c.sndUna from congrArg _ hem.sent.sndUna]
    exact hnxt.1
  · exact absurd ((congrArg _ hem.sent.sndUna).symm.trans hz') hz
  · show a.tx = sent.drop (posn isn a.sndUna - 1)
    rw [hem.sent.tx, hem.sent.sndUna]
    exact h.tx
  · obtain hs | rfl := hwire hs
    · exact (h.wire s hs).of_fields (fun hp => hem.sent.finPending.trans hp) fun hr => absurd hr hren
    · exact hseg.of_fields (fun hp => hem.sent.finPending.trans hp) fun hr => absurd hr hren

theorem carries_syn {flags : Flags} (he : Early isn c)
    (hst : c.state = .synSent ∨ c.state = .synRcvd) (hf : flags.fin = false) :
    Carries isn sent c (c.segment c.sndUna flags []) := by
  have hz : posn isn c.sndUna = posn isn isn := by
    rw [he hst]
    simp [posn]
  exact ⟨fun hne => absurd rfl hne, fun h => (by cases hf.symm.trans h),
    fun _ => ⟨posn_inj hz, rfl, hf⟩⟩

theorem keeps_resend (he : Early isn c) : Keeps isn sent c (c.resend link) := by
  refine resend_rule .refl (fun hst hf => keeps_emit fun _ => carries_syn he hst hf)
    (fun hne hle => keeps_rollback hne hle) fun hf => keeps_emit fun h => ?_
  obtain ⟨hp, -, hplace⟩ := h.fin hf
  exact ⟨fun hne => absurd rfl hne,
    fun _ => ⟨rfl, hp, hplace.imp_right fun hq => ⟨hq.1, hf, hq.1⟩⟩, fun h => (by cases h)⟩

variable (link now) in
theorem keeps_sweep (he : Early isn c) : Keeps isn sent c (c.sweep link now) := by
  have htry : Keeps isn sent c { c with retries := c.retries + 1 } :=
    keeps_quiet
  refine sweep_rule .refl (keeps_quiet fun _ => .inr rfl) ?_ (fun ha => ?_) fun _ ha => ?_
  · exact (htry.trans (keeps_resend he)).trans keeps_quiet
  · exact ha.trans (keeps_quiet fun _ => .inr rfl)
  · exact ha.trans (keeps_quiet fun _ => .inr rfl)

variable (link now) in
theorem early_sweep (he : Early isn c) : Early isn (c.sweep link now) := by
  have hs := sent_resend link ({ c with retries := c.retries + 1 } : Conn)
  exact sweep_rule he (early_closed rfl) (early_sent hs he) (fun _ => early_closed rfl)
    fun _ _ => early_closed rfl

theorem keeps_askFin (hneed : c.needFin = true) : Keeps isn sent c c.askFin := by
  intro h
  have hz : posn isn c.sndUna ≠ 0 := h.opened (sends_of_needFin hneed)
  refine ⟨⟨h.small, h.order, fun hz' => absurd hz' hz, h.tx, h.bound, fun hf => ?_, fun hf => ?_,
    fun s hs => (h.wire s hs).of_fields (fun _ => rfl) id⟩, fun _ => rfl, id⟩
  · exact (h.unsent hf).imp_right fun hp => ⟨hp.1, hp.2.1, rfl⟩
  · exact ⟨rfl, (h.fin hf).2⟩

variable (link now) in
theorem keeps_startFin (hneed : c.needFin = true) : Keeps isn sent c (c.startFin link now) :=
  (keeps_askFin hneed).trans (keeps_output link now)

theorem early_startFin : Early isn (c.startFin link now) :=
  early_sent sent_output (askFin_rule (P := fun st => st = .synSent ∨ st = .synRcvd → _) nofun nofun)

theorem Carries.append (more : List Byte) (h : Carries isn sent c seg) (hp : c.finPending = false) :
    Carries isn (sent ++ more) c seg := by
  refine ⟨fun hne => ?_, fun hf => (by cases hp.symm.trans (h.fin hf).2.1), h.syn⟩
  obtain ⟨p, hle, hplace, hdata⟩ := h.data hne
  refine ⟨p, by rw [length_append]; omega, hplace, ?_⟩
  rw [drop_append_of_le_length (by omega), take_append_of_le_length]
  · exact hdata
  · rw [length_drop]
    omega

theorem Sender.queue {more : List Byte} (h : Sender isn sent c) (hp : c.finPending = false)
    (hst : c.state ≠ .closed ∧ c.state ≠ .synSent ∧ c.state ≠ .synRcvd)
    (hbound : c.tx.length + more.length ≤ tcpTxbuf)
    (hsmall : (sent ++ more).length + 4 < 2147483648) :
    Sender isn (sent ++ more) (c.queue more) := by
  have hns : c.finSent = false := by
    by_contra hf
    cases hp.symm.trans (h.fin ((Bool.not_eq_false _).mp hf)).1
  have hz : posn isn c.sndUna ≠ 0 := fun hz => by
    obtain ⟨-, -, -, hs | hs | hs⟩ := h.opening hz
    · exact hst.2.1 hs
    · exact hst.2.2 hs
    · exact hst.1 hs
  have horder := h.order
  have hnxt : posn isn c.sndNxt ≤ sent.length + 1 := by
    obtain hle | ⟨-, -, hp'⟩ := h.unsent hns
    · exact hle
    · cases hp.symm.trans hp'
  refine ⟨hsmall, horder, fun hz' => absurd hz' hz, ?_, ?_, fun _ => .inl ?_,
    fun hf => (by cases hns.symm.trans hf), fun s hs => ?_⟩
  · show c.tx ++ more = _
    rw [drop_append_of_le_length (by show posn isn c.sndUna - 1 ≤ _; omega), h.tx]
    rfl
  · show (c.tx ++ more).length ≤ _
    rw [length_append]
    exact hbound
  · show posn isn c.sndNxt ≤ _
    rw [length_append]
    omega
  · exact ((h.wire s hs).append more hp).of_fields id id

theorem sender_sendSyn {flags : Flags} (hf : flags.fin = false) (hdata : c.wire = [])
    (hnxt : c.sndNxt = isn) (huna : c.sndUna = isn) (htx : c.tx = []) (hns : c.finSent = false)
    (hp : c.finPending = false) (hst : c.state = .synSent ∨ c.state = .synRcvd) :
    Sender isn [] (c.sendSyn link now flags) ∧ Early isn (c.sendSyn link now flags) := by
  have hem := emitted_emit link (c := c) c.sndNxt flags []
  have hsent := sent_sendSyn link now c flags
  have hzero : posn isn (c.sendSyn link now flags).sndUna = 0 := by
    rw [hsent.sndUna, huna]
    simp [posn]
  have hone : posn isn (c.sendSyn link now flags).sndNxt = 1 := by
    show posn isn (c.sndNxt + 1) = 1
    unfold posn
    bv_omega
  refine ⟨⟨by decide, by omega, fun _ => ⟨hone, rfl, hsent.finPending.trans hp, ?_⟩, ?_, ?_,
    fun _ => .inl hone.le, fun h => ?_, fun s hs => ?_⟩, fun _ => hzero⟩
  · rw [hsent.state]
    exact hst.imp_right .inl
  · rw [hsent.tx, htx, drop_nil]
  · simp [hsent.tx, htx]
  · cases hns.symm.trans (hem.finSent.symm.trans h)
  · obtain hs | rfl := mem_wire_emit hs
    · rw [hdata] at hs
      cases hs
    · refine ⟨fun hne => absurd rfl hne, fun h => (by cases hf.symm.trans h), fun _ => ?_⟩
      exact ⟨hnxt, rfl, hf⟩

end Conn

end DosKernel.Net.Tcp

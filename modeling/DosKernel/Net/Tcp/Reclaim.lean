import DosKernel.Net.Tcp.Ledger
import Mathlib.Data.Finset.Lattice.Fold
import Mathlib.Data.Finset.Range

namespace DosKernel.Net.Tcp

open DosKernel.Lib Table Conn
open Function (update update_of_ne update_self)

namespace Conn

variable {link : Link} {now : ℕ} {c : Conn} {seg : Segment}

def Doomed (c : Conn) : Prop :=
  ∃ deadline, ∀ link link' t t', deadline ≤ t → deadline ≤ t' →
    ((c.sweep link t).sweep link' t').used = false

theorem reclaim_late (ho : c.orphan = true) (hl : c.lingerDeadline ≠ 0)
    (ht : c.lingerDeadline ≤ now) : (c.reclaim now).used = false := by
  have hexp : c.expired now = true := by simp [expired, hl, ht]
  unfold reclaim
  simp only [hexp, ho, Bool.or_true, Bool.and_self, if_true, and_true]
  split <;> rfl

theorem sweep_unused (h : c.used = false) : c.sweep link now = c := by
  rw [sweep, if_pos (by simp [h])]

theorem sweep_closed (hu : c.used = true) (hlis : c.listener = false) (hst : c.state = .closed)
    (ho : c.orphan = true) (hdue : c.armed = false) : (c.sweep link now).used = false := by
  rw [sweep, if_neg (by simp [hu, hlis]), if_neg (by simp [due, hdue]), reclaim,
    if_neg (by simp [hst]), if_pos (by simp [ho, hst])]
  rfl

def exhausted (c : Conn) : Conn :=
  { c with retries := c.retries + 1, reset := true, peerFin := true, state := .closed,
           rtoDeadline := 0 }

theorem doomed_of_orphan (hlis : c.listener = false) (ho : c.orphan = true)
    (hl : c.lingerDeadline ≠ 0) : c.Doomed := by
  refine ⟨c.lingerDeadline, fun link link' t t' ht _ => ?_⟩
  cases hu : c.used with
  | false =>
    rw [sweep_unused hu, sweep_unused hu]
    exact hu
  | true =>
    have hlive : ¬ (!c.used || c.listener) = true := by simp [hu, hlis]
    by_cases hdead : c.due t = true ∧ tcpRetriesMax < c.retries + 1
    · -- the last retransmission leaves a closed orphan for the next sweep
      rw [show c.sweep link t = c.exhausted by
        rw [sweep, if_neg hlive, if_pos hdead.1, if_pos hdead.2]
        rfl]
      exact sweep_closed hu hlis rfl ho rfl
    · have hfree : (c.sweep link t).used = false := by
        rw [sweep, if_neg hlive]
        split
        next hdue =>
          rw [if_neg fun hr => hdead ⟨hdue, hr⟩]
          have hsent := sent_resend link ({ c with retries := c.retries + 1 } : Conn)
          exact reclaim_late (hsent.orphan.trans ho) (ne_of_eq_of_ne hsent.lingerDeadline hl)
            (hsent.lingerDeadline.le.trans ht)
        · exact reclaim_late ho hl ht
      rw [sweep_unused hfree]
      exact hfree

def acksSyn (c : Conn) (seg : Segment) : Bool := seg.flags.ack && seqLeq c.sndNxt seg.ack

variable (link now) in
theorem Half.completes (h : c.Half) (hrst : seg.flags.rst = false) :
    c.completes link now seg = c.acksSyn seg := by
  rw [completes_eq h.state hrst, acksSyn]
  obtain ⟨hnxt, hleq⟩ | ⟨-, hnxt⟩ := h.ackWindow link now seg
  · rw [hnxt, hleq, seqLeq_iff.mpr (by simp)]
  · rw [hnxt]

end Conn

variable {conns conns' : ℕ → Conn} {owned owned' : ℕ → Bool} {i : ℕ}

-- The slot listens, is held, waits in a queue that is served, is in a handshake, or an orphan.
def Placed (conns : ℕ → Conn) (owned : ℕ → Bool) (i : ℕ) : Prop :=
  (conns i).listener = true ∨ owned i = true ∨ (∃ l, (conns l).Live ∧ i ∈ (conns l).aq) ∨
    ((conns i).state = .synRcvd ∧ (conns i).armed = true) ∨ (conns i).orphan = true

theorem Placed.mono (h : Placed conns owned i) (hlis : (conns' i).listener = (conns i).listener)
    (howned : owned i = true → owned' i = true)
    (hqueue : ∀ l, (conns l).Live → i ∈ (conns l).aq → (conns' l).Live ∧ i ∈ (conns' l).aq)
    (hhalf : (conns i).state = .synRcvd → (conns i).armed = true →
      (conns' i).state = .synRcvd ∧ (conns' i).armed = true)
    (horph : (conns' i).orphan = (conns i).orphan) : Placed conns' owned' i := by
  obtain h | h | ⟨l, hl, hi⟩ | ⟨hst, harm⟩ | h := h
  · exact .inl (hlis.trans h)
  · exact .inr (.inl (howned h))
  · exact .inr (.inr (.inl ⟨l, hqueue l hl hi⟩))
  · exact .inr (.inr (.inr (.inl (hhalf hst harm))))
  · exact .inr (.inr (.inr (.inr (horph.trans h))))

theorem Placed.same (h : Placed conns owned i) (hconn : conns' i = conns i)
    (howned : owned' i = owned i)
    (hqueue : ∀ l, (conns l).Live → i ∈ (conns l).aq → (conns' l).Live ∧ i ∈ (conns' l).aq) :
    Placed conns' owned' i :=
  h.mono (by rw [hconn]) (fun ho => howned.trans ho) hqueue
    (fun hst harm => by rw [hconn]; exact ⟨hst, harm⟩) (by rw [hconn])

theorem not_placed (h : Sound conns owned) (hhalf : (conns i).Half)
    (hlis : (conns' i).listener = false) (howned : owned' i = false)
    (hqueue : ∀ l, (conns' l).Live → i ∈ (conns' l).aq → (conns l).Live ∧ i ∈ (conns l).aq)
    (hst : (conns' i).state ≠ .synRcvd) (horph : (conns' i).orphan = false) :
    ¬ Placed conns' owned' i := by
  rintro (hp | hp | ⟨l, hl, hi⟩ | hp | hp)
  · cases hlis.symm.trans hp
  · cases howned.symm.trans hp
  · obtain ⟨hl, hi⟩ := hqueue l hl hi
    exact (h.queued l i hl hi).state hhalf.state
  · exact hst hp.1
  · cases horph.symm.trans hp

theorem unowned_of_half (h : Sound conns owned) (hhalf : (conns i).Half) : owned i = false := by
  by_contra ho
  exact ((h.slot i).held (by simpa using ho)).2.2 hhalf.state

namespace Ledger

variable {s : Ledger} {m : Moment}

def Reclaimable (s : Ledger) : Prop :=
  ∀ i, (s.conn i).used = true →
    Placed s.table.conns s.owned i ∧ ((s.conn i).orphan = true → (s.conn i).Doomed)

-- Two late sweeps make room for a SYN at a listener if none but orphans hold its four-tuple, and a
-- slot is free or an orphan's.
def AnswersAgain (s : Ledger) : Prop :=
  ∃ deadline, ∀ m m' : Moment, deadline ≤ m.now → deadline ≤ m'.now → ∀ (p : Packet) (l j : ℕ),
    p.seg.flags.syn = true → p.seg.flags.rst = false →
    l < tcpMaxConns → (s.conn l).isListeningAt p.dstIp p.dstPort = true →
    (∀ i, (s.conn i).isFor p.dstIp p.dstPort p.srcIp p.srcPort = true → (s.conn i).orphan = true) →
    j < tcpMaxConns → ((s.conn j).used = true → (s.conn j).orphan = true) →
    ∃ l' j', ((s.step (m, .sweep)).step (m', .sweep)).table.route p = .spawn l' j'

def AllPlaced (s : Ledger) : Prop :=
  ∀ i, (s.conn i).used = true → Placed s.table.conns s.owned i

theorem reclaimable_of_placed (h : Sound s.table.conns s.owned) (hp : s.AllPlaced) :
    s.Reclaimable := by
  refine fun i hu => ⟨hp i hu, fun ho => ?_⟩
  have hlis : (s.conn i).listener = false := by
    by_contra hl
    have := ((h.slot i).listening hu ((Bool.not_eq_false _).mp hl)).1
    cases this.symm.trans ho
  exact doomed_of_orphan hlis ho ((h.slot i).lingers ho)

def parentLive (s : Ledger) (i : ℕ) : Bool :=
  match (s.conn i).parent with
  | none => false
  | some l => decide (s.conn l).Live

-- A handshake is lost by a reset, an acknowledgement without its listener, the last retransmission.
def leaksAt (s : Ledger) (i : ℕ) (seg : Segment) : Bool :=
  decide ((s.conn i).state = .synRcvd) &&
    (seg.flags.rst || (s.conn i).acksSyn seg && !s.table.parentFull i && !s.parentLive i)

def leaksPacket (s : Ledger) (p : Packet) : Bool :=
  match s.table.route p with
  | .refused | .spawn .. => false
  | .deliver i => s.leaksAt i p.seg

def leaks (s : Ledger) (e : Moment × Call) : Bool :=
  match e.2 with
  | .packet p => s.leaksPacket p
  | .sweep => (List.range tcpMaxConns).any fun i =>
    (s.conn i).used && decide ((s.conn i).state = .synRcvd) && (s.conn i).due e.1.now &&
      decide (tcpRetriesMax ≤ (s.conn i).retries)
  | _ => false

section Deliver

variable {seg : Segment} (hused : (s.conn i).used = true) (hlis : (s.conn i).listener = false)

include hused hlis

theorem placed_deliver (h : Sound s.table.conns s.owned) (hp : s.AllPlaced)
    (hno : s.leaksAt i seg = false) :
    ({ s with table := s.table.deliver m.links m.now i seg } : Ledger).AllPlaced := by
  intro j hu
  obtain ⟨hfu, hfs, hfa, hfl, hfo, -⟩ := s.told_fields m i seg j
  have hrst : (s.conn i).state = .synRcvd → seg.flags.rst = false := by
    intro hst
    simp only [leaksAt, hst, decide_true, Bool.true_and, Bool.or_eq_false_iff] at hno
    exact hno.1
  by_cases hdone : j = i ∧ (s.conn i).completes (m.links i) m.now seg = true
  · obtain ⟨rfl, hc⟩ := hdone
    have hst := completes_state hc
    have hhalf := (h.slot j).half hused hst
    have hfull : s.table.parentFull j = false := by
      by_contra hfull
      have hgone := hhalf.completed (s.table.parentFull j) hc
      rw [if_pos ((Bool.not_eq_false _).mp hfull), ← delivered_self] at hgone
      cases hgone.symm.trans (hfu.symm.trans hu)
    obtain ⟨l, hpar⟩ := Option.isSome_iff_exists.mp hhalf.parent
    have hlive : (s.conn l).Live := by
      have hack := hc
      rw [hhalf.completes (m.links j) m.now (hrst hst)] at hack
      have hpl : s.parentLive j = true := by
        by_contra hpl
        simp [leaksAt, hst, hack, hfull, hpl] at hno
      simpa only [parentLive, hpar, decide_eq_true_eq] using hpl
    exact .inr (.inr (.inl ⟨l, (live_told hlis).mpr hlive,
      (mem_told hlis hlive).mpr (.inr ⟨rfl, hpar, hc, hfull⟩)⟩))
  · refine (hp j (used_of_told hused hu)).mono hfl id
      (fun l hl hj => ⟨(live_told hlis).mpr hl, (mem_told hlis hl).mpr (.inl hj)⟩) (fun hst harm => ?_)
      hfo
    change (s.told m i seg j).state = .synRcvd ∧ (s.told m i seg j).armed = true
    rw [hfs, hfa]
    by_cases hji : j = i
    · subst hji
      have hcont := ((h.slot j).half hused hst).continued (s.table.parentFull j) (hrst hst)
        ((Bool.not_eq_true _).mp fun hc => hdone ⟨rfl, hc⟩)
      rw [delivered_self]
      exact ⟨hcont.state, hcont.armed⟩
    · rw [delivered_other hji]
      exact ⟨hst, harm⟩

theorem leaks_deliver (h : Sound s.table.conns s.owned) (hleak : s.leaksAt i seg = true) :
    (s.told m i seg i).used = true ∧ ¬ Placed (s.told m i seg) s.owned i := by
  obtain ⟨hfu, hfs, -, hfl, hfo, -⟩ := s.told_fields m i seg i
  rw [delivered_self] at hfu hfs
  simp only [leaksAt, Bool.and_eq_true, decide_eq_true_eq, Bool.or_eq_true, Bool.not_eq_true'] at hleak
  obtain ⟨hst, hleak⟩ := hleak
  have hhalf := (h.slot i).half hused hst
  -- it joins no queue that is served, and its handshake is over
  have hlost : (∀ l, (s.conn l).Live → ¬ s.Joins m i seg l) ∧ (s.told m i seg i).used = true ∧
      (s.told m i seg i).state ≠ .synRcvd := by
    rw [hfu, hfs]
    cases hrst : seg.flags.rst with
    | true =>
      rw [show (s.conn i).input (m.links i) m.now (s.table.parentFull i) seg = (s.conn i).inputRst from
        if_pos hrst]
      refine ⟨fun l _ hj => ?_, hused, fun hs => by cases hs⟩
      have hc := hj.2.1
      simp [completes, hrst] at hc
    | false =>
      obtain hr | ⟨⟨hack, hnf⟩, hpl⟩ := hleak
      · cases hrst.symm.trans hr
      rw [← hhalf.completes (m.links i) m.now hrst] at hack
      have hdone := hhalf.completed (s.table.parentFull i) hack
      rw [hnf, if_neg Bool.false_ne_true, ← hnf] at hdone
      refine ⟨fun l hl hj => ?_, hdone.1.trans hused, hdone.2⟩
      simp [parentLive, hj.1, hl] at hpl
  refine ⟨hlost.2.1, not_placed h hhalf (hfl.trans hlis) (unowned_of_half h hhalf) (fun l hl hi => ?_)
    hlost.2.2 (hfo.trans hhalf.orphan)⟩
  have hl := (live_told hlis).mp hl
  obtain hi | ⟨-, hj⟩ := (mem_told hlis hl).mp hi
  · exact ⟨hl, hi⟩
  · exact absurd hj (hlost.1 l hl)

end Deliver

theorem sweep_listener {c : Conn} {link : Link} {now : ℕ} (h : c.listener = true) :
    c.sweep link now = c := by
  rw [Conn.sweep, if_pos (by simp [h])]

theorem isFor_of_sweep {c : Conn} {link : Link} {now a b x y : ℕ}
    (h : (c.sweep link now).isFor a b x y = true) : c.isFor a b x y = true := by
  let tuple (c : Conn) := (c.localIp, c.localPort, c.peerIp, c.peerPort)
  have htuple : tuple (c.sweep link now) = tuple c := by
    refine sweep_rule (P := fun a => tuple a = tuple c) rfl rfl ?_ id fun _ => id
    exact (congrArg tuple (sent_resend link ({ c with retries := c.retries + 1 } : Conn)) :)
  simp only [tuple, Prod.mk.injEq] at htuple
  have hused := (sweep_fields link now c).2.1
  have hlis := mark_listener (mark_sweep link now c)
  simp only [isFor, htuple, hlis, Bool.and_eq_true] at h ⊢
  exact ⟨⟨⟨⟨⟨hused h.1.1.1.1.1, h.1.1.1.1.2⟩, h.1.1.1.2⟩, h.1.1.2⟩, h.1.2⟩, h.2⟩

theorem answersAgain_of_reclaimable (hr : s.Reclaimable) : s.AnswersAgain := by
  have hdoom : ∀ i, ∃ deadline, ((s.conn i).used = true → (s.conn i).orphan = true) →
      ∀ link link' t t', deadline ≤ t → deadline ≤ t' →
        (((s.conn i).sweep link t).sweep link' t').used = false := by
    intro i
    cases hu : (s.conn i).used with
    | false =>
      refine ⟨0, fun _ link link' t t' _ _ => ?_⟩
      rw [sweep_unused hu, sweep_unused hu]
      exact hu
    | true =>
      by_cases ho : (s.conn i).orphan = true
      · obtain ⟨deadline, hd⟩ := (hr i hu).2 ho
        exact ⟨deadline, fun _ => hd⟩
      · exact ⟨0, fun hno => absurd (hno rfl) ho⟩
  choose deadline hdeadline using hdoom
  refine ⟨(Finset.range tcpMaxConns).sup deadline,
    fun m m' hm hm' p l j hsyn hrst hl hlis honly hj hfree => ?_⟩
  generalize hs' : (s.step (m, .sweep)).step (m', .sweep) = s'
  have hconn : ∀ i, s'.conn i = ((s.conn i).sweep (m.links i) m.now).sweep (m'.links i) m'.now :=
    fun i => by rw [← hs']; rfl
  have hgone : ∀ i < tcpMaxConns, ((s.conn i).used = true → (s.conn i).orphan = true) →
      (s'.conn i).used = false := by
    intro i hi ho
    have hle := Finset.le_sup (f := deadline) (Finset.mem_range.mpr hi)
    rw [hconn]
    exact hdeadline i ho _ _ _ _ (hle.trans hm) (hle.trans hm')
  have hkeep : ∀ i, (s.conn i).listener = true → s'.conn i = s.conn i := by
    intro i hi
    rw [hconn, sweep_listener hi, sweep_listener hi]
  -- no connection is left to take the segment, a listener is, and a slot is free
  have hnone : (List.range tcpMaxConns).find? (fun i =>
      (s'.conn i).isFor p.dstIp p.dstPort p.srcIp p.srcPort) = none := by
    refine List.find?_eq_none.mpr fun i hi hfor => ?_
    have ho := honly i (isFor_of_sweep (isFor_of_sweep (hconn i ▸ hfor)))
    have hgone := hgone i (List.mem_range.mp hi) fun _ => ho
    simp [isFor, hgone] at hfor
  obtain ⟨l', hl'⟩ : ∃ l', (List.range tcpMaxConns).find? (fun i =>
      (s'.conn i).isListeningAt p.dstIp p.dstPort) = some l' := by
    refine Option.isSome_iff_exists.mp (List.find?_isSome.mpr ⟨l, List.mem_range.mpr hl, ?_⟩)
    have hlistener : (s.conn l).listener = true := by
      simp only [isListeningAt, Bool.and_eq_true] at hlis
      exact hlis.1.1.1.2
    rw [hkeep l hlistener]
    exact hlis
  have hl'lis : (s'.conn l').listener = true := by
    have := List.find?_some hl'
    simp only [isListeningAt, Bool.and_eq_true] at this
    exact this.1.1.1.2
  obtain ⟨j', hj'⟩ : ∃ j', s'.table.alloc = some j' := by
    refine Option.isSome_iff_exists.mp (List.find?_isSome.mpr ⟨j, List.mem_range.mpr hj, ?_⟩)
    simpa using hgone j hj hfree
  refine ⟨l', j', ?_⟩
  have hlookup : s'.table.lookup p.dstIp p.dstPort p.srcIp p.srcPort = some l' := by
    rw [lookup, hnone, hl']
    rfl
  simp [route, hlookup, hl'lis, hrst, hsyn, hj']

theorem placed_sweep (h : Sound s.table.conns s.owned) (hused : (s.conn i).used = true)
    (hp : Placed s.table.conns s.owned i)
    (hno : (s.conn i).state = .synRcvd → ¬ ((s.conn i).due m.now = true ∧ tcpRetriesMax ≤ (s.conn i).retries)) :
    Placed (s.table.sweep m.links m.now).conns s.owned i := by
  have hm := s.mark_swept m
  refine hp.mono (mark_listener (hm i)) id (fun l hl hi => ?_) (fun hst _ => ?_)
    (mark_orphan (hm i))
  · show ((s.conn l).sweep (m.links l) m.now).Live ∧ i ∈ ((s.conn l).sweep (m.links l) m.now).aq
    rw [sweep_listener hl.2]
    exact ⟨hl, hi⟩
  · have hsw := ((h.slot i).half hused hst).sweep (m.links i) m.now hused
    rw [if_neg (hno hst)] at hsw
    exact ⟨hsw.state, hsw.armed⟩

theorem leaks_sweep (h : Sound s.table.conns s.owned) (hused : (s.conn i).used = true)
    (hst : (s.conn i).state = .synRcvd)
    (hdead : (s.conn i).due m.now = true ∧ tcpRetriesMax ≤ (s.conn i).retries) :
    ((s.conn i).sweep (m.links i) m.now).used = true ∧
      ¬ Placed (s.table.sweep m.links m.now).conns s.owned i := by
  have hhalf := (h.slot i).half hused hst
  have hm := s.mark_swept m
  have hf := fun i => sweep_fields (m.links i) m.now (s.conn i)
  have hsw := hhalf.sweep (m.links i) m.now hused
  rw [if_pos hdead] at hsw
  refine ⟨((hf i).1 hhalf.orphan).trans hused, not_placed h hhalf
    ((mark_listener (hm i)).trans hhalf.listener) (unowned_of_half h hhalf) (fun l hl hi => ?_)
    (fun hs => ?_) ((mark_orphan (hm i)).trans hhalf.orphan)⟩
  · exact ⟨⟨(hf l).2.1 hl.1, mark_listener (hm l) ▸ hl.2⟩, mark_aq (hm l) ▸ hi⟩
  · cases hsw.symm.trans hs

theorem placed_update {c : Conn} {b : Bool} {j : ℕ} (hp : s.AllPlaced)
    (hlive : ¬ (s.conn i).Live) (hi : c.used = true → b = true ∨ c.listener = true ∨
      (c.state = .synRcvd ∧ c.armed = true) ∨ c.orphan = true)
    (hu : (update s.table.conns i c j).used = true) :
    Placed (update s.table.conns i c) (update s.owned i b) j := by
  by_cases hji : j = i
  · subst hji
    rw [update_self] at hu
    unfold Placed
    rw [update_self, update_self]
    obtain hb | hl | hh | ho := hi hu
    · exact .inr (.inl hb)
    · exact .inl hl
    · exact .inr (.inr (.inr (.inl hh)))
    · exact .inr (.inr (.inr (.inr ho)))
  · rw [update_of_ne hji] at hu
    refine (hp j hu).same (update_of_ne hji ..) (update_of_ne hji ..) fun l hl hj => ?_
    have hli : l ≠ i := by
      rintro rfl
      exact hlive hl
    rw [update_of_ne hli]
    exact ⟨hl, hj⟩

theorem placed_accept {l n : ℕ} (h : Sound s.table.conns s.owned) (hp : s.AllPlaced) :
    (s.accept l n).AllPlaced := by
  unfold accept
  split
  · exact hp
  rename_i i t ha
  have hands := hands_accept h ha
  intro j hu
  obtain ⟨hfu, hfl, hfo, hfs, hfa, -⟩ := hands.fields j
  by_cases hji : j = i
  · exact .inr (.inl (hji ▸ update_self ..))
  · refine (hp j (hfu.symm.trans hu)).mono hfl (fun ho => (update_of_ne hji ..).trans ho)
      (fun k hk hj => ⟨hands.live_iff.mpr hk, (hands.mem k j hk).mpr ⟨hj, hji⟩⟩)
      (fun hst harm => ⟨hfs.trans hst, hfa.trans harm⟩) hfo

theorem placed_closeListener {l : ℕ} (h : Sound s.table.conns s.owned) (hp : s.AllPlaced)
    (hlive : (s.conn l).Live) : (s.step (m, .closeListener l)).AllPlaced := by
  intro j hu
  obtain ⟨hjl, hjq, hsame⟩ := shut_used h hlive hu
  refine (hp j (hsame ▸ hu)).same hsame (update_of_ne hjl ..) fun k hk hj => ?_
  have hkl : k ≠ l := by
    rintro rfl
    exact hjq hj
  have hkept := shut_live (m := m) h hlive hk hkl
  exact ⟨(congrArg Live hkept).mpr hk, (congrArg (j ∈ aq ·) hkept).mpr hj⟩

theorem leaks_sweep_iff {m : Moment} : s.leaks (m, .sweep) = true ↔ ∃ i < tcpMaxConns,
    (s.conn i).used = true ∧ (s.conn i).state = .synRcvd ∧ (s.conn i).due m.now = true ∧
      tcpRetriesMax ≤ (s.conn i).retries := by
  simp only [leaks, List.any_eq_true, List.mem_range, Bool.and_eq_true, decide_eq_true_eq, and_assoc]

theorem Grown.placed {s' : Ledger} (hg : s.Grown s') (hp : s.AllPlaced) : s'.AllPlaced := by
  cases hg with
  | same => exact hp
  | @born t i c o b _ hi ht hc =>
    intro j hu
    show Placed t.conns (update s.owned i b) j
    replace hu : (t.conns j).used = true := hu
    rw [ht] at hu ⊢
    refine placed_update hp (fun hl => ?_) (fun _ => ?_) hu
    · cases hi.2.symm.trans hl.1
    · exact hc.held.imp And.left fun hh => .inr (.inl hh.2)

theorem Replaces.placed {c : Conn} {b : Bool} (hr : s.Replaces i c b) (hp : s.AllPlaced) :
    (s.replace i c b).AllPlaced := by
  intro j hu
  refine placed_update hp (fun hl => ?_) (fun hu => ?_) hu
  · cases hr.listener.symm.trans hl.2
  · exact (hr.stays hu).imp_right fun ho => .inr (.inr ho)

theorem placed_step {e : Moment × Call} (h : Sound s.table.conns s.owned) (hp : s.AllPlaced)
    (hlegal : s.legal e.2 = true) : (s.step e).AllPlaced ↔ s.leaks e = false := by
  obtain ⟨m, call⟩ := e
  cases call with
  | packet p =>
    show (s.packet m p).AllPlaced ↔ s.leaksPacket p = false
    unfold leaksPacket
    obtain ⟨hg, hroute⟩ | ⟨i, hroute, hu, hl, heq⟩ := s.packet_cases m p
    · refine iff_of_true (hg.placed hp) ?_
      split
      · rfl
      · rfl
      next i hi =>
        exact absurd hi (hroute i)
    · rw [heq, hroute]
      dsimp only
      cases hleak : s.leaksAt i p.seg with
      | false => exact iff_of_true (placed_deliver hu hl h hp hleak) rfl
      | true =>
        refine iff_of_false (fun hall => ?_) (by simp)
        obtain ⟨hused, hnot⟩ := leaks_deliver (m := m) hu hl h hleak
        exact hnot (hall i hused)
  | sweep =>
    rw [← Bool.not_eq_true, leaks_sweep_iff]
    constructor
    · rintro hall ⟨i, -, hu, hst, hdead⟩
      obtain ⟨hused, hnot⟩ := leaks_sweep (m := m) h hu hst hdead
      exact hnot (hall i hused)
    · intro hno j hu
      have hused := (sweep_fields (m.links j) m.now (s.conn j)).2.1 hu
      exact placed_sweep h hused (hp j hused) fun hst hdead =>
        hno ⟨j, h.bound j hused, hused, hst, hdead⟩
  | listen ip port backlog => exact iff_of_true (grown_listen.placed hp) rfl
  | connect dev localIp ip port => exact iff_of_true (grown_connect.placed hp) rfl
  | connectEnd i => exact iff_of_true ((replaces_connectEnd h hlegal).placed hp) rfl
  | accept l n => exact iff_of_true (placed_accept h hp) rfl
  | call i ev => exact iff_of_true ((replaces_call h hlegal).placed hp) rfl
  | closeListener l =>
    simp only [legal, Bool.and_eq_true] at hlegal
    exact iff_of_true (placed_closeListener h hp ⟨((h.slot l).held hlegal.1).1, hlegal.2⟩) rfl

-- From an empty table every slot stays reclaimable exactly as long as no handshake is lost.
theorem reclaimable_iff_never_leaks {events : List (Moment × Call)}
    (hlegal : Allowed step (fun s e => s.legal e.2 = true) {} events) :
    Always step (fun s => s.Reclaimable ∧ s.AnswersAgain) {} events ↔
      Allowed step (fun s e => s.leaks e = false) {} events := by
  let Inv (s : Ledger) : Prop := Sound s.table.conns s.owned ∧ s.AllPlaced
  have hstep : ∀ (s : Ledger) (e : Moment × Call), Inv s → s.legal e.2 = true →
      s.leaks e = false → Inv (s.step e) :=
    fun s e hinv hok hno => ⟨sound_step hinv.1 hok, (placed_step hinv.1 hinv.2 hok).mpr hno⟩
  apply always_iff_allowed hstep
  · intro s hinv
    have hr := reclaimable_of_placed hinv.1 hinv.2
    exact ⟨hr, answersAgain_of_reclaimable hr⟩
  · intro s e hinv hok hP
    exact (placed_step hinv.1 hinv.2 hok).mp fun j hu => (hP.1 j hu).1
  · exact ⟨sound_empty, fun j hu => by cases hu⟩
  · exact hlegal

def servedEvents : List (Moment × Call) := [
  (clear 1, .listen 0 80 4), (clear 2, .packet (toServer (Conn.synOf 100))),
  (clear 3, .packet (toServer (Conn.ackOf 0x12001 100))), (clear 4, .accept 0 0),
  (clear 5, .call 1 .closeBegin), (clear 6, .call 1 .closeEnd), (clear 10000000007, .sweep)]

theorem servedEvents_reclaimable :
    Always step (fun s => s.Reclaimable ∧ s.AnswersAgain) {} servedEvents :=
  (reclaimable_iff_never_leaks (by decide +kernel)).mpr (by decide +kernel)

-- A SYN and a RST from the network: the slot is taken for good, and with it the four-tuple.
def resetEvents : List (Moment × Call) := [
  (clear 1, .listen 0 80 4), (clear 2, .packet (toServer (Conn.synOf 100))),
  (clear 3, .packet (toServer { Conn.synOf 100 with flags := { rst := true } }))]

theorem sweeps_idle (hidle : ∀ i, (s.conn i).used = false ∨ (s.conn i).listener = true ∨
    (s.conn i).state = .closed ∧ (s.conn i).armed = false ∧ (s.conn i).orphan = false)
    (sweeps : List Moment) : run step s (sweeps.map fun m => (m, .sweep)) = s := by
  have hsweep : ∀ m : Moment, s.step (m, .sweep) = s := by
    intro m
    have hconns : (fun i => (s.conn i).sweep (m.links i) m.now) = s.table.conns := by
      funext i
      obtain hu | hl | ⟨hst, harm, ho⟩ := hidle i
      · exact sweep_unused hu
      · exact sweep_listener hl
      · unfold Conn.sweep
        split
        · rfl
        · rw [if_neg (by simp [Conn.due, harm]), Conn.reclaim, if_neg (by simp [hst]),
            if_neg (by simp [ho])]
    show ({ s with table := { s.table with conns := fun i => (s.conn i).sweep (m.links i) m.now } } :
      Ledger) = s
    rw [hconns]
  induction sweeps with
  | nil => rfl
  | cons m sweeps ih =>
    rw [List.map_cons, run, List.foldl_cons, hsweep m]
    exact ih

theorem resetEvents_occupies :
    Allowed step (fun s e => s.legal e.2 = true) {} resetEvents ∧
      ¬ Always step (fun s => s.Reclaimable ∧ s.AnswersAgain) {} resetEvents ∧
      ∀ sweeps : List Moment,
        (run step (run step {} resetEvents) (sweeps.map fun m => (m, .sweep))).table.route
          (toServer (Conn.synOf 100)) = .deliver 1 := by
  have hlegal : Allowed step (fun s e => s.legal e.2 = true) {} resetEvents := by decide +kernel
  have hsound := sound_run hlegal
  refine ⟨hlegal, fun h => ?_, fun sweeps => ?_⟩
  · obtain hp | hp | ⟨l, hl, hq⟩ | hp | hp := (h.last.1 1 (by decide +kernel)).1
    · exact absurd hp (by decide +kernel)
    · exact absurd hp (by decide +kernel)
    · have hno : ∀ l < tcpMaxConns, 1 ∉ ((run step {} resetEvents).conn l).aq := by decide +kernel
      exact hno l (hsound.bound l hl.1) hq
    · exact absurd hp.1 (by decide +kernel)
    · exact absurd hp (by decide +kernel)
  · rw [sweeps_idle]
    · decide +kernel
    · intro i
      have hslots : ∀ i < tcpMaxConns, ((run step {} resetEvents).conn i).used = false ∨
          ((run step {} resetEvents).conn i).listener = true ∨
          ((run step {} resetEvents).conn i).state = .closed ∧
            ((run step {} resetEvents).conn i).armed = false ∧
            ((run step {} resetEvents).conn i).orphan = false := by decide +kernel
      by_cases hi : i < tcpMaxConns
      · exact hslots i hi
      · left
        by_contra hu
        exact hi (hsound.bound i ((Bool.not_eq_false _).mp hu))

-- In every run the accept queues hold only what `accept` may hand out.
theorem queues_sound {events : List (Moment × Call)}
    (hlegal : Allowed step (fun s e => s.legal e.2 = true) {} events) :
    Always step (fun s => Sound s.table.conns s.owned) {} events :=
  always_of_allowed (fun _ _ => sound_step) (fun _ => id) sound_empty hlegal

theorem resetEvents_queues_sound :
    Allowed step (fun s e => s.legal e.2 = true) {} resetEvents ∧
      Always step (fun s => Sound s.table.conns s.owned) {} resetEvents := by
  have hlegal : Allowed step (fun s e => s.legal e.2 = true) {} resetEvents := by decide +kernel
  exact ⟨hlegal, queues_sound hlegal⟩

end Ledger

end DosKernel.Net.Tcp

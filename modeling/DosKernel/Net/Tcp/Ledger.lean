import DosKernel.Lib.Run
import DosKernel.Lib.Update
import DosKernel.Net.Tcp.Slots

namespace DosKernel.Net.Tcp

open DosKernel.Lib Conn List Table
open Function (update update_eq_self update_of_ne update_self)

-- The table with what the code does not record: who holds a slot, which occupant this is, and which
-- listener's SYN made it.

structure Moment where
  now : ℕ
  links : ℕ → Link

inductive Call where
  | packet (p : Packet)
  | sweep
  | listen (ip port : ℕ) (backlog : ℤ)
  | connect (dev : Device) (localIp ip port : ℕ)
  | connectEnd (i : ℕ)
  | accept (l n : ℕ)
  | call (i : ℕ) (ev : Event)
  | closeListener (l : ℕ)

structure Ledger where
  table : Table := {}
  owned : ℕ → Bool := fun _ => false
  inst : ℕ → ℕ := fun _ => 0
  origin : ℕ → Option ℕ := fun _ => none
  accepted : ℕ → Bool := fun _ => false
  next : ℕ := 0
  listeners : List (ℕ × ℕ) := []
  taken : List (ℕ × Option ℕ) := []

namespace Ledger

variable (s : Ledger)

abbrev conn (i : ℕ) : Conn := s.table.conns i

def born (t : Table) (j : ℕ) (origin : Option ℕ) (owned : Bool) : Ledger :=
  { s with
    table := t
    owned := update s.owned j owned
    inst := update s.inst j s.next
    origin := update s.origin j origin
    accepted := update s.accepted j false
    next := s.next + 1 }

def packet (m : Moment) (p : Packet) : Ledger :=
  match s.table.route p with
  | .refused => s
  | .spawn l j => s.born (s.table.spawn m.links m.now p l j) j (some (s.inst l)) false
  | .deliver i => { s with table := s.table.deliver m.links m.now i p.seg }

def listen (ip port : ℕ) (backlog : ℤ) : Ledger :=
  match s.table.listen ip port backlog with
  | (none, _) => s
  | (some l, t) => { s.born t l none true with listeners := (l, s.next) :: s.listeners }

def connect (m : Moment) (dev : Device) (localIp ip port : ℕ) : Ledger :=
  match s.table.connect m.links m.now dev localIp ip port with
  | (none, _) => s
  | (some i, t) => s.born t i none true

-- A listener's handle is its slot and the number `n` of its occupant; the code has only the slot.
def accept (l n : ℕ) : Ledger :=
  match s.table.accept l with
  | (none, _) => s
  | (some i, t) =>
    { s with
      table := t
      owned := update s.owned i true
      accepted := update s.accepted i true
      taken := (n, s.origin i) :: s.taken }

def replace (i : ℕ) (c : Conn) (owned : Bool) : Ledger :=
  { s with table := s.table.set i c, owned := update s.owned i owned }

def step (e : Moment × Call) : Ledger :=
  match e.2 with
  | .packet p => s.packet e.1 p
  | .sweep => { s with table := s.table.sweep e.1.links e.1.now }
  | .listen ip port backlog => s.listen ip port backlog
  | .connect dev localIp ip port => s.connect e.1 dev localIp ip port
  | .connectEnd i =>
    s.replace i (s.conn i).connectEnd (decide ((s.conn i).state = .established))
  | .accept l n => s.accept l n
  | .call i ev => s.replace i ((s.conn i).step (e.1.links i) (e.1.now, ev)) (!ev.isLast)
  | .closeListener l =>
    { s with
      table := s.table.closeListener e.1.links l
      owned := update s.owned l false }

-- Callers use what they hold; `net_tcp_accept` may have waited while its listener was closed.
def legal : Call → Bool
  | .connectEnd i => s.owned i && !(s.conn i).listener
  | .accept l n => s.listeners.contains (l, n)
  | .call i ev => s.owned i && !(s.conn i).listener && ev.isCall
  | .closeListener l => s.owned l && (s.conn l).listener
  | _ => true

end Ledger

namespace Conn

def Live (c : Conn) : Prop := c.used = true ∧ c.listener = true

instance : DecidablePred Live := fun _ => inferInstanceAs (Decidable (_ ∧ _))

structure Member (c : Conn) (owned : Bool) : Prop where
  used : c.used = true
  listener : c.listener = false
  unowned : owned = false
  orphan : c.orphan = false
  state : c.state ≠ .synRcvd

end Conn

structure Sound (conns : ℕ → Conn) (owned : ℕ → Bool) : Prop where
  bound : ∀ i, (conns i).used = true → i < tcpMaxConns
  slot : ∀ i, (conns i).SlotOk (owned i)
  queued : ∀ l i, (conns l).Live → i ∈ (conns l).aq → (conns i).Member (owned i)
  nodup : ∀ l, (conns l).Live → (conns l).aq.Nodup
  single : ∀ l l' i, (conns l).Live → (conns l').Live → i ∈ (conns l).aq → i ∈ (conns l').aq → l = l'

variable {conns conns' : ℕ → Conn} {owned owned' : ℕ → Bool}

theorem Sound.change (h : Sound conns owned) (hbound : ∀ i, (conns' i).used = true → i < tcpMaxConns)
    (hslot : ∀ i, (conns' i).SlotOk (owned' i))
    (hlive : ∀ l, (conns' l).Live → (conns' l).aq ≠ [] →
      (conns l).Live ∧ (conns' l).aq.Sublist (conns l).aq)
    (hmem : ∀ l i, (conns' l).Live → i ∈ (conns' l).aq → (conns i).Member (owned i) →
      (conns' i).Member (owned' i)) : Sound conns' owned' where
  bound := hbound
  slot := hslot
  queued l i hl hi := by
    obtain ⟨hold, hsub⟩ := hlive l hl (ne_nil_of_mem hi)
    exact hmem l i hl hi (h.queued l i hold (hsub.subset hi))
  nodup l hl := by
    by_cases hnil : (conns' l).aq = []
    · rw [hnil]
      exact nodup_nil
    · obtain ⟨hold, hsub⟩ := hlive l hl hnil
      exact hsub.nodup (h.nodup l hold)
  single l l' i hl hl' hi hi' := by
    obtain ⟨hold, hsub⟩ := hlive l hl (ne_nil_of_mem hi)
    obtain ⟨hold', hsub'⟩ := hlive l' hl' (ne_nil_of_mem hi')
    exact h.single l l' i hold hold' (hsub.subset hi) (hsub'.subset hi')

theorem Sound.update {i : ℕ} {c : Conn} {b : Bool} (h : Sound conns owned)
    (hbound : c.used = true → i < tcpMaxConns) (hslot : c.SlotOk b)
    (hlive : c.Live → c.aq = [] ∨ (conns i).Live ∧ c.aq = (conns i).aq)
    (hmem : (conns i).Member (owned i) → c.Member b) :
    Sound (update conns i c) (update owned i b) := by
  refine h.change (fun j => ?_) (fun j => ?_) (fun l => ?_) (fun l j _ _ => ?_)
  · exact update_rule j hbound fun _ => h.bound j
  · exact update_rule₂ j hslot fun _ => h.slot j
  · refine update_rule l (fun hl hne => ?_) fun _ hl _ => ⟨hl, List.Sublist.refl _⟩
    obtain hnil | ⟨hold, heq⟩ := hlive hl
    · exact absurd hnil hne
    · exact ⟨hold, heq ▸ List.Sublist.refl _⟩
  · exact update_rule₂ j hmem fun _ => id

def withQueue (conns : ℕ → Conn) (l : ℕ) (aq : List ℕ) : ℕ → Conn :=
  update conns l { conns l with aq := aq }

section WithQueue

variable (conns) (l : ℕ) (aq : List ℕ) (i : ℕ)

theorem withQueue_fields : ((withQueue conns l aq) i).used = (conns i).used ∧
    ((withQueue conns l aq) i).listener = (conns i).listener ∧
    ((withQueue conns l aq) i).orphan = (conns i).orphan ∧
    ((withQueue conns l aq) i).state = (conns i).state ∧
    ((withQueue conns l aq) i).parent = (conns i).parent ∧
    ((withQueue conns l aq) i).armed = (conns i).armed := by
  unfold withQueue
  exact update_rule i ⟨rfl, rfl, rfl, rfl, rfl, rfl⟩ fun _ => ⟨rfl, rfl, rfl, rfl, rfl, rfl⟩

theorem slotOk_withQueue {b : Bool} (h : (conns i).SlotOk b)
    (hl : (conns l).used = true → (conns l).listener = true) :
    ((withQueue conns l aq) i).SlotOk b := by
  unfold withQueue
  revert h
  refine update_rule i (fun h => ?_) fun _ => id
  refine ⟨h.held, h.listening, fun hu hno => ?_, fun hu hs => ?_, h.lingers⟩
  · cases (hl hu).symm.trans hno
  · have hh := h.half hu hs
    exact ⟨hh.state, hh.listener, hh.orphan, hh.parent, hh.tx, hh.syn, hh.armed⟩

theorem withQueue_aq : ((withQueue conns l aq) i).aq = if i = l then aq else (conns i).aq := by
  unfold withQueue
  exact update_rule i (if_pos rfl).symm fun hi => (if_neg hi).symm

end WithQueue

namespace Table

variable {s : Table} {p : Packet} {i j l : ℕ}

theorem alloc_some (h : s.alloc = some j) : j < tcpMaxConns ∧ (s.conns j).used = false := by
  have hmem := mem_of_find?_eq_some h
  have hfree := find?_some h
  exact ⟨mem_range.mp hmem, by simpa using hfree⟩

theorem lookup_used {localIp localPort peerIp peerPort : ℕ}
    (h : s.lookup localIp localPort peerIp peerPort = some i) : (s.conns i).used = true := by
  unfold lookup at h
  obtain hfor | ⟨-, hlis⟩ := Option.or_eq_some_iff.mp h
  · have := find?_some hfor
    simp only [isFor, Bool.and_eq_true] at this
    exact this.1.1.1.1.1
  · have := find?_some hlis
    simp only [isListeningAt, Bool.and_eq_true] at this
    exact this.1.1.1.1

theorem route_deliver (h : s.route p = .deliver i) :
    (s.conns i).used = true ∧ (s.conns i).listener = false := by
  unfold route at h
  split at h
  · cases h
  next k hk =>
    split at h
    · split at h
      · cases h
      · split at h <;> cases h
    next hl =>
      cases h
      exact ⟨lookup_used hk, by simpa using hl⟩

theorem route_spawn (h : s.route p = .spawn l j) :
    (s.conns l).Live ∧ j < tcpMaxConns ∧ (s.conns j).used = false := by
  unfold route at h
  split at h
  · cases h
  next k hk =>
    split at h
    next hl =>
      split at h
      · cases h
      · split at h
        · cases h
        next a ha =>
          cases h
          exact ⟨⟨lookup_used hk, hl⟩, alloc_some ha⟩
    · cases h

def delivered (s : Table) (links : ℕ → Link) (now i : ℕ) (seg : Segment) : ℕ → Conn :=
  update s.conns i ((s.conns i).input (links i) now (s.parentFull i) seg)

theorem delivered_self {links : ℕ → Link} {now : ℕ} {seg : Segment} :
    s.delivered links now i seg i = (s.conns i).input (links i) now (s.parentFull i) seg :=
  update_self ..

theorem delivered_other {links : ℕ → Link} {now : ℕ} {seg : Segment} (h : j ≠ i) :
    s.delivered links now i seg j = s.conns j := update_of_ne h ..

variable (s) in
theorem deliver_cases (links : ℕ → Link) (now i : ℕ) (seg : Segment) :
    (s.deliver links now i seg).conns = s.delivered links now i seg ∧
      ((s.conns i).parent.isSome = true → (s.conns i).completes (links i) now seg = true →
        s.parentFull i = true) ∨
    ∃ l, (s.conns i).parent = some l ∧ (s.conns i).completes (links i) now seg = true ∧
      s.parentFull i = false ∧ (s.deliver links now i seg).conns =
        withQueue (s.delivered links now i seg) l ((s.delivered links now i seg l).aq ++ [i]) := by
  unfold deliver
  cases hp : (s.conns i).parent with
  | none => exact .inl ⟨rfl, fun hsome => by cases hsome⟩
  | some l =>
    dsimp only
    split
    next hdone =>
      rw [Bool.and_eq_true, Bool.not_eq_true'] at hdone
      exact .inr ⟨l, rfl, hdone.1, hdone.2, rfl⟩
    next hno =>
      refine .inl ⟨rfl, fun _ hc => ?_⟩
      by_contra hfull
      exact hno (by simp [hc, hfull])

variable (s) in
theorem spawn_conns (links : ℕ → Link) (now : ℕ) (p : Packet) (l j : ℕ) : ∃ isn,
    (s.spawn links now p l j).conns = update s.conns j
      (childConn (links j) now p.dev isn p.dstIp p.dstPort p.srcIp p.srcPort l p.seg) :=
  ⟨_, rfl⟩

theorem listen_some {ip port : ℕ} {backlog : ℤ} {t : Table}
    (h : s.listen ip port backlog = (some l, t)) :
    (l < tcpMaxConns ∧ (s.conns l).used = false) ∧ t = s.set l (listenConn ip port backlog) := by
  unfold listen at h
  split at h
  · cases h
  split at h
  · cases h
  rename_i k hk
  obtain ⟨rfl, rfl⟩ := h
  exact ⟨alloc_some hk, rfl⟩

theorem connect_some {links : ℕ → Link} {now : ℕ} {dev : Device} {localIp ip port : ℕ} {t : Table}
    (h : s.connect links now dev localIp ip port = (some i, t)) :
    (i < tcpMaxConns ∧ (s.conns i).used = false) ∧ ∃ isn localPort, t.conns =
      update s.conns i (connectConn (links i) now dev isn localIp localPort ip port) := by
  unfold connect at h
  split at h
  · cases h
  rename_i k hk
  obtain ⟨rfl, rfl⟩ := h
  exact ⟨alloc_some hk, _, _, rfl⟩

variable (s) in
theorem refuseAll_conns (links : ℕ → Link) {aq : List ℕ} (h : aq.Nodup) :
    (aq.foldl (fun s i => s.set i ((s.conns i).refuse (links i))) s).conns =
      fun j => if j ∈ aq then (s.conns j).refuse (links j) else s.conns j := by
  induction aq generalizing s with
  | nil => simp
  | cons k aq ih =>
    obtain ⟨hk, hnd⟩ := nodup_cons.mp h
    rw [foldl_cons, ih _ hnd]
    funext j
    by_cases hj : j = k
    · subst hj
      simp [hk, set]
    · simp [set, hj]

end Table

theorem Conn.completes_state {c : Conn} {link : Link} {now : ℕ} {seg : Segment}
    (h : c.completes link now seg = true) : c.state = .synRcvd := by
  simp only [completes, Bool.and_eq_true, decide_eq_true_eq] at h
  exact h.1.1.1

theorem Conn.refuse_free {c : Conn} {link : Link} : (c.refuse link).used = false ∧
    (c.refuse link).orphan = c.orphan ∧ (c.refuse link).lingerDeadline = c.lingerDeadline := by
  unfold refuse
  split
  · have hem := (emitted_emit link (c := c) c.sndNxt { rst := true } []).sent
    exact ⟨rfl, hem.orphan, hem.lingerDeadline⟩
  next hu =>
    exact ⟨by simpa using hu, rfl, rfl⟩

namespace Ledger

variable {s : Ledger} {m : Moment}

section Told

variable {i : ℕ} {seg : Segment}

variable (s m i seg) in
abbrev told : ℕ → Conn := (s.table.deliver m.links m.now i seg).conns

variable (s m i seg) in
def Joins (l : ℕ) : Prop :=
  (s.conn i).parent = some l ∧ (s.conn i).completes (m.links i) m.now seg = true ∧
    s.table.parentFull i = false

variable (s m i seg) in
theorem told_fields (j : ℕ) :
    (s.told m i seg j).used = (s.table.delivered m.links m.now i seg j).used ∧
    (s.told m i seg j).state = (s.table.delivered m.links m.now i seg j).state ∧
    (s.told m i seg j).armed = (s.table.delivered m.links m.now i seg j).armed ∧
    (s.told m i seg j).listener = (s.conn j).listener ∧
    (s.told m i seg j).orphan = (s.conn j).orphan ∧ (s.told m i seg j).parent = (s.conn j).parent := by
  have hm := mark_input (m.links i) m.now (s.conn i) seg (s.table.parentFull i)
  have hd : (s.table.delivered m.links m.now i seg j).listener = (s.conn j).listener ∧
      (s.table.delivered m.links m.now i seg j).orphan = (s.conn j).orphan ∧
      (s.table.delivered m.links m.now i seg j).parent = (s.conn j).parent := by
    unfold delivered
    exact update_rule j ⟨mark_listener hm, mark_orphan hm, mark_parent hm⟩ fun _ => ⟨rfl, rfl, rfl⟩
  obtain ⟨heq, -⟩ | ⟨l, -, -, -, heq⟩ := s.table.deliver_cases m.links m.now i seg
  · rw [told, heq]
    exact ⟨rfl, rfl, rfl, hd⟩
  · obtain ⟨hu, hl, ho, hst, hp, ha⟩ := withQueue_fields (s.table.delivered m.links m.now i seg) l
      ((s.table.delivered m.links m.now i seg l).aq ++ [i]) j
    rw [told, heq]
    exact ⟨hu, hst, ha, hl.trans hd.1, ho.trans hd.2.1, hp.trans hd.2.2⟩

section

variable (hlis : (s.conn i).listener = false) {l : ℕ}

include hlis

theorem live_told : (s.told m i seg l).Live ↔ (s.conn l).Live := by
  obtain ⟨hu, -, -, hl, -⟩ := s.told_fields m i seg l
  rw [Conn.Live, hu, hl]
  refine and_congr_left fun hli => ?_
  have hne : l ≠ i := by
    rintro rfl
    cases hlis.symm.trans hli
  rw [delivered_other hne]

variable (m seg) in
theorem aq_told (hl : (s.conn l).Live) :
    (s.told m i seg l).aq = (s.conn l).aq ∧ ¬ s.Joins m i seg l ∨
      (s.told m i seg l).aq = (s.conn l).aq ++ [i] ∧ s.Joins m i seg l := by
  have hne : l ≠ i := by
    rintro rfl
    cases hlis.symm.trans hl.2
  obtain ⟨heq, hfull⟩ | ⟨k, hp, hc, hnf, heq⟩ := s.table.deliver_cases m.links m.now i seg
  · rw [told, heq, delivered_other hne]
    refine .inl ⟨rfl, fun hj => ?_⟩
    cases (hfull (Option.isSome_of_mem hj.1) hj.2.1).symm.trans hj.2.2
  · rw [told, heq, withQueue_aq, delivered_other hne]
    split
    next hlk =>
      subst hlk
      rw [delivered_other hne]
      exact .inr ⟨rfl, hp, hc, hnf⟩
    next hlk => exact .inl ⟨rfl, fun hj => hlk (Option.some.inj (hj.1.symm.trans hp))⟩

theorem mem_told {j : ℕ} (hl : (s.conn l).Live) :
    j ∈ (s.told m i seg l).aq ↔ j ∈ (s.conn l).aq ∨ j = i ∧ s.Joins m i seg l := by
  obtain ⟨heq, hno⟩ | ⟨heq, hj⟩ := aq_told m seg hlis hl
  · rw [heq]
    exact (or_iff_left fun hx => hno hx.2).symm
  · rw [heq, mem_append, mem_singleton, and_iff_left hj]

end

theorem member_told {j : ℕ} (hm : (s.conn j).Member (s.owned j)) :
    (s.told m i seg j).Member (s.owned j) := by
  obtain ⟨hu, hst, -, hl, ho, -⟩ := s.told_fields m i seg j
  have hsame : (s.told m i seg j).used = (s.conn j).used ∧ (s.told m i seg j).state ≠ .synRcvd := by
    rw [hu, hst]
    by_cases hji : j = i
    · subst hji
      rw [delivered_self]
      exact input_other (m.links j) m.now seg (s.table.parentFull j) hm.state
    · rw [delivered_other hji]
      exact ⟨rfl, hm.state⟩
  exact ⟨hsame.1.trans hm.used, hl.trans hm.listener, hm.unowned, ho.trans hm.orphan, hsame.2⟩

section

variable (hused : (s.conn i).used = true)

include hused

theorem used_of_told {j : ℕ} (hu : (s.told m i seg j).used = true) : (s.conn j).used = true := by
  rw [(s.told_fields m i seg j).1, delivered] at hu
  revert hu
  exact update_rule j (fun _ => hused) fun _ => id

variable (hlis : (s.conn i).listener = false) (h : Sound s.table.conns s.owned)

include hlis h

theorem slot_told (j : ℕ) : (s.told m i seg j).SlotOk (s.owned j) := by
  have hd : ∀ j, (s.table.delivered m.links m.now i seg j).SlotOk (s.owned j) := fun j => by
    unfold delivered
    refine update_rule j ?_ fun _ => h.slot j
    exact (h.slot i).input hused hlis
  obtain ⟨heq, -⟩ | ⟨l, hp, -, hfull, heq⟩ := s.table.deliver_cases m.links m.now i seg
  · rw [told, heq]
    exact hd j
  rw [told, heq]
  refine slotOk_withQueue _ _ _ _ (hd j) fun hul => ?_
  -- a slot that is in use without listening takes nothing: its backlog is 0
  by_contra hno
  have hb := ((hd l).backlog hul ((Bool.not_eq_true _).mp hno)).1
  have hb' : (s.conn l).backlog = 0 := by
    by_cases hli : l = i
    · rw [hli, delivered_self, mark_backlog (mark_input ..)] at hb
      rw [hli]
      exact hb
    · rw [delivered_other hli] at hb
      exact hb
  rw [Table.parentFull, hp] at hfull
  simp [queueFull, hb'] at hfull

theorem Joins.member {l : ℕ} (hj : s.Joins m i seg l) : (s.told m i seg i).Member (s.owned i) ∧
    ∀ k, (s.conn k).Live → i ∉ (s.conn k).aq := by
  obtain ⟨hu, hst, -, hl, ho, -⟩ := s.told_fields m i seg i
  rw [delivered_self] at hu hst
  have hhalf := (h.slot i).half hused (completes_state hj.2.1)
  have hdone := hhalf.completed (s.table.parentFull i) hj.2.1
  rw [hj.2.2, if_neg Bool.false_ne_true, ← hj.2.2] at hdone
  refine ⟨⟨hu.trans (hdone.1.trans hused), hl.trans hlis, ?_, ho.trans hhalf.orphan, hst ▸ hdone.2⟩,
    fun k hk hi => (h.queued k i hk hi).state hhalf.state⟩
  by_contra hown
  exact ((h.slot i).held (by simpa using hown)).2.2 hhalf.state

theorem sound_told : Sound (s.told m i seg) s.owned where
  bound j hu := h.bound j (used_of_told hused hu)
  slot := slot_told hused hlis h
  queued l j hl hj := by
    have hl := (live_told hlis).mp hl
    obtain hj | ⟨rfl, hjoin⟩ := (mem_told hlis hl).mp hj
    · exact member_told (h.queued l j hl hj)
    · exact (hjoin.member hused hlis h).1
  nodup l hl := by
    have hl := (live_told hlis).mp hl
    obtain ⟨heq, -⟩ | ⟨heq, hjoin⟩ := aq_told m seg hlis hl
    · rw [heq]
      exact h.nodup l hl
    · rw [heq]
      refine nodup_append.mpr ⟨h.nodup l hl, by simp, fun a ha b hb => ?_⟩
      rintro rfl
      exact (hjoin.member hused hlis h).2 l hl (mem_singleton.mp hb ▸ ha)
  single l l' j hl hl' hj hj' := by
    replace hl := (live_told hlis).mp hl
    replace hl' := (live_told hlis).mp hl'
    obtain hold | ⟨rfl, hjoin⟩ := (mem_told hlis hl).mp hj
    · obtain hold' | ⟨rfl, hjoin⟩ := (mem_told hlis hl').mp hj'
      · exact h.single l l' j hl hl' hold hold'
      · exact absurd hold ((hjoin.member hused hlis h).2 l hl)
    · obtain hold' | ⟨-, hjoin'⟩ := (mem_told hlis hl').mp hj'
      · exact absurd hold' ((hjoin.member hused hlis h).2 l' hl')
      · exact Option.some.inj (hjoin.1.symm.trans hjoin'.1)

end

end Told

structure Newborn (s : Ledger) (c : Conn) (origin : Option ℕ) (owned : Bool) : Prop where
  slot : c.SlotOk owned
  aq : c.aq = []
  orphan : c.orphan = false
  parent : ∀ l, c.parent = some l → (s.conn l).Live ∧ origin = some (s.inst l)
  child : origin.isSome = true → c.parent.isSome = true
  held : owned = true ∧ c.parent = none ∨ owned = false ∧ c.state = .synRcvd ∧ c.armed = true

inductive Grown (s : Ledger) : Ledger → Prop
  | same : Grown s s
  | born {t : Table} {j : ℕ} {c : Conn} {o : Option ℕ} {b : Bool} {ls : List (ℕ × ℕ)}
      (hj : j < tcpMaxConns ∧ (s.conn j).used = false) (ht : t.conns = update s.table.conns j c)
      (hc : s.Newborn c o b) : Grown s { s.born t j o b with listeners := ls }

variable (s m) in
theorem packet_cases (p : Packet) :
    s.Grown (s.packet m p) ∧ (∀ i, s.table.route p ≠ .deliver i) ∨
      ∃ i, s.table.route p = .deliver i ∧ (s.conn i).used = true ∧ (s.conn i).listener = false ∧
        s.packet m p = { s with table := s.table.deliver m.links m.now i p.seg } := by
  unfold packet
  cases hroute : s.table.route p with
  | refused => exact .inl ⟨.same, fun _ hf => by cases hf⟩
  | spawn l j =>
    obtain ⟨hlive, hj⟩ := route_spawn hroute
    obtain ⟨isn, ht⟩ := spawn_conns s.table m.links m.now p l j
    refine .inl ⟨.born hj ht ⟨slotOk_childConn, quiet_childConn.2, half_childConn.orphan,
      fun k hk => ?_, fun _ => half_childConn.parent,
      .inr ⟨rfl, half_childConn.state, half_childConn.armed⟩⟩, fun _ hf => by cases hf⟩
    obtain rfl : l = k := Option.some.inj (parent_childConn.symm.trans hk)
    exact ⟨hlive, rfl⟩
  | deliver i =>
    obtain ⟨hu, hl⟩ := route_deliver hroute
    exact .inr ⟨i, rfl, hu, hl, rfl⟩

theorem grown_listen {ip port : ℕ} {backlog : ℤ} : s.Grown (s.listen ip port backlog) := by
  unfold listen
  split
  · exact .same
  next l t hlisten =>
    obtain ⟨hl, ht⟩ := listen_some hlisten
    exact .born hl (congrArg Table.conns ht) ⟨slotOk_listenConn, rfl, rfl, fun k hk => (by cases hk),
      fun hf => (by cases hf), .inl ⟨rfl, rfl⟩⟩

theorem grown_connect {dev : Device} {localIp ip port : ℕ} :
    s.Grown (s.connect m dev localIp ip port) := by
  unfold connect
  split
  · exact .same
  next i t hconnect =>
    obtain ⟨hi, isn, localPort, ht⟩ := connect_some hconnect
    refine .born hi ht ⟨slotOk_connectConn, (quiet_sendSyn _ _ ⟨rfl, rfl⟩).2, parent_connectConn.2, fun k hk => ?_,
      fun hf => (by cases hf), .inl ⟨rfl, parent_connectConn.1⟩⟩
    cases parent_connectConn.1.symm.trans hk

theorem Grown.sound {s' : Ledger} (hg : s.Grown s') (h : Sound s.table.conns s.owned) :
    Sound s'.table.conns s'.owned := by
  cases hg with
  | same => exact h
  | @born t j c o b _ hj ht hc =>
    show Sound t.conns (update s.owned j b)
    rw [ht]
    refine h.update (fun _ => hj.1) hc.slot (fun _ => .inl hc.aq) fun hmem => ?_
    cases hj.2.symm.trans hmem.used

structure Replaces (s : Ledger) (i : ℕ) (c : Conn) (owned : Bool) : Prop where
  own : s.owned i = true
  listener : (s.conn i).listener = false
  slot : c.SlotOk owned
  kin : c.listener = (s.conn i).listener ∧ c.parent = (s.conn i).parent ∧
    (c.used = true → (s.conn i).used = true)
  stays : c.used = true → owned = true ∨ c.orphan = true

theorem replaces_connectEnd {i : ℕ} (h : Sound s.table.conns s.owned)
    (hlegal : s.legal (.connectEnd i) = true) :
    s.Replaces i (s.conn i).connectEnd (decide ((s.conn i).state = .established)) := by
  simp only [legal, Bool.and_eq_true, Bool.not_eq_true'] at hlegal
  have hslot := h.slot i
  rw [hlegal.1] at hslot
  unfold connectEnd
  split
  next hst =>
    rw [decide_eq_true hst]
    exact ⟨hlegal.1, hlegal.2, hslot, ⟨rfl, rfl, id⟩, fun _ => .inl rfl⟩
  next hst =>
    rw [decide_eq_false hst]
    exact ⟨hlegal.1, hlegal.2, slotOk_of_free rfl hslot.lingers, ⟨rfl, rfl, fun hu => (by cases hu)⟩,
      fun hu => (by cases hu)⟩

theorem replaces_call {i : ℕ} {ev : Event} (h : Sound s.table.conns s.owned)
    (hlegal : s.legal (.call i ev) = true) :
    s.Replaces i ((s.conn i).step (m.links i) (m.now, ev)) (!ev.isLast) := by
  simp only [legal, Bool.and_eq_true, Bool.not_eq_true'] at hlegal
  obtain ⟨⟨hown, hl⟩, hcall⟩ := hlegal
  have hslot := h.slot i
  rw [hown] at hslot
  refine ⟨hown, hl, hslot.call hl hcall, call_kin (m.links i) hcall, fun hu => ?_⟩
  cases hlast : ev.isLast with
  | false => exact .inl rfl
  | true =>
    obtain rfl : ev = .closeEnd := by cases ev <;> first | rfl | cases hlast
    simp only [Conn.step, Conn.closeEnd] at hu ⊢
    split at hu
    · cases hu
    next hend =>
      rw [if_neg hend]
      exact .inr rfl

theorem Replaces.sound {i : ℕ} {c : Conn} {b : Bool} (hr : s.Replaces i c b)
    (h : Sound s.table.conns s.owned) : Sound (update s.table.conns i c) (update s.owned i b) := by
  refine h.update (fun _ => h.bound i ((h.slot i).held hr.own).1) hr.slot (fun hl => ?_) fun hmem => ?_
  · cases hr.listener.symm.trans (hr.kin.1.symm.trans hl.2)
  · cases hmem.unowned.symm.trans hr.own

variable (s m) in
theorem mark_swept (i : ℕ) : ((s.conn i).sweep (m.links i) m.now).mark = (s.conn i).mark :=
  mark_sweep ..

theorem sound_sweep (h : Sound s.table.conns s.owned) :
    Sound (s.table.sweep m.links m.now).conns s.owned := by
  have hm := s.mark_swept m
  have hf := fun i => sweep_fields (m.links i) m.now (s.table.conns i)
  refine h.change (fun i hu => h.bound i ((hf i).2.1 hu)) (fun i => (h.slot i).sweep)
    (fun l hl _ => ⟨⟨(hf l).2.1 hl.1, mark_listener (hm l) ▸ hl.2⟩, ?_⟩) fun l i _ _ hmem => ?_
  · show ((s.table.conns l).sweep (m.links l) m.now).aq.Sublist _
    rw [mark_aq (hm l)]
  · refine ⟨((hf i).1 hmem.orphan).trans hmem.used, (mark_listener (hm i)).trans hmem.listener,
      hmem.unowned, (mark_orphan (hm i)).trans hmem.orphan, fun hs => ?_⟩
    obtain hst | hst := (hf i).2.2.1
    · exact hmem.state (hst.symm.trans hs)
    · cases hst.symm.trans hs

structure Hands (s : Ledger) (l i : ℕ) (t : Table) : Prop where
  live : (s.conn l).Live
  first : ∃ rest, (s.conn l).aq = i :: rest
  member : (s.conn i).Member (s.owned i)
  slot : ∀ j, (t.conns j).SlotOk (update s.owned i true j)
  fields : ∀ j, (t.conns j).used = (s.conn j).used ∧ (t.conns j).listener = (s.conn j).listener ∧
    (t.conns j).orphan = (s.conn j).orphan ∧ (t.conns j).state = (s.conn j).state ∧
    (t.conns j).armed = (s.conn j).armed ∧
    (t.conns j).parent = if j = i then none else (s.conn j).parent
  sub : ∀ k, (s.conn k).Live → (t.conns k).aq.Sublist (s.conn k).aq
  mem : ∀ k j, (s.conn k).Live → (j ∈ (t.conns k).aq ↔ j ∈ (s.conn k).aq ∧ j ≠ i)

theorem Hands.live_iff {l i k : ℕ} {t : Table} (h : s.Hands l i t) :
    (t.conns k).Live ↔ (s.conn k).Live := by
  rw [Conn.Live, (h.fields k).1, (h.fields k).2.1, Conn.Live]

theorem hands_accept {l i : ℕ} {t : Table} (h : Sound s.table.conns s.owned)
    (ha : s.table.accept l = (some i, t)) : s.Hands l i t := by
  unfold Table.accept at ha
  split at ha
  swap
  · cases ha
  rename_i hused
  split at ha
  · cases ha
  rename_i k rest haq
  simp only [Prod.mk.injEq, Option.some.injEq] at ha
  obtain ⟨rfl, rfl⟩ := ha
  have hlive : (s.conn l).Live := by
    refine ⟨hused, ?_⟩
    by_contra hno
    have := ((h.slot l).backlog hused (by simpa using hno)).2
    rw [haq] at this
    cases this
  have hmem := h.queued l k hlive (haq ▸ mem_cons_self)
  have hne : ∀ {k'}, (s.conn k').Live → k' ≠ k := by
    rintro k' hk rfl
    cases hmem.listener.symm.trans hk.2
  have hnd := h.nodup l hlive
  rw [haq, nodup_cons] at hnd
  have hset : ∀ j, ((s.table.set l { s.table.conns l with aq := rest }).set k
      { (s.table.set l { s.table.conns l with aq := rest }).conns k with parent := none }).conns j =
        update (withQueue s.table.conns l rest) k { s.conn k with parent := none } j := fun j => by
    simp [Table.set, withQueue, update_of_ne (hne hlive).symm]
  have hqueue : ∀ k', (s.conn k').Live →
      (update (withQueue s.table.conns l rest) k { s.conn k with parent := none } k').aq =
        if k' = l then rest else (s.conn k').aq := fun k' hk => by
    rw [update_of_ne (hne hk), withQueue_aq]
  refine ⟨hlive, ⟨rest, haq⟩, hmem, fun j => ?_, fun j => ?_, fun k' hk => ?_, fun k' j hk => ?_⟩ <;>
    rw [hset]
  · refine update_rule₂ j ?_ fun _ => slotOk_withQueue _ _ _ _ (h.slot j) fun _ => hlive.2
    refine ⟨fun _ => ⟨hmem.used, hmem.orphan, hmem.state⟩, fun hu hl => ?_, (h.slot k).backlog,
      fun hu hst => (hmem.state hst).elim, (h.slot k).lingers⟩
    cases hmem.listener.symm.trans hl
  · refine update_rule j ⟨rfl, rfl, rfl, rfl, rfl, (if_pos rfl).symm⟩ fun hjk => ?_
    obtain ⟨hwu, hwl, hwo, hws, hwp, hwa⟩ := withQueue_fields s.table.conns l rest j
    exact ⟨hwu, hwl, hwo, hws, hwa, hwp.trans (if_neg hjk).symm⟩
  · rw [hqueue k' hk]
    split
    next hkl =>
      rw [hkl, haq]
      exact sublist_cons_self k rest
    · exact List.Sublist.refl _
  · rw [hqueue k' hk]
    split
    next hkl =>
      rw [hkl, haq, mem_cons]
      refine ⟨fun hj => ⟨.inr hj, ?_⟩, fun hj => hj.1.resolve_left hj.2⟩
      rintro rfl
      exact hnd.1 hj
    next hkl =>
      refine ⟨fun hj => ⟨hj, ?_⟩, And.left⟩
      rintro rfl
      exact hkl (h.single k' l j hk hlive hj (haq ▸ mem_cons_self))

theorem sound_accept {l n : ℕ} (h : Sound s.table.conns s.owned) :
    Sound (s.accept l n).table.conns (s.accept l n).owned := by
  unfold accept
  split
  · exact h
  rename_i i t ha
  have hands := hands_accept h ha
  refine h.change (fun k hu => h.bound k ((hands.fields k).1.symm.trans hu)) hands.slot
    (fun k hk _ => ⟨hands.live_iff.mp hk, hands.sub k (hands.live_iff.mp hk)⟩) fun k j hk hj hm => ?_
  obtain ⟨hu, hl, ho, hst, -⟩ := hands.fields j
  have hji := ((hands.mem k j (hands.live_iff.mp hk)).mp hj).2
  exact ⟨hu.trans hm.used, hl.trans hm.listener, (update_of_ne hji ..).trans hm.unowned,
    ho.trans hm.orphan, hst ▸ hm.state⟩

section Shut

variable (s m) in
abbrev shut (l : ℕ) : ℕ → Conn := (s.table.closeListener m.links l).conns

variable {l : ℕ} (h : Sound s.table.conns s.owned) (hlive : (s.conn l).Live)

include h hlive

theorem shut_eq (j : ℕ) : s.shut m l j = if j = l then { (s.conn l).free with aq := [] }
    else if j ∈ (s.conn l).aq then (s.conn j).refuse (m.links j) else s.conn j := by
  have hself : l ∉ (s.conn l).aq := fun hmem => by
    cases (h.queued l l hlive hmem).listener.symm.trans hlive.2
  have hfold := refuseAll_conns s.table m.links (h.nodup l hlive)
  unfold shut closeListener
  generalize (s.conn l).aq.foldl (fun (s : Table) i =>
    s.set i ((s.conns i).refuse (m.links i))) s.table = t at hfold ⊢
  have hl : t.conns l = s.conn l := by
    rw [hfold]
    exact if_neg hself
  show update t.conns l _ j = _
  by_cases hj : j = l
  · rw [hj, update_self, if_pos rfl, hl]
  · rw [update_of_ne hj, if_neg hj, hfold]

theorem shut_used {j : ℕ} (hu : (s.shut m l j).used = true) :
    j ≠ l ∧ j ∉ (s.conn l).aq ∧ s.shut m l j = s.conn j := by
  rw [shut_eq h hlive] at hu ⊢
  split at hu
  · cases hu
  next hj =>
    split at hu
    · cases refuse_free.1.symm.trans hu
    next hno =>
      exact ⟨hj, hno, by rw [if_neg hj, if_neg hno]⟩

theorem shut_kept {j : ℕ} (hj : j ≠ l) (hno : j ∉ (s.conn l).aq) : s.shut m l j = s.conn j := by
  rw [shut_eq h hlive, if_neg hj, if_neg hno]

theorem shut_live {k : ℕ} (hk : (s.conn k).Live) (hkl : k ≠ l) : s.shut m l k = s.conn k :=
  shut_kept h hlive hkl fun hq => by cases (h.queued l k hlive hq).listener.symm.trans hk.2

theorem shut_queued {k i : ℕ} (hk : (s.conn k).Live) (hkl : k ≠ l) (hi : i ∈ (s.conn k).aq) :
    i ≠ l ∧ s.shut m l i = s.conn i := by
  have hil : i ≠ l := by
    rintro rfl
    cases (h.queued k i hk hi).listener.symm.trans hlive.2
  exact ⟨hil, shut_kept h hlive hil fun hq => hkl (h.single k l i hk hlive hi hq)⟩

theorem sound_shut : Sound (s.shut m l) (update s.owned l false) := by
  refine h.change (fun j hu => ?_) (fun j => ?_) (fun k hk _ => ?_) fun k j hk hj hm => ?_
  · rw [(shut_used h hlive hu).2.2] at hu
    exact h.bound j hu
  · rw [shut_eq h hlive]
    split
    next hj =>
      rw [hj, update_self]
      exact slotOk_of_free rfl (h.slot l).lingers
    next hj =>
      rw [update_of_ne hj]
      split
      next hmem =>
        rw [(h.queued l j hlive hmem).unowned]
        refine slotOk_of_free refuse_free.1 ?_
        rw [refuse_free.2.1, refuse_free.2.2]
        exact (h.slot j).lingers
      · exact h.slot j
  · obtain ⟨-, -, hsame⟩ := shut_used h hlive hk.1
    rw [hsame] at hk ⊢
    exact ⟨hk, List.Sublist.refl _⟩
  · obtain ⟨hkl, -, hsame⟩ := shut_used h hlive hk.1
    rw [hsame] at hk hj
    obtain ⟨hjl, hkept⟩ := shut_queued (m := m) h hlive hk hkl hj
    rw [hkept, update_of_ne hjl]
    exact hm

end Shut

theorem sound_step {e : Moment × Call} (h : Sound s.table.conns s.owned)
    (hlegal : s.legal e.2 = true) : Sound (s.step e).table.conns (s.step e).owned := by
  obtain ⟨m, call⟩ := e
  cases call with
  | packet p =>
    obtain ⟨hg, -⟩ | ⟨i, -, hu, hl, heq⟩ := s.packet_cases m p
    · exact hg.sound h
    · show Sound (s.packet m p).table.conns (s.packet m p).owned
      rw [heq]
      exact sound_told hu hl h
  | sweep => exact sound_sweep h
  | listen ip port backlog => exact grown_listen.sound h
  | connect dev localIp ip port => exact grown_connect.sound h
  | connectEnd i => exact (replaces_connectEnd h hlegal).sound h
  | accept l n => exact sound_accept h
  | call i ev => exact (replaces_call h hlegal).sound h
  | closeListener l =>
    simp only [legal, Bool.and_eq_true] at hlegal
    exact sound_shut h ⟨((h.slot l).held hlegal.1).1, hlegal.2⟩

theorem sound_empty : Sound ({} : Ledger).table.conns ({} : Ledger).owned where
  bound _ hu := by cases hu
  slot _ := slotOk_of_free rfl fun ho => by cases ho
  queued _ _ hl := by cases hl.1
  nodup _ hl := by cases hl.1
  single _ _ _ hl := by cases hl.1

theorem sound_run {events : List (Moment × Call)}
    (hlegal : Allowed step (fun s e => s.legal e.2 = true) {} events) :
    Sound (run step {} events).table.conns (run step {} events).owned := by
  have hstep : ∀ (s : Ledger) (e : Moment × Call), Sound s.table.conns s.owned →
      s.legal e.2 = true → Sound (s.step e).table.conns (s.step e).owned := fun _ _ => sound_step
  exact (always_of_allowed hstep (fun _ => id) sound_empty hlegal).last

def clear (now : ℕ) : Moment := ⟨now, fun _ _ => true⟩

def toServer (seg : Segment) : Packet :=
  { dev := Conn.eth, srcIp := 2, dstIp := 1, srcPort := 4000, dstPort := 80, seg := seg }

end Ledger

end DosKernel.Net.Tcp

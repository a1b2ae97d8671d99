import DosKernel.Net.Tcp.Ledger

namespace DosKernel.Net.Tcp.Ledger

open DosKernel.Lib Conn List
open Function (update update_of_ne update_self)

variable {s s' : Ledger} {m : Moment}

-- Every connection handed out came from a SYN at the listener asked, none waits twice, and one
-- nobody has accepted goes with its listener.
structure Fair (s : Ledger) : Prop where
  taken : ∀ a ∈ s.taken, a.2 = some a.1
  once : ∀ l, (s.conn l).Live → (s.conn l).aq.Nodup
  single : ∀ l l' i, (s.conn l).Live → (s.conn l').Live → i ∈ (s.conn l).aq → i ∈ (s.conn l').aq →
    l = l'
  down : ∀ i n, (s.conn i).used = true → s.origin i = some n → s.accepted i = false →
    ∃ l, (s.conn l).Live ∧ s.inst l = n

-- A connection of the listener is not in its queue: its handshake is under way, or has failed.
def strands (s : Ledger) (l : ℕ) : Bool :=
  (List.range tcpMaxConns).any fun i =>
    (s.conn i).used && decide ((s.conn i).parent = some l) && !(s.conn l).aq.contains i

-- The close that leaves such a connection, and the accept that finds another listener in the slot.
def usurps (s : Ledger) (e : Moment × Call) : Bool :=
  match e.2 with
  | .closeListener l => s.strands l
  | .accept l n => decide (s.inst l ≠ n) && (s.conn l).used && decide ((s.conn l).aq ≠ [])
  | _ => false

-- The parent of a connection is the listener that made it, until it is accepted.
structure Kinship (s : Ledger) : Prop where
  parent : ∀ i l, (s.conn i).used = true → (s.conn i).parent = some l →
    (s.conn l).Live ∧ s.origin i = some (s.inst l) ∧ s.accepted i = false
  child : ∀ i n, (s.conn i).used = true → s.origin i = some n → s.accepted i = false →
    (s.conn i).parent.isSome = true
  queued : ∀ l i, (s.conn l).Live → i ∈ (s.conn l).aq → (s.conn i).parent = some l
  held : ∀ i, s.owned i = true → (s.conn i).parent = none
  orphan : ∀ i, (s.conn i).used = true → (s.conn i).orphan = true → (s.conn i).parent = none
  fresh : ∀ i, (s.conn i).used = true → s.inst i < s.next
  distinct : ∀ i j, (s.conn i).used = true → (s.conn j).used = true → s.inst i = s.inst j → i = j

section

variable (h : s.Kinship)

include h

theorem Kinship.down {i n : ℕ} (hu : (s.conn i).used = true)
    (ho : s.origin i = some n) (ha : s.accepted i = false) : ∃ l, (s.conn l).Live ∧ s.inst l = n := by
  obtain ⟨l, hl⟩ := Option.isSome_iff_exists.mp (h.child i n hu ho ha)
  obtain ⟨hlive, horigin, -⟩ := h.parent i l hu hl
  exact ⟨l, hlive, Option.some.inj (horigin.symm.trans ho)⟩

theorem Kinship.change
    (hghost : s'.inst = s.inst ∧ s'.origin = s.origin ∧ s'.next = s.next)
    (hused : ∀ i, (s'.conn i).used = true → (s.conn i).used = true ∧
      ((s'.conn i).parent = (s.conn i).parent ∧ s'.accepted i = s.accepted i ∨
        (s'.conn i).parent = none ∧ s'.accepted i = true))
    (hlive : ∀ i l, (s'.conn i).used = true → (s.conn i).parent = some l → (s.conn l).Live →
      (s'.conn l).Live)
    (hqueue : ∀ l i, (s'.conn l).Live → i ∈ (s'.conn l).aq → (s'.conn i).parent = some l)
    (hheld : ∀ i, s'.owned i = true → (s'.conn i).parent = none)
    (horphan : ∀ i, (s'.conn i).used = true → (s'.conn i).orphan = true →
      (s'.conn i).parent = none) : s'.Kinship := by
  obtain ⟨hinst, horigin, hnext⟩ := hghost
  refine ⟨fun i l hu hl => ?_, fun i n hu ho ha => ?_, hqueue, hheld, horphan, fun i hu => ?_,
    fun i j hi hj => ?_⟩
  · obtain ⟨hu', ⟨hpar, hacc⟩ | ⟨hpar, -⟩⟩ := hused i hu
    · rw [hpar] at hl
      obtain ⟨hlv, hor, hac⟩ := h.parent i l hu' hl
      rw [horigin, hinst, hacc]
      exact ⟨hlive i l hu hl hlv, hor, hac⟩
    · cases hpar.symm.trans hl
  · obtain ⟨hu', ⟨hpar, hacc⟩ | ⟨-, hacc⟩⟩ := hused i hu
    · rw [hpar]
      exact h.child i n hu' (horigin ▸ ho) (hacc.symm.trans ha)
    · cases hacc.symm.trans ha
  · rw [hinst, hnext]
    exact h.fresh i (hused i hu).1
  · rw [hinst]
    exact h.distinct i j (hused i hi).1 (hused j hj).1

theorem Kinship.born {j : ℕ} {c : Conn} {o : Option ℕ} {b : Bool} {t : Table}
    (hs : Sound s.table.conns s.owned) (hj : (s.conn j).used = false)
    (ht : t.conns = update s.table.conns j c) (hc : s.Newborn c o b) : (s.born t j o b).Kinship := by
  have hne : ∀ {i}, (s.conn i).used = true → i ≠ j := by
    rintro i hu rfl
    cases hj.symm.trans hu
  have hlive : ∀ {l}, (s.conn l).Live → (update s.table.conns j c l).Live ∧
      update s.inst j s.next l = s.inst l := fun {l} =>
    update_rule₂ l (fun hl => absurd rfl (hne hl.1)) fun _ hl => ⟨hl, rfl⟩
  obtain ⟨conns, ports⟩ := t
  obtain rfl : conns = _ := ht
  refine ⟨fun i l => ?_, fun i n => ?_, fun l i => ?_, fun i => ?_, fun i => ?_, fun i => ?_,
    fun i k => ?_⟩ <;> simp only [Ledger.born, Ledger.conn]
  · refine update_rule₂ i (fun _ hl => ?_) fun hij hu hl => ?_
    · obtain ⟨hlv, rfl⟩ := hc.parent l hl
      obtain ⟨hlv', hinst⟩ := hlive hlv
      rw [hinst]
      exact ⟨hlv', rfl, update_self ..⟩
    · obtain ⟨hlv, hor, hac⟩ := h.parent i l hu hl
      obtain ⟨hlv', hinst⟩ := hlive hlv
      rw [hinst]
      exact ⟨hlv', hor, (update_of_ne hij ..).trans hac⟩
  · refine update_rule₂ i (fun _ ho _ => hc.child (by simp [ho])) fun hij hu ho ha => ?_
    exact h.child i n hu ho ((update_of_ne hij ..).symm.trans ha)
  · refine update_rule l (fun _ hi => ?_) fun _ hl hi => ?_
    · rw [hc.aq] at hi
      cases hi
    · rw [update_of_ne (hne (hs.queued l i hl hi).used)]
      exact h.queued l i hl hi
  · refine update_rule₂ i (fun ho => ?_) fun _ => h.held i
    obtain ⟨-, hnone⟩ | ⟨rfl, -⟩ := hc.held
    · exact hnone
    · cases ho
  · exact update_rule i (fun _ ho => (by cases hc.orphan.symm.trans ho)) fun _ => h.orphan i
  · exact update_rule₂ i (fun _ => Nat.lt_succ_self _) fun _ hu => Nat.lt_succ_of_lt (h.fresh i hu)
  · refine update_rule₂ i (fun _ => ?_) fun _ hi => ?_
    · refine update_rule₂ k (fun _ _ => rfl) fun _ hk heq => ?_
      exact absurd heq.symm (h.fresh k hk).ne
    · refine update_rule₂ k (fun _ heq => ?_) fun _ hk heq => h.distinct i k hi hk heq
      exact absurd heq (h.fresh i hi).ne

theorem kinship_deliver {i : ℕ} (seg : Segment)
    (hused : (s.conn i).used = true) (hlis : (s.conn i).listener = false) :
    ({ s with table := s.table.deliver m.links m.now i seg } : Ledger).Kinship := by
  have hparent : ∀ j, (s.told m i seg j).parent = (s.conn j).parent := fun j =>
    (s.told_fields m i seg j).2.2.2.2.2
  refine h.change ⟨rfl, rfl, rfl⟩ (fun j hu => ⟨used_of_told hused hu, .inl ⟨hparent j, rfl⟩⟩)
    (fun _ l _ _ hl => (live_told hlis).mpr hl) (fun l j hl hj => (hparent j).trans ?_)
    (fun j ho => (hparent j).trans (h.held j ho)) fun j hu ho => (hparent j).trans ?_
  · have hl := (live_told hlis).mp hl
    obtain hj | ⟨rfl, hjoin⟩ := (mem_told hlis hl).mp hj
    · exact h.queued l j hl hj
    · exact hjoin.1
  · exact h.orphan j (used_of_told hused hu) ((s.told_fields m i seg j).2.2.2.2.1.symm.trans ho)

theorem kinship_replace {i : ℕ} {c : Conn} {b : Bool} (hr : s.Replaces i c b) :
    (s.replace i c b).Kinship := by
  obtain ⟨hown, hlis, -, ⟨hl, hp, hused⟩, -⟩ := hr
  have hself : (s.replace i c b).conn i = c := update_self ..
  have hother : ∀ j, j ≠ i → (s.replace i c b).conn j = s.conn j := fun j hj =>
    update_of_ne hj ..
  have hparent : ∀ j, ((s.replace i c b).conn j).parent = (s.conn j).parent := by
    intro j
    show (update s.table.conns i c j).parent = (s.table.conns j).parent
    exact update_rule j hp fun _ => rfl
  have hnone := h.held i hown
  refine h.change ⟨rfl, rfl, rfl⟩ (fun j hu => ⟨?_, .inl ⟨hparent j, rfl⟩⟩) (fun j l _ _ hlv => ?_)
    (fun l j hlv hj => ?_) (fun j ho => ?_) fun j hu ho => ?_
  · change (update s.table.conns i c j).used = true at hu
    revert hu
    exact update_rule j hused fun _ => id
  · rw [hother l]
    · exact hlv
    · rintro rfl
      cases hlis.symm.trans hlv.2
  · have hli : l ≠ i := by
      rintro rfl
      rw [hself] at hlv
      cases hlis.symm.trans (hl.symm.trans hlv.2)
    rw [hother l hli] at hlv hj
    rw [hparent]
    exact h.queued l j hlv hj
  · rw [hparent]
    by_cases hji : j = i
    · rw [hji]
      exact hnone
    · exact h.held j ((update_of_ne hji ..).symm.trans ho)
  · rw [hparent]
    by_cases hji : j = i
    · rw [hji]
      exact hnone
    · rw [hother j hji] at hu ho
      exact h.orphan j hu ho

theorem kinship_sweep :
    ({ s with table := s.table.sweep m.links m.now } : Ledger).Kinship := by
  have hm := s.mark_swept m
  have hf := fun i => sweep_fields (m.links i) m.now (s.conn i)
  refine h.change ⟨rfl, rfl, rfl⟩ (fun i hu => ⟨(hf i).2.1 hu, .inl ⟨mark_parent (hm i), rfl⟩⟩)
    (fun _ l _ _ hl => ?_) (fun l i hl hi => ?_) (fun i ho => ?_) fun i hu ho => ?_
  · show ((s.conn l).sweep (m.links l) m.now).Live
    rw [sweep, if_pos (by simp [hl.2])]
    exact hl
  · refine (mark_parent (hm i)).trans (h.queued l i ⟨(hf l).2.1 hl.1, ?_⟩ ?_)
    · exact (mark_listener (hm l)).symm.trans hl.2
    · exact mark_aq (hm l) ▸ hi
  · exact (mark_parent (hm i)).trans (h.held i ho)
  · exact (mark_parent (hm i)).trans
      (h.orphan i ((hf i).2.1 hu) ((mark_orphan (hm i)).symm.trans ho))

theorem kinship_accept {l n : ℕ} (hs : Sound s.table.conns s.owned) :
    (s.accept l n).Kinship := by
  unfold accept
  split
  · exact h
  rename_i i t ha
  have hands := hands_accept hs ha
  have hparent : ∀ j, (t.conns j).parent = if j = i then none else (s.conn j).parent :=
    fun j => (hands.fields j).2.2.2.2.2
  refine h.change ⟨rfl, rfl, rfl⟩ (fun j hu => ⟨(hands.fields j).1.symm.trans hu, ?_⟩)
    (fun _ k _ _ => hands.live_iff.mpr) (fun k j hk hj => (hparent j).trans ?_)
    (fun j ho => (hparent j).trans ?_) fun j hu ho => (hparent j).trans ?_
  · by_cases hji : j = i
    · exact .inr ⟨(hparent j).trans (if_pos hji), hji ▸ update_self ..⟩
    · exact .inl ⟨(hparent j).trans (if_neg hji), update_of_ne hji ..⟩
  · have hk := hands.live_iff.mp hk
    obtain ⟨hj, hji⟩ := (hands.mem k j hk).mp hj
    rw [if_neg hji]
    exact h.queued k j hk hj
  · split
    · rfl
    next hji =>
      exact h.held j ((update_of_ne hji ..).symm.trans ho)
  · split
    · rfl
    · exact h.orphan j ((hands.fields j).1.symm.trans hu) ((hands.fields j).2.2.1.symm.trans ho)

end

theorem strands_iff {l : ℕ} (hs : Sound s.table.conns s.owned) : s.strands l = true ↔
    ∃ i, (s.conn i).used = true ∧ (s.conn i).parent = some l ∧ i ∉ (s.conn l).aq := by
  simp only [strands, any_eq_true, mem_range, Bool.and_eq_true, decide_eq_true_eq,
    Bool.not_eq_true', contains_eq_mem, decide_eq_false_iff_not, and_assoc]
  constructor
  · rintro ⟨i, -, hi⟩
    exact ⟨i, hi⟩
  · rintro ⟨i, hi⟩
    exact ⟨i, hs.bound i hi.1, hi⟩

theorem kinship_closeListener {l : ℕ} (h : s.Kinship) (hs : Sound s.table.conns s.owned)
    (hlive : (s.conn l).Live) (hno : s.strands l = false) :
    (s.step (m, .closeListener l)).Kinship := by
  have hused := fun {j} => shut_used (m := m) (j := j) hs hlive
  refine h.change ⟨rfl, rfl, rfl⟩ (fun i hu => ?_) (fun i k hu hk hkl => ?_)
    (fun k i hk hi => ?_) (fun i ho => ?_) fun i hu ho => ?_
  · obtain ⟨-, -, hsame⟩ := hused hu
    exact ⟨hsame ▸ hu, .inl ⟨congrArg parent hsame, rfl⟩⟩
  · obtain ⟨-, hiq, hsame⟩ := hused hu
    refine (congrArg Live (shut_live hs hlive hkl ?_)).mpr hkl
    rintro rfl
    rw [Bool.eq_false_iff] at hno
    exact hno ((strands_iff hs).mpr ⟨i, hsame ▸ hu, hk, hiq⟩)
  · obtain ⟨hkl, -, hsame⟩ := hused hk.1
    have hk : (s.conn k).Live := hsame ▸ hk
    have hi : i ∈ (s.conn k).aq := hsame ▸ hi
    exact (congrArg parent (shut_queued hs hlive hk hkl hi).2).trans (h.queued k i hk hi)
  · have hil : i ≠ l := by
      rintro rfl
      cases (update_self ..).symm.trans ho
    replace ho : s.owned i = true := (update_of_ne hil ..).symm.trans ho
    have hiq : i ∉ (s.conn l).aq := fun hq => by
      cases (hs.queued l i hlive hq).unowned.symm.trans ho
    exact (congrArg parent (shut_kept hs hlive hil hiq)).trans (h.held i ho)
  · obtain ⟨-, -, hsame⟩ := hused hu
    exact (congrArg parent hsame).trans (h.orphan i (hsame ▸ hu) (hsame ▸ ho))

theorem not_fair_closeListener {l : ℕ} (h : s.Kinship) (hs : Sound s.table.conns s.owned)
    (hlive : (s.conn l).Live) (hstrands : s.strands l = true) :
    ¬ (s.step (m, .closeListener l)).Fair := by
  intro hfair
  obtain ⟨i, hu, hp, hiq⟩ := (strands_iff hs).mp hstrands
  obtain ⟨-, horigin, hacc⟩ := h.parent i l hu hp
  have hil : i ≠ l := by
    rintro rfl
    cases ((hs.slot i).listening hlive.1 hlive.2).2.symm.trans hp
  have hi : (s.shut m l i).used = true := (congrArg used (shut_kept hs hlive hil hiq)).trans hu
  obtain ⟨k, hk, hinst⟩ := hfair.down i (s.inst l) hi horigin hacc
  obtain ⟨hkl, -, hsame⟩ := shut_used (m := m) hs hlive hk.1
  have hk : (s.conn k).Live := hsame ▸ hk
  exact hkl (h.distinct k l hk.1 hlive.1 hinst)

structure Just (s : Ledger) : Prop where
  sound : Sound s.table.conns s.owned
  kinship : s.Kinship
  taken : ∀ a ∈ s.taken, a.2 = some a.1

theorem Just.fair (h : s.Just) : s.Fair :=
  ⟨h.taken, h.sound.nodup, h.sound.single, fun _ _ hu ho ha => h.kinship.down hu ho ha⟩

theorem origin_accept {l i : ℕ} {t : Table} (h : s.Just) (ha : s.table.accept l = (some i, t)) :
    s.origin i = some (s.inst l) := by
  have hands := hands_accept h.sound ha
  obtain ⟨rest, haq⟩ := hands.first
  have hp := h.kinship.queued l i hands.live (haq ▸ mem_cons_self)
  exact (h.kinship.parent i l hands.member.used hp).2.1

theorem usurps_accept {l n : ℕ} (h : s.Just) :
    (∀ a ∈ (s.accept l n).taken, a.2 = some a.1) ↔ s.usurps (m, .accept l n) = false := by
  unfold accept
  split
  next t ha =>
    refine iff_of_true h.taken ?_
    simp only [usurps]
    cases hu : (s.conn l).used with
    | false => simp
    | true =>
      have hnil : (s.conn l).aq = [] := by
        by_contra hne
        obtain ⟨i, rest, haq⟩ := exists_cons_of_ne_nil hne
        simp [Table.accept, hu, haq] at ha
      simp [hnil]
  next i t ha =>
    have hlive := (hands_accept h.sound ha).live
    obtain ⟨rest, haq⟩ := (hands_accept h.sound ha).first
    have horigin := origin_accept h ha
    have husurps : s.usurps (m, .accept l n) = decide (s.inst l ≠ n) := by
      simp [usurps, hlive.1, haq]
    rw [husurps, forall_mem_cons, horigin, decide_eq_false_iff_not, not_not]
    exact ⟨fun hall => Option.some.inj hall.1, fun heq => ⟨congrArg some heq, h.taken⟩⟩

theorem Grown.kinship (hg : s.Grown s') (h : s.Kinship) (hs : Sound s.table.conns s.owned) :
    s'.Kinship := by
  cases hg with
  | same => exact h
  | born hj ht hc =>
    have hb := h.born hs hj.2 ht hc
    exact ⟨hb.parent, hb.child, hb.queued, hb.held, hb.orphan, hb.fresh, hb.distinct⟩

theorem Grown.taken (hg : s.Grown s') : s'.taken = s.taken := by
  cases hg <;> rfl

theorem just_step {e : Moment × Call} (h : s.Just) (hlegal : s.legal e.2 = true)
    (hno : s.usurps e = false) : (s.step e).Just := by
  have hsound := sound_step h.sound hlegal
  obtain ⟨m, call⟩ := e
  have hbuild : (s.step (m, call)).Kinship → (s.step (m, call)).taken = s.taken →
      (s.step (m, call)).Just := fun hk ht => ⟨hsound, hk, ht.symm ▸ h.taken⟩
  cases call with
  | packet p =>
    obtain ⟨hg, -⟩ | ⟨i, -, hu, hl, heq⟩ := s.packet_cases m p
    · exact hbuild (hg.kinship h.kinship h.sound) hg.taken
    · have hk := kinship_deliver (m := m) h.kinship p.seg hu hl
      rw [← heq] at hk
      exact hbuild hk (congrArg Ledger.taken heq :)
  | sweep => exact hbuild (kinship_sweep h.kinship) rfl
  | listen ip port backlog =>
    exact hbuild (grown_listen.kinship h.kinship h.sound) grown_listen.taken
  | connect dev localIp ip port =>
    exact hbuild (grown_connect.kinship h.kinship h.sound) grown_connect.taken
  | connectEnd i =>
    exact hbuild (kinship_replace h.kinship (replaces_connectEnd h.sound hlegal)) rfl
  | accept l n =>
    exact ⟨hsound, kinship_accept h.kinship h.sound, (usurps_accept h).mpr hno⟩
  | call i ev => exact hbuild (kinship_replace h.kinship (replaces_call h.sound hlegal)) rfl
  | closeListener l =>
    simp only [legal, Bool.and_eq_true] at hlegal
    exact hbuild (kinship_closeListener h.kinship h.sound
      ⟨((h.sound.slot l).held hlegal.1).1, hlegal.2⟩ hno) rfl

theorem usurps_of_fair {e : Moment × Call} (h : s.Just) (hlegal : s.legal e.2 = true)
    (hfair : (s.step e).Fair) : s.usurps e = false := by
  obtain ⟨m, call⟩ := e
  cases call with
  | accept l n => exact (usurps_accept h).mp hfair.taken
  | closeListener l =>
    simp only [legal, Bool.and_eq_true] at hlegal
    by_contra hst
    exact not_fair_closeListener h.kinship h.sound
      ⟨((h.sound.slot l).held hlegal.1).1, hlegal.2⟩ ((Bool.not_eq_false _).mp hst) hfair
  | _ => rfl

theorem just_empty : ({} : Ledger).Just where
  sound := sound_empty
  kinship := {
    parent := fun _ _ hu => by cases hu
    child := fun _ _ hu => by cases hu
    queued := fun _ _ hl => by cases hl.1
    held := fun _ ho => by cases ho
    orphan := fun _ hu => by cases hu
    fresh := fun _ hu => by cases hu
    distinct := fun _ _ hu => by cases hu }
  taken _ ha := by cases ha

-- Accepting is fair exactly in the runs in which no close strands a connection and no accept
-- meets another listener.
theorem fair_iff_never_usurps {events : List (Moment × Call)}
    (hlegal : Allowed step (fun s e => s.legal e.2 = true) {} events) :
    Always step Fair {} events ↔ Allowed step (fun s e => s.usurps e = false) {} events :=
  always_iff_allowed (fun _ _ => just_step) (fun _ h => h.fair) (fun _ _ => usurps_of_fair) just_empty
    hlegal

def acceptedEvents : List (Moment × Call) := [
  (clear 1, .listen 0 80 4), (clear 2, .packet (toServer (Conn.synOf 100))),
  (clear 3, .packet (toServer (Conn.ackOf 0x12001 100))), (clear 4, .accept 0 0),
  (clear 5, .closeListener 0), (clear 6, .listen 0 90 4)]

theorem acceptedEvents_fair : Always step Fair {} acceptedEvents :=
  (fair_iff_never_usurps (by decide +kernel)).mpr (by decide +kernel)

-- A listener closes during a handshake, another takes its slot: 90 accepts what came to 80.
def usurpedEvents : List (Moment × Call) := [
  (clear 1, .listen 0 80 4), (clear 2, .packet (toServer (Conn.synOf 100))),
  (clear 3, .closeListener 0), (clear 4, .listen 0 90 4),
  (clear 5, .packet (toServer (Conn.ackOf 0x12001 100))), (clear 6, .accept 0 2)]

theorem usurpedEvents_not_fair :
    Allowed step (fun s e => s.legal e.2 = true) {} usurpedEvents ∧
      (run step {} usurpedEvents).taken = [(2, some 0)] ∧ ¬ Always step Fair {} usurpedEvents := by
  have htaken : (run step {} usurpedEvents).taken = [(2, some 0)] := by decide +kernel
  refine ⟨by decide +kernel, htaken, fun h => ?_⟩
  have hfair := h.last.taken (2, some 0) (htaken ▸ List.mem_singleton_self _)
  cases hfair

end DosKernel.Net.Tcp.Ledger

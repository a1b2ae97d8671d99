import DosKernel.Sched.Waitq

namespace DosKernel.Sched.Waits

open DosKernel.Lib List

open Function (update update_apply update_eq_self update_of_ne update_self)

variable {T Q : Type} [DecidableEq T]

section Fields

variable (s : Waits T Q) (t u : T)

theorem rouse_eq :
    s.rouse t = s.setState t (if s.state t = .sleeping then .runnable else s.state t) := by
  rw [rouse]
  split
  · rfl
  · rw [setState, update_eq_self]

@[simp] theorem head_rouse : (s.rouse t).head = s.head := by
  rw [rouse_eq]
  rfl

@[simp] theorem wqNext_rouse : (s.rouse t).wqNext = s.wqNext := by
  rw [rouse_eq]
  rfl

@[simp] theorem place_rouse : (s.rouse t).place = s.place := by
  rw [rouse_eq]
  rfl

theorem state_rouse : (s.rouse t).state u =
    if u = t ∧ s.state u = .sleeping then .runnable else s.state u := by
  simp only [rouse_eq, setState, update_apply]
  by_cases hu : u = t
  · simp [hu]
  · simp [hu]

theorem blockedOn_rouse : (s.rouse t).blockedOn u = if u = t then none else s.blockedOn u := by
  rw [blockedOn, state_rouse, place_rouse]
  by_cases hu : u = t
  · rw [if_pos hu]
    by_cases hs : s.state u = .sleeping
    · simp [hu, hu ▸ hs]
    · simp [hs]
  · simp only [hu, false_and, if_false]
    rfl

@[simp] theorem head_release : (s.release t).head = s.head := head_rouse _ _

@[simp] theorem wqNext_release : (s.release t).wqNext = update s.wqNext t none := wqNext_rouse _ _

theorem state_release : (s.release t).state u =
    if u = t ∧ s.state u = .sleeping then .runnable else s.state u := state_rouse _ _ _

theorem blockedOn_release :
    (s.release t).blockedOn u = if u = t then none else s.blockedOn u := blockedOn_rouse _ _ _

end Fields

section Drain

variable {s : Waits T Q} {h : Option T} {l : List T} {n : ℕ}

theorem drain_eq (hl : Chain s.wqNext h l) (hlen : l.length ≤ n) :
    drain n h s = l.foldl release s := by
  induction l generalizing s h n with
  | nil =>
    obtain rfl : h = none := hl
    cases n with
    | zero => rfl
    | succ n => rfl
  | cons a l ih =>
    cases n with
    | zero => simp at hlen
    | succ n =>
      have hnd := nodup_cons.mp (chain_nodup hl)
      obtain ⟨rfl, htail⟩ := hl
      refine ih (chain_frame htail fun y hy => ?_) (by simpa using hlen)
      have hya : y ≠ a := fun heq => hnd.1 (heq ▸ hy)
      rw [wqNext_release, update_of_ne hya]

variable (l) (s)

theorem head_releases : (l.foldl release s).head = s.head := by
  induction l generalizing s with
  | nil => rfl
  | cons a l ih => rw [foldl_cons, ih, head_release]

theorem wqNext_releases {u : T} (hu : u ∉ l) : (l.foldl release s).wqNext u = s.wqNext u := by
  induction l generalizing s with
  | nil => rfl
  | cons a l ih =>
    rw [foldl_cons, ih _ (not_mem_of_not_mem_cons hu), wqNext_release,
      update_of_ne (ne_of_not_mem_cons hu)]

theorem blockedOn_releases (u : T) :
    (l.foldl release s).blockedOn u = if u ∈ l then none else s.blockedOn u := by
  induction l generalizing s with
  | nil => rfl
  | cons a l ih =>
    rw [foldl_cons, ih, blockedOn_release]
    by_cases hu : u = a
    · simp [hu]
    · simp [hu]

theorem state_releases (u : T) : (l.foldl release s).state u =
    if u ∈ l ∧ s.state u = .sleeping then .runnable else s.state u := by
  induction l generalizing s with
  | nil => simp
  | cons a l ih =>
    rw [foldl_cons, ih, state_release]
    by_cases hu : u = a
    · by_cases hs : s.state u = .sleeping <;> simp [hu, hu ▸ hs]
    · simp [hu]

end Drain

structure Held (s : Waits T Q) (l : Q → List T) : Prop where
  chain : ∀ q, Chain s.wqNext (s.head q) (l q)
  mem : ∀ q t, t ∈ l q ↔ s.blockedOn t = some q

section Held

variable {s s' : Waits T Q} {l : Q → List T} {q q' : Q} {t : T}

omit [DecidableEq T] in
theorem blockedOn_eq_some :
    s.blockedOn t = some q ↔ s.state t = .sleeping ∧ s.place t = .parked q := by
  rw [blockedOn]
  by_cases hs : s.state t = .sleeping
  · rw [if_pos hs]
    cases hp : s.place t <;> simp [hs]
  · simp [hs]

omit [DecidableEq T] in
theorem Held.disjoint (h : Held s l) (hne : q' ≠ q) (ht : t ∈ l q') : t ∉ l q := by
  intro ht'
  have hq := ((h.mem q' t).mp ht).symm.trans ((h.mem q t).mp ht')
  exact hne (Option.some.inj hq)

omit [DecidableEq T] in
theorem Held.of_eq (h : Held s l) (hhead : s'.head = s.head) (hnext : s'.wqNext = s.wqNext)
    (hon : ∀ t, s'.blockedOn t = s.blockedOn t) : Held s' l := by
  refine ⟨fun q => ?_, fun q t => ?_⟩
  · rw [hhead, hnext]
    exact h.chain q
  · rw [hon]
    exact h.mem q t

omit [DecidableEq T] in
theorem blockedOn_of_state (hs : s.state t ≠ .sleeping) : s.blockedOn t = none := by
  rw [Option.eq_none_iff_forall_ne_some]
  exact fun q hq => hs (blockedOn_eq_some.mp hq).1

omit [DecidableEq T] in
theorem blockedOn_of_place (hp : ∀ q, s.place t ≠ .parked q) : s.blockedOn t = none := by
  rw [Option.eq_none_iff_forall_ne_some]
  exact fun q hq => hp q (blockedOn_eq_some.mp hq).2

theorem Held.of_local (h : Held s l) (hbefore : s.blockedOn t = none)
    (hafter : s'.blockedOn t = none) (hhead : s'.head = s.head := by rfl)
    (hnext : s'.wqNext = s.wqNext := by rfl)
    (hstate : ∀ u, u ≠ t → s'.state u = s.state u := by
      first | exact fun _ _ => rfl | exact fun u hu => update_of_ne hu _ _)
    (hplace : ∀ u, u ≠ t → s'.place u = s.place u := by
      first | exact fun _ _ => rfl | exact fun u hu => update_of_ne hu _ _) : Held s' l := by
  refine h.of_eq hhead hnext fun u => ?_
  by_cases hu : u = t
  · rw [hu, hbefore, hafter]
  · rw [blockedOn, hstate u hu, hplace u hu, blockedOn]

theorem Held.of_removed [DecidableEq Q] (h : Held s l) (l' : List T)
    (hhead : ∀ q', q' ≠ q → s'.head q' = s.head q')
    (hnext : ∀ u, u ∉ l q → s'.wqNext u = s.wqNext u)
    (hchain : Chain s'.wqNext (s'.head q) l') (hsub : ∀ u ∈ l', u ∈ l q)
    (hon : ∀ u, s'.blockedOn u = if u ∈ l q ∧ u ∉ l' then none else s.blockedOn u) :
    Held s' (update l q l') := by
  refine ⟨fun q' => ?_, fun q' u => ?_⟩
  · by_cases hq : q' = q
    · subst hq
      rwa [update_self]
    · rw [update_of_ne hq, hhead q' hq]
      exact chain_frame (h.chain q') fun u hu => hnext u (h.disjoint hq hu)
  · rw [hon]
    by_cases hq : q' = q
    · subst hq
      rw [update_self]
      by_cases hu : u ∈ l'
      · simp [hu, (h.mem q' u).mp (hsub u hu)]
      · by_cases hmem : u ∈ l q'
        · simp [hu, hmem]
        · simp only [hu, hmem, false_and, if_false, false_iff]
          exact fun hon => hmem ((h.mem q' u).mpr hon)
    · rw [update_of_ne hq, h.mem q' u]
      by_cases hu : u ∈ l q ∧ u ∉ l'
      · rw [if_pos hu, (h.mem q u).mp hu.1]
        simp [Ne.symm hq]
      · rw [if_neg hu]

end Held

section Steps

variable {s : Waits T Q} {l : Q → List T} {q : Q} {t : T} [DecidableEq Q]

theorem Held.wakeOne (h : Held s l) : ∃ l', Held (s.waitqWakeOne q) l' := by
  have hchain := h.chain q
  rw [waitqWakeOne]
  cases hl : l q with
  | nil =>
    rw [hl] at hchain
    rw [show s.head q = none from hchain]
    exact ⟨l, h⟩
  | cons a rest =>
    rw [hl] at hchain
    have hnd := nodup_cons.mp (chain_nodup hchain)
    rw [hchain.1]
    refine ⟨_, h.of_removed (q := q) rest ?_ ?_ ?_ ?_ ?_⟩
    · intro q' hq
      rw [head_release]
      exact update_of_ne hq _ _
    · intro u hu
      rw [wqNext_release]
      rw [hl] at hu
      exact update_of_ne (ne_of_not_mem_cons hu) _ _
    · rw [head_release, wqNext_release]
      simp only [update_self]
      refine chain_frame hchain.2 fun y hy => ?_
      have hya : y ≠ a := fun heq => hnd.1 (heq ▸ hy)
      exact update_of_ne hya _ _
    · intro u hu
      rw [hl]
      exact mem_cons_of_mem _ hu
    · intro u
      rw [blockedOn_release, hl]
      by_cases hu : u = a
      · subst hu
        simp [hnd.1]
      · simp only [hu, if_false, mem_cons, false_or, and_not_self_iff]
        rfl

variable [Fintype T]

theorem Held.wakeAll_eq (h : Held s l) : s.waitqWakeAll q =
    (l q).foldl release { s with head := update s.head q none } :=
  drain_eq (h.chain q) (chain_nodup (h.chain q)).length_le_card

theorem Held.wakeAll (h : Held s l) : ∃ l', Held (s.waitqWakeAll q) l' := by
  rw [h.wakeAll_eq]
  refine ⟨_, h.of_removed (q := q) [] ?_ ?_ ?_ ?_ ?_⟩
  · intro q' hq
    rw [head_releases]
    exact update_of_ne hq _ _
  · intro u hu
    rw [wqNext_releases _ _ hu]
  · rw [head_releases]
    exact update_self _ _ _
  · intro u hu
    simp at hu
  · intro u
    rw [blockedOn_releases]
    simp only [not_mem_nil, not_false_eq_true, and_true]
    rfl

theorem Held.wakeAll_state (h : Held s l) (ht : t ∈ l q) :
    (s.waitqWakeAll q).state t = .runnable := by
  have hsleeping := (blockedOn_eq_some.mp ((h.mem q t).mp ht)).1
  rw [h.wakeAll_eq, state_releases, if_pos ⟨ht, hsleeping⟩]

theorem waitqBlock_eq : s.waitqBlock t q false = { s with
    wqNext := update s.wqNext t (s.head q)
    head := update s.head q (some t)
    wq := update s.wq t (some q)
    state := update s.state t .sleeping
    place := update s.place t (.parked q) } := by
  simp only [waitqBlock, update_self, Bool.false_eq_true, if_false, if_true]
  rfl

theorem Held.park (h : Held s l) (hrun : s.place t = .running) :
    ∃ l', Held (s.waitqBlock t q false) l' := by
  have hnot : ∀ q, t ∉ l q := by
    intro q ht
    have hp := (blockedOn_eq_some.mp ((h.mem q t).mp ht)).2
    rw [hrun] at hp
    cases hp
  have hne : ∀ {q u}, u ∈ l q → u ≠ t := fun hu heq => hnot _ (heq ▸ hu)
  rw [waitqBlock_eq]
  refine ⟨update l q (t :: l q), fun q' => ?_, fun q' u => ?_⟩
  · have hframe : Chain (update s.wqNext t (s.head q)) (s.head q') (l q') :=
      chain_frame (h.chain q') fun u hu => update_of_ne (hne hu) _ _
    by_cases hq : q' = q
    · subst hq
      simp only [update_self]
      refine ⟨rfl, ?_⟩
      rwa [update_self]
    · simpa only [update_of_ne hq] using hframe
  · rw [blockedOn_eq_some]
    by_cases hu : u = t
    · subst hu
      by_cases hq : q' = q
      · simp [hq]
      · simp [update_of_ne hq, hnot q', Ne.symm hq]
    · simp only [update_of_ne hu]
      rw [← blockedOn_eq_some, ← h.mem]
      by_cases hq : q' = q
      · simp [hq, hu]
      · rw [update_of_ne hq]

theorem Held.unlink (h : Held s l) :
    Chain (s.unlink t q).wqNext ((s.unlink t q).head q) ((l q).erase t) ∧
      (∀ u, u ∉ l q → (s.unlink t q).wqNext u = s.wqNext u) ∧
      ∀ q', q' ≠ q → (s.unlink t q).head q' = s.head q' := by
  have hlen := (chain_nodup (h.chain q)).length_le_card
  obtain ⟨hchain, hframe⟩ := cut_spec (x := t) (h.chain q) hlen
  refine ⟨?_, hframe, fun q' hq => update_of_ne hq _ _⟩
  simp only [Waits.unlink, update_self]
  exact hchain

theorem Held.kill (h : Held s l) (hcur : ∀ q', s.blockedOn t = some q' → q' = q) :
    ∃ l', Held (s.wakeWaitqSleeper t q) l' := by
  obtain ⟨hchain, hnext, hhead⟩ := h.unlink (t := t) (q := q)
  have hmem : ∀ u, u ∈ l q ∧ u ∉ (l q).erase t ↔ u = t ∧ u ∈ l q := by
    intro u
    rw [(chain_nodup (h.chain q)).mem_erase_iff]
    tauto
  refine ⟨_, h.of_removed (q := q) ((l q).erase t) ?_ ?_ ?_ ?_ ?_⟩
  · rwa [wakeWaitqSleeper, head_rouse]
  · rwa [wakeWaitqSleeper, wqNext_rouse]
  · rwa [wakeWaitqSleeper, head_rouse, wqNext_rouse]
  · exact fun u hu => mem_of_mem_erase hu
  · intro u
    rw [wakeWaitqSleeper, blockedOn_rouse]
    simp only [hmem]
    by_cases hu : u = t
    · subst hu
      by_cases hin : u ∈ l q
      · simp [hin]
      · have hnone : s.blockedOn u = none := by
          rw [Option.eq_none_iff_forall_ne_some]
          intro q' hq'
          exact hin ((h.mem q u).mpr (hcur q' hq' ▸ hq'))
        simp [hin, hnone]
    · simp only [hu, if_false, false_and]
      rfl

-- A task that notices it was woken ends as one that a kill has taken off the queue.
theorem waitqBlock_woken (hrun : s.place t = .running) : s.waitqBlock t q true =
    ((s.waitqBlock t q false).wakeWaitqSleeper t q).setPlace t .running := by
  simp [waitqBlock, wakeWaitqSleeper, Waits.unlink, rouse, setState, setPlace, ← hrun]

theorem Held.block (h : Held s l) (hrun : s.place t = .running) (woken : Bool) :
    ∃ l', Held (s.waitqBlock t q woken) l' := by
  obtain ⟨l₁, hpark⟩ := h.park (q := q) hrun
  cases woken with
  | false => exact ⟨l₁, hpark⟩
  | true =>
    have hon : (s.waitqBlock t q false).blockedOn t = some q := by
      rw [waitqBlock_eq, blockedOn_eq_some]
      simp
    obtain ⟨l₂, hkill⟩ := hpark.kill (q := q) fun q' hq' => Option.some.inj (hq'.symm.trans hon)
    rw [waitqBlock_woken hrun]
    refine ⟨l₂, hkill.of_local (t := t) ?_ (blockedOn_of_place fun q => by simp [setPlace])⟩
    rw [wakeWaitqSleeper, blockedOn_rouse, if_pos rfl]

end Steps

open Function (update_of_ne update_self)

variable {T Q : Type} [DecidableEq T] [DecidableEq Q] [Fintype T]

-- A blocked task is linked once, on its queue, any other on none, and a wake of a whole queue would
-- make every task on it runnable.
structure Attended (s : Waits T Q) : Prop where
  linked : ∃ l : Q → List T, ∀ q, Chain s.wqNext (s.head q) (l q) ∧
    ∀ t, (l q).count t = if s.blockedOn t = some q then 1 else 0
  wakes : ∀ q l, Chain s.wqNext (s.head q) l → ∀ t ∈ l, (s.waitqWakeAll q).state t = .runnable

-- A wake-up finds its task where it was: a kill's task has not parked on another queue than the one
-- read, a claimed sleeper on none.
def Current (s : Waits T Q) : WaitAct T Q → Prop
  | .killUnlink t q => (t, q) ∈ s.kills → s.blockedOn t = none ∨ s.blockedOn t = some q
  | .endTimedSleep t => t ∈ s.claims → s.blockedOn t = none
  | _ => True

variable {s : Waits T Q} {l : Q → List T}

theorem Held.attended (h : Held s l) : Attended s := by
  refine ⟨⟨l, fun q => ⟨h.chain q, fun t => ?_⟩⟩, fun q l' hl' t ht => ?_⟩
  · rw [(chain_nodup (h.chain q)).count]
    simp only [h.mem]
  · rw [chain_unique hl' (h.chain q)] at ht
    exact h.wakeAll_state ht

omit [DecidableEq T] [DecidableEq Q] [Fintype T] in
theorem blockedOn_running {t : T} (hp : s.place t = .running) : s.blockedOn t = none :=
  blockedOn_of_place fun q heq => by rw [hp] at heq; cases heq

theorem held_step {a : WaitAct T Q} (h : Held s l) (hcur : Current s a) :
    ∃ l', Held (s.step a) l' := by
  cases a with
  | block t q woken =>
    rw [step]
    split
    · next hrun => exact h.block hrun woken
    · exact ⟨l, h⟩
  | wakeOne q => exact h.wakeOne
  | wakeAll q => exact h.wakeAll
  | unpark t =>
    rw [step]
    split
    · split
      · next hs =>
        have hbefore : s.blockedOn t = none := blockedOn_of_state (by simp [hs])
        exact ⟨l, h.of_local hbefore (blockedOn_running (update_self ..))⟩
      · exact ⟨l, h⟩
    · exact ⟨l, h⟩
  | killRead t | sweep t now | killClaim t =>
    rw [step]
    split
    · exact ⟨l, h.of_eq rfl rfl fun _ => rfl⟩
    · exact ⟨l, h⟩
  | killUnlink t q =>
    rw [step]
    split
    · next hk =>
      have h' : Held { s with kills := s.kills.erase (t, q) } l := h.of_eq rfl rfl fun _ => rfl
      refine h'.kill fun q' hq' => ?_
      have hq : s.blockedOn t = some q' := hq'
      rcases hcur hk with hn | hn
      · rw [hn] at hq
        cases hq
      · exact Option.some.inj (hq.symm.trans hn)
    · exact ⟨l, h⟩
  | msleep t e =>
    rw [step]
    split
    · next hrun =>
      refine ⟨l, h.of_local (blockedOn_running hrun) ?_⟩
      exact blockedOn_of_place fun q => by simp [setPlace]
    · exact ⟨l, h⟩
  | msleepCheck t =>
    rw [step]
    split
    · next hmark =>
      have hbefore : s.blockedOn t = none := blockedOn_of_place fun q => by simp [hmark]
      split
      · exact ⟨l, h.of_local hbefore (blockedOn_running (update_self ..))⟩
      · exact ⟨l, h.of_local hbefore (blockedOn_of_place fun q => by simp [setPlace])⟩
    · exact ⟨l, h⟩
  | msleepReturn t killed | unpause t =>
    rw [step]
    split
    · next hc =>
      have hbefore : s.blockedOn t = none := blockedOn_of_state (by simp [hc.2])
      exact ⟨l, h.of_local hbefore (blockedOn_running (update_self ..))⟩
    · exact ⟨l, h⟩
  | endTimedSleep t =>
    rw [step]
    split
    · next hc =>
      exact ⟨l, h.of_local (hcur hc) (blockedOn_of_state (by simp [setState]))⟩
    · exact ⟨l, h⟩
  | stop t | exit t =>
    rw [step]
    split
    · next hrun =>
      refine ⟨l, h.of_local (blockedOn_running hrun) ?_⟩
      exact blockedOn_of_state (by simp [setState, setPlace])
    · exact ⟨l, h⟩
  | resumeStopped t =>
    rw [step]
    split
    · next hs =>
      have hbefore : s.blockedOn t = none := blockedOn_of_state (by simp [hs])
      exact ⟨l, h.of_local hbefore (blockedOn_of_state (by simp [setState]))⟩
    · exact ⟨l, h⟩

theorem not_attended {q : Q} {t : T} {l : List T} (hl : Chain s.wqNext (s.head q) l) (ht : t ∈ l)
    (hon : s.blockedOn t = none) : ¬ Attended s := by
  intro h
  obtain ⟨l', hl'⟩ := h.linked
  have hcount := (hl' q).2 t
  rw [chain_unique (hl' q).1 hl, hon, if_neg (by simp)] at hcount
  exact List.count_eq_zero.mp hcount ht

theorem current_of_attended {a : WaitAct T Q} (h : Held s l) (hafter : Attended (s.step a)) :
    Current s a := by
  cases a with
  | killUnlink t q =>
    intro hk
    by_contra hcur
    obtain ⟨hsome, hne⟩ := not_or.mp hcur
    obtain ⟨q', hq'⟩ := Option.ne_none_iff_exists'.mp hsome
    have hqq : q' ≠ q := fun heq => hne (heq ▸ hq')
    have h' : Held { s with kills := s.kills.erase (t, q) } l := h.of_eq rfl rfl fun _ => rfl
    obtain ⟨-, hnext, hhead⟩ := h'.unlink (t := t) (q := q)
    rw [step, if_pos hk] at hafter
    refine not_attended (q := q') (t := t) (l := l q') ?_ ((h.mem q' t).mpr hq') ?_ hafter
    · rw [wakeWaitqSleeper, wqNext_rouse, head_rouse]
      have hchain := chain_frame (h.chain q') fun u hu => hnext u (h.disjoint hqq hu)
      rwa [← show _ = s.head q' from hhead q' hqq] at hchain
    · rw [wakeWaitqSleeper, blockedOn_rouse, if_pos rfl]
  | endTimedSleep t =>
    intro hc
    by_contra hsome
    obtain ⟨q, hq⟩ := Option.ne_none_iff_exists'.mp hsome
    rw [step, if_pos hc] at hafter
    refine not_attended (q := q) (t := t) (l := l q) ?_ ((h.mem q t).mpr hq) ?_ hafter
    · exact h.chain q
    · exact blockedOn_of_state (by simp [setState])
  | _ => trivial

omit [DecidableEq T] [DecidableEq Q] [Fintype T] in
theorem held_boot : Held (boot : Waits T Q) fun _ => [] :=
  ⟨fun _ => rfl, fun q t => by simp [blockedOn, boot]⟩

-- Over every interleaving, the queues keep their waiters exactly as long as no wake-up ends on a
-- task that has parked since.
theorem attended_iff_current (acts : List (WaitAct T Q)) :
    Always step Attended boot acts ↔ Allowed step Current boot acts := by
  refine always_iff_of_step (I := fun s => ∃ l, Held s l) ?_ ?_ ?_ ⟨_, held_boot⟩
  · exact fun s a h hcur => h.elim fun l hl => held_step hl hcur
  · exact fun s h => h.elim fun l hl => hl.attended
  · exact fun s a h hafter => h.elim fun l hl => current_of_attended hl hafter

-- A kill reads that task 0 sleeps on the first queue; it parks on the second, and the kill makes it
-- runnable under the first queue's lock.
def lateKill : List (WaitAct (Fin 1) Bool) :=
  [.block 0 false false, .killRead 0, .wakeOne false, .unpark 0, .block 0 true false,
    .killUnlink 0 false]

theorem lateKill_not_attended : ¬ Always step Attended boot lateKill := by
  intro h
  have hlast := h.last
  refine not_attended (q := true) (t := 0) (l := [0]) ?_ List.mem_cons_self ?_ hlast
  · have hhead : (run step boot lateKill).head true = some 0 := by decide +kernel
    have hnext : (run step boot lateKill).wqNext 0 = none := by decide +kernel
    exact ⟨hhead, hnext⟩
  · decide +kernel

end DosKernel.Sched.Waits

import DosKernel.Itimer.Timers

namespace DosKernel.Itimer

open DosKernel.Lib State
open Function (update update_of_ne update_self)

variable {s s' : State} {e f : Entry} {i c pid rounds : ℕ} {a : Arming}

-- The timer on the list for slot `i`, if any, is not for the arming the slot is in use for.
def Spared (s : State) (i : ℕ) : Prop :=
  ∀ f ∈ s.timers, f.slot = i → (s.slots i).pid ≠ 0 → (s.slots i).gen ≠ f.gen

def OnTime (s : State) (e : Entry) : Prop :=
  (s.slots e.slot).pid ≠ 0 → (s.slots e.slot).gen = e.gen ∧
    ((s.slots e.slot).interval ≠ 0 →
      s.clock < (s.slots e.slot).next + (s.slots e.slot).interval ∧
        (s.slots e.slot).next + (s.slots e.slot).interval < wordSize)

-- A deadline asked for fits its word, no cancel or callback takes the timer of a newer arming off
-- the list, and a callback is on time.
def Orderly (s : State) : Act → Prop
  | .setitimer pid value _ => s.ready pid = true → value ≠ 0 → s.slotFor pid true ≠ none →
      s.clock + value < wordSize
  | .proceed pid => ∀ i rounds, s.op pid = .cancel i rounds → Spared s i
  | .expire c => c < maxCpus →
      (∀ e, s.cb c = .taken e → OnTime s e) ∧
      (∀ slot interval next gen, s.cb c = .signalled slot interval next gen → interval ≠ 0 →
        next ≠ 0 → Spared s slot)
  | _ => True

theorem Inv.gen_ne {x y : Place} (h : Inv s) (hf : Holds s x f) (he : Holds s y e) (hxy : x ≠ y) :
    f.gen ≠ e.gen :=
  fun hgen => hxy (h.unique x y f e hf he hgen).1

section Proceed

theorem Inv.op_step (h : Inv s) {o : Op} {timers : List Entry} (ho : o.entry = none)
    (hzero : pid = 0 → o = .idle) (hnodup : (timers.map Entry.gen).Nodup)
    (hfrom : ∀ f ∈ timers, Holds s (.op pid) f ∨ f ∈ s.timers)
    (hkeep : ∀ f, (s.slots f.slot).pid ≠ 0 → (s.slots f.slot).gen = f.gen →
      Holds s (.op pid) f ∨ f ∈ s.timers → f ∈ timers) :
    Inv { s with timers := timers, op := update s.op pid o } := by
  have hgone : ∀ f, ¬ Holds { s with timers := timers, op := update s.op pid o } (.op pid) f := by
    simp [Holds, ho]
  refine h.moved (elsewhere_op rfl rfl) (fun i => Slot.Same.rfl _) rfl rfl hnodup
    (fun f hf => hfrom f (hf.resolve_left (hgone f))) (fun f hf => absurd hf (hgone f))
    (fun f hpid hgen hf => .inr (hkeep f hpid hgen hf)) (fun q f hf => ?_) ?_ h.cbs h.clock
  · dsimp only at hf
    revert hf
    refine update_rule q (fun hf => ?_) fun _ => id
    rw [hf] at ho
    cases ho
  · by_cases hq : pid = 0
    · simp only [hq, update_self, hzero hq]
    · simp only [update_of_ne (Ne.symm hq), h.noZero.2]

theorem Inv.proceed_arming (h : Inv s) (hop : s.op pid = .arming e) :
    Inv { s with timers := arm e s.timers, op := update s.op pid .idle } := by
  have he : ∀ f, Holds s (.op pid) f ↔ f = e := by simp [Holds, hop, Op.entry, eq_comm]
  have hlist : ∀ f ∈ s.timers, f.gen ≠ e.gen := fun f hf =>
    h.gen_ne (x := .list) hf ((he e).mpr rfl) Place.noConfusion
  refine h.op_step rfl (fun _ => rfl) (nodup_arm h.nodup hlist) (fun f hf => ?_)
    fun f _ hgen hf => ?_
  · exact (mem_arm.mp hf).imp (he f).mpr And.left
  · refine mem_arm.mpr (hf.imp (he f).mp fun hf => ⟨hf, fun hslot => ?_⟩)
    rw [hslot, (h.mine pid e hop).2] at hgen
    exact hlist f hf hgen.symm

theorem Inv.op_ne_zero (h : Inv s) (hop : s.op pid ≠ .idle) : pid ≠ 0 := by
  rintro rfl
  exact hop h.noZero.2

theorem Inv.proceed_cancel (h : Inv s) (hop : s.op pid = .cancel i rounds) (hspared : Spared s i) :
    Inv { s with timers := unlink i s.timers, op := update s.op pid (.wait i rounds) } := by
  refine h.op_step rfl (fun h0 => absurd h0 (h.op_ne_zero (by simp [hop]))) (nodup_unlink h.nodup)
    (fun f hf => .inr (mem_unlink.mp hf).1) fun f hpid hgen hf => ?_
  obtain hf | hf := hf
  · simp [Holds, hop, Op.entry] at hf
  · refine mem_unlink.mpr ⟨hf, ?_⟩
    rintro rfl
    exact hspared f hf rfl hpid hgen

theorem Inv.set_op (h : Inv s) (hpid : pid ≠ 0) {o : Op} (hold : (s.op pid).entry = none)
    (hnew : o.entry = none) : Inv { s with op := update s.op pid o } :=
  h.op_step hnew (fun h0 => absurd h0 hpid) h.nodup (fun _ hf => .inr hf)
    fun f _ _ hf => hf.resolve_left (by simp [Holds, hold])

theorem Inv.proceed (h : Inv s) (hc : Orderly s (.proceed pid)) : Inv (s.proceed pid) := by
  unfold State.proceed
  cases hop : s.op pid with
  | idle => exact h
  | arming e => exact h.proceed_arming hop
  | cancel i rounds => exact h.proceed_cancel hop (hc i rounds hop)
  | wait i rounds =>
    have hpid : pid ≠ 0 := h.op_ne_zero (by simp [hop])
    have hnone : (s.op pid).entry = none := by rw [hop]; rfl
    refine refuse_rule h fun _ => ?_
    split
    · exact h.set_op hpid hnone rfl
    · exact h.set_op hpid hnone rfl

end Proceed

section Expire

theorem Inv.cbs_update (h : Inv s) {k : Cb} (hk : k.Fair s.clock) (d : ℕ) :
    (update s.cb c k d).Fair s.clock :=
  update_rule d hk fun _ => h.cbs d

theorem Inv.cb_step (h : Inv s) {k : Cb} (hcb : s'.cb = update s.cb c k) (hop : s'.op = s.op)
    (hclock : s'.clock = s.clock) (hslots : ∀ i, (s'.slots i).Same (s.slots i))
    (harmings : s'.armings = s.armings) (hserial : s'.serial = s.serial)
    (hnodup : (s'.timers.map Entry.gen).Nodup)
    (hfrom : ∀ f, k.entry = some f ∨ f ∈ s'.timers → Holds s (.cpu c) f ∨ f ∈ s.timers)
    (hone : ∀ f, k.entry = some f → f ∉ s'.timers)
    (hkeep : ∀ f, (s.slots f.slot).pid ≠ 0 → (s.slots f.slot).gen = f.gen →
      Holds s (.cpu c) f ∨ f ∈ s.timers → k.entry = some f ∨ f ∈ s'.timers)
    (hk : k.Fair s.clock) : Inv s' := by
  have hat : ∀ f, Holds s' (.cpu c) f ↔ k.entry = some f := by simp [Holds, hcb]
  refine h.moved (elsewhere_cpu hcb hop) hslots harmings hserial hnodup
    (fun f hf => hfrom f (hf.imp_left (hat f).mp)) (fun f hf => hone f ((hat f).mp hf))
    (fun f hpid hgen hf => (hkeep f hpid hgen hf).imp_left (hat f).mpr) (fun _ _ hf => hop ▸ hf)
    (hop ▸ h.noZero.2) ?_ (hclock ▸ h.clock)
  rw [hcb, hclock]
  exact h.cbs_update hk

theorem Inv.take (h : Inv s) {rest : List Entry} (hidle : s.cb c = .idle)
    (htimers : s.timers = e :: rest) (hdue : e.deadline ≤ s.clock) :
    Inv { s with timers := rest, cb := update s.cb c (.taken e) } := by
  have hnodup := h.nodup
  rw [htimers, List.map_cons, List.nodup_cons] at hnodup
  have hentry : ∀ f, (Cb.taken e).entry = some f ↔ f = e := by simp [Cb.entry, eq_comm]
  refine h.cb_step rfl rfl rfl (fun i => Slot.Same.rfl _) rfl rfl hnodup.2 (fun f hf => .inr ?_)
    (fun f hf hrest => ?_) (fun f _ _ hf => ?_) hdue
  · rw [htimers, List.mem_cons, ← hentry]
    exact hf
  · exact hnodup.1 (List.mem_map.mpr ⟨f, hrest, congrArg Entry.gen ((hentry f).mp hf)⟩)
  · rw [hentry, ← List.mem_cons, ← htimers]
    exact hf.resolve_left (by simp [Holds, hidle, Cb.entry])

theorem Inv.set_cb (h : Inv s) {k : Cb} {g : ℕ → Bool} (hsame : k.entry = (s.cb c).entry)
    (hk : k.Fair s.clock) : Inv { s with pending := g, cb := update s.cb c k } := by
  refine h.cb_step rfl rfl rfl (fun i => Slot.Same.rfl _) rfl rfl h.nodup
    (fun f hf => hf.imp_left hsame.symm.trans) (fun f hf hl => ?_)
    (fun f _ _ hf => hf.imp_left hsame.trans) hk
  exact Place.noConfusion (h.unique (.cpu c) .list f f (hsame.symm.trans hf) hl rfl).1

theorem Inv.rearm (h : Inv s) (he : (s.cb c).entry = some e) (hspared : Spared s e.slot) :
    Inv { s with timers := arm e s.timers, cb := update s.cb c .idle } := by
  have hheld : ∀ f, Holds s (.cpu c) f ↔ f = e := by simp [Holds, he, eq_comm]
  have hlist : ∀ f ∈ s.timers, f.gen ≠ e.gen := fun f hf =>
    h.gen_ne (x := .list) (y := .cpu c) hf he Place.noConfusion
  refine h.cb_step rfl rfl rfl (fun i => Slot.Same.rfl _) rfl rfl (nodup_arm h.nodup hlist)
    (fun f hf => ?_) (fun f hf => by cases hf) (fun f hpid hgen hf => .inr ?_) trivial
  · exact (mem_arm.mp (hf.resolve_left (by simp [Cb.entry]))).imp (hheld f).mpr And.left
  · refine mem_arm.mpr (hf.imp (hheld f).mp fun hf => ⟨hf, fun hslot => ?_⟩)
    rw [hslot] at hpid hgen
    exact hspared f hf hslot hpid hgen

theorem Inv.slot_eq {x : Place} (h : Inv s) (he : Holds s x e) (hpid : (s.slots e.slot).pid ≠ 0)
    (hgen : (s.slots e.slot).gen = e.gen) :
    ∃ a, s.armings (s.slots e.slot).pid = some a ∧ a.gen = e.gen ∧ a.due = e.deadline ∧
      (s.slots e.slot).interval = a.interval ∧ (s.slots e.slot).next = a.due := by
  obtain ⟨a, ha, hagen, hdue⟩ := h.current x e he hpid hgen
  obtain ⟨i, y, hi, -, hint, hnext, -⟩ := h.fires _ a ha
  obtain rfl : e.slot = i := h.inj _ _ hpid hi.symm
  exact ⟨a, ha, hagen, hdue, hint, hnext⟩

theorem fireLock_use (j : ℕ) : ((s.fireLock c e).slots j).pid = (s.slots j).pid ∧
    ((s.fireLock c e).slots j).gen = (s.slots j).gen ∧
      ((s.fireLock c e).slots j).interval = (s.slots j).interval := by
  by_cases hj : j = e.slot
  · subst hj
    simp [fireLock]
  · simp [fireLock, hj]

theorem fireLock_slot_of_ne {j : ℕ} (hj : j ≠ e.slot) : (s.fireLock c e).slots j = s.slots j := by
  simp [fireLock, hj]

theorem Inv.fireLock_free (h : Inv s) (hcb : s.cb c = .taken e)
    (hfree : (s.slots e.slot).pid = 0) : Inv (s.fireLock c e) := by
  have hint : (s.slots e.slot).interval = 0 := h.free _ hfree
  refine h.cb_step rfl rfl rfl ?_ (by simp [fireLock, hfree]) rfl h.nodup (fun f hf => ?_)
    (fun f hf => ?_) (fun f hpid _ hf => ?_) fun hpid => absurd hfree hpid
  · intro j
    refine ⟨(fireLock_use j).1, (fireLock_use j).2.1, (fireLock_use j).2.2, ?_⟩
    intro hj
    have hne : j ≠ e.slot := by
      rintro rfl
      exact hj hfree
    rw [fireLock_slot_of_ne hne]
  · exact .inr (hf.resolve_left (by simp [Cb.entry, Itimer.rearm, hint]))
  · simp [Cb.entry, Itimer.rearm, hint] at hf
  · refine .inr (hf.resolve_left fun hf => hpid ?_)
    obtain rfl : e = f := by simpa [Holds, hcb, Cb.entry] using hf
    exact hfree

theorem Arming.due_served (a : Arming) : ({ a with fires := a.fires + 1 } : Arming).due =
    a.due + a.interval := by
  simp only [Arming.due, Nat.add_mul, Nat.one_mul, Nat.add_assoc]

theorem nextDeadline_eq {next interval now : ℕ} (hlate : now < next + interval)
    (hword : next + interval < wordSize) : nextDeadline next interval now = next + interval := by
  unfold nextDeadline
  rw [Nat.mod_eq_of_lt hword, if_neg (by omega)]

theorem armings_fireLock (ha : s.armings (s.slots e.slot).pid = some a)
    (hpid : (s.slots e.slot).pid ≠ 0) (hgen : (s.slots e.slot).gen = e.gen) (hagen : a.gen = e.gen) :
    (s.fireLock c e).armings = update s.armings (s.slots e.slot).pid a.served := by
  simp [fireLock, serve, ha, hpid, hgen, hagen]

-- The CPU then holds the next deadline's entry, if the timer is periodic; the rest stays.
theorem Inv.holds_fireLock {z : Place} (h : Inv s) (hcb : s.cb c = .taken e)
    (hgen : (s.slots e.slot).gen = e.gen) (hf : Holds (s.fireLock c e) z f) :
    (z = .cpu c ∧ f = ⟨e.slot, nextDeadline (s.slots e.slot).next (s.slots e.slot).interval s.clock,
        e.gen⟩ ∧ (s.slots e.slot).interval ≠ 0) ∨ (Holds s z f ∧ f.gen ≠ e.gen) := by
  have he : Holds s (.cpu c) e := by simp [Holds, hcb, Cb.entry]
  cases z with
  | op q => exact .inr ⟨hf, h.gen_ne (x := .op q) hf he Place.noConfusion⟩
  | list => exact .inr ⟨hf, h.gen_ne (x := .list) hf he Place.noConfusion⟩
  | cpu d =>
    by_cases hd : d = c
    · subst hd
      left
      simp only [Holds, fireLock, update_self, Cb.entry, Itimer.rearm, hgen] at hf
      by_cases hiv : (s.slots e.slot).interval = 0
      · rw [if_neg (fun hr => hr.1 hiv)] at hf
        cases hf
      · rw [if_neg hiv] at hf
        split at hf
        · exact ⟨rfl, (Option.some.inj hf).symm, hiv⟩
        · cases hf
    · have hold : Holds s (.cpu d) f := by simpa [Holds, fireLock, hd] using hf
      exact .inr ⟨hold, h.gen_ne hold he (by simpa using hd)⟩

theorem Inv.fireLock_served (h : Inv s) (hcb : s.cb c = .taken e)
    (hpid : (s.slots e.slot).pid ≠ 0) (hgen : (s.slots e.slot).gen = e.gen)
    (htime : (s.slots e.slot).interval ≠ 0 →
      s.clock < (s.slots e.slot).next + (s.slots e.slot).interval ∧
        (s.slots e.slot).next + (s.slots e.slot).interval < wordSize) :
    Inv (s.fireLock c e) := by
  have he : Holds s (.cpu c) e := by simp [Holds, hcb, Cb.entry]
  obtain ⟨a, ha, hagen, hdue, hint, hnext⟩ := h.slot_eq he hpid hgen
  have harmings := armings_fireLock (c := c) ha hpid hgen hagen
  have hnew := fun z f => h.holds_fireLock (z := z) (f := f) hcb hgen
  -- the next deadline of a periodic timer is the next one due
  have hdeadline : a.interval ≠ 0 →
      nextDeadline (s.slots e.slot).next (s.slots e.slot).interval s.clock =
        ({ a with fires := a.fires + 1 } : Arming).due := by
    intro hiv
    obtain ⟨hlate, hword⟩ := htime (hint ▸ hiv)
    rw [nextDeadline_eq hlate hword, Arming.due_served, hnext, hint]
  have hserved : a.interval ≠ 0 → a.served = some { a with fires := a.fires + 1 } :=
    fun hiv => if_neg hiv
  have hunique : Unique (s.fireLock c e) :=
    h.unique.move (y := .cpu c) (e := ⟨e.slot,
      nextDeadline (s.slots e.slot).next (s.slots e.slot).interval s.clock, e.gen⟩)
      fun z f hf => (hnew z f hf).imp (fun hz => ⟨hz.1, hz.2.1⟩) id
  have hother : ∀ j, j ≠ e.slot → (s.slots j).pid ≠ (s.slots e.slot).pid :=
    fun j hj hjpid => hj (h.inj j _ (hjpid ▸ hpid) hjpid)
  have hslot : ∀ f, Holds s (.cpu c) f ∨ Holds (s.fireLock c e) (.cpu c) f → f.slot = e.slot := by
    rintro f (hf | hf)
    · rw [Option.some.inj (he.symm.trans hf)]
    · obtain hz | hold := hnew _ f hf
      · rw [hz.2.1]
      · rw [Option.some.inj (he.symm.trans hold.1)]
  refine h.renew hpid (.inl rfl) hother (elsewhere_cpu rfl rfl) rfl hslot rfl harmings
    (Nat.le_refl _) (.inr ⟨rfl, h.slotFresh _ hpid, h.inTable _ hpid⟩) hunique (fun x f hf => ?_)
    (fun x f hf hfslot _ hfgen => ?_) (fun b hb => ?_) (fun q f hf => ?_) h.noZero.2 rfl
    (h.cbs_update fun _ => ⟨hgen.symm, a.due, by rw [ha]; rfl, ?_⟩)
  · cases hnew x f hf with
    | inl hz =>
      rw [hz.2.1]
      exact h.fresh _ e he
    | inr hold => exact h.fresh x f hold.1
  · cases hnew x f hf with
    | inl hz =>
      obtain ⟨-, rfl, hiv⟩ := hz
      have hiv' : a.interval ≠ 0 := hint ▸ hiv
      exact ⟨_, hserved hiv', hagen, (hdeadline hiv').symm⟩
    | inr hold => exact absurd (hfgen.symm.trans hgen) hold.2
  · by_cases hiv : a.interval = 0
    · simp [Arming.served, hiv] at hb
    · rw [hserved hiv] at hb
      obtain rfl := Option.some.inj hb
      have hduePos : nextDeadline (s.slots e.slot).next (s.slots e.slot).interval s.clock ≠ 0 := by
        rw [hdeadline hiv, Arming.due_served]
        omega
      have hiv' : (s.slots e.slot).interval ≠ 0 := hint ▸ hiv
      refine ⟨.cpu c, rfl, hgen.trans hagen.symm, hint, ?_, ?_⟩
      · simp only [if_neg hiv']
        exact hdeadline hiv
      · simp only [Holds, fireLock, update_self, Cb.entry, Itimer.rearm, if_neg hiv']
        rw [if_pos ⟨hiv', hduePos⟩, hdeadline hiv, hgen, hagen]
  · obtain ⟨hfpid, hfgen⟩ := h.mine q f hf
    by_cases hq : q = (s.slots e.slot).pid
    · have hfslot : f.slot = e.slot := by_contra fun hne => hother _ hne (hfpid.trans hq)
      exact .inr ⟨hq, hfslot, rfl, hfslot ▸ hfgen⟩
    · exact .inl ⟨hq, hf⟩
  · have hfair := h.cbs c
    rw [hcb] at hfair
    rw [hdue]
    exact hfair

theorem Inv.expire (h : Inv s) (hc : c < maxCpus) (ho : Orderly s (.expire c)) :
    Inv (s.expire c) := by
  obtain ⟨htaken, hsignalled⟩ := ho hc
  unfold State.expire
  cases hcb : s.cb c with
  | idle =>
    cases htimers : s.timers with
    | nil => exact h
    | cons e rest => exact guard_rule h fun _ => h.take hcb htimers ‹_›
  | taken e =>
    by_cases hpid : (s.slots e.slot).pid = 0
    · exact h.fireLock_free hcb hpid
    · obtain ⟨hgen, htime⟩ := htaken e hcb hpid
      exact h.fireLock_served hcb hpid hgen htime
  | locked slot pid interval next gen expired asked =>
    exact h.set_cb (by rw [hcb]; rfl) trivial
  | signalled slot interval next gen =>
    dsimp only
    have hentry : (s.cb c).entry = Itimer.rearm slot interval next gen := by rw [hcb]; rfl
    by_cases hiv : interval ≠ 0 ∧ next ≠ 0
    · rw [if_pos hiv]
      rw [Itimer.rearm, if_pos hiv] at hentry
      exact h.rearm hentry (hsignalled slot interval next gen hcb hiv.1 hiv.2)
    · rw [if_neg hiv]
      rw [Itimer.rearm, if_neg hiv] at hentry
      exact h.set_cb (g := s.pending) hentry.symm trivial

end Expire

end DosKernel.Itimer

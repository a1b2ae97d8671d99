import DosKernel.Itimer.Alarms

namespace DosKernel.Itimer

open DosKernel.Lib List Nat State
open Function (update update_of_ne update_self)

variable {s s' : State} {e f : Entry} {i c pid rounds : ℕ} {a : Arming}

section Setitimer

theorem slotFor_spec {create : Bool} (h : s.slotFor pid create = some i) :
    i < itimerSlots ∧ ((s.slots i).pid = pid ∨ (create = true ∧ (s.slots i).pid = 0 ∧
      ∀ j < itimerSlots, (s.slots j).pid ≠ pid)) := by
  unfold slotFor at h
  cases hfind : (range itimerSlots).find? fun i => (s.slots i).pid = pid with
  | some j =>
    rw [hfind] at h
    obtain rfl := Option.some.inj h
    exact ⟨mem_range.mp (mem_of_find?_eq_some hfind),
      .inl (by simpa using find?_some hfind)⟩
  | none =>
    rw [hfind] at h
    cases create with
    | false => cases h
    | true =>
      rw [if_pos rfl] at h
      refine ⟨mem_range.mp (mem_of_find?_eq_some h),
        .inr ⟨rfl, by simpa using find?_some h, ?_⟩⟩
      intro j hj
      simpa using find?_eq_none.mp hfind j (mem_range.mpr hj)

theorem ready_spec (h : s.ready pid = true) :
    pid ≠ 0 ∧ s.op pid = .idle := by
  simp only [ready, Bool.and_eq_true, bne_iff_ne, beq_iff_eq] at h
  exact ⟨h.1.1, h.2⟩

theorem Inv.other_slot (h : Inv s) {create : Bool} (hpid : pid ≠ 0)
    (hslot : s.slotFor pid create = some i) {j : ℕ} (hj : j ≠ i) : (s.slots j).pid ≠ pid := by
  intro hjpid
  cases (slotFor_spec hslot).2 with
  | inl hown => exact hj (h.inj j i (hjpid ▸ hpid) (hjpid.trans hown.symm))
  | inr hfree => exact hfree.2.2 j (h.inTable j (hjpid ▸ hpid)) hjpid

theorem Inv.disarmLock (h : Inv s) (hready : s.ready pid = true) : Inv (s.disarmLock pid) := by
  obtain ⟨hpid, hidle⟩ := ready_spec hready
  unfold State.disarmLock
  cases hslot : s.slotFor pid false with
  | none => exact h
  | some i =>
    have hi : (s.slots i).pid = pid := by
      cases (slotFor_spec hslot).2 with
      | inl hown => exact hown
      | inr hfree => cases hfree.1
    -- first the process stops being idle, then its slot goes
    have hop := h.set_op hpid (o := .cancel i cancelRounds) (by rw [hidle]; rfl) rfl
    refine hop.renew (x := .op pid) hpid (.inl hi) (fun j hj => h.other_slot hpid hslot hj)
      (fun _ _ _ _ => Iff.rfl) rfl (fun f hf => ?_) rfl rfl (Nat.le_refl _) (.inl ⟨rfl, rfl⟩)
      hop.unique hop.fresh (fun _ _ _ _ h0 => absurd rfl h0) (fun _ ha => by cases ha)
      (fun q f hf => .inl ⟨?_, hf⟩) hop.noZero.2 rfl h.cbs
    · simp [Holds, Op.entry] at hf
    · rintro rfl
      simp at hf

theorem armLock_eq {value interval : ℕ} (hslot : s.slotFor pid true = some i) :
    s.armLock pid value interval =
      { s with
        slots := update s.slots i
          ⟨pid, interval, (s.clock + value) % wordSize, true, s.serial⟩
        op := update s.op pid (.arming ⟨i, (s.clock + value) % wordSize, s.serial⟩)
        serial := s.serial + 1
        armings := update s.armings pid
          (some ⟨s.serial, s.clock + value, interval, 0⟩) } := by
  simp only [armLock, hslot]

theorem Inv.holds_armLock {z : Place} (h : Inv s) (value interval : ℕ)
    (hslot : s.slotFor pid true = some i) (hf : Holds (s.armLock pid value interval) z f) :
    (z = .op pid ∧ f = ⟨i, (s.clock + value) % wordSize, s.serial⟩) ∨
      (Holds s z f ∧ f.gen ≠ s.serial) := by
  rw [armLock_eq hslot] at hf
  cases z with
  | op q =>
    by_cases hq : q = pid
    · subst hq
      simp only [Holds, update_self, Op.entry, Option.some.injEq] at hf
      exact .inl ⟨rfl, hf.symm⟩
    · have hold : Holds s (.op q) f := by simpa [Holds, hq] using hf
      exact .inr ⟨hold, Nat.ne_of_lt (h.fresh _ f hold)⟩
  | list => exact .inr ⟨hf, Nat.ne_of_lt (h.fresh .list f hf)⟩
  | cpu d => exact .inr ⟨hf, Nat.ne_of_lt (h.fresh (.cpu d) f hf)⟩

theorem Inv.armLock (h : Inv s) {value interval : ℕ} (hready : s.ready pid = true)
    (hword : s.slotFor pid true ≠ none → s.clock + value < wordSize) :
    Inv (s.armLock pid value interval) := by
  obtain ⟨hpid, hidle⟩ := ready_spec hready
  cases hslot : s.slotFor pid true with
  | none =>
    rw [State.armLock, hslot]
    exact h
  | some i =>
    have hnew := fun (z : Place) (f : Entry) =>
      h.holds_armLock (z := z) (f := f) value interval hslot
    have hnext : (s.clock + value) % wordSize = s.clock + value :=
      mod_eq_of_lt (hword (by rw [hslot]; exact Option.some_ne_none i))
    rw [armLock_eq hslot] at hnew ⊢
    rw [hnext] at hnew ⊢
    have hspec := slotFor_spec hslot
    have hnone : ∀ f, ¬ Holds s (.op pid) f := by simp [Holds, hidle, Op.entry]
    refine h.renew (x := .op pid) hpid (hspec.2.imp_right fun hfree => hfree.2.1)
      (fun j hj => h.other_slot hpid hslot hj) (elsewhere_op rfl rfl) rfl (fun f hf => ?_) rfl rfl
      (Nat.le_succ _) (.inr ⟨rfl, lt_succ_self _, hspec.1⟩)
      (h.unique.move (e := ⟨i, s.clock + value, s.serial⟩) hnew) (fun x f hf => ?_)
      (fun x f hf _ _ hgen => ?_) (fun a ha => ?_) (fun q f hf => ?_) ?_ rfl h.cbs
    · obtain hz | hold := hnew _ f (hf.resolve_left (hnone f))
      · rw [hz.2]
      · exact absurd hold.1 (hnone f)
    · cases hnew x f hf with
      | inl hz =>
        rw [hz.2]
        exact lt_succ_self _
      | inr hold => exact lt_succ_of_lt (h.fresh x f hold.1)
    · cases hnew x f hf with
      | inl hz =>
        obtain ⟨-, rfl⟩ := hz
        exact ⟨_, rfl, rfl, by simp [Arming.due]⟩
      | inr hold => exact absurd hgen.symm hold.2
    · obtain rfl := Option.some.inj ha
      exact ⟨.op pid, by simp [Arming.due, Holds, Op.entry]⟩
    · dsimp only at hf
      revert hf
      refine update_rule q (fun hf => ?_) fun hq hf => .inl ⟨hq, hf⟩
      cases hf
      exact .inr ⟨rfl, rfl, rfl, rfl⟩
    · simp only [update_of_ne (Ne.symm hpid), h.noZero.2]

end Setitimer

theorem Cb.Fair.later {k : Cb} {now clock : ℕ} (h : k.Fair now) (hle : now ≤ clock) : k.Fair clock := by
  cases k with
  | taken e => exact Nat.le_trans h hle
  | locked slot pid interval next gen expired asked =>
    intro hpid
    obtain ⟨hgen, d, hasked, hd⟩ := h hpid
    exact ⟨hgen, d, hasked, Nat.le_trans hd hle⟩
  | _ => trivial

theorem Inv.same (h : Inv s) {exited : ℕ → Bool} {clock : ℕ} (hclock : s.clock ≤ clock)
    (hword : clock < wordSize) : Inv { s with exited, clock } :=
  h.moved (x := .cpu 0) (fun _ _ _ _ => Iff.rfl) (fun _ => Slot.Same.rfl _) rfl rfl h.nodup
    (fun _ hf => hf) (fun f hf hl => Place.noConfusion (h.unique (.cpu 0) .list f f hf hl rfl).1)
    (fun _ _ _ hf => hf) (fun _ _ hf => hf) h.noZero.2
    (fun c => (h.cbs c).later hclock) hword

theorem Inv.step (h : Inv s) {act : Act} (ho : Orderly s act) : Inv (s.step act) := by
  cases act with
  | setitimer pid value interval =>
    simp only [State.step]
    split
    next hready =>
      split
      · exact h.disarmLock hready
      next hvalue =>
        exact h.armLock hready (ho hready hvalue)
    · exact h
  | exit pid =>
    simp only [State.step]
    split
    next hready =>
      have hdis := h.disarmLock hready
      exact hdis.same (Nat.le_refl _) hdis.clock
    · exact h
  | proceed pid => exact h.proceed ho
  | expire c => exact guard_rule h fun _ => h.expire ‹_› ho
  | tick n => exact guard_rule h fun _ => h.same (Nat.le_add_right _ _) ‹_›

theorem inv_boot : Inv boot where
  unique := by
    intro x y e f hx
    cases x <;> cases hx
  nodup := nodup_nil
  fresh := by
    intro x e hx
    cases x <;> cases hx
  slotFresh := fun i hi => absurd rfl hi
  current := by
    intro x e hx
    cases x <;> cases hx
  fires := by
    intro pid a ha
    cases ha
  mine := by
    intro pid e he
    cases he
  inj := fun i j hi => absurd rfl hi
  inTable := fun i hi => absurd rfl hi
  free := fun _ _ => rfl
  noZero := ⟨rfl, rfl⟩
  clock := by decide
  cbs := fun _ => trivial

-- One alarm, armed, due and signalled.
def onceActs : List Act := [.setitimer 1 10 0, .proceed 1, .tick 10, .expire 0, .expire 0, .expire 0]

-- Process 1 disarms; process 2 takes the slot, and the `ktimer_cancel` of 1 takes its timer off.
def stolenActs : List Act :=
  [.setitimer 1 10 0, .proceed 1, .setitimer 1 0 0, .setitimer 2 10 0, .proceed 2, .proceed 1]

-- Process 1 asks for 10 and every 10 after: the callback for 10 runs at 25 and arms 35.
def lateActs : List Act :=
  [.setitimer 1 10 10, .proceed 1, .tick 25, .expire 0, .expire 0, .expire 0, .expire 0]

end DosKernel.Itimer

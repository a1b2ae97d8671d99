import DosKernel.Sched.Rings

namespace DosKernel.Sched.Rqs

open DosKernel.Lib

variable {T C : Type} [DecidableEq T] [DecidableEq C]

-- The rings are circles of the tasks at home there, each counted and in one only; a processor picks
-- a runnable task of its ring or its idle task; and no step puts a dead task into a ring.
structure Sound [Fintype C] (s : Rqs T C) : Prop where
  rings : ∃ l, Rings s l ∧ (∀ i j t, t ∈ l i → t ∈ l j → i = j) ∧
    ∀ i t, (s.pickNextLocal i).2.or (s.idle i) = some t →
      t ∈ l i ∧ s.state t = .runnable ∨ s.idle i = some t
  inserts : ∀ a t i, s.cpuHome t ≠ some i → (s.step a).cpuHome t = some i → s.state t ≠ .dead

-- No walk gives up: the ring is not longer than the bound, or the pick finds a task before.
def Bounded [Fintype C] (s : Rqs T C) : RqAct T C → Prop
  | .schedule i => ∀ prev ∈ s.current i, (s.replenish i prev).Served i
  | .scheduleAgain i stole => stole = true → s.current i ≠ none → s.Served i
  | .steal victim dest _ _ => victim ≠ dest → s.rqCount victim ≤ rqWalkMax
  | .refresh i _ => s.rqCount i ≤ rqWalkMax
  | _ => True

section Homes

variable {s : Rqs T C} {i : C} {t u : T}

theorem cpuHome_rqRotateToTail : (s.rqRotateToTail i t).cpuHome = s.cpuHome := by
  rw [rqRotateToTail]
  repeat' split
  all_goals rfl

theorem cpuHome_rqRingRepair {w : Option T} : (s.rqRingRepair i w).cpuHome = s.cpuHome := by
  unfold rqRingRepair
  split <;> rfl

theorem cpuHome_replenish : (s.replenish i t).cpuHome = s.cpuHome := by
  rw [replenish]
  split
  · exact cpuHome_rqRotateToTail
  · rfl

def Switched (s s' : Rqs T C) : Prop :=
  ∃ c o v, s' = { s with current := c, onCpu := o, leaving := v }

omit [DecidableEq T] [DecidableEq C] in
theorem Switched.refl : s.Switched s := ⟨s.current, s.onCpu, s.leaving, rfl⟩

omit [DecidableEq T] [DecidableEq C] in
theorem Switched.cpuHome {s' : Rqs T C} (h : s.Switched s') : s'.cpuHome = s.cpuHome := by
  obtain ⟨c, o, v, rfl⟩ := h
  rfl

theorem switched_switchTo : s.Switched (s.switchTo i t u) := by
  rw [switchTo]
  split
  · exact .refl
  · exact ⟨_, _, _, rfl⟩

theorem switched_fallBack : s.Switched (s.fallBack i t) := by
  rw [fallBack]
  split
  · exact .refl
  · split
    · exact .refl
    · split
      · exact switched_switchTo
      · exact .refl

theorem cpuHome_rqRemove : (s.rqRemove i t).cpuHome u = s.cpuHome u ∨
    (s.rqRemove i t).cpuHome u = none := by
  rw [rqRemove]
  split
  · exact Or.inl rfl
  · by_cases hu : u = t
    · exact Or.inr (by simp [hu])
    · exact Or.inl (by simp [hu])

theorem cpuHome_rqInsertTail : (s.rqInsertTail i t).cpuHome u = s.cpuHome u ∨
    u = t ∧ s.state t ≠ .dead := by
  rw [rqInsertTail]
  split
  · exact Or.inl rfl
  · next hd =>
    by_cases hu : u = t
    · exact Or.inr ⟨hu, hd⟩
    · refine Or.inl ?_
      split
      · rfl
      · split <;> simp [hu]

theorem state_rqRemove : (s.rqRemove i t).state = s.state := by
  rw [rqRemove]
  split <;> rfl

theorem cpuHome_loadStealOne {victim dest : C} {want max : ℕ} :
    (s.loadStealOne victim dest want max).cpuHome u = s.cpuHome u ∨
      (s.loadStealOne victim dest want max).cpuHome u = none ∨ s.state u ≠ .dead := by
  rw [loadStealOne]
  split
  · exact Or.inl rfl
  · dsimp only
    split
    · split
      · next t _ =>
        rcases cpuHome_rqInsertTail (s := s.rqRemove victim t) (i := dest) (t := t) (u := u)
          with h | ⟨rfl, hd⟩
        · rw [h]
          exact (cpuHome_rqRemove (s := s)).imp_right Or.inl
        · rw [state_rqRemove] at hd
          exact Or.inr (Or.inr hd)
      · exact Or.inl rfl
    · rw [cpuHome_rqRingRepair]
      exact Or.inl rfl

variable [Fintype C]

theorem cpuHome_pickNextLocal : (s.pickNextLocal i).1.cpuHome = s.cpuHome := by
  rw [pickNextLocal]
  split
  · rfl
  · next a _ =>
    obtain ⟨k, hk⟩ := pickPass_fst i true (s.rqWalk a).1 s
    dsimp only
    split
    · rw [hk]
    · split
      · obtain ⟨k', hk'⟩ := pickPass_fst i false (s.rqWalk a).1
          (pickPass i true (s.rqWalk a).1 s).1
        rw [hk', hk]
      · rw [cpuHome_rqRingRepair, hk]

end Homes

section Steps

variable {s : Rqs T C} {l : C → List T} {i : C}

theorem Rings.replenish (h : Rings s l) (prev : T) : ∃ l', Rings (s.replenish i prev) l' := by
  rw [Rqs.replenish]
  split
  · next hc =>
    have hrot : ∀ d k, ∃ l', Rings (rqRotateToTail { s with
        deficit := d
        skipsLeft := k } i prev) l' := by
      intro d k
      have h' : Rings { s with
        deficit := d
        skipsLeft := k } l := h.of_eq
      obtain ⟨m, hm⟩ := h'.rotateToTail (i := i) (t := prev) hc.2.1
      exact ⟨_, hm⟩
    exact hrot _ _
  · exact ⟨l, h⟩

omit [DecidableEq T] [DecidableEq C] in
theorem Rings.switched {s' : Rqs T C} (h : Rings s l) (hs : s.Switched s') : Rings s' l := by
  obtain ⟨c, o, v, rfl⟩ := hs
  exact h.of_eq

omit [DecidableEq T] [DecidableEq C] in
theorem Torn.switched {s' : Rqs T C} (h : s.Torn i) (hs : s.Switched s') : s'.Torn i := by
  obtain ⟨c, o, v, rfl⟩ := hs
  exact h

omit [DecidableEq C] in
theorem mem_of_closest {victim dest : C} {want max : ℕ} {ts : List T} {t : T}
    (ht : (s.closest victim dest want max ts).2 = some t) : t ∈ ts := by
  rw [closest] at ht
  generalize hbest : ((4294967295, none) : ℕ × Option T) = best at ht
  have hnone : best.2 ≠ some t := by simp [← hbest]
  clear hbest
  induction ts generalizing best with
  | nil => exact absurd ht hnone
  | cons b ts ih =>
    by_cases hb : b = t
    · exact hb ▸ List.mem_cons_self
    · refine List.mem_cons_of_mem _ (ih _ ht ?_)
      dsimp only
      split <;> split
      · simpa using hb
      · exact hnone
      · simpa using hb
      · exact hnone

variable [Fintype C]

theorem inserts_step (a : RqAct T C) (t : T) (i : C) (hbefore : s.cpuHome t ≠ some i)
    (hafter : (s.step a).cpuHome t = some i) : s.state t ≠ .dead := by
  have hsame : (s.step a).cpuHome t = s.cpuHome t ∨ (s.step a).cpuHome t = none ∨
      s.state t ≠ .dead := by
    cases a with
    | enqueue u j =>
      rw [step]
      split
      · exact Or.inl rfl
      · rcases cpuHome_rqInsertTail (s := s) (i := j) (t := u) (u := t) with h | ⟨rfl, hd⟩
        · exact Or.inl h
        · exact Or.inr (Or.inr hd)
    | detach u j | purge u j =>
      rw [step]
      split
      · exact cpuHome_rqRemove.imp_right Or.inl
      · exact Or.inl rfl
    | schedule j =>
      left
      rw [step]
      split
      · rfl
      · dsimp only
        split
        · rw [switched_switchTo.cpuHome, cpuHome_pickNextLocal, cpuHome_replenish]
        · rw [cpuHome_pickNextLocal, cpuHome_replenish]
    | scheduleAgain j stole =>
      left
      rw [step]
      split
      · rfl
      · cases stole with
        | true =>
          simp only [if_true]
          split
          · rw [switched_switchTo.cpuHome, cpuHome_pickNextLocal]
          · rw [switched_fallBack.cpuHome, cpuHome_pickNextLocal]
        | false => exact congrFun switched_fallBack.cpuHome t
    | steal victim dest want max =>
      rw [step]
      split
      · exact cpuHome_loadStealOne
      · exact Or.inl rfl
    | refresh j measured =>
      left
      rw [step, rqRefreshLocalLoad]
      split
      · rfl
      · dsimp only
        split
        · rfl
        · rw [cpuHome_rqRingRepair]
    | release j | becomeIdle j =>
      left
      rw [step]
      split <;> rfl
    | setMask | setState | setNice | charge => exact Or.inl rfl
  rcases hsame with h | h | h
  · exact absurd (h ▸ hafter) hbefore
  · simp [h] at hafter
  · exact h

theorem Rings.sound (h : Rings s l) : Sound s := by
  refine ⟨⟨l, h, fun i j t hi hj => ?_, fun i t ht => ?_⟩, inserts_step⟩
  · exact Option.some.inj ((h.home i t hi).symm.trans (h.home j t hj))
  · rcases hpick : (s.pickNextLocal i).2 with _ | u
    · rw [hpick, Option.none_or] at ht
      exact Or.inr ht
    · rw [hpick, Option.some_or] at ht
      obtain rfl : u = t := Option.some.inj ht
      exact Or.inl (h.mem_of_pick hpick)

theorem not_sound_of_torn (h : s.Torn i) : ¬ Sound s := by
  rintro ⟨⟨l, hl, -, -⟩, -⟩
  obtain ⟨m, hm, hlt⟩ := h
  rw [Links.circle_unique hm (hl.circle i), hl.count i] at hlt
  exact Nat.lt_irrefl _ hlt

theorem Rings.pick (h : Rings s l) (hserved : s.Served i) : Rings (s.pickNextLocal i).1 l := by
  obtain ⟨k, hk⟩ := h.pick_of_served hserved
  rw [hk]
  exact h.of_eq

theorem rings_step {a : RqAct T C} (h : Rings s l) (hb : Bounded s a) :
    ∃ l', Rings (s.step a) l' := by
  cases a with
  | enqueue t i =>
    rw [step]
    split
    · exact ⟨l, h⟩
    · exact h.insertTail
  | detach t home =>
    rw [step]
    split
    · next hc => exact ⟨_, h.remove (h.queued home t hc.1 hc.2)⟩
    · exact ⟨l, h⟩
  | purge t i =>
    rw [step]
    split
    · next hc =>
      have hin := hc.2
      rw [rqContains] at hin
      split at hin
      · simp at hin
      · next a hhead => exact ⟨_, h.remove (h.mem_of_mem_walk hhead (of_decide_eq_true hin))⟩
    · exact ⟨l, h⟩
  | schedule i =>
    rw [step]
    split
    · exact ⟨l, h⟩
    · next prev hcur =>
      obtain ⟨l', hl'⟩ := h.replenish (i := i) prev
      have hpick := hl'.pick (hb prev hcur)
      dsimp only
      split
      · exact ⟨l', hpick.switched switched_switchTo⟩
      · exact ⟨l', hpick⟩
  | scheduleAgain i stole =>
    rw [step]
    split
    · exact ⟨l, h⟩
    · next prev hcur =>
      cases stole with
      | true =>
        have hpick := h.pick (hb rfl (by simp [hcur]))
        simp only [if_true]
        split
        · exact ⟨l, hpick.switched switched_switchTo⟩
        · exact ⟨l, hpick.switched switched_fallBack⟩
      | false => exact ⟨l, h.switched switched_fallBack⟩
  | steal victim dest want max =>
    rw [step]
    split
    · next hne =>
      rw [loadStealOne]
      split
      · exact ⟨l, h⟩
      · next a hhead =>
        dsimp only
        split
        · split
          · next t hfound =>
            have ht := h.mem_of_mem_walk hhead (mem_of_closest hfound)
            exact (h.remove ht).insertTail
          · exact ⟨l, h⟩
        · next hcut =>
          rw [h.repair_of_le hhead (Bool.eq_false_iff.mpr hcut) (hb hne)]
          exact ⟨l, h⟩
    · exact ⟨l, h⟩
  | refresh i measured =>
    rw [step, rqRefreshLocalLoad]
    split
    · exact ⟨l, h⟩
    · next a hhead =>
      have h' : ∀ m, Rings { s with load := m } l :=
        fun _ => h.of_eq
      dsimp only
      split
      · exact ⟨l, h' _⟩
      · next hcut =>
        have hrepair : ∀ m, rqRingRepair { s with load := m } i (s.rqWalk a).1.getLast? =
            { s with load := m } :=
          fun m => (h' m).repair_of_le (a := a) hhead (Bool.eq_false_iff.mpr hcut) hb
        rw [hrepair]
        exact ⟨l, h' _⟩
  | release i =>
    rw [step]
    split
    · exact ⟨l, h⟩
    · exact ⟨l, h.of_eq⟩
  | becomeIdle i =>
    rw [step]
    split
    · exact ⟨l, h⟩
    · next t _ =>
      refine ⟨l, h.of_eq fun u hi => ?_⟩
      by_cases hu : u = t
      · simp [hu] at hi
      · simpa [hu] using hi
  | setMask | setState | setNice | charge =>
    exact ⟨l, h.of_eq⟩

theorem bounded_of_sound {a : RqAct T C} (h : Rings s l) (hafter : Sound (s.step a)) :
    Bounded s a := by
  have hcut : ∀ {i a}, s.rqHead i = some a → rqWalkMax < s.rqCount i → (s.rqWalk a).2 = false := by
    intro i a hhead hlt
    rw [h.walk_eq hhead, if_neg]
    rw [← h.count i]
    omega
  have hhead : ∀ {i}, rqWalkMax < s.rqCount i → ∃ a, s.rqHead i = some a := by
    intro i hlt
    have hcircle := h.circle i
    rw [h.count i] at hlt
    cases hl : l i with
    | nil => simp [hl] at hlt
    | cons a rest => exact ⟨a, (hl ▸ hcircle).1⟩
  cases a with
  | schedule i =>
    intro prev hcur
    by_contra hserved
    obtain ⟨l', hl'⟩ := h.replenish (i := i) prev
    obtain ⟨hnone, htorn⟩ := hl'.pick_of_not_served hserved
    rw [step, show s.current i = some prev from hcur] at hafter
    dsimp only at hafter
    rw [hnone] at hafter
    exact not_sound_of_torn htorn hafter
  | scheduleAgain i stole =>
    intro hstole hcur
    by_contra hserved
    obtain ⟨prev, hprev⟩ := Option.ne_none_iff_exists'.mp hcur
    obtain ⟨hnone, htorn⟩ := h.pick_of_not_served hserved
    rw [step, hprev] at hafter
    simp only [hstole, if_true] at hafter
    rw [hnone] at hafter
    exact not_sound_of_torn (htorn.switched switched_fallBack) hafter
  | steal victim dest want max =>
    intro hne
    by_contra hlong
    have hlt := Nat.lt_of_not_le hlong
    obtain ⟨a, ha⟩ := hhead hlt
    rw [step, if_pos hne, loadStealOne, ha] at hafter
    simp only [hcut ha hlt, Bool.false_eq_true, if_false] at hafter
    exact not_sound_of_torn (h.repair_of_lt ha (hcut ha hlt) hlt) hafter
  | refresh i measured =>
    by_contra hlong
    have hlt := Nat.lt_of_not_le hlong
    obtain ⟨a, ha⟩ := hhead hlt
    rw [step, rqRefreshLocalLoad, ha] at hafter
    simp only [hcut ha hlt, Bool.false_eq_true, if_false] at hafter
    have h' : ∀ m, Rings { s with load := m } l :=
      fun _ => h.of_eq
    have htorn : ∀ m, (rqRingRepair { s with load := m } i (s.rqWalk a).1.getLast?).Torn i :=
      fun m => (h' m).repair_of_lt ha (hcut ha hlt) hlt
    exact not_sound_of_torn (htorn _) hafter
  | _ => trivial

end Steps

omit [DecidableEq T] [DecidableEq C] in
theorem rings_boot (label : T → Option C) (idle : C → Option T) :
    Rings (boot label idle) fun _ => [] := by
  refine ⟨fun _ => rfl, fun _ => rfl, fun i t ht => ?_, fun i t hi hh => ?_⟩
  · simp at ht
  · simp only [boot] at hi hh
    simp [hh] at hi

-- Over every interleaving on any number of processors, the rings stay sound exactly as long as no
-- walk meets a ring too long for it.
theorem sound_iff_bounded [Fintype C] (label : T → Option C) (idle : C → Option T) (acts : List (RqAct T C)) :
    Always step Sound (boot label idle) acts ↔ Allowed step Bounded (boot label idle) acts := by
  refine always_iff_of_step (I := fun s => ∃ l, Rings s l) ?_ ?_ ?_ ⟨_, rings_boot label idle⟩
  · exact fun s a h hb => h.elim fun l hl => rings_step hl hb
  · exact fun s h => h.elim fun l hl => hl.sound
  · exact fun s a h hafter => h.elim fun l hl => bounded_of_sound hl hafter

theorem rqInsertTail_eq {s : Rqs T C} {t : T} (i : C) (hd : s.state t ≠ .dead)
    (hhome : s.cpuHome t = none) : ∃ k h, s.rqInsertTail i t = { s with
      links := k
      rqHead := h
      rqCount := Function.update s.rqCount i (s.rqCount i + 1)
      cpuHome := Function.update s.cpuHome t (some i) } := by
  rw [rqInsertTail, if_neg hd, if_neg (not_not.mpr hhome)]
  split
  · exact ⟨_, _, rfl⟩
  · exact ⟨_, s.rqHead, rfl⟩

-- Of two processors the first has `n` tasks, and the tasks from `n` on have never been queued.
structure Crowded (n : ℕ) (s : Rqs ℕ Bool) : Prop where
  rings : ∃ l, Rings s l
  count : s.rqCount false = n
  state : ∀ t, s.state t = .runnable
  isIdle : ∀ t, s.isIdle t = false
  home : ∀ t, n ≤ t → s.cpuHome t = none

theorem Crowded.enqueue {n : ℕ} {s : Rqs ℕ Bool} (h : Crowded n s) :
    Crowded (n + 1) (s.step (.enqueue n false)) := by
  obtain ⟨l, hl⟩ := h.rings
  have hd : s.state n ≠ .dead := by simp [h.state n]
  have hrings := hl.insertTail (i := false) (t := n)
  obtain ⟨k, hd, heq⟩ := rqInsertTail_eq false hd (h.home n (Nat.le_refl n))
  rw [step, if_neg (by simp [h.isIdle n])]
  rw [heq] at hrings ⊢
  refine ⟨hrings, ?_, h.state, h.isIdle, fun t ht => ?_⟩
  · simp [h.count]
  · have htn : t ≠ n := by omega
    exact (Function.update_of_ne htn _ _).trans (h.home t (by omega))

def crowd (n : ℕ) : List (RqAct ℕ Bool) := (List.range n).map fun t => .enqueue t false

theorem crowded_run (n : ℕ) :
    Crowded n (run step (boot (fun _ => none) fun _ => none) (crowd n)) := by
  induction n with
  | zero => exact ⟨⟨_, rings_boot _ _⟩, rfl, fun _ => rfl, fun _ => rfl, fun _ _ => rfl⟩
  | succ n ih =>
    have hsnoc : crowd (n + 1) = crowd n ++ [.enqueue n false] := by
      rw [crowd, List.range_succ, List.map_append, ← crowd]
      rfl
    rw [hsnoc, run_concat]
    exact ih.enqueue

theorem not_sound_of_crowd {n : ℕ} (hn : rqWalkMax < n) :
    ¬ Always step Sound (boot (fun _ => none) fun _ => none)
      (crowd n ++ [.refresh false fun _ => 0]) := by
  intro h
  have hlast := h.last
  rw [run_concat] at hlast
  have hcrowd := crowded_run n
  obtain ⟨l, hl⟩ := hcrowd.rings
  have hle : _ ≤ rqWalkMax := bounded_of_sound hl hlast
  rw [hcrowd.count] at hle
  omega

-- One task more than a walk can meet: the refresh of the load cuts the last one out of the ring.
theorem crowd_not_sound : ¬ Always step Sound (boot (fun _ => none) fun _ => none)
    (crowd 4097 ++ [.refresh false fun _ => 0]) :=
  not_sound_of_crowd (Nat.lt_succ_self 4096)

end DosKernel.Sched.Rqs

import DosKernel.Lib.Update
import DosKernel.Sched.Runqueue

namespace DosKernel.Sched.Rqs

open DosKernel.Lib List

open Function (update update_eq_self update_of_ne update_self)

variable {T C : Type} [DecidableEq T] [DecidableEq C]

-- The ring of a processor holds its tasks `l`, counts them, and is the home of each; a task with a
-- home, unless idle, is in that ring.
structure Rings (s : Rqs T C) (l : C → List T) : Prop where
  circle : ∀ i, s.links.Circle (s.rqHead i) (l i)
  count : ∀ i, s.rqCount i = (l i).length
  home : ∀ i, ∀ t ∈ l i, s.cpuHome t = some i
  queued : ∀ i t, s.isIdle t = false → s.cpuHome t = some i → t ∈ l i

variable {s s' : Rqs T C} {l : C → List T} {i j : C} {t : T} {m : List T}

omit [DecidableEq T] [DecidableEq C] in
theorem Rings.disjoint (h : Rings s l) (hij : i ≠ j) (ht : t ∈ l i) : t ∉ l j := by
  intro ht'
  exact hij (Option.some.inj ((h.home i t ht).symm.trans (h.home j t ht')))

omit [DecidableEq T] [DecidableEq C] in
theorem Rings.of_eq (h : Rings s l)
    (hidle : ∀ t, s'.isIdle t = false → s.isIdle t = false := by exact fun _ hi => hi)
    (hlinks : s'.links = s.links := by rfl) (hhead : s'.rqHead = s.rqHead := by rfl)
    (hcount : s'.rqCount = s.rqCount := by rfl) (hhome : s'.cpuHome = s.cpuHome := by rfl) :
    Rings s' l := by
  refine ⟨fun i => ?_, fun i => ?_, fun i t ht => ?_, fun i t hi hh => ?_⟩
  · rw [hlinks, hhead]
    exact h.circle i
  · rw [hcount]
    exact h.count i
  · rw [hhome]
    exact h.home i t ht
  · rw [hhome] at hh
    exact h.queued i t (hidle t hi) hh

omit [DecidableEq T] in
theorem Rings.of_ring (h : Rings s l) (i : C) (m : List T)
    (hhead : ∀ j, j ≠ i → s'.rqHead j = s.rqHead j)
    (hcount : ∀ j, j ≠ i → s'.rqCount j = s.rqCount j)
    (hlinks : ∀ j, j ≠ i → ∀ y ∈ l j,
      s'.links.next y = s.links.next y ∧ s'.links.prev y = s.links.prev y)
    (hhome : ∀ j t, j ≠ i → (s'.cpuHome t = some j ↔ s.cpuHome t = some j))
    (hidle : s'.isIdle = s.isIdle) (hcircle : s'.links.Circle (s'.rqHead i) m)
    (hlen : s'.rqCount i = m.length) (hin : ∀ t ∈ m, s'.cpuHome t = some i)
    (hqueued : ∀ t, s.isIdle t = false → s'.cpuHome t = some i → t ∈ m) :
    Rings s' (update l i m) := by
  refine ⟨fun j => update_rule j hcircle fun hj => ?_, fun j => update_rule j hlen fun hj => ?_,
    fun j t => update_rule j (hin t) fun hj ht => ?_,
    fun j t hi => update_rule j (hqueued t (hidle ▸ hi)) fun hj hh => ?_⟩
  · rw [hhead j hj]
    exact (h.circle j).frame (fun y hy => (hlinks j hj y hy).1) fun y hy => (hlinks j hj y hy).2
  · rw [hcount j hj]
    exact h.count j
  · exact (hhome j t hj).mpr (h.home j t ht)
  · exact h.queued j t (hidle ▸ hi) ((hhome j t hj).mp hh)

theorem rqInsertTail_of_refused (h : s.state t = .dead ∨ s.cpuHome t ≠ none) :
    s.rqInsertTail i t = s := by
  rw [rqInsertTail]
  split
  · rfl
  · next hd => rw [if_pos (h.resolve_left hd)]

theorem Rings.insertTail (h : Rings s l) : ∃ l', Rings (s.rqInsertTail i t) l' := by
  by_cases hfree : s.state t = .dead ∨ s.cpuHome t ≠ none
  · rw [rqInsertTail_of_refused hfree]
    exact ⟨l, h⟩
  obtain ⟨hd, hhome⟩ := not_or.mp hfree
  rw [not_not] at hhome
  have hnot : ∀ j, t ∉ l j := fun j ht => by simp [h.home j t ht] at hhome
  have hne : ∀ {j y}, y ∈ l j → y ≠ t := fun hy heq => hnot _ (heq ▸ hy)
  have hhomes : ∀ j u, j ≠ i → (update s.cpuHome t (some i) u = some j ↔ s.cpuHome u = some j) := by
    intro j u hj
    by_cases hu : u = t
    · simp [hu, hhome, Ne.symm hj]
    · rw [update_of_ne hu]
  have hin : ∀ u ∈ l i ++ [t], update s.cpuHome t (some i) u = some i := by
    intro u hu
    rcases mem_append.mp hu with hu | hu
    · rw [update_of_ne (hne hu)]
      exact h.home i u hu
    · rw [mem_singleton.mp hu, update_self]
  have hqueued : ∀ u, s.isIdle u = false → update s.cpuHome t (some i) u = some i →
      u ∈ l i ++ [t] := by
    intro u hi hu
    by_cases hut : u = t
    · simp [hut]
    · rw [update_of_ne hut] at hu
      exact mem_append_left _ (h.queued i u hi hu)
  have hcircle := h.circle i
  rw [rqInsertTail, if_neg hd, if_neg (not_not.mpr hhome)]
  cases hl : l i with
  | nil =>
    rw [hl] at hcircle
    have hhead : s.rqHead i = none := hcircle
    rw [hhead]
    rw [hl] at hin hqueued
    refine ⟨_, h.of_ring i [t] ?_ ?_ ?_ hhomes rfl ?_ ?_ hin hqueued⟩
    · exact fun j hj => update_of_ne hj _ _
    · exact fun j hj => update_of_ne hj _ _
    · exact fun j _ y hy => ⟨update_of_ne (hne hy) _ _, update_of_ne (hne hy) _ _⟩
    · simp only [update_self]
      exact Links.circle_single
    · simp [h.count i, hl]
  | cons a rest =>
    rw [hl] at hcircle hin hqueued
    have hhead : s.rqHead i = some a := hcircle.1
    rw [hhead] at hcircle
    rw [hhead]
    refine ⟨_, h.of_ring i (a :: rest ++ [t]) (fun _ _ => rfl) ?_ ?_ hhomes rfl ?_ ?_ hin hqueued⟩
    · exact fun j hj => update_of_ne hj _ _
    · intro j hj y hy
      have hyi : y ∉ a :: rest := hl ▸ h.disjoint hj hy
      exact Links.append_frame hcircle hyi (hne hy)
    · rw [show s.rqHead i = some a from hhead]
      exact hcircle.append (hl ▸ hnot i)
    · simp [h.count i, hl]

omit [DecidableEq C] in
theorem Rings.headWithout_eq (h : Rings s l) (ht : t ∈ l i) :
    s.headWithout i t = ((l i).erase t).head? := by
  have hcircle := h.circle i
  cases hl : l i with
  | nil => simp [hl] at ht
  | cons a rest =>
    rw [hl] at hcircle
    obtain ⟨hhead, hnd, hp⟩ := hcircle
    rw [headWithout, hhead]
    by_cases ha : a = t
    · subst ha
      rw [if_pos rfl, erase_cons_head]
      cases rest with
      | nil => rw [if_pos hp.1, head?_nil]
      | cons b rest =>
        have hba : b ≠ a := fun heq => (nodup_cons.mp hnd).1 (heq ▸ mem_cons_self)
        rw [hp.1, if_neg (by simpa using hba), head?_cons]
    · rw [if_neg (by simpa using ha), erase_cons_tail (by simpa using ha), head?_cons]

theorem Rings.remove (h : Rings s l) (ht : t ∈ l i) :
    Rings (s.rqRemove i t) (update l i ((l i).erase t)) := by
  have hcircle := h.circle i
  obtain ⟨hbypass, hframe⟩ := hcircle.bypass ht
  have hhome := h.home i t ht
  have hne : ∀ {u}, u ∈ (l i).erase t → u ≠ t := fun hu => (hcircle.nodup.mem_erase_iff.mp hu).1
  rw [rqRemove, if_neg fun hc => hcircle.linked ht hc.1]
  refine h.of_ring i _ ?_ ?_ ?_ ?_ rfl ?_ ?_ ?_ ?_
  · exact fun j hj => update_of_ne hj _ _
  · exact fun j hj => update_of_ne hj _ _
  · intro j hj y hy
    have hyi := h.disjoint hj hy
    have hyt : y ≠ t := fun heq => hyi (heq ▸ ht)
    refine ⟨?_, ?_⟩
    · exact (update_of_ne hyt _ _).trans (hframe y hyi).1
    · exact (update_of_ne hyt _ _).trans (hframe y hyi).2
  · intro j u hj
    by_cases hu : u = t
    · simp [hu, hhome, Ne.symm hj]
    · simp [update_of_ne hu]
  · simp only [update_self, h.headWithout_eq ht]
    exact hbypass.clear fun hmem => hne hmem rfl
  · simp only [update_self, h.count i, length_erase_of_mem ht]
  · intro u hu
    exact (update_of_ne (hne hu) _ _).trans (h.home i u (mem_of_mem_erase hu))
  · intro u hi hu
    have hut : u ≠ t := by
      rintro rfl
      simp at hu
    simp only [update_of_ne hut] at hu
    exact hcircle.nodup.mem_erase_iff.mpr ⟨hut, h.queued i u hi hu⟩

theorem Rings.rotateToTail (h : Rings s l) (hidle : s.isIdle t = false) :
    ∃ m, Rings (s.rqRotateToTail i t) (update l i m) := by
  have hself : Rings s (update l i (l i)) := by rwa [update_eq_self]
  rw [rqRotateToTail]
  split
  · exact ⟨_, hself⟩
  next hon =>
  split
  · exact ⟨_, hself⟩
  split
  · exact ⟨_, hself⟩
  split
  · exact ⟨_, hself⟩
  next a hhead =>
  have hhome : s.cpuHome t = some i := not_not.mp (not_or.mp hon).2
  have ht := h.queued i t hidle hhome
  obtain ⟨hbypass, hframe⟩ := (h.circle i).bypass ht
  have hnot : t ∉ (l i).erase t := (h.circle i).nodup.not_mem_erase
  rw [h.headWithout_eq ht] at hhead
  cases herase : (l i).erase t with
  | nil => simp [herase] at hhead
  | cons b rest =>
    rw [herase] at hbypass hhead hnot
    obtain rfl : b = a := by simpa using hhead
    have hperm : (b :: rest ++ [t]).Perm (l i) := by
      rw [← herase]
      exact (perm_append_singleton t _).trans (perm_cons_erase ht).symm
    refine ⟨b :: rest ++ [t],
      h.of_ring i _ ?_ (fun _ _ => rfl) ?_ (fun _ _ _ => Iff.rfl) rfl ?_ ?_ ?_ ?_⟩
    · exact fun j hj => update_of_ne hj _ _
    · intro j hj y hy
      have hyi := h.disjoint hj hy
      have hyt : y ≠ t := fun heq => hyi (heq ▸ ht)
      have hyb : y ∉ b :: rest := herase ▸ fun hmem => hyi (mem_of_mem_erase hmem)
      have happend := Links.append_frame hbypass hyb hyt
      exact ⟨happend.1.trans (hframe y hyi).1, happend.2.trans (hframe y hyi).2⟩
    · simp only [update_self]
      exact hbypass.append hnot
    · rw [hperm.length_eq]
      exact h.count i
    · exact fun u hu => h.home i u (hperm.mem_iff.mp hu)
    · exact fun u hi hu => hperm.mem_iff.mpr (h.queued i u hi hu)

variable {T C : Type} [DecidableEq T] {s : Rqs T C} {l : C → List T} {i : C} {t a : T}

theorem Rings.walk_eq (h : Rings s l) (hhead : s.rqHead i = some a) : s.rqWalk a =
    if (l i).length ≤ rqWalkMax - 1 then (l i, true) else ((l i).take rqWalkMax, false) := by
  have hcircle := h.circle i
  rw [hhead] at hcircle
  exact hcircle.walk

theorem Rings.mem_of_mem_walk (h : Rings s l) (hhead : s.rqHead i = some a)
    (ht : t ∈ (s.rqWalk a).1) : t ∈ l i := by
  rw [h.walk_eq hhead] at ht
  split at ht
  · exact ht
  · exact mem_of_mem_take ht

theorem Rings.walk_nodup (h : Rings s l) (hhead : s.rqHead i = some a) : (s.rqWalk a).1.Nodup := by
  rw [h.walk_eq hhead]
  split
  · exact (h.circle i).nodup
  · exact (h.circle i).nodup.sublist (take_sublist _ _)

theorem Rings.walk_cut (h : Rings s l) (hhead : s.rqHead i = some a)
    (hcut : (s.rqWalk a).2 = false) :
    (s.rqWalk a).1 = (l i).take rqWalkMax := by
  rw [h.walk_eq hhead] at hcut ⊢
  split at hcut
  · simp at hcut
  next hlen =>
    rw [if_neg hlen]

section Repair

variable [DecidableEq C]

theorem rqRingRepair_some {w : T} (hhead : s.rqHead i = some a) :
    s.rqRingRepair i (some w) = { s with links := s.links.close w a } := by
  simp only [rqRingRepair, hhead]

theorem Rings.repair_of_le (h : Rings s l) (hhead : s.rqHead i = some a)
    (hcut : (s.rqWalk a).2 = false) (hle : s.rqCount i ≤ rqWalkMax) :
    s.rqRingRepair i (s.rqWalk a).1.getLast? = s := by
  have hwalk := h.walk_cut hhead hcut
  have hcircle := h.circle i
  rw [hwalk, take_of_length_le (h.count i ▸ hle)]
  cases hl : l i with
  | nil =>
    rw [hl, hhead] at hcircle
    simp [Links.Circle] at hcircle
  | cons b rest =>
    rw [hl] at hcircle
    obtain rfl : b = a := Option.some.inj (hcircle.1.symm.trans hhead)
    obtain ⟨hnext, hprev⟩ := hcircle.2.2.last
    rw [getLast?_eq_getLast_of_ne_nil (cons_ne_nil b rest), rqRingRepair_some hhead]
    simp only [Links.close, ← hnext, ← hprev, Function.update_eq_self]

def Torn (s : Rqs T C) (i : C) : Prop :=
  ∃ m, s.links.Circle (s.rqHead i) m ∧ m.length < s.rqCount i

theorem Rings.repair_of_lt (h : Rings s l) (hhead : s.rqHead i = some a)
    (hcut : (s.rqWalk a).2 = false) (hlt : rqWalkMax < s.rqCount i) :
    (s.rqRingRepair i (s.rqWalk a).1.getLast?).Torn i := by
  have hwalk := h.walk_cut hhead hcut
  have hcircle := h.circle i
  have hlen : ((l i).take rqWalkMax).length < s.rqCount i := by
    rw [length_take]
    omega
  rw [hwalk]
  cases hl : (l i).take rqWalkMax with
  | nil =>
    have hlen := congrArg length hl
    rw [length_take, ← h.count i, length_nil, rqWalkMax] at hlen
    omega
  | cons b rest =>
    have hsplit := take_append_drop rqWalkMax (l i)
    rw [hl] at hsplit hlen
    rw [← hsplit] at hcircle
    obtain rfl : b = a := Option.some.inj (hcircle.1.symm.trans hhead)
    rw [getLast?_eq_getLast_of_ne_nil (cons_ne_nil b rest), rqRingRepair_some hhead]
    rw [hhead] at hcircle
    have hclose := hcircle.close rfl
    rw [← hhead] at hclose
    exact ⟨_, hclose, hlen⟩

end Repair

section Pick

variable [DecidableEq C] [Fintype C] {first : Bool} {ts : List T}

theorem pickPass_fst (i : C) (first : Bool) (ts : List T) (s : Rqs T C) :
    ∃ k, (pickPass i first ts s).1 = { s with skipsLeft := k } := by
  induction ts generalizing s with
  | nil => exact ⟨s.skipsLeft, rfl⟩
  | cons b ts ih =>
    rw [pickPass]
    split
    · split
      · obtain ⟨k, hk⟩ := ih { s with
          skipsLeft := Function.update s.skipsLeft b (s.skipsLeft b - 1) }
        exact ⟨k, hk⟩
      · exact ⟨s.skipsLeft, rfl⟩
    · exact ih s

theorem pickPass_snd (ht : (pickPass i first ts s).2 = some t) :
    t ∈ ts ∧ s.eligible i t = true := by
  induction ts generalizing s with
  | nil => simp [pickPass] at ht
  | cons b ts ih =>
    rw [pickPass] at ht
    split at ht
    · next hb =>
      split at ht
      · obtain ⟨hmem, hel⟩ := ih ht
        exact ⟨mem_cons_of_mem _ hmem, hel⟩
      · obtain rfl : b = t := Option.some.inj ht
        exact ⟨mem_cons_self, hb⟩
    · obtain ⟨hmem, hel⟩ := ih ht
      exact ⟨mem_cons_of_mem _ hmem, hel⟩

theorem pickPass_isSome (hnd : ts.Nodup) : (pickPass i true ts s).2.isSome = true ↔
    ∃ t ∈ ts, s.eligible i t = true ∧ s.skipsLeft t ≤ 0 := by
  induction ts generalizing s with
  | nil => simp [pickPass]
  | cons b ts ih =>
    obtain ⟨hb, hnd⟩ := nodup_cons.mp hnd
    rw [pickPass, exists_mem_cons_iff]
    split
    · next hel =>
      split
      · next hskip =>
        have hskips : ∀ t ∈ ts,
            Function.update s.skipsLeft b (s.skipsLeft b - 1) t = s.skipsLeft t := by
          intro t ht
          have htb : t ≠ b := fun heq => hb (heq ▸ ht)
          exact Function.update_of_ne htb _ _
        rw [ih hnd, or_iff_right (fun hc => by omega)]
        refine exists_congr fun t => and_congr_right fun ht => and_congr_right fun _ => ?_
        simp only [hskips t ht]
      · next hskip =>
        have hle : s.skipsLeft b ≤ 0 := by simpa using hskip
        simp [hel, hle]
    · next hel =>
      rw [ih hnd, or_iff_right (fun hc => hel hc.1)]

def Served (s : Rqs T C) (i : C) : Prop :=
  s.rqCount i ≤ rqWalkMax ∨
    ∃ a ∈ s.rqHead i, ∃ t ∈ (s.rqWalk a).1, s.eligible i t = true ∧ s.skipsLeft t ≤ 0

theorem Rings.pick_of_served (h : Rings s l) (hserved : s.Served i) :
    ∃ k, (s.pickNextLocal i).1 = { s with skipsLeft := k } := by
  rw [pickNextLocal]
  split
  · exact ⟨s.skipsLeft, rfl⟩
  · next a hhead =>
    obtain ⟨k, hk⟩ := pickPass_fst i true (s.rqWalk a).1 s
    dsimp only
    split
    · exact ⟨k, hk⟩
    · next hnone =>
      split
      · obtain ⟨k', hk'⟩ := pickPass_fst i false (s.rqWalk a).1
          (pickPass i true (s.rqWalk a).1 s).1
        exact ⟨k', by rw [hk', hk]⟩
      · next hcut =>
        have hle : s.rqCount i ≤ rqWalkMax := by
          rcases hserved with hle | ⟨b, hb, hex⟩
          · exact hle
          · obtain rfl : a = b := Option.some.inj (hhead.symm.trans hb)
            exact absurd ((pickPass_isSome (h.walk_nodup hhead)).mpr hex) hnone
        have hrings : Rings (pickPass i true (s.rqWalk a).1 s).1 l := by
          rw [hk]
          exact h.of_eq
        have hrepair := hrings.repair_of_le (i := i) (a := a)
        rw [hk] at hrepair ⊢
        exact ⟨k, hrepair hhead (Bool.eq_false_iff.mpr hcut) hle⟩

theorem Rings.pick_of_not_served (h : Rings s l) (hserved : ¬ s.Served i) :
    (s.pickNextLocal i).2 = none ∧ (s.pickNextLocal i).1.Torn i := by
  obtain ⟨hlong, hnone⟩ := not_or.mp hserved
  have hcount := h.count i
  have hcircle := h.circle i
  rw [pickNextLocal]
  split
  · next hhead =>
    rw [hhead] at hcircle
    cases hl : l i with
    | nil => simp [hcount, hl] at hlong
    | cons b rest => simp [hl, Links.Circle] at hcircle
  · next a hhead =>
    obtain ⟨k, hk⟩ := pickPass_fst i true (s.rqWalk a).1 s
    have hcut : (s.rqWalk a).2 = false := by
      rw [h.walk_eq hhead, if_neg (by rw [← hcount]; omega)]
    have hmiss : ¬ (pickPass i true (s.rqWalk a).1 s).2.isSome = true := fun hsome =>
      hnone ⟨a, hhead, (pickPass_isSome (h.walk_nodup hhead)).mp hsome⟩
    have hrings : Rings (pickPass i true (s.rqWalk a).1 s).1 l := by
      rw [hk]
      exact h.of_eq
    have htorn := hrings.repair_of_lt (i := i) (a := a)
    rw [if_neg hmiss, hcut]
    rw [hk] at htorn ⊢
    exact ⟨rfl, htorn hhead hcut (Nat.lt_of_not_le hlong)⟩

theorem Rings.mem_of_pick (h : Rings s l) (ht : (s.pickNextLocal i).2 = some t) :
    t ∈ l i ∧ s.state t = .runnable := by
  have hfound : ∃ a, s.rqHead i = some a ∧ t ∈ (s.rqWalk a).1 ∧ s.eligible i t = true := by
    rw [pickNextLocal] at ht
    split at ht
    · simp at ht
    · next a hhead =>
      dsimp only at ht
      split at ht
      · exact ⟨a, hhead, pickPass_snd ht⟩
      · split at ht
        · obtain ⟨k, hk⟩ := pickPass_fst i true (s.rqWalk a).1 s
          have hsecond := pickPass_snd ht
          rw [hk] at hsecond
          exact ⟨a, hhead, hsecond⟩
        · simp at ht
  obtain ⟨a, hhead, hmem, hel⟩ := hfound
  simp only [eligible, Bool.and_eq_true, decide_eq_true_eq] at hel
  exact ⟨h.mem_of_mem_walk hhead hmem, hel.1.1.1⟩

end Pick

end DosKernel.Sched.Rqs

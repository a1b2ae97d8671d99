import DosKernel.Sched.Space
import Mathlib.Data.List.Count

namespace DosKernel.Sched.Spaces

open DosKernel.Lib

variable {T S : Type}

def Uses (s : Spaces T S) (a : S) (t : T) : Prop := t ∈ s.table ∧ s.mm t = some a

def Promised (s : Spaces T S) (a : S) (t : T) : Prop := t ∈ s.table ∧ s.start t = some (a, false)

-- Not yet created, created for a task that has not run, in use with one owner, or destroyed.
inductive Stage [DecidableEq S] (s : Spaces T S) (a : S) : Prop
  | unborn (hc : a ∉ s.created) (hd : s.destroyed.count a = 0) (hu : ∀ u, ¬ s.Uses a u)
      (hp : ∀ u, ¬ s.Promised a u)
  | promised (t : T) (hc : a ∈ s.created) (hd : s.destroyed.count a = 0) (hu : ∀ u, ¬ s.Uses a u)
      (hp : ∀ u, s.Promised a u ↔ u = t)
  | live (t : T) (hc : a ∈ s.created) (hd : s.destroyed.count a = 0) (ht : s.Uses a t)
      (ho : ∀ u, s.Uses a u → (s.mmShared u = false ↔ u = t)) (hp : ∀ u, ¬ s.Promised a u)
  | gone (hc : a ∈ s.created) (hd : s.destroyed.count a = 1) (hu : ∀ u, ¬ s.Uses a u)
      (hp : ∀ u, ¬ s.Promised a u)

structure Orphan [DecidableEq S] (s : Spaces T S) (a : S) : Prop where
  created : a ∈ s.created
  kept : s.destroyed.count a = 0
  shared : ∀ u, s.Uses a u → s.mmShared u = true
  free : ∀ u, ¬ s.Promised a u

structure Fits (s : Spaces T S) (t : T) : Prop where
  waiting : s.start t ≠ none → s.mm t = none ∧ s.state t ≠ .dead ∧ s.host t = none
  thread : ∀ a k, s.start t = some (a, k) → s.mmShared t = k
  kernel : s.userTask t = false → s.start t = none → s.mmShared t = false
  user : s.mm t ≠ none → s.userTask t = true ∨ s.host t ≠ none
  hosting : s.host t ≠ none → s.mm t ≠ none ∧ s.userTask t = false

structure Tasks (s : Spaces T S) : Prop where
  nodup : s.table.Nodup
  made : ∀ t ∈ s.table, t ∈ s.made
  fits : ∀ t ∈ s.table, s.Fits t

variable [DecidableEq S] {s s' : Spaces T S} {a b : S} {t u : T}

omit [DecidableEq S] in
theorem Fits.frame (h : s.Fits t) (hst : s'.state t = s.state t := by rfl)
    (hmm : s'.mm t = s.mm t := by rfl) (hsh : s'.mmShared t = s.mmShared t := by rfl)
    (hut : s'.userTask t = s.userTask t := by rfl) (hstart : s'.start t = s.start t := by rfl)
    (hhost : s'.host t = s.host t := by rfl) : s'.Fits t := by
  constructor
  · rw [hstart, hmm, hst, hhost]
    exact h.waiting
  · rw [hstart, hsh]
    exact h.thread
  · rw [hut, hstart, hsh]
    exact h.kernel
  · rw [hmm, hut, hhost]
    exact h.user
  · rw [hhost, hmm, hut]
    exact h.hosting

structure Only (s s' : Spaces T S) (t : T) : Prop where
  mem : ∀ u, u ≠ t → (u ∈ s'.table ↔ u ∈ s.table)
  same : ∀ u, u ≠ t → s'.state u = s.state u ∧ s'.mm u = s.mm u ∧ s'.mmShared u = s.mmShared u ∧
    s'.userTask u = s.userTask u ∧ s'.start u = s.start u ∧ s'.host u = s.host u

omit [DecidableEq S]

theorem Tasks.only (h : Tasks s) (ho : Only s s' t) (hnodup : s'.table.Nodup)
    (hmade : ∀ u ∈ s.made, u ∈ s'.made) (ht : t ∈ s'.table → t ∈ s'.made ∧ s'.Fits t) :
    Tasks s' := by
  refine ⟨hnodup, fun u hu => ?_, fun u hu => ?_⟩
  · by_cases hut : u = t
    · exact hut ▸ (ht (hut ▸ hu)).1
    · exact hmade u (h.made u ((ho.mem u hut).mp hu))
  · by_cases hut : u = t
    · exact hut ▸ (ht (hut ▸ hu)).2
    · obtain ⟨hst, hmm, hsh, huser, hstart, hhost⟩ := ho.same u hut
      exact (h.fits u ((ho.mem u hut).mp hu)).frame hst hmm hsh huser hstart hhost

section Only

variable (ho : Only s s' t)

include ho

theorem Only.uses (hu : u ≠ t) : s'.Uses a u ↔ s.Uses a u := by
  rw [Uses, Uses, ho.mem u hu, (ho.same u hu).2.1]

theorem Only.promised (hu : u ≠ t) : s'.Promised a u ↔ s.Promised a u := by
  rw [Promised, Promised, ho.mem u hu, (ho.same u hu).2.2.2.2.1]

theorem Only.shared (hu : u ≠ t) : s'.mmShared u = s.mmShared u := (ho.same u hu).2.2.1

theorem Only.unused (hu : ∀ u, ¬ s.Uses a u) (ht : ¬ s'.Uses a t) (u : T) : ¬ s'.Uses a u := by
  by_cases hut : u = t
  · exact hut ▸ ht
  · exact (ho.uses hut).not.mpr (hu u)

theorem Only.unpromised (hp : ∀ u, u ≠ t → ¬ s.Promised a u) (ht : ¬ s'.Promised a t) (u : T) :
    ¬ s'.Promised a u := by
  by_cases hut : u = t
  · exact hut ▸ ht
  · exact (ho.promised hut).not.mpr (hp u hut)

end Only

variable [DecidableEq S]

namespace Stage

section

variable (h : Stage s a)

include h

theorem frame (hu : ∀ u, s'.Uses a u ↔ s.Uses a u)
    (ho : ∀ u, s.Uses a u → s'.mmShared u = s.mmShared u)
    (hp : ∀ u, s'.Promised a u ↔ s.Promised a u) (hc : a ∈ s'.created ↔ a ∈ s.created)
    (hd : s'.destroyed.count a = s.destroyed.count a) : Stage s' a := by
  cases h with
  | unborn hc' hd' hu' hp' =>
    exact .unborn (hc.not.mpr hc') (hd.trans hd') (fun u => (hu u).not.mpr (hu' u))
      fun u => (hp u).not.mpr (hp' u)
  | promised t hc' hd' hu' hp' =>
    exact .promised t (hc.mpr hc') (hd.trans hd') (fun u => (hu u).not.mpr (hu' u))
      fun u => (hp u).trans (hp' u)
  | live t hc' hd' ht ho' hp' =>
    refine .live t (hc.mpr hc') (hd.trans hd') ((hu t).mpr ht) (fun u hu' => ?_)
      fun u => (hp u).not.mpr (hp' u)
    have hold := (hu u).mp hu'
    rw [ho u hold]
    exact ho' u hold
  | gone hc' hd' hu' hp' =>
    exact .gone (hc.mpr hc') (hd.trans hd') (fun u => (hu u).not.mpr (hu' u))
      fun u => (hp u).not.mpr (hp' u)

theorem apart (ho : Only s s' t) (hu : ¬ s.Uses a t) (hu' : ¬ s'.Uses a t)
    (hp : s'.Promised a t ↔ s.Promised a t) (hc : a ∈ s'.created ↔ a ∈ s.created)
    (hd : s'.destroyed.count a = s.destroyed.count a) : Stage s' a := by
  refine h.frame (fun u => ?_) (fun u huse => ho.shared ?_) (fun u => ?_) hc hd
  · by_cases hut : u = t
    · exact hut ▸ iff_of_false hu' hu
    · exact ho.uses hut
  · rintro rfl
    exact hu huse
  · by_cases hut : u = t
    · exact hut ▸ hp
    · exact ho.promised hut

theorem live_of_uses (ht : s.Uses a t) :
    a ∈ s.created ∧ s.destroyed.count a = 0 ∧ (∀ u, ¬ s.Promised a u) ∧
      ∃ o, s.Uses a o ∧ ∀ u, s.Uses a u → (s.mmShared u = false ↔ u = o) := by
  cases h with
  | unborn _ _ hu _ | promised _ _ _ hu _ | gone _ _ hu _ => exact absurd ht (hu t)
  | live o hc hd ho hall hp => exact ⟨hc, hd, hp, o, ho, hall⟩

theorem promised_of (ht : s.Promised a t) :
    a ∈ s.created ∧ s.destroyed.count a = 0 ∧ (∀ u, ¬ s.Uses a u) ∧
      ∀ u, s.Promised a u ↔ u = t := by
  cases h with
  | unborn _ _ _ hp | live _ _ _ _ _ hp | gone _ _ _ hp => exact absurd ht (hp t)
  | promised o hc hd hu hp =>
    obtain rfl := (hp t).mp ht
    exact ⟨hc, hd, hu, hp⟩

theorem unborn_of (hc : a ∉ s.created) :
    s.destroyed.count a = 0 ∧ (∀ u, ¬ s.Uses a u) ∧ ∀ u, ¬ s.Promised a u := by
  cases h with
  | unborn _ hd hu hp => exact ⟨hd, hu, hp⟩
  | promised _ hc' _ _ _ | live _ hc' _ _ _ _ | gone hc' _ _ _ => exact absurd hc' hc

theorem leave_shared (ht : s.Uses a t) (hsh : s.mmShared t = true) (ho : Only s s' t)
    (hu : ¬ s'.Uses a t) (hp : ¬ s'.Promised a t) (hc : a ∈ s'.created ↔ a ∈ s.created)
    (hd : s'.destroyed.count a = s.destroyed.count a) : Stage s' a := by
  obtain ⟨hc', hd', hp', o, huse, hall⟩ := h.live_of_uses ht
  have hne : o ≠ t := by
    rintro rfl
    have := (hall o huse).mpr rfl
    simp [hsh] at this
  refine .live o (hc.mpr hc') (hd.trans hd') ((ho.uses hne).mpr huse) (fun u hu' => ?_)
    (ho.unpromised (fun u _ => hp' u) hp)
  have hut : u ≠ t := fun hut => hu (hut ▸ hu')
  rw [ho.shared hut]
  exact hall u ((ho.uses hut).mp hu')

theorem leave_owner (ht : s.Uses a t) (hsh : s.mmShared t = false) (ho : Only s s' t)
    (hu : ¬ s'.Uses a t) (hp : ¬ s'.Promised a t) (hc : a ∈ s'.created ↔ a ∈ s.created)
    (hd : s'.destroyed.count a = s.destroyed.count a) : Orphan s' a := by
  obtain ⟨hc', hd', hp', o, -, hall⟩ := h.live_of_uses ht
  obtain rfl := (hall t ht).mp hsh
  refine ⟨hc.mpr hc', hd.trans hd', fun u hu' => ?_, ho.unpromised (fun u _ => hp' u) hp⟩
  have hut : u ≠ t := fun hut => hu (hut ▸ hu')
  rw [ho.shared hut, ← Bool.not_eq_false]
  exact fun hf => hut ((hall u ((ho.uses hut).mp hu')).mp hf)

end

theorem taken (ho : Only s s' t) (hu : ∀ u, ¬ s.Uses a u) (hp : ∀ u, u ≠ t → ¬ s.Promised a u)
    (hc : a ∈ s'.created) (hd : s'.destroyed.count a = 0) (ht : s'.Uses a t)
    (hsh : s'.mmShared t = false) (hp' : ¬ s'.Promised a t) : Stage s' a := by
  refine .live t hc hd ht (fun u hu' => ?_) (ho.unpromised hp hp')
  by_cases hut : u = t
  · exact iff_of_true (hut ▸ hsh) hut
  · exact absurd ((ho.uses hut).mp hu') (hu u)

end Stage

section HandOn

variable [DecidableEq T] {tasks : List T}

theorem handOn_cases (s : Spaces T S) (a : S) (tasks : List T) :
    (∃ c ∈ tasks, s.mm c = some a ∧
      s.handOn a tasks = { s with mmShared := Function.update s.mmShared c false }) ∨
    ((∀ c ∈ tasks, s.mm c ≠ some a) ∧
      s.handOn a tasks = { s with destroyed := a :: s.destroyed }) := by
  cases hfind : tasks.find? (fun c => decide (s.mm c = some a)) with
  | some c =>
    have hc := List.find?_some hfind
    exact .inl ⟨c, List.mem_of_find?_eq_some hfind, of_decide_eq_true hc, by rw [handOn, hfind]⟩
  | none =>
    refine .inr ⟨fun c hc => ?_, by rw [handOn, hfind]⟩
    have := List.find?_eq_none.mp hfind c hc
    simpa using this

theorem Orphan.handOn (h : Orphan s a) (hin : ∀ c ∈ tasks, c ∈ s.table)
    (hall : ∀ u, s.Uses a u → u ∈ tasks) : Stage (s.handOn a tasks) a := by
  obtain ⟨c, hc, hmm, heq⟩ | ⟨hnone, heq⟩ := handOn_cases s a tasks
  · rw [heq]
    refine .live c h.created h.kept ⟨hin c hc, hmm⟩ (fun u hu => ?_) h.free
    by_cases huc : u = c
    · subst huc
      exact iff_of_true (Function.update_self ..) rfl
    · have hshared : Function.update s.mmShared c false u = true :=
        (Function.update_of_ne huc ..).trans (h.shared u hu)
      exact iff_of_false (by simp only [hshared, Bool.true_eq_false, not_false_eq_true]) huc
  · rw [heq]
    refine .gone h.created ?_ (fun u hu => hnone u (hall u hu) hu.2) h.free
    rw [List.count_cons_self, h.kept]

theorem Stage.handOn (h : Stage s b) (hab : b ≠ a) : Stage (s.handOn a tasks) b := by
  obtain ⟨c, -, hmm, heq⟩ | ⟨-, heq⟩ := handOn_cases s a tasks
  · rw [heq]
    refine h.frame (fun _ => Iff.rfl) (fun u hu => ?_) (fun _ => Iff.rfl) Iff.rfl rfl
    refine Function.update_of_ne ?_ ..
    rintro rfl
    exact hab (Option.some.inj (hu.2.symm.trans hmm))
  · rw [heq]
    exact h.frame (fun _ => Iff.rfl) (fun _ _ => rfl) (fun _ => Iff.rfl) Iff.rfl
      (List.count_cons_of_ne (Ne.symm hab))

theorem Tasks.handOn (h : Tasks s) : Tasks (s.handOn a tasks) := by
  obtain ⟨c, -, hmm, heq⟩ | ⟨-, heq⟩ := handOn_cases s a tasks
  · rw [heq]
    have ho : Only s { s with mmShared := Function.update s.mmShared c false } c :=
      ⟨fun _ _ => Iff.rfl, fun u hu => ⟨rfl, rfl, Function.update_of_ne hu .., rfl, rfl, rfl⟩⟩
    refine h.only ho h.nodup (fun _ => id) fun hc => ⟨h.made c hc, ?_⟩
    have hfits := h.fits c hc
    refine ⟨hfits.waiting, fun a k hk => ?_, fun _ _ => Function.update_self .., hfits.user,
      hfits.hosting⟩
    -- A task with a space has been through its bootstrap.
    have hnone := (hfits.waiting (by rw [hk]; exact Option.some_ne_none _)).1
    rw [hmm] at hnone
    cases hnone
  · rw [heq]
    exact ⟨h.nodup, h.made, fun t ht => (h.fits t ht).frame⟩

end HandOn

end DosKernel.Sched.Spaces

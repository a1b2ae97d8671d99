import DosKernel.Sched.Owners

namespace DosKernel.Sched.Spaces

open DosKernel.Lib List Option

open Function (update update_of_ne update_self)

variable {T S : Type}

-- A space in use has one owner; it is destroyed once, when no task uses it or is to start with it.
structure Sound (s : Spaces T S) : Prop where
  owned : ∀ a t, t ∈ s.table → s.mm t = some a →
    ∃! o, o ∈ s.table ∧ s.mm o = some a ∧ s.mmShared o = false
  once : s.destroyed.Nodup
  unused : ∀ a ∈ s.destroyed, ∀ t ∈ s.table, s.mm t ≠ some a
  freed : ∀ a ∈ s.created, (∀ t ∈ s.table, s.mm t ≠ some a ∧ s.start t ≠ some (a, false)) →
    a ∈ s.destroyed

-- A new thread first runs while its space has a user, a kernel task comes back from user mode in
-- the space it went with, and none is reaped before.
def Kept (s : Spaces T S) : SpaceAct T S → Prop
  | .start t => ∀ a, t ∈ s.table → s.start t = some (a, true) → ∃ u ∈ s.table, s.mm u = some a
  | .leave t => ∀ a, s.Runs t → s.host t = some a → s.mm t = some a
  | .reap t => t ∈ s.table → s.state t = .dead → s.host t = none
  | _ => True

variable [DecidableEq T] {s s' : Spaces T S} {a b old new : S} {t u : T}

theorem only_spawn (st : Option (S × Bool)) : Only s (s.spawn t st) t :=
  ⟨fun u hu => by simp [spawn, mem_masterInsert, hu], fun u hu => by simp [spawn, hu]⟩

theorem Tasks.spawn (st : Option (S × Bool)) (h : Tasks s) (ht : t ∉ s.made) :
    Tasks (s.spawn t st) := by
  have hout : t ∉ s.table := fun hin => ht (h.made t hin)
  refine h.only (only_spawn st) (nodup_masterInsert h.nodup hout) (fun u => mem_cons_of_mem t)
    fun _ => ⟨mem_cons_self, ?_⟩
  constructor <;> simp only [Spaces.spawn, update_self]
  · simp
  · rintro a k rfl
    rfl
  · rintro - rfl
    rfl
  · simp
  · simp

theorem only_bootstrap {k : Bool} : Only s (s.bootstrap t a k) t := by
  refine ⟨fun _ _ => Iff.rfl, fun u hu => ?_⟩
  cases k <;> simp [bootstrap, hu]

theorem Tasks.bootstrap {k : Bool} (h : Tasks s) (ht : t ∈ s.table)
    (hstart : s.start t = some (a, k)) : Tasks (s.bootstrap t a k) := by
  refine h.only only_bootstrap h.nodup (fun _ => id) fun _ => ⟨h.made t ht, ?_⟩
  have hhost : s.host t = none :=
    ((h.fits t ht).waiting (by rw [hstart]; exact some_ne_none _)).2.2
  constructor <;> simp only [Spaces.bootstrap, update_self, hhost]
  all_goals simp

theorem uses_bootstrap {k : Bool} (ht : t ∈ s.table) : (s.bootstrap t a k).Uses b t ↔ b = a := by
  simp [Uses, bootstrap, ht, eq_comm]

theorem not_promised_bootstrap {k : Bool} : ¬ (s.bootstrap t a k).Promised b t := by
  simp [Promised, bootstrap]

omit [DecidableEq T] in
theorem Tasks.not_uses {k : Bool} (h : Tasks s) (ht : t ∈ s.table)
    (hstart : s.start t = some (a, k)) : ¬ s.Uses b t := by
  intro hu
  have hmm := ((h.fits t ht).waiting (by rw [hstart]; exact some_ne_none _)).1
  cases hmm.symm.trans hu.2

theorem Tasks.mem_others (h : Tasks s) (hu : u ∈ s.table) (hne : u ≠ t) (hmm : s.mm u ≠ none)
    (hsh : s.mmShared u = true) : u ∈ s.others t := by
  have hfits := h.fits u hu
  have huser : s.userTask u = true := by
    refine (hfits.user hmm).resolve_right fun hhost => ?_
    have hstart : s.start u = none := by
      by_contra hst
      exact hhost (hfits.waiting hst).2.2
    have := hfits.kernel (hfits.hosting hhost).2 hstart
    simp [hsh] at this
  exact mem_filter.mpr ⟨hu, by simp only [hne, huser, ne_eq, not_false_eq_true, decide_true,
    Bool.and_self]⟩

theorem mem_table_of_mem_others (hu : u ∈ s.others t) : u ∈ s.table := (mem_filter.mp hu).1

theorem only_swapMm : Only s (s.swapMm t new) t :=
  ⟨fun _ _ => Iff.rfl, fun u hu => by simp [swapMm, hu]⟩

theorem Tasks.swapMm (h : Tasks s) (hrun : s.Runs t) (hmm : s.mm t ≠ none) :
    Tasks (s.swapMm t new) := by
  refine h.only only_swapMm h.nodup (fun _ => id) fun ht => ⟨h.made t ht, ?_⟩
  have hfits := h.fits t ht
  constructor <;> simp only [Spaces.swapMm, update_self, hrun.2.2]
  · simp
  · simp
  · simp
  · exact fun _ => hfits.user hmm
  · exact fun hhost => ⟨some_ne_none _, (hfits.hosting hhost).2⟩

theorem only_dropMm : Only s (s.dropMm t) t :=
  ⟨fun _ _ => Iff.rfl, fun u hu => by simp [dropMm, hu]⟩

theorem not_uses_dropMm : ¬ (s.dropMm t).Uses b t := by
  simp [Uses, dropMm]

theorem Tasks.dropMm (h : Tasks s) (hrun : s.Runs t) : Tasks (s.dropMm t) := by
  refine h.only only_dropMm h.nodup (fun _ => id) fun ht => ⟨h.made t ht, ?_⟩
  constructor <;> simp only [Spaces.dropMm, update_self, hrun.2.2]
  · simp
  · simp
  · exact fun huser _ => (h.fits t ht).kernel huser hrun.2.2
  · simp
  · simp

omit [DecidableEq T] in
theorem Tasks.owner_of_host (h : Tasks s) (ht : t ∈ s.table) (hhost : s.host t ≠ none) :
    s.mmShared t = false := by
  have hfits := h.fits t ht
  refine hfits.kernel (hfits.hosting hhost).2 ?_
  by_contra hst
  exact hhost (hfits.waiting hst).2.2

theorem only_enter : Only s (s.enter t a) t :=
  ⟨fun _ _ => Iff.rfl, fun u hu => by simp [enter, hu]⟩

theorem only_unlink : Only s (s.unlink t) t :=
  ⟨fun _ hu => mem_erase_of_ne hu, fun _ _ => ⟨rfl, rfl, rfl, rfl, rfl, rfl⟩⟩

theorem Tasks.not_mem_unlink (h : Tasks s) : t ∉ (s.unlink t).table := h.nodup.not_mem_erase

theorem Tasks.unlink (h : Tasks s) : Tasks (s.unlink t) :=
  h.only only_unlink (h.nodup.erase t) (fun _ => id) fun ht => absurd ht h.not_mem_unlink

variable [DecidableEq S]

structure Inv (s : Spaces T S) : Prop where
  tasks : Tasks s
  stage : ∀ a, Stage s a

omit [DecidableEq T] in
theorem Inv.sound (h : Inv s) : Sound s := by
  refine ⟨fun a t ht hmm => ?_, ?_, fun a ha t ht hmm => ?_, fun a ha hfree => ?_⟩
  · obtain ⟨-, -, -, o, ho, hall⟩ := (h.stage a).live_of_uses ⟨ht, hmm⟩
    exact ⟨o, ⟨ho.1, ho.2, (hall o ho).mpr rfl⟩, fun u hu => (hall u ⟨hu.1, hu.2.1⟩).mp hu.2.2⟩
  · refine nodup_iff_count_le_one.mpr fun a => ?_
    cases h.stage a with
    | unborn _ hd _ _ | promised _ _ hd _ _ | live _ _ hd _ _ _ | gone _ hd _ _ => omega
  · have hkept := ((h.stage a).live_of_uses ⟨ht, hmm⟩).2.1
    exact count_eq_zero.mp hkept ha
  · cases h.stage a with
    | unborn hc _ _ _ => exact absurd ha hc
    | promised t _ _ _ hp =>
      have ht := (hp t).mpr rfl
      exact absurd ht.2 (hfree t ht.1).2
    | live t _ _ ht _ _ => exact absurd ht.2 (hfree t ht.1).1
    | gone _ hd _ _ => exact count_pos_iff.mp (by omega)

omit [DecidableEq T] in
theorem inv_boot : Inv (boot : Spaces T S) := by
  refine ⟨⟨nodup_nil, fun t ht => absurd ht not_mem_nil,
    fun t ht => absurd ht not_mem_nil⟩, fun a => ?_⟩
  exact .unborn not_mem_nil rfl (fun u hu => not_mem_nil hu.1)
    fun u hu => not_mem_nil hu.1

theorem Inv.spawn (st : Option (S × Bool)) (h : Inv s) (ht : t ∉ s.made)
    (hst : ∀ a, st ≠ some (a, false)) : Inv (s.spawn t st) := by
  have hout : t ∉ s.table := fun hin => ht (h.tasks.made t hin)
  refine ⟨h.tasks.spawn st ht, fun a => ?_⟩
  refine (h.stage a).apart (only_spawn st) (fun hu => hout hu.1) (by simp [Uses, Spaces.spawn])
    (iff_of_false ?_ fun hp => hout hp.1) Iff.rfl rfl
  simp [Promised, Spaces.spawn, hst a]

theorem Inv.process (h : Inv s) (ht : t ∉ s.made) (ha : a ∉ s.created) :
    Inv { s.spawn t (some (a, false)) with created := a :: s.created } := by
  have hout : t ∉ s.table := fun hin => ht (h.tasks.made t hin)
  have htasks := h.tasks.spawn (some (a, false)) ht
  have ho : Only s { s.spawn t (some (a, false)) with created := a :: s.created } t :=
    ⟨(only_spawn (some (a, false))).mem, (only_spawn (some (a, false))).same⟩
  have hnot : ∀ b, ¬ Uses { s.spawn t (some (a, false)) with created := a :: s.created } b t := by
    simp [Uses, Spaces.spawn]
  refine ⟨⟨htasks.nodup, htasks.made, fun u hu => ?_⟩, fun b => ?_⟩
  · exact (htasks.fits u hu).frame
  by_cases hab : b = a
  · subst hab
    obtain ⟨hd, hu, hp⟩ := (h.stage b).unborn_of ha
    refine .promised t mem_cons_self hd (ho.unused hu (hnot b)) fun u => ?_
    by_cases hut : u = t
    · subst hut
      simp [Promised, Spaces.spawn, mem_masterInsert]
    · rw [ho.promised hut]
      exact iff_of_false (hp u) hut
  · refine (h.stage b).apart ho (fun hu => hout hu.1) (hnot b)
      (iff_of_false ?_ fun hp => hout hp.1) ?_ rfl
    · simp [Promised, Spaces.spawn, Ne.symm hab]
    · simp only [mem_cons, hab, false_or]

omit [DecidableEq T] in
theorem Inv.abandoned (h : Inv s) (ha : a ∉ s.created) :
    Inv { s with
      created := a :: s.created
      destroyed := a :: s.destroyed } := by
  refine ⟨⟨h.tasks.nodup, h.tasks.made, fun u hu => ?_⟩, fun b => ?_⟩
  · exact (h.tasks.fits u hu).frame
  by_cases hab : b = a
  · subst hab
    obtain ⟨hd, hu, hp⟩ := (h.stage b).unborn_of ha
    exact .gone mem_cons_self (by rw [count_cons_self, hd]) hu hp
  · refine (h.stage b).frame (fun _ => Iff.rfl) (fun _ _ => rfl) (fun _ => Iff.rfl) ?_ ?_
    · simp only [mem_cons, hab, false_or]
    · exact count_cons_of_ne (Ne.symm hab)

theorem Inv.bootstrap_first (h : Inv s) (ht : t ∈ s.table) (hstart : s.start t = some (a, false)) :
    Inv (s.bootstrap t a false) := by
  refine ⟨h.tasks.bootstrap ht hstart, fun b => ?_⟩
  by_cases hab : b = a
  · subst hab
    obtain ⟨hc, hd, hu, hp⟩ := (h.stage b).promised_of ⟨ht, hstart⟩
    exact .taken only_bootstrap hu (fun u => (hp u).not.mpr) hc hd ((uses_bootstrap ht).mpr rfl)
      ((h.tasks.fits t ht).thread b false hstart) not_promised_bootstrap
  · refine (h.stage b).apart only_bootstrap (h.tasks.not_uses ht hstart)
      ((uses_bootstrap ht).not.mpr hab) (iff_of_false not_promised_bootstrap fun hp => hab ?_)
      Iff.rfl rfl
    exact (congrArg Prod.fst (some.inj (hstart.symm.trans hp.2))).symm

theorem Inv.bootstrap_thread (h : Inv s) (ht : t ∈ s.table) (hstart : s.start t = some (a, true))
    (huse : s.Uses a u) : Inv (s.bootstrap t a true) := by
  have hnot : ∀ b, ¬ s.Uses b t := fun b => h.tasks.not_uses ht hstart
  refine ⟨h.tasks.bootstrap ht hstart, fun b => ?_⟩
  by_cases hab : b = a
  · subst hab
    obtain ⟨hc, hd, hp, o, ho, hall⟩ := (h.stage b).live_of_uses huse
    have hot : o ≠ t := fun hot => hnot b (hot ▸ ho)
    refine .live o hc hd ((only_bootstrap.uses hot).mpr ho) (fun v hv => ?_)
      (only_bootstrap.unpromised (fun v _ => hp v) not_promised_bootstrap)
    by_cases hvt : v = t
    · subst hvt
      have hshared : (s.bootstrap v b true).mmShared v = true := update_self ..
      exact iff_of_false (by rw [hshared]; exact Bool.noConfusion) (Ne.symm hot)
    · rw [only_bootstrap.shared hvt]
      exact hall v ((only_bootstrap.uses hvt).mp hv)
  · refine (h.stage b).apart only_bootstrap (hnot b) ((uses_bootstrap ht).not.mpr hab)
      (iff_of_false not_promised_bootstrap fun hp => ?_) Iff.rfl rfl
    have := congrArg Prod.snd (some.inj (hstart.symm.trans hp.2))
    simp at this

theorem Inv.quit {tasks : List T} (h : Inv s) (ht : s.Uses a t) (ho : Only s s' t)
    (htasks : Tasks s') (hu : ¬ s'.Uses a t) (hp : ¬ s'.Promised a t)
    (hc : a ∈ s'.created ↔ a ∈ s.created) (hd : s'.destroyed = s.destroyed)
    (hother : ∀ b, b ≠ a → Stage s' b) (hin : ∀ c ∈ tasks, c ∈ s'.table)
    (hall : ∀ u, s'.Uses a u → u ≠ t → s'.mmShared u = true → u ∈ tasks) :
    Inv (if s.mmShared t then s' else s'.handOn a tasks) := by
  have hcount : s'.destroyed.count a = s.destroyed.count a := by rw [hd]
  by_cases hsh : s.mmShared t = true
  · rw [if_pos hsh]
    refine ⟨htasks, fun b => ?_⟩
    by_cases hb : b = a
    · subst hb
      exact (h.stage b).leave_shared ht hsh ho hu hp hc hcount
    · exact hother b hb
  · rw [if_neg hsh]
    refine ⟨htasks.handOn, fun b => ?_⟩
    by_cases hb : b = a
    · subst hb
      have horphan := (h.stage b).leave_owner ht (Bool.not_eq_true _ ▸ hsh) ho hu hp hc hcount
      exact horphan.handOn hin fun u hu' => hall u hu' (fun hut => hu (hut ▸ hu'))
        (horphan.shared u hu')
    · exact (hother b hb).handOn hb

theorem Inv.exec (h : Inv s) (hrun : s.Runs t) (hmm : s.mm t = some old) (hnew : new ∉ s.created) :
    Inv (s.exec t old new) := by
  have ht := hrun.1
  have hsome : s.mm t ≠ none := by rw [hmm]; exact some_ne_none _
  obtain ⟨hold, -, -, -⟩ := (h.stage old).live_of_uses ⟨ht, hmm⟩
  have hne : old ≠ new := ne_of_mem_of_not_mem hold hnew
  have htasks : Tasks (s.swapMm t new) := h.tasks.swapMm hrun hsome
  have huses : ∀ b, (s.swapMm t new).Uses b t ↔ b = new := by
    simp [Uses, Spaces.swapMm, ht, eq_comm]
  have hprom : ∀ b, ¬ (s.swapMm t new).Promised b t := by
    simp [Promised, Spaces.swapMm, hrun.2.2]
  -- Every space but the old one is sound already.
  have hother : ∀ b, b ≠ old → Stage (s.swapMm t new) b := fun b hb => by
    by_cases hbn : b = new
    · subst hbn
      obtain ⟨hd, hu, hp⟩ := (h.stage b).unborn_of hnew
      exact .taken only_swapMm hu (fun u _ => hp u) mem_cons_self hd ((huses b).mpr rfl)
        (update_self ..) (hprom b)
    · refine (h.stage b).apart only_swapMm (fun hu => hb (some.inj (hu.2.symm.trans hmm)))
        ((huses b).not.mpr hbn) Iff.rfl ?_ rfl
      simp only [Spaces.swapMm, mem_cons, hbn, false_or]
  refine h.quit ⟨ht, hmm⟩ only_swapMm htasks ((huses old).not.mpr hne) (hprom old) ?_ rfl hother
    (fun _ => mem_table_of_mem_others) fun u hu hut hshared => ?_
  · simp only [Spaces.swapMm, mem_cons, hne, false_or]
  · rw [only_swapMm.shared hut] at hshared
    refine h.tasks.mem_others hu.1 hut ?_ hshared
    rw [((only_swapMm.uses hut).mp hu).2]
    exact some_ne_none _

theorem Inv.enter (h : Inv s) (hrun : s.Runs t) (huser : s.userTask t = false)
    (hmm : s.mm t = none) (ha : a ∉ s.created) : Inv (s.enter t a) := by
  have ht := hrun.1
  have hkernel := (h.tasks.fits t ht).kernel huser hrun.2.2
  have huses : ∀ b, (s.enter t a).Uses b t ↔ b = a := by
    simp [Uses, Spaces.enter, ht, eq_comm]
  refine ⟨h.tasks.only only_enter h.tasks.nodup (fun _ => id) fun _ => ⟨h.tasks.made t ht, ?_⟩,
    fun b => ?_⟩
  · constructor <;> simp only [Spaces.enter, update_self, hrun.2.2, huser]
    · simp
    · simp
    · exact fun _ _ => hkernel
    · simp
    · simp
  · by_cases hb : b = a
    · subst hb
      obtain ⟨hd, hu, hp⟩ := (h.stage b).unborn_of ha
      exact .taken only_enter hu (fun u _ => hp u) mem_cons_self hd ((huses b).mpr rfl) hkernel (hp t)
    · refine (h.stage b).apart only_enter (fun hu => ?_) ((huses b).not.mpr hb) Iff.rfl ?_ rfl
      · cases hmm.symm.trans hu.2
      · simp only [Spaces.enter, mem_cons, hb, false_or]

theorem Inv.leave (h : Inv s) (hrun : s.Runs t) (hhost : s.host t ≠ none) (hmm : s.mm t = some a) :
    Inv (s.leave t a) := by
  have ht := hrun.1
  have howner := h.tasks.owner_of_host ht hhost
  have hquit : Inv (if s.mmShared t then s.dropMm t else (s.dropMm t).handOn a (s.others t)) := by
    refine h.quit ⟨ht, hmm⟩ only_dropMm (h.tasks.dropMm hrun) not_uses_dropMm ?_ Iff.rfl rfl
      (fun b hb => ?_) (fun _ => mem_table_of_mem_others) fun u hu hut hshared => ?_
    · simp [Promised, Spaces.dropMm, hrun.2.2]
    · exact (h.stage b).apart only_dropMm (fun hu => hb (some.inj (hu.2.symm.trans hmm)))
        not_uses_dropMm Iff.rfl Iff.rfl rfl
    · refine h.tasks.mem_others hu.1 hut ?_ hshared
      rw [((only_dropMm.uses hut).mp hu).2]
      exact some_ne_none _
  rw [howner, if_neg Bool.false_ne_true] at hquit
  exact hquit

theorem Inv.exit (h : Inv s) (hrun : s.Runs t) :
    Inv { s with state := update s.state t .dead } := by
  have ho : Only s { s with state := update s.state t .dead } t :=
    ⟨fun _ _ => Iff.rfl, fun u hu => ⟨update_of_ne hu .., rfl, rfl, rfl, rfl, rfl⟩⟩
  refine ⟨h.tasks.only ho h.tasks.nodup (fun _ => id) fun ht => ⟨h.tasks.made t ht, ?_⟩, fun b => ?_⟩
  · have hfits := h.tasks.fits t ht
    exact ⟨fun hst => absurd hrun.2.2 hst, hfits.thread, hfits.kernel, hfits.user, hfits.hosting⟩
  · exact (h.stage b).frame (fun _ => Iff.rfl) (fun _ _ => rfl) (fun _ => Iff.rfl) Iff.rfl rfl

theorem Inv.stage_unlink (h : Inv s) (hst : s.start t = none) (hb : s.mm t ≠ some b) :
    Stage (s.unlink t) b := by
  refine (h.stage b).apart only_unlink (fun hu => hb hu.2) (fun hu => h.tasks.not_mem_unlink hu.1)
    (iff_of_false (fun hp => h.tasks.not_mem_unlink hp.1) fun hp => ?_) Iff.rfl rfl
  cases hst.symm.trans hp.2

theorem Inv.reap (h : Inv s) (ht : t ∈ s.table) (hdead : s.state t = .dead)
    (hhost : s.host t = none) : Inv (s.reap t) := by
  have hfits := h.tasks.fits t ht
  have hst : s.start t = none := by
    by_contra hst
    exact (hfits.waiting hst).2.1 hdead
  rw [Spaces.reap]
  split
  · next hmm =>
    refine ⟨h.tasks.unlink, fun b => h.stage_unlink hst ?_⟩
    rw [hmm]
    exact (some_ne_none b).symm
  · next a hmm =>
    have huser : s.userTask t = true :=
      (hfits.user (by rw [hmm]; exact some_ne_none _)).resolve_right fun hh => hh hhost
    have hquit := h.quit ⟨ht, hmm⟩ only_unlink h.tasks.unlink (fun hu => h.tasks.not_mem_unlink hu.1)
      (fun hp => h.tasks.not_mem_unlink hp.1) Iff.rfl rfl
      (fun b hb => h.stage_unlink hst fun he => hb (some.inj (he.symm.trans hmm)))
      (fun c hc => hc) fun u hu _ _ => hu.1
    by_cases hsh : s.mmShared t = true
    · rw [hsh, if_pos rfl] at hquit
      rw [if_neg (by simp [hsh])]
      exact hquit
    · rw [if_neg hsh] at hquit
      rw [if_pos ⟨huser, Bool.not_eq_true _ ▸ hsh⟩]
      exact hquit

theorem inv_step {act : SpaceAct T S} (h : Inv s) (hkept : Kept s act) : Inv (s.step act) := by
  cases act with
  | kernelThread t =>
    exact refuse_rule h fun ht => h.spawn none ht fun _ => (Option.some_ne_none _).symm
  | process t a =>
    exact refuse_rule h fun hn => h.process (fun ht => hn (.inl ht)) fun ha => hn (.inr ha)
  | abandoned a => exact refuse_rule h h.abandoned
  | thread t creator =>
    simp only [step]
    split
    · exact h
    · next a _ =>
      refine refuse_rule h fun hn => ?_
      exact h.spawn (some (a, true)) (fun ht => hn (.inl ht)) fun _ => by simp
  | start t =>
    simp only [step]
    split
    · exact h
    · next a thread hstart =>
      refine guard_rule h fun ht => ?_
      cases thread with
      | false => exact h.bootstrap_first ht hstart
      | true =>
        obtain ⟨u, hu, hmm⟩ := hkept a ht hstart
        exact h.bootstrap_thread ht hstart ⟨hu, hmm⟩
  | exec t new =>
    simp only [step]
    split
    · exact h
    · next old hmm =>
      exact guard_rule h fun hrun => h.exec hrun.1 hmm hrun.2
  | enter t a => exact guard_rule h fun hrun => h.enter hrun.1 hrun.2.1 hrun.2.2.1 hrun.2.2.2
  | leave t =>
    simp only [step]
    split
    · exact h
    · next a hhost =>
      refine guard_rule h fun hrun => ?_
      exact h.leave hrun (by rw [hhost]; exact Option.some_ne_none _) (hkept a hrun hhost)
  | exit t => exact guard_rule h h.exit
  | reap t => exact guard_rule h fun hdead => h.reap hdead.1 hdead.2 (hkept hdead.1 hdead.2)

omit [DecidableEq T] in
theorem not_sound_of_lost (h : Inv s) (ht : s.Uses b t) (howner : s.mmShared t = false)
    (huses : ∀ u, s'.Uses b u → s.Uses b u ∧ u ≠ t)
    (hflag : ∀ u, s.Uses b u → s'.mmShared u = s.mmShared u)
    (hprom : ∀ u, s'.Promised b u → s.Promised b u) (hc : b ∈ s.created → b ∈ s'.created)
    (hd : b ∈ s'.destroyed → b ∈ s.destroyed) : ¬ Sound s' := by
  intro hsound
  obtain ⟨hcreated, hkept, hfree, o, -, hall⟩ := (h.stage b).live_of_uses ht
  obtain rfl := (hall t ht).mp howner
  have hnone : ∀ u, ¬ s'.Uses b u := by
    intro u hu
    obtain ⟨v, ⟨hv, hmm, hsh⟩, -⟩ := hsound.owned b u hu.1 hu.2
    obtain ⟨hold, hne⟩ := huses v ⟨hv, hmm⟩
    rw [hflag v hold] at hsh
    exact hne ((hall v hold).mp hsh)
  have hgone := hsound.freed b (hc hcreated) fun u hu =>
    ⟨fun hmm => hnone u ⟨hu, hmm⟩, fun hst => hfree u (hprom u ⟨hu, hst⟩)⟩
  exact List.count_eq_zero.mp hkept (hd hgone)

theorem kept_start (hsound : Sound (s.step (.start t))) : Kept s (.start t) := by
  intro a ht hstart
  by_contra hnone
  push Not at hnone
  have hstep : s.step (.start t) = s.bootstrap t a true := by simp only [step, hstart, if_pos ht]
  rw [hstep] at hsound
  obtain ⟨o, ⟨ho, homm, hsh⟩, -⟩ := hsound.owned a t ht (Function.update_self ..)
  by_cases hot : o = t
  · rw [hot, show (s.bootstrap t a true).mmShared t = true from Function.update_self ..] at hsh
    cases hsh
  · have hold := (only_bootstrap.uses hot).mp ⟨ho, homm⟩
    exact hnone o hold.1 hold.2

theorem kept_leave (h : Inv s) (hsound : Sound (s.step (.leave t))) : Kept s (.leave t) := by
  intro a hrun hhost
  by_contra hne
  have hstep : s.step (.leave t) = s.leave t a := by simp only [step, hhost, if_pos hrun]
  rw [hstep] at hsound
  have hsome : s.host t ≠ none := by rw [hhost]; exact Option.some_ne_none _
  obtain ⟨b, hb⟩ := Option.ne_none_iff_exists'.mp ((h.tasks.fits t hrun.1).hosting hsome).1
  have hab : b ≠ a := by
    rintro rfl
    exact hne hb
  have howner := h.tasks.owner_of_host hrun.1 hsome
  have huses : ∀ u, (s.dropMm t).Uses b u → s.Uses b u ∧ u ≠ t := fun u hu => by
    have hut : u ≠ t := fun hut => not_uses_dropMm (hut ▸ hu)
    exact ⟨(only_dropMm.uses hut).mp hu, hut⟩
  obtain ⟨c, -, hmm, heq⟩ | ⟨-, heq⟩ := handOn_cases (s.dropMm t) a (s.others t)
  · rw [leave, heq] at hsound
    refine absurd hsound (not_sound_of_lost h ⟨hrun.1, hb⟩ howner huses
      (fun u hu => ?_) (fun _ hu => hu) (fun hc => hc) fun hd => hd)
    refine Function.update_of_ne ?_ ..
    rintro rfl
    have hut : u ≠ t := by
      rintro rfl
      simp [dropMm] at hmm
    rw [show (s.dropMm t).mm u = s.mm u from Function.update_of_ne hut .., hu.2] at hmm
    exact hab (Option.some.inj hmm)
  · rw [leave, heq] at hsound
    exact absurd hsound (not_sound_of_lost h ⟨hrun.1, hb⟩ howner huses
      (fun _ _ => rfl) (fun _ hu => hu) (fun hc => hc)
      fun hd => (List.mem_cons.mp hd).resolve_left hab)

theorem kept_reap (h : Inv s) (hsound : Sound (s.step (.reap t))) : Kept s (.reap t) := by
  intro ht hdead
  by_contra hhost
  have hhosting := (h.tasks.fits t ht).hosting hhost
  obtain ⟨b, hb⟩ := Option.ne_none_iff_exists'.mp hhosting.1
  have hstep : s.step (.reap t) = s.unlink t := by
    simp only [step, if_pos (And.intro ht hdead), reap, hb, hhosting.2, Bool.false_eq_true,
      false_and, if_false]
  rw [hstep] at hsound
  have hmem : ∀ u ∈ (s.unlink t).table, u ∈ s.table := fun u => List.mem_of_mem_erase
  refine not_sound_of_lost h ⟨ht, hb⟩ (h.tasks.owner_of_host ht hhost)
    (fun u hu => ⟨⟨hmem u hu.1, hu.2⟩, ?_⟩) (fun _ _ => rfl) (fun u hu => ⟨hmem u hu.1, hu.2⟩)
    (fun hc => hc) (fun hd => hd) hsound
  rintro rfl
  exact h.tasks.not_mem_unlink hu.1

theorem kept_of_sound {act : SpaceAct T S} (h : Inv s) (hsound : Sound (s.step act)) :
    Kept s act := by
  cases act with
  | start t => exact kept_start hsound
  | leave t => exact kept_leave h hsound
  | reap t => exact kept_reap h hsound
  | _ => trivial

-- Address spaces have one owner while used and are destroyed once, in exactly the runs in which no
-- thread starts too late and no kernel task loses the space it went to user mode with.
theorem sound_iff_kept (acts : List (SpaceAct T S)) :
    Always step Sound boot acts ↔ Allowed step Kept boot acts :=
  always_iff_of_step (fun _ _ => inv_step) (fun _ h => h.sound) (fun _ _ => kept_of_sound) inv_boot

-- A process makes a thread and exits; it is reaped before the thread has run.
def lateThread : List (SpaceAct ℕ ℕ) :=
  [.process 1 0, .start 1, .thread 2 1, .exit 1, .reap 1, .start 2]

theorem lateThread_not_sound : ¬ Always step Sound boot lateThread := by
  intro h
  have hlast : Sound (run step boot lateThread) := h.last
  exact hlast.unused 0 (by decide) 2 (by decide) (by decide)

end DosKernel.Sched.Spaces

import DosKernel.PidNs.Members

namespace DosKernel.PidNs

open DosKernel.Lib List World

variable {w w' : World} {t u : Task} {o id : ℕ} {v : Option ℕ} {may : ℕ → Bool}

theorem inherits_map {f : Task → Task} (htasks : w'.tasks = w.tasks.map f)
    (hf : ∀ t, Follows t (f t)) (e : Extends w w') (hpid : w'.nextPid = w.nextPid) :
    Inherits w w' where
  toExtends := e
  ids := by
    have hids : Task.id ∘ f = Task.id := funext fun t => (hf t).id
    rw [htasks, map_map, hids]
  origin := by
    intro t' ht'
    rw [htasks] at ht'
    obtain ⟨t, ht, rfl⟩ := mem_map.mp ht'
    exact ⟨t, ht, hf t⟩
  nextPid := hpid

theorem Inv.modify {f : Task → Task} (h : Inv w) (hf : ∀ t, Follows t (f t))
    (hnest : ∀ t ∈ w.tasks, Known w.nsCount (f t).childNs) : Inv (w.modify id f) := by
  have n : Inherits w (w.modify id f) := by
    refine inherits_map rfl (fun t => ?_) ⟨fun _ _ => ⟨rfl, rfl, Nat.le_refl _⟩, Nat.le_refl _,
      Nat.le_refl _⟩ rfl
    split
    · exact hf t
    · exact ⟨rfl, rfl, rfl, rfl, fun hlive => hlive, fun hkilled => hkilled⟩
  refine h.inherit n h.levelled h.counters ?_ (h.reaped_inherit n fun _ _ ho => ho)
  intro t' ht'
  obtain ⟨t, ht, rfl⟩ := mem_map.mp ht'
  split
  · exact hnest t ht
  · exact (h.member t ht).nest

theorem Inv.setChildNs (h : Inv w) (hv : Known w.nsCount v) :
    Inv (w.modify id fun t => { t with childNs := v }) :=
  h.modify (fun _ => ⟨rfl, rfl, rfl, rfl, fun hl => hl, fun hk => hk⟩) fun _ _ => hv

theorem Inv.kill (h : Inv w) :
    Inv (w.modify id fun t => { t with killed := t.killed || !t.dead }) :=
  h.modify (fun _ => ⟨rfl, rfl, rfl, rfl, fun hl => hl, fun hk => by simp [hk]⟩) fun t ht =>
    (h.member t ht).nest

theorem Inv.reap (h : Inv w) :
    Inv { w with tasks := w.tasks.filter fun t => !(t.id = id && t.dead) } := by
  have n : Inherits w { w with tasks := w.tasks.filter fun t => !(t.id = id && t.dead) } :=
    { ns := fun _ _ => ⟨rfl, rfl, Nat.le_refl _⟩
      count := Nat.le_refl _
      nextId := Nat.le_refl _
      ids := filter_sublist.map _
      origin := fun t ht => ⟨t, mem_of_mem_filter ht, rfl, rfl, rfl, rfl, fun hl => hl,
        fun hk => hk⟩
      nextPid := rfl }
  exact h.inherit n h.levelled h.counters (fun t ht => (h.member t (mem_of_mem_filter ht)).nest)
    (h.reaped_inherit n fun _ _ ho => ho)

-- The exit of `t` kills `u`: `t` is the init of its namespace, `u` one of the first `zapRoom`
-- others there, no dead task hides it from `task_find`, and `t` may signal it.
def World.Reaches (w : World) (t : Task) (may : ℕ → Bool) (u : Task) : Prop :=
  ∃ d, t.ns = some d ∧ (w.ns d).initPid = t.pid ∧
    u ∈ (w.tasks.filter fun x => x.pid ≠ t.pid && !x.dead && w.within x (some d)).take zapRoom ∧
    u.pid ≠ 0 ∧ w.taskFind u.pid = some u ∧ may u.id = true

-- For every namespace whose init `t` is, no one in it or below it is missed.
def World.Final (w : World) (t : Task) (may : ℕ → Bool) : Prop :=
  ∀ o, (w.ns o).init = some t.id → ∀ u ∈ w.tasks, u.dead = false → u.id ≠ t.id →
    w.within u (some o) = true → u.killed = true ∨ w.Reaches t may u

theorem isSome_of_within (h : w.within u (some o) = true) : u.ns.isSome = true := by
  rw [within_some] at h
  cases hns : u.ns with
  | none =>
    rw [hns] at h
    cases h
  | some d => rfl

theorem filter_within (d : ℕ) :
    (w.tasks.filter fun u => u.pid ≠ t.pid && !u.dead && u.ns.isSome && w.within u (some d)) =
      w.tasks.filter fun x => x.pid ≠ t.pid && !x.dead && w.within x (some d) := by
  refine filter_congr fun u _ => ?_
  cases hin : w.within u (some d) with
  | false => simp
  | true => simp [isSome_of_within hin]

theorem Inv.struck_iff (h : Inv w) (hu : u ∈ w.tasks) (hlive : u.dead = false) :
    w.struck may (w.zapPids t) u = true ↔ w.Reaches t may u := by
  simp only [struck, any_eq_true, Bool.and_eq_true, decide_eq_true_eq, hlive,
    Bool.not_false, and_true]
  constructor
  · rintro ⟨pid, hpid, ⟨hpos, hfound⟩, hmay⟩
    rw [zapPids] at hpid
    split at hpid
    · cases hpid
    next d hd =>
      split at hpid
      next hinit =>
        rw [filter_within] at hpid
        obtain ⟨x, hx, rfl⟩ := mem_map.mp hpid
        have hxmem := mem_of_mem_filter (mem_of_mem_take hx)
        have hxlive := (mem_filter.mp (mem_of_mem_take hx)).2
        simp only [Bool.and_eq_true, Bool.not_eq_true'] at hxlive
        -- the task `task_find` finds has the number of `x`, both are live, so they are one
        obtain ⟨y, hy, hyid⟩ := Option.map_eq_some_iff.mp hfound
        have hyu : y = u := h.eq_of_id (mem_of_find?_eq_some hy) hu hyid
        have hypid := find?_some hy
        simp only [decide_eq_true_eq, Int.natCast_inj] at hypid
        subst hyu
        have hxu : x = y := h.eq_of_id hxmem hu ((h.apart x hxmem y hu).pids hxlive.1.2 hlive
          hypid.symm)
        subst hxu
        exact ⟨d, hd, hinit, hx, hpos, hy, hmay⟩
      · cases hpid
  · rintro ⟨d, hd, hinit, hmem, hpos, hfound, hmay⟩
    refine ⟨u.pid, ?_, ⟨hpos, by rw [hfound, Option.map_some]⟩, hmay⟩
    simp only [zapPids, hd, hinit, if_true]
    rw [filter_within]
    exact mem_map_of_mem hmem

theorem inherits_exit : Inherits w (w.exit t may) := by
  refine inherits_map rfl (fun u => ⟨rfl, rfl, rfl, rfl, fun hlive => ?_, fun hkilled => ?_⟩)
    ⟨fun _ _ => ⟨rfl, rfl, Nat.le_refl _⟩, Nat.le_refl _, Nat.le_refl _⟩ rfl
  · exact (Bool.or_eq_false_iff.mp hlive).1
  · simp [hkilled]

theorem exit_died : ((w.exit t may).ns o).died = true ↔
    (w.ns o).died = true ∨ (w.ns o).init = some t.id := by
  simp [exit]

theorem Inv.exit (h : Inv w) (hfinal : w.Final t may) : Inv (w.exit t may) := by
  refine h.inherit inherits_exit h.levelled h.counters ?_ ?_
  · intro t' ht'
    obtain ⟨u, hu, rfl⟩ := mem_map.mp ht'
    exact (h.member u hu).nest
  · intro o hdied t' ht' hlive hin
    obtain ⟨u, hu, rfl⟩ := mem_map.mp ht'
    simp only [Bool.or_eq_false_iff, decide_eq_false_iff_not] at hlive
    rw [within_some, inherits_exit.chain h (h.member u hu).home, ← within_some] at hin
    rw [Bool.or_eq_true]
    cases exit_died.mp hdied with
    | inl hbefore => exact .inl (h.reaped o hbefore u hu hlive.1 hin)
    | inr hinit =>
      exact (hfinal o hinit u hu hlive.1 hlive.2 hin).imp id (h.struck_iff hu hlive.1).mpr

theorem Inv.final_of_sound (h : Inv w) (hs : (w.exit t may).Sound) : w.Final t may := by
  intro o hinit u hu hlive hne hin
  have hkilled := hs.reaped o (exit_died.mpr (.inr hinit)) _ (mem_map_of_mem hu)
    (by simp [hlive, hne]) (by
      rw [within_some, inherits_exit.chain h (h.member u hu).home, ← within_some]
      exact hin)
  rw [Bool.or_eq_true] at hkilled
  exact hkilled.imp id (h.struck_iff hu hlive).mp

-- A task is created where there is room for it, and an init's exit leaves no one behind.
def World.Orderly (w : World) : Act → Prop
  | .create parent thread => ∀ t, w.alive parent = some t →
      (thread && t.childNs.isSome && t.childNs ≠ t.ns) = false → w.Room t.births
  | .cloneNewPid parent => ∀ t, w.alive parent = some t → (w.newNs t).isSome = true →
      w.Room t.births
  | .exit id may => ∀ t, w.alive id = some t → t.pid ≠ 0 → w.Final t may
  | _ => True

theorem mem_of_alive (ht : w.alive id = some t) : t ∈ w.tasks :=
  mem_of_find?_eq_some ht

theorem inv_step (a : Act) (h : Inv w) (ha : w.Orderly a) : Inv (w.step a) := by
  cases a with
  | create parent thread =>
    simp only [step]
    split
    · exact h
    next t ht =>
      split
      · exact h
      next hok =>
        rw [Bool.not_eq_true] at hok
        exact h.spawn (h.known_births (mem_of_alive ht)) (ha t ht hok)
  | cloneNewPid parent =>
    simp only [step]
    split
    · exact h
    next t ht =>
      split
      · exact h
      next w' hw =>
        have n := nests_of_newNs hw
        have hmem := mem_of_alive ht
        refine (h.nests_keeps n hmem).spawn ?_ ((h.room_nests n hmem).mpr (ha t ht (by rw [hw]; rfl)))
        intro o ho
        rw [n.count, ← Option.some.inj ho]
        exact Nat.lt_succ_self _
  | unshare id =>
    simp only [step]
    split
    · exact h
    next t ht =>
      split
      · exact h
      next w' hw =>
        have n := nests_of_newNs hw
        refine (h.nests_keeps n (mem_of_alive ht)).setChildNs ?_
        intro o ho
        rw [n.count, ← Option.some.inj ho]
        exact Nat.lt_succ_self _
  | setns id target =>
    simp only [step]
    split
    · exact h
    · split
      · exact h.setChildNs fun o ho => by cases ho
      · split
        · exact h
        next hok =>
          rw [not_or] at hok
          exact h.setChildNs fun o ho => Option.some.inj ho ▸ Nat.lt_of_not_le hok.1
  | kill id => exact h.kill
  | exit id may =>
    simp only [step]
    split
    · exact h
    next t ht =>
      split
      · exact h
      next hpid =>
        exact h.exit (ha t ht hpid)
  | reap id => exact h.reap

theorem orderly_of_sound (a : Act) (h : Inv w) (hs : (w.step a).Sound) : w.Orderly a := by
  cases a with
  | create parent thread =>
    intro t ht hok
    simp only [step, ht, hok] at hs
    exact h.room_of_sound (h.known_births (mem_of_alive ht)) hs
  | cloneNewPid parent =>
    intro t ht hsome
    obtain ⟨w', hw⟩ := Option.isSome_iff_exists.mp hsome
    have n := nests_of_newNs hw
    have hmem := mem_of_alive ht
    simp only [step, ht, hw] at hs
    refine (h.room_nests n hmem).mp ((h.nests_keeps n hmem).room_of_sound ?_ hs)
    intro o ho
    rw [n.count, ← Option.some.inj ho]
    exact Nat.lt_succ_self _
  | exit id may =>
    intro t ht hpid
    simp only [step, ht, hpid, if_false] at hs
    exact h.final_of_sound hs
  | unshare id | setns id target | kill id | reap id => trivial

-- Numbers stay distinct and resolvable and dead namespaces empty in exactly the runs in which
-- children find room and a dying init reaches all of its namespaces' members.
theorem sound_iff_roomy (calls : List Act) :
    Always World.step World.Sound boot calls ↔ Allowed World.step World.Orderly boot calls :=
  always_iff_of_step (fun _ a => inv_step a) (fun _ h => h.sound) (fun _ a => orderly_of_sound a)
    inv_boot

-- Task 1 moves its children to a new namespace; its init exits, and a child is still born there.
def afterlife : List Act :=
  [.create 0 false, .unshare 1, .create 1 false, .exit 2 fun _ => true, .create 1 false]

theorem born_after_init : ¬ Always World.step World.Sound boot afterlife := by
  intro hs
  have hborn : ∃ t ∈ (run World.step boot afterlife).tasks,
      t.dead = false ∧ t.killed = false ∧
        (run World.step boot afterlife).within t (some 0) = true ∧
          ((run World.step boot afterlife).ns 0).died = true := by
    decide
  obtain ⟨t, ht, hlive, hrunning, hin, hdied⟩ := hborn
  have hkilled := hs.last.reaped 0 hdied t ht hlive hin
  rw [hrunning] at hkilled
  cases hkilled

end DosKernel.PidNs

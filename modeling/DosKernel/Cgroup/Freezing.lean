import DosKernel.Cgroup.Tree

namespace DosKernel.Cgroup

open DosKernel.Lib DosKernel.Sched
open Function (update update_of_ne update_self)

variable {N : Type}

namespace Task

def paused (k : Task N) : Bool := k.stopped || (k.stopPending && !k.killPending)

-- A member of a frozen cgroup is stopped or about to stop, by that cgroup only.
def Obeys (frozen : Option N → Bool) (k : Task N) : Prop :=
  (∀ n ∈ k.cgroup, frozen (some n) = true → k.paused = true) ∧
    ∀ n ∈ k.frozenBy, k.paused = true → k.cgroup = some n

-- The task may go on; nothing else that the freezer looks at changes.
structure Eases (k k' : Task N) : Prop where
  dead : k'.dead = k.dead
  cgroup : k'.cgroup = k.cgroup
  frozenBy : k'.frozenBy = k.frozenBy
  paused : k'.paused = true → k.paused = true

variable {frozen frozen' : Option N → Bool} {k k' : Task N}

theorem Eases.rfl : Eases k k := ⟨.refl _, .refl _, .refl _, id⟩

theorem Obeys.mono (h : Obeys frozen k)
    (hf : ∀ n, frozen' (some n) = true → frozen (some n) = true) : Obeys frozen' k :=
  ⟨fun n hn hfr => h.1 n hn (hf n hfr), h.2⟩

theorem Obeys.frame (h : Obeys frozen k) (hp : k'.paused = k.paused) (hc : k'.cgroup = k.cgroup)
    (hb : k'.frozenBy = k.frozenBy) : Obeys frozen k' := by
  rw [Obeys, hp, hc, hb]
  exact h

theorem Obeys.ease (h : Obeys frozen k) (he : Eases k k')
    (hthawed : ∀ n ∈ k.cgroup, frozen' (some n) = false) : Obeys frozen' k' := by
  refine ⟨fun n hn hf => ?_, fun n hn hp => ?_⟩
  · rw [hthawed n (he.cgroup ▸ hn)] at hf
    cases hf
  · rw [he.cgroup]
    exact h.2 n (he.frozenBy ▸ hn) (he.paused hp)

end Task

namespace State

def Held (s : State N) : Prop := ∀ t, s.Alive t → (s.task t).Obeys s.frozen

variable {s s' : State N} {g : Option N} {c : Caller} {t : ℕ} {k : Task N}
  {frozen : Option N → Bool}

theorem eases_resumed (k : Task N) : Task.Eases k (resumed k) := by
  rw [resumed]
  split
  · exact ⟨rfl, rfl, rfl, fun h => by simp_all [Task.paused]⟩
  · exact ⟨rfl, rfl, rfl, fun h => by cases h⟩

theorem eases_continued (k : Task N) : Task.Eases k (continued c t k) := by
  rw [continued]
  split
  · exact .rfl
  split
  · split
    · exact .rfl
    · obtain ⟨hd, hc, hb, hp⟩ := eases_resumed { k with swappedPages := false }
      exact ⟨hd, hc, hb, hp⟩
  split
  · exact .rfl
  · exact eases_resumed k

theorem eases_killed (k : Task N) : Task.Eases k (killed c t k) := by
  rw [killed]
  split
  · exact .rfl
  · obtain ⟨hd, hc, hb, hp⟩ := eases_resumed k
    exact ⟨hd, hc, hb, fun h => hp (by simp_all [Task.paused])⟩

theorem Held.touch {ts : List ℕ} {f : ℕ → Task N → Task N}
    (hdead : ∀ t, (f t (s.task t)).dead = (s.task t).dead)
    (hin : ∀ t ∈ ts, s.Alive t → (f t (s.task t)).Obeys frozen)
    (hout : ∀ t ∉ ts, s.Alive t → (s.task t).Obeys frozen) :
    Held { s with
      frozen := frozen
      task := fun t => if t ∈ ts then f t (s.task t) else s.task t } := by
  rintro t ⟨htable, hlive⟩
  dsimp only at hlive ⊢
  by_cases hmem : t ∈ ts
  · rw [if_pos hmem] at hlive ⊢
    exact hin t hmem ⟨htable, (hdead t).symm.trans hlive⟩
  · rw [if_neg hmem] at hlive ⊢
    exact hout t hmem ⟨htable, hlive⟩

theorem stopAsked_spec (c : Caller) (g : Option N) (t : ℕ) (k : Task N) :
    (stopAsked c g t k).dead = k.dead ∧ (stopAsked c g t k).cgroup = k.cgroup ∧
      (stopAsked c g t k = k ∨ (stopAsked c g t k).frozenBy = g) := by
  rw [stopAsked]
  split
  · exact ⟨rfl, rfl, .inl rfl⟩
  · exact ⟨rfl, rfl, .inr rfl⟩

theorem Held.move {ts : List ℕ} (h : Held s)
    (hsuit : ∀ t ∈ ts, { s.task t with cgroup := g }.Obeys s.frozen) : Held (s.move g ts) :=
  .touch (f := fun _ k => { k with cgroup := g }) (fun _ => rfl) (fun t ht _ => hsuit t ht)
    fun t _ => h t

theorem Held.setTask (h : Held s) (hk : k.dead = false → k.Obeys s.frozen) :
    Held (s.setTask t k) := by
  intro u hu
  by_cases hut : u = t
  · subst hut
    simp only [State.setTask, Alive, update_self] at hu ⊢
    exact hk hu.2
  · simp only [State.setTask, Alive, update_of_ne hut] at hu ⊢
    exact h u hu

def Thawed (s : State N) (t : ℕ) : Prop := ∀ n ∈ (s.task t).cgroup, s.frozen (some n) = false

instance : Decidable (s.Thawed t) := inferInstanceAs (Decidable (∀ n ∈ _, _))

theorem Held.fork {creator child : ℕ} {thread : Bool} (h : Held s) (hthawed : s.Thawed creator) :
    Held (s.fork creator child thread) := by
  intro u hu
  by_cases huc : u = child
  · subst huc
    simp only [State.fork, update_self]
    refine ⟨fun n hn hf => ?_, fun n hn => by cases hn⟩
    rw [hthawed n hn] at hf
    cases hf
  · simp only [State.fork, Alive, update_of_ne huc, mem_masterInsert, huc, false_or]
      at hu ⊢
    exact h u hu

theorem held_boot : Held (boot : State N) :=
  fun _ _ => ⟨fun _ hn => (by cases hn), fun _ hn => (by cases hn)⟩

theorem Held.kills {ts : List ℕ} (h : Held s) (hts : ∀ t ∈ ts, t ∈ s.table)
    (hthawed : ∀ t ∈ ts, s.Thawed t) : Held (ts.foldl (taskKill c) s) := by
  rw [foldl_taskKill hts]
  exact .touch (fun t => (eases_killed _).dead)
    (fun t hmem ht => (h t ht).ease (eases_killed _) (hthawed t hmem)) fun t _ => h t

theorem Held.adopt {us : List ℕ} {adopter : ℕ} (h : Held s) : Held (s.adopt us adopter) :=
  .touch (f := fun _ k => { k with ppid := adopter }) (fun _ => rfl)
    (fun t _ ht => (h t ht).frame rfl rfl rfl) fun t _ => h t

theorem Thawed.adopt {us : List ℕ} {adopter : ℕ} (h : s.Thawed t) :
    (s.adopt us adopter).Thawed t := by
  intro n hn
  refine h n ?_
  dsimp only [State.adopt] at hn
  split at hn <;> exact hn

theorem Held.exit {adopter : ℕ} (h : Held s) (hthawed : ∀ u ∈ s.doomed t, s.Thawed u) :
    Held (s.exit c t adopter) := by
  refine Held.setTask (h.adopt.kills (fun u => mem_table_of_mem_doomed) fun u hu => ?_)
    fun hdead => by cases hdead
  exact (hthawed u hu).adopt

theorem Held.reap {adopter : ℕ} (h : Held s) : Held (s.reap t adopter) :=
  fun u hu => h.adopt u ⟨List.mem_of_mem_erase hu.1, hu.2⟩

variable [DecidableEq N]

-- `freeze` stops the task: it is among the first 256 members and `task_stop` accepts it.
def Stoppable (s : State N) (c : Caller) (g : Option N) (t : ℕ) : Prop :=
  t ∈ s.scanAll g ∧ t ≠ 0 ∧ (s.task t).isIdle = false ∧ c.may t = true ∧
    (s.task t).userTask = true ∧ (s.task t).killPending = false

-- `cgroup.kill` reaches the task: among the first 64 group leaders, and `task_kill` accepts it.
def Killable (s : State N) (c : Caller) (g : Option N) (t : ℕ) : Prop :=
  t ∈ s.scanPids g ∧ t ≠ 0 ∧ (s.task t).isIdle = false ∧ c.may t = true

-- A freeze reaches all members, a moved task is as its new cgroup wants it, and no task of a
-- frozen cgroup forks or is killed, also not by the exit of its parent.
def Consulted (s : State N) : Act N → Prop
  | .write c g .freeze buf => s.HasFile g .freeze → writeText buf = "1".toList →
      s.frozen g = false → ∀ t ∈ s.scan g, (s.task t).paused = true ∨ s.Stoppable c g t
  | .write c g .procs buf => s.HasFile g .procs →
      ∀ t ∈ s.named c false (writeText buf), { s.task t with cgroup := g }.Obeys s.frozen
  | .write c g .threads buf => s.HasFile g .threads →
      ∀ t ∈ s.named c true (writeText buf), { s.task t with cgroup := g }.Obeys s.frozen
  | .write _ g .kill buf => s.HasFile g .kill → writeText buf = "1".toList → s.frozen g = false
  | .fork creator child _ => s.Alive creator → child ∉ s.table → s.Thawed creator
  | .kill _ t => s.Alive t → s.Thawed t
  | .exit _ t _ => s.Alive t → ∀ u ∈ s.doomed t, s.Thawed u
  | _ => True

theorem mem_scan : t ∈ s.scan g ↔ s.Alive t ∧ (s.task t).cgroup = g := by
  simp only [scan, List.mem_filter, Alive, Bool.and_eq_true, Bool.not_eq_true', decide_eq_true_eq]
  exact and_assoc.symm

theorem frozen_of_update {n : N} (hn : update s.frozen g false (some n) = true) :
    s.frozen (some n) = true := by
  by_cases hng : some n = g
  · subst hng
    rw [update_self] at hn
    cases hn
  · rwa [update_of_ne hng] at hn

theorem Held.thaw (h : Held s) : Held (s.freeze c g false) := by
  rw [freeze_eq]
  refine .touch (fun t => (eases_continued _).dead) (fun t hmem ht => ?_) fun t _ ht =>
    (h t ht).mono fun n => frozen_of_update
  refine (h t ht).ease (eases_continued _) fun n hn => ?_
  have hin : (s.task t).cgroup = g := (mem_scan.mp (List.mem_of_mem_take hmem)).2
  rw [show some n = g from hn.symm.trans hin, update_self]

theorem stopAsked_paused (ht : s.Alive t) (h : (s.task t).paused = true ∨ s.Stoppable c g t) :
    (stopAsked c g t (s.task t)).paused = true := by
  rw [stopAsked]
  split
  next hk =>
    refine h.resolve_right ?_
    rintro ⟨-, h0, hidle, hmay, huser, -⟩
    simp [h0, hidle, ht.2, hmay, huser] at hk
  · obtain hp | ⟨-, -, -, -, -, hkill⟩ := h
    · simp_all [Task.paused]
      tauto
    · simp [Task.paused, hkill]

theorem Held.freeze (h : Held s)
    (hall : ∀ t ∈ s.scan g, (s.task t).paused = true ∨ s.Stoppable c g t) :
    Held (s.freeze c g true) := by
  rw [freeze_eq]
  refine .touch (fun t => (stopAsked_spec c g t (s.task t)).1) (fun t hmem ht => ?_)
    fun t hmem ht => ⟨fun n hn hf => ?_, (h t ht).2⟩
  · obtain ⟨-, hcg, hby⟩ := stopAsked_spec c g t (s.task t)
    have hscan := List.mem_of_mem_take hmem
    refine ⟨fun n hn hf => stopAsked_paused ht (hall t hscan), fun n hn hp => ?_⟩
    obtain heq | hg := hby
    · rw [heq] at hn hp ⊢
      exact (h t ht).2 n hn hp
    · exact hcg.trans ((mem_scan.mp hscan).2.trans (hg.symm.trans hn))
  · by_cases hng : some n = g
    · have hscan : t ∈ s.scan g := mem_scan.mpr ⟨ht, hn.trans hng⟩
      exact (hall t hscan).resolve_right fun hst => hmem hst.1
    · rw [update_of_ne hng] at hf
      exact (h t ht).1 n hn hf

theorem Held.cgMkdir {p : Option N} {n : N} {name : Text} (h : Held s) :
    Held (s.cgMkdir p n name) := by
  exact refuse_rule h fun _ t ht => (h t ht).mono fun m => frozen_of_update

theorem Held.cgUnlink {n : N} {opened : Bool} (h : Held s) : Held (s.cgUnlink n opened) := by
  exact guard_rule h fun _ => h

theorem Held.write {kind : Kind} {buf : Text} (h : Held s) (hf : s.HasFile g kind)
    (hok : Consulted s (.write c g kind buf)) : Held (s.cgWrite c g kind buf).1 := by
  cases kind with
  | subtree =>
    simp only [cgWrite, Kind.rw, Bool.true_eq_false, if_false]
    split <;> exact h
  | procs | threads => exact h.move (hok hf)
  | kill =>
    simp only [cgWrite, Kind.rw, Bool.true_eq_false, if_false]
    split
    next hone =>
      refine h.kills (fun t => mem_table_of_mem_scanPids) fun t ht n hn => ?_
      have hin := (mem_scan.mp (List.mem_of_mem_filter (List.mem_of_mem_take ht))).2
      rw [show some n = g from hn.symm.trans hin]
      exact hok hf hone
    · exact h
  | freeze =>
    simp only [cgWrite, Kind.rw, Bool.true_eq_false, if_false]
    split
    · next hone =>
      exact refuse_rule h fun hfr => h.freeze (hok hf hone (Bool.not_eq_true _ ▸ hfr))
    · split
      · dsimp only
        exact guard_rule h fun _ => h.thaw
      · exact h
  | _ => exact h

theorem held_step {a : Act N} (h : Held s) (hok : Consulted s a) : Held (s.step a) := by
  cases a with
  | mkdir p n name memory => exact guard_rule h fun _ => h.cgMkdir
  | rmdir n opened => exact guard_rule h fun _ => h.cgUnlink
  | write c g kind buf => exact guard_rule h fun hf => h.write hf hok
  | fork creator child thread => exact guard_rule h fun hcan => h.fork (hok hcan.1 hcan.2)
  | start t => exact guard_rule h fun ht => h.setTask fun _ => (h t ht).frame rfl rfl rfl
  | stopSelf t =>
    refine guard_rule h fun ht => ?_
    refine h.setTask fun _ => (h t ht.1).frame ?_ rfl rfl
    simp [Task.paused, ht.2.1, ht.2.2.1]
  | kill c t =>
    refine guard_rule h fun hin => h.setTask fun hlive => ?_
    have ht : s.Alive t := ⟨hin, (eases_killed _).dead ▸ hlive⟩
    exact (h t ht).ease (eases_killed _) (hok ht)
  | detach t ppid survives =>
    exact guard_rule h fun ht => h.setTask fun _ => (h t ht).frame rfl rfl rfl
  | exit c t adopter => exact guard_rule h fun ht => h.exit (hok ht)
  | reap t adopter => exact guard_rule h fun _ => h.reap

theorem killAll_pending (ht : s.Alive t) :
    (((s.scanPids g).foldl (taskKill c) s).task t).killPending = true ↔
      (s.task t).killPending = true ∨ s.Killable c g t := by
  rw [foldl_taskKill fun t => mem_table_of_mem_scanPids]
  dsimp only
  split
  · next hmem =>
    by_cases hk : t = 0 ∨ (s.task t).isIdle ∨ (s.task t).dead ∨ c.may t = false
    · rw [killed, if_pos hk, iff_comm, or_iff_left_iff_imp]
      rintro ⟨-, h0, hidle, hmay⟩
      simp [h0, hidle, ht.2, hmay] at hk
    · rw [killed, if_neg hk]
      push Not at hk
      refine iff_of_true rfl (.inr ⟨hmem, hk.1, ?_, ?_⟩)
      · simpa using hk.2.1
      · simpa using hk.2.2.2
  · next hmem => exact (or_iff_left fun hkill => hmem hkill.1).symm

def anyone : Caller := ⟨0, fun _ => true, fun _ => true⟩

-- Task 1 is frozen with cgroup 1 and stops; its parent, which it has left, exits.
def frozenRun : List (Act ℕ) :=
  [.mkdir none 1 "a".toList true, .fork 0 1 false, .fork 1 2 false, .start 2, .detach 2 0 true,
    .write anyone (some 1) .procs "2".toList, .write anyone (some 1) .freeze "1".toList,
    .stopSelf 2, .exit anyone 1 0]

-- Task 1 leaves its thread 2 behind, which is no group leader; a frozen cgroup's task forks.
def strayThread : List (Act ℕ) :=
  [.mkdir none 1 "a".toList true, .fork 0 1 false, .start 1,
    .write anyone (some 1) .procs "1".toList, .fork 1 2 true, .start 2,
    .write anyone none .threads "1".toList]

def forkFrozen : List (Act ℕ) :=
  [.mkdir none 1 "a".toList true, .fork 0 1 false, .start 1,
    .write anyone (some 1) .procs "1".toList, .write anyone (some 1) .freeze "1".toList,
    .fork 1 2 false]

end State

end DosKernel.Cgroup

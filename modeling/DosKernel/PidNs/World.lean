import Mathlib.Data.Int.Notation
import Mathlib.Logic.Function.Basic
import DosKernel.Lib.Run
import DosKernel.Sched.Task
import Mathlib.Data.List.Nodup

namespace DosKernel.PidNs

open DosKernel.Lib

open DosKernel.Sched (masterInsert)

def maxLevel : ℕ := 4

def zapRoom : ℕ := 128

def intMax : ℕ := 2147483647

-- The PID part of `struct nsobj`. Not in the source: `init`, the task numbered 1, and `died`.
structure Ns where
  level : ℕ
  parent : Option ℕ
  nextNr : ℕ
  initPid : ℕ
  init : Option ℕ
  died : Bool
deriving DecidableEq, Repr

-- A task of the master list; `id` tells tasks apart whose `pid` is the same.
structure Task where
  id : ℕ
  pid : ℕ
  ns : Option ℕ
  childNs : Option ℕ
  upid : ℕ → ℤ
  dead : Bool
  killed : Bool

structure World where
  tasks : List Task
  ns : ℕ → Ns
  nsCount : ℕ
  nextPid : ℕ
  nextId : ℕ

-- A namespace and those above it, fewer than `maxLevel`, as the loops over `o->parent` meet them.
def chainOf (ns : ℕ → Ns) : ℕ → Option ℕ → List ℕ
  | 0, _ => []
  | _, none => []
  | fuel + 1, some o => o :: chainOf ns fuel (ns o).parent

def World.chain (w : World) (v : Option ℕ) : List ℕ := chainOf w.ns maxLevel v

def World.within (w : World) (t : Task) (v : Option ℕ) : Bool :=
  match v with
  | none => true
  | some o => o ∈ w.chain t.ns

def World.vnr (w : World) (v : Option ℕ) (t : Task) : ℤ :=
  match v with
  | none => t.pid
  | some o => if w.within t v then if (w.ns o).level < maxLevel then t.upid (w.ns o).level else 0
    else 0

def World.taskFind (w : World) (pid : ℤ) : Option Task := w.tasks.find? fun t => (t.pid : ℤ) = pid

def World.resolve (w : World) (v : Option ℕ) (nr : ℤ) : ℤ :=
  if nr ≤ 0 then -1
  else
    match v with
    | none => ((w.taskFind nr).map fun t => (t.pid : ℤ)).getD (-1)
    | some o =>
      ((w.tasks.find? fun t => !t.dead && w.vnr (some o) t = nr).map fun t => (t.pid : ℤ)).getD (-1)

-- The value of an `int` that has been counted up to `n`.
def int32 (n : ℕ) : ℤ :=
  if n % 4294967296 ≤ intMax then (n % 4294967296 : ℕ) else (n % 4294967296 : ℕ) - 4294967296

def assignStep (pid id : ℕ) (acc : (ℕ → Ns) × (ℕ → ℤ)) (o : ℕ) : (ℕ → Ns) × (ℕ → ℤ) :=
  let n := acc.1 o
  let nr := int32 n.nextNr
  (Function.update acc.1 o { n with
      nextNr := n.nextNr + 1
      initPid := if nr = 1 then pid else n.initPid
      init := if nr = 1 then some id else n.init },
    if n.level < maxLevel then Function.update acc.2 n.level nr else acc.2)

def World.assign (w : World) (v : Option ℕ) : (ℕ → Ns) × (ℕ → ℤ) :=
  (w.chain v).foldl (assignStep w.nextPid w.nextId)
    (w.ns, fun l => if l = 0 then (w.nextPid : ℤ) else 0)

-- `spawn_common_ex` for a child born in namespace `v`: `next_pid` wraps to 1.
def World.spawn (w : World) (v : Option ℕ) : World :=
  { w with
    tasks := masterInsert w.tasks ⟨w.nextId, w.nextPid, v, v, (w.assign v).2, false, false⟩
    ns := (w.assign v).1
    nextPid := if w.nextPid < intMax then w.nextPid + 1 else 1
    nextId := w.nextId + 1 }

def Task.births (t : Task) : Option ℕ :=
  match t.childNs with
  | some o => some o
  | none => t.ns

-- `ns_pid_new` below the namespace `t`'s children are born in; `none` past the last level.
def World.newNs (w : World) (t : Task) : Option World :=
  let level := match t.births with
    | some o => (w.ns o).level + 1
    | none => 1
  if level ≥ maxLevel then none
  else some { w with
    ns := Function.update w.ns w.nsCount ⟨level, t.births, 1, 0, none, false⟩
    nsCount := w.nsCount + 1 }

def World.modify (w : World) (id : ℕ) (f : Task → Task) : World :=
  { w with tasks := w.tasks.map fun t => if t.id = id then f t else t }

def World.zapPids (w : World) (t : Task) : List ℕ :=
  match t.ns with
  | none => []
  | some o =>
    if (w.ns o).initPid = t.pid then
      ((w.tasks.filter fun u => u.pid ≠ t.pid && !u.dead && u.ns.isSome && w.within u (some o)).take
        zapRoom).map Task.pid
    else []

-- `task_kill` reaches the task: `task_find` finds it, not dead, and the caller may signal it.
def World.struck (w : World) (may : ℕ → Bool) (pids : List ℕ) (u : Task) : Bool :=
  pids.any fun pid =>
    pid ≠ 0 && decide ((w.taskFind pid).map Task.id = some u.id) && !u.dead && may u.id

def World.exit (w : World) (t : Task) (may : ℕ → Bool) : World :=
  { w with
    tasks := w.tasks.map fun u =>
      { u with
        killed := u.killed || w.struck may (w.zapPids t) u
        dead := u.dead || u.id = t.id }
    ns := fun o =>
      { w.ns o with
        initPid := if t.ns = some o ∧ (w.ns o).initPid = t.pid then 0 else (w.ns o).initPid
        died := (w.ns o).died || (w.ns o).init = some t.id } }

inductive Act where
  | create (parent : ℕ) (thread : Bool)
  | cloneNewPid (parent : ℕ)
  | unshare (id : ℕ)
  | setns (id : ℕ) (target : Option ℕ)
  | kill (id : ℕ)
  | exit (id : ℕ) (may : ℕ → Bool)
  | reap (id : ℕ)

def World.alive (w : World) (id : ℕ) : Option Task :=
  w.tasks.find? fun t => t.id = id && !t.dead

def World.level (w : World) (t : Task) : ℕ :=
  match t.ns with
  | some o => (w.ns o).level
  | none => 0

-- A thread is refused after its process's children were moved. An exiting task's children are
-- killed by a `kill` of each before its `exit`; pid 0 does not exit.
def World.step (w : World) : Act → World
  | .create parent thread =>
    match w.alive parent with
    | none => w
    | some t => if thread && t.childNs.isSome && t.childNs ≠ t.ns then w else w.spawn t.births
  | .cloneNewPid parent =>
    match w.alive parent with
    | none => w
    | some t =>
      match w.newNs t with
      | none => w
      | some w' => w'.spawn (some w.nsCount)
  | .unshare id =>
    match w.alive id with
    | none => w
    | some t =>
      match w.newNs t with
      | none => w
      | some w' => w'.modify id fun t => { t with childNs := some w.nsCount }
  | .setns id target =>
    match w.alive id with
    | none => w
    | some t =>
      match target with
      | none => w.modify id fun t => { t with childNs := none }
      | some o =>
        if w.nsCount ≤ o ∨ (!w.within t target ∧ (w.ns o).level ≤ w.level t) then w
        else w.modify id fun t => { t with childNs := some o }
  | .kill id => w.modify id fun t => { t with killed := t.killed || !t.dead }
  | .exit id may =>
    match w.alive id with
    | none => w
    | some t => if t.pid = 0 then w else w.exit t may
  | .reap id => { w with tasks := w.tasks.filter fun t => !(t.id = id && t.dead) }

def boot : World where
  tasks := [⟨0, 0, none, none, fun _ => 0, false, false⟩]
  ns := fun _ => ⟨1, none, 1, 0, none, false⟩
  nsCount := 0
  nextPid := 1
  nextId := 1

open List

variable {ns ns' : ℕ → Ns} {count fuel o p : ℕ} {v : Option ℕ}

-- Every namespace is one level below its parent, which exists; the first level has none.
def Levelled (ns : ℕ → Ns) (count : ℕ) : Prop :=
  ∀ o < count, (ns o).level < maxLevel ∧
    (((ns o).parent = none ∧ (ns o).level = 1) ∨
      ∃ p < count, (ns o).parent = some p ∧ (ns o).level = (ns p).level + 1)

def Known (count : ℕ) (v : Option ℕ) : Prop := ∀ o, v = some o → o < count

section

variable (h : Levelled ns count)

include h

theorem Levelled.known_parent (ho : o < count) :
    Known count (ns o).parent := by
  intro p hp
  cases (h o ho).2 with
  | inl hnone =>
    rw [hnone.1] at hp
    cases hp
  | inr hsome =>
    obtain ⟨q, hq, hparent, -⟩ := hsome
    rw [hparent] at hp
    cases hp
    exact hq

theorem Levelled.level_parent (ho : o < count)
    (hp : (ns o).parent = some p) : (ns o).level = (ns p).level + 1 := by
  cases (h o ho).2 with
  | inl hnone =>
    rw [hnone.1] at hp
    cases hp
  | inr hsome =>
    obtain ⟨q, -, hparent, hlevel⟩ := hsome
    rw [hparent] at hp
    cases hp
    exact hlevel

theorem Levelled.level_pos (ho : o < count) : 1 ≤ (ns o).level := by
  cases (h o ho).2 with
  | inl hnone => omega
  | inr hsome =>
    omega

theorem mem_chainOf_lt (hv : Known count v) (ho : o ∈ chainOf ns fuel v) :
    o < count := by
  induction fuel generalizing v with
  | zero => cases ho
  | succ fuel ih =>
    cases v with
    | none => cases ho
    | some q =>
      have hq : q < count := hv q rfl
      simp only [chainOf, mem_cons] at ho
      cases ho with
      | inl heq => exact heq ▸ hq
      | inr hrest => exact ih (h.known_parent hq) hrest

theorem level_le_of_mem_chainOf (hp : p < count)
    (ho : o ∈ chainOf ns fuel (some p)) : (ns o).level ≤ (ns p).level := by
  induction fuel generalizing p with
  | zero => cases ho
  | succ fuel ih =>
    simp only [chainOf, mem_cons] at ho
    cases ho with
    | inl heq => exact heq ▸ Nat.le_refl _
    | inr hrest =>
      cases hparent : (ns p).parent with
      | none =>
        rw [hparent] at hrest
        cases fuel <;> cases hrest
      | some q =>
        rw [hparent] at hrest
        have hle := ih (h.known_parent hp q hparent) hrest
        have hlevel := h.level_parent hp hparent
        omega

theorem nodup_levels (hv : Known count v) :
    ((chainOf ns fuel v).map fun o => (ns o).level).Nodup := by
  induction fuel generalizing v with
  | zero => exact nodup_nil
  | succ fuel ih =>
    cases v with
    | none => exact nodup_nil
    | some q =>
      have hq : q < count := hv q rfl
      simp only [chainOf, map_cons, nodup_cons]
      refine ⟨?_, ih (h.known_parent hq)⟩
      intro hmem
      obtain ⟨o, ho, hlevel⟩ := mem_map.mp hmem
      cases hparent : (ns q).parent with
      | none =>
        rw [hparent] at ho
        cases fuel <;> cases ho
      | some p =>
        rw [hparent] at ho
        have hle := level_le_of_mem_chainOf h (h.known_parent hq p hparent) ho
        have hstep := h.level_parent hq hparent
        omega

theorem chainOf_fuel (hv : Known count v)
    (hfuel : ∀ o, v = some o → (ns o).level ≤ fuel) :
    chainOf ns (fuel + 1) v = chainOf ns fuel v := by
  induction fuel generalizing v with
  | zero =>
    cases v with
    | none => rfl
    | some o =>
      have hpos := h.level_pos (hv o rfl)
      have hle := hfuel o rfl
      omega
  | succ fuel ih =>
    cases v with
    | none => rfl
    | some o =>
      have ho := hv o rfl
      rw [chainOf, chainOf, ih (h.known_parent ho)]
      intro p hp
      have hstep := h.level_parent ho hp
      have hle := hfuel o rfl
      omega

theorem chainOf_congr (hv : Known count v)
    (hparent : ∀ o < count, (ns' o).parent = (ns o).parent) :
    chainOf ns' fuel v = chainOf ns fuel v := by
  induction fuel generalizing v with
  | zero => rfl
  | succ fuel ih =>
    cases v with
    | none => rfl
    | some o =>
      have ho := hv o rfl
      rw [chainOf, chainOf, hparent o ho, ih (h.known_parent ho)]

end

section Assign

variable {pid id : ℕ} {os : List ℕ} {acc : (ℕ → Ns) × (ℕ → ℤ)}

def Ns.bump (n : Ns) (pid id : ℕ) : Ns :=
  { n with
    nextNr := n.nextNr + 1
    initPid := if int32 n.nextNr = 1 then pid else n.initPid
    init := if int32 n.nextNr = 1 then some id else n.init }

theorem foldl_assign_ns (hos : os.Nodup) (o : ℕ) : (os.foldl (assignStep pid id) acc).1 o =
    if o ∈ os then (acc.1 o).bump pid id else acc.1 o := by
  induction os generalizing acc with
  | nil => simp
  | cons a os ih =>
    obtain ⟨ha, hos⟩ := nodup_cons.mp hos
    rw [foldl_cons, ih hos]
    by_cases hoa : o = a
    · subst hoa
      simp [ha, assignStep, Ns.bump]
    · simp [hoa, assignStep]

theorem level_assignStep (a o : ℕ) : ((assignStep pid id acc a).1 o).level = (acc.1 o).level := by
  by_cases hoa : o = a
  · subst hoa
    simp [assignStep]
  · simp [assignStep, hoa]

theorem foldl_assign_other {l : ℕ} (hl : ∀ o ∈ os, (acc.1 o).level ≠ l) :
    (os.foldl (assignStep pid id) acc).2 l = acc.2 l := by
  induction os generalizing acc with
  | nil => rfl
  | cons a os ih =>
    rw [foldl_cons, ih]
    · have ha := hl a mem_cons_self
      simp only [assignStep]
      split
      · exact Function.update_of_ne ha.symm _ _
      · rfl
    · intro o ho
      rw [level_assignStep]
      exact hl o (mem_cons_of_mem a ho)

theorem foldl_assign_upid (hlevels : (os.map fun o => (acc.1 o).level).Nodup)
    (hmax : ∀ o ∈ os, (acc.1 o).level < maxLevel) (ho : o ∈ os) :
    (os.foldl (assignStep pid id) acc).2 (acc.1 o).level = int32 (acc.1 o).nextNr := by
  induction os generalizing acc with
  | nil => cases ho
  | cons a os ih =>
    rw [map_cons, nodup_cons] at hlevels
    obtain ⟨ha, hrest⟩ := hlevels
    rw [foldl_cons]
    cases mem_cons.mp ho with
    | inl hoa =>
      subst hoa
      rw [foldl_assign_other]
      · simp [assignStep, hmax o mem_cons_self]
      · intro q hq hlevel
        rw [level_assignStep] at hlevel
        exact ha (mem_map.mpr ⟨q, hq, hlevel⟩)
    | inr hos =>
      have hoa : o ≠ a := by
        rintro rfl
        exact ha (mem_map.mpr ⟨o, hos, rfl⟩)
      have hsame : (assignStep pid id acc a).1 o = acc.1 o := by simp [assignStep, hoa]
      have hnext : (os.foldl (assignStep pid id) (assignStep pid id acc a)).2
          ((assignStep pid id acc a).1 o).level = int32 ((assignStep pid id acc a).1 o).nextNr := by
        refine ih ?_ ?_ hos
        · simpa only [level_assignStep] using hrest
        · intro q hq
          rw [level_assignStep]
          exact hmax q (mem_cons_of_mem a hq)
      rwa [hsame] at hnext

end Assign

theorem int32_of_le {n : ℕ} (h : n ≤ intMax) : int32 n = n := by
  have hlt : n < 4294967296 := Nat.lt_of_le_of_lt h (by decide)
  rw [int32, Nat.mod_eq_of_lt hlt, if_pos h]

theorem int32_succ_intMax : int32 (intMax + 1) < 0 := by
  decide

end DosKernel.PidNs

import DosKernel.Cgroup.Files
import DosKernel.Lib.Run
import DosKernel.Sched.Task

namespace DosKernel.Cgroup

open DosKernel.Sched
open Function (update update_of_ne update_self)

-- `cgroup` is `none` in the root. Not in the source: `frozenBy`, whose freeze last stopped it.
structure Task (N : Type) where
  tgid : ℕ := 0
  ppid : ℕ := 0
  survivesParent : Bool := false
  dead : Bool := false
  userTask : Bool := false
  isIdle : Bool := false
  cgroup : Option N := none
  stopPending : Bool := false
  stopped : Bool := false
  killPending : Bool := false
  swappedPages : Bool := false
  swapBusy : Bool := false
  frozenBy : Option N := none

-- Nodes other than the root are named by `N`, the root is `none`; tasks are pids, in ring order.
structure State (N : Type) where
  nodes : List N
  parent : N → Option N
  subtree : Option N → Finset Controller
  nchildren : Option N → ℕ
  frozen : Option N → Bool
  table : List ℕ
  task : ℕ → Task N

-- Who writes: the current task, whom it may signal, and whom `swap_restore_task` brings back.
structure Caller where
  pid : ℕ
  may : ℕ → Bool
  restore : ℕ → Bool

namespace State

variable {N : Type} [DecidableEq N]

-- `cgroupfs_mount` on a machine whose only task is the boot task.
def boot : State N where
  nodes := []
  parent _ := none
  subtree g := if g = none then ctlAll else ∅
  nchildren _ := 0
  frozen _ := false
  table := [0]
  task _ := { isIdle := true }

def setTask (s : State N) (t : ℕ) (k : Task N) : State N := { s with task := update s.task t k }

def available (s : State N) : Option N → Finset Controller
  | none => ctlAll
  | some n => s.subtree (s.parent n)

def controllersText (s : State N) (g : Option N) : Text := ctlText (s.available g)

def subtreeText (s : State N) (g : Option N) : Text := ctlText (s.subtree g)

def taskTgid (s : State N) (t : ℕ) : ℕ := if (s.task t).tgid = 0 then t else (s.task t).tgid

def taskFind (s : State N) (pid : Option ℕ) : Option ℕ := pid.filter (· ∈ s.table)

def scan (s : State N) (g : Option N) : List ℕ :=
  s.table.filter fun t => !(s.task t).dead && decide ((s.task t).cgroup = g)

def isLeader (s : State N) (t : ℕ) : Bool := decide ((s.task t).tgid = 0 ∨ (s.task t).tgid = t)

def scanPids (s : State N) (g : Option N) : List ℕ := ((s.scan g).filter s.isLeader).take 64

def scanAll (s : State N) (g : Option N) : List ℕ := (s.scan g).take 256

def resumed (k : Task N) : Task N :=
  if k.swapBusy then { k with stopPending := false }
  else { k with
    stopPending := false
    stopped := false }

def onTask (s : State N) (t : ℕ) (f : Task N → Task N) : State N :=
  if t ∈ s.table then s.setTask t (f (s.task t)) else s

def killed (c : Caller) (t : ℕ) (k : Task N) : Task N :=
  if t = 0 ∨ k.isIdle ∨ k.dead ∨ c.may t = false then k
  else { resumed k with killPending := true }

def taskKill (c : Caller) (s : State N) (t : ℕ) : State N := s.onTask t (killed c t)

-- `task_stop`, asked for by the freeze of `g`.
def stopAsked (c : Caller) (g : Option N) (t : ℕ) (k : Task N) : Task N :=
  if t = 0 ∨ k.isIdle ∨ k.dead ∨ c.may t = false ∨ k.userTask = false then k
  else { k with
    stopPending := true
    frozenBy := g }

def taskStop (c : Caller) (g : Option N) (s : State N) (t : ℕ) : State N :=
  s.onTask t (stopAsked c g t)

-- `task_cont`: an evicted task gets its pages back first.
def continued (c : Caller) (t : ℕ) (k : Task N) : Task N :=
  if k.dead ∨ c.may t = false then k
  else if k.swappedPages then
    if k.stopped = false ∨ k.swapBusy ∨ c.restore t = false then k
    else resumed { k with swappedPages := false }
  else if k.swapBusy then k
  else resumed k

def taskCont (c : Caller) (s : State N) (t : ℕ) : State N := s.onTask t (continued c t)

def freeze (c : Caller) (s : State N) (g : Option N) (on : Bool) : State N :=
  let s' := { s with frozen := update s.frozen g on }
  if on then (s.scanAll g).foldl (taskStop c g) s' else (s.scanAll g).foldl (taskCont c) s'

-- The tasks that `move_fn` moves. A thread id of 0 falls back to the group.
def moves (s : State N) (tgid tid : ℕ) : List ℕ :=
  s.table.filter fun t => !(s.task t).dead &&
    if tid = 0 then decide (s.taskTgid t = tgid) else decide (t = tid)

def named (c : Caller) (s : State N) (threads : Bool) (text : Text) : List ℕ :=
  match parseInt text with
  | none => []
  | some v =>
    let pid := if v = 0 then some (if threads then c.pid else s.taskTgid c.pid) else asPid v
    match s.taskFind pid with
    | none => []
    | some t => if threads then s.moves 0 t else s.moves (s.taskTgid t) 0

def move (s : State N) (g : Option N) (ts : List ℕ) : State N :=
  { s with task := fun t => if t ∈ ts then { s.task t with cgroup := g } else s.task t }

def writeMembers (c : Caller) (s : State N) (g : Option N) (threads : Bool) (text : Text) :
    State N × Bool :=
  (s.move g (s.named c threads text), !(s.named c threads text).isEmpty)

-- `cg_write`, and whether it accepts. The limits stored by the other files are not kept.
def cgWrite (c : Caller) (s : State N) (g : Option N) (k : Kind) (buf : Text) : State N × Bool :=
  if k.rw = false then (s, false)
  else
    let text := writeText buf
    match k with
    | .subtree =>
      match setSubtree (s.available g) (s.subtree g) text with
      | .error _ => (s, false)
      | .ok m => ({ s with subtree := update s.subtree g m }, true)
    | .procs => s.writeMembers c g false text
    | .threads => s.writeMembers c g true text
    | .kill =>
      if text = "1".toList then ((s.scanPids g).foldl (taskKill c) s, true) else (s, false)
    | .freeze =>
      if text = "1".toList then (if s.frozen g then s else s.freeze c g true, true)
      else if text = "0".toList then (if s.frozen g then s.freeze c g false else s, true)
      else (s, false)
    | .type => (s, decide (text = "domain".toList))
    | _ => (s, true)

def HasNode (s : State N) (g : Option N) : Prop := ∀ n ∈ g, n ∈ s.nodes

instance (s : State N) (g : Option N) : Decidable (s.HasNode g) :=
  inferInstanceAs (Decidable (∀ n ∈ g, n ∈ s.nodes))

def HasFile (s : State N) (g : Option N) (k : Kind) : Prop :=
  s.HasNode g ∧ (g = none → k.root = true)

instance (s : State N) (g : Option N) (k : Kind) : Decidable (s.HasFile g k) :=
  inferInstanceAs (Decidable (_ ∧ _))

-- `cg_mkdir`: `n` is the new node.
def cgMkdir (s : State N) (p : Option N) (n : N) (name : Text) : State N :=
  if name.length > 255 ∨ Kind.all.any (fun k => k.name = name) then s
  else { s with
    nodes := n :: s.nodes
    parent := update s.parent n p
    subtree := update s.subtree (some n) ∅
    nchildren := update (update s.nchildren (some n) 0) p (s.nchildren p + 1)
    frozen := update s.frozen (some n) false }

-- `cg_unlink`: `opened` says that a control file of the node is open.
def cgUnlink (s : State N) (n : N) (opened : Bool) : State N :=
  if s.nchildren (some n) > 0 ∨ opened ∨ s.scan (some n) ≠ [] then s
  else { s with
    nodes := s.nodes.erase n
    nchildren := update s.nchildren (s.parent n) (s.nchildren (s.parent n) - 1) }

def fork (s : State N) (creator child : ℕ) (thread : Bool) : State N :=
  { s with
    table := masterInsert s.table child
    task := update s.task child
      { tgid := if thread then s.taskTgid creator else 0
        ppid := s.taskTgid creator
        cgroup := (s.task creator).cgroup } }

def adopt (s : State N) (us : List ℕ) (adopter : ℕ) : State N :=
  { s with task := fun u => if u ∈ us then { s.task u with ppid := adopter } else s.task u }

def children (s : State N) (t : ℕ) (detached : Bool) : List ℕ :=
  s.table.filter fun u => (s.task u).ppid = t ∧ u ≠ t ∧ (s.task u).dead = false ∧
    (s.task u).survivesParent = detached

-- `task_exit_code`: children that do not outlive their parent are killed, up to `KILLTREE_MAX`.
def doomed (s : State N) (t : ℕ) : List ℕ :=
  if t = 0 ∨ (s.task t).isIdle then [] else (s.children t false).take 64

def exit (c : Caller) (s : State N) (t adopter : ℕ) : State N :=
  let heirs := if t = 0 ∨ (s.task t).isIdle then [] else s.children t true
  let s' := (s.doomed t).foldl (taskKill c) (s.adopt heirs adopter)
  s'.setTask t { s'.task t with dead := true }

def reap (s : State N) (t adopter : ℕ) : State N :=
  { s.adopt (s.table.filter fun u => (s.task u).ppid = t ∧ u ≠ t) adopter with
    table := s.table.erase t }

def OnlyTasks (s s' : State N) : Prop := s' = { s with task := s'.task }

section Frames

variable {s : State N} {c : Caller} {g : Option N}

omit [DecidableEq N]

theorem foldl_onTask {f : ℕ → Task N → Task N} (hf : ∀ t k, f t (f t k) = f t k) (ts : List ℕ)
    (hts : ∀ t ∈ ts, t ∈ s.table) :
    ts.foldl (fun s t => s.onTask t (f t)) s =
      { s with task := fun u => if u ∈ ts then f u (s.task u) else s.task u } := by
  induction ts generalizing s with
  | nil => simp
  | cons t ts ih =>
    have hstep : s.onTask t (f t) = s.setTask t (f t (s.task t)) :=
      if_pos (hts t List.mem_cons_self)
    have htail : ∀ u ∈ ts, u ∈ (s.setTask t (f t (s.task t))).table := fun u hu =>
      hts u (List.mem_cons_of_mem t hu)
    rw [List.foldl_cons, hstep, ih htail]
    simp only [setTask, State.mk.injEq, true_and, List.mem_cons]
    funext u
    by_cases hut : u = t
    · subst hut
      simp only [update_self, hf, ite_self, true_or, if_true]
    · simp only [update_of_ne hut, hut, false_or]

theorem mem_table_of_mem_scan [DecidableEq N] {t : ℕ} (ht : t ∈ s.scan g) : t ∈ s.table :=
  (List.mem_filter.mp ht).1

theorem killed_killed (t : ℕ) (k : Task N) : killed c t (killed c t k) = killed c t k := by
  by_cases hk : t = 0 ∨ k.isIdle ∨ k.dead ∨ c.may t = false
  · simp only [killed, if_pos hk]
  · cases hb : k.swapBusy <;> simp [killed, resumed, hk, hb]

theorem foldl_taskKill {ts : List ℕ} (hts : ∀ t ∈ ts, t ∈ s.table) :
    ts.foldl (taskKill c) s =
      { s with task := fun t => if t ∈ ts then killed c t (s.task t) else s.task t } :=
  foldl_onTask killed_killed _ hts

theorem mem_table_of_mem_doomed {t u : ℕ} (hu : u ∈ s.doomed t) : u ∈ s.table := by
  rw [doomed] at hu
  split at hu
  · cases hu
  · exact List.mem_of_mem_filter (List.mem_of_mem_take hu)

theorem exit_onlyTasks {t adopter : ℕ} : OnlyTasks s (s.exit c t adopter) := by
  have hkids : ∀ u ∈ s.doomed t, u ∈ s.table := fun u => mem_table_of_mem_doomed
  rw [State.exit]
  dsimp only
  rw [foldl_taskKill (s := s.adopt _ adopter) hkids]
  rfl

theorem stopAsked_stopAsked (t : ℕ) (k : Task N) :
    stopAsked c g t (stopAsked c g t k) = stopAsked c g t k := by
  by_cases hk : t = 0 ∨ k.isIdle ∨ k.dead ∨ c.may t = false ∨ k.userTask = false
  · simp only [stopAsked, if_pos hk]
  · simp only [stopAsked, if_neg hk]

theorem continued_continued (t : ℕ) (k : Task N) :
    continued c t (continued c t k) = continued c t k := by
  by_cases hk : k.dead ∨ c.may t = false
  · simp only [continued, if_pos hk]
  by_cases hs : k.swappedPages
  · by_cases hr : k.stopped = false ∨ k.swapBusy ∨ c.restore t = false
    · simp only [continued, if_neg hk, if_pos hs, if_pos hr]
    · push Not at hr
      simp [continued, resumed, hk, hs, hr.1, hr.2.1, hr.2.2]
  · cases hb : k.swapBusy <;> simp [continued, resumed, hk, hs, hb]

end Frames

variable {c : Caller} {g : Option N}

theorem mem_table_of_mem_scanPids {s : State N} {t : ℕ} (ht : t ∈ s.scanPids g) : t ∈ s.table :=
  mem_table_of_mem_scan (List.mem_of_mem_filter (List.mem_of_mem_take ht))

theorem freeze_eq (s : State N) (on : Bool) :
    s.freeze c g on =
      { s with
        frozen := update s.frozen g on
        task := fun t =>
          if t ∈ s.scanAll g then
            if on then stopAsked c g t (s.task t) else continued c t (s.task t)
          else s.task t } := by
  have hall : ∀ t ∈ s.scanAll g, t ∈ s.table := fun t ht =>
    mem_table_of_mem_scan (List.mem_of_mem_take ht)
  cases on with
  | true => exact foldl_onTask stopAsked_stopAsked _ hall
  | false => exact foldl_onTask continued_continued _ hall

theorem cgWrite_cases (s : State N) (k : Kind) (buf : Text) :
    OnlyTasks s (s.cgWrite c g k buf).1 ∨
    (k = .subtree ∧ ∃ m, setSubtree (s.available g) (s.subtree g) (writeText buf) = .ok m ∧
      s.cgWrite c g k buf = ({ s with subtree := update s.subtree g m }, true)) ∨
    (k = .freeze ∧ ∃ on, s.frozen g = !on ∧ s.cgWrite c g k buf = (s.freeze c g on, true)) := by
  cases k with
  | subtree =>
    cases hm : setSubtree (s.available g) (s.subtree g) (writeText buf) with
    | error e =>
      refine .inl ?_
      simp only [cgWrite, Kind.rw, Bool.true_eq_false, if_false, hm]
      rfl
    | ok m =>
      refine .inr (.inl ⟨rfl, m, rfl, ?_⟩)
      simp only [cgWrite, Kind.rw, Bool.true_eq_false, if_false, hm]
  | procs => exact .inl rfl
  | threads => exact .inl rfl
  | kill =>
    refine .inl ?_
    simp only [cgWrite, Kind.rw, Bool.true_eq_false, if_false]
    split
    · rw [foldl_taskKill fun t => mem_table_of_mem_scanPids]
      rfl
    · rfl
  | freeze =>
    simp only [cgWrite, Kind.rw, Bool.true_eq_false, if_false]
    split
    · cases hf : s.frozen g with
      | true => exact .inl rfl
      | false => exact .inr (.inr ⟨trivial, true, rfl, rfl⟩)
    · split
      · cases hf : s.frozen g with
        | true => exact .inr (.inr ⟨trivial, false, rfl, rfl⟩)
        | false => exact .inl rfl
      · exact .inl rfl
  | _ => exact .inl rfl

end State

inductive Act (N : Type)
  -- `memory` is whether there is room for the node.
  | mkdir (p : Option N) (n : N) (name : Text) (memory : Bool)
  | rmdir (n : N) (opened : Bool)
  | write (c : Caller) (g : Option N) (k : Kind) (buf : Text)
  | fork (creator child : ℕ) (thread : Bool)
  | start (t : ℕ)
  | stopSelf (t : ℕ)
  -- `task_kill`, by whoever may: a signal, `kill_tree_impl`, `ns_pid_init_died`.
  | kill (c : Caller) (t : ℕ)
  -- `setsid`, `setpgid`, or a parent other than the creator.
  | detach (t ppid : ℕ) (survives : Bool)
  | exit (c : Caller) (t adopter : ℕ)
  | reap (t adopter : ℕ)

namespace State

variable {N : Type} [DecidableEq N]

def Alive (s : State N) (t : ℕ) : Prop := t ∈ s.table ∧ (s.task t).dead = false

instance (s : State N) (t : ℕ) : Decidable (s.Alive t) := inferInstanceAs (Decidable (_ ∧ _))

def step (s : State N) : Act N → State N
  | .mkdir p n name memory =>
    if s.HasNode p ∧ n ∉ s.nodes ∧ memory then s.cgMkdir p n name else s
  | .rmdir n opened => if n ∈ s.nodes then s.cgUnlink n opened else s
  | .write c g k buf => if s.HasFile g k then (s.cgWrite c g k buf).1 else s
  | .fork creator child thread =>
    if s.Alive creator ∧ child ∉ s.table then s.fork creator child thread else s
  | .start t => if s.Alive t then s.setTask t { s.task t with userTask := true } else s
  | .stopSelf t =>
    if s.Alive t ∧ (s.task t).stopPending ∧ (s.task t).killPending = false ∧
        (s.task t).isIdle = false ∧ (s.task t).userTask ∧ (s.task t).stopped = false then
      s.setTask t { s.task t with
        stopPending := false
        stopped := true }
    else s
  | .kill c t => s.taskKill c t
  | .detach t ppid survives =>
    if s.Alive t then s.setTask t { s.task t with
        ppid := ppid
        survivesParent := survives }
    else s
  | .exit c t adopter => if s.Alive t then s.exit c t adopter else s
  | .reap t adopter => if t ∈ s.table ∧ (s.task t).dead then s.reap t adopter else s

end State

end DosKernel.Cgroup

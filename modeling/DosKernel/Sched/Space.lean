import DosKernel.Lib.Run
import DosKernel.Sched.Task
import Mathlib.Logic.Function.Basic

namespace DosKernel.Sched

open DosKernel.Lib
open Function (update)

-- The tasks of the master ring. `start`: the space a task that has never run will adopt, `true` for
-- a thread; `host`: the space a kernel task made in a `proc_exec_common` that has not returned.
structure Spaces (T S : Type) where
  table : List T
  state : T → TaskState
  mm : T → Option S
  mmShared : T → Bool
  userTask : T → Bool
  start : T → Option (S × Bool)
  host : T → Option S
  made : List T
  created : List S
  destroyed : List S

namespace Spaces

variable {T S : Type} [DecidableEq T] [DecidableEq S]

def boot : Spaces T S where
  table := []
  state _ := .runnable
  mm _ := none
  mmShared _ := false
  userTask _ := false
  start _ := none
  host _ := none
  made := []
  created := []
  destroyed := []

-- `spawn_common_ex`: the task has no space of its own until its bootstrap runs.
def spawn (s : Spaces T S) (t : T) (start : Option (S × Bool)) : Spaces T S :=
  { s with
    table := masterInsert s.table t
    state := update s.state t .runnable
    mm := update s.mm t none
    mmShared := update s.mmShared t (start.any fun p => p.2)
    userTask := update s.userTask t false
    start := update s.start t start
    host := update s.host t none
    made := t :: s.made }

-- `fork_child_bootstrap`, `user_task_bootstrap` and `clone_thread_bootstrap`.
def bootstrap (s : Spaces T S) (t : T) (a : S) (thread : Bool) : Spaces T S :=
  { s with
    mm := update s.mm t (some a)
    mmShared := if thread then update s.mmShared t true else s.mmShared
    userTask := update s.userTask t true
    start := update s.start t none }

-- The space passes to the first of the tasks that uses it, and is destroyed if there is none.
def handOn (s : Spaces T S) (a : S) (tasks : List T) : Spaces T S :=
  match tasks.find? fun c => decide (s.mm c = some a) with
  | some c => { s with mmShared := update s.mmShared c false }
  | none => { s with destroyed := a :: s.destroyed }

def others (s : Spaces T S) (t : T) : List T :=
  s.table.filter fun c => decide (c ≠ t) && s.userTask c

def swapMm (s : Spaces T S) (t : T) (new : S) : Spaces T S :=
  { s with
    mm := update s.mm t (some new)
    mmShared := update s.mmShared t false
    created := new :: s.created }

-- `proc_execve_env_k` from its point of no return on, with `task_exec_detach`.
def exec (s : Spaces T S) (t : T) (old new : S) : Spaces T S :=
  if s.mmShared t then s.swapMm t new else (s.swapMm t new).handOn old (s.others t)

-- `proc_exec_common` up to its entry into user mode, on a kernel task.
def enter (s : Spaces T S) (t : T) (a : S) : Spaces T S :=
  { s with
    mm := update s.mm t (some a)
    host := update s.host t (some a)
    created := a :: s.created }

def dropMm (s : Spaces T S) (t : T) : Spaces T S :=
  { s with
    mm := update s.mm t none
    host := update s.host t none }

-- The rest of `proc_exec_common`, with `task_space_handoff`.
def leave (s : Spaces T S) (t : T) (a : S) : Spaces T S := (s.dropMm t).handOn a (s.others t)

def unlink (s : Spaces T S) (t : T) : Spaces T S := { s with table := s.table.erase t }

def reap (s : Spaces T S) (t : T) : Spaces T S :=
  match s.mm t with
  | none => s.unlink t
  | some a =>
    if s.userTask t ∧ s.mmShared t = false then (s.unlink t).handOn a (s.unlink t).table
    else s.unlink t

end Spaces

-- `start` is the first time that a new task runs.
inductive SpaceAct (T S : Type)
  | kernelThread (t : T)
  | process (t : T) (a : S)
  -- A space that is given up before a task gets it.
  | abandoned (a : S)
  | thread (t creator : T)
  | start (t : T)
  | exec (t : T) (new : S)
  | enter (t : T) (a : S)
  | leave (t : T)
  | exit (t : T)
  | reap (t : T)

namespace Spaces

variable {T S : Type} [DecidableEq T] [DecidableEq S]

def Runs (s : Spaces T S) (t : T) : Prop :=
  t ∈ s.table ∧ s.state t ≠ .dead ∧ s.start t = none

instance (s : Spaces T S) (t : T) : Decidable (s.Runs t) :=
  inferInstanceAs (Decidable (_ ∧ _ ∧ _))

def step (s : Spaces T S) : SpaceAct T S → Spaces T S
  | .kernelThread t => if t ∈ s.made then s else s.spawn t none
  | .process t a =>
    if t ∈ s.made ∨ a ∈ s.created then s
    else { s.spawn t (some (a, false)) with created := a :: s.created }
  | .abandoned a =>
    if a ∈ s.created then s
    else { s with
      created := a :: s.created
      destroyed := a :: s.destroyed }
  | .thread t creator =>
    match s.mm creator with
    | none => s
    | some a => if t ∈ s.made ∨ ¬ s.Runs creator then s else s.spawn t (some (a, true))
  | .start t =>
    match s.start t with
    | none => s
    | some (a, thread) => if t ∈ s.table then s.bootstrap t a thread else s
  | .exec t new =>
    match s.mm t with
    | none => s
    | some old => if s.Runs t ∧ new ∉ s.created then s.exec t old new else s
  | .enter t a =>
    if s.Runs t ∧ s.userTask t = false ∧ s.mm t = none ∧ a ∉ s.created then s.enter t a else s
  | .leave t =>
    match s.host t with
    | none => s
    | some a => if s.Runs t then s.leave t a else s
  | .exit t => if s.Runs t then { s with state := update s.state t .dead } else s
  | .reap t => if t ∈ s.table ∧ s.state t = .dead then s.reap t else s

end Spaces

end DosKernel.Sched

import DosKernel.Lib.Run
import DosKernel.Sched.Task
import Mathlib.Data.Int.Notation
import Mathlib.Data.List.Nodup
import Mathlib.Logic.Function.Basic

namespace DosKernel.Sched

open DosKernel.Lib
open Function (update)

-- What a `task_wait_ex2` will return; the call itself holds only the pid and the code.
structure Report (T : Type) where
  child : T
  pid : ℕ
  code : ℤ
  deriving DecidableEq

-- The critical sections of `task_reap`: the claim, the unlinking after the checks, the freeing.
inductive ReapStage
  | claimed
  | checked
  | unlinked
  deriving DecidableEq

-- Where a task stands: about to reap the child it found, refused by `task_reap`, or inside it,
-- called by its wait or by a reaper of its own.
inductive Phase (T : Type)
  | idle
  | collect (r : Report T) (tries : ℕ)
  | refused (r : Report T) (tries : ℕ)
  | reap (stage : ReapStage) (t : T) (wait : Option (Report T × ℕ))
  deriving DecidableEq

def Phase.report {T : Type} : Phase T → Option (Report T)
  | .idle => none
  | .collect r _ => some r
  | .refused r _ => some r
  | .reap _ _ wait => wait.map Prod.fst

def Phase.target {T : Type} : Phase T → Option (ReapStage × T)
  | .reap stage t _ => some (stage, t)
  | _ => none

-- The tasks of kernel/core/task.c, in ring order. Not in the source: `made`, `reports`, `freed`.
structure Procs (T : Type) where
  table : List T
  nextPid : ℕ
  pid : T → ℕ
  ppid : T → ℕ
  tgid : T → ℕ
  state : T → TaskState
  exitCode : T → ℤ
  reaping : T → Bool
  reapOwned : T → Bool
  linuxAbi : T → Bool
  survivesParent : T → Bool
  onCpu : T → Bool
  phase : T → Phase T
  made : List T
  reports : List (Report T)
  freed : List T

structure Spawn where
  ppid : ℕ
  tgid : ℕ
  reapOwned : Bool
  linuxAbi : Bool
  survivesParent : Bool

namespace Procs

variable {T : Type} [DecidableEq T]

def boot : Procs T where
  table := []
  nextPid := 0
  pid _ := 0
  ppid _ := 0
  tgid _ := 0
  state _ := .runnable
  exitCode _ := 0
  reaping _ := false
  reapOwned _ := false
  linuxAbi _ := false
  survivesParent _ := false
  onCpu _ := false
  phase _ := .idle
  made := []
  reports := []
  freed := []

def intMax : ℕ := 2147483647

-- `spawn_common_ex`: a pid is taken from a counter that starts again at 1.
def spawn (s : Procs T) (t : T) (c : Spawn) : Procs T :=
  { s with
    table := masterInsert s.table t
    nextPid := if s.nextPid = intMax then 1 else s.nextPid + 1
    pid := update s.pid t s.nextPid
    ppid := update s.ppid t c.ppid
    tgid := update s.tgid t c.tgid
    state := update s.state t .runnable
    exitCode := update s.exitCode t 0
    reaping := update s.reaping t false
    reapOwned := update s.reapOwned t c.reapOwned
    linuxAbi := update s.linuxAbi t c.linuxAbi
    survivesParent := update s.survivesParent t c.survivesParent
    onCpu := update s.onCpu t true
    phase := update s.phase t .idle
    made := t :: s.made }

-- `adopt_locked` for the children of `t` that `which` picks; `init` is the reaper's pid.
def adopt (s : Procs T) (t : T) (which : T → Bool) (adopter init : ℕ) : Procs T :=
  let moves := fun c =>
    decide (c ∈ s.table) && decide (s.ppid c = s.pid t) && decide (c ≠ t) && which c
  { s with
    ppid := fun c => if moves c then adopter else s.ppid c
    reapOwned := fun c =>
      if moves c && decide (adopter = init) && s.linuxAbi c then false else s.reapOwned c }

-- `task_exit_code`: children that outlive their parent are re-parented, the others only killed.
def exit (s : Procs T) (t : T) (code : ℤ) (adopter init : ℕ) : Procs T :=
  let out := s.adopt t (fun c => s.survivesParent c && decide (s.state c ≠ .dead)) adopter init
  { out with
    exitCode := update s.exitCode t code
    state := update s.state t .dead }

def taskTgid (s : Procs T) (t : T) : ℕ := if s.tgid t ≠ 0 then s.tgid t else s.pid t

def taskFind (s : Procs T) (pid : ℕ) : Option T := s.table.find? fun c => decide (s.pid c = pid)

-- A child of the process `me` that the wait asks for; a thread is none.
def isChild (s : Procs T) (me : ℕ) (want : Option ℕ) (c : T) : Bool :=
  decide (s.ppid c = me) && decide (want = none ∨ want = some (s.pid c)) &&
    !(decide (s.tgid c ≠ 0) && decide (s.tgid c ≠ s.pid c))

def waitScan (s : Procs T) (me : ℕ) (want : Option ℕ) : Option T :=
  s.table.find? fun c => s.isChild me want c && decide (s.state c = .dead)

def reapClaim (s : Procs T) (pid : ℕ) : Option T :=
  match s.taskFind pid with
  | none => none
  | some t => if s.state t = .dead ∧ s.reaping t = false then some t else none

def setPhase (s : Procs T) (w : T) (p : Phase T) : Procs T := { s with phase := update s.phase w p }

-- Where a caller of `task_reap` goes on when it returned -1.
def refusal : Option (Report T × ℕ) → Phase T
  | none => .idle
  | some (r, tries) => .refused r tries

-- The second section of `task_reap`: the children are re-parented and the task leaves the ring.
def unlink (s : Procs T) (t : T) (adopter init : ℕ) : Procs T :=
  let out := s.adopt t (fun _ => true) adopter init
  { out with table := s.table.erase t }

end Procs

-- One critical section, or one access without a lock.
inductive WaitStep (T : Type)
  | spawn (t : T) (c : Spawn)
  | exit (t : T) (code : ℤ) (adopter init : ℕ)
  | offCpu (t : T)
  -- The scan of a wait, in the call itself or after a wake-up.
  | scan (w : T) (want : Option ℕ)
  | collect (w : T)
  -- Its look whether the child is still there after a refusal.
  | recheck (w : T)
  | reap (w : T) (pid : ℕ)
  | check (w : T)
  | unlink (w : T) (adopter init : ℕ)
  | free (w : T)

namespace Procs

variable {T : Type} [DecidableEq T]

-- A task may act: it is in the table, not dead, and not inside another of these calls.
def Acts (s : Procs T) (w : T) : Prop :=
  w ∈ s.table ∧ s.state w ≠ .dead ∧ s.phase w = .idle

instance (s : Procs T) (w : T) : Decidable (s.Acts w) :=
  inferInstanceAs (Decidable (_ ∧ _ ∧ _))

def maxTries : ℕ := 10000

def step (s : Procs T) : WaitStep T → Procs T
  | .spawn t c => if t ∈ s.made then s else s.spawn t c
  | .exit t code adopter init => if s.Acts t then s.exit t code adopter init else s
  | .offCpu t =>
    if s.state t = .dead then { s with onCpu := update s.onCpu t false } else s
  | .scan w want =>
    if s.Acts w then
      match s.waitScan (s.taskTgid w) want with
      | none => s
      | some c =>
        let r : Report T := ⟨c, s.pid c, s.exitCode c⟩
        { s.setPhase w (.collect r 0) with reports := r :: s.reports }
    else s
  | .collect w =>
    match s.phase w with
    | .collect r tries =>
      match s.reapClaim r.pid with
      | none => s.setPhase w (.refused r tries)
      | some t =>
        { s.setPhase w (.reap .claimed t (some (r, tries))) with
          reaping := update s.reaping t true }
    | _ => s
  | .recheck w =>
    match s.phase w with
    | .refused r tries =>
      if s.taskFind r.pid = none ∨ maxTries < tries then s.setPhase w .idle
      else s.setPhase w (.collect r (tries + 1))
    | _ => s
  | .reap w pid =>
    if s.Acts w then
      match s.reapClaim pid with
      | none => s
      | some t =>
        { s.setPhase w (.reap .claimed t none) with
          reaping := update s.reaping t true }
    else s
  | .check w =>
    match s.phase w with
    | .reap .claimed t wait =>
      if s.onCpu t then
        { s.setPhase w (refusal wait) with reaping := update s.reaping t false }
      else s.setPhase w (.reap .checked t wait)
    | _ => s
  | .unlink w adopter init =>
    match s.phase w with
    | .reap .checked t wait =>
      if t ∈ s.table then (s.unlink t adopter init).setPhase w (.reap .unlinked t wait)
      else { s.setPhase w (refusal wait) with reaping := update s.reaping t false }
    | _ => s
  | .free w =>
    match s.phase w with
    | .reap .unlinked t _ => { s.setPhase w .idle with freed := t :: s.freed }
    | _ => s

end Procs

end DosKernel.Sched

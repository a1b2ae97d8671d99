import DosKernel.Lib.Circle
import DosKernel.Lib.Run
import DosKernel.Sched.Task
import Mathlib.Data.Fintype.Basic

namespace DosKernel.Sched

open DosKernel.Lib
open Function (update)

def rqWalkMax : ℕ := 4096

def taskWeightBase : ℕ := 100

-- The run queues of the processors `C`, and what the scheduler reads of the tasks `T`; `load` is
-- `task_load_contrib`.
structure Rqs (T C : Type) where
  links : Links T
  rqHead : C → Option T
  rqCount : C → ℕ
  cpuHome : T → Option C
  state : T → TaskState
  isIdle : T → Bool
  cpuMask : T → C → Bool
  onCpu : T → Bool
  weight : T → ℕ
  deficit : T → ℤ
  skipsLeft : T → ℤ
  load : T → ℕ
  current : C → Option T
  idle : C → Option T
  leaving : C → Option T

namespace Rqs

variable {T C : Type} [DecidableEq T] [DecidableEq C]

-- Before the first enqueue. An idle task carries the processor that owns it in `cpu_home`.
def boot (label : T → Option C) (idle : C → Option T) : Rqs T C where
  links := ⟨fun _ => none, fun _ => none⟩
  rqHead _ := none
  rqCount _ := 0
  cpuHome := label
  state _ := .runnable
  isIdle t := (label t).isSome
  cpuMask _ _ := true
  onCpu _ := false
  weight _ := taskWeightBase
  deficit _ := taskWeightBase
  skipsLeft _ := 0
  load _ := 0
  current := idle
  idle := idle
  leaving _ := none

-- `rq_insert_tail_locked`: refuses a dead task and one that a queue already owns.
def rqInsertTail (s : Rqs T C) (i : C) (t : T) : Rqs T C :=
  if s.state t = .dead then s
  else if s.cpuHome t ≠ none then s
  else
    let owned := { s with cpuHome := update s.cpuHome t (some i) }
    match s.rqHead i with
    | none => { owned with
        rqHead := update s.rqHead i (some t)
        links := s.links.single t
        rqCount := update s.rqCount i (s.rqCount i + 1) }
    | some h => { owned with
        links := s.links.append t h
        rqCount := update s.rqCount i (s.rqCount i + 1) }

def headWithout (s : Rqs T C) (i : C) (t : T) : Option T :=
  if s.rqHead i = some t then
    if s.links.next t = some t then none else s.links.next t
  else s.rqHead i

-- `rq_remove_locked`: unlinks, and gives the ownership back last.
def rqRemove (s : Rqs T C) (i : C) (t : T) : Rqs T C :=
  if s.links.next t = none ∧ s.links.prev t = none ∧ s.rqHead i ≠ some t then s
  else { s with
    rqHead := update s.rqHead i (s.headWithout i t)
    links := (s.links.bypass t).clear t
    rqCount := update s.rqCount i (s.rqCount i - 1)
    cpuHome := update s.cpuHome t none }

def rqRotateToTail (s : Rqs T C) (i : C) (t : T) : Rqs T C :=
  if s.rqHead i = none ∨ s.cpuHome t ≠ some i then s
  else if s.links.next t = none ∨ s.links.prev t = none then s
  else if s.rqHead i = some t ∧ s.links.next t = some t then s
  else
    match s.headWithout i t with
    | none => s
    | some h => { s with
        rqHead := update s.rqHead i (some h)
        links := (s.links.bypass t).append t h }

-- `rq_ring_repair`: closes the ring at the last task reached.
def rqRingRepair (s : Rqs T C) (i : C) (lastGood : Option T) : Rqs T C :=
  match lastGood, s.rqHead i with
  | some w, some h => { s with links := s.links.close w h }
  | _, _ => { s with
      rqHead := update s.rqHead i none
      rqCount := update s.rqCount i 0 }

def rqWalk (s : Rqs T C) (h : T) : List T × Bool := s.links.walk h (rqWalkMax - 1) h

def rqContains (s : Rqs T C) (i : C) (t : T) : Bool :=
  match s.rqHead i with
  | none => false
  | some h => decide (t ∈ (s.rqWalk h).1)

def rqRefreshLocalLoad (s : Rqs T C) (i : C) (measured : T → ℕ) : Rqs T C :=
  match s.rqHead i with
  | none => s
  | some h =>
    let w := s.rqWalk h
    let s1 := { s with load := fun t => if t ∈ w.1 then measured t else s.load t }
    if w.2 then s1 else s1.rqRingRepair i w.1.getLast?

section Pick

variable [Fintype C]

def taskRunningElsewhere (s : Rqs T C) (self : C) (t : T) : Bool :=
  (s.onCpu t && s.current self != some t) || decide (∃ i, i ≠ self ∧ s.current i = some t)

def eligible (s : Rqs T C) (self : C) (t : T) : Bool :=
  decide (s.state t = .runnable) && !s.isIdle t && s.cpuMask t self &&
    !s.taskRunningElsewhere self t

-- One pass of `pick_next_local_locked`: the first one makes a task that owes a skip pay it.
def pickPass (self : C) (first : Bool) : List T → Rqs T C → Rqs T C × Option T
  | [], s => (s, none)
  | t :: ts, s =>
    if s.eligible self t then
      if first ∧ 0 < s.skipsLeft t then
        pickPass self first ts
          { s with skipsLeft := update s.skipsLeft t (s.skipsLeft t - 1) }
      else (s, some t)
    else pickPass self first ts s

def pickNextLocal (s : Rqs T C) (i : C) : Rqs T C × Option T :=
  match s.rqHead i with
  | none => (s, none)
  | some h =>
    let w := s.rqWalk h
    let r := pickPass i true w.1 s
    if r.2.isSome then r
    else if w.2 then pickPass i false w.1 r.1
    else (r.1.rqRingRepair i w.1.getLast?, none)

end Pick

-- `load_steal_one`: the task whose load is closest to the one wanted.
def stealable (s : Rqs T C) (victim dest : C) (t : T) : Bool :=
  decide (s.state t = .runnable) && !s.isIdle t && s.current victim != some t && !s.onCpu t &&
    s.cpuMask t dest

def closest (s : Rqs T C) (victim dest : C) (want max : ℕ) (ts : List T) : ℕ × Option T :=
  ts.foldl (fun best t =>
    let c := s.load t
    let dist := if want < c then c - want else want - c
    if s.stealable victim dest t ∧ c ≤ max ∧ dist < best.1 then (dist, some t) else best)
    (4294967295, none)

def loadStealOne (s : Rqs T C) (victim dest : C) (want max : ℕ) : Rqs T C :=
  match s.rqHead victim with
  | none => s
  | some h =>
    let w := s.rqWalk h
    if w.2 then
      match (s.closest victim dest want max w.1).2 with
      | some t => (s.rqRemove victim t).rqInsertTail dest t
      | none => s
    else s.rqRingRepair victim w.1.getLast?

-- A running task whose budget is spent gets a new one, owes skips if its weight buys less than a
-- turn, and goes to the ring's end.
def replenish (s : Rqs T C) (i : C) (t : T) : Rqs T C :=
  if s.state t = .runnable ∧ s.isIdle t = false ∧ s.cpuHome t = some i ∧ s.deficit t ≤ 0 then
    let debt := - s.deficit t
    let w := if s.weight t ≠ 0 then s.weight t else taskWeightBase
    let skips := if w < taskWeightBase then (taskWeightBase + debt) / w - 1 else 0
    rqRotateToTail { s with
      deficit := update s.deficit t w
      skipsLeft := update s.skipsLeft t (if skips < 0 then 0 else skips) } i t
  else s

def switchTo (s : Rqs T C) (i : C) (prev next : T) : Rqs T C :=
  if next = prev then s
  else { s with
    current := update s.current i (some next)
    onCpu := update s.onCpu next true
    leaving := update s.leaving i (some prev) }

-- No task of the ring can run: the running task goes on if it may, otherwise the idle task does.
def fallBack (s : Rqs T C) (i : C) (prev : T) : Rqs T C :=
  if s.state prev = .runnable ∧ s.isIdle prev = false ∧ s.cpuMask prev i then s
  else
    match s.idle i with
    | none => s
    | some idle => if s.state idle = .runnable then s.switchTo i prev idle else s

end Rqs

-- One hold of the lock of a ring (of both for a steal), or one write to a task without it.
inductive RqAct (T C : Type)
  | enqueue (t : T) (i : C)
  -- One turn of `rq_detach_anywhere`, which read `home` before it took the lock.
  | detach (t : T) (home : C)
  -- The part of `rq_purge_all` for one processor.
  | purge (t : T) (i : C)
  | schedule (i : C)
  -- The rest of it after the lock was dropped for a steal.
  | scheduleAgain (i : C) (stole : Bool)
  | steal (victim dest : C) (want max : ℕ)
  | refresh (i : C) (measured : T → ℕ)
  | release (i : C)
  -- `task_set_affinity`; where it moves the task, `detach` and `enqueue` follow.
  | setMask (t : T) (mask : C → Bool)
  -- Sleeping, waking, stopping and exit.
  | setState (t : T) (st : TaskState)
  | setNice (t : T) (weight load : ℕ)
  -- The tick and the yield spend the budget.
  | charge (t : T) (deficit : ℤ)
  | becomeIdle (i : C)

namespace Rqs

variable {T C : Type} [DecidableEq T] [DecidableEq C] [Fintype C]

def step (s : Rqs T C) : RqAct T C → Rqs T C
  | .enqueue t i => if s.isIdle t then s else s.rqInsertTail i t
  | .detach t home =>
    if s.isIdle t = false ∧ s.cpuHome t = some home then s.rqRemove home t else s
  | .purge t i => if s.isIdle t = false ∧ s.rqContains i t then s.rqRemove i t else s
  | .schedule i =>
    match s.current i with
    | none => s
    | some prev =>
      let r := (s.replenish i prev).pickNextLocal i
      match r.2 with
      | some next => r.1.switchTo i prev next
      | none => r.1
  | .scheduleAgain i stole =>
    match s.current i with
    | none => s
    | some prev =>
      let r := if stole then s.pickNextLocal i else (s, none)
      match r.2 with
      | some next => r.1.switchTo i prev next
      | none => r.1.fallBack i prev
  | .steal victim dest want max =>
    if victim ≠ dest then s.loadStealOne victim dest want max else s
  | .refresh i measured => s.rqRefreshLocalLoad i measured
  | .release i =>
    match s.leaving i with
    | none => s
    | some t => { s with
        onCpu := update s.onCpu t false
        leaving := update s.leaving i none }
  | .setMask t mask => { s with cpuMask := update s.cpuMask t mask }
  | .setState t st => { s with state := update s.state t st }
  | .setNice t weight load => { s with
      weight := update s.weight t weight
      deficit := update s.deficit t weight
      skipsLeft := update s.skipsLeft t 0
      load := update s.load t load }
  | .charge t deficit => { s with deficit := update s.deficit t deficit }
  | .becomeIdle i =>
    match s.current i with
    | none => s
    | some t => { s with
        isIdle := update s.isIdle t true
        idle := update s.idle i (some t) }

end Rqs

end DosKernel.Sched

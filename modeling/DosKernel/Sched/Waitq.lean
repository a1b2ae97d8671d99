import DosKernel.Lib.Chain
import DosKernel.Lib.Run
import DosKernel.Sched.Task
import Mathlib.Data.Fintype.Card

namespace DosKernel.Sched

open DosKernel.Lib
open Function (update)

-- Where a task stands: inside `waitq_block`, in `task_msleep` after the mark or the re-check,
-- in `stop_self`, past `task_exit`, or elsewhere.
inductive Place (Q : Type)
  | running
  | parked (q : Q)
  | marked
  | asleep
  | paused
  | gone
  deriving DecidableEq

-- The wait queues of kernel/core/task.c, and the wake-ups in flight: the queue a kill has read, and
-- the tasks whose timed sleep a waker has claimed.
structure Waits (T Q : Type) where
  head : Q → Option T
  wqNext : T → Option T
  wq : T → Option Q
  state : T → TaskState
  timedSleep : T → Bool
  sleepUntilMs : T → ℕ
  place : T → Place Q
  kills : List (T × Q)
  claims : List T

namespace Waits

variable {T Q : Type} [DecidableEq T] [DecidableEq Q]

def boot : Waits T Q where
  head _ := none
  wqNext _ := none
  wq _ := none
  state _ := .runnable
  timedSleep _ := false
  sleepUntilMs _ := 0
  place _ := .running
  kills := []
  claims := []

def setState (s : Waits T Q) (t : T) (st : TaskState) : Waits T Q :=
  { s with state := update s.state t st }

def setPlace (s : Waits T Q) (t : T) (p : Place Q) : Waits T Q :=
  { s with place := update s.place t p }

def rouse (s : Waits T Q) (t : T) : Waits T Q :=
  if s.state t = .sleeping then s.setState t .runnable else s

def release (s : Waits T Q) (t : T) : Waits T Q :=
  rouse { s with
    wqNext := update s.wqNext t none
    wq := update s.wq t none } t

-- The loop of `wq_wake_locked` over the whole queue, each link read before its task is released.
def drain : ℕ → Option T → Waits T Q → Waits T Q
  | 0, _, s => s
  | _ + 1, none, s => s
  | n + 1, some t, s => drain n (s.wqNext t) (s.release t)

def waitqWakeOne (s : Waits T Q) (q : Q) : Waits T Q :=
  match s.head q with
  | none => s
  | some t => release { s with head := update s.head q (s.wqNext t) } t

section Walks

-- A walk along a queue meets every task at most once.
variable [Fintype T]

def waitqWakeAll (s : Waits T Q) (q : Q) : Waits T Q :=
  drain (Fintype.card T) (s.head q) { s with head := update s.head q none }

def unlink (s : Waits T Q) (t : T) (q : Q) : Waits T Q :=
  { s with
    head := update s.head q (cut s.wqNext t (Fintype.card T) (s.head q)).1
    wqNext := (cut s.wqNext t (Fintype.card T) (s.head q)).2 }

-- `waitq_block` up to the switch away. `woken`: while it left its run queue, a waker that does not
-- take this queue's lock has made the task runnable.
def waitqBlock (s : Waits T Q) (t : T) (q : Q) (woken : Bool) : Waits T Q :=
  let linked := { s with
    wqNext := update s.wqNext t (s.head q)
    head := update s.head q (some t)
    wq := update s.wq t (some q)
    state := update s.state t (if woken then .runnable else .sleeping) }
  if linked.state t = .sleeping then linked.setPlace t (.parked q)
  else
    let out := linked.unlink t q
    { out with wq := update out.wq t none }

-- The locked part of `wake_waitq_sleeper`, on the queue that was read before.
def wakeWaitqSleeper (s : Waits T Q) (t : T) (q : Q) : Waits T Q :=
  let out := s.unlink t q
  rouse { out with wq := update out.wq t none } t

end Walks

def claim (s : Waits T Q) (t : T) : Waits T Q :=
  { s with
    timedSleep := update s.timedSleep t false
    sleepUntilMs := update s.sleepUntilMs t 0
    claims := t :: s.claims }

end Waits

-- One hold of a queue's lock, or one unlocked access to a task another processor may be at.
inductive WaitAct (T Q : Type)
  | block (t : T) (q : Q) (woken : Bool)
  | wakeOne (q : Q)
  | wakeAll (q : Q)
  -- A parked task runs again: it takes the lock back and clears its queue.
  | unpark (t : T)
  | killRead (t : T)
  | killUnlink (t : T) (q : Q)
  | msleep (t : T) (end_ : ℕ)
  | msleepCheck (t : T)
  -- `task_msleep` goes on after its switch: it returns on a kill or at its deadline.
  | msleepReturn (t : T) (killed : Bool)
  | sweep (t : T) (now : ℕ)
  | killClaim (t : T)
  | endTimedSleep (t : T)
  | stop (t : T)
  | resumeStopped (t : T)
  | unpause (t : T)
  | exit (t : T)

namespace Waits

variable {T Q : Type} [DecidableEq T] [DecidableEq Q] [Fintype T]

-- A step whose guard fails is one the code cannot take there, and leaves everything alone.
def step (s : Waits T Q) : WaitAct T Q → Waits T Q
  | .block t q woken => if s.place t = .running then s.waitqBlock t q woken else s
  | .wakeOne q => s.waitqWakeOne q
  | .wakeAll q => s.waitqWakeAll q
  | .unpark t =>
    match s.place t with
    | .parked _ =>
      if s.state t = .runnable then
        { s.setPlace t .running with wq := update s.wq t none }
      else s
    | _ => s
  | .killRead t =>
    match s.wq t with
    | some q => { s with kills := (t, q) :: s.kills }
    | none => s
  | .killUnlink t q =>
    if (t, q) ∈ s.kills then
      wakeWaitqSleeper { s with kills := s.kills.erase (t, q) } t q
    else s
  | .msleep t end_ =>
    if s.place t = .running then
      { (s.setState t .sleeping).setPlace t .marked with
        sleepUntilMs := update s.sleepUntilMs t end_
        timedSleep := update s.timedSleep t true }
    else s
  | .msleepCheck t =>
    if s.place t = .marked then
      if s.state t ≠ .sleeping then
        { s.setPlace t .running with timedSleep := update s.timedSleep t false }
      else s.setPlace t .asleep
    else s
  | .msleepReturn t killed =>
    if s.place t = .asleep ∧ s.state t = .runnable then
      { s.setPlace t .running with
        sleepUntilMs :=
          if killed then s.sleepUntilMs else update s.sleepUntilMs t 0 }
    else s
  | .sweep t now =>
    if s.state t = .sleeping ∧ s.sleepUntilMs t ≠ 0 ∧ s.sleepUntilMs t ≤ now ∧ s.timedSleep t then
      s.claim t
    else s
  | .killClaim t => if s.timedSleep t then s.claim t else s
  | .endTimedSleep t =>
    if t ∈ s.claims then { s.setState t .runnable with claims := s.claims.erase t } else s
  | .stop t =>
    if s.place t = .running then (s.setState t .stopped).setPlace t .paused else s
  | .resumeStopped t => if s.state t = .stopped then s.setState t .runnable else s
  | .unpause t =>
    if s.place t = .paused ∧ s.state t = .runnable then s.setPlace t .running else s
  | .exit t => if s.place t = .running then (s.setState t .dead).setPlace t .gone else s

def blockedOn (s : Waits T Q) (t : T) : Option Q :=
  if s.state t = .sleeping then
    match s.place t with
    | .parked q => some q
    | _ => none
  else none

end Waits

end DosKernel.Sched

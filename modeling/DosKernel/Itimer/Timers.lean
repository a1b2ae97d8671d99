import Mathlib.Data.List.Nodup
import DosKernel.Lib.Run
import DosKernel.Lib.Update

namespace DosKernel.Itimer

open Function (update update_of_ne update_self)

def itimerSlots : ℕ := 24

def maxCpus : ℕ := 64

def cancelRounds : ℕ := 8

def wordSize : ℕ := 18446744073709551616

-- `struct itslot` without its timer; `pid` 0 is a free slot. Not in the source: `gen`, the serial
-- number of its arming.
structure Slot where
  pid : ℕ
  interval : ℕ
  next : ℕ
  armed : Bool
  gen : ℕ
deriving DecidableEq, Repr

structure Entry where
  slot : ℕ
  deadline : ℕ
  gen : ℕ
deriving DecidableEq, Repr

-- Where a process is: about to call `ktimer_arm`, or in `ktimer_cancel` before a round's unlink or
-- after it.
inductive Op where
  | idle
  | arming (e : Entry)
  | cancel (slot rounds : ℕ)
  | wait (slot rounds : ℕ)
deriving DecidableEq, Repr

-- Where a CPU is in `ktimer_expire`: it took a timer off the list; it left the lock section of
-- `it_fired`; it has set the signal. Not in the source: `expired`, the arming whose timer was
-- taken, and `asked`, the deadline its process waited for.
inductive Cb where
  | idle
  | taken (e : Entry)
  | locked (slot pid interval next gen expired : ℕ) (asked : Option ℕ)
  | signalled (slot interval next gen : ℕ)
deriving DecidableEq, Repr

-- What a process asked for and has not disarmed, of which `fires` deadlines have been served.
structure Arming where
  gen : ℕ
  first : ℕ
  interval : ℕ
  fires : ℕ
deriving DecidableEq, Repr

def Arming.due (a : Arming) : ℕ := a.first + a.fires * a.interval

def Arming.served (a : Arming) : Option Arming :=
  if a.interval = 0 then none else some { a with fires := a.fires + 1 }

-- The table, the timer list, the CPUs and the processes. Not in the source: `armings`, `serial`.
structure State where
  slots : ℕ → Slot
  timers : List Entry
  cb : ℕ → Cb
  op : ℕ → Op
  exited : ℕ → Bool
  pending : ℕ → Bool
  clock : ℕ
  serial : ℕ
  armings : ℕ → Option Arming

def State.slotFor (s : State) (pid : ℕ) (create : Bool) : Option ℕ :=
  match (List.range itimerSlots).find? fun i => (s.slots i).pid = pid with
  | some i => some i
  | none => if create then (List.range itimerSlots).find? fun i => (s.slots i).pid = 0 else none

def unlink (i : ℕ) (timers : List Entry) : List Entry := timers.filter fun e => e.slot ≠ i

-- `ktimer_arm`: the list is sorted, a timer goes behind those with the same deadline.
def arm (e : Entry) (timers : List Entry) : List Entry :=
  (unlink e.slot timers).takeWhile (fun f => f.deadline ≤ e.deadline) ++
    e :: (unlink e.slot timers).dropWhile (fun f => f.deadline ≤ e.deadline)

def Slot.free : Slot := ⟨0, 0, 0, false, 0⟩

def State.ready (s : State) (pid : ℕ) : Bool :=
  pid != 0 && !s.exited pid && s.op pid == .idle

-- The lock section of `sys_setitimer_ns` with a value: the slot is the process's or a free one.
def State.armLock (s : State) (pid value interval : ℕ) : State :=
  match s.slotFor pid true with
  | none => s
  | some i =>
    let next := (s.clock + value) % wordSize
    { s with
      slots := update s.slots i ⟨pid, interval, next, true, s.serial⟩
      op := update s.op pid (.arming ⟨i, next, s.serial⟩)
      serial := s.serial + 1
      armings := update s.armings pid (some ⟨s.serial, s.clock + value, interval, 0⟩) }

-- The lock section of `sys_setitimer_ns` with value 0 and of `itimer_cancel_pid`.
def State.disarmLock (s : State) (pid : ℕ) : State :=
  match s.slotFor pid false with
  | none => s
  | some i =>
    { s with
      slots := update s.slots i { s.slots i with
        pid := 0, interval := 0, next := 0, armed := false }
      op := update s.op pid (.cancel i cancelRounds)
      armings := update s.armings pid none }

def Cb.runs (i : ℕ) : Cb → Bool
  | .idle => false
  | .taken e => e.slot == i
  | .locked slot _ _ _ _ _ _ => slot == i
  | .signalled slot _ _ _ => slot == i

def State.busy (s : State) (i : ℕ) : Bool := (List.range maxCpus).any fun c => (s.cb c).runs i

-- The lock section of `ktimer_arm` or of a round of `ktimer_cancel`, or the round's end, which
-- waits for callbacks.
def State.proceed (s : State) (pid : ℕ) : State :=
  match s.op pid with
  | .idle => s
  | .arming e =>
    { s with timers := arm e s.timers, op := update s.op pid .idle }
  | .cancel i rounds =>
    { s with timers := unlink i s.timers, op := update s.op pid (.wait i rounds) }
  | .wait i rounds =>
    if s.busy i then s
    else if s.timers.any (fun e => e.slot == i) && rounds > 1 then
      { s with op := update s.op pid (.cancel i (rounds - 1)) }
    else { s with op := update s.op pid .idle }

def nextDeadline (next interval now : ℕ) : ℕ :=
  if (next + interval) % wordSize ≤ now then (now + interval) % wordSize
  else (next + interval) % wordSize

-- The arming of slot `i`'s process, if the timer that expired was armed for it, is served.
def State.serve (s : State) (pid gen expired : ℕ) : ℕ → Option Arming :=
  match s.armings pid with
  | none => s.armings
  | some a =>
    if a.gen = gen ∧ gen = expired then
      update s.armings pid a.served
    else s.armings

def State.fireLock (s : State) (c : ℕ) (e : Entry) : State :=
  let slot := s.slots e.slot
  let next := if slot.interval = 0 then 0 else nextDeadline slot.next slot.interval s.clock
  { s with
    slots := update s.slots e.slot
      { slot with next := next, armed := slot.armed && slot.interval != 0 }
    cb := update s.cb c
      (.locked e.slot slot.pid slot.interval next slot.gen e.gen
        ((s.armings slot.pid).map Arming.due))
    armings := if slot.pid = 0 then s.armings else s.serve slot.pid slot.gen e.gen }

-- A CPU in `ktimer_expire` takes a due timer, enters `it_fired`, sets the signal, arms it again.
def State.expire (s : State) (c : ℕ) : State :=
  match s.cb c with
  | .idle =>
    match s.timers with
    | [] => s
    | e :: rest =>
      if e.deadline ≤ s.clock then
        { s with timers := rest, cb := update s.cb c (.taken e) }
      else s
  | .taken e => s.fireLock c e
  | .locked slot pid interval next gen _ _ =>
    { s with
      pending := if pid = 0 ∨ s.exited pid = true then s.pending
        else update s.pending pid true
      cb := update s.cb c (.signalled slot interval next gen) }
  | .signalled slot interval next gen =>
    { s with
      timers := if interval ≠ 0 ∧ next ≠ 0 then arm ⟨slot, next, gen⟩ s.timers else s.timers
      cb := update s.cb c .idle }

inductive Act where
  | setitimer (pid value interval : ℕ)
  | exit (pid : ℕ)
  | proceed (pid : ℕ)
  | expire (cpu : ℕ)
  | tick (ns : ℕ)
deriving DecidableEq, Repr

def State.step (s : State) : Act → State
  | .setitimer pid value interval =>
    if s.ready pid then
      if value = 0 then s.disarmLock pid else s.armLock pid value interval
    else s
  | .exit pid =>
    if s.ready pid then
      { s.disarmLock pid with exited := update s.exited pid true }
    else s
  | .proceed pid => s.proceed pid
  | .expire c => if c < maxCpus then s.expire c else s
  | .tick ns => if s.clock + ns < wordSize then { s with clock := s.clock + ns } else s

def boot : State where
  slots := fun _ => .free
  timers := []
  cb := fun _ => .idle
  op := fun _ => .idle
  exited := fun _ => false
  pending := fun _ => false
  clock := 0
  serial := 0
  armings := fun _ => none

open DosKernel.Lib

variable {s s' : State} {e f : Entry} {i c pid : ℕ} {a : Arming}

inductive Place where
  | op (pid : ℕ)
  | list
  | cpu (c : ℕ)
deriving DecidableEq

def Op.entry : Op → Option Entry
  | .arming e => some e
  | _ => none

def rearm (slot interval next gen : ℕ) : Option Entry :=
  if interval ≠ 0 ∧ next ≠ 0 then some ⟨slot, next, gen⟩ else none

def Cb.entry : Cb → Option Entry
  | .idle => none
  | .taken e => some e
  | .locked slot _ interval next gen _ _ => rearm slot interval next gen
  | .signalled slot interval next gen => rearm slot interval next gen

def Holds (s : State) : Place → Entry → Prop
  | .op pid, e => (s.op pid).entry = some e
  | .list, e => e ∈ s.timers
  | .cpu c, e => (s.cb c).entry = some e

-- An alarm asked for and not disarmed is under way in a slot of its process, for the deadline due.
-- `SIGALRM` becomes pending only by a CPU that runs a timer of the process, for its arming and
-- after its deadline; a CPU that runs one, or finds one due, sets it in at most three steps.
structure Sound (s : State) : Prop where
  fires : ∀ pid a, s.armings pid = some a → ∃ i, (s.slots i).pid = pid ∧
    (s.op pid = .arming ⟨i, a.due, a.gen⟩ ∨ ⟨i, a.due, a.gen⟩ ∈ s.timers ∨
      ∃ c, (s.cb c).entry = some ⟨i, a.due, a.gen⟩)
  rightful : ∀ act pid, s.pending pid = false → (s.step act).pending pid = true →
    ∃ c slot interval next gen deadline, act = .expire c ∧ deadline ≤ s.clock ∧
      s.cb c = .locked slot pid interval next gen gen (some deadline)
  signals : ∀ c slot pid interval next gen expired asked, c < maxCpus → pid ≠ 0 →
    s.exited pid = false → s.cb c = .locked slot pid interval next gen expired asked →
      (s.step (.expire c)).pending pid = true
  serves : ∀ c e, c < maxCpus → (s.slots e.slot).pid ≠ 0 → s.exited (s.slots e.slot).pid = false →
    s.cb c = .taken e ∨ (s.cb c = .idle ∧ s.timers.head? = some e ∧ e.deadline ≤ s.clock) →
      (run State.step s [.expire c, .expire c, .expire c]).pending (s.slots e.slot).pid = true

def Unique (s : State) : Prop :=
  ∀ x y e f, Holds s x e → Holds s y f → e.gen = f.gen → x = y ∧ e = f

def Cb.Fair (clock : ℕ) : Cb → Prop
  | .taken e => e.deadline ≤ clock
  | .locked _ pid _ _ gen expired asked => pid ≠ 0 →
      expired = gen ∧ ∃ deadline, asked = some deadline ∧ deadline ≤ clock
  | _ => True

structure Inv (s : State) : Prop where
  unique : Unique s
  nodup : (s.timers.map Entry.gen).Nodup
  fresh : ∀ x e, Holds s x e → e.gen < s.serial
  slotFresh : ∀ i, (s.slots i).pid ≠ 0 → (s.slots i).gen < s.serial
  -- an entry for the arming its slot is in use for is for the deadline due
  current : ∀ x e, Holds s x e → (s.slots e.slot).pid ≠ 0 → (s.slots e.slot).gen = e.gen →
    ∃ a, s.armings (s.slots e.slot).pid = some a ∧ a.gen = e.gen ∧ a.due = e.deadline
  fires : ∀ pid a, s.armings pid = some a → ∃ i x, (s.slots i).pid = pid ∧
    (s.slots i).gen = a.gen ∧ (s.slots i).interval = a.interval ∧ (s.slots i).next = a.due ∧
      Holds s x ⟨i, a.due, a.gen⟩
  mine : ∀ pid e, s.op pid = .arming e → (s.slots e.slot).pid = pid ∧ (s.slots e.slot).gen = e.gen
  inj : ∀ i j, (s.slots i).pid ≠ 0 → (s.slots i).pid = (s.slots j).pid → i = j
  inTable : ∀ i, (s.slots i).pid ≠ 0 → i < itimerSlots
  free : ∀ i, (s.slots i).pid = 0 → (s.slots i).interval = 0
  noZero : s.armings 0 = none ∧ s.op 0 = .idle
  clock : s.clock < wordSize
  cbs : ∀ c, (s.cb c).Fair s.clock

theorem pending_step {act : Act} (hold : s.pending pid = false)
    (hnew : (s.step act).pending pid = true) :
    ∃ c slot interval next gen expired asked, act = .expire c ∧ pid ≠ 0 ∧
      s.cb c = .locked slot pid interval next gen expired asked := by
  have hsame : (s.step act).pending ≠ s.pending := fun heq => by
    rw [heq, hold] at hnew
    cases hnew
  cases act with
  | expire c =>
    cases hcb : s.cb c with
    | locked slot q interval next gen expired asked =>
      simp only [State.step, State.expire, hcb] at hnew hsame
      by_cases hq : c < maxCpus ∧ ¬ (q = 0 ∨ s.exited q = true) ∧ pid = q
      · obtain ⟨-, hq, rfl⟩ := hq
        exact ⟨c, slot, interval, next, gen, expired, asked, rfl, fun h0 => hq (.inl h0), hcb⟩
      · split at hnew
        · dsimp only at hnew
          split at hnew
          · simp_all
          · rw [update_of_ne (by simp_all)] at hnew
            simp_all
        · simp_all
    | _ =>
      refine absurd ?_ hsame
      simp only [State.step, State.expire, hcb]
      repeat' split
      all_goals rfl
  | _ =>
    refine absurd ?_ hsame
    simp only [State.step, State.armLock, State.disarmLock, State.proceed]
    repeat' split
    all_goals rfl

theorem Inv.sound (h : Inv s) : Sound s where
  fires := by
    intro pid a ha
    obtain ⟨i, x, hpid, hgen, -, -, hx⟩ := h.fires pid a ha
    refine ⟨i, hpid, ?_⟩
    cases x with
    | op q =>
      have hop : s.op q = .arming ⟨i, a.due, a.gen⟩ := by
        have hx : (s.op q).entry = _ := hx
        cases ho : s.op q with
        | arming e =>
          rw [ho] at hx
          rw [Option.some.inj hx]
        | _ =>
          rw [ho] at hx
          cases hx
      have hq : pid = q := hpid.symm.trans (h.mine q _ hop).1
      exact .inl (hq ▸ hop)
    | list => exact .inr (.inl hx)
    | cpu c => exact .inr (.inr ⟨c, hx⟩)
  rightful := by
    intro act pid hold hnew
    obtain ⟨c, slot, interval, next, gen, expired, asked, rfl, hpid, hcb⟩ := pending_step hold hnew
    have hfair := h.cbs c
    rw [hcb] at hfair
    obtain ⟨rfl, deadline, rfl, hle⟩ := hfair hpid
    exact ⟨c, slot, interval, next, _, deadline, rfl, hle, hcb⟩
  signals := by
    intro c slot pid interval next gen expired asked hc hpid hlive hcb
    simp [State.step, State.expire, hc, hcb, hpid, hlive]
  serves := by
    rintro c e hc hpid hlive (hcb | ⟨hcb, hhead, hdue⟩)
    · simp [run, State.step, State.expire, State.fireLock, hc, hcb, hpid, hlive]
    · obtain ⟨rest, hrest⟩ := List.head?_eq_some_iff.mp hhead
      simp [run, State.step, State.expire, State.fireLock, hc, hcb, hrest, hdue, hpid, hlive]

section Lists

variable {timers : List Entry}

theorem mem_unlink : f ∈ unlink i timers ↔ f ∈ timers ∧ f.slot ≠ i := by
  simp [unlink]

theorem arm_perm : (arm e timers).Perm (e :: unlink e.slot timers) := by
  have hmid : (arm e timers).Perm (e ::
      ((unlink e.slot timers).takeWhile (fun f => f.deadline ≤ e.deadline) ++
        (unlink e.slot timers).dropWhile (fun f => f.deadline ≤ e.deadline))) :=
    List.perm_middle
  rwa [List.takeWhile_append_dropWhile] at hmid

theorem mem_arm : f ∈ arm e timers ↔ f = e ∨ (f ∈ timers ∧ f.slot ≠ e.slot) := by
  rw [arm_perm.mem_iff, List.mem_cons, mem_unlink]

theorem nodup_unlink (h : (timers.map Entry.gen).Nodup) : ((unlink i timers).map Entry.gen).Nodup :=
  h.sublist (List.Sublist.map Entry.gen List.filter_sublist)

theorem nodup_arm (h : (timers.map Entry.gen).Nodup) (he : ∀ f ∈ timers, f.gen ≠ e.gen) :
    ((arm e timers).map Entry.gen).Nodup := by
  rw [(arm_perm.map Entry.gen).nodup_iff, List.map_cons, List.nodup_cons]
  refine ⟨?_, nodup_unlink h⟩
  intro hmem
  obtain ⟨f, hf, hgen⟩ := List.mem_map.mp hmem
  exact he f (mem_unlink.mp hf).1 hgen

end Lists

theorem Unique.move {y : Place} (h : Unique s) (hnew : ∀ z f, Holds s' z f →
    (z = y ∧ f = e) ∨ (Holds s z f ∧ f.gen ≠ e.gen)) : Unique s' := by
  intro x z f g hf hg hgen
  cases hnew x f hf with
  | inl hf' =>
    obtain ⟨rfl, rfl⟩ := hf'
    cases hnew z g hg with
    | inl hg' =>
      obtain ⟨rfl, rfl⟩ := hg'
      exact ⟨rfl, rfl⟩
    | inr hg' => exact absurd hgen.symm hg'.2
  | inr hf' =>
    cases hnew z g hg with
    | inl hg' =>
      obtain ⟨rfl, rfl⟩ := hg'
      exact absurd hgen hf'.2
    | inr hg' => exact h x z f g hf'.1 hg'.1 hgen

def Elsewhere (s s' : State) (x : Place) : Prop :=
  ∀ z f, z ≠ x → z ≠ .list → (Holds s' z f ↔ Holds s z f)

section Elsewhere

variable {x : Place}

theorem elsewhere_op {o : Op} (hop : s'.op = update s.op pid o) (hcb : s'.cb = s.cb) :
    Elsewhere s s' (.op pid) := by
  intro z f hx hl
  cases z with
  | op q =>
    have hq : q ≠ pid := by simpa using hx
    simp only [Holds, hop, update_of_ne hq]
  | list => exact absurd rfl hl
  | cpu d => simp only [Holds, hcb]

theorem elsewhere_cpu {k : Cb} (hcb : s'.cb = update s.cb c k) (hop : s'.op = s.op) :
    Elsewhere s s' (.cpu c) := by
  intro z f hx hl
  cases z with
  | op q => simp only [Holds, hop]
  | list => exact absurd rfl hl
  | cpu d =>
    have hd : d ≠ c := by simpa using hx
    simp only [Holds, hcb, update_of_ne hd]

theorem Elsewhere.symm (h : Elsewhere s s' x) : Elsewhere s' s x :=
  fun z f hx hl => (h z f hx hl).symm

theorem Elsewhere.carry (h : Elsewhere s s' x) {z : Place} (hf : Holds s z f)
    (hpass : Holds s x f ∨ f ∈ s.timers → Holds s' x f ∨ f ∈ s'.timers) :
    ∃ w, Holds s' w f ∧ (z = w ∨ (z = x ∨ z = .list) ∧ (w = x ∨ w = .list)) := by
  by_cases hz : z = x ∨ z = .list
  · have hheld : Holds s x f ∨ f ∈ s.timers := by
      obtain rfl | rfl := hz
      · exact .inl hf
      · exact .inr hf
    obtain hw | hw := hpass hheld
    · exact ⟨x, hw, .inr ⟨hz, .inl rfl⟩⟩
    · exact ⟨.list, hw, .inr ⟨hz, .inr rfl⟩⟩
  · rw [not_or] at hz
    exact ⟨z, (h z f hz.1 hz.2).mpr hf, .inl rfl⟩

theorem Unique.pass (h : Unique s) (hd : Elsewhere s s' x)
    (hfrom : ∀ f, Holds s' x f ∨ f ∈ s'.timers → Holds s x f ∨ f ∈ s.timers)
    (hone : ∀ f, Holds s' x f → f ∉ s'.timers) : Unique s' := by
  intro y z f g hf hg hgen
  obtain ⟨w, hw, hyw⟩ := hd.symm.carry hf (hfrom f)
  obtain ⟨w', hw', hzw⟩ := hd.symm.carry hg (hfrom g)
  obtain ⟨rfl, rfl⟩ := h w w' f g hw hw' hgen
  refine ⟨?_, rfl⟩
  by_contra hne
  have hyz : (y = x ∨ y = .list) ∧ (z = x ∨ z = .list) := by
    obtain rfl | ⟨hy, hwx⟩ := hyw
    · obtain rfl | ⟨hz, hwx⟩ := hzw
      · exact absurd rfl hne
      · exact ⟨hwx, hz⟩
    · obtain rfl | ⟨hz, -⟩ := hzw
      · exact ⟨hy, hwx⟩
      · exact ⟨hy, hz⟩
  obtain ⟨rfl | rfl, rfl | rfl⟩ := hyz
  · exact hne rfl
  · exact hone f hf hg
  · exact hone f hg hf
  · exact hne rfl

end Elsewhere

structure Slot.Same (q r : Slot) : Prop where
  pid : q.pid = r.pid
  gen : q.gen = r.gen
  interval : q.interval = r.interval
  next : r.pid ≠ 0 → q.next = r.next

theorem Slot.Same.rfl (q : Slot) : q.Same q := ⟨Eq.refl _, Eq.refl _, Eq.refl _, fun _ => Eq.refl _⟩

-- Slots and armings stay; between `x` and the list entries move or go, none of them under way.
theorem Inv.moved {x : Place} (h : Inv s) (hd : Elsewhere s s' x)
    (hslots : ∀ i, (s'.slots i).Same (s.slots i)) (harmings : s'.armings = s.armings)
    (hserial : s'.serial = s.serial) (hnodup : (s'.timers.map Entry.gen).Nodup)
    (hfrom : ∀ f, Holds s' x f ∨ f ∈ s'.timers → Holds s x f ∨ f ∈ s.timers)
    (hone : ∀ f, Holds s' x f → f ∉ s'.timers)
    (hkeep : ∀ f, (s.slots f.slot).pid ≠ 0 → (s.slots f.slot).gen = f.gen →
      Holds s x f ∨ f ∈ s.timers → Holds s' x f ∨ f ∈ s'.timers)
    (hmine : ∀ pid f, s'.op pid = .arming f → s.op pid = .arming f) (hzero : s'.op 0 = .idle)
    (hcbs : ∀ c, (s'.cb c).Fair s'.clock) (hword : s'.clock < wordSize) : Inv s' where
  unique := h.unique.pass hd hfrom hone
  nodup := hnodup
  fresh := by
    intro x f hf
    obtain ⟨w, hw, -⟩ := hd.symm.carry hf (hfrom f)
    rw [hserial]
    exact h.fresh w f hw
  slotFresh := by
    intro i
    rw [(hslots i).pid, (hslots i).gen, hserial]
    exact h.slotFresh i
  current := by
    intro x f hf
    obtain ⟨w, hw, -⟩ := hd.symm.carry hf (hfrom f)
    rw [(hslots f.slot).pid, (hslots f.slot).gen, harmings]
    exact h.current w f hw
  fires := by
    intro pid a ha
    rw [harmings] at ha
    obtain ⟨i, x, hpid, hgen, hint, hnext, hx⟩ := h.fires pid a ha
    have hne : (s.slots i).pid ≠ 0 := by
      intro h0
      rw [← hpid, h0, h.noZero.1] at ha
      cases ha
    obtain ⟨z, hz, -⟩ := hd.carry hx (hkeep _ hne hgen)
    refine ⟨i, z, ?_, ?_, ?_, ?_, hz⟩
    · rw [(hslots i).pid, hpid]
    · rw [(hslots i).gen, hgen]
    · rw [(hslots i).interval, hint]
    · rw [(hslots i).next hne, hnext]
  mine := by
    intro pid f hf
    rw [(hslots f.slot).pid, (hslots f.slot).gen]
    exact h.mine pid f (hmine pid f hf)
  inj := by
    intro i j
    rw [(hslots i).pid, (hslots j).pid]
    exact h.inj i j
  inTable := by
    intro i
    rw [(hslots i).pid]
    exact h.inTable i
  free := by
    intro i
    rw [(hslots i).pid, (hslots i).interval]
    exact h.free i
  noZero := ⟨by rw [harmings]; exact h.noZero.1, hzero⟩
  clock := hword
  cbs := hcbs

-- Slot `i` gets another use and `pid` another arming; entries for the slot come and go at `x`.
theorem Inv.renew {x : Place} {n : Slot} {o : Option Arming} (h : Inv s) (hpid : pid ≠ 0)
    (hown : (s.slots i).pid = pid ∨ (s.slots i).pid = 0)
    (hother : ∀ j, j ≠ i → (s.slots j).pid ≠ pid) (hd : Elsewhere s s' x)
    (htimers : s'.timers = s.timers) (hx : ∀ f, Holds s x f ∨ Holds s' x f → f.slot = i)
    (hslots : s'.slots = update s.slots i n) (harmings : s'.armings = update s.armings pid o)
    (hserial : s.serial ≤ s'.serial)
    (hn : n.pid = 0 ∧ n.interval = 0 ∨ n.pid = pid ∧ n.gen < s'.serial ∧ i < itimerSlots)
    (hunique : Unique s') (hfresh : ∀ x f, Holds s' x f → f.gen < s'.serial)
    (hcur : ∀ x f, Holds s' x f → f.slot = i → n.pid ≠ 0 → n.gen = f.gen →
      ∃ a, o = some a ∧ a.gen = f.gen ∧ a.due = f.deadline)
    (hfires : ∀ a, o = some a → ∃ x, n.pid = pid ∧ n.gen = a.gen ∧ n.interval = a.interval ∧
      n.next = a.due ∧ Holds s' x ⟨i, a.due, a.gen⟩)
    (hmine : ∀ q f, s'.op q = .arming f → q ≠ pid ∧ s.op q = .arming f ∨
      q = pid ∧ f.slot = i ∧ n.pid = pid ∧ n.gen = f.gen)
    (hzero : s'.op 0 = .idle) (hclock : s'.clock = s.clock) (hcbs : ∀ c, (s'.cb c).Fair s'.clock) :
    Inv s' := by
  have hsame : ∀ z f, f.slot ≠ i → (Holds s' z f ↔ Holds s z f) := by
    intro z f hslot
    by_cases hz : z = x
    · subst hz
      exact ⟨fun hf => absurd (hx f (.inr hf)) hslot, fun hf => absurd (hx f (.inl hf)) hslot⟩
    · by_cases hl : z = .list
      · rw [hl, Holds, htimers, Holds]
      · exact hd z f hz hl
  have hne : ∀ q j, q ≠ pid → q ≠ 0 → (s.slots j).pid = q → j ≠ i := by
    rintro q j hq hq0 hj rfl
    exact hown.elim (fun hp => hq (hj.symm.trans hp)) fun hp => hq0 (hj.symm.trans hp)
  have hself : s'.slots i = n := by rw [hslots, update_self]
  have hrest : ∀ j, j ≠ i → s'.slots j = s.slots j := fun j hj => by rw [hslots, update_of_ne hj]
  have hout : ∀ j, j ≠ i → (s.slots j).pid ≠ 0 → (s.slots j).pid ≠ n.pid := by
    intro j hj h0
    obtain ⟨hn, -⟩ | ⟨hn, -⟩ := hn
    · exact hn ▸ h0
    · exact hn ▸ hother j hj
  refine
    { unique := hunique
      nodup := htimers ▸ h.nodup
      fresh := hfresh
      slotFresh := fun j hj => ?_
      current := fun z f hf h0 hgen => ?_
      fires := fun q b hb => ?_
      mine := fun q f hf => ?_
      inj := fun j k hj hjk => ?_
      inTable := fun j hj => ?_
      free := fun j hj => ?_
      noZero := ⟨by rw [harmings, update_of_ne (Ne.symm hpid)]; exact h.noZero.1, hzero⟩
      clock := hclock ▸ h.clock
      cbs := hcbs }
  · rw [hslots] at hj ⊢
    revert hj
    refine update_rule j (fun hj => ?_) fun _ hj => ?_
    · exact hn.elim (fun hn => absurd hn.1 hj) fun hn => hn.2.1
    · exact Nat.lt_of_lt_of_le (h.slotFresh j hj) hserial
  · obtain hj | hj := eq_or_ne f.slot i
    · rw [hj, hself] at h0 hgen ⊢
      rw [hn.elim (fun hn => absurd hn.1 h0) And.left, harmings, update_self]
      exact hcur z f hf hj h0 hgen
    · rw [hrest _ hj] at h0 hgen ⊢
      rw [harmings, update_of_ne (hother _ hj)]
      exact h.current z f ((hsame z f hj).mp hf) h0 hgen
  · rw [harmings] at hb
    obtain rfl | hq := eq_or_ne q pid
    · rw [update_self] at hb
      obtain ⟨z, hz⟩ := hfires b hb
      exact ⟨i, z, hself.symm ▸ hz⟩
    · rw [update_of_ne hq] at hb
      obtain ⟨j, z, hjpid, hgen, hint, hnext, hz⟩ := h.fires q b hb
      have hq0 : q ≠ 0 := by
        rintro rfl
        rw [h.noZero.1] at hb
        cases hb
      have hj := hne q j hq hq0 hjpid
      refine ⟨j, z, ?_⟩
      rw [hrest j hj]
      exact ⟨hjpid, hgen, hint, hnext, (hsame z _ hj).mpr hz⟩
  · obtain ⟨hq, hold⟩ | ⟨rfl, hj, hf⟩ := hmine q f hf
    · have hq0 : q ≠ 0 := by
        rintro rfl
        rw [h.noZero.2] at hold
        cases hold
      rw [hrest _ (hne q _ hq hq0 (h.mine q f hold).1)]
      exact h.mine q f hold
    · rw [hj, hself]
      exact hf
  · rw [hslots] at hj hjk
    revert hj hjk
    refine update_rule j (fun hj => ?_) fun hji hj => ?_
    · exact update_rule k (fun _ => rfl) fun hki hjk => absurd hjk.symm (hout k hki (hjk ▸ hj))
    · exact update_rule k (fun hjk => absurd hjk (hout j hji hj)) fun _ => h.inj j k hj
  · rw [hslots] at hj
    revert hj
    refine update_rule j (fun hj => ?_) fun _ => h.inTable j
    exact hn.elim (fun hn => absurd hn.1 hj) fun hn => hn.2.2
  · rw [hslots] at hj ⊢
    revert hj
    refine update_rule j (fun hj => ?_) fun _ => h.free j
    exact hn.elim And.right fun hn => absurd (hn.1.symm.trans hj) hpid

end DosKernel.Itimer

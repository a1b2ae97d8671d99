import DosKernel.Lib.Run
import DosKernel.Lib.Update

namespace DosKernel.Eventfd

open DosKernel.Lib
open Function (update)

def efdMax : BitVec 64 := 0xFFFFFFFFFFFFFFFE

-- Where a task is: at the head of the loop, between the two locks of a blocking round, parked, or
-- before `efd_changed`.
inductive Phase where
  | idle
  | reading (block : Bool)
  | drained
  | readParked
  | writing (v : BitVec 64) (block : Bool)
  | full (v : BitVec 64)
  | writeParked (v : BitVec 64)
  | changed

-- The source keeps neither sum: `added` is of the accepted writes, `taken` of what reads returned.
structure World where
  count : BitVec 64
  semaphore : Bool
  phase : ℕ → Phase := fun _ => .idle
  added : ℕ := 0
  taken : ℕ := 0

namespace World

variable (w : World) (t : ℕ) (v : BitVec 64)

def goto (p : Phase) : World := { w with phase := update w.phase t p }

-- The two tests of `eventfd_write`, under `lock` and under the lock of the queue.
def accepts : Prop := w.count + v ≤ efdMax ∧ w.count + v ≥ w.count

def parks : Prop := w.count + v > efdMax

instance : Decidable (w.accepts v) := inferInstanceAs (Decidable (_ ∧ _))

instance : Decidable (w.parks v) := inferInstanceAs (Decidable (_ < _))

def take : World :=
  let v := if w.semaphore then 1 else w.count
  { w with count := w.count - v, taken := w.taken + v.toNat }

def add : World := { w with count := w.count + v, added := w.added + v.toNat }

end World

def Phase.wake : Phase → Phase
  | .readParked => .reading true
  | .writeParked v => .writing v true
  | p => p

inductive Act where
  | read (t n : ℕ) (block : Bool)
  | write (t n : ℕ) (v : BitVec 64) (block : Bool)
  | go (t : ℕ) (stop : Bool)

-- The next section of the call a task is in. A killed task leaves the queue.
def go (w : World) (t : ℕ) (stop : Bool) : World :=
  match w.phase t with
  | .idle => w
  | .reading block =>
    if w.count ≠ 0 then w.take.goto t .changed
    else w.goto t (if !block || stop then .idle else .drained)
  | .drained => w.goto t (if w.count = 0 then .readParked else .reading true)
  | .writing v block =>
    if w.accepts v then (w.add v).goto t (if v = 0 then .idle else .changed)
    else w.goto t (if !block || stop then .idle else .full v)
  | .full v => w.goto t (if w.parks v then .writeParked v else .writing v true)
  | .changed => { w with phase := update (fun u => (w.phase u).wake) t .idle }
  | p => if stop then w.goto t p.wake else w

def step (w : World) : Act → World
  | .read t n block =>
    match w.phase t with
    | .idle => if n < 8 then w else w.goto t (.reading block)
    | _ => w
  | .write t n v block =>
    match w.phase t with
    | .idle => if n < 8 ∨ v = 0xFFFFFFFFFFFFFFFF then w else w.goto t (.writing v block)
    | _ => w
  | .go t stop => go w t stop

def start (init : BitVec 64) (semaphore : Bool) : World := ⟨init, semaphore, fun _ => .idle, 0, 0⟩

def Counted (init : BitVec 64) (w : World) : Prop :=
  w.count ≤ efdMax ∧ w.count.toNat + w.taken = init.toNat + w.added

-- What holds of a value whose writer comes to its park test holds of it in this state.
def AtPark (P : World → BitVec 64 → Prop) (w : World) : Act → Prop
  | .go t _ => ∀ v, w.phase t = .full v → P w v
  | _ => True

def Exact (w : World) (v : BitVec 64) : Prop := w.parks v ↔ ¬ w.accepts v

def NoCarry (w : World) (v : BitVec 64) : Prop := w.count.toNat + v.toNat < 18446744073709551616

variable {w : World} {v init : BitVec 64}

theorem exact_iff_noCarry : Exact w v ↔ NoCarry w v := by
  have hmax : efdMax.toNat = 18446744073709551614 := rfl
  simp only [Exact, NoCarry, World.parks, World.accepts, gt_iff_lt, ge_iff_le, BitVec.lt_def,
    BitVec.le_def, BitVec.toNat_add, hmax]
  have hc := w.count.isLt
  have hv := v.isLt
  omega

theorem counted_take (h : Counted init w) (hw : w.count ≠ 0) : Counted init w.take := by
  have hv : (if w.semaphore then 1 else w.count) ≤ w.count := by
    split
    · bv_omega
    · exact BitVec.le_refl _
  simp only [Counted, World.take, BitVec.le_def] at *
  rw [BitVec.toNat_sub_of_le (BitVec.le_def.mpr hv)]
  omega

theorem counted_add (h : Counted init w) (hv : w.accepts v) : Counted init (w.add v) := by
  obtain ⟨hle, hge⟩ := hv
  refine ⟨hle, ?_⟩
  have hsum : (w.count + v).toNat = w.count.toNat + v.toNat := by bv_omega
  simp only [World.add, hsum]
  have := h.2
  omega

theorem counted_step (h : Counted init w) (a : Act) : Counted init (step w a) := by
  cases a with
  | read t n block | write t n v block =>
    simp only [step]
    split
    · split
      · exact h
      · exact h
    · exact h
  | go t stop =>
    simp only [step, go]
    split
    · exact h
    · split
      next hw => exact counted_take h hw
      next => exact h
    · exact h
    · split
      next hv => exact counted_add h hv
      next => exact h
    · exact h
    · exact h
    · split
      · exact h
      · exact h

def Phase.Waits (w : World) : Phase → Prop
  | .readParked => w.count = 0
  | .writeParked v => w.parks v
  | _ => True

def Attended (w : World) : Prop := (∀ t, (w.phase t).Waits w) ∨ ∃ u, w.phase u = .changed

theorem waits_wake (p : Phase) : p.wake.Waits w := by cases p <;> trivial

theorem Attended.goto {t : ℕ} {p : Phase} (h : Attended w) (ht : w.phase t ≠ .changed)
    (hp : p.Waits w) : Attended (w.goto t p) := by
  refine h.imp (fun h u => ?_) ?_
  · exact update_rule (P := fun _ (q : Phase) => q.Waits w) u hp fun _ => h u
  · rintro ⟨u, hu⟩
    have hut : u ≠ t := fun hut => ht (hut ▸ hu)
    exact ⟨u, (Function.update_of_ne hut ..).trans hu⟩

theorem Attended.go (h : Attended w) (t : ℕ) (stop : Bool) : Attended (go w t stop) := by
  unfold Eventfd.go
  cases hp : w.phase t with
  | idle => exact h
  | changed =>
    exact .inl fun u => update_rule (P := fun _ (q : Phase) => q.Waits w) (b := .idle)
      (f := fun u => (w.phase u).wake) u trivial fun _ => waits_wake _
  | reading block =>
    dsimp only
    split
    · exact .inr ⟨t, Function.update_self ..⟩
    · refine h.goto (by simp [hp]) ?_
      split <;> trivial
  | drained =>
    refine h.goto (by simp [hp]) ?_
    split
    next hzero => exact hzero
    · trivial
  | writing v block =>
    dsimp only
    split
    · split
      next hv =>
        -- nothing is added, and nobody needs to know
        have hadd : w.add v = { w with added := w.added + v.toNat } := by simp [World.add, hv]
        rw [hadd]
        exact Attended.goto (w := { w with added := w.added + v.toNat }) h (by simp [hp]) trivial
      · exact .inr ⟨t, Function.update_self ..⟩
    · refine h.goto (by simp [hp]) ?_
      split <;> trivial
  | full v =>
    refine h.goto (by simp [hp]) ?_
    split
    next hv => exact hv
    · trivial
  | readParked | writeParked v => exact guard_rule h fun _ => h.goto (by simp [hp]) trivial

-- No wake-up is lost: in every run a parked task cannot go on, or is about to be woken.
theorem parked_attended (init : BitVec 64) (semaphore : Bool) (acts : List Act) :
    Always step Attended (start init semaphore) acts := by
  refine always_of_step (fun w a h => ?_) (fun _ h => h) (.inl fun _ => trivial)
  cases a with
  | read t n block | write t n v block =>
    simp only [step]
    split
    next hp => exact refuse_rule h fun _ => h.goto (by simp [hp]) trivial
    · exact h
  | go t stop => exact h.go t stop

end DosKernel.Eventfd

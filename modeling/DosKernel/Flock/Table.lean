import Mathlib.Data.Int.Notation
import DosKernel.Lib.Run
import DosKernel.Lib.SlotTable
import DosKernel.Lib.Update

namespace DosKernel.Flock

open DosKernel.Lib
open SlotTable (find insert)

variable {I O T : Type}

structure Flk (I O : Type) where
  ino : I
  owner : O
  excl : Bool

-- A task in the loop of `flock_op` sleeps on the queue, or was woken and is yet to look again.
inductive Phase (O : Type) where
  | idle
  | asleep (o : O) (excl : Bool)
  | woken (o : O) (excl : Bool)

-- The source does not keep `unlocked`: the owners whose last successful call was LOCK_UN.
structure World (I O T : Type) where
  table : SlotTable (Flk I O)
  unlocked : O → Bool
  phase : T → Phase O

-- `stop` is the answer of `task_should_stop`, `rouse` a sleep that ends because of a kill.
inductive Act (O T : Type) where
  | call (t : T) (o : O) (op : BitVec 32) (stop : Bool)
  | resume (t : T) (stop : Bool)
  | rouse (t : T)
  | close (o : O)

def Phase.wake : Phase O → Phase O
  | .asleep o excl => .woken o excl
  | p => p

section Model

variable [DecidableEq I] [DecidableEq O] [DecidableEq T]

def Flk.of (i : I) (o : O) (f : Flk I O) : Bool := (f.ino, f.owner) == (i, o)

def conflicts (table : SlotTable (Flk I O)) (i : I) (o : O) (excl : Bool) : Bool :=
  table.live.any fun f => f.ino = i && f.owner ≠ o && (excl || f.excl)

def World.drop (w : World I O T) (i : I) (o : O) : World I O T :=
  { w with
    table := SlotTable.update (Flk.of i o) (fun _ => none) w.table
    phase := fun t => (w.phase t).wake }

def World.setPhase (w : World I O T) (t : T) (p : Phase O) : World I O T :=
  { w with phase := Function.update w.phase t p }

def World.setUnlocked (w : World I O T) (o : O) (b : Bool) : World I O T :=
  { w with unlocked := Function.update w.unlocked o b }

-- `flock_op` from its loop on: the code it returns, `none` if it sleeps.
def World.acquire (w : World I O T) (t : T) (i : I) (o : O) (excl nb stop : Bool) :
    Option ℤ × World I O T :=
  if conflicts w.table i o excl then
    if nb then (some (-11), w.setPhase t .idle)
    else if stop then (some (-4), w.setPhase t .idle)
    else (none, w.setPhase t (.asleep o excl))
  else
    match insert ⟨i, o, excl⟩ w.table with
    | none => (some (-37), w.setPhase t .idle)
    | some table => (some 0, ({ w with table }.setUnlocked o false).setPhase t .idle)

def World.flockOp (inode : O → Option I) (w : World I O T) (t : T) (o : O) (op : BitVec 32)
    (stop : Bool) : Option ℤ × World I O T :=
  match inode o with
  | none => (some 0, w)
  | some i =>
    let nb := op &&& 4 ≠ 0
    let op := op &&& ~~~4
    if op ≠ 1 ∧ op ≠ 2 ∧ op ≠ 8 then (some (-22), w)
    else
      let excl := decide (op = 2)
      match find (Flk.of i o) w.table with
      | some f =>
        if op = 8 then (some 0, (w.drop i o).setUnlocked o true)
        else if f.excl = excl then (some 0, w.setUnlocked o false)
        else (w.drop i o).acquire t i o excl nb stop
      | none =>
        if op = 8 then (some 0, w.setUnlocked o true) else w.acquire t i o excl nb stop

def World.flockRelease (w : World I O T) (o : O) : World I O T :=
  { w with
    table := w.table.map (Option.filter fun f => f.owner ≠ o)
    phase := if w.table.live.any (·.owner = o) then fun t => (w.phase t).wake else w.phase }

def World.step (inode : O → Option I) (w : World I O T) : Act O T → World I O T
  | .call t o op stop =>
    match w.phase t with
    | .idle => (w.flockOp inode t o op stop).2
    | _ => w
  | .resume t stop =>
    match w.phase t with
    | .woken o excl =>
      match inode o with
      | some i => (w.acquire t i o excl false stop).2
      | none => w
    | _ => w
  | .rouse t => w.setPhase t (w.phase t).wake
  | .close o => w.flockRelease o

end Model

def boot : World I O T := ⟨List.replicate 64 none, fun _ => false, fun _ => .idle⟩

-- An exclusive entry excludes other owners', an owner has one on an inode, none after LOCK_UN.
structure Sound (inode : O → Option I) (w : World I O T) : Prop where
  excludes : ∀ f ∈ w.table.live, ∀ g ∈ w.table.live, f.excl = true → f.ino = g.ino →
    f.owner = g.owner
  once : (w.table.live.map fun f => (f.ino, f.owner)).Nodup
  released : ∀ o, w.unlocked o = true → ∀ f ∈ w.table.live, f.owner = o → inode o ≠ some f.ino

variable {inode : O → Option I} {w w' : World I O T} {t : T} {i : I} {o : O} {excl nb stop : Bool}

theorem Sound.fewer (h : Sound inode w) (hsub : w'.table.live.Sublist w.table.live)
    (hu : w'.unlocked = w.unlocked) : Sound inode w' where
  excludes f hf g hg := h.excludes f (hsub.subset hf) g (hsub.subset hg)
  once := (hsub.map _).nodup h.once
  released o ho f hf := h.released o (hu ▸ ho) f (hsub.subset hf)

variable [DecidableEq O]

theorem Sound.relock (h : Sound inode w) (o : O) : Sound inode (w.setUnlocked o false) := by
  refine { h with released := fun o' ho' => h.released o' ?_ }
  by_cases hoo : o' = o
  · simp [World.setUnlocked, hoo] at ho'
  · simpa [World.setUnlocked, hoo] using ho'

variable [DecidableEq I]

-- A woken task that gets its lock finds that no other task has got one for its owner meanwhile.
def Lone (inode : O → Option I) (w : World I O T) : Act O T → Prop
  | .resume t _ => ∀ o excl i, w.phase t = .woken o excl → inode o = some i →
      conflicts w.table i o excl = false → (insert ⟨i, o, excl⟩ w.table).isSome →
      find (Flk.of i o) w.table = none
  | _ => True

theorem find_of_eq_none : find (Flk.of i o) w.table = none ↔
    ∀ f ∈ w.table.live, (f.ino, f.owner) ≠ (i, o) := by
  simp [SlotTable.find_none, Flk.of]

namespace Sound

variable (h : Sound inode w)
include h

theorem unlock (hi : inode o = some i) (hnone : find (Flk.of i o) w.table = none) :
    Sound inode (w.setUnlocked o true) := by
  refine { h with released := fun o' ho' f hf hfo hfi => ?_ }
  by_cases hoo : o' = o
  · subst hoo
    rw [hi] at hfi
    exact find_of_eq_none.mp hnone f hf (by rw [Option.some.inj hfi, hfo])
  · exact h.released o' (by simpa [World.setUnlocked, hoo] using ho') f hf hfo hfi

theorem drop {f : Flk I O} (hf : find (Flk.of i o) w.table = some f) :
    Sound inode (w.drop i o) ∧ find (Flk.of i o) (w.drop i o).table = none := by
  obtain ⟨pre, post, hlive, hupd⟩ := SlotTable.live_update hf
  have hnew : (w.drop i o).table.live = pre ++ post := hupd fun _ => none
  refine ⟨h.fewer ?_ rfl, find_of_eq_none.mpr fun g hg heq => ?_⟩
  · rw [hnew, hlive]
    exact (List.sublist_cons_self f post).append_left pre
  · have hmem := (SlotTable.mem_update (f := fun _ => none) h.once hf).mp hg
    have hkey := (SlotTable.mem_of_find hf).2
    simp only [Flk.of, beq_iff_eq] at hkey
    simp only [reduceCtorEq, false_or] at hmem
    exact hmem.2 (heq.trans hkey.symm)

variable [DecidableEq T]

theorem acquire_iff (t : T) (nb stop : Bool) : Sound inode (w.acquire t i o excl nb stop).2 ↔
    (conflicts w.table i o excl = false → (insert ⟨i, o, excl⟩ w.table).isSome →
      find (Flk.of i o) w.table = none) := by
  unfold World.acquire
  split
  next hc =>
    refine iff_of_true ?_ fun hno => by simp [hc] at hno
    split
    · exact h.fewer (.refl _) rfl
    split
    · exact h.fewer (.refl _) rfl
    · exact h.fewer (.refl _) rfl
  rename_i hc
  cases hins : insert ⟨i, o, excl⟩ w.table with
  | none => exact iff_of_true (h.fewer (.refl _) rfl) fun _ hsome => by cases hsome
  | some table =>
    have hmem := fun f => SlotTable.mem_insert (b := f) hins
    constructor
    · intro hs _ _
      have hnd := hs.once
      change (table.live.map _).Nodup at hnd
      rw [((SlotTable.insert_perm hins).map _).nodup_iff, List.map_cons, List.nodup_cons] at hnd
      exact find_of_eq_none.mpr fun f hf heq => hnd.1 (List.mem_map.mpr ⟨f, hf, heq⟩)
    · intro hno
      have hnone := find_of_eq_none.mp (hno (by simpa using hc) rfl)
      have hothers : ∀ f ∈ w.table.live, f.ino = i → (excl = true ∨ f.excl = true) →
          f.owner = o := by
        intro f hf hfi hex
        by_contra hfo
        refine hc (List.any_eq_true.mpr ⟨f, hf, ?_⟩)
        simpa [hfi, hfo] using hex
      refine ⟨fun f hf g hg hex heq => ?_, SlotTable.nodup_insert h.once hins hnone,
        fun o' ho' f hf hfo => ?_⟩
      · obtain rfl | hf := (hmem f).mp hf <;> obtain rfl | hg := (hmem g).mp hg
        · rfl
        · exact (hothers g hg heq.symm (.inl hex)).symm
        · exact hothers f hf heq (.inr hex)
        · exact h.excludes f hf g hg hex heq
      · have hoo : o' ≠ o := fun hoo => by simp [World.setUnlocked, World.setPhase, hoo] at ho'
        obtain rfl | hf := (hmem f).mp hf
        · exact absurd hfo.symm hoo
        · exact h.released o' (by simpa [World.setUnlocked, World.setPhase, hoo] using ho') f hf hfo

theorem flockOp (t : T) (o : O) (op : BitVec 32) (stop : Bool) :
    Sound inode (w.flockOp inode t o op stop).2 := by
  unfold World.flockOp
  cases hi : inode o with
  | none => exact h
  | some i =>
    dsimp only
    split
    · exact h
    cases hf : find (Flk.of i o) w.table with
    | none =>
      dsimp only
      split
      · exact h.unlock hi hf
      · exact (h.acquire_iff ..).mpr fun _ _ => hf
    | some f =>
      obtain ⟨hd, hnone⟩ := h.drop hf
      dsimp only
      split
      · exact hd.unlock hi hnone
      split
      · exact h.relock o
      · exact (hd.acquire_iff ..).mpr fun _ _ => hnone

theorem step_iff (a : Act O T) : Sound inode (w.step inode a) ↔ Lone inode w a := by
  cases a with
  | call t o op stop =>
    refine iff_of_true ?_ trivial
    simp only [World.step]
    split
    · exact h.flockOp t o op stop
    · exact h
  | resume t stop =>
    simp only [World.step, Lone]
    cases w.phase t with
    | idle | asleep o excl => exact iff_of_true h fun _ _ _ hw => by cases hw
    | woken o excl =>
      dsimp only
      cases hi : inode o with
      | none =>
        refine iff_of_true h ?_
        rintro _ _ _ ⟨⟩ hno
        cases hi.symm.trans hno
      | some i =>
        refine (h.acquire_iff ..).trans ⟨?_, fun hl => hl o excl i rfl hi⟩
        rintro hl _ _ i' ⟨⟩ hi'
        cases hi.symm.trans hi'
        exact hl
  | rouse t => exact iff_of_true (h.fewer (.refl _) rfl) trivial
  | close o =>
    refine iff_of_true (h.fewer ?_ rfl) trivial
    rw [show (w.step inode (.close o)).table.live = w.table.live.filter (·.owner ≠ o) from
      SlotTable.live_filter _ _]
    exact List.filter_sublist

end Sound

-- The table keeps its promises in exactly the runs in which no two blocked requests of one open
-- file description get their lock one after the other.
theorem sound_iff_lone [DecidableEq T] (inode : O → Option I) (acts : List (Act O T)) :
    Always (World.step inode) (Sound inode) boot acts ↔
      Allowed (World.step inode) (Lone inode) boot acts :=
  always_iff_allowed_of_iff (I := fun _ => True) (fun _ a _ h => ⟨trivial, h.step_iff a⟩) trivial
    ⟨by simp [boot], by simp [boot], by simp [boot]⟩

-- Tasks 0 and 1 share description 0 and wait for a lock. Both get it, and LOCK_UN leaves one.
def twoWaiters : List (Act ℕ ℕ) :=
  [.call 2 1 2 false, .call 0 0 1 false, .call 1 0 1 false, .call 2 1 8 false, .resume 0 false,
    .resume 1 false, .call 0 0 8 false]

theorem lock_left_behind : ¬ Always (World.step fun _ => some ()) (Sound fun _ => some ())
    (boot : World Unit ℕ ℕ) twoWaiters := by
  intro h
  have hent : ∃ f ∈ (run (World.step fun _ => some ()) (boot : World Unit ℕ ℕ) twoWaiters).table.live,
      f.owner = 0 := by decide +kernel
  obtain ⟨f, hf, hfo⟩ := hent
  exact h.last.released 0 (by decide +kernel) f hf hfo rfl

def Attended (inode : O → Option I) (w : World I O T) : Prop :=
  ∀ t o excl, w.phase t = .asleep o excl →
    ∃ i, inode o = some i ∧ conflicts w.table i o excl = true

theorem attended_of_awake (h : ∀ t, w'.phase t = (w.phase t).wake) : Attended inode w' := by
  intro t o excl ht
  rw [h] at ht
  cases hp : w.phase t <;> rw [hp] at ht <;> cases ht

namespace Attended

variable [DecidableEq T] (h : Attended inode w)
include h

theorem land {table : SlotTable (Flk I O)} {unlocked : O → Bool} {p : Phase O}
    (hlive : w.table.live ⊆ table.live) (hp : ∀ o excl, p = .asleep o excl →
      ∃ i, inode o = some i ∧ conflicts table i o excl = true) :
    Attended inode ⟨table, unlocked, Function.update w.phase t p⟩ := by
  intro u o excl
  dsimp only
  refine update_rule u (hp o excl) fun _ hu => ?_
  obtain ⟨i, hi, hc⟩ := h u o excl hu
  obtain ⟨f, hf, hfc⟩ := List.any_eq_true.mp hc
  exact ⟨i, hi, List.any_eq_true.mpr ⟨f, hlive hf, hfc⟩⟩

theorem acquire (hi : inode o = some i) : Attended inode (w.acquire t i o excl nb stop).2 := by
  have hidle : Attended inode (w.setPhase t .idle) := h.land (fun _ => id) fun _ _ => nofun
  unfold World.acquire
  split
  next hc =>
    split
    · exact hidle
    split
    · exact hidle
    · refine h.land (fun _ => id) ?_
      rintro _ _ ⟨⟩
      exact ⟨i, hi, hc⟩
  · split
    · exact hidle
    next hins =>
      exact h.land (fun f hf => (SlotTable.mem_insert hins).mpr (.inr hf)) fun _ _ => nofun

theorem step (a : Act O T) : Attended inode (w.step inode a) := by
  have hdrop : ∀ i o, Attended inode (w.drop i o) := fun i o => attended_of_awake fun _ => rfl
  cases a with
  | call t o op stop =>
    simp only [World.step, World.flockOp]
    split
    · cases hi : inode o with
      | none => exact h
      | some i =>
        dsimp only
        split
        · exact h
        split
        · split
          · exact hdrop i o
          split
          · exact h
          · exact (hdrop i o).acquire hi
        · split
          · exact h
          · exact h.acquire hi
    · exact h
  | resume t stop =>
    simp only [World.step]
    split
    · split
      next hi => exact h.acquire hi
      · exact h
    · exact h
  | rouse t =>
    refine h.land (fun _ => id) fun o excl hp => ?_
    cases hw : w.phase t <;> rw [hw] at hp <;> cases hp
  | close o =>
    simp only [World.step, World.flockRelease]
    split
    · exact attended_of_awake fun _ => rfl
    next hnone =>
      intro t o' excl ht
      obtain ⟨i, hi, hc⟩ := h t o' excl ht
      refine ⟨i, hi, ?_⟩
      rw [conflicts, SlotTable.live_filter, List.filter_eq_self.mpr (by simpa using hnone)]
      exact hc

end Attended

-- No wake-up is lost: a task asleep in `flock_op` has a conflicting lock to wait for.
theorem sleepers_attended [DecidableEq T] (inode : O → Option I) (acts : List (Act O T)) :
    Always (World.step inode) (Attended inode) boot acts :=
  always_of_step (fun _ a h => h.step a) (fun _ h => h) fun _ _ _ => nofun

end DosKernel.Flock

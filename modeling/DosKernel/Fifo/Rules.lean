import DosKernel.Lib.Run
import Mathlib.Logic.Function.Basic

namespace DosKernel.Fifo

open DosKernel.Lib
open Function (forall_update_iff update)

inductive Role where
  | reader
  | writer
  | both
  deriving DecidableEq

def Role.reads (r : Role) : ℕ := if r = .writer then 0 else 1

def Role.writes (r : Role) : ℕ := if r = .reader then 0 else 1

structure Pipe where
  count : ℕ := 0
  readers : ℕ := 0
  writers : ℕ := 0
  rGen : BitVec 32 := 0
  wGen : BitVec 32 := 0

-- Where an open file is: in `fifo_attach` before the lock or asleep, open with its `fifo_wseen`, or
-- in `fifo_put` before one of its two sections.
inductive Phase where
  | idle
  | joined (role : Role) (nonblock : Bool)
  | waiting (role : Role) (rSeen wSeen : BitVec 32)
  | opened (role : Role) (nonblock : Bool) (wseen : BitVec 32)
  | leaving (reads writes : ℕ)
  | left
  deriving DecidableEq

-- Not in the source: `seen`, whether a writer came since the open file was attached, and `opens`,
-- how many came after it.
structure World where
  pipe : Pipe := {}
  users : List ℕ := []
  phase : ℕ → Phase := fun _ => .idle
  seen : ℕ → Bool := fun _ => false
  opens : ℕ → ℕ := fun _ => 0

structure Ready where
  pollIn : Bool := false
  pollOut : Bool := false
  pollErr : Bool := false
  pollHup : Bool := false

namespace World

variable (w : World) (e : ℕ)

def goto (p : Phase) : World := { w with phase := update w.phase e p }

def alone (rSeen wSeen : BitVec 32) : Role → Bool
  | .reader => w.pipe.writers == 0 && w.pipe.wGen == wSeen
  | .writer => w.pipe.readers == 0 && w.pipe.rGen == rSeen
  | .both => false

def retry (stop : Bool) : World :=
  match w.phase e with
  | .waiting role rSeen wSeen =>
    if !w.alone rSeen wSeen role then w.goto e (.opened role false (wSeen - 1))
    else if stop then w.goto e (.leaving role.reads role.writes)
    else w
  | _ => w

-- An end is counted. A writer comes nowhere else, so `seen` is kept here.
def count (role : Role) : World :=
  { w with
    pipe := { w.pipe with
      readers := w.pipe.readers + role.reads
      writers := w.pipe.writers + role.writes
      rGen := w.pipe.rGen + BitVec.ofNat 32 role.reads
      wGen := w.pipe.wGen + BitVec.ofNat 32 role.writes }
    seen := fun u => update w.seen e false u || decide (0 < w.pipe.writers + role.writes)
    opens := update (fun u => w.opens u + role.writes) e 0 }

-- The pipe's lock section of `fifo_attach`, up to its first sleep. ENXIO counts no end.
def attach (stop : Bool) : World :=
  match w.phase e with
  | .joined role nonblock =>
    if role = .writer ∧ nonblock = true ∧ w.pipe.readers = 0 then w.goto e (.leaving 0 0)
    else
      let w := w.count e role
      let gen := w.pipe.wGen
      if nonblock = true ∨ role = .both then
        w.goto e (.opened role nonblock (if role = .reader then gen else gen - 1))
      else (w.goto e (.waiting role w.pipe.rGen gen)).retry e stop
  | _ => w

def put : World :=
  match w.phase e with
  | .leaving r k =>
    { w.goto e .left with
      pipe := { w.pipe with readers := w.pipe.readers - r, writers := w.pipe.writers - k } }
  | _ => w

def fifoRead (n : ℕ) : World :=
  match w.phase e with
  | .opened role _ _ =>
    if role = .writer then w
    else { w with pipe.count := w.pipe.count - min w.pipe.count n }
  | _ => w

-- At most `PIPE_BUF` bytes are written at once or not at all.
def want (n : ℕ) : ℕ := if n ≤ 4096 then n else 1

-- One round of the loop of `fifo_write`, with `rest` of the `n` bytes to go.
def fifoWrite (n rest : ℕ) : World :=
  match w.phase e with
  | .opened role _ _ =>
    let room := 65536 - w.pipe.count
    if role = .reader ∨ w.pipe.readers = 0 ∨ room < want n ∨ room = 0 then w
    else { w with pipe.count := w.pipe.count + min rest room }
  | _ => w

-- The last user frees the pipe; the next open makes a new one.
def drop : World :=
  match w.phase e with
  | .left =>
    let users := w.users.erase e
    { w.goto e .idle with users := users, pipe := if users = [] then {} else w.pipe }
  | _ => w

def fifoReadiness : Ready :=
  match w.phase e with
  | .opened role _ wseen =>
    { pollIn := decide (role ≠ .writer) && decide (w.pipe.count ≠ 0)
      pollHup := decide (role ≠ .writer) && decide (w.pipe.writers = 0 ∧ w.pipe.wGen ≠ wseen)
      pollOut := decide (role ≠ .reader) && decide (w.pipe.count + 4096 ≤ 65536)
      pollErr := decide (role ≠ .reader) && decide (w.pipe.readers = 0) }
  | _ => { pollErr := true }

end World

inductive Act where
  | open (e : ℕ) (role : Role) (nonblock : Bool)
  | attach (e : ℕ) (stop : Bool)
  | retry (e : ℕ) (stop : Bool)
  | close (e : ℕ)
  | put (e : ℕ)
  | drop (e : ℕ)
  | read (e n : ℕ)
  | write (e n rest : ℕ)
  | poll (e : ℕ)

def World.step (w : World) : Act → World
  | .open e role nonblock =>
    if w.phase e = .idle then { w.goto e (.joined role nonblock) with users := e :: w.users } else w
  | .attach e stop => w.attach e stop
  | .retry e stop => w.retry e stop
  | .close e =>
    match w.phase e with
    | .opened role _ _ => w.goto e (.leaving role.reads role.writes)
    | _ => w
  | .put e => w.put e
  | .drop e => w.drop e
  | .read e n => w.fifoRead e n
  | .write e n rest => w.fifoWrite e n rest
  | .poll _ => w

-- A blocking reader's open returned after a writer; polls and other opens report what is there.
def World.Honest (w : World) (a : Act) : Prop :=
  (∀ e wseen, (w.step a).phase e = .opened .reader false wseen → (w.step a).seen e = true) ∧
  match a with
  | .poll e => ∀ role nonblock wseen, w.phase e = .opened role nonblock wseen → role ≠ .writer →
      ((w.fifoReadiness e).pollHup = true ↔ w.pipe.writers = 0 ∧ w.seen e = true)
  | .attach e stop => w.phase e = .joined .writer true →
      ((w.attach e stop).phase e = .leaving 0 0 ↔ w.pipe.readers = 0)
  | _ => True

-- How far `fifo_wseen` is behind the writers counted when the open file was.
def lag (role : Role) (nonblock : Bool) : ℕ := if role = .reader ∧ nonblock = true then 0 else 1

-- A reader without a writer that had one has had some come since, other than by multiples of 2 ^ 32
-- and, if it did not block, those that were there.
def World.Told (w : World) : Act → Prop
  | .poll e => ∀ role nonblock wseen, w.phase e = .opened role nonblock wseen → role ≠ .writer →
      w.pipe.writers = 0 → w.seen e = true → (w.opens e + lag role nonblock) % 4294967296 ≠ 0
  | _ => True

def Tracks (w : World) (u : ℕ) : Phase → Prop
  | .waiting role _ wSeen => role ≠ .both ∧ w.pipe.wGen = wSeen + BitVec.ofNat 32 (w.opens u)
  | .opened role nonblock wseen =>
    w.pipe.wGen = wseen + BitVec.ofNat 32 (w.opens u + lag role nonblock) ∧
      (role ≠ .writer → lag role nonblock = 1 → w.seen u = true)
  | _ => True

structure Inv (w : World) : Prop where
  users : ∀ u, w.phase u ≠ .idle → u ∈ w.users
  now : 0 < w.pipe.writers → ∀ u, w.seen u = true
  since : ∀ u, w.opens u ≠ 0 → w.seen u = true
  tracks : ∀ u, Tracks w u (w.phase u)

variable {w : World} {e : ℕ} {p : Phase} {role : Role} {stop : Bool} {rSeen wSeen : BitVec 32}

section

variable (h : Inv w)

include h

theorem Inv.users_goto (hin : w.phase e ≠ .idle) :
    ∀ u, (w.goto e p).phase u ≠ .idle → u ∈ w.users :=
  (forall_update_iff w.phase fun u q => q ≠ .idle → u ∈ w.users).mpr
    ⟨fun _ => h.users e hin, fun u _ => h.users u⟩

theorem Inv.goto (hin : w.phase e ≠ .idle) (hp : Tracks w e p) : Inv (w.goto e p) where
  users := h.users_goto hin
  now := h.now
  since := h.since
  tracks := (forall_update_iff w.phase (Tracks w)).mpr ⟨hp, fun u _ => h.tracks u⟩

theorem Inv.seen_of_not_alone (hp : w.phase e = .waiting .reader rSeen wSeen)
    (ha : w.alone rSeen wSeen .reader = false) : w.seen e = true := by
  simp only [World.alone, Bool.and_eq_false_iff, beq_eq_false_iff_ne] at ha
  rcases ha with ha | ha
  · exact h.now (Nat.pos_of_ne_zero ha) e
  · have ht := h.tracks e
    rw [hp] at ht
    refine h.since e fun hzero => ha ?_
    rw [ht.2, hzero]
    exact BitVec.add_zero _

theorem Inv.retry : Inv (w.retry e stop) := by
  unfold World.retry
  split
  next role rSeen wSeen hp =>
    have ht := h.tracks e
    rw [hp] at ht
    have hin : w.phase e ≠ .idle := by simp [hp]
    split_ifs with ha
    · refine h.goto hin ⟨?_, fun hr _ => ?_⟩
      · rw [ht.2, lag, if_neg fun hl => Bool.noConfusion hl.2]
        bv_omega
      · cases role with
        | reader => exact h.seen_of_not_alone hp (by simpa using ha)
        | writer => exact absurd rfl hr
        | both => exact absurd rfl ht.1
    · exact h.goto hin trivial
    · exact h
  · exact h

theorem Inv.count (hin : w.phase e ≠ .idle) (hp : Tracks (w.count e role) e p) :
    Inv ((w.count e role).goto e p) := by
  have hopens : ∀ {u}, u ≠ e → (w.count e role).opens u = w.opens u + role.writes := fun hu => by
    simp [World.count, hu]
  have hseen : ∀ {u}, u ≠ e → w.seen u = true → (w.count e role).seen u = true := fun hu hs => by
    simp [World.count, hu, hs]
  have hnow : 0 < w.pipe.writers + role.writes → ∀ u, (w.count e role).seen u = true :=
    fun hw u => by simp [World.count, hw]
  have hgen : ∀ {x : BitVec 32} {n : ℕ}, w.pipe.wGen = x + BitVec.ofNat 32 n →
      (w.count e role).pipe.wGen = x + BitVec.ofNat 32 (n + role.writes) := fun hx => by
    rw [BitVec.ofNat_add, ← BitVec.add_assoc, ← hx]
    rfl
  refine ⟨h.users_goto hin, hnow, fun u hu => ?_, ?_⟩
  · by_cases hue : u = e
    · exact absurd (by simp [World.goto, World.count, hue]) hu
    · have hsum : w.opens u + role.writes ≠ 0 := hopens hue ▸ hu
      by_cases hold : w.opens u = 0
      · exact hnow (by omega) u
      · exact hseen hue (h.since u hold)
  · refine (forall_update_iff w.phase (Tracks (w.count e role))).mpr ⟨hp, fun u hue => ?_⟩
    have ht := h.tracks u
    cases hq : w.phase u with
    | waiting r rs ws =>
      rw [hq] at ht
      exact ⟨ht.1, (hopens hue).symm ▸ hgen ht.2⟩
    | opened r nonblock ws =>
      rw [hq] at ht
      refine ⟨?_, fun hr hl => hseen hue (ht.2 hr hl)⟩
      rw [hopens hue, Nat.add_right_comm]
      exact hgen ht.1
    | _ => trivial

theorem Inv.attach : Inv (w.attach e stop) := by
  unfold World.attach
  split
  next role nonblock hp =>
    have hin : w.phase e ≠ .idle := by simp [hp]
    have hzero : (w.count e role).opens e = 0 := by simp [World.count]
    split
    · exact h.goto hin trivial
    split
    next hopen =>
      refine h.count hin ⟨?_, fun hr hl => ?_⟩
      · rw [hzero, lag]
        by_cases hr : role = .reader
        · rw [if_pos hr, if_pos ⟨hr, hopen.resolve_right (by simp [hr])⟩]
          exact (BitVec.add_zero _).symm
        · rw [if_neg hr, if_neg fun hl => hr hl.1]
          bv_omega
      · cases role with
        | reader => simp [lag, hopen.resolve_right Role.noConfusion] at hl
        | writer => exact absurd rfl hr
        | both => simp [World.count, Role.writes]
    next hblock =>
      refine (h.count hin (p := .waiting role _ _) ⟨fun hb => hblock (.inr hb), ?_⟩).retry
      rw [hzero]
      exact (BitVec.add_zero _).symm
  · exact h

theorem inv_step (a : Act) : Inv (w.step a) := by
  cases a with
  | «open» e role nonblock =>
    simp only [World.step]
    split
    · refine ⟨?_, h.now, h.since, ?_⟩
      · exact (forall_update_iff w.phase fun u q => q ≠ .idle → u ∈ e :: w.users).mpr
          ⟨fun _ => List.mem_cons_self, fun u _ hu => List.mem_cons_of_mem _ (h.users u hu)⟩
      · exact (forall_update_iff w.phase (Tracks w)).mpr ⟨trivial, fun u _ => h.tracks u⟩
    · exact h
  | attach e stop => exact h.attach
  | retry e stop => exact h.retry
  | close e =>
    simp only [World.step]
    split
    next hp => exact h.goto (by simp [hp]) trivial
    · exact h
  | put e =>
    simp only [World.step, World.put]
    split
    next hp =>
      have hleft := h.goto (e := e) (p := .left) (by simp [hp]) trivial
      refine ⟨hleft.users, fun hw => h.now (Nat.lt_of_lt_of_le hw (Nat.sub_le ..)), h.since, ?_⟩
      exact hleft.tracks
    · exact h
  | drop e =>
    simp only [World.step, World.drop]
    split
    next hp =>
      have hidle := h.goto (e := e) (p := .idle) (by simp [hp]) trivial
      have husers : ∀ u, (w.goto e .idle).phase u ≠ .idle → u ∈ w.users.erase e := fun u hu => by
        have hue : u ≠ e := fun hue => hu (by simp [World.goto, hue])
        exact (List.mem_erase_of_ne hue).mpr (hidle.users u hu)
      refine ⟨husers, fun hw => ?_, h.since, fun u => ?_⟩
      · split at hw
        · cases hw
        · exact h.now hw
      · dsimp only
        split
        next hnil =>
          have hall : (w.goto e .idle).phase u = .idle := by
            by_contra hne
            exact List.not_mem_nil (hnil ▸ husers u hne)
          rw [hall]
          trivial
        · exact hidle.tracks u
    · exact h
  | read e n =>
    simp only [World.step, World.fifoRead]
    split
    · split
      · exact h
      · exact ⟨h.users, h.now, h.since, h.tracks⟩
    · exact h
  | write e n rest =>
    simp only [World.step, World.fifoWrite]
    split
    · split
      · exact h
      · exact ⟨h.users, h.now, h.since, h.tracks⟩
    · exact h
  | poll e => exact h

end

theorem inv_boot : Inv {} :=
  ⟨fun _ hu => absurd rfl hu, fun hw => absurd hw (Nat.lt_irrefl 0), fun _ hu => absurd rfl hu,
    fun _ => trivial⟩

theorem Inv.hup_iff {nonblock : Bool} {wseen : BitVec 32} (h : Inv w)
    (hp : w.phase e = .opened role nonblock wseen) (hr : role ≠ .writer) :
    ((w.fifoReadiness e).pollHup = true ↔ w.pipe.writers = 0 ∧ w.seen e = true) ↔
      (w.pipe.writers = 0 → w.seen e = true → (w.opens e + lag role nonblock) % 4294967296 ≠ 0) := by
  have ht := h.tracks e
  rw [hp] at ht
  have hgen : w.pipe.wGen ≠ wseen ↔ (w.opens e + lag role nonblock) % 4294967296 ≠ 0 := by
    rw [ht.1, ne_eq, ← BitVec.toNat_inj, BitVec.toNat_add, BitVec.toNat_ofNat]
    omega
  have hhup : (w.fifoReadiness e).pollHup = true ↔ w.pipe.writers = 0 ∧ w.pipe.wGen ≠ wseen := by
    simp [World.fifoReadiness, hp, hr]
  have hnever : w.seen e = false → w.opens e + lag role nonblock = 0 := fun hs => by
    have hzero : w.opens e = 0 := by
      by_contra hne
      cases hs.symm.trans (h.since e hne)
    have hlag : lag role nonblock ≠ 1 := fun hone => by cases hs.symm.trans (ht.2 hr hone)
    rw [lag] at hlag ⊢
    split at hlag
    · rw [hzero, if_pos ‹_›]
    · exact absurd rfl hlag
  rw [hhup, hgen]
  cases hs : w.seen e with
  | true => simp
  | false => simp [hnever hs]

theorem Inv.honest_iff (h : Inv w) (a : Act) : w.Honest a ↔ w.Told a := by
  have hblock : ∀ e wseen, (w.step a).phase e = .opened .reader false wseen →
      (w.step a).seen e = true := fun e wseen hp => by
    have ht := (inv_step h a).tracks e
    rw [hp] at ht
    exact ht.2 Role.noConfusion rfl
  cases a with
  | poll e =>
    refine (and_iff_right hblock).trans ?_
    refine forall_congr' fun role => forall_congr' fun nonblock => forall_congr' fun wseen => ?_
    exact forall_congr' fun hp => forall_congr' fun hr => h.hup_iff hp hr
  | attach e stop =>
    refine iff_of_true ⟨hblock, fun hp => ?_⟩ trivial
    by_cases hr : w.pipe.readers = 0
    · simp [World.attach, World.goto, hp, hr]
    · simp [World.attach, World.goto, hp, hr]
  | _ => exact iff_of_true ⟨hblock, trivial⟩ trivial

-- Opens and polls tell the truth about the writers in exactly the runs in which no non-blocking
-- reader is polled after the writers it found have left, or after a multiple of 2 ^ 32 came.
theorem honest_iff_told (acts : List Act) :
    Allowed World.step World.Honest {} acts ↔ Allowed World.step World.Told {} acts :=
  allowed_congr (fun _ a h => inv_step h a) (fun _ a h => h.honest_iff a) inv_boot

-- A reader opens without blocking while a writer is there, and the writer leaves.
theorem hangup_missed : ¬ Allowed World.step World.Honest {} [.open 0 .both true, .attach 0 false,
    .open 1 .reader true, .attach 1 false, .close 0, .put 0, .poll 1] := by
  rintro ⟨-, -, -, -, -, -, ⟨-, h⟩, -⟩
  exact absurd ((h .reader true 1 rfl nofun).mpr ⟨rfl, rfl⟩) (by decide)

end DosKernel.Fifo

import Mathlib.Data.List.Basic
import Mathlib.Tactic.Common
import DosKernel.Lib.Run

namespace DosKernel.CowRef

open DosKernel.Lib List

-- Inside one of the two loops a holder has the value it has last read of the count.
inductive Phase where
  | idle
  | sharing (o : ℕ)
  | dropping (o : ℕ)
deriving DecidableEq, Repr

-- A frame's slot of the table, its holders, and how often `cow_ref_drop` has returned 1 for it.
structure Frame where
  rc : ℕ
  holders : List Phase
  freed : ℕ
deriving DecidableEq, Repr

def shared (o : ℕ) : ℕ := if o = 0 then 2 else (o + 1) % 65536

-- `share` and `drop` are the first loads; `go` is the next turn of the holder's loop: an exchange
-- that succeeds or reads anew, or the plain store.
inductive Act where
  | share (i : ℕ)
  | drop (i : ℕ)
  | go (i : ℕ)
deriving DecidableEq, Repr

def Frame.setPhase (f : Frame) (i : ℕ) (p : Phase) : Frame :=
  { f with holders := f.holders.set i p }

def Frame.step (f : Frame) : Act → Frame
  | .share i => if f.holders[i]? = some .idle then f.setPhase i (.sharing f.rc) else f
  | .drop i => if f.holders[i]? = some .idle then f.setPhase i (.dropping f.rc) else f
  | .go i =>
    match f.holders[i]? with
    | some (.sharing o) =>
      if f.rc = o then
        { f with rc := shared o, holders := (f.holders.set i .idle) ++ [.idle] }
      else f.setPhase i (.sharing f.rc)
    | some (.dropping o) =>
      if o ≤ 1 then { rc := 0, holders := f.holders.eraseIdx i, freed := f.freed + 1 }
      else if f.rc = o then { f with rc := o - 1, holders := f.holders.eraseIdx i }
      else f.setPhase i (.dropping f.rc)
    | _ => f

def allocated : Frame := ⟨0, [.idle], 0⟩

-- The count stands for the holders, 0 and 1 both for one; the last gives the frame back, once.
structure Frame.Sound (f : Frame) : Prop where
  many : 2 ≤ f.holders.length → f.rc = f.holders.length
  one : f.holders.length = 1 → f.rc ≤ 1
  freed : f.freed = if f.holders.length = 0 then 1 else 0

-- No holder is added to as many as the count can tell apart.
def Frame.Fits (f : Frame) : Act → Prop
  | .go i => f.holders[i]? = some (.sharing f.rc) → f.holders.length < 65535
  | _ => True

variable {f : Frame} {i : ℕ} {p : Phase}

structure Inv (f : Frame) : Prop where
  sound : f.Sound
  small : f.holders.length ≤ 65535
  -- a holder that has read 0 or 1 is alone, so nobody changes the count before its store
  last : ∀ o, .dropping o ∈ f.holders → o ≤ 1 → f.holders.length = 1

theorem inv_allocated : Inv allocated where
  sound := ⟨by decide, by decide, by decide⟩
  small := by decide
  last := by simp [allocated]

theorem Inv.setPhase (h : Inv f)
    (hp : ∀ o, p = .dropping o → o ≤ 1 → f.holders.length = 1) : Inv (f.setPhase i p) where
  sound := by
    have hlen : (f.setPhase i p).holders.length = f.holders.length := length_set
    exact ⟨hlen ▸ h.sound.many, hlen ▸ h.sound.one, hlen ▸ h.sound.freed⟩
  small := by
    have hlen : (f.setPhase i p).holders.length = f.holders.length := length_set
    exact hlen ▸ h.small
  last := by
    intro o ho hle
    rw [Frame.setPhase, length_set]
    obtain hold | hnew := mem_or_eq_of_mem_set ho
    · exact h.last o hold hle
    · exact hp o hnew.symm hle

theorem Inv.alone (h : Inv f) (hi : i < f.holders.length) (hle : f.rc ≤ 1) :
    f.holders.length = 1 := by
  have hmany := h.sound.many
  omega

theorem lt_of_getElem? {p : Phase} (hi : f.holders[i]? = some p) : i < f.holders.length :=
  (List.getElem?_eq_some_iff.mp hi).1

theorem Inv.grow (h : Inv f) (hi : f.holders[i]? = some (.sharing f.rc))
    (hroom : f.holders.length < 65535) :
    Inv { f with rc := shared f.rc, holders := (f.holders.set i .idle) ++ [.idle] } := by
  have hlt := lt_of_getElem? hi
  have hlen : ((f.holders.set i .idle) ++ [Phase.idle]).length = f.holders.length + 1 := by simp
  have hmany := h.sound.many
  have hone := h.sound.one
  have hfreed := h.sound.freed
  refine ⟨⟨?_, ?_, ?_⟩, ?_, ?_⟩
  · intro _
    simp only [shared]
    split <;> omega
  · intro hbad
    rw [hlen] at hbad
    omega
  · rw [if_neg (by omega)] at hfreed
    rw [hlen, if_neg (by omega)]
    exact hfreed
  · rw [hlen]
    omega
  · intro o ho hle
    rw [mem_append, mem_singleton] at ho
    obtain hold | hnew := ho
    · -- a holder that has read at most 1 would be the one that shares
      obtain hold | hnew := mem_or_eq_of_mem_set hold
      · have hsole := h.last o hold hle
        obtain ⟨q, hq⟩ := length_eq_one_iff.mp hsole
        rw [hq, mem_singleton] at hold
        rw [hq, ← hold] at hi
        have hzero : i = 0 := by omega
        subst hzero
        cases hi
      · cases hnew
    · cases hnew

theorem length_eraseIdx_of_lt {l : List Phase} (hi : i < l.length) :
    (l.eraseIdx i).length = l.length - 1 := by
  rw [length_eraseIdx, if_pos hi]

theorem Inv.leave (h : Inv f) {o : ℕ} (hi : f.holders[i]? = some (.dropping o)) (ho : ¬ o ≤ 1)
    (hrc : f.rc = o) : Inv { f with rc := o - 1, holders := f.holders.eraseIdx i } := by
  have hlt := lt_of_getElem? hi
  have hlen := length_eraseIdx_of_lt hlt
  have hmany := h.sound.many
  have hone := h.sound.one
  have hfreed := h.sound.freed
  have hsmall := h.small
  refine ⟨⟨?_, ?_, ?_⟩, ?_, ?_⟩
  · intro hrest
    simp only
    omega
  · intro hrest
    rw [hlen] at hrest
    simp only
    omega
  · rw [if_neg (by omega)] at hfreed
    rw [hlen, if_neg (by omega)]
    exact hfreed
  · rw [hlen]
    omega
  · intro o' ho' hle
    have hsole := h.last o' (mem_of_mem_eraseIdx ho') hle
    omega

theorem Inv.free (h : Inv f) {o : ℕ} (hi : f.holders[i]? = some (.dropping o)) (ho : o ≤ 1) :
    Inv { rc := 0, holders := f.holders.eraseIdx i, freed := f.freed + 1 } := by
  have hlt := lt_of_getElem? hi
  have hsole := h.last o (mem_of_getElem? hi) ho
  have hnone : f.holders.eraseIdx i = [] := by
    have hlen := length_eraseIdx_of_lt hlt
    exact eq_nil_of_length_eq_zero (by omega)
  have hfreed := h.sound.freed
  rw [if_neg (by omega)] at hfreed
  rw [hnone, hfreed]
  exact ⟨⟨by simp, by simp, by simp⟩, by simp, by simp⟩

theorem inv_step (a : Act) (h : Inv f) (ha : f.Fits a) : Inv (f.step a) := by
  cases a with
  | share i =>
    simp only [Frame.step]
    split
    next hi =>
      exact h.setPhase fun o hp => by cases hp
    · exact h
  | drop i =>
    simp only [Frame.step]
    split
    next hi =>
      apply h.setPhase
      intro o hp hle
      cases hp
      exact h.alone (lt_of_getElem? hi) hle
    · exact h
  | go i =>
    simp only [Frame.step]
    split
    next o hi =>
      split
      next hrc =>
        subst hrc
        exact h.grow hi (ha hi)
      · exact h.setPhase fun o hp => by cases hp
    next o hi =>
      split
      next ho =>
        exact h.free hi ho
      next ho =>
        split
        next hrc =>
          exact h.leave hi ho hrc
        · apply h.setPhase
          intro o hp hle
          cases hp
          exact h.alone (lt_of_getElem? hi) hle
    · exact h

theorem fits_of_sound (a : Act) (hs : (f.step a).Sound) : f.Fits a := by
  cases a with
  | share i => trivial
  | drop i => trivial
  | go i =>
    intro hi
    by_contra hfull
    have hcount := hs.many
    simp only [Frame.step, hi, if_true, length_append, length_set, length_singleton,
      shared] at hcount
    split at hcount <;> omega

-- The count stands for the holders in exactly the runs that never have 65536 of them.
theorem counted_iff_fits (acts : List Act) :
    Always Frame.step Frame.Sound allocated acts ↔ Allowed Frame.step Frame.Fits allocated acts :=
  always_iff_of_step (fun _ a => inv_step a) (fun _ h => h.sound) (fun _ a _ => fits_of_sound a)
    inv_allocated

def shares : ℕ → List Act
  | 0 => []
  | n + 1 => shares n ++ [.share 0, .go 0]

theorem run_share (c n k : ℕ) :
    run Frame.step ⟨c, replicate (n + 1) .idle, k⟩ [.share 0, .go 0] =
      ⟨shared c, replicate (n + 2) .idle, k⟩ := by
  have happend : Phase.idle :: (replicate n Phase.idle ++ [Phase.idle]) =
      replicate (n + 2) Phase.idle := by
    rw [← replicate_succ', ← replicate_succ]
  simp [run, Frame.step, Frame.setPhase, replicate_succ, happend]

theorem run_shares {n : ℕ} (hn : n ≤ 65535) : run Frame.step allocated (shares n) =
    ⟨if n = 0 then 0 else (n + 1) % 65536, replicate (n + 1) .idle, 0⟩ := by
  induction n with
  | zero => rfl
  | succ n ih =>
    rw [shares, run, foldl_append, ← run, ← run, ih (by omega), run_share]
    have hmod : (n + 1) % 65536 = n + 1 := Nat.mod_eq_of_lt (by omega)
    congr 1
    simp only [shared, hmod]
    split_ifs <;> omega

theorem run_overflow {n : ℕ} (hn : n = 65535) :
    run Frame.step allocated (shares n ++ [.drop 0, .go 0]) = ⟨0, replicate n .idle, 1⟩ := by
  rw [run, foldl_append, ← run, ← run, run_shares (by omega), if_neg (by omega)]
  have hzero : (n + 1) % 65536 = 0 := by omega
  rw [hzero]
  simp [run, Frame.step, Frame.setPhase, replicate_succ]

theorem not_sound_of_zero (hrc : f.rc = 0) (hmany : 2 ≤ f.holders.length) : ¬ f.Sound := by
  intro hs
  have hcount := hs.many hmany
  omega

theorem overflow {n : ℕ} (hn : n = 65535) :
    (run Frame.step allocated (shares n ++ [.drop 0, .go 0])).freed = 1 ∧
      (run Frame.step allocated (shares n ++ [.drop 0, .go 0])).holders.length = n ∧
        ¬ Always Frame.step Frame.Sound allocated (shares n ++ [.drop 0, .go 0]) := by
  refine ⟨?_, ?_, fun hs => ?_⟩
  · rw [run_overflow hn]
  · rw [run_overflow hn, length_replicate]
  · have hlast := hs.last
    rw [run_overflow hn] at hlast
    apply not_sound_of_zero rfl _ hlast
    simp only [length_replicate]
    omega

-- With 65536 mappings of one page the count is back at 0, and the next to leave frees the frame.
theorem freed_while_held :
    (run Frame.step allocated (shares 65535 ++ [.drop 0, .go 0])).freed = 1 ∧
      (run Frame.step allocated (shares 65535 ++ [.drop 0, .go 0])).holders.length = 65535 ∧
        ¬ Always Frame.step Frame.Sound allocated (shares 65535 ++ [.drop 0, .go 0]) :=
  overflow rfl

-- `cow_ref_sole`, by which the write fault decides to write in place
def Frame.sole (f : Frame) : Bool := decide (f.rc ≤ 1)

theorem sole_iff_alone {acts : List Act} (hfits : Allowed Frame.step Frame.Fits allocated acts) :
    Always Frame.step (fun f => ∀ i : ℕ, f.holders[i]? = some .idle →
      (f.sole = true ↔ f.holders = [.idle])) allocated acts := by
  refine always_of_allowed (fun _ a => inv_step a) (fun f h i hi => ?_) inv_allocated hfits
  rw [Frame.sole, decide_eq_true_iff]
  constructor
  · intro hle
    obtain ⟨p, hp⟩ := length_eq_one_iff.mp (h.alone (lt_of_getElem? hi) hle)
    rw [hp, getElem?_singleton] at hi
    split at hi
    · rwa [Option.some.inj hi] at hp
    · cases hi
  · intro halone
    exact h.sound.one (by rw [halone, length_singleton])

theorem sole_iff_alone_forked :
    Allowed Frame.step Frame.Fits allocated [.share 0, .go 0, .drop 1, .go 1] ∧
      Always Frame.step (fun f => ∀ i : ℕ, f.holders[i]? = some .idle →
        (f.sole = true ↔ f.holders = [.idle])) allocated [.share 0, .go 0, .drop 1, .go 1] := by
  have hfits : Allowed Frame.step Frame.Fits allocated [.share 0, .go 0, .drop 1, .go 1] :=
    ⟨trivial, fun _ => by decide, trivial, fun _ => by decide, trivial⟩
  exact ⟨hfits, sole_iff_alone hfits⟩

end DosKernel.CowRef

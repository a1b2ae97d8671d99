import Mathlib.Data.Int.Notation
import Mathlib.Data.List.Nodup
import DosKernel.Lib.Run
import DosKernel.Lib.Update
import Mathlib.Data.List.Perm.Basic

namespace DosKernel.Drv

open DosKernel.Lib

inductive ResKind where
  | ports
  | mmio
  | irq
  | dma
deriving DecidableEq, Repr

inductive DrvErr where
  | busy
  | range
  | noRes
  | noSys
deriving DecidableEq, Repr

def maxRes : ℕ := 48

def maxPerDriver : ℕ := 8

def maxIrq : ℕ := 64

def maxOrder : ℕ := 13

abbrev Block := ℕ × ℕ

structure Res (D : Type*) where
  used : Bool
  kind : ResKind
  owner : D
  base : ℕ
  len : ℕ
  va : ℕ
  dev : ℕ
  level : Bool
  masked : Bool
  excl : Bool
  exclIrq : Option ℕ
deriving DecidableEq, Repr

-- The resource table, the routing of the lines, each driver's list `rt->res`, the masked lines;
-- and, not in the source, the blocks the allocator gave and got back.
structure Table (D : Type*) where
  slot : ℕ → Res D
  line : ℕ → Option ℕ
  listed : D → List ℕ
  off : ℕ → Bool
  taken : List Block
  back : List Block

variable {D : Type*} [DecidableEq D]

def Table.setSlot (s : Table D) (i : ℕ) (r : Res D) : Table D :=
  { s with slot := Function.update s.slot i r }

def Table.freeSlot (s : Table D) : Option ℕ := (List.range maxRes).find? fun i => !(s.slot i).used

def Table.slotFor (s : Table D) (d : D) : Option ℕ :=
  if (s.listed d).length ≥ maxPerDriver then none else s.freeSlot

def Table.place (s : Table D) (d : D) (i : ℕ) (r : Res D) : Table D :=
  { s.setSlot i r with listed := Function.update s.listed d (s.listed d ++ [i]) }

def Table.resAlloc (s : Table D) (d : D) (kind : ResKind) : Option (ℕ × Table D) :=
  (s.slotFor d).map fun i =>
    (i, s.place d i { s.slot i with
      used := true, kind := kind, owner := d, base := 0, len := 0, va := 0, dev := 0 })

def Table.portClash (s : Table D) (base count : ℕ) : Bool :=
  (List.range maxRes).any fun i =>
    (s.slot i).used && decide ((s.slot i).kind = .ports) &&
      !(decide (base + count ≤ (s.slot i).base) || decide ((s.slot i).base + (s.slot i).len ≤ base))

-- `drv_ports_request`; `x86` is DRVRT_HAS_PORTS.
def Table.portsRequest (x86 : Bool) (s : Table D) (d : D) (base count : ℕ) :
    Except DrvErr ℕ × Table D :=
  if !x86 then (.error .noSys, s)
  else if count = 0 then (.error .range, s)
  else if s.portClash base count then (.error .busy, s)
  else match s.resAlloc d .ports with
    | none => (.error .noRes, s)
    | some (i, s) => (.ok (i + 1), s.setSlot i { s.slot i with base := base, len := count })

-- `drv_mmio_request`. `va` is the answer of `hal_mmio_map`; at 0 the slot stays taken until the
-- driver is released.
def Table.mmioRequest (x86 : Bool) (s : Table D) (d : D) (phys len va : ℕ) :
    Except DrvErr ℕ × Table D :=
  match s.resAlloc d .mmio with
  | none => (.error .noRes, s)
  | some (i, s) =>
    let at' := if x86 then phys else va
    (if !x86 && va = 0 then .error .noRes else .ok (i + 1),
      s.setSlot i { s.slot i with base := phys, len := len, va := at' })

def Table.irqRequest (s : Table D) (d : D) (line : ℤ) (level : Bool) : Except DrvErr ℕ × Table D :=
  if line < 0 ∨ line ≥ maxIrq then (.error .range, s)
  else if (s.line line.toNat).isSome then (.error .busy, s)
  else match s.resAlloc d .irq with
    | none => (.error .noRes, s)
    | some (i, s) =>
      (.ok (i + 1),
        { s.setSlot i { s.slot i with base := line.toNat, level := level, masked := false } with
          line := Function.update s.line line.toNat (some i) })

-- The loops for the order double a 32-bit word: past 2 ^ 31 it wraps and they do not end.
def order (n : ℕ) : Option ℕ := (List.range 32).find? fun k => n ≤ 1 <<< k

def width (addrBits : ℤ) : ℕ := if addrBits ≤ 0 ∨ addrBits > 64 then 32 else addrBits.toNat

def limit (width : ℕ) : ℕ :=
  if width ≥ 64 then 18446744073709551615 else 1 <<< width - 1

def frames (bytes : ℕ) : ℕ := (bytes + 4095) % 18446744073709551616 / 4096

inductive Grab where
  | stuck
  | failed
  | block (b : Block)
deriving DecidableEq, Repr

def grabOrder (phys : ℕ) : Option ℕ → Grab
  | none => .stuck
  | some o => if o > maxOrder ∨ phys = 0 then .failed else .block (phys, o)

-- `page_alloc_below` for an address width under 32 bits, `pmm_alloc_contiguous_dma32` otherwise.
def grab (width frames phys : ℕ) : Grab :=
  if width < 32 then grabOrder phys (order frames)
  else if frames % 4294967296 = 0 then .failed
  else grabOrder phys (order (frames % 4294967296))

def Fits (width frames phys : ℕ) : Prop :=
  (phys + frames * 4096 - 1) % 18446744073709551616 ≤ limit width

instance (width frames phys : ℕ) : Decidable (Fits width frames phys) :=
  inferInstanceAs (Decidable (_ ≤ _))

-- `drv_dma_request`. Both failures clear `used` and leave the slot in the driver's list, the second
-- with a block in hand. A request stuck in the order loop does not return.
def Table.dmaRequest (s : Table D) (d : D) (bytes : ℕ) (addrBits : ℤ) (phys : ℕ) :
    Except DrvErr ℕ × Table D :=
  if bytes = 0 then (.error .range, s)
  else match s.resAlloc d .dma with
    | none => (.error .noRes, s)
    | some (i, s) =>
      match grab (width addrBits) (frames bytes) phys with
      | .stuck => (.error .noRes, s)
      | .failed => (.error .noRes, s.setSlot i { s.slot i with used := false })
      | .block b =>
        if Fits (width addrBits) (frames bytes) b.1 then
          (.ok (i + 1),
            { s.setSlot i { s.slot i with
                base := b.1, len := frames bytes * 4096, va := b.1, dev := b.1 } with
              taken := b :: s.taken })
        else
          (.error .noRes,
            { s.setSlot i { s.slot i with used := false } with taken := b :: s.taken })

-- The block `pmm_free_contiguous (base, len / 4096)` gives back.
def Res.freed (r : Res D) : Option Block :=
  if r.kind = .dma ∧ r.base ≠ 0 ∧ r.len / 4096 % 4294967296 ≠ 0 then
    match order (r.len / 4096 % 4294967296) with
    | none => none
    | some o => if o > maxOrder then none else some (r.base, o)
  else none

def Res.unmasks (r : Res D) (l : ℕ) : Bool :=
  (decide (r.kind = .irq) && decide (r.base < maxIrq) && r.level && r.masked && l == r.base) ||
    (decide (r.kind = .ports) && r.excl && r.exclIrq == some l)

def Res.release (r : Res D) : Res D :=
  { r with
    used := false
    masked := r.masked && !(decide (r.kind = .irq) && decide (r.base < maxIrq) && r.level)
    excl := r.excl && !decide (r.kind = .ports)
    exclIrq := if r.kind = .ports ∧ r.excl = true then none else r.exclIrq }

def Table.releaseSlot (s : Table D) (i : ℕ) : Table D :=
  let r := s.slot i
  if !r.used then s
  else
    { s.setSlot i r.release with
      line := if r.kind = .irq ∧ r.base < maxIrq then Function.update s.line r.base none
        else s.line
      off := fun l => s.off l && !r.unmasks l
      back := r.freed.toList ++ s.back }

def Table.releaseAll (s : Table D) (d : D) : Table D :=
  let s := (s.listed d).foldl Table.releaseSlot s
  { s with listed := Function.update s.listed d [] }

inductive Act (D : Type*) where
  | ports (d : D) (base count : ℕ)
  | mmio (d : D) (phys len va : ℕ)
  | irq (d : D) (line : ℤ) (level : Bool)
  | dma (d : D) (bytes : ℕ) (addrBits : ℤ) (phys : ℕ)
  | releaseAll (d : D)
deriving DecidableEq, Repr

def Table.step (x86 : Bool) (s : Table D) : Act D → Table D
  | .ports d base count => (s.portsRequest x86 d base count).2
  | .mmio d phys len va => (s.mmioRequest x86 d phys len va).2
  | .irq d line level => (s.irqRequest d line level).2
  | .dma d bytes addrBits phys => (s.dmaRequest d bytes addrBits phys).2
  | .releaseAll d => s.releaseAll d

open List Table

open Function (update update_of_ne update_self)

variable {D : Type*} {s s' : Table D} {d : D} {i l : ℕ} {r : Res D} {b : Block}

def Res.held (r : Res D) : Option Block := if r.used then r.freed else none

def Table.held (s : Table D) : List Block := (List.range maxRes).filterMap fun i => (s.slot i).held

def Table.heldBy [DecidableEq D] (s : Table D) (d : D) : List Block :=
  (List.range maxRes).filterMap fun i => if (s.slot i).owner = d then (s.slot i).held else none

-- Releasing driver `d` frees its own entries, their lines and their blocks, and nothing else.
structure ReleasesOwn [DecidableEq D] (s : Table D) (d : D) : Prop where
  freed : ∀ i, (s.slot i).owner = d → ((s.releaseAll d).slot i).used = false
  kept : ∀ i, (s.slot i).used = true → (s.slot i).owner ≠ d → (s.releaseAll d).slot i = s.slot i
  line : ∀ l, (s.releaseAll d).line l = (s.line l).filter fun i => !decide ((s.slot i).owner = d)
  off : (s.releaseAll d).off = s.off
  listed : (s.releaseAll d).listed = update s.listed d []
  taken : (s.releaseAll d).taken = s.taken
  back : (s.releaseAll d).back.Perm (s.heldBy d ++ s.back)

-- A used entry is listed by one driver, a release is its own driver's, and the blocks given are
-- those that came back and those a release will give back.
structure Sound [DecidableEq D] (s : Table D) : Prop where
  listed : ∀ i, (s.slot i).used = true → ∃! d, i ∈ s.listed d
  releases : ∀ d, ReleasesOwn s d
  balanced : s.taken.Perm (s.back ++ s.held)

def Routed (s : Table D) : Prop :=
  ∀ l i, s.line l = some i ↔
    (s.slot i).used = true ∧ (s.slot i).kind = .irq ∧ (s.slot i).base = l ∧ l < maxIrq

structure Core (s : Table D) : Prop where
  routed : Routed s
  balanced : s.taken.Perm (s.back ++ s.held)
  quiet : ∀ i, (s.slot i).masked = false ∧ (s.slot i).excl = false

-- A driver may still list an entry that a failed request gave up, but no used entry of another.
structure Inv (s : Table D) : Prop extends Core s where
  own : ∀ d, ∀ i ∈ s.listed d, (s.slot i).used = true → (s.slot i).owner = d
  mine : ∀ i, (s.slot i).used = true → i ∈ s.listed (s.slot i).owner
  bound : ∀ d, ∀ i ∈ s.listed d, i < maxRes

theorem Res.held_of_unused (h : r.used = false) : r.held = none := by
  simp [Res.held, h]

theorem Res.held_of_used (h : r.used = true) : r.held = r.freed := by
  simp [Res.held, h]

theorem Res.freed_of_kind (h : r.kind ≠ .dma) : r.freed = none := by
  simp [Res.freed, h]

theorem Res.freed_of_base (h : r.base = 0) : r.freed = none := by
  simp [Res.freed, h]

theorem filterMap_update_perm {ι β : Type*} [DecidableEq ι] {f : ι → Option β} {xs : List ι} {i : ι}
    {o : Option β} (hxs : xs.Nodup) (hi : i ∈ xs) :
    ((f i).toList ++ xs.filterMap (update f i o)).Perm (o.toList ++ xs.filterMap f) := by
  have hsplit : ∀ g : ι → Option β,
      (xs.filterMap g).Perm ((g i).toList ++ (xs.erase i).filterMap g) := by
    intro g
    have h := (perm_cons_erase hi).filterMap g
    cases hg : g i with
    | none => simpa [hg] using h
    | some b => simpa [hg] using h
  have hrest : (xs.erase i).filterMap (update f i o) = (xs.erase i).filterMap f := by
    apply filterMap_congr
    intro j hj
    have hne : j ≠ i := by
      rintro rfl
      exact hxs.not_mem_erase hj
    exact update_of_ne hne _ _
  have hnew := hsplit (update f i o)
  rw [update_self, hrest] at hnew
  exact (hnew.append_left _).trans
    ((perm_append_comm_assoc _ _ _).trans ((hsplit f).symm.append_left _))

theorem held_setSlot (hi : i < maxRes) :
    ((s.slot i).held.toList ++ (s.setSlot i r).held).Perm (r.held.toList ++ s.held) := by
  have hfun : (fun j => ((s.setSlot i r).slot j).held) =
      update (fun j => (s.slot j).held) i r.held := by
    funext j
    dsimp only [setSlot]
    exact update_rule₂ j rfl fun _ => rfl
  have h := filterMap_update_perm (f := fun j => (s.slot j).held) (o := r.held)
    (nodup_range (n := maxRes)) (mem_range.mpr hi)
  rw [← hfun] at h
  exact h

section Release

theorem releaseSlot_unused (h : (s.slot i).used = false) : s.releaseSlot i = s := by
  simp [releaseSlot, h]

theorem slot_releaseSlot (h : (s.slot i).used = true) :
    (s.releaseSlot i).slot = update s.slot i (s.slot i).release := by
  simp [releaseSlot, h, setSlot]

theorem listed_releaseSlot : (s.releaseSlot i).listed = s.listed := by
  unfold releaseSlot
  dsimp only
  split <;> rfl

theorem taken_releaseSlot : (s.releaseSlot i).taken = s.taken := by
  unfold releaseSlot
  dsimp only
  split <;> rfl

theorem Routed.unused (h : Routed s) (hfree : (s.slot i).used = false) : s.line l ≠ some i :=
  fun hl => by cases hfree.symm.trans ((h l i).mp hl).1

theorem Routed.change (h : Routed s) (hs : s'.slot = update s.slot i r)
    (hself : ∀ l, s'.line l = some i ↔
      r.used = true ∧ r.kind = .irq ∧ r.base = l ∧ l < maxIrq)
    (hother : ∀ l j, j ≠ i → (s'.line l = some j ↔ s.line l = some j)) : Routed s' := by
  intro l j
  rw [hs]
  exact update_rule j (hself l) fun hj => (hother l j hj).trans (h l j)

theorem Routed.releaseSlot (h : Routed s) : Routed (s.releaseSlot i) := by
  cases hu : (s.slot i).used with
  | false => rwa [releaseSlot_unused hu]
  | true =>
    have hline : (s.releaseSlot i).line =
        if (s.slot i).kind = .irq ∧ (s.slot i).base < maxIrq
        then update s.line (s.slot i).base none else s.line := by
      simp [Table.releaseSlot, hu]
    refine h.change (slot_releaseSlot hu) (fun l => ?_) fun l j hj => ?_ <;> rw [hline]
    · -- no line leads to the released entry any more
      refine iff_of_false (fun hl => ?_) fun hr => Bool.false_ne_true hr.1
      split at hl
      · revert hl
        refine update_rule l (Option.some_ne_none i).symm fun hlb hl => ?_
        exact hlb ((h l i).mp hl).2.2.1.symm
      next hno =>
        obtain ⟨-, hk, hb, hlt⟩ := (h l i).mp hl
        exact hno ⟨hk, hb ▸ hlt⟩
    · split
      next hirq =>
        -- the line was the released entry's, so it was nobody else's
        refine update_rule l (iff_of_false (Option.some_ne_none j).symm fun hl => ?_) fun _ => .rfl
        have hi := (h (s.slot i).base i).mpr ⟨hu, hirq.1, rfl, hirq.2⟩
        exact hj (Option.some.inj (hl.symm.trans hi))
      · rfl

theorem Core.releaseSlot (h : Core s) (hi : i < maxRes) : Core (s.releaseSlot i) where
  routed := h.routed.releaseSlot
  balanced := by
    cases hu : (s.slot i).used with
    | false =>
      rw [releaseSlot_unused hu]
      exact h.balanced
    | true =>
      have hheld : (s.releaseSlot i).held = (s.setSlot i (s.slot i).release).held := by
        simp only [Table.held, slot_releaseSlot hu, Table.setSlot]
      have hback : (s.releaseSlot i).back = (s.slot i).held.toList ++ s.back := by
        simp [Table.releaseSlot, hu, Res.held_of_used hu]
      have hmove := held_setSlot (s := s) (r := (s.slot i).release) hi
      rw [taken_releaseSlot, hheld, hback, append_assoc]
      exact h.balanced.trans ((hmove.symm.append_left _).trans
        (perm_append_comm_assoc _ _ _))
  quiet := by
    intro j
    cases hu : (s.slot i).used with
    | false =>
      rw [releaseSlot_unused hu]
      exact h.quiet j
    | true =>
      rw [slot_releaseSlot hu]
      exact update_rule j (by simp [Res.release, h.quiet i]) fun _ => h.quiet j

theorem Core.off_releaseSlot (h : Core s) : (s.releaseSlot i).off = s.off := by
  cases hu : (s.slot i).used with
  | false => rw [releaseSlot_unused hu]
  | true => simp [Table.releaseSlot, hu, Res.unmasks, h.quiet i]

variable {is : List ℕ}

theorem slot_foldl_releaseSlot (j : ℕ) : (is.foldl releaseSlot s).slot j =
    if j ∈ is ∧ (s.slot j).used = true then (s.slot j).release else s.slot j := by
  induction is generalizing s with
  | nil => simp
  | cons i is ih =>
    rw [foldl_cons, ih]
    cases hu : (s.slot i).used with
    | false =>
      rw [releaseSlot_unused hu]
      by_cases hj : j = i
      · subst hj
        simp [hu]
      · simp [hj]
    | true =>
      rw [slot_releaseSlot hu]
      by_cases hj : j = i
      · subst hj
        simp [hu, Res.release]
      · simp [hj]

theorem Core.foldl_releaseSlot (h : Core s) (his : ∀ i ∈ is, i < maxRes) :
    Core (is.foldl Table.releaseSlot s) ∧ (is.foldl Table.releaseSlot s).off = s.off := by
  induction is generalizing s with
  | nil => exact ⟨h, rfl⟩
  | cons i is ih =>
    have hnext := ih (h.releaseSlot (his i mem_cons_self))
      (fun j hj => his j (mem_cons_of_mem i hj))
    exact ⟨hnext.1, hnext.2.trans h.off_releaseSlot⟩

theorem frame_foldl_releaseSlot : (is.foldl releaseSlot s).listed = s.listed ∧
    (is.foldl Table.releaseSlot s).taken = s.taken := by
  induction is generalizing s with
  | nil => exact ⟨rfl, rfl⟩
  | cons i is ih =>
    have hnext := ih (s := s.releaseSlot i)
    exact ⟨hnext.1.trans listed_releaseSlot, hnext.2.trans taken_releaseSlot⟩

end Release

variable [DecidableEq D]

theorem Inv.slot_releaseAll (h : Inv s) (i : ℕ) : (s.releaseAll d).slot i =
    if (s.slot i).used = true ∧ (s.slot i).owner = d then (s.slot i).release else s.slot i := by
  have hiff : (i ∈ s.listed d ∧ (s.slot i).used = true) ↔
      ((s.slot i).used = true ∧ (s.slot i).owner = d) := by
    constructor
    · intro hi
      exact ⟨hi.2, h.own d i hi.1 hi.2⟩
    · rintro ⟨hu, rfl⟩
      exact ⟨h.mine i hu, hu⟩
  have hfold : (s.releaseAll d).slot i = _ := slot_foldl_releaseSlot i
  simp only [hiff] at hfold
  exact hfold

theorem Inv.core_releaseAll (h : Inv s) : Core (s.releaseAll d) :=
  have hfold := (h.toCore.foldl_releaseSlot (h.bound d)).1
  ⟨hfold.routed, hfold.balanced, hfold.quiet⟩

theorem listed_releaseAll : (s.releaseAll d).listed = update s.listed d [] := by
  simp only [Table.releaseAll, frame_foldl_releaseSlot.1]

theorem taken_releaseAll : (s.releaseAll d).taken = s.taken :=
  frame_foldl_releaseSlot.2

theorem Inv.releaseAll (h : Inv s) : Inv (s.releaseAll d) where
  toCore := h.core_releaseAll
  own := by
    intro e i hi hu
    rw [h.slot_releaseAll] at hu ⊢
    split at hu
    · cases hu
    next hno =>
      rw [if_neg hno]
      rw [listed_releaseAll] at hi
      revert hi
      exact update_rule e (fun hi => (by cases hi)) fun _ hi => h.own e i hi hu
  mine := by
    intro i hu
    rw [h.slot_releaseAll] at hu ⊢
    split at hu
    · cases hu
    next hno =>
      rw [if_neg hno, listed_releaseAll, update_of_ne (fun he => hno ⟨hu, he⟩)]
      exact h.mine i hu
  bound := by
    intro e i hi
    rw [listed_releaseAll] at hi
    revert hi
    exact update_rule e (fun hi => (by cases hi)) fun _ => h.bound e i

theorem Inv.line_releaseAll (h : Inv s) (l : ℕ) : (s.releaseAll d).line l =
    (s.line l).filter fun i => !decide ((s.slot i).owner = d) := by
  have hafter := h.core_releaseAll (d := d).routed
  apply Option.ext
  intro i
  rw [hafter l i, h.slot_releaseAll, Option.filter_eq_some_iff, h.routed l i]
  by_cases hd : (s.slot i).used = true ∧ (s.slot i).owner = d
  · rw [if_pos hd]
    refine iff_of_false (fun hr => Bool.false_ne_true hr.1) ?_
    rintro ⟨-, hne⟩
    simp [hd.2] at hne
  · rw [if_neg hd]
    refine (and_iff_left_of_imp ?_).symm
    intro hr
    have hne : (s.slot i).owner ≠ d := fun he => hd ⟨hr.1, he⟩
    simp [hne]

theorem Inv.held_releaseAll (h : Inv s) : s.held.Perm (s.heldBy d ++ (s.releaseAll d).held) := by
  have hrest : (s.releaseAll d).held = (range maxRes).filterMap fun i =>
      if (s.slot i).owner = d then none else (s.slot i).held := by
    apply filterMap_congr
    intro i _
    rw [h.slot_releaseAll]
    by_cases hd : (s.slot i).owner = d
    · cases hu : (s.slot i).used with
      | false => simp [hd, Res.held_of_unused hu]
      | true => simp [hd, Res.held_of_unused (r := (s.slot i).release) rfl]
    · simp [hd]
  rw [hrest, Table.held, Table.heldBy]
  induction range maxRes with
  | nil => exact List.Perm.refl _
  | cons i is ih =>
    cases hi : (s.slot i).held with
    | none => simpa [hi] using ih
    | some b =>
      by_cases hd : (s.slot i).owner = d
      · simpa [hi, hd] using ih
      · simp only [filterMap_cons, hi, hd, if_false]
        exact (ih.cons b).trans perm_middle.symm

theorem Inv.releasesOwn (h : Inv s) (d : D) : ReleasesOwn s d where
  freed := by
    intro i hd
    rw [h.slot_releaseAll]
    cases hu : (s.slot i).used with
    | false => simp [hu]
    | true => simp [hd, Res.release]
  kept := by
    intro i _ hd
    rw [h.slot_releaseAll, if_neg (fun hr => hd hr.2)]
  line := h.line_releaseAll
  off := (h.toCore.foldl_releaseSlot (h.bound d)).2
  listed := listed_releaseAll
  taken := taken_releaseAll
  back := by
    have hafter := h.core_releaseAll (d := d).balanced
    rw [taken_releaseAll] at hafter
    have hboth : ((s.releaseAll d).back ++ (s.releaseAll d).held).Perm
        ((s.heldBy d ++ s.back) ++ (s.releaseAll d).held) := by
      refine hafter.symm.trans (h.balanced.trans (((h.held_releaseAll (d := d)).append_left _).trans ?_))
      rw [append_assoc]
      exact perm_append_comm_assoc _ _ _
    exact (perm_append_right_iff _).mp hboth

theorem Inv.sound (h : Inv s) : Sound s where
  listed := by
    intro i hu
    exact ⟨(s.slot i).owner, h.mine i hu, fun d hd => (h.own d i hd hu).symm⟩
  releases := h.releasesOwn
  balanced := h.balanced

end DosKernel.Drv

import Mathlib.Data.Int.Notation
import DosKernel.Lib.Buckets
import DosKernel.Lib.Run

namespace DosKernel.Bcache

open DosKernel.Lib

open Function (update)

def bcacheSlots : ℕ := 1024

def bcSector : ℕ := 512

def bcPerFrame : ℕ := 8

def bcBuckets : ℕ := 256

def lbaEnd : ℕ := 18446744073709551616

abbrev Sector : Type := ℕ → UInt8

-- `struct block_device`; `addr` is its address, `hasRead` and `hasWrite` that it has the operation.
structure Dev where
  addr : ℕ
  sectorSize : ℕ
  sectorCount : ℕ
  hasRead : Bool
  hasWrite : Bool
  count_lt : sectorCount < lbaEnd

-- `struct bcache_buf` without its link
structure Buf where
  dev : ℕ
  lba : ℕ
  data : Sector
  refcount : ℤ
  dirty : Bool
  lruTick : ℕ
  valid : Bool

def Buf.key (b : Buf) : ℕ × ℕ := (b.dev, b.lba)

-- A buffer that was returned and not yet released: the slot, and the sector it was asked for.
structure Handle where
  slot : ℕ
  dev : ℕ
  lba : ℕ
deriving DecidableEq, Repr

-- Not in the source: `handles`, and `truth`, what was last written to each sector or its contents.
structure World where
  slots : ℕ → Buf
  chains : ℕ → List ℕ
  lruCounter : ℕ
  raBuf : Sector
  disk : ℕ × ℕ → Sector
  truth : ℕ × ℕ → Sector
  handles : List Handle

inductive WriteLuck where
  | ok
  | fails (left : Sector)

-- How a call fares with the devices. A failed read leaves something in the buffer.
structure Luck where
  write : WriteLuck
  ahead : Option Sector
  read : Bool

variable (devs : ℕ → Dev)

def bcHash (k : ℕ × ℕ) : ℕ := (k.2 ^^^ (k.2 / 2048) ^^^ ((devs k.1).addr / 16)) % bcBuckets

namespace World

def setSlot (w : World) (i : ℕ) (f : Buf → Buf) : World :=
  { w with slots := update w.slots i (f (w.slots i)) }

def findEntry (w : World) (k : ℕ × ℕ) : Option ℕ :=
  (w.chains (bcHash devs k)).find? fun i => (w.slots i).valid && decide ((w.slots i).key = k)

def unlink (w : World) (i : ℕ) : World :=
  let h := bcHash devs (w.slots i).key
  { w with chains := update w.chains h ((w.chains h).erase i) }

def link (w : World) (i : ℕ) : World :=
  let h := bcHash devs (w.slots i).key
  { w with chains := update w.chains h (i :: w.chains h) }

-- The loop of `pick_victim` over `n` slots from `i` on.
def pickFrom (slots : ℕ → Buf) : ℕ → ℕ → Option ℕ → Option ℕ
  | _, 0, victim => victim
  | i, n + 1, victim =>
    if 0 < (slots i).refcount then pickFrom slots (i + 1) n victim
    else if !(slots i).valid then some i
    else
      match victim with
      | none => pickFrom slots (i + 1) n (some i)
      | some v =>
        pickFrom slots (i + 1) n (if (slots i).lruTick < (slots v).lruTick then some i else some v)

def pickVictim (w : World) : Option ℕ := pickFrom w.slots 0 bcacheSlots none

def evict (w : World) (i : ℕ) : World :=
  if (w.slots i).valid then (w.unlink devs i).setSlot i fun b => { b with valid := false } else w

def install (w : World) (i : ℕ) (k : ℕ × ℕ) (data : Sector) (refcount : ℤ) : World :=
  let w := { w with lruCounter := w.lruCounter + 1 }
  (w.setSlot i fun _ =>
    ⟨k.1, k.2, data, refcount, false, w.lruCounter, true⟩).link devs i

def blkWrite (w : World) (k : ℕ × ℕ) (data : Sector) : WriteLuck → Bool × World
  | .ok =>
    if k.2 < (devs k.1).sectorCount then
      (true, { w with disk := update w.disk k data })
    else (false, w)
  | .fails left => (false, { w with disk := update w.disk k left })

def writeBack (w : World) (i : ℕ) (luck : WriteLuck) : Bool × World :=
  let r := w.blkWrite devs (w.slots i).key (w.slots i).data luck
  if r.1 then (true, r.2.setSlot i fun b => { b with dirty := false }) else r

def flush (w : World) (i : ℕ) (luck : WriteLuck) : Bool × World :=
  if (w.slots i).valid && (w.slots i).dirty && (devs (w.slots i).dev).hasWrite then
    w.writeBack devs i luck
  else (true, w)

def after (lba k : ℕ) : ℕ := (lba + k) % lbaEnd

-- How many sectors a miss reads: the first loop of `bc_readahead`, with `n` turns left.
def runLength (w : World) (dev lba : ℕ) : ℕ → ℕ → ℕ
  | 0, k => k
  | n + 1, k =>
    if after lba k < (devs dev).sectorCount ∧ w.findEntry devs (dev, after lba k) = none then
      runLength w dev lba n (k + 1)
    else k

def readInto (w : World) (dev lba count : ℕ) (buf : Sector) : Sector := fun i =>
  if i < count * (devs dev).sectorSize then
    w.disk (dev, lba + i / (devs dev).sectorSize) (i % (devs dev).sectorSize)
  else buf i

-- The loop of `bc_readahead` over the `n` sectors from `j` on, with slot `b` pinned.
def park (dev lba b : ℕ) : ℕ → ℕ → World → World
  | 0, _, w => w
  | n + 1, j, w =>
    match w.pickVictim with
    | none => w
    | some v =>
      if v = b ∨ ((w.slots v).valid && (w.slots v).dirty) then w
      else
        park dev lba b n (j + 1) ((w.evict devs v).install devs v (dev, after lba j)
          (fun i => w.raBuf (j * bcSector + i)) 0)

def runCount (w : World) (dev lba : ℕ) : ℕ := w.runLength devs dev lba (bcPerFrame - 1) 1

def fillBuf (w : World) (dev lba : ℕ) : World :=
  { w with raBuf := w.readInto devs dev lba (w.runCount devs dev lba) w.raBuf }

def setRefcount (w : World) (i : ℕ) (n : ℤ) : World :=
  w.setSlot i fun s => { s with refcount := n }

-- `bc_readahead`: the first sector's bytes if it succeeds, and the world.
def readahead (w : World) (dev lba b : ℕ) (luck : Option Sector) : Option Sector × World :=
  if w.runCount devs dev lba = 1 then (none, w)
  else
    match luck with
    | some left => (none, { w with raBuf := left })
    | none =>
      if lba + w.runCount devs dev lba ≤ (devs dev).sectorCount then
        let filled := w.fillBuf devs dev lba
        let parked := park devs dev lba b (w.runCount devs dev lba - 1) 1 (filled.setRefcount b 1)
        (some filled.raBuf, parked.setRefcount b (w.slots b).refcount)
      else (none, w)

def incr (n : ℤ) : ℤ := if n = 2147483647 then -2147483648 else n + 1

def hand (w : World) (i : ℕ) (k : ℕ × ℕ) : World := { w with handles := ⟨i, k.1, k.2⟩ :: w.handles }

def takeVictim (w : World) (luck : WriteLuck) : Option ℕ × World :=
  match w.pickVictim with
  | none => (none, w)
  | some b =>
    let r := w.flush devs b luck
    if r.1 then (some b, r.2.evict devs b) else (none, r.2)

-- The miss of `bcache_get_unlocked`: the slot, and the world.
def miss (w : World) (k : ℕ × ℕ) (noRead : Bool) (luck : Luck) : Option ℕ × World :=
  match w.takeVictim devs luck.write with
  | (none, w) => (none, w)
  | (some b, w) =>
    if noRead then (some b, (w.install devs b k (fun _ => 0) 1).hand b k)
    else
      match w.readahead devs k.1 k.2 b luck.ahead with
      | (some data, w) => (some b, (w.install devs b k data 1).hand b k)
      | (none, w) =>
        if luck.read ∧ k.2 < (devs k.1).sectorCount then
          (some b, (w.install devs b k (w.readInto devs k.1 k.2 1 (w.slots b).data) 1).hand b k)
        else (none, w)

def get (w : World) (k : ℕ × ℕ) (noRead : Bool) (luck : Luck) : Option ℕ × World :=
  if !(devs k.1).hasRead ∨ bcSector < (devs k.1).sectorSize then (none, w)
  else
    match w.findEntry devs k with
    | some i =>
      let w := { w with lruCounter := w.lruCounter + 1 }
      (some i, (w.setSlot i fun b =>
        { b with refcount := incr b.refcount, lruTick := w.lruCounter }).hand i k)
    | none => w.miss devs k noRead luck

-- The holder of a slot changes its bytes and calls `bcache_mark_dirty`.
def modify (w : World) (h : Handle) (data : Sector) : World :=
  { w.setSlot h.slot (fun b => { b with data := data, dirty := b.dirty || b.valid }) with
    truth := update w.truth (h.dev, h.lba) data }

def syncFrom (dev : ℕ) (luck : ℕ → WriteLuck) : ℕ → ℕ → World → World
  | _, 0, w => w
  | i, n + 1, w =>
    syncFrom dev luck (i + 1) n
      (if (w.slots i).valid && (w.slots i).dirty && decide ((w.slots i).dev = dev) then
        (w.writeBack devs i (luck i)).2
      else w)

def release (w : World) (n : ℕ) : World :=
  match w.handles[n]? with
  | none => w
  | some h =>
    { w.setSlot h.slot (fun b =>
        { b with refcount := if 0 < b.refcount then b.refcount - 1 else b.refcount }) with
      handles := w.handles.eraseIdx n }

end World

-- `overwrite` is `bcache_get_overwrite` with its `bcache_mark_dirty`; a holder modifies, releases.
inductive Act where
  | get (dev lba : ℕ) (luck : Luck)
  | overwrite (dev lba : ℕ) (data : Sector) (luck : Luck)
  | modify (n : ℕ) (data : Sector)
  | release (n : ℕ)
  | sync (dev : ℕ) (luck : ℕ → WriteLuck)

def World.step (w : World) : Act → World
  | .get dev lba luck => (w.get devs (dev, lba) false luck).2
  | .overwrite dev lba data luck =>
    match w.get devs (dev, lba) true luck with
    | (none, w) => w
    | (some i, w) => w.modify ⟨i, dev, lba⟩ data
  | .modify n data =>
    match w.handles[n]? with
    | none => w
    | some h => w.modify h data
  | .release n => w.release n
  | .sync dev luck =>
    if (devs dev).hasWrite then World.syncFrom devs dev luck 0 bcacheSlots w else w

def boot (disk : ℕ × ℕ → Sector) (raBuf data : Sector) : World where
  slots := fun _ => ⟨0, 0, data, 0, false, 0, false⟩
  chains := fun _ => []
  lruCounter := 0
  raBuf := raBuf
  disk := disk
  truth := disk
  handles := []

open Buckets World

variable {devs : ℕ → Dev} {w : World} {i j v : ℕ} {k : ℕ × ℕ}

-- The chains hold exactly the valid slots, each in that of its sector, and no two of one sector.
structure Linked (devs : ℕ → Dev) (w : World) : Prop where
  hashed : Hashed (fun i => (w.slots i).key) (bcHash devs) w.chains
  stored : ∀ i, Stored w.chains i ↔ (w.slots i).valid = true

section Find

theorem findEntry_some (h : w.findEntry devs k = some i) :
    (w.slots i).valid = true ∧ (w.slots i).key = k := by
  have hi := List.find?_some h
  rw [Bool.and_eq_true, decide_eq_true_eq] at hi
  exact hi

theorem Linked.eq_of_key (h : Linked devs w) (hi : (w.slots i).valid = true)
    (hj : (w.slots j).valid = true) (hkey : (w.slots i).key = (w.slots j).key) : i = j :=
  h.hashed.eq_of_key ((h.stored i).mpr hi) ((h.stored j).mpr hj) hkey

theorem Linked.findEntry_eq (h : Linked devs w) (hi : (w.slots i).valid = true)
    (hk : (w.slots i).key = k) : w.findEntry devs k = some i := by
  have hmem := h.hashed.mem ((h.stored i).mpr hi)
  have hfound : (w.findEntry devs k).isSome := by
    rw [findEntry, List.find?_isSome]
    refine ⟨i, ?_, ?_⟩
    · rw [← hk]
      exact hmem
    · rw [hi, hk, Bool.true_and, decide_eq_true_eq]
  obtain ⟨j, hj⟩ := Option.isSome_iff_exists.mp hfound
  obtain ⟨hjv, hjk⟩ := findEntry_some hj
  rw [hj, h.eq_of_key hjv hi (hjk.trans hk.symm)]

theorem Linked.not_cached (h : Linked devs w) (hk : w.findEntry devs k = none)
    (hi : (w.slots i).valid = true) : (w.slots i).key ≠ k := by
  intro hik
  rw [h.findEntry_eq hi hik] at hk
  cases hk

theorem findEntry_none (hk : ∀ i, (w.slots i).valid = true → (w.slots i).key ≠ k) :
    w.findEntry devs k = none := by
  cases hfind : w.findEntry devs k with
  | none => rfl
  | some i =>
    obtain ⟨hi, hik⟩ := findEntry_some hfind
    exact absurd hik (hk i hi)

end Find

section Evict

theorem evict_slots : (w.evict devs v).slots i =
    if i = v then { w.slots v with valid := false } else w.slots i := by
  rw [World.evict]
  split
  · by_cases hiv : i = v
    · subst hiv
      simp [World.setSlot, World.unlink]
    · simp [World.setSlot, World.unlink, hiv]
  next hvalid =>
    split
    next hiv =>
      rw [hiv]
      cases hslot : w.slots v with
      | mk dev lba data refcount dirty tick valid =>
        rw [hslot, Bool.not_eq_true] at hvalid
        simp only at hvalid
        rw [hvalid]
    · rfl

theorem evict_rest (devs : ℕ → Dev) (w : World) (v : ℕ) :
    (w.evict devs v).raBuf = w.raBuf ∧ (w.evict devs v).disk = w.disk ∧
      (w.evict devs v).truth = w.truth ∧ (w.evict devs v).handles = w.handles := by
  rw [evict]
  split
  · exact ⟨rfl, rfl, rfl, rfl⟩
  · exact ⟨rfl, rfl, rfl, rfl⟩

theorem evict_slots_self : (w.evict devs v).slots v = { w.slots v with valid := false } := by
  rw [evict_slots, if_pos rfl]

theorem evict_slots_of_ne (h : i ≠ v) : (w.evict devs v).slots i = w.slots i := by
  rw [evict_slots, if_neg h]

theorem evict_key : ((w.evict devs v).slots i).key = (w.slots i).key := by
  rw [evict_slots]
  split
  next hiv =>
    rw [hiv]
    rfl
  · rfl

theorem evict_valid_iff :
    ((w.evict devs v).slots i).valid = true ↔ (w.slots i).valid = true ∧ i ≠ v := by
  rw [evict_slots]
  split
  · simp [*]
  · simp [*]

theorem Linked.evict (h : Linked devs w) (v : ℕ) : Linked devs (w.evict devs v) := by
  cases hv : (w.slots v).valid with
  | false =>
    have hsame : w.evict devs v = w := by
      rw [World.evict, hv]
      rfl
    rwa [hsame]
  | true =>
    have hchains : (w.evict devs v).chains = Function.update w.chains
        (bcHash devs (w.slots v).key) ((w.chains (bcHash devs (w.slots v).key)).erase v) := by
      rw [World.evict, if_pos hv]
      rfl
    refine ⟨?_, fun i => ?_⟩
    · rw [hchains]
      exact (h.hashed.sublist fun _ => erase_sublist _ _).congr fun _ _ => evict_key
    · rw [hchains, h.hashed.stored_erase ((h.stored v).mpr hv), h.stored, evict_valid_iff]

end Evict

section Install

variable {data : Sector} {refcount : ℤ}

theorem install_slots_self : (w.install devs v k data refcount).slots v =
    ⟨k.1, k.2, data, refcount, false, w.lruCounter + 1, true⟩ := by
  simp [install, link, setSlot]

theorem install_slots_of_ne (h : i ≠ v) :
    (w.install devs v k data refcount).slots i = w.slots i := by
  simp [install, link, setSlot, h]

theorem Linked.install (h : Linked devs w) (hv : (w.slots v).valid = false)
    (hk : w.findEntry devs k = none) : Linked devs (w.install devs v k data refcount) := by
  have hne : ∀ i, Stored w.chains i → i ≠ v := by
    rintro i hi rfl
    rw [h.stored, hv] at hi
    cases hi
  have hself : ((w.install devs v k data refcount).slots v).key = k := by
    rw [install_slots_self]
    rfl
  have hkey : ∀ i, Stored w.chains i →
      ((w.install devs v k data refcount).slots i).key = (w.slots i).key := by
    intro i hi
    rw [install_slots_of_ne (hne i hi)]
  have hchains : (w.install devs v k data refcount).chains =
      push (fun i => ((w.install devs v k data refcount).slots i).key) (bcHash devs) w.chains v := by
    rw [push, hself]
    simp [World.install, World.link, World.setSlot, Buf.key]
  refine ⟨?_, fun i => ?_⟩
  · rw [hchains]
    refine (h.hashed.congr hkey).push fun i hi => ?_
    rw [hself, hkey i hi]
    exact h.not_cached hk ((h.stored i).mp hi)
  · rw [hchains, stored_push]
    by_cases hiv : i = v
    · subst hiv
      simp [install_slots_self]
    · rw [install_slots_of_ne hiv, h.stored]
      simp [hiv]

end Install

end DosKernel.Bcache

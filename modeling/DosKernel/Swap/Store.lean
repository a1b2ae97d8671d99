import Mathlib.Data.Finset.Card
import Mathlib.Logic.Function.Basic
import DosKernel.Lib.Run

namespace DosKernel.Swap

def swapSlots : ℕ := 65536

-- `refresh_cap`: `mem.swap_size_mb` is a number of megabytes, of 256 slots each.
def sizeSlots (text : List Char) : ℕ :=
  let mb := (text.takeWhile Char.isDigit).foldl
    (fun v c => (v * 10 + (c.toNat - 48)) % 4294967296) 0
  min ((if mb = 0 then 64 else mb) * 256 % 4294967296) swapSlots

def swapBatch : ℕ := 128

def pressureBatch : ℕ := 64

abbrev Key : Type := ℕ × ℕ

structure Flags where
  shared : Bool
  cow : Bool
  writable : Bool
  exec : Bool
deriving DecidableEq, Repr

-- A page-table entry; an evicted one keeps two of the flags.
inductive Entry where
  | absent
  | present (phys : ℕ) (flags : Flags)
  | swapped (slot : ℕ) (writable exec : Bool)
deriving DecidableEq, Repr

-- `size` is the setting `mem.swap_size_mb`, `capSlots` what was last made of it. Not in the source:
-- `kept`, a page's bytes when last evicted.
structure World (Page : Type) where
  size : List Char
  capSlots : ℕ
  slotMap : Finset ℕ
  slot0Taken : Bool
  slotsUsed : ℕ
  store : ℕ → Page
  entry : Key → Entry
  mem : ℕ → Page
  kept : Key → Page

-- How it goes for a page that is to leave: what a failed write leaves, whether its entry can be
-- marked, and whether it may still leave.
structure OutLuck (Page : Type) where
  left : Option Page
  mark : Bool
  changed : Bool

structure BackLuck where
  frame : Option ℕ
  read : Bool
  map : Bool

-- A page marked by the first phase of `evict_cold_locked`, with its old entry.
structure Out where
  key : Key
  phys : ℕ
  flags : Flags
  slot : ℕ

namespace World

variable {Page : Type} (cap : ℕ) (pages : ℕ → List ℕ)

def refreshCap (w : World Page) : World Page := { w with capSlots := sizeSlots w.size }

def firstFree (slotMap : Finset ℕ) : ℕ → ℕ → Option ℕ
  | _, 0 => none
  | i, n + 1 => if i ∈ slotMap then firstFree slotMap (i + 1) n else some i

def slotAlloc (w : World Page) : Option ℕ × World Page :=
  if cap ≤ w.slotsUsed + 1 then (none, w)
  else
    let w := if w.slot0Taken then w
      else { w with slotMap := insert 0 w.slotMap, slot0Taken := true }
    match firstFree w.slotMap 0 swapSlots with
    | none => (none, w)
    | some i => (some i, { w with
        slotMap := insert i w.slotMap
        slotsUsed := w.slotsUsed + 1 })

def swapSlotRelease (w : World Page) (slot : ℕ) : World Page :=
  if slot = 0 ∨ swapSlots ≤ slot ∨ slot ∉ w.slotMap then w
  else { w with slotMap := w.slotMap.erase slot, slotsUsed := w.slotsUsed - 1 }

def setEntry (w : World Page) (k : Key) (e : Entry) : World Page :=
  { w with entry := Function.update w.entry k e }

def markSwapped (w : World Page) (k : Key) (slot phys : ℕ) (flags : Flags) : World Page :=
  { w.setEntry k (.swapped slot flags.writable flags.exec) with
    kept := Function.update w.kept k (w.mem phys) }

def vfsWrite (w : World Page) (slot : ℕ) (page : Page) : World Page :=
  { w with store := Function.update w.store slot page }

-- The first `n` pages of a space that are present and, as `may` has it, may leave memory.
def collect (w : World Page) (may : ℕ → Bool) (n s : ℕ) : List Key :=
  (((pages s).map fun va => (s, va)).filter fun k =>
    match w.entry k with
    | .present phys flags => may phys && !flags.shared && !flags.cow
    | _ => false).take n

-- The pages of one round of `do_evict`: whether it is to stop, whether it progressed.
def evictPages (luck : Key → OutLuck Page) : List Key → World Page → Bool × Bool × World Page
  | [], w => (false, false, w)
  | k :: ks, w =>
    match w.entry k with
    | .present phys flags =>
      match w.slotAlloc cap with
      | (none, w) => (true, false, w)
      | (some slot, w) =>
        match (luck k).left with
        | some left => (true, false, (w.vfsWrite slot left).swapSlotRelease slot)
        | none =>
          let w := w.vfsWrite slot (w.mem phys)
          if (luck k).mark then
            let r := evictPages luck ks (w.markSwapped k slot phys flags)
            (r.1, true, r.2.2)
          else evictPages luck ks (w.swapSlotRelease slot)
    | _ => evictPages luck ks w

def evictRounds (may : ℕ → Bool) (luck : ℕ → Key → OutLuck Page) (s : ℕ) :
    ℕ → World Page → World Page
  | 0, w => w
  | n + 1, w =>
    let r := evictPages cap (luck n) (w.collect pages may swapBatch s) w
    if r.1 || !r.2.1 then r.2.2 else evictRounds may luck s n r.2.2

def undo (w : World Page) (o : Out) : World Page :=
  (w.setEntry o.key (.present o.phys o.flags)).swapSlotRelease o.slot

-- The first phase of `evict_cold_locked`; `outs` are the pages marked so far, the last first.
def markCold (luck : Key → OutLuck Page) : List Key → List Out → World Page → List Out × World Page
  | [], outs, w => (outs, w)
  | k :: ks, outs, w =>
    match w.slotAlloc cap with
    | (none, w) => (outs, w)
    | (some slot, w) =>
      match (luck k).mark, w.entry k with
      | true, .present phys flags =>
        let o : Out := ⟨k, phys, flags, slot⟩
        let w := w.markSwapped k slot phys flags
        if (luck k).changed || flags.shared || flags.cow then markCold luck ks outs (w.undo o)
        else markCold luck ks (o :: outs) w
      | _, _ => markCold luck ks outs (w.swapSlotRelease slot)

def writeCold (luck : Key → OutLuck Page) : List Out → World Page → World Page
  | [], w => w
  | o :: os, w =>
    match (luck o.key).left with
    | none => writeCold luck os (w.vfsWrite o.slot (w.mem o.phys))
    | some left => (o :: os).foldl undo (w.vfsWrite o.slot left)

def evictColdLocked (w : World Page) (may : ℕ → Bool) (luck : Key → OutLuck Page) (s : ℕ) :
    World Page :=
  let r := markCold cap luck (w.collect pages may pressureBatch s) [] w
  writeCold luck r.1.reverse r.2

-- A page comes back, as in `do_restore_one` and a turn of `do_restore`.
def restorePage (luck : BackLuck) (k : Key) (w : World Page) : Bool × World Page :=
  match w.entry k with
  | .swapped slot writable exec =>
    match luck.frame with
    | none => (false, w)
    | some f =>
      if luck.read then
        let w := { w with mem := Function.update w.mem f (w.store slot) }
        if luck.map then
          (true, (w.setEntry k (.present f ⟨false, false, writable, exec⟩)).swapSlotRelease slot)
        else (false, w)
      else (false, w)
  | _ => (true, w)

def restorePages (luck : Key → BackLuck) : List Key → World Page → Bool × World Page
  | [], w => (true, w)
  | k :: ks, w =>
    let r := restorePage (luck k) k w
    if r.1 then restorePages luck ks r.2 else r

def scollect (w : World Page) (s : ℕ) : List Key :=
  (((pages s).map fun va => (s, va)).filter fun k =>
    match w.entry k with
    | .swapped _ _ _ => true
    | _ => false).take swapBatch

-- The rounds of `do_restore`; each but the last brings a page back.
def restoreRounds (luck : ℕ → Key → BackLuck) (s : ℕ) : ℕ → World Page → World Page
  | 0, w => w
  | n + 1, w =>
    let c := w.scollect pages s
    if c.isEmpty then w
    else
      let r := restorePages (luck n) c w
      if r.1 then restoreRounds luck s n r.2 else r.2

def drop (w : World Page) (k : Key) : World Page :=
  match w.entry k with
  | .swapped slot _ _ => (w.setEntry k .absent).swapSlotRelease slot
  | _ => w.setEntry k .absent

end World

-- `opened`: the store is open and the work list got memory. `restoreOne` is also a turn of
-- `do_restore`, and `evictCold` is `swap_pressure`. Pages are mapped where none is evicted.
inductive Act (Page : Type) where
  | evict (s : ℕ) (opened : Bool) (may : ℕ → Bool) (luck : ℕ → Key → OutLuck Page)
  | evictCold (s : ℕ) (may : ℕ → Bool) (luck : Key → OutLuck Page)
  | restoreOne (k : Key) (luck : BackLuck)
  | teardown (s : ℕ)
  | touch (phys : ℕ) (page : Page)
  | map (k : Key) (phys : ℕ) (flags : Flags)
  | configure (text : List Char)
  | refresh

variable {Page : Type}

-- `pages` are the addresses a walk of a space visits, in its order.
def World.step (pages : ℕ → List ℕ) (w : World Page) : Act Page → World Page
  | .evict s opened may luck =>
    if opened then World.evictRounds w.capSlots pages may luck s ((pages s).length + 1) w else w
  | .evictCold s may luck =>
    w.refreshCap.evictColdLocked w.refreshCap.capSlots pages may luck s
  | .restoreOne k luck => (World.restorePage luck k w).2
  | .teardown s => ((pages s).map fun va => (s, va)).foldl World.drop w
  | .touch phys page => { w with mem := Function.update w.mem phys page }
  | .map k phys flags =>
    match w.entry k with
    | .swapped _ _ _ => w
    | _ => w.setEntry k (.present phys flags)
  | .configure text => { w with size := text }
  | .refresh => w.refreshCap

def boot (size : List Char) (present : Key → Option (ℕ × Flags)) (store mem : ℕ → Page) (kept : Key → Page) :
    World Page where
  size := size
  capSlots := swapSlots
  slotMap := ∅
  slot0Taken := false
  slotsUsed := 0
  store := store
  entry k := (present k).elim .absent fun p => .present p.1 p.2
  mem := mem
  kept := kept

open DosKernel.Lib

structure Limit where
  size : List Char
  heeded : Bool

variable {Page : Type} {cap : ℕ} {q : Limit} {w : World Page} {k : Key} {slot phys : ℕ}
  {flags : Flags} {l : Option ℕ} {pend : List Key}

def Names (w : World Page) (k : Key) (slot : ℕ) : Prop :=
  ∃ writable exec, w.entry k = .swapped slot writable exec

-- The last part: a page that comes back has the bytes it left with.
structure Sound (pages : ℕ → List ℕ) (w : World Page) : Prop where
  owned : ∀ slot ∈ w.slotMap, slot ≠ 0 → ∃! k, Names w k slot
  named : ∀ k slot, Names w k slot → slot ≠ 0 ∧ slot ∈ w.slotMap
  used : w.slotsUsed = (w.slotMap.erase 0).card
  back : ∀ k slot luck f flags, Names w k slot →
    (w.step pages (.restoreOne k luck)).entry k = .present f flags →
      (w.step pages (.restoreOne k luck)).mem f = w.kept k

def World.Within (w : World Page) : Prop := w.slotsUsed ≤ sizeSlots w.size

-- In a call one slot may be allocated that no entry names, `l`, and the pages `pend` be marked
-- without their bytes in the store.
structure Books (q : Limit) (l : Option ℕ) (pend : List Key) (w : World Page) :
    Prop where
  low : ∀ slot ∈ w.slotMap, slot < swapSlots
  zero : w.slot0Taken = true → 0 ∈ w.slotMap
  fresh : w.slot0Taken = false → w.slotMap = ∅
  used : w.slotsUsed = (w.slotMap.erase 0).card
  size : w.size = q.size
  ceiling : q.heeded = true → w.slotsUsed ≤ sizeSlots q.size
  loose : ∀ slot, l = some slot → slot ≠ 0 ∧ slot ∈ w.slotMap
  owned : ∀ slot ∈ w.slotMap, slot ≠ 0 → l ≠ some slot → ∃ k, Names w k slot
  named : ∀ k slot, Names w k slot → slot ≠ 0 ∧ slot ∈ w.slotMap ∧ l ≠ some slot
  once : ∀ k k' slot, Names w k slot → Names w k' slot → k = k'
  stored : ∀ k slot, Names w k slot → k ∉ pend → w.store slot = w.kept k

theorem entry_setEntry_self {e : Entry} : (w.setEntry k e).entry k = e :=
  Function.update_self _ _ _

theorem fields_swapSlotRelease : (w.swapSlotRelease slot).entry = w.entry ∧
    (w.swapSlotRelease slot).mem = w.mem ∧ (w.swapSlotRelease slot).kept = w.kept := by
  rw [World.swapSlotRelease]
  split
  · exact ⟨rfl, rfl, rfl⟩
  · exact ⟨rfl, rfl, rfl⟩

theorem mem_restorePage {luck : BackLuck} {writable exec : Bool}
    (hk : w.entry k = .swapped slot writable exec)
    (hback : (World.restorePage luck k w).2.entry k = .present phys flags) :
    (World.restorePage luck k w).2.mem phys = w.store slot := by
  rw [World.restorePage, hk] at hback ⊢
  have hout : w.entry k ≠ .present phys flags := by simp [hk]
  dsimp only at hback ⊢
  cases hframe : luck.frame with
  | none =>
    rw [hframe] at hback
    exact absurd hback hout
  | some f =>
    rw [hframe] at hback
    cases hread : luck.read with
    | false =>
      rw [hread] at hback
      exact absurd hback hout
    | true =>
      cases hmap : luck.map with
      | false =>
        rw [hread, hmap] at hback
        exact absurd hback hout
      | true =>
        simp only [hread, hmap, if_true, fields_swapSlotRelease] at hback ⊢
        have hf : f = phys := (Entry.present.inj (entry_setEntry_self.symm.trans hback)).1
        subst hf
        exact Function.update_self _ _ _

theorem Books.sound {pages : ℕ → List ℕ} (h : Books q none [] w) : Sound pages w where
  owned slot hslot hne := by
    obtain ⟨k, hk⟩ := h.owned slot hslot hne (Option.some_ne_none _).symm
    exact ⟨k, hk, fun k' hk' => h.once k' k slot hk' hk⟩
  named k slot hk := ⟨(h.named k slot hk).1, (h.named k slot hk).2.1⟩
  used := h.used
  back k slot luck f flags hn hback := by
    have hstore := h.stored k slot hn List.not_mem_nil
    obtain ⟨writable, exec, hk⟩ := hn
    exact (mem_restorePage hk hback).trans hstore

theorem firstFree_spec {s : Finset ℕ} {i n j : ℕ} (h : World.firstFree s i n = some j) :
    j < i + n ∧ j ∉ s := by
  induction n generalizing i with
  | zero => cases h
  | succ n ih =>
    rw [World.firstFree] at h
    split at h
    · obtain ⟨hhi, hj⟩ := ih h
      exact ⟨by omega, hj⟩
    next hi =>
      cases h
      exact ⟨by omega, hi⟩

theorem Books.reserve (h : Books q none pend w) (ht : w.slot0Taken = false) :
    Books q none pend { w with slotMap := insert 0 w.slotMap, slot0Taken := true } := by
  have hempty := h.fresh ht
  have hused : w.slotsUsed = 0 := by
    rw [h.used, hempty]
    rfl
  refine { h with
    low := by simp [hempty, swapSlots]
    zero := fun _ => Finset.mem_insert_self 0 _
    fresh := fun hf => by cases hf
    used := by simp [hempty, hused]
    loose := fun slot hl => by cases hl
    owned := fun slot hslot hne => ?_
    named := fun k slot hk => ?_ }
  · rw [hempty] at hslot
    exact absurd (by simpa using hslot) hne
  · have hmem := (h.named k slot hk).2.1
    rw [hempty] at hmem
    cases hmem

theorem Books.allocated {i : ℕ} (h : Books q none pend w) (hzero : 0 ∈ w.slotMap)
    (hi : i ∉ w.slotMap) (hlt : i < swapSlots)
    (hcap : q.heeded = true → w.slotsUsed + 1 ≤ sizeSlots q.size) :
    Books q (some i) pend { w with
      slotMap := insert i w.slotMap
      slotsUsed := w.slotsUsed + 1 } := by
  have hne : i ≠ 0 := fun hi0 => hi (hi0 ▸ hzero)
  refine ⟨fun slot hslot => ?_, fun _ => Finset.mem_insert_of_mem hzero, fun ht => ?_, ?_, h.size,
    hcap, fun slot hl => ?_, fun slot hslot hslot0 hl => ?_, fun k slot hk => ?_, h.once, h.stored⟩
  · obtain rfl | hslot := Finset.mem_insert.mp hslot
    · exact hlt
    · exact h.low slot hslot
  · rw [h.fresh ht] at hzero
    cases hzero
  · have hnot : i ∉ w.slotMap.erase 0 := fun hmem => hi (Finset.mem_of_mem_erase hmem)
    rw [Finset.erase_insert_of_ne hne, Finset.card_insert_of_notMem hnot, h.used]
  · cases hl
    exact ⟨hne, Finset.mem_insert_self _ _⟩
  · obtain rfl | hslot := Finset.mem_insert.mp hslot
    · exact absurd rfl hl
    · exact h.owned slot hslot hslot0 (Option.some_ne_none _).symm
  · obtain ⟨hslot, hmem, -⟩ := h.named k slot hk
    refine ⟨hslot, Finset.mem_insert_of_mem hmem, fun hl => ?_⟩
    cases hl
    exact hi hmem

theorem Books.reserved (h : Books q none pend w) : ∃ w', (if w.slot0Taken then w
    else { w with slotMap := insert 0 w.slotMap, slot0Taken := true }) = w' ∧
      Books q none pend w' ∧ 0 ∈ w'.slotMap ∧ w'.slotsUsed = w.slotsUsed ∧ w'.entry = w.entry ∧
      w'.mem = w.mem ∧ w'.kept = w.kept ∧ w'.size = w.size ∧ w'.capSlots = w.capSlots := by
  cases ht : w.slot0Taken with
  | true => exact ⟨w, rfl, h, h.zero ht, rfl, rfl, rfl, rfl, rfl, rfl⟩
  | false => exact ⟨_, rfl, h.reserve ht, Finset.mem_insert_self 0 _, rfl, rfl, rfl, rfl, rfl, rfl⟩

theorem slotAlloc_cases (hc : q.heeded = true → cap ≤ sizeSlots q.size)
    (h : Books q none pend w) : ∃ o w', w.slotAlloc cap = (o, w') ∧ Books q o pend w' ∧
      w'.entry = w.entry ∧ w'.mem = w.mem ∧ w'.kept = w.kept := by
  rw [World.slotAlloc.eq_def]
  split
  · exact ⟨none, w, rfl, h, rfl, rfl, rfl⟩
  next hcap =>
    obtain ⟨w', hw', hbooks, hzero, hused, hentry, hmem, hkept, -⟩ := h.reserved
    simp only [hw']
    split
    · exact ⟨none, w', rfl, hbooks, hentry, hmem, hkept⟩
    next i hfree =>
      obtain ⟨hlt, hi⟩ := firstFree_spec hfree
      exact ⟨some i, _, rfl, hbooks.allocated hzero hi (by omega) fun hq => by have := hc hq; omega,
        hentry, hmem, hkept⟩

theorem Books.release (h : Books q (some slot) pend w) :
    Books q none pend (w.swapSlotRelease slot) := by
  obtain ⟨hne, hmem⟩ := h.loose slot rfl
  have hlow := h.low slot hmem
  have hgo : ¬ (slot = 0 ∨ swapSlots ≤ slot ∨ slot ∉ w.slotMap) := by
    rintro (h0 | hhi | hnot)
    · exact hne h0
    · omega
    · exact hnot hmem
  rw [World.swapSlotRelease, if_neg hgo]
  have hcount : w.slotsUsed - 1 = ((w.slotMap.erase slot).erase 0).card := by
    rw [Finset.erase_right_comm, Finset.card_erase_of_mem (Finset.mem_erase.mpr ⟨hne, hmem⟩), h.used]
  refine ⟨fun i hi => h.low i (Finset.mem_of_mem_erase hi), fun ht => ?_, fun ht => ?_, hcount,
    h.size, fun hq => (Nat.sub_le _ 1).trans (h.ceiling hq), (fun i hi => by cases hi), fun i hi hi0 _ => ?_, fun k i hk => ?_, h.once, h.stored⟩
  · exact Finset.mem_erase.mpr ⟨hne.symm, h.zero ht⟩
  · show w.slotMap.erase slot = ∅
    rw [h.fresh ht, Finset.erase_empty]
  · obtain ⟨hi', hmem'⟩ := Finset.mem_erase.mp hi
    exact h.owned i hmem' hi0 fun hl => hi' (Option.some.inj hl).symm
  · obtain ⟨hi0, himem, hil⟩ := h.named k i hk
    exact ⟨hi0, Finset.mem_erase.mpr ⟨fun hi => hil (hi ▸ rfl), himem⟩, (Option.some_ne_none _).symm⟩

theorem Books.vfsWrite {page : Page} (h : Books q l pend w)
    (hslot : ∀ k, Names w k slot → k ∈ pend) : Books q l pend (w.vfsWrite slot page) := by
  refine { h with stored := fun k i hk hpend => ?_ }
  have hne : i ≠ slot := by
    rintro rfl
    exact hpend (hslot k hk)
  exact (Function.update_of_ne hne _ _).trans (h.stored k i hk hpend)

section Entries

theorem entry_setEntry_of_ne {k' : Key} {e : Entry} (hk : k' ≠ k) :
    (w.setEntry k e).entry k' = w.entry k' :=
  Function.update_of_ne hk _ _

theorem names_setEntry_of_ne {k' : Key} {e : Entry} (hk : k' ≠ k) :
    Names (w.setEntry k e) k' slot ↔ Names w k' slot := by
  rw [Names, entry_setEntry_of_ne hk, Names]

theorem not_names_present : ¬ Names (w.setEntry k (.present phys flags)) k slot := by
  rintro ⟨a, b, hk⟩
  rw [entry_setEntry_self] at hk
  cases hk

theorem Books.markSwapped (h : Books q (some slot) pend w)
    (hk : w.entry k = .present phys flags) :
    Books q none (k :: pend) (w.markSwapped k slot phys flags) := by
  obtain ⟨hslot, hmem⟩ := h.loose slot rfl
  have hentry : (w.markSwapped k slot phys flags).entry k =
      .swapped slot flags.writable flags.exec := entry_setEntry_self
  have hself : ∀ {i}, Names (w.markSwapped k slot phys flags) k i ↔ i = slot := by
    intro i
    rw [Names, hentry]
    constructor
    · rintro ⟨_, _, he⟩
      exact (Entry.swapped.inj he).1.symm
    · rintro rfl
      exact ⟨_, _, rfl⟩
  have hother : ∀ {k' i}, k' ≠ k → (Names (w.markSwapped k slot phys flags) k' i ↔ Names w k' i) :=
    fun hne => names_setEntry_of_ne hne
  have hnot : ∀ {k'}, ¬ Names w k' slot := fun hn => (h.named _ _ hn).2.2 rfl
  refine ⟨h.low, h.zero, h.fresh, h.used, h.size, h.ceiling, (fun i hi => by cases hi), fun i hi hi0 _ => ?_,
    fun k' i hn => ?_, fun k' k'' i hn hn' => ?_, fun k' i hn hpend => ?_⟩
  · by_cases his : i = slot
    · exact ⟨k, hself.mpr his⟩
    · obtain ⟨k', hk'⟩ := h.owned i hi hi0 fun hl => his (Option.some.inj hl).symm
      refine ⟨k', (hother ?_).mpr hk'⟩
      rintro rfl
      obtain ⟨_, _, he⟩ := hk'
      rw [hk] at he
      cases he
  · by_cases hkk : k' = k
    · subst hkk
      rw [hself.mp hn]
      exact ⟨hslot, hmem, (Option.some_ne_none _).symm⟩
    · obtain ⟨hi0, hi, -⟩ := h.named k' i ((hother hkk).mp hn)
      exact ⟨hi0, hi, (Option.some_ne_none _).symm⟩
  · by_cases hkk : k' = k
    · by_cases hkk' : k'' = k
      · rw [hkk, hkk']
      · subst hkk
        rw [hself.mp hn, hother hkk'] at hn'
        exact absurd hn' hnot
    · rw [hother hkk] at hn
      by_cases hkk' : k'' = k
      · subst hkk'
        rw [hself.mp hn'] at hn
        exact absurd hn hnot
      · exact h.once k' k'' i hn ((hother hkk').mp hn')
  · have hkk : k' ≠ k := fun he => hpend (he ▸ List.mem_cons_self)
    refine (h.stored k' i ((hother hkk).mp hn) fun hm => hpend (List.mem_cons_of_mem _ hm)).trans ?_
    exact (Function.update_of_ne hkk _ _).symm

theorem Books.written (h : Books q l (k :: pend) w)
    (hstore : ∀ slot, Names w k slot → w.store slot = w.kept k) : Books q l pend w := by
  refine { h with stored := fun k' i hn hpend => ?_ }
  by_cases hkk : k' = k
  · subst hkk
    exact hstore i hn
  · exact h.stored k' i hn fun hm => (List.mem_cons.mp hm).elim hkk hpend

theorem Books.unname {e : Entry} (h : Books q none pend w) (hk : Names w k slot)
    (he : ∀ i, ¬ Names (w.setEntry k e) k i) : Books q (some slot) pend (w.setEntry k e) := by
  have hne : ∀ {k' i}, Names (w.setEntry k e) k' i → k' ≠ k := by
    rintro k' i hn rfl
    exact he i hn
  have hold : ∀ {k' i}, Names (w.setEntry k e) k' i → Names w k' i :=
    fun hn => (names_setEntry_of_ne (hne hn)).mp hn
  obtain ⟨hslot, hmem, -⟩ := h.named k slot hk
  refine ⟨h.low, h.zero, h.fresh, h.used, h.size, h.ceiling, fun i hi => ?_, fun i hi hi0 hl => ?_,
    fun k' i hn => ?_, fun k' k'' i hn hn' => h.once k' k'' i (hold hn) (hold hn'),
    fun k' i hn => h.stored k' i (hold hn)⟩
  · cases hi
    exact ⟨hslot, hmem⟩
  · obtain ⟨k', hk'⟩ := h.owned i hi hi0 (Option.some_ne_none _).symm
    refine ⟨k', (names_setEntry_of_ne ?_).mpr hk'⟩
    rintro rfl
    obtain ⟨_, _, hi⟩ := hk'
    obtain ⟨_, _, hs⟩ := hk
    rw [hi] at hs
    exact hl (by rw [(Entry.swapped.inj hs).1])
  · obtain ⟨hi0, hi, -⟩ := h.named k' i (hold hn)
    refine ⟨hi0, hi, fun hl => hne hn ?_⟩
    cases hl
    exact h.once k' k slot (hold hn) hk

theorem Books.setEntry {e : Entry} (h : Books q none pend w) (hk : ∀ i, ¬ Names w k i)
    (he : ∀ i, ¬ Names (w.setEntry k e) k i) : Books q none pend (w.setEntry k e) := by
  have hiff : ∀ {k' i}, Names (w.setEntry k e) k' i ↔ Names w k' i := by
    intro k' i
    by_cases hkk : k' = k
    · subst hkk
      exact iff_of_false (he i) (hk i)
    · exact names_setEntry_of_ne hkk
  exact { h with
    owned := fun i hi hi0 hl => (h.owned i hi hi0 hl).imp fun _ hn => hiff.mpr hn
    named := fun k' i hn => h.named k' i (hiff.mp hn)
    once := fun k' k'' i hn hn' => h.once k' k'' i (hiff.mp hn) (hiff.mp hn')
    stored := fun k' i hn => h.stored k' i (hiff.mp hn) }

end Entries

end DosKernel.Swap

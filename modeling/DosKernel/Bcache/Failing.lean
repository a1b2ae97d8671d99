import DosKernel.Bcache.Runs

namespace DosKernel.Bcache

open DosKernel.Lib World

variable {devs : ℕ → Dev} {w u : World} {dev i j n : ℕ} {luck : ℕ → WriteLuck}

section Invalidate

def Mine (dev : ℕ) (b : Buf) : Prop := b.valid = true ∧ b.dev = dev

instance (dev : ℕ) (b : Buf) : Decidable (Mine dev b) := inferInstanceAs (Decidable (_ ∧ _))

-- What becomes of a slot; a dropped one keeps its device here, which nothing reads any more.
def drop (dev : ℕ) (b : Buf) : Buf :=
  if Mine dev b ∧ b.refcount ≤ 0 then { b with valid := false, dirty := false } else b

def World.dropAt (devs : ℕ → Dev) (dev i : ℕ) (w : World) : World :=
  if Mine dev (w.slots i) ∧ (w.slots i).refcount ≤ 0 then (w.unlink devs i).setSlot i (drop dev)
  else w

-- The loop of `bcache_invalidate` over `n` slots from `i` on: how many are held, and the world.
def World.dropFrom (devs : ℕ → Dev) (dev : ℕ) : ℕ → ℕ → World → ℕ × World
  | _, 0, w => (0, w)
  | i, n + 1, w =>
    let r := dropFrom devs dev (i + 1) n (w.dropAt devs dev i)
    (if Mine dev (w.slots i) ∧ 0 < (w.slots i).refcount then r.1 + 1 else r.1, r.2)

-- `bcache_invalidate`; what the sync answers is not looked at.
def World.invalidate (devs : ℕ → Dev) (w : World) (dev : ℕ) (luck : ℕ → WriteLuck) : ℕ × World :=
  dropFrom devs dev 0 bcacheSlots (w.step devs (.sync dev luck))

def Lands (devs : ℕ → Dev) (w : World) (i : ℕ) : WriteLuck → Prop
  | .ok => (w.slots i).lba < (devs (w.slots i).dev).sectorCount ∨
      w.disk (w.slots i).key = (w.slots i).data
  | .fails left => left = (w.slots i).data

theorem writeBack_disk_iff (luck : WriteLuck) :
    (w.writeBack devs i luck).2.disk (w.slots i).key = (w.slots i).data ↔ Lands devs w i luck := by
  cases luck with
  | ok =>
    rw [writeBack, blkWrite, Lands]
    change _ ↔ (w.slots i).key.2 < (devs (w.slots i).key.1).sectorCount ∨ _
    split
    next hin => simp [setSlot, hin]
    next hout => simp [hout]
  | fails left => simp [writeBack, blkWrite, Lands]

-- From `w` to `u`, the dirty slots of the device below `m` were written back, as far as it went.
structure Tracks (devs : ℕ → Dev) (dev : ℕ) (luck : ℕ → WriteLuck) (m : ℕ) (w u : World) : Prop
    extends SameKeys w u where
  linked : Linked devs u
  bytes : ∀ j, (u.slots j).data = (w.slots j).data ∧ (u.slots j).refcount = (w.slots j).refcount
  kept : ∀ j, (w.slots j).valid = true → (w.slots j).dirty = true →
    (u.slots j).dirty = true ∨ u.disk (w.slots j).key = (w.slots j).data
  past : ∀ j < m, Mine dev (w.slots j) → (w.slots j).dirty = true →
    (u.disk (w.slots j).key = (w.slots j).data ↔ Lands devs w j (luck j))
  ahead : ∀ j, m ≤ j → (w.slots j).valid = true → (w.slots j).dirty = true →
    (u.slots j).dirty = true ∧ u.disk (w.slots j).key = w.disk (w.slots j).key

theorem Linked.tracks (h : Linked devs w) (dev : ℕ) (luck : ℕ → WriteLuck) :
    Tracks devs dev luck 0 w w :=
  ⟨⟨fun _ => ⟨rfl, rfl⟩, rfl⟩, h, fun _ => ⟨rfl, rfl⟩, fun _ _ hd => .inl hd,
    fun _ hj => absurd hj (Nat.not_lt_zero _), fun _ _ _ hd => ⟨hd, rfl⟩⟩

section

variable (h : Tracks devs dev luck n w u)

include h

theorem Tracks.lands_iff (hv : (w.slots n).valid = true) (hd : (w.slots n).dirty = true)
    (l : WriteLuck) : Lands devs u n l ↔ Lands devs w n l := by
  have hdisk := (h.ahead n (Nat.le_refl n) hv hd).2
  have hkey := (h.keys n).2
  have hlba : (u.slots n).lba = (w.slots n).lba := congrArg Prod.snd hkey
  cases l with
  | ok => rw [Lands, Lands, hlba, h.sameDev n, hkey, (h.bytes n).1, hdisk]
  | fails left => rw [Lands, Lands, (h.bytes n).1]

theorem Tracks.writeBack (hm : Mine dev (u.slots n)) (hd : (u.slots n).dirty = true) :
    Tracks devs dev luck (n + 1) w (u.writeBack devs n (luck n)).2 := by
  have hb := wroteBack_writeBack devs u n (luck n)
  have hother : ∀ j, j ≠ n → (w.slots j).valid = true → (w.slots j).key ≠ (u.slots n).key :=
    fun j hjn hj hkey => hjn (h.linked.eq_of_key ((h.keys j).1.trans hj) hm.1
      ((h.keys j).2.trans hkey))
  refine ⟨⟨fun j => ?_, hb.chains.trans h.chains⟩, hb.linked h.linked, fun j => ?_,
    fun j hj hdirty => ?_, fun j hjn hj hdirty => ?_, fun j hjn hj hdirty => ?_⟩
  · exact ⟨(hb.keys j).1.trans (h.keys j).1, (hb.keys j).2.trans (h.keys j).2⟩
  · exact ⟨(hb.bytes j).1.trans (h.bytes j).1, (hb.bytes j).2.trans (h.bytes j).2⟩
  · by_cases hjn : j = n
    · subst hjn
      rw [← (h.keys j).2, ← (h.bytes j).1, hb.dirty_self, hd, Bool.true_and]
      cases hok : (u.writeBack devs j (luck j)).1 with
      | true => exact .inr (hb.disk_self hok)
      | false => exact .inl rfl
    · rw [hb.dirty j hjn, hb.disk _ (hother j hjn hj)]
      exact h.kept j hj hdirty
  · by_cases hjn' : j = n
    · subst hjn'
      rw [← h.lands_iff hj.1 hdirty, ← writeBack_disk_iff, (h.keys j).2, (h.bytes j).1]
    · rw [hb.disk _ (hother j hjn' hj.1)]
      exact h.past j (by omega) hj hdirty
  · rw [hb.dirty j (by omega), hb.disk _ (hother j (by omega) hj)]
    exact h.ahead j (by omega) hj hdirty

theorem Tracks.skip (hskip : ¬ (Mine dev (u.slots n) ∧ (u.slots n).dirty = true)) :
    Tracks devs dev luck (n + 1) w u := by
  refine ⟨h.toSameKeys, h.linked, h.bytes, h.kept, fun j hjn hj hdirty => ?_,
    fun j hjn => h.ahead j (by omega)⟩
  by_cases hjn' : j = n
  · subst hjn'
    refine absurd ⟨⟨?_, ?_⟩, (h.ahead j (Nat.le_refl j) hj.1 hdirty).1⟩ hskip
    · exact (h.keys j).1.trans hj.1
    · exact (h.sameDev j).trans hj.2
  · exact h.past j (by omega) hj hdirty

end

theorem Tracks.syncFrom {m : ℕ} (h : Tracks devs dev luck m w u) :
    Tracks devs dev luck (m + n) w (syncFrom devs dev luck m n u) := by
  induction n generalizing m u with
  | zero => exact h
  | succ n ih =>
    rw [show m + (n + 1) = m + 1 + n by omega]
    refine ih ?_
    split
    next hgo =>
      rw [Bool.and_eq_true, Bool.and_eq_true, decide_eq_true_eq] at hgo
      exact h.writeBack ⟨hgo.1.1, hgo.2⟩ hgo.1.2
    next hgo =>
      refine h.skip fun hall => hgo ?_
      rw [hall.1.1, hall.2, decide_eq_true hall.1.2]
      rfl

theorem dropAt_slots : (w.dropAt devs dev i).slots j =
    if j = i then drop dev (w.slots j) else w.slots j := by
  rw [dropAt]
  split
  · by_cases hj : j = i
    · subst hj
      simp [setSlot, unlink]
    · simp [setSlot, unlink, hj]
  next hkeep =>
    split
    next hj => rw [hj, drop, if_neg hkeep]
    · rfl

theorem dropFrom_slots : (dropFrom devs dev i n w).2.slots j =
    if i ≤ j ∧ j < i + n then drop dev (w.slots j) else w.slots j := by
  induction n generalizing i w with
  | zero => exact (if_neg (by omega)).symm
  | succ n ih =>
    refine ih.trans ?_
    rw [dropAt_slots]
    by_cases hj : j = i
    · rw [if_neg (by omega), if_pos hj, if_pos (by omega)]
    · rw [if_neg hj]
      exact if_congr (by omega) rfl rfl

theorem dropFrom_disk : (dropFrom devs dev i n w).2.disk = w.disk := by
  induction n generalizing i w with
  | zero => rfl
  | succ n ih =>
    refine ih.trans ?_
    rw [dropAt]
    split <;> rfl

theorem mine_drop {b : Buf} : Mine dev (drop dev b) ↔ Mine dev b ∧ 0 < b.refcount := by
  rw [drop]
  split
  next hdrop => simp [Mine, hdrop.2]
  next hkeep => exact ⟨fun h => ⟨h, Int.not_le.mp fun hle => hkeep ⟨h, hle⟩⟩, And.left⟩

theorem dropFrom_count : (dropFrom devs dev i n w).1 =
    (List.range' i n).countP fun j => Mine dev ((dropFrom devs dev i n w).2.slots j) := by
  have hcount : (dropFrom devs dev i n w).1 =
      (List.range' i n).countP fun j => Mine dev (drop dev (w.slots j)) := by
    induction n generalizing i w with
    | zero => rfl
    | succ n ih =>
      have hrest : (List.range' (i + 1) n).countP
            (fun j => Mine dev (drop dev ((w.dropAt devs dev i).slots j))) =
          (List.range' (i + 1) n).countP fun j => Mine dev (drop dev (w.slots j)) := by
        refine List.countP_congr fun j hj => ?_
        have := (List.mem_range'_1.mp hj).1
        rw [dropAt_slots, if_neg (by omega)]
      rw [dropFrom, ih, hrest, List.range'_succ, List.countP_cons]
      simp only [mine_drop, decide_eq_true_eq]
      split <;> rfl
  refine hcount.trans (List.countP_congr fun j hj => ?_)
  rw [dropFrom_slots, if_pos (List.mem_range'_1.mp hj)]

-- The slots left are counted, and every dirty sector is on the device or still in the cache.
def LosesNone (devs : ℕ → Dev) (w : World) (dev : ℕ) (luck : ℕ → WriteLuck) : Prop :=
  let r := w.invalidate devs dev luck
  r.1 = (List.range' 0 bcacheSlots).countP (fun i => Mine dev (r.2.slots i)) ∧
    ∀ i < bcacheSlots, Mine dev (w.slots i) → (w.slots i).dirty = true →
      r.2.disk (w.slots i).key = (w.slots i).data ∨
      Mine dev (r.2.slots i) ∧ (r.2.slots i).dirty = true ∧ (r.2.slots i).key = (w.slots i).key ∧
        (r.2.slots i).data = (w.slots i).data

-- The bytes of a dirty buffer that nobody holds are on the device, or it takes them.
def SyncSuffices (devs : ℕ → Dev) (w : World) (dev : ℕ) (luck : ℕ → WriteLuck) : Prop :=
  ∀ i < bcacheSlots, Mine dev (w.slots i) → (w.slots i).dirty = true →
    (w.slots i).refcount ≤ 0 →
      if (devs dev).hasWrite then Lands devs w i (luck i)
      else w.disk (w.slots i).key = (w.slots i).data

theorem Tracks.saved_iff {m : ℕ} (ht : Tracks devs dev luck m w u) (hi : i < n)
    (hm : Mine dev (w.slots i)) (hdirty : (w.slots i).dirty = true) :
    let x := (dropFrom devs dev 0 n u).2
    (x.disk (w.slots i).key = (w.slots i).data ∨
        Mine dev (x.slots i) ∧ (x.slots i).dirty = true ∧ (x.slots i).key = (w.slots i).key ∧
          (x.slots i).data = (w.slots i).data) ↔
      ((w.slots i).refcount ≤ 0 → u.disk (w.slots i).key = (w.slots i).data) := by
  obtain ⟨hvalid, hkey⟩ := ht.keys i
  obtain ⟨hdata, href⟩ := ht.bytes i
  have hmine : Mine dev (u.slots i) := ⟨hvalid.trans hm.1, (ht.sameDev i).trans hm.2⟩
  simp only [dropFrom_disk, dropFrom_slots, Nat.zero_le, Nat.zero_add, hi, and_self, if_true,
    mine_drop, hmine, true_and, href]
  constructor
  · rintro (hdisk | ⟨hheld, -⟩) hfree
    · exact hdisk
    · omega
  · intro hall
    by_cases hfree : (w.slots i).refcount ≤ 0
    · exact .inl (hall hfree)
    · rw [drop, if_neg fun hdrop => hfree (href ▸ hdrop.2)]
      refine (ht.kept i hm.1 hdirty).symm.imp_right fun hleft => ?_
      exact ⟨Int.not_le.mp hfree, hleft, hkey, hdata⟩

theorem losesNone_iff_syncSuffices (h : Linked devs w) (dev : ℕ) (luck : ℕ → WriteLuck) :
    LosesNone devs w dev luck ↔ SyncSuffices devs w dev luck := by
  have ht := h.tracks dev luck
  rw [LosesNone, invalidate]
  refine (and_iff_right dropFrom_count).trans ?_
  refine forall₂_congr fun i hi => forall₂_congr fun hm hd => ?_
  rw [World.step]
  split
  · have hsync := ht.syncFrom (n := bcacheSlots)
    refine (hsync.saved_iff hi hm hd).trans ?_
    rw [hsync.past i (by omega) hm hd]
  · exact ht.saved_iff hi hm hd

-- A buffer that nobody holds is dirty.
def dirtyWorld : World :=
  ((boot (fun _ => zeros) zeros zeros).install smallSectors 0 (0, 0) zeros 0).modify ⟨0, 0, 0⟩
    fun _ => 7

theorem linked_dirtyWorld : Linked smallSectors dirtyWorld :=
  ((inv_boot smallSectors (fun _ => zeros) zeros zeros).linked.install rfl rfl).modify _ _

theorem dirtyWorld_losesNone_iff : Linked smallSectors dirtyWorld ∧
    (LosesNone smallSectors dirtyWorld 0 (fun _ => .ok) ↔
      SyncSuffices smallSectors dirtyWorld 0 fun _ => .ok) :=
  ⟨linked_dirtyWorld, losesNone_iff_syncSuffices linked_dirtyWorld 0 _⟩

theorem syncFrom_idle (h : ∀ j, i ≤ j → (w.slots j).valid = false) :
    syncFrom devs dev luck i n w = w := by
  induction n generalizing i with
  | zero => rfl
  | succ n ih =>
    rw [syncFrom, h i (Nat.le_refl i)]
    exact ih fun j hj => h j (by omega)

-- The device refuses its write-back, and it is gone.
theorem refused_write_dropped : Linked smallSectors dirtyWorld ∧
    ¬ LosesNone smallSectors dirtyWorld 0 fun _ => .fails zeros := by
  refine ⟨linked_dirtyWorld, fun h => ?_⟩
  have hlost := h.2 0 (by decide) (by decide +kernel) (by decide +kernel)
  have hsync : dirtyWorld.step smallSectors (.sync 0 fun _ => .fails zeros) =
      (dirtyWorld.writeBack smallSectors 0 (.fails zeros)).2 := by
    rw [World.step, if_pos (by rfl), show bcacheSlots = 1023 + 1 from rfl, syncFrom,
      if_pos (by decide +kernel)]
    refine syncFrom_idle fun j hj => ?_
    show (dirtyWorld.slots j).valid = false
    rw [dirtyWorld, modify_slots_of_ne (Nat.ne_of_gt hj), install_slots_of_ne (Nat.ne_of_gt hj)]
    rfl
  rw [invalidate, hsync, dropFrom_disk, dropFrom_slots] at hlost
  obtain hdisk | hkept := hlost
  · exact absurd (congrFun hdisk 0) (by decide +kernel)
  · exact absurd hkept.1 (by decide +kernel)

end Invalidate

section Victim

variable {slots : ℕ → Buf} {victim : Option ℕ}

theorem isSome_pickFrom (h : victim.isSome = true ∨
    ∃ j, i ≤ j ∧ j < i + n ∧ (slots j).refcount ≤ 0) : (pickFrom slots i n victim).isSome = true := by
  induction n generalizing i victim with
  | zero =>
    obtain h | ⟨j, hlo, hhi, -⟩ := h
    · exact h
    · omega
  | succ n ih =>
    rw [pickFrom.eq_def]
    simp only
    split
    next hheld =>
      refine ih (h.imp_right ?_)
      rintro ⟨j, hlo, hhi, hfree⟩
      have hne : i ≠ j := by
        rintro rfl
        omega
      exact ⟨j, by omega, by omega, hfree⟩
    split
    · rfl
    cases victim with
    | none => exact ih (.inl rfl)
    | some v =>
      refine ih (.inl ?_)
      split <;> rfl

structure Servable (devs : ℕ → Dev) (w : World) (k : ℕ × ℕ) (luck : Luck) : Prop where
  hasRead : (devs k.1).hasRead = true
  sectorSize : (devs k.1).sectorSize ≤ bcSector
  reads : luck.read = true ∧ k.2 < (devs k.1).sectorCount
  free : ∃ i < bcacheSlots, (w.slots i).refcount ≤ 0 ∧
    ((w.slots i).valid = false ∨ (w.slots i).dirty = false)

-- The sector is cached, or the slot that `pick_victim` takes needs no write-back or gets it.
def VictimYields (devs : ℕ → Dev) (w : World) (k : ℕ × ℕ) (luck : Luck) : Prop :=
  w.findEntry devs k = none → ∀ b, w.pickVictim = some b →
    (w.slots b).valid = true → (w.slots b).dirty = true → (devs (w.slots b).dev).hasWrite = true →
      luck.write = .ok ∧ (w.slots b).lba < (devs (w.slots b).dev).sectorCount

theorem flush_fst_iff {b : ℕ} {l : WriteLuck} : (w.flush devs b l).1 = true ↔
    ((w.slots b).valid = true → (w.slots b).dirty = true →
      (devs (w.slots b).dev).hasWrite = true →
        l = .ok ∧ (w.slots b).lba < (devs (w.slots b).dev).sectorCount) := by
  rw [flush]
  split
  next hgo =>
    rw [Bool.and_eq_true, Bool.and_eq_true] at hgo
    simp only [hgo.1.1, hgo.1.2, hgo.2, forall_const]
    cases l with
    | ok =>
      rw [writeBack, blkWrite]
      change _ ↔ _ ∧ (w.slots b).key.2 < (devs (w.slots b).key.1).sectorCount
      split
      next hin => simp [hin]
      next hout => simp [hout]
    | fails left => simp [writeBack, blkWrite]
  next hgo =>
    rw [Bool.and_eq_true, Bool.and_eq_true] at hgo
    exact iff_of_true rfl fun hv hd hw => absurd ⟨⟨hv, hd⟩, hw⟩ hgo

theorem Servable.isSome_get_iff {k : ℕ × ℕ} {luck : Luck} (h : Servable devs w k luck) :
    (w.get devs k false luck).1.isSome = true ↔ VictimYields devs w k luck := by
  obtain ⟨i, hi, hfree, -⟩ := h.free
  have hpick : w.pickVictim.isSome = true := isSome_pickFrom (.inr ⟨i, by omega, by omega, hfree⟩)
  obtain ⟨b, hb⟩ := Option.isSome_iff_exists.mp hpick
  have hsize := h.sectorSize
  rw [World.get.eq_def, if_neg (by simp [h.hasRead, hsize]), VictimYields]
  cases hfind : w.findEntry devs k with
  | some i => simp
  | none =>
    simp only [miss, takeVictim, hb, Option.some.injEq, forall_eq', forall_const, ← flush_fst_iff]
    cases hok : (w.flush devs b luck.write).1 with
    | false => simp
    | true =>
      simp only [if_true, Bool.false_eq_true, if_false]
      split
      · exact iff_of_true rfl trivial
      · rw [if_pos h.reads]
        exact iff_of_true rfl trivial

-- A sector is served wherever a slot is to be had for it, exactly if the one victim picked yields.
theorem served_iff_victimYields (devs : ℕ → Dev) (w : World) (k : ℕ × ℕ) (luck : Luck) :
    (Servable devs w k luck → (w.get devs k false luck).1.isSome = true) ↔
      (Servable devs w k luck → VictimYields devs w k luck) :=
  forall_congr' fun h => h.isSome_get_iff

-- All slots are clean but the first, the oldest, whose device refuses writes.
def stuckWorld : World :=
  { boot (fun _ => zeros) zeros zeros with
    slots := fun i => ⟨if i = 0 then 0 else 1, i, zeros, 0, i = 0, i, true⟩ }

theorem stuck_victim : Servable smallSectors stuckWorld (2, 0) ⟨.fails zeros, none, true⟩ ∧
    (stuckWorld.get smallSectors (2, 0) false ⟨.fails zeros, none, true⟩).1 = none :=
  ⟨⟨rfl, by decide, by decide, 1, by decide, by decide, by decide⟩, by decide +kernel⟩

end Victim

end DosKernel.Bcache

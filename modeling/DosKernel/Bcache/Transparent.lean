import DosKernel.Bcache.Slots

namespace DosKernel.Bcache

open DosKernel.Lib Buckets World

variable {devs : ℕ → Dev} {w w' : World} {i j n v b dev lba : ℕ} {k q : ℕ × ℕ} {h : Handle}
  {pins pins' : ℕ → ℕ} {data : Sector} {refcount : ℤ} {ok : Bool}

def Agree (devs : ℕ → Dev) (k : ℕ × ℕ) (x y : Sector) : Prop :=
  ∀ i < (devs k.1).sectorSize, x i = y i

def Right (devs : ℕ → Dev) (w : World) (i : ℕ) : Prop :=
  (w.slots i).valid = true → Agree devs (w.slots i).key (w.slots i).data (w.truth (w.slots i).key)

-- What was last written to a sector is on the device, unless a slot has it as dirty.
def Saved (devs : ℕ → Dev) (w : World) : Prop :=
  ∀ k, (∀ i, (w.slots i).valid = true → (w.slots i).key = k → (w.slots i).dirty = false) →
    Agree devs k (w.disk k) (w.truth k)

def Held (w : World) (h : Handle) : Prop :=
  (w.slots h.slot).valid = true ∧ (w.slots h.slot).key = (h.dev, h.lba)

def holders (w : World) (i : ℕ) : ℕ := w.handles.countP fun h => h.slot = i

structure Sound (devs : ℕ → Dev) (w : World) : Prop where
  found : ∀ i, (w.slots i).valid = true → w.findEntry devs (w.slots i).key = some i
  saved : Saved devs w
  right : ∀ i, Right devs w i
  held : ∀ h ∈ w.handles, Held w h
  counted : ∀ i, (w.slots i).refcount = holders w i

-- `bc_readahead` counts the slot it fills once more while it looks for others: a pin.
structure Inv (devs : ℕ → Dev) (pins : ℕ → ℕ) (w : World) : Prop where
  linked : Linked devs w
  saved : Saved devs w
  right : ∀ i, Right devs w i
  held : ∀ h ∈ w.handles, Held w h
  counted : ∀ i, (w.slots i).refcount = holders w i + pins i
  writable : ∀ i, (w.slots i).valid = true → (w.slots i).dirty = true →
    (devs (w.slots i).dev).hasWrite = true

def noPin : ℕ → ℕ := fun _ => 0

def pin (b : ℕ) : ℕ → ℕ := fun i => if i = b then 1 else 0

theorem Inv.sound (hw : Inv devs noPin w) : Sound devs w :=
  ⟨fun _ hi => hw.linked.findEntry_eq hi rfl, hw.saved, hw.right, hw.held, hw.counted⟩

section

variable (hw : Inv devs pins w)

include hw

theorem Inv.fresh (hk : w.findEntry devs k = none) : Agree devs k (w.disk k) (w.truth k) :=
  hw.saved k fun _ hi hik => absurd hik (hw.linked.not_cached hk hi)

theorem Inv.holders_eq_zero (hv : (w.slots v).valid = false) : holders w v = 0 := by
  rw [holders, List.countP_eq_zero]
  intro h hh hslot
  have hvalid := (hw.held h hh).1
  rw [of_decide_eq_true hslot, hv] at hvalid
  cases hvalid

theorem Inv.free (hfree : (w.slots v).refcount ≤ 0) :
    pins v = 0 ∧ ∀ h ∈ w.handles, h.slot ≠ v := by
  have hcount := hw.counted v
  refine ⟨by omega, fun h hh hslot => ?_⟩
  have hpos : 0 < holders w v := List.countP_pos_iff.mpr ⟨h, hh, decide_eq_true hslot⟩
  omega

end

section Recycle

theorem evict_invalid : ((w.evict devs v).slots v).valid = false := by
  rw [evict_slots_self]

theorem findEntry_evict (hl : Linked devs w) (hq : w.findEntry devs q = none) :
    (w.evict devs v).findEntry devs q = none := by
  refine findEntry_none fun i hi => ?_
  rw [evict_key]
  exact hl.not_cached hq (evict_valid_iff.mp hi).1

theorem Inv.evict (hw : Inv devs pins w) (hfree : (w.slots v).refcount ≤ 0)
    (hclean : ¬ ((w.slots v).valid = true ∧ (w.slots v).dirty = true)) :
    Inv devs pins (w.evict devs v) := by
  obtain ⟨-, hdisk, htruth, hhandles⟩ := evict_rest devs w v
  have hfrom : ∀ i, ((w.evict devs v).slots i).valid = true →
      (w.slots i).valid = true ∧ (w.evict devs v).slots i = w.slots i := by
    intro i hi
    obtain ⟨hvalid, hiv⟩ := evict_valid_iff.mp hi
    exact ⟨hvalid, evict_slots_of_ne hiv⟩
  refine ⟨hw.linked.evict v, fun k hk => ?_, fun i hi => ?_, fun h hh => ?_, fun i => ?_,
    fun i hi => ?_⟩
  · rw [hdisk, htruth]
    refine hw.saved k fun i hi hik => ?_
    by_cases hiv : i = v
    · subst hiv
      exact Bool.eq_false_iff.mpr fun hd => hclean ⟨hi, hd⟩
    · have hsame : (w.evict devs v).slots i = w.slots i := evict_slots_of_ne hiv
      rw [← hsame] at hi hik ⊢
      exact hk i hi hik
  · obtain ⟨hvalid, hsame⟩ := hfrom i hi
    rw [hsame, htruth]
    exact hw.right i hvalid
  · rw [hhandles] at hh
    rw [Held, evict_slots_of_ne ((hw.free hfree).2 h hh)]
    exact hw.held h hh
  · rw [holders, hhandles, evict_slots]
    refine Eq.trans ?_ (hw.counted i)
    split
    next hiv => rw [hiv]
    · rfl
  · obtain ⟨hvalid, hsame⟩ := hfrom i hi
    rw [hsame]
    exact hw.writable i hvalid

theorem Inv.install (hw : Inv devs pins w) (hv : (w.slots v).valid = false)
    (hk : w.findEntry devs k = none) (hdata : Agree devs k data (w.truth k))
    (hcount : refcount = pins' v) (hpins : ∀ i, i ≠ v → pins' i = pins i) :
    Inv devs pins' (w.install devs v k data refcount) := by
  have hother : ∀ i, i ≠ v → (w.install devs v k data refcount).slots i = w.slots i :=
    fun i hi => install_slots_of_ne hi
  have hne : ∀ i, (w.slots i).valid = true → i ≠ v := by
    rintro i hi rfl
    rw [hv] at hi
    cases hi
  refine ⟨hw.linked.install hv hk, fun q hq => ?_, fun i hi => ?_, fun h hh => ?_, fun i => ?_,
    fun i hi hd => ?_⟩
  · refine hw.saved q fun i hi hiq => ?_
    have hsame := hother i (hne i hi)
    rw [← hsame] at hi hiq ⊢
    exact hq i hi hiq
  · by_cases hiv : i = v
    · rw [hiv, install_slots_self]
      exact hdata
    · rw [hother i hiv] at hi ⊢
      exact hw.right i hi
  · rw [Held, hother _ (hne _ (hw.held h hh).1)]
    exact hw.held h hh
  · by_cases hiv : i = v
    · have hnone : holders (w.install devs v k data refcount) v = 0 := hw.holders_eq_zero hv
      rw [hiv, hnone, install_slots_self]
      simpa using hcount
    · rw [hother i hiv, hpins i hiv]
      exact hw.counted i
  · by_cases hiv : i = v
    · rw [hiv, install_slots_self] at hd
      cases hd
    · rw [hother i hiv] at hi hd ⊢
      exact hw.writable i hi hd

-- A slot that is not dirty is taken from its sector and given to one that is not cached.
def recycle (devs : ℕ → Dev) (w : World) (v : ℕ) (k : ℕ × ℕ) (data : Sector) : World :=
  (w.evict devs v).install devs v k data 0

theorem Inv.recycle (hw : Inv devs pins w) (hfree : (w.slots v).refcount ≤ 0)
    (hclean : ¬ ((w.slots v).valid = true ∧ (w.slots v).dirty = true))
    (hk : w.findEntry devs k = none) (hdata : Agree devs k data (w.truth k)) :
    Inv devs pins (recycle devs w v k data) := by
  refine (hw.evict hfree hclean).install evict_invalid (findEntry_evict hw.linked hk) ?_ ?_
    fun _ _ => rfl
  · rwa [(evict_rest devs w v).2.2.1]
  · rw [(hw.free hfree).1]
    rfl

theorem recycle_slots_of_ne (hi : i ≠ v) : (recycle devs w v k data).slots i = w.slots i := by
  rw [recycle, install_slots_of_ne hi, evict_slots_of_ne hi]

theorem recycle_rest (devs : ℕ → Dev) (w : World) (v : ℕ) (k : ℕ × ℕ) (data : Sector) :
    (recycle devs w v k data).raBuf = w.raBuf ∧ (recycle devs w v k data).truth = w.truth :=
  ⟨(evict_rest devs w v).1, (evict_rest devs w v).2.2.1⟩

theorem findEntry_recycle (hl : Linked devs w) (hq : w.findEntry devs q = none) (hqk : q ≠ k) :
    (recycle devs w v k data).findEntry devs q = none := by
  refine findEntry_none fun i hi => ?_
  by_cases hiv : i = v
  · rw [hiv, recycle, install_slots_self]
    exact fun hkq => hqk hkq.symm
  · rw [recycle_slots_of_ne hiv] at hi ⊢
    exact hl.not_cached hq hi

end Recycle

section Alike

structure SameKeys (w w' : World) : Prop where
  keys : ∀ i, (w'.slots i).valid = (w.slots i).valid ∧ (w'.slots i).key = (w.slots i).key
  chains : w'.chains = w.chains

section

variable (hs : SameKeys w w')

include hs

theorem SameKeys.findEntry : w'.findEntry devs k = w.findEntry devs k := by
  rw [World.findEntry, World.findEntry, hs.chains]
  simp only [(hs.keys _).1, (hs.keys _).2]

theorem SameKeys.linked (hl : Linked devs w) : Linked devs w' := by
  refine ⟨?_, fun i => ?_⟩
  · rw [hs.chains]
    exact hl.hashed.congr fun i _ => (hs.keys i).2
  · rw [hs.chains, (hs.keys i).1, hl.stored]

theorem SameKeys.held : Held w' h ↔ Held w h := by
  simp only [Held, (hs.keys h.slot).1, (hs.keys h.slot).2]

theorem SameKeys.sameDev (i : ℕ) : (w'.slots i).dev = (w.slots i).dev :=
  congrArg Prod.fst (hs.keys i).2

end

structure Alike (w w' : World) : Prop extends SameKeys w w' where
  bytes : ∀ i, (w'.slots i).data = (w.slots i).data ∧ (w'.slots i).dirty = (w.slots i).dirty
  disk : w'.disk = w.disk
  truth : w'.truth = w.truth

theorem Alike.inv (ha : Alike w w') (hw : Inv devs pins w)
    (hheld : ∀ h ∈ w'.handles, Held w h)
    (hcounted : ∀ i, (w'.slots i).refcount = holders w' i + pins' i) : Inv devs pins' w' where
  linked := ha.linked hw.linked
  saved := by
    simp only [Saved, (ha.keys _).1, (ha.keys _).2, (ha.bytes _).2, ha.disk, ha.truth]
    exact hw.saved
  right i := by
    rw [Right, (ha.keys i).1, (ha.keys i).2, (ha.bytes i).1, ha.truth]
    exact hw.right i
  held h hh := ha.held.mpr (hheld h hh)
  counted := hcounted
  writable i := by
    rw [(ha.keys i).1, (ha.bytes i).2, ha.sameDev i]
    exact hw.writable i

theorem alike_setSlot (i : ℕ) (f : Buf → Buf) (hslots : w'.slots = (w.setSlot i f).slots)
    (hf : ((f (w.slots i)).valid = (w.slots i).valid ∧ (f (w.slots i)).key = (w.slots i).key) ∧
      (f (w.slots i)).data = (w.slots i).data ∧ (f (w.slots i)).dirty = (w.slots i).dirty)
    (hchains : w'.chains = w.chains) (hdisk : w'.disk = w.disk) (htruth : w'.truth = w.truth) :
    Alike w w' := by
  have hall : ∀ x, ((w'.slots x).valid = (w.slots x).valid ∧ (w'.slots x).key = (w.slots x).key) ∧
      (w'.slots x).data = (w.slots x).data ∧ (w'.slots x).dirty = (w.slots x).dirty := by
    intro x
    rw [hslots]
    by_cases hx : x = i
    · subst hx
      simpa [setSlot] using hf
    · simp [setSlot, hx]
  exact ⟨⟨fun x => (hall x).1, hchains⟩, fun x => (hall x).2, hdisk, htruth⟩

theorem alike_setRefcount (w : World) (i : ℕ) (m : ℤ) : Alike w (w.setRefcount i m) :=
  alike_setSlot i (fun s => { s with refcount := m }) rfl ⟨⟨rfl, rfl⟩, rfl, rfl⟩ rfl rfl rfl

end Alike

section WriteBack

theorem blkWrite_cases (devs : ℕ → Dev) (w : World) (k : ℕ × ℕ) (data : Sector)
    (luck : WriteLuck) :
    ∃ ok left, w.blkWrite devs k data luck =
        (ok, { w with disk := Function.update w.disk k left }) ∧ (ok = true → left = data) := by
  cases luck with
  | ok =>
    rw [blkWrite]
    split
    · exact ⟨true, data, rfl, fun _ => rfl⟩
    · refine ⟨false, w.disk k, ?_, fun hok => by cases hok⟩
      rw [Function.update_eq_self]
  | fails left => exact ⟨false, left, rfl, fun hok => by cases hok⟩

-- A write-back changes what the device has of the slot's sector, and whether the slot is dirty.
structure WroteBack (w : World) (i : ℕ) (ok : Bool) (w' : World) : Prop
    extends SameKeys w w' where
  bytes : ∀ j, (w'.slots j).data = (w.slots j).data ∧
    (w'.slots j).refcount = (w.slots j).refcount
  dirty : ∀ j, j ≠ i → (w'.slots j).dirty = (w.slots j).dirty
  dirty_self : (w'.slots i).dirty = ((w.slots i).dirty && !ok)
  truth : w'.truth = w.truth
  handles : w'.handles = w.handles
  disk : ∀ k, k ≠ (w.slots i).key → w'.disk k = w.disk k
  disk_self : ok = true → w'.disk (w.slots i).key = (w.slots i).data

theorem wroteBack_writeBack (devs : ℕ → Dev) (w : World) (i : ℕ) (luck : WriteLuck) :
    WroteBack w i (w.writeBack devs i luck).1 (w.writeBack devs i luck).2 := by
  obtain ⟨ok, left, hwrite, hleft⟩ :=
    blkWrite_cases devs w (w.slots i).key (w.slots i).data luck
  rw [writeBack, hwrite]
  cases ok with
  | false =>
    refine ⟨⟨fun _ => ⟨rfl, rfl⟩, rfl⟩, fun _ => ⟨rfl, rfl⟩, fun _ _ => rfl, ?_, rfl, rfl, ?_, ?_⟩
    · exact (Bool.and_true _).symm
    · exact fun k hk => Function.update_of_ne hk _ _
    · exact fun hok => by cases hok
  | true =>
    refine ⟨⟨fun j => ?_, rfl⟩, fun j => ?_, fun j hj => ?_, ?_, rfl, rfl, ?_, fun _ => ?_⟩
    · by_cases hj : j = i <;> simp [setSlot, Buf.key, hj]
    · by_cases hj : j = i <;> simp [setSlot, hj]
    · simp [setSlot, hj]
    · simp [World.setSlot]
    · exact fun k hk => Function.update_of_ne hk _ _
    · rw [← hleft rfl]
      exact Function.update_self _ _ _

theorem Inv.wroteBack (hw : Inv devs pins w) (hi : (w.slots i).valid = true)
    (hdirty : (w.slots i).dirty = true) (h : WroteBack w i ok w') : Inv devs pins w' := by
  refine ⟨h.linked hw.linked, fun k hk => ?_, fun j => ?_, fun x hx => ?_, fun j => ?_,
    fun j hj hd => ?_⟩
  · by_cases hki : k = (w.slots i).key
    · subst hki
      have hclean := hk i ((h.keys i).1.trans hi) (h.keys i).2
      rw [h.dirty_self, hdirty, Bool.true_and, Bool.not_eq_false'] at hclean
      rw [h.disk_self hclean, h.truth]
      exact hw.right i hi
    · rw [h.disk k hki, h.truth]
      refine hw.saved k fun j hj hjk => ?_
      have hji : j ≠ i := by
        rintro rfl
        exact hki hjk.symm
      rw [← h.dirty j hji]
      exact hk j ((h.keys j).1.trans hj) ((h.keys j).2.trans hjk)
  · rw [Right, (h.keys j).1, (h.keys j).2, (h.bytes j).1, h.truth]
    exact hw.right j
  · rw [h.handles] at hx
    exact h.held.mpr (hw.held x hx)
  · rw [(h.bytes j).2, holders, h.handles]
    exact hw.counted j
  · rw [(h.keys j).1] at hj
    rw [h.sameDev j]
    by_cases hji : j = i
    · rw [hji]
      exact hw.writable i hi hdirty
    · rw [h.dirty j hji] at hd
      exact hw.writable j hj hd

theorem Inv.syncFrom (hw : Inv devs pins w) (dev : ℕ) (luck : ℕ → WriteLuck) (i n : ℕ) :
    Inv devs pins (syncFrom devs dev luck i n w) := by
  induction n generalizing i w with
  | zero => exact hw
  | succ n ih =>
    refine ih ?_ (i + 1)
    split
    next hgo =>
      rw [Bool.and_eq_true, Bool.and_eq_true] at hgo
      exact hw.wroteBack hgo.1.1 hgo.1.2 (wroteBack_writeBack devs w i (luck i))
    · exact hw

end WriteBack

section Victim

theorem refcount_pickFrom {slots : ℕ → Buf} {victim : Option ℕ}
    (hvictim : ∀ v, victim = some v → (slots v).refcount ≤ 0)
    (h : pickFrom slots i n victim = some b) : (slots b).refcount ≤ 0 := by
  induction n generalizing i victim with
  | zero => exact hvictim b h
  | succ n ih =>
    rw [pickFrom.eq_def] at h
    simp only at h
    split at h
    · exact ih hvictim h
    next hfree =>
      have hi : ∀ v, some i = some v → (slots v).refcount ≤ 0 := by
        rintro v ⟨⟩
        exact Int.not_lt.mp hfree
      split at h
      · exact hi b h
      · cases victim with
        | none => exact ih hi h
        | some v =>
          refine ih ?_ h
          split
          · exact hi
          · exact hvictim

structure Ready (devs : ℕ → Dev) (pins : ℕ → ℕ) (w : World) (b : ℕ) (k : ℕ × ℕ) : Prop
    extends Inv devs pins w where
  invalid : (w.slots b).valid = false
  uncached : w.findEntry devs k = none

theorem Inv.flush (hw : Inv devs pins w) (b : ℕ) (luck : WriteLuck) :
    ∃ ok w', w.flush devs b luck = (ok, w') ∧ Inv devs pins w' ∧ SameKeys w w' ∧
      (w'.slots b).refcount = (w.slots b).refcount ∧
      (ok = true → ¬ ((w'.slots b).valid = true ∧ (w'.slots b).dirty = true)) := by
  rw [World.flush]
  split
  next hgo =>
    rw [Bool.and_eq_true, Bool.and_eq_true] at hgo
    have hback := wroteBack_writeBack devs w b luck
    refine ⟨(w.writeBack devs b luck).1, (w.writeBack devs b luck).2, rfl,
      hw.wroteBack hgo.1.1 hgo.1.2 hback, hback.toSameKeys, (hback.bytes b).2, ?_⟩
    rintro hok ⟨-, hd⟩
    rw [hback.dirty_self, hok, Bool.not_true, Bool.and_false] at hd
    cases hd
  next hgo =>
    refine ⟨_, _, rfl, hw, ⟨fun _ => ⟨rfl, rfl⟩, rfl⟩, rfl, ?_⟩
    -- every dirty slot is of a device that takes writes, so it would have been written back
    rintro - ⟨hvalid, hd⟩
    rw [hvalid, hd, hw.writable b hvalid hd] at hgo
    exact hgo rfl

theorem Inv.takeVictim (hw : Inv devs pins w) (hk : w.findEntry devs k = none)
    (luck : WriteLuck) :
    (∃ u, w.takeVictim devs luck = (none, u) ∧ Inv devs pins u) ∨
      ∃ b u, w.takeVictim devs luck = (some b, u) ∧ Ready devs pins u b k := by
  rw [takeVictim.eq_def]
  cases hpick : w.pickVictim with
  | none => exact .inl ⟨w, rfl, hw⟩
  | some b =>
    have hfree := refcount_pickFrom (fun v hv => by cases hv) hpick
    obtain ⟨ok, w', hflush, hinv, hkeys, hcount, hclean⟩ := hw.flush b luck
    rw [← hcount] at hfree
    simp only [hflush]
    cases ok with
    | false => exact .inl ⟨w', rfl, hinv⟩
    | true =>
      refine .inr ⟨b, _, rfl, hinv.evict hfree (hclean rfl), evict_invalid, ?_⟩
      exact findEntry_evict hinv.linked (hkeys.findEntry.trans hk)

end Victim

section Readahead

theorem Agree.trans {y z v : Sector} (hyz : Agree devs k y z) (hzv : Agree devs k z v) :
    Agree devs k y v :=
  fun i hi => (hyz i hi).trans (hzv i hi)

variable (devs w dev lba) in
theorem agree_readInto {count m : ℕ} (hm : m < count) (buf : Sector) :
    Agree devs (dev, lba + m)
      (fun i => w.readInto devs dev lba count buf (m * (devs dev).sectorSize + i))
      (w.disk (dev, lba + m)) := by
  intro i hi
  change i < (devs dev).sectorSize at hi
  have hpos : 0 < (devs dev).sectorSize := by omega
  have hin : m * (devs dev).sectorSize + i < count * (devs dev).sectorSize := by
    have := Nat.mul_le_mul_right (devs dev).sectorSize (Nat.succ_le_of_lt hm)
    rw [Nat.succ_mul] at this
    omega
  simp only [readInto, if_pos hin]
  rw [Nat.mul_comm m, Nat.mul_add_div hpos, Nat.mul_add_mod, Nat.div_eq_of_lt hi,
    Nat.mod_eq_of_lt hi, Nat.add_zero]

theorem Ready.agree_readInto {count : ℕ} (h : Ready devs pins w b (dev, lba)) (hcount : 0 < count)
    (buf : Sector) :
    Agree devs (dev, lba) (w.readInto devs dev lba count buf) (w.truth (dev, lba)) := by
  have hread := Bcache.agree_readInto devs w dev lba hcount buf
  simp only [Nat.zero_mul, Nat.zero_add, Nat.add_zero] at hread
  exact hread.trans (h.fresh h.uncached)

-- Sector `m` of the run is not cached, and its bytes are at its place in the read-ahead buffer.
def Fetched (devs : ℕ → Dev) (w : World) (dev lba m : ℕ) : Prop :=
  w.findEntry devs (dev, after lba m) = none ∧
    Agree devs (dev, after lba m) (fun i => w.raBuf (m * bcSector + i)) (w.truth (dev, after lba m))

theorem after_ne {m m' : ℕ} (hlt : m < m') (hwrap : lba + m' < lbaEnd) :
    (dev, after lba m') ≠ (dev, after lba m) := by
  intro heq
  have hinj := (Prod.mk.inj heq).2
  rw [after, after, Nat.mod_eq_of_lt (by omega), Nat.mod_eq_of_lt (by omega)] at hinj
  omega

theorem Ready.park (h : Ready devs (pin b) w b (dev, lba)) (hj : 0 < j)
    (hwrap : lba + (j + n) < lbaEnd) (hahead : ∀ m, j ≤ m → m < j + n → Fetched devs w dev lba m) :
    Ready devs (pin b) (park devs dev lba b n j w) b (dev, lba) ∧
      (World.park devs dev lba b n j w).truth = w.truth := by
  induction n generalizing j w with
  | zero => exact ⟨h, rfl⟩
  | succ n ih =>
    rw [park.eq_def]
    simp only
    split
    · exact ⟨h, rfl⟩
    next v hpick =>
      split
      · exact ⟨h, rfl⟩
      next hgo =>
        rw [not_or, Bool.and_eq_true] at hgo
        have hfree := refcount_pickFrom (fun v hv => by cases hv) hpick
        obtain ⟨huncached, hdata⟩ := hahead j (Nat.le_refl j) (by omega)
        obtain ⟨hra, htruth⟩ := recycle_rest devs w v (dev, after lba j)
          fun i => w.raBuf (j * bcSector + i)
        have hself : (dev, lba) ≠ (dev, after lba j) := by
          have hne : (dev, after lba j) ≠ (dev, after lba 0) := after_ne hj (by omega)
          have hzero : after lba 0 = lba := Nat.mod_eq_of_lt (by omega)
          rw [hzero] at hne
          exact hne.symm
        have hnext : Ready devs (pin b) (recycle devs w v (dev, after lba j) fun i =>
            w.raBuf (j * bcSector + i)) b (dev, lba) := by
          refine ⟨h.recycle hfree hgo.2 huncached hdata, ?_, ?_⟩
          · rw [recycle_slots_of_ne (Ne.symm hgo.1)]
            exact h.invalid
          · exact findEntry_recycle h.linked h.uncached hself
        obtain ⟨hready, hsame⟩ := ih hnext (Nat.succ_pos j) (by omega) fun m hlo hhi => by
          obtain ⟨hfind, hbytes⟩ := hahead m (by omega) (by omega)
          refine ⟨findEntry_recycle h.linked hfind (after_ne hlo (by omega)), ?_⟩
          rwa [hra, htruth]
        exact ⟨hready, hsame.trans htruth⟩

theorem runLength_spec (devs : ℕ → Dev) (w : World) (dev lba n j : ℕ) :
    j ≤ w.runLength devs dev lba n j ∧ ∀ m, j ≤ m → m < w.runLength devs dev lba n j →
      w.findEntry devs (dev, after lba m) = none := by
  induction n generalizing j with
  | zero => exact ⟨Nat.le_refl j, fun m hlo hhi => by rw [runLength] at hhi; omega⟩
  | succ n ih =>
    rw [runLength]
    split
    next hgo =>
      obtain ⟨hlo, hkeys⟩ := ih (j + 1)
      refine ⟨by omega, fun m hm hlt => ?_⟩
      by_cases hmj : m = j
      · rw [hmj]
        exact hgo.2
      · exact hkeys m (by omega) hlt
    · exact ⟨Nat.le_refl j, fun m hlo hhi => by omega⟩

theorem Ready.pinned (h : Ready devs noPin w b k) (dev lba : ℕ) :
    Ready devs (pin b) ((w.fillBuf devs dev lba).setRefcount b 1) b k := by
  have ha : Alike w ((w.fillBuf devs dev lba).setRefcount b 1) :=
    alike_setSlot b (fun s => { s with refcount := 1 }) rfl ⟨⟨rfl, rfl⟩, rfl, rfl⟩ rfl rfl rfl
  refine ⟨ha.inv h.toInv h.held fun i => ?_, (ha.keys b).1.trans h.invalid,
    ha.findEntry.trans h.uncached⟩
  have hsame : holders ((w.fillBuf devs dev lba).setRefcount b 1) i = holders w i := rfl
  rw [hsame]
  by_cases hi : i = b
  · subst hi
    simp [World.setRefcount, setSlot, pin, h.holders_eq_zero h.invalid]
  · simpa [World.setRefcount, fillBuf, setSlot, pin, noPin, hi] using h.counted i

theorem Ready.unpinned (h : Ready devs (pin b) w b k) :
    Ready devs noPin (w.setRefcount b 0) b k := by
  have ha := alike_setRefcount w b 0
  refine ⟨ha.inv h.toInv h.held fun i => ?_, (ha.keys b).1.trans h.invalid,
    ha.findEntry.trans h.uncached⟩
  have hsame : holders (w.setRefcount b 0) i = holders w i := rfl
  rw [hsame]
  by_cases hi : i = b
  · subst hi
    simp [World.setRefcount, setSlot, noPin, h.holders_eq_zero h.invalid]
  · simpa [World.setRefcount, setSlot, pin, noPin, hi] using h.counted i

theorem Ready.readahead (h : Ready devs noPin w b (dev, lba))
    (hsize : (devs dev).sectorSize = bcSector) (luck : Option Sector) :
    ∃ got x, w.readahead devs dev lba b luck = (got, x) ∧ Ready devs noPin x b (dev, lba) ∧
      ∀ data, got = some data → Agree devs (dev, lba) data (x.truth (dev, lba)) := by
  have hnone : ∀ {data} {P : Prop}, (none : Option Sector) = some data → P := fun hd => by cases hd
  rw [readahead.eq_def]
  split
  · exact ⟨_, _, rfl, h, fun _ => hnone⟩
  split
  next left =>
    have ha : Alike w { w with raBuf := left } :=
      ⟨⟨fun _ => ⟨rfl, rfl⟩, rfl⟩, fun _ => ⟨rfl, rfl⟩, rfl, rfl⟩
    exact ⟨_, _, rfl, ⟨ha.inv h.toInv h.held h.counted, h.invalid, ha.findEntry.trans h.uncached⟩,
      fun _ => hnone⟩
  split
  next hrange =>
    have hcount := (devs dev).count_lt
    have hpin := h.pinned dev lba
    obtain ⟨hrun, hkeys⟩ := runLength_spec devs w dev lba (bcPerFrame - 1) 1
    obtain ⟨hready, htruth⟩ := hpin.park (n := w.runCount devs dev lba - 1) Nat.one_pos
      (by rw [runCount] at hrange ⊢; omega) fun m hlo hhi => by
        have hm : m < w.runCount devs dev lba := by rw [runCount] at hhi ⊢; omega
        have huncached := hkeys m hlo hm
        have hafter : after lba m = lba + m := by rw [after, Nat.mod_eq_of_lt (by omega)]
        have hread := Bcache.agree_readInto devs w dev lba hm w.raBuf
        refine ⟨?_, ?_⟩
        · exact (alike_setRefcount (w.fillBuf devs dev lba) b 1).findEntry.trans huncached
        · rw [hafter] at huncached ⊢
          rw [hsize] at hread
          exact hread.trans (h.fresh huncached)
    have hzero : (w.slots b).refcount = 0 := by
      have := h.counted b
      rwa [h.holders_eq_zero h.invalid] at this
    refine ⟨_, _, rfl, ?_, ?_⟩
    · rw [hzero]
      exact hready.unpinned
    · rintro data ⟨⟩
      have hsame : (World.setRefcount (World.park devs dev lba b (w.runCount devs dev lba - 1) 1
          ((w.fillBuf devs dev lba).setRefcount b 1)) b (w.slots b).refcount).truth = w.truth :=
        htruth
      rw [hsame]
      exact h.agree_readInto hrun w.raBuf
  · exact ⟨_, _, rfl, h, fun _ => hnone⟩

end Readahead

end DosKernel.Bcache

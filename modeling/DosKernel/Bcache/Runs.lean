import Mathlib.Data.List.Perm.Basic
import DosKernel.Bcache.Transparent

namespace DosKernel.Bcache

open DosKernel.Lib World

variable {devs : ℕ → Dev} {w : World} {i b : ℕ} {k : ℕ × ℕ} {h : Handle} {data : Sector}
  {luck : Luck}

section Modify

theorem modify_slots_self : (w.modify h data).slots h.slot =
    { w.slots h.slot with
      data := data
      dirty := (w.slots h.slot).dirty || (w.slots h.slot).valid } := by
  simp [World.modify, World.setSlot]

theorem modify_slots_of_ne (hi : i ≠ h.slot) : (w.modify h data).slots i = w.slots i := by
  simp [World.modify, World.setSlot, hi]

theorem modify_valid : ((w.modify h data).slots i).valid = (w.slots i).valid := by
  by_cases hi : i = h.slot
  · rw [hi, modify_slots_self]
  · rw [modify_slots_of_ne hi]

theorem modify_key : ((w.modify h data).slots i).key = (w.slots i).key := by
  by_cases hi : i = h.slot
  · rw [hi, modify_slots_self]
    rfl
  · rw [modify_slots_of_ne hi]

theorem modify_truth : (w.modify h data).truth = Function.update w.truth (h.dev, h.lba) data := rfl

theorem sameKeys_modify (w : World) (h : Handle) (data : Sector) : SameKeys w (w.modify h data) :=
  ⟨fun _ => ⟨modify_valid, modify_key⟩, rfl⟩

theorem Linked.modify (hl : Linked devs w) (h : Handle) (data : Sector) :
    Linked devs (w.modify h data) :=
  (sameKeys_modify w h data).linked hl

theorem Inv.modify (hw : Inv devs noPin w) (hh : h ∈ w.handles)
    (hwrite : (devs h.dev).hasWrite = true) : Inv devs noPin (w.modify h data) := by
  have hheld := hw.held h hh
  have hsame := sameKeys_modify w h data
  have hne : ∀ {i}, i ≠ h.slot → (w.slots i).valid = true → (w.slots i).key ≠ (h.dev, h.lba) :=
    fun hi hvalid hik => hi (hw.linked.eq_of_key hvalid hheld.1 (hik.trans hheld.2.symm))
  refine ⟨hw.linked.modify h data, fun q hclean => ?_, fun i hi => ?_, fun x hx => ?_, fun i => ?_,
    fun i hi hd => ?_⟩
  · by_cases hq : q = (h.dev, h.lba)
    · have hdirty := hclean h.slot (modify_valid.trans hheld.1)
        (modify_key.trans (hheld.2.trans hq.symm))
      rw [modify_slots_self, hheld.1, Bool.or_true] at hdirty
      cases hdirty
    · rw [modify_truth, Function.update_of_ne hq]
      refine hw.saved q fun i hi hik => ?_
      have hslot : i ≠ h.slot := by
        rintro rfl
        exact hq (hik.symm.trans hheld.2)
      have hdirty := hclean i (modify_valid.trans hi) (modify_key.trans hik)
      rwa [modify_slots_of_ne hslot] at hdirty
  · rw [modify_key, modify_truth]
    rw [modify_valid] at hi
    by_cases hslot : i = h.slot
    · rw [hslot, hheld.2, Function.update_self, modify_slots_self]
      exact fun _ _ => rfl
    · rw [Function.update_of_ne (hne hslot hi), modify_slots_of_ne hslot]
      exact hw.right i hi
  · exact hsame.held.mpr (hw.held x hx)
  · refine Eq.trans ?_ (hw.counted i)
    by_cases hslot : i = h.slot
    · rw [hslot, modify_slots_self]
    · rw [modify_slots_of_ne hslot]
  · rw [hsame.sameDev i]
    rw [modify_valid] at hi
    by_cases hslot : i = h.slot
    · have hdev : (w.slots h.slot).dev = h.dev := congrArg Prod.fst hheld.2
      rwa [hslot, hdev]
    · rw [modify_slots_of_ne hslot] at hd
      exact hw.writable i hi hd

end Modify

section Get

theorem holders_hand (w : World) (b : ℕ) (k : ℕ × ℕ) (i : ℕ) :
    holders (w.hand b k) i = holders w i + pin b i := by
  rw [holders, hand, List.countP_cons, pin, holders]
  by_cases hi : i = b
  · simp [hi]
  · simp [hi, Ne.symm hi]

theorem Inv.hand (hw : Inv devs (pin b) w) (hb : Held w ⟨b, k.1, k.2⟩) :
    Inv devs noPin (w.hand b k) := by
  refine Alike.inv (w := w) ⟨⟨fun _ => ⟨rfl, rfl⟩, rfl⟩, fun _ => ⟨rfl, rfl⟩, rfl, rfl⟩ hw ?_
    fun i => ?_
  · exact List.forall_mem_cons.mpr ⟨hb, hw.held⟩
  · rw [holders_hand, Int.natCast_add]
    exact (hw.counted i).trans (Int.add_zero _).symm

def fill (devs : ℕ → Dev) (w : World) (b : ℕ) (k : ℕ × ℕ) (data : Sector) : World :=
  (w.install devs b k data 1).hand b k

theorem Ready.fill (h : Ready devs noPin w b k) (hdata : Agree devs k data (w.truth k)) :
    Inv devs noPin (fill devs w b k data) := by
  have hinstall : Inv devs (pin b) (w.install devs b k data 1) :=
    h.install h.invalid h.uncached hdata (by simp [pin]) fun i hi => by simp [pin, noPin, hi]
  refine hinstall.hand ?_
  rw [Held, install_slots_self]
  exact ⟨rfl, rfl⟩

-- Of what a slot is filled with, nothing is left by a holder who writes all of it.
theorem modify_fill (x y : Sector) : (fill devs w b k x).modify ⟨b, k.1, k.2⟩ data =
    (fill devs w b k y).modify ⟨b, k.1, k.2⟩ data := by
  simp [fill, World.hand, World.install, World.link, World.modify, setSlot, Buf.key]

theorem Inv.hit (hw : Inv devs noPin w) (hlen : w.handles.length < 2147483647)
    (hfind : w.findEntry devs k = some i) (tick : ℕ) :
    Inv devs noPin (({ w with lruCounter := tick }.setSlot i fun b =>
      { b with refcount := incr b.refcount, lruTick := tick }).hand i k) := by
  have hheld := findEntry_some hfind
  have ha : Alike w ({ w with lruCounter := tick }.setSlot i fun b =>
      { b with refcount := incr b.refcount, lruTick := tick }) :=
    alike_setSlot i (fun b => { b with refcount := incr b.refcount, lruTick := tick }) rfl
      ⟨⟨rfl, rfl⟩, rfl, rfl⟩ rfl rfl rfl
  have hle : holders w i ≤ w.handles.length := List.countP_le_length
  have hcount : (w.slots i).refcount = holders w i := hw.counted i
  refine Inv.hand (ha.inv hw hw.held fun j => ?_) (ha.held.mpr hheld)
  change _ = (holders w j : ℤ) + _
  by_cases hj : j = i
  · subst hj
    have hincr : incr (w.slots j).refcount = holders w j + 1 := by
      rw [incr, if_neg (by omega), hcount]
    simpa [setSlot, pin] using hincr
  · simpa [setSlot, pin, noPin, hj] using hw.counted j

theorem Ready.miss {w' : World} (h : Ready devs noPin w b k)
    (hvictim : w'.takeVictim devs luck.write = (some b, w))
    (hsize : (devs k.1).sectorSize = bcSector) :
    Inv devs noPin (w'.miss devs k false luck).2 := by
  obtain ⟨got, x, hread, hx, hgot⟩ := h.readahead hsize luck.ahead
  simp only [World.miss, hvictim, hread, Bool.false_eq_true, if_false]
  cases got with
  | some data => exact hx.fill (hgot data rfl)
  | none =>
    simp only
    split
    · exact hx.fill (hx.agree_readInto Nat.one_pos _)
    · exact hx.toInv

theorem Inv.get (hw : Inv devs noPin w) (hlen : w.handles.length < 2147483647)
    (hsize : bcSector ≤ (devs k.1).sectorSize) :
    Inv devs noPin (w.get devs k false luck).2 := by
  rw [get.eq_def]
  split
  · exact hw
  next hgo =>
    cases hfind : w.findEntry devs k with
    | some i => exact hw.hit hlen hfind _
    | none =>
      obtain ⟨u, hvictim, hu⟩ | ⟨b, u, hvictim, hu⟩ := hw.takeVictim hfind luck.write
      · simp only [miss, hvictim]
        exact hu
      · exact hu.miss hvictim (by omega)

theorem Inv.overwrite {dev lba : ℕ} (hw : Inv devs noPin w) (hlen : w.handles.length < 2147483647)
    (hwrite : (devs dev).hasWrite = true) :
    Inv devs noPin (w.step devs (.overwrite dev lba data luck)) := by
  rw [step.eq_def]
  simp only
  by_cases hgo : !(devs dev).hasRead ∨ bcSector < (devs dev).sectorSize
  · rw [World.get, if_pos hgo]
    exact hw
  rw [World.get, if_neg hgo]
  cases hfind : w.findEntry devs (dev, lba) with
  | some i => exact (hw.hit hlen hfind _).modify List.mem_cons_self hwrite
  | none =>
    obtain ⟨u, hvictim, hu⟩ | ⟨b, u, hvictim, hu⟩ := hw.takeVictim hfind luck.write
    · simp only [miss, hvictim]
      exact hu
    · simp only [miss, hvictim, if_true]
      have hfill : Inv devs noPin (fill devs u b (dev, lba) (u.truth (dev, lba))) :=
        hu.fill fun _ _ => rfl
      have hmodify : Inv devs noPin
          ((fill devs u b (dev, lba) fun _ => 0).modify ⟨b, dev, lba⟩ data) := by
        rw [modify_fill _ (u.truth (dev, lba))]
        exact hfill.modify List.mem_cons_self hwrite
      exact hmodify

end Get

section Runs

theorem holders_erase {n : ℕ} (hh : w.handles[n]? = some h) (i : ℕ) :
    (w.handles.eraseIdx n).countP (fun x => x.slot = i) + pin h.slot i = holders w i := by
  obtain ⟨hn, rfl⟩ := List.getElem?_eq_some_iff.mp hh
  rw [holders, ← (List.getElem_cons_eraseIdx_perm hn).countP_eq]
  exact (holders_hand { w with handles := w.handles.eraseIdx n } _ (_, _) i).symm

theorem Inv.release (hw : Inv devs noPin w) (n : ℕ) : Inv devs noPin (w.release n) := by
  rw [release.eq_def]
  split
  · exact hw
  next h hh =>
    refine Alike.inv (alike_setSlot h.slot (fun b => { b with
        refcount := if 0 < b.refcount then b.refcount - 1 else b.refcount }) rfl
      ⟨⟨rfl, rfl⟩, rfl, rfl⟩ rfl rfl rfl) hw ?_ fun i => ?_
    · exact fun y hy => hw.held y (List.mem_of_mem_eraseIdx hy)
    · have hcount := hw.counted i
      have herase := holders_erase hh i
      change _ = ((w.handles.eraseIdx n).countP (fun x => x.slot = i) : ℤ) + (noPin i : ℤ)
      rw [noPin] at hcount ⊢
      by_cases hi : i = h.slot
      · subst hi
        rw [pin, if_pos rfl] at herase
        simp only [setSlot, Function.update_self]
        omega
      · rw [pin, if_neg hi] at herase
        simp only [setSlot, Function.update_of_ne hi]
        omega

-- The device is of 512-byte sectors or larger ones, which are refused; it takes writes if it is
-- written; and there are not so many handles that a count could overflow.
def Kept (devs : ℕ → Dev) (w : World) : Act → Prop
  | .get dev _ _ => bcSector ≤ (devs dev).sectorSize ∧ w.handles.length < 2147483647
  | .overwrite dev _ _ _ => (devs dev).hasWrite = true ∧ w.handles.length < 2147483647
  | .modify n _ => ∀ h, w.handles[n]? = some h → (devs h.dev).hasWrite = true
  | _ => True

theorem Inv.step {a : Act} (hw : Inv devs noPin w) (ha : Kept devs w a) :
    Inv devs noPin (w.step devs a) := by
  cases a with
  | get dev lba luck => exact hw.get ha.2 ha.1
  | overwrite dev lba data luck => exact hw.overwrite ha.2 ha.1
  | modify n data =>
    rw [step.eq_def]
    simp only
    split
    · exact hw
    next h hh => exact hw.modify (List.mem_of_getElem? hh) (ha h hh)
  | release n => exact hw.release n
  | sync dev luck => exact guard_rule hw fun _ => hw.syncFrom dev luck 0 bcacheSlots

theorem inv_boot (devs : ℕ → Dev) (disk : ℕ × ℕ → Sector) (raBuf data : Sector) :
    Inv devs noPin (boot disk raBuf data) := by
  have hinvalid : ∀ i, ((boot disk raBuf data).slots i).valid ≠ true := fun _ hi => by cases hi
  refine ⟨⟨?_, fun i => ?_⟩, fun _ _ _ _ => rfl, fun i hi => absurd hi (hinvalid i), ?_,
    fun _ => rfl, fun i hi => absurd hi (hinvalid i)⟩
  · exact ⟨by simp [boot], by simp [boot]⟩
  · refine iff_of_false ?_ (hinvalid i)
    simp [boot, Buckets.Stored]
  · intro h hh
    cases hh

theorem two_lt_lbaEnd : 2 < lbaEnd := by decide

def diskSectors : ℕ → Dev := fun _ => ⟨0, 512, 2, true, true, two_lt_lbaEnd⟩

def zeros : Sector := fun _ => 0

def reread : List Act :=
  [.overwrite 0 0 zeros ⟨.ok, none, true⟩, .modify 0 fun _ => 7, .release 0,
    .get 0 0 ⟨.ok, none, true⟩]

def smallSectors : ℕ → Dev := fun _ => ⟨0, 256, 2, true, true, two_lt_lbaEnd⟩

def sevens : World :=
  boot (fun k => if k.2 = 1 then fun _ => 7 else fun _ => 0) (fun _ => 0) (fun _ => 0)

end Runs

end DosKernel.Bcache

import DosKernel.Lib.Linked
import DosKernel.Pmm.Buddy

namespace DosKernel.Pmm

open DosKernel.Lib Zone List
open Function (Injective update update_apply update_of_ne update_self)

abbrev Place := ℕ × ZoneType × ℕ

abbrev FreeLists := Place → List ℕ

structure SameNuma (s s' : State) : Prop where
  nrng : s'.nrng = s.nrng
  numaLive : s'.numaLive = s.numaLive
  numaCommitted : s'.numaCommitted = s.numaCommitted

theorem SameNuma.refl (s : State) : SameNuma s s := ⟨rfl, rfl, rfl⟩

theorem SameNuma.trans {s t u : State} (h : SameNuma s t) (h' : SameNuma t u) : SameNuma s u :=
  ⟨h'.nrng.trans h.nrng, h'.numaLive.trans h.numaLive, h'.numaCommitted.trans h.numaCommitted⟩

structure Keeps (s s' : State) : Prop extends SameNuma s s' where
  freeFrames : ∀ nd zi, (s'.zones nd zi).freeFrames = (s.zones nd zi).freeFrames

theorem Keeps.refl (s : State) : Keeps s s := ⟨SameNuma.refl s, fun _ _ => rfl⟩

theorem Keeps.trans {s t u : State} (h : Keeps s t) (h' : Keeps t u) : Keeps s u :=
  ⟨h.toSameNuma.trans h'.toSameNuma, fun nd zi => (h'.freeFrames nd zi).trans (h.freeFrames nd zi)⟩

theorem SameNuma.nodeOfPfn {s s' : State} (h : SameNuma s s') :
    nodeOfPfn s' = Pmm.nodeOfPfn s := by
  funext pfn
  simp only [Pmm.nodeOfPfn, h.nrng, h.numaLive]

theorem pfnToPhys_injective : Injective pfnToPhys := by
  intro a b h
  simp only [pfnToPhys, pmmFrameSize] at h
  omega

@[simp] theorem physToPfn_pfnToPhys (pfn : ℕ) : physToPfn (pfnToPhys pfn) = pfn := by
  simp [physToPfn, pfnToPhys, pmmFrameSize]

theorem pfnToPhys_physToPfn {phys : ℕ} (h : phys % pmmFrameSize = 0) :
    pfnToPhys (physToPfn phys) = phys := by
  simp only [pfnToPhys, physToPfn, pmmFrameSize] at *
  omega

@[simp] theorem pfnToPhys_eq_zero {pfn : ℕ} : pfnToPhys pfn = 0 ↔ pfn = 0 := by
  simp [pfnToPhys, pmmFrameSize]

@[simp] theorem modZone_zones (s : State) (nd nd' : ℕ) (zi zi' : ZoneType) (f : Zone → Zone) :
    (s.modZone nd zi f).zones nd' zi' =
      if nd' = nd ∧ zi' = zi then f (s.zones nd zi) else s.zones nd' zi' := rfl

structure SameLists (s s' : State) : Prop where
  link : s'.link = s.link
  pageState : s'.pageState = s.pageState
  zone : ∀ nd zi, (s'.zones nd zi).freeLists = (s.zones nd zi).freeLists ∧
    (s'.zones nd zi).nrAtOrder = (s.zones nd zi).nrAtOrder

theorem sameLists_modZone {s : State} {nd : ℕ} {zi : ZoneType} {f : Zone → Zone}
    (hf : ∀ z, (f z).freeLists = z.freeLists ∧ (f z).nrAtOrder = z.nrAtOrder) :
    SameLists s (s.modZone nd zi f) := by
  refine ⟨rfl, rfl, fun nd' zi' => ?_⟩
  rw [modZone_zones]
  split
  next heq =>
    rw [heq.1, heq.2]
    exact hf _
  · exact ⟨rfl, rfl⟩

structure Represents (s : State) (L : FreeLists) : Prop where
  linked : ∀ nd zi o, Linked (s.link · 0) (s.link · 1) 0 0 ((s.zones nd zi).freeLists o)
    ((L (nd, zi, o)).map pfnToPhys)
  nr : ∀ nd zi o, (s.zones nd zi).nrAtOrder o = (L (nd, zi, o)).length
  apart : ∀ p q pfn, pfn ∈ L p → pfn ∈ L q → p = q

variable {s s' : State} {L L' : FreeLists} {nd : ℕ} {zi : ZoneType} {pfn o : ℕ}

section

variable (h : Represents s L)

include h

theorem Represents.unique (h' : Represents s L') : L = L' := by
  funext ⟨nd, zi, o⟩
  exact map_injective_iff.mpr pfnToPhys_injective
    (linked_unique (h.linked nd zi o) (h'.linked nd zi o))

theorem Represents.nodup (p : Place) : (L p).Nodup :=
  List.Nodup.of_map _ (linked_nodup (h.linked p.1 p.2.1 p.2.2))

theorem Represents.ne_zero {p : Place} (hp : pfn ∈ L p) : pfn ≠ 0 := by
  intro h0
  exact linked_ne_null (h.linked p.1 p.2.1 p.2.2) _ (mem_map_of_mem hp)
    (pfnToPhys_eq_zero.mpr h0)

theorem Represents.head_eq_zero_iff :
    (s.zones nd zi).freeLists o = 0 ↔ L (nd, zi, o) = [] := by
  rw [linked_head_null_iff (h.linked nd zi o), map_eq_nil_iff]

theorem Represents.mem_of_head (hpfn : pfn ≠ 0)
    (hhead : (s.zones nd zi).freeLists o = pfnToPhys pfn) : pfn ∈ L (nd, zi, o) := by
  have hl := h.linked nd zi o
  rw [hhead] at hl
  cases hL : L (nd, zi, o) with
  | nil =>
    rw [hL] at hl
    exact absurd (pfnToPhys_eq_zero.mp hl) hpfn
  | cons b bs =>
    rw [hL] at hl
    rw [pfnToPhys_injective hl.1]
    exact mem_cons_self

theorem Represents.congr (hlink : s'.link = s.link)
    (hzone : ∀ nd zi, (s'.zones nd zi).freeLists = (s.zones nd zi).freeLists ∧
      (s'.zones nd zi).nrAtOrder = (s.zones nd zi).nrAtOrder) : Represents s' L where
  linked nd zi o := by rw [hlink, (hzone nd zi).1]; exact h.linked nd zi o
  nr nd zi o := by rw [(hzone nd zi).2]; exact h.nr nd zi o
  apart := h.apart

theorem Represents.replace (l : List ℕ)
    (hlinked : Linked (s'.link · 0) (s'.link · 1) 0 0 ((s'.zones nd zi).freeLists o)
      (l.map pfnToPhys))
    (hnr : (s'.zones nd zi).nrAtOrder o = l.length)
    (hother : ∀ nd' zi' o', (nd', zi', o') ≠ (nd, zi, o) →
      (s'.zones nd' zi').freeLists o' = (s.zones nd' zi').freeLists o' ∧
      (s'.zones nd' zi').nrAtOrder o' = (s.zones nd' zi').nrAtOrder o')
    (hlink : ∀ q ≠ (nd, zi, o), ∀ b ∈ L q, ∀ slot,
      s'.link (pfnToPhys b) slot = s.link (pfnToPhys b) slot)
    (hapart : ∀ b ∈ l, ∀ q ≠ (nd, zi, o), b ∉ L q) :
    Represents s' (update L (nd, zi, o) l) where
  linked nd' zi' o' := by
    by_cases hq : (nd', zi', o') = (nd, zi, o)
    · obtain ⟨rfl, rfl, rfl⟩ : nd' = nd ∧ zi' = zi ∧ o' = o := by simpa using hq
      rwa [update_self]
    · rw [update_of_ne hq, (hother _ _ _ hq).1]
      refine linked_frame (h.linked nd' zi' o') ?_ ?_ <;>
        · intro y hy
          obtain ⟨b, hb, rfl⟩ := mem_map.mp hy
          exact hlink _ hq b hb _
  nr nd' zi' o' := by
    by_cases hq : (nd', zi', o') = (nd, zi, o)
    · obtain ⟨rfl, rfl, rfl⟩ : nd' = nd ∧ zi' = zi ∧ o' = o := by simpa using hq
      rwa [update_self]
    · rw [update_of_ne hq, (hother _ _ _ hq).2, h.nr]
  apart p q b hp hq := by
    by_cases h1 : p = (nd, zi, o) <;> by_cases h2 : q = (nd, zi, o)
    · rw [h1, h2]
    · subst h1
      rw [update_self] at hp
      rw [update_of_ne h2] at hq
      exact absurd hq (hapart b hp q h2)
    · subst h2
      rw [update_of_ne h1] at hp
      rw [update_self] at hq
      exact absurd hp (hapart b hq p h1)
    · rw [update_of_ne h1] at hp
      rw [update_of_ne h2] at hq
      exact h.apart p q b hp hq

end

section Push

theorem zonePush_keeps (s : State) (nd : ℕ) (zi : ZoneType) (pfn o : ℕ) :
    Keeps s (zonePush s nd zi pfn o) := by
  unfold zonePush
  dsimp only
  split <;> refine ⟨⟨rfl, rfl, rfl⟩, fun nd' zi' => ?_⟩ <;>
    · simp only [modZone_zones, linkStoreAt]
      split
      · next h => simp [h.1, h.2, setHead, setNr]
      · rfl

@[simp] theorem zonePush_pageState (s : State) (nd : ℕ) (zi : ZoneType) (pfn o : ℕ) :
    (zonePush s nd zi pfn o).pageState = update s.pageState pfn o := by
  unfold zonePush
  dsimp only
  split <;> rfl

theorem zonePush_zones (s : State) (nd nd' : ℕ) (zi zi' : ZoneType) (pfn o : ℕ) :
    (zonePush s nd zi pfn o).zones nd' zi' =
      if nd' = nd ∧ zi' = zi then
        ((s.zones nd zi).setHead o (pfnToPhys pfn)).setNr o ((s.zones nd zi).nrAtOrder o + 1)
      else s.zones nd' zi' := by
  unfold zonePush
  dsimp only
  split <;> rfl

theorem zonePush_link (s : State) (nd : ℕ) (zi : ZoneType) (pfn o a slot : ℕ) :
    (zonePush s nd zi pfn o).link a slot =
      if a ≠ 0 ∧ a = (s.zones nd zi).freeLists o ∧ slot = 1 then pfnToPhys pfn
      else if a = pfnToPhys pfn ∧ slot = 1 then 0
      else if a = pfnToPhys pfn ∧ slot = 0 then (s.zones nd zi).freeLists o
      else s.link a slot := by
  unfold zonePush
  dsimp only
  by_cases hhead : (s.zones nd zi).freeLists o = 0
  · rw [if_neg (not_not_intro hhead), if_neg (fun h => h.1 (h.2.1.trans hhead))]
    rfl
  · rw [if_pos hhead]
    by_cases ha : a = (s.zones nd zi).freeLists o ∧ slot = 1
    · simp [State.modZone, linkStoreAt, ha, hhead]
    · rw [if_neg (fun h => ha h.2)]
      simp [State.modZone, linkStoreAt, ha]

theorem Represents.push (h : Represents s L) (nd : ℕ) (zi : ZoneType) (o : ℕ) (hpfn : pfn ≠ 0)
    (hfresh : ∀ q, pfn ∉ L q) :
    Represents (zonePush s nd zi pfn o)
      (update L (nd, zi, o) (pfn :: L (nd, zi, o))) := by
  have hcell : ∀ {q b}, b ∈ L q → pfnToPhys b ≠ pfnToPhys pfn := fun hb heq =>
    hfresh _ (pfnToPhys_injective heq ▸ hb)
  refine h.replace _ ?_ ?_ ?_ ?_ ?_
  · have hpush := linked_push (h.linked nd zi o) (x := pfnToPhys pfn) (by simpa using hpfn)
      (by simpa using fun b hb => (hcell hb))
    have hz : ((zonePush s nd zi pfn o).zones nd zi).freeLists o = pfnToPhys pfn := by
      simp [zonePush_zones, setHead, setNr]
    rw [hz, map_cons]
    refine linked_frame hpush (fun a ha => ?_) (fun a ha => ?_) <;>
      have ha0 := linked_ne_null hpush a ha <;>
      simp only [zonePush_link, update_apply] <;> grind
  · simp [zonePush_zones, setHead, setNr, h.nr]
  · intro nd' zi' o' hq
    rw [zonePush_zones]
    split
    · next heq =>
        obtain ⟨rfl, rfl⟩ := heq
        have ho : o' ≠ o := fun heq => hq (by rw [heq])
        simp [setHead, setNr, update_of_ne ho]
    · exact ⟨rfl, rfl⟩
  · intro q hq b hb slot
    rw [zonePush_link]
    -- the old head is on the list that is pushed to, so `b` is not the old head
    have hhead : pfnToPhys b ≠ (s.zones nd zi).freeLists o := fun heq =>
      hq (h.apart _ _ b hb (h.mem_of_head (h.ne_zero hb) heq.symm))
    grind
  · intro b hb q hq hbq
    rcases mem_cons.mp hb with rfl | hb
    · exact hfresh q hbq
    · exact hq (h.apart _ _ b hbq hb)

end Push

section Remove

theorem zoneRemove_eq_some (h : zoneRemove s nd zi pfn o = some s') :
    Keeps s s' ∧ s'.pageState = s.pageState ∧
    (∀ nd' zi', s'.zones nd' zi' =
      if nd' = nd ∧ zi' = zi then
        (if s.link (pfnToPhys pfn) 1 ≠ 0 then s.zones nd zi
          else (s.zones nd zi).setHead o (s.link (pfnToPhys pfn) 0)).setNr o
            ((s.zones nd zi).nrAtOrder o - 1)
      else s.zones nd' zi') ∧
    ∀ a slot, s'.link a slot =
      if a ≠ 0 ∧ a = s.link (pfnToPhys pfn) 0 ∧ slot = 1 then s.link (pfnToPhys pfn) 1
      else if a ≠ 0 ∧ a = s.link (pfnToPhys pfn) 1 ∧ slot = 0 then s.link (pfnToPhys pfn) 0
      else s.link a slot := by
  obtain ⟨t, ht, rfl⟩ := Option.map_eq_some_iff.mp h
  by_cases hprev : s.link (pfnToPhys pfn) 1 = 0
  · rw [if_neg (not_not_intro hprev)] at ht
    split at ht
    · cases ht
      refine ⟨⟨⟨?_, ?_, ?_⟩, fun nd' zi' => ?_⟩, ?_, fun nd' zi' => ?_, fun a slot => ?_⟩ <;>
        dsimp only <;> split <;> simp only [State.modZone, linkStoreAt] <;>
        grind [setHead, setNr]
    · cases ht
  · rw [if_pos hprev] at ht
    cases ht
    refine ⟨⟨⟨?_, ?_, ?_⟩, fun nd' zi' => ?_⟩, ?_, fun nd' zi' => ?_, fun a slot => ?_⟩ <;>
      dsimp only <;> split <;> simp only [State.modZone, linkStoreAt] <;>
      grind [setHead, setNr]

theorem zoneRemove_isSome (h : Represents s L) (hmem : pfn ∈ L (nd, zi, o)) :
    ∃ s', zoneRemove s nd zi pfn o = some s' := by
  unfold zoneRemove
  by_cases hprev : s.link (pfnToPhys pfn) 1 = 0
  · have hhead : (s.zones nd zi).freeLists o = pfnToPhys pfn := by
      rcases linked_prev_mem (h.linked nd zi o) (mem_map_of_mem hmem) with hp | hp
      · exact hp.1
      · exact absurd hprev (linked_ne_null (h.linked nd zi o) _ hp)
    simp [hprev, hhead]
  · simp [hprev]

theorem Represents.remove (h : Represents s L) (hmem : pfn ∈ L (nd, zi, o))
    (hr : zoneRemove s nd zi pfn o = some s') :
    Represents s' (update L (nd, zi, o) ((L (nd, zi, o)).erase pfn)) := by
  obtain ⟨_, _, hzones, hlink⟩ := zoneRemove_eq_some hr
  have hl := h.linked nd zi o
  have hcell : pfnToPhys pfn ∈ (L (nd, zi, o)).map pfnToPhys := mem_map_of_mem hmem
  have hnext := linked_next_mem hl hcell
  have hprev := linked_prev_mem hl hcell
  have hnull := linked_null_notMem hl
  refine h.replace _ ?_ ?_ ?_ ?_ ?_
  · have herase := linked_erase hl hnull hcell
    have hmap : (map pfnToPhys ((L (nd, zi, o)).erase pfn)) =
        ((L (nd, zi, o)).map pfnToPhys).erase (pfnToPhys pfn) :=
      map_erase pfnToPhys_injective _
    have hhead : (s'.zones nd zi).freeLists o =
        if (s.zones nd zi).freeLists o = pfnToPhys pfn then s.link (pfnToPhys pfn) 0
        else (s.zones nd zi).freeLists o := by
      have hfirst := linked_head_prev hl (ne_nil_of_mem hcell)
      rw [hzones, if_pos ⟨rfl, rfl⟩]
      by_cases hp : s.link (pfnToPhys pfn) 1 = 0
      · have hx := hprev.resolve_right (fun hmem => hnull (hp ▸ hmem))
        simp [hp, hx.1, setHead, setNr]
      · have hx : (s.zones nd zi).freeLists o ≠ pfnToPhys pfn := fun heq => hp (heq ▸ hfirst)
        simp [hp, hx, setNr]
    rw [hmap, hhead]
    refine linked_frame herase (fun a ha => ?_) (fun a ha => ?_) <;>
      have ha0 := linked_ne_null herase a ha <;>
      simp only [hlink, update_apply] <;> grind
  · simp [hzones, setNr, h.nr, length_erase_of_mem hmem]
  · intro nd' zi' o' hq
    rw [hzones]
    split
    · next heq =>
        obtain ⟨rfl, rfl⟩ := heq
        have ho : o' ≠ o := fun heq => hq (by rw [heq])
        split <;> simp [setHead, setNr, update_of_ne ho]
    · exact ⟨rfl, rfl⟩
  · intro q hq b hb slot
    -- both neighbours are on the list of `pfn` or null, and `b` is on another one
    have hother : pfnToPhys b ∉ (L (nd, zi, o)).map pfnToPhys := by
      intro hb'
      obtain ⟨c, hc, hcb⟩ := mem_map.mp hb'
      exact hq (h.apart _ _ b hb (pfnToPhys_injective hcb ▸ hc))
    grind
  · intro b hb q hq hbq
    exact hq (h.apart _ _ b hbq (mem_of_mem_erase hb))

theorem zonePop_eq_remove (h : Represents s L) {rest : List ℕ}
    (hL : L (nd, zi, o) = pfn :: rest) :
    zoneRemove s nd zi pfn o = some (zonePop s nd zi o).1 ∧ (zonePop s nd zi o).2 = pfn := by
  have hl := h.linked nd zi o
  rw [hL] at hl
  obtain ⟨hhead, hne, hprev, _⟩ := hl
  simp only [zoneRemove, zonePop, hhead, hprev, hne, ne_eq, not_true_eq_false, if_false, if_true,
    Option.map_some, physToPfn_pfnToPhys, and_self]

end Remove

end DosKernel.Pmm

import DosKernel.Lib.Blocks
import DosKernel.Pmm.Lists

namespace DosKernel.Pmm

open DosKernel.Lib List

open Function (update update_of_ne update_self)

def places : Finset Place :=
  Finset.range pmmMaxNodes ×ˢ Finset.univ ×ˢ Finset.range (buddyMaxOrder + 1)

def freeAt (L : FreeLists) (f : ℕ) : ℕ := occ places (fun p => p.2.2) L f

def InZone (lay : Layout) (b o : ℕ) (zi : ZoneType) : Prop :=
  ∀ f, InBlock b o f → zoneOfPfn lay f = some zi

def OnNode (node : ℕ → ℕ) (b o nd : ℕ) : Prop :=
  ∀ f, InBlock b o f → node f = nd

structure FreeBlock (lay : Layout) (node : ℕ → ℕ) (s : State) (nd : ℕ) (zi : ZoneType)
    (o b : ℕ) : Prop where
  aligned : 2 ^ o ∣ b
  inZone : InZone lay b o zi
  onNode : OnNode node b o nd
  tagged : s.pageState b = o

structure HeldBlock (lay : Layout) (x : ℕ × ℕ) : Prop where
  order_le : x.2 ≤ buddyMaxOrder
  aligned : 2 ^ x.2 ∣ x.1
  inZone : ∃ zi, InZone lay x.1 x.2 zi

-- The allocator's invariant while the blocks of `cur` are in transit and callers hold those of
-- `live`. The node of a frame is a parameter by zone: a commit changes one zone at a time.
structure Core (lay : Layout) (managed : ℕ → Bool) (node : ZoneType → ℕ → ℕ) (s : State)
    (L : FreeLists) (cur live : List (ℕ × ℕ)) : Prop where
  rep : Represents s L
  place : ∀ p, L p ≠ [] → p ∈ places
  partition : ∀ f, freeAt L f + held cur f + held live f = if managed f then 1 else 0
  free : ∀ nd zi o b, b ∈ L (nd, zi, o) → FreeBlock lay (node zi) s nd zi o b
  block : ∀ x ∈ cur ++ live, HeldBlock lay x
  used : ∀ x ∈ live, ∀ f, InBlock x.1 x.2 f → s.pageState f = psUsed
  unmanaged : ∀ f, managed f = false → buddyMaxOrder < s.pageState f
  zero : managed 0 = false
  nodes : ∀ zi f, node zi f < pmmMaxNodes

theorem nodeOfPfn_lt {s : State} (h : ∀ r ∈ s.nrng, r.node < pmmMaxNodes) (f : ℕ) :
    nodeOfPfn s f < pmmMaxNodes := by
  unfold nodeOfPfn
  split
  · split
    · next r hr => exact h r (mem_of_find?_eq_some hr)
    · decide
  · decide

theorem zoneOfPfn_eq_some_iff (lay : Layout) (f : ℕ) (zi : ZoneType) :
    zoneOfPfn lay f = some zi ↔
      (f < lay.nrFrames ∧ lay.pfnBase ≤ f) ∧ (zoneStart lay zi ≤ f ∧ f < zoneEnd lay zi) := by
  have hdma := lay.direct_dma
  unfold zoneOfPfn
  cases zi <;> simp only [zoneStart, zoneEnd, zoneDmaFrameLimit, zoneDma32FrameLimit] at * <;>
    grind

section Core

variable {lay : Layout} {managed : ℕ → Bool} {node : ZoneType → ℕ → ℕ} {s s' : State}
  {L : FreeLists} {cur live : List (ℕ × ℕ)} {nd : ℕ} {zi : ZoneType} {b o f : ℕ}

theorem Core.mem_places (h : Core lay managed node s L cur live) (hb : b ∈ L (nd, zi, o)) :
    (nd, zi, o) ∈ places := h.place _ (ne_nil_of_mem hb)

theorem mem_places_iff : (nd, zi, o) ∈ places ↔ nd < pmmMaxNodes ∧ o ≤ buddyMaxOrder := by
  simp only [places, Finset.mem_product, Finset.mem_range, Finset.mem_univ, true_and, Nat.lt_succ_iff]

section

variable (h : Core lay managed node s L cur live)

include h

theorem Core.managed_of_held (hf : 0 < held cur f + held live f) : managed f = true := by
  have hp := h.partition f
  by_contra hm
  simp only [hm, if_false] at hp
  omega

theorem Core.not_free_of_held (hf : 0 < held cur f + held live f) : freeAt L f = 0 := by
  have hp := h.partition f
  split at hp <;> omega

theorem Core.fresh (hf : 0 < held cur f + held live f)
    (p : Place) : f ∉ L p := by
  intro hmem
  have hpos : 0 < freeAt L f :=
    occ_pos (h.place p (ne_nil_of_mem hmem)) hmem (inBlock_self f p.2.2)
  exact hpos.ne' (h.not_free_of_held hf)

theorem Core.congr (hrep : Represents s' L)
    (hstate : s'.pageState = s.pageState) : Core lay managed node s' L cur live where
  rep := hrep
  place := h.place
  partition := h.partition
  free nd zi o b hb :=
    { aligned := (h.free nd zi o b hb).aligned
      inZone := (h.free nd zi o b hb).inZone
      onNode := (h.free nd zi o b hb).onNode
      tagged := by rw [hstate]; exact (h.free nd zi o b hb).tagged }
  block := h.block
  used := by rw [hstate]; exact h.used
  unmanaged := by rw [hstate]; exact h.unmanaged
  zero := h.zero
  nodes := h.nodes

theorem Core.same (hs : SameLists s s') : Core lay managed node s' L cur live :=
  h.congr (h.rep.congr hs.link hs.zone) hs.pageState

theorem Core.addFree (n : ℕ) : Core lay managed node (s.addFree nd zi n) L cur live :=
  h.same (sameLists_modZone fun _ => ⟨rfl, rfl⟩)

theorem Core.subFree (n : ℕ) : Core lay managed node (s.subFree nd zi n) L cur live :=
  h.same (sameLists_modZone fun _ => ⟨rfl, rfl⟩)

end

theorem Core.push (h : Core lay managed node s L ((b, o) :: cur) live) (hz : InZone lay b o zi)
    (hn : OnNode (node zi) b o nd) :
    Core lay managed node (zonePush s nd zi b o)
      (update L (nd, zi, o) (b :: L (nd, zi, o))) cur live := by
  have hself := inBlock_self b o
  have hheld : 0 < held ((b, o) :: cur) b + held live b := by
    rw [held_cons, hit_of_inBlock hself]
    omega
  have hfresh := h.fresh hheld
  have hmanaged := h.managed_of_held hheld
  have hblock := h.block (b, o) (by simp)
  have hplace : (nd, zi, o) ∈ places :=
    mem_places_iff.mpr ⟨hn b hself ▸ h.nodes zi b, hblock.order_le⟩
  refine ⟨h.rep.push nd zi o ?_ hfresh, ?_, ?_, ?_, ?_, ?_, ?_, h.zero, h.nodes⟩
  · rintro rfl
    rw [h.zero] at hmanaged
    cases hmanaged
  · intro p hp
    by_cases hpq : p = (nd, zi, o)
    · exact hpq ▸ hplace
    · rw [update_of_ne hpq] at hp
      exact h.place p hp
  · intro f
    have hp := h.partition f
    have hcons : freeAt _ f = freeAt L f + hit b o f := occ_cons hplace b f
    rw [held_cons] at hp
    dsimp only at hp
    omega
  · intro nd' zi' o' c hc
    have hcases : c = b ∧ nd' = nd ∧ zi' = zi ∧ o' = o ∨ c ∈ L (nd', zi', o') := by
      by_cases hq : (nd', zi', o') = (nd, zi, o)
      · rw [hq, update_self] at hc
        rcases mem_cons.mp hc with rfl | hc
        · exact .inl ⟨rfl, by simpa using hq⟩
        · exact .inr (hq ▸ hc)
      · rw [update_of_ne hq] at hc
        exact .inr hc
    rcases hcases with ⟨rfl, rfl, rfl, rfl⟩ | hc
    · exact ⟨hblock.aligned, hz, hn, by simp⟩
    · have hold := h.free nd' zi' o' c hc
      have hcb : c ≠ b := fun heq => hfresh _ (heq ▸ hc)
      exact ⟨hold.aligned, hold.inZone, hold.onNode,
        by rw [zonePush_pageState, update_of_ne hcb, hold.tagged]⟩
  · exact fun x hx => h.block x (mem_cons_of_mem _ hx)
  · intro x hx f hf
    have hfb : f ≠ b := by
      rintro rfl
      have hp := h.partition f
      have hlive := held_pos hx hf
      rw [held_cons, hit_of_inBlock hself] at hp
      split at hp <;> omega
    rw [zonePush_pageState, update_of_ne hfb]
    exact h.used x hx f hf
  · intro f hf
    have hfb : f ≠ b := by
      rintro rfl
      rw [hmanaged] at hf
      cases hf
    rw [zonePush_pageState, update_of_ne hfb]
    exact h.unmanaged f hf

theorem Core.take (h : Core lay managed node s L cur live) (hb : b ∈ L (nd, zi, o))
    (hr : zoneRemove s nd zi b o = some s') :
    Core lay managed node s' (update L (nd, zi, o) ((L (nd, zi, o)).erase b))
      ((b, o) :: cur) live := by
  obtain ⟨_, hstate, _, _⟩ := zoneRemove_eq_some hr
  have hplace := h.mem_places hb
  have hfree := h.free nd zi o b hb
  have hsub : ∀ q c, c ∈ update L (nd, zi, o) ((L (nd, zi, o)).erase b) q → c ∈ L q := by
    intro q c hc
    by_cases hq : q = (nd, zi, o)
    · subst hq
      rw [update_self] at hc
      exact mem_of_mem_erase hc
    · rwa [update_of_ne hq] at hc
  refine ⟨h.rep.remove hb hr, ?_, ?_, ?_, ?_, ?_, ?_, h.zero, h.nodes⟩
  · intro p hp
    obtain ⟨c, hc⟩ := exists_mem_of_ne_nil _ hp
    exact h.place p (ne_nil_of_mem (hsub p c hc))
  · intro f
    have hp := h.partition f
    have herase : freeAt _ f + hit b o f = freeAt L f := occ_erase hplace hb f
    rw [held_cons]
    dsimp only
    omega
  · intro nd' zi' o' c hc
    have hold := h.free nd' zi' o' c (hsub _ c hc)
    exact ⟨hold.aligned, hold.inZone, hold.onNode, hstate ▸ hold.tagged⟩
  · intro x hx
    rcases mem_cons.mp hx with rfl | hx
    · exact ⟨(mem_places_iff.mp hplace).2, hfree.aligned, zi, hfree.inZone⟩
    · exact h.block x hx
  · rw [hstate]
    exact h.used
  · rw [hstate]
    exact h.unmanaged

theorem Core.perm {cur' : List (ℕ × ℕ)} (h : Core lay managed node s L cur live)
    (hperm : cur.Perm cur') : Core lay managed node s L cur' live :=
  { h with
    partition := fun f => by
      have hp := h.partition f
      rwa [held, hperm.countP_eq] at hp
    block := fun x hx => h.block x ((hperm.append_right live).mem_iff.mpr hx) }

theorem Core.split (h : Core lay managed node s L ((b, o + 1) :: cur) live) :
    Core lay managed node s L ((b + 2 ^ o, o) :: (b, o) :: cur) live := by
  obtain ⟨hle, haligned, zi, hz⟩ := h.block (b, o + 1) (by simp)
  refine { h with partition := fun f => ?_, block := fun x hx => ?_ }
  · have hp := h.partition f
    simp only [held_cons, hit_split] at hp ⊢
    omega
  · simp only [cons_append, mem_cons] at hx
    rcases hx with rfl | rfl | hx
    · exact ⟨by dsimp only; omega, dvd_upper_half haligned, zi, fun f hf =>
        hz f (inBlock_succ.mpr (.inr hf))⟩
    · exact ⟨by dsimp only; omega, dvd_of_dvd_succ haligned, zi, fun f hf =>
        hz f (inBlock_succ.mpr (.inl hf))⟩
    · exact h.block x (mem_cons_of_mem _ hx)

theorem Core.merge (h : Core lay managed node s L ((buddy b o, o) :: (b, o) :: cur) live)
    (ho : o < buddyMaxOrder) (hz : InZone lay b o zi) (hz' : InZone lay (buddy b o) o zi) :
    Core lay managed node s L ((min (buddy b o) b, o + 1) :: cur) live := by
  have haligned := (h.block (b, o) (by simp)).aligned
  refine { h with partition := fun f => ?_, block := fun x hx => ?_ }
  · have hp := h.partition f
    simp only [held_cons, hit_min_buddy haligned] at hp ⊢
    omega
  · rcases mem_cons.mp hx with rfl | hx
    · exact ⟨ho, dvd_min_buddy haligned, zi, fun f hf =>
        ((inBlock_min_buddy haligned).mp hf).elim (hz' f) (hz f)⟩
    · exact h.block x (by simp [mem_append.mp hx])

theorem Core.give (h : Core lay managed node s L ((b, o) :: cur) live) :
    Core lay managed node (markUsed s b o) L cur ((b, o) :: live) := by
  have hin : ∀ {f}, InBlock b o f → 0 < held ((b, o) :: cur) f + held live f := fun hf => by
    rw [held_cons, hit_of_inBlock hf]
    omega
  refine ⟨h.rep.congr rfl fun _ _ => ⟨rfl, rfl⟩, h.place, fun f => ?_,
    fun nd zi o' c hc => ?_, fun x hx => h.block x ?_, fun x hx f hf => ?_, fun f hf => ?_,
    h.zero, h.nodes⟩
  · have hp := h.partition f
    simp only [held_cons] at hp ⊢
    omega
  · have hold := h.free nd zi o' c hc
    refine ⟨hold.aligned, hold.inZone, hold.onNode, ?_⟩
    have hnot : ¬InBlock b o c := fun hcb => h.fresh (hin hcb) _ hc
    exact (if_neg hnot).trans hold.tagged
  · simp only [mem_append, mem_cons] at hx ⊢
    tauto
  · by_cases hfb : InBlock b o f
    · exact if_pos hfb
    · refine (if_neg hfb).trans ?_
      rcases mem_cons.mp hx with rfl | hx
      · exact absurd hf hfb
      · exact h.used x hx f hf
  · have hnot : ¬InBlock b o f := fun hfb => by
      rw [h.managed_of_held (hin hfb)] at hf
      cases hf
    simpa only [markUsed, if_neg hnot] using h.unmanaged f hf

theorem Core.release {x : ℕ × ℕ} (h : Core lay managed node s L cur live) (hx : x ∈ live) :
    Core lay managed node s L (x :: cur) (live.erase x) := by
  refine { h with
    partition := fun f => ?_
    block := fun y hy => h.block y ?_
    used := fun y hy => h.used y (mem_of_mem_erase hy) }
  · have hp := h.partition f
    rw [held_erase hx] at hp
    rw [held_cons]
    omega
  · rcases mem_append.mp hy with hy | hy
    · rcases mem_cons.mp hy with rfl | hy
      · exact mem_append_right _ hx
      · exact mem_append_left _ hy
    · exact mem_append_right _ (mem_of_mem_erase hy)

end Core

def freeSize (L : FreeLists) (nd : ℕ) (zi : ZoneType) : ℕ :=
  ∑ o ∈ Finset.range (buddyMaxOrder + 1), (L (nd, zi, o)).length * 2 ^ o

def Balanced (s : State) (L : FreeLists) : Prop :=
  ∀ nd zi, (s.zones nd zi).freeFrames = freeSize L nd zi

structure Shift (L L' : FreeLists) (nd : ℕ) (zi : ZoneType) (gain loss : ℕ) : Prop where
  here : freeSize L' nd zi + loss = freeSize L nd zi + gain
  other : ∀ nd' zi', (nd', zi') ≠ (nd, zi) → freeSize L' nd' zi' = freeSize L nd' zi'

variable {L L' L'' : FreeLists} {nd : ℕ} {zi : ZoneType} {b o : ℕ}

theorem Shift.refl (L : FreeLists) (nd : ℕ) (zi : ZoneType) (n : ℕ) : Shift L L nd zi n n :=
  ⟨rfl, fun _ _ _ => rfl⟩

theorem Shift.trans {g l g' l' : ℕ} (h : Shift L L' nd zi g l) (h' : Shift L' L'' nd zi g' l') :
    Shift L L'' nd zi (g + g') (l + l') where
  here := by have h1 := h.here; have h2 := h'.here; omega
  other nd' zi' hne := (h'.other nd' zi' hne).trans (h.other nd' zi' hne)

theorem Shift.change {g l g' l' : ℕ} (h : Shift L L' nd zi g l) (heq : g' + l = g + l') :
    Shift L L' nd zi g' l' where
  here := by have h1 := h.here; omega
  other := h.other

theorem shift_update (ho : o ≤ buddyMaxOrder) (l : List ℕ) :
    Shift L (Function.update L (nd, zi, o) l) nd zi (l.length * 2 ^ o)
      ((L (nd, zi, o)).length * 2 ^ o) where
  here := by
    have hmem : o ∈ Finset.range (buddyMaxOrder + 1) := Finset.mem_range.mpr (by omega)
    unfold freeSize
    rw [← Finset.add_sum_erase _ _ hmem, ← Finset.add_sum_erase _ _ hmem, Function.update_self]
    have hrest : ∀ k ∈ (Finset.range (buddyMaxOrder + 1)).erase o,
        (Function.update L (nd, zi, o) l (nd, zi, k)).length * 2 ^ k =
          (L (nd, zi, k)).length * 2 ^ k := by
      intro k hk
      rw [Function.update_of_ne]
      simpa using Finset.ne_of_mem_erase hk
    rw [Finset.sum_congr rfl hrest]
    omega
  other nd' zi' hne := by
    refine Finset.sum_congr rfl fun k _ => ?_
    rw [Function.update_of_ne]
    intro heq
    simp only [Prod.mk.injEq] at heq
    exact hne (by rw [heq.1, heq.2.1])

theorem shift_push (b : ℕ) (ho : o ≤ buddyMaxOrder) :
    Shift L (Function.update L (nd, zi, o) (b :: L (nd, zi, o))) nd zi (2 ^ o) 0 :=
  (shift_update ho _).change (by rw [List.length_cons, Nat.succ_mul]; omega)

theorem shift_erase (ho : o ≤ buddyMaxOrder) (hb : b ∈ L (nd, zi, o)) :
    Shift L (Function.update L (nd, zi, o) ((L (nd, zi, o)).erase b)) nd zi 0 (2 ^ o) := by
  refine (shift_update ho _).change ?_
  have hlen : (L (nd, zi, o)).length = ((L (nd, zi, o)).erase b).length + 1 := by
    have hpos := List.length_pos_of_mem hb
    rw [List.length_erase_of_mem hb]
    omega
  rw [hlen, Nat.succ_mul]
  omega

theorem Balanced.shift {s s' : State} {gain loss : ℕ} (h : Balanced s L)
    (hshift : Shift L L' nd zi gain loss)
    (hhere : (s'.zones nd zi).freeFrames + loss = (s.zones nd zi).freeFrames + gain)
    (hother : ∀ nd' zi', (nd', zi') ≠ (nd, zi) →
      (s'.zones nd' zi').freeFrames = (s.zones nd' zi').freeFrames) : Balanced s' L' := by
  intro nd' zi'
  by_cases hne : (nd', zi') = (nd, zi)
  · obtain ⟨rfl, rfl⟩ : nd' = nd ∧ zi' = zi := by simpa using hne
    have h1 := h nd' zi'
    have h2 := hshift.here
    omega
  · rw [hother _ _ hne, h nd' zi', hshift.other _ _ hne]

theorem addFree_freeFrames (s : State) (nd nd' : ℕ) (zi zi' : ZoneType) (n : ℕ) :
    ((s.addFree nd zi n).zones nd' zi').freeFrames =
      (s.zones nd' zi').freeFrames + if (nd', zi') = (nd, zi) then n else 0 := by
  simp only [State.addFree, modZone_zones, Prod.mk.injEq]
  split
  · next heq => rw [heq.1, heq.2]
  · rfl

section Holds

variable {lay : Layout} {managed : ℕ → Bool} {node : ZoneType → ℕ → ℕ} {s s' : State}
  {cur live : List (ℕ × ℕ)}

def Holds (lay : Layout) (managed : ℕ → Bool) (node : ZoneType → ℕ → ℕ) (s : State)
    (cur live : List (ℕ × ℕ)) : Prop :=
  ∃ L, Core lay managed node s L cur live ∧ Balanced s L

theorem Holds.same (h : Holds lay managed node s cur live) (hs : SameLists s s')
    (hfree : ∀ nd zi, (s'.zones nd zi).freeFrames = (s.zones nd zi).freeFrames) :
    Holds lay managed node s' cur live := by
  obtain ⟨L, hcore, hbal⟩ := h
  exact ⟨L, hcore.same hs, fun nd zi => (hfree nd zi).trans (hbal nd zi)⟩

theorem Holds.push (h : Holds lay managed node s ((b, o) :: cur) live) (hz : InZone lay b o zi)
    (hn : OnNode (node zi) b o nd) :
    Holds lay managed node ((zonePush s nd zi b o).addFree nd zi (2 ^ o)) cur live := by
  obtain ⟨L, hcore, hbal⟩ := h
  have hle := (hcore.block (b, o) (by simp)).order_le
  have hkeeps := zonePush_keeps s nd zi b o
  refine ⟨_, (hcore.push hz hn).addFree _,
    hbal.shift (shift_push b hle) ?_ fun nd' zi' hne => ?_⟩
  · rw [addFree_freeFrames, if_pos rfl, hkeeps.freeFrames, Nat.add_zero]
  · rw [addFree_freeFrames, if_neg hne, hkeeps.freeFrames, Nat.add_zero]

end Holds

theorem subFree_freeFrames (s : State) (nd nd' : ℕ) (zi zi' : ZoneType) (n : ℕ) :
    ((s.subFree nd zi n).zones nd' zi').freeFrames =
      (s.zones nd' zi').freeFrames - if (nd', zi') = (nd, zi) then n else 0 := by
  simp only [State.subFree, modZone_zones, Prod.mk.injEq]
  split
  · next heq => rw [heq.1, heq.2]
  · rfl

end DosKernel.Pmm

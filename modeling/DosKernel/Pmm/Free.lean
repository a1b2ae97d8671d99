import DosKernel.Pmm.Invariant

namespace DosKernel.Pmm

open DosKernel.Lib

variable {lay : Layout} {managed : ℕ → Bool} {node : ZoneType → ℕ → ℕ} {s s' : State}
  {L : FreeLists} {cur live : List (ℕ × ℕ)} {nd : ℕ} {zi : ZoneType} {b o order : ℕ}

theorem InZone.lower (h : InZone lay b (o + 1) zi) : InZone lay b o zi :=
  fun f hf => h f (inBlock_succ.mpr (.inl hf))

theorem InZone.upper (h : InZone lay b (o + 1) zi) : InZone lay (b + 2 ^ o) o zi :=
  fun f hf => h f (inBlock_succ.mpr (.inr hf))

theorem OnNode.lower {g : ℕ → ℕ} (h : OnNode g b (o + 1) nd) : OnNode g b o nd :=
  fun f hf => h f (inBlock_succ.mpr (.inl hf))

theorem OnNode.upper {g : ℕ → ℕ} (h : OnNode g b (o + 1) nd) : OnNode g (b + 2 ^ o) o nd :=
  fun f hf => h f (inBlock_succ.mpr (.inr hf))

theorem splitDown_spec (order : ℕ) (h : Core lay managed node s L ((b, o) :: cur) live) (ho : order ≤ o)
    (hz : InZone lay b o zi) (hn : OnNode (node zi) b o nd) :
    ∃ L', Core lay managed node (splitDown nd zi order o s b) L' ((b, order) :: cur) live ∧
      Keeps s (splitDown nd zi order o s b) ∧ Shift L L' nd zi (2 ^ o) (2 ^ order) := by
  induction o generalizing s L with
  | zero =>
    obtain rfl : order = 0 := by omega
    exact ⟨L, h, Keeps.refl s, Shift.refl _ _ _ _⟩
  | succ o ih =>
    unfold splitDown
    by_cases hlt : order < o + 1
    · rw [if_pos hlt]
      have hpushed := (h.split).push hz.upper hn.upper
      have hkeeps := zonePush_keeps s nd zi (b + 2 ^ o) o
      have hle := (h.block (b, o + 1) (by simp)).order_le
      obtain ⟨L', hcore, hkeeps', hshift⟩ := ih hpushed (by omega) hz.lower hn.lower
      refine ⟨L', hcore, hkeeps.trans hkeeps', ?_⟩
      exact ((shift_push _ (by omega)).trans hshift).change (by rw [Nat.pow_succ]; omega)
    · obtain rfl : order = o + 1 := by omega
      rw [if_neg hlt]
      exact ⟨L, h, Keeps.refl s, Shift.refl _ _ _ _⟩

theorem firstOrder_spec {z : Zone} {n k : ℕ} (h : firstOrder z n o = some k) :
    o ≤ k ∧ k < o + n ∧ z.freeLists k ≠ 0 := by
  induction n generalizing o with
  | zero => cases h
  | succ n ih =>
    unfold firstOrder at h
    split at h
    · obtain ⟨h1, h2, h3⟩ := ih h
      exact ⟨by omega, by omega, h3⟩
    next hz =>
      cases h
      exact ⟨le_rfl, by omega, hz⟩

@[simp] theorem markUsed_zones (s : State) (b o : ℕ) : (markUsed s b o).zones = s.zones := rfl

theorem buddyAllocInZone_eq {t : State} {pfn : ℕ} (ho : order ≤ buddyMaxOrder)
    (hfirst : firstOrder (s.zones nd zi) (buddyMaxOrder + 1 - order) order = some o)
    (hpop : zonePop s nd zi o = (t, pfn)) :
    buddyAllocInZone s nd zi order =
      ((markUsed (splitDown nd zi order o t pfn) pfn order).subFree nd zi (2 ^ order), pfn) := by
  simp only [buddyAllocInZone, if_neg (Nat.not_lt.mpr ho), hfirst, hpop]

structure Allocated (lay : Layout) (managed : ℕ → Bool) (node : ZoneType → ℕ → ℕ) (s s' : State)
    (live : List (ℕ × ℕ)) (pfn order : ℕ) : Prop where
  ne_zero : pfn ≠ 0
  holds : Holds lay managed node s' [] ((pfn, order) :: live)
  same : SameNuma s s'
  onNode : ∃ zi nd, OnNode (node zi) pfn order nd

section

variable (h : Holds lay managed node s [] live)

include h

theorem buddyAllocInZone_spec (nd : ℕ) (zi : ZoneType) (ho : order ≤ buddyMaxOrder) :
    buddyAllocInZone s nd zi order = (s, 0) ∨
    ∃ s' pfn, buddyAllocInZone s nd zi order = (s', pfn) ∧
      Allocated lay managed node s s' live pfn order := by
  obtain ⟨L, h, hbal⟩ := h
  cases hfirst : firstOrder (s.zones nd zi) (buddyMaxOrder + 1 - order) order with
  | none =>
    left
    simp only [buddyAllocInZone, if_neg (Nat.not_lt.mpr ho), hfirst]
  | some o =>
    obtain ⟨hle, hlt, hne⟩ := firstOrder_spec hfirst
    obtain ⟨pfn, rest, hL⟩ := List.exists_cons_of_ne_nil
      (fun hnil => hne (h.rep.head_eq_zero_iff.mpr hnil))
    obtain ⟨hremove, hpop⟩ := zonePop_eq_remove h.rep hL
    have hmem : pfn ∈ L (nd, zi, o) := by simp [hL]
    have hfree := h.free nd zi o pfn hmem
    have hkeeps := (zoneRemove_eq_some hremove).1
    obtain ⟨L', hcore, hkeeps', hsplit⟩ := splitDown_spec order (h.take hmem hremove) hle
      hfree.inZone hfree.onNode
    have hk := hkeeps.trans hkeeps'
    have hshift : Shift L L' nd zi 0 (2 ^ order) :=
      ((shift_erase (by omega) hmem).trans hsplit).change (by omega)
    refine .inr ⟨_, pfn, buddyAllocInZone_eq ho hfirst (Prod.ext rfl hpop), h.rep.ne_zero hmem,
      ⟨L', hcore.give.subFree _, hbal.shift hshift ?_ ?_⟩, ?_, zi, nd, ?_⟩
    · have hhere := hshift.here
      have hfrees := hbal nd zi
      rw [subFree_freeFrames, if_pos rfl, markUsed_zones, hk.freeFrames]
      omega
    · intro nd' zi' hne'
      rw [subFree_freeFrames, if_neg hne', Nat.sub_zero, markUsed_zones, hk.freeFrames]
    · exact ⟨hk.nrng, hk.numaLive, hk.numaCommitted⟩
    · have hsub : ∀ f, InBlock pfn order f → InBlock pfn o f := fun f hf =>
        ⟨hf.1, hf.2.trans_le (Nat.add_le_add_left (Nat.pow_le_pow_right (by decide) hle) pfn)⟩
      exact fun f hf => hfree.onNode f (hsub f hf)

theorem allocFrom_spec (pref : ℕ) (cands : List (ℕ × ZoneType)) (ho : order ≤ buddyMaxOrder) :
    allocFrom order pref cands s = (s, 0) ∨
    ∃ s' pfn, allocFrom order pref cands s = (s', pfnToPhys pfn) ∧
      Allocated lay managed node s s' live pfn order := by
  induction cands with
  | nil => exact .inl rfl
  | cons c rest ih =>
    obtain ⟨nd, zi⟩ := c
    rcases buddyAllocInZone_spec h nd zi ho with hfail | ⟨s', pfn, heq, ha⟩
    · simpa only [allocFrom, hfail, if_true] using ih
    · have hcount : ∀ t, SameLists s' t → Keeps s' t →
          Allocated lay managed node s t live pfn order := fun t hl hk =>
        ⟨ha.ne_zero, ha.holds.same hl hk.freeFrames, ha.same.trans hk.toSameNuma, ha.onNode⟩
      right
      simp only [allocFrom, heq, if_neg ha.ne_zero]
      split
      · split <;>
          exact ⟨_, pfn, rfl, hcount _ ⟨rfl, rfl, fun _ _ => ⟨rfl, rfl⟩⟩
            ⟨⟨rfl, rfl, rfl⟩, fun _ _ => rfl⟩⟩
      · exact ⟨_, pfn, rfl, ha⟩

theorem pageAllocNode_spec (order zoneHint pref : ℤ) :
    pageAllocNode s order zoneHint pref = (s, 0) ∨
    ∃ s' pfn, pageAllocNode s order zoneHint pref = (s', pfnToPhys pfn) ∧
      Allocated lay managed node s s' live pfn order.toNat := by
  unfold pageAllocNode
  dsimp only
  split
  · exact .inl rfl
  · exact allocFrom_spec h _ _ (by omega)

end

variable {c : ℕ}

theorem canMerge_iff :
    canMerge lay s nd zi c o = true ↔
      zoneOfPfn lay c = some zi ∧ (s.numaLive = true → nodeOfPfn s c = nd) ∧ s.pageState c = o := by
  rw [zoneOfPfn_eq_some_iff]
  simp only [canMerge, Bool.and_eq_true, decide_eq_true_eq, Bool.or_eq_true, Bool.not_eq_true']
  cases s.numaLive <;> simp [and_assoc]

theorem nodeOfPfn_of_not_live (h : s.numaLive = false) (f : ℕ) : nodeOfPfn s f = 0 := by
  simp [nodeOfPfn, h]

-- A buddy that passes the checks heads a free block on the very list it is removed from: a higher
-- block around it would contain the one being freed, a lower one could only start there.
theorem Core.buddy_free (h : Core lay managed node s L [(b, o)] live)
    (hN : node zi = nodeOfPfn s) (hn : nodeOfPfn s b = nd) (hm : canMerge lay s nd zi (buddy b o) o = true) :
    buddy b o ∈ L (nd, zi, o) := by
  obtain ⟨hzone, hlive, hstate⟩ := canMerge_iff.mp hm
  have hblock := h.block (b, o) (by simp)
  have haligned : 2 ^ o ∣ b := hblock.aligned
  have hle : o ≤ 13 := hblock.order_le
  have hnode : nodeOfPfn s (buddy b o) = nd := by
    cases hnuma : s.numaLive with
    | true => exact hlive hnuma
    | false => rw [← hn, nodeOfPfn_of_not_live hnuma, nodeOfPfn_of_not_live hnuma]
  have hmanaged : managed (buddy b o) = true := by
    by_contra hm
    have := h.unmanaged _ (by simpa using hm)
    rw [hstate, buddyMaxOrder] at this
    omega
  have hnotlive : held live (buddy b o) = 0 := by
    by_contra hpos
    obtain ⟨x, hx, hf⟩ := held_pos_iff.mp (Nat.pos_of_ne_zero hpos)
    have := h.used x hx _ hf
    rw [hstate, psUsed] at this
    omega
  have hfree : 0 < freeAt L (buddy b o) := by
    have hp := h.partition (buddy b o)
    have hout : hit b o (buddy b o) = 0 :=
      if_neg fun hin => not_inBlock_buddy haligned ⟨inBlock_self _ _, hin⟩
    simp only [held_cons, held_nil, hout, hnotlive, hmanaged, if_true] at hp
    omega
  obtain ⟨⟨nd', zi', k⟩, _, e, he, hin⟩ := exists_of_occ_pos hfree
  have hfb := h.free nd' zi' k e he
  rcases Nat.lt_or_ge o k with hok | hok
  · exfalso
    have hbe : InBlock e k b := inBlock_subset (dvd_min_buddy haligned) hfb.aligned hok
      ((inBlock_min_buddy haligned).mpr (.inl (inBlock_self _ _))) hin
      ((inBlock_min_buddy haligned).mpr (.inr (inBlock_self _ _)))
    have hpos : 0 < freeAt L b := occ_pos (h.mem_places he) he hbe
    refine hpos.ne' (h.not_free_of_held ?_)
    rw [held_cons, hit_of_inBlock (inBlock_self b o)]
    omega
  · have heq := base_eq_of_inBlock (dvd_buddy haligned) hfb.aligned hok hin
    have hk : k = o := hfb.tagged.symm.trans (heq ▸ hstate)
    have hzi : zi' = zi := Option.some.inj ((hfb.inZone _ hin).symm.trans hzone)
    have hnd : nd' = nd := by rw [← hnode, ← hN, ← hfb.onNode _ hin, hzi]
    rwa [heq, hk, hzi, hnd] at he

structure Coalesced (lay : Layout) (managed : ℕ → Bool) (node : ZoneType → ℕ → ℕ)
    (s s' : State) (L L' : FreeLists) (live : List (ℕ × ℕ)) (nd : ℕ) (zi : ZoneType) (b o b' o' : ℕ) : Prop where
  core : Core lay managed node s' L' [(b', o')] live
  keeps : Keeps s s'
  inZone : InZone lay b' o' zi
  contains : ∀ f, InBlock b o f → InBlock b' o' f
  rest : ∀ f, InBlock b' o' f → InBlock b o f ∨ nodeOfPfn s f = nd
  shift : Shift L L' nd zi (2 ^ o) (2 ^ o')

theorem coalesce_spec (n : ℕ) (h : Core lay managed node s L [(b, o)] live)
    (hN : node zi = nodeOfPfn s) (hz : InZone lay b o zi) (hn : nodeOfPfn s b = nd) :
    ∃ s' b' o' L', coalesce lay nd zi n s b o = (s', b', o') ∧
      Coalesced lay managed node s s' L L' live nd zi b o b' o' := by
  induction n generalizing s L b o with
  | zero =>
    exact ⟨s, b, o, L, rfl, h, Keeps.refl s, hz, fun _ hf => hf, fun _ hf => .inl hf,
      Shift.refl _ _ _ _⟩
  | succ n ih =>
    have hstay : ∃ s' b' o' L', (s, b, o) = (s', b', o') ∧
        Coalesced lay managed node s s' L L' live nd zi b o b' o' :=
      ⟨s, b, o, L, rfl, h, Keeps.refl s, hz, fun _ hf => hf, fun _ hf => .inl hf,
        Shift.refl _ _ _ _⟩
    unfold coalesce
    split
    · next ho =>
        dsimp only
        split
        · next hm =>
            have hmem := h.buddy_free hN hn hm
            have hfb := h.free nd zi o _ hmem
            obtain ⟨t, ht⟩ := zoneRemove_isSome h.rep hmem
            rw [ht]
            have hkeeps := (zoneRemove_eq_some ht).1
            have haligned : 2 ^ o ∣ b := (h.block (b, o) (by simp)).aligned
            have hmerged := (h.take hmem ht).merge ho hz hfb.inZone
            have hnode : nodeOfPfn t (min (buddy b o) b) = nd := by
              rw [hkeeps.nodeOfPfn]
              rcases min_choice (buddy b o) b with heq | heq <;> rw [heq]
              · rw [← hN]
                exact hfb.onNode _ (inBlock_self _ _)
              · exact hn
            obtain ⟨s', b', o', L', heq, hco⟩ := ih hmerged
              (hN.trans hkeeps.nodeOfPfn.symm)
              (fun f hf => ((inBlock_min_buddy haligned).mp hf).elim (hfb.inZone f) (hz f)) hnode
            refine ⟨s', b', o', L', heq, hco.core, hkeeps.trans hco.keeps, hco.inZone,
              ?_, ?_, ?_⟩
            · exact fun f hf => hco.contains f ((inBlock_min_buddy haligned).mpr (.inr hf))
            · intro f hf
              rcases hco.rest f hf with hin | hin
              · rcases (inBlock_min_buddy haligned).mp hin with hin | hin
                · exact .inr (hN ▸ hfb.onNode f hin)
                · exact .inl hin
              · exact .inr (by rwa [hkeeps.nodeOfPfn] at hin)
            · exact ((shift_erase ho.le hmem).trans hco.shift).change
                (by rw [Nat.pow_succ]; omega)
        · exact hstay
    · exact hstay

theorem Core.live_ne_zero (h : Core lay managed node s L cur live) (hx : (b, o) ∈ live) : b ≠ 0 := by
  rintro rfl
  have hpos : 0 < held live 0 := held_pos hx (inBlock_self 0 o)
  have := h.managed_of_held (Nat.lt_add_left (held cur 0) hpos)
  rw [h.zero] at this
  cases this

section

variable (h : Core lay managed node s L [] live)

include h

theorem pageFree_spec (hN : ∀ zi, node zi = nodeOfPfn s)
    (hx : (b, o) ∈ live) :
    ∃ zi t b' o' L', pageFree lay s (pfnToPhys b) o = zonePush t (nodeOfPfn s b) zi b' o' ∧
      Coalesced lay managed node (s.addFree (nodeOfPfn s b) zi (2 ^ o)) t L L' (live.erase (b, o))
        (nodeOfPfn s b) zi b o b' o' := by
  have hblock := h.block (b, o) (by simpa using hx)
  obtain ⟨zi, hz⟩ := hblock.inZone
  have hle : o ≤ buddyMaxOrder := hblock.order_le
  have hzone := hz b (inBlock_self b o)
  have hcore : Core lay managed node (s.addFree (nodeOfPfn s b) zi (2 ^ o)) L [(b, o)]
      (live.erase (b, o)) := (h.release hx).addFree _
  have hnode : nodeOfPfn (s.addFree (nodeOfPfn s b) zi (2 ^ o)) b = nodeOfPfn s b := rfl
  obtain ⟨t, b', o', L', heq, hco⟩ := coalesce_spec (buddyMaxOrder - o) hcore (hN zi) hz hnode
  refine ⟨zi, t, b', o', L', ?_, hco⟩
  have hne : ¬(pfnToPhys b = 0 ∨ pfnToPhys b % pmmFrameSize ≠ 0) := by
    simp [h.live_ne_zero hx, pfnToPhys, pmmFrameSize]
  simp only [pageFree, if_neg hne, physToPfn_pfnToPhys, hzone, buddyFreeInZone,
    if_neg (Nat.not_lt.mpr hle), heq]

theorem pageFree_same (hN : ∀ zi, node zi = nodeOfPfn s)
    (hx : (b, o) ∈ live) : SameNuma s (pageFree lay s (pfnToPhys b) o) := by
  obtain ⟨zi, t, b', o', L', heq, hco⟩ := pageFree_spec h hN hx
  have hsame : SameNuma s t := ⟨hco.keeps.nrng, hco.keeps.numaLive, hco.keeps.numaCommitted⟩
  rw [heq]
  exact hsame.trans (zonePush_keeps t (nodeOfPfn s b) zi b' o').toSameNuma

theorem pageFree_inv (hN : ∀ zi, node zi = nodeOfPfn s)
    (hbal : Balanced s L) (hx : (b, o) ∈ live)
    (hn : OnNode (nodeOfPfn s) b o (nodeOfPfn s b)) :
    Holds lay managed node (pageFree lay s (pfnToPhys b) o) [] (live.erase (b, o)) := by
  obtain ⟨zi, t, b', o', L', heq, hco⟩ := pageFree_spec h hN hx
  have hnode : OnNode (node zi) b' o' (nodeOfPfn s b) := by
    rw [hN]
    exact fun f hf => (hco.rest f hf).elim (hn f) id
  have hkeeps := zonePush_keeps t (nodeOfPfn s b) zi b' o'
  have hle : o' ≤ buddyMaxOrder := (hco.core.block (b', o') (by simp)).order_le
  rw [heq]
  refine ⟨_, hco.core.push hco.inZone hnode, ?_⟩
  have hshift : Shift L _ (nodeOfPfn s b) zi (2 ^ o) 0 :=
    (hco.shift.trans (shift_push b' hle)).change (by omega)
  refine hbal.shift hshift ?_ ?_
  · rw [hkeeps.freeFrames, hco.keeps.freeFrames, addFree_freeFrames, if_pos rfl, Nat.add_zero]
  · intro nd' zi' hne
    rw [hkeeps.freeFrames, hco.keeps.freeFrames, addFree_freeFrames, if_neg hne, Nat.add_zero]

-- If no listed block straddles two nodes afterwards, the freed one did not.
theorem onNode_of_pageFree {L' : FreeLists} (hN : ∀ zi, node zi = nodeOfPfn s) (hx : (b, o) ∈ live)
    (hrep : Represents (pageFree lay s (pfnToPhys b) o) L')
    (hon : ∀ nd zi o b, b ∈ L' (nd, zi, o) → OnNode (nodeOfPfn s) b o nd) :
    OnNode (nodeOfPfn s) b o (nodeOfPfn s b) := by
  obtain ⟨zi, t, b', o', L'', heq, hco⟩ := pageFree_spec h hN hx
  have hheld : 0 < held [(b', o')] b' + held (live.erase (b, o)) b' := by
    rw [held_cons, hit_of_inBlock (inBlock_self b' o')]
    omega
  have hb' : b' ≠ 0 := by
    rintro rfl
    have := hco.core.managed_of_held hheld
    rw [hco.core.zero] at this
    cases this
  have hpushed := hco.core.rep.push (nodeOfPfn s b) zi o' hb' (hco.core.fresh hheld)
  rw [heq] at hrep
  have hmem : b' ∈ L' (nodeOfPfn s b, zi, o') := by
    rw [← hpushed.unique hrep, Function.update_self]
    exact List.mem_cons_self
  exact fun f hf => hon _ zi o' b' hmem f (hco.contains f hf)

end

end DosKernel.Pmm

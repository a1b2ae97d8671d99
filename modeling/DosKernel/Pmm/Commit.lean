import DosKernel.Pmm.Free
import DosKernel.Pmm.Seed
import Mathlib.Data.List.Find

namespace DosKernel.Pmm

open DosKernel.Lib List
open Function (update update_apply update_of_ne update_self)

variable {lay : Layout} {managed : ℕ → Bool} {node : ZoneType → ℕ → ℕ} {s s' : State}
  {L : FreeLists} {cur live : List (ℕ × ℕ)} {nd : ℕ} {zi : ZoneType} {b c o : ℕ}

theorem onNode_of_blockNode (h : blockNode s b o = some nd) : OnNode (nodeOfPfn s) b o nd := by
  intro f hf
  unfold blockNode at h
  split at h
  · cases h
  · next hany =>
      rw [← Option.some.inj h]
      have hsame : ∀ r ∈ s.nrng, decide (r.start ≤ f ∧ f < r.stop) =
          decide (r.start ≤ b ∧ b < r.stop) := by
        intro r hr
        have hno : ¬(b < r.start ∧ r.start < b + 2 ^ o ∨ b < r.stop ∧ r.stop < b + 2 ^ o) :=
          fun hb => hany (any_eq_true.mpr ⟨r, hr, decide_eq_true hb⟩)
        obtain ⟨h1, h2⟩ := hf
        rw [decide_eq_decide]
        omega
      unfold nodeOfPfn
      split
      · rw [find?_congr hsame]
      · rfl

theorem blockNode_zero (s : State) (b : ℕ) : blockNode s b 0 = some (nodeOfPfn s b) := by
  unfold blockNode
  rw [if_neg]
  simp only [any_eq_true, decide_eq_true_eq, not_exists, not_and]
  intro r _
  omega

theorem Core.push_link (h : Core lay managed node s L ((b, o) :: cur) live)
    (hc : 0 < held cur c + held live c) (slot : ℕ) :
    (zonePush s nd zi b o).link (pfnToPhys c) slot = s.link (pfnToPhys c) slot := by
  have hcb : c ≠ b := by
    rintro rfl
    have hp := h.partition c
    rw [held_cons, hit_of_inBlock (inBlock_self c o)] at hp
    split at hp <;> omega
  have hphys : pfnToPhys c ≠ pfnToPhys b := fun heq => hcb (pfnToPhys_injective heq)
  have hheld : 0 < held ((b, o) :: cur) c + held live c := by
    rw [held_cons]
    omega
  have hhead : pfnToPhys c ≠ 0 → pfnToPhys c ≠ (s.zones nd zi).freeLists o := fun hc0 heq =>
    h.fresh hheld _ (h.rep.mem_of_head (fun h0 => hc0 (pfnToPhys_eq_zero.mpr h0)) heq.symm)
  rw [zonePush_link]
  grind

structure Rehomed (lay : Layout) (managed : ℕ → Bool) (node : ZoneType → ℕ → ℕ) (s s' : State)
    (cur live : List (ℕ × ℕ)) : Prop where
  holds : Holds lay managed node s' cur live
  same : SameNuma s s'
  link : ∀ c slot, 0 < held cur c + held live c →
    s'.link (pfnToPhys c) slot = s.link (pfnToPhys c) slot

theorem Rehomed.trans {t : State} {cur' : List (ℕ × ℕ)}
    (h : Rehomed lay managed node s t cur' live) (h' : Rehomed lay managed node t s' cur live)
    (hsub : ∀ c, held cur c ≤ held cur' c) : Rehomed lay managed node s s' cur live where
  holds := h'.holds
  same := h.same.trans h'.same
  link c slot hc := by
    have hsubc := hsub c
    rw [h'.link c slot hc, h.link c slot (by omega)]

theorem Holds.rehomed (h : Holds lay managed node s cur live) :
    Rehomed lay managed node s s cur live :=
  ⟨h, SameNuma.refl s, fun _ _ _ => rfl⟩

theorem rehomePush_spec (h : Holds lay managed node s ((b, o) :: cur) live)
    (hz : InZone lay b o zi) (hn : OnNode (node zi) b o nd) :
    Rehomed lay managed node s (rehomePush s nd zi b o) cur live := by
  have hkeeps := zonePush_keeps s nd zi b o
  refine ⟨h.push hz hn, ⟨hkeeps.nrng, hkeeps.numaLive, hkeeps.numaCommitted⟩, fun c slot hc => ?_⟩
  obtain ⟨L, hcore, -⟩ := h
  exact hcore.push_link hc slot

theorem rehomeBlock_spec (h : Holds lay managed node s ((b, o) :: cur) live)
    (hN : node zi = nodeOfPfn s) (hz : InZone lay b o zi) :
    Rehomed lay managed node s (rehomeBlock zi o s b) cur live := by
  induction o generalizing s b cur with
  | zero =>
    have hnode : OnNode (node zi) b 0 (nodeOfPfn s b) := by
      rw [hN]
      exact onNode_of_blockNode (blockNode_zero s b)
    simp only [rehomeBlock, blockNode_zero]
    exact rehomePush_spec h hz hnode
  | succ o ih =>
    cases hblock : blockNode s b (o + 1) with
    | some nd =>
      simp only [rehomeBlock, hblock]
      exact rehomePush_spec h hz (hN ▸ onNode_of_blockNode hblock)
    | none =>
      simp only [rehomeBlock, hblock]
      obtain ⟨L, hcore, hbal⟩ := h
      have hre1 := ih ⟨L, hcore.split.perm (List.Perm.swap _ _ _), hbal⟩ hN
        fun f hf => hz f (inBlock_succ.mpr (.inl hf))
      have hre2 := ih hre1.holds (hN.trans hre1.same.nodeOfPfn.symm)
        fun f hf => hz f (inBlock_succ.mpr (.inr hf))
      exact hre1.trans hre2 fun c => by rw [held_cons]; omega

theorem rehomeList_spec {l : List ℕ} {p head : ℕ} (n : ℕ)
    (h : Holds lay managed node s (l.map (fun b => (b, o)) ++ cur) live)
    (hN : node zi = nodeOfPfn s) (hz : ∀ b ∈ l, InZone lay b o zi)
    (hl : Linked (s.link · 0) (s.link · 1) 0 p head (l.map pfnToPhys)) (hn : l.length ≤ n) :
    Rehomed lay managed node s (rehomeList zi o n s head) cur live := by
  induction l generalizing s p head n with
  | nil =>
    have hstop : rehomeList zi o n s head = s := by
      obtain rfl : head = 0 := hl
      cases n <;> simp [rehomeList]
    rw [hstop]
    exact h.rehomed
  | cons b l ih =>
    obtain ⟨m, rfl⟩ : ∃ m, n = m + 1 := ⟨n - 1, by simp at hn; omega⟩
    obtain ⟨rfl, hne, _, htail⟩ := hl
    simp only [rehomeList, if_neg hne, physToPfn_pfnToPhys]
    have hre1 := rehomeBlock_spec h hN (hz b mem_cons_self)
    -- the cells behind `b` are still in transit, so their links are as they were
    have hcell : ∀ c ∈ l, 0 < held (l.map (fun b => (b, o)) ++ cur) c + held live c := by
      intro c hc
      have hmem : (c, o) ∈ l.map (fun b => (b, o)) ++ cur := by simp [hc]
      have := held_pos hmem (inBlock_self c o)
      omega
    have htail1 : Linked ((rehomeBlock zi o s b).link · 0) ((rehomeBlock zi o s b).link · 1) 0
        (pfnToPhys b) (s.link (pfnToPhys b) 0) (l.map pfnToPhys) := by
      refine linked_frame htail (fun y hy => ?_) (fun y hy => ?_) <;>
        · obtain ⟨c, hc, rfl⟩ := mem_map.mp hy
          exact hre1.link c _ (hcell c hc)
    refine hre1.trans (ih m hre1.holds (hN.trans hre1.same.nodeOfPfn.symm)
      (fun c hc => hz c (mem_cons_of_mem _ hc)) htail1 (by simp at hn; omega)) fun c => ?_
    exact (Nat.le_add_left _ _).trans_eq (held_append _ cur c).symm

section Zone

def detached (L : FreeLists) (zi : ZoneType) (os : List ℕ) : List (ℕ × ℕ) :=
  os.flatMap fun o => (L (0, zi, o)).map fun b => (b, o)

def without (L : FreeLists) (zi : ZoneType) (os : List ℕ) : FreeLists :=
  fun p => if p.1 = 0 ∧ p.2.1 = zi ∧ p.2.2 ∈ os then [] else L p

theorem without_cons (L : FreeLists) (zi : ZoneType) (o : ℕ) (os : List ℕ) :
    without L zi (o :: os) = update (without L zi os) (0, zi, o) [] := by
  funext ⟨nd, zi', o'⟩
  simp only [without, update_apply, mem_cons, Prod.mk.injEq]
  split_ifs <;> first | rfl | tauto

theorem freeAt_without (L : FreeLists) (zi : ZoneType) (os : List ℕ) (hos : os.Nodup)
    (hle : ∀ o ∈ os, o ≤ buddyMaxOrder) (f : ℕ) :
    freeAt (without L zi os) f + held (detached L zi os) f = freeAt L f := by
  induction os with
  | nil =>
    have hsame : without L zi [] = L := by
      funext p
      simp [without]
    simp [hsame, detached]
  | cons o os ih =>
    obtain ⟨hnot, hos⟩ := nodup_cons.mp hos
    have hplace : (0, zi, o) ∈ places :=
      mem_places_iff.mpr ⟨by decide, hle o mem_cons_self⟩
    have hrec := ih hos fun k hk => hle k (mem_cons_of_mem _ hk)
    have hlist : without L zi os (0, zi, o) = L (0, zi, o) := by simp [without, hnot]
    have hupd : freeAt (update (without L zi os) (0, zi, o) []) f + _ = _ :=
      occ_update hplace [] f
    have hhead : held (detached L zi (o :: os)) f =
        (L (0, zi, o)).countP (fun b => InBlock b o f) + held (detached L zi os) f := by
      rw [detached, flatMap_cons, held_append, held_map]
      rfl
    rw [hlist] at hupd
    simp only [countP_nil, Nat.add_zero] at hupd
    rw [without_cons, hhead]
    unfold freeAt at *
    omega

def orders : List ℕ := List.range (buddyMaxOrder + 1)

theorem mem_orders : o ∈ orders ↔ o ≤ buddyMaxOrder :=
  mem_range.trans Nat.lt_succ_iff

theorem Core.node_zero (h : Core lay managed node s L cur live) (hzero : node zi = fun _ => 0)
    (hb : b ∈ L (nd, zi, o)) : nd = 0 ∧ o ≤ buddyMaxOrder := by
  have hnode := (h.free nd zi o b hb).onNode b (inBlock_self b o)
  rw [hzero] at hnode
  exact ⟨hnode.symm, (mem_places_iff.mp (h.mem_places hb)).2⟩

theorem Core.without_eq_nil (h : Core lay managed node s L cur live) (hzero : node zi = fun _ => 0)
    (nd o : ℕ) : without L zi orders (nd, zi, o) = [] := by
  by_contra hne
  obtain ⟨b, hb⟩ := exists_mem_of_ne_nil _ hne
  simp only [without, true_and] at hb
  split at hb
  · exact absurd hb not_mem_nil
  · next hnot =>
      obtain ⟨hnd, hle⟩ := h.node_zero hzero hb
      exact hnot ⟨hnd, mem_orders.mpr hle⟩

theorem detachZone_zones (s : State) (nd : ℕ) (zi zi' : ZoneType) (hne : ¬(nd = 0 ∧ zi' = zi)) :
    (detachZone s zi).zones nd zi' = s.zones nd zi' := by
  simp [detachZone, hne]

theorem Core.detach {node' : ZoneType → ℕ → ℕ} (h : Core lay managed node s L [] live)
    (hzero : node zi = fun _ => 0) (hother : ∀ zi' ≠ zi, node' zi' = node zi')
    (hnodes : ∀ zi' f, node' zi' f < pmmMaxNodes) :
    Core lay managed node' (detachZone s zi) (without L zi orders) (detached L zi orders) live := by
  have hsub : ∀ p c, c ∈ without L zi orders p → c ∈ L p := by
    intro p c hc
    simp only [without] at hc
    split at hc
    · exact absurd hc not_mem_nil
    · exact hc
  have hsame : ∀ nd zi' o, zi' ≠ zi → without L zi orders (nd, zi', o) = L (nd, zi', o) := by
    intro nd zi' o hne
    simp [without, hne]
  have hempty : ∀ nd o, without L zi orders (nd, zi, o) = [] := h.without_eq_nil hzero
  have hheads : ∀ nd o, ((detachZone s zi).zones nd zi).freeLists o = 0 ∧
      ((detachZone s zi).zones nd zi).nrAtOrder o = 0 := by
    intro nd o
    by_cases hin : nd = 0 ∧ o ≤ buddyMaxOrder
    · simp [detachZone, hin.1, hin.2]
    · have hnil : L (nd, zi, o) = [] := by
        by_contra hne
        obtain ⟨b, hb⟩ := exists_mem_of_ne_nil _ hne
        exact hin (h.node_zero hzero hb)
      have h1 := h.rep.head_eq_zero_iff.mpr hnil
      have h2 := h.rep.nr nd zi o
      rw [hnil] at h2
      simp only [detachZone, modZone_zones]
      split
      · next heq =>
          have ho : ¬o ≤ buddyMaxOrder := fun ho => hin ⟨heq.1, ho⟩
          rw [heq.1] at h1 h2
          simpa [ho] using ⟨h1, h2⟩
      · exact ⟨h1, h2⟩
  refine ⟨⟨fun nd zi' o => ?_, fun nd zi' o => ?_, fun p q c hp hq =>
      h.rep.apart p q c (hsub p c hp) (hsub q c hq)⟩, fun p hp => ?_, fun f => ?_,
    fun nd zi' o c hc => ?_, fun x hx => ?_, h.used, h.unmanaged, h.zero, hnodes⟩
  · by_cases hz : zi' = zi
    · subst hz
      rw [hempty, (hheads nd o).1]
      rfl
    · rw [hsame _ _ _ hz, detachZone_zones s nd zi zi' (fun heq => hz heq.2)]
      exact h.rep.linked nd zi' o
  · by_cases hz : zi' = zi
    · subst hz
      rw [hempty, (hheads nd o).2]
      rfl
    · rw [hsame _ _ _ hz, detachZone_zones s nd zi zi' (fun heq => hz heq.2)]
      exact h.rep.nr nd zi' o
  · obtain ⟨c, hc⟩ := exists_mem_of_ne_nil _ hp
    exact h.place p (ne_nil_of_mem (hsub p c hc))
  · have hp := h.partition f
    have hw := freeAt_without L zi orders nodup_range (fun o ho => mem_orders.mp ho) f
    rw [held_nil] at hp
    omega
  · have hz : zi' ≠ zi := by
      rintro rfl
      rw [hempty] at hc
      exact absurd hc not_mem_nil
    have hfb := h.free nd zi' o c (hsub _ c hc)
    exact ⟨hfb.aligned, hfb.inZone, by rw [hother zi' hz]; exact hfb.onNode, hfb.tagged⟩
  · rcases mem_append.mp hx with hx | hx
    · obtain ⟨o, ho, hxo⟩ := mem_flatMap.mp hx
      obtain ⟨c, hc, rfl⟩ := mem_map.mp hxo
      have hfb := h.free 0 zi o c hc
      exact ⟨mem_orders.mp ho, hfb.aligned, zi, hfb.inZone⟩
    · exact h.block x (by simpa using hx)

theorem Balanced.detach (h : Core lay managed node s L [] live) (hbal : Balanced s L)
    (hzero : node zi = fun _ => 0) : Balanced (detachZone s zi) (without L zi orders) := by
  intro nd zi'
  by_cases hz : zi' = zi
  · subst hz
    have hsize : freeSize (without L zi' orders) nd zi' = 0 := by
      simp [freeSize, h.without_eq_nil hzero]
    rw [hsize]
    by_cases hnd : nd = 0
    · simp [detachZone, hnd]
    · rw [detachZone_zones s nd zi' zi' (fun heq => hnd heq.1), hbal nd zi']
      refine Finset.sum_eq_zero fun o _ => ?_
      have hnil : L (nd, zi', o) = [] := by
        by_contra hne
        obtain ⟨b, hb⟩ := exists_mem_of_ne_nil _ hne
        exact hnd (h.node_zero hzero hb).1
      simp [hnil]
  · rw [detachZone_zones s nd zi zi' (fun heq => hz heq.2), hbal nd zi']
    refine Finset.sum_congr rfl fun o _ => ?_
    simp [without, hz]

theorem rehomeOrders_spec {L0 : FreeLists} {heads : ℕ → ℕ} (n : ℕ) (os : List ℕ)
    (h : Holds lay managed node s (detached L0 zi os) live)
    (hN : node zi = nodeOfPfn s) (hz : ∀ o ∈ os, ∀ b ∈ L0 (0, zi, o), InZone lay b o zi)
    (hl : ∀ o ∈ os, Linked (s.link · 0) (s.link · 1) 0 0 (heads o) ((L0 (0, zi, o)).map pfnToPhys))
    (hn : ∀ o ∈ os, (L0 (0, zi, o)).length ≤ n) :
    Rehomed lay managed node s (os.foldl (fun s o => rehomeList zi o n s (heads o)) s) [] live := by
  induction os generalizing s with
  | nil => exact h.rehomed
  | cons o os ih =>
    have hsplit : detached L0 zi (o :: os) =
        (L0 (0, zi, o)).map (fun b => (b, o)) ++ detached L0 zi os := flatMap_cons
    rw [hsplit] at h
    have hre := rehomeList_spec n h hN (hz o mem_cons_self) (hl o mem_cons_self)
      (hn o mem_cons_self)
    have hrest := ih hre.holds (hN.trans hre.same.nodeOfPfn.symm)
      (fun k hk => hz k (mem_cons_of_mem _ hk))
      (fun k hk => by
        refine linked_frame (hl k (mem_cons_of_mem _ hk)) (fun y hy => ?_) (fun y hy => ?_) <;>
          · obtain ⟨c, hc, rfl⟩ := mem_map.mp hy
            have hmem : (c, k) ∈ detached L0 zi os :=
              mem_flatMap.mpr ⟨k, hk, mem_map_of_mem hc⟩
            have hheld := held_pos hmem (inBlock_self c k)
            exact hre.link c _ (by omega))
      (fun k hk => hn k (mem_cons_of_mem _ hk))
    exact hre.trans hrest fun c => by simp

theorem Core.length_le (h : Core lay managed node s L cur live) (nd : ℕ) (zi : ZoneType) (o : ℕ) :
    (L (nd, zi, o)).length ≤ lay.nrFrames := by
  have hsub : L (nd, zi, o) ⊆ range lay.nrFrames := by
    intro b hb
    have hzone := (h.free nd zi o b hb).inZone b (inBlock_self b o)
    exact mem_range.mpr ((zoneOfPfn_eq_some_iff lay b zi).mp hzone).1.1
  simpa using ((h.rep.nodup (nd, zi, o)).subperm hsub).length_le

theorem rehomeZone_spec (top : ℕ) (h : Holds lay managed node s [] live)
    (hzero : node zi = fun _ => 0) (hnodes : ∀ f, nodeOfPfn s f < pmmMaxNodes) :
    Rehomed lay managed (update node zi (nodeOfPfn s)) s (rehomeZone lay top s zi) [] live := by
  obtain ⟨L, h, hbal⟩ := h
  have hdetach : Core lay managed (update node zi (nodeOfPfn s)) (detachZone s zi)
      (without L zi orders) (detached L zi orders) live := by
    refine h.detach hzero (fun zi' hne => update_of_ne hne _ _) (fun zi' f => ?_)
    by_cases hz : zi' = zi
    · subst hz
      rw [update_self]
      exact hnodes f
    · rw [update_of_ne hz]
      exact h.nodes zi' f
  have hholds : Holds lay managed (update node zi (nodeOfPfn s))
      { detachZone s zi with nrNodes := top + 1 } (detached L zi orders) live :=
    ⟨_, hdetach.same ⟨rfl, rfl, fun _ _ => ⟨rfl, rfl⟩⟩, Balanced.detach h hbal hzero⟩
  have hzone : ∀ o ∈ orders, ∀ b ∈ L (0, zi, o), InZone lay b o zi :=
    fun o _ b hb => (h.free 0 zi o b hb).inZone
  obtain ⟨hholds', hsame, hlink⟩ := rehomeOrders_spec lay.nrFrames orders hholds
    (update_self _ _ _) hzone (fun o _ => h.rep.linked 0 zi o) (fun o _ => h.length_le 0 zi o)
  exact ⟨hholds', ⟨hsame.nrng, hsame.numaLive, hsame.numaCommitted⟩, hlink⟩

end Zone

theorem rehomeZones_spec (top : ℕ) (zs : List ZoneType) (hzs : zs.Nodup)
    (h : Holds lay managed node s [] live)
    (hzero : ∀ zi ∈ zs, node zi = fun _ => 0) (hnodes : ∀ f, nodeOfPfn s f < pmmMaxNodes) :
    ∃ node', (∀ zi, node' zi = if zi ∈ zs then nodeOfPfn s else node zi) ∧
      Rehomed lay managed node' s (zs.foldl (rehomeZone lay top) s) [] live := by
  induction zs generalizing s node with
  | nil => exact ⟨node, fun zi => by simp, h.rehomed⟩
  | cons zi zs ih =>
    obtain ⟨hnot, hzs⟩ := nodup_cons.mp hzs
    obtain ⟨hholds1, hsame1, hlink1⟩ := rehomeZone_spec top h (hzero zi mem_cons_self) hnodes
    have hnode1 := hsame1.nodeOfPfn
    obtain ⟨node', hnode', hholds', hsame', hlink'⟩ := ih hzs hholds1
      (fun zi' hzi' => by
        rw [update_of_ne (ne_of_mem_of_not_mem hzi' hnot)]
        exact hzero zi' (mem_cons_of_mem _ hzi'))
      (by rw [hnode1]; exact hnodes)
    refine ⟨node', fun zi' => ?_, hholds', hsame1.trans hsame', fun c slot hc =>
      (hlink' c slot hc).trans (hlink1 c slot hc)⟩
    rw [hnode', hnode1]
    by_cases heq : zi' = zi
    · simp [heq]
    · simp [heq]

structure Recounted (s s' : State) : Prop extends Keeps s s', SameLists s s'

theorem Recounted.trans {t : State} (h : Recounted s t) (h' : Recounted t s') : Recounted s s' where
  toKeeps := h.toKeeps.trans h'.toKeeps
  link := h'.link.trans h.link
  pageState := h'.pageState.trans h.pageState
  zone nd zi := ⟨(h'.zone nd zi).1.trans (h.zone nd zi).1, (h'.zone nd zi).2.trans (h.zone nd zi).2⟩

theorem Recounted.refl (s : State) : Recounted s s :=
  ⟨Keeps.refl s, ⟨rfl, rfl, fun _ _ => ⟨rfl, rfl⟩⟩⟩

def recountFrame (lay : Layout) (s : State) (pfn : ℕ) : State :=
  if s.pageState pfn = psNone then s
  else
    match zoneOfPfn lay pfn with
    | none => s
    | some zi => s.addManaged (nodeOfPfn s pfn) zi 1

theorem recountManaged_spec (lay : Layout) (s : State) : Recounted s (recountManaged lay s) := by
  have hfold : ∀ (l : List ℕ) (t : State), Recounted t (l.foldl (recountFrame lay) t) := by
    intro l
    induction l with
    | nil => exact Recounted.refl
    | cons pfn l ih =>
      intro t
      refine Recounted.trans ?_ (ih _)
      unfold recountFrame
      split
      · exact Recounted.refl t
      · split
        · exact Recounted.refl t
        · exact ⟨⟨⟨rfl, rfl, rfl⟩, fun _ _ => addManaged_freeFrames ..⟩, addManaged_sameLists ..⟩
  refine Recounted.trans ?_ (hfold _ _)
  refine ⟨⟨⟨rfl, rfl, rfl⟩, fun nd' zi' => ?_⟩, ⟨rfl, rfl, fun nd' zi' => ?_⟩⟩
  · dsimp only
    split <;> rfl
  · dsimp only
    split <;> exact ⟨rfl, rfl⟩

theorem pmmNumaCommit_spec (h : Holds lay managed (fun _ => nodeOfPfn s) s [] live)
    (hranges : ∀ r ∈ s.nrng, r.node < pmmMaxNodes)
    (hlive : s.numaLive = true → s.numaCommitted = true) :
    Holds lay managed (fun _ => nodeOfPfn (pmmNumaCommit lay s)) (pmmNumaCommit lay s) [] live ∧
      (∀ r ∈ (pmmNumaCommit lay s).nrng, r.node < pmmMaxNodes) ∧
      (pmmNumaCommit lay s).numaCommitted = true := by
  unfold pmmNumaCommit
  by_cases hdone : s.numaCommitted = true
  · rw [if_pos hdone]
    exact ⟨h, hranges, hdone⟩
  · rw [if_neg hdone]
    have hnot : s.numaLive = false := by
      cases hl : s.numaLive with
      | false => rfl
      | true => exact absurd (hlive hl) hdone
    have hzero : nodeOfPfn s = fun _ => 0 := funext fun f => nodeOfPfn_of_not_live hnot f
    dsimp only
    split
    · have hsame : nodeOfPfn { s with numaCommitted := true, nrng := [] } = nodeOfPfn s := by
        funext f
        simp [nodeOfPfn, hnot]
      refine ⟨?_, by simp, rfl⟩
      rw [hsame]
      exact h.same ⟨rfl, rfl, fun _ _ => ⟨rfl, rfl⟩⟩ fun _ _ => rfl
    · rw [hzero] at h
      have hholds : Holds lay managed (fun _ _ => 0)
          { s with numaCommitted := true, numaLive := true } [] live :=
        h.same ⟨rfl, rfl, fun _ _ => ⟨rfl, rfl⟩⟩ fun _ _ => rfl
      obtain ⟨node', hnode', hre⟩ := rehomeZones_spec (topNode s.nrng)
        [.dma, .dma32, .normal, .highmem] (by decide) hholds (fun _ _ => rfl)
        (nodeOfPfn_lt hranges)
      generalize foldl (rehomeZone lay (topNode s.nrng))
        { s with numaCommitted := true, numaLive := true }
        [.dma, .dma32, .normal, .highmem] = t at *
      have hcount := recountManaged_spec lay t
      have hall := hre.same.trans hcount.toSameNuma
      have hnodes : (fun _ : ZoneType => nodeOfPfn (recountManaged lay t)) = node' := by
        funext zi
        rw [hnode', if_pos (by cases zi <;> decide)]
        exact hall.nodeOfPfn
      refine ⟨?_, ?_, ?_⟩
      · rw [hnodes]
        exact hre.holds.same hcount.toSameLists hcount.freeFrames
      · rw [hall.nrng]
        exact hranges
      · rw [hall.numaCommitted]

end DosKernel.Pmm

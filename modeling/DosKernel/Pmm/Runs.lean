import DosKernel.Lib.Run
import DosKernel.Pmm.Commit

namespace DosKernel.Pmm

open DosKernel.Lib

-- The allocator together with the blocks its callers hold, as frame number and order.
structure Sys where
  pmm : State
  live : List (ℕ × ℕ)

inductive Call where
  | allocNode (order zoneHint node : ℤ)
  | allocBelow (order : ℤ) (limit : ℕ)
  | free (phys order : ℕ)
  | numaAddRange (base len : ℕ) (node : ℤ)
  | numaCommit
  | write (pfn slot value : ℕ)

def Sys.hold (live : List (ℕ × ℕ)) (order : ℤ) (r : State × ℕ) : Sys :=
  ⟨r.1, if r.2 = 0 then live else (physToPfn r.2, order.toNat) :: live⟩

def Sys.step (lay : Layout) (sys : Sys) : Call → Sys
  | .allocNode order zoneHint node =>
    Sys.hold sys.live order (pageAllocNode sys.pmm order zoneHint node)
  | .allocBelow order limit => Sys.hold sys.live order (pageAllocBelow lay sys.pmm order limit)
  | .free phys order =>
    ⟨pageFree lay sys.pmm phys order, sys.live.erase (physToPfn phys, order)⟩
  | .numaAddRange base len node => ⟨(pmmNumaAddRange lay sys.pmm base len node).1, sys.live⟩
  | .numaCommit => ⟨pmmNumaCommit lay sys.pmm, sys.live⟩
  | .write pfn slot value => ⟨linkStoreAt sys.pmm (pfnToPhys pfn) slot value, sys.live⟩

def Legal (sys : Sys) : Call → Prop
  | .free phys order => phys % pmmFrameSize = 0 ∧ (physToPfn phys, order) ∈ sys.live
  | .write pfn _ _ => ∃ x ∈ sys.live, InBlock x.1 x.2 pfn
  | _ => True

instance decidableLegal (sys : Sys) : (call : Call) → Decidable (Legal sys call)
  | .free phys order =>
    inferInstanceAs (Decidable (phys % pmmFrameSize = 0 ∧ (physToPfn phys, order) ∈ sys.live))
  | .write pfn _ _ => inferInstanceAs (Decidable (∃ x ∈ sys.live, InBlock x.1 x.2 pfn))
  | .allocNode _ _ _ | .allocBelow _ _ | .numaAddRange _ _ _ | .numaCommit =>
    inferInstanceAs (Decidable True)

def Ordinary (sys : Sys) : Call → Prop
  | .allocBelow _ _ => False
  | call => Legal sys call

instance decidableOrdinary (sys : Sys) : (call : Call) → Decidable (Ordinary sys call)
  | .allocBelow _ _ => inferInstanceAs (Decidable False)
  | .free phys order => decidableLegal sys (.free phys order)
  | .write pfn slot value => decidableLegal sys (.write pfn slot value)
  | .allocNode _ _ _ | .numaAddRange _ _ _ | .numaCommit => inferInstanceAs (Decidable True)

-- A block that is freed has all its frames on the node of the first one.
def FreesOneNode (sys : Sys) : Call → Prop
  | .free phys order =>
    OnNode (nodeOfPfn sys.pmm) (physToPfn phys) order (nodeOfPfn sys.pmm (physToPfn phys))
  | _ => True

-- Free and held blocks partition the managed frames, free ones are aligned, in one zone and on one
-- node, lists are linked with their blocks tagged, and the counters are exact.
structure Consistent (lay : Layout) (managed : ℕ → Bool) (sys : Sys) (L : FreeLists) : Prop where
  lists : Represents sys.pmm L
  place : ∀ p, L p ≠ [] → p ∈ places
  partition : ∀ f, freeAt L f + held sys.live f = if managed f then 1 else 0
  block : ∀ nd zi o b, b ∈ L (nd, zi, o) → FreeBlock lay (nodeOfPfn sys.pmm) sys.pmm nd zi o b
  freeFrames : ∀ nd zi, (sys.pmm.zones nd zi).freeFrames =
    ∑ o ∈ Finset.range (buddyMaxOrder + 1), (sys.pmm.zones nd zi).nrAtOrder o * 2 ^ o

def BuddyInvariant (lay : Layout) (managed : ℕ → Bool) (sys : Sys) : Prop :=
  ∃ L, Consistent lay managed sys L

structure SysInv (lay : Layout) (managed : ℕ → Bool) (sys : Sys) : Prop where
  holds : Holds lay managed (fun _ => nodeOfPfn sys.pmm) sys.pmm [] sys.live
  ranges : ∀ r ∈ sys.pmm.nrng, r.node < pmmMaxNodes
  committed : sys.pmm.numaLive = true → sys.pmm.numaCommitted = true

theorem SysInv.buddyInvariant {lay : Layout} {managed : ℕ → Bool} {sys : Sys}
    (h : SysInv lay managed sys) : BuddyInvariant lay managed sys := by
  obtain ⟨L, hcore, hbal⟩ := h.holds
  refine ⟨L, hcore.rep, hcore.place, fun f => ?_, hcore.free, fun nd zi => ?_⟩
  · simpa using hcore.partition f
  · rw [hbal nd zi]
    exact Finset.sum_congr rfl fun o _ => by rw [hcore.rep.nr nd zi o]

section Step

variable {lay : Layout} {managed : ℕ → Bool} {sys : Sys}

theorem SysInv.of_same (h : SysInv lay managed sys) {s' : State} {live' : List (ℕ × ℕ)}
    (hsame : SameNuma sys.pmm s')
    (hholds : Holds lay managed (fun _ => nodeOfPfn sys.pmm) s' [] live') :
    SysInv lay managed ⟨s', live'⟩ where
  holds := by
    rw [hsame.nodeOfPfn]
    exact hholds
  ranges := by
    rw [hsame.nrng]
    exact h.ranges
  committed := by
    rw [hsame.numaLive, hsame.numaCommitted]
    exact h.committed

theorem SysInv.allocated (h : SysInv lay managed sys) {s' : State} {pfn : ℕ} {order : ℤ}
    (ha : Allocated lay managed (fun _ => nodeOfPfn sys.pmm) sys.pmm s' sys.live pfn order.toNat) :
    SysInv lay managed (Sys.hold sys.live order (s', pfnToPhys pfn)) := by
  have hne : pfnToPhys pfn ≠ 0 := fun h0 => ha.ne_zero (pfnToPhys_eq_zero.mp h0)
  simp only [Sys.hold, if_neg hne, physToPfn_pfnToPhys]
  exact h.of_same ha.same ha.holds

theorem pmmNumaAddRange_spec (h : SysInv lay managed sys) (base len : ℕ) (node : ℤ) :
    SysInv lay managed ⟨(pmmNumaAddRange lay sys.pmm base len node).1, sys.live⟩ := by
  unfold pmmNumaAddRange
  split
  · exact h
  · next hguard =>
      split
      · exact h
      · dsimp only
        split
        · exact h
        · split
          · exact h
          · have hnot : sys.pmm.numaLive = false := by
              by_contra hl
              exact hguard (.inl (h.committed (by simpa using hl)))
            have hnode : ∀ r, nodeOfPfn { sys.pmm with nrng := sys.pmm.nrng ++ [r] } =
                nodeOfPfn sys.pmm := fun r => funext fun f => by simp [nodeOfPfn, hnot]
            refine ⟨?_, ?_, h.committed⟩
            · rw [hnode]
              exact h.holds.same ⟨rfl, rfl, fun _ _ => ⟨rfl, rfl⟩⟩ fun _ _ => rfl
            · intro r hr
              rcases List.mem_append.mp hr with hr | hr
              · exact h.ranges r hr
              · rw [List.mem_singleton.mp hr]
                simp only [pmmMaxNodes] at hguard ⊢
                omega

theorem Core.write {node : ZoneType → ℕ → ℕ} {s : State} {L : FreeLists} {live : List (ℕ × ℕ)}
    {x : ℕ × ℕ} {pfn : ℕ} (h : Core lay managed node s L [] live) (hx : x ∈ live)
    (hin : InBlock x.1 x.2 pfn) (slot value : ℕ) :
    Core lay managed node (linkStoreAt s (pfnToPhys pfn) slot value) L [] live := by
  have hfresh := h.fresh (Nat.lt_add_left (held [] pfn) (held_pos hx hin))
  refine h.congr ⟨fun nd zi o => ?_, h.rep.nr, h.rep.apart⟩ rfl
  refine linked_frame (h.rep.linked nd zi o) (fun y hy => ?_) (fun y hy => ?_) <;>
    · obtain ⟨b, hb, rfl⟩ := List.mem_map.mp hy
      have hne : pfnToPhys b ≠ pfnToPhys pfn := fun heq =>
        hfresh _ (pfnToPhys_injective heq ▸ hb)
      simp [linkStoreAt, hne]

theorem step_inv (call : Call) (h : SysInv lay managed sys) (hok : Ordinary sys call)
    (hcond : FreesOneNode sys call) : SysInv lay managed (sys.step lay call) := by
  obtain ⟨L, hcore, hbal⟩ := h.holds
  cases call with
  | allocNode order zoneHint node =>
    rcases pageAllocNode_spec h.holds order zoneHint node with hfail | ⟨s', pfn, heq, ha⟩
    · simpa only [Sys.step, hfail, Sys.hold, if_true] using h
    · simpa only [Sys.step, heq] using h.allocated ha
  | allocBelow order limit => exact absurd hok id
  | free phys order =>
    obtain ⟨hmod, hmem⟩ := hok
    have hphys := pfnToPhys_physToPfn hmod
    have hfreed := pageFree_inv hcore (fun _ => rfl) hbal hmem hcond
    have hsame := pageFree_same hcore (fun _ => rfl) hmem
    rw [hphys] at hfreed hsame
    exact h.of_same hsame hfreed
  | numaAddRange base len node => exact pmmNumaAddRange_spec h base len node
  | numaCommit =>
    obtain ⟨hholds, hranges, hdone⟩ := pmmNumaCommit_spec h.holds h.ranges h.committed
    exact ⟨hholds, hranges, fun _ => hdone⟩
  | write pfn slot value =>
    obtain ⟨x, hx, hin⟩ := hok
    exact h.of_same ⟨rfl, rfl, rfl⟩ ⟨L, hcore.write hx hin slot value, hbal⟩

theorem freesOneNode_of_step (call : Call) (h : SysInv lay managed sys) (hok : Ordinary sys call)
    (h' : BuddyInvariant lay managed (sys.step lay call)) : FreesOneNode sys call := by
  obtain ⟨L, hcore, hbal⟩ := h.holds
  cases call with
  | free phys order =>
    obtain ⟨hmod, hmem⟩ := hok
    have hphys := pfnToPhys_physToPfn hmod
    obtain ⟨L', hL'⟩ := h'
    have hsame := pageFree_same hcore (fun _ => rfl) hmem
    refine onNode_of_pageFree hcore (fun _ => rfl) hmem (by rw [hphys]; exact hL'.lists)
      (fun nd zi o b hb f hf => ?_)
    rw [← hsame.nodeOfPfn, hphys]
    exact (hL'.block nd zi o b hb).onNode f hf
  | _ => trivial

end Step

def start (lay : Layout) (usable : ℕ → Bool) (seedTo : ℕ) : Sys :=
  ⟨seededState lay usable seedTo, []⟩

-- `pmm_init` never marks frame 0 usable and seeds up to a bound inside the managed span.
structure Boot (lay : Layout) (usable : ℕ → Bool) (seedTo : ℕ) : Prop where
  zero : usable 0 = false
  base_le : lay.pfnBase ≤ seedTo
  le_frames : seedTo ≤ lay.nrFrames

theorem start_inv {lay : Layout} {usable : ℕ → Bool} {seedTo : ℕ} (h : Boot lay usable seedTo) :
    SysInv lay (managedFrames lay usable) (start lay usable seedTo) := by
  obtain ⟨hholds, hsame⟩ := seededState_spec lay usable seedTo h.zero h.base_le h.le_frames
  refine ⟨?_, ?_, ?_⟩
  · rw [start, hsame.nodeOfPfn]
    exact hholds
  · simp only [start, hsame.nrng]
    exact fun r hr => absurd hr List.not_mem_nil
  · simp only [start, hsame.numaLive]
    exact fun h => absurd h Bool.false_ne_true

-- Over every run of the ordinary interface the allocator keeps its promise exactly as long as no
-- block that straddles two nodes, allocated before the ranges were committed, is freed.
theorem buddyInvariant_always_iff (lay : Layout) (usable : ℕ → Bool) (seedTo : ℕ)
    (hboot : Boot lay usable seedTo) (calls : List Call)
    (hok : Allowed (Sys.step lay) Ordinary (start lay usable seedTo) calls) :
    Always (Sys.step lay) (BuddyInvariant lay (managedFrames lay usable))
        (start lay usable seedTo) calls ↔
      Allowed (Sys.step lay) FreesOneNode (start lay usable seedTo) calls :=
  always_iff_allowed (fun _ call h => step_inv call h) (fun _ h => h.buddyInvariant)
    (fun _ call h => freesOneNode_of_step call h) (start_inv hboot) hok

def smallLayout : Layout := ⟨8, 0, 8, by decide, by decide, .inr rfl⟩

def smallUsable (f : ℕ) : Bool := decide (2 ≤ f ∧ f < 4)

theorem smallBoot : Boot smallLayout smallUsable 8 := ⟨by decide, by decide, by decide⟩

def frameCalls : List Call :=
  [.allocNode 0 (-1) 0, .numaAddRange 12288 4096 1, .numaCommit, .free 8192 0]

theorem frameCalls_invariant :
    Allowed (Sys.step smallLayout) Ordinary (start smallLayout smallUsable 8) frameCalls ∧
      Always (Sys.step smallLayout) (BuddyInvariant smallLayout (managedFrames smallLayout smallUsable))
        (start smallLayout smallUsable 8) frameCalls := by
  have hok : Allowed (Sys.step smallLayout) Ordinary (start smallLayout smallUsable 8) frameCalls := by
    decide
  refine ⟨hok, (buddyInvariant_always_iff _ _ _ smallBoot _ hok).mpr ⟨trivial, trivial, trivial, ?_,
    trivial⟩⟩
  intro f hf
  rw [inBlock_zero.mp hf]

-- A block of frames 2 and 3, of which 3 is on node 1, is freed to the list of node 0.
def straddlingCalls : List Call :=
  [.allocNode 1 (-1) 0, .numaAddRange 12288 4096 1, .numaCommit, .free 8192 1]

theorem straddlingCalls_not_invariant :
    Boot smallLayout smallUsable 8 ∧
      Allowed (Sys.step smallLayout) Ordinary (start smallLayout smallUsable 8) straddlingCalls ∧
      ¬BuddyInvariant smallLayout (managedFrames smallLayout smallUsable)
        (run (Sys.step smallLayout) (start smallLayout smallUsable 8) straddlingCalls) := by
  refine ⟨smallBoot, by decide, ?_⟩
  rintro ⟨L, hL⟩
  have hhead : ((run (Sys.step smallLayout) (start smallLayout smallUsable 8)
      straddlingCalls).pmm.zones 0 .dma).freeLists 1 = pfnToPhys 2 := by decide
  have hmem : 2 ∈ L (0, .dma, 1) := hL.lists.mem_of_head (by decide) hhead
  have hzero := (hL.block 0 .dma 1 2 hmem).onNode 3 (by decide)
  exact absurd hzero (by decide)

end DosKernel.Pmm

import DosKernel.Pmm.Runs

namespace DosKernel.Pmm

open DosKernel.Lib List

variable {lay : Layout} {managed : ℕ → Bool} {node : ZoneType → ℕ → ℕ} {s s' : State}
  {L : FreeLists} {live : List (ℕ × ℕ)} {nd : ℕ} {zi : ZoneType} {b o order limit : ℕ}

def EndsBelow (order limit phys : ℕ) : Prop := phys + pmmFrameSize * 2 ^ order - 1 ≤ limit

theorem scanBelow_spec (h : Represents s L) {l : List ℕ} {p cur : ℕ} (n : ℕ)
    (hl : Linked (s.link · 0) (s.link · 1) 0 p cur (l.map pfnToPhys))
    (hsub : ∀ b ∈ l, b ∈ L (nd, zi, o)) (hn : l.length ≤ n) :
    (scanBelow nd zi order o limit n s cur = none ∧ ∀ b ∈ l, ¬EndsBelow order limit (pfnToPhys b)) ∨
    ∃ b ∈ l, ∃ t, EndsBelow order limit (pfnToPhys b) ∧ zoneRemove s nd zi b o = some t ∧
      scanBelow nd zi order o limit n s cur = some (splitDown nd zi order o t b, pfnToPhys b) := by
  induction l generalizing p cur n with
  | nil =>
    obtain rfl : cur = 0 := hl
    refine .inl ⟨?_, fun b hb => absurd hb not_mem_nil⟩
    cases n <;> simp [scanBelow]
  | cons b l ih =>
    obtain ⟨m, rfl⟩ : ∃ m, n = m + 1 := ⟨n - 1, by simp at hn; omega⟩
    obtain ⟨rfl, hne, _, htail⟩ := hl
    simp only [scanBelow, if_neg hne, physToPfn_pfnToPhys]
    by_cases hfit : EndsBelow order limit (pfnToPhys b)
    · obtain ⟨t, ht⟩ := zoneRemove_isSome h (hsub b mem_cons_self)
      refine .inr ⟨b, mem_cons_self, t, hfit, ht, ?_⟩
      rw [if_neg (Nat.not_lt.mpr hfit), ht]
    · rw [if_pos (Nat.lt_of_not_le hfit)]
      rcases ih m htail (fun c hc => hsub c (mem_cons_of_mem _ hc)) (by simp at hn; omega)
        with ⟨hnone, hall⟩ | ⟨c, hc, t, hc'⟩
      · refine .inl ⟨hnone, fun c hc => ?_⟩
        rcases mem_cons.mp hc with rfl | hc
        · exact hfit
        · exact hall c hc
      · exact .inr ⟨c, mem_cons_of_mem _ hc, t, hc'⟩

theorem scanBelow_endsBelow {n cur phys : ℕ}
    (h : scanBelow nd zi order o limit n s cur = some (s', phys)) : EndsBelow order limit phys := by
  induction n generalizing cur with
  | zero => cases h
  | succ n ih =>
    simp only [scanBelow] at h
    split at h
    · cases h
    · split at h
      · exact ih h
      · next hle =>
          split at h
          · exact ih h
          · cases h
            exact Nat.le_of_not_lt hle

theorem allocBelowFrom_endsBelow (lay : Layout) (order limit : ℕ)
    (cands : List (ℕ × ZoneType × ℕ)) (s : State) :
    (allocBelowFrom lay order limit cands s).2 = 0 ∨
      EndsBelow order limit (allocBelowFrom lay order limit cands s).2 := by
  induction cands with
  | nil => exact .inl rfl
  | cons c cands ih =>
    simp only [allocBelowFrom]
    split
    · exact ih
    · next r hr => exact .inr (scanBelow_endsBelow hr)

def Fits (s : State) (order : ℤ) (limit : ℕ) : Prop :=
  0 ≤ order ∧ ∃ L nd zi o b, Represents s L ∧ nd < s.nrNodes ∧ zi ≠ .highmem ∧
    order.toNat ≤ o ∧ o ≤ buddyMaxOrder ∧ b ∈ L (nd, zi, o) ∧
    EndsBelow order.toNat limit (pfnToPhys b)

theorem mem_belowCandidates :
    (nd, zi, o) ∈ belowCandidates s order ↔
      nd < s.nrNodes ∧ zi ≠ .highmem ∧ order ≤ o ∧ o ≤ buddyMaxOrder := by
  simp only [belowCandidates, mem_flatMap, mem_map, mem_range, mem_range'_1,
    Prod.mk.injEq]
  constructor
  · rintro ⟨zi', hzi', nd', hnd', o', ho', rfl, rfl, rfl⟩
    refine ⟨hnd', ?_, by omega, by omega⟩
    rintro rfl
    simp at hzi'
  · rintro ⟨hnd, hzi, h1, h2⟩
    refine ⟨zi, ?_, nd, hnd, o, by omega, rfl, rfl, rfl⟩
    cases zi <;> simp at hzi ⊢

structure Taken (lay : Layout) (managed : ℕ → Bool) (node : ZoneType → ℕ → ℕ) (s s' : State)
    (L : FreeLists) (live : List (ℕ × ℕ)) (b order : ℕ) : Prop where
  core : ∃ L' nd zi, Core lay managed node s' L' [(b, order)] live ∧ Shift L L' nd zi 0 (2 ^ order)
  keeps : Keeps s s'

theorem allocBelowFrom_spec (limit : ℕ) (h : Core lay managed node s L [] live)
    (cands : List (ℕ × ZoneType × ℕ))
    (hcands : ∀ nd zi o, (nd, zi, o) ∈ cands → order ≤ o) :
    (allocBelowFrom lay order limit cands s = (s, 0) ∧ ∀ nd zi o, (nd, zi, o) ∈ cands →
      ∀ b ∈ L (nd, zi, o), ¬EndsBelow order limit (pfnToPhys b)) ∨
    ∃ nd zi o b s', (nd, zi, o) ∈ cands ∧ b ∈ L (nd, zi, o) ∧
      EndsBelow order limit (pfnToPhys b) ∧
      allocBelowFrom lay order limit cands s = (s', pfnToPhys b) ∧
      Taken lay managed node s s' L live b order := by
  induction cands with
  | nil => exact .inl ⟨rfl, fun nd zi o hmem => absurd hmem not_mem_nil⟩
  | cons c cands ih =>
    obtain ⟨nd, zi, o⟩ := c
    simp only [allocBelowFrom]
    rcases scanBelow_spec h.rep lay.nrFrames (h.rep.linked nd zi o) (fun b hb => hb)
      (h.length_le nd zi o) with ⟨hnone, hall⟩ | ⟨b, hb, t, hfit, ht, heq⟩
    · rw [hnone]
      rcases ih (fun nd zi o hmem => hcands nd zi o (mem_cons_of_mem _ hmem)) with
        ⟨hfail, hno⟩ | ⟨nd', zi', o', b, s', hmem, hrest⟩
      · refine .inl ⟨hfail, fun nd' zi' o' hmem => ?_⟩
        rcases mem_cons.mp hmem with heq | hmem
        · cases heq
          exact hall
        · exact hno nd' zi' o' hmem
      · exact .inr ⟨nd', zi', o', b, s', mem_cons_of_mem _ hmem, hrest⟩
    · rw [heq]
      have hfree := h.free nd zi o b hb
      have hle := (mem_places_iff.mp (h.mem_places hb)).2
      obtain ⟨L', hcore, hkeeps, hshift⟩ := splitDown_spec order (h.take hb ht)
        (hcands nd zi o mem_cons_self) hfree.inZone hfree.onNode
      refine .inr ⟨nd, zi, o, b, _, mem_cons_self, hb, hfit, rfl,
        ⟨L', nd, zi, hcore, ?_⟩, (zoneRemove_eq_some ht).1.trans hkeeps⟩
      exact ((shift_erase hle hb).trans hshift).change (by omega)

theorem pageAllocBelow_spec (order : ℤ) (limit : ℕ) (h : Core lay managed node s L [] live) :
    (pageAllocBelow lay s order limit = (s, 0) ∧ ¬Fits s order limit) ∨
    ∃ s' b, pageAllocBelow lay s order limit = (s', pfnToPhys b) ∧ b ≠ 0 ∧
      Fits s order limit ∧ Taken lay managed node s s' L live b order.toNat := by
  unfold pageAllocBelow
  by_cases hguard : order < 0 ∨ (buddyMaxOrder : ℤ) < order
  · rw [if_pos hguard]
    refine .inl ⟨rfl, ?_⟩
    rintro ⟨h0, L', nd, zi, o, b, _, _, _, h1, h2, _⟩
    omega
  · rw [if_neg hguard]
    rcases allocBelowFrom_spec limit h (belowCandidates s order.toNat)
      (fun nd zi o hmem => (mem_belowCandidates.mp hmem).2.2.1) with
      ⟨hfail, hno⟩ | ⟨nd, zi, o, b, s', hmem, hb, hfit, heq, htaken⟩
    · refine .inl ⟨hfail, ?_⟩
      rintro ⟨h0, L', nd, zi, o, b, hrep, hnd, hzi, h1, h2, hb, hends⟩
      rw [hrep.unique h.rep] at hb
      exact hno nd zi o (mem_belowCandidates.mpr ⟨hnd, hzi, h1, h2⟩) b hb hends
    · obtain ⟨hnd, hzi, h1, h2⟩ := mem_belowCandidates.mp hmem
      exact .inr ⟨s', b, heq, h.rep.ne_zero hb,
        ⟨by omega, L, nd, zi, o, b, h.rep, hnd, hzi, h1, h2, hb, hfit⟩, htaken⟩

-- Blocks in use overlap neither each other nor the free ones, their frames carry no free order,
-- every zone's counter is what its lists hold, and `page_alloc_below` keeps to the limit.
structure Sound (lay : Layout) (sys : Sys) : Prop where
  lists : ∃ L, Represents sys.pmm L ∧ (∀ p, L p ≠ [] → p ∈ places) ∧
    (∀ f, freeAt L f + held sys.live f ≤ 1) ∧ Balanced sys.pmm L
  notFree : ∀ x ∈ sys.live, ∀ f, InBlock x.1 x.2 f → buddyMaxOrder < sys.pmm.pageState f
  below : ∀ order limit, (pageAllocBelow lay sys.pmm order limit).2 = 0 ∨
    EndsBelow order.toNat limit (pageAllocBelow lay sys.pmm order limit).2

-- All callers may use both interfaces. The ranges are committed before the first block is given.
def Mixed (sys : Sys) : Call → Prop
  | .numaCommit => sys.live = []
  | call => Legal sys call

instance decidableMixed (sys : Sys) : (call : Call) → Decidable (Mixed sys call)
  | .numaCommit => inferInstanceAs (Decidable (sys.live = []))
  | .free phys order => decidableLegal sys (.free phys order)
  | .write pfn slot value => decidableLegal sys (.write pfn slot value)
  | .allocNode _ _ _ | .allocBelow _ _ | .numaAddRange _ _ _ => inferInstanceAs (Decidable True)

def FindsNone (sys : Sys) : Call → Prop
  | .allocBelow order limit => ¬Fits sys.pmm order limit
  | _ => True

structure MixedInv (lay : Layout) (managed : ℕ → Bool) (sys : Sys) : Prop where
  inv : SysInv lay managed sys
  onNode : ∀ x ∈ sys.live, OnNode (nodeOfPfn sys.pmm) x.1 x.2 (nodeOfPfn sys.pmm x.1)

section Mixed

variable {sys : Sys}

theorem pageAllocBelow_endsBelow (lay : Layout) (s : State) (order : ℤ) (limit : ℕ) :
    (pageAllocBelow lay s order limit).2 = 0 ∨
      EndsBelow order.toNat limit (pageAllocBelow lay s order limit).2 := by
  unfold pageAllocBelow
  split
  · exact .inl rfl
  · exact allocBelowFrom_endsBelow lay _ limit _ s

theorem MixedInv.sound (h : MixedInv lay managed sys) : Sound lay sys where
  lists := by
    obtain ⟨L, hcore, hbal⟩ := h.inv.holds
    refine ⟨L, hcore.rep, hcore.place, fun f => ?_, hbal⟩
    have hp := hcore.partition f
    split at hp <;> omega
  notFree x hx f hf := by
    obtain ⟨L, hcore, _⟩ := h.inv.holds
    rw [hcore.used x hx f hf]
    decide
  below := pageAllocBelow_endsBelow lay sys.pmm

theorem MixedInv.of_node {s' : State} {live' : List (ℕ × ℕ)} (h : MixedInv lay managed sys)
    (hinv : SysInv lay managed ⟨s', live'⟩) (hnode : nodeOfPfn s' = nodeOfPfn sys.pmm)
    (hlive : ∀ x ∈ live', x ∈ sys.live ∨
      OnNode (nodeOfPfn sys.pmm) x.1 x.2 (nodeOfPfn sys.pmm x.1)) :
    MixedInv lay managed ⟨s', live'⟩ where
  inv := hinv
  onNode x hx := by
    simp only [hnode]
    exact (hlive x hx).elim (h.onNode x) id

theorem nodeOfPfn_pmmNumaAddRange (h : SysInv lay managed sys) (base len : ℕ) (node : ℤ) :
    nodeOfPfn (pmmNumaAddRange lay sys.pmm base len node).1 = nodeOfPfn sys.pmm := by
  unfold pmmNumaAddRange
  split
  · rfl
  · next hguard =>
      have hnot : sys.pmm.numaLive = false := by
        by_contra hl
        exact hguard (.inl (h.committed (by simpa using hl)))
      dsimp only
      split_ifs <;> first | rfl | (funext f; simp [nodeOfPfn, hnot])

theorem mixed_step_inv (call : Call) (h : MixedInv lay managed sys) (hok : Mixed sys call)
    (hcond : FindsNone sys call) : MixedInv lay managed (sys.step lay call) := by
  obtain ⟨L, hcore, hbal⟩ := h.inv.holds
  cases call with
  | allocNode order zoneHint node =>
    rcases pageAllocNode_spec h.inv.holds order zoneHint node with hfail | ⟨s', pfn, heq, ha⟩
    · simpa only [Sys.step, hfail, Sys.hold, if_true] using h
    · have hinv := h.inv.allocated ha
      have hne : pfnToPhys pfn ≠ 0 := fun h0 => ha.ne_zero (pfnToPhys_eq_zero.mp h0)
      simp only [Sys.step, heq, Sys.hold, if_neg hne, physToPfn_pfnToPhys] at hinv ⊢
      refine h.of_node hinv ha.same.nodeOfPfn fun x hx => ?_
      rcases mem_cons.mp hx with rfl | hx
      · obtain ⟨_, nd, hnode⟩ := ha.onNode
        refine .inr fun f hf => ?_
        rw [hnode f hf, hnode pfn (inBlock_self _ _)]
      · exact .inl hx
  | allocBelow order limit =>
    rcases pageAllocBelow_spec order limit hcore with ⟨hfail, _⟩ | ⟨_, _, _, _, hfits, _⟩
    · simpa only [Sys.step, hfail, Sys.hold, if_true] using h
    · exact absurd hfits hcond
  | free phys order =>
    have hmem := hok.2
    have hphys := pfnToPhys_physToPfn hok.1
    have hsame := pageFree_same hcore (fun _ => rfl) hmem
    rw [hphys] at hsame
    exact h.of_node (step_inv (.free phys order) h.inv hok (h.onNode _ hmem))
      hsame.nodeOfPfn fun x hx => .inl (mem_of_mem_erase hx)
  | numaAddRange base len node =>
    exact h.of_node (pmmNumaAddRange_spec h.inv base len node)
      (nodeOfPfn_pmmNumaAddRange h.inv base len node) fun x hx => .inl hx
  | numaCommit =>
    refine ⟨step_inv .numaCommit h.inv trivial trivial, fun x hx => ?_⟩
    have hnil : sys.live = [] := hok
    simp only [Sys.step, hnil] at hx
    exact absurd hx not_mem_nil
  | write pfn slot value =>
    exact h.of_node (step_inv (.write pfn slot value) h.inv hok trivial) rfl
      fun x hx => .inl hx

theorem findsNone_of_sound (call : Call) (h : MixedInv lay managed sys)
    (h' : Sound lay (sys.step lay call)) : FindsNone sys call := by
  obtain ⟨L, hcore, hbal⟩ := h.inv.holds
  cases call with
  | allocBelow order limit =>
    rcases pageAllocBelow_spec order limit hcore with ⟨_, hno⟩ | ⟨s', b, heq, _, _, htaken⟩
    · exact hno
    · exfalso
      obtain ⟨L'', hrep, _, _, hbal'⟩ := h'.lists
      obtain ⟨L', nd, zi, hcore', hshift⟩ := htaken.core
      simp only [Sys.step, heq, Sys.hold] at hrep hbal'
      have hcount := hbal' nd zi
      rw [hrep.unique hcore'.rep, htaken.keeps.freeFrames, hbal nd zi] at hcount
      have hhere := hshift.here
      have hpos := Nat.two_pow_pos order.toNat
      omega
  | _ => trivial

end Mixed

-- Over every run that mixes the two interfaces the allocator stays sound exactly as long as no
-- `page_alloc_below` finds a block: the one it hands out is neither marked nor uncounted.
theorem sound_always_iff (lay : Layout) (usable : ℕ → Bool) (seedTo : ℕ)
    (hboot : Boot lay usable seedTo) (calls : List Call)
    (hok : Allowed (Sys.step lay) Mixed (start lay usable seedTo) calls) :
    Always (Sys.step lay) (Sound lay) (start lay usable seedTo) calls ↔
      Allowed (Sys.step lay) FindsNone (start lay usable seedTo) calls := by
  have hstart : MixedInv lay (managedFrames lay usable) (start lay usable seedTo) :=
    ⟨start_inv hboot, fun x hx => absurd hx List.not_mem_nil⟩
  exact always_iff_allowed (fun _ call h => mixed_step_inv call h) (fun _ h => h.sound)
    (fun _ call h _ => findsNone_of_sound call h) hstart hok

def refusedCalls : List Call := [.allocBelow 0 100, .allocNode 0 (-1) 0, .free 8192 0]

theorem refusedCalls_sound_iff :
    Allowed (Sys.step smallLayout) Mixed (start smallLayout smallUsable 8) refusedCalls ∧
      (Always (Sys.step smallLayout) (Sound smallLayout) (start smallLayout smallUsable 8)
          refusedCalls ↔
        Allowed (Sys.step smallLayout) FindsNone (start smallLayout smallUsable 8) refusedCalls) := by
  have hok : Allowed (Sys.step smallLayout) Mixed (start smallLayout smallUsable 8) refusedCalls := by
    decide
  exact ⟨hok, sound_always_iff _ _ _ smallBoot _ hok⟩

-- Frame 2 is handed out and still carries the order of the block it was cut from.
theorem allocBelow_not_sound :
    Boot smallLayout smallUsable 8 ∧
      Allowed (Sys.step smallLayout) Mixed (start smallLayout smallUsable 8)
        [.allocBelow 0 1048575] ∧
      ¬Sound smallLayout (run (Sys.step smallLayout) (start smallLayout smallUsable 8)
        [.allocBelow 0 1048575]) := by
  refine ⟨smallBoot, by decide, fun h => ?_⟩
  exact absurd (h.notFree (2, 0) (by decide) 2 (by decide)) (by decide)

end DosKernel.Pmm

import DosKernel.Pmm.Invariant
import DosKernel.Pmm.Buddy

namespace DosKernel.Pmm

open DosKernel.Lib

variable {lay : Layout} {managed : ℕ → Bool} {node : ZoneType → ℕ → ℕ} {s s' : State}
  {L : FreeLists} {cur live : List (ℕ × ℕ)} {nd : ℕ} {zi : ZoneType} {b o pfn stop : ℕ}

theorem seedOrder_le (pfn stop n : ℕ) : seedOrder pfn stop n ≤ n := by
  induction n with
  | zero => exact le_rfl
  | succ n ih =>
    unfold seedOrder
    split <;> omega

theorem seedOrder_spec (h : pfn < stop) (n : ℕ) :
    2 ^ seedOrder pfn stop n ∣ pfn ∧ pfn + 2 ^ seedOrder pfn stop n ≤ stop := by
  induction n with
  | zero => exact ⟨one_dvd _, h⟩
  | succ n ih =>
    unfold seedOrder
    split
    · next hcond => exact ⟨Nat.dvd_of_mod_eq_zero hcond.1, hcond.2⟩
    · exact ih

theorem Core.adopt (h : Core lay managed node s L cur live) (ho : o ≤ buddyMaxOrder)
    (hb : 2 ^ o ∣ b) (hb0 : b ≠ 0) (hz : InZone lay b o zi)
    (hfresh : ∀ f, InBlock b o f → managed f = false) :
    Core lay (fun f => managed f || decide (InBlock b o f)) node s L ((b, o) :: cur) live where
  rep := h.rep
  place := h.place
  partition f := by
    have hp := h.partition f
    rw [held_cons]
    by_cases hf : InBlock b o f
    · simp only [hfresh f hf, Bool.false_eq_true, if_false] at hp
      simp only [hit_of_inBlock hf, hf, decide_true, Bool.or_true, if_true]
      omega
    · simp only [hf, decide_false, Bool.or_false]
      have hzero : hit b o f = 0 := if_neg hf
      omega
  free := h.free
  block x hx := by
    rcases List.mem_cons.mp hx with rfl | hx
    · exact ⟨ho, hb, zi, hz⟩
    · exact h.block x hx
  used := h.used
  unmanaged f hf := by
    simp only [Bool.or_eq_false_iff] at hf
    exact h.unmanaged f hf.1
  zero := by
    have hnot : ¬InBlock b o 0 := fun h0 => hb0 (by unfold InBlock at h0; omega)
    simp [h.zero, hnot]
  nodes := h.nodes

@[simp] theorem addManaged_freeFrames (s : State) (nd nd' : ℕ) (zi zi' : ZoneType) (n : ℕ) :
    ((s.addManaged nd zi n).zones nd' zi').freeFrames = (s.zones nd' zi').freeFrames := by
  simp only [State.addManaged, modZone_zones]
  split
  · next heq => rw [heq.1, heq.2]
  · rfl

theorem addManaged_sameLists (s : State) (nd : ℕ) (zi : ZoneType) (n : ℕ) :
    SameLists s (s.addManaged nd zi n) :=
  sameLists_modZone fun _ => ⟨rfl, rfl⟩

structure Seeds (lay : Layout) (managed : ℕ → Bool) (node : ZoneType → ℕ → ℕ) (s s' : State)
    (stop : ℕ) : Prop where
  holds : Holds lay managed node s' [] []
  same : SameNuma s s'
  beyond : ∀ f, stop ≤ f → s'.pageState f = s.pageState f

theorem Holds.seeds (h : Holds lay managed node s [] []) : Seeds lay managed node s s stop :=
  ⟨h, SameNuma.refl s, fun _ _ => rfl⟩

def withRange (managed : ℕ → Bool) (start stop : ℕ) : ℕ → Bool :=
  fun f => managed f || decide (start ≤ f ∧ f < stop)

theorem withRange_self (managed : ℕ → Bool) (start : ℕ) : withRange managed start start = managed := by
  funext f
  have : ¬(start ≤ f ∧ f < start) := by omega
  simp [withRange, this]

theorem withRange_withRange (managed : ℕ → Bool) {start mid stop : ℕ} (h1 : start ≤ mid)
    (h2 : mid ≤ stop) :
    withRange (withRange managed start mid) mid stop = withRange managed start stop := by
  funext f
  have hsplit : start ≤ f ∧ f < stop ↔ (start ≤ f ∧ f < mid) ∨ (mid ≤ f ∧ f < stop) := by omega
  simp only [withRange, hsplit, Bool.decide_or, Bool.or_assoc]

theorem seedRun_spec (n : ℕ) (h : Holds lay managed node s [] []) (hn : stop - pfn ≤ n)
    (hle : pfn ≤ stop) (hrun : ∀ f, pfn ≤ f → f < stop →
      f ≠ 0 ∧ managed f = false ∧ zoneOfPfn lay f = some zi ∧ node zi f = nd) :
    Seeds lay (withRange managed pfn stop) node s (seedRun nd zi stop n s pfn) stop := by
  induction n generalizing s managed pfn with
  | zero =>
    obtain rfl : pfn = stop := by omega
    rw [withRange_self]
    exact h.seeds
  | succ n ih =>
    unfold seedRun
    by_cases hlt : pfn < stop
    · rw [if_pos hlt]
      generalize ho : seedOrder pfn stop buddyMaxOrder = o
      obtain ⟨hdvd, hfits⟩ := ho ▸ seedOrder_spec hlt buddyMaxOrder
      have hole : o ≤ buddyMaxOrder := ho ▸ seedOrder_le pfn stop buddyMaxOrder
      have hin : ∀ f, InBlock pfn o f → f ≠ 0 ∧ managed f = false ∧
          zoneOfPfn lay f = some zi ∧ node zi f = nd := fun f hf =>
        hrun f hf.1 (hf.2.trans_le hfits)
      obtain ⟨L, hcore, hbal⟩ := h
      have hadopt := hcore.adopt hole hdvd (hrun pfn le_rfl hlt).1
        (fun f hf => (hin f hf).2.2.1) (fun f hf => (hin f hf).2.1)
      have hpushed := Holds.push ⟨L, hadopt, hbal⟩ (fun f hf => (hin f hf).2.2.1)
        (fun f hf => (hin f hf).2.2.2)
      have hkeeps := zonePush_keeps s nd zi pfn o
      obtain ⟨hholds, hsame, hbeyond⟩ := ih
        (hpushed.same (addManaged_sameLists _ nd zi (2 ^ o)) fun _ _ => addManaged_freeFrames ..)
        (by omega) hfits (fun f h1 h2 => by
          have hf := hrun f (by omega) h2
          have hnot : ¬InBlock pfn o f := fun hb => by unfold InBlock at hb; omega
          simpa [hnot] using hf)
      refine ⟨?_, ?_, fun f hf => ?_⟩
      · rw [← withRange_withRange managed (Nat.le_add_right pfn (2 ^ o)) hfits]
        exact hholds
      · exact hkeeps.toSameNuma.trans ⟨hsame.nrng, hsame.numaLive, hsame.numaCommitted⟩
      · rw [hbeyond f hf]
        exact (congrFun (zonePush_pageState s nd zi pfn o) f).trans
          (Function.update_of_ne (by omega) _ _)
    · obtain rfl : pfn = stop := by omega
      rw [if_neg hlt, withRange_self]
      exact h.seeds

theorem runEnd_spec (lay : Layout) (s : State) (nd : ℕ) (zi : ZoneType) (stop n e : ℕ) :
    e ≤ runEnd lay s nd zi stop n e ∧ ∀ f, e ≤ f → f < runEnd lay s nd zi stop n e →
      f < zoneEnd lay zi ∧ f < stop ∧ s.pageState f = psUsed ∧ nodeOfPfn s f = nd := by
  induction n generalizing e with
  | zero => exact ⟨le_rfl, fun f h1 h2 => absurd h2 (Nat.not_lt.mpr h1)⟩
  | succ n ih =>
    unfold runEnd
    split
    · next hcond =>
        obtain ⟨hle, hrun⟩ := ih (e + 1)
        refine ⟨by omega, fun f h1 h2 => ?_⟩
        rcases eq_or_lt_of_le h1 with rfl | h1
        · exact hcond
        · exact hrun f h1 h2
    · exact ⟨le_rfl, fun f h1 h2 => absurd h2 (Nat.not_lt.mpr h1)⟩

theorem lt_runEnd {n e : ℕ} (h1 : e < zoneEnd lay zi) (h2 : e < stop)
    (h3 : s.pageState e = psUsed) (h4 : nodeOfPfn s e = nd) (hn : 0 < n) :
    e < runEnd lay s nd zi stop n e := by
  obtain ⟨m, rfl⟩ := Nat.exists_eq_succ_of_ne_zero hn.ne'
  rw [runEnd, if_pos ⟨h1, h2, h3, h4⟩]
  exact (runEnd_spec lay s nd zi stop m (e + 1)).1

def seedable (lay : Layout) (s : State) (f : ℕ) : Bool :=
  decide (s.pageState f = psUsed) && (zoneOfPfn lay f).isSome

def withSeeded (lay : Layout) (s : State) (managed : ℕ → Bool) (start stop : ℕ) : ℕ → Bool :=
  fun f => managed f || (decide (start ≤ f ∧ f < stop) && seedable lay s f)

theorem withSeeded_self (lay : Layout) (s : State) (managed : ℕ → Bool) (start : ℕ) :
    withSeeded lay s managed start start = managed := by
  funext f
  have : ¬(start ≤ f ∧ f < start) := by omega
  simp [withSeeded, this]

theorem withSeeded_skip {start : ℕ} (hskip : seedable lay s start = false) (hlt : start < stop) :
    withSeeded lay s managed (start + 1) stop = withSeeded lay s managed start stop := by
  funext f
  rcases eq_or_ne f start with rfl | hne
  · simp [withSeeded, hskip]
  · have : start + 1 ≤ f ∧ f < stop ↔ start ≤ f ∧ f < stop := by omega
    simp only [withSeeded, this]

theorem withSeeded_run {start e : ℕ} (h1 : start ≤ e) (h2 : e ≤ stop)
    (hrun : ∀ f, start ≤ f → f < e → seedable lay s f = true)
    (hstate : ∀ f, e ≤ f → s'.pageState f = s.pageState f) :
    withSeeded lay s' (withRange managed start e) e stop = withSeeded lay s managed start stop := by
  funext f
  rcases Nat.lt_or_ge f e with hfe | hfe
  · by_cases hsf : start ≤ f
    · simp [withSeeded, withRange, hsf, hfe, hfe.trans_le h2, hrun f hsf hfe]
    · have hne : ¬e ≤ f := by omega
      simp [withSeeded, withRange, hsf, hne]
  · have hlt : ¬f < e := by omega
    have hsf : start ≤ f := by omega
    simp [withSeeded, withRange, hlt, hfe, hsf, seedable, hstate f hfe]

theorem seedRange_spec (n : ℕ) (h : Holds lay managed node s [] [])
    (hn : stop - pfn ≤ n) (hle : pfn ≤ stop) (hstop : stop ≤ lay.nrFrames)
    (hN : ∀ zi, node zi = nodeOfPfn s)
    (hfresh : ∀ f, pfn ≤ f → f < stop → managed f = false)
    (hzero : ∀ f, pfn ≤ f → seedable lay s f = true → f ≠ 0) :
    Seeds lay (withSeeded lay s managed pfn stop) node s (seedRange lay stop n s pfn) stop := by
  induction n generalizing s managed pfn with
  | zero =>
    obtain rfl : pfn = stop := by omega
    rw [withSeeded_self]
    exact h.seeds
  | succ n ih =>
    have hskip : seedable lay s pfn = false → pfn < stop →
        Seeds lay (withSeeded lay s managed pfn stop) node s (seedRange lay stop n s (pfn + 1))
          stop := by
      intro hno hlt
      rw [← withSeeded_skip hno hlt]
      exact ih h (by omega) (by omega) hN (fun f h1 h2 => hfresh f (by omega) h2)
        (fun f h1 => hzero f (by omega))
    unfold seedRange
    by_cases hlt : pfn < stop
    · rw [if_pos hlt]
      by_cases hused : s.pageState pfn = psUsed
      · rw [if_neg (not_not_intro hused)]
        cases hzone : zoneOfPfn lay pfn with
        | none => exact hskip (by simp [seedable, hzone]) hlt
        | some zi =>
          dsimp only
          obtain ⟨hspan, hbounds⟩ := (zoneOfPfn_eq_some_iff lay pfn zi).mp hzone
          have hprog : pfn < runEnd lay s (nodeOfPfn s pfn) zi stop (stop - pfn) pfn :=
            lt_runEnd hbounds.2 hlt hused rfl (by omega)
          obtain ⟨hpe, hrun⟩ := runEnd_spec lay s (nodeOfPfn s pfn) zi stop (stop - pfn) pfn
          generalize runEnd lay s (nodeOfPfn s pfn) zi stop (stop - pfn) pfn = e at *
          have hestop : e ≤ stop := by
            by_contra hgt
            exact absurd (hrun stop hle (by omega)).2.1 (Nat.lt_irrefl stop)
          have hzi : ∀ f, pfn ≤ f → f < e → zoneOfPfn lay f = some zi := fun f h1 h2 => by
            have hf := hrun f h1 h2
            exact (zoneOfPfn_eq_some_iff lay f zi).mpr ⟨by omega, by omega⟩
          have hseed : ∀ f, pfn ≤ f → f < e → seedable lay s f = true := fun f h1 h2 => by
            simp [seedable, (hrun f h1 h2).2.2.1, hzi f h1 h2]
          obtain ⟨hholds, hsame, hstate⟩ := seedRun_spec (e - pfn) h le_rfl hpe
            (fun f h1 h2 => ⟨hzero f h1 (hseed f h1 h2), hfresh f h1 (h2.trans_le hestop),
              hzi f h1 h2, by rw [hN]; exact (hrun f h1 h2).2.2.2⟩)
          obtain ⟨hholds', hsame', hstate'⟩ := ih hholds (by omega) hestop
            (fun zi' => (hN zi').trans hsame.nodeOfPfn.symm)
            (fun f h1 h2 => by
              have hnot : ¬f < e := by omega
              simp [withRange, hfresh f (by omega) h2, hnot])
            (fun f h1 => by
              rw [seedable, hstate f h1]
              exact hzero f (by omega))
          rw [withSeeded_run hpe hestop hseed hstate] at hholds'
          exact ⟨hholds', hsame.trans hsame', fun f hf =>
            (hstate' f hf).trans (hstate f (by omega))⟩
      · rw [if_pos hused]
        exact hskip (by simp [seedable, hused]) hlt
    · obtain rfl : pfn = stop := by omega
      rw [if_neg hlt, withSeeded_self]
      exact h.seeds

def managedFrames (lay : Layout) (usable : ℕ → Bool) : ℕ → Bool :=
  fun f => usable f && decide (lay.pfnBase ≤ f ∧ f < lay.nrFrames)

def seededState (lay : Layout) (usable : ℕ → Bool) (seedTo : ℕ) : State :=
  pmmSeedDeferred lay (pmmSeed lay (bootState lay usable) seedTo)

theorem zoneOfPfn_isSome (lay : Layout) (f : ℕ) :
    (zoneOfPfn lay f).isSome = decide (lay.pfnBase ≤ f ∧ f < lay.nrFrames) := by
  by_cases h : lay.nrFrames ≤ f ∨ f < lay.pfnBase
  · have hnot : ¬(lay.pfnBase ≤ f ∧ f < lay.nrFrames) := by omega
    simp [zoneOfPfn, h, hnot]
  · have hin : lay.pfnBase ≤ f ∧ f < lay.nrFrames := by omega
    simp only [zoneOfPfn, if_neg h, hin, and_self, decide_true]
    split_ifs <;> rfl

theorem seedable_bootState (lay : Layout) (usable : ℕ → Bool) (f : ℕ) :
    seedable lay (bootState lay usable) f = managedFrames lay usable f := by
  unfold seedable managedFrames bootState
  rw [zoneOfPfn_isSome]
  by_cases hr : lay.pfnBase ≤ f ∧ f < lay.nrFrames <;> cases hu : usable f <;>
    simp [hr, hu, psUsed, psNone]

theorem core_bootState (lay : Layout) (usable : ℕ → Bool) :
    Core lay (fun _ => false) (fun _ _ => 0) (bootState lay usable) (fun _ => []) [] [] where
  rep :=
    { linked := fun _ _ _ => rfl
      nr := fun _ _ _ => rfl
      apart := fun _ _ _ h => absurd h List.not_mem_nil }
  place _ h := absurd rfl h
  partition f := by simp [freeAt, occ]
  free _ _ _ _ h := absurd h List.not_mem_nil
  block _ h := absurd h List.not_mem_nil
  used _ h := absurd h List.not_mem_nil
  unmanaged f _ := by
    simp only [bootState]
    split <;> decide
  zero := rfl
  nodes _ _ := by decide

theorem holds_bootState (lay : Layout) (usable : ℕ → Bool) :
    Holds lay (fun _ => false) (fun _ _ => 0) (bootState lay usable) [] [] :=
  ⟨_, core_bootState lay usable, fun nd zi => by simp [bootState, freeSize]⟩

theorem seededState_spec (lay : Layout) (usable : ℕ → Bool) (seedTo : ℕ)
    (hzero : usable 0 = false) (hbase : lay.pfnBase ≤ seedTo) (hto : seedTo ≤ lay.nrFrames) :
    Holds lay (managedFrames lay usable) (fun _ _ => 0) (seededState lay usable seedTo) [] [] ∧
      SameNuma (bootState lay usable) (seededState lay usable seedTo) := by
  have hseed0 : ∀ f, seedable lay (bootState lay usable) f = true → f ≠ 0 := by
    rintro f hf rfl
    rw [seedable_bootState, managedFrames, hzero] at hf
    cases hf
  have hnodes : ∀ zi : ZoneType, (fun _ : ℕ => 0) = nodeOfPfn (bootState lay usable) := fun _ => rfl
  obtain ⟨hholds, hsame, hstate⟩ := seedRange_spec (seedTo - lay.pfnBase)
    (holds_bootState lay usable) le_rfl hbase hto hnodes (fun _ _ _ => rfl) (fun f _ => hseed0 f)
  unfold seededState pmmSeed pmmSeedDeferred
  generalize seedRange lay seedTo (seedTo - lay.pfnBase) (bootState lay usable) lay.pfnBase = s1 at *
  by_cases hall : lay.nrFrames ≤ seedTo
  · rw [if_pos hall]
    obtain rfl : seedTo = lay.nrFrames := by omega
    refine ⟨?_, hsame.nrng, hsame.numaLive, hsame.numaCommitted⟩
    have hmanaged : withSeeded lay (bootState lay usable) (fun _ => false) lay.pfnBase lay.nrFrames =
        managedFrames lay usable := by
      funext f
      simp only [withSeeded, seedable_bootState, managedFrames, Bool.false_or]
      cases usable f <;> simp
    rw [← hmanaged]
    exact hholds.same ⟨rfl, rfl, fun _ _ => ⟨rfl, rfl⟩⟩ fun _ _ => rfl
  · rw [if_neg hall]
    have hholds1 : Holds lay _ (fun _ _ => 0) { s1 with deferredFrom := seedTo } [] [] :=
      hholds.same ⟨rfl, rfl, fun _ _ => ⟨rfl, rfl⟩⟩ fun _ _ => rfl
    have hsame1 : SameNuma (bootState lay usable) { s1 with deferredFrom := seedTo } :=
      ⟨hsame.nrng, hsame.numaLive, hsame.numaCommitted⟩
    obtain ⟨hholds2, hsame2, _⟩ := seedRange_spec (lay.nrFrames - seedTo) hholds1 le_rfl
      (by omega) le_rfl (fun _ => hsame1.nodeOfPfn.symm)
      (fun f h1 h2 => by
        have hnot : ¬f < seedTo := by omega
        simp [withSeeded, hnot])
      (fun f h1 => by
        rw [seedable, hstate f h1]
        exact hseed0 f)
    refine ⟨?_, ?_⟩
    · have hmanaged : withSeeded lay { s1 with deferredFrom := seedTo }
          (withSeeded lay (bootState lay usable) (fun _ => false) lay.pfnBase seedTo) seedTo
          lay.nrFrames = managedFrames lay usable := by
        funext f
        rcases Nat.lt_or_ge f seedTo with hf | hf
        · have hnot : ¬seedTo ≤ f := by omega
          have hlt : f < lay.nrFrames := by omega
          simp only [withSeeded, seedable_bootState, managedFrames, hnot, hf, hlt]
          cases usable f <;> simp
        · have hnot : ¬f < seedTo := by omega
          have hbf : lay.pfnBase ≤ f := by omega
          have hsd : seedable lay { s1 with deferredFrom := seedTo } f =
              managedFrames lay usable f := by
            rw [← seedable_bootState, seedable, seedable, hstate f hf]
          simp only [withSeeded, hsd, hnot, hf]
          cases hu : usable f <;> simp [managedFrames, hu, hbf]
      rw [hmanaged] at hholds2
      exact hholds2.same ⟨rfl, rfl, fun _ _ => ⟨rfl, rfl⟩⟩ fun _ _ => rfl
    · have h := hsame1.trans hsame2
      exact ⟨h.nrng, h.numaLive, h.numaCommitted⟩

end DosKernel.Pmm

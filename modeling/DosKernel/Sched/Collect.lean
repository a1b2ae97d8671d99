import DosKernel.Lib.Update
import DosKernel.Sched.Wait

namespace DosKernel.Sched.Procs

open DosKernel.Lib List
open Function (update update_eq_self update_of_ne update_self)

variable {T : Type}

structure Listed (s : Procs T) : Prop where
  nodup : s.table.Nodup
  made : ∀ t ∈ s.table, t ∈ s.made
  pidLt : ∀ t ∈ s.made, s.pid t < s.nextPid
  pidInj : ∀ t ∈ s.made, ∀ u ∈ s.made, s.pid t = s.pid u → t = u
  freedMade : ∀ t ∈ s.freed, t ∈ s.made
  freedNodup : s.freed.Nodup
  freedOut : ∀ t ∈ s.freed, t ∉ s.table
  left : ∀ t ∈ s.made, t ∉ s.table → t ∈ s.freed ∨ ∃ w, (s.phase w).target = some (.unlinked, t)

structure Reaps (s : Procs T) (p : Phase T) (st : ReapStage) (t : T) : Prop where
  dead : s.state t = .dead
  reaping : s.reaping t = true
  made : t ∈ s.made
  kept : t ∉ s.freed
  stage : t ∈ s.table ↔ st ≠ .unlinked
  child : ∀ r, p.report = some r → r.child = t

structure Claimed (s : Procs T) : Prop where
  busy : ∀ w, s.phase w ≠ .idle → w ∈ s.made
  reaps : ∀ {w st t}, (s.phase w).target = some (st, t) → Reaps s (s.phase w) st t
  excl : ∀ w w' st st' t, (s.phase w).target = some (st, t) →
    (s.phase w').target = some (st', t) → w = w'

structure Reported (s : Procs T) : Prop where
  carried : ∀ w r, (s.phase w).report = some r → r ∈ s.reports
  excl : ∀ w w' r r', (s.phase w).report = some r → (s.phase w').report = some r' →
    r.child = r'.child → w = w'
  own : ∀ r ∈ s.reports, r.child ∈ s.made ∧ s.state r.child = .dead ∧
    r.pid = s.pid r.child ∧ r.code = s.exitCode r.child
  once : (s.reports.map Report.child).Nodup
  done : ∀ r ∈ s.reports, (∀ w, (s.phase w).report ≠ some r) → r.child ∉ s.table

structure Inv (s : Procs T) : Prop where
  listed : Listed s
  claimed : Claimed s
  reported : Reported s

section Lookups

variable {s : Procs T} {t : T} {pid : ℕ}

theorem mem_of_taskFind (h : s.taskFind pid = some t) : t ∈ s.table ∧ s.pid t = pid :=
  ⟨mem_of_find?_eq_some h, by simpa using find?_some h⟩

theorem mem_of_reapClaim (h : s.reapClaim pid = some t) :
    t ∈ s.table ∧ s.pid t = pid ∧ s.state t = .dead ∧ s.reaping t = false := by
  rw [reapClaim] at h
  split at h
  · simp at h
  · next u hu =>
    split at h
    · next hc =>
      obtain rfl : u = t := Option.some.inj h
      exact ⟨(mem_of_taskFind hu).1, (mem_of_taskFind hu).2, hc⟩
    · simp at h

theorem mem_of_waitScan {me : ℕ} {want : Option ℕ} (h : s.waitScan me want = some t) :
    t ∈ s.table ∧ s.state t = .dead := by
  refine ⟨mem_of_find?_eq_some h, ?_⟩
  have hp := find?_some h
  simp only [Bool.and_eq_true, decide_eq_true_eq] at hp
  exact hp.2

end Lookups

variable [DecidableEq T] {s s' : Procs T} {w t : T} {p : Phase T}

def MayClaim (s : Procs T) (w : T) (p : Phase T) : Prop :=
  ∀ st t, p.target = some (st, t) →
    Reaps s p st t ∧ ∀ w' st', w' ≠ w → (s.phase w').target ≠ some (st', t)

omit [DecidableEq T] in
theorem mayClaim_none (h : p.target = none) : MayClaim s w p := by
  intro st t ht
  simp [h] at ht

omit [DecidableEq T] in
theorem mayClaim_some {st : ReapStage} (htarget : p.target = some (st, t)) (hreaps : Reaps s p st t)
    (hexcl : ∀ w' st', w' ≠ w → (s.phase w').target ≠ some (st', t)) : MayClaim s w p := by
  intro st' u hu
  obtain ⟨rfl, rfl⟩ := Prod.mk.inj (Option.some.inj (htarget.symm.trans hu))
  exact ⟨hreaps, hexcl⟩

theorem Listed.left_update (h : Listed s) (ht : t ∈ s.made) (hout : t ∉ s.table)
    (hleft : (s.phase w).target = some (.unlinked, t) → p.target = some (.unlinked, t))
    (hphase : s'.phase = update s.phase w p := by rfl) :
    t ∈ s.freed ∨ ∃ u, (s'.phase u).target = some (.unlinked, t) := by
  refine (h.left t ht hout).imp_right (.imp fun u => ?_)
  rw [hphase]
  exact update_rule u hleft fun _ hu => hu

theorem Claimed.update (h : Claimed s) (hw : p ≠ .idle → w ∈ s'.made)
    (hkeep : ∀ u st t, u ≠ w → (s.phase u).target = some (st, t) → Reaps s (s.phase u) st t →
      Reaps s' (s.phase u) st t)
    (hclaim : MayClaim { s' with phase := s.phase } w p)
    (hphase : s'.phase = update s.phase w p := by rfl) (hmade : s'.made = s.made := by rfl) :
    Claimed s' := by
  refine ⟨fun u => ?_, fun {u st t} => ?_, fun u u' st st' t => ?_⟩ <;> rw [hphase]
  · exact update_rule u hw fun _ hu => hmade ▸ h.busy u hu
  · refine update_rule u (fun hu => ?_) fun huw hu => hkeep u st t huw hu (h.reaps hu)
    exact { (hclaim st t hu).1 with }
  · refine update_rule u ?_ fun huw => ?_ <;> refine update_rule u' ?_ fun huw' => ?_
    · exact fun _ _ => rfl
    · exact fun hu hu' => absurd hu' ((hclaim st t hu).2 u' st' huw')
    · exact fun hu hu' => absurd hu ((hclaim st' t hu').2 u st huw)
    · exact h.excl u u' st st' t

theorem Reported.update (h : Reported s)
    (hown : ∀ r ∈ s.reports, r.child ∈ s'.made ∧ s'.state r.child = .dead ∧
      r.pid = s'.pid r.child ∧ r.code = s'.exitCode r.child)
    (hcarried : ∀ r, p.report = some r → (s.phase w).report = some r)
    (hdone : ∀ r, (s.phase w).report = some r → p.report = some r ∨ r.child ∉ s'.table)
    (htable : ∀ u ∈ s'.table, u ∈ s.table := by exact fun _ hu => hu)
    (hphase : s'.phase = update s.phase w p := by rfl)
    (hreports : s'.reports = s.reports := by rfl) : Reported s' := by
  have hold : ∀ {u r}, (s'.phase u).report = some r → (s.phase u).report = some r := by
    intro u r
    rw [hphase]
    exact update_rule u (hcarried r) fun _ hr => hr
  refine ⟨fun u r hr => hreports ▸ h.carried u r (hold hr),
    fun u u' r r' hr hr' => h.excl u u' r r' (hold hr) (hold hr'), hreports ▸ hown,
    hreports ▸ h.once, fun r hr hnone hin => ?_⟩
  rw [hreports] at hr
  refine h.done r hr (fun u hu => hnone u ?_) (htable _ hin)
  rw [hphase]
  revert hu
  exact update_rule u (fun hu => (hdone r hu).resolve_right (not_not_intro hin)) fun _ hu => hu

theorem Inv.rephase (h : Inv s) (w : T) (p : Phase T) (f : T → Bool) (hw : w ∈ s.made)
    (hreport : p.report = (s.phase w).report)
    (hleft : ∀ t, (s.phase w).target = some (.unlinked, t) → p.target = some (.unlinked, t))
    (hf : ∀ w' st t, w' ≠ w → (s.phase w').target = some (st, t) → f t = true)
    (hclaim : MayClaim { s with reaping := f } w p) :
    Inv { s.setPhase w p with reaping := f } := by
  refine ⟨{ h.listed with left := fun t ht hout => ?_ },
    h.claimed.update (fun _ => hw) (fun u st t hu ht hr => { hr with reaping := hf u st t hu ht }) hclaim,
    h.reported.update h.reported.own (fun r hr => hreport ▸ hr) fun r hr => Or.inl (hreport ▸ hr)⟩
  exact h.listed.left_update ht hout (hleft t)

omit [DecidableEq T] in
theorem Inv.idle_of_notMem (h : Inv s) (ht : t ∉ s.made) : s.phase t = .idle := by
  by_contra hp
  exact ht (h.claimed.busy t hp)

theorem Inv.spawn (h : Inv s) {c : Spawn} (ht : t ∉ s.made) (hwrap : s.nextPid < intMax) :
    Inv (s.spawn t c) := by
  have hphase : update s.phase t .idle = s.phase := by
    rw [← h.idle_of_notMem ht, update_eq_self]
  have heq : s.spawn t c = { s.spawn t c with phase := s.phase } := by rw [Procs.spawn, hphase]
  have hne : ∀ {u}, u ∈ s.made → u ≠ t := fun hu heq => ht (heq ▸ hu)
  have hnext : (s.spawn t c).nextPid = s.nextPid + 1 := if_neg (Nat.ne_of_lt hwrap)
  have hpid : ∀ {u}, u ∈ s.made → (s.spawn t c).pid u = s.pid u :=
    fun hu => update_of_ne (hne hu) _ _
  have hpidt : (s.spawn t c).pid t = s.nextPid := update_self ..
  have hstate : ∀ {u}, u ∈ s.made → (s.spawn t c).state u = s.state u :=
    fun hu => update_of_ne (hne hu) _ _
  have htable : ∀ {u}, u ∈ (s.spawn t c).table ↔ u = t ∨ u ∈ s.table := mem_masterInsert
  obtain ⟨hl, hc, hr⟩ := h
  rw [heq]
  refine ⟨⟨?_, ?_, ?_, ?_, ?_, hl.freedNodup, ?_, ?_⟩, { hc with
    busy := fun u hu => mem_cons_of_mem _ (hc.busy u hu)
    reaps := ?_ }, { hr with
    own := ?_
    done := ?_ }⟩
  · exact nodup_masterInsert hl.nodup fun hin => ht (hl.made t hin)
  · intro u hu
    rcases htable.mp hu with rfl | hu
    · exact mem_cons_self
    · exact mem_cons_of_mem _ (hl.made u hu)
  · intro u hu
    show (s.spawn t c).pid u < (s.spawn t c).nextPid
    rw [hnext]
    rcases mem_cons.mp hu with rfl | hu
    · rw [hpidt]
      exact Nat.lt_succ_self _
    · rw [hpid hu]
      exact Nat.lt_succ_of_lt (hl.pidLt u hu)
  · intro u hu v hv heq
    rcases mem_cons.mp hu with rfl | hum <;> rcases mem_cons.mp hv with rfl | hvm
    · rfl
    · rw [hpidt, hpid hvm] at heq
      exact absurd heq (Nat.ne_of_gt (hl.pidLt v hvm))
    · rw [hpidt, hpid hum] at heq
      exact absurd heq (Nat.ne_of_lt (hl.pidLt u hum))
    · rw [hpid hum, hpid hvm] at heq
      exact hl.pidInj u hum v hvm heq
  · exact fun u hu => mem_cons_of_mem _ (hl.freedMade u hu)
  · intro u hu hin
    rcases htable.mp hin with rfl | hin
    · exact ht (hl.freedMade u hu)
    · exact hl.freedOut u hu hin
  · intro u hu hout
    obtain ⟨hut, hout⟩ := not_or.mp fun hor => hout (htable.mpr hor)
    exact hl.left u ((mem_cons.mp hu).resolve_left hut) hout
  · intro u st v hu
    have hu := hc.reaps hu
    have hv := hne hu.made
    exact { hu with
      dead := (hstate hu.made).trans hu.dead
      reaping := (update_of_ne hv _ _).trans hu.reaping
      made := mem_cons_of_mem _ hu.made
      stage := htable.trans ((or_iff_right hv).trans hu.stage) }
  · intro r hin
    obtain ⟨hm, hd, hp, hcode⟩ := hr.own r hin
    exact ⟨mem_cons_of_mem _ hm, (hstate hm).trans hd, hp.trans (hpid hm).symm,
      hcode.trans (update_of_ne (hne hm) _ _).symm⟩
  · intro r hin hnone hmem
    exact (htable.mp hmem).elim (hne (hr.own r hin).1) (hr.done r hin hnone)

theorem Inv.exit (h : Inv s) {code : ℤ} {adopter init : ℕ} (hacts : s.Acts t) :
    Inv (s.exit t code adopter init) := by
  have hstate : ∀ {u}, s.state u = .dead → (s.exit t code adopter init).state u = .dead := by
    intro u hu
    by_cases hut : u = t
    · exact hut ▸ update_self ..
    · exact (update_of_ne hut _ _).trans hu
  refine ⟨{ h.listed with }, { h.claimed with reaps := ?_ }, { h.reported with own := ?_ }⟩
  · intro u st v hu
    exact { h.claimed.reaps hu with dead := hstate (h.claimed.reaps hu).dead }
  · intro r hr
    obtain ⟨hm, hd, hp, hcode⟩ := h.reported.own r hr
    have hne : r.child ≠ t := fun heq => hacts.2.1 (heq ▸ hd)
    exact ⟨hm, hstate hd, hp, hcode.trans (update_of_ne hne _ _).symm⟩

theorem Inv.scan (h : Inv s) {c : T} (hacts : s.Acts w) (hc : c ∈ s.table)
    (hd : s.state c = .dead)
    (hfree : ∀ w' r, (s.phase w').report = some r → r.child ≠ c) :
    Inv { s.setPhase w (.collect ⟨c, s.pid c, s.exitCode c⟩ 0) with
      reports := ⟨c, s.pid c, s.exitCode c⟩ :: s.reports } := by
  generalize hrep : (⟨c, s.pid c, s.exitCode c⟩ : Report T) = rep
  have hchild : rep.child = c := hrep ▸ rfl
  have hidle := hacts.2.2
  have hnew : ∀ r ∈ s.reports, r.child ≠ c := by
    intro r hr heq
    refine h.reported.done r hr (fun w' hw' => hfree w' r hw' heq) ?_
    rwa [heq]
  refine ⟨{ h.listed with left := fun u hu hout => ?_ },
    h.claimed.update (fun _ => h.listed.made w hacts.1)
      (fun u st t _ _ hr => { hr with }) (mayClaim_none rfl), ⟨?_, ?_, ?_, ?_, ?_⟩⟩
  · refine h.listed.left_update hu hout fun hu' => ?_
    rw [hidle] at hu'
    cases hu'
  · dsimp only [setPhase]
    refine fun u r => update_rule u (fun hr => ?_) fun _ hr => ?_
    · exact Option.some.inj hr ▸ mem_cons_self
    · exact mem_cons_of_mem _ (h.reported.carried u r hr)
  · dsimp only [setPhase]
    intro u u' r r'
    refine update_rule u ?_ fun _ => ?_ <;> refine update_rule u' ?_ fun _ => ?_ <;> intro hr hr' heq
    · rfl
    · obtain rfl : rep = r := Option.some.inj hr
      exact absurd (heq.symm.trans hchild) (hfree u' r' hr')
    · obtain rfl : rep = r' := Option.some.inj hr'
      exact absurd (heq.trans hchild) (hfree u r hr)
    · exact h.reported.excl u u' r r' hr hr' heq
  · intro r hr
    rcases mem_cons.mp hr with rfl | hr
    · subst hrep
      exact ⟨h.listed.made c hc, hd, rfl, rfl⟩
    · exact h.reported.own r hr
  · rw [map_cons, nodup_cons]
    refine ⟨fun hmem => ?_, h.reported.once⟩
    obtain ⟨r, hr, heq⟩ := mem_map.mp hmem
    exact hnew r hr (heq.trans hchild)
  · intro r hr hnone
    rcases mem_cons.mp hr with rfl | hr
    · have hself : update s.phase w (.collect r 0) w = .collect r 0 := update_self ..
      exact absurd (congrArg Phase.report hself) (hnone w)
    · refine h.reported.done r hr fun u hu => hnone u ?_
      dsimp only [setPhase]
      revert hu
      refine update_rule u (fun hu => ?_) fun _ hu => hu
      rw [hidle] at hu
      cases hu

theorem Inv.finish (h : Inv s) {r : Report T} (hreport : (s.phase w).report = some r)
    (htarget : (s.phase w).target = none) (hout : r.child ∉ s.table) :
    Inv (s.setPhase w .idle) := by
  refine ⟨{ h.listed with left := fun u hu hgone => ?_ },
    h.claimed.update (absurd rfl)
      (fun u st t _ _ hr => { hr with }) (mayClaim_none rfl),
    h.reported.update h.reported.own (fun r' hr' => ?_) fun r' hr' => Or.inr ?_⟩
  · refine h.listed.left_update hu hgone fun hu' => ?_
    simp [htarget] at hu'
  · cases hr'
  · obtain rfl : r = r' := Option.some.inj (hreport.symm.trans hr')
    exact hout

theorem Inv.unlink (h : Inv s) {wait : Option (Report T × ℕ)} {adopter init : ℕ}
    (hphase : s.phase w = .reap .checked t wait) :
    Inv ((s.unlink t adopter init).setPhase w (.reap .unlinked t wait)) := by
  have htarget : (s.phase w).target = some (.checked, t) := by rw [hphase]; rfl
  -- No other reaper has claimed the task.
  have hlone : ∀ {u st v}, u ≠ w → (s.phase u).target = some (st, v) → v ≠ t :=
    fun huw hu heq => huw (h.claimed.excl _ w _ .checked t (heq ▸ hu) htarget)
  have hreaps := h.claimed.reaps htarget
  rw [hphase] at hreaps
  have hmem : ∀ {u}, u ∈ s.table.erase t ↔ u ≠ t ∧ u ∈ s.table := h.listed.nodup.mem_erase_iff
  refine ⟨{ h.listed with
    nodup := h.listed.nodup.erase t
    made := fun u hu => h.listed.made u (mem_of_mem_erase hu)
    freedOut := fun u hu hin => h.listed.freedOut u hu (mem_of_mem_erase hin)
    left := fun u hu hout => ?_ },
    h.claimed.update (p := .reap .unlinked t wait) (fun _ => h.claimed.busy w (by simp [hphase]))
      (fun u st v huw hu hr => { hr with
        stage := (hmem.trans (and_iff_right (hlone huw hu))).trans hr.stage })
      (mayClaim_some rfl { hreaps with
        stage := iff_of_false (fun hin => (hmem.mp hin).1 rfl) (by simp) }
        fun u st' huw hu => hlone huw hu rfl),
    h.reported.update (p := .reap .unlinked t wait) h.reported.own (fun r hr => by rwa [hphase])
      (fun r hr => Or.inl (by rwa [hphase] at hr)) fun u hu => mem_of_mem_erase hu⟩
  · by_cases hut : u = t
    · refine Or.inr ⟨w, (congrArg Phase.target (update_self w _ _)).trans ?_⟩
      rw [hut]
      rfl
    · refine h.listed.left_update hu (fun hin => hout (hmem.mpr ⟨hut, hin⟩)) fun hu' => ?_
      rw [htarget] at hu'
      cases hu'

theorem Inv.free (h : Inv s) {wait : Option (Report T × ℕ)}
    (hphase : s.phase w = .reap .unlinked t wait) :
    Inv { s.setPhase w .idle with freed := t :: s.freed } := by
  have htarget : (s.phase w).target = some (.unlinked, t) := by rw [hphase]; rfl
  have hreaps := h.claimed.reaps htarget
  have hout : t ∉ s.table := fun hin => hreaps.stage.mp hin rfl
  refine ⟨{ h.listed with
    freedMade := ?_
    freedNodup := nodup_cons.mpr ⟨hreaps.kept, h.listed.freedNodup⟩
    freedOut := ?_
    left := ?_ },
    h.claimed.update (absurd rfl) (fun u st v huw hu hr => { hr with kept := ?_ }) (mayClaim_none rfl),
    h.reported.update h.reported.own (fun r hr => ?_) fun r hr => Or.inr ?_⟩
  · intro u hu
    rcases mem_cons.mp hu with rfl | hu
    · exact hreaps.made
    · exact h.listed.freedMade u hu
  · intro u hu
    rcases mem_cons.mp hu with rfl | hu
    · exact hout
    · exact h.listed.freedOut u hu
  · intro u hu hgone
    by_cases hut : u = t
    · exact Or.inl (hut ▸ mem_cons_self)
    · refine (h.listed.left_update hu hgone fun hu' => ?_).imp_left (mem_cons_of_mem _)
      rw [htarget] at hu'
      exact absurd (Prod.mk.inj (Option.some.inj hu')).2.symm hut
  · have hvt : v ≠ t := fun heq =>
      huw (h.claimed.excl u w st .unlinked t (heq ▸ hu) htarget)
    exact fun hin => (mem_cons.mp hin).elim hvt hr.kept
  · cases hr
  · exact hreaps.child r hr ▸ hout

end DosKernel.Sched.Procs

import DosKernel.Sched.Collect

namespace DosKernel.Sched.Procs

open DosKernel.Lib
open Function (update update_of_ne update_self)

variable {T : Type} [DecidableEq T]

-- A dead child is reported by at most one wait, with its pid and exit code, and is out of the table
-- when that is over; a task that left it is freed once, by the reaper that unlinked it.
structure Collected (s : Procs T) : Prop where
  once : (s.reports.map Report.child).Nodup
  own : ∀ r ∈ s.reports, s.state r.child = .dead ∧ r.pid = s.pid r.child ∧
    r.code = s.exitCode r.child
  done : ∀ r ∈ s.reports, (∀ w, (s.phase w).report ≠ some r) → r.child ∉ s.table
  freedNodup : s.freed.Nodup
  freed : ∀ t ∈ s.freed, t ∉ s.table ∧ ∀ w st, (s.phase w).target ≠ some (st, t)
  left : ∀ t ∈ s.made, t ∉ s.table →
    t ∈ s.freed ∨ ∃ w, (s.phase w).target = some (.unlinked, t) ∧
      ∀ w' st, (s.phase w').target = some (st, t) → w' = w

-- A scan finds no child that another wait has found and not reaped, and no wait gives up its reap.
def Separate (s : Procs T) : WaitStep T → Prop
  | .scan w want => s.Acts w → ∀ c ∈ s.waitScan (s.taskTgid w) want,
      ∀ w', (s.phase w').report.map Report.child ≠ some c
  | .recheck w => ∀ r tries, s.phase w = .refused r tries →
      tries ≤ maxTries ∨ s.taskFind r.pid = none
  | _ => True

def Unwrapped (s : Procs T) : WaitStep T → Prop
  | .spawn t _ => t ∉ s.made → s.nextPid < intMax
  | _ => True

variable {s : Procs T} {w t : T}

omit [DecidableEq T] in
theorem Inv.collected (h : Inv s) : Collected s := by
  refine ⟨h.reported.once, fun r hr => (h.reported.own r hr).2, h.reported.done,
    h.listed.freedNodup, fun t ht => ⟨h.listed.freedOut t ht, fun w st hw => ?_⟩,
    fun t ht hout => ?_⟩
  · exact (h.claimed.reaps hw).kept ht
  · refine (h.listed.left t ht hout).imp_right fun hex => hex.imp fun w hw => ⟨hw, ?_⟩
    exact fun w' st hw' => h.claimed.excl w' w st .unlinked t hw' hw

theorem Inv.mayClaim (h : Inv s) {pid : ℕ} {p : Phase T} (hclaim : s.reapClaim pid = some t)
    (htarget : p.target = some (.claimed, t)) (hchild : ∀ r, p.report = some r → r.child = t) :
    MayClaim { s with reaping := update s.reaping t true } w p := by
  obtain ⟨hin, -, hd, hfree⟩ := mem_of_reapClaim hclaim
  refine mayClaim_some htarget ⟨hd, update_self .., h.listed.made t hin,
    fun hf => h.listed.freedOut t hf hin, iff_of_true hin (by simp), hchild⟩ fun w' st' _ hw' => ?_
  have hreaping := (h.claimed.reaps hw').reaping
  rw [hfree] at hreaping
  cases hreaping

theorem Inv.reaping_claim (h : Inv s) {u : T} {st : ReapStage}
    (hu : (s.phase w).target = some (st, u)) : update s.reaping t true u = true := by
  by_cases hut : u = t
  · exact hut ▸ update_self ..
  · exact (update_of_ne hut _ _).trans (h.claimed.reaps hu).reaping

theorem inv_step {a : WaitStep T} (h : Inv s) (hwrap : Unwrapped s a) (hsep : Separate s a) :
    Inv (s.step a) := by
  cases a with
  | spawn t c => exact refuse_rule h fun ht => h.spawn ht (hwrap ht)
  | exit t code adopter init => exact guard_rule h fun hacts => h.exit hacts
  | offCpu t =>
    refine guard_rule h fun _ => ?_
    exact ⟨{ h.listed with }, { h.claimed with reaps := fun hu => { h.claimed.reaps hu with } },
      { h.reported with }⟩
  | scan w want =>
    refine guard_rule h fun hacts => ?_
    split
    · exact h
    · next c hscan =>
      obtain ⟨hin, hd⟩ := mem_of_waitScan hscan
      refine h.scan hacts hin hd fun w' r hr heq => hsep hacts c hscan w' ?_
      rw [hr, Option.map_some, heq]
  | collect w =>
    rw [step]
    split
    · next r tries hphase =>
      have hw : w ∈ s.made := h.claimed.busy w (by simp [hphase])
      have hreport : (s.phase w).report = some r := by rw [hphase]; rfl
      have hnone : (s.phase w).target = none := by rw [hphase]; rfl
      have hleft : ∀ {p : Phase T} t, (s.phase w).target = some (.unlinked, t) →
          p.target = some (.unlinked, t) := fun t ht => by simp [hnone] at ht
      split
      · exact h.rephase w _ s.reaping hw hreport.symm hleft
          (fun w' st t _ ht => (h.claimed.reaps ht).reaping) (mayClaim_none rfl)
      · next t hclaim =>
        refine h.rephase w _ _ hw hreport.symm hleft (fun w' st u _ hu => h.reaping_claim hu)
          (h.mayClaim hclaim rfl fun r' hr' => ?_)
        -- Only the child has the pid that the wait holds.
        obtain rfl : r = r' := Option.some.inj hr'
        obtain ⟨hin, hpid, -, -⟩ := mem_of_reapClaim hclaim
        obtain ⟨hmade, -, hrpid, -⟩ := h.reported.own r (h.reported.carried w r hreport)
        exact h.listed.pidInj _ hmade _ (h.listed.made t hin) (hrpid.symm.trans hpid.symm)
    · exact h
  | recheck w =>
    rw [step]
    split
    · next r tries hphase =>
      have hreport : (s.phase w).report = some r := by rw [hphase]; rfl
      have hnone : (s.phase w).target = none := by rw [hphase]; rfl
      split
      · next hc =>
        have hfind : s.taskFind r.pid = none := by
          rcases hc with hfind | hlt
          · exact hfind
          · exact (hsep r tries hphase).resolve_left (Nat.not_le.mpr hlt)
        refine h.finish hreport hnone fun hin => ?_
        have hpid := (h.reported.own r (h.reported.carried w r hreport)).2.2.1
        have hmiss := List.find?_eq_none.mp hfind r.child hin
        simp [hpid] at hmiss
      · exact h.rephase w _ s.reaping (h.claimed.busy w (by simp [hphase])) hreport.symm
          (fun t ht => by simp [hnone] at ht)
          (fun w' st t _ ht => (h.claimed.reaps ht).reaping) (mayClaim_none rfl)
    · exact h
  | reap w pid =>
    refine guard_rule h fun hacts => ?_
    split
    · exact h
    · next t hclaim =>
      have hidle := hacts.2.2
      exact h.rephase w _ _ (h.listed.made w hacts.1) (by rw [hidle]; rfl)
        (fun u hu => by rw [hidle] at hu; cases hu) (fun w' st u _ hu => h.reaping_claim hu)
        (h.mayClaim hclaim rfl fun r' hr' => by cases hr')
  | check w =>
    rw [step]
    split
    · next t wait hphase =>
      have hw : w ∈ s.made := h.claimed.busy w (by simp [hphase])
      have htarget : (s.phase w).target = some (.claimed, t) := by rw [hphase]; rfl
      split
      · refine h.rephase w _ _ hw ?_ (fun u hu => by simp [htarget] at hu) ?_ (mayClaim_none ?_)
        · rw [hphase]
          cases wait <;> rfl
        · intro w' st u hww hu
          have hut : u ≠ t := fun heq => hww (h.claimed.excl w' w st .claimed t (heq ▸ hu) htarget)
          exact (update_of_ne hut _ _).trans (h.claimed.reaps hu).reaping
        · cases wait <;> rfl
      · have hreaps := h.claimed.reaps htarget
        rw [hphase] at hreaps
        exact h.rephase w _ s.reaping hw (by rw [hphase]; rfl)
          (fun u hu => by simp [htarget] at hu)
          (fun w' st u _ hu => (h.claimed.reaps hu).reaping)
          (mayClaim_some rfl { hreaps with stage := iff_of_true (hreaps.stage.mpr (by simp)) (by simp) }
            fun w' st' hww hu => hww (h.claimed.excl w' w st' .claimed t hu htarget))
    · exact h
  | unlink w adopter init =>
    rw [step]
    split
    · next t wait hphase =>
      split
      · exact h.unlink hphase
      · next hout =>
        have htarget : (s.phase w).target = some (.checked, t) := by rw [hphase]; rfl
        exact absurd ((h.claimed.reaps htarget).stage.mpr (by simp)) hout
    · exact h
  | free w =>
    rw [step]
    split
    · next t wait hphase => exact h.free hphase
    · exact h

theorem separate_of_collected {a : WaitStep T} (h : Inv s) (hafter : Collected (s.step a)) :
    Separate s a := by
  cases a with
  | scan w want =>
    intro hacts c hscan w' hw'
    obtain ⟨r, hr, hchild⟩ := Option.map_eq_some_iff.mp hw'
    rw [step, if_pos hacts, show s.waitScan (s.taskTgid w) want = some c from hscan] at hafter
    have honce := hafter.once
    rw [List.map_cons, List.nodup_cons] at honce
    exact honce.1 (List.mem_map.mpr ⟨r, h.reported.carried w' r hr, hchild⟩)
  | recheck w =>
    intro r tries hphase
    by_contra hgive
    obtain ⟨hlt, hfind⟩ := not_or.mp hgive
    have hreport : (s.phase w).report = some r := by rw [hphase]; rfl
    have hr := h.reported.carried w r hreport
    obtain ⟨d, hd⟩ := Option.ne_none_iff_exists'.mp hfind
    obtain ⟨hin, hpid⟩ := mem_of_taskFind hd
    obtain ⟨hmade, -, hrpid, -⟩ := h.reported.own r hr
    have hdr := h.listed.pidInj _ (h.listed.made d hin) _ hmade (hpid.trans hrpid)
    rw [step, hphase] at hafter
    simp only [Nat.not_le.mp hlt, or_true, if_true] at hafter
    refine hafter.done r hr (fun w' hw' => ?_) (hdr ▸ hin)
    by_cases hww : w' = w
    · rw [hww, show (s.setPhase w .idle).phase w = .idle from update_self ..] at hw'
      cases hw'
    · rw [show (s.setPhase w .idle).phase w' = s.phase w' from
        update_of_ne hww _ _] at hw'
      exact hww (h.reported.excl w' w r r hw' hreport rfl)
  | _ => trivial

omit [DecidableEq T] in
theorem inv_boot : Inv (boot : Procs T) := by
  refine ⟨⟨List.nodup_nil, ?_, ?_, ?_, ?_, List.nodup_nil, ?_, ?_⟩, ⟨?_, ?_, ?_⟩,
    ⟨?_, ?_, ?_, List.nodup_nil, ?_⟩⟩
  all_goals simp [boot, Phase.target, Phase.report]

-- Over every interleaving in which the pid counter does not start again, each exit is collected
-- once exactly as long as no two waits are at one child and none gives up.
theorem collected_iff_separate (acts : List (WaitStep T))
    (hwrap : Allowed step Unwrapped boot acts) :
    Always step Collected boot acts ↔ Allowed step Separate boot acts :=
  always_iff_allowed (fun _ _ => inv_step) (fun _ h => h.collected)
    (fun _ _ h _ => separate_of_collected h) inv_boot hwrap

def family : List (WaitStep (Fin 4)) :=
  [.spawn 0 ⟨0, 0, false, false, false⟩, .spawn 1 ⟨0, 0, true, true, false⟩,
    .spawn 2 ⟨0, 1, false, true, false⟩, .spawn 3 ⟨1, 0, true, true, false⟩, .exit 3 7 0 0]

def oneWait : List (WaitStep (Fin 4)) :=
  family ++ [.offCpu 3, .scan 2 none, .collect 2, .check 2, .unlink 2 0 0, .free 2]

theorem oneWait_collected : Allowed step Unwrapped boot oneWait ∧
    Always step Collected boot oneWait := by
  have hwrap : Allowed step Unwrapped boot oneWait :=
    ⟨fun _ => by decide +kernel, fun _ => by decide +kernel, fun _ => by decide +kernel,
      fun _ => by decide +kernel, trivial, trivial, trivial, trivial, trivial, trivial, trivial,
      trivial⟩
  have hscan : ∀ w, ((run step boot (family ++ [.offCpu 3])).phase w).report.map
      Report.child = none := by decide +kernel
  refine ⟨hwrap, (collected_iff_separate oneWait hwrap).mpr ?_⟩
  refine ⟨trivial, trivial, trivial, trivial, trivial, trivial, fun _ c _ w hw => ?_, trivial,
    trivial, trivial, trivial, trivial⟩
  exact absurd ((hscan w).symm.trans hw) (by simp)

-- Both threads scan before either reaps the child: both report it.
def twoWaits : List (WaitStep (Fin 4)) := family ++ [.scan 1 none, .scan 2 none]

theorem twoWaits_not_collected : ¬ Always step Collected boot twoWaits := by
  intro h
  have honce := h.last.once
  revert honce
  decide +kernel

end DosKernel.Sched.Procs

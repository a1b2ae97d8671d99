import DosKernel.Swap.Store

namespace DosKernel.Swap

open DosKernel.Lib World

variable {Page : Type} {cap : ℕ} {q : Limit} {pages : ℕ → List ℕ} {w : World Page} {k : Key}
  {os : List Out} {slot phys : ℕ} {flags : Flags} {pend : List Key}

section Evict

variable (hc : q.heeded = true → cap ≤ sizeSlots q.size)

include hc

omit hc in
theorem Books.not_names (h : Books q (some slot) pend w) : ¬ Names w k slot :=
  fun hn => (h.named k slot hn).2.2 rfl

omit hc in
theorem Books.evicted (h : Books q (some slot) [] w) (hk : w.entry k = .present phys flags) :
    Books q none [] ((w.vfsWrite slot (w.mem phys)).markSwapped k slot phys flags) := by
  refine (Books.markSwapped (h.vfsWrite fun k' hn => absurd hn h.not_names) hk).written
    fun i hn => ?_
  obtain ⟨_, _, he⟩ := hn
  have hentry : ((w.vfsWrite slot (w.mem phys)).markSwapped k slot phys flags).entry k =
      .swapped slot flags.writable flags.exec := entry_setEntry_self
  rw [hentry] at he
  rw [← (Entry.swapped.inj he).1]
  exact (Function.update_self _ _ _).trans (Function.update_self k (w.mem phys) w.kept).symm

theorem books_evictPages (luck : Key → OutLuck Page) (ks : List Key) (h : Books q none [] w) :
    Books q none [] (evictPages cap luck ks w).2.2 := by
  induction ks generalizing w with
  | nil => exact h
  | cons k ks ih =>
    rw [evictPages.eq_def]
    simp only
    split
    next phys flags hk =>
      obtain ⟨o, w', halloc, hbooks, hentry, -⟩ := slotAlloc_cases hc h
      rw [halloc]
      cases o with
      | none => exact hbooks
      | some slot =>
        have hwrite : ∀ page, Books q (some slot) [] (w'.vfsWrite slot page) :=
          fun page => hbooks.vfsWrite fun k' hn => absurd hn hbooks.not_names
        cases (luck k).left with
        | some left => exact (hwrite left).release
        | none =>
          simp only
          split
          · exact ih (hbooks.evicted (hentry ▸ hk))
          · exact ih (hwrite _).release
    · exact ih h

theorem books_evictRounds (may : ℕ → Bool) (luck : ℕ → Key → OutLuck Page) (s n : ℕ)
    (h : Books q none [] w) : Books q none [] (evictRounds cap pages may luck s n w) := by
  induction n generalizing w with
  | zero => exact h
  | succ n ih =>
    have hround := books_evictPages hc (luck n) (w.collect pages may swapBatch s) h
    exact refuse_rule hround fun _ => ih hround

end Evict

section Cold

-- The pages marked and not yet written: each names its slot, and its frame has its bytes.
def Marked (w : World Page) (os : List Out) : Prop :=
  (os.map Out.key).Nodup ∧ ∀ o ∈ os, w.entry o.key = .swapped o.slot o.flags.writable o.flags.exec ∧
    w.kept o.key = w.mem o.phys

theorem Marked.of_fields {w' : World Page} (h : Marked w os)
    (hw : w'.entry = w.entry ∧ w'.mem = w.mem ∧ w'.kept = w.kept) : Marked w' os := by
  rwa [Marked, hw.1, hw.2.1, hw.2.2]

theorem Marked.of_key {w' : World Page} (h : Marked w os)
    (hk : k ∉ os.map Out.key)
    (hw : ∀ k', k' ≠ k → w'.entry k' = w.entry k' ∧ w'.kept k' = w.kept k')
    (hmem : w'.mem = w.mem) : Marked w' os := by
  refine ⟨h.1, fun o ho => ?_⟩
  obtain ⟨he, hkept⟩ := hw o.key fun heq => hk (heq ▸ List.mem_map_of_mem ho)
  rw [he, hkept, hmem]
  exact h.2 o ho

theorem Marked.not_mem (h : Marked w os) (hk : w.entry k = .present phys flags) :
    k ∉ os.map Out.key := by
  intro hmem
  obtain ⟨o, ho, rfl⟩ := List.mem_map.mp hmem
  rw [(h.2 o ho).1] at hk
  cases hk

theorem Marked.cons (h : Marked w os) (hk : w.entry k = .present phys flags) :
    Marked (w.markSwapped k slot phys flags) (⟨k, phys, flags, slot⟩ :: os) := by
  have hnot := h.not_mem hk
  have hos : Marked (w.markSwapped k slot phys flags) os :=
    h.of_key hnot (fun _ hne => ⟨entry_setEntry_of_ne hne, Function.update_of_ne hne _ _⟩) rfl
  refine ⟨List.nodup_cons.mpr ⟨hnot, h.1⟩, fun o ho => ?_⟩
  obtain rfl | ho := List.mem_cons.mp ho
  · exact ⟨entry_setEntry_self, Function.update_self _ _ _⟩
  · exact hos.2 o ho

theorem Marked.tail {o : Out} (h : Marked w (o :: os)) : Marked w os ∧ o.key ∉ os.map Out.key := by
  obtain ⟨hnot, hnodup⟩ := List.nodup_cons.mp h.1
  exact ⟨⟨hnodup, fun x hx => h.2 x (List.mem_cons_of_mem _ hx)⟩, hnot⟩

theorem Books.mono {pend' : List Key} (h : Books q none pend w)
    (hsub : ∀ k ∈ pend, k ∈ pend') : Books q none pend' w :=
  { h with stored := fun k i hn hk => h.stored k i hn fun hm => hk (hsub k hm) }

theorem Books.undo {o : Out} (h : Books q none (o.key :: pend) w)
    (hn : Names w o.key o.slot) : Books q none pend (w.undo o) := by
  refine (h.unname hn fun _ => not_names_present).release.written fun i hi => ?_
  rw [Names, fields_swapSlotRelease.1] at hi
  exact absurd hi not_names_present

theorem Marked.undo {o : Out} (h : Marked w os) (ho : o.key ∉ os.map Out.key) :
    Marked (w.undo o) os := by
  refine Marked.of_fields (w := w.setEntry o.key (.present o.phys o.flags)) ?_ fields_swapSlotRelease
  exact h.of_key ho (fun _ hne => ⟨entry_setEntry_of_ne hne, rfl⟩) rfl

theorem books_markCold (hc : q.heeded = true → cap ≤ sizeSlots q.size)
    (luck : Key → OutLuck Page) (ks : List Key) (outs : List Out)
    (h : Books q none (outs.map Out.key) w) (hm : Marked w outs) :
    Books q none ((markCold cap luck ks outs w).1.map Out.key)
        (markCold cap luck ks outs w).2 ∧
      Marked (markCold cap luck ks outs w).2 (markCold cap luck ks outs w).1 := by
  induction ks generalizing w outs with
  | nil => exact ⟨h, hm⟩
  | cons k ks ih =>
    rw [markCold.eq_def]
    simp only
    obtain ⟨o, w', halloc, hbooks, hfields⟩ := slotAlloc_cases hc h
    have hm' := hm.of_fields hfields
    rw [halloc]
    cases o with
    | none => exact ⟨hbooks, hm'⟩
    | some slot =>
      simp only
      split
      next phys flags hmark hk =>
        have hmarked := hbooks.markSwapped hk
        have hcons : Marked _ (⟨k, phys, flags, slot⟩ :: outs) := hm'.cons hk
        split
        · exact ih outs (hmarked.undo ⟨_, _, entry_setEntry_self⟩) (hcons.tail.1.undo hcons.tail.2)
        · exact ih _ hmarked hcons
      · exact ih outs hbooks.release (hm'.of_fields fields_swapSlotRelease)

theorem books_undo (h : Books q none (os.map Out.key) w) (hm : Marked w os) :
    Books q none [] (os.foldl undo w) := by
  induction os generalizing w with
  | nil => exact h
  | cons o os ih =>
    have hn : Names w o.key o.slot := ⟨_, _, (hm.2 o List.mem_cons_self).1⟩
    exact ih (h.undo hn) (hm.tail.1.undo hm.tail.2)

theorem books_writeCold (luck : Key → OutLuck Page)
    (h : Books q none (os.map Out.key) w) (hm : Marked w os) :
    Books q none [] (writeCold luck os w) := by
  induction os generalizing w with
  | nil => exact h
  | cons o os ih =>
    obtain ⟨hentry, hkept⟩ := hm.2 o List.mem_cons_self
    have hself : ∀ k, Names w k o.slot → k ∈ (o :: os).map Out.key := by
      intro k hn
      rw [h.once k o.key o.slot hn ⟨_, _, hentry⟩]
      exact List.mem_cons_self
    rw [writeCold.eq_def]
    simp only
    split
    · refine ih ((h.vfsWrite hself).written fun i hn => ?_) hm.tail.1
      obtain ⟨_, _, hi⟩ := hn
      have hslot := (Entry.swapped.inj (hentry.symm.trans hi)).1
      rw [← hslot]
      exact (Function.update_self _ _ _).trans hkept.symm
    · exact books_undo (h.vfsWrite hself) ⟨hm.1, hm.2⟩

end Cold

section Restore

theorem books_restorePage (luck : BackLuck) (k : Key) (h : Books q none [] w) :
    Books q none [] (restorePage luck k w).2 := by
  rw [restorePage.eq_def]
  split
  next slot writable exec hk =>
    split
    · exact h
    next f hf =>
      have hmem : Books q none [] { w with mem := Function.update w.mem f (w.store slot) } :=
        { h with }
      split
      · simp only
        split
        · exact (hmem.unname (e := .present f ⟨false, false, writable, exec⟩) ⟨_, _, hk⟩
            fun _ => not_names_present).release
        · exact hmem
      · exact h
  · exact h

def turn (t : Key × BackLuck) : Act Page := .restoreOne t.1 t.2

variable (pages) in
theorem restorePages_run (luck : Key → BackLuck) (ks : List Key) (w : World Page) :
    ∃ ts : List _, (restorePages luck ks w).2 = run (World.step pages) w (ts.map turn) := by
  induction ks generalizing w with
  | nil => exact ⟨[], rfl⟩
  | cons k ks ih =>
    rw [restorePages]
    split
    · obtain ⟨ts, hts⟩ := ih (restorePage (luck k) k w).2
      exact ⟨(k, luck k) :: ts, hts⟩
    · exact ⟨[(k, luck k)], rfl⟩

theorem restoreRounds_run (luck : ℕ → Key → BackLuck) (s n : ℕ) (w : World Page) :
    ∃ ts : List _, restoreRounds pages luck s n w = run (World.step pages) w (ts.map turn) := by
  induction n generalizing w with
  | zero => exact ⟨[], rfl⟩
  | succ n ih =>
    rw [restoreRounds]
    split
    · exact ⟨[], rfl⟩
    · obtain ⟨ts, hts⟩ := restorePages_run pages (luck n) (w.scollect pages s) w
      simp only
      split
      · obtain ⟨us, hus⟩ := ih (restorePages (luck n) (w.scollect pages s) w).2
        refine ⟨ts ++ us, ?_⟩
        rw [hus, hts, List.map_append, run, run, run, List.foldl_append]
      · exact ⟨ts, hts⟩

end Restore

section Runs

theorem not_names_absent : ¬ Names (w.setEntry k .absent) k slot := by
  rintro ⟨_, _, hk⟩
  rw [entry_setEntry_self] at hk
  cases hk

theorem books_drop (h : Books q none [] w) (k : Key) : Books q none [] (w.drop k) := by
  rw [drop.eq_def]
  split
  next slot writable exec hk =>
    exact (h.unname ⟨_, _, hk⟩ fun _ => not_names_absent).release
  next hk =>
    refine h.setEntry (fun i hn => ?_) fun _ => not_names_absent
    obtain ⟨_, _, hi⟩ := hn
    exact hk _ _ _ hi

theorem books_foldl_drop (ks : List Key) (h : Books q none [] w) :
    Books q none [] (ks.foldl drop w) := by
  induction ks generalizing w with
  | nil => exact h
  | cons k ks ih => exact ih (books_drop h k)

-- The setting was refreshed when pages are evicted, and is not lowered below what is in use.
def World.Heeded (w : World Page) : Act Page → Prop
  | .evict _ opened _ _ => opened = true → w.capSlots ≤ sizeSlots w.size
  | .configure text => w.slotsUsed ≤ sizeSlots text
  | _ => True

def Inv (heeded : Bool) (w : World Page) : Prop := ∃ size, Books ⟨size, heeded⟩ none [] w

theorem Inv.step {b : Bool} {a : Act Page} (h : Inv b w) (ha : b = true → w.Heeded a) :
    Inv b (w.step pages a) := by
  obtain ⟨size, h⟩ := h
  have hsize : w.size = size := h.size
  cases a with
  | evict s opened may luck =>
    exact ⟨size, guard_rule h fun ho =>
      books_evictRounds (fun hb => hsize ▸ ha hb ho) may luck s _ h⟩
  | evictCold s may luck =>
    refine ⟨size, ?_⟩
    have hcap : b = true → w.refreshCap.capSlots ≤ sizeSlots size :=
      fun _ => Nat.le_of_eq (congrArg sizeSlots hsize)
    obtain ⟨hbooks, hmarked⟩ := books_markCold (w := w.refreshCap) hcap luck
      (w.refreshCap.collect pages may pressureBatch s) [] { h with } ⟨List.nodup_nil, by simp⟩
    refine books_writeCold luck (hbooks.mono fun k hk => ?_) ⟨?_, fun o ho => ?_⟩
    · simpa using hk
    · rw [List.map_reverse, List.nodup_reverse]
      exact hmarked.1
    · exact hmarked.2 o (List.mem_reverse.mp ho)
  | restoreOne k luck => exact ⟨size, books_restorePage luck k h⟩
  | teardown s => exact ⟨size, books_foldl_drop _ h⟩
  | touch phys page => exact ⟨size, { h with }⟩
  | map k phys flags =>
    refine ⟨size, ?_⟩
    rw [step.eq_def]
    simp only
    split
    · exact h
    next hk =>
      refine h.setEntry (fun i hn => ?_) fun _ => not_names_present
      obtain ⟨_, _, hi⟩ := hn
      exact hk _ _ _ hi
  | configure text => exact ⟨text, { h with size := rfl, ceiling := ha }⟩
  | refresh => exact ⟨size, { h with }⟩

theorem inv_boot {b : Bool} (size : List Char) (present : Key → Option (ℕ × Flags))
    (store mem : ℕ → Page) (kept : Key → Page) : Inv b (boot size present store mem kept) := by
  have hnone : ∀ k slot, ¬ Names (boot size present store mem kept) k slot := by
    rintro k slot ⟨_, _, hk⟩
    have hk : (present k).elim Entry.absent (fun p => .present p.1 p.2) = _ := hk
    cases hp : present k with
    | none | some p =>
      rw [hp] at hk
      cases hk
  exact ⟨size, by simp [boot], (fun ht => by cases ht), fun _ => rfl, rfl, rfl,
    fun _ => Nat.zero_le _, (fun _ hl => by cases hl), by simp [boot],
    fun k i hn => absurd hn (hnone k i), fun k _ i hn => absurd hn (hnone k i),
    fun k i hn => absurd hn (hnone k i)⟩

-- Slots and entries always agree and pages come back as they were, by a fault or with their task.
-- The ceiling is kept in the runs that heed it.
theorem slots_owned (pages : ℕ → List ℕ) (size : List Char) (present : Key → Option (ℕ × Flags))
    (store mem : ℕ → Page) (kept : Key → Page) (acts : List (Act Page)) :
    (Always (World.step pages) (Sound pages) (boot size present store mem kept) acts ∧
      ∀ (w : World Page) luck s n, ∃ ts : List _,
        restoreRounds pages luck s n w = run (World.step pages) w (ts.map turn)) ∧
    (Allowed (World.step pages) World.Heeded (boot size present store mem kept) acts →
      Always (World.step pages) World.Within (boot size present store mem kept) acts) := by
  refine ⟨⟨?_, fun w luck s n => restoreRounds_run luck s n w⟩, ?_⟩
  · exact always_of_step (I := Inv false) (fun _ a h => h.step fun hb => by cases hb)
      (fun _ h => h.elim fun _ h => h.sound) (inv_boot ..)
  · refine always_of_allowed (I := Inv true) (fun _ a h ha => h.step fun _ => ha) (fun w h => ?_)
      (inv_boot ..)
    obtain ⟨size, h⟩ := h
    rw [World.Within, h.size]
    exact h.ceiling rfl

theorem firstFree_ne_none {s : Finset ℕ} {i n j : ℕ} (hlo : i ≤ j) (hhi : j < i + n) (hj : j ∉ s) :
    firstFree s i n ≠ none := by
  induction n generalizing i with
  | zero => omega
  | succ n ih =>
    rw [firstFree]
    split
    next hi =>
      have hne : i ≠ j := fun heq => hj (heq ▸ hi)
      exact ih (by omega) (by omega)
    · exact Option.some_ne_none _

theorem slotAlloc_some (h : Books q none pend w) (hcap : w.slotsUsed + 1 < cap)
    (hmax : cap ≤ swapSlots) : ∃ i w', w.slotAlloc cap = (some i, w') ∧
      w'.slotsUsed = w.slotsUsed + 1 ∧ w'.entry = w.entry ∧ w'.size = w.size ∧
      w'.capSlots = w.capSlots := by
  rw [slotAlloc.eq_def, if_neg (by omega)]
  obtain ⟨w', hw', hbooks, hzero, hused, hentry, -, -, hfields⟩ := h.reserved
  have hcard : w'.slotMap.card < (Finset.range swapSlots).card := by
    rw [← Finset.card_erase_add_one hzero, ← hbooks.used, Finset.card_range]
    omega
  obtain ⟨j, hj, hfree⟩ := Finset.exists_mem_notMem_of_card_lt_card hcard
  have hj : j < 0 + swapSlots := by simpa using hj
  obtain ⟨i, hi⟩ := Option.ne_none_iff_exists'.mp (firstFree_ne_none (Nat.zero_le j) hj hfree)
  simp only [hw', hi]
  exact ⟨i, _, rfl, congrArg (· + 1) hused, hentry, hfields⟩

-- Every space has one page; the setting is one megabyte, which nothing has read yet.
def plain : Flags := ⟨false, false, true, false⟩

def onePages : World Unit :=
  boot "1".toList (fun _ => some (0, plain)) (fun _ => ()) (fun _ => ()) fun _ => ()

def evictions (n : ℕ) : List (Act Unit) :=
  (List.range n).map fun s => .evict s true (fun _ => true) fun _ _ => ⟨none, true, false⟩

theorem evictions_fill {n : ℕ} (hn : n ≤ 257) :
    let w := run (World.step fun _ => [0]) onePages (evictions n)
    Inv false w ∧ w.slotsUsed = n ∧ w.capSlots = swapSlots ∧ w.size = "1".toList ∧
      ∀ s, n ≤ s → w.entry (s, 0) = .present 0 plain := by
  induction n with
  | zero => exact ⟨inv_boot .., rfl, rfl, rfl, fun _ _ => rfl⟩
  | succ n ih =>
    obtain ⟨hinv, hused, hcap, hsize, hentry⟩ := ih (by omega)
    have hrun : run (World.step fun _ => [0]) onePages (evictions (n + 1)) =
        (run (World.step fun _ => [0]) onePages (evictions n)).step (fun _ => [0])
          (.evict n true (fun _ => true) fun _ _ => ⟨none, true, false⟩) := by
      rw [evictions, List.range_succ, List.map_append, run, List.foldl_append]
      rfl
    dsimp only
    rw [hrun]
    generalize run (World.step fun _ => [0]) onePages (evictions n) = w at *
    refine ⟨hinv.step fun hb => (by cases hb), ?_⟩
    obtain ⟨size, hbooks⟩ := hinv
    obtain ⟨i, w', halloc, hused', hentry', hsize', hcap'⟩ := slotAlloc_some hbooks
      (show w.slotsUsed + 1 < w.capSlots by rw [hused, hcap, swapSlots]; omega) (by rw [hcap])
    have hout : w.step (fun _ => [0])
        (.evict n true (fun _ => true) fun _ _ => ⟨none, true, false⟩) =
        (w'.vfsWrite i (w'.mem 0)).markSwapped (n, 0) i 0 plain := by
      simp [World.step, evictRounds, collect, hentry n (Nat.le_refl _), plain, swapBatch,
        evictPages, halloc, markSwapped, setEntry]
    rw [hout]
    refine ⟨hused'.trans (by rw [hused]), hcap'.trans hcap, hsize'.trans hsize, fun s hs => ?_⟩
    have hne : (s, 0) ≠ (n, 0) := by simp; omega
    exact (entry_setEntry_of_ne hne).trans (congrFun hentry' _ ▸ hentry s (by omega))

theorem ceiling_passed : (run (World.step fun _ => [0]) onePages (evictions 257)).slotsUsed = 257 ∧
    sizeSlots "1".toList = 256 ∧
    ¬ Always (World.step fun _ => [0]) Within onePages (evictions 257) := by
  obtain ⟨-, hused, -, hsize, -⟩ := evictions_fill (Nat.le_refl 257)
  have hslots : sizeSlots "1".toList = 256 := by decide
  refine ⟨hused, hslots, fun h => ?_⟩
  have hlast : Within (run (World.step fun _ => [0]) onePages (evictions 257)) := h.last
  rw [Within, hused, hsize, hslots] at hlast
  omega

end Runs

end DosKernel.Swap

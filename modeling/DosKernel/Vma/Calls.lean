import DosKernel.Vma.View

namespace DosKernel.Vma

open DosKernel.Lib Nat

variable {arch : Arch} {l l' : List (Range Area)} {n r : Range Area} {a b c p : ℕ} {vf : Vf}

-- The list is sorted, no ranges overlap, and they lie on page bounds below the end of memory.
structure WF (arch : Arch) (l : List (Range Area)) : Prop where
  ordered : Ordered l
  aligned : ∀ r ∈ l, pg ∣ r.lo ∧ pg ∣ r.hi
  bounded : ∀ r ∈ l, r.hi < arch.size

def pages (l : List (Range Area)) : ℕ → Option Page := view Area.page l

theorem pages_congr (h : Ordered l) (h' : Ordered l')
    (hsame : ∀ x, Holds Area.page l' p x ↔ Holds Area.page l p x) : pages l' p = pages l p :=
  view_congr h h' hsame

section Lists

theorem pages_merge (h : Ordered l) : pages (merge l) p = pages l p :=
  pages_congr h (ordered_merge h) fun _ => holds_merge h

theorem WF.merge (h : WF arch l) : WF arch (merge l) where
  ordered := ordered_merge h.ordered
  aligned := by
    intro r hr
    obtain ⟨⟨s, hs, hlo⟩, ⟨t, ht, hhi⟩⟩ := mem_merge hr
    rw [hlo, hhi]
    exact ⟨(h.aligned s hs).1, (h.aligned t ht).2⟩
  bounded := by
    intro r hr
    obtain ⟨-, ⟨t, ht, hhi⟩⟩ := mem_merge hr
    rw [hhi]
    exact h.bounded t ht

theorem pages_removeRange (h : Ordered l) (ha : ¬ Straddled l a) (hb : ¬ Straddled l b) :
    pages (removeRange l a b) p = if a ≤ p ∧ p < b then none else pages l p := by
  apply Option.ext
  intro x
  rw [pages, view_eq_some_iff (ordered_removeRange h), holds_removeRange ha hb]
  split
  · simp [*]
  · rw [pages, view_eq_some_iff h]
    simp [*]

theorem WF.removeRange (h : WF arch l) : WF arch (removeRange l a b) where
  ordered := ordered_removeRange h.ordered
  aligned := fun r hr => h.aligned r (mem_removeRange.mp hr).1
  bounded := fun r hr => h.bounded r (mem_removeRange.mp hr).1

def Page.protect (vf : Vf) (x : Page) : Page := { x with vf := vf }

theorem pages_protectRange (h : Ordered l) (ha : ¬ Straddled l a) (hb : ¬ Straddled l b) :
    pages (protectRange a b vf l) p =
      if a ≤ p ∧ p < b then (pages l p).map (Page.protect vf) else pages l p := by
  apply Option.ext
  intro x
  rw [pages, view_eq_some_iff (ordered_protectRange h), holds_protectRange h ha hb]
  split
  · rw [Option.map_eq_some_iff]
    exact exists_congr fun y => and_congr_left fun _ => (view_eq_some_iff h).symm
  · rw [pages, view_eq_some_iff h]
    simp

theorem WF.protectRange (h : WF arch l) : WF arch (protectRange a b vf l) where
  ordered := ordered_protectRange h.ordered
  aligned := by
    intro n hn
    obtain ⟨r, hr, rfl⟩ := (mem_protectRange h.ordered).mp hn
    rw [bounds_ite_setVf.1, bounds_ite_setVf.2]
    exact h.aligned r hr
  bounded := by
    intro n hn
    obtain ⟨r, hr, rfl⟩ := (mem_protectRange h.ordered).mp hn
    rw [bounds_ite_setVf.2]
    exact h.bounded r hr

def Free (l : List (Range Area)) (a b : ℕ) : Prop := ∀ r ∈ l, r.hi ≤ a ∨ b ≤ r.lo

theorem pages_of_free (h : Free l a b) (hp : a ≤ p ∧ p < b) : pages l p = none := by
  rw [pages, view_eq_none_iff]
  rintro r hr ⟨hlo, hhi⟩
  have := h r hr
  omega

theorem pages_insert (h : Ordered l) (hn : n.lo < n.hi) (hfree : Free l n.lo n.hi) :
    pages (insert n l) p = if n.lo ≤ p ∧ p < n.hi then some (n.data.page (p - n.lo))
      else pages l p := by
  have hord := ordered_insert h hn hfree
  split
  next hp =>
    rw [pages, view_eq_some_iff hord, holds_insert]
    exact .inl ⟨hp, rfl⟩
  next hp =>
    apply pages_congr h hord
    intro x
    rw [holds_insert]
    constructor
    · rintro (⟨hp', -⟩ | hx)
      · exact absurd hp' hp
      · exact hx
    · exact .inr

theorem WF.insert (h : WF arch l) (hn : n.lo < n.hi) (hfree : Free l n.lo n.hi)
    (halign : pg ∣ n.lo ∧ pg ∣ n.hi) (hbound : n.hi < arch.size) : WF arch (insert n l) where
  ordered := ordered_insert h.ordered hn hfree
  aligned := by
    intro r hr
    obtain rfl | hr := mem_insert.mp hr
    · exact halign
    · exact h.aligned r hr
  bounded := by
    intro r hr
    obtain rfl | hr := mem_insert.mp hr
    · exact hbound
    · exact h.bounded r hr

end Lists

section Split

structure Split (arch : Arch) (l l' : List (Range Area)) (c : ℕ) : Prop where
  wf : WF arch l'
  same : ∀ p, pages l' p = pages l p
  cut : ¬ Straddled l' c
  fewer : ∀ b, Straddled l' b → Straddled l b
  later : ∀ b, c < b → Straddled l b → Straddled l' b

theorem Split.refl (h : WF arch l) (hc : ¬ Straddled l c) : Split arch l l c :=
  ⟨h, fun _ => rfl, hc, fun _ hb => hb, fun _ _ hb => hb⟩

theorem lo_ne_of_inside (h : Ordered l) (hr : r ∈ l) (hin : r.lo < c ∧ c < r.hi) (hn : n ∈ l) :
    n.lo ≠ c := by
  rintro rfl
  have hsame := h.eq_of_has hn hr ⟨Nat.le_refl _, h.proper n hn⟩ ⟨Nat.le_of_lt hin.1, hin.2⟩
  rw [hsame] at hin
  exact Nat.lt_irrefl _ hin.1

theorem split_cut (h : WF arch l) (hc : pg ∣ c) (hr : r ∈ l) (hin : r.lo < c ∧ c < r.hi) :
    Split arch l (cut c l) c where
  wf := by
    refine ⟨ordered_cut h.ordered fun _ => lo_ne_of_inside h.ordered hr hin, ?_, ?_⟩
    · intro n hn
      obtain hn | ⟨v, hv, -, rfl | rfl⟩ := mem_cut hn
      · exact h.aligned n hn
      · exact ⟨(h.aligned v hv).1, hc⟩
      · exact ⟨hc, (h.aligned v hv).2⟩
    · intro n hn
      obtain hn | ⟨v, hv, hv', rfl | rfl⟩ := mem_cut hn
      · exact h.bounded n hn
      · exact Nat.lt_trans hv'.2 (h.bounded v hv)
      · exact h.bounded v hv
  same := fun _ =>
    pages_congr h.ordered (ordered_cut h.ordered fun _ => lo_ne_of_inside h.ordered hr hin)
      fun _ => holds_cut
  cut := not_straddled_cut h.ordered
  fewer := fun _ hb => straddled_of_cut hb
  later := fun _ hcb hb => straddled_cut hb hcb

theorem splitAt_cases (h : WF arch l) (hc : pg ∣ c) (mem : Bool) :
    (splitAt l c mem = none ∧ Straddled l c ∧ mem = false) ∨
      ∃ l', splitAt l c mem = some l' ∧ (Straddled l c → mem = true) ∧ Split arch l l' c := by
  rw [splitAt]
  cases hfind : find c l with
  | none =>
    have hno : ¬ Straddled l c := by
      rintro ⟨r, hr, hlo, hhi⟩
      exact find_none h.ordered hfind hr ⟨Nat.le_of_lt hlo, hhi⟩
    exact .inr ⟨l, rfl, fun hs => absurd hs hno, Split.refl h hno⟩
  | some v =>
    obtain ⟨hv, hlo, hhi⟩ := find_some hfind
    simp only
    split
    next heq =>
      have hno : ¬ Straddled l c := by
        rintro ⟨r, hr, hr'⟩
        have hsame := h.ordered.eq_of_has hr hv ⟨Nat.le_of_lt hr'.1, hr'.2⟩ ⟨hlo, hhi⟩
        rw [hsame] at hr'
        omega
      exact .inr ⟨l, rfl, fun hs => absurd hs hno, Split.refl h hno⟩
    next hne =>
      have hin : v.lo < c ∧ c < v.hi := ⟨Nat.lt_of_le_of_ne hlo hne, hhi⟩
      cases mem with
      | false => exact .inl ⟨rfl, ⟨v, hv, hin⟩, rfl⟩
      | true => exact .inr ⟨cut c l, rfl, fun _ => rfl, split_cut h hc hv hin⟩

end Split

section Rounding

theorem Arch.pg_dvd_size (arch : Arch) : pg ∣ arch.size := by
  cases arch <;> decide

theorem Arch.vmmUserLimit_lt (arch : Arch) : arch.vmmUserLimit + 2097152 < arch.size := by
  cases arch <;> decide

theorem Arch.vmmUserMin_pos (arch : Arch) : 0 < arch.vmmUserMin := by
  cases arch <;> decide

def roundUp (x : ℕ) : ℕ := (x + (pg - 1)) / pg * pg

theorem pg_dvd_roundUp (x : ℕ) : pg ∣ roundUp x := Nat.dvd_mul_left pg _

theorem le_roundUp (x : ℕ) : x ≤ roundUp x := by
  simp only [roundUp, pg]
  omega

theorem roundUp_lt (x : ℕ) : roundUp x < x + pg := by
  simp only [roundUp, pg]
  omega

theorem lt_roundUp_iff {x : ℕ} (hp : pg ∣ p) : p < roundUp x ↔ p < x := by
  simp only [roundUp, pg] at *
  omega

theorem roundUp_of_dvd {x : ℕ} (hx : pg ∣ x) : roundUp x = x := by
  simp only [roundUp, pg] at *
  omega

theorem pageUp_of_lt {x : ℕ} (h : x + (pg - 1) < arch.size) : pageUp arch x = roundUp x := by
  rw [pageUp, Nat.mod_eq_of_lt h, roundUp]

theorem pageUp_of_ge {x : ℕ} (hx : x < arch.size) (h : arch.size ≤ x + (pg - 1)) :
    pageUp arch x = 0 := by
  have hmod : (x + (pg - 1)) % arch.size = x + (pg - 1) - arch.size := by
    rw [Nat.mod_eq_sub_mod h, Nat.mod_eq_of_lt]
    have := arch.vmmUserLimit_lt
    simp only [pg]
    omega
  rw [pageUp, hmod, Nat.div_eq_of_lt, Nat.zero_mul]
  omega

-- Where a call's range ends: where it should, or, when that is no address, before the start; but a
-- length that cannot be rounded up counts as zero.
inductive Stop (arch : Arch) (addr len : ℕ) : ℕ → Prop where
  | fits (hlen : len + (pg - 1) < arch.size) : Stop arch addr len (addr + roundUp len)
  | before {stop : ℕ} (hlen : len + (pg - 1) < arch.size) (hstop : stop < addr) :
      Stop arch addr len stop
  | empty (hlen : arch.size ≤ len + (pg - 1)) : Stop arch addr len addr

variable {addr len : ℕ}

theorem stop_munmap (haddr : addr < arch.size) (hlen : len < arch.size) :
    Stop arch addr len ((addr + pageUp arch len) % arch.size) := by
  cases Nat.lt_or_ge (len + (pg - 1)) arch.size with
  | inl h =>
    rw [pageUp_of_lt h]
    have hup : roundUp len < arch.size := by
      have := roundUp_lt len
      omega
    cases Nat.lt_or_ge (addr + roundUp len) arch.size with
    | inl hsum =>
      rw [Nat.mod_eq_of_lt hsum]
      exact .fits h
    | inr hsum =>
      rw [mod_eq_sub_mod hsum, mod_eq_of_lt (by omega)]
      exact .before h (by omega)
  | inr h =>
    rw [pageUp_of_ge hlen h, Nat.add_zero, Nat.mod_eq_of_lt haddr]
    exact .empty h

theorem stop_mprotect (halign : pg ∣ addr) (haddr : addr < arch.size) (hlen : len < arch.size) :
    Stop arch addr len (pageUp arch (addr + len)) := by
  have hsize := arch.pg_dvd_size
  cases Nat.lt_or_ge (addr + len + (pg - 1)) arch.size with
  | inl h =>
    have hsum : roundUp (addr + len) = addr + roundUp len := by
      simp only [roundUp, pg] at *
      omega
    rw [pageUp_of_lt h, hsum]
    exact .fits (by omega)
  | inr h =>
    have hmod : (addr + len + (pg - 1)) % arch.size = addr + len + (pg - 1) - arch.size := by
      rw [mod_eq_sub_mod h, mod_eq_of_lt]
      simp only [pg] at *
      omega
    rw [pageUp, hmod]
    cases Nat.lt_or_ge (len + (pg - 1)) arch.size with
    | inl hlen' =>
      apply Stop.before hlen'
      simp only [pg] at *
      omega
    | inr hlen' =>
      have hstop : (addr + len + (pg - 1) - arch.size) / pg * pg = addr := by
        simp only [pg] at *
        omega
      rw [hstop]
      exact .empty hlen'

theorem Stop.dvd {stop : ℕ} (h : Stop arch addr len stop) (halign : pg ∣ addr)
    (hle : addr ≤ stop) : pg ∣ stop := by
  cases h with
  | fits _ => exact Nat.dvd_add halign (pg_dvd_roundUp len)
  | before _ hstop => omega
  | empty _ => exact halign

end Rounding

section OnRange

variable {env : Env} {s : VmaSet} {addr len stop : ℕ}
  {work : List (Range Area) → List (Range Area)} {f : Option Page → Option Page}

theorem refused_eq_false : refused arch env addr stop = false ↔
    addr ≤ stop ∧ arch.vmmUserMin ≤ addr ∧ stop ≤ arch.vmmUserLimit ∧
      env.kernelPages addr stop = false := by
  simp [refused, and_assoc]

def SplitsFit (env : Env) (l : List (Range Area)) (addr stop : ℕ) : Prop :=
  (Straddled l addr → env.splitMem = true) ∧ (addr ≠ stop → Straddled l stop → env.splitMem' = true)

structure Parted (arch : Arch) (l l' : List (Range Area)) (addr stop : ℕ) : Prop where
  wf : WF arch l'
  same : ∀ p, pages l' p = pages l p
  lower : ¬ Straddled l' addr
  upper : ¬ Straddled l' stop

theorem splitEnds_cases (env : Env) (h : WF arch l) (haddr : pg ∣ addr) (hstop : pg ∣ stop)
    (hle : addr ≤ stop) :
    (¬ SplitsFit env l addr stop ∧ (splitEnds env l addr stop).1 = false ∧
      WF arch (splitEnds env l addr stop).2 ∧
      ∀ p, pages (splitEnds env l addr stop).2 p = pages l p) ∨
    (SplitsFit env l addr stop ∧ (splitEnds env l addr stop).1 = true ∧
      Parted arch l (splitEnds env l addr stop).2 addr stop) := by
  rw [splitEnds]
  obtain ⟨hnone, hcut, hmem⟩ | ⟨l', hsome, hmem, hl⟩ := splitAt_cases h haddr env.splitMem
  · rw [hnone]
    refine .inl ⟨fun hfit => ?_, rfl, h, fun _ => rfl⟩
    rw [hfit.1 hcut] at hmem
    cases hmem
  · rw [hsome]
    simp only
    obtain ⟨hnone, hcut, hmem'⟩ | ⟨l'', hsome', hmem', hl'⟩ :=
      splitAt_cases hl.wf hstop env.splitMem'
    · rw [hnone]
      refine .inl ⟨fun hfit => ?_, rfl, hl.wf, hl.same⟩
      have hne : addr ≠ stop := by
        rintro rfl
        exact hl.cut hcut
      rw [hfit.2 hne (hl.fewer stop hcut)] at hmem'
      cases hmem'
    · rw [hsome']
      refine .inr ⟨⟨hmem, fun hne hcut => hmem' (hl.later stop (by omega) hcut)⟩, rfl, ?_⟩
      exact ⟨hl'.wf, fun p => (hl'.same p).trans (hl.same p),
        fun hcut => hl.cut (hl'.fewer addr hcut), hl'.cut⟩

theorem onRange_cases (work : List (Range Area) → List (Range Area)) (h : WF arch s.vmas)
    (haddr : pg ∣ addr) (hstop : pg ∣ stop) (hok : refused arch env addr stop = false) :
    (¬ SplitsFit env s.vmas addr stop ∧
      ∃ l, onRange arch env s addr stop work = (-12, { s with vmas := l }) ∧ WF arch l ∧
        ∀ p, pages l p = pages s.vmas p) ∨
    (SplitsFit env s.vmas addr stop ∧
      ∃ l, onRange arch env s addr stop work = (0, { s with vmas := work l }) ∧
        Parted arch s.vmas l addr stop) := by
  rw [onRange, hok]
  simp only [Bool.false_eq_true, if_false]
  obtain ⟨hfit, hres, hl⟩ | ⟨hfit, hres, hl⟩ :=
    splitEnds_cases env h haddr hstop (refused_eq_false.mp hok).1
  · rw [hres]
    exact .inl ⟨hfit, _, rfl, hl⟩
  · rw [hres]
    exact .inr ⟨hfit, _, rfl, hl⟩

def Works (arch : Arch) (work : List (Range Area) → List (Range Area)) (addr stop : ℕ)
    (f : Option Page → Option Page) : Prop :=
  ∀ l, WF arch l → ¬ Straddled l addr → ¬ Straddled l stop → WF arch (work l) ∧
    ∀ p, pages (work l) p = if addr ≤ p ∧ p < stop then f (pages l p) else pages l p

theorem works_removeRange : Works arch (fun l => removeRange l a b) a b fun _ => none :=
  fun _ hl ha hb => ⟨hl.removeRange, fun _ => pages_removeRange hl.ordered ha hb⟩

theorem works_protectRange :
    Works arch (fun l => merge (protectRange a b vf l)) a b (Option.map (Page.protect vf)) := by
  intro l hl ha hb
  refine ⟨hl.protectRange.merge, fun p => ?_⟩
  rw [pages_merge hl.protectRange.ordered, pages_protectRange hl.ordered ha hb]

-- The list stays well formed, success changes the pages by `f` and no others, failure none.
def RangeCorrect (arch : Arch) (s : VmaSet) (r : ℤ × VmaSet) (addr len : ℕ)
    (f : Option Page → Option Page) : Prop :=
  WF arch r.2.vmas ∧ ∀ p, pg ∣ p → pages r.2.vmas p =
    if r.1 = 0 ∧ addr ≤ p ∧ p < addr + len then f (pages s.vmas p) else pages s.vmas p

-- A call whose length counts as zero gets as far as the work, and there was none to do.
def Covered (arch : Arch) (env : Env) (l : List (Range Area)) (addr len : ℕ)
    (f : Option Page → Option Page) : Prop :=
  arch.size ≤ len + (pg - 1) → pg ∣ addr → arch.vmmUserMin ≤ addr → addr ≤ arch.vmmUserLimit →
    env.kernelPages addr addr = false → (Straddled l addr → env.splitMem = true) →
    ∀ p, pg ∣ p → addr ≤ p → p < addr + len → f (pages l p) = pages l p

theorem rangeCorrect_error {e : ℤ} (h : WF arch l) (he : e ≠ 0)
    (hl : ∀ p, pages l p = pages s.vmas p) :
    RangeCorrect arch s (e, { s with vmas := l }) addr len f := by
  refine ⟨h, fun p _ => ?_⟩
  rw [if_neg fun hp => he hp.1]
  exact hl p

theorem onRange_correct_iff (h : WF arch s.vmas) (haddr : pg ∣ addr)
    (hstop : Stop arch addr len stop) (hwork : Works arch work addr stop f) :
    RangeCorrect arch s (onRange arch env s addr stop work) addr len f ↔
      Covered arch env s.vmas addr len f := by
  cases hok : refused arch env addr stop with
  | true =>
    rw [onRange, hok]
    refine iff_of_true (rangeCorrect_error h (by decide) fun _ => rfl) ?_
    intro hlen _ hmin hlimit hkernel
    cases hstop with
    | fits hlen' => omega
    | before hlen' _ => omega
    | empty _ =>
      rw [refused_eq_false.mpr ⟨Nat.le_refl addr, hmin, hlimit, hkernel⟩] at hok
      cases hok
  | false =>
    obtain ⟨hle, hmin, hlimit, hkernel⟩ := refused_eq_false.mp hok
    obtain ⟨hfit, l, hres, hl, hsame⟩ | ⟨hfit, l, hres, hl⟩ :=
      onRange_cases work h haddr (hstop.dvd haddr hle) hok
    · rw [hres]
      refine iff_of_true (rangeCorrect_error hl (by decide) hsame) ?_
      intro hlen _ _ _ _ hmem
      cases hstop with
      | fits hlen' => omega
      | before hlen' _ => omega
      | empty _ => exact absurd ⟨hmem, fun hne => absurd rfl hne⟩ hfit
    · rw [hres]
      obtain ⟨hwf, hpages⟩ := hwork l hl.wf hl.lower hl.upper
      cases hstop with
      | before _ hlt => omega
      | fits hlen =>
        refine iff_of_true ⟨hwf, fun p hp => ?_⟩ fun hlen' => by omega
        have hin : p < addr + roundUp len ↔ p < addr + len := by
          simp only [roundUp, pg] at *
          omega
        simp only [hpages, hl.same, true_and, hin]
      | empty hlen =>
        have hnone : ∀ p, pages (work l) p = pages s.vmas p := by
          intro p
          rw [hpages, if_neg (by omega), hl.same]
        constructor
        · intro hcorrect _ _ _ _ _ _ p hp hlo hhi
          have := hcorrect.2 p hp
          rw [if_pos ⟨rfl, hlo, hhi⟩] at this
          exact this.symm.trans (hnone p)
        · intro hcovered
          refine ⟨hwf, fun p hp => ?_⟩
          rw [hnone]
          split
          next hin =>
            exact (hcovered hlen haddr hmin hlimit hkernel hfit.1 p hp hin.2.1 hin.2.2).symm
          · rfl

theorem vmaMunmap_correct_iff (h : WF arch s.vmas) (haddr : addr < arch.size)
    (hlen : len < arch.size) :
    RangeCorrect arch s (vmaMunmap arch env s addr len) addr len (fun _ => none) ↔
      Covered arch env s.vmas addr len fun _ => none := by
  rw [vmaMunmap]
  split
  next hbad =>
    refine iff_of_true (rangeCorrect_error h (by decide) fun _ => rfl) ?_
    intro hsize halign
    cases hbad with
    | inl hoff => exact absurd (mod_eq_zero_of_dvd halign) hoff
    | inr hzero =>
      omega
  next hgood =>
    have halign : pg ∣ addr := dvd_of_mod_eq_zero (by omega)
    exact onRange_correct_iff h halign (stop_munmap haddr hlen) works_removeRange

theorem vmaMprotect_correct_iff {prot : Prot} (h : WF arch s.vmas) (haddr : addr < arch.size)
    (hlen : len < arch.size) :
    RangeCorrect arch s (vmaMprotect arch env s addr len prot) addr len
        (Option.map (Page.protect (protToVf prot))) ↔
      Covered arch env s.vmas addr len (Option.map (Page.protect (protToVf prot))) := by
  rw [vmaMprotect]
  split
  next hbad =>
    refine iff_of_true (rangeCorrect_error h (by decide) fun _ => rfl) ?_
    intro _ halign
    exact absurd (mod_eq_zero_of_dvd halign) hbad
  next hgood =>
    have halign : pg ∣ addr := dvd_of_mod_eq_zero (by omega)
    exact onRange_correct_iff h halign (stop_mprotect halign haddr hlen) works_protectRange

end OnRange

end DosKernel.Vma

import DosKernel.Vma.Mapping

namespace DosKernel.Vma

open DosKernel.Lib

variable {arch : Arch} {env : Env} {s : VmaSet} {a b p addr : ℕ}

def heapPage : Page := ⟨⟨true, true, false⟩, .anon, none⟩

section Shrink

theorem vmaMunmap_of_lt (ha : pg ∣ a) (hb : pg ∣ b) (hlt : a < b) (hsize : b < arch.size) :
    vmaMunmap arch env s a (b - a) = onRange arch env s a b fun l => removeRange l a b := by
  have hfit : b - a + (pg - 1) < arch.size := by
    have := arch.pg_dvd_size
    simp only [pg] at *
    omega
  have hstop : (a + pageUp arch (b - a)) % arch.size = b := by
    rw [pageUp_of_lt hfit, roundUp_of_dvd (Nat.dvd_sub hb ha), Nat.add_sub_cancel' (Nat.le_of_lt hlt),
      Nat.mod_eq_of_lt hsize]
  rw [vmaMunmap, hstop, if_neg]
  omega

def MayUnmap (arch : Arch) (env : Env) (l : List (Range Area)) (a b : ℕ) : Prop :=
  arch.vmmUserMin ≤ a ∧ b ≤ arch.vmmUserLimit ∧ env.kernelPages a b = false ∧ SplitsFit env l a b

def Unmapped (l l' : List (Range Area)) (a b : ℕ) : Prop :=
  ∀ p, pg ∣ p → pages l' p = if a ≤ p ∧ p < b then none else pages l p

theorem unmapped_of_same {l l' : List (Range Area)} (h : ∀ p, pages l' p = pages l p) :
    Unmapped l l' a b ↔ ∀ p, pg ∣ p → a ≤ p → p < b → pages l p = none := by
  constructor
  · intro hun p hp hlo hhi
    have := hun p hp
    rw [if_pos ⟨hlo, hhi⟩, h] at this
    exact this
  · intro hnone p hp
    rw [h]
    split
    next hin =>
      exact hnone p hp hin.1 hin.2
    · rfl

-- The result of this `vma_munmap` is not looked at.
theorem unmapped_iff (env : Env) (h : WF arch s.vmas) (ha : pg ∣ a) (hb : pg ∣ b)
    (hlt : a < b) (hsize : b < arch.size) :
    WF arch (vmaMunmap arch env s a (b - a)).2.vmas ∧
      (Unmapped s.vmas (vmaMunmap arch env s a (b - a)).2.vmas a b ↔
        MayUnmap arch env s.vmas a b ∨ ∀ p, pg ∣ p → a ≤ p → p < b → pages s.vmas p = none) := by
  rw [vmaMunmap_of_lt ha hb hlt hsize]
  cases hok : refused arch env a b with
  | true =>
    rw [onRange, hok]
    refine ⟨h, ?_⟩
    rw [if_pos rfl, unmapped_of_same fun _ => rfl, or_iff_right]
    rintro ⟨hmin, hlimit, hkernel, -⟩
    rw [refused_eq_false.mpr ⟨Nat.le_of_lt hlt, hmin, hlimit, hkernel⟩] at hok
    cases hok
  | false =>
    obtain ⟨-, hmin, hlimit, hkernel⟩ := refused_eq_false.mp hok
    obtain ⟨hfit, l, hres, hl, hsame⟩ | ⟨hfit, l, hres, hl⟩ :=
      onRange_cases (fun l => removeRange l a b) h ha hb hok
    · rw [hres]
      refine ⟨hl, ?_⟩
      rw [unmapped_of_same hsame, or_iff_right fun hmay => hfit hmay.2.2.2]
    · rw [hres]
      refine ⟨hl.wf.removeRange, iff_of_true (fun p _ => ?_) (.inl ⟨hmin, hlimit, hkernel, hfit⟩)⟩
      rw [pages_removeRange hl.wf.ordered hl.lower hl.upper, hl.same]

end Shrink

-- The list stays well formed, and success maps [break, addr) or removes [addr, break), no more.
def BrkCorrect (arch : Arch) (s : VmaSet) (r : ℤ × VmaSet) (addr : ℕ) : Prop :=
  WF arch r.2.vmas ∧ (s.brkStart ≠ 0 → r.1 = asLong arch addr → ∀ p, pg ∣ p →
    pages r.2.vmas p = if s.brkCur ≤ p ∧ p < addr then some heapPage
      else if addr ≤ p ∧ p < s.brkCur then none else pages s.vmas p)

-- The new break can be rounded up to a page, unless the old one cannot either; and where it moves
-- down a page, `vma_munmap` goes through or has nothing to remove.
def BrkCovered (arch : Arch) (env : Env) (s : VmaSet) (addr : ℕ) : Prop :=
  s.brkStart ≠ 0 → s.brkStart ≤ addr →
    (arch.size ≤ addr + (pg - 1) → arch.size ≤ s.brkCur + (pg - 1)) ∧
    (s.brkCur + (pg - 1) < arch.size → roundUp addr < roundUp s.brkCur →
      MayUnmap arch env s.vmas (roundUp addr) (roundUp s.brkCur) ∨
        ∀ p, pg ∣ p → addr ≤ p → p < s.brkCur → pages s.vmas p = none)

section Brk

theorem roundUp_le_iff {x : ℕ} (hp : pg ∣ p) : roundUp x ≤ p ↔ x ≤ p := by
  have := lt_roundUp_iff (x := x) hp
  omega

theorem brkCorrect_same (h : WF arch s.vmas) {r : ℤ × VmaSet}
    (hr : r.2.vmas = s.vmas) (hsame : ∀ p, pg ∣ p → (p < s.brkCur ↔ p < addr)) :
    BrkCorrect arch s r addr := by
  refine ⟨hr ▸ h, fun _ _ p hp => ?_⟩
  have := hsame p hp
  rw [hr, if_neg (by omega), if_neg (by omega)]

theorem last_page_unmapped (h : WF arch s.vmas) : pages s.vmas (arch.size - pg) = none := by
  rw [pages, view_eq_none_iff]
  rintro r hr ⟨-, hhi⟩
  have hbound := h.bounded r hr
  have halign := (h.aligned r hr).2
  have hsize := arch.pg_dvd_size
  simp only [pg] at *
  omega

theorem not_brkCorrect_wrap (h : WF arch s.vmas) {r : ℤ × VmaSet} (hstart : s.brkStart ≠ 0)
    (hr : r.1 = asLong arch addr) (hl : r.2.vmas = s.vmas)
    (haddr : arch.size ≤ addr + (pg - 1)) (hcur : s.brkCur + (pg - 1) < arch.size) :
    ¬ BrkCorrect arch s r addr := by
  intro hcorrect
  have hsize := arch.pg_dvd_size
  have hlast := hcorrect.2 hstart hr (arch.size - pg) (Nat.dvd_sub hsize (Nat.dvd_refl pg))
  rw [hl, last_page_unmapped h, if_pos] at hlast
  · cases hlast
  · have := arch.vmmUserLimit_lt
    simp only [pg] at haddr hcur ⊢
    omega

theorem refused_zero : refused arch env 0 b = true := by
  have := arch.vmmUserMin_pos
  simp [refused, this]

theorem vmaMmap_zero {len : ℕ} (hlen : len ≠ 0) :
    (vmaMmap arch env s 0 len ⟨true, true, false⟩ heapFlags .negative 0).1 < 0 := by
  have hmin := arch.vmmUserMin_pos
  rw [vmaMmap, if_neg hlen]
  simp only [heapFlags, Nat.zero_mod, ne_eq, not_true_eq_false, decide_false, Bool.and_false,
    Bool.false_eq_true, if_false, backing, if_true, reduceCtorEq, false_and, Bool.or_true]
  have hneg : ∀ n : ℕ, Int.negSucc n < 0 := Int.negSucc_lt_zero
  split
  · exact hneg 11
  · split
    · exact hneg 11
    · rw [if_pos (.inl hmin)]
      exact hneg 21

theorem brkCorrect_grow (h : WF arch s.vmas) (hcur : s.brkCur + (pg - 1) < arch.size)
    (haddr : addr + (pg - 1) < arch.size) (hlt : roundUp s.brkCur < roundUp addr)
    (hstart : s.brkStart ≠ 0) (hle : s.brkStart ≤ addr) :
    BrkCorrect arch s (vmaBrk arch env s addr) addr := by
  have hup := roundUp_lt addr
  have hmmap : MmapCorrect arch env s
      (vmaMmap arch env s (roundUp s.brkCur) (roundUp addr - roundUp s.brkCur)
        ⟨true, true, false⟩ heapFlags .negative 0)
      (roundUp s.brkCur) (roundUp addr - roundUp s.brkCur) ⟨true, true, false⟩ heapFlags
      .negative 0 :=
    vmaMmap_correct h (by omega) (by omega)
  rw [vmaBrk, if_neg hstart, if_neg (by omega), pageUp_of_lt hcur, pageUp_of_lt haddr]
  simp only
  rw [if_pos hlt]
  split
  next hbad =>
    refine ⟨hmmap.1, fun _ hret => ?_⟩
    have := asLong_inj (by omega) (by omega) hret
    rw [this] at hlt
    exact absurd hlt (Nat.lt_irrefl _)
  next hgood =>
    refine ⟨hmmap.1, fun _ _ p hp => ?_⟩
    have hok := hmmap.2 fun hfailed => hgood (.inl hfailed.2)
    obtain ⟨va, kind, file, -, -, -, hback, hfixed, -, hmaps⟩ := hok
    cases hback
    have hpages := hmaps p hp
    rw [hfixed (.inr rfl), Nat.add_sub_cancel' (Nat.le_of_lt hlt)] at hpages
    simp only [roundUp_le_iff hp, lt_roundUp_iff hp] at hpages
    have hno : ¬ (addr ≤ p ∧ p < s.brkCur) := by
      rintro ⟨hlo, hhi⟩
      have := (lt_roundUp_iff hp).mpr hhi
      have := (roundUp_le_iff hp).mpr hlo
      omega
    simp only [hpages, if_neg hno]
    rfl

theorem brkCorrect_shrink_iff (h : WF arch s.vmas) (hcur : s.brkCur + (pg - 1) < arch.size)
    (haddr : addr + (pg - 1) < arch.size) (hlt : roundUp addr < roundUp s.brkCur)
    (hstart : s.brkStart ≠ 0) (hle : s.brkStart ≤ addr) :
    BrkCorrect arch s (vmaBrk arch env s addr) addr ↔
      MayUnmap arch env s.vmas (roundUp addr) (roundUp s.brkCur) ∨
        ∀ p, pg ∣ p → addr ≤ p → p < s.brkCur → pages s.vmas p = none := by
  have hup := roundUp_lt s.brkCur
  have hsize : roundUp s.brkCur < arch.size := by
    omega
  obtain ⟨hwf, hiff⟩ := unmapped_iff env h (pg_dvd_roundUp addr)
    (pg_dvd_roundUp s.brkCur) hlt hsize
  have hin : ∀ p, pg ∣ p → (roundUp addr ≤ p ∧ p < roundUp s.brkCur ↔ addr ≤ p ∧ p < s.brkCur) :=
    fun p hp => and_congr (roundUp_le_iff hp) (lt_roundUp_iff hp)
  have hno : ∀ p, pg ∣ p → ¬ (s.brkCur ≤ p ∧ p < addr) := by
    rintro p hp ⟨hlo, hhi⟩
    have := (roundUp_le_iff hp).mpr hlo
    have := (lt_roundUp_iff hp).mpr hhi
    omega
  have hnone : (∀ p, pg ∣ p → roundUp addr ≤ p → p < roundUp s.brkCur → pages s.vmas p = none) ↔
      ∀ p, pg ∣ p → addr ≤ p → p < s.brkCur → pages s.vmas p = none := by
    refine forall₂_congr fun p hp => ?_
    rw [roundUp_le_iff hp, lt_roundUp_iff hp]
  rw [vmaBrk, if_neg hstart, if_neg (by omega), pageUp_of_lt hcur, pageUp_of_lt haddr]
  rw [if_neg (by omega), if_pos hlt, ← hnone, ← hiff]
  constructor
  · intro hcorrect p hp
    have := hcorrect.2 hstart rfl p hp
    rw [if_neg (hno p hp)] at this
    simp only [hin p hp]
    exact this
  · intro hun
    refine ⟨hwf, fun _ _ p hp => ?_⟩
    have := hun p hp
    simp only [hin p hp] at this
    rw [if_neg (hno p hp)]
    exact this

theorem vmaBrk_correct_iff (h : WF arch s.vmas) (hcur : s.brkCur < arch.size)
    (haddr : addr < arch.size) :
    BrkCorrect arch s (vmaBrk arch env s addr) addr ↔ BrkCovered arch env s addr := by
  have hlast := arch.pg_dvd_size
  by_cases hstart : s.brkStart = 0
  · rw [vmaBrk, if_pos hstart]
    exact iff_of_true ⟨h, fun hne => absurd hstart hne⟩ fun hne => absurd hstart hne
  cases Nat.lt_or_ge addr s.brkStart with
  | inl hlow =>
    rw [vmaBrk, if_neg hstart, if_pos hlow]
    refine iff_of_true ⟨h, fun _ hret p _ => ?_⟩ fun _ hle => by omega
    have := asLong_inj hcur haddr hret
    rw [if_neg (by omega), if_neg (by omega)]
  | inr hle =>
    cases Nat.lt_or_ge (addr + (pg - 1)) arch.size with
    | inr hwrap =>
      cases Nat.lt_or_ge (s.brkCur + (pg - 1)) arch.size with
      | inr hwrap' =>
        -- both breaks are in the last page
        refine iff_of_true (brkCorrect_same h ?_ ?_) fun _ _ => ⟨fun _ => hwrap', fun _ => by omega⟩
        · rw [vmaBrk, if_neg hstart, if_neg (by omega), pageUp_of_ge haddr hwrap,
            pageUp_of_ge hcur hwrap']
          rfl
        · intro p hp
          simp only [pg] at *
          omega
      | inl hcur' =>
        refine iff_of_false ?_ fun hcov => ?_
        · have hres : (vmaBrk arch env s addr).1 = asLong arch addr ∧
              (vmaBrk arch env s addr).2.vmas = s.vmas := by
            rw [vmaBrk, if_neg hstart, if_neg (by omega), pageUp_of_ge haddr hwrap]
            rw [if_neg (by omega)]
            split
            next hpos =>
              refine ⟨rfl, ?_⟩
              rw [vmaMunmap]
              split
              · rfl
              · simp only
                rw [onRange, refused_zero]
                rfl
            · exact ⟨rfl, rfl⟩
          exact not_brkCorrect_wrap h hstart hres.1 hres.2 hwrap hcur'
        · have := (hcov hstart hle).1 hwrap
          omega
    | inl haddr' =>
      cases Nat.lt_or_ge (s.brkCur + (pg - 1)) arch.size with
      | inr hwrap' =>
        -- the break starts at zero again, where nothing can be mapped
        have hup := le_roundUp addr
        refine iff_of_true ?_ fun _ _ => ⟨fun _ => hwrap', fun _ => by omega⟩
        rw [vmaBrk, if_neg hstart, if_neg (by omega), pageUp_of_ge hcur hwrap', pageUp_of_lt haddr']
        rw [if_pos (by omega), if_pos (.inl (vmaMmap_zero (by omega)))]
        refine ⟨(vmaMmap_correct h (by omega) ?_).1, fun _ hret => ?_⟩
        · have := roundUp_lt addr
          omega
        · have := asLong_inj hcur haddr hret
          omega
      | inl hcur' =>
        obtain hlt | heq | hgt := Nat.lt_trichotomy (roundUp s.brkCur) (roundUp addr)
        · refine iff_of_true (brkCorrect_grow h hcur' haddr' hlt hstart hle) ?_
          exact fun _ _ => ⟨fun _ => by omega, fun _ _ => by omega⟩
        · refine iff_of_true (brkCorrect_same h ?_ ?_) fun _ _ => ⟨by omega, fun _ _ => by omega⟩
          · rw [vmaBrk, if_neg hstart, if_neg (by omega), pageUp_of_lt hcur', pageUp_of_lt haddr',
              heq]
            simp only [Nat.lt_irrefl, if_false]
          · intro p hp
            rw [← lt_roundUp_iff hp, heq, lt_roundUp_iff hp]
        · rw [brkCorrect_shrink_iff h hcur' haddr' hgt hstart hle]
          constructor
          · intro hmay _ _
            exact ⟨fun _ => by omega, fun _ _ => hmay⟩
          · intro hcov
            exact (hcov hstart hle).2 hcur' hgt

end Brk

inductive Call (arch : Arch) where
  | mmap (addr len : Fin arch.size) (prot : Prot) (flags : Flags) (fd : Fd)
      (off : Fin 18446744073709551616)
  | munmap (addr len : Fin arch.size)
  | mprotect (addr len : Fin arch.size) (prot : Prot)
  | brk (addr : Fin arch.size)

def Correct (arch : Arch) (env : Env) (s : VmaSet) : Call arch → Prop
  | .mmap addr len prot flags fd off =>
    MmapCorrect arch env s (vmaMmap arch env s addr len prot flags fd off) addr len prot flags fd off
  | .munmap addr len =>
    RangeCorrect arch s (vmaMunmap arch env s addr len) addr len fun _ => none
  | .mprotect addr len prot =>
    RangeCorrect arch s (vmaMprotect arch env s addr len prot) addr len
      (Option.map (Page.protect (protToVf prot)))
  | .brk addr => BrkCorrect arch s (vmaBrk arch env s addr) addr

def Admitted (arch : Arch) (env : Env) (s : VmaSet) : Call arch → Prop
  | .mmap .. => True
  | .munmap addr len => Covered arch env s.vmas addr len fun _ => none
  | .mprotect addr len prot =>
    Covered arch env s.vmas addr len (Option.map (Page.protect (protToVf prot)))
  | .brk addr => BrkCovered arch env s addr

def MapKept (arch : Arch) (l : List (Range Area)) : Prop :=
  (WF arch (merge l) ∧ ∀ p, pages (merge l) p = pages l p) ∧
    ∀ c mem l', pg ∣ c → splitAt l c mem = some l' → WF arch l' ∧ ∀ p, pages l' p = pages l p

theorem mapKept {l : List (Range Area)} (h : WF arch l) : MapKept arch l := by
  refine ⟨⟨h.merge, fun _ => pages_merge h.ordered⟩, ?_⟩
  intro c mem l' hc hl'
  obtain ⟨hnone, -⟩ | ⟨l'', hsome, -, hsplit⟩ := splitAt_cases h hc mem
  · rw [hnone] at hl'
    cases hl'
  · rw [hsome] at hl'
    cases hl'
    exact ⟨hsplit.wf, hsplit.same⟩

theorem correct_iff_admitted (arch : Arch) (s : VmaSet) (hs : WF arch s.vmas)
    (hcur : s.brkCur < arch.size) :
    MapKept arch s.vmas ∧ ∀ env call, Correct arch env s call ↔ Admitted arch env s call := by
  refine ⟨mapKept hs, fun env call => ?_⟩
  cases call with
  | mmap addr len prot flags fd off =>
    exact iff_of_true (vmaMmap_correct hs addr.isLt len.isLt) trivial
  | munmap addr len => exact vmaMunmap_correct_iff hs addr.isLt len.isLt
  | mprotect addr len prot => exact vmaMprotect_correct_iff hs addr.isLt len.isLt
  | brk addr => exact vmaBrk_correct_iff hs hcur addr.isLt

theorem wf_heap : WF .x86_64 heap.vmas where
  ordered := ordered_cons.mpr ⟨by decide, by simp, ordered_nil⟩
  aligned := by simp [heap, pg]
  bounded := by simp [heap, Arch.size]

theorem heap_correct_iff_admitted : heap.brkCur < Arch.x86_64.size ∧
    MapKept .x86_64 heap.vmas ∧
      ∀ env call, Correct .x86_64 env heap call ↔ Admitted .x86_64 env heap call :=
  ⟨by decide, correct_iff_admitted .x86_64 heap wf_heap (by decide)⟩

-- The break moves down two pages, but the range cannot be split, and the pages stay.
theorem pages_above_the_break : WF .x86_64 heap.vmas ∧ heap.brkCur < Arch.x86_64.size ∧
    (vmaBrk .x86_64 noMemory heap 0x40001000).1 = 0x40001000 ∧
    pages (vmaBrk .x86_64 noMemory heap 0x40001000).2.vmas 0x40001000 = some heapPage ∧
    ¬ Correct .x86_64 noMemory heap (.brk ⟨0x40001000, by decide⟩) := by
  refine ⟨wf_heap, by decide, by decide, by decide, fun h => ?_⟩
  have hpage := h.2 (by decide) (by decide) 0x40001000 (by decide)
  exact absurd hpage (by decide)

end DosKernel.Vma

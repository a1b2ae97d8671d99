import DosKernel.Vma.Calls

namespace DosKernel.Vma

open DosKernel.Lib

variable {arch : Arch} {env : Env} {s : VmaSet} {l : List (Range Area)}
  {a b p addr len va size cand : ℕ}

theorem add_mod_of_le (ha : a < arch.size) (hb : b < arch.size) (h : a ≤ (a + b) % arch.size) :
    (a + b) % arch.size = a + b := by
  cases Nat.lt_or_ge (a + b) arch.size with
  | inl hlt => exact Nat.mod_eq_of_lt hlt
  | inr hge =>
    rw [Nat.mod_eq_sub_mod hge, Nat.mod_eq_of_lt (by omega)] at h
    omega

section FindFree

structure Room (arch : Arch) (l : List (Range Area)) (va size : ℕ) : Prop where
  aligned : pg ∣ va
  inside : va + size ≤ arch.vmmUserLimit
  free : Free l va (va + size)

-- The allocation window holds the range, no reservation meets it, and no page of it is mapped.
structure Fits (arch : Arch) (env : Env) (l : List (Range Area)) (len a : ℕ) : Prop where
  base : arch.vmmUserBase + mmapBaseOff ≤ a
  limit : a + len ≤ arch.vmmUserLimit
  free : Free l a (a + len)
  clear : env.anyPages a (a + len) = false

inductive Tried (arch : Arch) (env : Env) (l : List (Range Area)) (len : ℕ) : ℕ → Prop
  | first : Tried arch env l len (arch.vmmUserBase + mmapBaseOff)
  | past {c : ℕ} {v : Range Area} (h : Tried arch env l len c)
      (hv : blocker c (c + len) l = some v) : Tried arch env l len v.hi
  | step {c : ℕ} (h : Tried arch env l len c) (hv : blocker c (c + len) l = none)
      (hp : env.anyPages c (c + len) = true) :
      Tried arch env l len ((c + 2097152) / 2097152 * 2097152)

def Skipped (arch : Arch) (env : Env) (l : List (Range Area)) (len p : ℕ) : Prop :=
  ∃ c, Tried arch env l len c ∧ blocker c (c + len) l = none ∧
    env.anyPages c (c + len) = true ∧ c < p ∧ p < (c + 2097152) / 2097152 * 2097152

theorem usable_iff (hl : l.Pairwise fun r s => r.lo ≤ s.lo) (ha : a < arch.size)
    (hlen : len < arch.size) : usable arch env l a len ↔ Fits arch env l len a := by
  have hsize := arch.vmmUserLimit_lt
  simp only [usable, Bool.and_eq_true, Bool.not_eq_true', Bool.or_eq_false_iff,
    decide_eq_false_iff_not, Nat.not_lt]
  constructor
  · rintro ⟨⟨⟨⟨hbase, hstop⟩, hlimit⟩, hover⟩, hclear⟩
    rw [add_mod_of_le ha hlen hstop] at hlimit hover hclear
    exact ⟨hbase, hlimit, fun r hr => not_overlaps hl hover hr, hclear⟩
  · rintro ⟨hbase, hlimit, hfree, hclear⟩
    rw [Nat.mod_eq_of_lt (show a + len < arch.size by omega)]
    exact ⟨⟨⟨⟨hbase, by omega⟩, hlimit⟩, overlaps_of_free hfree⟩, hclear⟩

theorem Tried.base_le {c : ℕ} (h : Tried arch env l len c) :
    arch.vmmUserBase + mmapBaseOff ≤ c := by
  induction h with
  | first => exact Nat.le_refl _
  | past _ hv ih => exact Nat.le_trans ih (Nat.le_of_lt (blocker_some hv).2.2)
  | step _ _ _ ih => omega

theorem Tried.aligned (h : WF arch l) {c : ℕ} (hc : Tried arch env l len c) : pg ∣ c := by
  cases hc with
  | first => cases arch <;> decide
  | past _ hv => exact (h.aligned _ (blocker_some hv).1).2
  | step =>
    simp only [pg]
    omega

section Search

variable (hlen : len < arch.size) (hpos : 0 < len)
include hlen hpos

theorem findFreeFrom_succ (fuel : ℕ) : findFreeFrom arch env l len (fuel + 1) cand =
    if cand + len ≤ arch.vmmUserLimit then
      match blocker cand (cand + len) l with
      | some v => findFreeFrom arch env l len fuel v.hi
      | none => if !env.anyPages cand (cand + len) then cand
        else findFreeFrom arch env l len fuel ((cand + 2097152) / 2097152 * 2097152)
    else 0 := by
  have hlimit := arch.vmmUserLimit_lt
  rw [findFreeFrom]
  split
  next hloop =>
    have hsum := add_mod_of_le (by omega) hlen (Nat.le_of_lt hloop.1)
    rw [hsum] at hloop ⊢
    exact (if_pos hloop.2).symm
  next hend =>
    rw [if_neg]
    intro hle
    rw [Nat.mod_eq_of_lt (by omega)] at hend
    omega

theorem findFreeFrom_enough {fuel : ℕ} (hfuel : arch.vmmUserLimit < cand + fuel) (more : ℕ) :
    findFreeFrom arch env l len (fuel + more) cand = findFreeFrom arch env l len fuel cand := by
  induction fuel generalizing cand with
  | zero =>
    cases more with
    | zero => rfl
    | succ more =>
      rw [Nat.zero_add, findFreeFrom_succ hlen hpos, if_neg (by omega)]
      rfl
  | succ fuel ih =>
    rw [Nat.succ_add, findFreeFrom_succ hlen hpos, findFreeFrom_succ hlen hpos]
    cases hblock : blocker cand (cand + len) l with
    | some v =>
      have hlt := (blocker_some hblock).2.2
      simp only [ih (show arch.vmmUserLimit < v.hi + fuel by omega)]
    | none =>
      have hstep : arch.vmmUserLimit < (cand + 2097152) / 2097152 * 2097152 + fuel := by omega
      simp only [ih hstep]

variable (hl : l.Pairwise fun r s => r.lo ≤ s.lo)
include hl

theorem findFreeFrom_fits (fuel : ℕ) (hc : Tried arch env l len cand) :
    findFreeFrom arch env l len fuel cand = 0 ∨
      Tried arch env l len (findFreeFrom arch env l len fuel cand) ∧
        Fits arch env l len (findFreeFrom arch env l len fuel cand) := by
  induction fuel generalizing cand with
  | zero => exact .inl rfl
  | succ fuel ih =>
    rw [findFreeFrom_succ hlen hpos]
    split
    next hloop =>
      cases hblock : blocker cand (cand + len) l with
      | some v => exact ih (.past hc hblock)
      | none =>
        cases hmapped : env.anyPages cand (cand + len) with
        | false =>
          have hover := blocker_none hblock
          exact .inr ⟨hc, hc.base_le, hloop, fun r hr => not_overlaps hl hover hr, hmapped⟩
        | true => exact ih (.step hc hblock hmapped)
    · exact .inl rfl

omit hl in
theorem findFreeFrom_zero {fuel : ℕ} (hc : Tried arch env l len cand)
    (hfuel : arch.vmmUserLimit < cand + fuel) (hzero : findFreeFrom arch env l len fuel cand = 0)
    (hp : cand ≤ p) (hskip : ¬ Skipped arch env l len p) : ¬ Fits arch env l len p := by
  intro hfits
  have hlimit := hfits.limit
  induction fuel generalizing cand with
  | zero => omega
  | succ fuel ih =>
    rw [findFreeFrom_succ hlen hpos, if_pos (by omega)] at hzero
    cases hblock : blocker cand (cand + len) l with
    | some v =>
      rw [hblock] at hzero
      obtain ⟨hv, hlo, hhi⟩ := blocker_some hblock
      have hfree := hfits.free v hv
      exact ih (.past hc hblock) (by omega) hzero (by omega)
    | none =>
      rw [hblock] at hzero
      cases hmapped : env.anyPages cand (cand + len) with
      | false =>
        have hbase := hc.base_le
        simp only [hmapped] at hzero
        have hoff : mmapBaseOff = 0x08000000 := rfl
        simp only [Bool.not_false, if_true] at hzero
        omega
      | true =>
        obtain rfl | hlt := Nat.eq_or_lt_of_le hp
        · cases hmapped.symm.trans hfits.clear
        · simp only [hmapped] at hzero
          refine ih (.step hc hblock hmapped) (by omega) hzero (Nat.le_of_not_lt fun hin => ?_)
          exact hskip ⟨cand, hc, hblock, hmapped, hlt, hin⟩

theorem findFree_cases (hint : ℕ) (hhint : hint < arch.size) :
    findFree arch env l len hint = 0 ∨ Fits arch env l len (findFree arch env l len hint) ∧
      (findFree arch env l len hint % pg = 0 ∨
        Tried arch env l len (findFree arch env l len hint)) := by
  rw [findFree]
  split
  next hgood => exact .inr ⟨(usable_iff hl hhint hlen).mp hgood.2.2, .inl hgood.2.1⟩
  · exact (findFreeFrom_fits hlen hpos hl _ .first).imp_right fun h => ⟨h.2, .inr h.1⟩

end Search

-- The search ends; it finds room or answers 0; a hint with room is taken; and at 0 what room there
-- is was stepped over.
def PlacedFirst (arch : Arch) (env : Env) (l : List (Range Area)) (len hint : ℕ) : Prop :=
  (∀ more, findFreeFrom arch env l len (arch.vmmUserLimit + more)
      (arch.vmmUserBase + mmapBaseOff) =
    findFreeFrom arch env l len arch.vmmUserLimit (arch.vmmUserBase + mmapBaseOff)) ∧
  (findFree arch env l len hint = 0 ∨ Fits arch env l len (findFree arch env l len hint)) ∧
  (hint % pg = 0 → Fits arch env l len hint → findFree arch env l len hint = hint) ∧
  (findFree arch env l len hint = 0 → ∀ p, Fits arch env l len p → Skipped arch env l len p)

theorem findFree_placedFirst (arch : Arch) (env : Env) (l : List (Range Area)) (len hint : ℕ)
    (hl : l.Pairwise fun r s => r.lo ≤ s.lo) (hlen : len < arch.size) (hhint : hint < arch.size)
    (hpos : 0 < len) : PlacedFirst arch env l len hint := by
  have hoff : mmapBaseOff = 0x08000000 := rfl
  have htaken : hint ≠ 0 ∧ hint % pg = 0 ∧ usable arch env l hint len ↔
      hint % pg = 0 ∧ Fits arch env l len hint := by
    rw [usable_iff hl hhint hlen]
    refine and_iff_right_of_imp fun h => ?_
    have hbase := h.2.base
    omega
  refine ⟨findFreeFrom_enough hlen hpos (by omega), ?_, fun halign hfits => ?_, fun hzero p hp => ?_⟩
  · exact (findFree_cases hlen hpos hl hint hhint).imp_right And.left
  · rw [findFree, if_pos (htaken.mpr ⟨halign, hfits⟩)]
  · rw [findFree] at hzero
    split at hzero
    next hgood => exact absurd hzero hgood.1
    · by_contra hskip
      exact findFreeFrom_zero hlen hpos .first (by omega) hzero hp.base hskip hp

def heap : VmaSet where
  vmas := [⟨0x40000000, 0x40003000, ⟨⟨true, true, false⟩, .anon, none, 0⟩⟩]
  brkStart := 0x40000000
  brkCur := 0x40003000

def noMemory : Env := ⟨true, false, false, true, true, true, fun _ _ => false, fun _ _ => false⟩

theorem heap_placedFirst : PlacedFirst .x86_64 noMemory heap.vmas 4096 0x40000000 :=
  findFree_placedFirst .x86_64 noMemory heap.vmas 4096 0x40000000 (by simp [heap]) (by decide)
    (by decide) (by decide)

-- For an empty range the search ends at once, though the window is free.
theorem empty_not_placed : findFree .x86_64 noMemory [] 0 0 = 0 ∧
    Fits .x86_64 noMemory [] 0 0x48000000 ∧ ¬ PlacedFirst .x86_64 noMemory [] 0 0 := by
  have hfits : Fits .x86_64 noMemory [] 0 0x48000000 := ⟨by decide, by decide, by simp [Free], rfl⟩
  refine ⟨by decide, hfits, fun h => ?_⟩
  obtain ⟨c, -, -, hmapped, -⟩ := h.2.2.2 (by decide) _ hfits
  cases hmapped

theorem room_of_findFree (h : WF arch l) (hsize : size < arch.size) (hpos : 0 < size)
    (haddr : addr < arch.size) (hne : findFree arch env l size (addr / pg * pg) ≠ 0) :
    Room arch l (findFree arch env l size (addr / pg * pg)) size := by
  have hle : addr / pg * pg ≤ addr := Nat.div_mul_le_self addr pg
  obtain hzero | ⟨hfits, hplace⟩ :=
    findFree_cases hsize hpos h.ordered.sorted (addr / pg * pg) (by omega)
  · exact absurd hzero hne
  · exact ⟨hplace.elim Nat.dvd_of_mod_eq_zero (Tried.aligned h), hfits.limit, hfits.free⟩

end FindFree

section Mmap

def Failed (r : ℤ) : Prop := -4095 ≤ r ∧ r < 0

theorem asLong_emod (h : va < arch.size) : asLong arch va % arch.size = va := by
  rw [asLong]
  split
  · exact Int.emod_eq_of_lt (by omega) (by omega)
  · rw [Int.sub_emod_right]
    exact Int.emod_eq_of_lt (by omega) (by omega)

theorem asLong_inj (ha : a < arch.size) (hb : b < arch.size)
    (h : asLong arch a = asLong arch b) : a = b := by
  have := congrArg (· % (arch.size : ℤ)) h
  simp only [asLong_emod ha, asLong_emod hb] at this
  omega

def Maps (l l' : List (Range Area)) (va len : ℕ) (area : Area) : Prop :=
  ∀ p, pg ∣ p → pages l' p = if va ≤ p ∧ p < va + len then some (area.page (p - va)) else pages l p

def Placed (arch : Arch) (l : List (Range Area)) (r : ℤ × VmaSet) (va len : ℕ) (area : Area) :
    Prop :=
  WF arch r.2.vmas ∧ (¬ Failed r.1 → r.1 = asLong arch va ∧ Maps l r.2.vmas va len area)

theorem placed_error {e : ℤ} {area : Area} (h : WF arch s.vmas) (he : Failed e) :
    Placed arch l (e, s) va len area :=
  ⟨h, fun hok => absurd he hok⟩

theorem failed_nomem : Failed (-12) := ⟨by decide, by decide⟩

theorem placed_place (h : WF arch s.vmas) (area : Area) (hsize : pg ∣ size) (hpos : 0 < size)
    (hroom : Room arch s.vmas va size) :
    Placed arch s.vmas (place arch env s va size area) va size area := by
  have hlimit := arch.vmmUserLimit_lt
  have hinside := hroom.inside
  have hstop : (va + size) % arch.size = va + size := Nat.mod_eq_of_lt (by omega)
  have hlt : va < va + size := by omega
  have hins : WF arch (insert ⟨va, va + size, area⟩ s.vmas) :=
    h.insert hlt hroom.free ⟨hroom.aligned, Nat.dvd_add hroom.aligned hsize⟩ (by simp only; omega)
  rw [place, hstop]
  split
  · exact placed_error h failed_nomem
  · split
    · exact placed_error hins.removeRange failed_nomem
    · refine ⟨hins.merge, fun _ => ⟨rfl, fun p _ => ?_⟩⟩
      rw [pages_merge hins.ordered, pages_insert h.ordered hlt hroom.free]

theorem placed_over (area : Area) (hsize : pg ∣ size) (hpos : 0 < size) (hva : pg ∣ va)
    (hinside : va + size ≤ arch.vmmUserLimit) (hl : Parted arch s.vmas l va (va + size)) :
    Placed arch s.vmas
      (place arch env { s with vmas := removeRange l va (va + size) } va size area)
      va size area := by
  have hfree : Free (removeRange l va (va + size)) va (va + size) := by
    intro r hr
    obtain ⟨hr, hout⟩ := mem_removeRange.mp hr
    have hlower : ¬ (r.lo < va ∧ va < r.hi) := fun hin => hl.lower ⟨r, hr, hin⟩
    have hupper : ¬ (r.lo < va + size ∧ va + size < r.hi) := fun hin => hl.upper ⟨r, hr, hin⟩
    omega
  have hplaced : Placed arch (removeRange l va (va + size))
      (place arch env { s with vmas := removeRange l va (va + size) } va size area)
      va size area :=
    placed_place hl.wf.removeRange area hsize hpos ⟨hva, hinside, hfree⟩
  obtain ⟨hwf, hok⟩ := hplaced
  refine ⟨hwf, fun hnot => ⟨(hok hnot).1, fun p hp => ?_⟩⟩
  rw [(hok hnot).2 p hp]
  split
  · rfl
  next hout =>
    rw [pages_removeRange hl.wf.ordered hl.lower hl.upper, if_neg hout, hl.same]

-- The list stays well formed, and success maps the pages of [va, va + len) as asked for and no
-- others. A fixed mapping is at its address, and only one that may replace finds anything there.
def MmapCorrect (arch : Arch) (env : Env) (s : VmaSet) (r : ℤ × VmaSet) (addr len : ℕ)
    (prot : Prot) (flags : Flags) (fd : Fd) (off : ℕ) : Prop :=
  WF arch r.2.vmas ∧ (¬ Failed r.1 → ∃ va kind file,
    r.1 = asLong arch va ∧ va + len ≤ arch.vmmUserLimit ∧ pg ∣ va ∧
    backing env (protToVf prot) flags fd off = .ok (kind, file) ∧
    (flags.fixed = true ∨ flags.noReplace = true → va = addr) ∧
    (flags.fixed = false ∨ flags.noReplace = true →
      ∀ p, pg ∣ p → va ≤ p → p < va + len → pages s.vmas p = none) ∧
    Maps s.vmas r.2.vmas va len ⟨protToVf prot, kind, file, off⟩)

variable {prot : Prot} {flags : Flags} {fd : Fd} {off : ℕ}

theorem mmapCorrect_error {e : ℤ} (h : WF arch l) (he : Failed e) :
    MmapCorrect arch env s (e, { s with vmas := l }) addr len prot flags fd off :=
  ⟨h, fun hok => absurd he hok⟩

theorem failed_backing {vf : Vf} {e : ℤ} (h : backing env vf flags fd off = .error e) :
    Failed e := by
  rw [backing.eq_def] at h
  split at h
  · cases h
  · cases fd with
    | negative => cases h
    | bad =>
      cases h
      exact ⟨by decide, by decide⟩
    | shm =>
      simp only at h
      split at h
      · cases h
        exact ⟨by decide, by decide⟩
      · cases h
    | vfs file =>
      simp only at h
      split at h
      · cases h
        exact ⟨by decide, by decide⟩
      · split at h
        · cases h
        · cases h
    | other =>
      simp only at h
      split at h
      · cases h
        exact ⟨by decide, by decide⟩
      · cases h
        exact ⟨by decide, by decide⟩

theorem lt_add_roundUp_iff (hva : pg ∣ va) (hp : pg ∣ p) : p < va + roundUp len ↔ p < va + len := by
  simp only [roundUp, pg] at *
  omega

theorem MmapCorrect.of_placed {kind : Kind} {file : Option ℕ} {r : ℤ × VmaSet}
    (hr : Placed arch s.vmas r va (roundUp len) ⟨protToVf prot, kind, file, off⟩)
    (hback : backing env (protToVf prot) flags fd off = .ok (kind, file)) (hva : pg ∣ va)
    (hinside : va + roundUp len ≤ arch.vmmUserLimit)
    (hfixed : flags.fixed = true ∨ flags.noReplace = true → va = addr)
    (hfree : flags.fixed = false ∨ flags.noReplace = true → Free s.vmas va (va + roundUp len)) :
    MmapCorrect arch env s r addr len prot flags fd off := by
  refine ⟨hr.1, fun hok => ?_⟩
  obtain ⟨hret, hmaps⟩ := hr.2 hok
  have hle := le_roundUp len
  refine ⟨va, kind, file, hret, by omega, hva, hback, hfixed, ?_, ?_⟩
  · intro hflags p _ hlo hhi
    exact pages_of_free (hfree hflags) ⟨hlo, by omega⟩
  · intro p hp
    rw [hmaps p hp]
    simp only [lt_add_roundUp_iff hva hp]

theorem vmaMmap_correct (h : WF arch s.vmas) (haddr : addr < arch.size) (hlen : len < arch.size) :
    MmapCorrect arch env s (vmaMmap arch env s addr len prot flags fd off) addr len prot flags fd
      off := by
  rw [vmaMmap]
  split
  · exact mmapCorrect_error h ⟨by decide, by decide⟩
  cases Nat.lt_or_ge (len + (pg - 1)) arch.size with
  | inr hwrap =>
    rw [pageUp_of_ge hlen hwrap]
    rw [if_pos (by omega)]
    exact mmapCorrect_error h failed_nomem
  | inl hlt =>
    have hle := le_roundUp len
    have hup : roundUp len < arch.size := by
      have := roundUp_lt len
      omega
    rw [pageUp_of_lt hlt]
    simp only
    rw [if_neg (by omega)]
    split
    · exact mmapCorrect_error h ⟨by decide, by decide⟩
    rename_i halign
    cases hback : backing env (protToVf prot) flags fd off with
    | error e => exact mmapCorrect_error h (failed_backing hback)
    | ok kf =>
      simp only
      split
      · exact mmapCorrect_error h failed_nomem
      split
      · exact mmapCorrect_error h failed_nomem
      split
      next hfixed =>
        have hva : pg ∣ addr := by
          simp only [hfixed, Bool.true_and, decide_eq_true_eq, ne_eq, not_not] at halign
          exact Nat.dvd_of_mod_eq_zero halign
        split
        · exact mmapCorrect_error h ⟨by decide, by decide⟩
        rename_i hgood
        have hsum := add_mod_of_le haddr hup (by omega)
        rw [hsum] at hgood ⊢
        split
        next hno =>
          split
          · exact mmapCorrect_error h ⟨by decide, by decide⟩
          next hclear =>
            have hover : overlaps addr (addr + roundUp len) s.vmas = false := by
              simp only [Bool.or_eq_true, not_or, Bool.not_eq_true] at hclear
              exact hclear.1
            have hfree : Free s.vmas addr (addr + roundUp len) :=
              fun r hr => not_overlaps h.ordered.sorted hover hr
            exact .of_placed (placed_place h _ (pg_dvd_roundUp len) (by omega)
              ⟨hva, by omega, hfree⟩) hback hva (by omega) (fun _ => rfl) fun _ => hfree
        next hno =>
          have hfix : flags.fixed = true := by simpa [hno] using hfixed
          obtain ⟨-, hres, hl, -⟩ | ⟨-, hres, hl⟩ :=
            splitEnds_cases env h hva (Nat.dvd_add hva (pg_dvd_roundUp len)) (by omega)
          · rw [hres, if_neg (by decide)]
            exact mmapCorrect_error hl failed_nomem
          · rw [hres, if_pos rfl]
            refine .of_placed (placed_over _ (pg_dvd_roundUp len) (by omega) hva (by omega) hl)
              hback hva (by omega) (fun _ => rfl) ?_
            rintro (hflag | hflag)
            · rw [hfix] at hflag
              cases hflag
            · exact absurd hflag hno
      next hfixed =>
        split
        · exact mmapCorrect_error h failed_nomem
        next hne =>
          have hroom := room_of_findFree h hup (by omega) haddr hne
          refine .of_placed (placed_place h _ (pg_dvd_roundUp len) (by omega) hroom) hback
            hroom.aligned hroom.inside ?_ fun _ => hroom.free
          intro hflags
          exact absurd (by simpa using hflags) hfixed

end Mmap

end DosKernel.Vma

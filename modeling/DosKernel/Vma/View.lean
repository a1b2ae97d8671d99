import Mathlib.Data.Int.Notation
import DosKernel.Lib.Ranges

namespace DosKernel.Vma

open DosKernel.Lib

inductive Arch where
  | i386
  | x86_64
  | aarch64
deriving DecidableEq, Repr

def Arch.size : Arch → ℕ
  | .i386 => 4294967296
  | .x86_64 => 18446744073709551616
  | .aarch64 => 18446744073709551616

def Arch.vmmUserBase : Arch → ℕ
  | .i386 => 0x40000000
  | .x86_64 => 0x40000000
  | .aarch64 => 0x100000000

def Arch.vmmUserMin : Arch → ℕ
  | .i386 => 0x40000000
  | .x86_64 => 0x40000000
  | .aarch64 => 0x10000

def Arch.vmmUserLimit : Arch → ℕ
  | .i386 => 0xB0000000
  | .x86_64 => 549755813888
  | .aarch64 => 549755813888

def pg : ℕ := 4096

def mmapBaseOff : ℕ := 0x08000000

def eagerMax : ℕ := 268435456

-- VMM_USER, VMM_WRITABLE and VMM_EXEC; all clear is PROT_NONE.
structure Vf where
  user : Bool
  writable : Bool
  exec : Bool
deriving DecidableEq, Repr

structure Prot where
  read : Bool
  write : Bool
  exec : Bool
deriving DecidableEq, Repr

def protToVf (prot : Prot) : Vf :=
  if !(prot.read || prot.write || prot.exec) then ⟨false, false, false⟩
  else ⟨true, prot.write, prot.exec⟩

inductive Kind where
  | anon
  | file
  | eager
deriving DecidableEq, Repr

structure Area where
  vf : Vf
  kind : Kind
  file : Option ℕ
  off : ℕ
deriving DecidableEq, Repr

-- What a page is meant to hold: its protection, its backing, and the file and the page of it.
structure Page where
  vf : Vf
  kind : Kind
  source : Option (ℕ × ℕ)
deriving DecidableEq, Repr

def Area.page (a : Area) (distance : ℕ) : Page where
  vf := a.vf
  kind := a.kind
  source := if a.kind = .file then
      a.file.map fun f => (f, (a.off + distance) % 18446744073709551616 / pg)
    else none

structure VmaSet where
  vmas : List (Range Area)
  brkStart : ℕ
  brkCur : ℕ
deriving DecidableEq, Repr

def find (va : ℕ) : List (Range Area) → Option (Range Area)
  | [] => none
  | v :: rest => if va < v.lo then none else if va < v.hi then some v else find va rest

def overlaps (a b : ℕ) : List (Range Area) → Bool
  | [] => false
  | v :: rest => if b ≤ v.lo then false else if a < v.hi then true else overlaps a b rest

def insert (n : Range Area) : List (Range Area) → List (Range Area)
  | [] => [n]
  | v :: rest => if v.lo < n.lo then v :: insert n rest else n :: v :: rest

def headTo (c : ℕ) (v : Range Area) : Range Area := { v with hi := c }

def tailFrom (c : ℕ) (v : Range Area) : Range Area :=
  ⟨c, v.hi, { v.data with off := (v.data.off + (c - v.lo)) % 18446744073709551616 }⟩

def cut (c : ℕ) : List (Range Area) → List (Range Area)
  | [] => []
  | v :: rest => if v.Has c then headTo c v :: tailFrom c v :: rest else v :: cut c rest

-- `split_at`; `mem` tells whether `vma_new` gets its memory.
def splitAt (l : List (Range Area)) (c : ℕ) (mem : Bool) : Option (List (Range Area)) :=
  match find c l with
  | none => some l
  | some v => if v.lo = c then some l else if mem then some (cut c l) else none

def joinable (v n : Range Area) : Bool :=
  v.data.kind = .anon && n.data.kind = .anon && v.hi = n.lo && v.data.vf = n.data.vf

def mergeFrom (v : Range Area) : List (Range Area) → List (Range Area)
  | [] => [v]
  | n :: rest => if joinable v n then mergeFrom { v with hi := n.hi } rest
    else v :: mergeFrom n rest

def merge : List (Range Area) → List (Range Area)
  | [] => []
  | v :: rest => mergeFrom v rest

def removeRange (l : List (Range Area)) (a b : ℕ) : List (Range Area) :=
  l.filter fun v => !(a ≤ v.lo && v.hi ≤ b)

def setVf (vf : Vf) (v : Range Area) : Range Area := { v with data := { v.data with vf := vf } }

def protectRange (a b : ℕ) (vf : Vf) : List (Range Area) → List (Range Area)
  | [] => []
  | v :: rest =>
    if v.lo < b then
      (if a ≤ v.lo ∧ v.hi ≤ b then setVf vf v else v) :: protectRange a b vf rest
    else v :: rest

-- What a call meets: which allocations succeed, whether eager pages can be mapped, whether the page
-- cache is on, and what `vmm_space_range_state` finds.
structure Env where
  setMem : Bool
  splitMem : Bool
  splitMem' : Bool
  newMem : Bool
  eagerMapped : Bool
  pcacheEnabled : Bool
  kernelPages : ℕ → ℕ → Bool
  anyPages : ℕ → ℕ → Bool

-- split_at(s, a) || split_at(s, b): whether both succeed, and the list.
def splitEnds (env : Env) (l : List (Range Area)) (a b : ℕ) : Bool × List (Range Area) :=
  match splitAt l a env.splitMem with
  | none => (false, l)
  | some l' =>
    match splitAt l' b env.splitMem' with
    | none => (false, l')
    | some l'' => (true, l'')

-- What `fd_lookup` finds for the descriptor, which may be negative.
inductive Fd where
  | negative
  | bad
  | shm
  | vfs (file : ℕ)
  | other
deriving DecidableEq, Repr

structure Flags where
  shared : Bool
  fixed : Bool
  noReplace : Bool
  anonymous : Bool
deriving DecidableEq, Repr

variable (arch : Arch)

def asLong (n : ℕ) : ℤ := if n < arch.size / 2 then n else n - arch.size

-- (x + PG - 1) & ~(PG - 1)
def pageUp (x : ℕ) : ℕ := (x + (pg - 1)) % arch.size / pg * pg

def usable (env : Env) (l : List (Range Area)) (a len : ℕ) : Bool :=
  let lo := arch.vmmUserBase + mmapBaseOff
  let stop := (a + len) % arch.size
  !(a < lo || stop < a || arch.vmmUserLimit < stop) && !overlaps a stop l && !env.anyPages a stop

def blocker (cand stop : ℕ) : List (Range Area) → Option (Range Area)
  | [] => none
  | v :: rest => if stop ≤ v.lo then none else if cand < v.hi then some v else blocker cand stop rest

-- The loop of `find_free`; every turn moves `cand` up.
def findFreeFrom (env : Env) (l : List (Range Area)) (len : ℕ) : ℕ → ℕ → ℕ
  | 0, _ => 0
  | fuel + 1, cand =>
    let stop := (cand + len) % arch.size
    if cand < stop ∧ stop ≤ arch.vmmUserLimit then
      match blocker cand stop l with
      | some v => findFreeFrom env l len fuel v.hi
      | none =>
        if !env.anyPages cand stop then cand
        else findFreeFrom env l len fuel ((cand + 2097152) / 2097152 * 2097152)
    else 0

def findFree (env : Env) (l : List (Range Area)) (len hint : ℕ) : ℕ :=
  if hint ≠ 0 ∧ hint % pg = 0 ∧ usable arch env l hint len then hint
  else findFreeFrom arch env l len arch.vmmUserLimit (arch.vmmUserBase + mmapBaseOff)

def backing (env : Env) (vf : Vf) (flags : Flags) (fd : Fd) (off : ℕ) : Except ℤ (Kind × Option ℕ) :=
  if flags.anonymous then .ok (.anon, none)
  else
    match fd with
    | .negative => .ok (.anon, none)
    | .bad => .error (-9)
    | .shm => if off % pg ≠ 0 then .error (-22) else .ok (.eager, none)
    | .vfs file =>
      if off % pg ≠ 0 then .error (-22)
      else if (!flags.shared || (flags.shared && !vf.writable)) && env.pcacheEnabled then
        .ok (.file, some file)
      else .ok (.eager, none)
    | .other => if off % pg ≠ 0 then .error (-22) else .error (-19)

def place (env : Env) (s : VmaSet) (va size : ℕ) (area : Area) : ℤ × VmaSet :=
  let stop := (va + size) % arch.size
  if !env.newMem then (-12, s)
  else
    let l := insert ⟨va, stop, area⟩ s.vmas
    if area.kind = .eager ∧ !env.eagerMapped then
      (-12, { s with vmas := removeRange l va stop })
    else (asLong arch va, { s with vmas := merge l })

def vmaMmap (env : Env) (s : VmaSet) (addr len : ℕ) (prot : Prot) (flags : Flags) (fd : Fd)
    (off : ℕ) : ℤ × VmaSet :=
  if len = 0 then (-22, s)
  else
    let size := pageUp arch len
    if size < len then (-12, s)
    else
      let vf := protToVf prot
      let fixed := flags.fixed || flags.noReplace
      if fixed && addr % pg ≠ 0 then (-22, s)
      else
        match backing env vf flags fd off with
        | .error e => (e, s)
        | .ok (kind, file) =>
          let area : Area := ⟨vf, kind, file, off⟩
          if kind = .eager ∧ eagerMax < size then (-12, s)
          else if !env.setMem then (-12, s)
          else if fixed then
            let stop := (addr + size) % arch.size
            if addr < arch.vmmUserMin ∨ stop < addr ∨ arch.vmmUserLimit < stop ∨
                env.kernelPages addr stop then (-22, s)
            else if flags.noReplace then
              if overlaps addr stop s.vmas || env.anyPages addr stop then (-17, s)
              else place arch env s addr size area
            else
              let split := splitEnds env s.vmas addr stop
              if split.1 then
                place arch env { s with vmas := removeRange split.2 addr stop } addr size area
              else (-12, { s with vmas := split.2 })
          else
            let va := findFree arch env s.vmas size (addr / pg * pg)
            if va = 0 then (-12, s) else place arch env s va size area

def refused (env : Env) (addr stop : ℕ) : Bool :=
  stop < addr || addr < arch.vmmUserMin || arch.vmmUserLimit < stop || env.kernelPages addr stop

-- What `vma_munmap` and `vma_mprotect` do: the checks, the splits, and the work on a list whose
-- ranges are inside or outside.
def onRange (env : Env) (s : VmaSet) (addr stop : ℕ)
    (work : List (Range Area) → List (Range Area)) : ℤ × VmaSet :=
  if refused arch env addr stop then (-22, s)
  else
    let split := splitEnds env s.vmas addr stop
    if split.1 then (0, { s with vmas := work split.2 }) else (-12, { s with vmas := split.2 })

def vmaMunmap (env : Env) (s : VmaSet) (addr len : ℕ) : ℤ × VmaSet :=
  if addr % pg ≠ 0 ∨ len = 0 then (-22, s)
  else
    let stop := (addr + pageUp arch len) % arch.size
    onRange arch env s addr stop fun l => removeRange l addr stop

def vmaMprotect (env : Env) (s : VmaSet) (addr len : ℕ) (prot : Prot) : ℤ × VmaSet :=
  if addr % pg ≠ 0 then (-22, s)
  else
    let stop := pageUp arch (addr + len)
    onRange arch env s addr stop fun l => merge (protectRange addr stop (protToVf prot) l)

def heapFlags : Flags := ⟨false, false, true, true⟩

def vmaBrk (env : Env) (s : VmaSet) (addr : ℕ) : ℤ × VmaSet :=
  if s.brkStart = 0 then (0, s)
  else if addr < s.brkStart then (asLong arch s.brkCur, s)
  else
    let oldp := pageUp arch s.brkCur
    let newp := pageUp arch addr
    if oldp < newp then
      let r := vmaMmap arch env s oldp (newp - oldp) ⟨true, true, false⟩ heapFlags .negative 0
      if r.1 < 0 ∨ r.1 % arch.size ≠ oldp then (asLong arch s.brkCur, r.2)
      else (asLong arch addr, { r.2 with brkCur := addr })
    else if newp < oldp then
      (asLong arch addr, { (vmaMunmap arch env s newp (oldp - newp)).2 with brkCur := addr })
    else (asLong arch addr, { s with brkCur := addr })

open List

variable {l l' : List (Range Area)} {n r v : Range Area} {a b c p : ℕ} {x : Page} {vf : Vf}

def Straddled (l : List (Range Area)) (c : ℕ) : Prop := ∃ r ∈ l, r.lo < c ∧ c < r.hi

theorem find_some (h : find c l = some v) : v ∈ l ∧ v.Has c := by
  induction l with
  | nil => simp [find] at h
  | cons r l ih =>
    rw [find] at h
    split at h
    · cases h
    next hlo =>
      split at h
      next hhi =>
        cases h
        exact ⟨mem_cons_self, Nat.le_of_not_lt hlo, hhi⟩
      · exact ⟨mem_cons_of_mem r (ih h).1, (ih h).2⟩

theorem find_none (hl : Ordered l) (h : find c l = none) (hr : r ∈ l) : ¬ r.Has c := by
  induction l with
  | nil => cases hr
  | cons v l ih =>
    obtain ⟨hv, hhead, htail⟩ := ordered_cons.mp hl
    rw [find] at h
    rintro ⟨hlo, hhi⟩
    cases mem_cons.mp hr with
    | inl hrv =>
      subst hrv
      rw [if_neg (Nat.not_lt.mpr hlo), if_pos hhi] at h
      cases h
    | inr hr =>
      have hle := hhead r hr
      rw [if_neg (by omega), if_neg (by omega)] at h
      exact ih htail h hr ⟨hlo, hhi⟩

section Cut

theorem mem_cut (h : n ∈ cut c l) :
    n ∈ l ∨ ∃ r ∈ l, r.Has c ∧ (n = headTo c r ∨ n = tailFrom c r) := by
  induction l with
  | nil => cases h
  | cons v l ih =>
    rw [cut] at h
    split at h
    next hv =>
      obtain rfl | rfl | h := by simpa using h
      · exact .inr ⟨v, mem_cons_self, hv, .inl rfl⟩
      · exact .inr ⟨v, mem_cons_self, hv, .inr rfl⟩
      · exact .inl (mem_cons_of_mem v h)
    · obtain rfl | h := mem_cons.mp h
      · exact .inl mem_cons_self
      · obtain h | ⟨r, hr, hcut⟩ := ih h
        · exact .inl (mem_cons_of_mem v h)
        · exact .inr ⟨r, mem_cons_of_mem v hr, hcut⟩

theorem mem_cut_of_mem (h : r ∈ l) : r ∈ cut c l ∨ tailFrom c r ∈ cut c l := by
  induction l with
  | nil => cases h
  | cons v l ih =>
    rw [cut]
    split
    · obtain rfl | h := mem_cons.mp h
      · simp
      · simp [h]
    · obtain rfl | h := mem_cons.mp h
      · simp
      · obtain h | h := ih h
        · simp [h]
        · simp [h]

theorem ordered_cut (hl : Ordered l) (hc : ∀ r ∈ l, r.lo ≠ c) : Ordered (cut c l) := by
  induction l with
  | nil => exact ordered_nil
  | cons v l ih =>
    obtain ⟨hv, hhead, htail⟩ := ordered_cons.mp hl
    rw [cut]
    split
    next hin =>
      have hne := hc v mem_cons_self
      have hlt : v.lo < c := Nat.lt_of_le_of_ne hin.1 hne
      refine ordered_cons.mpr ⟨hlt, ?_, ordered_cons.mpr ⟨hin.2, hhead, htail⟩⟩
      intro s hs
      obtain rfl | hs := mem_cons.mp hs
      · exact Nat.le_refl c
      · exact Nat.le_trans (Nat.le_of_lt hin.2) (hhead s hs)
    · refine ordered_cons.mpr ⟨hv, ?_, ih htail fun r hr => hc r (mem_cons_of_mem v hr)⟩
      intro s hs
      obtain hs | ⟨r, hr, hin, rfl | rfl⟩ := mem_cut hs
      · exact hhead s hs
      · exact hhead r hr
      · exact Nat.le_trans (hhead r hr) hin.1

theorem not_straddled_cut (hl : Ordered l) : ¬ Straddled (cut c l) c := by
  rintro ⟨r, hr, hlo, hhi⟩
  induction l with
  | nil => cases hr
  | cons v l ih =>
    obtain ⟨hv, hhead, htail⟩ := ordered_cons.mp hl
    rw [cut] at hr
    split at hr
    next hin =>
      obtain rfl | rfl | hr := by simpa using hr
      · exact Nat.lt_irrefl c hhi
      · exact Nat.lt_irrefl c hlo
      · have := hhead r hr
        have := hin.2
        omega
    next hin =>
      obtain rfl | hr := mem_cons.mp hr
      · exact hin ⟨Nat.le_of_lt hlo, hhi⟩
      · exact ih htail hr

theorem straddled_of_cut (h : Straddled (cut c l) b) : Straddled l b := by
  obtain ⟨n, hn, hlo, hhi⟩ := h
  obtain hn | ⟨r, hr, hin, rfl | rfl⟩ := mem_cut hn
  · exact ⟨n, hn, hlo, hhi⟩
  · exact ⟨r, hr, hlo, Nat.lt_trans hhi hin.2⟩
  · exact ⟨r, hr, Nat.lt_of_le_of_lt hin.1 hlo, hhi⟩

theorem straddled_cut (h : Straddled l b) (hcb : c < b) : Straddled (cut c l) b := by
  obtain ⟨r, hr, hlo, hhi⟩ := h
  obtain hr | hr := mem_cut_of_mem hr
  · exact ⟨r, hr, hlo, hhi⟩
  · exact ⟨tailFrom c r, hr, hcb, hhi⟩

theorem page_tailFrom (hv : v.Has c) (hp : c ≤ p) :
    (tailFrom c v).data.page (p - c) = v.data.page (p - v.lo) := by
  have hlo := hv.1
  have hoff : ((v.data.off + (c - v.lo)) % 18446744073709551616 + (p - c)) % 18446744073709551616 =
      (v.data.off + (p - v.lo)) % 18446744073709551616 := by
    omega
  simp only [Area.page, tailFrom, hoff]

theorem holds_cut : Holds Area.page (cut c l) p x ↔ Holds Area.page l p x := by
  induction l with
  | nil => rfl
  | cons v l ih =>
    rw [cut]
    split
    next hin =>
      rw [holds_cons, holds_cons, holds_cons, ← or_assoc]
      refine or_congr ?_ Iff.rfl
      constructor
      · rintro (⟨⟨hlo, hhi⟩, hx⟩ | ⟨⟨hlo, hhi⟩, hx⟩)
        · exact ⟨⟨hlo, Nat.lt_trans hhi hin.2⟩, hx⟩
        · exact ⟨⟨Nat.le_trans hin.1 hlo, hhi⟩, (page_tailFrom hin hlo).symm.trans hx⟩
      · rintro ⟨⟨hlo, hhi⟩, hx⟩
        cases Nat.lt_or_ge p c with
        | inl hlt => exact .inl ⟨⟨hlo, hlt⟩, hx⟩
        | inr hge => exact .inr ⟨⟨hge, hhi⟩, (page_tailFrom hin hge).trans hx⟩
    · rw [holds_cons, holds_cons, ih]

end Cut

section Merge

theorem page_anon {area : Area} (h : area.kind = .anon) (d : ℕ) :
    area.page d = ⟨area.vf, .anon, none⟩ := by
  simp [Area.page, h]

theorem mem_mergeFrom (h : r ∈ mergeFrom v l) :
    (∃ s ∈ v :: l, r.lo = s.lo) ∧ ∃ s ∈ v :: l, r.hi = s.hi := by
  induction l generalizing v with
  | nil =>
    obtain rfl := mem_singleton.mp h
    exact ⟨⟨r, mem_cons_self, rfl⟩, ⟨r, mem_cons_self, rfl⟩⟩
  | cons n l ih =>
    rw [mergeFrom] at h
    split at h
    · obtain ⟨⟨s, hs, hlo⟩, ⟨t, ht, hhi⟩⟩ := ih h
      refine ⟨?_, ?_⟩
      · obtain rfl | hs := mem_cons.mp hs
        · exact ⟨v, mem_cons_self, hlo⟩
        · exact ⟨s, by simp [hs], hlo⟩
      · obtain rfl | ht := mem_cons.mp ht
        · exact ⟨n, by simp, hhi⟩
        · exact ⟨t, by simp [ht], hhi⟩
    · obtain rfl | h := mem_cons.mp h
      · exact ⟨⟨r, mem_cons_self, rfl⟩, ⟨r, mem_cons_self, rfl⟩⟩
      · obtain ⟨⟨s, hs, hlo⟩, ⟨t, ht, hhi⟩⟩ := ih h
        exact ⟨⟨s, mem_cons_of_mem v hs, hlo⟩, ⟨t, mem_cons_of_mem v ht, hhi⟩⟩

theorem ordered_mergeFrom (h : Ordered (v :: l)) : Ordered (mergeFrom v l) := by
  induction l generalizing v with
  | nil => exact h
  | cons n l ih =>
    obtain ⟨hv, hhead, htail⟩ := ordered_cons.mp h
    obtain ⟨hn, hnext, hrest⟩ := ordered_cons.mp htail
    have hvn := hhead n mem_cons_self
    rw [mergeFrom]
    split
    · apply ih
      exact ordered_cons.mpr ⟨by simp only; omega, hnext, hrest⟩
    · refine ordered_cons.mpr ⟨hv, ?_, ih htail⟩
      intro s hs
      obtain ⟨⟨t, ht, hlo⟩, -⟩ := mem_mergeFrom hs
      rw [hlo]
      exact hhead t ht

theorem holds_mergeFrom (h : Ordered (v :: l)) :
    Holds Area.page (mergeFrom v l) p x ↔ Holds Area.page (v :: l) p x := by
  induction l generalizing v with
  | nil => rfl
  | cons n l ih =>
    obtain ⟨hv, hhead, htail⟩ := ordered_cons.mp h
    obtain ⟨hn, hnext, hrest⟩ := ordered_cons.mp htail
    rw [mergeFrom]
    split
    next hjoin =>
      simp only [joinable, Bool.and_eq_true, decide_eq_true_eq] at hjoin
      obtain ⟨⟨⟨hva, hna⟩, hmeet⟩, hvf⟩ := hjoin
      have hjoined : Ordered ({ v with hi := n.hi } :: l) :=
        ordered_cons.mpr ⟨by simp only; omega, hnext, hrest⟩
      rw [ih hjoined, holds_cons, holds_cons, holds_cons, ← or_assoc]
      refine or_congr ?_ Iff.rfl
      simp only [page_anon hva, page_anon hna, hvf, Range.Has]
      rw [← or_and_right]
      refine and_congr_left fun _ => ?_
      omega
    · rw [holds_cons, ih htail, ← holds_cons]

theorem ordered_merge (h : Ordered l) : Ordered (merge l) := by
  cases l with
  | nil => exact h
  | cons v l => exact ordered_mergeFrom h

theorem holds_merge (h : Ordered l) : Holds Area.page (merge l) p x ↔ Holds Area.page l p x := by
  cases l with
  | nil => rfl
  | cons v l => exact holds_mergeFrom h

theorem mem_merge (h : r ∈ merge l) : (∃ s ∈ l, r.lo = s.lo) ∧ ∃ s ∈ l, r.hi = s.hi := by
  cases l with
  | nil => cases h
  | cons v l => exact mem_mergeFrom h

end Merge

section Work

theorem inside_iff (ha : ¬ Straddled l a) (hb : ¬ Straddled l b) (hr : r ∈ l) (hp : r.Has p) :
    a ≤ r.lo ∧ r.hi ≤ b ↔ a ≤ p ∧ p < b := by
  obtain ⟨hlo, hhi⟩ := hp
  have hna : ¬ (r.lo < a ∧ a < r.hi) := fun h => ha ⟨r, hr, h⟩
  have hnb : ¬ (r.lo < b ∧ b < r.hi) := fun h => hb ⟨r, hr, h⟩
  omega

theorem mem_removeRange : r ∈ removeRange l a b ↔ r ∈ l ∧ ¬ (a ≤ r.lo ∧ r.hi ≤ b) := by
  rw [removeRange, mem_filter, Bool.not_eq_true', ← Bool.not_eq_true, Bool.and_eq_true,
    decide_eq_true_eq, decide_eq_true_eq]

theorem ordered_removeRange (h : Ordered l) : Ordered (removeRange l a b) :=
  h.sublist filter_sublist

theorem holds_removeRange (ha : ¬ Straddled l a) (hb : ¬ Straddled l b) :
    Holds Area.page (removeRange l a b) p x ↔ Holds Area.page l p x ∧ ¬ (a ≤ p ∧ p < b) := by
  constructor
  · rintro ⟨r, hr, hp, hx⟩
    obtain ⟨hr, hout⟩ := mem_removeRange.mp hr
    rw [inside_iff ha hb hr hp] at hout
    exact ⟨⟨r, hr, hp, hx⟩, hout⟩
  · rintro ⟨⟨r, hr, hp, hx⟩, hout⟩
    rw [← inside_iff ha hb hr hp] at hout
    exact ⟨r, mem_removeRange.mpr ⟨hr, hout⟩, hp, hx⟩

theorem protectRange_eq_map (h : Ordered l) : protectRange a b vf l =
    l.map fun v => if a ≤ v.lo ∧ v.hi ≤ b then setVf vf v else v := by
  induction l with
  | nil => rfl
  | cons v l ih =>
    obtain ⟨hv, hhead, htail⟩ := ordered_cons.mp h
    rw [protectRange, map_cons]
    split
    · rw [ih htail]
    next hb =>
      have hrest : l.map (fun v => if a ≤ v.lo ∧ v.hi ≤ b then setVf vf v else v) = l := by
        rw [map_congr_left, map_id]
        intro r hr
        have := hhead r hr
        have := htail.proper r hr
        rw [if_neg (by omega)]
        rfl
      rw [hrest, if_neg (by omega)]

theorem mem_protectRange (h : Ordered l) : n ∈ protectRange a b vf l ↔
    ∃ r ∈ l, (if a ≤ r.lo ∧ r.hi ≤ b then setVf vf r else r) = n := by
  rw [protectRange_eq_map h, mem_map]

theorem bounds_ite_setVf {q : Prop} [Decidable q] :
    (if q then setVf vf r else r).lo = r.lo ∧ (if q then setVf vf r else r).hi = r.hi := by
  split
  · exact ⟨rfl, rfl⟩
  · exact ⟨rfl, rfl⟩

theorem ordered_protectRange (h : Ordered l) : Ordered (protectRange a b vf l) := by
  rw [protectRange_eq_map h]
  constructor
  · intro n hn
    obtain ⟨r, hr, rfl⟩ := mem_map.mp hn
    rw [bounds_ite_setVf.1, bounds_ite_setVf.2]
    exact h.proper r hr
  · refine pairwise_map.mpr (h.apart.imp ?_)
    intro r s hrs
    rw [bounds_ite_setVf.1, bounds_ite_setVf.2]
    exact hrs

theorem holds_protectRange (h : Ordered l) (ha : ¬ Straddled l a) (hb : ¬ Straddled l b) :
    Holds Area.page (protectRange a b vf l) p x ↔
      ∃ y, Holds Area.page l p y ∧ (if a ≤ p ∧ p < b then { y with vf := vf } else y) = x := by
  constructor
  · rintro ⟨n, hn, hp, hx⟩
    obtain ⟨r, hr, rfl⟩ := (mem_protectRange h).mp hn
    have hp' : r.Has p := by
      rwa [Range.Has, bounds_ite_setVf.1, bounds_ite_setVf.2] at hp
    refine ⟨_, ⟨r, hr, hp', rfl⟩, ?_⟩
    simp only [inside_iff ha hb hr hp'] at hx
    rw [← hx]
    split <;> rfl
  · rintro ⟨y, ⟨r, hr, hp, rfl⟩, hx⟩
    refine ⟨_, (mem_protectRange h).mpr ⟨r, hr, rfl⟩, ?_, ?_⟩
    · rwa [Range.Has, bounds_ite_setVf.1, bounds_ite_setVf.2]
    · rw [bounds_ite_setVf.1]
      simp only [inside_iff ha hb hr hp]
      rw [← hx]
      split <;> rfl

end Work

section Insert

theorem mem_insert : r ∈ insert n l ↔ r = n ∨ r ∈ l := by
  induction l with
  | nil => simp [insert]
  | cons v l ih =>
    rw [insert]
    split
    · rw [mem_cons, ih, mem_cons]
      tauto
    · exact mem_cons

theorem ordered_insert (h : Ordered l) (hn : n.lo < n.hi)
    (hfree : ∀ r ∈ l, r.hi ≤ n.lo ∨ n.hi ≤ r.lo) : Ordered (insert n l) := by
  induction l with
  | nil => exact ordered_cons.mpr ⟨hn, by simp, ordered_nil⟩
  | cons v l ih =>
    obtain ⟨hv, hhead, htail⟩ := ordered_cons.mp h
    have hvn := hfree v mem_cons_self
    rw [insert]
    split
    next hlt =>
      refine ordered_cons.mpr
        ⟨hv, ?_, ih htail fun r hr => hfree r (mem_cons_of_mem v hr)⟩
      intro s hs
      obtain rfl | hs := mem_insert.mp hs
      · omega
      · exact hhead s hs
    next hge =>
      refine ordered_cons.mpr ⟨hn, ?_, h⟩
      intro s hs
      obtain rfl | hs := mem_cons.mp hs
      · omega
      · have := hhead s hs
        omega

theorem holds_insert : Holds Area.page (insert n l) p x ↔
    (n.Has p ∧ n.data.page (p - n.lo) = x) ∨ Holds Area.page l p x := by
  simp [Holds, mem_insert]

theorem not_overlaps (hl : l.Pairwise fun r s => r.lo ≤ s.lo) (h : overlaps a b l = false) (hr : r ∈ l) :
    r.hi ≤ a ∨ b ≤ r.lo := by
  induction l with
  | nil => cases hr
  | cons v l ih =>
    obtain ⟨hhead, htail⟩ := pairwise_cons.mp hl
    rw [overlaps] at h
    split at h
    next hb =>
      obtain rfl | hr := mem_cons.mp hr
      · exact .inr hb
      · exact .inr (Nat.le_trans hb (hhead r hr))
    · split at h
      · cases h
      · obtain rfl | hr := mem_cons.mp hr
        · exact .inl (Nat.le_of_not_lt ‹_›)
        · exact ih htail h hr

theorem overlaps_of_free (h : ∀ r ∈ l, r.hi ≤ a ∨ b ≤ r.lo) : overlaps a b l = false := by
  induction l with
  | nil => rfl
  | cons v l ih =>
    rw [overlaps]
    split
    · rfl
    · rw [if_neg (by have := h v mem_cons_self; omega)]
      exact ih fun r hr => h r (mem_cons_of_mem v hr)

theorem blocker_none (h : blocker a b l = none) : overlaps a b l = false := by
  induction l with
  | nil => rfl
  | cons v l ih =>
    rw [blocker] at h
    rw [overlaps]
    split
    · rfl
    next hb =>
      rw [if_neg hb] at h
      split at h
      · cases h
      next ha =>
        rw [if_neg ha]
        exact ih h

theorem blocker_some (h : blocker a b l = some v) : v ∈ l ∧ v.lo < b ∧ a < v.hi := by
  induction l with
  | nil => cases h
  | cons r l ih =>
    rw [blocker] at h
    split at h
    · cases h
    next hb =>
      split at h
      next ha =>
        cases h
        exact ⟨mem_cons_self, Nat.lt_of_not_le hb, ha⟩
      · exact ⟨mem_cons_of_mem r (ih h).1, (ih h).2⟩

end Insert

end DosKernel.Vma

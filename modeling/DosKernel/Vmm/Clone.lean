import DosKernel.CowRef.Holders

namespace DosKernel.Vmm

open Function (update)
open List

-- An entry below PML4[0]: a kernel entry or a large page by value, a private table with its frame,
-- a page with its frame, VMM_SHARED, PTE_RW and VMM_COW.
inductive Entry where
  | absent
  | carried
  | page (frame : ℕ) (shared rw cow : Bool)
  | table (frame : ℕ) (entries : List Entry)

-- The PML4's own frame and its entry 0; every other entry is the kernel's.
structure Space where
  phys : ℕ
  low : Entry

-- `asked` numbers the calls of the frame allocator, which `World` does not keep otherwise.
structure World where
  free : List ℕ
  cow : ℕ → ℕ
  asked : ℕ

-- An allocation fails without a free frame, and where `fails` says so for any other reason.
def pmmAllocFrame (fails : ℕ → Bool) (w : World) : Option ℕ × World :=
  match fails w.asked, w.free with
  | false, f :: rest => (some f, { w with free := rest, asked := w.asked + 1 })
  | _, _ => (none, { w with asked := w.asked + 1 })

def pmmFreeFrame (w : World) (f : ℕ) : World := { w with free := f :: w.free }

-- `free_subtree`. It leaves the borrowed frames and, by `cow_ref_drop`, those others hold.
mutual

def freeEntry (w : World) : Entry → World
  | .absent | .carried | .page _ true _ _ => w
  | .page f false _ false => pmmFreeFrame w f
  | .page f false _ true =>
    if w.cow f ≤ 1 then pmmFreeFrame { w with cow := update w.cow f 0 } f
    else { w with cow := update w.cow f (w.cow f - 1) }
  | .table f entries => pmmFreeFrame (freeEntries w entries) f

def freeEntries (w : World) : List Entry → World
  | [] => w
  | e :: rest => freeEntries (freeEntry w e) rest

end

def vmmSpaceDestroy (w : World) (s : Space) : World := pmmFreeFrame (freeEntry w s.low) s.phys

variable (fails : ℕ → Bool)

-- `clone_subtree`: the child's entry, unless memory ran out, and what is left of the parent's. A
-- writable page becomes copy-on-write in both, code is copied.
mutual

def cloneEntry (w : World) : Entry → Option Entry × Entry × World
  | .absent => (some .absent, .absent, w)
  | .carried => (some .carried, .carried, w)
  | .page f true rw cow => (some (.page f true rw cow), .page f true rw cow, w)
  | .page f false false false =>
    match pmmAllocFrame fails w with
    | (none, w) => (none, .page f false false false, w)
    | (some g, w) => (some (.page g false false false), .page f false false false, w)
  | .page f false _ _ =>
    (some (.page f false false true), .page f false false true,
      { w with cow := update w.cow f (CowRef.shared (w.cow f)) })
  | .table f entries =>
    match pmmAllocFrame fails w with
    | (none, w) => (none, .table f entries, w)
    | (some g, w) =>
      let (r, entries, w) := cloneEntries w entries
      (r.map (.table g), .table f entries, w)

def cloneEntries (w : World) : List Entry → Option (List Entry) × List Entry × World
  | [] => (some [], [], w)
  | e :: rest =>
    match cloneEntry w e with
    | (none, e, w) => (none, e :: rest, w)
    | (some c, e, w) =>
      let (r, rest, w) := cloneEntries w rest
      (r.map (c :: ·), e :: rest, w)

end

-- The child, the parent as it is left, and the world. `heap`: `kmalloc` gave the structure.
def vmmSpaceClone (heap : Bool) (w : World) (parent : Space) : Option Space × Space × World :=
  if !heap then (none, parent, w)
  else
    match pmmAllocFrame fails w with
    | (none, w) => (none, parent, w)
    | (some phys, w) =>
      match parent.low with
      | .table f entries =>
        match cloneEntry fails w (.table f entries) with
        | (none, low, w) => (none, { parent with low }, vmmSpaceDestroy w ⟨phys, .carried⟩)
        | (some child, low, w) => (some ⟨phys, child⟩, { parent with low }, w)
      | _ => (some ⟨phys, .carried⟩, parent, w)

def NoTrace (w w' : World) : Prop := w'.free.Perm w.free ∧ w'.cow = w.cow

-- There is no memory for the structure, or the first or second frame asked for is not to be had.
def Early (heap : Bool) (w : World) : Prop :=
  heap = false ∨ w.free.length < 2 ∨ fails w.asked = true ∨ fails (w.asked + 1) = true

structure Takes (w w' : World) (ok : Bool) : Prop where
  frames : w'.free.length + w'.asked = w.free.length + w.asked + (!ok).toNat
  asked : w.asked + (!ok).toNat ≤ w'.asked

variable {fails} {w w' : World}

theorem alloc_none (h : pmmAllocFrame fails w = (none, w')) :
    w' = { w with asked := w.asked + 1 } ∧ (fails w.asked = true ∨ w.free = []) := by
  unfold pmmAllocFrame at h
  split at h <;> cases h
  next hnot =>
    refine ⟨rfl, ?_⟩
    cases hfree : w.free with
    | nil => exact .inr rfl
    | cons f rest => exact .inl (Bool.not_eq_false _ ▸ fun hf => hnot f rest hf hfree)

theorem alloc_some {f : ℕ} (h : pmmAllocFrame fails w = (some f, w')) :
    w.free = f :: w'.free ∧ w'.cow = w.cow ∧ w'.asked = w.asked + 1 ∧ fails w.asked = false := by
  unfold pmmAllocFrame at h
  split at h <;> cases h
  next hfails hfree => exact ⟨hfree, rfl, rfl, hfails⟩

theorem takes_alloc {r : Option ℕ} (h : pmmAllocFrame fails w = (r, w')) : Takes w w' r.isSome := by
  cases r with
  | none =>
    obtain ⟨rfl, -⟩ := alloc_none h
    exact ⟨rfl, Nat.le_refl _⟩
  | some f =>
    obtain ⟨hfree, -, hasked, -⟩ := alloc_some h
    refine ⟨?_, hasked ▸ Nat.le_succ _⟩
    rw [hfree, hasked, length_cons]
    exact Nat.succ_add_eq_add_succ .. |>.symm

theorem Takes.trans {ok : Bool} {w'' : World} (h : Takes w w' true) (h' : Takes w' w'' ok) :
    Takes w w'' ok := by
  have h1 := h.frames
  have h2 := h'.frames
  have h3 := h.asked
  have h4 := h'.asked
  simp only [Bool.not_true, Bool.toNat_false] at h1 h3
  exact ⟨by omega, by omega⟩

variable (fails)

mutual

theorem takes_cloneEntry (w : World) (e : Entry) :
    Takes w (cloneEntry fails w e).2.2 (cloneEntry fails w e).1.isSome := by
  unfold cloneEntry
  split
  · exact ⟨rfl, Nat.le_refl _⟩
  · exact ⟨rfl, Nat.le_refl _⟩
  · exact ⟨rfl, Nat.le_refl _⟩
  · split
    next heq => exact takes_alloc heq
    next heq => exact takes_alloc heq
  · exact ⟨rfl, Nat.le_refl _⟩
  next f entries =>
    split
    next heq => exact takes_alloc heq
    next g w' heq =>
      have hrest := (takes_alloc heq).trans (takes_cloneEntries w' entries)
      simpa using hrest

theorem takes_cloneEntries (w : World) (entries : List Entry) :
    Takes w (cloneEntries fails w entries).2.2 (cloneEntries fails w entries).1.isSome := by
  unfold cloneEntries
  split
  · exact ⟨rfl, Nat.le_refl _⟩
  next e rest =>
    have hfirst := takes_cloneEntry w e
    split
    next heq =>
      rw [heq] at hfirst
      exact hfirst
    next c e' w' heq =>
      rw [heq] at hfirst
      simpa using hfirst.trans (takes_cloneEntries w' rest)

end

variable {fails}

theorem table_noTrace_iff {f : ℕ} {entries : List Entry} {e : Entry}
    (h : cloneEntry fails w (.table f entries) = (none, e, w')) :
    NoTrace w w' ↔ fails w.asked = true ∨ w.free = [] := by
  have htakes := takes_cloneEntry fails w (.table f entries)
  rw [h] at htakes
  unfold cloneEntry at h
  split at h
  next heq =>
    cases h
    obtain ⟨rfl, hmissed⟩ := alloc_none heq
    exact iff_of_true ⟨.refl _, rfl⟩ hmissed
  next g w1 heq =>
    obtain ⟨hfree, -, hasked1, hfails⟩ := alloc_some heq
    have hrest := takes_cloneEntries fails w1 entries
    generalize cloneEntries fails w1 entries = r at h hrest
    obtain ⟨r, entries', w2⟩ := r
    cases r with
    | some child => cases h
    | none =>
      cases h
      -- the table's frame is taken, and a frame below it was missing
      have hasked := hrest.asked
      have hframes := htakes.frames
      simp only [hasked1, Option.isSome_none, Bool.not_false, Bool.toNat_true] at hasked hframes
      refine iff_of_false (fun hno => ?_) (by simp [hfails, hfree])
      have hlen := hno.1.length_eq
      omega

-- A clone that fails leaves no trace exactly if the frame missed was the PML4's or the first
-- table's below it.
theorem noTrace_iff_early {heap : Bool} {parent parent' : Space}
    (h : vmmSpaceClone fails heap w parent = (none, parent', w')) :
    NoTrace w w' ↔ Early fails heap w := by
  unfold vmmSpaceClone at h
  split at h
  next hheap =>
    cases h
    exact iff_of_true ⟨.refl _, rfl⟩ (.inl (by simpa using hheap))
  next hheap =>
  split at h
  next heq =>
    cases h
    obtain ⟨rfl, hmissed⟩ := alloc_none heq
    refine iff_of_true ⟨.refl _, rfl⟩ (.inr ?_)
    obtain hfails | hnil := hmissed
    · exact .inr (.inl hfails)
    · exact .inl (by simp [hnil])
  next phys w1 heq =>
    obtain ⟨hfree, hcow, hasked, hfails⟩ := alloc_some heq
    split at h
    · split at h
      next w2 hclone =>
        cases h
        show (phys :: w2.free).Perm w.free ∧ w2.cow = w.cow ↔ _
        have hlen : w.free.length < 2 ↔ w1.free = [] := by
          rw [hfree, length_cons, ← length_eq_zero_iff]
          omega
        have hearly : Early fails heap w ↔ fails w1.asked = true ∨ w1.free = [] := by
          simp only [Early, hlen, hfails, ← hasked, Bool.false_eq_true, false_or,
            or_comm (a := w1.free = []), or_iff_right_iff_imp]
          exact fun hoff => absurd hoff (by simpa using hheap)
        rw [hearly, ← table_noTrace_iff hclone, hfree, ← hcow]
        exact and_congr_left' (perm_cons phys)
      · cases h
    · cases h

theorem early_failure_noTrace : NoTrace ⟨[1], fun _ => 0, 0⟩ ⟨[1], fun _ => 0, 2⟩ := by
  have hclone : vmmSpaceClone (fun _ => false) true ⟨[1], fun _ => 0, 0⟩ ⟨9, .table 10 []⟩ =
      (none, ⟨9, .table 10 []⟩, ⟨[1], fun _ => 0, 2⟩) := rfl
  exact (noTrace_iff_early hclone).mpr (.inr (.inl (by decide)))

-- With four frames for a page of data and one of code the copy of the code fails: three frames are
-- gone, and the data page counts 2 for the parent alone.
theorem failed_clone_leaks :
    let w : World := ⟨[1, 2, 3, 4], fun _ => 0, 0⟩
    let parent : Space := ⟨9, .table 10 [.table 11 [.table 12
      [.page 20 false true false, .page 21 false false false]]]⟩
    let r := vmmSpaceClone (fun _ => false) true w parent
    r.1 = none ∧ r.2.2.free = [1] ∧ r.2.2.cow 20 = 2 ∧ ¬ NoTrace w r.2.2 := by
  refine ⟨rfl, rfl, rfl, fun h => ?_⟩
  exact absurd h.1.length_eq (by decide)

end DosKernel.Vmm

import Mathlib.Data.List.Range
import Mathlib.Data.Nat.Basic

namespace DosKernel.Lib

open List

-- A heap of records. Identifiers are not handed out again: a dangling reference reads as `none`.
@[ext]
structure Heap (α : Type*) where
  get : ℕ → Option α
  next : ℕ
  fresh : ∀ i, next ≤ i → get i = none

namespace Heap

variable {α : Type*} (h : Heap α)

def empty : Heap α := ⟨fun _ => none, 0, fun _ _ => rfl⟩

def alloc (a : α) : Heap α where
  get i := if i = h.next then some a else h.get i
  next := h.next + 1
  fresh i hi := by
    rw [if_neg (by omega)]
    exact h.fresh i (by omega)

def modify (i : ℕ) (f : α → α) : Heap α where
  get j := if j = i then (h.get j).map f else h.get j
  next := h.next
  fresh j hj := by simp [h.fresh j hj]

def free (i : ℕ) : Heap α where
  get j := if j = i then none else h.get j
  next := h.next
  fresh j hj := by simp [h.fresh j hj]

def mapIdx (f : ℕ → α → α) : Heap α where
  get j := (h.get j).map (f j)
  next := h.next
  fresh j hj := by simp [h.fresh j hj]

def All (p : ℕ → α → Prop) : Prop := ∀ i a, h.get i = some a → p i a

instance decidableAll (p : ℕ → α → Prop) [∀ i a, Decidable (p i a)] : Decidable (h.All p) :=
  decidable_of_iff (∀ i < h.next, (h.get i).all fun a => decide (p i a)) <| by
    refine ⟨fun hall i a hi => ?_, fun hall i _ => ?_⟩
    · have hlt : i < h.next := by
        by_contra hlt
        simp [h.fresh i (by omega)] at hi
      simpa [hi] using hall i hlt
    · cases hi : h.get i with
      | none => rfl
      | some a => simpa using hall i a hi

def count (p : ℕ → α → Bool) : ℕ := (List.range h.next).countP fun i => (h.get i).any (p i)

variable {h} {i j : ℕ} {a : α} {f : α → α} {p : ℕ → α → Bool}

theorem lt_next (hi : h.get i = some a) : i < h.next := by
  by_contra hlt
  simp [h.fresh i (by omega)] at hi

theorem get_next : h.get h.next = none := h.fresh _ le_rfl

theorem get_alloc : (h.alloc a).get j = if j = h.next then some a else h.get j := rfl

@[simp] theorem get_alloc_next : (h.alloc a).get h.next = some a := by simp [get_alloc]

theorem get_alloc_of_ne (hj : j ≠ h.next) : (h.alloc a).get j = h.get j := by
  simp [get_alloc, hj]

theorem get_alloc_of_some {b : α} (hj : h.get j = some b) : (h.alloc a).get j = some b := by
  rw [get_alloc_of_ne (lt_next hj).ne, hj]

theorem get_modify : (h.modify i f).get j = if j = i then (h.get j).map f else h.get j := rfl

@[simp] theorem get_modify_self : (h.modify i f).get i = (h.get i).map f := by simp [get_modify]

theorem get_modify_of_ne (hj : j ≠ i) : (h.modify i f).get j = h.get j := by
  simp [get_modify, hj]

theorem get_modify_cases {b : α} (hj : (h.modify i f).get j = some b) :
    (∃ a, j = i ∧ h.get j = some a ∧ f a = b) ∨ j ≠ i ∧ h.get j = some b := by
  by_cases hji : j = i
  · rw [get_modify, if_pos hji] at hj
    obtain ⟨a, ha, hb⟩ := Option.map_eq_some_iff.mp hj
    exact .inl ⟨a, hji, ha, hb⟩
  · exact .inr ⟨hji, get_modify_of_ne hji ▸ hj⟩

theorem isSome_get_modify : ((h.modify i f).get j).isSome = (h.get j).isSome := by
  rw [get_modify]
  split <;> simp

theorem get_free : (h.free i).get j = if j = i then none else h.get j := rfl

@[simp] theorem get_free_self : (h.free i).get i = none := by simp [get_free]

theorem get_free_of_ne (hj : j ≠ i) : (h.free i).get j = h.get j := by simp [get_free, hj]

theorem get_of_get_free {b : α} (hj : (h.free i).get j = some b) : h.get j = some b := by
  by_cases hji : j = i
  · simp [hji] at hj
  · rwa [get_free_of_ne hji] at hj

private theorem countP_range_change (g g' : ℕ → Bool) {n : ℕ} (hi : i < n)
    (hne : ∀ k, k ≠ i → g' k = g k) :
    (range n).countP g' + (g i).toNat = (range n).countP g + (g' i).toNat := by
  induction n with
  | zero => omega
  | succ n ih =>
    simp only [range_succ, countP_append, countP_singleton]
    by_cases hin : i = n
    · have hsame : (range n).countP g' = (range n).countP g :=
        countP_congr fun k hk => by
          rw [hne k (by have := mem_range.mp hk; omega)]
      subst hin
      rw [hsame]
      cases g i <;> cases g' i <;> simp
    · have := ih (by omega)
      rw [hne n (by omega)]
      omega

theorem count_alloc : (h.alloc a).count p = h.count p + (p h.next a).toNat := by
  change (range (h.next + 1)).countP _ = _
  simp only [count, range_succ, countP_append, countP_singleton, get_alloc_next, Option.any_some]
  congr 1
  · refine countP_congr fun k hk => ?_
    rw [get_alloc_of_ne (by have := mem_range.mp hk; omega)]
  · cases p h.next a <;> rfl

theorem count_modify_eq (hf : ∀ k a, p k (f a) = p k a) : (h.modify i f).count p = h.count p := by
  refine countP_congr fun k _ => ?_
  rw [get_modify]
  split
  · simp [hf, Option.any_map]
  · rfl

theorem count_free (hi : h.get i = some a) : (h.free i).count p + (p i a).toNat = h.count p := by
  have := countP_range_change (fun k => (h.get k).any (p k))
    (fun k => ((h.free i).get k).any (p k)) (lt_next hi)
    fun k hk => by simp only [get_free_of_ne hk]
  simp only [hi, get_free_self, Option.any_none, Option.any_some, Bool.toNat_false] at this
  exact this

theorem count_congr {q : ℕ → α → Bool} (hpq : ∀ i a, h.get i = some a → p i a = q i a) :
    h.count p = h.count q := by
  refine countP_congr fun k _ => ?_
  cases hk : h.get k with
  | none => rfl
  | some a => simp [hpq k a hk]

theorem count_pos (hi : h.get i = some a) (ha : p i a = true) : 0 < h.count p :=
  countP_pos_iff.mpr ⟨i, mem_range.mpr (lt_next hi), by simp [hi, ha]⟩

theorem exists_of_count_pos (hc : 0 < h.count p) : ∃ i a, h.get i = some a ∧ p i a = true := by
  obtain ⟨i, -, hi⟩ := countP_pos_iff.mp hc
  cases ha : h.get i with
  | none => simp [ha] at hi
  | some a => exact ⟨i, a, ha, by simpa [ha] using hi⟩

theorem count_eq_zero (hp : ∀ i a, h.get i = some a → p i a = false) : h.count p = 0 := by
  refine countP_eq_zero.mpr fun i _ => ?_
  cases hi : h.get i with
  | none => simp
  | some a => simp [hp i a hi]

end Heap

end DosKernel.Lib

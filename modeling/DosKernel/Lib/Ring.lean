import Mathlib.Data.List.Range
import Mathlib.Tactic.Common

namespace DosKernel.Lib

open List

-- A ring buffer of `cap` cells with counters that only grow; the cells in between hold a queue.
structure Ring (α : Type*) (cap : ℕ) where
  buf : ℕ → α
  head : ℕ
  tail : ℕ
  le : tail ≤ head
  fits : head - tail ≤ cap

namespace Ring

variable {α : Type*} {cap : ℕ}

def empty (a : α) : Ring α cap := ⟨fun _ => a, 0, 0, le_rfl, by omega⟩

variable (r : Ring α cap)

def avail : ℕ := r.head - r.tail

def free : ℕ := cap - r.avail

def contents : List α := (List.range r.avail).map fun i => r.buf ((r.tail + i) % cap)

def put (a : α) (h : 0 < r.free) : Ring α cap where
  buf := Function.update r.buf (r.head % cap) a
  head := r.head + 1
  tail := r.tail
  le := Nat.le_succ_of_le r.le
  fits := by
    simp only [free, avail] at h
    omega

def store (r : Ring α cap) : List α → Ring α cap
  | [] => r
  | a :: as => if h : 0 < r.free then (r.put a h).store as else r

def drop (n : ℕ) : Ring α cap where
  buf := r.buf
  head := r.head
  tail := r.tail + min n r.avail
  le := by
    have := r.le
    simp only [avail]
    omega
  fits := by
    have := r.fits
    omega

variable {r}

@[simp] theorem length_contents : r.contents.length = r.avail := by simp [contents]

theorem contents_put {a : α} (h : 0 < r.free) : (r.put a h).contents = r.contents ++ [a] := by
  have hle := r.le
  have hroom : 0 < cap - (r.head - r.tail) := h
  have hav : (r.put a h).avail = r.avail + 1 := by
    simp only [avail, put]
    omega
  have hhead : r.tail + r.avail = r.head := by
    simp only [avail]
    omega
  simp only [contents]
  rw [hav, range_succ, map_append, map_singleton]
  congr 1
  · refine map_congr_left fun i hi => ?_
    have hi : i < r.head - r.tail := mem_range.mp hi
    -- a cell in use is not the one behind the head, since the ring is not full
    have hne : (r.tail + i) % cap ≠ r.head % cap := by
      intro heq
      have hzero := Nat.sub_mod_eq_zero_of_mod_eq heq.symm
      rw [Nat.mod_eq_of_lt (by omega)] at hzero
      omega
    exact Function.update_of_ne hne _ _
  · rw [show (r.put a h).tail = r.tail from rfl, hhead]
    simp [put]

theorem free_put {a : α} (h : 0 < r.free) : (r.put a h).free = r.free - 1 := by
  have hle := r.le
  simp only [free, avail, put]
  omega

theorem contents_store (as : List α) : (r.store as).contents = r.contents ++ as.take r.free := by
  induction as generalizing r with
  | nil => simp [store]
  | cons a as ih =>
    unfold store
    split
    next h =>
      rw [ih, contents_put, free_put, append_assoc]
      obtain ⟨k, hk⟩ := Nat.exists_eq_succ_of_ne_zero (Nat.pos_iff_ne_zero.mp h)
      simp [hk]
    next h =>
      simp [Nat.eq_zero_of_not_pos h]

theorem contents_drop (n : ℕ) : (r.drop n).contents = r.contents.drop n := by
  refine ext_getElem ?_ fun i h1 h2 => ?_
  · simp only [length_contents, length_drop]
    simp only [avail, drop]
    omega
  · simp only [length_contents, length_drop, avail, drop] at h1 h2
    simp only [contents, getElem_drop, getElem_map, getElem_range, drop]
    rw [Nat.min_eq_left (by simp only [avail]; omega), Nat.add_assoc]

end Ring

end DosKernel.Lib

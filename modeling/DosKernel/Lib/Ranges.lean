import Mathlib.Data.List.Pairwise
import Mathlib.Tactic.Common

namespace DosKernel.Lib

open List

-- The positions from `lo` up to, not including, `hi`, with what they hold.
structure Range (α : Type*) where
  lo : ℕ
  hi : ℕ
  data : α
deriving DecidableEq, Repr

variable {α β : Type*} {l l' : List (Range α)} {r s : Range α} {p : ℕ} {x : β}

def Range.Has (r : Range α) (p : ℕ) : Prop := r.lo ≤ p ∧ p < r.hi

instance (r : Range α) (p : ℕ) : Decidable (r.Has p) := inferInstanceAs (Decidable (_ ∧ _))

structure Ordered (l : List (Range α)) : Prop where
  proper : ∀ r ∈ l, r.lo < r.hi
  apart : l.Pairwise fun r s => r.hi ≤ s.lo

theorem ordered_nil : Ordered ([] : List (Range α)) := ⟨by simp, List.Pairwise.nil⟩

theorem ordered_cons : Ordered (r :: l) ↔ r.lo < r.hi ∧ (∀ s ∈ l, r.hi ≤ s.lo) ∧ Ordered l := by
  constructor
  · intro h
    obtain ⟨hhead, htail⟩ := pairwise_cons.mp h.apart
    exact ⟨h.proper r mem_cons_self, hhead,
      fun s hs => h.proper s (mem_cons_of_mem r hs), htail⟩
  · rintro ⟨hr, hhead, htail⟩
    refine ⟨?_, pairwise_cons.mpr ⟨hhead, htail.apart⟩⟩
    intro s hs
    obtain rfl | hs := mem_cons.mp hs
    · exact hr
    · exact htail.proper s hs

theorem Ordered.sorted (h : Ordered l) : l.Pairwise fun r s => r.lo ≤ s.lo := by
  refine h.apart.imp_of_mem fun hr _ hle => ?_
  exact Nat.le_trans (Nat.le_of_lt (h.proper _ hr)) hle

theorem Ordered.sublist (h : Ordered l) (hsub : l'.Sublist l) : Ordered l' :=
  ⟨fun r hr => h.proper r (hsub.subset hr), h.apart.sublist hsub⟩

theorem Ordered.eq_of_has (h : Ordered l) (hr : r ∈ l) (hs : s ∈ l) (hrp : r.Has p)
    (hsp : s.Has p) : r = s := by
  induction l with
  | nil => cases hr
  | cons a l ih =>
    obtain ⟨-, hhead, htail⟩ := ordered_cons.mp h
    cases mem_cons.mp hr with
    | inl hra =>
      cases mem_cons.mp hs with
      | inl hsa => exact hra.trans hsa.symm
      | inr hs =>
        have hle := hhead s hs
        rw [← hra] at hle
        exact absurd (Nat.lt_of_lt_of_le hrp.2 (Nat.le_trans hle hsp.1)) (Nat.lt_irrefl p)
    | inr hr =>
      cases mem_cons.mp hs with
      | inl hsa =>
        have hle := hhead r hr
        rw [← hsa] at hle
        exact absurd (Nat.lt_of_lt_of_le hsp.2 (Nat.le_trans hle hrp.1)) (Nat.lt_irrefl p)
      | inr hs => exact ih htail hr hs

section View

variable (content : α → ℕ → β)

def Holds (l : List (Range α)) (p : ℕ) (x : β) : Prop :=
  ∃ r ∈ l, r.Has p ∧ content r.data (p - r.lo) = x

def view (l : List (Range α)) (p : ℕ) : Option β :=
  (l.find? fun r => r.Has p).map fun r => content r.data (p - r.lo)

variable {content}

theorem view_eq_some_iff (h : Ordered l) : view content l p = some x ↔ Holds content l p x := by
  constructor
  · intro hview
    obtain ⟨r, hr, hx⟩ := Option.map_eq_some_iff.mp hview
    have hp := find?_some hr
    exact ⟨r, mem_of_find?_eq_some hr, of_decide_eq_true hp, hx⟩
  · rintro ⟨r, hr, hp, hx⟩
    have hfound : (l.find? fun r => r.Has p).isSome := by
      rw [find?_isSome]
      exact ⟨r, hr, decide_eq_true hp⟩
    obtain ⟨s, hs⟩ := Option.isSome_iff_exists.mp hfound
    have hsp := find?_some hs
    have hsame : s = r :=
      h.eq_of_has (mem_of_find?_eq_some hs) hr (of_decide_eq_true hsp) hp
    rw [view, hs, hsame, Option.map_some, hx]

theorem view_eq_none_iff : view content l p = none ↔ ∀ r ∈ l, ¬ r.Has p := by
  simp [view]

theorem view_congr (h : Ordered l) (h' : Ordered l')
    (hsame : ∀ x, Holds content l' p x ↔ Holds content l p x) :
    view content l' p = view content l p := by
  apply Option.ext
  intro x
  rw [view_eq_some_iff h, view_eq_some_iff h', hsame]

theorem holds_cons : Holds content (r :: l) p x ↔
    (r.Has p ∧ content r.data (p - r.lo) = x) ∨ Holds content l p x := by
  simp [Holds]

end View

end DosKernel.Lib

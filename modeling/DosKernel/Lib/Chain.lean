import Mathlib.Data.List.Nodup
import Mathlib.Logic.Function.Basic

namespace DosKernel.Lib

open List

open Function (update update_of_ne update_self)

variable {α : Type*}

-- `Chain next h l`: following `next` from `h` visits exactly the cells `l` and ends there.
def Chain (next : α → Option α) : Option α → List α → Prop
  | h, [] => h = none
  | h, a :: l => h = some a ∧ Chain next (next a) l

variable {next next' : α → Option α} {h : Option α} {a x : α} {l : List α} {n : ℕ}

theorem chain_frame (hl : Chain next h l) (hnext : ∀ y ∈ l, next' y = next y) :
    Chain next' h l := by
  induction l generalizing h with
  | nil => exact hl
  | cons a l ih =>
    refine ⟨hl.1, ?_⟩
    rw [hnext a mem_cons_self]
    exact ih hl.2 (fun y hy => hnext y (mem_cons_of_mem _ hy))

theorem chain_unique {l' : List α} (hl : Chain next h l) (hl' : Chain next h l') : l = l' := by
  induction l generalizing h l' with
  | nil =>
    cases l' with
    | nil => rfl
    | cons b l' => exact absurd (hl.symm.trans hl'.1) (by simp)
  | cons a l ih =>
    cases l' with
    | nil => exact absurd (hl'.symm.trans hl.1) (by simp)
    | cons b l' =>
      obtain rfl : a = b := Option.some.inj (hl.1.symm.trans hl'.1)
      rw [ih hl.2 hl'.2]

theorem chain_suffix {b : List α} (hl : Chain next h (l ++ a :: b)) : Chain next (next a) b := by
  induction l generalizing h with
  | nil => exact hl.2
  | cons y l ih => exact ih hl.2

theorem chain_nodup (hl : Chain next h l) : l.Nodup := by
  induction l generalizing h with
  | nil => exact nodup_nil
  | cons a l ih =>
    refine nodup_cons.mpr ⟨fun hmem => ?_, ih hl.2⟩
    obtain ⟨b, c, rfl⟩ := append_of_mem hmem
    have heq := chain_unique hl.2 (chain_suffix hl.2)
    have hlen := congrArg length heq
    simp only [length_append, length_cons] at hlen
    omega

section Cut

variable [DecidableEq α]

-- The search of a pointer to a link, from that of `a` on, for the link to `x`, which is taken out.
def cutAfter (next : α → Option α) (x : α) : ℕ → α → α → Option α
  | 0, _ => next
  | n + 1, a =>
    match next a with
    | none => next
    | some b =>
      if b = x then update (update next a (next x)) x none
      else cutAfter next x n b

def cut (next : α → Option α) (x : α) (n : ℕ) : Option α → Option α × (α → Option α)
  | none => (none, next)
  | some a =>
    if a = x then (next x, update next x none) else (some a, cutAfter next x n a)

theorem cutAfter_spec (hl : Chain next (next a) l) (ha : a ∉ l) (hlen : l.length ≤ n) :
    Chain (cutAfter next x n a) (cutAfter next x n a a) (l.erase x) ∧
      ∀ y, y ≠ a → y ∉ l → cutAfter next x n a y = next y := by
  induction l generalizing a n with
  | nil =>
    have heq : cutAfter next x n a = next := by
      cases n with
      | zero => rfl
      | succ n => rw [cutAfter, show next a = none from hl]
    rw [heq]
    exact ⟨hl, fun _ _ _ => rfl⟩
  | cons b l ih =>
    cases n with
    | zero => simp at hlen
    | succ n =>
      have hab := ne_of_not_mem_cons ha
      have hal := not_mem_of_not_mem_cons ha
      have hnd := nodup_cons.mp (chain_nodup hl)
      rw [cutAfter, hl.1]
      dsimp only
      by_cases hbx : b = x
      · subst hbx
        rw [if_pos rfl, erase_cons_head]
        refine ⟨?_, fun y hy hmem => ?_⟩
        · rw [update_of_ne hab, update_self]
          refine chain_frame hl.2 (fun y hy => ?_)
          have hyb : y ≠ b := fun heq => hnd.1 (heq ▸ hy)
          have hya : y ≠ a := fun heq => hal (heq ▸ hy)
          rw [update_of_ne hyb, update_of_ne hya]
        · rw [update_of_ne (ne_of_not_mem_cons hmem), update_of_ne hy]
      · rw [if_neg hbx, erase_cons_tail (by simpa using hbx)]
        obtain ⟨hchain, hframe⟩ := ih hl.2 hnd.1 (by simpa using hlen)
        refine ⟨⟨?_, hchain⟩, fun y hy hmem => ?_⟩
        · rw [hframe a hab hal, hl.1]
        · exact hframe y (ne_of_not_mem_cons hmem) (not_mem_of_not_mem_cons hmem)

theorem cut_spec (hl : Chain next h l) (hlen : l.length ≤ n) :
    Chain (cut next x n h).2 (cut next x n h).1 (l.erase x) ∧
      ∀ y, y ∉ l → (cut next x n h).2 y = next y := by
  cases l with
  | nil =>
    obtain rfl : h = none := hl
    exact ⟨rfl, fun _ _ => rfl⟩
  | cons a l =>
    obtain ⟨rfl, htail⟩ := hl
    have hnd := nodup_cons.mp (chain_nodup (h := some a) ⟨rfl, htail⟩)
    rw [cut]
    by_cases hax : a = x
    · subst hax
      rw [if_pos rfl, erase_cons_head]
      refine ⟨chain_frame htail (fun y hy => ?_), fun y hy => ?_⟩
      · have hya : y ≠ a := fun heq => hnd.1 (heq ▸ hy)
        exact update_of_ne hya _ _
      · exact update_of_ne (ne_of_not_mem_cons hy) _ _
    · rw [if_neg hax, erase_cons_tail (by simpa using hax)]
      obtain ⟨hchain, hframe⟩ := cutAfter_spec (x := x) htail hnd.1 (Nat.le_of_succ_le hlen)
      refine ⟨⟨rfl, hchain⟩, fun y hy => ?_⟩
      exact hframe y (ne_of_not_mem_cons hy) (not_mem_of_not_mem_cons hy)

end Cut

end DosKernel.Lib

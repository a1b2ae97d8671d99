import Mathlib.Data.List.Basic
import Mathlib.Data.List.Nodup
import Mathlib.Logic.Function.Basic

namespace DosKernel.Lib

open List

open Function (update update_of_ne update_self)

variable {α : Type*}

-- `next` leads from `h` over the cells `l` to `null`, and every cell's `prev` is the cell before
-- it, `p` for the first.
def Linked (next prev : α → α) (null : α) : α → α → List α → Prop
  | _, h, [] => h = null
  | p, h, x :: xs => h = x ∧ x ≠ null ∧ prev x = p ∧ Linked next prev null x (next x) xs

variable {next prev next' prev' : α → α} {null p h x : α} {l : List α}

@[simp] theorem linked_nil : Linked next prev null p h [] ↔ h = null := Iff.rfl

section

variable (hl : Linked next prev null p h l)

include hl

theorem linked_ne_null : ∀ y ∈ l, y ≠ null := by
  induction l generalizing p h with
  | nil => simp
  | cons x xs ih =>
    obtain ⟨_, hx, _, htail⟩ := hl
    intro y hy
    rcases mem_cons.mp hy with rfl | hy
    · exact hx
    · exact ih htail y hy

theorem linked_null_notMem : null ∉ l :=
  fun hmem => linked_ne_null hl null hmem rfl

theorem linked_frame (hnext : ∀ y ∈ l, next' y = next y) (hprev : ∀ y ∈ l, prev' y = prev y) :
    Linked next' prev' null p h l := by
  induction l generalizing p h with
  | nil => exact hl
  | cons x xs ih =>
    obtain ⟨hh, hx, hp, htail⟩ := hl
    refine ⟨hh, hx, ?_, ?_⟩
    · rw [hprev x mem_cons_self, hp]
    · rw [hnext x mem_cons_self]
      exact ih htail (fun y hy => hnext y (mem_cons_of_mem _ hy))
        (fun y hy => hprev y (mem_cons_of_mem _ hy))

theorem linked_unique {p' : α} {l' : List α} (hl' : Linked next prev null p' h l') : l = l' := by
  induction l generalizing p p' h l' with
  | nil =>
    cases l' with
    | nil => rfl
    | cons y ys => exact absurd (hl'.1.symm.trans hl) hl'.2.1
  | cons x xs ih =>
    cases l' with
    | nil => exact absurd (hl.1.symm.trans hl') hl.2.1
    | cons y ys =>
      obtain ⟨rfl, _, _, htail⟩ := hl
      obtain ⟨rfl, _, _, htail'⟩ := hl'
      rw [ih htail htail']

end

theorem linked_suffix {a b : List α} (hl : Linked next prev null p h (a ++ x :: b)) :
    Linked next prev null x (next x) b := by
  induction a generalizing p h with
  | nil => exact hl.2.2.2
  | cons y ys ih => exact ih hl.2.2.2

section

variable (hl : Linked next prev null p h l)

include hl

theorem linked_nodup : l.Nodup := by
  induction l generalizing p h with
  | nil => exact nodup_nil
  | cons x xs ih =>
    obtain ⟨_, _, _, htail⟩ := hl
    refine nodup_cons.mpr ⟨fun hmem => ?_, ih htail⟩
    obtain ⟨a, b, hab⟩ := append_of_mem hmem
    have hb : xs = b := linked_unique htail (linked_suffix (hab ▸ htail))
    have hlen := congrArg length hab
    simp only [hb, length_append, length_cons] at hlen
    omega

theorem linked_head_null_iff : h = null ↔ l = [] := by
  cases l with
  | nil => simpa using hl
  | cons x xs => simp [hl.1, hl.2.1]

theorem linked_head_prev (hne : l ≠ []) : prev h = p := by
  cases l with
  | nil => exact absurd rfl hne
  | cons x xs => rw [hl.1]; exact hl.2.2.1

theorem linked_next_mem (hx : x ∈ l) :
    next x = null ∨ next x ∈ l := by
  induction l generalizing p h with
  | nil => simp at hx
  | cons y ys ih =>
    obtain ⟨_, _, _, htail⟩ := hl
    rcases mem_cons.mp hx with rfl | hx
    · cases ys with
      | nil => exact .inl htail
      | cons z zs => exact .inr (by simp [htail.1])
    · exact (ih htail hx).imp_right (mem_cons_of_mem _)

theorem linked_prev_mem (hx : x ∈ l) :
    (h = x ∧ prev x = p) ∨ prev x ∈ l := by
  induction l generalizing p h with
  | nil => simp at hx
  | cons y ys ih =>
    obtain ⟨hh, _, hp, htail⟩ := hl
    rcases mem_cons.mp hx with rfl | hx
    · exact .inl ⟨hh, hp⟩
    · rcases ih htail hx with ⟨_, hprev⟩ | hprev
      · exact .inr (by simp [hprev])
      · exact .inr (mem_cons_of_mem _ hprev)

end

section Update

variable [DecidableEq α]

theorem linked_push (hl : Linked next prev null null h l) (hx : x ≠ null) (hfresh : x ∉ l) :
    Linked (update next x h)
      (update (update prev x null) h x) null null x (x :: l) := by
  have hxh : x ≠ h := by
    rintro rfl
    cases l with
    | nil => exact hx hl
    | cons y ys => exact hfresh (by simp [hl.1])
  refine ⟨rfl, hx, by simp [hxh], ?_⟩
  rw [update_self]
  cases l with
  | nil => exact hl
  | cons y ys =>
    have hnodup := nodup_cons.mp (linked_nodup hl)
    obtain ⟨rfl, hy, _, htail⟩ := hl
    refine ⟨rfl, hy, by simp, ?_⟩
    rw [update_of_ne hxh.symm]
    refine linked_frame htail (fun z hz => ?_) (fun z hz => ?_)
    · exact update_of_ne (fun heq => hfresh (by simp [← heq, hz])) _ _
    · rw [update_of_ne (ne_of_mem_of_not_mem hz hnodup.1),
        update_of_ne (fun heq => hfresh (by simp [← heq, hz]))]

theorem linked_erase (hl : Linked next prev null p h l) (hp : p ∉ l) (hx : x ∈ l) :
    Linked (update next (prev x) (next x)) (update prev (next x) (prev x))
      null p (if h = x then next x else h) (l.erase x) := by
  induction l generalizing p h with
  | nil => simp at hx
  | cons y ys ih =>
    have hnodup := nodup_cons.mp (linked_nodup hl)
    obtain ⟨rfl, hy, hyp, htail⟩ := hl
    rw [mem_cons, not_or] at hp
    by_cases hxy : h = x
    · subst hxy
      rw [erase_cons_head, if_pos rfl, hyp]
      cases ys with
      | nil => exact htail
      | cons z zs =>
        have hz := nodup_cons.mp hnodup.2
        obtain ⟨hnz, hz0, _, htail'⟩ := htail
        rw [mem_cons, not_or] at hp
        refine ⟨hnz, hz0, by simp [hnz], ?_⟩
        rw [update_of_ne (Ne.symm hp.2.1)]
        refine linked_frame htail' (fun w hw => ?_) (fun w hw => ?_)
        · exact update_of_ne (ne_of_mem_of_not_mem hw hp.2.2) _ _
        · rw [hnz]
          exact update_of_ne (ne_of_mem_of_not_mem hw hz.1) _ _
    · have hxys : x ∈ ys := (mem_cons.mp hx).resolve_left (Ne.symm hxy)
      rw [erase_cons_tail (by simpa using hxy), if_neg hxy]
      have hne : h ≠ next x := by
        rcases linked_next_mem htail hxys with hn | hn
        · exact hn ▸ hy
        · exact fun heq => hnodup.1 (heq ▸ hn)
      refine ⟨rfl, hy, by rw [update_of_ne hne, hyp], ?_⟩
      have hrec := ih htail hnodup.1 hxys
      -- `x` is the next cell exactly when its `prev` is the cell at hand
      have hhead : update next (prev x) (next x) h = if next h = x then next x else next h := by
        by_cases hnx : next h = x
        · have hprev : prev x = h := by
            cases ys with
            | nil => simp at hxys
            | cons z zs => rw [← hnx, htail.1]; exact htail.2.2.1
          simp [hprev, hnx]
        · rw [if_neg hnx]
          refine update_of_ne (fun heq => ?_) _ _
          rcases linked_prev_mem htail hxys with ⟨hh, _⟩ | hmem
          · exact hnx hh
          · exact hnodup.1 (heq ▸ hmem)
      rwa [hhead]

end Update

end DosKernel.Lib

import Mathlib.Data.List.Nodup
import Mathlib.Data.List.ReduceOption
import Mathlib.Tactic.Common

namespace DosKernel.Lib

open List Option

-- A fixed table of slots, free or with an entry; lookups and changes go to the first that fits.
abbrev SlotTable (α : Type*) := List (Option α)

namespace SlotTable

variable {α β : Type*} {t t' : SlotTable α} {a b : α} {p : α → Bool} {f : α → Option α}

def live (t : SlotTable α) : List α := t.reduceOption

def find (p : α → Bool) (t : SlotTable α) : Option α := t.live.find? p

def insert (a : α) : SlotTable α → Option (SlotTable α)
  | [] => none
  | none :: t => some (some a :: t)
  | some b :: t => (insert a t).map (some b :: ·)

def update (p : α → Bool) (f : α → Option α) : SlotTable α → SlotTable α
  | [] => []
  | none :: t => none :: update p f t
  | some a :: t => if p a then f a :: t else some a :: update p f t

@[simp] theorem live_nil : live ([] : SlotTable α) = [] := rfl

@[simp] theorem live_none_cons : live (none :: t) = live t := rfl

@[simp] theorem live_some_cons : live (some a :: t) = a :: live t := rfl

@[simp] theorem live_replicate_none (n : ℕ) : live (replicate n (none : Option α)) = [] :=
  reduceOption_replicate_none

theorem live_map (g : α → β) (t : SlotTable α) : live (t.map (Option.map g)) = t.live.map g :=
  reduceOption_map

theorem live_filter (p : α → Bool) (t : SlotTable α) :
    live (t.map (Option.filter p)) = t.live.filter p := by
  induction t with
  | nil => rfl
  | cons slot t ih =>
    cases slot with
    | none => simpa using ih
    | some a => by_cases ha : p a = true <;> simp [Option.filter, ha, ih]

theorem live_length_le (t : SlotTable α) : t.live.length ≤ t.length :=
  reduceOption_length_le t

theorem mem_of_find (h : find p t = some a) : a ∈ t.live ∧ p a = true :=
  ⟨mem_of_find?_eq_some h, find?_some h⟩

theorem find_none : find p t = none ↔ ∀ a ∈ t.live, p a = false := by
  simp [find, find?_eq_none]

section

variable (h : insert a t = some t')

include h

theorem live_insert :
    ∃ pre post, t.live = pre ++ post ∧ t'.live = pre ++ a :: post := by
  induction t generalizing t' with
  | nil => cases h
  | cons slot t ih =>
    cases slot with
    | none =>
      cases h
      exact ⟨[], live t, by simp, by simp⟩
    | some b =>
      obtain ⟨u, hu, rfl⟩ := map_eq_some_iff.mp h
      obtain ⟨pre, post, hpre, hpost⟩ := ih hu
      exact ⟨b :: pre, post, by simp [hpre], by simp [hpost]⟩

theorem insert_perm : t'.live.Perm (a :: t.live) := by
  obtain ⟨pre, post, hpre, hpost⟩ := live_insert h
  rw [hpre, hpost]
  exact perm_middle

theorem mem_insert : b ∈ t'.live ↔ b = a ∨ b ∈ t.live := by
  simp [(insert_perm h).mem_iff]

theorem length_insert : t'.length = t.length := by
  induction t generalizing t' with
  | nil => cases h
  | cons slot t ih =>
    cases slot with
    | none => cases h; rfl
    | some b =>
      obtain ⟨u, hu, rfl⟩ := map_eq_some_iff.mp h
      simp [ih hu]

end

theorem insert_eq_none (h : insert a t = none) : t.live.length = t.length := by
  induction t with
  | nil => rfl
  | cons slot t ih =>
    cases slot with
    | none => cases h
    | some b =>
      have := ih (map_eq_none_iff.mp h)
      simp [this]

theorem live_update (h : find p t = some a) :
    ∃ pre post, t.live = pre ++ a :: post ∧
      ∀ f, (update p f t).live = pre ++ ((f a).toList ++ post) := by
  induction t with
  | nil => simp [find] at h
  | cons slot t ih =>
    cases slot with
    | none => simpa [update] using ih h
    | some b =>
      by_cases hb : p b = true
      · obtain rfl : b = a := by simpa [find, hb] using h
        refine ⟨[], live t, by simp, fun f => ?_⟩
        cases hf : f b <;> simp [update, hb, hf]
      · have hta : find p t = some a := by simpa [find, hb] using h
        obtain ⟨pre, post, hpre, hupd⟩ := ih hta
        exact ⟨b :: pre, post, by simp [hpre], fun f => by simp [update, hb, hupd]⟩

@[simp] theorem length_update : (update p f t).length = t.length := by
  induction t with
  | nil => rfl
  | cons slot t ih =>
    cases slot with
    | none => simp [update, ih]
    | some b => by_cases hb : p b = true <;> simp [update, hb, ih]

theorem update_cons_of_not (h : p a = false) :
    update p f (some a :: t) = some a :: update p f t := by
  simp [update, h]

section Keys

variable {κ : Type*} {key : α → κ}

theorem mem_update (hkey : (t.live.map key).Nodup) (h : find p t = some a) :
    b ∈ (update p f t).live ↔ f a = some b ∨ b ∈ t.live ∧ key b ≠ key a := by
  obtain ⟨pre, post, hlive, hupd⟩ := live_update h
  rw [hlive, map_append, map_cons, nodup_middle, nodup_cons] at hkey
  have hother : ∀ c, c ∈ pre ∨ c ∈ post → key c ≠ key a := by
    intro c hc heq
    apply hkey.1
    rw [← map_append, ← heq]
    exact mem_map_of_mem (mem_append.mpr hc)
  rw [hupd, hlive]
  simp only [mem_append, mem_toList, mem_cons]
  constructor
  · rintro (hb | hb | hb)
    · exact Or.inr ⟨Or.inl hb, hother b (Or.inl hb)⟩
    · exact Or.inl hb
    · exact Or.inr ⟨Or.inr (Or.inr hb), hother b (Or.inr hb)⟩
  · rintro (hb | ⟨hb | rfl | hb, hne⟩)
    · exact Or.inr (Or.inl hb)
    · exact Or.inl hb
    · exact absurd rfl hne
    · exact Or.inr (Or.inr hb)

theorem nodup_update (hkey : (t.live.map key).Nodup) (h : find p t = some a)
    (hf : ∀ b, f a = some b → key b = key a) : ((update p f t).live.map key).Nodup := by
  obtain ⟨pre, post, hlive, hupd⟩ := live_update h
  rw [hlive, map_append, map_cons, nodup_middle] at hkey
  rw [hupd]
  cases hb : f a with
  | none =>
    simpa using (nodup_cons.mp hkey).2
  | some b =>
    simpa [map_append, nodup_middle, hf b hb] using hkey

theorem map_update (h : find p t = some a) (hf : f a = some b) (hb : key b = key a) :
    (update p f t).live.map key = t.live.map key := by
  obtain ⟨pre, post, hlive, hupd⟩ := live_update h
  simp [hupd, hlive, hf, hb]

section

variable (hkey : (t.live.map key).Nodup)

include hkey

theorem nodup_insert (h : insert a t = some t')
    (hnew : ∀ b ∈ t.live, key b ≠ key a) : (t'.live.map key).Nodup := by
  rw [((insert_perm h).map key).nodup_iff, map_cons, nodup_cons]
  refine ⟨fun hmem => ?_, hkey⟩
  obtain ⟨b, hb, heq⟩ := mem_map.mp hmem
  exact hnew b hb heq

theorem key_inj (ha : a ∈ t.live) (hb : b ∈ t.live)
    (h : key a = key b) : a = b :=
  inj_on_of_nodup_map hkey ha hb h

theorem find_key [BEq κ] [LawfulBEq κ] (ha : a ∈ t.live) :
    find (fun b => key b == key a) t = some a := by
  cases h : find (fun b => key b == key a) t with
  | none => simpa using find_none.mp h a ha
  | some b =>
    obtain ⟨hb, hba⟩ := mem_of_find h
    rw [key_inj hkey hb ha (by simpa using hba)]

end

end Keys

theorem update_of_find_none (h : find p t = none) : update p f t = t := by
  induction t with
  | nil => rfl
  | cons slot t ih =>
    cases slot with
    | none => rw [update, ih h]
    | some b =>
      have hb : p b = false := find_none.mp h b (by simp)
      have ht : find p t = none := by simpa [find, hb] using h
      rw [update_cons_of_not hb, ih ht]

section Packed

def packed (n : ℕ) (xs : List α) : SlotTable α := xs.map some ++ List.replicate (n - xs.length) none

variable {n : ℕ} {xs : List α}

@[simp] theorem live_packed : (packed n xs).live = xs := by
  simp [packed, live, reduceOption]

theorem length_packed (h : xs.length ≤ n) : (packed n xs).length = n := by
  simp [packed]
  omega

theorem insert_packed (h : xs.length < n) (a : α) :
    insert a (packed n xs) = some (packed n (xs ++ [a])) := by
  induction xs generalizing n with
  | nil =>
    obtain ⟨n, rfl⟩ := Nat.exists_eq_succ_of_ne_zero (show n ≠ 0 by simp at h; omega)
    simp [packed, replicate_succ, insert]
  | cons x xs ih =>
    obtain ⟨n, rfl⟩ := Nat.exists_eq_succ_of_ne_zero (show n ≠ 0 by simp at h; omega)
    have := ih (n := n) (by simpa using h)
    simp only [packed, map_cons, cons_append, length_cons, Nat.succ_eq_add_one,
      Nat.add_sub_add_right, insert] at this ⊢
    rw [this, map_some]

theorem insert_packed_full (h : n ≤ xs.length) (a : α) : insert a (packed n xs) = none := by
  have hzero : n - xs.length = 0 := by omega
  simp only [packed, hzero, replicate_zero, append_nil]
  clear h hzero
  induction xs with
  | nil => rfl
  | cons x xs ih => rw [map_cons, insert, ih, map_none]

theorem update_packed {κ : Type*} [DecidableEq κ] [BEq κ] [LawfulBEq κ] {key : α → κ}
    (hkey : (xs.map key).Nodup) (k : κ) (g : α → α) :
    update (fun y => key y == k) (fun y => some (g y)) (packed n xs) =
      packed n (xs.map fun y => if key y = k then g y else y) := by
  have hfree : ∀ m, update (fun y => key y == k) (fun y => some (g y)) (replicate m none) =
      replicate m none := fun m => update_of_find_none (by simp [find])
  rw [packed, packed, length_map]
  generalize n - xs.length = m
  induction xs with
  | nil => exact hfree m
  | cons x xs ih =>
    rw [map_cons, nodup_cons] at hkey
    rw [map_cons, cons_append, update]
    by_cases hx : key x = k
    · have hrest : xs.map (fun y => if key y = k then g y else y) = xs := by
        refine (map_congr_left fun y hy => if_neg fun heq => hkey.1 ?_).trans (map_id xs)
        rw [hx, ← heq]
        exact mem_map_of_mem hy
      rw [if_pos (by simpa using hx), map_cons, if_pos hx, hrest]
      rfl
    · rw [if_neg (by simpa using hx), ih hkey.2, map_cons, if_neg hx]
      rfl

end Packed

end SlotTable

end DosKernel.Lib

import Mathlib.Data.List.Nodup
import Mathlib.Tactic.Common
import DosKernel.Lib.Update

namespace DosKernel.Lib

open List

open Function (update)

-- A hash table with chains: entries with the key `k` belong to the chain `slot k`.
namespace Buckets

variable {ε κ : Type*} (key : ε → κ) (slot : κ → ℕ)

def push (t : ℕ → List ε) (e : ε) : ℕ → List ε :=
  update t (slot (key e)) (e :: t (slot (key e)))

def Stored (t : ℕ → List ε) (e : ε) : Prop := ∃ h, e ∈ t h

-- Every entry is in the chain of its key, and no two have the same key.
structure Hashed (t : ℕ → List ε) : Prop where
  placed : ∀ h, ∀ e ∈ t h, slot (key e) = h
  unique : ∀ h, (t h).Pairwise fun a b => key a ≠ key b

variable {key slot} {t : ℕ → List ε} {e a b : ε} {k : κ} {h : ℕ} {f : ε → ε} {l : List ε}

theorem hashed_empty : Hashed key slot fun _ => [] := ⟨by simp, by simp⟩

theorem Hashed.mem (ht : Hashed key slot t) (he : Stored t e) : e ∈ t (slot (key e)) := by
  obtain ⟨h, hmem⟩ := he
  rw [ht.placed h e hmem]
  exact hmem

theorem Hashed.eq_of_key (ht : Hashed key slot t) (ha : Stored t a) (hb : Stored t b)
    (hab : key a = key b) : a = b := by
  have hmem := ht.mem ha
  rw [hab] at hmem
  exact inj_on_of_nodup_map (pairwise_map.mpr (ht.unique _)) hmem (ht.mem hb) hab

theorem mem_push : a ∈ push key slot t e h ↔ (h = slot (key e) ∧ a = e) ∨ a ∈ t h := by
  unfold push
  refine update_rule h ?_ fun hh => ?_
  · rw [mem_cons, eq_self, true_and]
  · exact (or_iff_right fun he => hh he.1).symm

theorem stored_push : Stored (push key slot t e) a ↔ a = e ∨ Stored t a := by
  simp only [Stored, mem_push, exists_or, exists_eq_left]

theorem Hashed.push (ht : Hashed key slot t) (hnew : ∀ a, Stored t a → key a ≠ key e) :
    Hashed key slot (push key slot t e) where
  placed := by
    intro h a ha
    obtain ⟨rfl, rfl⟩ | ha := mem_push.mp ha
    · rfl
    · exact ht.placed h a ha
  unique := by
    intro h
    unfold Buckets.push
    refine update_rule h ?_ fun _ => ht.unique h
    exact pairwise_cons.mpr ⟨fun a ha => Ne.symm (hnew a ⟨_, ha⟩), ht.unique _⟩

theorem Hashed.sublist {t' : ℕ → List ε} (ht : Hashed key slot t)
    (hsub : ∀ h, (t' h).Sublist (t h)) : Hashed key slot t' where
  placed := fun h a ha => ht.placed h a ((hsub h).subset ha)
  unique := fun h => (ht.unique h).sublist (hsub h)

theorem Hashed.stored_erase [DecidableEq ε] (ht : Hashed key slot t) (he : Stored t e) :
    Stored (update t (slot (key e)) ((t (slot (key e))).erase e)) a ↔ Stored t a ∧ a ≠ e := by
  have hnodup : (t (slot (key e))).Nodup :=
    (ht.unique _).imp fun hne heq => hne (congrArg key heq)
  have hmem : ∀ h, a ∈ update t (slot (key e)) ((t (slot (key e))).erase e) h ↔
      a ∈ t h ∧ a ≠ e := by
    intro h
    refine update_rule h (hnodup.mem_erase_iff.trans and_comm) fun hh => ?_
    refine (and_iff_left_of_imp ?_).symm
    rintro ha rfl
    exact hh (ht.placed h a ha).symm
  simp only [Stored, hmem, exists_and_right]

theorem erase_sublist [DecidableEq ε] (h h' : ℕ) :
    (update t h ((t h).erase e) h').Sublist (t h') :=
  update_rule h' List.erase_sublist fun _ => .refl _

theorem Hashed.congr {key' : ε → κ} (ht : Hashed key slot t)
    (hkey : ∀ e, Stored t e → key' e = key e) : Hashed key' slot t where
  placed := by
    intro h e he
    rw [hkey e ⟨h, he⟩]
    exact ht.placed h e he
  unique := by
    intro h
    refine (ht.unique h).imp_of_mem ?_
    intro a b ha hb hab
    rwa [hkey a ⟨h, ha⟩, hkey b ⟨h, hb⟩]

variable [DecidableEq κ] (key slot)

def lookup (t : ℕ → List ε) (k : κ) : Option ε := (t (slot k)).find? fun e => key e = k

def adjustChain (k : κ) (f : ε → ε) : List ε → List ε
  | [] => []
  | e :: rest => if key e = k then f e :: rest else e :: adjustChain k f rest

def adjust (t : ℕ → List ε) (k : κ) (f : ε → ε) : ℕ → List ε :=
  update t (slot k) (adjustChain key k f (t (slot k)))

def unlink (t : ℕ → List ε) (h : ℕ) (k : κ) : ℕ → List ε :=
  update t h ((t h).eraseP fun e => key e = k)

variable {key slot}

theorem Hashed.key_ne_of_lookup (ht : Hashed key slot t) (hk : lookup key slot t k = none)
    (he : Stored t e) : key e ≠ k := by
  rintro rfl
  have := find?_eq_none.mp hk e (ht.mem he)
  simp at this

theorem adjustChain_eq_map (hl : l.Pairwise fun a b => key a ≠ key b) :
    adjustChain key k f l = l.map fun e => if key e = k then f e else e := by
  induction l with
  | nil => rfl
  | cons e l ih =>
    obtain ⟨hhead, htail⟩ := pairwise_cons.mp hl
    rw [adjustChain, map_cons]
    split
    next hk =>
      have hrest : l.map (fun e => if key e = k then f e else e) = l := by
        rw [map_congr_left, map_id]
        intro a ha
        have := hhead a ha
        rw [if_neg fun hak => this (hk.trans hak.symm)]
        rfl
      rw [hrest]
    · rw [ih htail]

theorem Hashed.mem_adjust (ht : Hashed key slot t) :
    a ∈ adjust key slot t k f h ↔ ∃ e ∈ t h, (if key e = k then f e else e) = a := by
  unfold adjust
  refine update_rule h ?_ fun hh => ?_
  · rw [adjustChain_eq_map (ht.unique _), mem_map]
  · constructor
    · intro ha
      refine ⟨a, ha, if_neg ?_⟩
      rintro rfl
      exact hh (ht.placed h a ha).symm
    · rintro ⟨e, he, rfl⟩
      have hne : key e ≠ k := by
        rintro rfl
        exact hh (ht.placed h e he).symm
      rwa [if_neg hne]

theorem Hashed.stored_adjust (ht : Hashed key slot t) :
    Stored (adjust key slot t k f) a ↔ ∃ e, Stored t e ∧ (if key e = k then f e else e) = a := by
  constructor
  · rintro ⟨h, ha⟩
    obtain ⟨e, he, hea⟩ := ht.mem_adjust.mp ha
    exact ⟨e, ⟨h, he⟩, hea⟩
  · rintro ⟨e, ⟨h, he⟩, hea⟩
    exact ⟨h, ht.mem_adjust.mpr ⟨e, he, hea⟩⟩

theorem key_ite (hf : ∀ e, key (f e) = key e) : key (if key e = k then f e else e) = key e := by
  split
  · exact hf e
  · rfl

theorem Hashed.adjust (ht : Hashed key slot t) (hf : ∀ e, key (f e) = key e) :
    Hashed key slot (adjust key slot t k f) where
  placed := by
    intro h a ha
    obtain ⟨e, he, rfl⟩ := ht.mem_adjust.mp ha
    rw [key_ite hf]
    exact ht.placed h e he
  unique := by
    intro h
    unfold Buckets.adjust
    refine update_rule h ?_ fun _ => ht.unique h
    rw [adjustChain_eq_map (ht.unique _), pairwise_map]
    refine (ht.unique _).imp ?_
    intro a b hab
    rwa [key_ite hf, key_ite hf]

theorem Hashed.foldl_adjust (ht : Hashed key slot t) (hf : ∀ e, key (f e) = key e) (ks : List κ) :
    Hashed key slot (ks.foldl (fun t k => Buckets.adjust key slot t k f) t) := by
  induction ks generalizing t with
  | nil => exact ht
  | cons k ks ih => exact ih (ht.adjust hf)

theorem Hashed.stored_foldl_adjust (ht : Hashed key slot t) (hf : ∀ e, key (f e) = key e)
    {ks : List κ} (hks : ks.Nodup) :
    Stored (ks.foldl (fun t k => Buckets.adjust key slot t k f) t) a ↔
      ∃ e, Stored t e ∧ (if key e ∈ ks then f e else e) = a := by
  induction ks generalizing t with
  | nil => simp
  | cons k ks ih =>
    obtain ⟨hk, hks⟩ := nodup_cons.mp hks
    rw [foldl_cons, ih (ht.adjust hf) hks]
    constructor
    · rintro ⟨b, hb, rfl⟩
      obtain ⟨e, he, rfl⟩ := ht.stored_adjust.mp hb
      refine ⟨e, he, ?_⟩
      rw [key_ite hf]
      by_cases hek : key e = k
      · simp [hek, hk]
      · simp [hek]
    · rintro ⟨e, he, rfl⟩
      refine ⟨_, ht.stored_adjust.mpr ⟨e, he, rfl⟩, ?_⟩
      rw [key_ite hf]
      by_cases hek : key e = k
      · simp [hek, hk]
      · simp [hek]

theorem mem_eraseP_iff (hl : l.Pairwise fun a b => key a ≠ key b) :
    a ∈ l.eraseP (fun e => key e = k) ↔ a ∈ l ∧ key a ≠ k := by
  induction l with
  | nil => simp
  | cons e l ih =>
    obtain ⟨hhead, htail⟩ := pairwise_cons.mp hl
    by_cases hk : key e = k
    · rw [eraseP_cons_of_pos (by simpa using hk), mem_cons]
      constructor
      · intro ha
        exact ⟨.inr ha, fun hak => hhead a ha (hk.trans hak.symm)⟩
      · rintro ⟨rfl | ha, hak⟩
        · exact absurd hk hak
        · exact ha
    · rw [eraseP_cons_of_neg (by simpa using hk), mem_cons, ih htail, mem_cons]
      constructor
      · rintro (rfl | ⟨ha, hak⟩)
        · exact ⟨.inl rfl, hk⟩
        · exact ⟨.inr ha, hak⟩
      · rintro ⟨rfl | ha, hak⟩
        · exact .inl rfl
        · exact .inr ⟨ha, hak⟩

theorem Hashed.stored_unlink (ht : Hashed key slot t) (hk : slot k = h) :
    Stored (unlink key t h k) a ↔ Stored t a ∧ key a ≠ k := by
  have hmem : ∀ h', a ∈ unlink key t h k h' ↔ a ∈ t h' ∧ key a ≠ k := by
    intro h'
    unfold unlink
    refine update_rule h' (mem_eraseP_iff (ht.unique _)) fun hh => ?_
    refine (and_iff_left_of_imp ?_).symm
    rintro ha rfl
    exact hh ((ht.placed h' a ha).symm.trans hk)
  simp only [Stored, hmem, exists_and_right]

theorem unlink_sublist (h' : ℕ) : (unlink key t h k h').Sublist (t h') := by
  unfold unlink
  exact update_rule h' eraseP_sublist fun _ => .refl _

end Buckets

end DosKernel.Lib

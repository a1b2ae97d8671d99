import Mathlib.Data.Nat.Bitwise
import Mathlib.Tactic.Ring
import Mathlib.Algebra.Order.BigOperators.Group.Finset

namespace DosKernel.Lib

-- The block of order `o` at `b` is the interval `[b, b + 2 ^ o)`.
def InBlock (b o f : ℕ) : Prop := b ≤ f ∧ f < b + 2 ^ o

instance (b o f : ℕ) : Decidable (InBlock b o f) := inferInstanceAs (Decidable (_ ∧ _))

variable {b c o k f g : ℕ}

theorem inBlock_self (b o : ℕ) : InBlock b o b := ⟨le_rfl, Nat.lt_add_of_pos_right (Nat.two_pow_pos o)⟩

theorem inBlock_zero : InBlock b 0 f ↔ f = b := by
  unfold InBlock
  omega

theorem inBlock_iff_div (hb : 2 ^ o ∣ b) : InBlock b o f ↔ f / 2 ^ o = b / 2 ^ o := by
  obtain ⟨m, rfl⟩ := hb
  have hpos : 0 < 2 ^ o := Nat.two_pow_pos o
  rw [Nat.mul_div_cancel_left m hpos, Nat.div_eq_iff hpos, InBlock, Nat.mul_comm m]
  omega

theorem inBlock_subset (hb : 2 ^ o ∣ b) (hc : 2 ^ k ∣ c) (hok : o ≤ k)
    (hfb : InBlock b o f) (hfc : InBlock c k f) (hg : InBlock b o g) : InBlock c k g := by
  rw [inBlock_iff_div hb] at hfb hg
  rw [inBlock_iff_div hc] at hfc ⊢
  obtain ⟨d, rfl⟩ := Nat.exists_eq_add_of_le hok
  rw [pow_add, ← Nat.div_div_eq_div_mul] at hfc ⊢
  rw [hg, ← hfb, hfc]

theorem base_eq_of_inBlock (hb : 2 ^ o ∣ b) (hc : 2 ^ k ∣ c) (hok : k ≤ o)
    (h : InBlock c k b) : c = b := by
  have hcb : InBlock b o c := inBlock_subset hc hb hok h (inBlock_self b o) (inBlock_self c k)
  exact le_antisymm h.1 hcb.1

theorem inBlock_succ : InBlock b (o + 1) f ↔ InBlock b o f ∨ InBlock (b + 2 ^ o) o f := by
  unfold InBlock
  omega

theorem not_inBlock_both : ¬(InBlock b o f ∧ InBlock (b + 2 ^ o) o f) := by
  unfold InBlock
  omega

theorem dvd_of_dvd_succ (hb : 2 ^ (o + 1) ∣ b) : 2 ^ o ∣ b :=
  (pow_dvd_pow 2 (Nat.le_succ o)).trans hb

theorem dvd_upper_half (hb : 2 ^ (o + 1) ∣ b) : 2 ^ o ∣ b + 2 ^ o :=
  Nat.dvd_add (dvd_of_dvd_succ hb) dvd_rfl

-- The buddy of `b` at order `o` is the other half of the block of order `o + 1` around `b`.
def buddy (b o : ℕ) : ℕ := b ^^^ (1 <<< o)

private theorem xor_one_eq (m : ℕ) : m ^^^ 1 = if m % 2 = 0 then m + 1 else m - 1 := by
  have hdiv : (m ^^^ 1) / 2 = m / 2 := by simp [Nat.xor_div_two]
  have hmod : (m ^^^ 1) % 2 = (m + 1) % 2 := by simp [Nat.xor_mod_two_eq]
  split <;> omega

section

variable (hb : 2 ^ o ∣ b)

include hb

theorem buddy_eq :
    buddy b o = if b / 2 ^ o % 2 = 0 then b + 2 ^ o else b - 2 ^ o := by
  obtain ⟨m, rfl⟩ := hb
  have hpos : 0 < 2 ^ o := Nat.two_pow_pos o
  have hxor : 2 ^ o * m ^^^ 1 <<< o = 2 ^ o * (m ^^^ 1) := by
    rw [Nat.mul_comm, ← Nat.shiftLeft_eq, ← Nat.shiftLeft_xor_distrib, Nat.shiftLeft_eq,
      Nat.mul_comm]
  rw [buddy, hxor, xor_one_eq, Nat.mul_div_cancel_left m hpos]
  split
  · ring
  · rw [Nat.mul_sub, Nat.mul_one]

theorem buddy_cases :
    (2 ^ (o + 1) ∣ b ∧ buddy b o = b + 2 ^ o) ∨
      ∃ c, 2 ^ (o + 1) ∣ c ∧ b = c + 2 ^ o ∧ buddy b o = c := by
  rw [buddy_eq hb]
  obtain ⟨m, rfl⟩ := hb
  have hpos : 0 < 2 ^ o := Nat.two_pow_pos o
  rw [Nat.mul_div_cancel_left m hpos]
  rcases Nat.even_or_odd' m with ⟨j, rfl | rfl⟩
  · left
    refine ⟨⟨j, by ring⟩, by simp⟩
  · right
    refine ⟨2 ^ (o + 1) * j, dvd_mul_right _ _, by ring, ?_⟩
    rw [if_neg (by omega)]
    have : 2 ^ o * (2 * j + 1) = 2 ^ (o + 1) * j + 2 ^ o := by ring
    omega

theorem dvd_min_buddy : 2 ^ (o + 1) ∣ min (buddy b o) b := by
  rcases buddy_cases hb with ⟨hdvd, heq⟩ | ⟨c, hdvd, hbc, heq⟩
  · rwa [heq, min_eq_right (by omega)]
  · rwa [heq, min_eq_left (by omega)]

theorem inBlock_min_buddy :
    InBlock (min (buddy b o) b) (o + 1) f ↔ InBlock (buddy b o) o f ∨ InBlock b o f := by
  rcases buddy_cases hb with ⟨_, heq⟩ | ⟨c, _, hbc, heq⟩
  · rw [heq, min_eq_right (by omega), inBlock_succ, or_comm]
  · rw [heq, min_eq_left (by omega), inBlock_succ, hbc]

theorem dvd_buddy : 2 ^ o ∣ buddy b o := by
  rcases buddy_cases hb with ⟨_, heq⟩ | ⟨c, hdvd, _, heq⟩
  · rw [heq]
    exact Nat.dvd_add hb dvd_rfl
  · rw [heq]
    exact dvd_of_dvd_succ hdvd

theorem not_inBlock_buddy : ¬(InBlock (buddy b o) o f ∧ InBlock b o f) := by
  rcases buddy_cases hb with ⟨_, heq⟩ | ⟨c, _, hbc, heq⟩
  · rw [heq]
    exact fun h => not_inBlock_both h.symm
  · rw [heq, hbc]
    exact not_inBlock_both

end

open List

open Function (update update_of_ne update_self)

-- The list at place `p` holds the bases of blocks of order `ord p`; `occ` counts the blocks that
-- contain a point. A family partitions a set when `occ` is its indicator.
section Family

variable {ι : Type*} (places : Finset ι) (ord : ι → ℕ)

def hit (b o f : ℕ) : ℕ := if InBlock b o f then 1 else 0

def occ (L : ι → List ℕ) (f : ℕ) : ℕ :=
  ∑ p ∈ places, (L p).countP (fun b => InBlock b (ord p) f)

def held (hand : List (ℕ × ℕ)) (f : ℕ) : ℕ :=
  hand.countP (fun x => InBlock x.1 x.2 f)

variable {places ord} {L : ι → List ℕ} {p q : ι} {b o f : ℕ} {hand : List (ℕ × ℕ)}

@[simp] theorem held_nil (f : ℕ) : held [] f = 0 := rfl

@[simp] theorem held_cons (x : ℕ × ℕ) (hand : List (ℕ × ℕ)) (f : ℕ) :
    held (x :: hand) f = hit x.1 x.2 f + held hand f := by
  simp [held, hit, countP_cons, Nat.add_comm]

theorem held_append (hand hand' : List (ℕ × ℕ)) (f : ℕ) :
    held (hand ++ hand') f = held hand f + held hand' f := countP_append

theorem held_map (l : List ℕ) (o f : ℕ) :
    held (l.map (fun b => (b, o))) f = l.countP (fun b => InBlock b o f) := by
  rw [held, countP_map]
  rfl

theorem held_erase {x : ℕ × ℕ} (hx : x ∈ hand) (f : ℕ) :
    held hand f = hit x.1 x.2 f + held (hand.erase x) f := by
  rw [← held_cons]
  exact (perm_cons_erase hx).countP_eq _

theorem held_pos {x : ℕ × ℕ} (hx : x ∈ hand) (hf : InBlock x.1 x.2 f) : 0 < held hand f :=
  countP_pos_iff.mpr ⟨x, hx, by simpa using hf⟩

theorem held_pos_iff : 0 < held hand f ↔ ∃ x ∈ hand, InBlock x.1 x.2 f := by
  simp [held, countP_pos_iff]

theorem hit_of_inBlock (hf : InBlock b o f) : hit b o f = 1 := if_pos hf

theorem hit_split (b o f : ℕ) : hit b (o + 1) f = hit b o f + hit (b + 2 ^ o) o f := by
  have hsucc := @inBlock_succ b o f
  have hboth := @not_inBlock_both b o f
  unfold hit
  by_cases h1 : InBlock b o f <;> by_cases h2 : InBlock (b + 2 ^ o) o f <;> simp_all

theorem hit_min_buddy (hb : 2 ^ o ∣ b) (f : ℕ) :
    hit (min (buddy b o) b) (o + 1) f = hit (buddy b o) o f + hit b o f := by
  have hmin := inBlock_min_buddy (f := f) hb
  have hboth := not_inBlock_buddy (f := f) hb
  unfold hit
  by_cases h1 : InBlock (buddy b o) o f <;> by_cases h2 : InBlock b o f <;> simp_all

theorem occ_pos (hp : p ∈ places) (hb : b ∈ L p) (hf : InBlock b (ord p) f) :
    0 < occ places ord L f := by
  have hcount : 0 < (L p).countP (fun b => InBlock b (ord p) f) :=
    countP_pos_iff.mpr ⟨b, hb, by simpa using hf⟩
  exact lt_of_lt_of_le hcount
    (Finset.single_le_sum (f := fun p => (L p).countP (fun b => InBlock b (ord p) f))
      (fun _ _ => Nat.zero_le _) hp)

theorem exists_of_occ_pos (h : 0 < occ places ord L f) :
    ∃ p ∈ places, ∃ b ∈ L p, InBlock b (ord p) f := by
  obtain ⟨p, hp, hpos⟩ := Finset.exists_ne_zero_of_sum_ne_zero h.ne'
  obtain ⟨b, hb, hf⟩ := countP_pos_iff.mp (Nat.pos_of_ne_zero hpos)
  exact ⟨p, hp, b, hb, by simpa using hf⟩

variable [DecidableEq ι]

theorem occ_update (hp : p ∈ places) (l : List ℕ) (f : ℕ) :
    occ places ord (update L p l) f + (L p).countP (fun b => InBlock b (ord p) f) =
      occ places ord L f + l.countP (fun b => InBlock b (ord p) f) := by
  unfold occ
  rw [← Finset.add_sum_erase places _ hp, ← Finset.add_sum_erase places _ hp]
  have hrest : ∀ q ∈ places.erase p, update L p l q = L q := fun q hq =>
    update_of_ne (Finset.ne_of_mem_erase hq) _ _
  rw [Finset.sum_congr rfl (fun q hq => by rw [hrest q hq]), update_self]
  omega

theorem occ_cons (hp : p ∈ places) (b f : ℕ) :
    occ places ord (update L p (b :: L p)) f = occ places ord L f + hit b (ord p) f := by
  have h : occ places ord (update L p (b :: L p)) f + _ = _ := occ_update hp _ f
  simp only [countP_cons, decide_eq_true_eq] at h
  unfold hit
  omega

theorem occ_erase (hp : p ∈ places) (hb : b ∈ L p) (f : ℕ) :
    occ places ord (update L p ((L p).erase b)) f + hit b (ord p) f = occ places ord L f := by
  have h : occ places ord (update L p ((L p).erase b)) f + _ = _ := occ_update hp _ f
  rw [(perm_cons_erase hb).countP_eq] at h
  simp only [countP_cons, decide_eq_true_eq] at h
  unfold hit
  omega

end Family

end DosKernel.Lib

import Mathlib.Data.List.Nodup
import Mathlib.Data.List.Rotate
import Mathlib.Logic.Function.Basic

namespace DosKernel.Lib

open List

open Function (update update_of_ne update_self)

variable {α : Type*}

structure Links (α : Type*) where
  next : α → Option α
  prev : α → Option α

namespace Links

-- `k.Path x l z`: the links lead from `x` over the cells `l` to `z`, and back.
def Path (k : Links α) : α → List α → α → Prop
  | x, [], z => k.next x = some z ∧ k.prev z = some x
  | x, y :: l, z => k.next x = some y ∧ k.prev y = some x ∧ k.Path y l z

-- The distinct cells `l` linked in a circle that is entered at its first cell.
def Circle (k : Links α) : Option α → List α → Prop
  | h, [] => h = none
  | h, a :: l => h = some a ∧ (a :: l).Nodup ∧ k.Path a l a

variable {k k' : Links α} {a t x y z : α} {h : Option α} {l m : List α}

theorem path_append : k.Path x (l ++ y :: m) z ↔ k.Path x l y ∧ k.Path y m z := by
  induction l generalizing x with
  | nil => simp only [nil_append, Path, and_assoc]
  | cons b l ih => simp only [cons_append, Path, ih, and_assoc]

theorem Path.frame (hp : k.Path x l z) (hnext : ∀ y ∈ x :: l, k'.next y = k.next y)
    (hprev : ∀ y ∈ z :: l, k'.prev y = k.prev y) : k'.Path x l z := by
  induction l generalizing x with
  | nil =>
    refine ⟨?_, ?_⟩
    · rw [hnext x mem_cons_self, hp.1]
    · rw [hprev z mem_cons_self, hp.2]
  | cons b l ih =>
    refine ⟨?_, ?_, ih hp.2.2 ?_ ?_⟩
    · rw [hnext x mem_cons_self, hp.1]
    · rw [hprev b (by simp), hp.2.1]
    · exact fun y hy => hnext y (mem_cons_of_mem _ hy)
    · intro y hy
      refine hprev y ?_
      rcases mem_cons.mp hy with rfl | hy
      · exact mem_cons_self
      · exact mem_cons_of_mem _ (mem_cons_of_mem _ hy)

theorem path_unique (hl : k.Path x l z) (hm : k.Path x m z) (hzl : z ∉ l) (hzm : z ∉ m) :
    l = m := by
  induction l generalizing x m with
  | nil =>
    cases m with
    | nil => rfl
    | cons c m =>
      have hzc : z = c := Option.some.inj (hl.1.symm.trans hm.1)
      exact absurd (hzc ▸ mem_cons_self) hzm
  | cons b l ih =>
    cases m with
    | nil =>
      have hzb : z = b := Option.some.inj (hm.1.symm.trans hl.1)
      exact absurd (hzb ▸ mem_cons_self) hzl
    | cons c m =>
      obtain rfl : b = c := Option.some.inj (hl.1.symm.trans hm.1)
      rw [ih hl.2.2 hm.2.2 (not_mem_of_not_mem_cons hzl) (not_mem_of_not_mem_cons hzm)]

theorem circle_unique (hl : k.Circle h l) (hm : k.Circle h m) : l = m := by
  cases l with
  | nil =>
    cases m with
    | nil => rfl
    | cons b m => exact absurd (hl.symm.trans hm.1) (by simp)
  | cons a l =>
    cases m with
    | nil => exact absurd (hm.symm.trans hl.1) (by simp)
    | cons b m =>
      obtain rfl : a = b := Option.some.inj (hl.1.symm.trans hm.1)
      obtain ⟨-, hndl, hpl⟩ := hl
      obtain ⟨-, hndm, hpm⟩ := hm
      rw [path_unique hpl hpm (nodup_cons.mp hndl).1 (nodup_cons.mp hndm).1]

theorem Circle.nodup (hc : k.Circle h l) : l.Nodup := by
  cases l with
  | nil => exact nodup_nil
  | cons a l => exact hc.2.1

theorem Circle.frame (hc : k.Circle h l) (hnext : ∀ y ∈ l, k'.next y = k.next y)
    (hprev : ∀ y ∈ l, k'.prev y = k.prev y) : k'.Circle h l := by
  cases l with
  | nil => exact hc
  | cons a l => exact ⟨hc.1, hc.2.1, hc.2.2.frame hnext hprev⟩

theorem Circle.rotate (hc : k.Circle h (l ++ a :: m)) : k.Circle (some a) (a :: m ++ l) := by
  cases l with
  | nil => simpa using ⟨rfl, hc.2⟩
  | cons b l =>
    obtain ⟨-, hnd, hp⟩ := hc
    have hp := path_append.mp hp
    refine ⟨rfl, ?_, ?_⟩
    · exact nodup_append_comm.mp (show (b :: l ++ a :: m).Nodup from hnd)
    · exact path_append.mpr ⟨hp.2, hp.1⟩

theorem Path.last (hp : k.Path x l z) :
    k.next ((x :: l).getLast (cons_ne_nil x l)) = some z ∧
      k.prev z = some ((x :: l).getLast (cons_ne_nil x l)) := by
  induction l generalizing x with
  | nil => exact hp
  | cons b l ih => simpa only [getLast_cons_cons] using ih hp.2.2

theorem Path.next_ne_none (hp : k.Path x l z) : k.next x ≠ none := by
  cases l with
  | nil => simp [hp.1]
  | cons b l => simp [hp.1]

theorem Circle.linked (hc : k.Circle h l) (ht : t ∈ l) : k.next t ≠ none := by
  obtain ⟨u, v, rfl⟩ := append_of_mem ht
  exact hc.rotate.2.2.next_ne_none

theorem Path.redirect {w : α} (hp : k.Path x l y) (hnd : (x :: l).Nodup)
    (hw : (x :: l).getLast (cons_ne_nil x l) = w)
    (hnext : ∀ b ∈ x :: l, b ≠ w → k'.next b = k.next b) (hprev : ∀ b ∈ l, k'.prev b = k.prev b)
    (hend : k'.next w = some z) (hback : k'.prev z = some w) : k'.Path x l z := by
  induction l generalizing x with
  | nil =>
    obtain rfl : x = w := hw
    exact ⟨hend, hback⟩
  | cons b l ih =>
    obtain ⟨hx, hnd⟩ := nodup_cons.mp hnd
    have hxw : x ≠ w := fun heq => hx (heq ▸ hw ▸ getLast_mem _)
    refine ⟨?_, ?_, ih hp.2.2 hnd hw ?_ ?_⟩
    · rw [hnext x mem_cons_self hxw, hp.1]
    · rw [hprev b mem_cons_self, hp.2.1]
    · exact fun c hc => hnext c (mem_cons_of_mem _ hc)
    · exact fun c hc => hprev c (mem_cons_of_mem _ hc)

section Operations

variable [DecidableEq α]

def single (k : Links α) (t : α) : Links α :=
  ⟨update k.next t (some t), update k.prev t (some t)⟩

def append (k : Links α) (t a : α) : Links α :=
  match k.prev a with
  | none => k
  | some w =>
    ⟨update (update k.next t (some a)) w (some t), update (update k.prev t (some w)) a (some t)⟩

def bypass (k : Links α) (t : α) : Links α :=
  match k.prev t, k.next t with
  | some w, some b => ⟨update k.next w (some b), update k.prev b (some w)⟩
  | _, _ => k

def clear (k : Links α) (t : α) : Links α :=
  ⟨update k.next t none, update k.prev t none⟩

def close (k : Links α) (w a : α) : Links α :=
  ⟨update k.next w (some a), update k.prev a (some w)⟩

-- The cells met from `t` on until the next would be `a` (`true`) or after `n + 1` (`false`).
def walk (k : Links α) (a : α) : ℕ → α → List α × Bool
  | 0, t => ([t], false)
  | n + 1, t =>
    match k.next t with
    | none => ([t], false)
    | some b => if b = a then ([t], true) else (t :: (walk k a n b).1, (walk k a n b).2)

theorem circle_single : (k.single t).Circle (some t) [t] :=
  ⟨rfl, nodup_singleton t, update_self .., update_self ..⟩

variable {w : α}

theorem next_append (hback : k.prev a = some w) : (k.append t a).next =
    update (update k.next t (some a)) w (some t) := by
  rw [append, hback]

theorem prev_append (hback : k.prev a = some w) : (k.append t a).prev =
    update (update k.prev t (some w)) a (some t) := by
  rw [append, hback]

theorem Circle.append (hc : k.Circle (some a) (a :: l)) (ht : t ∉ a :: l) :
    (k.append t a).Circle (some a) (a :: l ++ [t]) := by
  obtain ⟨-, hnd, hp⟩ := hc
  obtain ⟨hlast, hback⟩ := hp.last
  have hta : t ≠ a := ne_of_not_mem_cons ht
  generalize hw : (a :: l).getLast (cons_ne_nil a l) = w at hlast hback
  have hmem : w ∈ a :: l := hw ▸ getLast_mem _
  have htw : t ≠ w := fun heq => ht (heq ▸ hmem)
  refine ⟨rfl, ?_, path_append.mpr ⟨hp.redirect hnd hw ?_ ?_ ?_ ?_, ?_, ?_⟩⟩
  · exact hnd.append (nodup_singleton t) (by simpa using ht)
  · intro b hb hbw
    have hbt : b ≠ t := fun heq => ht (heq ▸ hb)
    rw [next_append hback, update_of_ne hbw, update_of_ne hbt]
  · intro b hb
    have hbt : b ≠ t := fun heq => ht (heq ▸ mem_cons_of_mem _ hb)
    have hba : b ≠ a := fun heq => (nodup_cons.mp hnd).1 (heq ▸ hb)
    rw [prev_append hback, update_of_ne hba, update_of_ne hbt]
  · rw [next_append hback, update_self]
  · rw [prev_append hback, update_of_ne hta, update_self]
  · rw [next_append hback, update_of_ne htw, update_self]
  · rw [prev_append hback, update_self]

theorem append_frame (hc : k.Circle (some a) (a :: l)) (hy : y ∉ a :: l) (hyt : y ≠ t) :
    (k.append t a).next y = k.next y ∧ (k.append t a).prev y = k.prev y := by
  obtain ⟨-, hback⟩ := hc.2.2.last
  have hyw : y ≠ (a :: l).getLast (cons_ne_nil a l) :=
    fun heq => hy (heq ▸ getLast_mem _)
  refine ⟨?_, ?_⟩
  · rw [next_append hback, update_of_ne hyw, update_of_ne hyt]
  · rw [prev_append hback, update_of_ne (ne_of_not_mem_cons hy), update_of_ne hyt]

theorem bypass_eq {b : α} (hprev : k.prev t = some w) (hnext : k.next t = some b) :
    k.bypass t = ⟨update k.next w (some b), update k.prev b (some w)⟩ := by
  rw [bypass, hprev, hnext]

theorem Circle.bypass_head {b : α} (hc : k.Circle (some t) (t :: b :: l)) :
    (k.bypass t).Circle (some b) (b :: l) ∧
      ∀ y, y ∉ b :: l → (k.bypass t).next y = k.next y ∧ (k.bypass t).prev y = k.prev y := by
  obtain ⟨-, hnd, hp⟩ := hc
  obtain ⟨-, hback⟩ := hp.last
  obtain ⟨htb, -, hp⟩ := hp
  obtain ⟨ht, hnd⟩ := nodup_cons.mp hnd
  rw [getLast_cons_cons] at hback
  generalize hw : (b :: l).getLast (cons_ne_nil b l) = w at hback
  have hmem : w ∈ b :: l := hw ▸ getLast_mem _
  rw [bypass_eq hback htb]
  refine ⟨⟨rfl, hnd, hp.redirect hnd hw ?_ ?_ ?_ ?_⟩, fun y hy => ⟨?_, ?_⟩⟩
  · exact fun c _ hcw => update_of_ne hcw _ _
  · intro c hc
    have hcb : c ≠ b := fun heq => (nodup_cons.mp hnd).1 (heq ▸ hc)
    exact update_of_ne hcb _ _
  · exact update_self ..
  · exact update_self ..
  · have hyw : y ≠ w := fun heq => hy (heq ▸ hmem)
    exact update_of_ne hyw _ _
  · exact update_of_ne (ne_of_not_mem_cons hy) _ _

theorem Circle.bypass (hc : k.Circle h l) (ht : t ∈ l) :
    (k.bypass t).Circle (l.erase t).head? (l.erase t) ∧
      ∀ y, y ∉ l → (k.bypass t).next y = k.next y ∧ (k.bypass t).prev y = k.prev y := by
  obtain ⟨u, v, -, rfl, herase⟩ := exists_erase_eq ht
  rw [herase]
  have hrot := hc.rotate
  cases hvu : v ++ u with
  | nil =>
    obtain ⟨rfl, rfl⟩ := append_eq_nil_iff.mp hvu
    refine ⟨rfl, fun y hy => ?_⟩
    have hyt : y ≠ t := by simpa using hy
    rw [bypass_eq hrot.2.2.2 hrot.2.2.1]
    exact ⟨update_of_ne hyt _ _, update_of_ne hyt _ _⟩
  | cons b m =>
    rw [cons_append, hvu] at hrot
    obtain ⟨hcirc, hframe⟩ := hrot.bypass_head
    rw [← hvu] at hcirc hframe
    refine ⟨?_, fun y hy => hframe y ?_⟩
    · cases u with
      | nil =>
        rw [append_nil] at hvu hcirc
        rwa [nil_append, hvu, head?_cons, ← hvu]
      | cons c u => simpa using hcirc.rotate
    · simp only [mem_append, mem_cons, not_or] at hy ⊢
      exact ⟨hy.2.2, hy.1⟩

theorem Circle.clear (hc : k.Circle h l) (ht : t ∉ l) : (k.clear t).Circle h l := by
  have hne : ∀ y ∈ l, y ≠ t := fun y hy heq => ht (heq ▸ hy)
  exact hc.frame (fun y hy => update_of_ne (hne y hy) _ _)
    fun y hy => update_of_ne (hne y hy) _ _

theorem walk_path {n : ℕ} (hp : k.Path x l a) (ha : a ∉ l) : k.walk a n x =
    if l.length < n then (x :: l, true) else ((x :: l).take (n + 1), false) := by
  induction l generalizing x n with
  | nil =>
    cases n with
    | zero => rfl
    | succ n =>
      rw [walk, hp.1]
      simp
  | cons b l ih =>
    cases n with
    | zero => rfl
    | succ n =>
      have hba : b ≠ a := fun heq => ha (heq ▸ mem_cons_self)
      rw [walk, hp.1]
      simp only [hba, if_false]
      rw [ih hp.2.2 (not_mem_of_not_mem_cons ha), length_cons]
      by_cases hlen : l.length < n
      · rw [if_pos hlen, if_pos (by omega)]
      · rw [if_neg hlen, if_neg (by omega), take_succ_cons (a := x)]

theorem Circle.walk {n : ℕ} (hc : k.Circle (some a) l) : k.walk a n a =
    if l.length ≤ n then (l, true) else (l.take (n + 1), false) := by
  cases l with
  | nil => exact absurd hc (by simp [Circle])
  | cons b l =>
    obtain ⟨hab, hnd, hp⟩ := hc
    obtain rfl : a = b := Option.some.inj hab
    rw [walk_path hp (nodup_cons.mp hnd).1]
    rfl

theorem Circle.close {w : α} (hc : k.Circle (some a) (a :: l ++ m))
    (hw : (a :: l).getLast (cons_ne_nil a l) = w) : (k.close w a).Circle (some a) (a :: l) := by
  obtain ⟨-, hnd, hp⟩ := hc
  have hndl : (a :: l).Nodup := hnd.of_append_left
  obtain ⟨z, hz⟩ : ∃ z, k.Path a l z := by
    cases m with
    | nil => exact ⟨a, by simpa using hp⟩
    | cons b m => exact ⟨b, (path_append.mp hp).1⟩
  refine ⟨rfl, hndl, hz.redirect hndl hw ?_ ?_ ?_ ?_⟩
  · exact fun c _ hcw => update_of_ne hcw _ _
  · intro c hc
    have hca : c ≠ a := fun heq => (nodup_cons.mp hndl).1 (heq ▸ hc)
    exact update_of_ne hca _ _
  · exact update_self ..
  · exact update_self ..

end Operations

end Links

end DosKernel.Lib

import Mathlib.Tactic.Common

namespace DosKernel.Lib

variable {σ α : Type*} (step : σ → α → σ)

def run (s : σ) (calls : List α) : σ := calls.foldl step s

-- Every call of the sequence is made in a state that allows it.
def Allowed (ok : σ → α → Prop) : σ → List α → Prop
  | _, [] => True
  | s, a :: calls => ok s a ∧ Allowed ok (step s a) calls

-- A property holds in every state the sequence passes through.
def Always (P : σ → Prop) : σ → List α → Prop
  | s, [] => P s
  | s, a :: calls => P s ∧ Always P (step s a) calls

instance decidableAllowed (ok : σ → α → Prop) [∀ s a, Decidable (ok s a)] (s : σ) :
    (calls : List α) → Decidable (Allowed step ok s calls)
  | [] => inferInstanceAs (Decidable True)
  | a :: calls =>
    have := decidableAllowed ok (step s a) calls
    inferInstanceAs (Decidable (_ ∧ _))

variable {step} {s : σ} {calls : List α} {P I : σ → Prop} {ok cond : σ → α → Prop}

theorem guard_rule {t : σ} {p : Prop} [Decidable p] (h : P s) (ht : p → P t) :
    P (if p then t else s) := by
  split
  · next hp => exact ht hp
  · exact h

theorem refuse_rule {t : σ} {p : Prop} [Decidable p] (h : P s) (ht : ¬ p → P t) :
    P (if p then s else t) := by
  split
  · exact h
  · next hp => exact ht hp

theorem allowed_of_forall (h : ∀ s a, ok s a) : Allowed step ok s calls := by
  induction calls generalizing s with
  | nil => trivial
  | cons a calls ih => exact ⟨h s a, ih⟩

theorem Allowed.imp (h : Allowed step ok s calls) (hok : ∀ s a, ok s a → cond s a) :
    Allowed step cond s calls := by
  induction calls generalizing s with
  | nil => trivial
  | cons a calls ih => exact ⟨hok s a h.1, ih h.2⟩

theorem Allowed.and (h : Allowed step ok s calls) (h' : Allowed step cond s calls) :
    Allowed step (fun s a => ok s a ∧ cond s a) s calls := by
  induction calls generalizing s with
  | nil => trivial
  | cons a calls ih => exact ⟨⟨h.1, h'.1⟩, ih h.2 h'.2⟩

theorem run_concat (a : α) : run step s (calls ++ [a]) = step (run step s calls) a := by
  simp only [run, List.foldl_append, List.foldl_cons, List.foldl_nil]

theorem Always.last (h : Always step P s calls) : P (run step s calls) := by
  induction calls generalizing s with
  | nil => exact h
  | cons a calls ih => exact ih h.2

theorem always_of_allowed (hstep : ∀ s a, I s → ok s a → I (step s a))
    (hP : ∀ s, I s → P s) (hs : I s) (h : Allowed step ok s calls) :
    Always step P s calls := by
  induction calls generalizing s with
  | nil => exact hP s hs
  | cons a calls ih => exact ⟨hP s hs, ih (hstep s a hs h.1) h.2⟩

-- A property that an invariant gives, and that shows a call to have met its condition, holds
-- throughout exactly the sequences whose calls meet it.
theorem always_iff_allowed (hstep : ∀ s a, I s → ok s a → cond s a → I (step s a))
    (hP : ∀ s, I s → P s) (hcond : ∀ s a, I s → ok s a → P (step s a) → cond s a)
    (hs : I s) (hok : Allowed step ok s calls) :
    Always step P s calls ↔ Allowed step cond s calls := by
  induction calls generalizing s with
  | nil => exact iff_of_true (hP s hs) trivial
  | cons a calls ih =>
    have hfirst : Always step P (step s a) calls → P (step s a) := fun h => by
      cases calls with
      | nil => exact h
      | cons b calls => exact h.1
    constructor
    · intro h
      have hc := hcond s a hs hok.1 (hfirst h.2)
      exact ⟨hc, (ih (hstep s a hs hok.1 hc) hok.2).mp h.2⟩
    · intro h
      exact ⟨hP s hs, (ih (hstep s a hs hok.1 h.1) hok.2).mpr h.2⟩

theorem always_of_step (hstep : ∀ s a, I s → I (step s a)) (hP : ∀ s, I s → P s) (hs : I s) :
    Always step P s calls := by
  have hok : Allowed step (fun _ _ => True) s calls := allowed_of_forall fun _ _ => trivial
  exact always_of_allowed (fun s a h _ => hstep s a h) hP hs hok

theorem always_iff_of_step (hstep : ∀ s a, I s → cond s a → I (step s a)) (hP : ∀ s, I s → P s)
    (hcond : ∀ s a, I s → P (step s a) → cond s a) (hs : I s) :
    Always step P s calls ↔ Allowed step cond s calls := by
  have hok : Allowed step (fun _ _ => True) s calls := allowed_of_forall fun _ _ => trivial
  exact always_iff_allowed (fun s a h _ => hstep s a h) hP (fun s a h _ => hcond s a h) hs hok

-- The same for a property that a call keeps exactly when it meets the condition; `I` needs none.
theorem always_iff_allowed_of_iff
    (hstep : ∀ s a, I s → P s → I (step s a) ∧ (P (step s a) ↔ cond s a))
    (hs : I s) (hP : P s) : Always step P s calls ↔ Allowed step cond s calls := by
  have hkeep : ∀ s a, (I s ∧ P s) → cond s a → I (step s a) ∧ P (step s a) := by
    rintro s a ⟨hi, hp⟩ hc
    exact ⟨(hstep s a hi hp).1, (hstep s a hi hp).2.mpr hc⟩
  exact always_iff_of_step hkeep (fun _ h => h.2) (fun s a h => (hstep s a h.1 h.2).2.mp) ⟨hs, hP⟩

theorem allowed_congr (hstep : ∀ s a, I s → I (step s a))
    (h : ∀ s a, I s → (ok s a ↔ cond s a)) (hs : I s) :
    Allowed step ok s calls ↔ Allowed step cond s calls := by
  induction calls generalizing s with
  | nil => exact Iff.rfl
  | cons a calls ih => exact and_congr (h s a hs) (ih (hstep s a hs))

end DosKernel.Lib

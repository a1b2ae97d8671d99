import Mathlib.Logic.Function.Basic

namespace DosKernel.Lib

open Function (update update_of_ne update_self)

variable {α β γ : Type*} [DecidableEq α] {f : α → β} {g : α → γ} {i : α} {b : β} {c : γ}

-- What holds of the new values at their place and elsewhere of the old ones.
@[elab_as_elim]
theorem update_rule₂ {P : α → β → γ → Prop} (j : α) (hself : P i b c)
    (hother : j ≠ i → P j (f j) (g j)) : P j (update f i b j) (update g i c j) := by
  by_cases hj : j = i
  · rw [hj, update_self, update_self]
    exact hself
  · rw [update_of_ne hj, update_of_ne hj]
    exact hother hj

@[elab_as_elim]
theorem update_rule {P : α → β → Prop} (j : α) (hself : P i b) (hother : j ≠ i → P j (f j)) :
    P j (update f i b j) :=
  update_rule₂ (P := fun j x _ => P j x) (g := f) (c := b) j hself hother

end DosKernel.Lib

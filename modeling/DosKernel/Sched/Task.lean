import Mathlib.Data.List.Nodup

namespace DosKernel.Sched

inductive TaskState
  | runnable
  | sleeping
  | dead
  | stopped
  deriving DecidableEq

-- `master_insert_locked`: a new task stands behind the head of the ring of all tasks.
def masterInsert {T : Type} (table : List T) (t : T) : List T :=
  match table with
  | [] => [t]
  | h :: rest => h :: t :: rest

variable {T : Type} {table : List T} {t u : T}

theorem mem_masterInsert : u ∈ masterInsert table t ↔ u = t ∨ u ∈ table := by
  cases table with
  | nil => simp [masterInsert]
  | cons h rest =>
    simp only [masterInsert, List.mem_cons]
    tauto

theorem nodup_masterInsert (h : table.Nodup) (ht : t ∉ table) : (masterInsert table t).Nodup := by
  cases table with
  | nil => simp [masterInsert]
  | cons a rest =>
    simp only [masterInsert, List.nodup_cons, List.mem_cons, not_or] at h ht ⊢
    exact ⟨⟨Ne.symm ht.1, h.1⟩, ht.2, h.2⟩

end DosKernel.Sched

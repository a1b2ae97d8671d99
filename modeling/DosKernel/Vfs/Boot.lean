import DosKernel.Vfs.Walks

namespace DosKernel.Vfs

open DosKernel.Lib

variable {ψ : Type}

def mountRoot (v : ψ) : State ψ where
  dentries := Heap.empty.alloc { name := ['/'], inode := some 0, parent := none }
  inodes := Heap.empty.alloc { ramfsNode .dir with driver := .ramfs }
  files := Heap.empty
  root := 0
  mounts := [{ mp := 0, hasDev := false, openFiles := 0 }]
  binds := []
  ns := [{ parent := 0, born := 0 }]
  bindSeq := 0
  vol := v

def bootNames : List Name := ["etc", "dev", "tmp", "proc", "mnt"].map String.toList

def bootstrapChild (s : State ψ) (name : Name) : State ψ :=
  s.attachNode s.root name (.ramfs, ramfsNode .dir)

def bootTree (v : ψ) : State ψ := bootNames.foldl bootstrapChild (mountRoot v)

-- The kernel's own tasks, in the machine's namespace and root.
def kernelTask : Caller := { cred := { owner := .kernel } }

def noVolumes : Drivers ψ := fun _ => {}

theorem bounded_mountRoot (v : ψ) : Bounded (mountRoot v) := by
  have hget : ∀ {d dn}, (mountRoot v).dentries.get d = some dn →
      dn = { name := ['/'], inode := some 0, parent := none } := by
    intro d dn h
    simp only [mountRoot, Heap.get_alloc] at h
    split at h
    · exact (Option.some.inj h).symm
    · cases h
  refine ⟨Nat.one_pos, ?_, ?_, ?_, ?_, ?_⟩
  · intro d dn e h he
    rw [hget h] at he
    simp at he
  · intro d dn e h he
    rw [hget h] at he
    cases he
  · intro d dn e h he
    rw [hget h] at he
    cases he
  · intro d dn i h hi
    rw [hget h] at hi
    cases hi
    exact Nat.one_pos
  · intro f file h
    cases h

theorem bounded_bootTree (v : ψ) : Bounded (bootTree v) := by
  have hstep : ∀ (names : List Name) (s : State ψ), Bounded s →
      Bounded (names.foldl bootstrapChild s) := by
    intro names
    induction names with
    | nil => exact fun s hs => hs
    | cons name names ih =>
      exact fun s hs => ih _ ((hs.newInode _ _).attachChild hs.root name (Nat.lt_succ_self _))
  exact hstep bootNames _ (bounded_mountRoot v)

end DosKernel.Vfs

import DosKernel.Vfs.Boot
import DosKernel.Vfs.Steady

namespace DosKernel.Vfs

open DosKernel.Lib

variable {ψ : Type} {s : State ψ} {x : ℕ}

-- The invariants of the tree as checks on its records, so that they can be evaluated.

def Dentry.Placed (s : State ψ) (x : DentryId) (dn : Dentry) : Prop :=
  dn.children.Nodup ∧
    (∀ e ∈ dn.children, e ≠ x ∧
      (s.dentries.get e).any (fun en => decide (en.parent = some x)) = true) ∧
    (∀ e ∈ dn.children, ∀ e' ∈ dn.children,
      (s.dentries.get e).map (·.name) = (s.dentries.get e').map (·.name) → e = e') ∧
    (dn.parent.all fun p => decide (x ∈ s.children p)) = true ∧ (s.mountOf x).isSome = true

def Dentry.Linked (s : State ψ) (x : DentryId) (dn : Dentry) : Prop :=
  (dn.bound.all fun e => decide (e < s.dentries.next)) = true ∧
    (dn.inode.all fun i => decide (i < s.inodes.next)) = true ∧
    (s.inodeOf x).all (fun ino => decide ((ino.kind ≠ .dir → dn.children = []) ∧
      (ino.kind ≠ .dir → ino.kind ≠ .device → ∀ dir ∈ dn.parent.bind s.inodeOf,
        ino.driver = dir.driver))) = true

def Inode.Sound (s : State ψ) (i : InodeId) (ino : Inode) : Prop :=
  (ino.ownChildren = false ∧ (ino.dirOps = true → ino.kind = .dir)) ∧ ino.opens = s.opened i ∧
    (ino.unlinkDir ≠ none → ino.kind ≠ .dir ∧ 0 < ino.opens) ∧
    (ino.driver = .ramfs → ino.unlinkDir = none → s.covers i = false →
      ino.kind ≠ .device ∧ s.names i = ino.owed ∧ 0 < ino.owed)

instance (x : DentryId) (dn : Dentry) : Decidable (dn.Placed s x) :=
  inferInstanceAs (Decidable (_ ∧ _))

instance (x : DentryId) (dn : Dentry) : Decidable (dn.Linked s x) :=
  inferInstanceAs (Decidable (_ ∧ _))

instance (i : InodeId) (ino : Inode) : Decidable (ino.Sound s i) :=
  inferInstanceAs (Decidable (_ ∧ _))

structure State.Sound (s : State ψ) : Prop where
  root : s.root < s.dentries.next
  placed : s.dentries.All fun x dn => dn.Placed s x
  linked : s.dentries.All fun x dn => dn.Linked s x
  inode : s.inodes.All fun i ino => ino.Sound s i
  file : s.files.All fun _ file => file.dentry < s.dentries.next ∧ file.inode < s.inodes.next
  mount : ∀ m ∈ s.mounts, m.mp < s.dentries.next ∧
    ∀ i ∈ m.covered, i < s.inodes.next ∧ s.names i = 0

instance : Decidable s.Sound :=
  decidable_of_iff (_ ∧ _ ∧ _ ∧ _ ∧ _ ∧ _)
    ⟨fun ⟨h1, h2, h3, h4, h5, h6⟩ => State.Sound.mk h1 h2 h3 h4 h5 h6,
      fun h => ⟨h.root, h.placed, h.linked, h.inode, h.file, h.mount⟩⟩

section

variable (h : s.Sound)

include h

theorem State.Sound.children {x e : ℕ} (he : e ∈ s.children x) :
    ∃ dn, s.dentries.get x = some dn ∧ e ∈ dn.children ∧ dn.Placed s x := by
  obtain ⟨dn, hget⟩ := Option.isSome_iff_exists.mp (live_of_mem_children he)
  rw [children_of_get hget] at he
  exact ⟨dn, hget, he, h.placed x dn hget⟩

theorem State.Sound.tree : Tree s where
  child he := by
    obtain ⟨dn, -, he, -, hchild, -⟩ := h.children he
    obtain ⟨en, hen, hpar⟩ := (Option.any_eq_true _ _).mp (hchild _ he).2
    exact ⟨en, hen, of_decide_eq_true hpar⟩
  ne he := by
    obtain ⟨dn, -, he, -, hchild, -⟩ := h.children he
    exact (hchild _ he).1
  nodup x := by
    cases hget : s.dentries.get x with
    | none => simp [children_of_none hget]
    | some dn => exact children_of_get hget ▸ (h.placed x dn hget).1
  names {x e e' nm} he he' hn hn' := by
    obtain ⟨dn, hget, hmem, -, -, hnames, -⟩ := h.children he
    rw [children_of_get hget] at he'
    obtain ⟨en, hen, hnm⟩ := (Option.any_eq_true _ _).mp hn
    obtain ⟨en', hen', hnm'⟩ := (Option.any_eq_true _ _).mp hn'
    apply hnames e hmem e' he'
    simp [hen, hen', of_decide_eq_true hnm, of_decide_eq_true hnm']

theorem State.Sound.bounded : Bounded s where
  root := h.root
  child hget he := by
    obtain ⟨en, hen, -⟩ := h.tree.child (children_of_get hget ▸ he)
    exact Heap.lt_next hen
  bound hget he := by
    have hb := (h.linked _ _ hget).1
    simpa [he] using hb
  parent {d dn e} hget he := by
    have hup := (h.placed _ _ hget).2.2.2.1
    rw [he, Option.all_some, decide_eq_true_eq] at hup
    obtain ⟨en, hen⟩ := Option.isSome_iff_exists.mp (live_of_mem_children hup)
    exact Heap.lt_next hen
  inode hget hi := by
    have hb := (h.linked _ _ hget).2.1
    simpa [hi] using hb
  file hget := h.file _ _ hget

theorem State.Sound.forest : Forest s where
  bounded := h.bounded
  tree := h.tree
  up hget hpar := by
    have hup := (h.placed _ _ hget).2.2.2.1
    simpa [hpar] using hup
  mps hm := (h.mount _ hm).1
  mounted {d} hlive := by
    obtain ⟨dn, hget⟩ := Option.isSome_iff_exists.mp hlive
    exact (h.placed _ _ hget).2.2.2.2

theorem State.Sound.node {d : ℕ} {dn : Dentry} {ino : Inode}
    (hget : s.dentries.get d = some dn) (hino : s.inodeOf d = some ino) :
    (ino.kind ≠ .dir → dn.children = []) ∧ (ino.kind ≠ .dir → ino.kind ≠ .device →
      ∀ dir ∈ dn.parent.bind s.inodeOf, ino.driver = dir.driver) := by
  have hnode := (h.linked _ _ hget).2.2
  rwa [hino, Option.all_some, decide_eq_true_eq] at hnode

theorem State.Sound.shape : Shape s where
  forest := h.forest
  plain hget := (h.inode _ _ hget).1
  leaf {d ino} hino hkind := by
    obtain ⟨_, hnode⟩ := nodeAt_of_inodeOf hino
    obtain ⟨dn, hget, -⟩ := hnode.get
    rw [children_of_get hget]
    exact (h.node hget hino).1 hkind
  driver {e en p ino dir} hget hpar hino hkind hdev hdir := by
    apply (h.node hget hino).2 hkind hdev
    simp [hpar, hdir]

theorem State.Sound.books : Books s where
  shape := h.shape
  counts :=
    { live := fun hget => by
        obtain ⟨-, hopens, hpending, hnames⟩ := h.inode _ _ hget
        exact ⟨hopens, hpending, hnames⟩
      covered := fun {i} hcov => by
        obtain ⟨m, hm, hi⟩ := List.any_eq_true.mp hcov
        exact (h.mount m hm).2 i (of_decide_eq_true hi) }

end

-- A mount of a volume: its root at the mount point, the inode it covers in the mount's record.
def mountVolume (s : State ψ) (mp : DentryId) (k : ℕ) (node : Node) : State ψ :=
  { s with
    dentries := s.dentries.modify mp fun dn => { dn with inode := some s.inodes.next, children := [] }
    inodes := s.inodes.alloc { node with driver := .vol k }
    mounts := s.mounts ++
      [{ mp := mp, hasDev := true, openFiles := 0, covered := s.inodeIdOf mp }] }

def volumeTree (v : ψ) : State ψ :=
  mountVolume (bootTree v) 5 0 { kind := .dir, dirOps := true, mode := 493 }

theorem sound_volumeTree : (volumeTree ()).Sound := by decide +kernel

end DosKernel.Vfs

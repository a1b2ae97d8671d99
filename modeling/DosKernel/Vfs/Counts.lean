import DosKernel.Vfs.Mounted

namespace DosKernel.Vfs

open DosKernel.Lib Relation Inode

variable {ψ : Type} {s t : State ψ} {p d e x i : ℕ} {name : Name} {dir ino : Inode}

def Inode.form (ino : Inode) : InodeType × Driver × Bool × Bool :=
  (ino.kind, ino.driver, ino.dirOps, ino.ownChildren)

def InodesFrom (s t : State ψ) : Prop :=
  ∀ {i ino}, t.inodes.get i = some ino →
    (∃ old, s.inodes.get i = some old ∧ ino.form = old.form) ∨ i = s.inodes.next ∧ ino.toNode.Plain

structure Shape (s : State ψ) : Prop where
  forest : Forest s
  plain : ∀ {i ino}, s.inodes.get i = some ino → ino.toNode.Plain
  leaf : ∀ {d ino}, s.inodeOf d = some ino → ino.kind ≠ .dir → s.children d = []
  driver : ∀ {e en p ino dir}, s.dentries.get e = some en → en.parent = some p →
    s.inodeOf e = some ino → ino.kind ≠ .dir → ino.kind ≠ .device → s.inodeOf p = some dir →
    ino.driver = dir.driver

theorem Inode.form_kind {a b : Inode} (h : a.form = b.form) : a.kind = b.kind := congrArg (·.1) h

theorem Inode.form_driver {a b : Inode} (h : a.form = b.form) : a.driver = b.driver :=
  congrArg (·.2.1) h

theorem Inode.form_plain {a b : Inode} (h : a.form = b.form) (hb : b.toNode.Plain) :
    a.toNode.Plain := by
  simp only [form, Prod.mk.injEq] at h
  obtain ⟨hkind, -, hops, hown⟩ := h
  exact ⟨hown.trans hb.1, fun h => hkind.trans (hb.2 (hops.symm.trans h))⟩

theorem inodesFrom_of_eq (hi : t.inodes = s.inodes) : InodesFrom s t :=
  fun {_ ino} hget => .inl ⟨ino, hi ▸ hget, rfl⟩

theorem inodesFrom_modify {f : Inode → Inode} (hi : t.inodes = s.inodes.modify i f)
    (hf : ∀ ino, (f ino).form = ino.form) : InodesFrom s t := by
  intro j ino hget
  rw [hi] at hget
  obtain ⟨old, -, hold, rfl⟩ | ⟨-, hget⟩ := Heap.get_modify_cases hget
  · exact .inl ⟨old, hold, hf old⟩
  · exact .inl ⟨ino, hget, rfl⟩

theorem InodesFrom.inodeOf (h : InodesFrom s t) (hb : Bounded s)
    (hid : ∀ {dn}, t.dentries.get x = some dn →
      ∃ dn', s.dentries.get x = some dn' ∧ dn'.inode = dn.inode)
    (hx : t.inodeOf x = some ino) : ∃ old, s.inodeOf x = some old ∧ ino.form = old.form := by
  obtain ⟨i, hnode⟩ := nodeAt_of_inodeOf hx
  obtain ⟨dn, hdn, hi⟩ := hnode.get
  obtain ⟨dn', hdn', heq⟩ := hid hdn
  have hlt := hb.inode hdn' (heq.trans hi)
  obtain ⟨old, hold, hform⟩ | ⟨rfl, -⟩ := h hnode.inode
  · have hnode' : NodeAt s x i old := ⟨by simp [State.inodeIdOf, hdn', heq, hi], hold⟩
    exact ⟨old, hnode'.inodeOf, hform⟩
  · exact absurd hlt (lt_irrefl _)

section Steps

variable (hs : Shape s) (hi : InodesFrom s t)
include hs hi

theorem Shape.plain_from {j : ℕ} {a : Inode} (hget : t.inodes.get j = some a) : a.toNode.Plain := by
  obtain ⟨old, hold, hform⟩ | ⟨-, hplain⟩ := hi hget
  · exact form_plain hform (hs.plain hold)
  · exact hplain

theorem Shape.shrunk (hforest : Forest t) (hget : ∀ {x dn}, t.dentries.get x = some dn →
      ∃ dn', s.dentries.get x = some dn' ∧ dn'.inode = dn.inode ∧ dn'.parent = dn.parent ∧
        dn.children ⊆ dn'.children) : Shape t := by
  have hold : ∀ {x ino}, t.inodeOf x = some ino → ∃ old, s.inodeOf x = some old ∧ ino.form = old.form :=
    hi.inodeOf hs.forest.bounded fun hx => by
      obtain ⟨dn', hdn', heq, -⟩ := hget hx
      exact ⟨dn', hdn', heq⟩
  refine ⟨hforest, hs.plain_from hi, fun {x ino} hino hne => ?_,
    fun {e en q ino qdir} heget hpar hino hne hdev hqdir => ?_⟩
  · obtain ⟨old, hxold, hform⟩ := hold hino
    obtain ⟨_, hnode⟩ := nodeAt_of_inodeOf hino
    obtain ⟨dn, hdn, -⟩ := hnode.get
    obtain ⟨dn', hdn', -, -, hsub⟩ := hget hdn
    have hnil := hs.leaf hxold (form_kind hform ▸ hne)
    rw [children_of_get hdn'] at hnil
    rw [children_of_get hdn]
    exact List.subset_nil.mp (hnil ▸ hsub)
  · obtain ⟨old, heold, hform⟩ := hold hino
    obtain ⟨odir, hodir, hdform⟩ := hold hqdir
    obtain ⟨en', hen', -, hpar', -⟩ := hget heget
    rw [form_driver hform, form_driver hdform]
    exact hs.driver hen' (hpar'.trans hpar) heold (form_kind hform ▸ hne)
      (form_kind hform ▸ hdev) hodir

theorem Shape.of_dentries (hd : t.dentries = s.dentries) (hp : SamePlaces s t) (hb : Bounded t) :
    Shape t :=
  hs.shrunk hi (hs.forest.of_dentries hd hp hb)
    fun hx => ⟨_, hd ▸ hx, rfl, rfl, List.Subset.refl _⟩

theorem Shape.attached (hdir : s.inodeOf p = some dir) (hkind : dir.kind = .dir)
    (hd : t.dentries = (s.attachChild p name i).dentries) (hp : SamePlaces s t) (hb : Bounded t)
    (htree : Tree t)
    (hdriver : ∀ {ino}, t.inodes.get i = some ino → ino.kind ≠ .dir → ino.kind ≠ .device →
      ino.driver = dir.driver) :
    Shape t ∧ ∀ {x}, (s.dentries.get x).isSome → t.mountOf x = s.mountOf x := by
  obtain ⟨j, hpnode⟩ := nodeAt_of_inodeOf hdir
  obtain ⟨pd, hpd, -⟩ := hpnode.get
  have hpn : p ≠ s.dentries.next := (Heap.lt_next hpd).ne
  obtain ⟨hforest, hsame⟩ := hs.forest.attached (by simp [hpd]) hd hp hb htree
  have hold : ∀ {x ino}, x ≠ s.dentries.next → t.inodeOf x = some ino →
      ∃ old, s.inodeOf x = some old ∧ ino.form = old.form := by
    intro x ino hx
    refine hi.inodeOf hs.forest.bounded fun {dn} hget => ?_
    rw [hd, get_attachChild_old hx] at hget
    obtain ⟨dn', hdn', rfl⟩ := Option.map_eq_some_iff.mp hget
    exact ⟨dn', hdn', rfl⟩
  refine ⟨⟨hforest, hs.plain_from hi, fun {x ino} hino hne => ?_,
    fun {e en q ino qdir} hget hpar hino hne hdev hqdir => ?_⟩, hsame⟩
  · by_cases hx : x = s.dentries.next
    · have hnew := get_attachChild_new (s := s) hpn name i
      rw [← hd, ← hx] at hnew
      rw [children_of_get hnew]
    · obtain ⟨old, hxold, hform⟩ := hold hx hino
      have hxp : x ≠ p := fun hxp => by
        rw [hxp, hdir] at hxold
        cases hxold
        exact hne ((form_kind hform).trans hkind)
      have hleaf := hs.leaf hxold (form_kind hform ▸ hne)
      rw [State.children, hd, get_attachChild_old hx, if_neg hxp, Dentry.map_withNew_nil]
      exact hleaf
  · by_cases hx : e = s.dentries.next
    · have hnew := get_attachChild_new (s := s) hpn name i
      rw [← hd, ← hx, hget] at hnew
      cases hnew
      cases hpar
      obtain ⟨odir, hodir, hdform⟩ := hold hpn hqdir
      rw [hdir] at hodir
      cases hodir
      obtain ⟨k, hnode⟩ := nodeAt_of_inodeOf hino
      obtain ⟨dn, hdn, hk⟩ := hnode.get
      rw [hget] at hdn
      cases hdn
      cases hk
      rw [hdriver hnode.inode hne hdev, form_driver hdform]
    · obtain ⟨old, heold, hform⟩ := hold hx hino
      rw [hd, get_attachChild_old hx] at hget
      obtain ⟨en', hen', rfl⟩ := Option.map_eq_some_iff.mp hget
      obtain ⟨qd, hqd⟩ := Option.isSome_iff_exists.mp (hs.forest.parent_live hen' hpar)
      obtain ⟨odir, hodir, hdform⟩ := hold (Heap.lt_next hqd).ne hqdir
      rw [form_driver hform, form_driver hdform]
      exact hs.driver hen' hpar heold (form_kind hform ▸ hne) (form_kind hform ▸ hdev)
        hodir

theorem Shape.detached (hleaf : s.children d = [])
    (hd : t.dentries = (s.detach p d).dentries) (hp : SamePlaces s t) (hb : Bounded t)
    (htree : Tree t) :
    Shape t ∧ ∀ {x}, (t.dentries.get x).isSome → t.mountOf x = s.mountOf x := by
  obtain ⟨hforest, hsame⟩ := hs.forest.detached hleaf hd hp hb htree
  refine ⟨hs.shrunk hi hforest fun {x dn} hx => ?_, hsame⟩
  rw [hd] at hx
  have hx := Heap.get_of_get_free hx
  obtain ⟨dn', -, hdn', rfl⟩ | ⟨-, hx⟩ := Heap.get_modify_cases hx
  · exact ⟨dn', hdn', rfl, rfl, List.erase_subset⟩
  · exact ⟨dn, hx, rfl, rfl, List.Subset.refl _⟩

end Steps

open State Heap

variable {j : ℕ}

def State.names (s : State ψ) (i : InodeId) : ℕ := s.dentries.count fun _ dn => decide (dn.inode = some i)

def State.opened (s : State ψ) (i : InodeId) : ℕ := s.files.count fun _ file => decide (file.inode = i)

def State.covers (s : State ψ) (i : InodeId) : Bool := s.mounts.any fun m => decide (m.covered = some i)

def Inode.owed (ino : Inode) : ℕ := if ino.kind = .dir then 1 else ino.priv.nlink

structure Counted (s : State ψ) (i : InodeId) (ino : Inode) : Prop where
  opens : ino.opens = s.opened i
  pending : ino.unlinkDir ≠ none → ino.kind ≠ .dir ∧ 0 < ino.opens
  names : ino.driver = .ramfs → ino.unlinkDir = none → s.covers i = false →
    ino.kind ≠ .device ∧ s.names i = ino.owed ∧ 0 < ino.owed

structure Counts (s : State ψ) : Prop where
  live : ∀ {i ino}, s.inodes.get i = some ino → Counted s i ino
  covered : ∀ {i}, s.covers i = true → i < s.inodes.next ∧ s.names i = 0

theorem SamePlaces.covers (h : SamePlaces s t) (i : ℕ) : t.covers i = s.covers i := by
  have hany := congrArg (List.any · fun x => decide (x.2 = some i)) h
  simp only [List.any_map] at hany
  exact hany

theorem names_attached (hd : t.dentries = (s.attachChild p name i).dentries) (j : ℕ) :
    t.names j = s.names j + if i = j then 1 else 0 := by
  rw [names, hd]
  refine (count_modify_eq ?_).trans (count_alloc.trans ?_)
  · exact fun _ _ => rfl
  by_cases hij : i = j <;> simp [names, hij]

theorem names_attached_of_ne (hd : t.dentries = (s.attachChild p name i).dentries) (hj : j ≠ i) :
    t.names j = s.names j := by
  rw [names_attached hd, if_neg (Ne.symm hj), Nat.add_zero]

theorem names_detached {dn : Dentry} (hget : s.dentries.get d = some dn)
    (hd : t.dentries = (s.detach p d).dentries) (j : ℕ) :
    t.names j + (if dn.inode = some j then 1 else 0) = s.names j := by
  have hget' : ∃ dn', (s.dentries.modify p fun dn =>
      { dn with children := dn.children.erase d }).get d = some dn' ∧ dn'.inode = dn.inode := by
    rw [get_modify, hget]
    split
    · exact ⟨_, rfl, rfl⟩
    · exact ⟨_, rfl, rfl⟩
  obtain ⟨dn', hdn', heq⟩ := hget'
  have hfree := count_free (p := fun _ dn => decide (dn.inode = some j)) hdn'
  rw [count_modify_eq (by exact fun _ _ => rfl), heq] at hfree
  rw [names, names, hd, ← hfree]
  by_cases hj : dn.inode = some j <;> simp [detach, hj]

theorem SamePlaces.of_eq (h : t.mounts = s.mounts) : SamePlaces s t := by
  rw [SamePlaces, h]

structure Touches (s t : State ψ) (i : InodeId) : Prop where
  files : t.files = s.files
  mounts : t.mounts = s.mounts
  next : s.inodes.next ≤ t.inodes.next
  inode : ∀ {j}, j ≠ i → t.inodes.get j = s.inodes.get j
  names : ∀ {j}, j ≠ i → t.names j = s.names j

theorem Touches.opened (h : Touches s t i) (j : ℕ) : t.opened j = s.opened j := by
  rw [State.opened, h.files]
  rfl

theorem Touches.inodesFrom (h : Touches s t i) (hi : ∀ {a}, t.inodes.get i = some a →
    (∃ old, s.inodes.get i = some old ∧ a.form = old.form) ∨ i = s.inodes.next ∧ a.toNode.Plain) :
    InodesFrom s t := by
  intro j a hget
  by_cases hj : j = i
  · subst hj
    exact hi hget
  · exact .inl ⟨a, h.inode hj ▸ hget, rfl⟩

theorem Touches.counts (h : Touches s t i) (hc : Counts s)
    (hi : ∀ {a}, t.inodes.get i = some a → Counted t i a)
    (hcov : s.covers i = true → t.names i = 0) : Counts t := by
  have hcovers := (SamePlaces.of_eq h.mounts).covers
  refine ⟨fun {j a} hget => ?_, fun {j} hj => ?_⟩
  · by_cases hji : j = i
    · subst hji
      exact hi hget
    · obtain ⟨hco, hcp, hcn⟩ := hc.live (h.inode hji ▸ hget)
      refine ⟨hco.trans (h.opened j).symm, hcp, ?_⟩
      rw [hcovers, h.names hji]
      exact hcn
  · rw [hcovers] at hj
    obtain ⟨hlt, hzero⟩ := hc.covered hj
    refine ⟨hlt.trans_le h.next, ?_⟩
    by_cases hji : j = i
    · exact hji ▸ hcov (hji ▸ hj)
    · rw [h.names hji, hzero]

section Steps

variable (hc : Counts s)
include hc

theorem Counts.of_opens (hp : SamePlaces s t) (hd : t.dentries = s.dentries)
    (hnext : s.inodes.next ≤ t.inodes.next)
    (hi : ∀ {j ino}, t.inodes.get j = some ino → ∃ old, s.inodes.get j = some old ∧
      (old.opens = s.opened j → ino.opens = t.opened j) ∧
      (ino.unlinkDir ≠ none → old.opens ≤ ino.opens) ∧ ino.unlinkDir = old.unlinkDir ∧
      ino.form = old.form ∧ ino.priv.nlink = old.priv.nlink) : Counts t where
  live {j ino} hget := by
    have hn : t.names j = s.names j := by rw [names, hd]; rfl
    obtain ⟨old, hold, hopens, hmore, hdir, hform, hlink⟩ := hi hget
    obtain ⟨hco, hcp, hcn⟩ := hc.live hold
    have howed : ino.owed = old.owed := by
      simp only [Inode.owed, Inode.form_kind hform, hlink]
    refine ⟨hopens hco, fun hne => ?_, ?_⟩
    · rw [Inode.form_kind hform]
      exact ⟨(hcp (hdir ▸ hne)).1, (hcp (hdir ▸ hne)).2.trans_le (hmore hne)⟩
    · rw [hdir, Inode.form_driver hform, Inode.form_kind hform, hp.covers, hn, howed]
      exact hcn
  covered {j} hcov := by
    rw [hp.covers] at hcov
    rw [names, hd]
    exact ⟨(hc.covered hcov).1.trans_le hnext, (hc.covered hcov).2⟩

theorem Counts.opened {file : File} (hfile : file.inode = i) (hd : t.dentries = s.dentries)
    (hi : t.inodes = s.inodes.modify i fun x => { x with opens := x.opens + 1 })
    (hfiles : t.files = s.files.alloc file) (hp : SamePlaces s t) : Counts t := by
  have hopened : ∀ j, t.opened j = s.opened j + if i = j then 1 else 0 := fun j => by
    rw [State.opened, hfiles, count_alloc, hfile]
    by_cases hij : i = j <;> simp [State.opened, hij]
  refine hc.of_opens hp hd (by rw [hi]; exact le_rfl) fun {j a} hj => ?_
  rw [hi] at hj
  obtain ⟨b, hji, hb, rfl⟩ | ⟨hne, hj⟩ := get_modify_cases hj
  · refine ⟨b, hb, fun hco => ?_, fun _ => Nat.le_succ _, rfl, rfl, rfl⟩
    rw [hopened, if_pos hji.symm, ← hco]
  · refine ⟨a, hj, fun hco => ?_, fun _ => le_rfl, rfl, rfl, rfl⟩
    rw [hopened, if_neg (Ne.symm hne)]
    exact hco

theorem Counts.closed {f : ℕ} {file : File} (hf : s.files.get f = some file)
    (hpend : ∀ {ino}, s.inodes.get file.inode = some ino → ino.unlinkDir = none)
    (hd : t.dentries = s.dentries)
    (hi : t.inodes = s.inodes.modify file.inode fun x => { x with opens := x.opens - 1 })
    (hfiles : t.files = s.files.free f) (hp : SamePlaces s t) : Counts t := by
  have hopened : ∀ j, t.opened j + (if file.inode = j then 1 else 0) = s.opened j := fun j => by
    have hfree := count_free (p := fun _ file => decide (file.inode = j)) hf
    rw [State.opened, State.opened, hfiles, ← hfree]
    by_cases hij : file.inode = j <;> simp [hij]
  refine hc.of_opens hp hd (by rw [hi]; exact le_rfl) fun {j a} hj => ?_
  have hn := hopened j
  rw [hi] at hj
  obtain ⟨b, rfl, hb, rfl⟩ | ⟨hne, hj⟩ := get_modify_cases hj
  · rw [if_pos rfl] at hn
    refine ⟨b, hb, fun hco => ?_, fun hne => absurd (hpend hb) hne, rfl, rfl, rfl⟩
    show b.opens - 1 = _
    omega
  · rw [if_neg (Ne.symm hne)] at hn
    exact ⟨a, hj, fun _ => by omega, fun _ => le_rfl, rfl, rfl, rfl⟩

end Steps

end DosKernel.Vfs

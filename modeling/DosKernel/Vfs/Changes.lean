import DosKernel.Vfs.Outcomes

namespace DosKernel.Vfs

open DosKernel.Lib Relation Heap

variable {ψ : Type}

-- The single changes a call is made of. `G` is what is known of a dentry about to be removed.
inductive Change (drv : Drivers ψ) (c : Caller) (G : State ψ → DentryId → Bool) :
    State ψ → State ψ → Prop
  | fill {s t} : FillStep drv s t → Change drv c G s t
  | vol {s} (v : ψ) : Change drv c G s (s.setVol v)
  | make {s t p dir name} : s.inodeOf p = some dir → dir.kind = .dir → name.length ≤ nameMax →
      Makes drv c s p dir name t → Change drv c G s t
  | link {s t src p dir name} : s.inodeOf p = some dir → dir.kind = .dir → name.length ≤ nameMax →
      Links drv c s src p dir name t → Change drv c G s t
  | remove {s t p dir name d i ino} : s.inodeOf p = some dir → dir.kind = .dir →
      Removable c s p dir name d i ino →
      Removes drv s p dir name d i ino t → G s d = true → Change drv c G s t
  | rename {s t p old new} : Renames drv s p old new t → Change drv c G s t
  | move {s t o old p new} : o ≠ p → Moves drv c s o old p new t → Change drv c G s t
  | truncate {s} (i : InodeId) : Change drv c G s (s.truncate i)
  | opened {s d i ino} (flags : OpenFlags) (vpath : Option Path) : NodeAt s d i ino →
      Change drv c G s (s.addFile d i flags vpath)
  | closed {s} (f : FileId) : Change drv c G s (vfsClose drv s f).2

abbrev Changes (drv : Drivers ψ) (c : Caller) (G : State ψ → DentryId → Bool) :
    State ψ → State ψ → Prop :=
  ReflTransGen (Change drv c G)

variable {drv : Drivers ψ} {c : Caller} {s t u : State ψ}
  {p d o i : ℕ} {ino : Inode} {name : Name}

variable (drv) in
theorem deferredUnlink_cases : deferredUnlink drv s i = s ∨
    ∃ ino, s.inodes.get i = some ino ∧ ino.unlinkDir.isSome ∧ ∃ v,
      deferredUnlink drv s i =
          (s.modInode i fun x => { x with unlinkDir := none, unlinkName := [] }).setVol v ∨
        ∃ priv, deferredUnlink drv s i =
          ((s.modInode i fun x => { x with unlinkDir := none, unlinkName := [] }).setVol
            v).settleInode i priv := by
  unfold deferredUnlink
  split
  · exact .inl rfl
  rename_i ino hino
  split
  · exact .inl rfl
  rename_i di hdi
  refine .inr ⟨ino, hino, by simp [hdi], ?_⟩
  dsimp only
  split
  · exact ⟨s.vol, .inl rfl⟩
  split
  · exact ⟨s.vol, .inl rfl⟩
  rename_i op _
  rcases op _ _ _ _ with ⟨r, priv, v⟩
  split
  · exact ⟨v, .inr ⟨priv, rfl⟩⟩
  · exact ⟨v, .inl rfl⟩

variable (drv) in
theorem deferredUnlink_frame : ∃ (h : Heap Inode) (v : ψ), h.next = s.inodes.next ∧
    deferredUnlink drv s i = { s with inodes := h, vol := v } := by
  obtain h | ⟨ino, -, -, v, h | ⟨_ | priv, h⟩⟩ := deferredUnlink_cases drv (s := s) (i := i)
  all_goals
    rw [h]
    exact ⟨_, _, by rfl, rfl⟩

variable (drv) in
theorem vfsClose_some {file : File} {f : ℕ} (hf : s.files.get f = some file) :
    ∃ (h : Heap Inode) (v : ψ), h.next = s.inodes.next ∧ (vfsClose drv s f).2 =
      { s.subOpen (if ((s.inodes.get file.inode).bind (·.unlinkDir)).isSome then none
          else s.mountOf file.dentry) with inodes := h, vol := v, files := s.files.free f } := by
  unfold vfsClose
  rw [hf]
  dsimp only
  split
  · obtain ⟨h, v, hnext, heq⟩ := deferredUnlink_frame drv (i := file.inode)
      (s := (s.subOpen (if ((s.inodes.get file.inode).bind (·.unlinkDir)).isSome then none
        else s.mountOf file.dentry)).modInode file.inode
          fun ino => { ino with opens := ino.opens - 1 })
    rw [heq]
    exact ⟨h, v, hnext, rfl⟩
  · exact ⟨_, s.vol, by rfl, rfl⟩

variable (drv) in
theorem vfsClose_frame (f : ℕ) : ∃ (h : Heap Inode) (v : ψ) (m : List Mount),
    h.next = s.inodes.next ∧ (vfsClose drv s f).2 =
      { s with inodes := h, vol := v, mounts := m, files := s.files.free f } := by
  cases hf : s.files.get f with
  | none =>
    have hsame : s.files.free f = s.files := by
      ext j : 2
      · by_cases hj : j = f
        · rw [hj, get_free_self, hf]
        · exact get_free_of_ne hj
      · rfl
    exact ⟨s.inodes, s.vol, s.mounts, rfl, by rw [hsame, vfsClose, hf]⟩
  | some file =>
    obtain ⟨h, v, hnext, heq⟩ := vfsClose_some drv hf
    exact ⟨h, v, _, hnext, heq⟩

def Dentry.marks (dn : Dentry) : Option DentryId × ℕ × ℕ × Bool × ℕ × ℕ :=
  (dn.bound, dn.boundNs, dn.boundSeq, dn.ro, dn.roNs, dn.roSeq)

structure SameMounts (s t : State ψ) : Prop where
  ns : t.ns = s.ns
  binds : t.binds = s.binds
  root : t.root = s.root
  next : s.dentries.next ≤ t.dentries.next
  dentry : ∀ {d dn}, t.dentries.get d = some dn →
    s.dentries.next ≤ d ∧ dn.bound = none ∧ dn.ro = false ∨
      ∃ dn', s.dentries.get d = some dn' ∧ dn.marks = dn'.marks

theorem SameMounts.refl (s : State ψ) : SameMounts s s :=
  ⟨rfl, rfl, rfl, le_rfl, fun h => .inr ⟨_, h, rfl⟩⟩

theorem SameMounts.trans (h : SameMounts s t) (h' : SameMounts t u) : SameMounts s u where
  ns := h'.ns.trans h.ns
  binds := h'.binds.trans h.binds
  root := h'.root.trans h.root
  next := h.next.trans h'.next
  dentry hget := by
    obtain ⟨hnew, hclean⟩ | ⟨dn', hget', hmarks⟩ := h'.dentry hget
    · exact .inl ⟨h.next.trans hnew, hclean⟩
    · obtain ⟨hnew, hbound, hro⟩ | ⟨dn, hdn, hmarks'⟩ := h.dentry hget'
      · simp only [Dentry.marks, Prod.mk.injEq] at hmarks
        exact .inl ⟨hnew, hmarks.1.trans hbound, hmarks.2.2.2.1.trans hro⟩
      · exact .inr ⟨dn, hdn, hmarks.trans hmarks'⟩

theorem SameMounts.of_eq (hd : t.dentries = s.dentries := by rfl) (hns : t.ns = s.ns := by rfl)
    (hbinds : t.binds = s.binds := by rfl) (hroot : t.root = s.root := by rfl) : SameMounts s t :=
  ⟨hns, hbinds, hroot, hd ▸ le_rfl, fun h => .inr ⟨_, hd ▸ h, rfl⟩⟩

theorem sameMounts_attachChild (hp : p ≠ s.dentries.next) :
    SameMounts s (s.attachChild p name i) where
  ns := rfl
  binds := rfl
  root := rfl
  next := Nat.le_succ _
  dentry {d dn} hget := by
    by_cases hd : d = s.dentries.next
    · subst hd
      rw [get_attachChild_new hp] at hget
      cases hget
      exact .inl ⟨le_rfl, rfl, rfl⟩
    · rw [get_attachChild_old hd] at hget
      obtain ⟨dn', hdn', rfl⟩ := Option.map_eq_some_iff.mp hget
      exact .inr ⟨dn', hdn', rfl⟩

theorem sameMounts_modDentry {f : Dentry → Dentry} (hf : ∀ dn, (f dn).marks = dn.marks) :
    SameMounts s (s.modDentry d f) where
  ns := rfl
  binds := rfl
  root := rfl
  next := le_rfl
  dentry {e dn} hget := by
    obtain ⟨dn', -, hdn', rfl⟩ | ⟨-, hget⟩ := get_modify_cases hget
    · exact .inr ⟨dn', hdn', hf dn'⟩
    · exact .inr ⟨dn, hget, rfl⟩

theorem sameMounts_shrink {h : Heap Dentry} (hnext : h.next = s.dentries.next)
    (hget : ∀ {d dn}, h.get d = some dn → s.dentries.get d = some dn) :
    SameMounts s { s with dentries := h } :=
  ⟨rfl, rfl, rfl, hnext.ge, fun hd => .inr ⟨_, hget hd, rfl⟩⟩

theorem next_foldl_free (l : List ℕ) (h : Heap Dentry) : (l.foldl free h).next = h.next := by
  induction l generalizing h with
  | nil => rfl
  | cons x l ih => exact ih (h.free x)

theorem get_foldl_free (l : List ℕ) (h : Heap Dentry) :
    (l.foldl free h).get d = if d ∈ l then none else h.get d := by
  induction l generalizing h with
  | nil => simp
  | cons x l ih =>
    rw [List.foldl_cons, ih, get_free]
    by_cases hx : d = x <;> by_cases hl : d ∈ l <;> simp [hx, hl]

theorem sameMounts_detach : SameMounts s (s.detach p d) :=
  (sameMounts_modDentry (d := p) (f := fun dn => { dn with children := dn.children.erase d })
    fun _ => rfl).trans (sameMounts_shrink rfl fun h => (get_of_get_free h))

theorem sameMounts_freeChildren : SameMounts s (s.freeChildren d) := by
  refine sameMounts_shrink (next_foldl_free _ _) fun {e dn} h => ?_
  rw [get_foldl_free] at h
  split at h
  · cases h
  · exact h

theorem sameMounts_settleInode (priv : Option Private) : SameMounts s (s.settleInode i priv) := by
  cases priv <;> exact .of_eq

theorem sameMounts_moveDentry : SameMounts s (s.moveDentry d o p name) := by
  unfold State.moveDentry
  refine (SameMounts.trans (sameMounts_modDentry ?_) (sameMounts_modDentry ?_)).trans
    (sameMounts_modDentry ?_) <;> exact fun _ => rfl

theorem Change.sameMounts {G : State ψ → DentryId → Bool} (h : Change drv c G s t) :
    SameMounts s t := by
  cases h with
  | fill h =>
    obtain ⟨p, name, node, -, hnode, rfl⟩ := h
    obtain ⟨pd, -, -, hpd, -⟩ := lookupNode_eq_some hnode
    exact .trans (t := s.newInode node.1 node.2) .of_eq
      (sameMounts_attachChild (lt_next hpd).ne)
  | vol v | truncate i | opened flags vpath _ => exact .of_eq
  | make hdir _ _ h =>
    obtain ⟨-, -, node, v, -, -, rfl⟩ := h
    obtain ⟨_, hnode⟩ := nodeAt_of_inodeOf hdir
    obtain ⟨pd, hpd, -⟩ := hnode.get
    exact .trans (t := (s.setVol v).newInode _ node) .of_eq
      (sameMounts_attachChild (lt_next hpd).ne)
  | link hdir _ _ h =>
    obtain ⟨-, -, i, ino, op, priv, v, -, -, -, -, rfl⟩ := h
    obtain ⟨_, hnode⟩ := nodeAt_of_inodeOf hdir
    obtain ⟨pd, hpd, -⟩ := hnode.get
    exact .trans (t := (s.setVol v).modInode i fun x => { x with priv })
      .of_eq (sameMounts_attachChild (lt_next hpd).ne)
  | remove _ _ _ h _ =>
    cases h with
    | later _ _ _ =>
      exact .trans (t := s.modInode _ _) .of_eq sameMounts_detach
    | now _ _ _ =>
      refine .trans ?_ sameMounts_detach
      refine .trans ?_ sameMounts_freeChildren
      refine .trans ?_ (sameMounts_settleInode _)
      exact .of_eq
  | rename h =>
    obtain ⟨dir, d, i, ino, op, priv, v, -, -, -, -, -, -, -, -, -, rfl⟩ := h
    exact .trans (t := (s.setVol v).modInode i fun x => { x with priv })
      .of_eq (sameMounts_modDentry fun _ => rfl)
  | move _ h =>
    obtain ⟨_, _, d, i, ino, op, priv, v, -, -, -, -, -, -, -, -, -, -, -, -, -, -, -, -, -, rfl⟩ := h
    exact .trans (t := (s.setVol v).modInode i fun x => { x with priv })
      .of_eq sameMounts_moveDentry
  | closed f =>
    obtain ⟨h, v, m, -, heq⟩ := vfsClose_frame drv (s := s) f
    rw [heq]
    exact .of_eq

section

variable (hb : Bounded s)

include hb

theorem Bounded.modInode (f : Inode → Inode) : Bounded (s.modInode i f) :=
  ⟨hb.root, hb.child, hb.bound, hb.parent, hb.inode, hb.file⟩

theorem Bounded.setVol (v : ψ) : Bounded (s.setVol v) :=
  ⟨hb.root, hb.child, hb.bound, hb.parent, hb.inode, hb.file⟩

theorem Bounded.settleInode (priv : Option Private) :
    Bounded (s.settleInode i priv) := by
  cases priv <;> exact ⟨hb.root, hb.child, hb.bound, hb.parent, hb.inode, hb.file⟩

theorem Bounded.freeChildren : Bounded (s.freeChildren d) := by
  refine hb.withDentries (next_foldl_free _ _).ge fun {e dn} hget => ?_
  rw [get_foldl_free] at hget
  split at hget
  · cases hget
  · exact hb.below hget (next_foldl_free _ _).ge

theorem Bounded.detach : Bounded (s.detach p d) := by
  have hmod : Bounded (s.modDentry p fun dn => { dn with children := dn.children.erase d }) :=
    hb.modDentry fun h => ⟨fun he => h.child (List.mem_of_mem_erase he), h.bound, h.parent, h.inode⟩
  exact hmod.withDentries le_rfl fun hget => hmod.below (get_of_get_free hget) le_rfl

theorem Bounded.moveDentry (hd : d < s.dentries.next) (hp : p < s.dentries.next) :
    Bounded (s.moveDentry d o p name) := by
  have h1 : Bounded (s.modDentry o fun dn => { dn with children := dn.children.erase d }) :=
    hb.modDentry fun h => ⟨fun he => h.child (List.mem_of_mem_erase he), h.bound, h.parent, h.inode⟩
  have h2 := h1.modDentry (d := d)
    (f := fun dn => { dn with parent := some p, name := name.take nameMax })
    fun h => ⟨h.child, h.bound, fun he => by cases he; exact hp, h.inode⟩
  refine h2.modDentry fun h => ⟨fun he => ?_, h.bound, h.parent, h.inode⟩
  rcases List.mem_cons.mp he with rfl | he
  · exact hd
  · exact h.child he

theorem Bounded.addFile (flags : OpenFlags) (vpath : Option Path)
    (hd : d < s.dentries.next) (hi : i < s.inodes.next) : Bounded (s.addFile d i flags vpath) where
  root := hb.root
  child := hb.child
  bound := hb.bound
  parent := hb.parent
  inode := hb.inode
  file {f file} hget := by
    have hget : (s.files.alloc _).get f = some file := hget
    rw [get_alloc] at hget
    split at hget
    · cases hget
      exact ⟨hd, hi⟩
    · exact hb.file hget

end

theorem NodeAt.lt (h : NodeAt s d i ino) : d < s.dentries.next ∧ i < s.inodes.next := by
  obtain ⟨dn, hdn, -⟩ := h.get
  exact ⟨lt_next hdn, lt_next h.inode⟩

theorem Change.bounded {G : State ψ → DentryId → Bool} (h : Change drv c G s t) (hb : Bounded s) :
    Bounded t := by
  cases h with
  | fill h => exact h.bounded hb
  | vol v => exact hb.setVol v
  | make hdir _ _ h =>
    obtain ⟨-, -, node, v, -, -, rfl⟩ := h
    obtain ⟨_, hnode⟩ := nodeAt_of_inodeOf hdir
    exact ((hb.setVol v).newInode _ node).attachChild hnode.lt.1 _ (Nat.lt_succ_self _)
  | link hdir _ _ h =>
    obtain ⟨-, -, i, ino, op, priv, v, hsrc, -, -, -, rfl⟩ := h
    obtain ⟨_, hnode⟩ := nodeAt_of_inodeOf hdir
    exact ((hb.setVol v).modInode _).attachChild hnode.lt.1 _ hsrc.lt.2
  | remove _ _ _ h _ =>
    cases h with
    | later _ _ _ => exact (hb.modInode _).detach
    | now _ _ _ => exact (((hb.setVol _).settleInode _).freeChildren).detach
  | rename h =>
    obtain ⟨dir, d, i, ino, op, priv, v, -, -, -, -, -, -, -, -, -, rfl⟩ := h
    exact ((hb.setVol v).modInode _).modDentry fun h => ⟨h.child, h.bound, h.parent, h.inode⟩
  | move _ h =>
    obtain ⟨_, _, d, i, ino, op, priv, v, -, -, hdir, -, -, -, -, -, hd, -, -, -, -, -, -, -, -,
      rfl⟩ := h
    obtain ⟨_, hnode⟩ := nodeAt_of_inodeOf hdir
    exact ((hb.setVol v).modInode _).moveDentry hd.lt.1 hnode.lt.1
  | truncate i => exact hb.modInode _
  | opened flags vpath h => exact hb.addFile flags vpath h.lt.1 h.lt.2
  | closed f =>
    obtain ⟨h, v, m, hnext, heq⟩ := vfsClose_frame drv (s := s) f
    rw [heq]
    exact ⟨hb.root, hb.child, hb.bound, hb.parent, fun hget hi => hnext.symm ▸ hb.inode hget hi,
      fun hget => ⟨(hb.file (get_of_get_free hget)).1,
        hnext.symm ▸ (hb.file (get_of_get_free hget)).2⟩⟩

section Calls

variable {G : State ψ → DentryId → Bool}

theorem Fills.changes (h : Fills drv s t) : Changes drv c G s t :=
  ReflTransGen.mono (fun _ _ => Change.fill) _ _ h

section

variable (h : Changes drv c G s t)

include h

theorem Changes.inv {P : State ψ → Prop}
    (hstep : ∀ {a b}, P a → Change drv c G a b → P b) (hs : P s) : P t := by
  induction h with
  | refl => exact hs
  | tail _ hab ih => exact hstep ih hab

theorem Changes.sameMounts : SameMounts s t :=
  h.inv (fun ha hab => ha.trans hab.sameMounts) (.refl s)

theorem Changes.bounded (hb : Bounded s) : Bounded t :=
  h.inv (fun ha hab => hab.bounded ha) hb

end

theorem Outcome.changes {P : State ψ → Prop} {r : Int × State ψ} (h : Outcome s P r)
    (hP : ∀ {t}, P t → Change drv c G s t) : Changes drv c G s r.2 := by
  obtain ⟨-, v, heq⟩ | ⟨-, h⟩ := h
  · rw [heq]
    exact .single (.vol v)
  · exact .single (hP h)

end Calls

end DosKernel.Vfs

import DosKernel.Vfs.Boot
import DosKernel.Vfs.Calls
import DosKernel.Vfs.View

namespace DosKernel.Vfs

open DosKernel.Lib Relation Heap

variable {ψ : Type} {drv : Drivers ψ} {c : Caller} {s t : State ψ} {d i : ℕ}

-- What a pointer is kept to is live: the dentry of an open file, the source of a bind in the dentry
-- and in the table, the directory of a deferred removal.
def NoDangling (s : State ψ) : Prop :=
  (∀ f file, s.files.get f = some file → (s.dentries.get file.dentry).isSome) ∧
  (∀ d dn e, s.dentries.get d = some dn → dn.bound = some e → (s.dentries.get e).isSome) ∧
  (∀ b ∈ s.binds, (s.dentries.get b.2).isSome) ∧
  ∀ i ino di, s.inodes.get i = some ino → ino.unlinkDir = some di → (s.inodes.get di).isSome

structure Refs (s : State ψ) : Prop where
  file : ∀ {f file}, s.files.get f = some file → (s.dentries.get file.dentry).isSome
  bound : ∀ {d dn e}, s.dentries.get d = some dn → dn.bound = some e → (s.dentries.get e).isSome
  binds : ∀ b ∈ s.binds, (s.dentries.get b.2).isSome
  pending : ∀ {i ino di}, s.inodes.get i = some ino → ino.unlinkDir = some di →
    ino.kind ≠ .dir ∧ ∃ dir, s.inodes.get di = some dir ∧ dir.kind = .dir

theorem Refs.noDangling (hr : Refs s) : NoDangling s := by
  refine ⟨fun f file => hr.file, fun d dn e => hr.bound, hr.binds, fun i ino di hi hdi => ?_⟩
  obtain ⟨-, dir, hdir, -⟩ := hr.pending hi hdi
  simp [hdir]

structure InodesKeep (h h' : Heap Inode) : Prop where
  dir : ∀ {i ino}, h.get i = some ino → ino.kind = .dir →
    ∃ ino', h'.get i = some ino' ∧ ino'.kind = .dir
  pending : ∀ {i ino di}, h'.get i = some ino → ino.unlinkDir = some di →
    ∃ ino', h.get i = some ino' ∧ ino'.unlinkDir = some di ∧ ino'.kind = ino.kind

namespace InodesKeep

variable {h h' h'' : Heap Inode}

theorem refl (h : Heap Inode) : InodesKeep h h :=
  ⟨fun hi hk => ⟨_, hi, hk⟩, fun hi hd => ⟨_, hi, hd, rfl⟩⟩

theorem trans (hk : InodesKeep h h') (hk' : InodesKeep h' h'') : InodesKeep h h'' where
  dir hi hdir := by
    obtain ⟨ino', hi', hdir'⟩ := hk.dir hi hdir
    exact hk'.dir hi' hdir'
  pending hi hd := by
    obtain ⟨ino', hi', hd', hkind⟩ := hk'.pending hi hd
    obtain ⟨ino, hi, hd, hkind'⟩ := hk.pending hi' hd'
    exact ⟨ino, hi, hd, hkind'.trans hkind⟩

theorem alloc {ino : Inode} (hnew : ino.unlinkDir = none) : InodesKeep h (h.alloc ino) where
  dir hi hk := ⟨_, get_alloc_of_some hi, hk⟩
  pending hi hd := by
    rw [get_alloc] at hi
    split at hi
    · cases hi
      rw [hnew] at hd
      cases hd
    · exact ⟨_, hi, hd, rfl⟩

theorem modify {f : Inode → Inode}
    (hf : ∀ x, (f x).kind = x.kind ∧ ((f x).unlinkDir = x.unlinkDir ∨ (f x).unlinkDir = none)) :
    InodesKeep h (h.modify i f) where
  dir {j ino} hj hk := by
    by_cases hji : j = i
    · exact ⟨f ino, by simp [← hji, hj], (hf ino).1.trans hk⟩
    · exact ⟨ino, by rw [get_modify_of_ne hji, hj], hk⟩
  pending {j ino di} hj hd := by
    obtain ⟨x, -, hx, rfl⟩ | ⟨-, hj⟩ := get_modify_cases hj
    · obtain hsame | hnone := (hf x).2
      · exact ⟨x, hx, hsame ▸ hd, (hf x).1.symm⟩
      · rw [hnone] at hd
        cases hd
    · exact ⟨ino, hj, hd, rfl⟩

theorem free {ino : Inode} (hi : h.get i = some ino) (hk : ino.kind ≠ .dir) :
    InodesKeep h (h.free i) where
  dir {j x} hj hdir := by
    have hji : j ≠ i := fun hji => hk (by rw [hji, hi] at hj; cases hj; exact hdir)
    exact ⟨x, by rw [get_free_of_ne hji, hj], hdir⟩
  pending hj hd := ⟨_, (get_of_get_free hj), hd, rfl⟩

end InodesKeep

theorem Refs.keep (hr : Refs s) (hm : SameMounts s t)
    (hd : ∀ {d}, (s.dentries.get d).isSome → (t.dentries.get d).isSome)
    (hf : ∀ {f file}, t.files.get f = some file →
      s.files.get f = some file ∨ (t.dentries.get file.dentry).isSome)
    (hi : InodesKeep s.inodes t.inodes) : Refs t where
  file hget := (hf hget).elim (fun h => hd (hr.file h)) id
  bound hget hbound := by
    obtain ⟨-, hnone, -⟩ | ⟨dn', hget', hmarks⟩ := hm.dentry hget
    · rw [hnone] at hbound
      cases hbound
    · simp only [Dentry.marks, Prod.mk.injEq] at hmarks
      exact hd (hr.bound hget' (hmarks.1 ▸ hbound))
  binds b hb := hd (hr.binds b (hm.binds ▸ hb))
  pending hget hpend := by
    obtain ⟨ino', hget', hpend', hkind⟩ := hi.pending hget hpend
    obtain ⟨hnot, dir, hdir, hdk⟩ := hr.pending hget' hpend'
    exact ⟨hkind ▸ hnot, hi.dir hdir hdk⟩

variable (drv) in
theorem vfsClose_inodesKeep (hr : Refs s) (f : ℕ) :
    InodesKeep s.inodes (vfsClose drv s f).2.inodes := by
  unfold vfsClose
  cases hf : s.files.get f with
  | none => exact .refl _
  | some file =>
    dsimp only
    generalize hs2 : (s.subOpen _).modInode file.inode _ = s2
    have h2 : InodesKeep s.inodes s2.inodes := by
      rw [← hs2]
      exact .modify fun _ => ⟨rfl, .inl rfl⟩
    split
    · obtain h | ⟨ino, hino, hpend, v, h⟩ := deferredUnlink_cases drv (s := s2) (i := file.inode)
      · rw [h]
        exact h2
      · have h3 : InodesKeep s2.inodes (s2.inodes.modify file.inode
            fun x => { x with unlinkDir := none, unlinkName := [] }) :=
          .modify fun _ => ⟨rfl, .inr rfl⟩
        obtain h | ⟨priv, h⟩ := h <;> rw [h]
        · exact h2.trans h3
        · refine (h2.trans h3).trans ?_
          cases priv with
          | some priv => exact .modify fun _ => ⟨rfl, .inl rfl⟩
          | none =>
            obtain ⟨di, hdi⟩ := Option.isSome_iff_exists.mp hpend
            obtain ⟨ino', hino', hpend', hkind⟩ := h2.pending hino hdi
            have hnot := (hr.pending hino' hpend').1
            have hlive : (s2.inodes.modify file.inode fun x =>
                { x with unlinkDir := none, unlinkName := [] }).get file.inode =
                some { ino with unlinkDir := none, unlinkName := [] } := by
              rw [get_modify_self, hino]
              rfl
            exact .free hlive (hkind ▸ hnot)
    · exact h2

-- Nothing points at a dentry, nor at what would be freed with it.
def unreferenced (s : State ψ) (d : DentryId) : Bool :=
  decide (s.files.All fun _ file => file.dentry ∉ d :: s.children d) &&
  decide (s.dentries.All fun _ dn => ∀ e ∈ d :: s.children d, dn.bound ≠ some e) &&
  decide (∀ b ∈ s.binds, b.2 ∉ d :: s.children d) &&
  decide (s.inodes.All fun _ ino => ino.unlinkDir.isSome → ino.unlinkDir ≠ s.inodeIdOf d)

theorem unreferenced_iff : unreferenced s d = true ↔
    (∀ f file, s.files.get f = some file → file.dentry ∉ d :: s.children d) ∧
    (∀ x dn, s.dentries.get x = some dn → ∀ e ∈ d :: s.children d, dn.bound ≠ some e) ∧
    (∀ b ∈ s.binds, b.2 ∉ d :: s.children d) ∧
    ∀ i ino, s.inodes.get i = some ino → ino.unlinkDir.isSome → ino.unlinkDir ≠ s.inodeIdOf d := by
  simp only [unreferenced, Bool.and_eq_true, decide_eq_true_eq, and_assoc]
  rfl

theorem Refs.removed (hr : Refs s) (hG : unreferenced s d = true) (hm : SameMounts s t)
    (hfiles : t.files = s.files)
    (hlive : ∀ {e}, (s.dentries.get e).isSome → e ∉ d :: s.children d → (t.dentries.get e).isSome)
    (hpending : ∀ {i ino di}, t.inodes.get i = some ino → ino.unlinkDir = some di →
      ino.kind ≠ .dir ∧ ∃ dir, t.inodes.get di = some dir ∧ dir.kind = .dir) : Refs t := by
  obtain ⟨hfile, hbound, hbinds, -⟩ := unreferenced_iff.mp hG
  refine ⟨fun hget => ?_, fun {x dn e} hget he => ?_, fun b hb => ?_, hpending⟩
  · rw [hfiles] at hget
    exact hlive (hr.file hget) (hfile _ _ hget)
  · obtain ⟨-, hnone, -⟩ | ⟨dn', hget', hmarks⟩ := hm.dentry hget
    · rw [hnone] at he
      cases he
    · simp only [Dentry.marks, Prod.mk.injEq] at hmarks
      rw [hmarks.1] at he
      exact hlive (hr.bound hget' he) fun hmem => hbound x dn' hget' e hmem he
  · rw [hm.binds] at hb
    exact hlive (hr.binds b hb) (hbinds b hb)

theorem get_detach_isSome {p e : ℕ} (h : (s.dentries.get e).isSome) (he : e ≠ d) :
    ((s.detach p d).dentries.get e).isSome := by
  simp only [State.detach, get_free_of_ne he, isSome_get_modify, h]

theorem Refs.remove (hr : Refs s) {p : ℕ} {dir ino : Inode} {name : Name}
    (hdir : s.inodeOf p = some dir) (hkind : dir.kind = .dir)
    (hrem : Removable c s p dir name d i ino) (h : Removes drv s p dir name d i ino t)
    (hun : unreferenced s d = true) : Refs t := by
  have hchange : Change drv c unreferenced s t := .remove hdir hkind hrem h hun
  cases h with
  | @later di hdi hnot hopen =>
    refine hr.removed hun hchange.sameMounts rfl
      (fun hlive he => get_detach_isSome hlive (fun h => he (by simp [h]))) ?_
    -- the directory the removal will be done in is the one the name stood in
    have hdi' : s.inodes.get di = some dir := (nodeAt_of_eq hdi hdir).inode
    have hkeep : ∀ {j x}, s.inodes.get j = some x → x.kind = .dir →
        ∃ y, (s.inodes.modify i fun x => { x with unlinkDir := some di, unlinkName := name }).get j
          = some y ∧ y.kind = .dir := by
      intro j x hj hx
      by_cases hji : j = i
      · exact absurd (by rw [hji, hrem.node.inode] at hj; cases hj; exact hx) hnot
      · exact ⟨x, by rw [get_modify_of_ne hji, hj], hx⟩
    intro j x dj hj hdj
    obtain ⟨y, rfl, hy, rfl⟩ | ⟨-, hj⟩ := get_modify_cases hj
    · rw [hrem.node.inode] at hy
      cases hy
      cases hdj
      exact ⟨hnot, hkeep hdi' hkind⟩
    · obtain ⟨hx, dir', hdir', hdk⟩ := hr.pending hj hdj
      exact ⟨hx, hkeep hdir' hdk⟩
  | @now op priv v hnow hop hres =>
    have hchildren : ((s.setVol v).settleInode i priv).children d = s.children d := by
      cases priv <;> rfl
    refine hr.removed hun hchange.sameMounts ?_ (fun {e} hlive he => ?_) ?_
    · cases priv <;> rfl
    · refine get_detach_isSome ?_ (fun h => he (by simp [h]))
      simp only [State.freeChildren, get_foldl_free, hchildren]
      rw [if_neg (fun h => he (List.mem_cons_of_mem _ h))]
      cases priv <;> exact hlive
    · have hne := (unreferenced_iff.mp hun).2.2.2
      rw [hrem.node.id] at hne
      intro j x dj hj hdj
      cases priv with
      | some priv =>
        have hkeep : InodesKeep s.inodes (s.inodes.modify i fun x => { x with priv }) :=
          .modify fun _ => ⟨rfl, .inl rfl⟩
        obtain ⟨x', hx', hdj', hk⟩ := hkeep.pending hj hdj
        obtain ⟨hnot, dir', hdir', hdk⟩ := hr.pending hx' hdj'
        exact ⟨hk ▸ hnot, hkeep.dir hdir' hdk⟩
      | none =>
        have hj := get_of_get_free hj
        obtain ⟨hnot, dir', hdir', hdk⟩ := hr.pending hj hdj
        refine ⟨hnot, dir', ?_, hdk⟩
        have hdi : dj ≠ i := fun h => hne j x hj (by simp [hdj]) (by rw [hdj, h])
        exact (get_free_of_ne hdi).trans hdir'

theorem isSome_attachChild {p e : ℕ} {name : Name} (h : (s.dentries.get e).isSome) :
    ((s.attachChild p name i).dentries.get e).isSome := by
  obtain ⟨dn, hdn⟩ := Option.isSome_iff_exists.mp h
  rw [get_attachChild_old (lt_next hdn).ne, hdn]
  rfl

theorem Change.refs (h : Change drv c unreferenced s t) (hr : Refs s) : Refs t := by
  have hm := h.sameMounts
  cases h with
  | fill h =>
    obtain ⟨p, name, node, -, -, rfl⟩ := h
    exact hr.keep hm isSome_attachChild .inl (.alloc rfl)
  | vol v => exact hr.keep hm id .inl (.refl _)
  | make _ _ _ h =>
    obtain ⟨-, -, node, v, -, -, rfl⟩ := h
    exact hr.keep hm isSome_attachChild .inl (.alloc rfl)
  | link _ _ _ h =>
    obtain ⟨-, -, i, ino, op, priv, v, -, -, -, -, rfl⟩ := h
    exact hr.keep hm isSome_attachChild .inl (.modify fun _ => ⟨rfl, .inl rfl⟩)
  | remove hdir hkind hrem h hgd => exact hr.remove hdir hkind hrem h hgd
  | rename h =>
    obtain ⟨dir, d, i, ino, op, priv, v, -, -, -, -, -, -, -, -, -, rfl⟩ := h
    exact hr.keep hm (fun h => isSome_get_modify.trans h) .inl
      (.modify fun _ => ⟨rfl, .inl rfl⟩)
  | move _ h =>
    obtain ⟨_, _, d, i, ino, op, priv, v, -, -, -, -, -, -, -, -, -, -, -, -, -, -, -, -, -, rfl⟩ := h
    refine hr.keep hm (fun h => ?_) .inl (.modify fun _ => ⟨rfl, .inl rfl⟩)
    simp only [State.moveDentry, State.modDentry, isSome_get_modify]
    exact h
  | truncate i =>
    refine hr.keep hm id .inl (.modify fun x => ?_)
    split <;> exact ⟨rfl, .inl rfl⟩
  | opened flags vpath h =>
    obtain ⟨dn, hdn, -⟩ := h.get
    refine hr.keep hm id (fun {f file} hget => ?_) (.modify fun _ => ⟨rfl, .inl rfl⟩)
    have hget : (s.files.alloc _).get f = some file := hget
    rw [get_alloc] at hget
    split at hget
    · cases hget
      exact .inr (show (s.dentries.get _).isSome by simp [hdn])
    · exact .inl hget
  | closed f =>
    have hkeep := vfsClose_inodesKeep drv hr f
    obtain ⟨h, v, m, -, heq⟩ := vfsClose_frame drv (s := s) f
    rw [heq] at hm hkeep ⊢
    exact hr.keep hm id (fun hget => .inl (get_of_get_free hget)) hkeep

inductive RefCall where
  | tree (call : Call)
  | bind (src tgt : Path)
  | unbind (fuel : ℕ) (tgt : Path)

def refStep (drv : Drivers ψ) (s : State ψ) : Caller × RefCall → State ψ
  | (c, .tree call) => call.run drv c s
  | (c, .bind src tgt) => (vfsBind drv c s src tgt).2
  | (c, .unbind fuel tgt) => (vfsUnbind drv c fuel s tgt).2

-- Nothing points at an entry removed by an unlink or the unbind of an anonymous filesystem.
def careful (drv : Drivers ψ) (s : State ψ) : Caller × RefCall → Bool
  | (c, .tree call) => call.guarded drv c unreferenced s
  | (_, .bind _ _) => true
  | (c, .unbind fuel tgt) =>
    match bindTarget drv c s tgt with
    | (none, _) => true
    | (some target, s1) =>
      match s1.boundFor c.mntns target with
      | none => true
      | some source =>
        match (s1.dentryPath c source).filter isAnon with
        | none => true
        | some anon => recursiveGuarded drv c unreferenced fuel (s1.removeBind target) anon

theorem Changes.refs (h : Changes drv c unreferenced s t) (hr : Refs s) : Refs t :=
  h.inv (fun ha hab => hab.refs ha) hr

theorem mem_dropBind {target : ℕ} {b : ℕ × ℕ} (h : b ∈ s.dropBind target) : b ∈ s.binds := by
  unfold State.dropBind at h
  split at h
  next j last _ hlast =>
    rcases List.mem_or_eq_of_mem_set ((List.dropLast_subset _) h) with hmem | rfl
    · exact hmem
    · exact List.mem_of_getLast? hlast
  · exact h

theorem Refs.removeBind (hr : Refs s) (target : ℕ) : Refs (s.removeBind target) := by
  have hlive : ∀ e, ((s.removeBind target).dentries.get e).isSome = (s.dentries.get e).isSome :=
    fun _ => isSome_get_modify
  refine ⟨fun hget => ?_, fun {x dn e} hget he => ?_, fun b hb => ?_, hr.pending⟩
  · rw [hlive]
    exact hr.file hget
  · rw [hlive]
    obtain ⟨dn', -, -, rfl⟩ | ⟨-, hget⟩ := get_modify_cases hget
    · cases he
    · exact hr.bound hget he
  · rw [hlive]
    exact hr.binds b (mem_dropBind hb)

theorem Refs.installBind (hr : Refs s) (m : ℕ) {target source : ℕ}
    (hsource : (s.dentries.get source).isSome) : Refs (s.installBind m target source) := by
  have hlive : ∀ e, ((s.installBind m target source).dentries.get e).isSome =
      (s.dentries.get e).isSome := fun _ => isSome_get_modify
  refine ⟨fun hget => ?_, fun {x dn e} hget he => ?_, fun b hb => ?_, hr.pending⟩
  · rw [hlive]
    exact hr.file hget
  · rw [hlive]
    obtain ⟨dn', -, -, rfl⟩ | ⟨-, hget⟩ := get_modify_cases hget
    · cases he
      exact hsource
    · exact hr.bound hget he
  · rw [hlive]
    rcases List.mem_append.mp hb with hb | hb
    · exact hr.binds b hb
    · rw [List.mem_singleton.mp hb]
      exact hsource

theorem refs_step {a : Caller × RefCall} (hb : Bounded s) (hr : Refs s)
    (hbase : s.base a.1 < s.dentries.next) (h : careful drv s a = true) :
    Bounded (refStep drv s a) ∧ Refs (refStep drv s a) := by
  obtain ⟨c, call⟩ := a
  have hg : Grounded c s := ⟨hb, hbase⟩
  cases call with
  | tree call =>
    have hch : Changes drv c unreferenced s (call.run drv c s) := Call.changes h
    exact ⟨hch.bounded hb, hch.refs hr⟩
  | bind src tgt =>
    have hf := bindPaths_fills drv c s src tgt
    have hb1 := Fills.bounded hf hb
    have hr1 := (Fills.changes (c := c) (G := unreferenced) hf).refs hr
    simp only [refStep, vfsBind]
    rcases hp : bindPaths drv c s src tgt with ⟨⟨_ | source, _ | target⟩, s1⟩ <;>
      simp only [hp] at hb1 hr1 ⊢
    · exact ⟨hb1, hr1⟩
    · exact ⟨hb1, hr1⟩
    · exact ⟨hb1, hr1⟩
    · obtain hsame | ⟨hnew, hsource, -⟩ := bindDentries_cases (c := c) (s := s1) source target
      · rw [hsame]
        exact ⟨hb1, hr1⟩
      · rw [hnew]
        obtain ⟨sn, hsn⟩ := Option.isSome_iff_exists.mp hsource
        exact ⟨hb1.installBind _ (lt_next hsn), hr1.installBind _ hsource⟩
  | unbind fuel tgt =>
    have hf := bindTarget_fills drv c s tgt
    have hg1 := Fills.grounded hf hg
    have hr1 := (Fills.changes (c := c) (G := unreferenced) hf).refs hr
    simp only [careful] at h
    simp only [refStep, vfsUnbind]
    rcases ht : bindTarget drv c s tgt with ⟨_ | target, s1⟩ <;> simp only [ht] at hg1 hr1 h ⊢
    · exact ⟨hg1.bounded, hr1⟩
    · cases hbound : s1.boundFor c.mntns target with
      | none => exact ⟨hg1.bounded, hr1⟩
      | some source =>
        have hb2 := hg1.bounded.removeBind target
        have hr2 := hr1.removeBind target
        simp only [hbound] at h
        cases hanon : (s1.dentryPath c source).filter isAnon with
        | none => simpa only [hanon] using ⟨hb2, hr2⟩
        | some anon =>
          simp only [hanon] at h ⊢
          have hch := vfsUnlinkRecursive_changes h
          exact ⟨hch.bounded hb2, hch.refs hr2⟩

-- No pointer of the object graph dangles, in any run that removes nothing a pointer is left to.
theorem noDangling_of_careful (hb : Bounded s) (hr : Refs s) (calls : List (Caller × RefCall))
    (hlegal : Allowed (refStep drv) (fun s a => s.base a.1 < s.dentries.next) s calls)
    (hcareful : Allowed (refStep drv) (fun s a => careful drv s a = true) s calls) :
    Always (refStep drv) NoDangling s calls := by
  refine always_of_allowed (fun s a hi hok => ?_) (fun s (hi : Bounded s ∧ Refs s) => hi.2.noDangling)
    ⟨hb, hr⟩ (hlegal.and hcareful)
  exact refs_step hi.1 hi.2 hok.1 hok.2

theorem refs_bootTree (v : ψ) : Refs (bootTree v) := by
  have hd : (bootTree ()).dentries.All fun _ dn => dn.bound = none := by decide
  have hi : (bootTree ()).inodes.All fun _ ino => ino.unlinkDir = none := by decide
  refine ⟨(fun hget => by cases hget), fun {d dn e} hget he => ?_, (fun b hb => by cases hb),
    fun {i ino di} hget hdi => ?_⟩
  · rw [hd d dn hget] at he
    cases he
  · rw [hi i ino hget] at hdi
    cases hdi

def carefulCalls : List (Caller × RefCall) :=
  [(kernelTask, .tree (.openFile "/etc/f".toList { wronly := true, create := true })),
    (kernelTask, .tree (.link "/etc/f".toList "/tmp/g".toList)),
    (kernelTask, .bind "/tmp".toList "/mnt".toList),
    (kernelTask, .tree (.close 0)),
    (kernelTask, .tree (.unlink "/etc/f".toList)),
    (kernelTask, .unbind 4 "/mnt".toList),
    (kernelTask, .tree (.rename "/tmp/g".toList "/tmp/h".toList)),
    (kernelTask, .tree (.unlink "/tmp/h".toList)),
    (kernelTask, .tree (.unlink "/tmp".toList))]

theorem carefulCalls_noDangling :
    Always (refStep noVolumes) NoDangling (bootTree ()) carefulCalls :=
  noDangling_of_careful (bounded_bootTree ()) (refs_bootTree ()) carefulCalls (by decide +kernel)
    (by decide +kernel)

-- A file is unlinked while it is open: the open file keeps the freed dentry.
def unlinkOpenCalls : List (Caller × RefCall) :=
  [(kernelTask, .tree (.openFile "/etc/f".toList { wronly := true, create := true })),
    (kernelTask, .tree (.unlink "/etc/f".toList))]

theorem unlinkOpenCalls_dangling :
    Allowed (refStep noVolumes) (fun s a => s.base a.1 < s.dentries.next) (bootTree ())
        unlinkOpenCalls ∧
      ¬Always (refStep noVolumes) NoDangling (bootTree ()) unlinkOpenCalls := by
  refine ⟨by decide +kernel, fun h => ?_⟩
  have hlast := h.2.2.1 0 { inode := 6, dentry := 6, flags := { wronly := true, create := true } }
    (by decide +kernel)
  revert hlast
  decide +kernel

end DosKernel.Vfs

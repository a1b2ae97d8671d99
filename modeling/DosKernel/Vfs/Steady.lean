import DosKernel.Vfs.Counts

namespace DosKernel.Vfs

open DosKernel.Lib Relation Option State Heap

variable {ψ : Type} {drv : Drivers ψ} {c : Caller} {s t u : State ψ} {p d e x i j : ℕ}
  {name : Name} {dir ino : Inode}

-- The volumes make plain nodes and no second names, and leave the inodes of ramfs alone.
structure Volumes (drv : Drivers ψ) : Prop where
  plain : ∀ k, (drv k).Plain
  link : ∀ k, (drv k).link = none
  unlink : ∀ {k op v dir name child}, (drv k).unlink = some op → child.driver = .ramfs →
    (op v dir name child).1 ≠ 0

theorem Volumes.opsOf_plain (hv : Volumes drv) (driver : Driver) : (opsOf drv driver).Plain := by
  cases driver with
  | ramfs => exact ramfsOps_plain ψ
  | vol k => exact hv.plain k

structure Books (s : State ψ) : Prop where
  shape : Shape s
  counts : Counts s

structure Steady (s t : State ψ) : Prop where
  files : t.files = s.files
  mounts : t.mounts = s.mounts
  next : s.dentries.next ≤ t.dentries.next
  inext : s.inodes.next ≤ t.inodes.next
  mountOf : ∀ {x}, x < s.dentries.next → t.mountOf x = s.mountOf x ∨ t.mountOf x = none
  gone : ∀ {i}, i < s.inodes.next → s.inodes.get i = none →
    t.inodes.get i = none ∧ t.names i ≤ s.names i

def Keeps (s t : State ψ) : Prop :=
  ∀ {i ino}, s.inodes.get i = some ino → ∃ ino', t.inodes.get i = some ino' ∧ ino'.driver = ino.driver

theorem keeps_modify {f : Inode → Inode} (hi : t.inodes = s.inodes.modify i f)
    (hf : ∀ ino, (f ino).driver = ino.driver) : Keeps s t := fun {j ino} hget => by
  rw [hi, get_modify, hget]
  split
  · exact ⟨f ino, rfl, hf ino⟩
  · exact ⟨ino, rfl, rfl⟩

theorem Steady.refl (s : State ψ) : Steady s s :=
  ⟨rfl, rfl, le_rfl, le_rfl, fun _ => .inl rfl, fun _ h => ⟨h, le_rfl⟩⟩

theorem Steady.trans (h : Steady s t) (h' : Steady t u) : Steady s u where
  files := h'.files.trans h.files
  mounts := h'.mounts.trans h.mounts
  next := h.next.trans h'.next
  inext := h.inext.trans h'.inext
  mountOf {x} hx := by
    obtain h1 | h1 := h'.mountOf (hx.trans_le h.next)
    · obtain h2 | h2 := h.mountOf hx
      · exact .inl (h1.trans h2)
      · exact .inr (h1.trans h2)
    · exact .inr h1
  gone hi hget := by
    obtain ⟨h1, h2⟩ := h.gone hi hget
    obtain ⟨h3, h4⟩ := h'.gone (hi.trans_le h.inext) h1
    exact ⟨h3, h4.trans h2⟩

theorem mountOf_of_dead (hp : SamePlaces s t) (hx : x < s.dentries.next)
    (hle : s.dentries.next ≤ t.dentries.next) (ht : t.dentries.get x = none) :
    t.mountOf x = s.mountOf x ∨ t.mountOf x = none := by
  obtain ⟨n, hn⟩ : ∃ n, s.dentries.next = n + 1 := ⟨s.dentries.next - 1, by omega⟩
  obtain ⟨k, hk⟩ : ∃ k, t.dentries.next = k + 1 := ⟨t.dentries.next - 1, by omega⟩
  rw [mountOf, mountOf, hn, hk, mountFrom, mountFrom, hp.findIdx, ht]
  cases s.mounts.findIdx? (fun m => decide (m.mp = x)) with
  | none => exact .inr rfl
  | some m => exact .inl rfl

theorem Touches.steady (h : Touches s t i) (hnext : s.dentries.next ≤ t.dentries.next)
    (hi : i < s.inodes.next → (s.inodes.get i).isSome)
    (hsame : ∀ {x}, x < s.dentries.next → (t.dentries.get x).isSome → t.mountOf x = s.mountOf x) :
    Steady s t where
  files := h.files
  mounts := h.mounts
  next := hnext
  inext := h.next
  mountOf {x} hx := by
    cases hget : t.dentries.get x with
    | some dn => exact .inl (hsame hx (by simp [hget]))
    | none => exact mountOf_of_dead (.of_eq h.mounts) hx hnext hget
  gone {j} hj hget := by
    have hne : j ≠ i := fun hji => by simpa [← hji, hget] using hi (hji ▸ hj)
    rw [h.inode hne, h.names hne]
    exact ⟨hget, le_rfl⟩

theorem steady_inodes (hd : t.dentries = s.dentries) (hfiles : t.files = s.files)
    (hm : t.mounts = s.mounts) (hnext : t.inodes.next = s.inodes.next)
    (hgone : ∀ {j}, s.inodes.get j = none → t.inodes.get j = none) : Steady s t where
  files := hfiles
  mounts := hm
  next := hd ▸ le_rfl
  inext := hnext.ge
  mountOf _ := .inl (mountOf_of_dentries hd (.of_eq hm) _)
  gone _ hget := ⟨hgone hget, by rw [names, hd]; exact le_rfl⟩

theorem books_attached (hb : Books s) (hdir : s.inodeOf p = some dir) (hkind : dir.kind = .dir)
    (hd : t.dentries = (s.attachChild p name i).dentries) (h : Touches s t i) (hbt : Bounded t)
    (htree : Tree t) (hget : t.inodes.get i = some ino) (hdriver : ino.driver = dir.driver)
    (hfrom : (∃ old, s.inodes.get i = some old ∧ ino.form = old.form) ∨
      i = s.inodes.next ∧ ino.toNode.Plain)
    (hcounted : Counted t i ino) (hcov : s.covers i = false) : Books t ∧ Steady s t ∧ Keeps s t := by
  have hi : ∀ {a}, t.inodes.get i = some a → a = ino := fun ha => some.inj (ha.symm.trans hget)
  obtain ⟨hshape, hsame⟩ := hb.shape.attached (h.inodesFrom fun ha => hi ha ▸ hfrom) hdir hkind hd
    (.of_eq h.mounts) hbt htree fun ha _ _ => hi ha ▸ hdriver
  refine ⟨⟨hshape, h.counts hb.counts (fun ha => hi ha ▸ hcounted) fun hc => ?_⟩,
    h.steady (by rw [hd]; exact Nat.le_succ _) (fun hlt => ?_) fun {x} hx hlive => hsame ?_,
    fun {j a} ha => ?_⟩
  · cases hcov.symm.trans hc
  · obtain ⟨old, hold, -⟩ | ⟨hnew, -⟩ := hfrom
    · simp [hold]
    · exact absurd hlt (by omega)
  · rwa [hd, get_attachChild_old hx.ne, isSome_map] at hlive
  · by_cases hji : j = i
    · subst hji
      obtain ⟨old, hold, hform⟩ | ⟨hnew, -⟩ := hfrom
      · cases ha.symm.trans hold
        exact ⟨ino, hget, Inode.form_driver hform⟩
      · exact absurd (lt_next ha) (by omega)
    · exact ⟨a, (h.inode hji).trans ha, rfl⟩

theorem books_attachNew (hb : Books s) (hdir : s.inodeOf p = some dir) (hkind : dir.kind = .dir)
    (hd : t.dentries = (s.attachChild p name s.inodes.next).dentries)
    (hi : t.inodes = s.inodes.alloc ino) (hfiles : t.files = s.files) (hm : t.mounts = s.mounts)
    (hbt : Bounded t) (htree : Tree t) (hplain : ino.toNode.Plain) (hdriver : ino.driver = dir.driver)
    (hopens : ino.opens = 0) (hpend : ino.unlinkDir = none)
    (hram : ino.driver = .ramfs → ino.kind ≠ .device ∧ ino.owed = 1) :
    Books t ∧ Steady s t ∧ Keeps s t := by
  have h : Touches s t s.inodes.next := by
    exact ⟨hfiles, hm, hi ▸ Nat.le_succ _, fun hj => hi ▸ get_alloc_of_ne hj, names_attached_of_ne hd⟩
  have hbounded := hb.shape.forest.bounded
  have hfresh : s.names s.inodes.next = 0 := count_eq_zero fun k dn hget => by
    simp only [decide_eq_false_iff_not]
    exact fun hk => absurd (hbounded.inode hget hk) (lt_irrefl _)
  have hclosed : s.opened s.inodes.next = 0 := count_eq_zero fun k file hget => by
    simp only [decide_eq_false_iff_not]
    exact (hbounded.file hget).2.ne
  refine books_attached hb hdir hkind hd h hbt htree (hi ▸ get_alloc_next) hdriver
    (.inr ⟨rfl, hplain⟩) ⟨?_, fun hne => absurd hpend hne, fun hr _ _ => ?_⟩ ?_
  · rw [hopens, h.opened, hclosed]
  · obtain ⟨hdev, howed⟩ := hram hr
    rw [names_attached hd, hfresh, howed, if_pos rfl]
    exact ⟨hdev, rfl, Nat.one_pos⟩
  · by_contra hcov
    exact absurd (hb.counts.covered (by simpa using hcov)).1 (lt_irrefl _)

theorem Growth.books (hv : Volumes drv) (h : Growth drv c s t) (hb : Books s) :
    Books t ∧ Steady s t ∧ Keeps s t := by
  have hchange : Change drv c (fun _ _ => true) s t := h.change
  have hbt := hchange.bounded hb.shape.forest.bounded
  have htree := hchange.tree hb.shape.forest.tree
  cases h with
  | fill h =>
    obtain ⟨p, name, node, -, hnode, rfl⟩ := h
    obtain ⟨-, dir, look, -, hdir, -, hlook, hnode⟩ := lookupNode_eq_some hnode
    obtain ⟨ops, hops, hlook⟩ := bind_eq_some_iff.mp hlook
    obtain ⟨raw, hraw, rfl⟩ := map_eq_some_iff.mp hnode
    obtain ⟨_, hpnode⟩ := nodeAt_of_inodeOf hdir
    rw [dirOps_eq hops] at hlook
    have hkind : dir.kind = .dir := (hb.shape.plain hpnode.inode).2 (by
      unfold dirOps at hops
      split at hops
      · assumption
      · cases hops)
    refine books_attachNew hb hdir hkind rfl rfl rfl rfl hbt htree
      ((hv.opsOf_plain dir.driver).lookup hlook hraw) rfl rfl rfl fun hram => ?_
    -- ramfs answers no lookups
    rw [show dir.driver = .ramfs from hram] at hlook
    cases hlook
  | vol v =>
    exact ⟨⟨hb.shape.of_dentries (inodesFrom_of_eq rfl) rfl rfl hbt,
      hb.counts.of_opens rfl rfl le_rfl fun hget => ⟨_, hget, id, fun _ => le_rfl, rfl, rfl, rfl⟩⟩,
      steady_inodes rfl rfl rfl rfl id, fun hget => ⟨_, hget, rfl⟩⟩
  | make hdir hkind hlen h =>
    obtain ⟨-, -, node, v, hram, hplain, rfl⟩ := h
    refine books_attachNew hb hdir hkind rfl rfl rfl rfl hbt htree
      (hplain (hv.opsOf_plain _)) rfl rfl rfl fun hdriver => ?_
    obtain hmade | ⟨hmade, hlink⟩ := hram hdriver
    · exact ⟨by simp [hmade], by simp [Inode.owed, hmade]⟩
    · have hne : node.kind ≠ .dir ∧ node.kind ≠ .device := by
        obtain h | h | h := hmade <;> simp [h]
      exact ⟨hne.2, by simp [Inode.owed, hne.1, hlink]⟩
  | truncate i =>
    have hform : ∀ ino : Inode, (if ino.kind = .file then
        { ino with priv := { ino.priv with data := [] } } else ino).form = ino.form := fun ino => by
      split <;> rfl
    refine ⟨⟨hb.shape.of_dentries (inodesFrom_modify rfl hform) rfl rfl hbt,
      hb.counts.of_opens rfl rfl le_rfl fun {j ino} hj => ?_⟩,
      steady_inodes rfl rfl rfl rfl fun {j} hj => ?_, keeps_modify rfl fun _ => ?_⟩
    · obtain ⟨old, -, hold, rfl⟩ | ⟨-, hj⟩ := get_modify_cases hj
      · refine ⟨old, hold, ?_⟩
        split <;> exact ⟨id, fun _ => le_rfl, rfl, rfl, rfl⟩
      · exact ⟨ino, hj, id, fun _ => le_rfl, rfl, rfl, rfl⟩
    · rw [State.truncate, State.modInode, get_modify, hj]
      split <;> rfl
    · exact Inode.form_driver (hform _)

theorem Keeps.trans (h : Keeps s t) (h' : Keeps t u) : Keeps s u := fun hget => by
  obtain ⟨a, ha, hdriver⟩ := h hget
  obtain ⟨b, hb, hdriver'⟩ := h' ha
  exact ⟨b, hb, hdriver'.trans hdriver⟩

theorem Grows.books (hv : Volumes drv) (h : Grows drv c s t) (hb : Books s) :
    Books t ∧ Steady s t ∧ Keeps s t := by
  induction h with
  | refl => exact ⟨hb, .refl s, fun hget => ⟨_, hget, rfl⟩⟩
  | tail _ hstep ih =>
    obtain ⟨hb', hsteady, hkeeps⟩ := ih
    obtain ⟨hb'', hsteady', hkeeps'⟩ := hstep.books hv hb'
    exact ⟨hb'', hsteady.trans hsteady', hkeeps.trans hkeeps'⟩

theorem Links.books {src : ℕ} (hv : Volumes drv) (h : Links drv c s src p dir name t)
    (hdir : s.inodeOf p = some dir) (hkind : dir.kind = .dir) (hlen : name.length ≤ nameMax)
    (hb : Books s) : Books t ∧ Steady s t ∧ Keeps s t := by
  have hchange : Change drv c (fun _ _ => true) s t := .link hdir hkind hlen h
  have hbt := hchange.bounded hb.shape.forest.bounded
  have htree := hchange.tree hb.shape.forest.tree
  obtain ⟨-, -, i, ino, op, priv, v, hnode, htable, hop, hr, rfl⟩ := h
  obtain ⟨ops, hops, hop⟩ := bind_eq_some_iff.mp hop
  -- only ramfs has the operation
  have hram : dir.driver = .ramfs := by
    rw [dirOps_eq hops] at hop
    cases hd : dir.driver with
    | ramfs => rfl
    | vol k =>
      rw [hd] at hop
      exact absurd hop (by simp [opsOf, hv.link k])
  obtain rfl := dirOps_ramfs hops hram
  cases hop
  dsimp only at hr
  split at hr
  next hfile =>
    cases hr
    obtain ⟨dn, hdn, hi⟩ := hnode.get
    -- the file is on the filesystem of the directory it is in, which is ramfs as well
    have hdriver : ino.driver = dir.driver := by
      obtain ⟨qdir, hq, hsame⟩ := map_eq_some_iff.mp htable
      obtain ⟨q, hq', hqdir⟩ := bind_eq_some_iff.mp hq
      rw [hdn, bind_some] at hq'
      rw [hb.shape.driver hdn hq' hnode.inodeOf (by simp [hfile]) (by simp [hfile]) hqdir]
      unfold dirOps at hops
      split at hops
      next htrue =>
        simp only [opsTable, htrue, if_true] at hsame
        split at hsame
        · exact some.inj hsame
        · cases hsame
      · cases hops
    have hnamed : 0 < s.names i := count_pos hdn (by simp [hi])
    have hcov : s.covers i = false := by
      by_contra hcov
      have := (hb.counts.covered (by simpa using hcov)).2
      omega
    obtain ⟨hco, hcp, hcn⟩ := hb.counts.live hnode.inode
    obtain ⟨t, ht, hd, htouch, hget⟩ : ∃ t, t = ((s.setVol s.vol).modInode i fun x =>
        { x with priv := { ino.priv with nlink := ino.priv.nlink + 1 } }).attachChild p name i ∧
        t.dentries = (s.attachChild p name i).dentries ∧ Touches s t i ∧ t.inodes.get i =
          some { ino with priv := { ino.priv with nlink := ino.priv.nlink + 1 } } := by
      exact ⟨_, rfl, rfl, ⟨rfl, rfl, le_rfl, get_modify_of_ne, names_attached_of_ne rfl⟩,
        get_modify_self.trans (congrArg (Option.map _) hnode.inode)⟩
    rw [← ht] at hbt htree ⊢
    refine books_attached hb hdir hkind hd htouch hbt htree hget hdriver
      (.inl ⟨ino, hnode.inode, rfl⟩) ⟨hco.trans (htouch.opened i).symm, hcp, fun hr hu _ => ?_⟩ hcov
    obtain ⟨hdev, hn, -⟩ := hcn hr hu hcov
    refine ⟨hdev, ?_, by simp [Inode.owed, hfile]⟩
    rw [names_attached hd, if_pos rfl, hn]
    simp [Inode.owed, hfile]
  · cases hr

-- A freed inode has no name and no open file, unless it is an open directory: `vfs_unlink` asks
-- only files whether they are open.
def Spent (dir : Inode) (t : State ψ) (i : InodeId) (ino : Inode) : Prop :=
  t.inodes.get i = none → ino.driver = .ramfs →
    (dir.driver = .ramfs → ino.kind = .dir → ino.opens = 0) → t.names i = 0 ∧ t.opened i = 0

theorem rfsUnlink_some {pr : Private} (h : rfsUnlink ino = some pr) :
    ({ ino with priv := pr } : Inode).owed + 1 = ino.owed ∧ 0 < ({ ino with priv := pr } : Inode).owed := by
  unfold rfsUnlink at h
  split at h
  next hmore =>
    cases h
    have hkind : ino.kind ≠ .dir := by
      rintro h
      simp [h] at hmore
    simp only [Inode.owed, hkind, if_false]
    omega
  · cases h

theorem rfsUnlink_none (h : rfsUnlink ino = none) (hdev : ino.kind ≠ .device) : ino.owed ≤ 1 := by
  unfold rfsUnlink at h
  split at h
  · cases h
  next hlast =>
    unfold Inode.owed
    split
    · exact le_rfl
    next hnd =>
      have hk : ino.kind = .file ∨ ino.kind = .symlink ∨ ino.kind = .fifo := by
        cases hk : ino.kind <;> simp_all
      by_contra hlt
      exact hlast ⟨hk, by omega⟩

-- A removal is noted for later, or settled by the driver's answer.
theorem Removes.touches (hv : Volumes drv) (h : Removes drv s p dir name d i ino t)
    (hrem : Removable c s p dir name d i ino) (hleaf : s.children d = []) :
    t.dentries = (s.detach p d).dentries ∧ Touches s t i ∧
      ((∃ di, t.inodes.get i = some { ino with unlinkDir := some di, unlinkName := name }) ∧
          ino.kind ≠ .dir ∧ 0 < ino.opens ∨
        ∃ priv, t.inodes.get i = priv.map (fun priv => { ino with priv }) ∧
          (ino.kind = .dir ∨ ino.opens = 0) ∧
          (ino.driver = .ramfs → dir.driver = .ramfs ∧ priv = rfsUnlink ino)) := by
  obtain ⟨dn, hdn, hid⟩ := hrem.node.get
  have hnames : ∀ {t : State ψ}, t.dentries = (s.detach p d).dentries → ∀ {j}, j ≠ i →
      t.names j = s.names j := by
    intro t hd j hj
    have hnames := names_detached hdn hd j
    rwa [hid, if_neg (fun h => hj (some.inj h).symm)] at hnames
  cases h with
  | @later di hdi hfile hopen =>
    refine ⟨rfl, ⟨rfl, rfl, le_rfl, get_modify_of_ne, hnames rfl⟩, .inl ⟨⟨di, ?_⟩, hfile, hopen⟩⟩
    exact get_modify_self.trans (congrArg (Option.map _) hrem.node.inode)
  | @now op priv v hidle hop hr =>
    have hown : ino.driver = .ramfs → dir.driver = .ramfs ∧ priv = rfsUnlink ino := by
      intro hdriver
      obtain ⟨ops, hops, hop⟩ := bind_eq_some_iff.mp hop
      rw [dirOps_eq hops] at hop
      cases hd : dir.driver with
      | ramfs =>
        rw [hd] at hop
        cases hop
        cases hr
        exact ⟨rfl, rfl⟩
      | vol k =>
        rw [hd] at hop
        have hne : (op s.vol dir name ino).1 ≠ 0 := hv.unlink hop hdriver
        rw [hr] at hne
        exact absurd rfl hne
    have hnofree : ((s.setVol v).settleInode i priv).freeChildren d =
        (s.setVol v).settleInode i priv := by
      have hnil : ((s.setVol v).settleInode i priv).children d = [] := by
        cases priv <;> exact hleaf
      rw [freeChildren, hnil]
      rfl
    rw [hnofree]
    cases priv with
    | none =>
      exact ⟨rfl, ⟨rfl, rfl, le_rfl, get_free_of_ne, hnames rfl⟩, .inr ⟨none, get_free_self, hidle, hown⟩⟩
    | some pr =>
      refine ⟨rfl, ⟨rfl, rfl, le_rfl, get_modify_of_ne, hnames rfl⟩, .inr ⟨some pr, ?_, hidle, hown⟩⟩
      exact get_modify_self.trans (congrArg (Option.map _) hrem.node.inode)

theorem Removes.books (hv : Volumes drv) (h : Removes drv s p dir name d i ino t)
    (hrem : Removable c s p dir name d i ino) (hdir : s.inodeOf p = some dir)
    (hkind : dir.kind = .dir) (hb : Books s) :
    Books t ∧ Steady s t ∧ Spent dir t i ino ∧
      ∀ {j a}, s.inodes.get j = some a → j ≠ i → ∃ b, t.inodes.get j = some b ∧ b.driver = a.driver := by
  have hchange : Change drv c (fun _ _ => true) s t := .remove hdir hkind hrem h rfl
  have hbt := hchange.bounded hb.shape.forest.bounded
  have htree := hchange.tree hb.shape.forest.tree
  have hleaf : s.children d = [] := by
    by_cases hdk : ino.kind = .dir
    · obtain h | h := hrem.empty hdk
      · exact h
      · exact absurd h (by simp [(hb.shape.plain hrem.node.inode).1])
    · exact hb.shape.leaf hrem.node.inodeOf hdk
  obtain ⟨hd, ht, hi⟩ := h.touches hv hrem hleaf
  obtain ⟨dn, hdn, hid⟩ := hrem.node.get
  obtain ⟨hco, hcp, hcn⟩ := hb.counts.live hrem.node.inode
  have hnames := names_detached hdn hd i
  rw [hid, if_pos rfl] at hnames
  have hcov : s.covers i = false := by
    by_contra hne
    have := (hb.counts.covered (by simpa using hne)).2
    omega
  have hleft : ∀ {a}, t.inodes.get i = some a → Counted t i a ∧ a.form = ino.form := by
    intro a ha
    obtain ⟨⟨di, hdi⟩, hfile, hopen⟩ | ⟨priv, hpriv, -, hown⟩ := hi
    · cases ha.symm.trans hdi
      exact ⟨⟨hco.trans (ht.opened i).symm, fun _ => ⟨hfile, hopen⟩, fun _ hu => by cases hu⟩, rfl⟩
    · obtain ⟨pr, rfl, rfl⟩ := map_eq_some_iff.mp (hpriv.symm.trans ha)
      refine ⟨⟨hco.trans (ht.opened i).symm, hcp, fun hr hu _ => ?_⟩, rfl⟩
      obtain ⟨hdev, hn, -⟩ := hcn hr hu hcov
      obtain ⟨howed, hpos⟩ := rfsUnlink_some (hown hr).2.symm
      exact ⟨hdev, by omega, hpos⟩
  obtain ⟨hshape, hsame⟩ := hb.shape.detached
    (ht.inodesFrom fun ha => .inl ⟨ino, hrem.node.inode, (hleft ha).2⟩) hleaf hd (.of_eq ht.mounts) hbt htree
  refine ⟨⟨hshape, ht.counts hb.counts (fun ha => (hleft ha).1) fun hc => ?_⟩,
    ht.steady (by rw [hd]; exact le_rfl) (fun _ => by simp [hrem.node.inode]) fun _ => hsame,
    fun hgone hdriver hdopen => ?_, fun {j a} hj hne => ⟨a, (ht.inode hne).trans hj, rfl⟩⟩
  · cases hcov.symm.trans hc
  · obtain ⟨⟨di, hdi⟩, -⟩ | ⟨priv, hpriv, hidle, hown⟩ := hi
    · cases hgone.symm.trans hdi
    obtain ⟨hdirRam, hunlink⟩ := hown hdriver
    have hopens : ino.opens = 0 := hidle.elim (hdopen hdirRam) id
    have hpend : ino.unlinkDir = none := by
      by_contra hne
      have := (hcp hne).2
      omega
    obtain ⟨hdev, howed, -⟩ := hcn hdriver hpend hcov
    have hone := rfsUnlink_none (hunlink ▸ map_eq_none_iff.mp (hpriv.symm.trans hgone)) hdev
    refine ⟨by omega, ?_⟩
    rw [ht.opened]
    exact hco.symm.trans hopens

end DosKernel.Vfs

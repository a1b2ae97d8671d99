import DosKernel.Lib.Run
import DosKernel.Vfs.Checks

namespace DosKernel.Vfs

open DosKernel.Lib Relation Heap Option Bool State

variable {ψ : Type} {drv : Drivers ψ} {c : Caller} {s t : State ψ} {i f : ℕ} {ino : Inode}

inductive FileCall where
  | openFile (path : Path) (flags : OpenFlags)
  | link (old new : Path)
  | unlink (path : Path)
  | close (f : FileId)

def FileCall.run (drv : Drivers ψ) (c : Caller) (s : State ψ) : FileCall → State ψ
  | .openFile path flags => (vfsOpen drv c s path flags).2
  | .link old new => (vfsLink drv c s old new).2
  | .unlink path => (vfsUnlink drv c s path).2
  | .close f => (vfsClose drv s f).2

-- A tree with the mount each open file was opened on and the inodes of ramfs that were freed.
structure FileLedger (ψ : Type) where
  st : State ψ
  home : FileId → Option ℕ
  freed : InodeId → Bool

def FileLedger.next (l : FileLedger ψ) (t : State ψ) : FileLedger ψ where
  st := t
  home f :=
    match l.st.files.get f, t.files.get f with
    | none, some file => t.mountOf file.dentry
    | _, _ => l.home f
  freed i := l.freed i ||
    (l.st.inodes.get i).any (fun ino => decide (ino.driver = .ramfs)) && (t.inodes.get i).isNone

def fileStep (drv : Drivers ψ) (l : FileLedger ψ) (a : Caller × FileCall) : FileLedger ψ :=
  l.next (a.2.run drv a.1 l.st)

-- Each mount counts its open files, and ramfs keeps an inode exactly while it has a name or an
-- open file, or is covered by a mount.
structure Accounted (l : FileLedger ψ) : Prop where
  openFiles : ∀ {m mt}, l.st.mounts[m]? = some mt →
    mt.openFiles = l.st.files.count fun f _ => decide (l.home f = some m)
  kept : ∀ {i ino}, l.st.inodes.get i = some ino → ino.driver = .ramfs →
    0 < l.st.names i ∨ 0 < l.st.opened i ∨ l.st.covers i = true
  freed : ∀ {i}, l.freed i = true → l.st.names i = 0 ∧ l.st.opened i = 0

-- No open directory of ramfs is removed, and no file closed that was unlinked while open or whose
-- entry no longer leads to a mount.
def balanced (drv : Drivers ψ) (s : State ψ) : Caller × FileCall → Bool
  | (c, .unlink path) =>
    match unlinkTarget drv c s path with
    | (.ok (_, dir, d, _), s1) => !(decide (dir.driver = .ramfs) && (s1.inodeOf d).any fun ino =>
      decide (ino.kind = .dir) && decide (ino.driver = .ramfs) && decide (0 < ino.opens))
    | _ => true
  | (_, .close f) =>
    match s.files.get f with
    | none => true
    | some file => (s.mountOf file.dentry).isSome &&
        ((s.inodes.get file.inode).bind (·.unlinkDir)).isNone
  | _ => true

structure Audited (l : FileLedger ψ) : Prop where
  books : Books l.st
  openFiles : ∀ {m mt}, l.st.mounts[m]? = some mt →
    mt.openFiles = l.st.files.count fun f _ => decide (l.home f = some m)
  homes : ∀ {f file}, l.st.files.get f = some file →
    (∃ m < l.st.mounts.length, l.home f = some m) ∧
      ∀ {m}, l.st.mountOf file.dentry = some m → l.home f = some m
  freed : ∀ {i}, l.freed i = true → i < l.st.inodes.next ∧ l.st.inodes.get i = none ∧
    l.st.names i = 0 ∧ l.st.opened i = 0

variable {l : FileLedger ψ}

section

variable (h : Audited l)

include h

theorem Audited.accounted : Accounted l where
  openFiles := h.openFiles
  kept {i ino} hget hram := by
    obtain ⟨hco, hcp, hcn⟩ := h.books.counts.live hget
    by_cases hpend : ino.unlinkDir = none
    · cases hcov : l.st.covers i with
      | true => exact .inr (.inr rfl)
      | false =>
        obtain ⟨-, hn, hpos⟩ := hcn hram hpend hcov
        exact .inl (by omega)
    · have := (hcp hpend).2
      exact .inr (.inl (by omega))
  freed hi := (h.freed hi).2.2

theorem Audited.freed_next (hinext : l.st.inodes.next ≤ t.inodes.next)
    (hdead : ∀ {i}, i < l.st.inodes.next → l.st.inodes.get i = none →
      t.inodes.get i = none ∧ t.names i ≤ l.st.names i ∧ t.opened i ≤ l.st.opened i)
    (hfreed : ∀ {i ino}, l.st.inodes.get i = some ino → ino.driver = .ramfs →
      t.inodes.get i = none → t.names i = 0 ∧ t.opened i = 0) (hi : (l.next t).freed i = true) :
    i < t.inodes.next ∧ t.inodes.get i = none ∧ t.names i = 0 ∧ t.opened i = 0 := by
  simp only [FileLedger.next, or_eq_true, and_eq_true, isNone_iff_eq_none] at hi
  obtain hi | ⟨hwas, hgone⟩ := hi
  · obtain ⟨hlt, hnone, hn, ho⟩ := h.freed hi
    obtain ⟨hnone', hn', ho'⟩ := hdead hlt hnone
    exact ⟨hlt.trans_le hinext, hnone', by omega, by omega⟩
  · cases hget : l.st.inodes.get i with
    | none => simp [hget] at hwas
    | some ino =>
      exact ⟨(lt_next hget).trans_le hinext, hgone,
        hfreed hget (by simpa [hget] using hwas) hgone⟩

theorem Audited.steady (hs : Steady l.st t) (hb : Books t)
    (hfreed : ∀ {i ino}, l.st.inodes.get i = some ino → ino.driver = .ramfs →
      t.inodes.get i = none → t.names i = 0 ∧ t.opened i = 0) : Audited (l.next t) := by
  have hhome : ∀ {f file}, t.files.get f = some file → (l.next t).home f = l.home f := by
    intro f file hget
    rw [hs.files] at hget
    simp only [FileLedger.next, hs.files, hget]
  refine ⟨hb, fun {m mt} hmt => ?_, fun {f file} hget => ?_, fun {i} hi => ?_⟩
  · have hmt : l.st.mounts[m]? = some mt := hs.mounts ▸ hmt
    rw [h.openFiles hmt]
    show _ = t.files.count _
    rw [hs.files]
    refine count_congr fun f file hget => ?_
    rw [hhome (hs.files ▸ hget)]
  · rw [hhome hget]
    have hold : l.st.files.get f = some file := hs.files ▸ hget
    obtain ⟨⟨m, hm, hhm⟩, hat⟩ := h.homes hold
    refine ⟨⟨m, by rw [show (l.next t).st.mounts = l.st.mounts from hs.mounts]; exact hm, hhm⟩,
      fun {m'} hm' => ?_⟩
    obtain hsame | hnone := hs.mountOf (h.books.shape.forest.bounded.file hold).1
    · exact hat (hsame.symm.trans hm')
    · rw [show (l.next t).st.mountOf file.dentry = t.mountOf file.dentry from rfl, hnone] at hm'
      cases hm'
  · refine h.freed_next (t := t) hs.inext (fun hlt hnone => ?_) hfreed hi
    obtain ⟨hnone', hle⟩ := hs.gone hlt hnone
    exact ⟨hnone', hle, by rw [opened, hs.files]; exact le_rfl⟩

theorem Audited.keeps (hs : Steady l.st t) (hb : Books t) (hk : Keeps l.st t) :
    Audited (l.next t) :=
  h.steady hs hb fun hget _ hgone => by
    obtain ⟨a, ha, -⟩ := hk hget
    cases ha.symm.trans hgone

theorem Audited.opened (hs : Steady l.st s) (hk : Keeps l.st s)
    (hb : Books s) {d : ℕ} (hnode : NodeAt s d i ino) {flags : OpenFlags} {vpath : Option Path} :
    Audited (l.next (s.addFile d i flags vpath)) := by
  obtain ⟨dn, hdn, -⟩ := hnode.get
  obtain ⟨m, hm⟩ := isSome_iff_exists.mp (hb.shape.forest.mounted (by simp [hdn] : (s.dentries.get d).isSome))
  have hlt := mountOf_lt hm
  have hmounts : (s.addFile d i flags vpath).mounts =
      s.mounts.modify m fun mt => { mt with openFiles := mt.openFiles + 1 } := by
    have hsame : ({ s with files := s.files.alloc { inode := i, dentry := d, flags, vpath } }.modInode i
        fun ino => { ino with opens := ino.opens + 1 }).mountOf d = some m := by
      rw [← hm]
      apply mountOf_of_dentries <;> rfl
    simp only [addFile, addOpen, hsame]
    rfl
  have hfiles : (s.addFile d i flags vpath).files =
    s.files.alloc { inode := i, dentry := d, flags, vpath } := rfl
  have hi : (s.addFile d i flags vpath).inodes =
    s.inodes.modify i fun ino => { ino with opens := ino.opens + 1 } := rfl
  have hbt : Bounded (s.addFile d i flags vpath) := 
    hb.shape.forest.bounded.addFile flags vpath hnode.lt.1 hnode.lt.2
  have hd : (s.addFile d i flags vpath).dentries = s.dentries := rfl
  generalize s.addFile d i flags vpath = t at hmounts hfiles hi hbt hd
  have hplaces : SamePlaces s t := by
    rw [SamePlaces, hmounts]
    exact samePlaces_modify (by exact fun _ => rfl) m
  have hmount : ∀ x, t.mountOf x = s.mountOf x := mountOf_of_dentries hd hplaces
  have hnew : (l.next t).home s.files.next = some m := by
    have hnone : l.st.files.get s.files.next = none := hs.files ▸ get_next
    simp only [FileLedger.next, hnone, hfiles, get_alloc_next]
    exact (hmount d).trans hm
  have hold : ∀ {f}, f ≠ s.files.next → (l.next t).home f = l.home f := by
    intro f hne
    have hsame : t.files.get f = l.st.files.get f := by
      rw [hfiles, get_alloc_of_ne hne, hs.files]
    simp only [FileLedger.next, hsame]
    cases l.st.files.get f <;> rfl
  refine ⟨⟨hb.shape.of_dentries (inodesFrom_modify hi (by exact fun _ => rfl)) hd hplaces hbt,
    hb.counts.opened (i := i) rfl hd hi hfiles hplaces⟩, fun {k mt} hk => ?_, fun {f file} hget => ?_,
    fun {j} hj => ?_⟩
  · -- the count of the file's mount goes up by one, and so does the number of its files
    have hcount : t.files.count (fun f _ => decide ((l.next t).home f = some k)) =
        l.st.files.count (fun f _ => decide (l.home f = some k)) + if m = k then 1 else 0 := by
      rw [hfiles, count_alloc, hnew, ← hs.files]
      congr 1
      · exact count_congr fun f file hget => by rw [hold (lt_next hget).ne]
      · by_cases hmk : m = k <;> simp [hmk]
    show mt.openFiles = t.files.count _
    rw [hcount]
    have hk : t.mounts[k]? = some mt := hk
    rw [hmounts, List.getElem?_modify] at hk
    obtain ⟨mt', hmt', rfl⟩ := map_eq_some_iff.mp hk
    rw [hs.mounts] at hmt'
    have := h.openFiles hmt'
    split
    · show mt'.openFiles + 1 = _
      omega
    · omega
  · have hlen : (l.next t).st.mounts.length = s.mounts.length := hplaces.length
    rw [hlen]
    by_cases hf : f = s.files.next
    · subst hf
      have hget : t.files.get s.files.next = some file := hget
      rw [hfiles, get_alloc_next] at hget
      cases hget
      refine ⟨⟨m, hlt, hnew⟩, fun {m'} hm' => ?_⟩
      have hm' : t.mountOf d = some m' := hm'
      rw [hmount, hm] at hm'
      rw [hnew, hm']
    · have hget : t.files.get f = some file := hget
      rw [hfiles, get_alloc_of_ne hf, hs.files] at hget
      rw [hold hf]
      obtain ⟨⟨m1, hm1, hhm1⟩, hat⟩ := h.homes hget
      refine ⟨⟨m1, hs.mounts ▸ hm1, hhm1⟩, fun {m'} hm' => ?_⟩
      have hm' : t.mountOf file.dentry = some m' := hm'
      rw [hmount] at hm'
      obtain hsame | hnone := hs.mountOf (h.books.shape.forest.bounded.file hget).1
      · exact hat (hsame.symm.trans hm')
      · rw [hnone] at hm'
        cases hm'
  · have hkt : Keeps l.st t := hk.trans (keeps_modify hi fun _ => rfl)
    refine h.freed_next (t := t) (hi ▸ hs.inext) (fun {j} hlt hnone => ?_) (fun hget _ hgone => ?_) hj
    · obtain ⟨hnone', hle⟩ := hs.gone hlt hnone
      have hji : j ≠ i := fun he => by cases (he ▸ hnone').symm.trans hnode.inode
      refine ⟨by rw [hi, get_modify_of_ne hji, hnone'], by rw [names, hd]; exact hle, ?_⟩
      rw [State.opened, hfiles, count_alloc, hs.files]
      simp only [decide_eq_false (Ne.symm hji), toNat_false, Nat.add_zero]
      exact le_rfl
    · obtain ⟨a, ha, -⟩ := hkt hget
      cases ha.symm.trans hgone

end

section Steps

variable (hv : Volumes drv) (h : Audited l)
include hv h

theorem Audited.setVol (hb : Books s) (hs : Steady l.st s) (hk : Keeps l.st s) (v : ψ) :
    Audited (l.next (s.setVol v)) := by
  have hvol : Growth drv kernelTask s (s.setVol v) := .vol v
  obtain ⟨hb2, hs2, hk2⟩ := hvol.books hv hb
  exact h.keeps (hs.trans hs2) hb2 (hk.trans hk2)

theorem audited_link (old new : Path) :
    Audited (l.next (vfsLink drv c l.st old new).2) := by
  have hfills := (locateLink_seeks drv c l.st old new).fills
  obtain ⟨hb1, hs1, hk1⟩ := Grows.books hv (Fills.grows (c := c) hfills) h.books
  have hout : Outcome _ _ (vfsLink drv c l.st old new) := vfsLink_outcome old new
  obtain ⟨-, v, heq⟩ | ⟨-, src, p, dir, last, ⟨hdir, hkind, hlen⟩, hlink⟩ := hout
  · rw [heq]
    exact h.setVol hv hb1 hs1 hk1 v
  · obtain ⟨hb2, hs2, hk2⟩ := hlink.books hv hdir hkind hlen hb1
    exact h.keeps (hs1.trans hs2) hb2 (hk1.trans hk2)

theorem audited_unlink (path : Path)
    (hbal : balanced drv l.st (c, .unlink path) = true) :
    Audited (l.next (vfsUnlink drv c l.st path).2) := by
  have hfills := (unlinkTarget_seeks drv c l.st path).fills
  obtain ⟨hb1, hs1, hk1⟩ := Grows.books hv (Fills.grows (c := c) hfills) h.books
  have hout : Outcome _ _ (vfsUnlink drv c l.st path) := vfsUnlink_outcome
  obtain ⟨-, v, heq⟩ | ⟨-, p, dir, d, last, i, ino, htgt, hdir, hkind, hrem, hremoves⟩ := hout
  · rw [heq]
    exact h.setVol hv hb1 hs1 hk1 v
  · obtain ⟨hb2, hs2, hspent, hothers⟩ := hremoves.books hv hrem hdir hkind hb1
    refine h.steady (hs1.trans hs2) hb2 fun {j a} hget hram hgone => ?_
    obtain ⟨b, hb, hdriver⟩ := hk1 hget
    by_cases hji : j = i
    · subst hji
      rw [hrem.node.inode] at hb
      cases hb
      have hram' : ino.driver = .ramfs := hdriver.trans hram
      refine hspent hgone hram' fun hdr hdk => ?_
      rw [balanced, show unlinkTarget drv c l.st path = (.ok (p, dir, d, last), _) from
        Prod.ext htgt rfl] at hbal
      simp only [hrem.node.inodeOf, any_some, hdr, hdk, hram', decide_true, Bool.true_and,
        Bool.not_eq_true', decide_eq_false_iff_not] at hbal
      omega
    · obtain ⟨b', hb', -⟩ := hothers hb hji
      rw [hb'] at hgone
      cases hgone

theorem audited_open (path : Path) (flags : OpenFlags) :
    Audited (l.next (vfsOpen drv c l.st path flags).2) := by
  obtain ⟨s1, hgrow, hend⟩ := vfsOpen_opens drv path flags
  obtain ⟨hb1, hs1, hk1⟩ := hgrow.books hv h.books
  obtain heq | ⟨d, i, ino, vpath, hnode, heq⟩ := hend
  · rw [heq]
    exact h.keeps hs1 hb1 hk1
  · rw [heq]
    exact h.opened hs1 hk1 hb1 hnode

end Steps

variable (drv) in
theorem vfsClose_mounts {file : File} (hf : s.files.get f = some file) :
    (vfsClose drv s f).2.files = s.files.free f ∧
      (vfsClose drv s f).2.mounts = (s.subOpen
        (if ((s.inodes.get file.inode).bind (·.unlinkDir)).isSome then none
          else s.mountOf file.dentry)).mounts := by
  obtain ⟨h, v, -, heq⟩ := vfsClose_some drv hf
  rw [heq]
  exact ⟨rfl, rfl⟩

variable (drv) in
theorem vfsClose_plain {file : File} (hf : s.files.get f = some file)
    (hpend : (s.inodes.get file.inode).bind (·.unlinkDir) = none) :
    (vfsClose drv s f).2.dentries = s.dentries ∧ (vfsClose drv s f).2.inodes =
      s.inodes.modify file.inode (fun ino => { ino with opens := ino.opens - 1 }) := by
  unfold vfsClose
  rw [hf]
  dsimp only
  rw [hpend, isSome_none]
  generalize hs2 : (s.subOpen (if false = true then none else s.mountOf file.dentry)).modInode
    file.inode (fun ino => { ino with opens := ino.opens - 1 }) = s2
  have hsame : deferredUnlink drv s2 file.inode = s2 := by
    obtain h | ⟨ino, hino, hsome, -⟩ := deferredUnlink_cases drv (s := s2) (i := file.inode)
    · exact h
    · have hget : (s.inodes.modify file.inode fun ino => { ino with opens := ino.opens - 1 }).get
          file.inode = some ino := by
        rw [← hino, ← hs2]
        rfl
      rw [get_modify_self] at hget
      obtain ⟨old, hold, rfl⟩ := map_eq_some_iff.mp hget
      rw [hold, bind_some] at hpend
      rw [show old.unlinkDir = none from hpend] at hsome
      cases hsome
  rw [hsame, ite_self, ← hs2]
  exact ⟨rfl, rfl⟩

theorem getElem?_subOpen {m k : ℕ} {mt : Mount}
    (h : (s.subOpen (some m)).mounts[k]? = some mt) :
    ∃ old, s.mounts[k]? = some old ∧
      mt.openFiles = if m = k then old.openFiles - 1 else old.openFiles := by
  have h : (s.mounts.modify m fun mt => { mt with openFiles := mt.openFiles - 1 })[k]? = some mt := h
  rw [List.getElem?_modify] at h
  obtain ⟨old, hold, rfl⟩ := map_eq_some_iff.mp h
  refine ⟨old, hold, ?_⟩
  split <;> rfl

theorem home_free (g : ℕ) (hfiles : t.files = l.st.files.free f) :
    (l.next t).home g = l.home g := by
  simp only [FileLedger.next, hfiles, get_free]
  cases l.st.files.get g <;> by_cases hg : g = f <;> simp [hg]

theorem Audited.closed (h : Audited l)
    (hbal : balanced drv l.st (c, .close f) = true) :
    Audited (l.next (vfsClose drv l.st f).2) := by
  cases hf : l.st.files.get f with
  | none =>
    have hsame : (vfsClose drv l.st f).2 = l.st := by
      simp [vfsClose, hf]
    rw [hsame]
    exact h.keeps (.refl _) h.books fun hget => ⟨_, hget, rfl⟩
  | some file =>
    simp only [balanced, hf, and_eq_true, isNone_iff_eq_none] at hbal
    obtain ⟨hmount, hpend⟩ := hbal
    obtain ⟨m, hm⟩ := isSome_iff_exists.mp hmount
    obtain ⟨hfiles, hmounts⟩ := vfsClose_mounts drv hf
    obtain ⟨hd, hi⟩ := vfsClose_plain drv hf hpend
    have hchange : Change drv c (fun _ _ => true) l.st _ := .closed f
    have hbt := hchange.bounded h.books.shape.forest.bounded
    rw [hpend, hm, isSome_none, if_neg Bool.false_ne_true] at hmounts
    generalize (vfsClose drv l.st f).2 = t at hfiles hmounts hd hi hbt
    have hplaces : SamePlaces l.st t := by
      rw [SamePlaces, hmounts]
      exact samePlaces_modify (by exact fun _ => rfl) m
    have hhome := fun g => home_free g hfiles
    have hfm := (h.homes hf).2 hm
    refine ⟨⟨h.books.shape.of_dentries (inodesFrom_modify hi (by exact fun _ => rfl)) hd hplaces hbt,
      h.books.counts.closed hf (fun hget => ?_) hd hi hfiles hplaces⟩, fun {k mt} hk => ?_,
      fun {g file'} hget => ?_, fun {j} hj => ?_⟩
    · rw [hget, bind_some] at hpend
      exact hpend
    · have hk : t.mounts[k]? = some mt := hk
      rw [hmounts] at hk
      obtain ⟨old, hold, hopen⟩ := getElem?_subOpen hk
      have hcount := count_free (p := fun g _ => decide (l.home g = some k)) hf
      have hbefore := h.openFiles hold
      show mt.openFiles = t.files.count _
      simp only [hhome, hfiles]
      rw [hopen]
      rw [hfm] at hcount
      by_cases hmk : m = k
      · simp only [hmk, if_true, decide_true, toNat_true] at hcount ⊢
        omega
      · have hne : ¬some m = some k := fun h => hmk (some.inj h)
        simp only [hmk, if_false, hne, decide_false, toNat_false] at hcount ⊢
        omega
    · have hget : t.files.get g = some file' := hget
      rw [hfiles] at hget
      obtain ⟨⟨m1, hm1, hhm1⟩, hat⟩ := h.homes (get_of_get_free hget)
      rw [hhome]
      refine ⟨⟨m1, hplaces.length.symm ▸ hm1, hhm1⟩, fun {m'} hm' => hat ?_⟩
      rw [← mountOf_of_dentries hd hplaces]
      exact hm'
    · have hkt : Keeps l.st t := keeps_modify hi fun _ => rfl
      refine h.freed_next (t := t) (hi ▸ le_rfl) (fun {j} _ hnone => ?_) (fun hget _ hgone => ?_) hj
      · have hcount := count_free (p := fun _ file => decide (file.inode = j)) hf
        refine ⟨?_, by rw [names, hd]; exact le_rfl, ?_⟩
        · rw [hi, get_modify, hnone]
          split <;> rfl
        · rw [State.opened, State.opened, hfiles]
          omega
      · obtain ⟨a, ha, -⟩ := hkt hget
        cases ha.symm.trans hgone

theorem removeEntry_ramfsDir {p d : ℕ} {dir : Inode} {name : Name} (hdir : s.inodeOf p = some dir)
    (hops : ((dirOps drv dir).bind (·.unlink)).isSome = true) (hram : dir.driver = .ramfs)
    (hnode : NodeAt s d i ino) (hkind : ino.kind = .dir) :
    (removeEntry drv s p dir d name).2.inodes = s.inodes.free i ∧
      (removeEntry drv s p dir d name).2.files = s.files := by
  obtain ⟨op, hop⟩ := isSome_iff_exists.mp hops
  have hop' : op = fun v _ _ child => (0, rfsUnlink child, v) := by
    unfold dirOps at hop
    split at hop
    · rw [hram] at hop
      exact (some.inj hop).symm
    · cases hop
  obtain ⟨di, hdi⟩ := nodeAt_of_inodeOf hdir
  simp only [removeEntry, hdi.id, hnode.id, hnode.inodeOf, hop, hop', hkind, rfsUnlink]
  exact ⟨rfl, rfl⟩

theorem unlinkCheck_ops {p d : ℕ} {dir : Inode} {name : Name}
    (h : unlinkCheck drv c s p dir name = .ok d) :
    ((dirOps drv dir).bind (·.unlink)).isSome = true := by
  unfold unlinkCheck at h
  split at h
  · cases h
  next hops =>
    simpa [isNone_iff_eq_none, isSome_iff_ne_none] using hops

theorem balanced_of_unlink (hv : Volumes drv) (h : Audited l) {path : Path}
    (hacc : Accounted (l.next (vfsUnlink drv c l.st path).2)) :
    balanced drv l.st (c, .unlink path) = true := by
  have hseeks := unlinkTarget_seeks drv c l.st path
  obtain ⟨hb1, hs1, hk1⟩ := Grows.books hv (Fills.grows (c := c) hseeks.fills) h.books
  rcases htgt : unlinkTarget drv c l.st path with ⟨_ | ⟨p, dir, d, last⟩, s1⟩
  · simp [balanced, htgt]
  rw [htgt] at hseeks hb1 hs1 hk1
  by_contra hbad
  simp only [balanced, htgt, not_eq_true', and_eq_true, not_eq_false,
    decide_eq_true_eq] at hbad
  obtain ⟨hram, hopen⟩ := hbad
  obtain ⟨⟨hdir, -⟩, hcheck⟩ := hseeks.ok rfl
  obtain ⟨i, ino, hrem⟩ := unlinkCheck_ok hcheck
  simp only [hrem.node.inodeOf, any_some, and_eq_true, decide_eq_true_eq] at hopen
  obtain ⟨⟨hkind, hdriver⟩, hpos⟩ := hopen
  obtain ⟨hinodes, hfiles⟩ : (removeEntry drv s1 p dir d last).2.inodes = s1.inodes.free i ∧
      (removeEntry drv s1 p dir d last).2.files = s1.files :=
    removeEntry_ramfsDir hdir (unlinkCheck_ops hcheck) hram hrem.node hkind
  have ht : (vfsUnlink drv c l.st path).2 = (removeEntry drv s1 p dir d last).2 := by
    rw [vfsUnlink, htgt]
  rw [ht] at hacc
  -- the inode is one of the tree before the call: an open file refers to it
  have hopened : l.st.opened i = ino.opens := by
    rw [(hb1.counts.live hrem.node.inode).opens, opened, opened, hs1.files]
  obtain ⟨g, file, hfile, hfi⟩ := exists_of_count_pos (hopened ▸ hpos)
  rw [decide_eq_true_eq] at hfi
  have hlt : i < l.st.inodes.next := hfi ▸ (h.books.shape.forest.bounded.file hfile).2
  have hold : (l.st.inodes.get i).any (fun x => decide (x.driver = .ramfs)) = true := by
    cases hget : l.st.inodes.get i with
    | none =>
      have hdead := (hs1.gone hlt hget).1
      rw [hrem.node.inode] at hdead
      cases hdead
    | some x =>
      obtain ⟨y, hy, hxy⟩ := hk1 hget
      rw [hrem.node.inode] at hy
      cases hy
      simpa [← hxy] using hdriver
  have hfreed : (l.next (removeEntry drv s1 p dir d last).2).freed i = true := by
    simp [FileLedger.next, hold, hinodes, get_free]
  have hzero : (removeEntry drv s1 p dir d last).2.opened i = 0 := (hacc.freed hfreed).2
  rw [opened, hfiles, hs1.files] at hzero
  rw [opened] at hopened
  omega

theorem balanced_of_close (h : Audited l)
    (hacc : Accounted (l.next (vfsClose drv l.st f).2)) :
    balanced drv l.st (c, .close f) = true := by
  rw [balanced]
  cases hf : l.st.files.get f with
  | none => rfl
  | some file =>
    obtain ⟨hfiles, hmounts⟩ := vfsClose_mounts drv hf
    obtain ⟨⟨m, hlt, hm⟩, -⟩ := h.homes hf
    by_contra hbad
    have hnone : (if ((l.st.inodes.get file.inode).bind (·.unlinkDir)).isSome then none
        else l.st.mountOf file.dentry) = none := by
      split
      · rfl
      next hp =>
        by_contra hne
        obtain ⟨m', hm'⟩ := ne_none_iff_exists'.mp hne
        exact hbad (by simp [hm', not_isSome_iff_eq_none.mp hp])
    rw [hnone] at hmounts
    have hmt : l.st.mounts[m]? = some l.st.mounts[m] := List.getElem?_eq_getElem hlt
    have hmt' : (vfsClose drv l.st f).2.mounts[m]? = some l.st.mounts[m] := by
      rw [hmounts]
      exact hmt
    have hafter := hacc.openFiles hmt'
    have hbefore := h.openFiles hmt
    have hcount := count_free (p := fun g _ => decide (l.home g = some m)) hf
    have hhome := fun g => home_free g hfiles
    rw [show (l.next (vfsClose drv l.st f).2).st.files = _ from hfiles] at hafter
    simp only [hhome] at hafter
    simp only [hm, decide_true, toNat_true] at hcount
    omega

theorem audited_fileStep (hv : Volumes drv) (h : Audited l)
    {a : Caller × FileCall} (hbal : balanced drv l.st a = true) : Audited (fileStep drv l a) := by
  obtain ⟨c, call⟩ := a
  cases call with
  | openFile path flags => exact audited_open hv h path flags
  | link old new => exact audited_link hv h old new
  | unlink path => exact audited_unlink hv h path hbal
  | close f => exact h.closed hbal

theorem balanced_of_accounted (hv : Volumes drv) (h : Audited l)
    {a : Caller × FileCall} (hacc : Accounted (fileStep drv l a)) : balanced drv l.st a = true := by
  obtain ⟨c, call⟩ := a
  cases call with
  | openFile path flags => rfl
  | link old new => rfl
  | unlink path => exact balanced_of_unlink hv h hacc
  | close f => exact balanced_of_close h hacc

def FileLedger.start (s : State ψ) : FileLedger ψ := ⟨s, fun _ => none, fun _ => false⟩

theorem audited_start (hb : Books s) (hfiles : ∀ f, s.files.get f = none)
    (hopen : ∀ m ∈ s.mounts, m.openFiles = 0) : Audited (FileLedger.start s) where
  books := hb
  openFiles {m mt} hmt := by
    rw [hopen mt (List.mem_of_getElem? hmt)]
    refine (count_eq_zero fun f file hget => ?_).symm
    cases (hfiles f).symm.trans hget
  homes {f file} hget := by
    cases (hfiles f).symm.trans hget
  freed hi := by cases hi

theorem accounted_iff_balanced (hv : Volumes drv) (hb : Books s)
    (hfiles : ∀ f, s.files.get f = none) (hopen : ∀ m ∈ s.mounts, m.openFiles = 0)
    {calls : List (Caller × FileCall)}
    (hbase : Allowed (fileStep drv) (fun l a => l.st.base a.1 < l.st.dentries.next)
      (FileLedger.start s) calls) :
    Always (fileStep drv) Accounted (FileLedger.start s) calls ↔
      Allowed (fileStep drv) (fun l a => balanced drv l.st a = true) (FileLedger.start s) calls :=
  always_iff_allowed (fun _ _ h _ => audited_fileStep hv h) (fun _ h => h.accounted)
    (fun _ _ h _ => balanced_of_accounted hv h) (audited_start hb hfiles hopen) hbase

def plainVolume : Drivers ψ := fun _ => {
  create := some fun v _ _ => ((0, some { kind := .file, mode := 420 }), v)
  unlink := some fun v _ _ child => (if child.driver = .ramfs then -1 else 0, some child.priv, v) }

def fileRun : List (Caller × FileCall) := [
  (kernelTask, .openFile "/etc/f".toList { wronly := true, create := true }),
  (kernelTask, .link "/etc/f".toList "/tmp/g".toList),
  (kernelTask, .openFile "/mnt/v".toList { wronly := true, create := true }),
  (kernelTask, .close 0),
  (kernelTask, .unlink "/tmp/g".toList),
  (kernelTask, .close 1),
  (kernelTask, .unlink "/mnt/v".toList)]

theorem volumes_plainVolume : Volumes (plainVolume : Drivers ψ) where
  plain _ := by
    refine ⟨fun h => ?_, fun h h' => ?_, fun h => ?_, fun h => ?_⟩
    · cases h
    · cases h
      cases h'
      exact ⟨rfl, rfl⟩
    · cases h
    · cases h
  link _ := rfl
  unlink h hram := by
    cases h
    simp [hram]

theorem fileRun_accounted :
    Always (fileStep plainVolume) Accounted (FileLedger.start (volumeTree ())) fileRun :=
  (accounted_iff_balanced volumes_plainVolume sound_volumeTree.books (fun _ => rfl)
    (by decide +kernel) (by decide +kernel)).mpr (by decide +kernel)

-- The file loses its name while it is open, and its last close misses the mount's count.
def unlinkedOpenRun : List (Caller × FileCall) := [
  (kernelTask, .openFile "/etc/f".toList { wronly := true, create := true }),
  (kernelTask, .unlink "/etc/f".toList),
  (kernelTask, .close 0)]

theorem unlinkedOpenRun_not_accounted :
    ¬ Always (fileStep noVolumes) Accounted (FileLedger.start (bootTree ())) unlinkedOpenRun := by
  intro h
  have hmount : (run (fileStep noVolumes) (FileLedger.start (bootTree ()))
      unlinkedOpenRun).st.mounts[0]? = some { mp := 0, hasDev := false, openFiles := 1 } := by
    decide +kernel
  exact absurd (h.2.2.2.openFiles hmount) (by decide +kernel)

end DosKernel.Vfs

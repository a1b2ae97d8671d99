import DosKernel.Vfs.File
import DosKernel.Vfs.Ops
import DosKernel.Vfs.Walks

namespace DosKernel.Vfs

open DosKernel.Lib Relation

variable {ψ : Type} {drv : Drivers ψ} {c : Caller} {s t : State ψ}
  {p d src : DentryId} {dir ino : Inode} {i : InodeId} {name : Name}

-- A call on an entry refuses, and then only the volume may have changed, or it is done.
def Outcome (s : State ψ) (P : State ψ → Prop) (r : Int × State ψ) : Prop :=
  r.1 ≠ 0 ∧ (∃ v, r.2 = s.setVol v) ∨ r.1 = 0 ∧ P r.2

theorem Outcome.refused {P : State ψ → Prop} {r : Int} (hr : r ≠ 0 := by decide) :
    Outcome s P (r, s) :=
  .inl ⟨hr, s.vol, rfl⟩

theorem Outcome.imp {P Q : State ψ → Prop} {r : Int × State ψ} (h : Outcome s P r)
    (hPQ : ∀ {t}, P t → Q t) : Outcome s Q r :=
  Or.imp id (fun h => ⟨h.1, hPQ h.2⟩) h

theorem Outcome.guard {P : State ψ → Prop} {q : Prop} [Decidable q] {r : Int} {x : Int × State ψ}
    (h : ¬ q → Outcome s P x) (hr : r ≠ 0 := by decide) :
    Outcome s P (if q then (r, s) else x) := by
  split
  · exact .refused hr
  · exact h ‹_›

theorem Outcome.asked {P : State ψ → Prop} {r e : Int} {v : ψ} {t : State ψ} (he : r ≠ 0 → e ≠ 0)
    (h : r = 0 → P t) : Outcome s P (if r ≠ 0 then (e, s.setVol v) else (0, t)) := by
  split
  · exact .inl ⟨he ‹_›, v, rfl⟩
  · exact .inr ⟨rfl, h (not_not.mp ‹_›)⟩

structure NodeAt (s : State ψ) (d : DentryId) (i : InodeId) (ino : Inode) : Prop where
  id : s.inodeIdOf d = some i
  inode : s.inodes.get i = some ino

theorem NodeAt.get (h : NodeAt s d i ino) : ∃ dn, s.dentries.get d = some dn ∧ dn.inode = some i :=
  Option.bind_eq_some_iff.mp h.id

theorem NodeAt.inodeOf (h : NodeAt s d i ino) : s.inodeOf d = some ino := by
  obtain ⟨dn, hdn, hi⟩ := h.get
  simp [State.inodeOf, hdn, hi, h.inode]

theorem nodeAt_of_inodeOf (h : s.inodeOf d = some ino) : ∃ i, NodeAt s d i ino := by
  obtain ⟨dn, hdn, h⟩ := Option.bind_eq_some_iff.mp h
  obtain ⟨i, hi, h⟩ := Option.bind_eq_some_iff.mp h
  exact ⟨i, by simp [State.inodeIdOf, hdn, hi], h⟩

theorem nodeAt_of_eq (hi : s.inodeIdOf d = some i) (h : s.inodeOf d = some ino) :
    NodeAt s d i ino := by
  obtain ⟨j, hj⟩ := nodeAt_of_inodeOf h
  obtain rfl : j = i := Option.some.inj (hj.id.symm.trans hi)
  exact hj

def RamfsMade (node : Node) : Prop :=
  node.kind = .dir ∨ (node.kind = .file ∨ node.kind = .symlink ∨ node.kind = .fifo) ∧
    node.priv.nlink = 1

def Makes (drv : Drivers ψ) (c : Caller) (s : State ψ) (p : DentryId) (dir : Inode)
    (name : Name) (t : State ψ) : Prop :=
  permitted c.cred dir permWrite = true ∧ s.findChild p name = none ∧
    ∃ node v, (dir.driver = .ramfs → RamfsMade node) ∧
      ((opsOf drv dir.driver).Plain → node.Plain) ∧
      t = ((s.setVol v).newInode dir.driver node).attachChild p name s.inodes.next

theorem setVol_newInode (driver : Driver) (node : Node) (v : ψ) :
    (s.newInode driver node).setVol v = (s.setVol v).newInode driver node := rfl

theorem dirOps_eq {ops : DirOps ψ} (hops : dirOps drv dir = some ops) :
    ops = opsOf drv dir.driver := by
  unfold dirOps at hops
  split at hops
  · exact (Option.some.inj hops).symm
  · cases hops

theorem dirOps_ramfs {ops : DirOps ψ} (hops : dirOps drv dir = some ops)
    (hram : dir.driver = .ramfs) : ops = ramfsOps ψ := by
  rw [dirOps_eq hops, hram]
  rfl

variable (c dir name) in
theorem stampOwner_newInode (ops : DirOps ψ) (driver : Driver) (node : Node) :
    ∃ node' v, node'.kind = node.kind ∧ node'.priv = node.priv ∧
      (node.Plain → node'.Plain) ∧ stampOwner c (s.newInode driver node) dir ops name s.inodes.next =
        (s.setVol v).newInode driver node' := by
  unfold stampOwner
  split
  · have hnew : (s.newInode driver node).modInode s.inodes.next
        (fun ino => { ino with uid := credUid c.cred, gid := credGid c.cred }) =
        s.newInode driver { node with uid := credUid c.cred, gid := credGid c.cred } := by
      simp only [State.newInode, State.modInode]
      congr 1
      ext j : 2
      · simp only [Heap.get_modify, Heap.get_alloc]
        split <;> simp
      · rfl
    rw [hnew]
    refine ⟨{ node with uid := credUid c.cred, gid := credGid c.cred }, ?_⟩
    dsimp only
    split
    · exact ⟨_, rfl, rfl, id, setVol_newInode _ _ _⟩
    · exact ⟨s.vol, rfl, rfl, id, rfl⟩
  · exact ⟨node, s.vol, rfl, rfl, id, rfl⟩

theorem DirOps.Plain.made {ops : DirOps ψ} (h : ops.Plain) {kind : MakeKind} {v v' : ψ} {r : Int}
    {op : ψ → Inode → Name → (Int × Option Node) × ψ} {node : Node}
    (hop : (if kind = .dir then ops.mkdir else ops.create) = some op)
    (hr : op v dir name = ((r, some node), v')) :
    (if kind = .fifo then { node with kind := .fifo } else node).Plain := by
  cases kind with
  | dir => exact h.mkdir hop hr
  | file | fifo =>
    obtain ⟨hown, hops⟩ := h.create hop hr
    exact ⟨hown, fun hd => by simp [hops] at hd⟩

theorem makeEntry_outcome (kind : MakeKind) :
    Outcome s (Makes drv c s p dir name) (makeEntry drv c s kind p dir name) := by
  unfold makeEntry
  cases hops : dirOps drv dir with
  | none => exact .refused
  | some ops =>
    dsimp only
    refine .guard fun hperm => ?_
    cases hop : (if kind = .dir then ops.mkdir else ops.create) with
    | none => exact .refused
    | some op =>
      dsimp only
      refine .guard fun _ => ?_
      refine .guard fun hfree => ?_
      rcases hr : op s.vol dir name with ⟨⟨r, _ | node⟩, v⟩
      · dsimp only
        refine .inl ⟨?_, v, rfl⟩
        split <;> omega
      · refine .asked id fun _ => ⟨by simpa using hperm, by simpa using hfree, ?_⟩
        obtain ⟨node', v', hkind, hpriv, hplain, hstamp⟩ := stampOwner_newInode c dir
          name (s := s.setVol v) ops dir.driver
          (if kind = .fifo then { node with kind := .fifo } else node)
        refine ⟨node', v', fun hram => ?_, fun hlaw => hplain ?_,
          congrArg (State.attachChild · p name _) hstamp⟩
        rotate_left
        · rw [← dirOps_eq hops] at hlaw
          exact hlaw.made hop hr
        -- ramfs's own `create` and `mkdir`
        obtain rfl := dirOps_ramfs hops hram
        unfold RamfsMade
        rw [hkind, hpriv]
        cases kind <;> simp only [ramfsOps, reduceCtorEq, if_true, if_false] at hop <;>
          cases hop <;> simp only [Prod.mk.injEq, Option.some.injEq] at hr <;>
          obtain ⟨⟨-, rfl⟩, -⟩ := hr <;> simp [ramfsNode]

theorem symlinkEntry_outcome (target : Path) :
    Outcome s (Makes drv c s p dir name) (symlinkEntry drv c s target p dir name) := by
  unfold symlinkEntry
  cases hop : (dirOps drv dir).bind (·.symlink) with
  | none => exact .refused
  | some op =>
    dsimp only
    refine .guard fun hperm => ?_
    refine .guard fun hfree => ?_
    rcases hr : op s.vol dir name target with ⟨⟨r, _ | node⟩, v⟩
    · exact .inl ⟨by simp, v, rfl⟩
    · refine .asked (by simp) fun _ => ⟨by simpa using hperm, by simpa using hfree, ?_⟩
      obtain ⟨ops, hops, hop⟩ := Option.bind_eq_some_iff.mp hop
      refine ⟨_, v, fun hram => ?_, fun hlaw => ?_, rfl⟩
      rotate_left
      · rw [← dirOps_eq hops] at hlaw
        have hplain := hlaw.symlink hop hr
        split <;> exact hplain
      obtain rfl := dirOps_ramfs hops hram
      cases hop
      obtain ⟨⟨-, rfl⟩, -⟩ := hr
      split <;> simp [RamfsMade, ramfsNode]

def Links (drv : Drivers ψ) (c : Caller) (s : State ψ) (src p : DentryId) (dir : Inode)
    (name : Name) (t : State ψ) : Prop :=
  permitted c.cred dir permWrite = true ∧ s.findChild p name = none ∧
    ∃ i ino op priv v, NodeAt s src i ino ∧
      (((s.dentries.get src).bind (·.parent)).bind s.inodeOf).map opsTable = some (opsTable dir) ∧
      (dirOps drv dir).bind (·.link) = some op ∧ op s.vol dir name ino = (0, priv, v) ∧
      t = ((s.setVol v).modInode i fun x => { x with priv }).attachChild p name i

theorem linkEntry_outcome : Outcome s (Links drv c s src p dir name)
    (linkEntry drv c s src p dir name) := by
  unfold linkEntry
  split
  next op i ino hop hi hino =>
    dsimp only
    refine .guard fun htable => ?_
    refine .guard fun hperm => ?_
    refine .guard fun hfree => ?_
    rcases hr : op s.vol dir name ino with ⟨r, priv, v⟩
    exact .asked (by simp) fun hzero => ⟨by simpa using hperm, by simpa using hfree, i, ino, op, priv,
      v, nodeAt_of_eq hi hino, not_not.mp htable, hop, hzero ▸ hr, rfl⟩
  · exact .refused

structure Removable (c : Caller) (s : State ψ) (p : DentryId) (dir : Inode) (name : Name)
    (d : DentryId) (i : InodeId) (ino : Inode) : Prop where
  allowed : permitted c.cred dir permWrite = true
  found : s.findChild p name = some d
  node : NodeAt s d i ino
  empty : ino.kind = .dir → s.children d = [] ∨ ino.ownChildren = true

theorem unlinkCheck_ok (h : unlinkCheck drv c s p dir name = .ok d) :
    ∃ i ino, Removable c s p dir name d i ino := by
  unfold unlinkCheck at h
  split at h
  · cases h
  split at h
  · cases h
  rename_i hperm
  cases hfind : s.findChild p name with
  | none => simp [hfind] at h
  | some e =>
    simp only [hfind] at h
    split at h
    next dn ino hdn hino =>
      split at h
      · cases h
      split at h
      · cases h
      rename_i hempty
      split at h
      · cases h
      cases h
      obtain ⟨i, hnode⟩ := nodeAt_of_inodeOf hino
      refine ⟨i, ino, by simpa using hperm, hfind, hnode, fun hdir => ?_⟩
      by_contra hne
      simp only [not_or, Bool.not_eq_true] at hne
      exact hempty ⟨hdir, by simpa [State.children, hdn] using hne.1, hne.2⟩
    · cases h

inductive Removes (drv : Drivers ψ) (s : State ψ) (p : DentryId) (dir : Inode) (name : Name)
    (d : DentryId) (i : InodeId) (ino : Inode) : State ψ → Prop
  | later {di : InodeId} : s.inodeIdOf p = some di → ino.kind ≠ .dir → 0 < ino.opens →
      Removes drv s p dir name d i ino
        ((s.modInode i fun x => { x with unlinkDir := some di, unlinkName := name }).detach p d)
  | now {op priv v} : ino.kind = .dir ∨ ino.opens = 0 →
      (dirOps drv dir).bind (·.unlink) = some op → op s.vol dir name ino = (0, priv, v) →
      Removes drv s p dir name d i ino
        ((((s.setVol v).settleInode i priv).freeChildren d).detach p d)

theorem removeEntry_outcome (hnode : NodeAt s d i ino) :
    Outcome s (Removes drv s p dir name d i ino) (removeEntry drv s p dir d name) := by
  unfold removeEntry
  rw [hnode.id, hnode.inodeOf]
  split
  next di j ino' op hdi hj hino hop =>
    cases hj
    cases hino
    split
    next hopen =>
      exact .inr ⟨rfl, .later hdi hopen.1 hopen.2⟩
    next hopen =>
      rcases hr : op s.vol dir name ino with ⟨r, priv, v⟩
      refine .asked id fun hzero => .now ?_ hop (hzero ▸ hr)
      by_contra hne
      simp only [not_or] at hne
      exact hopen ⟨hne.1, Nat.pos_of_ne_zero hne.2⟩
  · exact .refused

def Renames (drv : Drivers ψ) (s : State ψ) (p : DentryId) (old new : Name) (t : State ψ) : Prop :=
  ∃ dir d i ino op priv v, s.inodeOf p = some dir ∧ dir.kind = .dir ∧ new.length ≤ nameMax ∧
    s.findChild p new = none ∧ s.findLastChild p old = some d ∧ NodeAt s d i ino ∧
    ino.kind ≠ .device ∧ (dirOps drv dir).bind (·.rename) = some op ∧
    op s.vol dir old new ino = (0, priv, v) ∧
    t = ((s.setVol v).modInode i fun x => { x with priv }).renameDentry d new

theorem renameEntry_outcome {old new : Name} :
    Outcome s (Renames drv s p old new) (renameEntry drv s p old new) := by
  unfold renameEntry
  cases hdir : s.inodeOf p with
  | none => exact .refused
  | some dir =>
    dsimp only
    refine .guard fun hkind => ?_
    cases hop : (dirOps drv dir).bind (·.rename) with
    | none => exact .refused
    | some op =>
      dsimp only
      refine .guard fun hlen => ?_
      refine .guard fun hfree => ?_
      cases hfind : s.findLastChild p old with
      | none => exact .refused
      | some d =>
        dsimp only
        split
        next i ino hi hino =>
          refine .guard fun hdevice => ?_
          rcases hr : op s.vol dir old new ino with ⟨r, priv, v⟩
          exact .asked id fun hzero => ⟨dir, d, i, ino, op, priv, v, hdir, not_not.mp hkind,
            Nat.le_of_not_lt hlen, by simpa using hfree, hfind, nodeAt_of_eq hi hino, hdevice, hop,
            hzero ▸ hr, rfl⟩
        · exact .refused

def Moves (drv : Drivers ψ) (c : Caller) (s : State ψ) (o : DentryId) (old : Name)
    (p : DentryId) (new : Name) (t : State ψ) : Prop :=
  ∃ odir dir d i ino op priv v, s.inodeOf o = some odir ∧ odir.kind = .dir ∧
    s.inodeOf p = some dir ∧ dir.kind = .dir ∧ new.length ≤ nameMax ∧
    permitted c.cred odir permWrite = true ∧ permitted c.cred dir permWrite = true ∧
    s.findChild o old = some d ∧ NodeAt s d i ino ∧ ino.kind ≠ .device ∧
    s.findChild p new = none ∧ s.mounts.any (fun m => decide (m.mp = d)) = false ∧
    s.reaches d s.dentries.next p = false ∧ s.mountOf o = s.mountOf p ∧
    opsTable odir = opsTable dir ∧ (dirOps drv odir).bind (·.move) = some op ∧
    op s.vol odir old dir new ino = (0, priv, v) ∧
    t = ((s.setVol v).modInode i fun x => { x with priv }).moveDentry d o p new

theorem vfsMove_outcome {o : DentryId} {old new : Name} :
    Outcome s (Moves drv c s o old p new) (vfsMove drv c s o old p new) := by
  unfold vfsMove
  split
  next odir dir hodir hdir =>
    refine .guard fun hkinds => ?_
    simp only [not_or, not_not, Nat.not_lt] at hkinds
    refine .guard fun hmount => ?_
    cases hop : (dirOps drv odir).bind (·.move) with
    | none => exact .refused
    | some op =>
      dsimp only
      refine .guard fun htable => ?_
      refine .guard fun hperm => ?_
      simp only [Bool.or_eq_true, Bool.not_eq_true', not_or, Bool.not_eq_false] at hperm
      cases hfind : s.findChild o old with
      | none => exact .refused
      | some d =>
        dsimp only
        split
        next i ino hi hino =>
          refine .guard fun hdevice => ?_
          refine .guard fun hfree => ?_
          refine .guard fun hmp => ?_
          refine .guard fun hreach => ?_
          rcases hr : op s.vol odir old dir new ino with ⟨r, priv, v⟩
          exact .asked id fun hzero => ⟨odir, dir, d, i, ino, op, priv, v, hodir, hkinds.1, hdir,
            hkinds.2.1, hkinds.2.2, hperm.1, hperm.2, hfind, nodeAt_of_eq hi hino, hdevice,
            by simpa using hfree, by simpa using hmp, by simpa using hreach, not_not.mp hmount,
            not_not.mp htable, hop, hzero ▸ hr, rfl⟩
        · exact .refused
  · exact .refused

open Fills

variable {s1 : State ψ} {path buf : Path}

theorem splitParent_length (h : s.splitParent c path = some (buf, name)) :
    name.length ≤ nameMax := by
  obtain ⟨q, -, h⟩ := Option.bind_eq_some_iff.mp h
  split at h
  · cases h
  rename_i hcap
  simp only [not_or, Nat.not_lt, pathCap] at hcap
  have hstrip := length_stripTrailing q
  have hlast : ∀ l : Path, (l.rtakeWhile (· != '/')).length ≤ l.length := fun l =>
    (List.rtakeWhile_suffix _ _).length_le
  unfold splitLast at h
  dsimp only at h
  split at h
  · cases h
  · cases h
    have := hlast (stripTrailing q)
    simp only [nameMax]
    omega

structure Seeks {α : Type} (drv : Drivers ψ) (c : Caller) (s : State ψ) (P : α → State ψ → Prop)
    (r : Except Int α × State ψ) : Prop where
  fills : Fills drv s r.2
  error : ∀ {e}, r.1 = .error e → e ≠ 0
  ok : ∀ {x}, r.1 = .ok x → P x r.2

def InDir (s : State ψ) (p : DentryId) (dir : Inode) (name : Name) : Prop :=
  s.inodeOf p = some dir ∧ dir.kind = .dir ∧ name.length ≤ nameMax

section Seeks

variable {α : Type} {P : α → State ψ → Prop} (hf : Fills drv s s1)
include hf

theorem Seeks.refused {e : Int} (he : e ≠ 0 := by decide) : Seeks drv c s P (.error e, s1) where
  fills := hf
  error h := by
    cases h
    exact he
  ok h := by cases h

theorem Seeks.found {x : α} (hx : P x s1) : Seeks drv c s P (.ok x, s1) where
  fills := hf
  error h := by cases h
  ok h := by
    cases h
    exact hx

theorem seeks_ro {k : State ψ → Except Int α × State ψ} (path : Path)
    (hk : ∀ {t}, Fills drv s t → Seeks drv c s P (k t)) :
    Seeks drv c s P (match roPath drv c s1 path with
      | (true, s) => (.error (-30), s)
      | (false, s) => k s) := by
  have hro := hf.trans (roPath_fills drv c s1 path)
  rcases hr : roPath drv c s1 path with ⟨_ | _, s2⟩ <;> rw [hr] at hro
  · exact hk hro
  · exact .refused hro

theorem seeks_dir {f : DentryId → Inode → α} (hsplit : s1.splitParent c path = some (buf, name))
    (hP : ∀ {p dir t}, InDir t p dir name → P (f p dir) t) :
    Seeks drv c s P (match resolveDir drv c s1 buf with
      | (none, s) => (.error (-1), s)
      | (some (p, dir), s) => (.ok (f p dir), s)) := by
  have hdir := hf.trans (resolveDir_fills drv c s1 buf)
  rcases hr : resolveDir drv c s1 buf with ⟨_ | ⟨p, dir⟩, s2⟩ <;> rw [hr] at hdir
  · exact .refused hdir
  · obtain ⟨hino, hkind⟩ := resolveDir_eq_some hr
    exact .found hdir (hP ⟨hino, hkind, splitParent_length hsplit⟩)

end Seeks

variable (drv c s)

theorem locate_seeks (path : Path) :
    Seeks drv c s (fun x t => InDir t x.1 x.2.1 x.2.2) (locate drv c s path) := by
  refine seeks_ro .refl path fun {s2} hro => ?_
  rcases hsplit : s2.splitParent c path with _ | ⟨buf, last⟩
  · exact .refused hro
  · exact seeks_dir hro hsplit id

theorem locateLink_seeks (old new : Path) :
    Seeks drv c s (fun x t => InDir t x.2.1 x.2.2.1 x.2.2.2) (locateLink drv c s old new) := by
  refine seeks_ro .refl new fun {s2} hro => ?_
  have hres := hro.trans (resolvePath_fills drv c s2 old)
  rcases h3 : resolvePath drv c s2 old with ⟨_ | src, s3⟩ <;> rw [h3] at hres
  · exact .refused hres
  · dsimp only
    split
    · exact .refused hres
    rcases hsplit : s3.splitParent c new with _ | ⟨buf, last⟩
    · exact .refused hres
    · dsimp only
      split
      · exact .refused hres
      · exact seeks_dir hres hsplit id

theorem locateSymlink_seeks (target linkpath : Path) :
    Seeks drv c s (fun x t => InDir t x.1 x.2.1 x.2.2) (locateSymlink drv c s target linkpath) := by
  refine seeks_ro .refl linkpath fun {s2} hro => ?_
  split
  · exact .refused hro
  rcases hsplit : s2.splitParent c linkpath with _ | ⟨buf, last⟩
  · exact .refused hro
  · dsimp only
    split
    · exact .refused hro
    · exact seeks_dir hro hsplit id

theorem locateBoth_seeks (old new : Path) :
    Seeks drv c s (fun _ _ => True) (locateBoth drv c s old new) := by
  refine seeks_ro .refl old fun hold => seeks_ro hold new fun {s2} hnew => ?_
  split
  next obuf _ nbuf _ _ _ =>
    have hdir := hnew.trans (resolvePath_fills drv c s2 obuf)
    rcases h3 : resolvePath drv c s2 obuf with ⟨op, s3⟩
    rw [h3] at hdir
    have hboth := hdir.trans (resolvePath_fills drv c s3 nbuf)
    rcases h4 : resolvePath drv c s3 nbuf with ⟨np, s4⟩
    rw [h4] at hboth
    dsimp only
    rw [h4]
    rcases op with _ | op <;> rcases np with _ | np
    · exact .refused hboth
    · exact .refused hboth
    · exact .refused hboth
    · exact .found hboth trivial
  · exact .refused hnew

variable {drv c s}

def MadeIn (drv : Drivers ψ) (c : Caller) (s t : State ψ) : Prop :=
  ∃ p dir last, InDir s p dir last ∧ Makes drv c s p dir last t

def LinkedIn (drv : Drivers ψ) (c : Caller) (s t : State ψ) : Prop :=
  ∃ src p dir last, InDir s p dir last ∧ Links drv c s src p dir last t

theorem vfsMutator_outcome (kind : MakeKind) (path : Path) :
    Outcome (locate drv c s path).2 (MadeIn drv c (locate drv c s path).2)
      (vfsMutator drv c kind s path) := by
  have hloc := locate_seeks drv c s path
  unfold vfsMutator
  generalize locate drv c s path = l at hloc ⊢
  obtain ⟨r | ⟨p, dir, last⟩, s1⟩ := l
  · exact .refused (hloc.error rfl)
  · exact (makeEntry_outcome kind).imp fun h => ⟨p, dir, last, hloc.ok rfl, h⟩

theorem vfsSymlink_outcome (target linkpath : Path) :
    Outcome (locateSymlink drv c s target linkpath).2
      (MadeIn drv c (locateSymlink drv c s target linkpath).2)
      (vfsSymlink drv c s target linkpath) := by
  have hloc := locateSymlink_seeks drv c s target linkpath
  unfold vfsSymlink
  generalize locateSymlink drv c s target linkpath = l at hloc ⊢
  obtain ⟨r | ⟨p, dir, last⟩, s1⟩ := l
  · exact .refused (hloc.error rfl)
  · exact (symlinkEntry_outcome target).imp fun h => ⟨p, dir, last, hloc.ok rfl, h⟩

theorem vfsLink_outcome (old new : Path) :
    Outcome (locateLink drv c s old new).2 (LinkedIn drv c (locateLink drv c s old new).2)
      (vfsLink drv c s old new) := by
  have hloc := locateLink_seeks drv c s old new
  unfold vfsLink
  generalize locateLink drv c s old new = l at hloc ⊢
  obtain ⟨r | ⟨src, p, dir, last⟩, s1⟩ := l
  · exact .refused (hloc.error rfl)
  · exact linkEntry_outcome.imp fun h => ⟨src, p, dir, last, hloc.ok rfl, h⟩

variable (drv c s) in
theorem replaceCheck_fills (old new : Path) : Fills drv s (replaceCheck drv c s old new).2 := by
  have hnew := resolvePath_fills drv c s new
  unfold replaceCheck
  rcases h2 : resolvePath drv c s new with ⟨_ | t, s2⟩ <;> rw [h2] at hnew
  · exact hnew
  · have hold := hnew.trans (resolvePath_fills drv c s2 old)
    dsimp only at hold ⊢
    split
    · exact hnew
    split
    · rcases h3 : resolvePath drv c s2 old with ⟨src, s3⟩
      rw [h3] at hold
      split
      · exact hold
      split <;> exact hold
    · exact hnew

theorem replaceCheck_error {old new : Path} {r : Int}
    (h : replaceCheck drv c s old new = (some r, s1)) : r ≠ 0 := by
  unfold replaceCheck at h
  repeat' split at h
  all_goals cases h
  all_goals decide

theorem unlinkCheck_error {r : Int} (h : unlinkCheck drv c s p dir name = .error r) : r ≠ 0 := by
  unfold unlinkCheck at h
  repeat' split at h
  all_goals cases h <;> decide

variable (drv c s) in
theorem unlinkTarget_seeks (path : Path) : Seeks drv c s (fun x t =>
    InDir t x.1 x.2.1 x.2.2.2 ∧ unlinkCheck drv c t x.1 x.2.1 x.2.2.2 = .ok x.2.2.1)
    (unlinkTarget drv c s path) := by
  have hloc := locate_seeks drv c s path
  unfold unlinkTarget
  generalize locate drv c s path = l at hloc ⊢
  obtain ⟨r | ⟨p, dir, last⟩, s1⟩ := l
  · exact .refused hloc.fills (hloc.error rfl)
  · dsimp only
    cases hcheck : unlinkCheck drv c s1 p dir last with
    | error r => exact .refused hloc.fills (unlinkCheck_error hcheck)
    | ok d => exact .found hloc.fills ⟨hloc.ok rfl, hcheck⟩

theorem vfsUnlink_outcome : Outcome (unlinkTarget drv c s path).2 (fun t =>
    ∃ p dir d last i ino, (unlinkTarget drv c s path).1 = .ok (p, dir, d, last) ∧
      (unlinkTarget drv c s path).2.inodeOf p = some dir ∧ dir.kind = .dir ∧
      Removable c (unlinkTarget drv c s path).2 p dir last d i ino ∧
      Removes drv (unlinkTarget drv c s path).2 p dir last d i ino t) (vfsUnlink drv c s path) := by
  have htgt := unlinkTarget_seeks drv c s path
  unfold vfsUnlink
  generalize unlinkTarget drv c s path = l at htgt ⊢
  obtain ⟨r | ⟨p, dir, d, last⟩, s1⟩ := l
  · exact .refused (htgt.error rfl)
  · obtain ⟨⟨hdir, hkind, -⟩, hcheck⟩ := htgt.ok rfl
    obtain ⟨i, ino, hrem⟩ := unlinkCheck_ok hcheck
    exact (removeEntry_outcome hrem.node).imp fun h =>
      ⟨p, dir, d, last, i, ino, rfl, hdir, hkind, hrem, h⟩

def RenameDone (drv : Drivers ψ) (c : Caller) (s : State ψ) (op : DentryId) (olast : Name)
    (np : DentryId) (nlast : Name) (t : State ψ) : Prop :=
  op ≠ np ∧ Moves drv c s op olast np nlast t ∨ op = np ∧ Renames drv s op olast nlast t

theorem renameIn_outcome {op np : DentryId} {olast nlast : Name} :
    Outcome s (RenameDone drv c s op olast np nlast) (renameIn drv c s op olast np nlast) := by
  unfold renameIn
  split
  · exact vfsMove_outcome.imp fun h => .inl ⟨‹_›, h⟩
  · exact renameEntry_outcome.imp fun h => .inr ⟨not_not.mp ‹_›, h⟩

theorem vfsRename_outcome {old new : Path} : Outcome (locateBoth drv c s old new).2 (fun t =>
    ∃ op olast np nlast, (locateBoth drv c s old new).1 = .ok (op, olast, np, nlast) ∧
      RenameDone drv c (locateBoth drv c s old new).2 op olast np nlast t)
    (vfsRename drv c s old new) := by
  have hloc := locateBoth_seeks drv c s old new
  unfold vfsRename
  generalize locateBoth drv c s old new = l at hloc ⊢
  obtain ⟨r | ⟨op, olast, np, nlast⟩, s1⟩ := l
  · exact .refused (hloc.error rfl)
  · exact renameIn_outcome.imp fun h => ⟨op, olast, np, nlast, rfl, h⟩

end DosKernel.Vfs

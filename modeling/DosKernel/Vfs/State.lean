import DosKernel.Lib.Heap
import Mathlib.Data.List.DropRight

namespace DosKernel.Vfs

open DosKernel.Lib

-- The object graph of kernel/fs/vfs.c: pointers are identifiers, the namespace lock makes calls
-- atomic.

abbrev Name := List Char
abbrev Path := List Char
abbrev DentryId := ℕ
abbrev InodeId := ℕ
abbrev FileId := ℕ

def nameMax : ℕ := 255
def maxBinds : ℕ := 256
def maxMntns : ℕ := 256

inductive InodeType where
  | file
  | dir
  | device
  | symlink
  | fifo
deriving DecidableEq, Repr

-- Everything but ramfs is a `vol`, whose operations are a parameter of the model.
inductive Driver where
  | ramfs
  | vol (k : ℕ)
deriving DecidableEq, Repr

-- `inode->private`: ramfs counts names and keeps the bytes, a volume keeps a handle.
structure Private where
  nlink : ℕ := 0
  data : List Char := []
  handle : ℕ := 0
deriving DecidableEq, Repr

structure Node where
  kind : InodeType
  dirOps : Bool := false
  ownChildren : Bool := false
  uid : Int := 0
  gid : Int := 0
  mode : ℕ
  priv : Private := {}
deriving DecidableEq, Repr

-- The fields of `struct inode` that only the VFS writes come on top.
structure Inode extends Node where
  driver : Driver
  opens : ℕ := 0
  unlinkDir : Option InodeId := none
  unlinkName : Name := []
deriving DecidableEq, Repr

-- `children` lists the sibling chain from its head.
structure Dentry where
  name : Name
  inode : Option InodeId
  parent : Option DentryId
  children : List DentryId := []
  bound : Option DentryId := none
  boundNs : ℕ := 0
  boundSeq : ℕ := 0
  ro : Bool := false
  roNs : ℕ := 0
  roSeq : ℕ := 0
deriving DecidableEq, Repr

structure OpenFlags where
  rdonly : Bool := false
  wronly : Bool := false
  create : Bool := false
  trunc : Bool := false
  nofollow : Bool := false
deriving DecidableEq, Repr

structure File where
  inode : InodeId
  dentry : DentryId
  flags : OpenFlags
  vpath : Option Path := none
deriving DecidableEq, Repr

-- `covered` is the inode the mount point had before.
structure Mount where
  mp : DentryId
  hasDev : Bool
  openFiles : ℕ
  covered : Option InodeId := none
deriving DecidableEq, Repr

structure Mntns where
  parent : ℕ
  born : ℕ
deriving DecidableEq, Repr

-- `ψ`: the volumes behind the other drivers. Namespace 0, the machine's, is the head of `ns`; its
-- parent is never read.
structure State (ψ : Type) where
  dentries : Heap Dentry
  inodes : Heap Inode
  files : Heap File
  root : DentryId
  mounts : List Mount
  binds : List (DentryId × DentryId)
  ns : List Mntns
  bindSeq : ℕ
  vol : ψ

-- The owner kinds and the identity of kernel/includes/cred.h.
inductive Owner where
  | kernel
  | system
  | user
deriving DecidableEq, Repr

structure Cred where
  owner : Owner
  uid : Int := 0
  gid : Int := 0
  groups : List Int := []
deriving DecidableEq, Repr

def credUidRoot : Int := 0
def credGidAdmin : Int := 1
def credUidNone : Int := -1

def credUid (c : Cred) : Int := if c.owner = .user then c.uid else credUidNone

def credGid (c : Cred) : Int := if c.owner = .user then c.gid else credUidNone

def credInGroup (c : Cred) (gid : Int) : Bool :=
  decide (c.owner = .user) && (decide (c.gid = gid) || c.groups.contains gid)

def credIsAdmin (c : Cred) : Bool :=
  decide (c.owner ≠ .user) || decide (c.uid = credUidRoot) || credInGroup c credGidAdmin

def permRead : ℕ := 4
def permWrite : ℕ := 2
def permExec : ℕ := 1

def permitted (c : Cred) (ino : Inode) (want : ℕ) : Bool :=
  if c.owner ≠ .user then true
  else if credIsAdmin c then decide (want ≠ permExec) || decide (ino.mode &&& 0o111 ≠ 0)
  else if ino.mode = 0 then false
  else
    let bits :=
      if credUid c = ino.uid then (ino.mode >>> 6) &&& 7
      else if credInGroup c ino.gid then (ino.mode >>> 3) &&& 7
      else ino.mode &&& 7
    decide (bits &&& want = want)

-- The calling task: who it is, its "/" and working directory, its mount namespace, and what /proc
-- names for it.
structure Caller where
  cred : Cred
  fsRoot : Option DentryId := none
  cwd : Path := []
  mntns : ℕ := 0
  procExe : Path := []
  procAlias : Path → Option Path := fun _ => none
  fds : ℕ → Option FileId := fun _ => none

namespace State

variable {ψ : Type} (s : State ψ)

def inodeOf (d : DentryId) : Option Inode := do
  let dn ← s.dentries.get d
  let i ← dn.inode
  s.inodes.get i

def isDir (d : DentryId) : Bool := (s.inodeOf d).any fun ino => decide (ino.kind = .dir)

def children (d : DentryId) : List DentryId := ((s.dentries.get d).map (·.children)).getD []

def hasName (name : Name) (d : DentryId) : Bool :=
  (s.dentries.get d).any fun dn => decide (dn.name = name)

def findChild (parent : DentryId) (name : Name) : Option DentryId :=
  (s.children parent).find? (s.hasName name)

def modDentry (d : DentryId) (f : Dentry → Dentry) : State ψ :=
  { s with dentries := s.dentries.modify d f }

def modInode (i : InodeId) (f : Inode → Inode) : State ψ := { s with inodes := s.inodes.modify i f }

-- `vfs_attach_child_unlocked`: the new dentry goes to the head of the sibling chain.
def attachChild (parent : DentryId) (name : Name) (i : InodeId) : State ψ :=
  let d : Dentry := { name := name.take nameMax, inode := some i, parent := some parent }
  { s with
    dentries := (s.dentries.alloc d).modify parent fun p =>
      { p with children := s.dentries.next :: p.children } }

def newInode (driver : Driver) (node : Node) : State ψ :=
  { s with inodes := s.inodes.alloc { node with driver } }

def detach (parent d : DentryId) : State ψ :=
  { s with
    dentries := (s.dentries.modify parent fun p =>
      { p with children := p.children.erase d }).free d }

-- The dentries still hanging below a removed directory go with it.
def freeChildren (d : DentryId) : State ψ :=
  { s with dentries := (s.children d).foldl Heap.free s.dentries }

end State

-- The textual half of path resolution. A buffer of `cap` bytes holds `cap - 1` characters, or the
-- text is refused.

def pathCap : ℕ := 256

def components (p : Path) : List Name := p.splitOn '/'

def isDotName (c : Name) : Bool := decide (c = ['.']) || decide (c = ['.', '.'])

def joined (l : List Name) : Path := l.flatMap ('/' :: ·)

def render (l : List Name) : Path := if l = [] then ['/'] else joined l

-- One component of the scan in `vfs_canon_plain`. ".." at the root stays there.
def pushComponent (cap : ℕ) (acc : Option (List Name)) (c : Name) : Option (List Name) :=
  acc.bind fun l =>
    if c = [] ∨ c = ['.'] then some l
    else if c = ['.', '.'] then some l.dropLast
    else if (joined l).length + 1 + c.length + 1 ≤ cap then some (l ++ [c])
    else none

def isAbsolute (p : Path) : Bool := decide (p.head? = some '/')

-- `vfs_canon_plain`: an absolute path without dot components comes back untouched.
def canonPlain (cwd path : Path) (cap : ℕ) : Option Path :=
  if isAbsolute path && !(components path).any isDotName then some path
  else
    let tmp := if isAbsolute path then path else cwd ++ '/' :: path
    if pathCap ≤ tmp.length then none
    else ((components tmp).foldl (pushComponent cap) (some [])).map render

-- `while (n > 1 && buf[n - 1] == '/') buf[--n] = 0`
def stripTrailing : Path → Path
  | [] => []
  | x :: xs => x :: xs.rdropWhile (· == '/')

theorem length_stripTrailing (p : Path) : (stripTrailing p).length ≤ p.length := by
  cases p with
  | nil => exact Nat.le_refl _
  | cons x p => exact Nat.succ_le_succ (List.IsPrefix.length_le ( List.rdropWhile_prefix _ p))

-- The text before and after the last '/'. "/" has no last name.
def splitLast (p : Path) : Option (Path × Name) :=
  let last := p.rtakeWhile (· != '/')
  let dir := (p.rdropWhile (· != '/')).dropLast
  if '/' ∉ p ∨ last = [] then none else some (if dir = [] then ['/'] else dir, last)

def isDigit (x : Char) : Bool := decide ('0' ≤ x) && decide (x ≤ '9')

def digitsToNat (ds : List Char) : ℕ := ds.foldl (fun n x => 10 * n + (x.toNat - '0'.toNat)) 0

def procSelfExe : Path := "/proc/self/exe".toList

def fdPrefixes : List Path := ["/proc/self/fd/".toList, "/proc/thread-self/fd/".toList]

-- The descriptor a path under one of the fd directories names, and what follows it.
def parseFd (path : Path) : Option (ℕ × Path) := do
  let pre ← fdPrefixes.find? fun pre => pre.isPrefixOf path
  let rest := path.drop pre.length
  let ds := rest.takeWhile isDigit
  let tail := rest.drop ds.length
  if ds = [] ∨ (tail ≠ [] ∧ tail.head? ≠ some '/') then none
  else some (digitsToNat ds, tail)

-- "/proc/<digits>" exactly: the path a file opened by it remembers.
def procPid (path : Path) : Option Path :=
  let pre := "/proc/".toList
  let ds := path.drop pre.length
  if pre.isPrefixOf path && !ds.isEmpty && ds.all isDigit then some path else none

-- The anonymous filesystems `vfs_anon_fs` makes live under this directory.
def anonPrefix : Path := "/.mounts/".toList

def isAnon (p : Path) : Bool := anonPrefix.isPrefixOf p && decide (anonPrefix.length < p.length)

-- `struct inode_ops` with the two file operations the namespace code calls, over the inodes handed
-- in and the volumes; a missing one is `none`. `unlink` says whether the child's inode survives,
-- and with which private data.
structure DirOps (ψ : Type) where
  lookup : Option (ψ → Inode → Name → Option Node) := none
  create : Option (ψ → Inode → Name → (Int × Option Node) × ψ) := none
  mkdir : Option (ψ → Inode → Name → (Int × Option Node) × ψ) := none
  unlink : Option (ψ → Inode → Name → Inode → Int × Option Private × ψ) := none
  rename : Option (ψ → Inode → Name → Name → Inode → Int × Private × ψ) := none
  setattr : Option (ψ → Inode → Name → Inode → Int × ψ) := none
  link : Option (ψ → Inode → Name → Inode → Int × Private × ψ) := none
  symlink : Option (ψ → Inode → Name → Path → (Int × Option Node) × ψ) := none
  move : Option (ψ → Inode → Name → Inode → Name → Inode → Int × Private × ψ) := none
  read : Option (ψ → Inode → List Char) := none
  -- the first entry, given the names cached below the directory's dentry
  readdir : Option (ψ → Inode → List Name → Option Name) := none

def ramfsNode (kind : InodeType) : Node :=
  if kind = .dir then { kind, dirOps := true, mode := 0o755 }
  else { kind, mode := 0o644, priv := { nlink := 1 } }

-- Only a file, a link or a FIFO has a name count; the last name frees the inode.
def rfsUnlink (child : Inode) : Option Private :=
  if (child.kind = .file ∨ child.kind = .symlink ∨ child.kind = .fifo) ∧ 1 < child.priv.nlink then
    some { child.priv with nlink := child.priv.nlink - 1 }
  else none

def ramfsOps (ψ : Type) : DirOps ψ where
  create := some fun v _ _ => ((0, some (ramfsNode .file)), v)
  mkdir := some fun v _ _ => ((0, some (ramfsNode .dir)), v)
  unlink := some fun v _ _ child => (0, rfsUnlink child, v)
  rename := some fun v _ _ _ child => (0, child.priv, v)
  link := some fun v _ _ target =>
    if target.kind = .file then (0, { target.priv with nlink := target.priv.nlink + 1 }, v)
    else (-1, target.priv, v)
  symlink := some fun v _ _ target =>
    ((0, some { ramfsNode .symlink with priv := { nlink := 1, data := target } }), v)
  move := some fun v _ _ _ _ child => (0, child.priv, v)
  read := some fun _ ino => ino.priv.data
  readdir := some fun _ _ names => names.head?

-- A node with directory operations only if it is a directory, whose entries the VFS keeps.
def Node.Plain (node : Node) : Prop :=
  node.ownChildren = false ∧ (node.dirOps = true → node.kind = .dir)

-- A filesystem that makes such nodes only.
structure DirOps.Plain {ψ : Type} (ops : DirOps ψ) : Prop where
  lookup : ∀ {look v dir name node}, ops.lookup = some look → look v dir name = some node →
    node.Plain
  create : ∀ {op v dir name r node v'}, ops.create = some op →
    op v dir name = ((r, some node), v') → node.ownChildren = false ∧ node.dirOps = false
  mkdir : ∀ {op v dir name r node v'}, ops.mkdir = some op →
    op v dir name = ((r, some node), v') → node.Plain
  symlink : ∀ {op v dir name target r node v'}, ops.symlink = some op →
    op v dir name target = ((r, some node), v') → node.Plain

theorem ramfsOps_plain (ψ : Type) : (ramfsOps ψ).Plain where
  lookup h := by cases h
  create h h' := by
    cases h
    cases h'
    exact ⟨rfl, rfl⟩
  mkdir h h' := by
    cases h
    cases h'
    exact ⟨rfl, fun _ => rfl⟩
  symlink h h' := by
    cases h
    cases h'
    exact ⟨rfl, fun h => by cases h⟩

-- One table per driver, ramfs's own and those of the volumes.
abbrev Drivers (ψ : Type) := ℕ → DirOps ψ

variable {ψ : Type} (drv : Drivers ψ)

def opsOf : Driver → DirOps ψ
  | .ramfs => ramfsOps ψ
  | .vol k => drv k

def dirOps (ino : Inode) : Option (DirOps ψ) :=
  if ino.dirOps then some (opsOf drv ino.driver) else none

namespace State

variable (s : State ψ)

-- What the filesystem of `parent` answers for a name that is not cached.
def lookupNode (parent : DentryId) (name : Name) : Option (Driver × Node) := do
  let ino ← s.inodeOf parent
  let ops ← dirOps drv ino
  let look ← ops.lookup
  if nameMax < name.length then none
  else (look s.vol ino name).map fun node => (ino.driver, node)

def attachNode (parent : DentryId) (name : Name) (node : Driver × Node) : State ψ :=
  (s.newInode node.1 node.2).attachChild parent name s.inodes.next

end State

-- A miss in the cache is answered by the filesystem and the answer is cached.
def lookupChild (s : State ψ) (parent : DentryId) (name : Name) : Option DentryId × State ψ :=
  match s.findChild parent name with
  | some c => (some c, s)
  | none =>
    match s.lookupNode drv parent name with
    | some node => (some s.dentries.next, s.attachNode parent name node)
    | none => (none, s)

end DosKernel.Vfs

import DosKernel.Vfs.Ops

namespace DosKernel.Vfs

variable {ψ : Type} (drv : Drivers ψ) (c : Caller)

-- `magic_fd_dentry`: the descriptor's own dentry, for a path that is exactly its link.
def magicFdDentry (s : State ψ) (path : Path) : Option DentryId := do
  let p ← canonPlain c.cwd path pathCap
  let (fd, rest) ← parseFd ((c.procAlias p).getD p)
  if rest = [] then (s.fdFile c fd).map (·.dentry) else none

def wantedPerm (flags : OpenFlags) : ℕ :=
  let want := (if flags.rdonly then permRead else 0) |||
    (if flags.wronly || flags.trunc then permWrite else 0)
  if want = 0 then permRead else want

def vfsRealpath (s : State ψ) (path : Path) : Option Path × State ψ :=
  match s.canon c path pathCap with
  | none => (none, s)
  | some p => expandLinks drv c true s p

def openedBy (s : State ψ) (path : Path) (crossed : Bool) : Option Path × State ψ :=
  match (canonPlain c.cwd path pathCap).bind procPid with
  | some p => (some p, s)
  | none => if crossed then vfsRealpath drv c s path else (none, s)

def openDentry (s : State ψ) (path : Path) (flags : OpenFlags) :
    Option (DentryId × Bool) × State ψ :=
  match resolvePathEx drv c (!flags.nofollow) s path with
  | (w, s) =>
    match w.target, if flags.nofollow then none else magicFdDentry c s path with
    | some d, _ => (some (d, w.crossed), s)
    | none, some d => (some (d, false), s)
    | none, none =>
      if !flags.create || w.parent.isNone then (none, s)
      else
        match vfsCreate drv c s path with
        | (r, s) =>
          if r ≠ 0 then (none, s)
          else
            match resolvePath drv c s path with
            | (d, s) => (d.map fun d => (d, w.crossed), s)

namespace State

variable (s : State ψ)

def addOpen (m : Option ℕ) : State ψ :=
  { s with mounts := m.elim s.mounts fun i =>
      s.mounts.modify i fun mt => { mt with openFiles := mt.openFiles + 1 } }

def subOpen (m : Option ℕ) : State ψ :=
  { s with mounts := m.elim s.mounts fun i =>
      s.mounts.modify i fun mt => { mt with openFiles := mt.openFiles - 1 } }

def addFile (d : DentryId) (i : InodeId) (flags : OpenFlags) (vpath : Option Path) : State ψ :=
  let s := { s with files := s.files.alloc { inode := i, dentry := d, flags, vpath } }
  let s := s.modInode i fun ino => { ino with opens := ino.opens + 1 }
  s.addOpen (s.mountOf d)

def truncate (i : InodeId) : State ψ :=
  s.modInode i fun ino =>
    if ino.kind = .file then { ino with priv := { ino.priv with data := [] } } else ino

end State

def finishOpen (s : State ψ) (path : Path) (flags : OpenFlags) (d : DentryId) (crossed : Bool) :
    Option FileId × State ψ :=
  match s.inodeIdOf d, s.inodeOf d with
  | some i, some ino =>
    if !permitted c.cred ino (wantedPerm flags) then (none, s)
    else
      let s := if flags.trunc then s.truncate i else s
      match openedBy drv c s path crossed with
      | (vpath, s) => (some s.files.next, s.addFile d i flags vpath)
  | _, _ => (none, s)

-- `vfs_open`; a generator's open hook runs after it and changes nothing here.
def vfsOpen (s : State ψ) (path : Path) (flags : OpenFlags) : Option FileId × State ψ :=
  match if flags.wronly || flags.create || flags.trunc then roPath drv c s path else (false, s) with
  | (true, s) => (none, s)
  | (false, s) =>
    match openDentry drv c s path flags with
    | (none, s) => (none, s)
    | (some (d, crossed), s) => finishOpen drv c s path flags d crossed

-- The removal `vfs_unlink` deferred, done by the last close, whatever the driver answers.
def deferredUnlink (s : State ψ) (i : InodeId) : State ψ :=
  match s.inodes.get i with
  | none => s
  | some ino =>
    match ino.unlinkDir with
    | none => s
    | some di =>
      let s := s.modInode i fun x => { x with unlinkDir := none, unlinkName := [] }
      match s.inodes.get di with
      | none => s
      | some dir =>
        match (dirOps drv dir).bind (·.unlink) with
        | none => s
        | some unlink =>
          match unlink s.vol dir ino.unlinkName { ino with unlinkDir := none, unlinkName := [] } with
          | (r, priv, v) => if r = 0 then (s.setVol v).settleInode i priv else s.setVol v

-- `vfs_close`; a file already closed is refused.
def vfsClose (s : State ψ) (f : FileId) : Int × State ψ :=
  match s.files.get f with
  | none => (-1, s)
  | some file =>
    let pending := ((s.inodes.get file.inode).bind (·.unlinkDir)).isSome
    let s1 := s.subOpen (if pending then none else s.mountOf file.dentry)
    let s2 := s1.modInode file.inode fun ino => { ino with opens := ino.opens - 1 }
    let last := (s.inodes.get file.inode).any fun ino => decide (ino.opens = 1)
    let s3 := if last then deferredUnlink drv s2 file.inode else s2
    (0, { s3 with files := s3.files.free f })

def firstEntry (s : State ψ) (f : FileId) : Option Name := do
  let file ← s.files.get f
  let ino ← s.inodes.get file.inode
  let readdir ← (opsOf drv ino.driver).readdir
  readdir s.vol ino ((s.children file.dentry).filterMap fun d => (s.dentries.get d).map (·.name))

def childPath (path : Path) (name : Name) : Path :=
  (if path = ['/'] then path else path ++ ['/']) ++ name

-- The loop of `unlink_rec` over a directory's first entry: `none` at its end, `some r` to give up.
def unlinkLoop (recurse : State ψ → Path → Int × State ψ) (path : Path) (f : FileId) :
    ℕ → State ψ → Option Int × State ψ
  | 0, s => (some (-1), s)
  | fuel + 1, s =>
    match firstEntry drv s f with
    | none => (none, s)
    | some name =>
      if pathCap < path.length + 1 + name.length + 1 then (some (-1), s)
      else
        match recurse s (childPath path name) with
        | (r, s) => if r ≠ 0 then (some r, s) else unlinkLoop recurse path f fuel s

-- `unlink_rec`, by the levels still allowed. `fuel` bounds the loop, which the source does not.
def unlinkRec (fuel : ℕ) : ℕ → State ψ → Path → Int × State ψ
  | levels, s, path =>
    match vfsOpen drv c s path { rdonly := true } with
    | (none, s) => (-1, s)
    | (some f, s) =>
      let isDir := ((s.files.get f).bind fun file => s.inodes.get file.inode).any
        fun ino => decide (ino.kind = .dir)
      if isDir then
        match levels with
        | 0 => (-1, (vfsClose drv s f).2)
        | levels + 1 =>
          match unlinkLoop drv (unlinkRec fuel levels) path f fuel s with
          | (some r, s) => (r, (vfsClose drv s f).2)
          | (none, s) => vfsUnlink drv c (vfsClose drv s f).2 path
      else vfsUnlink drv c (vfsClose drv s f).2 path

def vfsUnlinkRecursive (fuel : ℕ) (s : State ψ) (path : Path) : Int × State ψ :=
  match roPath drv c s path with
  | (true, s) => (-30, s)
  | (false, s) =>
    if path = [] ∨ pathCap ≤ path.length then (-1, s) else unlinkRec drv c fuel 8 s path

def seqWrap : ℕ := 4294967296

-- The target dentry itself, not what a bind on it would redirect to.
def bindTarget (s : State ψ) (path : Path) : Option DentryId × State ψ :=
  match s.splitParent c path with
  | none => (none, s)
  | some (buf, last) =>
    match resolveDir drv c s buf with
    | (none, s) => (none, s)
    | (some (p, _), s) => lookupChild drv s p last

namespace State

variable (s : State ψ)

def nextSeq : ℕ := (s.bindSeq + 1) % seqWrap

def installBind (m : ℕ) (target source : DentryId) : State ψ :=
  let s := { s with bindSeq := s.nextSeq, binds := s.binds ++ [(target, source)] }
  s.modDentry target fun dn =>
    { dn with bound := some source, boundNs := m, boundSeq := s.bindSeq }

-- The last record of the table takes the removed one's place.
def dropBind (target : DentryId) : List (DentryId × DentryId) :=
  match s.binds.findIdx? (fun b => decide (b.1 = target)), s.binds.getLast? with
  | some i, some b => (s.binds.set i b).dropLast
  | _, _ => s.binds

def removeBind (target : DentryId) : State ψ :=
  { s with binds := s.dropBind target }.modDentry target fun dn => { dn with bound := none }

def markReadonly (m : ℕ) (target : DentryId) (ro : Bool) : State ψ :=
  let s := { s with bindSeq := s.nextSeq }
  s.modDentry target fun dn => { dn with ro, roNs := m, roSeq := s.bindSeq }

end State

-- Source and target of a bind, the source through the binds already there.
def bindPaths (s : State ψ) (src tgt : Path) : (Option DentryId × Option DentryId) × State ψ :=
  match resolvePath drv c s src with
  | (source, s) =>
    match bindTarget drv c s tgt with
    | (target, s) => ((source, target), s)

def bindDentries (s : State ψ) (source target : DentryId) : Int × State ψ :=
  match s.inodeOf source, s.inodeOf target with
  | some sino, some tino =>
    if (s.boundFor c.mntns target).isSome then (-2, s)
    else if decide (sino.kind = .dir) ≠ decide (tino.kind = .dir) then (-3, s)
    else if maxBinds ≤ s.binds.length then (-4, s)
    else if source = target then (0, s)
    else (0, s.installBind c.mntns target source)
  | _, _ => (-1, s)

def vfsBind (s : State ψ) (src tgt : Path) : Int × State ψ :=
  match bindPaths drv c s src tgt with
  | ((some source, some target), s) => bindDentries c s source target
  | (_, s) => (-1, s)

-- `vfs_unbind`: an anonymous filesystem's directory goes with its mount, outside the lock.
def vfsUnbind (fuel : ℕ) (s : State ψ) (tgt : Path) : Int × State ψ :=
  match bindTarget drv c s tgt with
  | (none, s) => (-1, s)
  | (some target, s) =>
    match s.boundFor c.mntns target with
    | none => (-1, s)
    | some source =>
      let s1 := s.removeBind target
      match (s.dentryPath c source).filter isAnon with
      | none => (0, s1)
      | some anon => (0, (vfsUnlinkRecursive drv c fuel s1 anon).2)

def vfsSetReadonly (s : State ψ) (path : Path) (ro : Bool) : Int × State ψ :=
  match if path = ['/'] then (some (s.base c), s) else bindTarget drv c s path with
  | (none, s) => (-1, s)
  | (some target, s) => (0, s.markReadonly c.mntns target ro)

def vfsMntnsNew (s : State ψ) (parent : ℕ) : Int × State ψ :=
  if s.ns.length < maxMntns ∧ parent < s.ns.length then
    (s.ns.length, { s with ns := s.ns ++ [{ parent, born := s.bindSeq }] })
  else (-1, s)

end DosKernel.Vfs

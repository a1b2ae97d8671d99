import DosKernel.Vfs.Resolve

namespace DosKernel.Vfs

variable {ψ : Type} (drv : Drivers ψ) (c : Caller)

namespace State

variable (s : State ψ)

def inodeIdOf (d : DentryId) : Option InodeId := (s.dentries.get d).bind (·.inode)

def setVol (v : ψ) : State ψ := { s with vol := v }

def settleInode (i : InodeId) : Option Private → State ψ
  | none => { s with inodes := s.inodes.free i }
  | some priv => s.modInode i fun ino => { ino with priv }

end State

inductive MakeKind where
  | file
  | dir
  | fifo
deriving DecidableEq, Repr

-- A new file belongs to its maker, and a filesystem that stores ownership is told so.
def stampOwner (s : State ψ) (dir : Inode) (ops : DirOps ψ) (last : Name) (i : InodeId) : State ψ :=
  if c.cred.owner = .user then
    let s := s.modInode i fun ino => { ino with uid := credUid c.cred, gid := credGid c.cred }
    match ops.setattr, s.inodes.get i with
    | some setattr, some ino => s.setVol (setattr s.vol dir last ino).2
    | _, _ => s
  else s

def makeEntry (s : State ψ) (kind : MakeKind) (p : DentryId) (dir : Inode) (last : Name) :
    Int × State ψ :=
  match dirOps drv dir with
  | none => (-1, s)
  | some ops =>
    if !permitted c.cred dir permWrite then (-5, s)
    else
      match if kind = .dir then ops.mkdir else ops.create with
      | none => (-1, s)
      | some op =>
        if kind = .fifo ∧ ((s.mountOf p).bind (s.mounts[·]?)).any (·.hasDev) then (-3, s)
        else if (s.findChild p last).isSome then (-2, s)
        else
          match op s.vol dir last with
          | ((r, none), v) => (if r = 0 then -3 else r, s.setVol v)
          | ((r, some node), v) =>
            if r ≠ 0 then (r, s.setVol v)
            else
              let node := if kind = .fifo then { node with kind := .fifo } else node
              let i := s.inodes.next
              let s := stampOwner c ((s.setVol v).newInode dir.driver node) dir ops last i
              (0, s.attachChild p last i)

-- EROFS below a read-only mount, then the directory of the last name, which `split_parent` never
-- leaves empty.
def locate (s : State ψ) (path : Path) : Except Int (DentryId × Inode × Name) × State ψ :=
  match roPath drv c s path with
  | (true, s) => (.error (-30), s)
  | (false, s) =>
    match s.splitParent c path with
    | none => (.error (-1), s)
    | some (buf, last) =>
      match resolveDir drv c s buf with
      | (none, s) => (.error (-1), s)
      | (some (p, dir), s) => (.ok (p, dir, last), s)

def vfsMutator (kind : MakeKind) (s : State ψ) (path : Path) : Int × State ψ :=
  match locate drv c s path with
  | (.error r, s) => (r, s)
  | (.ok (p, dir, last), s) => makeEntry drv c s kind p dir last

def vfsCreate := vfsMutator drv c .file

def vfsMkdir := vfsMutator drv c .dir

def vfsMkfifo := vfsMutator drv c .fifo

-- The checks of `vfs_unlink_unlocked` on the entry it is about to remove.
def unlinkCheck (s : State ψ) (p : DentryId) (dir : Inode) (last : Name) : Except Int DentryId :=
  if ((dirOps drv dir).bind (·.unlink)).isNone then .error (-1)
  else if !permitted c.cred dir permWrite then .error (-5)
  else
    match s.findChild p last with
    | none => .error (-1)
    | some d =>
      match s.dentries.get d, s.inodeOf d with
      | some dn, some ino =>
        if dn.bound.isSome then .error (-6)
        else if ino.kind = .dir ∧ dn.children ≠ [] ∧ ino.ownChildren = false then .error (-2)
        else if ino.kind = .device then .error (-1)
        else .ok d
      | _, _ => .error (-1)

-- Still open: the file goes with its last close. Otherwise the filesystem's `unlink` decides.
def removeEntry (s : State ψ) (p : DentryId) (dir : Inode) (d : DentryId) (last : Name) :
    Int × State ψ :=
  match s.inodeIdOf p, s.inodeIdOf d, s.inodeOf d, (dirOps drv dir).bind (·.unlink) with
  | some di, some i, some ino, some unlink =>
    if ino.kind ≠ .dir ∧ 0 < ino.opens then
      (0, (s.modInode i fun x => { x with unlinkDir := some di, unlinkName := last }).detach p d)
    else
      match unlink s.vol dir last ino with
      | (r, priv, v) =>
        if r ≠ 0 then (r, s.setVol v)
        else (0, (((s.setVol v).settleInode i priv).freeChildren d).detach p d)
  | _, _, _, _ => (-1, s)

def unlinkTarget (s : State ψ) (path : Path) :
    Except Int (DentryId × Inode × DentryId × Name) × State ψ :=
  match locate drv c s path with
  | (.error r, s) => (.error r, s)
  | (.ok (p, dir, last), s) =>
    match unlinkCheck drv c s p dir last with
    | .error r => (.error r, s)
    | .ok d => (.ok (p, dir, d, last), s)

def vfsUnlink (s : State ψ) (path : Path) : Int × State ψ :=
  match unlinkTarget drv c s path with
  | (.error r, s) => (r, s)
  | (.ok (p, dir, d, last), s) => removeEntry drv s p dir d last

def opsTable (ino : Inode) : Option Driver := if ino.dirOps then some ino.driver else none

-- `vfs_link_unlocked` in two halves: the paths, then the entry
def linkEntry (s : State ψ) (src : DentryId) (p : DentryId) (dir : Inode) (last : Name) :
    Int × State ψ :=
  match (dirOps drv dir).bind (·.link), s.inodeIdOf src, s.inodeOf src with
  | some link, some i, some ino =>
    let srcDir := ((s.dentries.get src).bind (·.parent)).bind s.inodeOf
    if srcDir.map opsTable ≠ some (opsTable dir) then (-1, s)
    else if !permitted c.cred dir permWrite then (-5, s)
    else if (s.findChild p last).isSome then (-2, s)
    else
      match link s.vol dir last ino with
      | (r, priv, v) =>
        if r ≠ 0 then (-1, s.setVol v)
        else (0, ((s.setVol v).modInode i fun x => { x with priv }).attachChild p last i)
  | _, _, _ => (-1, s)

def locateLink (s : State ψ) (oldpath newpath : Path) :
    Except Int (DentryId × DentryId × Inode × Name) × State ψ :=
  match roPath drv c s newpath with
  | (true, s) => (.error (-30), s)
  | (false, s) =>
    match resolvePath drv c s oldpath with
    | (none, s) => (.error (-1), s)
    | (some src, s) =>
      if !(s.inodeOf src).any (fun ino => decide (ino.kind = .file)) then (.error (-1), s)
      else
        match s.splitParent c newpath with
        | none => (.error (-1), s)
        | some (buf, last) =>
          if nameMax < last.length then (.error (-1), s)
          else
            match resolveDir drv c s buf with
            | (none, s) => (.error (-1), s)
            | (some (p, dir), s) => (.ok (src, p, dir, last), s)

def vfsLink (s : State ψ) (oldpath newpath : Path) : Int × State ψ :=
  match locateLink drv c s oldpath newpath with
  | (.error r, s) => (r, s)
  | (.ok (src, p, dir, last), s) => linkEntry drv c s src p dir last

def symlinkEntry (s : State ψ) (target : Path) (p : DentryId) (dir : Inode) (last : Name) :
    Int × State ψ :=
  match (dirOps drv dir).bind (·.symlink) with
  | none => (-3, s)
  | some symlink =>
    if !permitted c.cred dir permWrite then (-5, s)
    else if (s.findChild p last).isSome then (-2, s)
    else
      match symlink s.vol dir last target with
      | ((_, none), v) => (-1, s.setVol v)
      | ((r, some node), v) =>
        if r ≠ 0 then (-1, s.setVol v)
        else
          let node := { node with mode := 0o777 }
          let node := if c.cred.owner = .user then
            { node with uid := credUid c.cred, gid := credGid c.cred } else node
          (0, ((s.setVol v).newInode dir.driver node).attachChild p last s.inodes.next)

def locateSymlink (s : State ψ) (target linkpath : Path) :
    Except Int (DentryId × Inode × Name) × State ψ :=
  match roPath drv c s linkpath with
  | (true, s) => (.error (-30), s)
  | (false, s) =>
    if target = [] ∨ 255 ≤ target.length then (.error (-1), s)
    else
      match s.splitParent c linkpath with
      | none => (.error (-1), s)
      | some (buf, last) =>
        if nameMax < last.length then (.error (-1), s)
        else
          match resolveDir drv c s buf with
          | (none, s) => (.error (-1), s)
          | (some (p, dir), s) => (.ok (p, dir, last), s)

def vfsSymlink (s : State ψ) (target linkpath : Path) : Int × State ψ :=
  match locateSymlink drv c s target linkpath with
  | (.error r, s) => (r, s)
  | (.ok (p, dir, last), s) => symlinkEntry drv c s target p dir last

namespace State

variable (s : State ψ)

-- The loop of `vfs_rename_unlocked` keeps the last child of that name it passes.
def findLastChild (parent : DentryId) (name : Name) : Option DentryId :=
  (s.children parent).reverse.find? (s.hasName name)

def renameDentry (d : DentryId) (name : Name) : State ψ :=
  s.modDentry d fun dn => { dn with name := name.take nameMax }

-- Out of the old parent's sibling chain, to the head of the new one's.
def moveDentry (d op np : DentryId) (name : Name) : State ψ :=
  let s := s.modDentry op fun p => { p with children := p.children.erase d }
  let s := s.modDentry d fun dn => { dn with parent := some np, name := name.take nameMax }
  s.modDentry np fun p => { p with children := d :: p.children }

def reaches (d : DentryId) : ℕ → DentryId → Bool
  | 0, _ => false
  | fuel + 1, a =>
    if a = d then true
    else
      match (s.dentries.get a).bind (·.parent) with
      | none => false
      | some p => if p = a then false else reaches d fuel p

end State

def renameEntry (s : State ψ) (p : DentryId) (olast nlast : Name) : Int × State ψ :=
  match s.inodeOf p with
  | none => (-1, s)
  | some dir =>
    if dir.kind ≠ .dir then (-1, s)
    else
      match (dirOps drv dir).bind (·.rename) with
      | none => (-1, s)
      | some rename =>
        if nameMax < nlast.length then (-1, s)
        else if (s.findChild p nlast).isSome then (-2, s)
        else
          match s.findLastChild p olast with
          | none => (-1, s)
          | some d =>
            match s.inodeIdOf d, s.inodeOf d with
            | some i, some ino =>
              if ino.kind = .device then (-1, s)
              else
                match rename s.vol dir olast nlast ino with
                | (r, priv, v) =>
                  if r ≠ 0 then (r, s.setVol v)
                  else
                    (0, ((s.setVol v).modInode i fun x => { x with priv }).renameDentry d nlast)
            | _, _ => (-1, s)

def vfsMove (s : State ψ) (op : DentryId) (olast : Name) (np : DentryId) (nlast : Name) :
    Int × State ψ :=
  match s.inodeOf op, s.inodeOf np with
  | some odir, some ndir =>
    if odir.kind ≠ .dir ∨ ndir.kind ≠ .dir ∨ nameMax < nlast.length then (-1, s)
    else if s.mountOf op ≠ s.mountOf np then (-3, s)
    else
      match (dirOps drv odir).bind (·.move) with
      | none => (-3, s)
      | some move =>
        if opsTable odir ≠ opsTable ndir then (-3, s)
        else if !permitted c.cred odir permWrite || !permitted c.cred ndir permWrite then (-5, s)
        else
          match s.findChild op olast with
          | none => (-1, s)
          | some d =>
            match s.inodeIdOf d, s.inodeOf d with
            | some i, some ino =>
              if ino.kind = .device then (-1, s)
              else if (s.findChild np nlast).isSome then (-2, s)
              else if s.mounts.any (fun m => decide (m.mp = d)) then (-1, s)
              else if s.reaches d s.dentries.next np then (-1, s)
              else
                match move s.vol odir olast ndir nlast ino with
                | (r, priv, v) =>
                  if r ≠ 0 then (r, s.setVol v)
                  else
                    (0, ((s.setVol v).modInode i fun x => { x with priv }).moveDentry
                      d op np nlast)
            | _, _ => (-1, s)
  | _, _ => (-1, s)

-- The common beginning of both renames: EROFS, then the two names and their directories.
def locateBoth (s : State ψ) (oldpath newpath : Path) :
    Except Int (DentryId × Name × DentryId × Name) × State ψ :=
  match roPath drv c s oldpath with
  | (true, s) => (.error (-30), s)
  | (false, s) =>
    match roPath drv c s newpath with
    | (true, s) => (.error (-30), s)
    | (false, s) =>
      match s.splitParent c oldpath, s.splitParent c newpath with
      | some (obuf, olast), some (nbuf, nlast) =>
        match resolvePath drv c s obuf with
        | (r, s) =>
          match r, resolvePath drv c s nbuf with
          | some op, (some np, s) => (.ok (op, olast, np, nlast), s)
          | _, (_, s) => (.error (-1), s)
      | _, _ => (.error (-1), s)

def renameIn (s : State ψ) (op : DentryId) (olast : Name) (np : DentryId) (nlast : Name) :
    Int × State ψ :=
  if op ≠ np then vfsMove drv c s op olast np nlast else renameEntry drv s op olast nlast

def vfsRename (s : State ψ) (oldpath newpath : Path) : Int × State ψ :=
  match locateBoth drv c s oldpath newpath with
  | (.error r, s) => (r, s)
  | (.ok (op, olast, np, nlast), s) => renameIn drv c s op olast np nlast

-- What `vfs_rename_replace_unlocked` asks of an existing target: the code it gives up with. A
-- directory is replaced by a directory, when empty.
def replaceCheck (s : State ψ) (oldpath newpath : Path) : Option Int × State ψ :=
  match resolvePath drv c s newpath with
  | (none, s) => (some (-2), s)
  | (some t, s) =>
    match s.inodeOf t with
    | none => (some (-2), s)
    | some ino =>
      if ino.kind = .dir then
        match resolvePath drv c s oldpath with
        | (src, s) =>
          if !src.any s.isDir then (some (-2), s)
          else if s.children t ≠ [] then (some (-4), s)
          else (none, s)
      else (none, s)

def replaceTarget (s : State ψ) (oldpath newpath : Path) : Int × State ψ :=
  match replaceCheck drv c s oldpath newpath with
  | (some r, s) => (r, s)
  | (none, s) =>
    match vfsUnlink drv c s newpath with
    | (r, s) => if r ≠ 0 then (-1, s) else vfsRename drv c s oldpath newpath

def vfsRenameReplace (s : State ψ) (oldpath newpath : Path) : Int × State ψ :=
  match locateBoth drv c s oldpath newpath with
  | (.error r, s) => (r, s)
  | (.ok _, s) =>
    match vfsRename drv c s oldpath newpath with
    | (r, s) => if r ≠ -2 then (r, s) else replaceTarget drv c s oldpath newpath

end DosKernel.Vfs

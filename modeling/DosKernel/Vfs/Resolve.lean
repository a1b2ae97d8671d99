import DosKernel.Vfs.State

namespace DosKernel.Vfs

variable {ψ : Type}

-- Up the parent chain from `n`: the step that leaves the namespace `owner` decides by its birth
-- stamp. Parents are older, so the table's length bounds a chain.
def inheritsFrom (ns : List Mntns) (owner seq : ℕ) : ℕ → ℕ → Bool
  | 0, _ => false
  | fuel + 1, n =>
    if n = 0 then false
    else
      match ns[n]? with
      | none => false
      | some r => if r.parent = owner then decide (seq < r.born) else
          inheritsFrom ns owner seq fuel r.parent

-- The rule of `bind_visible` and `ro_visible`: made in the namespace, or in an ancestor before the
-- descendant on the way.
def nsVisible (ns : List Mntns) (me owner seq : ℕ) : Bool :=
  decide (owner = me) || inheritsFrom ns owner seq ns.length me

namespace State

variable (s : State ψ)

def boundFor (m : ℕ) (d : DentryId) : Option DentryId :=
  (s.dentries.get d).bind fun dn =>
    if nsVisible s.ns m dn.boundNs dn.boundSeq then dn.bound else none

def roFor (m : ℕ) (d : DentryId) : Bool :=
  (s.dentries.get d).any fun dn => dn.ro && nsVisible s.ns m dn.roNs dn.roSeq

def followBind (m : ℕ) : ℕ → DentryId → DentryId
  | 0, d => d
  | k + 1, d =>
    match s.boundFor m d with
    | none => d
    | some b => followBind m k b

-- Whether the dentries `followBind` passes include a read-only mount.
def passesRo (m : ℕ) : ℕ → DentryId → Bool
  | 0, d => s.roFor m d
  | k + 1, d => s.roFor m d || (s.boundFor m d).any (passesRo m k)

def base (c : Caller) : DentryId := c.fsRoot.getD s.root

-- `dentry_path_from`: the names from below `top` down to `d`, at most 48 of them.
def pathFrom (top : DentryId) : ℕ → DentryId → Option (List Name)
  | fuel, d =>
    if d = top then some []
    else
      match fuel, s.dentries.get d with
      | fuel + 1, some dn =>
        if d = s.root then none
        else
          match dn.parent with
          | none => none
          | some p => if p = d then none else (pathFrom top fuel p).map (· ++ [dn.name])
      | _, _ => none

-- `vfs_dentry_path_unlocked`; the empty path for the task's own root
def dentryPath (c : Caller) (d : DentryId) : Option Path :=
  ((s.pathFrom (s.base c) 48 d).map joined).filter fun p => decide (p.length < pathCap)

-- `fd_vfs_dentry`: nothing for a descriptor whose file is already unlinked.
def fdFile (c : Caller) (fd : ℕ) : Option File := do
  let f ← s.files.get (← c.fds fd)
  if ((s.inodes.get f.inode).bind (·.unlinkDir)).isSome then none else some f

def fdMagic (c : Caller) (path : Path) : Option Path :=
  if path = procSelfExe then
    if c.procExe = [] then none else some (c.procExe.take (pathCap - 1))
  else do
    let (fd, rest) ← parseFd path
    let f ← s.fdFile c fd
    let m ← match f.vpath with
      | some vp => some (vp.take (pathCap - 1))
      | none => s.dentryPath c f.dentry
    some (((if m = [] then ['/'] else m) ++ rest).take (pathCap - 1))

-- `vfs_canon`: canonical text, a trailing slash dropped, the /proc spellings rewritten.
def canon (c : Caller) (path : Path) (cap : ℕ) : Option Path := do
  let p ← canonPlain c.cwd path cap
  let q := stripTrailing p
  if q ≠ p ∧ cap < p.length + 1 then none
  else
    let a ← match c.procAlias q with
      | some a => if cap < a.length + 1 then none else some a
      | none => some q
    match s.fdMagic c a with
    | none => some a
    | some m => (canonPlain c.cwd m cap).filter fun r => decide (r.length + 1 ≤ cap)

def splitParent (c : Caller) (path : Path) : Option (Path × Name) := do
  let p ← s.canon c path (pathCap - 1)
  if p = [] ∨ pathCap < p.length + 2 then none else splitLast (stripTrailing p)

end State

variable (drv : Drivers ψ) (c : Caller)

def State.linkTarget (s : State ψ) (d : DentryId) : Option Path := do
  let ino ← s.inodeOf d
  let read ← (opsOf drv ino.driver).read
  let t := (read s.vol ino).take (pathCap - 1)
  if ino.kind ≠ .symlink ∨ t = [] then none else some t

def State.isLink (s : State ψ) (d : DentryId) : Bool :=
  (s.inodeOf d).any fun ino => decide (ino.kind = .symlink)

inductive Pass where
  | clean
  | refused
  | splice (b : Path)

-- The text with a link replaced: an absolute target restarts from the task's "/", a relative one
-- from the link's directory.
def spliceLink (done rest : List Name) (target : Path) : Pass :=
  let pre := if isAbsolute target then [] else '/' :: done.flatMap (· ++ ['/'])
  let b := pre ++ target ++ joined rest
  if 512 < b.length + 1 then .refused else .splice b

-- One pass of `expand_links`: the first symbolic link met is replaced. Binds are not followed.
def expandPass (followLast : Bool) (s : State ψ) (cur : DentryId) (done : List Name) :
    List Name → Pass × State ψ
  | [] => (.clean, s)
  | [[]] => (.clean, s)
  | name :: rest =>
    let (r, s) := lookupChild drv s cur name
    match r with
    | none => (.clean, s)
    | some d =>
      if s.isLink d && (!rest.isEmpty || followLast) then
        match s.linkTarget drv d with
        | none => (.refused, s)
        | some t => (spliceLink done rest t, s)
      else if s.isDir d then expandPass followLast s d (done ++ [name]) rest
      else (.clean, s)

def expandHops (followLast : Bool) : ℕ → State ψ → Path → Option Path × State ψ
  | 0, s, _ => (none, s)
  | k + 1, s, a =>
    match expandPass drv followLast s (s.base c) [] (components a.tail) with
    | (.clean, s) => (some a, s)
    | (.refused, s) => (none, s)
    | (.splice b, s) =>
      match s.canon c b pathCap with
      | none => (none, s)
      | some a => if pathCap < a.length + 1 then (none, s) else expandHops followLast k s a

def expandLinks (followLast : Bool) (s : State ψ) (path : Path) : Option Path × State ψ :=
  if pathCap < path.length + 1 then (none, s) else expandHops drv c followLast 41 s path

-- The directory of the last component once reached, the dentry there, and whether the walk passed
-- a read-only mount or was redirected.
structure Walk where
  parent : Option DentryId := none
  target : Option DentryId := none
  ro : Bool := false
  crossed : Bool := false
deriving DecidableEq, Repr

-- The component loop of `resolve_path_ex`, binds followed.
def walk (s : State ψ) (cur : DentryId) (ro crossed : Bool) : List Name → Walk × State ψ
  | [] => ({ ro, crossed }, s)
  | name :: rest =>
    if name = [] ∨ nameMax < name.length then ({ ro, crossed }, s)
    else
      let (r, s) := lookupChild drv s cur name
      match r with
      | none => ({ parent := if rest.isEmpty then some cur else none, ro, crossed }, s)
      | some d =>
        let e := s.followBind c.mntns 8 d
        let ro := ro || s.passesRo c.mntns 8 d
        let crossed := crossed || (s.boundFor c.mntns d).isSome
        if rest.isEmpty then ({ parent := some cur, target := some e, ro, crossed }, s)
        else if s.isDir e then walk s e ro crossed rest
        else ({ ro, crossed }, s)

def walkPath (s : State ψ) (path : Path) : Walk × State ψ :=
  if path.tail = [] then ({ target := some (s.base c) }, s)
  else walk drv c s (s.base c) false false (components path.tail)

def canonExpand (followLast : Bool) (s : State ψ) (path : Path) : Option Path × State ψ :=
  if path = [] then (none, s)
  else
    match s.canon c path pathCap with
    | none => (none, s)
    | some p => if isAbsolute p then expandLinks drv c followLast s p else (none, s)

def resolveCore (followLast : Bool) (s : State ψ) (path : Path) : Walk × State ψ :=
  match canonExpand drv c followLast s path with
  | (none, s) => ({}, s)
  | (some p, s) => walkPath drv c s p

-- `resolve_path_ex` for a caller that asks for the last name: a rewritten path is resolved again.
def resolvePathEx (followLast : Bool) (s : State ψ) (path : Path) : Walk × State ψ :=
  match canonExpand drv c followLast s path with
  | (none, s) => ({}, s)
  | (some p, s) => if p = path then walkPath drv c s p else resolveCore drv c followLast s p

def resolvePath (s : State ψ) (path : Path) : Option DentryId × State ψ :=
  let (w, s) := resolveCore drv c true s path
  (w.target, s)

def roPath (s : State ψ) (path : Path) : Bool × State ψ :=
  let (w, s) := resolvePathEx drv c false s path
  (w.ro || w.parent.any (s.roFor c.mntns), s)

-- The directory a path's last name stands in: what the text before it resolves to.
def resolveDir (s : State ψ) (dir : Path) : Option (DentryId × Inode) × State ψ :=
  let (r, s) := resolvePath drv c s dir
  (do
    let p ← r
    let ino ← s.inodeOf p
    if ino.kind = .dir then some (p, ino) else none, s)

def State.mountFrom (s : State ψ) : ℕ → DentryId → Option ℕ
  | 0, _ => none
  | fuel + 1, d =>
    match s.mounts.findIdx? (fun m => decide (m.mp = d)), s.dentries.get d with
    | some i, _ => some i
    | none, none => none
    | none, some dn =>
      match dn.parent with
      | none => none
      | some p => if p = d then none else mountFrom s fuel p

def State.mountOf (s : State ψ) (d : DentryId) : Option ℕ := s.mountFrom s.dentries.next d

end DosKernel.Vfs

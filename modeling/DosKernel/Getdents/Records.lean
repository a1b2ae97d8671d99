import DosKernel.Cgroup.Files
import DosKernel.Vfs.State

namespace DosKernel.Getdents

open List

open DosKernel.Vfs (InodeType nameMax)

-- What a `char name[VFS_NAME_MAX + 1]` holds up to its terminator.
structure DirName where
  bytes : List ℕ
  noNul : 0 ∉ bytes
  short : bytes.length ≤ nameMax
deriving DecidableEq

structure Dirent where
  name : DirName
  type : InodeType
  size : ℕ
deriving DecidableEq

structure Child where
  name : DirName
  inode : Option (InodeType × ℕ)

def Child.dirent (c : Child) : Dirent where
  name := c.name
  type := (c.inode.map Prod.fst).getD .file
  size := (c.inode.map Prod.snd).getD 0

-- `rfs_readdir`: the walk along the siblings stops at child `pos`.
def rfsReaddir (children : List Child) (pos : ℕ) : Option Dirent :=
  match children.drop pos with
  | [] => none
  | c :: _ => some c.dirent

-- The 32-byte entries of an exFAT directory; a name entry holds 15 UTF-16 units.
inductive DirEntry where
  | endMark
  | deleted
  | file (secCount : ℕ) (directory : Bool)
  | stream (nameLength dataLength : ℕ)
  | name (units : List ℕ)
  | other
deriving DecidableEq

def maxNameEntries : ℕ := 17

-- The name entries of a set, up to `n` of them; `none` if the directory ends among them.
def nameEntries : ℕ → List DirEntry → Option (List (List ℕ))
  | 0, _ => some []
  | _ + 1, [] => none
  | n + 1, .name units :: rest => (nameEntries n rest).map (units :: ·)
  | _ + 1, _ :: _ => some []

theorem noNul_takeWhile (bytes : List ℕ) : 0 ∉ bytes.takeWhile (· ≠ 0) := by
  intro h
  simpa using mem_takeWhile_imp h

-- `decode_name`: a unit past 255 and a name past 255 bytes are refused, and so is an empty one.
def decodeName (names : List (List ℕ)) (nameLength : ℕ) : Option DirName :=
  let units := names.flatten.take nameLength
  if units.any (· ≥ 256) then none
  else if h : units.length ≤ nameMax then
    if units = [] then none
    else some ⟨units.takeWhile (· ≠ 0), noNul_takeWhile units,
      (takeWhile_sublist _).length_le.trans h⟩
  else none

-- The entry sets `scan_directory` visits; every round reads an entry.
def visibleSets : ℕ → List DirEntry → List Dirent
  | 0, _ => []
  | _, [] => []
  | _, .endMark :: _ => []
  | fuel + 1, .file secCount directory :: rest =>
    if secCount < 2 then visibleSets fuel rest
    else
      match rest with
      | [] => []
      | .stream nameLength dataLength :: more =>
        match nameEntries (min (secCount - 1) maxNameEntries) more with
        | none => []
        | some names =>
          match decodeName names nameLength with
          | none => visibleSets fuel (rest.drop secCount)
          | some name =>
            ⟨name, if directory then .dir else .file, dataLength⟩ ::
              visibleSets fuel (rest.drop secCount)
      | _ :: _ => visibleSets fuel (rest.drop secCount)
  | fuel + 1, _ :: rest => visibleSets fuel rest

-- The visitor of `exfat_readdir` counts up to the entry it wants and stops the scan there.
def readdirVisit (want : ℕ) : ℕ → List Dirent → Option Dirent
  | _, [] => none
  | cur, e :: sets => if cur = want then some e else readdirVisit want (cur + 1) sets

def exfatReaddir (dir : List DirEntry) (pos : ℕ) : Option Dirent :=
  readdirVisit pos 0 (visibleSets dir.length dir)

-- One of the two loops of `cg_readdir`: `i` counts the entries that are kept down to 0.
def countDown {α : Type*} (keep : α → Bool) : List α → ℕ → α ⊕ ℕ
  | [], i => .inr i
  | x :: xs, i =>
    if keep x then
      match i with
      | 0 => .inl x
      | i + 1 => countDown keep xs i
    else countDown keep xs i

theorem noNul_kind (k : Cgroup.Kind) : 0 ∉ k.name.map Char.toNat := by
  cases k <;> decide

theorem short_kind (k : Cgroup.Kind) : (k.name.map Char.toNat).length ≤ nameMax := by
  cases k <;> decide

def kindDirent (k : Cgroup.Kind) : Dirent :=
  ⟨⟨k.name.map Char.toNat, noNul_kind k, short_kind k⟩, .file, 0⟩

def Child.isGroup (c : Child) : Bool := decide (c.inode.map Prod.fst = some .dir)

-- `cg_readdir`: the control files this node has, then the child groups.
def cgReaddir (root : Bool) (children : List Child) (pos : ℕ) : Option Dirent :=
  match countDown (fun k => !root || k.root) Cgroup.Kind.all pos with
  | .inl k => some (kindDirent k)
  | .inr i =>
    match countDown Child.isGroup children i with
    | .inl c => some ⟨c.name, .dir, 0⟩
    | .inr _ => none

inductive Dir where
  | ramfs (children : List Child)
  | exfat (entries : List DirEntry)
  | cgroup (root : Bool) (children : List Child)

-- `vfs_readdir` at `pos`. A call that gives an entry leaves the position one further.
def Dir.readdir : Dir → ℕ → Option Dirent
  | .ramfs children, pos => rfsReaddir children pos
  | .exfat entries, pos => exfatReaddir entries pos
  | .cgroup root children, pos => cgReaddir root children pos

def Dir.entries : Dir → List Dirent
  | .ramfs children => children.map Child.dirent
  | .exfat entries => visibleSets entries.length entries
  | .cgroup root children =>
    (Cgroup.Kind.all.filter fun k => !root || k.root).map kindDirent ++
      (children.filter Child.isGroup).map fun c => ⟨c.name, .dir, 0⟩

theorem rfsReaddir_eq (children : List Child) (pos : ℕ) :
    rfsReaddir children pos = (children.map Child.dirent)[pos]? := by
  rw [getElem?_map, ← head?_drop]
  unfold rfsReaddir
  cases children.drop pos with
  | nil => rfl
  | cons c rest => rfl

theorem readdirVisit_eq {want cur : ℕ} (h : cur ≤ want) (sets : List Dirent) :
    readdirVisit want cur sets = sets[want - cur]? := by
  induction sets generalizing cur with
  | nil => rfl
  | cons e sets ih =>
    by_cases hcur : cur = want
    · simp [readdirVisit, hcur]
    · have hlt : want - cur = (want - (cur + 1)) + 1 := by omega
      rw [readdirVisit, if_neg hcur, ih (by omega), hlt, getElem?_cons_succ]

theorem countDown_eq {α : Type*} {keep : α → Bool} (xs : List α) (i : ℕ) :
    countDown keep xs i = ((xs.filter keep)[i]?).elim (.inr (i - (xs.filter keep).length)) .inl := by
  induction xs generalizing i with
  | nil => rfl
  | cons x xs ih =>
    by_cases hx : keep x = true
    · cases i with
      | zero => simp [countDown, hx]
      | succ i =>
        simp only [countDown, hx, if_true, filter_cons_of_pos hx, getElem?_cons_succ,
          length_cons, Nat.add_sub_add_right]
        exact ih i
    · simp only [countDown, hx, filter_cons_of_neg hx]
      exact ih i

theorem cgReaddir_eq (root : Bool) (children : List Child) (pos : ℕ) :
    cgReaddir root children pos = (Dir.cgroup root children).entries[pos]? := by
  rw [Dir.entries, getElem?_append, cgReaddir, countDown_eq]
  by_cases hpos : pos < (Cgroup.Kind.all.filter fun k => !root || k.root).length
  · simp [hpos]
  · rw [getElem?_eq_none (by omega)]
    simp only [Option.elim_none, length_map, hpos, if_false, getElem?_map, countDown_eq]
    cases (children.filter Child.isGroup)[pos -
        (Cgroup.Kind.all.filter fun k => !root || k.root).length]? with
    | none => rfl
    | some c => rfl

theorem Dir.readdir_eq (d : Dir) (pos : ℕ) : d.readdir pos = d.entries[pos]? := by
  cases d with
  | ramfs children => exact rfsReaddir_eq children pos
  | exfat entries => exact readdirVisit_eq (Nat.zero_le pos) _
  | cgroup root children => exact cgReaddir_eq root children pos

-- `sys_getdents_k` and `sys_getdents64_k` differ in how a record is laid out.
inductive Call where
  | getdents
  | getdents64
deriving DecidableEq

def Call.typeCode : Call → InodeType → ℕ
  | .getdents, .file => 0
  | .getdents, .dir => 1
  | .getdents, .device => 2
  | .getdents, .symlink => 3
  | .getdents, .fifo => 4
  | .getdents64, .dir => 4
  | .getdents64, .device => 2
  | .getdents64, .symlink => 10
  | .getdents64, .fifo => 1
  | .getdents64, .file => 8

def Call.reclen : Call → Dirent → ℕ
  | .getdents, e => 2 + 1 + e.name.bytes.length + 1
  | .getdents64, e => (19 + e.name.bytes.length + 1 + 7) / 8 * 8

def le64 (n : ℕ) : List ℕ := (List.range 8).map fun i => (n >>> (8 * i)) % 256

def Call.header : Call → ℕ → ℕ → List ℕ
  | .getdents, _, _ => []
  | .getdents64, ino, off => le64 ino ++ le64 off

def Call.headerLen : Call → ℕ
  | .getdents => 0
  | .getdents64 => 16

-- A record at offset `used`. The bytes up to the next multiple of 8 are what was in the buffer.
def Call.record (c : Call) (stale : ℕ → ℕ) (ino used : ℕ) (e : Dirent) : List ℕ :=
  c.header ino (used + c.reclen e) ++
    ([c.reclen e % 256, c.reclen e / 256 % 256, c.typeCode e.type] ++ e.name.bytes ++ [0] ++
      (List.range (c.reclen e - (c.headerLen + 4 + e.name.bytes.length))).map fun k =>
        stale (used + c.headerLen + 4 + e.name.bytes.length + k))

-- What a reader makes of a buffer: the name and the type of each record.
def parse (c : Call) : ℕ → List ℕ → List (List ℕ × ℕ)
  | 0, _ => []
  | fuel + 1, bytes =>
    match bytes.drop c.headerLen with
    | lo :: hi :: type :: rest =>
      (rest.takeWhile (· ≠ 0), type) :: parse c fuel (bytes.drop (lo + 256 * hi))
    | _ => []

def records (c : Call) (bytes : List ℕ) : List (List ℕ × ℕ) := parse c bytes.length bytes

def Call.shown (c : Call) (e : Dirent) : List ℕ × ℕ := (e.name.bytes, c.typeCode e.type)

def Call.total (c : Call) (es : List Dirent) : ℕ := es.foldr (fun e n => c.reclen e + n) 0

variable {c : Call} {e : Dirent} {es : List Dirent} {bytes : List ℕ}

theorem length_header (c : Call) (ino off : ℕ) : (c.header ino off).length = c.headerLen := by
  cases c with
  | getdents => rfl
  | getdents64 => simp [Call.header, Call.headerLen, le64]

theorem reclen_bounds : c.headerLen + 4 + e.name.bytes.length ≤ c.reclen e ∧ c.reclen e < 65536 := by
  have hshort : e.name.bytes.length ≤ 255 := e.name.short
  cases c with
  | getdents | getdents64 =>
    simp only [Call.headerLen, Call.reclen]
    omega

theorem length_record (c : Call) (stale : ℕ → ℕ) (ino used : ℕ) (e : Dirent) :
    (c.record stale ino used e).length = c.reclen e := by
  have hlen := (reclen_bounds (c := c) (e := e)).1
  simp only [Call.record, length_append, length_header, length_cons, length_nil,
    length_map, length_range]
  omega

theorem parse_record {stale : ℕ → ℕ} {ino used fuel : ℕ} {rest : List ℕ} :
    parse c (fuel + 1) (c.record stale ino used e ++ rest) = c.shown e :: parse c fuel rest := by
  have hnext : (c.record stale ino used e ++ rest).drop
      (c.reclen e % 256 + 256 * (c.reclen e / 256 % 256)) = rest := by
    have hlt := (reclen_bounds (c := c) (e := e)).2
    have hlen : c.reclen e % 256 + 256 * (c.reclen e / 256 % 256) = c.reclen e := by omega
    have hrec := length_record c stale ino used e
    rw [hlen, ← hrec, drop_left]
  have hhead : (c.record stale ino used e ++ rest).drop c.headerLen =
      c.reclen e % 256 :: (c.reclen e / 256 % 256) :: c.typeCode e.type ::
        (e.name.bytes ++ (0 :: ((range (c.reclen e -
          (c.headerLen + 4 + e.name.bytes.length))).map fun k =>
            stale (used + c.headerLen + 4 + e.name.bytes.length + k)) ++ rest)) := by
    unfold Call.record
    rw [append_assoc, ← length_header c ino (used + c.reclen e), drop_left]
    simp
  have hname : ∀ tail : List ℕ, (e.name.bytes ++ 0 :: tail).takeWhile (· ≠ 0) = e.name.bytes := by
    intro tail
    rw [takeWhile_append_of_pos]
    · simp
    · intro b hb
      have hb0 : b ≠ 0 := fun h => e.name.noNul (h ▸ hb)
      simpa using hb0
  rw [parse, hhead]
  dsimp only
  rw [hnext, cons_append, hname]
  rfl

inductive Encodes (c : Call) : List ℕ → List Dirent → Prop
  | nil : Encodes c [] []
  | snoc {bytes : List ℕ} {es : List Dirent} (h : Encodes c bytes es) (stale : ℕ → ℕ)
      (ino used : ℕ) (e : Dirent) : Encodes c (bytes ++ c.record stale ino used e) (es ++ [e])

theorem Encodes.append {bytes' : List ℕ} {es' : List Dirent} (h : Encodes c bytes es)
    (h' : Encodes c bytes' es') : Encodes c (bytes ++ bytes') (es ++ es') := by
  induction h' with
  | nil => simpa using h
  | snoc h' stale ino used e ih =>
    rw [← append_assoc, ← append_assoc]
    exact ih.snoc stale ino used e

theorem total_concat : c.total (es ++ [e]) = c.total es + c.reclen e := by
  induction es with
  | nil => exact Nat.add_comm _ _
  | cons a es ih =>
    have hcons : c.total (a :: es ++ [e]) = c.reclen a + c.total (es ++ [e]) := rfl
    rw [hcons, ih, ← Nat.add_assoc]
    rfl

theorem Encodes.length_bytes (h : Encodes c bytes es) : bytes.length = c.total es := by
  induction h with
  | nil => rfl
  | snoc h stale ino used e ih =>
    rw [length_append, length_record, ih, total_concat]

theorem Encodes.length_le (h : Encodes c bytes es) : es.length ≤ bytes.length := by
  induction h with
  | nil => exact Nat.le_refl _
  | @snoc bytes es h stale ino used e ih =>
    have hlen := (reclen_bounds (c := c) (e := e)).1
    simp only [length_append, length_record, length_singleton]
    omega

theorem Encodes.parse_append (h : Encodes c bytes es) (fuel : ℕ) (rest : List ℕ) :
    parse c (es.length + fuel) (bytes ++ rest) = es.map c.shown ++ parse c fuel rest := by
  induction h generalizing fuel rest with
  | nil => simp
  | @snoc bytes es h stale ino used e ih =>
    have hfuel : (es ++ [e]).length + fuel = es.length + (fuel + 1) := by
      simp only [length_append, length_singleton]
      omega
    rw [hfuel, append_assoc, ih, parse_record, map_append, append_assoc]
    rfl

theorem parse_nil (fuel : ℕ) : parse c fuel [] = [] := by
  cases fuel with
  | zero => rfl
  | succ fuel => simp [parse]

theorem Encodes.records_eq (h : Encodes c bytes es) : records c bytes = es.map c.shown := by
  have hsplit : bytes.length = es.length + (bytes.length - es.length) := by
    have := h.length_le
    omega
  have hread := h.parse_append (bytes.length - es.length) []
  rw [← hsplit, append_nil, parse_nil, append_nil] at hread
  exact hread

end DosKernel.Getdents

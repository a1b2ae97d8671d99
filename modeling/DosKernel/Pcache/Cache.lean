import DosKernel.Lib.Buckets
import DosKernel.Lib.Run

namespace DosKernel.Pcache

open DosKernel.Lib

open Function (update)

-- One more than the largest file position, and than the largest page cache id.
def posEnd : ℕ := 18446744073709551616

def idEnd : ℕ := 4294967296

def pageSize : ℕ := 4096

def pcHash : ℕ := 1024

-- A regular file: `data` is what its storage holds at every position, also past the end of file.
structure File where
  ramfs : Bool
  size : ℕ
  data : ℕ → UInt8
  size_lt : size < posEnd

def File.byte (f : File) (p : ℕ) : UInt8 := if p < f.size then f.data p else 0

theorem zero_lt_posEnd : 0 < posEnd := by decide

def File.truncate (f : File) : File := { f with size := 0, size_lt := zero_lt_posEnd }

-- `got` bytes from `pos` on, into a page of zeros. A ramfs read is never short.
def File.read (f : File) (pos got k : ℕ) : UInt8 :=
  if (f.ramfs ∨ k < got) ∧ pos + k < f.size then f.data (pos + k) else 0

theorem max_lt_posEnd (f : File) {e : ℕ} (h : e < posEnd) : max f.size e < posEnd :=
  Nat.max_lt.mpr ⟨f.size_lt, h⟩

def overlay (data : ℕ → UInt8) (off n : ℕ) (buf : ℕ → UInt8) (p : ℕ) : UInt8 :=
  if off ≤ p ∧ p < off + n then buf (p - off) else data p

def zeroRange (data : ℕ → UInt8) (lo hi p : ℕ) : UInt8 := if lo ≤ p ∧ p < hi then 0 else data p

-- How a write fares: whether room for it can be had, and how many bytes land.
structure Luck where
  room : Bool
  done : ℕ

-- `rfs_write` of `n` bytes: the number written, 0 for none or an error, and the file.
def File.rfsWrite (f : File) (off n : ℕ) (buf : ℕ → UInt8) (luck : Luck) : ℕ × File :=
  if h : off + n < posEnd then
    if n = 0 ∨ luck.room = false then (0, f)
    else
      let data := if f.size < off then zeroRange f.data f.size off else f.data
      let done := min luck.done n
      if done = 0 then (0, { f with data := data })
      else (done, { f with
        size := max f.size (off + done)
        data := overlay data off done buf
        size_lt := max_lt_posEnd f (Nat.lt_of_le_of_lt
          (Nat.add_le_add_left (Nat.min_le_right luck.done n) off) h) })
  else (0, f)

-- `exfat_write`: clusters are added as they are, and the size is set only when every byte landed.
def File.exfatWrite (f : File) (off n : ℕ) (buf : ℕ → UInt8) (luck : Luck) : ℕ × File :=
  if h : off + n < posEnd then
    if n = 0 ∨ luck.room = false then (0, f)
    else if luck.done < n then
      (luck.done, { f with data := overlay f.data off luck.done buf })
    else (n, { f with
      size := max f.size (off + n)
      data := overlay f.data off n buf
      size_lt := max_lt_posEnd f h })
  else (0, f)

def File.write (f : File) (off n : ℕ) (buf : ℕ → UInt8) (luck : Luck) : ℕ × File :=
  if f.ramfs then f.rfsWrite off n buf luck else f.exfatWrite off n buf luck

structure Inode where
  file : File
  pcId : ℕ
  opens : ℕ
  unlinked : Bool

structure PcPage where
  id : ℕ
  idx : ℕ
  frame : ℕ
  lastMs : ℕ
  bytes : ℕ → UInt8

def PcPage.key (e : PcPage) : ℕ × ℕ := (e.id, e.idx)

def hslot (k : ℕ × ℕ) : ℕ :=
  ((k.1 * 2654435761 % 4294967296) ^^^ (k.2 % 4294967296) ^^^ (k.2 / 1048576 % 4294967296)) % pcHash

-- `shares` is the COW reference table, `table` that it could be built; `owned` maps the cache's
-- frames, once allocated; `free` are the allocator's.
structure World where
  inodes : ℕ → Inode
  hash : ℕ → List PcPage
  nextId : ℕ
  shares : ℕ → ℕ
  table : Bool
  owned : Option (ℕ → Bool)
  free : ℕ → Bool

def World.ownedSet (w : World) (f : ℕ) (on mem : Bool) : World :=
  match w.owned with
  | some m => { w with owned := some (update m f on) }
  | none => if mem then { w with owned := some (update (fun _ => false) f on) } else w

def World.ownsFrame (w : World) (f : ℕ) : Bool := (w.owned.getD fun _ => false) f

def World.pmmFreeFrame (w : World) (f : ℕ) : World :=
  if w.ownsFrame f then w else { w with free := update w.free f true }

def World.frameShare (w : World) (f : ℕ) : World :=
  if w.table then
    let n := if w.shares f = 0 then 2 else (w.shares f + 1) % 65536
    { w with shares := update w.shares f n }
  else w

def World.frameUnshare (w : World) (f : ℕ) : Bool × World :=
  if w.table then
    if w.shares f ≤ 1 then (true, { w with shares := update w.shares f 0 })
    else (false, { w with shares := update w.shares f (w.shares f - 1) })
  else (true, w)

def World.shareCount (w : World) (f : ℕ) : ℕ := if w.table then w.shares f else 0

def World.release (w : World) (f : ℕ) : World :=
  let r := w.frameUnshare f
  if r.1 then r.2.pmmFreeFrame f else r.2

-- `drop_entry` of a page out of its chain; `mem f`: the owned map can be allocated for frame `f`.
def World.dropEntry (w : World) (mem : ℕ → Bool) (e : PcPage) : World :=
  (w.ownedSet e.frame false (mem e.frame)).release e.frame

-- The pages of `n` chains from `h` on, in the order the loops meet them.
def pagesFrom (t : ℕ → List PcPage) : ℕ → ℕ → List (ℕ × PcPage)
  | _, 0 => []
  | h, n + 1 => (t h).map (fun e => (h, e)) ++ pagesFrom t (h + 1) n

def World.pages (w : World) : List (ℕ × PcPage) := pagesFrom w.hash 0 pcHash

def World.oldest (w : World) : Option (ℕ × PcPage) :=
  w.pages.foldl (fun best he =>
    if w.shareCount he.2.frame ≤ 1 ∧
        he.2.lastMs < (best.map fun b => b.2.lastMs).getD (posEnd - 1) then some he
    else best) none

def World.reclaim (mem : ℕ → Bool) : ℕ → World → World
  | 0, w => w
  | max + 1, w =>
    match w.oldest with
    | none => w
    | some (h, e) =>
      World.reclaim mem max
        (World.dropEntry { w with hash := Buckets.unlink PcPage.key w.hash h e.key } mem e)

def World.setInode (w : World) (i : ℕ) (f : Inode → Inode) : World :=
  { w with inodes := update w.inodes i (f (w.inodes i)) }

def World.invalidate (w : World) (i : ℕ) (mem : ℕ → Bool) : World :=
  let id := (w.inodes i).pcId
  if id = 0 then w
  else
    let dropped := (w.pages.map Prod.snd).filter fun e => e.id = id
    let w' := dropped.foldl (fun w e => w.dropEntry mem e)
      { w with hash := fun h => (w.hash h).filter fun e => e.id ≠ id }
    w'.setInode i fun ino => { ino with pcId := 0 }

-- How `pcache_map_page` fares: frame and read length of both attempts, memory for the entry and
-- the owned map, the time.
structure MapLuck where
  first : Option (ℕ × ℕ)
  second : Option (ℕ × ℕ)
  entryMem : Bool
  mem : ℕ → Bool
  now : ℕ

-- `fill_page`: the position is idx * 4096 as a `uint64_t`; only a free frame can be allocated.
def World.fillPage (w : World) (i idx : ℕ) (luck : Option (ℕ × ℕ)) : Option (ℕ × (ℕ → UInt8)) :=
  match luck with
  | none => none
  | some (frame, got) =>
    if w.free frame then
      some (frame, (w.inodes i).file.read (idx * pageSize % posEnd) got)
    else none

def World.addPage (w : World) (id idx : ℕ) (page : ℕ × (ℕ → UInt8)) (luck : MapLuck) : World :=
  if luck.entryMem then
    let w := { w with free := update w.free page.1 false }
    let w := w.ownedSet page.1 true (luck.mem page.1)
    let w := { w with
      hash := Buckets.push PcPage.key hslot w.hash ⟨id, idx, page.1, luck.now, page.2⟩ }
    w.frameShare page.1
  else w

def World.assignId (w : World) (i : ℕ) : World :=
  if (w.inodes i).pcId = 0 then
    { w with
      inodes := update w.inodes i { w.inodes i with pcId := w.nextId }
      nextId := (w.nextId + 1) % idEnd }
  else w

def World.mapPage (w : World) (i idx : ℕ) (luck : MapLuck) : World :=
  let w := w.assignId i
  let id := (w.inodes i).pcId
  match Buckets.lookup PcPage.key hslot w.hash (id, idx) with
  | some e =>
    World.frameShare { w with
      hash := Buckets.adjust PcPage.key hslot w.hash (id, idx)
        fun e => { e with lastMs := luck.now } } e.frame
  | none =>
    match w.fillPage i idx luck.first with
    | some page => w.addPage id idx page luck
    | none =>
      let w := World.reclaim luck.mem 64 w
      match w.fillPage i idx luck.second with
      | some page => w.addPage id idx page luck
      | none => w

def PcPage.update (off n : ℕ) (buf : ℕ → UInt8) (e : PcPage) : PcPage :=
  { e with bytes := fun k =>
      if off ≤ e.idx * pageSize + k ∧ e.idx * pageSize + k < off + n ∧ k < pageSize then
        buf (e.idx * pageSize + k - off)
      else e.bytes k }

-- `pcache_update`: the pages from off / 4096 on that start before off + n
def World.update (w : World) (i off n : ℕ) (buf : ℕ → UInt8) : World :=
  let id := (w.inodes i).pcId
  if id = 0 ∨ n = 0 then w
  else
    let first := off / pageSize
    let stop := (off + n + (pageSize - 1)) / pageSize
    let patch := fun t idx => Buckets.adjust PcPage.key hslot t (id, idx) (PcPage.update off n buf)
    { w with hash := (List.range' first (stop - first)).foldl patch w.hash }

def World.vfsWrite (w : World) (i off n : ℕ) (buf : ℕ → UInt8) (luck : Luck) : World :=
  let r := (w.inodes i).file.write off n buf luck
  (w.setInode i fun ino => { ino with file := r.2 }).update i off r.1 buf

def World.ftruncate (w : World) (i size : ℕ) (luck : Luck) : World :=
  let cur := (w.inodes i).file.size
  if size = cur then w
  else if size < cur then
    if size = 0 then w.setInode i fun ino => { ino with file := ino.file.truncate } else w
  else w.vfsWrite i (size - 1) 1 (fun _ => 0) luck

-- The inode is freed, and one for another file takes its place.
def World.remove (w : World) (i : ℕ) (mem : ℕ → Bool) (file : File) : World :=
  (w.invalidate i mem).setInode i fun _ => ⟨file, 0, 0, false⟩

inductive Act where
  | mapPage (i idx : ℕ) (luck : MapLuck)
  | write (i off n : ℕ) (buf : ℕ → UInt8) (luck : Luck)
  | open (i : ℕ) (trunc : Bool) (mem : ℕ → Bool)
  | ftruncate (i size : ℕ) (luck : Luck)
  | unlink (i : ℕ) (mem : ℕ → Bool) (file : File)
  | close (i : ℕ) (mem : ℕ → Bool) (file : File)
  | reclaim (max : ℕ) (mem : ℕ → Bool)
  | release (f : ℕ)
  | free (f : ℕ)

-- `release` is the end of a mapping of the frame, `free` a `pmm_free_frame` by any other path.
def World.step (w : World) : Act → World
  | .mapPage i idx luck => w.mapPage i idx luck
  | .write i off n buf luck => w.vfsWrite i off n buf luck
  | .open i trunc mem =>
    let w := w.setInode i fun ino => { ino with opens := ino.opens + 1 }
    if trunc then
      World.invalidate (w.setInode i fun ino => { ino with file := ino.file.truncate }) i mem
    else w
  | .ftruncate i size luck => w.ftruncate i size luck
  | .unlink i mem file =>
    if 0 < (w.inodes i).opens then w.setInode i fun ino => { ino with unlinked := true }
    else w.remove i mem file
  | .close i mem file =>
    let w := w.setInode i fun ino => { ino with opens := ino.opens - 1 }
    if (w.inodes i).opens = 0 ∧ (w.inodes i).unlinked then w.remove i mem file else w
  | .reclaim max mem => World.reclaim mem max w
  | .release f => w.release f
  | .free f => w.pmmFreeFrame f

def boot (files : ℕ → File) (shares : ℕ → ℕ) (table : Bool) (free : ℕ → Bool) : World where
  inodes := fun i => ⟨files i, 0, 0, false⟩
  hash := fun _ => []
  nextId := 1
  shares := shares
  table := table
  owned := none
  free := free

open Buckets List World

variable {w : World} {e : PcPage} {mem : ℕ → Bool} {i j : ℕ}

-- Each cached page is found by its file and index, belongs to one file, holds that file's bytes,
-- and its frame is not the allocator's.
structure World.Sound (w : World) : Prop where
  hashed : Hashed PcPage.key hslot w.hash
  named : ∀ e, Stored w.hash e → e.id ≠ 0 ∧ ∃ i, (w.inodes i).pcId = e.id
  single : ∀ i j, (w.inodes i).pcId ≠ 0 → (w.inodes j).pcId = (w.inodes i).pcId → i = j
  bytes : ∀ e i, Stored w.hash e → (w.inodes i).pcId = e.id → ∀ k < pageSize,
    e.bytes k = (w.inodes i).file.byte (e.idx * pageSize + k)
  held : ∀ e, Stored w.hash e → w.free e.frame = false

structure Inv (w : World) : Prop where
  sound : w.Sound
  frames : ∀ a b, Stored w.hash a → Stored w.hash b → a.frame = b.frame → a = b

section Frames

variable {w' w'' : World} {f : ℕ} {on b : Bool} {fs gs : List ℕ}

structure Spares (fs : List ℕ) (w w' : World) : Prop where
  hash : w'.hash = w.hash
  inodes : w'.inodes = w.inodes
  free : ∀ g ∉ fs, w'.free g = w.free g

theorem Spares.trans (h : Spares fs w w') (h' : Spares gs w' w'') : Spares (fs ++ gs) w w'' where
  hash := h'.hash.trans h.hash
  inodes := h'.inodes.trans h.inodes
  free g hg := by
    rw [mem_append, not_or] at hg
    exact (h'.free g hg.2).trans (h.free g hg.1)

theorem spares_ownedSet : Spares [] w (w.ownedSet f on b) := by
  rw [ownedSet.eq_def]
  split
  · exact ⟨rfl, rfl, fun _ _ => rfl⟩
  · split <;> exact ⟨rfl, rfl, fun _ _ => rfl⟩

theorem spares_frameShare : Spares [] w (w.frameShare f) := by
  rw [frameShare]
  split <;> exact ⟨rfl, rfl, fun _ _ => rfl⟩

theorem spares_pmmFreeFrame : Spares [f] w (w.pmmFreeFrame f) := by
  rw [pmmFreeFrame]
  split
  · exact ⟨rfl, rfl, fun _ _ => rfl⟩
  · exact ⟨rfl, rfl, fun _ hg => Function.update_of_ne (hg <| mem_singleton.mpr ·) _ _⟩

theorem frameUnshare_cases :
    ((w.table = false ∨ w.shares f ≤ 1) ∧ (w.frameUnshare f).1 = true ∨
      (w.table = true ∧ 1 < w.shares f) ∧ (w.frameUnshare f).1 = false) ∧
    Spares [] w (w.frameUnshare f).2 ∧ (w.frameUnshare f).2.owned = w.owned := by
  rw [frameUnshare]
  split
  next ht =>
    split
    next hs =>
      exact ⟨.inl ⟨.inr hs, rfl⟩, ⟨rfl, rfl, fun _ _ => rfl⟩, rfl⟩
    next hs =>
      exact ⟨.inr ⟨⟨ht, Nat.lt_of_not_le hs⟩, rfl⟩, ⟨rfl, rfl, fun _ _ => rfl⟩, rfl⟩
  next ht =>
    exact ⟨.inl ⟨.inl (Bool.not_eq_true _ ▸ ht), rfl⟩, ⟨rfl, rfl, fun _ _ => rfl⟩, rfl⟩

theorem spares_dropEntry (mem : ℕ → Bool) : Spares [e.frame] w (w.dropEntry mem e) := by
  have howned : Spares [] w (w.ownedSet e.frame false (mem e.frame)) := spares_ownedSet
  rw [dropEntry, release]
  generalize w.ownedSet e.frame false (mem e.frame) = w' at howned ⊢
  obtain ⟨-, hunshare, -⟩ := frameUnshare_cases (w := w') (f := e.frame)
  refine howned.trans ?_
  split
  · exact hunshare.trans spares_pmmFreeFrame
  · exact ⟨hunshare.hash, hunshare.inodes, fun g _ => hunshare.free g not_mem_nil⟩

theorem spares_foldl_dropEntry (mem : ℕ → Bool) (l : List PcPage) :
    Spares (l.map PcPage.frame) w (l.foldl (fun w e => w.dropEntry mem e) w) := by
  induction l generalizing w with
  | nil => exact ⟨rfl, rfl, fun _ _ => rfl⟩
  | cons e l ih => exact (spares_dropEntry mem).trans ih

end Frames

section Shrink

-- Fewer pages with their frames still held, and one file changed, whose pages are gone or right.
theorem Inv.rebuild {w' : World} (h : Inv w) (hsub : ∀ n, (w'.hash n).Sublist (w.hash n))
    (hheld : ∀ e, Stored w'.hash e → w'.free e.frame = false)
    (hother : ∀ j, j ≠ i → w'.inodes j = w.inodes j)
    (hid : (w'.inodes i).pcId ≠ 0 → ∀ j, (w.inodes j).pcId = (w'.inodes i).pcId → j = i)
    (hpages : ∀ e, Stored w'.hash e → e.id = (w.inodes i).pcId →
      (w'.inodes i).pcId = e.id ∧
        ∀ k < pageSize, e.bytes k = (w'.inodes i).file.byte (e.idx * pageSize + k)) :
    Inv w' := by
  have hstored : ∀ e, Stored w'.hash e → Stored w.hash e :=
    fun e ⟨n, he⟩ => ⟨n, (hsub n).subset he⟩
  refine ⟨⟨h.sound.hashed.sublist hsub, ?_, ?_, ?_, hheld⟩, ?_⟩
  · intro e he
    obtain ⟨hne, j, hj⟩ := h.sound.named e (hstored e he)
    refine ⟨hne, j, ?_⟩
    by_cases hji : j = i
    · subst hji
      exact (hpages e he hj.symm).1
    · rw [hother j hji, hj]
  · intro a b ha hab
    by_cases hai : a = i
    · by_cases hbi : b = i
      · rw [hai, hbi]
      · subst hai
        rw [hother b hbi] at hab
        exact (hid ha b hab).symm
    · by_cases hbi : b = i
      · subst hbi
        rw [hother a hai] at ha hab
        exact hid (hab ▸ ha) a hab.symm
      · rw [hother a hai] at ha hab
        rw [hother b hbi] at hab
        exact h.sound.single a b ha hab
  · intro e j he hj
    by_cases hji : j = i
    · subst hji
      obtain ⟨hne, j', hj'⟩ := h.sound.named e (hstored e he)
      rw [hid (hj ▸ hne) j' (hj'.trans hj.symm)] at hj'
      exact (hpages e he hj'.symm).2
    · rw [hother j hji] at hj ⊢
      exact h.sound.bytes e j (hstored e he) hj
  · exact fun a b ha hb => h.frames a b (hstored a ha) (hstored b hb)

theorem Inv.same_id (h : Inv w) (hid : j = (w.inodes i).pcId) :
    j ≠ 0 → ∀ a, (w.inodes a).pcId = j → a = i := by
  subst hid
  exact fun hne a ha => (h.sound.single i a hne ha).symm

theorem Inv.shrink {w' : World} (h : Inv w) (hinodes : w'.inodes = w.inodes)
    (hsub : ∀ n, (w'.hash n).Sublist (w.hash n))
    (hheld : ∀ e, Stored w'.hash e → w'.free e.frame = false) : Inv w' := by
  refine h.rebuild (i := 0) hsub hheld (fun j _ => by rw [hinodes]) (h.same_id (by rw [hinodes])) ?_
  intro e he hid
  rw [hinodes]
  obtain ⟨n, hn⟩ := he
  exact ⟨hid.symm, h.sound.bytes e 0 ⟨n, (hsub n).subset hn⟩ hid.symm⟩

theorem Inv.spares {w' : World} {fs : List ℕ} (h : Inv w) (hs : Spares fs w w')
    (hheld : ∀ e, Stored w.hash e → e.frame ∈ fs → w'.free e.frame = false) : Inv w' := by
  refine h.shrink hs.inodes (fun n => by rw [hs.hash]) fun e he => ?_
  rw [hs.hash] at he
  by_cases hf : e.frame ∈ fs
  · exact hheld e he hf
  · rw [hs.free _ hf]
    exact h.sound.held e he

theorem mem_of_mem_pagesFrom {t : ℕ → List PcPage} {h n m : ℕ} (hmem : (m, e) ∈ pagesFrom t h n) :
    e ∈ t m := by
  induction n generalizing h with
  | zero => cases hmem
  | succ n ih =>
    simp only [pagesFrom, mem_append, mem_map, Prod.mk.injEq] at hmem
    obtain ⟨a, ha, rfl, rfl⟩ | hmem := hmem
    · exact ha
    · exact ih hmem

theorem stored_of_mem_pages (h : e ∈ w.pages.map Prod.snd) : Stored w.hash e := by
  obtain ⟨⟨n, a⟩, ha, rfl⟩ := mem_map.mp h
  exact ⟨n, mem_of_mem_pagesFrom ha⟩

theorem oldest_mem {n : ℕ} (h : w.oldest = some (n, e)) : e ∈ w.hash n := by
  have hscan : ∀ (l : List (ℕ × PcPage)) best, l.foldl (fun best he =>
      if w.shareCount he.2.frame ≤ 1 ∧
          he.2.lastMs < (best.map fun b => b.2.lastMs).getD (posEnd - 1) then some he
      else best) best = some (n, e) → best = some (n, e) ∨ (n, e) ∈ l := by
    intro l
    induction l with
    | nil => exact fun best hbest => .inl hbest
    | cons he l ih =>
      intro best hbest
      rw [foldl_cons] at hbest
      obtain hnew | hmem := ih _ hbest
      · split at hnew
        · cases hnew
          exact .inr mem_cons_self
        · exact .inl hnew
      · exact .inr (mem_cons_of_mem he hmem)
  obtain hnone | hmem := hscan w.pages none h
  · cases hnone
  · exact mem_of_mem_pagesFrom hmem

theorem Inv.dropOne (h : Inv w) (mem : ℕ → Bool) {n : ℕ} (he : e ∈ w.hash n) :
    Inv (dropEntry { w with hash := unlink PcPage.key w.hash n e.key } mem e) := by
  have hslot := h.sound.hashed.placed n e he
  obtain ⟨hhash, hinodes, hfree⟩ := spares_dropEntry mem (e := e)
    (w := { w with hash := unlink PcPage.key w.hash n e.key })
  refine h.shrink hinodes (fun m => ?_) ?_
  · rw [hhash]
    exact unlink_sublist m
  · intro a ha
    rw [hhash, h.sound.hashed.stored_unlink hslot] at ha
    have hframe : a.frame ≠ e.frame := by
      intro hsame
      exact ha.2 (congrArg PcPage.key (h.frames a e ha.1 ⟨n, he⟩ hsame))
    rw [hfree _ (hframe <| mem_singleton.mp ·)]
    exact h.sound.held a ha.1

theorem reclaim_spec (h : Inv w) (mem : ℕ → Bool) (max : ℕ) :
    Inv (reclaim mem max w) ∧ ∀ a, Stored (reclaim mem max w).hash a → Stored w.hash a := by
  induction max generalizing w with
  | zero => exact ⟨h, fun _ ha => ha⟩
  | succ max ih =>
    rw [reclaim]
    split
    · exact ⟨h, fun _ ha => ha⟩
    next n e hold =>
      have he := oldest_mem hold
      obtain ⟨hinv, hsub⟩ := ih (h.dropOne mem he)
      refine ⟨hinv, fun a ha => ?_⟩
      have := hsub a ha
      rw [(spares_dropEntry _).hash,
        h.sound.hashed.stored_unlink (h.sound.hashed.placed n e he)] at this
      exact this.1

theorem reclaim_inodes (mem : ℕ → Bool) (max : ℕ) :
    (reclaim mem max w).inodes = w.inodes := by
  induction max generalizing w with
  | zero => rfl
  | succ max ih =>
    rw [reclaim]
    split
    · rfl
    · rw [ih, (spares_dropEntry _).inodes]

end Shrink

section Inodes

variable {g : Inode → Inode}

theorem setInode_inodes_self : (w.setInode i g).inodes i = g (w.inodes i) :=
  Function.update_self _ _ _

theorem setInode_inodes_of_ne (h : j ≠ i) : (w.setInode i g).inodes j = w.inodes j :=
  Function.update_of_ne h _ _

theorem Inv.setInode (h : Inv w) (hid : (g (w.inodes i)).pcId = (w.inodes i).pcId)
    (hbytes : ∀ e, Stored w.hash e → e.id = (w.inodes i).pcId → ∀ k < pageSize,
      e.bytes k = (g (w.inodes i)).file.byte (e.idx * pageSize + k)) : Inv (w.setInode i g) := by
  refine h.rebuild (i := i) (fun _ => List.Sublist.refl _) h.sound.held
    (fun j hj => setInode_inodes_of_ne hj) ?_ ?_
  · rw [setInode_inodes_self]
    exact h.same_id hid
  · intro e he hie
    rw [setInode_inodes_self]
    exact ⟨hid.trans hie.symm, hbytes e he hie⟩

theorem Inv.setInode_plain (h : Inv w) (h0 : (w.inodes i).pcId = 0)
    (hid : (g (w.inodes i)).pcId = 0) : Inv (w.setInode i g) :=
  h.setInode (hid.trans h0.symm) fun e he hie => absurd (hie.trans h0) (h.sound.named e he).1

theorem Inv.invalidate (h : Inv w) (mem : ℕ → Bool)
    (hg : (g (w.inodes i)).pcId = (w.inodes i).pcId) :
    Inv ((w.setInode i g).invalidate i mem) ∧
      (((w.setInode i g).invalidate i mem).inodes i).pcId = 0 := by
  rw [World.invalidate, setInode_inodes_self, hg]
  split
  next hid => exact ⟨h.setInode_plain hid (hg.trans hid), by rw [setInode_inodes_self, hg, hid]⟩
  · refine ⟨?_, by rw [setInode_inodes_self]⟩
    have hgone : ∀ e, Stored (fun n => (w.hash n).filter fun e => e.id ≠ (w.inodes i).pcId) e →
        Stored w.hash e ∧ e.id ≠ (w.inodes i).pcId := by
      rintro e ⟨n, he⟩
      obtain ⟨hmem, hne⟩ := mem_filter.mp he
      exact ⟨⟨n, hmem⟩, of_decide_eq_true hne⟩
    obtain ⟨hhash, hinodes, hfree⟩ := spares_foldl_dropEntry mem
      (w := { w.setInode i g with
        hash := fun n => (w.hash n).filter fun e => e.id ≠ (w.inodes i).pcId })
      ((w.pages.map Prod.snd).filter fun e => e.id = (w.inodes i).pcId)
    refine h.rebuild (i := i) (fun n => ?_) (fun e he => ?_) (fun j hj => ?_) ?_ fun e he hid => ?_
    · exact hhash ▸ filter_sublist
    · obtain ⟨hmem, hne⟩ := hgone e (Eq.mp (congrArg (Stored · e) hhash) he)
      refine (hfree _ fun hin => ?_).trans (h.sound.held e hmem)
      obtain ⟨a, ha, hframe⟩ := mem_map.mp hin
      obtain ⟨ha, haid⟩ := mem_filter.mp ha
      rw [← h.frames a e (stored_of_mem_pages ha) hmem hframe] at hne
      exact hne (of_decide_eq_true haid)
    · rw [setInode_inodes_of_ne hj]
      exact (congrFun hinodes j).trans (setInode_inodes_of_ne hj)
    · rw [setInode_inodes_self]
      exact fun hne => absurd rfl hne
    · exact absurd hid (hgone e (Eq.mp (congrArg (Stored · e) hhash) he)).2

theorem Inv.remove (h : Inv w) (mem : ℕ → Bool) (file : File) : Inv (w.remove i mem file) := by
  have hplain : w.setInode i id = w := by
    simp only [World.setInode, id, Function.update_eq_self]
  obtain ⟨hinv, hid⟩ := h.invalidate (i := i) (g := id) mem rfl
  rw [hplain] at hinv hid
  exact hinv.setInode_plain hid rfl

end Inodes

end DosKernel.Pcache

import DosKernel.Pcache.Cache

namespace DosKernel.Pcache

open DosKernel.Lib Buckets PcPage

variable {w : World} {f : File} {off n i p : ℕ} {buf : ℕ → UInt8} {luck : Luck}

section Write

-- On exFAT a byte of a write that stopped half way past the end of file is zero, and so is the
-- storage where a complete write leaves a gap.
def Clean (f : File) (off n : ℕ) (buf : ℕ → UInt8) (luck : Luck) (p : ℕ) : Prop :=
  f.ramfs = false → off + n < posEnd → n ≠ 0 → luck.room = true →
    (luck.done < n → off ≤ p → p < off + luck.done → f.size ≤ p → buf (p - off) = 0) ∧
    (n ≤ luck.done → f.size ≤ p → p < off → f.data p = 0)

def Lands (f : File) (off n : ℕ) (buf : ℕ → UInt8) (luck : Luck) (p : ℕ) : Prop :=
  (f.write off n buf luck).2.byte p = overlay f.byte off (f.write off n buf luck).1 buf p

theorem overlay_zero (data : ℕ → UInt8) : overlay data off 0 buf p = data p := by
  rw [overlay, if_neg (by omega)]

def Stores (f : File) (off n : ℕ) (luck : Luck) : Prop :=
  f.ramfs = false ∧ off + n < posEnd ∧ n ≠ 0 ∧ luck.room = true

theorem write_of_stores (h : Stores f off n luck) : f.write off n buf luck =
    if luck.done < n then (luck.done, { f with data := overlay f.data off luck.done buf })
    else (n, { f with
      size := max f.size (off + n)
      data := overlay f.data off n buf
      size_lt := max_lt_posEnd f h.2.1 }) := by
  obtain ⟨hram, hend, hn, hroom⟩ := h
  rw [File.write, if_neg (by simp [hram]), File.exfatWrite, dif_pos hend, if_neg]
  simp [hn, hroom]

-- Every other write leaves what it reports: on ramfs the gap is filled.
theorem lands_of_not_stores (h : ¬ Stores f off n luck) : Lands f off n buf luck p := by
  rw [Lands, File.write]
  split
  · rw [File.rfsWrite]
    split
    · split
      · exact (overlay_zero _).symm
      · have hgap : ∀ q, q < f.size →
            (if f.size < off then zeroRange f.data f.size off else f.data) q = f.data q := by
          intro q hq
          split
          · rw [zeroRange, if_neg (by omega)]
          · rfl
        dsimp only
        split
        · simp only [overlay_zero, File.byte]
          split
          next hp => exact hgap p hp
          · rfl
        · simp only [File.byte, overlay]
          by_cases hin : off ≤ p ∧ p < off + min luck.done n
          · rw [if_pos hin, if_pos hin, if_pos (by omega)]
          · rw [if_neg hin, if_neg hin]
            by_cases hp : p < f.size
            · rw [if_pos hp, if_pos (by omega), hgap p hp]
            · rw [if_neg hp]
              split
              · rw [if_pos (by omega), zeroRange, if_pos (by omega)]
              · rfl
    · exact (overlay_zero _).symm
  next hram =>
    have hsame : f.exfatWrite off n buf luck = (0, f) := by
      rw [File.exfatWrite]
      split
      next hend =>
        rw [if_pos]
        by_contra hsome
        rw [not_or, Bool.not_eq_false] at hsome
        exact h ⟨by simpa using hram, hend, hsome⟩
      · rfl
    rw [hsame]
    exact (overlay_zero _).symm

theorem lands_iff_clean : Lands f off n buf luck p ↔ Clean f off n buf luck p := by
  by_cases h : Stores f off n luck
  · have hclean : Clean f off n buf luck p ↔ _ := ⟨fun hc => hc h.1 h.2.1 h.2.2.1 h.2.2.2,
      fun hc _ _ _ _ => hc⟩
    rw [hclean, Lands, write_of_stores h]
    split
    next hshort =>
      simp only [File.byte, overlay]
      constructor
      · intro hbyte
        refine ⟨fun _ hlo hhi hsize => ?_, fun hle => by omega⟩
        rw [if_neg (by omega), if_pos ⟨hlo, hhi⟩] at hbyte
        exact hbyte.symm
      · intro hzero
        by_cases hin : off ≤ p ∧ p < off + luck.done
        · rw [if_pos hin, if_pos hin]
          split
          · rfl
          · exact (hzero.1 hshort hin.1 hin.2 (by omega)).symm
        · rw [if_neg hin, if_neg hin]
    next hfull =>
      simp only [File.byte, overlay]
      constructor
      · intro hbyte
        refine ⟨fun hlt => by omega, fun _ hsize hlt => ?_⟩
        rw [if_pos (by omega), if_neg (by omega), if_neg (by omega), if_neg (by omega)] at hbyte
        exact hbyte
      · intro hzero
        by_cases hin : off ≤ p ∧ p < off + n
        · rw [if_pos hin, if_pos hin, if_pos (by omega)]
        · rw [if_neg hin, if_neg hin]
          by_cases hp : p < f.size
          · rw [if_pos hp, if_pos (by omega)]
          · rw [if_neg hp]
            split
            · exact hzero.2 (by omega) (by omega) (by omega)
            · rfl
  · exact iff_of_true (lands_of_not_stores h)
      fun hram hend hn hroom => absurd ⟨hram, hend, hn, hroom⟩ h

end Write

section Update

variable {e : PcPage}

theorem update_bytes {k : ℕ} (hk : k < pageSize) (hbytes : e.bytes k = f.byte (e.idx * pageSize + k)) :
    (e.update off n buf).bytes k = overlay f.byte off n buf (e.idx * pageSize + k) := by
  simp only [update, overlay, hk, and_true, hbytes]

theorem update_of_not_mem (h : ∀ k < pageSize,
    ¬ (off ≤ e.idx * pageSize + k ∧ e.idx * pageSize + k < off + n)) : e.update off n buf = e := by
  have hbytes : (fun k => if off ≤ e.idx * pageSize + k ∧ e.idx * pageSize + k < off + n ∧
      k < pageSize then buf (e.idx * pageSize + k - off) else e.bytes k) = e.bytes := by
    funext k
    rw [if_neg]
    rintro ⟨hlo, hhi, hk⟩
    exact h k hk ⟨hlo, hhi⟩
  rw [update, hbytes]

def updateKeys (id off n : ℕ) : List (ℕ × ℕ) :=
  (List.range' (off / pageSize)
    ((off + n + (pageSize - 1)) / pageSize - off / pageSize)).map fun idx => (id, idx)

theorem updateKeys_nodup (id off n : ℕ) : (updateKeys id off n).Nodup :=
  List.Nodup.map (fun _ _ h => (Prod.mk.inj h).2) List.nodup_range'

theorem worldUpdate_hash (hid : (w.inodes i).pcId ≠ 0) (hn : n ≠ 0) :
    (w.update i off n buf).hash = (updateKeys (w.inodes i).pcId off n).foldl
      (fun t k => adjust key hslot t k (update off n buf)) w.hash := by
  rw [World.update, if_neg (by tauto), updateKeys, List.foldl_map]

theorem update_eq_of_not_mem_keys (h : e.key ∉ updateKeys e.id off n) : e.update off n buf = e := by
  apply update_of_not_mem
  rintro k hk ⟨hlo, hhi⟩
  apply h
  refine List.mem_map.mpr ⟨e.idx, List.mem_range'_1.mpr ?_, rfl⟩
  simp only [pageSize] at *
  omega

theorem stored_worldUpdate (hw : Hashed key hslot w.hash)
    (hid : (w.inodes i).pcId ≠ 0) (hn : n ≠ 0) (a : PcPage) :
    Stored (w.update i off n buf).hash a ↔
      ∃ e, Stored w.hash e ∧ (if e.id = (w.inodes i).pcId then e.update off n buf else e) = a := by
  have hkey : ∀ e : PcPage, (e.update off n buf).key = e.key := fun _ => rfl
  rw [worldUpdate_hash hid hn, hw.stored_foldl_adjust hkey (updateKeys_nodup _ _ _)]
  refine exists_congr fun e => and_congr_right fun _ => ?_
  by_cases heid : e.id = (w.inodes i).pcId
  · rw [if_pos heid, ← heid]
    by_cases hmem : e.key ∈ updateKeys e.id off n
    · rw [if_pos hmem]
    · rw [if_neg hmem, update_eq_of_not_mem_keys hmem]
  · rw [if_neg heid, if_neg]
    intro hmem
    obtain ⟨idx, -, hkey⟩ := List.mem_map.mp hmem
    exact heid (Prod.mk.inj hkey).1.symm

theorem worldUpdate_cases : (w.update i off n buf).inodes = w.inodes ∧
    (w.update i off n buf).free = w.free := by
  rw [World.update]
  split
  · exact ⟨rfl, rfl⟩
  · exact ⟨rfl, rfl⟩

theorem Inv.patch {w' : World} (h : Inv w) (g : PcPage → PcPage)
    (hhash : Hashed key hslot w'.hash)
    (hstored : ∀ a, Stored w'.hash a ↔ ∃ e, Stored w.hash e ∧ g e = a)
    (hg : ∀ e, (g e).key = e.key ∧ (g e).frame = e.frame)
    (hids : ∀ j, (w'.inodes j).pcId = (w.inodes j).pcId) (hfree : w'.free = w.free)
    (hbytes : ∀ e j, Stored w.hash e → (w.inodes j).pcId = e.id → ∀ k < pageSize,
      (g e).bytes k = (w'.inodes j).file.byte (e.idx * pageSize + k)) : Inv w' := by
  have hid : ∀ e, (g e).id = e.id := fun e => congrArg Prod.fst (hg e).1
  have hidx : ∀ e, (g e).idx = e.idx := fun e => congrArg Prod.snd (hg e).1
  refine ⟨⟨hhash, ?_, ?_, ?_, ?_⟩, ?_⟩
  · intro a ha
    obtain ⟨e, he, rfl⟩ := (hstored a).mp ha
    simp only [hid, hids]
    exact h.sound.named e he
  · intro a b
    simp only [hids]
    exact h.sound.single a b
  · intro a j ha hj
    obtain ⟨e, he, rfl⟩ := (hstored a).mp ha
    rw [hids, hid] at hj
    rw [hidx]
    exact hbytes e j he hj
  · intro a ha
    obtain ⟨e, he, rfl⟩ := (hstored a).mp ha
    rw [(hg e).2, hfree]
    exact h.sound.held e he
  · intro a b ha hb hframe
    obtain ⟨e, he, rfl⟩ := (hstored a).mp ha
    obtain ⟨e', he', rfl⟩ := (hstored b).mp hb
    rw [(hg e).2, (hg e').2] at hframe
    rw [h.frames e e' he he' hframe]

def World.Shows (w : World) (i p : ℕ) : Prop :=
  (w.inodes i).pcId ≠ 0 ∧ ∃ e k, Stored w.hash e ∧ e.id = (w.inodes i).pcId ∧ k < pageSize ∧
    p = e.idx * pageSize + k

theorem vfsWrite_pcId (j : ℕ) :
    ((w.vfsWrite i off n buf luck).inodes j).pcId = (w.inodes j).pcId := by
  rw [World.vfsWrite, worldUpdate_cases.1]
  by_cases hj : j = i
  · subst hj
    rw [setInode_inodes_self]
  · rw [setInode_inodes_of_ne hj]

theorem vfsWrite_file_self : ((w.vfsWrite i off n buf luck).inodes i).file =
    ((w.inodes i).file.write off n buf luck).2 := by
  rw [World.vfsWrite, worldUpdate_cases.1, setInode_inodes_self]

theorem stored_vfsWrite (hw : Hashed key hslot w.hash) (hid : (w.inodes i).pcId ≠ 0)
    (a : PcPage) : Stored (w.vfsWrite i off n buf luck).hash a ↔ ∃ e, Stored w.hash e ∧
      (if e.id = (w.inodes i).pcId then
        e.update off ((w.inodes i).file.write off n buf luck).1 buf else e) = a := by
  rw [World.vfsWrite]
  by_cases hn : ((w.inodes i).file.write off n buf luck).1 = 0
  · rw [World.update, hn, if_pos (.inr rfl)]
    have hsame : ∀ e : PcPage, e.update off 0 buf = e :=
      fun e => update_of_not_mem fun k _ hin => by omega
    simp only [hsame, ite_self, exists_eq_right]
    rfl
  · have hid' : ((w.setInode i fun ino =>
        { ino with file := ((w.inodes i).file.write off n buf luck).2 }).inodes i).pcId =
        (w.inodes i).pcId := by
      rw [setInode_inodes_self]
    refine (stored_worldUpdate (w := w.setInode i fun ino =>
      { ino with file := ((w.inodes i).file.write off n buf luck).2 }) hw ?_ hn a).trans ?_
    · rwa [hid']
    · rw [hid']
      rfl

theorem Inv.vfsWrite (h : Inv w)
    (hclean : ∀ p, w.Shows i p → Clean (w.inodes i).file off n buf luck p) :
    Inv (w.vfsWrite i off n buf luck) := by
  by_cases hid : (w.inodes i).pcId = 0
  · -- no page of the file is cached
    have hplain : w.vfsWrite i off n buf luck =
        w.setInode i fun ino => { ino with file := ((w.inodes i).file.write off n buf luck).2 } := by
      rw [World.vfsWrite, World.update, setInode_inodes_self]
      exact if_pos (.inl hid)
    rw [hplain]
    exact h.setInode_plain hid hid
  · have hkey : ∀ e : PcPage, (e.update off ((w.inodes i).file.write off n buf luck).1 buf).key =
        e.key := fun _ => rfl
    refine h.patch (fun e => if e.id = (w.inodes i).pcId then
      e.update off ((w.inodes i).file.write off n buf luck).1 buf else e) ?_
      (stored_vfsWrite h.sound.hashed hid) ?_ vfsWrite_pcId ?_ ?_
    · rw [World.vfsWrite, World.update]
      split
      · exact h.sound.hashed
      · simp only
        rw [← List.foldl_map (f := fun idx => (_, idx)) (g := fun t k => adjust key hslot t k _)]
        exact h.sound.hashed.foldl_adjust hkey _
    · intro e
      split
      · exact ⟨rfl, rfl⟩
      · exact ⟨rfl, rfl⟩
    · rw [World.vfsWrite, worldUpdate_cases.2]
      rfl
    · intro e j he hj k hk
      have hbytes := h.sound.bytes e j he hj k hk
      by_cases hji : j = i
      · subst hji
        rw [if_pos hj.symm, update_bytes hk hbytes, vfsWrite_file_self]
        exact (lands_iff_clean.mpr (hclean _ ⟨hid, e, k, he, hj.symm, hk, rfl⟩)).symm
      · rw [if_neg, World.vfsWrite, worldUpdate_cases.1, setInode_inodes_of_ne hji, hbytes]
        intro heid
        exact hji (h.sound.single j i (by rwa [hj, heid]) (heid.symm.trans hj.symm))

theorem clean_of_sound (h : Inv w) (hsound : (w.vfsWrite i off n buf luck).Sound)
    (hp : w.Shows i p) : Clean (w.inodes i).file off n buf luck p := by
  obtain ⟨hid, e, k, he, heid, hk, rfl⟩ := hp
  have hstored : Stored (w.vfsWrite i off n buf luck).hash
      (e.update off ((w.inodes i).file.write off n buf luck).1 buf) := by
    refine (stored_vfsWrite h.sound.hashed hid _).mpr ⟨e, he, if_pos heid⟩
  have hafter := hsound.bytes _ i hstored (by rw [vfsWrite_pcId, ← heid]; rfl) k hk
  rw [update_bytes hk (h.sound.bytes e i he heid.symm k hk), vfsWrite_file_self] at hafter
  exact lands_iff_clean.mp hafter.symm

end Update

section Map

variable {idx got frame : ℕ} {luck : MapLuck} {page : ℕ × (ℕ → UInt8)}

-- The read delivers all the page has, or the rest is zero; and an index whose position is past
-- 2^64, so that another page is read, finds that page zero.
def Delivers (f : File) (idx got : ℕ) : Prop :=
  (idx * pageSize < posEnd → f.ramfs = false → ∀ k < pageSize, got ≤ k →
    f.byte (idx * pageSize + k) = 0) ∧
  (posEnd ≤ idx * pageSize → ∀ k < pageSize, f.ramfs = true ∨ k < got →
    f.byte (idx * pageSize % posEnd + k) = 0)

theorem delivers_iff : Delivers f idx got ↔
    ∀ k < pageSize, f.read (idx * pageSize % posEnd) got k = f.byte (idx * pageSize + k) := by
  have hsize := f.size_lt
  cases Nat.lt_or_ge (idx * pageSize) posEnd with
  | inl hlt =>
    rw [Nat.mod_eq_of_lt hlt]
    constructor
    · intro h k hk
      rw [File.read, File.byte]
      by_cases hp : idx * pageSize + k < f.size
      · by_cases hgot : f.ramfs = true ∨ k < got
        · rw [if_pos ⟨hgot, hp⟩, if_pos hp]
        · rw [if_neg fun hin => hgot hin.1]
          rw [not_or, Bool.not_eq_true] at hgot
          exact (h.1 hlt hgot.1 k hk (by omega)).symm
      · rw [if_neg fun hin => hp hin.2, if_neg hp]
    · intro h
      refine ⟨fun _ hram k hk hgot => ?_, fun hge => by omega⟩
      rw [← h k hk, File.read, if_neg]
      rintro ⟨hdone | hdone, -⟩
      · rw [hram] at hdone
        cases hdone
      · omega
  | inr hge =>
    have hpast : ∀ k, f.byte (idx * pageSize + k) = 0 := fun k => if_neg (by omega)
    constructor
    · intro h k hk
      rw [hpast, File.read]
      split
      next hin =>
        have := h.2 hge k hk hin.1
        rwa [File.byte, if_pos hin.2] at this
      · rfl
    · intro h
      refine ⟨fun hlt => by omega, fun _ k hk hgot => ?_⟩
      have hread := h k hk
      rw [hpast, File.read] at hread
      rw [File.byte]
      split
      next hp =>
        rwa [if_pos ⟨hgot, hp⟩] at hread
      · rfl

def World.cachedRead (w : World) (i idx : ℕ) (luck : MapLuck) : Option ℕ :=
  let w := w.assignId i
  match lookup PcPage.key hslot w.hash ((w.inodes i).pcId, idx) with
  | some _ => none
  | none =>
    if luck.entryMem then
      match w.fillPage i idx luck.first with
      | some _ => luck.first.map Prod.snd
      | none =>
        match (World.reclaim luck.mem 64 w).fillPage i idx luck.second with
        | some _ => luck.second.map Prod.snd
        | none => none
    else none

theorem fillPage_some {a : Option (ℕ × ℕ)} (h : w.fillPage i idx a = some page) :
    ∃ got, a = some (page.1, got) ∧ w.free page.1 = true ∧
      page.2 = (w.inodes i).file.read (idx * pageSize % posEnd) got := by
  rw [World.fillPage.eq_def] at h
  split at h
  · cases h
  · split at h
    next frame got hfree =>
      cases h
      exact ⟨got, rfl, hfree, rfl⟩
    · cases h

-- A page is found, or none or one is added, after a reclaim or without.
theorem mapPage_cases (w : World) (i idx : ℕ) (luck : MapLuck) :
    (w.cachedRead i idx luck = none ∧
      ((∃ e, w.mapPage i idx luck = World.frameShare { w.assignId i with
          hash := adjust key hslot (w.assignId i).hash (((w.assignId i).inodes i).pcId, idx)
            fun e => { e with lastMs := luck.now } } e) ∨
        w.mapPage i idx luck = w.assignId i ∨
        w.mapPage i idx luck = World.reclaim luck.mem 64 (w.assignId i))) ∨
    ∃ got w' page, w.cachedRead i idx luck = some got ∧ luck.entryMem = true ∧
      lookup key hslot (w.assignId i).hash (((w.assignId i).inodes i).pcId, idx) = none ∧
      (w' = w.assignId i ∨ w' = World.reclaim luck.mem 64 (w.assignId i)) ∧
      w'.free page.1 = true ∧
      page.2 = ((w.assignId i).inodes i).file.read (idx * pageSize % posEnd) got ∧
      w.mapPage i idx luck = w'.addPage ((w.assignId i).inodes i).pcId idx page luck := by
  rw [World.mapPage, World.cachedRead]
  cases hlook : lookup key hslot (w.assignId i).hash
      (((w.assignId i).inodes i).pcId, idx) with
  | some e => exact .inl ⟨rfl, .inl ⟨e.frame, rfl⟩⟩
  | none =>
    simp only
    cases hmem : luck.entryMem with
    | false =>
      refine .inl ⟨rfl, .inr ?_⟩
      have hno : ∀ (v : World) page, v.addPage ((w.assignId i).inodes i).pcId idx page luck = v := by
        intro v page
        rw [World.addPage, hmem]
        rfl
      split
      · exact .inl (hno _ _)
      · split
        · exact .inr (hno _ _)
        · exact .inr rfl
    | true =>
      cases hfirst : (w.assignId i).fillPage i idx luck.first with
      | some page =>
        obtain ⟨got, hluck, hfree, hread⟩ := fillPage_some hfirst
        refine .inr ⟨got, _, page, ?_, rfl, trivial, .inl rfl, hfree, hread, rfl⟩
        rw [hluck]
        rfl
      | none =>
        simp only
        cases hsecond : (World.reclaim luck.mem 64 (w.assignId i)).fillPage i idx luck.second with
        | some page =>
          obtain ⟨got, hluck, hfree, hread⟩ := fillPage_some hsecond
          rw [reclaim_inodes] at hread
          refine .inr ⟨got, _, page, ?_, trivial, trivial, .inr rfl, hfree, hread, rfl⟩
          rw [hluck]
          rfl
        | none => exact .inl ⟨rfl, .inr (.inr rfl)⟩

def World.Fresh (w : World) (i : ℕ) : Prop :=
  (w.inodes i).pcId = 0 → w.nextId ≠ 0 → ∀ j, (w.inodes j).pcId ≠ w.nextId

def World.idOf (w : World) (i : ℕ) : ℕ :=
  if (w.inodes i).pcId = 0 then w.nextId else (w.inodes i).pcId

theorem assignId_pcId : ((w.assignId i).inodes i).pcId = w.idOf i := by
  rw [World.assignId, World.idOf]
  split
  · simp only [Function.update_self]
  · rfl

theorem assignId_file : ((w.assignId i).inodes i).file = (w.inodes i).file := by
  rw [World.assignId]
  split
  · simp only [Function.update_self]
  · rfl

theorem assignId_inodes_of_ne {j : ℕ} (hj : j ≠ i) : (w.assignId i).inodes j = w.inodes j := by
  rw [World.assignId]
  split
  · exact Function.update_of_ne hj _ _
  · rfl

theorem assignId_hash : (w.assignId i).hash = w.hash := by
  rw [World.assignId]
  split <;> rfl

theorem assignId_free : (w.assignId i).free = w.free := by
  rw [World.assignId]
  split <;> rfl

theorem Inv.assignId (h : Inv w) (hfresh : w.Fresh i) : Inv (w.assignId i) := by
  by_cases hid : (w.inodes i).pcId = 0
  · refine h.rebuild (i := i) (fun n => by rw [assignId_hash]) ?_
      (fun j hj => assignId_inodes_of_ne hj) ?_ fun e he hie => ?_
    · rw [assignId_hash, assignId_free]
      exact h.sound.held
    · rw [assignId_pcId, World.idOf, if_pos hid]
      exact fun hne j hj => absurd hj (hfresh hid hne j)
    · -- a file without an id has no page
      rw [assignId_hash] at he
      exact absurd (hie.trans hid) (h.sound.named e he).1
  · rw [World.assignId, if_neg hid]
    exact h

theorem Inv.touch (h : Inv w) (k : ℕ × ℕ) (now : ℕ) (frame : ℕ) :
    Inv (World.frameShare { w with
      hash := adjust key hslot w.hash k fun e => { e with lastMs := now } } frame) := by
  obtain ⟨hhash, hinodes, hfree⟩ := spares_frameShare (f := frame)
    (w := { w with hash := adjust key hslot w.hash k fun e => { e with lastMs := now } })
  refine h.patch (fun e => if e.key = k then { e with lastMs := now } else e) ?_ ?_ ?_ ?_ ?_ ?_
  · rw [hhash]
    exact h.sound.hashed.adjust fun _ => rfl
  · intro a
    rw [hhash]
    exact h.sound.hashed.stored_adjust
  · intro e
    split
    · exact ⟨rfl, rfl⟩
    · exact ⟨rfl, rfl⟩
  · intro j
    rw [hinodes]
  · exact funext fun g => hfree g List.not_mem_nil
  · intro e j he hj k' hk'
    rw [hinodes]
    have hsame : (if e.key = k then { e with lastMs := now } else e).bytes = e.bytes := by
      split <;> rfl
    rw [hsame]
    exact h.sound.bytes e j he hj k' hk'

def addedPage (id idx : ℕ) (page : ℕ × (ℕ → UInt8)) (luck : MapLuck) : PcPage :=
  ⟨id, idx, page.1, luck.now, page.2⟩

theorem addPage_eq (w : World) (id idx : ℕ) (page : ℕ × (ℕ → UInt8))
    (hmem : luck.entryMem = true) :
    (w.addPage id idx page luck).hash = push key hslot w.hash (addedPage id idx page luck) ∧
    (w.addPage id idx page luck).inodes = w.inodes ∧
    (w.addPage id idx page luck).free = Function.update w.free page.1 false := by
  rw [World.addPage, if_pos hmem]
  refine ⟨?_, ?_, funext fun g => ?_⟩
  · rw [spares_frameShare.hash, spares_ownedSet.hash]
    rfl
  · rw [spares_frameShare.inodes, spares_ownedSet.inodes]
  · rw [spares_frameShare.free g List.not_mem_nil, spares_ownedSet.free g List.not_mem_nil]

theorem Inv.addPage (h : Inv w) (hmem : luck.entryMem = true) {id : ℕ} (hid : id ≠ 0)
    (hi : (w.inodes i).pcId = id) (hnew : ∀ a, Stored w.hash a → a.key ≠ (id, idx))
    (hfree : w.free page.1 = true)
    (hbytes : ∀ k < pageSize, page.2 k = (w.inodes i).file.byte (idx * pageSize + k)) :
    Inv (w.addPage id idx page luck) := by
  obtain ⟨hhash, hinodes, hfree'⟩ := addPage_eq w id idx page hmem
  have hstored : ∀ a, Stored (w.addPage id idx page luck).hash a ↔
      a = addedPage id idx page luck ∨ Stored w.hash a := by
    intro a
    rw [hhash, stored_push]
  have hframe : ∀ a, Stored w.hash a → a.frame ≠ page.1 := by
    intro a ha hsame
    have := h.sound.held a ha
    rw [hsame, hfree] at this
    cases this
  refine ⟨⟨?_, ?_, ?_, ?_, ?_⟩, ?_⟩
  · rw [hhash]
    exact h.sound.hashed.push hnew
  · intro a ha
    rw [hinodes]
    obtain rfl | ha := (hstored a).mp ha
    · exact ⟨hid, i, hi⟩
    · exact h.sound.named a ha
  · rw [hinodes]
    exact h.sound.single
  · intro a j ha hj
    rw [hinodes] at hj ⊢
    obtain rfl | ha := (hstored a).mp ha
    · have hji : i = j := h.sound.single i j (by rwa [hi]) (hj.trans hi.symm)
      subst hji
      exact hbytes
    · exact h.sound.bytes a j ha hj
  · intro a ha
    rw [hfree']
    obtain rfl | ha := (hstored a).mp ha
    · exact Function.update_self _ _ _
    · rw [Function.update_of_ne (hframe a ha)]
      exact h.sound.held a ha
  · intro a b ha hb hsame
    obtain rfl | ha := (hstored a).mp ha
    · obtain rfl | hb := (hstored b).mp hb
      · rfl
      · exact absurd hsame.symm (hframe b hb)
    · obtain rfl | hb := (hstored b).mp hb
      · exact absurd hsame (hframe a ha)
      · exact h.frames a b ha hb hsame

end Map

end DosKernel.Pcache

import DosKernel.Pcache.Contents

namespace DosKernel.Pcache

open DosKernel.Lib Buckets World

variable {w : World} {i f : ℕ}

def World.Caches (w : World) (f : ℕ) : Prop := ∃ e, Stored w.hash e ∧ e.frame = f

-- A mapping needs an id that no other file has and, where a page is added, that is not 0, and the
-- whole page read; a write or an extension only zeros in its gap and past an end it does not move;
-- a truncation to 0 only zeros in cached pages; a frame that is freed the owned map.
def World.Kept (w : World) : Act → Prop
  | .mapPage i idx luck => w.Fresh i ∧ ∀ got, w.cachedRead i idx luck = some got →
    w.idOf i ≠ 0 ∧ Delivers (w.inodes i).file idx got
  | .write i off n buf luck => ∀ p, w.Shows i p → Clean (w.inodes i).file off n buf luck p
  | .ftruncate i size luck =>
    (size = 0 → ∀ p, w.Shows i p → (w.inodes i).file.byte p = 0) ∧
    ((w.inodes i).file.size < size → ∀ p, w.Shows i p →
      Clean (w.inodes i).file (size - 1) 1 (fun _ => 0) luck p)
  | .release f => w.Caches f → w.table = false ∨ w.shares f ≤ 1 → w.ownsFrame f = true
  | .free f => w.Caches f → w.ownsFrame f = true
  | _ => True

theorem inv_boot (files : ℕ → File) (shares : ℕ → ℕ) (table : Bool) (free : ℕ → Bool) :
    Inv (boot files shares table free) := by
  have hnone : ∀ e, ¬ Stored (boot files shares table free).hash e := by
    rintro e ⟨n, he⟩
    cases he
  refine ⟨⟨hashed_empty, ?_, ?_, ?_, ?_⟩, ?_⟩
  · exact fun e he => absurd he (hnone e)
  · exact fun _ _ hne => absurd rfl hne
  · exact fun e _ he => absurd he (hnone e)
  · exact fun e he => absurd he (hnone e)
  · exact fun a _ ha => absurd ha (hnone a)

section Frames

theorem Inv.pmmFreeFrame (h : Inv w) (hkept : w.Caches f → w.ownsFrame f = true) :
    Inv (w.pmmFreeFrame f) := by
  refine h.spares spares_pmmFreeFrame fun e he hf => ?_
  rw [World.pmmFreeFrame, if_pos (hkept ⟨e, he, List.mem_singleton.mp hf⟩)]
  exact h.sound.held e he

theorem owns_of_sound (hsound : (w.pmmFreeFrame f).Sound) (hc : w.Caches f) :
    w.ownsFrame f = true := by
  obtain ⟨e, he, rfl⟩ := hc
  by_contra howns
  have hheld := hsound.held e (by rwa [spares_pmmFreeFrame.hash])
  rw [pmmFreeFrame, if_neg howns] at hheld
  simp at hheld

theorem frameUnshare_owns (f g : ℕ) : (w.frameUnshare f).2.ownsFrame g = w.ownsFrame g := by
  obtain ⟨-, -, howned⟩ := frameUnshare_cases (w := w) (f := f)
  rw [ownsFrame, howned, ownsFrame]

theorem frameUnshare_caches (f g : ℕ) : (w.frameUnshare f).2.Caches g ↔ w.Caches g := by
  obtain ⟨-, hspares, -⟩ := frameUnshare_cases (w := w) (f := f)
  rw [World.Caches, hspares.hash, World.Caches]

theorem Inv.release (h : Inv w)
    (hkept : w.Caches f → w.table = false ∨ w.shares f ≤ 1 → w.ownsFrame f = true) :
    Inv (w.release f) := by
  obtain ⟨hlast, hspares, -⟩ := frameUnshare_cases (w := w) (f := f)
  have hunshare : Inv (w.frameUnshare f).2 := h.spares hspares fun e _ hf => by cases hf
  rw [World.release]
  split
  next hyes =>
    refine hunshare.pmmFreeFrame fun hc => ?_
    rw [frameUnshare_caches] at hc
    rw [frameUnshare_owns]
    obtain ⟨hcount, -⟩ | ⟨-, hno⟩ := hlast
    · exact hkept hc hcount
    · rw [hyes] at hno
      cases hno
  · exact hunshare

theorem owns_of_release_sound (hsound : (w.release f).Sound) (hc : w.Caches f)
    (hlast : w.table = false ∨ w.shares f ≤ 1) : w.ownsFrame f = true := by
  obtain ⟨⟨-, hyes⟩ | ⟨hcount, -⟩, -⟩ := frameUnshare_cases (w := w) (f := f)
  · rw [release, hyes] at hsound
    rw [← frameUnshare_owns f f]
    exact owns_of_sound hsound ((frameUnshare_caches f f).mpr hc)
  · obtain htable | hshares := hlast
    · rw [htable] at hcount
      cases hcount.1
    · omega

end Frames

section Truncate

theorem Inv.truncate (h : Inv w) (hzero : ∀ p, w.Shows i p → (w.inodes i).file.byte p = 0) :
    Inv (w.setInode i fun ino => { ino with file := ino.file.truncate }) := by
  refine h.setInode rfl fun e he hid k hk => ?_
  have hne : (w.inodes i).pcId ≠ 0 := by
    rw [← hid]
    exact (h.sound.named e he).1
  rw [h.sound.bytes e i he hid.symm k hk, hzero _ ⟨hne, e, k, he, hid, hk, rfl⟩]
  exact (if_neg (Nat.not_lt_zero _)).symm

theorem zero_of_truncate_sound (h : Inv w) {p : ℕ}
    (hsound : (w.setInode i fun ino => { ino with file := ino.file.truncate }).Sound)
    (hp : w.Shows i p) : (w.inodes i).file.byte p = 0 := by
  obtain ⟨-, e, k, he, hid, hk, rfl⟩ := hp
  rw [← h.sound.bytes e i he hid.symm k hk, hsound.bytes e i he ?_ k hk, setInode_inodes_self]
  · exact if_neg (Nat.not_lt_zero _)
  · rw [setInode_inodes_self]
    exact hid.symm

theorem Inv.ftruncate (h : Inv w) {size : ℕ} {luck : Luck}
    (hkept : w.Kept (.ftruncate i size luck)) : Inv (w.ftruncate i size luck) := by
  refine refuse_rule h fun _ => ?_
  split
  · split
    next hzero =>
      exact h.truncate (hkept.1 hzero)
    · exact h
  · exact h.vfsWrite (hkept.2 (by omega))

theorem kept_of_ftruncate_sound (h : Inv w) {size : ℕ} {luck : Luck}
    (hsound : (w.ftruncate i size luck).Sound) : w.Kept (.ftruncate i size luck) := by
  refine ⟨?_, ?_⟩
  · rintro rfl p hp
    rw [ftruncate] at hsound
    by_cases hcur : 0 = (w.inodes i).file.size
    · exact if_neg (by omega)
    · rw [if_neg hcur, if_pos (by omega), if_pos rfl] at hsound
      exact zero_of_truncate_sound h hsound hp
  · intro hlt p hp
    rw [ftruncate, if_neg (by omega), if_neg (by omega)] at hsound
    exact clean_of_sound h hsound hp

end Truncate

section Map

variable {idx : ℕ} {luck : MapLuck}

theorem Inv.mapPage (h : Inv w) (hkept : w.Kept (.mapPage i idx luck)) :
    Inv (w.mapPage i idx luck) := by
  have hassign := h.assignId hkept.1
  obtain ⟨hreclaim, hsub⟩ := reclaim_spec hassign luck.mem 64
  obtain ⟨-, ⟨frame, hhit⟩ | hsame | hrec⟩ | ⟨got, w', page, hread, hmem, hmiss, hw', hfree,
    hpage, hadd⟩ := mapPage_cases w i idx luck
  · rw [hhit]
    exact hassign.touch _ _ _
  · rw [hsame]
    exact hassign
  · rw [hrec]
    exact hreclaim
  · rw [hadd]
    obtain ⟨hid, hdeliver⟩ := hkept.2 got hread
    have hbytes : ∀ k < pageSize, page.2 k = (w.inodes i).file.byte (idx * pageSize + k) := by
      intro k hk
      rw [hpage, assignId_file]
      exact delivers_iff.mp hdeliver k hk
    have hnew : ∀ a, Stored (w.assignId i).hash a → a.key ≠ (((w.assignId i).inodes i).pcId, idx) :=
      fun a ha => hassign.sound.hashed.key_ne_of_lookup hmiss ha
    rw [assignId_pcId] at hnew ⊢
    obtain rfl | rfl := hw'
    · refine hassign.addPage (i := i) hmem hid assignId_pcId hnew hfree ?_
      rwa [assignId_file]
    · refine hreclaim.addPage (i := i) hmem hid ?_ (fun a ha => hnew a (hsub a ha)) hfree ?_
      · rw [reclaim_inodes, assignId_pcId]
      · rwa [reclaim_inodes, assignId_file]

theorem mapPage_inodes (w : World) (i idx : ℕ) (luck : MapLuck) :
    (w.mapPage i idx luck).inodes = (w.assignId i).inodes := by
  obtain ⟨-, ⟨frame, hhit⟩ | hsame | hrec⟩ | ⟨got, w', page, -, hmem, -, hw', -, -, hadd⟩ :=
    mapPage_cases w i idx luck
  · rw [hhit, spares_frameShare.inodes]
  · rw [hsame]
  · rw [hrec, reclaim_inodes]
  · rw [hadd, (addPage_eq w' _ idx page hmem).2.1]
    obtain rfl | rfl := hw'
    · rfl
    · rw [reclaim_inodes]

theorem kept_of_mapPage_sound (hsound : (w.mapPage i idx luck).Sound) :
    w.Kept (.mapPage i idx luck) := by
  constructor
  · intro hid hnext j hj
    have hji : j ≠ i := by
      rintro rfl
      exact hnext (hj.symm.trans hid)
    have hidi : ((w.mapPage i idx luck).inodes i).pcId = w.nextId := by
      rw [mapPage_inodes, assignId_pcId, idOf, if_pos hid]
    refine hji (hsound.single i j (by rwa [hidi]) ?_).symm
    rw [hidi, mapPage_inodes, assignId_inodes_of_ne hji, hj]
  · intro got hgot
    obtain ⟨hnone, -⟩ | ⟨got', w', page, hread, hmem, -, -, -, hpage, hadd⟩ :=
      mapPage_cases w i idx luck
    · rw [hgot] at hnone
      cases hnone
    · rw [hgot] at hread
      cases hread
      have hstored : Stored (w.mapPage i idx luck).hash
          (addedPage ((w.assignId i).inodes i).pcId idx page luck) := by
        rw [hadd, (addPage_eq w' _ idx page hmem).1, stored_push]
        exact .inl rfl
      have hbytes := hsound.bytes _ i hstored (by rw [mapPage_inodes]; rfl)
      refine ⟨?_, delivers_iff.mpr fun k hk => ?_⟩
      · rw [← assignId_pcId]
        exact (hsound.named _ hstored).1
      · have := hbytes k hk
        rw [mapPage_inodes, assignId_file] at this
        rw [assignId_file] at hpage
        rw [← hpage]
        exact this

end Map

theorem inv_step (a : Act) (h : Inv w) (hkept : w.Kept a) : Inv (w.step a) := by
  cases a with
  | mapPage i idx luck => exact h.mapPage hkept
  | write i off n buf luck => exact h.vfsWrite hkept
  | «open» i trunc mem =>
    have hopen : Inv (w.setInode i fun ino => { ino with opens := ino.opens + 1 }) :=
      h.setInode rfl fun e he hid => h.sound.bytes e i he hid.symm
    exact guard_rule hopen fun _ => (hopen.invalidate mem rfl).1
  | ftruncate i size luck => exact h.ftruncate hkept
  | unlink i mem file =>
    rw [step]
    split
    · exact h.setInode rfl fun e he hid => h.sound.bytes e i he hid.symm
    · exact h.remove mem file
  | close i mem file =>
    have hclose : Inv (w.setInode i fun ino => { ino with opens := ino.opens - 1 }) :=
      h.setInode rfl fun e he hid => h.sound.bytes e i he hid.symm
    exact guard_rule hclose fun _ => hclose.remove mem file
  | reclaim max mem => exact (reclaim_spec h mem max).1
  | release f => exact h.release hkept
  | free f => exact h.pmmFreeFrame hkept

theorem kept_of_sound (a : Act) (h : Inv w) (hsound : (w.step a).Sound) : w.Kept a := by
  cases a with
  | mapPage i idx luck => exact kept_of_mapPage_sound hsound
  | write i off n buf luck => exact fun p hp => clean_of_sound h hsound hp
  | ftruncate i size luck => exact kept_of_ftruncate_sound h hsound
  | release f => exact owns_of_release_sound hsound
  | free f => exact owns_of_sound hsound
  | _ => trivial

theorem coherent_iff_kept (files : ℕ → File) (shares : ℕ → ℕ) (table : Bool) (free : ℕ → Bool)
    (acts : List Act) :
    Always World.step World.Sound (boot files shares table free) acts ↔
      Allowed World.step World.Kept (boot files shares table free) acts :=
  always_iff_of_step (fun _ a => inv_step a) (fun _ h => h.sound) (fun _ a => kept_of_sound a)
    (inv_boot files shares table free)

theorem one_lt_posEnd : 1 < posEnd := by decide

def letter : File := ⟨true, 1, fun _ => 65, one_lt_posEnd⟩

def easily : MapLuck := ⟨some (7, 4096), none, true, fun _ => true, 0⟩

def oneByte : World := boot (fun _ => letter) (fun _ => 0) true fun _ => true

def cutFile : List Act := [.mapPage 0 0 easily, .ftruncate 0 0 ⟨true, 0⟩]

theorem stale_after_ftruncate : ¬ Always World.step World.Sound oneByte cutFile := by
  intro h
  have hpage : ((run World.step oneByte cutFile).hash (hslot (1, 0))).map
      (fun e => (e.id, e.idx, e.bytes 0)) = [(1, 0, 65)] := by decide
  have hid : ((run World.step oneByte cutFile).inodes 0).pcId = 1 := by decide
  obtain ⟨e, he, hfields⟩ := List.mem_map.mp (hpage ▸ List.mem_cons_self)
  simp only [Prod.mk.injEq] at hfields
  have hbyte := h.last.bytes e 0 ⟨_, he⟩ (hid.trans hfields.1.symm) 0 (by decide)
  rw [hfields.2.1, hfields.2.2] at hbyte
  exact absurd hbyte (by decide)

end DosKernel.Pcache

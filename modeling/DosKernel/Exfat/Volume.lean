import Mathlib.Data.Nat.Bitwise

namespace DosKernel.Exfat

def uint32End : ℕ := 4294967296

def le32 (bs : ℕ → UInt8) (p : ℕ) : ℕ :=
  (bs p).toNat + (bs (p + 1)).toNat * 256 + (bs (p + 2)).toNat * 65536 +
    (bs (p + 3)).toNat * 16777216

-- `1u << shift`: all three machines take a count from 32 on, which C leaves open, modulo 32.
def shifted (shift : UInt8) : ℕ := 2 ^ (shift.toNat % 32)

structure Geometry where
  bytesPerSector : ℕ
  sectorsPerCluster : ℕ
  bytesPerCluster : ℕ
  fatOffset : ℕ
  fatLength : ℕ
  clusterHeapOffset : ℕ
  clusterCount : ℕ
  rootCluster : ℕ
deriving DecidableEq, Repr

def geometry (bs : ℕ → UInt8) : Geometry where
  bytesPerSector := shifted (bs 0x6C)
  sectorsPerCluster := shifted (bs 0x6D)
  bytesPerCluster := shifted (bs 0x6C) * shifted (bs 0x6D) % uint32End
  fatOffset := le32 bs 0x50
  fatLength := le32 bs 0x54
  clusterHeapOffset := le32 bs 0x58
  clusterCount := le32 bs 0x5C
  rootCluster := le32 bs 0x60

section Mount

-- `exfat_mount` up to the scan of the root; `mem` tells whether there is memory for the volume.
def mount (occupied : Bool) (boot : Option (ℕ → UInt8)) (mem : Bool) (sectorSize : ℕ) :
    Except ℤ Geometry :=
  if occupied then .error (-2)
  else
    match boot with
    | none => .error (-3)
    | some bs =>
      if (List.range' 3 8).map bs ≠ [69, 88, 70, 65, 84, 32, 32, 32] then .error (-4)
      else if !mem then .error (-5)
      else if (geometry bs).bytesPerSector ≠ sectorSize then .error (-6)
      else .ok (geometry bs)

-- Where `dir_iter_sector` finds a byte: cluster, sector and byte. A division by zero traps.
def Geometry.place (g : Geometry) (off : ℕ) : Option (ℕ × ℕ × ℕ) :=
  if g.bytesPerCluster = 0 ∨ g.bytesPerSector = 0 then none
  else
    let within := off % g.bytesPerCluster
    some (off / g.bytesPerCluster % uint32End, within / g.bytesPerSector, within % g.bytesPerSector)

structure Usable (g : Geometry) : Prop where
  power : ∃ k, g.bytesPerCluster = 2 ^ k
  exact : g.bytesPerCluster = g.bytesPerSector * g.sectorsPerCluster
  places : ∀ off, (g.place off).isSome = true

theorem usable_geometry_iff {bs : ℕ → UInt8} :
    Usable (geometry bs) ↔ (bs 0x6C).toNat % 32 + (bs 0x6D).toNat % 32 < 32 := by
  have hprod : (geometry bs).bytesPerCluster =
      2 ^ ((bs 0x6C).toNat % 32 + (bs 0x6D).toNat % 32) % 2 ^ 32 := by
    rw [Nat.pow_add]
    rfl
  constructor
  · rintro ⟨⟨k, hk⟩, -, -⟩
    refine Nat.lt_of_not_le fun hle => ?_
    rw [hprod, Nat.mod_eq_zero_of_dvd (Nat.pow_dvd_pow 2 hle)] at hk
    exact absurd hk.symm (Nat.two_pow_pos k).ne'
  · intro hlt
    rw [Nat.mod_eq_of_lt (Nat.pow_lt_pow_right (by decide) hlt)] at hprod
    refine ⟨⟨_, hprod⟩, hprod.trans (Nat.pow_add ..), fun off => ?_⟩
    have hsector : (geometry bs).bytesPerSector ≠ 0 := (Nat.two_pow_pos _).ne'
    have hcluster : (geometry bs).bytesPerCluster ≠ 0 := hprod ▸ (Nat.two_pow_pos _).ne'
    rw [Geometry.place, if_neg (not_or.mpr ⟨hcluster, hsector⟩)]
    rfl

theorem mount_eq_ok {occupied mem : Bool} {bs : ℕ → UInt8} {sectorSize : ℕ} {g : Geometry}
    (h : mount occupied (some bs) mem sectorSize = .ok g) : geometry bs = g := by
  unfold mount at h
  split at h
  · cases h
  simp only at h
  split at h
  · cases h
  split at h
  · cases h
  split at h
  · cases h
  · exact Except.ok.inj h

-- What is mounted is usable exactly when the two shifts together stay below 32.
theorem mount_usable_iff {occupied mem : Bool} {bs : ℕ → UInt8} {sectorSize : ℕ} {g : Geometry}
    (h : mount occupied (some bs) mem sectorSize = .ok g) :
    Usable g ↔ (bs 0x6C).toNat % 32 + (bs 0x6D).toNat % 32 < 32 := by
  rw [← mount_eq_ok h]
  exact usable_geometry_iff

-- A boot sector with these two shifts.
def bootOf (sector cluster : UInt8) : ℕ → UInt8 := fun p =>
  [0, 0, 0, 69, 88, 70, 65, 84, 32, 32, 32].getD p
    (if p = 0x6C then sector else if p = 0x6D then cluster else 0)

theorem eightSectors_usable : ∃ g, mount false (some (bootOf 9 3)) true 512 = .ok g ∧ Usable g := by
  have h : mount false (some (bootOf 9 3)) true 512 = .ok (geometry (bootOf 9 3)) := rfl
  exact ⟨_, h, (mount_usable_iff h).mpr (by decide)⟩

theorem cluster_of_no_bytes : ∃ g, mount false (some (bootOf 9 23)) true 512 = .ok g ∧
    g.bytesPerCluster = 0 ∧ g.place 0 = none := ⟨_, rfl, by decide, by decide⟩

end Mount

end DosKernel.Exfat

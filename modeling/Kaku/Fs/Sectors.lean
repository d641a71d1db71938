-- SUMMARY: Which sectors the driver takes a block to lie in, and up to which size of a volume they are its own.
import Kaku.Fs.Alloc

/-!
# Sectors of blocks

`FS_EXT2_BLK_TO_LBA` of `fs/src/ext2.c` multiplies before it divides, in 32 bits, and
`dev/src/ata.c` passes 28 bits of the sum on. The product is a byte offset in the
volume, so that blocks beyond 4 GiB start again at the first.
-/

namespace Kaku.Mount

variable {fs : Mount} {v : Volume} {b c n : Nat}

/-- A block is a whole number of sectors, and 4 GiB are a whole number of blocks. -/
theorem Sized.divides (hs : fs.Sized) :
    ataSectorSize * (fs.blockSize / ataSectorSize) = fs.blockSize ∧ fs.blockSize ∣ 2 ^ 32 := by
  obtain ⟨k, hk, hsize⟩ := hs
  constructor
  · rw [hsize, ataSectorSize]
    omega
  · rw [hsize, show 1024 = 2 ^ 10 from rfl, ← Nat.pow_add]
    exact Nat.pow_dvd_pow 2 (by omega)

/-- Below 4 GiB the multiplication is exact. -/
theorem Sized.blkAddr_eq (hs : fs.Sized) (hlt : b * fs.blockSize < 2 ^ 32) :
    fs.blkAddr b =
      ataSectorSize * ((fs.lbaRoot + b * (fs.blockSize / ataSectorSize)) % 2 ^ 28) := by
  have hdiv : b * fs.blockSize / ataSectorSize = b * (fs.blockSize / ataSectorSize) := by
    apply Nat.mul_div_assoc
    exact ⟨_, hs.divides.1.symm⟩
  have hexact : addr32 (b * fs.blockSize) = b * fs.blockSize := Nat.mod_eq_of_lt hlt
  rw [blkAddr, blkToLba, sectorAddr, hexact, hdiv, addr32,
    Nat.mod_mod_of_dvd _ (Nat.pow_dvd_pow 2 (by decide))]

/-- Two blocks below 4 GiB share no sector, wherever the partition starts. -/
theorem Sized.apart_of_lt (hs : fs.Sized) (hbc : b < c)
    (hc : c * fs.blockSize + fs.blockSize ≤ 2 ^ 32) : fs.Apart b c := by
  have hsectors := hs.divides.1
  have hpos := hs.pos
  have hb : b * fs.blockSize + fs.blockSize ≤ c * fs.blockSize := by
    rw [← Nat.succ_mul]
    exact Nat.mul_le_mul_right _ hbc
  rw [Apart, hs.blkAddr_eq (by omega), hs.blkAddr_eq (by omega)]
  generalize fs.blockSize / ataSectorSize = n at *
  rw [← hsectors] at hb hc hpos ⊢
  rw [ataSectorSize] at *
  have hbn : b * (512 * n) = 512 * (b * n) := Nat.mul_left_comm _ _ _
  have hcn : c * (512 * n) = 512 * (c * n) := Nat.mul_left_comm _ _ _
  omega

theorem Sized.apart (hs : fs.Sized) (hvol : n * fs.blockSize ≤ 2 ^ 32) (hb : b < n) (hc : c < n)
    (hbc : b ≠ c) : fs.Apart b c := by
  have hlast (d : Nat) (hd : d < n) : d * fs.blockSize + fs.blockSize ≤ 2 ^ 32 := by
    rw [← Nat.succ_mul]
    exact Nat.le_trans (Nat.mul_le_mul_right _ hd) hvol
  rcases Nat.lt_or_gt_of_ne hbc with hlt | hgt
  · exact hs.apart_of_lt hlt (hlast c hc)
  · exact (hs.apart_of_lt hgt (hlast b hb)).symm

/-- The block at 4 GiB is taken to be the first one. -/
theorem Sized.blkAddr_wraps (hs : fs.Sized) :
    fs.blkAddr (2 ^ 32 / fs.blockSize) = fs.blkAddr 0 := by
  rw [blkAddr, blkAddr, blkToLba, blkToLba, Nat.div_mul_cancel hs.divides.2, Nat.zero_mul]
  rfl

/-- The blocks of a volume lie in sectors of their own exactly if it has at most 4 GiB. -/
theorem blocks_apart_iff (hs : fs.Sized) :
    (∀ b < v.sbBlocksCount, ∀ c < v.sbBlocksCount, b ≠ c → fs.Apart b c) ↔
      v.sbBlocksCount * fs.blockSize ≤ 2 ^ 32 := by
  constructor
  · intro hapart
    by_contra hlarge
    have hpos := hs.pos
    have hlt := hs.lt
    have hexact := Nat.div_mul_cancel hs.divides.2
    have hin : 2 ^ 32 / fs.blockSize < v.sbBlocksCount := by
      rw [Nat.div_lt_iff_lt_mul hpos]
      omega
    have hne : 0 ≠ 2 ^ 32 / fs.blockSize := by
      intro hzero
      rw [← hzero] at hexact
      omega
    have hshared := hapart 0 (Nat.zero_lt_of_lt hin) _ hin hne
    rw [Apart, hs.blkAddr_wraps] at hshared
    omega
  · intro hvol b hb c hc hbc
    exact hs.apart hvol hb hc hbc

/-- A partition at sector 2048 with blocks of 4 KiB. -/
def pageMount : Mount where
  lbaRoot := 2048
  blockSize := 4096
  nbBlockGroups := 33
  inodeSize := 128
  timeout := fun _ _ => none
  stale := fun _ _ => 0

/-- A volume with this many blocks. -/
def blocksVolume (blocksCount : Nat) : Volume where
  disk := fun _ => 0
  sb := Mem.store (fun _ => 0) 4 4 blocksCount
  bgdt := fun _ => 0
  transfers := 0

theorem pageMount_sized : pageMount.Sized := ⟨2, by decide, rfl⟩

/-- Exactly 4 GiB. -/
theorem blocks_apart_full : pageMount.Sized ∧
    ∀ b < (blocksVolume (2 ^ 20)).sbBlocksCount, ∀ c < (blocksVolume (2 ^ 20)).sbBlocksCount,
      b ≠ c → pageMount.Apart b c := by
  refine ⟨pageMount_sized, (blocks_apart_iff pageMount_sized).2 ?_⟩
  decide

/-- One block more than 4 GiB. -/
theorem blocks_shared :
    pageMount.Sized ∧ pageMount.lbaRoot +
        (blocksVolume (2 ^ 20 + 1)).sbBlocksCount * pageMount.blockSize / ataSectorSize < 2 ^ 28 ∧
      ¬ ∀ b < (blocksVolume (2 ^ 20 + 1)).sbBlocksCount,
        ∀ c < (blocksVolume (2 ^ 20 + 1)).sbBlocksCount, b ≠ c → pageMount.Apart b c := by
  refine ⟨pageMount_sized, by decide, fun hapart => ?_⟩
  exact absurd (hapart 0 (by decide) (2 ^ 20) (by decide) (by decide)) (by decide)

end Kaku.Mount

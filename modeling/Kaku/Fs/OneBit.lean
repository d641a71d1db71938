-- SUMMARY: The bit that an allocation marks, and the block that ext2 assigns to that bit.
import Kaku.Fs.Alloc

/-!
# One bit for one block

Bit `j` of the block bitmap of group `g` stands for block
`sb_block_nb_of_sb + g * sb_nb_blocks_in_group + j`. `fs_ext2_alloc_block` leaves
out the first summand.
-/

namespace Kaku

namespace Resource

/-- What ext2 numbers by bit `i` of the bitmap of a group. -/
def standsFor : Resource → Volume → Nat → Nat → Nat
  | block, v, g, i => v.sbBlockNbOfSb + g * v.sbNbBlocksInGroup + i
  | inode, v, g, i => g * v.sbNbInodesInGroup + i + 1

end Resource

namespace Mount

/-- A bit of the bitmaps, as `w` has it at the place where the bitmaps of `v` lie. -/
def bitOf (fs : Mount) (v w : Volume) (r : Resource) (g j : Nat) : Bool :=
  (w.blk fs (v.bitmapBlk r g)).bit j

/-- Bit `i` of a group goes from 0 to 1, and no other bit of any bitmap changes. -/
structure OneBit (fs : Mount) (v v' : Volume) (r : Resource) (g i : Nat) : Prop where
  group : g < fs.nbBlockGroups
  index : i < 8 * fs.blockSize
  clear : fs.bitOf v v r g i = false
  bits : ∀ r' g', g' < fs.nbBlockGroups → ∀ j < 8 * fs.blockSize,
    fs.bitOf v v' r' g' j = (fs.bitOf v v r' g' j || decide ((r', g', j) = (r, g, i)))

/-- The bitmaps of an ext2 image: their sectors are their own, and a bit that stands
for no block of the volume is set. -/
structure Bitmaps (fs : Mount) (v : Volume) : Prop where
  sized : fs.Sized
  layout : fs.Layout v
  blocksEnd : ∀ g < fs.nbBlockGroups, ∀ i < 8 * fs.blockSize, fs.bitOf v v .block g i = false →
    i < v.sbNbBlocksInGroup ∧ Resource.standsFor .block v g i < v.sbBlocksCount

/-- The bit that is marked is the one that stands for block `b`. -/
def Marks (fs : Mount) (v v' : Volume) (b : Nat) : Prop :=
  ∃ g i, fs.OneBit v v' .block g i ∧ b = Resource.standsFor .block v g i

variable {fs : Mount} {v v' : Volume} {r : Resource} {g g' i j b left blk preferred : Nat}
  {bitmap : Mem} {found : Option (Nat × Nat × Mem)}

namespace OneBit

/-- There is only one such bit. -/
theorem unique {r' : Resource} (h : fs.OneBit v v' r g i) (h' : fs.OneBit v v' r' g' j) :
    (r, g, i) = (r', g', j) := by
  have hset := h.bits r g h.group i h.index
  rw [h'.bits r g h.group i h.index, h.clear] at hset
  simpa using hset

theorem not_unchanged (h : fs.OneBit v v' r g i)
    (hsame : ∀ r g, g < fs.nbBlockGroups → ∀ j < 8 * fs.blockSize,
      fs.bitOf v v' r g j = fs.bitOf v v r g j) : False := by
  have hset := h.bits r g h.group i h.index
  rw [hsame r g h.group i h.index, h.clear] at hset
  simp at hset

end OneBit

/-- An allocation that takes a bit changes that bit only. -/
theorem Taken.oneBit (h : fs.Taken v r g i v') (hl : fs.Layout v) (hg : g < fs.nbBlockGroups)
    (hi : i < 8 * fs.blockSize) (hclear : fs.bitOf v v r g i = false) :
    fs.OneBit v v' r g i := by
  refine ⟨hg, hi, hclear, fun r' g' hg' j hj => ?_⟩
  have hbit := h.bit r' hl hg hg' hj
  rw [h.bitmapBlk] at hbit
  exact hbit

/-! ## Blocks larger than 64 KiB -/

theorem search_frame (h : fs.search r preferred left blk v = .ok (found, v')) :
    ∃ t, v' = v.after t := by
  induction left generalizing blk v with
  | zero =>
    cases h
    exact ⟨_, rfl⟩
  | succ left ih =>
    have hread (b) : (fs.readBlk b v).2.2 = v.after (v.transfers + 1) := rfl
    rw [search] at h
    simp only [hread] at h
    split at h
    · exact ih h
    split at h
    · obtain ⟨t, rfl⟩ := ih h
      exact ⟨t, rfl⟩
    split at h
    · cases h
      exact ⟨_, rfl⟩
    split at h
    · cases h
    · obtain ⟨t, rfl⟩ := ih h
      exact ⟨t, rfl⟩

theorem writeSbBaseToDisk_sb : (fs.writeSbBaseToDisk v).sb = v.sb := by
  rcases Bool.eq_false_or_eq_true (fs.timeout v.transfers fs.sbLba).isNone with hok | hok <;>
    simp only [writeSbBaseToDisk, ataRead, ataWrite, hok] <;> rfl

/-- What an allocation does to the superblock in memory. -/
theorem alloc_sb (h : fs.alloc r preferred v = .ok (b, v')) :
    b = 0 ∧ v'.sb = v.sb ∨ v'.sb = v.sb.store r.totalField 4 (sub32 (v.total r) 1) := by
  rw [alloc] at h
  obtain ⟨⟨found, w⟩, hsearch, h⟩ := bind_eq_ok.1 h
  obtain ⟨t, rfl⟩ := search_frame hsearch
  cases found with
  | none =>
    cases h
    exact .inl ⟨rfl, rfl⟩
  | some c =>
    obtain ⟨g, i, bitmap⟩ := c
    simp only [take] at h
    split at h
    · cases h
    · cases h
      exact .inr writeSbBaseToDisk_sb

/-- Bitmaps larger than 64 KiB are never written, and the other writes miss them. -/
theorem alloc_large (hs : fs.Sized) (hl : fs.Layout v) (hlarge : 65536 < fs.blockSize)
    (h : fs.alloc r preferred v = .ok (b, v')) (hg : g < fs.nbBlockGroups)
    (hj : j < 8 * fs.blockSize) {r' : Resource} : fs.bitOf v v' r' g j = fs.bitOf v v r' g j := by
  have hzero : fs.blockSize / ataSectorSize % 2 ^ 8 = 0 := by
    rcases hs.sectors with ⟨hsmall, -⟩ | ⟨-, hzero⟩
    · omega
    · exact hzero
  have hnone (lba : Nat) (w : Volume) : fs.moved lba (fs.blockSize / ataSectorSize) w = 0 := by
    rw [moved, hzero]
    split <;> simp
  have hsuper (w : Volume) : (fs.writeSbBaseToDisk w).disk = w.disk := by
    simp only [writeSbBaseToDisk, ataRead, ataWrite, hnone]
    split
    · rfl
    · funext x
      exact Mem.blit_of_not_mem (by omega)
  have htable (w : Volume) (x) (hx : x < sectorAddr fs.bgdtLba ∨
      sectorAddr fs.bgdtLba + fs.tableLen ≤ x) : (fs.writeBgdtToDisk w).disk x = w.disk x := by
    have hlen : fs.moved fs.bgdtLba (ceilDiv fs.bgdtSize ataSectorSize) w ≤ fs.tableLen := by
      rw [moved, tableLen, ataSectorSize]
      split <;> omega
    rw [writeBgdtToDisk_disk, Mem.blit_of_not_mem (by omega)]
  have hdisk : ∀ x, (x < sectorAddr fs.bgdtLba ∨ sectorAddr fs.bgdtLba + fs.tableLen ≤ x) →
      v'.disk x = v.disk x := by
    intro x hx
    rw [alloc] at h
    obtain ⟨⟨found, w⟩, hsearch, h⟩ := bind_eq_ok.1 h
    obtain ⟨t, rfl⟩ := search_frame hsearch
    cases found with
    | none =>
      cases h
      rfl
    | some c =>
      obtain ⟨g, i, bitmap⟩ := c
      have hwrite : (fs.writeBlk (v.bitmapBlk r g) (bitmap.setBit i) (v.after t)).2.disk = _ :=
        writeBlk_of_large hs hlarge
      simp only [take] at h
      split at h
      · cases h
      · cases h
        rw [hsuper, htable _ x hx]
        exact congrFun hwrite x
  apply Mem.bit_congr
  have hapart := hl.table r' g hg
  rw [← tableLen] at hapart
  exact hdisk _ (by omega)

/-! ## The number of the block -/

/-- What `fs_ext2_alloc_block` returns is the block of the bit when no block comes before
those of the groups. -/
theorem Taken.marks_iff (hb : fs.Bitmaps v) (h : fs.Taken v .block g i v')
    (hg : g < fs.nbBlockGroups) (hi : i < 8 * fs.blockSize)
    (hclear : fs.bitOf v v .block g i = false) :
    fs.Marks v v' (Resource.number .block v g i) ↔ v.sbBlockNbOfSb = 0 := by
  obtain ⟨-, hend⟩ := hb.blocksEnd g hg i hi hclear
  have hone := h.oneBit hb.layout hg hi hclear
  have hcount : v.sbBlocksCount < 256 ^ 4 := Mem.load_lt
  have hnumber : Resource.number .block v g i = g * v.sbNbBlocksInGroup + i := by
    rw [Resource.standsFor] at hend
    exact Nat.mod_eq_of_lt (by omega)
  rw [hnumber]
  constructor
  · rintro ⟨g', i', hone', hsame⟩
    obtain ⟨-, rfl, rfl⟩ : Resource.block = .block ∧ g = g' ∧ i = i' := by
      simpa using hone.unique hone'
    rw [Resource.standsFor] at hsame
    omega
  · intro hzero
    exact ⟨g, i, hone, by rw [Resource.standsFor, hzero, Nat.zero_add]⟩

/-- The bit that an allocation chooses is clear. -/
theorem choice_spec (hnb : 0 < fs.nbBlockGroups) (hscan : r.scanned fs v ≤ fs.blockSize)
    (h : fs.choice r preferred v = some (g, i, j)) :
    g < fs.nbBlockGroups ∧ i < 8 * r.scanned fs v ∧ i < 8 * fs.blockSize ∧
      fs.bitOf v v r g i = false := by
  obtain ⟨hg, -, hfirst⟩ := target_eq_some hnb h
  obtain ⟨-, hlt, hclear, -⟩ := Mem.firstClear_eq_some hfirst
  exact ⟨hg, by omega, by omega, hclear⟩

theorem nbBlockGroups_pos (h : fs.choice r preferred v = some (g, i, j)) :
    0 < fs.nbBlockGroups := by
  rw [choice] at h
  cases hnb : fs.nbBlockGroups with
  | zero =>
    rw [hnb] at h
    cases h
  | succ n => exact Nat.succ_pos n

/-- `fs_ext2_alloc_block` marks the block that it returns exactly where the first data
block is block 0, and where a bitmap fits in one transfer. -/
theorem alloc_block_marks (hb : fs.Bitmaps v) (hr : fs.Reliable)
    (h : fs.allocBlock preferred v = .ok (b, v')) (hne : b ≠ 0) :
    fs.Marks v v' b ↔ v.sbBlockNbOfSb = 0 ∧ fs.blockSize ≤ 65536 := by
  rcases Nat.lt_or_ge 65536 fs.blockSize with hlarge | hsmall
  · constructor
    · rintro ⟨g, i, hone, -⟩
      exact (hone.not_unchanged fun r g hg j hj =>
        alloc_large hb.sized hb.layout hlarge h hg hj).elim
    · rintro ⟨-, hsmall⟩
      omega
  · have hfits : fs.Fits := ⟨hb.sized, hsmall⟩
    have hscan : Resource.scanned .block fs v ≤ fs.blockSize := le_rfl
    rw [allocBlock] at h
    cases hchoice : fs.choice .block preferred v with
    | none =>
      obtain ⟨t, hzero⟩ := alloc_of_none hfits hscan hchoice
      rw [hzero] at h
      cases h
      exact absurd rfl hne
    | some c =>
      obtain ⟨g, i, t⟩ := c
      have hnb := nbBlockGroups_pos hchoice
      obtain ⟨hg, -, hi, hclear⟩ := choice_spec hnb hscan hchoice
      obtain ⟨w, halloc, htaken⟩ := alloc_of_write hfits hb.layout hr.failsOnBitmaps hscan hchoice
        (hr _ _) hnb
      rw [halloc] at h
      cases h
      rw [htaken.marks_iff hb hg hi hclear]
      exact ⟨fun hzero => ⟨hzero, hsmall⟩, And.left⟩

/-! ## A volume of one group -/

def tinyTable : Mem := ((Mem.store (fun _ => 0) 0 4 3).store 4 4 4).store 12 2 1

/-- 64 blocks of 1 KiB: the superblock in block 1, the table in block 2, the bitmaps in
blocks 3 and 4. One block is free, and no inode. -/
def tinyVolume (firstBlock : Nat) (bitmap : UInt8) : Volume where
  disk x := if x = 3072 then bitmap else if 3072 ≤ x ∧ x < 5120 then 255 else 0
  sb := (((Mem.store (fun _ => 0) 4 4 64).store 20 4 firstBlock).store 32 4 8192).store 40 4 16
  bgdt := tinyTable
  transfers := 0

/-- The drive behind it. -/
def tinyMount : Mount where
  lbaRoot := 0
  blockSize := 1024
  nbBlockGroups := 1
  inodeSize := 128
  timeout _ _ := none
  stale _ _ := 0

theorem tinyMount_fits : tinyMount.Fits := ⟨⟨0, by omega, rfl⟩, by decide⟩

theorem tinyVolume_layout (firstBlock : Nat) (byte : UInt8) :
    tinyMount.Layout (tinyVolume firstBlock byte) := by
  have hblk (r) : (tinyVolume firstBlock byte).bitmapBlk r 0 = tinyTable.load r.bitmapField 4 := by
    rw [Volume.bitmapBlk, Nat.mul_zero, Nat.zero_add]
    rfl
  refine ⟨fun r g r' g' hg hg' hne => ?_, fun r g hg => ?_, fun r g hg => ?_, by decide⟩
  · obtain rfl : g = 0 := Nat.lt_one_iff.1 hg
    obtain rfl : g' = 0 := Nat.lt_one_iff.1 hg'
    rw [hblk, hblk]
    cases r <;> cases r' <;> first | exact absurd rfl hne | decide
  · obtain rfl : g = 0 := Nat.lt_one_iff.1 hg
    rw [hblk]
    cases r <;> decide
  · obtain rfl : g = 0 := Nat.lt_one_iff.1 hg
    rw [hblk]
    cases r <;> decide

/-- Block bitmap `0xDF`, and set bits behind it: only bit 5 is clear. -/
theorem tinyVolume_clear (firstBlock : Nat) {j : Nat} (hj : j < 8192)
    (hclear : tinyMount.bitOf (tinyVolume firstBlock 0xDF) (tinyVolume firstBlock 0xDF) .block 0 j =
      false) : j = 5 := by
  rcases Nat.lt_or_ge j 8 with hlo | hhi
  · have hbyte : (tinyVolume firstBlock 0xDF).blk tinyMount 3 (j / 8) = 0xDF := by
      rw [Nat.div_eq_of_lt hlo]
      rfl
    have hbit : Nat.testBit 0xDF (j % 8) = false := by
      rw [← hclear]
      show _ = Mem.bit ((tinyVolume firstBlock 0xDF).blk tinyMount 3) j
      rw [Mem.bit, hbyte]
      rfl
    interval_cases j <;> first | rfl | cases hbit
  · have hset : Mem.bit ((tinyVolume firstBlock 0xDF).blk tinyMount 3) j = true := by
      apply Mem.bit_of_eq_255
      show (if 3072 + j / 8 = 3072 then 0xDF else
        if 3072 ≤ 3072 + j / 8 ∧ 3072 + j / 8 < 5120 then 255 else 0 : UInt8) = 255
      rw [if_neg (by omega), if_pos (by omega)]
    cases hset.symm.trans hclear

theorem tinyVolume_bitmaps {firstBlock : Nat} (hfirst : firstBlock < 2) :
    tinyMount.Bitmaps (tinyVolume firstBlock 0xDF) := by
  refine ⟨tinyMount_fits.sized, tinyVolume_layout _ _, fun g hg i hi hclear => ?_⟩
  obtain rfl : g = 0 := Nat.lt_one_iff.1 hg
  obtain rfl := tinyVolume_clear firstBlock hi hclear
  interval_cases firstBlock <;> decide

/-- Block 0 is the first block: block 5 is allocated, and its bit is marked. -/
theorem alloc_block_marks_fifth : ∃ v', tinyMount.allocBlock 0 (tinyVolume 0 0xDF) = .ok (5, v') ∧
    tinyMount.Marks (tinyVolume 0 0xDF) v' 5 := by
  have halloc : ((tinyMount.allocBlock 0 (tinyVolume 0 0xDF)).toOption.any fun p =>
      decide (p.1 = 5)) = true := by decide
  obtain ⟨⟨b, v'⟩, hok, hb⟩ := toOption_any.1 halloc
  obtain rfl : b = 5 := of_decide_eq_true hb
  exact ⟨v', hok, (alloc_block_marks (tinyVolume_bitmaps (by omega)) (fun _ _ => rfl) hok
    (by decide)).2 (by decide)⟩

/-- Block 1 is the first block: block 5 is returned, and the bit of block 6 is marked. -/
theorem alloc_block_neighbour : ∃ v', tinyMount.allocBlock 0 (tinyVolume 1 0xDF) = .ok (5, v') ∧
    ¬ tinyMount.Marks (tinyVolume 1 0xDF) v' 5 := by
  have hchoice : tinyMount.choice .block 0 (tinyVolume 1 0xDF) = some (0, 5, 1) := by decide
  obtain ⟨v', halloc, htaken⟩ := alloc_of_write tinyMount_fits
    (tinyVolume_layout 1 0xDF)
    (Reliable.failsOnBitmaps fun _ _ => rfl) le_rfl hchoice rfl (by decide)
  have hnumber : Resource.number .block (tinyVolume 1 0xDF) 0 5 = 5 := by decide
  have hiff := htaken.marks_iff (tinyVolume_bitmaps (by omega)) (by decide) (by decide)
    (choice_spec (by decide) le_rfl hchoice).2.2.2
  rw [hnumber] at halloc hiff
  refine ⟨v', halloc, fun hmarks => ?_⟩
  exact absurd (hiff.1 hmarks) (by decide)

end Mount

end Kaku

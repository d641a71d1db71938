-- SUMMARY: Writing an inode changes its slot of the inode table and nothing else.
import Kaku.Fs.InodeTable
import Kaku.Fs.Sectors

/-!
# Inodes written and read back

An inode is written by reading its block, replacing 128 bytes of it and writing the
block. Its neighbours in the block are written back as they were read, and the
blocks of the other groups are apart.
-/

namespace Kaku

/-- `sb_inodes_count`. -/
def Volume.sbInodesCount (v : Volume) : Nat := v.sb.load 0 4

namespace Mount

/-- How many blocks the inode table of a group has. -/
def inodeTableBlocks (fs : Mount) (v : Volume) : Nat :=
  (v.sbNbInodesInGroup * fs.inodeSize + fs.blockSize - 1) / fs.blockSize

/-- The inode tables of a volume of at most 4 GiB lie inside it, apart from each other,
and are made of slots that divide a block. -/
structure InodeTables (fs : Mount) (v : Volume) : Prop where
  good : fs.Good
  volume : v.sbBlocksCount * fs.blockSize ≤ 2 ^ 32
  slot : inodeBytes ≤ fs.inodeSize
  divides : fs.inodeSize ∣ fs.blockSize
  inside : ∀ g < fs.nbBlockGroups,
    v.inodeTableBlk g + fs.inodeTableBlocks v ≤ v.sbBlocksCount
  disjoint : ∀ g < fs.nbBlockGroups, ∀ h < fs.nbBlockGroups, g ≠ h →
    v.inodeTableBlk g + fs.inodeTableBlocks v ≤ v.inodeTableBlk h ∨
      v.inodeTableBlk h + fs.inodeTableBlocks v ≤ v.inodeTableBlk g
  count : v.sbInodesCount ≤ fs.nbBlockGroups * v.sbNbInodesInGroup

/-- The first byte of a slot on the drive. -/
def slotAddr (fs : Mount) (slot : Nat × Nat) : Nat := fs.blkAddr slot.1 + slot.2

variable {fs : Mount} {v v' : Volume} {inode : Inode} {k : Nat} {slot : Nat × Nat}

/-! ## Slots -/

/-- The slot of inode `i` of group `g`. -/
def groupSlot (fs : Mount) (v : Volume) (g i : Nat) : Nat × Nat :=
  (v.inodeTableBlk g + i * fs.inodeSize / fs.blockSize, i * fs.inodeSize % fs.blockSize)

section Slots

variable (ht : fs.InodeTables v)
include ht

/-- The table has room for all slots. -/
theorem InodeTables.room {i : Nat} (hi : i < v.sbNbInodesInGroup) :
    i * fs.inodeSize / fs.blockSize < fs.inodeTableBlocks v ∧
      i * fs.inodeSize + fs.inodeSize ≤ fs.inodeTableBlocks v * fs.blockSize := by
  have hbs := ht.good.sized.pos
  have hslot : 128 ≤ fs.inodeSize := ht.slot
  have hnext : i * fs.inodeSize + fs.inodeSize ≤ v.sbNbInodesInGroup * fs.inodeSize := by
    rw [← Nat.succ_mul]
    exact Nat.mul_le_mul_right _ hi
  have hceil : v.sbNbInodesInGroup * fs.inodeSize ≤ fs.inodeTableBlocks v * fs.blockSize := by
    have hdiv := Nat.div_add_mod (v.sbNbInodesInGroup * fs.inodeSize + fs.blockSize - 1) fs.blockSize
    have hmod := Nat.mod_lt (v.sbNbInodesInGroup * fs.inodeSize + fs.blockSize - 1) hbs
    rw [inodeTableBlocks, Nat.mul_comm _ fs.blockSize]
    omega
  refine ⟨?_, by omega⟩
  rw [Nat.div_lt_iff_lt_mul hbs]
  omega

/-- A slot lies inside its block. -/
theorem InodeTables.offset_le (g i : Nat) :
    (fs.groupSlot v g i).2 + fs.inodeSize ≤ fs.blockSize := by
  obtain ⟨m, hm⟩ := ht.divides
  have hbs := ht.good.sized.pos
  have hpos : 0 < m := by
    rcases Nat.eq_zero_or_pos m with rfl | hpos
    · omega
    · exact hpos
  rw [groupSlot, hm, Nat.mul_comm i, Nat.mul_mod_mul_left, ← Nat.mul_succ]
  exact Nat.mul_le_mul_left _ (Nat.mod_lt i hpos)

/-- Each number of the volume has a slot in the table of its group. -/
theorem InodeTables.inodeSlot_eq (hk : 1 ≤ k) (hcount : k ≤ v.sbInodesCount) :
    ∃ g < fs.nbBlockGroups, ∃ i < v.sbNbInodesInGroup, k = g * v.sbNbInodesInGroup + i + 1 ∧
      fs.inodeSlot k v = .ok (fs.groupSlot v g i) := by
  have hfew : k ≤ fs.nbBlockGroups * v.sbNbInodesInGroup := Nat.le_trans hcount ht.count
  have hpos : 0 < v.sbNbInodesInGroup := by
    apply Nat.pos_of_ne_zero
    intro hzero
    rw [hzero, Nat.mul_zero] at hfew
    omega
  have hgroup : v.inodeGroup k = (k - 1) / v.sbNbInodesInGroup := by
    rw [Volume.inodeGroup, sub32_of_le hk]
  have hindex : v.inodeIndex k = (k - 1) % v.sbNbInodesInGroup := by
    rw [Volume.inodeIndex, sub32_of_le hk]
  have hg : v.inodeGroup k < fs.nbBlockGroups := by
    rw [hgroup, Nat.div_lt_iff_lt_mul hpos]
    omega
  have hi : v.inodeIndex k < v.sbNbInodesInGroup := by
    rw [hindex]
    exact Nat.mod_lt _ hpos
  refine ⟨_, hg, _, hi, ?_, ?_⟩
  · rw [hgroup, hindex, Nat.div_add_mod']
    omega
  · obtain ⟨hblk, hbyte⟩ := ht.room hi
    have hin := ht.inside _ hg
    have hblocks : fs.inodeTableBlocks v * fs.blockSize ≤ 2 ^ 32 := by
      refine Nat.le_trans (Nat.mul_le_mul_right _ ?_) ht.volume
      omega
    have hslot : 128 ≤ fs.inodeSize := ht.slot
    have hexact : addr32 (v.inodeIndex k * fs.inodeSize) = v.inodeIndex k * fs.inodeSize :=
      Nat.mod_eq_of_lt (by omega)
    have hlast : v.sbBlocksCount < 2 ^ 32 := Mem.load_lt
    rw [inodeSlot, if_neg (by omega), if_neg (by omega), hexact, groupSlot]
    simp only
    rw [addr32, Nat.mod_eq_of_lt (by omega)]

/-- The slots of two inodes share no byte. -/
theorem InodeTables.slots_apart {g i h j : Nat} (hg : g < fs.nbBlockGroups)
    (hi : i < v.sbNbInodesInGroup) (hh : h < fs.nbBlockGroups) (hj : j < v.sbNbInodesInGroup)
    (hne : (g, i) ≠ (h, j)) :
    fs.slotAddr (fs.groupSlot v g i) + inodeBytes ≤ fs.slotAddr (fs.groupSlot v h j) ∨
      fs.slotAddr (fs.groupSlot v h j) + inodeBytes ≤ fs.slotAddr (fs.groupSlot v g i) := by
  obtain ⟨hblki, -⟩ := ht.room hi
  obtain ⟨hblkj, -⟩ := ht.room hj
  have hoffi := ht.offset_le g i
  have hoffj := ht.offset_le h j
  have hing := ht.inside g hg
  have hinh := ht.inside h hh
  have hslot := ht.slot
  simp only [slotAddr, groupSlot] at hoffi hoffj ⊢
  rcases eq_or_ne (v.inodeTableBlk g + i * fs.inodeSize / fs.blockSize)
    (v.inodeTableBlk h + j * fs.inodeSize / fs.blockSize) with hsame | hother
  · -- In one block the slots are multiples of their size apart.
    obtain rfl : g = h := by
      by_contra hgh
      have hdisjoint := ht.disjoint g hg h hh hgh
      generalize i * fs.inodeSize / fs.blockSize = qi at *
      generalize j * fs.inodeSize / fs.blockSize = qj at *
      omega
    have hij : i ≠ j := fun heq => hne (by rw [heq])
    have hdivi := Nat.div_add_mod (i * fs.inodeSize) fs.blockSize
    have hdivj := Nat.div_add_mod (j * fs.inodeSize) fs.blockSize
    have hquot : i * fs.inodeSize / fs.blockSize = j * fs.inodeSize / fs.blockSize := by omega
    rw [hquot] at hdivi
    have hstep : ∀ a b, a < b → a * fs.inodeSize + fs.inodeSize ≤ b * fs.inodeSize := by
      intro a b hab
      rw [← Nat.succ_mul]
      exact Nat.mul_le_mul_right _ hab
    rw [hsame]
    rcases Nat.lt_or_gt_of_ne hij with hlt | hgt
    · have := hstep i j hlt
      omega
    · have := hstep j i hgt
      omega
  · have hapart := ht.good.sized.apart ht.volume (by omega) (by omega) hother
    rw [Apart] at hapart
    omega

end Slots

/-! ## Reading and writing -/

/-- The slot of a number depends on superblock and descriptors only. -/
theorem inodeSlot_congr (hsb : v'.sb = v.sb) (hbgdt : v'.bgdt = v.bgdt) :
    fs.inodeSlot k v' = fs.inodeSlot k v := by
  obtain ⟨disk, sb, bgdt, transfers⟩ := v
  obtain ⟨disk', sb', bgdt', transfers'⟩ := v'
  obtain rfl : sb' = sb := hsb
  obtain rfl : bgdt' = bgdt := hbgdt
  rfl

/-- Reading an inode gives the bytes of its slot. -/
theorem Good.readInode_eq (hg : fs.Good) (hslot : fs.inodeSlot k v = .ok slot)
    (hin : slot.2 + inodeBytes ≤ fs.blockSize) : ∃ w, fs.readInode k v =
      .ok (⟨Mem.blit (fun _ => 0) 0 inodeBytes fun x => v.disk (fs.slotAddr slot + x), k⟩,
        w) := by
  obtain ⟨blk, offset⟩ := slot
  simp only at hin
  have hraw : Mem.blit (fun _ => 0) 0 inodeBytes (fun x =>
      (fs.stale v.transfers).blit 0 fs.blockSize (v.blk fs blk) (offset + x)) =
      Mem.blit (fun _ => 0) 0 inodeBytes fun x => v.disk (fs.slotAddr (blk, offset) + x) := by
    apply Mem.blit_congr
    intro x hx
    rw [Mem.blit_of_mem (by omega) (by omega), Volume.blk, slotAddr, Nat.sub_zero, Nat.add_assoc]
  refine ⟨{ v with transfers := v.transfers + 1 }, ?_⟩
  rw [readInode, hslot, ok_bind]
  simp only [hg.readBlk, Bool.not_true, Bool.false_eq_true, if_false]
  rw [if_neg (by omega), hraw]
  rfl

/-- Writing an inode stores its bytes in its slot. -/
theorem Good.writeInode_eq (hg : fs.Good) (hslot : fs.inodeSlot inode.inodeId v = .ok slot)
    (hin : slot.2 + inodeBytes ≤ fs.blockSize) : ∃ v', fs.writeInode inode v = .ok (true, v') ∧
      v'.sb = v.sb ∧ v'.bgdt = v.bgdt ∧
      v'.disk = v.disk.blit (fs.slotAddr slot) inodeBytes inode.raw := by
  obtain ⟨blk, offset⟩ := slot
  simp only at hin
  -- The rest of the block is written back as it was read.
  have hdisk : v.disk.blit (fs.blkAddr blk) fs.blockSize
      (((fs.stale v.transfers).blit 0 fs.blockSize (v.blk fs blk)).blit offset inodeBytes inode.raw) =
      v.disk.blit (fs.blkAddr blk + offset) inodeBytes inode.raw := by
    funext x
    rcases Nat.lt_or_ge x (fs.blkAddr blk) with hlo | hlo
    · rw [Mem.blit_of_not_mem (.inl hlo), Mem.blit_of_not_mem (by omega)]
    rcases Nat.lt_or_ge x (fs.blkAddr blk + fs.blockSize) with hhi | hhi
    · rw [Mem.blit_of_mem hlo hhi]
      obtain ⟨y, rfl⟩ := Nat.exists_eq_add_of_le hlo
      rw [Nat.add_sub_cancel_left]
      by_cases hslot : offset ≤ y ∧ y < offset + inodeBytes
      · rw [Mem.blit_of_mem hslot.1 hslot.2,
          Mem.blit_of_mem (by omega) (by omega)]
        congr 1
        omega
      · rw [Mem.blit_of_not_mem (by omega), Mem.blit_of_mem (by omega) (by omega),
          Mem.blit_of_not_mem (by omega)]
        rfl
    · rw [Mem.blit_of_not_mem (.inr hhi), Mem.blit_of_not_mem (by omega)]
  refine ⟨{ v with
    disk := v.disk.blit (fs.blkAddr blk + offset) inodeBytes inode.raw
    transfers := v.transfers + 2 }, ?_, rfl, rfl, rfl⟩
  rw [writeInode, hslot, ok_bind]
  simp only [hg.readBlk, Bool.not_true, Bool.false_eq_true, if_false]
  rw [if_neg (by omega), hg.writeBlk, hdisk]
  rfl

/-- An inode that is written is read back as it was, the inodes of all other numbers are
read as before, and no byte of the drive outside its slot changes. -/
theorem inode_round_trip (ht : fs.InodeTables v) (hid : 1 ≤ inode.inodeId)
    (hcount : inode.inodeId ≤ v.sbInodesCount) :
    ∃ slot v', fs.inodeSlot inode.inodeId v = .ok slot ∧ fs.writeInode inode v = .ok (true, v') ∧
      (∃ r w, fs.readInode inode.inodeId v' = .ok (r, w) ∧ r.inodeId = inode.inodeId ∧
        ∀ x < inodeBytes, r.raw x = inode.raw x) ∧
      (∀ k, 1 ≤ k → k ≤ v.sbInodesCount → k ≠ inode.inodeId → ∃ r w w',
        fs.readInode k v = .ok (r, w) ∧ fs.readInode k v' = .ok (r, w')) ∧
      ∀ x, x < fs.slotAddr slot ∨ fs.slotAddr slot + inodeBytes ≤ x → v'.disk x = v.disk x := by
  obtain ⟨g, hg, i, hi, hnumber, hslot⟩ := ht.inodeSlot_eq hid hcount
  have hfits := ht.slot
  have hin (h j : Nat) : (fs.groupSlot v h j).2 + inodeBytes ≤ fs.blockSize := by
    have := ht.offset_le h j
    omega
  obtain ⟨v', hwrite, hsb, hbgdt, hdisk⟩ := ht.good.writeInode_eq hslot (hin g i)
  refine ⟨_, v', hslot, hwrite, ?_, fun k hk hkcount hne => ?_, fun x hx => ?_⟩
  · rw [← inodeSlot_congr hsb hbgdt] at hslot
    obtain ⟨w, hread⟩ := ht.good.readInode_eq hslot (hin g i)
    refine ⟨_, w, hread, rfl, fun x hx => ?_⟩
    dsimp only
    rw [Mem.blit_of_mem (by omega) (by omega), hdisk, Mem.blit_of_mem (by omega) (by omega),
      Nat.add_sub_cancel_left, Nat.sub_zero]
  · obtain ⟨h, hh, j, hj, hknumber, hkslot⟩ := ht.inodeSlot_eq hk hkcount
    have hapart := ht.slots_apart hg hi hh hj fun heq => hne (by
      obtain ⟨rfl, rfl⟩ := Prod.mk.inj heq
      omega)
    have hkslot' := hkslot
    rw [← inodeSlot_congr hsb hbgdt] at hkslot'
    obtain ⟨w, hread⟩ := ht.good.readInode_eq hkslot (hin h j)
    obtain ⟨w', hread'⟩ := ht.good.readInode_eq hkslot' (hin h j)
    have hsame : (Mem.blit (fun _ => 0) 0 inodeBytes fun x =>
        v'.disk (fs.slotAddr (fs.groupSlot v h j) + x)) =
        Mem.blit (fun _ => 0) 0 inodeBytes fun x =>
          v.disk (fs.slotAddr (fs.groupSlot v h j) + x) := by
      apply Mem.blit_congr
      intro x hx
      rw [hdisk, Mem.blit_of_not_mem (by omega)]
    rw [hsame] at hread'
    exact ⟨_, w, w', hread, hread'⟩
  · rw [hdisk, Mem.blit_of_not_mem hx]

/-- Two groups of eight inodes, with blocks of 1 KiB. -/
def twoGroupsMount : Mount where
  lbaRoot := 2048
  blockSize := 1024
  nbBlockGroups := 2
  inodeSize := 128
  timeout := fun _ _ => none
  stale := fun _ _ => 0xAA

/-- The tables are in blocks 5 and 13 of 16. -/
def twoGroupsVolume : Volume where
  disk := fun _ => 0
  sb := ((Mem.store (fun _ => 0) 0 4 16).store 4 4 16).store 40 4 8
  bgdt := (Mem.store (fun _ => 0) 8 4 5).store 40 4 13
  transfers := 0

theorem twoGroups_tables : twoGroupsMount.InodeTables twoGroupsVolume where
  good := ⟨fun _ _ => rfl, ⟨0, by decide, rfl⟩, by decide⟩
  volume := by decide
  slot := by decide
  divides := by decide
  inside := by decide
  disjoint := by decide
  count := by decide

/-- Inode 11 is the third of the second group. -/
theorem inode_round_trip_eleven : ∃ v',
    twoGroupsMount.writeInode ⟨fun x => UInt8.ofNat x, 11⟩ twoGroupsVolume = .ok (true, v') ∧
      ∃ r w, twoGroupsMount.readInode 11 v' = .ok (r, w) ∧ r.raw 100 = 100 := by
  obtain ⟨slot, v', -, hwrite, ⟨r, w, hread, -, hraw⟩, -⟩ := @inode_round_trip
    _ _ ⟨fun x => UInt8.ofNat x, 11⟩ twoGroups_tables (by decide) (by decide)
  exact ⟨v', hwrite, r, w, hread, hraw 100 (by decide)⟩

end Mount

end Kaku

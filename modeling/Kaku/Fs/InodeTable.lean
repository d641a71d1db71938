-- SUMMARY: Inodes on the drive: the slot of the inode table that a number stands for, read and written.
import Kaku.Fs.Alloc
import Kaku.Fs.Inode

/-!
# The inode table

`fs_ext2_read_inode` and `fs_ext2_write_inode` of `fs/src/ext2.c`. Inode numbers
start at 1, and what is not a number of the volume leads past the end of
`fs_ext2_bgdt`.
-/

namespace Kaku

/-- The bytes of an inode on the drive: `fs_ext2_inode` without `inode_id`. -/
def inodeBytes : Nat := 128

namespace Volume

/-- `dsc_starting_block_of_inode_table`. -/
def inodeTableBlk (v : Volume) (grp : Nat) : Nat := v.bgdt.load (32 * grp + 8) 4

/-- `FS_EXT2_INODEID_TO_BLK_GRP`. -/
def inodeGroup (v : Volume) (inodeId : Nat) : Nat := sub32 inodeId 1 / v.sbNbInodesInGroup

/-- `FS_EXT2_INODEID_TO_INODE_INDEX`. -/
def inodeIndex (v : Volume) (inodeId : Nat) : Nat := sub32 inodeId 1 % v.sbNbInodesInGroup

end Volume

namespace Mount

/-- The block of an inode, and the offset in it. -/
def inodeSlot (fs : Mount) (inodeId : Nat) (v : Volume) : K (Nat × Nat) :=
  if v.sbNbInodesInGroup = 0 then .error (.panic "Interrupt: 0")
  else if fs.nbBlockGroups ≤ v.inodeGroup inodeId then .error .wild
  else
    let byte := addr32 (v.inodeIndex inodeId * fs.inodeSize)
    .ok (addr32 (v.inodeTableBlk (v.inodeGroup inodeId) + byte / fs.blockSize), byte % fs.blockSize)

/-- A block that cannot be read leaves an inode of zeros, and a block that ends within the
inode is read past its end. -/
def readInode (fs : Mount) (inodeId : Nat) (v : Volume) : K (Inode × Volume) := do
  let (blk, offset) ← fs.inodeSlot inodeId v
  let (ok, buf, v) := fs.readBlk blk v
  if !ok then pure (⟨fun _ => 0, 0⟩, v)
  else if fs.blockSize < offset + inodeBytes then .error .wild
  else pure (⟨Mem.blit (fun _ => 0) 0 inodeBytes fun x => buf (offset + x), inodeId⟩, v)

def writeInode (fs : Mount) (inode : Inode) (v : Volume) : K (Bool × Volume) := do
  let (blk, offset) ← fs.inodeSlot inode.inodeId v
  let (ok, buf, v) := fs.readBlk blk v
  if !ok then pure (false, v)
  else if fs.blockSize < offset + inodeBytes then .error .wild
  else pure (fs.writeBlk blk (buf.blit offset inodeBytes inode.raw) v)

variable {fs : Mount} {v v' : Volume} {inode : Inode} {inodeId blk offset : Nat} {ok : Bool}

/-! ## Numbers of inodes -/

/-- What has a slot in the table is a number of the volume. -/
theorem inodeSlot_spec (h : fs.inodeSlot inodeId v = .ok (blk, offset)) :
    0 < v.sbNbInodesInGroup ∧ v.inodeGroup inodeId < fs.nbBlockGroups := by
  rw [inodeSlot] at h
  split at h
  · cases h
  split at h
  · cases h
  · exact ⟨by omega, by omega⟩

/-- Number 0 has none, as long as there are fewer inodes than numbers. -/
theorem inodeSlot_zero (hfew : fs.nbBlockGroups * v.sbNbInodesInGroup < 2 ^ 32) :
    fs.inodeSlot 0 v ≠ .ok (blk, offset) := by
  intro h
  obtain ⟨hpos, hgroup⟩ := inodeSlot_spec h
  rw [Volume.inodeGroup, Nat.div_lt_iff_lt_mul hpos, show sub32 0 1 = 2 ^ 32 - 1 from rfl] at hgroup
  omega

/-! ## What reading and writing an inode leave alone -/

theorem readInode_after (h : fs.readInode inodeId v = .ok (inode, v')) : ∃ t, v' = v.after t := by
  rw [readInode] at h
  obtain ⟨⟨blk, offset⟩, -, h⟩ := bind_eq_ok.1 h
  have hread : (fs.readBlk blk v).2.2 = v.after (v.transfers + 1) := rfl
  simp only [hread] at h
  split at h
  · cases h
    exact ⟨_, rfl⟩
  split at h
  · cases h
  · cases h
    exact ⟨_, rfl⟩

theorem writeInode_sb (h : fs.writeInode inode v = .ok (ok, v')) : v'.sb = v.sb := by
  rw [writeInode] at h
  obtain ⟨⟨blk, offset⟩, -, h⟩ := bind_eq_ok.1 h
  have hread : (fs.readBlk blk v).2.2 = v.after (v.transfers + 1) := rfl
  simp only [hread] at h
  split at h
  · cases h
    rfl
  split at h
  · cases h
  · cases h
    rfl

end Mount

end Kaku

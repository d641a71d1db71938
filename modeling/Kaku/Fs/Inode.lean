-- SUMMARY: Inodes as the ext2 driver holds them, and the block behind an index of a file.
import Kaku.Fs.Volume

/-!
# Inodes

`fs/src/inode.h`, and the block lookups of `fs/src/ext2.c`. A file has twelve
direct blocks, and as many more as pointers fit in one indirect block.
-/

namespace Kaku

/-- `fs_ext2_inode`: the 128 bytes of the drive, and the number that
`fs_ext2_read_inode` adds to them. -/
structure Inode where
  raw : Mem
  inodeId : Nat

namespace Inode

def inodeTypeAndPermissions (inode : Inode) : Nat := inode.raw.load 0 2

def inodeSizeLowBits (inode : Inode) : Nat := inode.raw.load 4 4

/-- `inode_direct_blk_ptr0` and its eleven successors. -/
def inodeDirectBlkPtr (inode : Inode) (i : Nat) : Nat := inode.raw.load (40 + 4 * i) 4

def inodeSinglyIndirectBlkPtr (inode : Inode) : Nat := inode.raw.load 88 4

end Inode

namespace Mount

/-- The driver does not look at the outcome of the read. -/
def getBlockPtr (fs : Mount) (inode : Inode) (i : Nat) (v : Volume) : Nat × Volume :=
  if i < 12 then (inode.inodeDirectBlkPtr i, v)
  else if fs.blockSize / 4 ≤ i - 12 then (0, v)
  else if inode.inodeSinglyIndirectBlkPtr = 0 then (0, v)
  else
    let (_, indirect, v) := fs.readBlk inode.inodeSinglyIndirectBlkPtr v
    (indirect.load (4 * (i - 12)) 4, v)

/-- How many blocks the size of a file calls for. -/
def nbBlocks (fs : Mount) (inode : Inode) : Nat := ceilDiv inode.inodeSizeLowBits fs.blockSize

end Mount

/-- The block behind an index, as the drive has it. -/
def Volume.blockPtr (v : Volume) (fs : Mount) (inode : Inode) (i : Nat) : Nat :=
  if i < 12 then inode.inodeDirectBlkPtr i
  else if fs.blockSize / 4 ≤ i - 12 then 0
  else if inode.inodeSinglyIndirectBlkPtr = 0 then 0
  else (v.blk fs inode.inodeSinglyIndirectBlkPtr).load (4 * (i - 12)) 4

variable {fs : Mount} {v v' : Volume} {inode : Inode} {i : Nat}

/-- A lookup moves the clock of the drive at most. -/
theorem Mount.getBlockPtr_frame (fs : Mount) (inode : Inode) (i : Nat) (v : Volume) :
    (fs.getBlockPtr inode i v).2.disk = v.disk ∧ (fs.getBlockPtr inode i v).2.sb = v.sb ∧
      (fs.getBlockPtr inode i v).2.bgdt = v.bgdt := by
  simp only [getBlockPtr]
  split
  · exact ⟨rfl, rfl, rfl⟩
  split
  · exact ⟨rfl, rfl, rfl⟩
  split <;> exact ⟨rfl, rfl, rfl⟩

theorem Mount.Good.getBlockPtr (h : fs.Good) (inode : Inode) (i : Nat) (v : Volume) :
    (fs.getBlockPtr inode i v).1 = v.blockPtr fs inode i := by
  simp only [Mount.getBlockPtr, Volume.blockPtr]
  split
  · rfl
  split
  · rfl
  split
  · rfl
  · rename_i hinside hmapped
    rw [h.readBlk]
    apply Mem.load_congr
    intro x hlo hhi
    exact Mem.blit_of_mem (by omega) (by omega)

@[simp] theorem Volume.after_blockPtr {t : Nat} :
    (v.after t).blockPtr fs inode i = v.blockPtr fs inode i := rfl

theorem Mount.getBlockPtr_after (fs : Mount) (inode : Inode) (i : Nat) (v : Volume) :
    ∃ t, (fs.getBlockPtr inode i v).2 = v.after t := by
  obtain ⟨hdisk, hsb, hbgdt⟩ := fs.getBlockPtr_frame inode i v
  refine ⟨(fs.getBlockPtr inode i v).2.transfers, ?_⟩
  rw [Volume.after, ← hdisk, ← hsb, ← hbgdt]

/-- A lookup, and nothing else. -/
theorem Mount.Good.getBlockPtr_eq (h : fs.Good) (inode : Inode) (i : Nat) (v : Volume) :
    ∃ t, fs.getBlockPtr inode i v = (v.blockPtr fs inode i, v.after t) := by
  obtain ⟨t, hvol⟩ := fs.getBlockPtr_after inode i v
  exact ⟨t, Prod.ext (h.getBlockPtr inode i v) hvol⟩

/-- The lookup depends on the indirect block only. -/
theorem Volume.blockPtr_congr (h : 12 ≤ i → inode.inodeSinglyIndirectBlkPtr ≠ 0 →
    ∀ x < fs.blockSize, v'.blk fs inode.inodeSinglyIndirectBlkPtr x =
      v.blk fs inode.inodeSinglyIndirectBlkPtr x) :
    v'.blockPtr fs inode i = v.blockPtr fs inode i := by
  simp only [blockPtr]
  split
  · rfl
  split
  · rfl
  split
  · rfl
  · rename_i hindirect hinside hmapped
    apply Mem.load_congr
    intro x hlo hhi
    exact h (by omega) hmapped x (by omega)

end Kaku

-- SUMMARY: Writing a file, and reading one: the loops over its blocks.
import Kaku.Fs.BlockPtr
import Kaku.Fs.InodeTable
import Kaku.Fs.Listing

/-!
# File contents

`fs_ext2_write_file` and `fs_ext2_read_file_contents` of `fs/src/ext2.c`. The buffer
of the caller is a memory of its own, of which the first `size` bytes are used.
-/

namespace Kaku

namespace Inode

def setInodeSizeLowBits (inode : Inode) (size : Nat) : Inode :=
  { inode with raw := inode.raw.store 4 4 size }

end Inode

namespace Mount

/-! ## Writing -/

/-- One turn of the loop: the block behind index `i` gets `n` bytes of the buffer. The
result tells whether it was written. -/
def writeFileBlk (fs : Mount) (inode : Inode) (i : Nat) (buf : Mem) (n : Nat) (v : Volume) :
    K (Bool × Inode × Volume) := do
  let (blk, inode, v) ← fs.getOrAllocBlockPtr inode i v
  if blk = 0 then pure (false, inode, v)
  else
    let (ok, bufBlk, v) := fs.readBlk blk v
    if !ok then pure (false, inode, v)
    else
      let (ok, v) := fs.writeBlk blk (bufBlk.blit 0 n buf) v
      pure (ok, inode, v)

/-- The loop over the blocks, with the bytes that have been written so far. It ends at the
first index that has no block, so that the fuel does not run out. -/
def writeFileLoop (fs : Mount) (buf : Mem) (size : Nat) :
    (fuel i writtenBytes : Nat) → Inode → Volume → K (Nat × Inode × Volume)
  | 0, _, _, _, _ => .error .hang
  | fuel + 1, i, writtenBytes, inode, v =>
    if writtenBytes < size then do
      let n := min (size - writtenBytes) fs.blockSize
      let (ok, inode, v) ← fs.writeFileBlk inode i (fun x => buf (writtenBytes + x)) n v
      if ok then fs.writeFileLoop buf size fuel (i + 1) (writtenBytes + n) inode v
      else pure (writtenBytes, inode, v)
    else pure (writtenBytes, inode, v)

/-- How many turns the loops over the blocks of a file can take. -/
def maxBlocks (fs : Mount) : Nat := 12 + fs.blockSize / 4

/-- The result is negative for what is not a file. The inode is the caller's, and changes
whether or not it can be written. -/
def writeFile (fs : Mount) (inode : Inode) (buf : Mem) (size : Nat) (v : Volume) :
    K (Int × Inode × Volume) :=
  if !inode.isFile then pure (-1, inode, v)
  else do
    let (writtenBytes, inode, v) ←
      fs.writeFileLoop buf size (fs.maxBlocks + 1) 0 0 (inode.setInodeSizeLowBits size) v
    let (_, v) ← fs.writeInode inode v
    pure (writtenBytes, inode, v)

/-! ## Reading -/

/-- The loop of `fs_ext2_read_file_contents`, with the buffer filled so far. -/
def readFileLoop (fs : Mount) (inode : Inode) (size : Nat) :
    (left i writtenBytes : Nat) → Mem → Volume → Nat × Mem × Volume
  | 0, _, writtenBytes, buf, v => (writtenBytes, buf, v)
  | left + 1, i, writtenBytes, buf, v =>
    if writtenBytes < size then
      let n := min (size - writtenBytes) fs.blockSize
      let (blk, v) := fs.getBlockPtr inode i v
      if blk = 0 then (writtenBytes, buf, v)
      else
        let (ok, bufBlk, v) := fs.readBlk blk v
        if !ok then (writtenBytes, buf, v)
        else fs.readFileLoop inode size left (i + 1) (writtenBytes + n)
          (buf.blit writtenBytes n bufBlk) v
    else (writtenBytes, buf, v)

def readFileContents (fs : Mount) (inode : Inode) (buf : Mem) (size : Nat) (v : Volume) :
    Int × Mem × Volume :=
  if !inode.isFile then (-1, buf, v)
  else
    let (writtenBytes, buf, v) := fs.readFileLoop inode size (fs.nbBlocks inode) 0 0 buf v
    (writtenBytes, buf, v)

/-! ## What writing leaves alone -/

variable {fs : Mount} {v v' w : Volume} {inode inode' : Inode} {i b n size fuel written : Nat}
  {ok : Bool} {buf : Mem} {result : Int}

/-- Behind the counter of free blocks the superblock in memory stays as it is. -/
def SbKept (v v' : Volume) : Prop := ∀ a n, 16 ≤ a → v'.sb.load a n = v.sb.load a n

namespace SbKept

theorem of_eq (h : v'.sb = v.sb) : SbKept v v' := fun a n _ => by rw [h]

theorem trans (h : SbKept v v') (h' : SbKept v' w) : SbKept v w :=
  fun a n ha => (h' a n ha).trans (h a n ha)

theorem total (h : SbKept v v') : v'.total .inode = v.total .inode := h 16 4 le_rfl

theorem perGroup (h : SbKept v v') : v'.sbNbInodesInGroup = v.sbNbInodesInGroup := h 40 4 (by omega)

theorem of_allocBlock (h : fs.allocBlock n v = .ok (b, v')) : SbKept v v' := by
  rcases alloc_sb h with ⟨-, hsame⟩ | hstore
  · exact of_eq hsame
  · intro a n ha
    rw [hstore]
    exact Mem.load_store_of_disjoint (.inr ha)

theorem of_getOrAllocIndirect (h : fs.getOrAllocIndirect inode i v = .ok (b, v')) :
    SbKept v v' := by
  have hread (c) : (fs.readBlk c v).2.2 = v.after (v.transfers + 1) := rfl
  have hwrite (c) (buf : Mem) (w : Volume) : (fs.writeBlk c buf w).2.sb = w.sb := rfl
  rw [getOrAllocIndirect] at h
  simp only [hread] at h
  split at h
  · obtain ⟨⟨blk, w⟩, halloc, h⟩ := bind_eq_ok.1 h
    cases h
    have hkept := of_allocBlock halloc
    exact hkept.trans (of_eq (hwrite _ _ w))
  · cases h
    exact of_eq rfl

end SbKept

/-- The inode keeps its number. -/
theorem getOrAllocBlockPtr_kept (h : fs.getOrAllocBlockPtr inode i v = .ok (b, inode', v')) :
    SbKept v v' ∧ inode'.inodeId = inode.inodeId := by
  rw [getOrAllocBlockPtr] at h
  split at h
  · split at h
    · obtain ⟨⟨blk, w⟩, halloc, h⟩ := bind_eq_ok.1 h
      cases h
      exact ⟨.of_allocBlock halloc, rfl⟩
    · cases h
      exact ⟨.of_eq rfl, rfl⟩
  split at h
  · cases h
    exact ⟨.of_eq rfl, rfl⟩
  split at h
  · obtain ⟨⟨indirect, w⟩, halloc, h⟩ := bind_eq_ok.1 h
    obtain ⟨⟨blk, u⟩, hget, h⟩ := bind_eq_ok.1 h
    cases h
    exact ⟨(SbKept.of_allocBlock halloc).trans (.of_getOrAllocIndirect hget), rfl⟩
  · obtain ⟨⟨blk, u⟩, hget, h⟩ := bind_eq_ok.1 h
    cases h
    exact ⟨.of_getOrAllocIndirect hget, rfl⟩

theorem writeFileBlk_kept (h : fs.writeFileBlk inode i buf n v = .ok (ok, inode', v')) :
    SbKept v v' ∧ inode'.inodeId = inode.inodeId := by
  rw [writeFileBlk] at h
  obtain ⟨⟨blk, found, w⟩, hget, h⟩ := bind_eq_ok.1 h
  obtain ⟨hkept, hid⟩ := getOrAllocBlockPtr_kept hget
  have hread : (fs.readBlk blk w).2.2 = w.after (w.transfers + 1) := rfl
  simp only [hread] at h
  split at h
  · cases h
    exact ⟨hkept, hid⟩
  split at h
  · cases h
    exact ⟨hkept.trans (.of_eq rfl), hid⟩
  · cases h
    exact ⟨hkept.trans (.of_eq rfl), hid⟩

theorem writeFileLoop_kept
    (h : fs.writeFileLoop buf size fuel i written inode v = .ok (n, inode', v')) :
    SbKept v v' ∧ inode'.inodeId = inode.inodeId := by
  induction fuel generalizing i written inode v with
  | zero => cases h
  | succ fuel ih =>
    rw [writeFileLoop] at h
    split at h
    · obtain ⟨⟨ok, found, w⟩, hblk, h⟩ := bind_eq_ok.1 h
      obtain ⟨hkept, hid⟩ := writeFileBlk_kept hblk
      simp only at h
      split at h
      · obtain ⟨hrest, hidRest⟩ := ih h
        exact ⟨hkept.trans hrest, hidRest.trans hid⟩
      · cases h
        exact ⟨hkept, hid⟩
    · cases h
      exact ⟨.of_eq rfl, rfl⟩

theorem writeFile_kept (h : fs.writeFile inode buf size v = .ok (result, inode', v')) :
    SbKept v v' := by
  rw [writeFile] at h
  split at h
  · cases h
    exact .of_eq rfl
  · obtain ⟨⟨n, found, w⟩, hloop, h⟩ := bind_eq_ok.1 h
    obtain ⟨⟨ok, u⟩, hwrite, h⟩ := bind_eq_ok.1 h
    cases h
    exact (writeFileLoop_kept hloop).1.trans (.of_eq (writeInode_sb hwrite))

/-- A file without a number cannot be written back. -/
theorem writeFile_zero (hfile : inode.isFile = true) (hid : inode.inodeId = 0)
    (hfew : fs.nbBlockGroups * v.sbNbInodesInGroup < 2 ^ 32) :
    fs.writeFile inode buf size v ≠ .ok (result, inode', v') := by
  intro h
  rw [writeFile, hfile, Bool.not_true, if_neg Bool.false_ne_true] at h
  obtain ⟨⟨n, found, w⟩, hloop, h⟩ := bind_eq_ok.1 h
  obtain ⟨⟨ok, u⟩, hwrite, h⟩ := bind_eq_ok.1 h
  obtain ⟨hkept, hsame⟩ := writeFileLoop_kept hloop
  rw [writeInode, show found.inodeId = 0 from hsame.trans hid] at hwrite
  obtain ⟨⟨blk, offset⟩, hslot, -⟩ := bind_eq_ok.1 hwrite
  exact inodeSlot_zero (by rwa [hkept.perGroup]) hslot

end Mount

end Kaku

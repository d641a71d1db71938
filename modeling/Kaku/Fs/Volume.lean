-- SUMMARY: The drive behind the ext2 driver: sector transfers that can fail, and the blocks of a mounted volume.
import Mathlib.Tactic.IntervalCases
import Kaku.Fault
import Kaku.Lib.Bytes
import Kaku.Mm.Heap

/-!
# Volumes

`dev/src/ata.c` and the static variables of `fs/src/ext2.c`. A transfer moves
whole sectors, its sector count is a byte and its address has 28 bits. It fails
when the drive does not answer in time, and some of the sectors may have been
moved by then.
-/

namespace Kaku

def ataSectorSize : Nat := 512

/-- `CEIL_DIV` on 32-bit operands. -/
def ceilDiv (a b : Nat) : Nat := addr32 (a + b - 1) / b

/-- What does not change while a volume is mounted: the static variables that
`fs_ext2_read_superblock` sets, and the hardware. -/
structure Mount where
  lbaRoot : Nat
  blockSize : Nat
  nbBlockGroups : Nat
  /-- `sbx_inode_size`. -/
  inodeSize : Nat
  /-- Which transfer at which address fails, and after how many sectors. -/
  timeout : Nat → Nat → Option Nat
  /-- The contents `kmalloc` leaves in the buffer of a transfer. -/
  stale : Nat → Mem

structure Volume where
  disk : Mem
  /-- `fs_ext2_sb.base`. -/
  sb : Mem
  /-- `fs_ext2_bgdt`. -/
  bgdt : Mem
  /-- How many transfers there have been. -/
  transfers : Nat

namespace Mount

/-! ## Transfers -/

/-- The first byte of the sector that the drive selects. -/
def sectorAddr (lba : Nat) : Nat := ataSectorSize * (lba % 2 ^ 28)

/-- The bytes that the next transfer moves, of `count` sectors from `lba` on. -/
def moved (fs : Mount) (lba count : Nat) (v : Volume) : Nat :=
  match fs.timeout v.transfers lba with
  | none => ataSectorSize * (count % 2 ^ 8)
  | some k => ataSectorSize * min k (count % 2 ^ 8)

def ataRead (fs : Mount) (lba count : Nat) (buf : Mem) (v : Volume) : Bool × Mem × Volume :=
  ((fs.timeout v.transfers lba).isNone,
    buf.blit 0 (fs.moved lba count v) fun x => v.disk (sectorAddr lba + x),
    { v with transfers := v.transfers + 1 })

def ataWrite (fs : Mount) (lba count : Nat) (buf : Mem) (v : Volume) : Bool × Volume :=
  ((fs.timeout v.transfers lba).isNone,
    { v with
      disk := v.disk.blit (sectorAddr lba) (fs.moved lba count v) buf
      transfers := v.transfers + 1 })

/-- `FS_EXT2_BLK_TO_LBA`. -/
def blkToLba (fs : Mount) (blk : Nat) : Nat :=
  addr32 (fs.lbaRoot + addr32 (blk * fs.blockSize) / ataSectorSize)

/-- `ata_read` of a block into a buffer fresh from `kmalloc`. -/
def readBlk (fs : Mount) (blk : Nat) (v : Volume) : Bool × Mem × Volume :=
  fs.ataRead (fs.blkToLba blk) (fs.blockSize / ataSectorSize) (fs.stale v.transfers) v

def writeBlk (fs : Mount) (blk : Nat) (buf : Mem) (v : Volume) : Bool × Volume :=
  fs.ataWrite (fs.blkToLba blk) (fs.blockSize / ataSectorSize) buf v

/-! ## Block buffers

The driver reads and writes its buffers through pointers. An access that leaves
the `blockSize` bytes of the buffer is out of bounds.
-/

def peek (fs : Mount) (buf : Mem) (a n : Nat) : K Nat :=
  if a + n ≤ fs.blockSize then .ok (buf.load a n) else .error .wild

def poke (fs : Mount) (buf : Mem) (a n x : Nat) : K Mem :=
  if a + n ≤ fs.blockSize then .ok (buf.store a n x) else .error .wild

/-- `kmemcpy` of a string into the buffer. -/
def pokeBytes (fs : Mount) (buf : Mem) (a : Nat) (s : List UInt8) : K Mem :=
  if a + s.length ≤ fs.blockSize then .ok (buf.blit a s.length fun k => s.getD k 0)
  else .error .wild

/-! ## Where a block lies -/

/-- The first byte of a block on the drive. -/
def blkAddr (fs : Mount) (blk : Nat) : Nat := sectorAddr (fs.blkToLba blk)

/-- Two blocks share no sector. -/
def Apart (fs : Mount) (b c : Nat) : Prop :=
  fs.blkAddr b + fs.blockSize ≤ fs.blkAddr c ∨ fs.blkAddr c + fs.blockSize ≤ fs.blkAddr b

instance (fs : Mount) (b c : Nat) : Decidable (fs.Apart b c) := inferInstanceAs (Decidable (_ ∨ _))

/-- No transfer fails. -/
def Reliable (fs : Mount) : Prop := ∀ n lba, fs.timeout n lba = none

/-- A block size the format knows: `1024 << sb_log_block_size`, a 32-bit number. -/
def Sized (fs : Mount) : Prop := ∃ k ≤ 21, fs.blockSize = 1024 * 2 ^ k

end Mount

namespace Volume

/-- A block as it lies on the drive. -/
def blk (v : Volume) (fs : Mount) (b : Nat) : Mem := fun x => v.disk (fs.blkAddr b + x)

/-- The same volume when there have been `t` transfers. -/
def after (v : Volume) (t : Nat) : Volume := { v with transfers := t }

variable {v : Volume} {fs : Mount} {t u b : Nat}

@[simp] theorem after_transfers : (v.after t).transfers = t := rfl
@[simp] theorem after_after : (v.after t).after u = v.after u := rfl
@[simp] theorem after_self : v.after v.transfers = v := rfl
@[simp] theorem after_disk : (v.after t).disk = v.disk := rfl
@[simp] theorem after_blk : (v.after t).blk fs b = v.blk fs b := rfl

end Volume

namespace Mount

variable {fs : Mount} {v v' : Volume} {buf buf' : Mem} {a b n x : Nat} {s : List UInt8} {ok : Bool}

theorem Apart.symm {c : Nat} (h : fs.Apart b c) : fs.Apart c b := Or.symm h

/-- Up to 64 KiB the sector count of a block fits its byte; beyond, the byte is zero. -/
theorem Sized.sectors (h : fs.Sized) :
    fs.blockSize ≤ 65536 ∧ ataSectorSize * (fs.blockSize / ataSectorSize % 2 ^ 8) = fs.blockSize ∨
      65536 < fs.blockSize ∧ fs.blockSize / ataSectorSize % 2 ^ 8 = 0 := by
  obtain ⟨k, hk, hsize⟩ := h
  rw [hsize, ataSectorSize]
  interval_cases k <;> simp

theorem Sized.pos (h : fs.Sized) : 0 < fs.blockSize := by
  obtain ⟨k, -, hsize⟩ := h
  rw [hsize]
  exact Nat.mul_pos (by omega) (Nat.two_pow_pos k)

theorem Sized.lt (h : fs.Sized) : fs.blockSize < 2 ^ 32 := by
  obtain ⟨k, hk, hsize⟩ := h
  have hpow : 2 ^ k ≤ 2 ^ 21 := Nat.pow_le_pow_right (by omega) hk
  rw [hsize]
  omega

/-- A block larger than 64 KiB is never transferred, whatever the drive says. -/
theorem writeBlk_of_large (hs : fs.Sized) (hlarge : 65536 < fs.blockSize) :
    (fs.writeBlk b buf v).2.disk = v.disk := by
  have hzero : fs.blockSize / ataSectorSize % 2 ^ 8 = 0 := by
    rcases hs.sectors with ⟨hsmall, -⟩ | ⟨-, hzero⟩
    · omega
    · exact hzero
  have hnone : fs.moved (fs.blkToLba b) (fs.blockSize / ataSectorSize) v = 0 := by
    rw [moved, hzero]
    split <;> simp
  rw [writeBlk, ataWrite, hnone]
  funext x
  exact Mem.blit_of_not_mem (by omega)

/-! ## Transfers that succeed, and transfers that fail -/

/-- A block fits in one transfer. -/
structure Fits (fs : Mount) : Prop where
  sized : fs.Sized
  small : fs.blockSize ≤ 65536

theorem Fits.sectors (h : fs.Fits) :
    ataSectorSize * (fs.blockSize / ataSectorSize % 2 ^ 8) = fs.blockSize := by
  rcases h.sized.sectors with ⟨-, heq⟩ | ⟨hlarge, -⟩
  · exact heq
  · have := h.small
    omega

theorem Fits.moved {lba : Nat} (h : fs.Fits) (hok : fs.timeout v.transfers lba = none) :
    fs.moved lba (fs.blockSize / ataSectorSize) v = fs.blockSize := by
  rw [Mount.moved, hok]
  exact h.sectors

theorem Fits.readBlk (h : fs.Fits) (hok : fs.timeout v.transfers (fs.blkToLba b) = none) :
    fs.readBlk b v = (true, (fs.stale v.transfers).blit 0 fs.blockSize (v.blk fs b),
      { v with transfers := v.transfers + 1 }) := by
  rw [Mount.readBlk, ataRead, h.moved hok, hok]
  rfl

theorem Fits.writeBlk (h : fs.Fits) (hok : fs.timeout v.transfers (fs.blkToLba b) = none) :
    fs.writeBlk b buf v = (true, { v with
      disk := v.disk.blit (fs.blkAddr b) fs.blockSize buf
      transfers := v.transfers + 1 }) := by
  rw [Mount.writeBlk, ataWrite, h.moved hok, hok]
  rfl

theorem readBlk_of_timeout {k : Nat} (h : fs.timeout v.transfers (fs.blkToLba b) = some k) :
    (fs.readBlk b v).1 = false ∧
      (fs.readBlk b v).2.2 = { v with transfers := v.transfers + 1 } := by
  rw [readBlk, ataRead, h]
  exact ⟨rfl, rfl⟩

theorem writeBlk_of_timeout {k : Nat} (h : fs.timeout v.transfers (fs.blkToLba b) = some k) :
    (fs.writeBlk b buf v).1 = false := by
  rw [writeBlk, ataWrite, h]
  rfl

/-- The drive answers, and a block fits in one transfer. -/
structure Good (fs : Mount) : Prop where
  reliable : fs.Reliable
  sized : fs.Sized
  small : fs.blockSize ≤ 65536

theorem Good.fits (h : fs.Good) : fs.Fits := ⟨h.sized, h.small⟩

theorem Good.readBlk (h : fs.Good) : fs.readBlk b v =
    (true, (fs.stale v.transfers).blit 0 fs.blockSize (v.blk fs b),
      { v with transfers := v.transfers + 1 }) := h.fits.readBlk (h.reliable _ _)

theorem Good.writeBlk (h : fs.Good) : fs.writeBlk b buf v =
    (true, { v with
      disk := v.disk.blit (fs.blkAddr b) fs.blockSize buf
      transfers := v.transfers + 1 }) := h.fits.writeBlk (h.reliable _ _)

/-! ## Buffer accesses that stay inside -/

variable {m : Nat}

theorem peek_of_le (h : a + n ≤ fs.blockSize) : fs.peek buf a n = .ok (buf.load a n) := if_pos h

@[simp] theorem peek_eq_ok :
    fs.peek buf a n = .ok m ↔ a + n ≤ fs.blockSize ∧ buf.load a n = m := by
  rw [peek]
  split <;> simp [*]

@[simp] theorem poke_eq_ok :
    fs.poke buf a n x = .ok buf' ↔ a + n ≤ fs.blockSize ∧ buf.store a n x = buf' := by
  rw [poke]
  split <;> simp [*]

@[simp] theorem pokeBytes_eq_ok : fs.pokeBytes buf a s = .ok buf' ↔
    a + s.length ≤ fs.blockSize ∧ (buf.blit a s.length fun k => s.getD k 0) = buf' := by
  rw [pokeBytes]
  split <;> simp [*]

end Mount

namespace Volume

variable {fs : Mount} {v v' : Volume} {buf : Mem} {b c x : Nat}

/-- A block that was just written holds what was written. -/
theorem blk_of_written (hdisk : v'.disk = v.disk.blit (fs.blkAddr b) fs.blockSize buf)
    (hx : x < fs.blockSize) : v'.blk fs b x = buf x := by
  rw [blk, hdisk, Mem.blit_of_mem (by omega) (by omega), Nat.add_sub_cancel_left]

/-- A block apart from the one that was written is what it was. -/
theorem blk_of_apart (hdisk : v'.disk = v.disk.blit (fs.blkAddr b) fs.blockSize buf)
    (h : fs.Apart b c) (hx : x < fs.blockSize) : v'.blk fs c x = v.blk fs c x := by
  have houtside : fs.blkAddr c + x < fs.blkAddr b ∨
      fs.blkAddr b + fs.blockSize ≤ fs.blkAddr c + x := by
    rcases h with h | h <;> omega
  rw [blk, hdisk, Mem.blit_of_not_mem houtside, blk]

end Volume

end Kaku

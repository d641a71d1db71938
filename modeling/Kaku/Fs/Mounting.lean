-- SUMMARY: Mounting a volume: the superblock and the table of group descriptors, and when the table is loaded whole.
import Kaku.Fs.Sectors

/-!
# Mounting

`fs_ext2_read_superblock` and `fs_ext2_read_bgdt` of `fs/src/ext2.c`. The table is
read from the fourth sector of the partition, in whole sectors, into a buffer of
the size of the table.
-/

namespace Kaku

namespace Volume

def sbLogBlockSize (v : Volume) : Nat := v.sb.load 24 4

def sbExt2Signature (v : Volume) : Nat := v.sb.load 56 2

end Volume

def fsMbrLba : Nat := 0

def fsExt2Signature : Nat := 0xEF53

namespace Mount

/-- The static variables of the driver come from the partition table and from the
superblock; what is known of the hardware stays. -/
def readSuperblock (fs : Mount) (v : Volume) : K (Mount × Volume) :=
  let (ok, bufMbr, v) := fs.ataRead fsMbrLba 1 (fs.stale v.transfers) v
  if !ok then .error (.panic "ext2_read_superblock: failed to read MBR")
  else
    let lbaRoot := bufMbr.load (0x1BE + 8) 4
    let (ok, buf, v) := fs.ataRead (addr32 (lbaRoot + 2)) 2 (fs.stale v.transfers) v
    if !ok then .error (.panic "ext2_read_superblock: failed to read superblock from disk")
    else
      let v := { v with sb := v.sb.blit 0 84 buf }
      if v.sbNbBlocksInGroup = 0 then .error (.panic "Interrupt: 0")
      else pure ({ fs with
        lbaRoot := lbaRoot
        blockSize := addr32 (1024 <<< (v.sbLogBlockSize % 32))
        nbBlockGroups := ceilDiv v.sbBlocksCount v.sbNbBlocksInGroup
        inodeSize := if v.sbExt2Signature = fsExt2Signature then buf.load 88 2 else 128 }, v)

/-- How many sectors the table is transferred in. -/
def bgdtSectors (fs : Mount) : Nat := ceilDiv fs.bgdtSize ataSectorSize

/-- A transfer that does not fit into a buffer of the size of the table leaves it. -/
def readBgdt (fs : Mount) (v : Volume) : K Volume :=
  if fs.bgdtSize < fs.moved fs.bgdtLba fs.bgdtSectors v then .error .wild
  else
    let (ok, buf, v) := fs.ataRead fs.bgdtLba fs.bgdtSectors (fs.stale v.transfers) v
    if !ok then .error (.panic "ext2_read_bgdt: could not read bgdt from disk")
    else pure { v with bgdt := (fs.stale v.transfers).blit 0 fs.bgdtSize buf }

/-- `__fs_ext2_write_bgdt_to_disk`, when it stays inside `fs_ext2_bgdt`. -/
def writeBgdtInside (fs : Mount) (v : Volume) : K Volume :=
  if fs.bgdtSize < fs.moved fs.bgdtLba fs.bgdtSectors v then .error .wild
  else .ok (fs.writeBgdtToDisk v)

def mount (fs : Mount) (v : Volume) : K (Mount × Volume) := do
  let (fs, v) ← fs.readSuperblock v
  let v ← fs.readBgdt v
  pure (fs, v)

end Mount

/-! ## What is on the drive -/

/-- Where the partition starts, as the partition table has it. -/
def partitionStart (disk : Mem) : Nat := disk.load (0x1BE + 8) 4

/-- The superblock, in the third sector of the partition. -/
def superblockOf (disk : Mem) : Mem :=
  fun x => disk (Mount.sectorAddr (addr32 (partitionStart disk + 2)) + x)

/-- The volume with the superblock that the drive has. -/
def Volume.withSuperblock (v : Volume) : Volume :=
  { v with sb := v.sb.blit 0 84 (superblockOf v.disk) }

/-- How many groups the blocks of a volume are divided into. -/
def Volume.groups (v : Volume) : Nat :=
  (v.sbBlocksCount + v.sbNbBlocksInGroup - 1) / v.sbNbBlocksInGroup

/-- The same start of the partition, and the same superblock there. -/
structure SameStart (disk disk' : Mem) : Prop where
  start : partitionStart disk' = partitionStart disk
  super : ∀ x < 1024, superblockOf disk' x = superblockOf disk x

namespace Mount

/-- The static variables, as the drive gives them. -/
def geometry (hw : Mount) (v : Volume) : Mount :=
  { hw with
    lbaRoot := partitionStart v.disk
    blockSize := addr32 (1024 <<< (v.withSuperblock.sbLogBlockSize % 32))
    nbBlockGroups := ceilDiv v.withSuperblock.sbBlocksCount v.withSuperblock.sbNbBlocksInGroup
    inodeSize := if v.withSuperblock.sbExt2Signature = fsExt2Signature then
      (superblockOf v.disk).load 88 2 else 128 }

/-- Mounting loads each descriptor from the block behind that of the superblock, and
the table is read and written inside its buffers. -/
def LoadsTable (hw : Mount) (v : Volume) : Prop :=
  ∃ fs w, hw.mount v = .ok (fs, w) ∧
    (∀ g < w.groups, ∀ x < 32,
      w.bgdt (32 * g + x) = v.blk fs (1024 / fs.blockSize + 1) (32 * g + x)) ∧
    ∃ w', fs.writeBgdtInside w = .ok w'

variable {hw fs : Mount} {v w : Volume} {disk : Mem}

/-! ## Mounting -/

/-- A transfer on a drive that answers. -/
theorem Reliable.ataRead (hr : hw.Reliable) (lba count : Nat) (buf : Mem) (v : Volume) :
    hw.ataRead lba count buf v =
      (true, buf.blit 0 (ataSectorSize * (count % 2 ^ 8)) fun x => v.disk (sectorAddr lba + x),
        v.after (v.transfers + 1)) := by
  rw [Mount.ataRead, moved, hr]
  rfl

theorem readSuperblock_eq (hr : hw.Reliable) : hw.readSuperblock v =
    if v.withSuperblock.sbNbBlocksInGroup = 0 then .error (.panic "Interrupt: 0")
    else .ok (hw.geometry v, v.withSuperblock.after (v.transfers + 2)) := by
  have hmbr : ((hw.stale v.transfers).blit 0 (ataSectorSize * (1 % 2 ^ 8)) fun x =>
      v.disk (sectorAddr fsMbrLba + x)).load (0x1BE + 8) 4 = partitionStart v.disk := by
    apply Mem.load_congr
    intro x _ hx
    rw [Mem.blit_of_mem (by omega) (by rw [ataSectorSize]; omega), fsMbrLba, sectorAddr]
    simp
  have hbuf : ∀ x < 1024, ((hw.stale (v.transfers + 1)).blit 0 (ataSectorSize * (2 % 2 ^ 8))
      fun x => v.disk (sectorAddr (addr32 (partitionStart v.disk + 2)) + x)) x =
        superblockOf v.disk x := by
    intro x hx
    rw [Mem.blit_of_mem (by omega) (by rw [ataSectorSize]; omega), superblockOf, Nat.sub_zero]
  simp only [readSuperblock, hr.ataRead, Bool.not_true, Bool.false_eq_true, if_false, hmbr,
    Volume.after_transfers, Volume.after_disk, Volume.after_after]
  generalize ((hw.stale (v.transfers + 1)).blit 0 (ataSectorSize * (2 % 2 ^ 8))
      fun x => v.disk (sectorAddr (addr32 (partitionStart v.disk + 2)) + x)) = buf at hbuf ⊢
  have hsb : (v.after (v.transfers + 1 + 1)).sb.blit 0 84 buf =
      v.sb.blit 0 84 (superblockOf v.disk) := Mem.blit_congr fun x hx => hbuf x (by omega)
  have hsize : buf.load 88 2 = (superblockOf v.disk).load 88 2 :=
    Mem.load_congr fun x _ hx => hbuf x (by omega)
  simp only [hsb, hsize]
  rfl

/-- How many bytes of the table a transfer moves. -/
def tableMoved (fs : Mount) : Nat := ataSectorSize * (fs.bgdtSectors % 2 ^ 8)

theorem Reliable.moved_table (hr : fs.Reliable) (v : Volume) :
    fs.moved fs.bgdtLba fs.bgdtSectors v = fs.tableMoved := by
  rw [moved, hr]
  rfl

/-- The table in memory is what was transferred of it, and else what was in the heap. -/
theorem readBgdt_eq (hr : fs.Reliable) : ∃ stale : Mem, ∀ disk,
    fs.readBgdt { v with disk := disk } =
      if fs.bgdtSize < fs.tableMoved then .error .wild
      else .ok { v with
        disk := disk
        transfers := v.transfers + 1
        bgdt := stale.blit 0 (min fs.bgdtSize fs.tableMoved) fun y =>
          disk (sectorAddr fs.bgdtLba + y) } := by
  refine ⟨(fs.stale (v.transfers + 1)).blit 0 fs.bgdtSize (fs.stale v.transfers), fun disk => ?_⟩
  simp only [readBgdt, hr.moved_table, hr.ataRead, Bool.not_true, Bool.false_eq_true, if_false]
  split_ifs
  · rfl
  · have htable : (fs.stale (v.transfers + 1)).blit 0 fs.bgdtSize
        ((fs.stale v.transfers).blit 0 fs.tableMoved fun y => disk (sectorAddr fs.bgdtLba + y)) =
        ((fs.stale (v.transfers + 1)).blit 0 fs.bgdtSize (fs.stale v.transfers)).blit 0
          (min fs.bgdtSize fs.tableMoved) fun y => disk (sectorAddr fs.bgdtLba + y) := by
      funext y
      simp only [Mem.blit, Nat.sub_zero]
      split_ifs <;> first | rfl | omega
    rw [← htable]
    rfl

/-! ## Drives with the same superblock -/

theorem withSuperblock_congr (h : SameStart v.disk disk) :
    ({ v with disk := disk } : Volume).withSuperblock = { v.withSuperblock with disk := disk } := by
  have hsb : v.sb.blit 0 84 (superblockOf disk) = v.sb.blit 0 84 (superblockOf v.disk) :=
    Mem.blit_congr fun x hx => h.super x (by omega)
  simp only [Volume.withSuperblock, hsb]

theorem geometry_congr (h : SameStart v.disk disk) :
    hw.geometry { v with disk := disk } = hw.geometry v := by
  have hsize : (superblockOf disk).load 88 2 = (superblockOf v.disk).load 88 2 :=
    Mem.load_congr fun x _ hx => h.super x (by omega)
  simp only [Mount.geometry, withSuperblock_congr h, h.start, hsize]
  rfl

/-- Where the table of descriptors is on the drive. -/
def tableAddr (fs : Mount) : Nat := fs.blkAddr (1024 / fs.blockSize + 1)

/-- Mounting loads the table if the transfer fits its buffer, and moves the descriptors
from where they are. -/
theorem loadsTable_iff (hr : hw.Reliable) : ∃ stale : Mem, ∀ disk, SameStart v.disk disk →
    (hw.LoadsTable { v with disk := disk } ↔ v.withSuperblock.sbNbBlocksInGroup ≠ 0 ∧
      (hw.geometry v).tableMoved ≤ (hw.geometry v).bgdtSize ∧
      ∀ y < 32 * v.withSuperblock.groups,
        (stale.blit 0 (hw.geometry v).tableMoved fun y =>
          disk (sectorAddr (hw.geometry v).bgdtLba + y)) y =
            disk ((hw.geometry v).tableAddr + y)) := by
  have hrg : (hw.geometry v).Reliable := hr
  obtain ⟨stale, hread⟩ := readBgdt_eq (v := v.withSuperblock.after (v.transfers + 2)) hrg
  refine ⟨stale, fun disk hsame => ?_⟩
  have hsuper : hw.readSuperblock { v with disk := disk } =
      if v.withSuperblock.sbNbBlocksInGroup = 0 then .error (.panic "Interrupt: 0")
      else .ok (hw.geometry v,
        { v.withSuperblock.after (v.transfers + 2) with disk := disk }) := by
    rw [readSuperblock_eq hr, geometry_congr hsame, withSuperblock_congr hsame]
    rfl
  have hwrite (w : Volume) : (∃ w', (hw.geometry v).writeBgdtInside w = .ok w') ↔
      (hw.geometry v).tableMoved ≤ (hw.geometry v).bgdtSize := by
    rw [writeBgdtInside, hrg.moved_table]
    split_ifs with hlarge
    · simp only [exists_false, false_iff]
      omega
    · simp only [Except.ok.injEq, exists_eq', true_iff]
      omega
  simp only [LoadsTable, mount, hsuper]
  by_cases hzero : v.withSuperblock.sbNbBlocksInGroup = 0
  · simp [hzero]
  simp only [if_neg hzero, ok_bind, hread]
  by_cases hlarge : (hw.geometry v).bgdtSize < (hw.geometry v).tableMoved
  · have hfits : ¬ (hw.geometry v).tableMoved ≤ (hw.geometry v).bgdtSize := by omega
    simp [hlarge, hfits]
  have hfits : (hw.geometry v).tableMoved ≤ (hw.geometry v).bgdtSize := by omega
  simp only [if_neg hlarge, ok_bind, pure_eq_ok, Prod.mk.injEq, Nat.min_eq_right hfits]
  constructor
  · rintro ⟨fs, w, ⟨rfl, rfl⟩, htable, -⟩
    refine ⟨hzero, hfits, fun y hy => ?_⟩
    have hbyte := htable (y / 32) (Nat.div_lt_of_lt_mul hy) (y % 32) (Nat.mod_lt _ (by omega))
    rwa [Nat.div_add_mod] at hbyte
  · rintro ⟨-, -, htable⟩
    refine ⟨_, _, ⟨rfl, rfl⟩, fun g hg x hx => ?_, (hwrite _).2 hfits⟩
    apply htable
    change g < v.withSuperblock.groups at hg
    omega

/-! ## The size and the place of the table -/

/-- The superblock gives the block size in 32 bits. -/
theorem geometry_blockSize (hlog : v.withSuperblock.sbLogBlockSize ≤ 21) :
    (hw.geometry v).blockSize = 1024 * 2 ^ v.withSuperblock.sbLogBlockSize := by
  have hpow : 2 ^ v.withSuperblock.sbLogBlockSize ≤ 2 ^ 21 := Nat.pow_le_pow_right (by omega) hlog
  have hsize : (hw.geometry v).blockSize =
      addr32 (1024 <<< (v.withSuperblock.sbLogBlockSize % 32)) := rfl
  rw [hsize, Nat.mod_eq_of_lt (by omega), Nat.shiftLeft_eq, addr32, Nat.mod_eq_of_lt (by omega)]

theorem geometry_sized (hlog : v.withSuperblock.sbLogBlockSize ≤ 21) : (hw.geometry v).Sized :=
  ⟨_, hlog, geometry_blockSize hlog⟩

/-- Rounding up without overflow counts the groups, and otherwise too few of them. -/
theorem ceilDiv_groups {n d : Nat} (hd : 0 < d) (hd32 : d < 2 ^ 32) (hn : n < 2 ^ 32) :
    ceilDiv n d ≤ (n + d - 1) / d ∧ (ceilDiv n d = (n + d - 1) / d ↔ n + d ≤ 2 ^ 32) := by
  rw [ceilDiv, addr32]
  rcases Nat.lt_or_ge (n + d - 1) (2 ^ 32) with hlt | hge
  · rw [Nat.mod_eq_of_lt hlt]
    exact ⟨Nat.le_refl _, iff_of_true rfl (by omega)⟩
  · have hwrap : (n + d - 1) % 2 ^ 32 = n + d - 1 - 2 ^ 32 := by omega
    have hfewer : (n + d - 1) % 2 ^ 32 / d < (n + d - 1) / d := by
      rw [hwrap, Nat.div_lt_iff_lt_mul hd]
      have hmod := Nat.div_add_mod (n + d - 1) d
      have hrem := Nat.mod_lt (n + d - 1) hd
      rw [Nat.mul_comm]
      omega
    exact ⟨hfewer.le, iff_of_false hfewer.ne (by omega)⟩

/-- A transfer that fits the buffer and moves all of the table moves exactly the table. -/
theorem table_whole {n : Nat} (hn : fs.nbBlockGroups ≤ n) (hfits : fs.tableMoved ≤ fs.bgdtSize)
    (hall : 32 * n ≤ fs.tableMoved) :
    fs.nbBlockGroups = n ∧ 16 ∣ n ∧ n ≤ 4080 := by
  rw [tableMoved, ataSectorSize] at hfits hall
  rw [bgdtSize, addr32] at hfits
  omega

theorem table_fits (h16 : 16 ∣ fs.nbBlockGroups) (hmax : fs.nbBlockGroups ≤ 4080) :
    fs.tableMoved = 32 * fs.nbBlockGroups ∧ fs.bgdtSize = 32 * fs.nbBlockGroups := by
  have hsize : fs.bgdtSize = 32 * fs.nbBlockGroups := by
    rw [bgdtSize, addr32]
    omega
  refine ⟨?_, hsize⟩
  rw [tableMoved, bgdtSectors, ceilDiv, hsize, addr32, ataSectorSize]
  omega

/-- The table is in the fourth sector for blocks of up to 2 KiB, and behind it otherwise. -/
theorem Sized.tableAddr_eq (hs : fs.Sized) : ∃ k, fs.tableAddr =
      ataSectorSize * ((fs.lbaRoot + k) % 2 ^ 28) ∧
    (fs.blockSize ≤ 2048 → k = 4) ∧ (2048 < fs.blockSize → 8 ≤ k ∧ k ≤ 2 ^ 23) := by
  have hlt := hs.lt
  have hsectors := hs.divides.1
  have haddr (b : Nat) (hb : b * fs.blockSize < 2 ^ 32) := hs.blkAddr_eq hb
  have hmultiple : fs.blockSize = 1024 ∨ fs.blockSize = 2048 ∨ 4096 ≤ fs.blockSize := by
    obtain ⟨n, -, hsize⟩ := hs
    match n with
    | 0 => exact .inl hsize
    | 1 => exact .inr (.inl hsize)
    | n + 2 =>
      rw [Nat.pow_succ, Nat.pow_succ] at hsize
      have hpos := Nat.two_pow_pos n
      omega
  refine ⟨(1024 / fs.blockSize + 1) * (fs.blockSize / ataSectorSize), ?_, ?_⟩
  · rcases hmultiple with hone | hmore
    · rw [tableAddr, haddr _ (by rw [hone]; decide)]
    · rw [tableAddr, Nat.div_eq_of_lt (by omega), haddr _ (by omega)]
  · rw [ataSectorSize] at hsectors ⊢
    rcases hmultiple with hone | hmore
    · rw [hone]
      omega
    · rw [Nat.div_eq_of_lt (by omega)]
      omega

/-- Other bytes than those of the partition's start and of the superblock. -/
theorem sameStart_of_not_mem {y : Nat} {byte : UInt8} (hpart : y < 454 ∨ 458 ≤ y)
    (hsuper : y < sectorAddr (addr32 (partitionStart disk + 2)) ∨
      sectorAddr (addr32 (partitionStart disk + 2)) + 1024 ≤ y) :
    SameStart disk (disk.blit y 1 fun _ => byte) := by
  have hstart : partitionStart (disk.blit y 1 fun _ => byte) = partitionStart disk := by
    apply Mem.load_congr
    intro x hlo hhi
    exact Mem.blit_of_not_mem (by omega)
  refine ⟨hstart, fun x hx => ?_⟩
  rw [superblockOf, superblockOf, hstart]
  exact Mem.blit_of_not_mem (by omega)

/-- The first sectors behind the start of the table can hold anything. -/
theorem Sized.sameStart (hs : (hw.geometry v).Sized) {c : Nat} (hc : c < 256) (byte : UInt8) :
    SameStart v.disk
      (v.disk.blit ((hw.geometry v).tableAddr + ataSectorSize * c) 1 fun _ => byte) := by
  obtain ⟨k, haddr, hsmall, hlarge⟩ := hs.tableAddr_eq
  have hroot : (hw.geometry v).lbaRoot = partitionStart v.disk := rfl
  rw [haddr, hroot, ataSectorSize]
  have hk : 4 ≤ k ∧ k ≤ 2 ^ 23 := by omega
  apply sameStart_of_not_mem
  · omega
  · rw [sectorAddr, addr32, ataSectorSize]
    omega

/-! ## When the table is loaded -/

theorem exists_other_byte (byte : UInt8) : ∃ other, other ≠ byte := by
  rcases eq_or_ne byte 0 with rfl | hne
  · exact ⟨1, by decide⟩
  · exact ⟨0, hne.symm⟩

/-- Mounting loads the table of a volume, whatever it holds, exactly if the volume has no
blocks, or the blocks have at most 2 KiB and the groups are a multiple of 16, of at most
4080, that is counted without an overflow. -/
theorem table_loaded_iff (hr : hw.Reliable) (hlog : v.withSuperblock.sbLogBlockSize ≤ 21) :
    (∀ disk, SameStart v.disk disk → hw.LoadsTable { v with disk := disk }) ↔
      v.withSuperblock.sbNbBlocksInGroup ≠ 0 ∧ (v.withSuperblock.sbBlocksCount = 0 ∨
        v.withSuperblock.sbBlocksCount + v.withSuperblock.sbNbBlocksInGroup ≤ 2 ^ 32 ∧
        v.withSuperblock.sbLogBlockSize ≤ 1 ∧
        16 ∣ v.withSuperblock.groups ∧ v.withSuperblock.groups ≤ 4080) := by
  have hs : (hw.geometry v).Sized := geometry_sized hlog
  have hsize : (hw.geometry v).blockSize = _ := geometry_blockSize hlog
  obtain ⟨stale, hloads⟩ := @loadsTable_iff hw v hr
  by_cases hzero : v.withSuperblock.sbNbBlocksInGroup = 0
  · simp only [hzero, not_true_eq_false, false_and, iff_false, ne_eq]
    intro hall
    have hself := hall v.disk ⟨rfl, fun _ _ => rfl⟩
    exact ((hloads v.disk ⟨rfl, fun _ _ => rfl⟩).1 hself).1 hzero
  have hgroups : (hw.geometry v).nbBlockGroups ≤ v.withSuperblock.groups ∧
      ((hw.geometry v).nbBlockGroups = v.withSuperblock.groups ↔
        v.withSuperblock.sbBlocksCount + v.withSuperblock.sbNbBlocksInGroup ≤ 2 ^ 32) :=
    ceilDiv_groups (Nat.pos_of_ne_zero hzero) Mem.load_lt Mem.load_lt
  obtain ⟨k, haddr, hsmall, hlarge⟩ := hs.tableAddr_eq
  have hroot : addr32 ((hw.geometry v).lbaRoot + 4) % 2 ^ 28 =
      ((hw.geometry v).lbaRoot + 4) % 2 ^ 28 :=
    Nat.mod_mod_of_dvd _ (Nat.pow_dvd_pow 2 (by decide))
  have hread : sectorAddr (hw.geometry v).bgdtLba =
      ataSectorSize * (((hw.geometry v).lbaRoot + 4) % 2 ^ 28) := by
    rw [sectorAddr, bgdtLba, hroot]
  constructor
  · intro hall
    have hfits := ((hloads v.disk ⟨rfl, fun _ _ => rfl⟩).1 (hall _ ⟨rfl, fun _ _ => rfl⟩)).2.1
    -- Change the byte behind the last one that is moved.
    have hwhole : 32 * v.withSuperblock.groups ≤ (hw.geometry v).tableMoved := by
      by_contra hpart
      obtain ⟨byte, hbyte⟩ := exists_other_byte (stale (hw.geometry v).tableMoved)
      have hsame : SameStart v.disk (v.disk.blit
          ((hw.geometry v).tableAddr + (hw.geometry v).tableMoved) 1 fun _ => byte) :=
        hs.sameStart (Nat.mod_lt _ (by decide)) byte
      have hlast := ((hloads _ hsame).1 (hall _ hsame)).2.2 (hw.geometry v).tableMoved (by omega)
      rw [Mem.blit_of_not_mem (by omega), Mem.blit_of_mem (Nat.le_refl _) (Nat.lt_succ_self _)]
        at hlast
      exact hbyte hlast.symm
    obtain ⟨hcount, h16, hmax⟩ := table_whole hgroups.1 hfits hwhole
    refine ⟨hzero, ?_⟩
    by_cases hempty : v.withSuperblock.sbBlocksCount = 0
    · exact .inl hempty
    refine .inr ⟨hgroups.2.1 hcount, ?_, h16, hmax⟩
    -- Change the first byte of the table, where it is not read.
    by_contra hlog'
    have hfar : 2048 < (hw.geometry v).blockSize := by
      have hpow : 2 ^ 2 ≤ 2 ^ v.withSuperblock.sbLogBlockSize :=
        Nat.pow_le_pow_right (by omega) (by omega)
      omega
    obtain ⟨hk8, hk23⟩ := hlarge hfar
    obtain ⟨byte, hbyte⟩ := exists_other_byte (v.disk (sectorAddr (hw.geometry v).bgdtLba))
    have hsame := hs.sameStart (show 0 < 256 by decide) byte
    have hpos : 0 < v.withSuperblock.groups :=
      Nat.div_pos (by omega) (Nat.pos_of_ne_zero hzero)
    have hfirst := ((hloads _ hsame).1 (hall _ hsame)).2.2 0 (by omega)
    rw [Mem.blit_of_mem (Nat.le_refl _) (by omega)] at hfirst
    simp only [Nat.mul_zero, Nat.add_zero] at hfirst
    rw [Mem.blit_of_mem (Nat.le_refl _) (Nat.lt_succ_self _),
      Mem.blit_of_not_mem (by rw [hread, haddr, ataSectorSize]; omega)] at hfirst
    exact hbyte hfirst.symm
  · rintro ⟨-, hcase⟩ disk hsame
    refine (hloads disk hsame).2 ⟨hzero, ?_⟩
    rcases hcase with hempty | ⟨hcounted, hlog', h16, hmax⟩
    · have hnone : v.withSuperblock.groups = 0 := by
        rw [Volume.groups, hempty]
        apply Nat.div_eq_of_lt
        omega
      have hcount : (hw.geometry v).nbBlockGroups = 0 := by omega
      obtain ⟨hmoved, hsizeTable⟩ := table_fits
        (show 16 ∣ (hw.geometry v).nbBlockGroups by omega) (by omega)
      exact ⟨by omega, fun y hy => by omega⟩
    · have hcount := hgroups.2.2 hcounted
      obtain ⟨hmoved, hsizeTable⟩ := table_fits
        (show 16 ∣ (hw.geometry v).nbBlockGroups by omega) (by omega)
      refine ⟨by omega, fun y hy => ?_⟩
      have hnear : (hw.geometry v).blockSize ≤ 2048 := by
        have hpow : 2 ^ v.withSuperblock.sbLogBlockSize ≤ 2 ^ 1 :=
          Nat.pow_le_pow_right (by omega) hlog'
        omega
      rw [Mem.blit_of_mem (Nat.zero_le y) (by omega), hread, haddr, hsmall hnear, Nat.sub_zero]

/-- A drive with a partition at sector 2048, and a superblock for blocks of 1 KiB. -/
def superblockVolume (blocksCount : Nat) : Volume where
  disk := (((Mem.store (fun _ => 0) 454 4 2048).store (512 * 2050 + 4) 4 blocksCount).store
    (512 * 2050 + 24) 4 0).store (512 * 2050 + 32) 4 8192
  sb := fun _ => 0
  bgdt := fun _ => 0
  transfers := 0

/-- Before anything is mounted. -/
def bareMount : Mount where
  lbaRoot := 0
  blockSize := 0
  nbBlockGroups := 0
  inodeSize := 0
  timeout := fun _ _ => none
  stale := fun _ _ => 0xAA

/-- Sixteen groups. -/
theorem table_loaded_sixteen : (superblockVolume 131072).withSuperblock.groups = 16 ∧
    ∀ disk, SameStart (superblockVolume 131072).disk disk →
      bareMount.LoadsTable { superblockVolume 131072 with disk := disk } := by
  constructor
  · decide
  · apply (table_loaded_iff (fun _ _ => rfl) (by decide)).2
    decide

/-- One group: 512 bytes are read into a buffer of 32. -/
theorem table_overruns : (superblockVolume 8192).withSuperblock.groups = 1 ∧
    ¬ bareMount.LoadsTable (superblockVolume 8192) := by
  refine ⟨by decide, fun hloads => ?_⟩
  obtain ⟨stale, hiff⟩ :=
    @loadsTable_iff bareMount (superblockVolume 8192) (fun _ _ => rfl)
  have hfits := ((hiff _ ⟨rfl, fun _ _ => rfl⟩).1 hloads).2.1
  exact absurd hfits (by decide)

end Mount

end Kaku

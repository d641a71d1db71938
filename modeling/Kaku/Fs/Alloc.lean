-- SUMMARY: The allocation of blocks and inodes: the search through the groups, and everything an allocation changes.
import Mathlib.Data.List.Range
import Mathlib.Tactic.Push
import Kaku.Fs.Volume
import Kaku.Lib.Bitmap
import Kaku.Lib.Except

/-!
# Allocating blocks and inodes

`fs_ext2_alloc_block` and `fs_ext2_alloc_inode` of `fs/src/ext2.c`. They differ in
the bitmap they scan, in the counters they keep and in the number they make of
a bit; `Resource` tells them apart.
-/

namespace Kaku

/-! ## The superblock and the descriptors -/

namespace Volume

def sbBlocksCount (v : Volume) : Nat := v.sb.load 4 4

def sbBlockNbOfSb (v : Volume) : Nat := v.sb.load 20 4

def sbNbBlocksInGroup (v : Volume) : Nat := v.sb.load 32 4

def sbNbInodesInGroup (v : Volume) : Nat := v.sb.load 40 4

end Volume

inductive Resource
  | block
  | inode
  deriving DecidableEq

namespace Resource

/-- The offset of `dsc_block_address_of_block_usage_bitmap`, and of its counterpart. -/
def bitmapField : Resource → Nat
  | block => 0
  | inode => 4

/-- The offset of `dsc_unallocated_blocks_count_in_group`, and of its counterpart. -/
def countField : Resource → Nat
  | block => 12
  | inode => 14

/-- The offset of `sb_unallocated_blocks_count`, and of its counterpart. -/
def totalField : Resource → Nat
  | block => 12
  | inode => 16

/-- How many bytes of the bitmap are scanned. -/
def scanned : Resource → Mount → Volume → Nat
  | block, fs, _ => fs.blockSize
  | inode, _, v => v.sbNbInodesInGroup / 8

/-- The number made of bit `i` of a group. -/
def number : Resource → Volume → Nat → Nat → Nat
  | block, v, grp, i => addr32 (grp * v.sbNbBlocksInGroup + i)
  | inode, v, grp, i => addr32 (grp * v.sbNbInodesInGroup + i + 1)

end Resource

namespace Volume

def bitmapBlk (v : Volume) (r : Resource) (grp : Nat) : Nat :=
  v.bgdt.load (32 * grp + r.bitmapField) 4

def count (v : Volume) (r : Resource) (grp : Nat) : Nat := v.bgdt.load (32 * grp + r.countField) 2

def total (v : Volume) (r : Resource) : Nat := v.sb.load r.totalField 4

variable {v : Volume} {fs : Mount} {r : Resource} {t grp : Nat}

@[simp] theorem after_count : (v.after t).count r grp = v.count r grp := rfl
@[simp] theorem after_total : (v.after t).total r = v.total r := rfl
@[simp] theorem after_bitmapBlk : (v.after t).bitmapBlk r grp = v.bitmapBlk r grp := rfl

@[simp] theorem after_scanned : r.scanned fs (v.after t) = r.scanned fs v := by cases r <;> rfl

end Volume

namespace Mount

/-! ## Writing the counters -/

def sbLba (fs : Mount) : Nat := addr32 (fs.lbaRoot + 2)

def bgdtLba (fs : Mount) : Nat := addr32 (fs.lbaRoot + 4)

/-- `__fs_ext2_nb_block_groups * sizeof(fs_ext2_descriptor)`. -/
def bgdtSize (fs : Mount) : Nat := addr32 (fs.nbBlockGroups * 32)

/-- The last sector is filled up with what lies behind the table in the heap. -/
def writeBgdtToDisk (fs : Mount) (v : Volume) : Volume :=
  (fs.ataWrite fs.bgdtLba (ceilDiv fs.bgdtSize ataSectorSize)
    (fun x => if x < fs.bgdtSize then v.bgdt x else fs.stale v.transfers x) v).2

def writeSbBaseToDisk (fs : Mount) (v : Volume) : Volume :=
  let (ok, buf, v) := fs.ataRead fs.sbLba (fs.blockSize / ataSectorSize) (fs.stale v.transfers) v
  if !ok then v
  else (fs.ataWrite fs.sbLba (fs.blockSize / ataSectorSize) (buf.blit 0 84 v.sb) v).2

/-! ## Allocating -/

/-- The loop over the groups up to the first clear bit: its group, its index and the
buffer with the bitmap. -/
def search (fs : Mount) (r : Resource) (preferredGroup : Nat) :
    (left blk : Nat) → Volume → K (Option (Nat × Nat × Mem) × Volume)
  | 0, _, v => pure (none, v)
  | left + 1, blk, v =>
    let grp := addr32 (preferredGroup + blk) % fs.nbBlockGroups
    if v.count r grp = 0 then fs.search r preferredGroup left (blk + 1) v
    else
      let (ok, bitmap, v) := fs.readBlk (v.bitmapBlk r grp) v
      if !ok then fs.search r preferredGroup left (blk + 1) v
      else
        match bitmap.firstClear 0 (min (r.scanned fs v) fs.blockSize) with
        | some i => pure (some (grp, i, bitmap), v)
        | none =>
          -- the scan leaves the buffer
          if fs.blockSize < r.scanned fs v then .error .wild
          else fs.search r preferredGroup left (blk + 1) v

/-- What happens at a clear bit. When the bitmap cannot be written, the buffer is
freed, and the scan goes on in it. -/
def take (fs : Mount) (r : Resource) (grp i : Nat) (bitmap : Mem) (v : Volume) :
    K (Nat × Volume) :=
  let (ok, v) := fs.writeBlk (v.bitmapBlk r grp) (bitmap.setBit i) v
  if !ok then .error .wild
  else
    let v := { v with
      bgdt := v.bgdt.store (32 * grp + r.countField) 2 (v.count r grp - 1)
      sb := v.sb.store r.totalField 4 (sub32 (v.total r) 1) }
    pure (r.number v grp i, fs.writeSbBaseToDisk (fs.writeBgdtToDisk v))

def alloc (fs : Mount) (r : Resource) (preferredGroup : Nat) (v : Volume) : K (Nat × Volume) := do
  let (found, v) ← fs.search r preferredGroup fs.nbBlockGroups 0 v
  match found with
  | none => pure (0, v)
  | some (grp, i, bitmap) => fs.take r grp i bitmap v

def allocBlock (fs : Mount) : Nat → Volume → K (Nat × Volume) := fs.alloc .block

def allocInode (fs : Mount) : Nat → Volume → K (Nat × Volume) := fs.alloc .inode

/-! ## Where the metadata lies -/

/-- The sectors of the superblock, of the table and of each bitmap are distinct. -/
structure Layout (fs : Mount) (v : Volume) : Prop where
  bitmaps : ∀ r g r' g', g < fs.nbBlockGroups → g' < fs.nbBlockGroups → (r, g) ≠ (r', g') →
    fs.Apart (v.bitmapBlk r g) (v.bitmapBlk r' g')
  super : ∀ r g, g < fs.nbBlockGroups →
    fs.blkAddr (v.bitmapBlk r g) + fs.blockSize ≤ sectorAddr fs.sbLba ∨
      sectorAddr fs.sbLba + 1024 ≤ fs.blkAddr (v.bitmapBlk r g)
  table : ∀ r g, g < fs.nbBlockGroups →
    fs.blkAddr (v.bitmapBlk r g) + fs.blockSize ≤ sectorAddr fs.bgdtLba ∨
      sectorAddr fs.bgdtLba + ataSectorSize * ceilDiv fs.bgdtSize ataSectorSize ≤
        fs.blkAddr (v.bitmapBlk r g)
  superTable : sectorAddr fs.sbLba + 1024 ≤ sectorAddr fs.bgdtLba ∨
    sectorAddr fs.bgdtLba + ataSectorSize * ceilDiv fs.bgdtSize ataSectorSize ≤
      sectorAddr fs.sbLba

/-- Transfers fail on the bitmaps only, and one that fails moves nothing. -/
def FailsOnBitmaps (fs : Mount) (v : Volume) : Prop :=
  ∀ n lba k, fs.timeout n lba = some k →
    k = 0 ∧ ∃ r, ∃ g < fs.nbBlockGroups, lba = fs.blkToLba (v.bitmapBlk r g)

/-- What the search comes to: the first group in its order with a positive counter, a
bitmap that is read, and a clear bit; the lowest such bit; and the number of the
transfer that writes the bitmap back. `t` counts the transfers. -/
def target (fs : Mount) (r : Resource) (preferredGroup : Nat) (v : Volume) :
    (left blk t : Nat) → Option (Nat × Nat × Nat)
  | 0, _, _ => none
  | left + 1, blk, t =>
    let grp := addr32 (preferredGroup + blk) % fs.nbBlockGroups
    if v.count r grp = 0 then fs.target r preferredGroup v left (blk + 1) t
    else if (fs.timeout t (fs.blkToLba (v.bitmapBlk r grp))).isSome then
      fs.target r preferredGroup v left (blk + 1) (t + 1)
    else
      match (v.blk fs (v.bitmapBlk r grp)).firstClear 0 (r.scanned fs v) with
      | some i => some (grp, i, t + 1)
      | none => fs.target r preferredGroup v left (blk + 1) (t + 1)

variable {fs : Mount} {v v' : Volume} {r r' : Resource} {g g' i j left blk t preferred : Nat}
  {bitmap : Mem}

/-- The result of the search: the bit, and the bitmap as the drive has it. -/
inductive Found (fs : Mount) (v : Volume) (r : Resource) :
    Option (Nat × Nat × Nat) → Option (Nat × Nat × Mem) → Volume → Prop
  | full {t : Nat} : Found fs v r none none (v.after t)
  | bit {g i t : Nat} {bitmap : Mem} :
      (∀ x < fs.blockSize, bitmap x = v.blk fs (v.bitmapBlk r g) x) →
      Found fs v r (some (g, i, t)) (some (g, i, bitmap)) (v.after t)

/-! ### The turns of the search -/

section Turns

variable (hgrp : addr32 (preferred + blk) % fs.nbBlockGroups = g)
include hgrp

theorem search_of_empty (hcount : v.count r g = 0) :
    fs.search r preferred (left + 1) blk v = fs.search r preferred left (blk + 1) v := by
  rw [search]
  simp only [hgrp]
  rw [if_pos hcount]

theorem search_of_timeout {k : Nat} (hcount : v.count r g ≠ 0)
    (h : fs.timeout v.transfers (fs.blkToLba (v.bitmapBlk r g)) = some k) :
    fs.search r preferred (left + 1) blk v =
      fs.search r preferred left (blk + 1) (v.after (v.transfers + 1)) := by
  obtain ⟨hnot, hvol⟩ := readBlk_of_timeout h
  rw [search]
  simp only [hgrp]
  rw [if_neg hcount, hnot, hvol]
  rfl

/-- A bitmap that is read is scanned as the drive has it. -/
theorem search_of_read (hfits : fs.Fits) (hscan : r.scanned fs v ≤ fs.blockSize)
    (hcount : v.count r g ≠ 0)
    (h : fs.timeout v.transfers (fs.blkToLba (v.bitmapBlk r g)) = none) :
    ∃ bitmap, (∀ x < fs.blockSize, bitmap x = v.blk fs (v.bitmapBlk r g) x) ∧
      fs.search r preferred (left + 1) blk v =
        match (v.blk fs (v.bitmapBlk r g)).firstClear 0 (r.scanned fs v) with
        | some i => .ok (some (g, i, bitmap), (v.after (v.transfers + 1)))
        | none => fs.search r preferred left (blk + 1) (v.after (v.transfers + 1)) := by
  have hbuf (x) (hx : x < fs.blockSize) : (fs.stale v.transfers).blit 0 fs.blockSize
      (v.blk fs (v.bitmapBlk r g)) x = v.blk fs (v.bitmapBlk r g) x := by
    rw [Mem.blit_of_mem (by omega) (by omega), Nat.sub_zero]
  have hscanned : r.scanned fs { v with transfers := v.transfers + 1 } = r.scanned fs v :=
    Volume.after_scanned
  refine ⟨_, hbuf, ?_⟩
  rw [search]
  simp only [hgrp]
  rw [if_neg hcount, hfits.readBlk h]
  simp only [Bool.not_true, Bool.false_eq_true, if_false, hscanned, Nat.min_eq_left hscan,
    if_neg (Nat.not_lt.2 hscan)]
  rw [Mem.firstClear_congr fun a _ ha => hbuf a (by omega)]
  cases (v.blk fs (v.bitmapBlk r g)).firstClear 0 (r.scanned fs v) <;> rfl

end Turns

theorem search_spec (hfits : fs.Fits) (hscan : r.scanned fs v ≤ fs.blockSize)
    (preferred left blk t : Nat) :
    ∃ found v', fs.search r preferred left blk (v.after t) = .ok (found, v') ∧
      fs.Found v r (fs.target r preferred v left blk t) found v' := by
  induction left generalizing blk t with
  | zero => exact ⟨_, _, rfl, .full⟩
  | succ left ih =>
    rw [target]
    generalize hgrp : addr32 (preferred + blk) % fs.nbBlockGroups = g
    split
    · rename_i hcount
      rw [search_of_empty (v := v.after t) hgrp hcount]
      exact ih (blk + 1) t
    · rename_i hcount
      cases hread : fs.timeout t (fs.blkToLba (v.bitmapBlk r g)) with
      | some k =>
        rw [search_of_timeout (v := v.after t) hgrp hcount hread, Option.isSome_some, if_pos rfl]
        exact ih (blk + 1) (t + 1)
      | none =>
        obtain ⟨bitmap, hbitmap, hturn⟩ := search_of_read (v := v.after t) hgrp hfits
          (by rwa [Volume.after_scanned]) hcount hread
        simp only [Volume.after_blk, Volume.after_bitmapBlk, Volume.after_scanned] at hbitmap hturn
        rw [hturn, Option.isSome_none, if_neg Bool.false_ne_true]
        cases (v.blk fs (v.bitmapBlk r g)).firstClear 0 (r.scanned fs v) with
        | some i => exact ⟨_, _, rfl, .bit hbitmap⟩
        | none => exact ih (blk + 1) (t + 1)

/-! ## Taking a bit -/

/-- The bytes of the drive that belong to the table. -/
def tableLen (fs : Mount) : Nat := ataSectorSize * ceilDiv fs.bgdtSize ataSectorSize

/-- Everything that taking bit `i` of a group changes. -/
structure Taken (fs : Mount) (v : Volume) (r : Resource) (g i : Nat) (v' : Volume) : Prop where
  sb : v'.sb = v.sb.store r.totalField 4 (sub32 (v.total r) 1)
  bgdt : v'.bgdt = v.bgdt.store (32 * g + r.countField) 2 (v.count r g - 1)
  bitmap : ∀ x < fs.blockSize,
    v'.disk (fs.blkAddr (v.bitmapBlk r g) + x) = (v.blk fs (v.bitmapBlk r g)).setBit i x
  super : ∀ x < 84, v'.disk (sectorAddr fs.sbLba + x) = v'.sb x
  table : fs.bgdtSize ≤ 255 * ataSectorSize → ∀ x < fs.bgdtSize,
    v'.disk (sectorAddr fs.bgdtLba + x) = v'.bgdt x
  other : ∀ x, (x < fs.blkAddr (v.bitmapBlk r g) ∨
      fs.blkAddr (v.bitmapBlk r g) + fs.blockSize ≤ x) →
    (x < sectorAddr fs.sbLba ∨ sectorAddr fs.sbLba + 84 ≤ x) →
    (x < sectorAddr fs.bgdtLba ∨ sectorAddr fs.bgdtLba + fs.tableLen ≤ x) → v'.disk x = v.disk x

/-- The superblock is read, modified and written back; that leaves the rest of the block
as it is. -/
theorem writeSbBaseToDisk_disk (hfits : fs.Fits) (hok : ∀ n, fs.timeout n fs.sbLba = none) :
    (fs.writeSbBaseToDisk v).disk = v.disk.blit (sectorAddr fs.sbLba) 84 v.sb ∧
      (fs.writeSbBaseToDisk v).sb = v.sb ∧ (fs.writeSbBaseToDisk v).bgdt = v.bgdt := by
  have hsize : 1024 ≤ fs.blockSize := by
    obtain ⟨k, -, hk⟩ := hfits.sized
    rw [hk]
    exact Nat.le_mul_of_pos_right _ (Nat.two_pow_pos k)
  refine ⟨?_, ?_⟩
  · simp only [writeSbBaseToDisk, ataRead, ataWrite, hok, hfits.moved, Option.isNone_none,
      Bool.not_true, Bool.false_eq_true, if_false]
    funext x
    rcases Nat.lt_or_ge x (sectorAddr fs.sbLba) with hlo | hlo
    · rw [Mem.blit_of_not_mem (by omega), Mem.blit_of_not_mem (by omega)]
    rcases Nat.lt_or_ge x (sectorAddr fs.sbLba + fs.blockSize) with hhi | hhi
    · rw [Mem.blit_of_mem hlo hhi]
      rcases Nat.lt_or_ge x (sectorAddr fs.sbLba + 84) with hin | hout
      · rw [Mem.blit_of_mem (by omega) (by omega), Mem.blit_of_mem hlo hin, Nat.sub_zero]
      · rw [Mem.blit_of_not_mem (by omega), Mem.blit_of_mem (by omega) (by omega),
          Mem.blit_of_not_mem (by omega), Nat.sub_zero, Nat.add_sub_cancel' hlo]
    · rw [Mem.blit_of_not_mem (by omega), Mem.blit_of_not_mem (by omega)]
  · simp only [writeSbBaseToDisk, ataRead, ataWrite, hok, Option.isNone_none, Bool.not_true,
      Bool.false_eq_true, if_false, and_self]

namespace Layout

theorem of_bitmapBlk (h : fs.Layout v) (hsame : ∀ r g, v'.bitmapBlk r g = v.bitmapBlk r g) :
    fs.Layout v' := by
  refine ⟨fun r g r' g' hg hg' hne => ?_, fun r g hg => ?_, fun r g hg => ?_, h.superTable⟩
  · rw [hsame, hsame]
    exact h.bitmaps r g r' g' hg hg' hne
  · rw [hsame]
    exact h.super r g hg
  · rw [hsame]
    exact h.table r g hg

/-- The superblock is never at the address of a transfer that fails. -/
theorem super_ok (h : fs.Layout v) (hfail : fs.FailsOnBitmaps v) (hpos : 0 < fs.blockSize)
    (n : Nat) : fs.timeout n fs.sbLba = none := by
  cases htimeout : fs.timeout n fs.sbLba with
  | none => rfl
  | some k =>
    obtain ⟨-, r, g, hg, hlba⟩ := hfail n _ k htimeout
    have hapart := h.super r g hg
    rw [blkAddr, ← hlba] at hapart
    omega

/-- The table is written as far as its sectors fit their byte. -/
theorem moved_table (h : fs.Layout v) (hfail : fs.FailsOnBitmaps v) (hpos : 0 < fs.blockSize) :
    fs.moved fs.bgdtLba (ceilDiv fs.bgdtSize ataSectorSize) v' =
      ataSectorSize * (ceilDiv fs.bgdtSize ataSectorSize % 2 ^ 8) := by
  rw [moved]
  split
  · rfl
  · rename_i k htimeout
    obtain ⟨rfl, r, g, hg, hlba⟩ := hfail _ _ k htimeout
    have hapart := h.table r g hg
    rw [blkAddr, ← hlba] at hapart
    have hnone : ceilDiv fs.bgdtSize ataSectorSize = 0 := by
      rw [ataSectorSize] at hapart ⊢
      omega
    rw [hnone]
    simp

end Layout

theorem take_of_timeout {k : Nat}
    (h : fs.timeout v.transfers (fs.blkToLba (v.bitmapBlk r g)) = some k) :
    fs.take r g i bitmap v = .error .wild := by
  simp only [take, writeBlk_of_timeout h]
  rfl

theorem number_congr (hsb : ∀ a, 20 ≤ a → v'.sb.load a 4 = v.sb.load a 4) :
    r.number v' g i = r.number v g i := by
  cases r <;> simp only [Resource.number, Volume.sbNbBlocksInGroup, Volume.sbNbInodesInGroup] <;>
    rw [hsb _ (by omega)]

theorem writeBgdtToDisk_disk : (fs.writeBgdtToDisk v).disk =
    v.disk.blit (sectorAddr fs.bgdtLba)
      (fs.moved fs.bgdtLba (ceilDiv fs.bgdtSize ataSectorSize) v)
      fun x => if x < fs.bgdtSize then v.bgdt x else fs.stale v.transfers x := rfl

/-- The volume when the bitmap has been written and the counters have been lowered. -/
def counted (fs : Mount) (v : Volume) (r : Resource) (g i : Nat) (bitmap : Mem) : Volume where
  disk := v.disk.blit (fs.blkAddr (v.bitmapBlk r g)) fs.blockSize (bitmap.setBit i)
  sb := v.sb.store r.totalField 4 (sub32 (v.total r) 1)
  bgdt := v.bgdt.store (32 * g + r.countField) 2 (v.count r g - 1)
  transfers := v.transfers + 1

theorem take_of_ok (hfits : fs.Fits)
    (hok : fs.timeout v.transfers (fs.blkToLba (v.bitmapBlk r g)) = none) :
    fs.take r g i bitmap v = .ok (r.number v g i,
      fs.writeSbBaseToDisk (fs.writeBgdtToDisk (fs.counted v r g i bitmap))) := by
  have hnumber : r.number (fs.counted v r g i bitmap) g i = r.number v g i :=
    number_congr fun a ha => Mem.load_store_of_disjoint (by cases r <;> simp [Resource.totalField] <;> omega)
  rw [← hnumber]
  simp only [take, hfits.writeBlk hok, Bool.not_true, Bool.false_eq_true, if_false]
  rfl

theorem take_spec (hfits : fs.Fits) (hl : fs.Layout v) (hfail : fs.FailsOnBitmaps v)
    (hg : g < fs.nbBlockGroups)
    (hok : fs.timeout v.transfers (fs.blkToLba (v.bitmapBlk r g)) = none)
    (hbitmap : ∀ x < fs.blockSize, bitmap x = v.blk fs (v.bitmapBlk r g) x) :
    ∃ v', fs.take r g i bitmap v = .ok (r.number v g i, v') ∧ fs.Taken v r g i v' := by
  refine ⟨_, take_of_ok hfits hok, ?_⟩
  obtain ⟨hdisk, hsb, hbgdt⟩ := writeSbBaseToDisk_disk hfits
    (hl.super_ok hfail hfits.sized.pos) (v := fs.writeBgdtToDisk (fs.counted v r g i bitmap))
  have hwrite : (fs.writeBgdtToDisk (fs.counted v r g i bitmap)).disk = _ := writeBgdtToDisk_disk
  have hlen : fs.moved fs.bgdtLba (ceilDiv fs.bgdtSize ataSectorSize)
      (fs.counted v r g i bitmap) ≤ fs.tableLen := by
    rw [hl.moved_table hfail hfits.sized.pos, tableLen, ataSectorSize]
    omega
  have hsuper := hl.super r g hg
  have htable := hl.table r g hg
  have hapart := hl.superTable
  rw [← tableLen] at htable hapart
  refine ⟨hsb, hbgdt, fun x hx => ?_, fun x hx => ?_, fun hsectors x hx => ?_,
    fun x hbm hsup htab => ?_⟩
  · have hin : (fs.counted v r g i bitmap).disk (fs.blkAddr (v.bitmapBlk r g) + x) =
        bitmap.setBit i x := by
      show v.disk.blit _ _ _ _ = _
      rw [Mem.blit_of_mem (by omega) (by omega), Nat.add_sub_cancel_left]
    rw [hdisk, Mem.blit_of_not_mem (by omega), hwrite, Mem.blit_of_not_mem (by omega), hin, Mem.setBit, Mem.setBit, hbitmap x hx]
  · rw [hdisk, Mem.blit_of_mem (by omega) (by omega), Nat.add_sub_cancel_left, hsb]
  · have hmoved : fs.bgdtSize ≤ fs.moved fs.bgdtLba (ceilDiv fs.bgdtSize ataSectorSize)
        (fs.counted v r g i bitmap) := by
      rw [hl.moved_table hfail hfits.sized.pos, ceilDiv, addr32]
      rw [ataSectorSize] at hsectors ⊢
      omega
    rw [hdisk, Mem.blit_of_not_mem (by omega), hbgdt, hwrite, Mem.blit_of_mem (by omega) (by omega), Nat.add_sub_cancel_left, if_pos hx]
    rfl
  · rw [hdisk, Mem.blit_of_not_mem (by omega), hwrite, Mem.blit_of_not_mem (by omega)]
    exact Mem.blit_of_not_mem hbm

/-! ## What stays and what changes -/

namespace Taken

theorem bitmapBlk (h : fs.Taken v r g i v') (r' : Resource) (g' : Nat) :
    v'.bitmapBlk r' g' = v.bitmapBlk r' g' := by
  rw [Volume.bitmapBlk, Volume.bitmapBlk, h.bgdt]
  apply Mem.load_store_of_disjoint
  cases r <;> cases r' <;> simp only [Resource.bitmapField, Resource.countField] <;> omega

theorem count_self (h : fs.Taken v r g i v') : v'.count r g = v.count r g - 1 := by
  have hlt : v.count r g < 256 ^ 2 := Mem.load_lt
  rw [Volume.count, h.bgdt, Mem.load_store_self, Nat.mod_eq_of_lt (by omega)]

theorem count_of_ne (h : fs.Taken v r g i v') (hne : (r', g') ≠ (r, g)) :
    v'.count r' g' = v.count r' g' := by
  have hother : r' ≠ r ∨ g' ≠ g := by
    by_contra hsame
    push Not at hsame
    exact hne (Prod.ext hsame.1 hsame.2)
  rw [Volume.count, Volume.count, h.bgdt]
  apply Mem.load_store_of_disjoint
  cases r <;> cases r' <;> simp only [Resource.countField, ne_eq, not_true, false_or,
    reduceCtorEq, not_false_eq_true, true_or] at hother ⊢ <;> omega

theorem total_self (h : fs.Taken v r g i v') (hpos : 0 < v.total r) :
    v'.total r = v.total r - 1 := by
  have hlt : v.total r < 256 ^ 4 := Mem.load_lt
  rw [Volume.total, h.sb, Mem.load_store_self, sub32_of_le hpos, Nat.mod_eq_of_lt (by omega)]

theorem total_of_ne (h : fs.Taken v r g i v') (hne : r' ≠ r) : v'.total r' = v.total r' := by
  rw [Volume.total, Volume.total, h.sb]
  apply Mem.load_store_of_disjoint
  cases r <;> cases r' <;> simp only [Resource.totalField] <;> first | omega | exact absurd rfl hne

theorem sb_load (h : fs.Taken v r g i v') {a : Nat} (ha : 20 ≤ a ∨ a ≤ 8) :
    v'.sb.load a 4 = v.sb.load a 4 := by
  rw [h.sb]
  apply Mem.load_store_of_disjoint
  cases r <;> simp only [Resource.totalField] <;> omega

theorem layout (h : fs.Taken v r g i v') (hl : fs.Layout v) : fs.Layout v' :=
  hl.of_bitmapBlk h.bitmapBlk

/-- The bytes of a bitmap. -/
theorem byte (h : fs.Taken v r g i v') (r' : Resource) (hl : fs.Layout v) (hg : g < fs.nbBlockGroups)
    (hg' : g' < fs.nbBlockGroups) {x : Nat} (hx : x < fs.blockSize) :
    v'.blk fs (v'.bitmapBlk r' g') x =
      if (r', g') = (r, g) then (v.blk fs (v.bitmapBlk r g)).setBit i x
      else v.blk fs (v.bitmapBlk r' g') x := by
  rw [h.bitmapBlk, Volume.blk]
  split
  · rename_i hsame
    obtain ⟨rfl, rfl⟩ := Prod.mk.inj hsame
    exact h.bitmap x hx
  · rename_i hne
    have hbitmaps := hl.bitmaps r' g' r g hg' hg hne
    have hsuper := hl.super r' g' hg'
    have htable := hl.table r' g' hg'
    rw [← tableLen] at htable
    rw [Apart] at hbitmaps
    exact h.other _ (by omega) (by omega) (by omega)

/-- The bit that is taken is the only one that changes. -/
theorem bit (h : fs.Taken v r g i v') (r' : Resource) (hl : fs.Layout v)
    (hg : g < fs.nbBlockGroups) (hg' : g' < fs.nbBlockGroups) (hj : j < 8 * fs.blockSize) :
    (v'.blk fs (v'.bitmapBlk r' g')).bit j =
      ((v.blk fs (v.bitmapBlk r' g')).bit j || decide ((r', g', j) = (r, g, i))) := by
  have hbyte := h.byte r' hl hg hg' (show j / 8 < fs.blockSize by omega)
  split at hbyte
  · rename_i hsame
    obtain ⟨rfl, rfl⟩ := Prod.mk.inj hsame
    rw [Mem.bit_congr hbyte, Mem.bit_setBit]
    simp [eq_comm]
  · rename_i hne
    have hother : (r', g', j) ≠ (r, g, i) := by
      intro heq
      simp only [Prod.mk.injEq] at heq
      exact hne (Prod.ext heq.1 heq.2.1)
    rw [Mem.bit_congr hbyte, decide_eq_false hother, Bool.or_false]

end Taken

/-! ## The whole allocation -/

theorem target_eq_some (hnb : 0 < fs.nbBlockGroups)
    (h : fs.target r preferred v left blk t = some (g, i, j)) :
    g < fs.nbBlockGroups ∧ v.count r g ≠ 0 ∧
      (v.blk fs (v.bitmapBlk r g)).firstClear 0 (r.scanned fs v) = some i := by
  induction left generalizing blk t with
  | zero => cases h
  | succ left ih =>
    rw [target] at h
    split at h
    · exact ih h
    rename_i hcount
    split at h
    · exact ih h
    split at h
    · rename_i b hscan
      obtain ⟨rfl, rfl, -⟩ : _ = g ∧ b = i ∧ t + 1 = j := by simpa using h
      exact ⟨Nat.mod_lt _ hnb, hcount, hscan⟩
    · exact ih h

/-- On a drive that answers, the search that finds nothing has seen only groups that
have nothing to give. -/
theorem target_eq_none (hr : fs.Reliable) (h : fs.target r preferred v left blk t = none)
    {k : Nat} (hk : k < left) (hg : addr32 (preferred + (blk + k)) % fs.nbBlockGroups = g) :
    v.count r g = 0 ∨
      (v.blk fs (v.bitmapBlk r g)).firstClear 0 (r.scanned fs v) = none := by
  induction left generalizing blk t k with
  | zero => omega
  | succ left ih =>
    rw [target] at h
    simp only [hr t, Option.isSome_none, Bool.false_eq_true, if_false] at h
    cases k with
    | zero =>
      rw [Nat.add_zero] at hg
      rw [hg] at h
      split at h
      · rename_i hcount
        exact .inl hcount
      split at h
      · cases h
      · rename_i hscan
        exact .inr hscan
    | succ k =>
      have hg' : addr32 (preferred + (blk + 1 + k)) % fs.nbBlockGroups = g := by
        rwa [Nat.add_assoc, Nat.add_comm 1 k]
      split at h
      · exact ih h (by omega) hg'
      split at h
      · cases h
      · exact ih h (by omega) hg'

/-- The bit that an allocation takes: its group, its index and the number of the
transfer that writes the bitmap. -/
def choice (fs : Mount) (r : Resource) (preferredGroup : Nat) (v : Volume) :
    Option (Nat × Nat × Nat) := fs.target r preferredGroup v fs.nbBlockGroups 0 v.transfers

section Whole

variable (hfits : fs.Fits) (hl : fs.Layout v) (hfail : fs.FailsOnBitmaps v)
  (hscan : r.scanned fs v ≤ fs.blockSize)
include hfits hscan

theorem alloc_of_none (h : fs.choice r preferred v = none) :
    ∃ t, fs.alloc r preferred v = .ok (0, v.after t) := by
  obtain ⟨found, v₁, hsearch, hfound⟩ := search_spec hfits hscan preferred
    fs.nbBlockGroups 0 v.transfers
  rw [choice] at h
  rw [h] at hfound
  cases hfound with
  | full =>
    rename_i t
    refine ⟨t, ?_⟩
    rw [alloc, show fs.search r preferred fs.nbBlockGroups 0 v = .ok (none, v.after t) from hsearch]
    rfl

/-- An allocation that chooses a bit comes to writing the bitmap. -/
theorem alloc_of_some (h : fs.choice r preferred v = some (g, i, t)) :
    ∃ bitmap, (∀ x < fs.blockSize, bitmap x = v.blk fs (v.bitmapBlk r g) x) ∧
      fs.alloc r preferred v = fs.take r g i bitmap (v.after t) := by
  obtain ⟨found, v₁, hsearch, hfound⟩ := search_spec hfits hscan preferred
    fs.nbBlockGroups 0 v.transfers
  rw [choice] at h
  rw [h] at hfound
  cases hfound with
  | bit hbitmap =>
    rename_i bitmap
    refine ⟨bitmap, hbitmap, ?_⟩
    rw [alloc, show fs.search r preferred fs.nbBlockGroups 0 v = .ok (some (g, i, bitmap), v.after t)
      from hsearch]
    rfl

theorem alloc_of_timeout (h : fs.choice r preferred v = some (g, i, t)) {k : Nat}
    (hwrite : fs.timeout t (fs.blkToLba (v.bitmapBlk r g)) = some k) :
    fs.alloc r preferred v = .error .wild := by
  obtain ⟨bitmap, -, halloc⟩ := alloc_of_some hfits hscan h
  rw [halloc]
  exact take_of_timeout (v := v.after t) hwrite

include hl hfail in
theorem alloc_of_write (h : fs.choice r preferred v = some (g, i, t))
    (hwrite : fs.timeout t (fs.blkToLba (v.bitmapBlk r g)) = none) (hnb : 0 < fs.nbBlockGroups) :
    ∃ v', fs.alloc r preferred v = .ok (r.number v g i, v') ∧ fs.Taken v r g i v' := by
  obtain ⟨bitmap, hbitmap, halloc⟩ := alloc_of_some hfits hscan h
  obtain ⟨hg, -, -⟩ := target_eq_some hnb h
  obtain ⟨v', htake, htaken⟩ := take_spec (v := v.after t) hfits
    (hl.of_bitmapBlk fun _ _ => rfl) hfail hg hwrite hbitmap
  refine ⟨v', ?_, htaken.sb, htaken.bgdt, htaken.bitmap, htaken.super, htaken.table, htaken.other⟩
  rw [halloc, htake]
  cases r <;> rfl

end Whole

theorem Reliable.failsOnBitmaps (h : fs.Reliable) : fs.FailsOnBitmaps v := by
  intro n lba k htimeout
  rw [h] at htimeout
  cases htimeout

end Mount

end Kaku

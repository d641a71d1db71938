-- SUMMARY: The inodes that the drive holds, as a table, and what writing one of them makes of it.
import Kaku.Fs.Supply

/-!
# The inodes of a drive

The inodes that are in use, read off the drive. An image is consistent if it is so with
respect to the files and directories among them.
-/

namespace Kaku

namespace Mount

/-- The inode with a number, as the drive has it. -/
def inodeAt (fs : Mount) (v : Volume) (k : Nat) : Inode where
  raw := Mem.blit (fun _ => 0) 0 inodeBytes fun x =>
    v.disk (fs.slotAddr (fs.groupSlot v (v.inodeGroup k) (v.inodeIndex k)) + x)
  inodeId := k

/-- A number of the volume whose bit is set. -/
def InUse (fs : Mount) (v : Volume) (k : Nat) : Prop :=
  1 ≤ k ∧ k ≤ v.sbInodesCount ∧ fs.bitOf v v .inode (v.inodeGroup k) (v.inodeIndex k) = true

instance (fs : Mount) (v : Volume) (k : Nat) : Decidable (fs.InUse v k) :=
  inferInstanceAs (Decidable (_ ∧ _))

/-- Files and directories. What other inodes hold in place of pointers are none. -/
def diskTable (fs : Mount) (v : Volume) (k : Nat) : Option Inode :=
  if fs.InUse v k ∧ ((fs.inodeAt v k).isFile = true ∨ (fs.inodeAt v k).isDir = true) then
    some (fs.inodeAt v k)
  else none

theorem diskTable_number {fs : Mount} {v : Volume} {k : Nat} {inode : Inode}
    (h : fs.diskTable v k = some inode) : inode.inodeId = k := by
  rw [diskTable] at h
  split at h
  · cases h
    rfl
  · cases h

/-- A consistent image. Directories have no holes. -/
structure Consistent (fs : Mount) (v : Volume) : Prop where
  owned : fs.Owned v (fs.diskTable v)
  dirs : ∀ k, fs.InUse v k → (fs.inodeAt v k).isDir = true →
    ∀ i < fs.nbBlocks (fs.inodeAt v k), v.blockPtr fs (fs.inodeAt v k) i ≠ 0

variable {fs : Mount} {v v' w : Volume} {tbl : Nat → Option Inode} {inode inode' : Inode}
  {b c i k n t : Nat} {s : Option Nat} {touched : Set Nat}

/-! ## Slots of numbers -/

theorem InodeTables.home (h : fs.InodeTables v) (hk : 1 ≤ k) (hcount : k ≤ v.sbInodesCount) :
    v.inodeGroup k < fs.nbBlockGroups ∧ v.inodeIndex k < v.sbNbInodesInGroup ∧
      k = v.inodeGroup k * v.sbNbInodesInGroup + v.inodeIndex k + 1 ∧
      fs.inodeSlot k v = .ok (fs.groupSlot v (v.inodeGroup k) (v.inodeIndex k)) := by
  obtain ⟨g, hg, i, hi, hnumber, hslot⟩ := h.inodeSlot_eq hk hcount
  have hbefore : sub32 k 1 = i + v.sbNbInodesInGroup * g := by
    rw [sub32_of_le hk, hnumber, Nat.add_sub_cancel, Nat.add_comm, Nat.mul_comm]
  have hgroup : v.inodeGroup k = g := by
    rw [Volume.inodeGroup, hbefore, Nat.add_mul_div_left _ _ (by omega), Nat.div_eq_of_lt hi,
      Nat.zero_add]
  have hindex : v.inodeIndex k = i := by
    rw [Volume.inodeIndex, hbefore, Nat.add_mul_mod_self_left, Nat.mod_eq_of_lt hi]
  rw [hgroup, hindex]
  exact ⟨hg, hi, hnumber, hslot⟩

/-- The block of a slot is one of the table, and the slot lies in it. -/
theorem InodeTables.slot_inTable (h : fs.InodeTables v) (hk : 1 ≤ k)
    (hcount : k ≤ v.sbInodesCount) :
    fs.InTable v (fs.groupSlot v (v.inodeGroup k) (v.inodeIndex k)).1 ∧
      (fs.groupSlot v (v.inodeGroup k) (v.inodeIndex k)).2 + inodeBytes ≤ fs.blockSize := by
  obtain ⟨hg, hi, -, -⟩ := h.home hk hcount
  obtain ⟨hroom, -⟩ := h.room hi
  have hoffset := h.offset_le (v.inodeGroup k) (v.inodeIndex k)
  have hslot := h.slot
  refine ⟨⟨_, hg, ?_, ?_⟩, by omega⟩
  · exact Nat.le_add_right _ _
  · rw [groupSlot]
    omega

theorem InodeTables.readInode (h : fs.InodeTables v) (hk : 1 ≤ k) (hcount : k ≤ v.sbInodesCount) :
    ∃ t, fs.readInode k v = .ok (fs.inodeAt v k, v.after t) := by
  obtain ⟨-, -, -, hslot⟩ := h.home hk hcount
  obtain ⟨w, hread⟩ := h.good.readInode_eq hslot (h.slot_inTable hk hcount).2
  obtain ⟨t, rfl⟩ := readInode_after hread
  exact ⟨t, hread⟩

end Mount

/-! ## Steps that leave the tables alone -/

namespace SameLayout

variable {fs : Mount} {v v' : Volume} {k : Nat} (h : SameLayout v v')
include h

theorem inodeGroup : v'.inodeGroup k = v.inodeGroup k := by
  rw [Volume.inodeGroup, Volume.inodeGroup, h.inodesInGroup]

theorem inodeIndex : v'.inodeIndex k = v.inodeIndex k := by
  rw [Volume.inodeIndex, Volume.inodeIndex, h.inodesInGroup]

theorem slot : fs.groupSlot v' (v'.inodeGroup k) (v'.inodeIndex k) =
    fs.groupSlot v (v.inodeGroup k) (v.inodeIndex k) := by
  rw [h.inodeGroup, h.inodeIndex, Mount.groupSlot, Mount.groupSlot, h.inodeTableBlk]

end SameLayout

namespace Mount

variable {fs : Mount} {v v' w : Volume} {tbl : Nat → Option Inode} {inode inode' : Inode}
  {b c i k n t : Nat} {s : Option Nat} {touched : Set Nat}

theorem inodeAt_congr (h : ∀ x < inodeBytes,
    v'.disk (fs.slotAddr (fs.groupSlot v' (v'.inodeGroup k) (v'.inodeIndex k)) + x) =
      v.disk (fs.slotAddr (fs.groupSlot v (v.inodeGroup k) (v.inodeIndex k)) + x)) :
    fs.inodeAt v' k = fs.inodeAt v k := by
  rw [inodeAt, inodeAt, Mem.blit_congr h]

/-- The table depends on what is in use, and on the inodes of these numbers. -/
theorem diskTable_congr (huse : ∀ k, fs.InUse v' k ↔ fs.InUse v k)
    (h : ∀ k, fs.InUse v k → fs.inodeAt v' k = fs.inodeAt v k) :
    fs.diskTable v' = fs.diskTable v := by
  funext k
  simp only [diskTable, huse]
  rcases em (fs.InUse v k) with hin | hout
  · rw [h k hin]
  · simp only [hout, false_and, if_false]

namespace Frame

variable (h : fs.Frame v v' touched) (ht : fs.InodeTables v)
include h ht

theorem inodeAt (hk : 1 ≤ k) (hcount : k ≤ v.sbInodesCount) : fs.inodeAt v' k = fs.inodeAt v k := by
  obtain ⟨htable, hfits⟩ := ht.slot_inTable hk hcount
  apply inodeAt_congr
  intro x hx
  rw [h.layout.slot, slotAddr, Nat.add_assoc]
  exact h.tables _ htable _ (by omega)

theorem inUse (hi : fs.Image v) : fs.InUse v' k ↔ fs.InUse v k := by
  rw [InUse, InUse, h.layout.inodesCount, h.layout.inodeGroup, h.layout.inodeIndex]
  refine and_congr_right fun hk => and_congr_right fun hcount => ?_
  obtain ⟨hg, hindex, -, -⟩ := ht.home hk hcount
  rw [h.inodeBits _ hg _ (hindex.trans_le hi.inodesFit)]

theorem diskTable (hi : fs.Image v) : fs.diskTable v' = fs.diskTable v :=
  diskTable_congr (fun _ => h.inUse ht hi) fun _ hin => h.inodeAt ht hin.1 hin.2.1

end Frame

/-! ## Writing an inode -/

/-- The volume after an inode has been written to its slot. -/
structure SlotWritten (fs : Mount) (v : Volume) (inode : Inode) (v' : Volume) : Prop where
  sb : v'.sb = v.sb
  bgdt : v'.bgdt = v.bgdt
  disk : v'.disk = v.disk.blit
    (fs.slotAddr (fs.groupSlot v (v.inodeGroup inode.inodeId) (v.inodeIndex inode.inodeId)))
    inodeBytes inode.raw

theorem InodeTables.writeInode (h : fs.InodeTables v) (hk : 1 ≤ inode.inodeId)
    (hcount : inode.inodeId ≤ v.sbInodesCount) :
    ∃ v', fs.writeInode inode v = .ok (true, v') ∧ fs.SlotWritten v inode v' := by
  obtain ⟨-, -, -, hslot⟩ := h.home hk hcount
  obtain ⟨v', hwrite, hsb, hbgdt, hdisk⟩ :=
    h.good.writeInode_eq hslot (h.slot_inTable hk hcount).2
  exact ⟨v', hwrite, hsb, hbgdt, hdisk⟩

namespace SlotWritten

variable (h : fs.SlotWritten v inode v')
include h

theorem sameLayout : SameLayout v v' := .of_eq h.sb h.bgdt

/-- The number that was written has the bytes that were written. -/
theorem inodeAt_self : fs.inodeAt v' inode.inodeId =
    ⟨Mem.blit (fun _ => 0) 0 inodeBytes inode.raw, inode.inodeId⟩ := by
  rw [inodeAt, Inode.mk.injEq]
  refine ⟨Mem.blit_congr fun x hx => ?_, rfl⟩
  rw [h.sameLayout.slot, h.disk, Mem.blit_of_mem (by omega) (by omega), Nat.add_sub_cancel_left]

section InRange

variable (ht : fs.InodeTables v) (hid : 1 ≤ inode.inodeId)
  (hcount : inode.inodeId ≤ v.sbInodesCount)
include ht hid hcount

/-- The bytes of the drive outside of the block of the slot. -/
theorem other {x : Nat}
    (hx : x < fs.blkAddr (fs.groupSlot v (v.inodeGroup inode.inodeId)
        (v.inodeIndex inode.inodeId)).1 ∨
      fs.blkAddr (fs.groupSlot v (v.inodeGroup inode.inodeId)
        (v.inodeIndex inode.inodeId)).1 + fs.blockSize ≤ x) : v'.disk x = v.disk x := by
  obtain ⟨-, hfits⟩ := ht.slot_inTable hid hcount
  rw [h.disk, slotAddr]
  apply Mem.blit_of_not_mem
  omega

theorem data (hb : fs.Data v b) {x : Nat} (hx : x < fs.blockSize) :
    v'.blk fs b x = v.blk fs b x := by
  have hapart := hb.apart_table ht (ht.slot_inTable hid hcount).1
  rw [Apart] at hapart
  apply h.other ht hid hcount
  omega

theorem sameMeta (hi : fs.Image v) (hout : ∀ c, fs.InTable v c → fs.Outside v c) :
    fs.SameMeta v v' := by
  have hslot := hout _ (ht.slot_inTable hid hcount).1
  have htable := hslot.table
  have hsuper := hslot.super
  have hsize := hi.bgdtSize_eq
  have hfits := hi.tableFits
  rw [ceilDiv, addr32, hsize] at htable
  rw [ataSectorSize] at hfits htable
  refine ⟨h.sb, h.bgdt, fun r g hg x hx => ?_, fun x hx => ?_, fun x hx => ?_⟩
  · have hapart := hslot.bitmaps r g hg
    rw [Apart] at hapart
    apply h.other ht hid hcount
    omega
  · apply h.other ht hid hcount
    omega
  · apply h.other ht hid hcount
    omega

/-- All other numbers have the bytes that they had. -/
theorem inodeAt_of_ne (hk : 1 ≤ k) (hkcount : k ≤ v.sbInodesCount) (hne : k ≠ inode.inodeId) :
    fs.inodeAt v' k = fs.inodeAt v k := by
  obtain ⟨hg, hi, hnumber, -⟩ := ht.home hid hcount
  obtain ⟨hg', hi', hnumber', -⟩ := ht.home hk hkcount
  have hapart := ht.slots_apart hg hi hg' hi' fun heq => hne (by
    obtain ⟨hgroup, hindex⟩ := Prod.mk.inj heq
    rw [hnumber', hnumber, hgroup, hindex])
  apply inodeAt_congr
  intro x hx
  rw [h.sameLayout.slot, h.disk, Mem.blit_of_not_mem (by omega)]

theorem inUse (hi : fs.Image v) (hout : ∀ c, fs.InTable v c → fs.Outside v c) :
    fs.InUse v' k ↔ fs.InUse v k := by
  have hmeta := h.sameMeta ht hid hcount hi hout
  rw [InUse, InUse, h.sameLayout.inodesCount, h.sameLayout.inodeGroup, h.sameLayout.inodeIndex]
  refine and_congr_right fun hk => and_congr_right fun hkcount => ?_
  obtain ⟨hg, hindex, -, -⟩ := ht.home hk hkcount
  rw [hmeta.bitOf hg (hindex.trans_le hi.inodesFit)]

end InRange

end SlotWritten

/-! ## The table after a write -/

/-- Two inodes with the same bytes on the drive. -/
def SameBytes (inode inode' : Inode) : Prop := ∀ x < inodeBytes, inode'.raw x = inode.raw x

namespace SameBytes

theorem blit (inode : Inode) (k : Nat) :
    SameBytes inode ⟨Mem.blit (fun _ => 0) 0 inodeBytes inode.raw, k⟩ := by
  intro x hx
  dsimp only
  rw [Mem.blit_of_mem (Nat.zero_le x) (by omega), Nat.sub_zero]

variable (h : SameBytes inode inode')
include h

theorem load {a m : Nat} (hin : a + m ≤ 128) : inode'.raw.load a m = inode.raw.load a m := by
  apply Mem.load_congr
  intro x _ hx
  exact h x (by rw [inodeBytes]; omega)

theorem isFile : inode'.isFile = inode.isFile := by
  rw [Inode.isFile, Inode.inodeTypeAndPermissions, h.load (by omega)]
  rfl

theorem isDir : inode'.isDir = inode.isDir := by
  rw [Inode.isDir, Inode.inodeTypeAndPermissions, h.load (by omega)]
  rfl

theorem size : inode'.inodeSizeLowBits = inode.inodeSizeLowBits := h.load (by omega)

theorem single : inode'.inodeSinglyIndirectBlkPtr = inode.inodeSinglyIndirectBlkPtr :=
  h.load (by omega)

theorem fileBlk : v.fileBlk fs inode' s = v.fileBlk fs inode s := by
  cases s with
  | none => exact h.single
  | some i =>
    rcases Nat.lt_or_ge i 12 with hi | hi
    · exact (blockPtr_of_direct hi).trans ((h.load (by omega)).trans (blockPtr_of_direct hi).symm)
    · exact blockPtr_of_single hi h.single

end SameBytes

/-- The table with the inode that has been written. -/
theorem SlotWritten.diskTable (h : fs.SlotWritten v inode v') (ht : fs.InodeTables v)
    (hi : fs.Image v) (hout : ∀ c, fs.InTable v c → fs.Outside v c)
    (huse : fs.InUse v inode.inodeId) (hkind : inode.isFile = true ∨ inode.isDir = true) :
    fs.diskTable v' = Function.update (fs.diskTable v) inode.inodeId
      (some ⟨Mem.blit (fun _ => 0) 0 inodeBytes inode.raw, inode.inodeId⟩) := by
  have hsame := SameBytes.blit inode inode.inodeId
  funext k
  rw [Mount.diskTable]
  simp only [h.inUse ht huse.1 huse.2.1 hi hout]
  rcases eq_or_ne k inode.inodeId with rfl | hne
  · rw [h.inodeAt_self, Function.update_self, hsame.isFile, hsame.isDir,
      if_pos ⟨huse, hkind⟩]
  · rw [Function.update_of_ne hne, Mount.diskTable]
    rcases em (fs.InUse v k) with hin | hout'
    · rw [h.inodeAt_of_ne ht huse.1 huse.2.1 hin.1 hin.2.1 hne]
    · simp only [hout', false_and, if_false]

/-- Writing an inode changes no reference. -/
theorem Owned.slotWritten {ι : Type} {tbl : ι → Option Inode} (h : fs.Owned v tbl)
    (hw : fs.SlotWritten v inode v') (hid : 1 ≤ inode.inodeId)
    (hcount : inode.inodeId ≤ v.sbInodesCount) : fs.Owned v' tbl := by
  refine h.same (hw.sameMeta h.tables hid hcount h.image h.tablesOutside) (fun _ => rfl) fun k s => ?_
  exact refBlk_congr fun hne x hx => hw.data h.tables hid hcount (h.data k none hne) hx

/-- The bytes of an inode that are not on the drive do not matter. -/
theorem Owned.sameBytes {ι : Type} [DecidableEq ι] {tbl : ι → Option Inode} {k : ι}
    (h : fs.Owned v (Function.update tbl k (some inode))) (hsame : SameBytes inode inode')
    (hid : inode'.inodeId = inode.inodeId) : fs.Owned v (Function.update tbl k (some inode')) := by
  refine h.same (.of_disk rfl rfl rfl) (whose_update hid) fun k' s => ?_
  rcases eq_or_ne k' k with rfl | hne
  · rw [refBlk_update_self, refBlk_update_self]
    exact hsame.fileBlk
  · rw [refBlk_update_of_ne hne, refBlk_update_of_ne hne]

theorem Consistent.after (h : fs.Consistent v) (t : Nat) : fs.Consistent (v.after t) :=
  ⟨h.owned.same .after (fun _ => rfl) fun _ _ => rfl, h.dirs⟩

end Mount

end Kaku

-- SUMMARY: The lookup that allocates missing blocks of a file, compared with the lookup that does not.
import Kaku.Fs.AllocRun
import Kaku.Fs.Inode

/-!
# Allocating block lookups

`__fs_ext2_get_or_alloc_block_ptr` of `fs/src/ext2.c`. A block that is missing is
allocated, and so is the indirect block; the latter is used as the drive has it.
-/

namespace Kaku

namespace Inode

/-- The inode with another block behind a direct index. -/
def setDirectBlkPtr (inode : Inode) (i blk : Nat) : Inode :=
  { inode with raw := inode.raw.store (40 + 4 * i) 4 blk }

def setSinglyIndirectBlkPtr (inode : Inode) (blk : Nat) : Inode :=
  { inode with raw := inode.raw.store 88 4 blk }

variable {inode : Inode} {i j blk : Nat}

theorem inodeDirectBlkPtr_set_self :
    (inode.setDirectBlkPtr i blk).inodeDirectBlkPtr i = blk % 2 ^ 32 := Mem.load_store_self

theorem inodeDirectBlkPtr_set_of_ne (h : j ≠ i) :
    (inode.setDirectBlkPtr i blk).inodeDirectBlkPtr j = inode.inodeDirectBlkPtr j :=
  Mem.load_store_of_disjoint (by omega)

theorem inodeSinglyIndirectBlkPtr_setDirect (inode : Inode) (blk : Nat) (h : i < 12) :
    (inode.setDirectBlkPtr i blk).inodeSinglyIndirectBlkPtr = inode.inodeSinglyIndirectBlkPtr :=
  Mem.load_store_of_disjoint (by omega)

theorem inodeDirectBlkPtr_setSingly (h : i < 12) :
    (inode.setSinglyIndirectBlkPtr blk).inodeDirectBlkPtr i = inode.inodeDirectBlkPtr i :=
  Mem.load_store_of_disjoint (by omega)

theorem inodeSinglyIndirectBlkPtr_setSingly :
    (inode.setSinglyIndirectBlkPtr blk).inodeSinglyIndirectBlkPtr = blk % 2 ^ 32 :=
  Mem.load_store_self

end Inode

namespace Mount

/-- The block behind an index of the indirect block, which is allocated if the pointer
is zero. -/
def getOrAllocIndirect (fs : Mount) (inode : Inode) (i : Nat) (v : Volume) : K (Nat × Volume) :=
  let (_, indirect, v) := fs.readBlk inode.inodeSinglyIndirectBlkPtr v
  if indirect.load (4 * i) 4 = 0 then do
    let (blk, v) ← fs.allocBlock 0 v
    let indirect := indirect.store (4 * i) 4 blk
    let (_, v) := fs.writeBlk inode.inodeSinglyIndirectBlkPtr indirect v
    pure (indirect.load (4 * i) 4, v)
  else pure (indirect.load (4 * i) 4, v)

def getOrAllocBlockPtr (fs : Mount) (inode : Inode) (i : Nat) (v : Volume) :
    K (Nat × Inode × Volume) :=
  if i < 12 then
    if inode.inodeDirectBlkPtr i = 0 then do
      let (blk, v) ← fs.allocBlock 0 v
      let inode := inode.setDirectBlkPtr i blk
      pure (inode.inodeDirectBlkPtr i, inode, v)
    else pure (inode.inodeDirectBlkPtr i, inode, v)
  else if fs.blockSize / 4 ≤ i - 12 then pure (0, inode, v)
  else if inode.inodeSinglyIndirectBlkPtr = 0 then do
    let (indirect, v) ← fs.allocBlock 0 v
    let inode := inode.setSinglyIndirectBlkPtr indirect
    let (blk, v) ← fs.getOrAllocIndirect inode (i - 12) v
    pure (blk, inode, v)
  else do
    let (blk, v) ← fs.getOrAllocIndirect inode (i - 12) v
    pure (blk, inode, v)

/-! ## Blocks apart from the metadata -/

/-- A block that shares no sector with superblock, table or bitmaps. -/
structure Outside (fs : Mount) (v : Volume) (b : Nat) : Prop where
  bitmaps : ∀ r g, g < fs.nbBlockGroups → fs.Apart (v.bitmapBlk r g) b
  super : fs.blkAddr b + fs.blockSize ≤ sectorAddr fs.sbLba ∨
    sectorAddr fs.sbLba + 1024 ≤ fs.blkAddr b
  table : fs.blkAddr b + fs.blockSize ≤ sectorAddr fs.bgdtLba ∨
    sectorAddr fs.bgdtLba + ataSectorSize * ceilDiv fs.bgdtSize ataSectorSize ≤ fs.blkAddr b

/-- What the two lookups have to do with one another. -/
structure LookupsAgree (fs : Mount) (v v' : Volume) (inode inode' : Inode) (i b : Nat) : Prop where
  found : b ≠ 0 → (fs.getBlockPtr inode' i v').1 = b
  others : ∀ j ≠ i, (fs.getBlockPtr inode' j v').1 = (fs.getBlockPtr inode j v).1
  mapped : (fs.getBlockPtr inode i v).1 ≠ 0 →
    inode' = inode ∧ v'.disk = v.disk ∧ v'.sb = v.sb ∧ v'.bgdt = v.bgdt

/-- The word at an index of a block. -/
def word (fs : Mount) (v : Volume) (b i : Nat) : Nat := (v.blk fs b).load (4 * i) 4

/-- No stale word turns up in a new indirect block. If there is none to be had, the word is
that of block 0. -/
def NoStaleWord (fs : Mount) (v : Volume) (i : Nat) : Prop :=
  ∀ q w, fs.allocBlock 0 v = .ok (q, w) →
    if q = 0 then fs.word v 0 i = 0 else ∀ k < fs.blockSize / 4, k ≠ i → fs.word w q k = 0

variable {fs : Mount} {v v' w : Volume} {inode inode' : Inode} {r : Resource} {b g i j n q t : Nat}

theorem Image.good (h : fs.Image v) (hr : fs.Reliable) : fs.Good := ⟨hr, h.sized, h.small⟩

theorem Taken.blk_of_outside (h : fs.Taken v r g i v') (hb : fs.Outside v b)
    (hg : g < fs.nbBlockGroups) {x : Nat} (hx : x < fs.blockSize) :
    v'.blk fs b x = v.blk fs b x := by
  have hbitmap := hb.bitmaps r g hg
  have hsuper := hb.super
  have htable := hb.table
  rw [← tableLen] at htable
  rw [Apart] at hbitmap
  exact h.other _ (by omega) (by omega) (by omega)

/-- An allocation leaves such a block as it is. -/
theorem allocBlock_blk (hi : fs.Image v) (hr : fs.Reliable) (hb : fs.Outside v b)
    (h : fs.allocBlock n v = .ok (j, w)) {x : Nat} (hx : x < fs.blockSize) :
    w.blk fs b x = v.blk fs b x := by
  rw [allocBlock] at h
  rcases alloc_cases hi hr .block n with
    ⟨t, -, halloc⟩ | ⟨g, i, u, hg, -, -, halloc, htaken⟩
  · rw [halloc] at h
    cases h
    rfl
  · rw [halloc] at h
    cases h
    exact htaken.blk_of_outside hb hg hx

theorem allocBlock_returns (hi : fs.Image v) (hr : fs.Reliable) (n : Nat) :
    ∃ b w, fs.allocBlock n v = .ok (b, w) ∧ b < 2 ^ 32 ∧ fs.Image w := by
  rcases alloc_cases hi hr .block n with
    ⟨t, -, halloc⟩ | ⟨g, i, w, hg, -, -, halloc, htaken⟩
  · exact ⟨0, _, halloc, by omega, hi.after⟩
  · exact ⟨_, w, halloc, Nat.mod_lt _ (by omega), htaken.image hi hg⟩

/-! ## A volume without free blocks -/

/-- On a drive that answers, the clock has no part in what is found. -/
theorem target_after (hr : fs.Reliable) {left blk u u' : Nat} :
    fs.target r n (v.after t) left blk u = none ↔ fs.target r n v left blk u' = none := by
  induction left generalizing blk u u' with
  | zero => exact iff_of_true rfl rfl
  | succ left ih =>
    simp only [target, hr u, hr u', Volume.after_count, Volume.after_bitmapBlk, Volume.after_blk,
      Volume.after_scanned]
    split
    · exact ih
    · simp only [Option.isSome_none, Bool.false_eq_true, if_false]
      split
      · simp
      · exact ih

/-- An allocation that fails once fails again. -/
theorem allocBlock_zero (hi : fs.Image v) (hr : fs.Reliable)
    (h : fs.allocBlock n v = .ok (0, w)) :
    (∃ t, w = v.after t) ∧ ∀ t, ∃ u, fs.allocBlock n (v.after t) = .ok (0, v.after u) := by
  rw [allocBlock] at h ⊢
  rcases alloc_cases hi hr .block n with
    ⟨t, hchoice, halloc⟩ | ⟨g, i, u, hg, hbit, hclear, halloc, -⟩
  · rw [halloc] at h
    cases h
    refine ⟨⟨t, rfl⟩, fun t => ?_⟩
    have hnone : fs.choice .block n (v.after t) = none := (target_after hr).2 hchoice
    obtain ⟨u, hagain⟩ := alloc_of_none hi.fits ((hi.after (t := t)).scanned_le _) hnone
    exact ⟨u, hagain⟩
  · rw [halloc, Except.ok.injEq, Prod.mk.injEq] at h
    exact absurd h.1 (hi.number_ne_zero hg hbit hclear)

/-! ## The words of the indirect block -/

/-- The word that is looked up is found again, and the other words are as they were read. -/
theorem getOrAllocIndirect_spec (hi : fs.Image v) (hr : fs.Reliable) (inode : Inode)
    (hlt : i < fs.blockSize / 4) :
    ∃ b v', fs.getOrAllocIndirect inode i v = .ok (b, v') ∧
      (∀ k < fs.blockSize / 4, fs.word v' inode.inodeSinglyIndirectBlkPtr k =
        if k = i then b else fs.word v inode.inodeSinglyIndirectBlkPtr k) ∧
      (fs.word v inode.inodeSinglyIndirectBlkPtr i ≠ 0 → v' = v.after (v.transfers + 1)) ∧
      (fs.word v inode.inodeSinglyIndirectBlkPtr i = 0 →
        ∃ w, fs.allocBlock 0 (v.after (v.transfers + 1)) = .ok (b, w)) := by
  have hgood := hi.good hr
  have hread (k) (hk : k < fs.blockSize / 4) :
      ((fs.stale v.transfers).blit 0 fs.blockSize
        (v.blk fs inode.inodeSinglyIndirectBlkPtr)).load (4 * k) 4 =
        fs.word v inode.inodeSinglyIndirectBlkPtr k := by
    apply Mem.load_congr
    intro x _ hx
    rw [Mem.blit_of_mem (by omega) (by omega), Nat.sub_zero]
  simp only [getOrAllocIndirect, hgood.readBlk, hread i hlt]
  split
  · rename_i hzero
    obtain ⟨b, w, halloc, hb, -⟩ := allocBlock_returns (hi.after (t := v.transfers + 1)) hr 0
    rw [show ({ v with transfers := v.transfers + 1 } : Volume) = v.after (v.transfers + 1) from rfl,
      halloc]
    simp only [ok_bind, hgood.writeBlk, Mem.load_store_self]
    rw [Nat.mod_eq_of_lt (show b < 256 ^ 4 from hb)]
    refine ⟨_, _, rfl, fun k hk => ?_, fun hne => absurd hzero hne, fun _ => ⟨w, rfl⟩⟩
    have hwritten : fs.word { w with
          disk := w.disk.blit (fs.blkAddr inode.inodeSinglyIndirectBlkPtr) fs.blockSize
            (((fs.stale v.transfers).blit 0 fs.blockSize
              (v.blk fs inode.inodeSinglyIndirectBlkPtr)).store (4 * i) 4 b)
          transfers := w.transfers + 1 } inode.inodeSinglyIndirectBlkPtr k =
        (((fs.stale v.transfers).blit 0 fs.blockSize
          (v.blk fs inode.inodeSinglyIndirectBlkPtr)).store (4 * i) 4 b).load (4 * k) 4 := by
      apply Mem.load_congr
      intro x _ hx
      exact Volume.blk_of_written rfl (by omega)
    rw [hwritten]
    split
    · rename_i heq
      rw [heq, Mem.load_store_self, Nat.mod_eq_of_lt (show b < 256 ^ 4 from hb)]
    · rename_i hne
      rw [Mem.load_store_of_disjoint (by omega), hread k hk]
  · rename_i hne
    refine ⟨_, _, rfl, fun k hk => ?_, fun _ => rfl, fun hzero => absurd hzero hne⟩
    split
    · rename_i heq
      rw [heq]
      rfl
    · rfl

theorem getOrAllocIndirect_eq_ok (hi : fs.Image v) (hr : fs.Reliable) (hlt : i < fs.blockSize / 4)
    (hget : fs.getOrAllocIndirect inode i v = .ok (b, v')) :
    (∀ k < fs.blockSize / 4, fs.word v' inode.inodeSinglyIndirectBlkPtr k =
      if k = i then b else fs.word v inode.inodeSinglyIndirectBlkPtr k) ∧
      (fs.word v inode.inodeSinglyIndirectBlkPtr i ≠ 0 → v' = v.after (v.transfers + 1)) ∧
      (fs.word v inode.inodeSinglyIndirectBlkPtr i = 0 →
        ∃ w, fs.allocBlock 0 (v.after (v.transfers + 1)) = .ok (b, w)) := by
  obtain ⟨b', w', hok, hspec⟩ := getOrAllocIndirect_spec hi hr inode hlt
  rw [hget] at hok
  cases hok
  exact hspec

/-! ## The two lookups -/

theorem LookupsAgree.of_blockPtr (hg : fs.Good)
    (hfound : b ≠ 0 → v'.blockPtr fs inode' i = b)
    (hothers : ∀ j ≠ i, v'.blockPtr fs inode' j = v.blockPtr fs inode j)
    (hmapped : v.blockPtr fs inode i ≠ 0 →
      inode' = inode ∧ v'.disk = v.disk ∧ v'.sb = v.sb ∧ v'.bgdt = v.bgdt) :
    fs.LookupsAgree v v' inode inode' i b := by
  refine ⟨?_, fun j hj => ?_, ?_⟩
  · rwa [hg.getBlockPtr]
  · rw [hg.getBlockPtr, hg.getBlockPtr]
    exact hothers j hj
  · rwa [hg.getBlockPtr]

theorem blockPtr_of_direct (h : i < 12) : v.blockPtr fs inode i = inode.inodeDirectBlkPtr i :=
  if_pos h

/-- Behind the direct blocks the lookup reads a word of the indirect block, if there is one. -/
theorem blockPtr_of_indirect (h : 12 ≤ i) (hlt : i < 12 + fs.blockSize / 4) :
    v.blockPtr fs inode i = if inode.inodeSinglyIndirectBlkPtr = 0 then 0
      else fs.word v inode.inodeSinglyIndirectBlkPtr (i - 12) := by
  rw [Volume.blockPtr, if_neg (by omega), if_neg (by omega)]
  rfl

theorem blockPtr_of_large (h : 12 + fs.blockSize / 4 ≤ i) : v.blockPtr fs inode i = 0 := by
  rw [Volume.blockPtr, if_neg (by omega), if_pos (by omega)]

theorem blockPtr_of_no_indirect (h : inode.inodeSinglyIndirectBlkPtr = 0) (hge : 12 ≤ i) :
    v.blockPtr fs inode i = 0 := by
  rcases Nat.lt_or_ge i (12 + fs.blockSize / 4) with hin | hout
  · rw [blockPtr_of_indirect hge hin, if_pos h]
  · exact blockPtr_of_large hout

theorem blockPtr_setSingly_of_direct (h : i < 12) :
    v'.blockPtr fs (inode.setSinglyIndirectBlkPtr q) i = v.blockPtr fs inode i := by
  rw [blockPtr_of_direct h, blockPtr_of_direct h, Inode.inodeDirectBlkPtr_setSingly h]

section Branches

variable (hi : fs.Image v) (hr : fs.Reliable)
include hi hr

/-- A direct block that is there. -/
theorem agree_of_direct (hlt : i < 12) (h : inode.inodeDirectBlkPtr i ≠ 0) :
    ∃ b inode' v', fs.getOrAllocBlockPtr inode i v = .ok (b, inode', v') ∧
      fs.LookupsAgree v v' inode inode' i b := by
  refine ⟨_, inode, v, by rw [getOrAllocBlockPtr, if_pos hlt, if_neg h]; rfl, ?_⟩
  exact .of_blockPtr (hi.good hr) (fun _ => blockPtr_of_direct hlt) (fun _ _ => rfl)
    fun _ => ⟨rfl, rfl, rfl, rfl⟩

/-- A direct block that is allocated. -/
theorem agree_of_new_direct (hlt : i < 12) (h : inode.inodeDirectBlkPtr i = 0)
    (hout : inode.inodeSinglyIndirectBlkPtr ≠ 0 → fs.Outside v inode.inodeSinglyIndirectBlkPtr) :
    ∃ b inode' v', fs.getOrAllocBlockPtr inode i v = .ok (b, inode', v') ∧
      fs.LookupsAgree v v' inode inode' i b := by
  obtain ⟨b, w, halloc, -, -⟩ := allocBlock_returns hi hr 0
  refine ⟨_, inode.setDirectBlkPtr i b, w,
    by rw [getOrAllocBlockPtr, if_pos hlt, if_pos h, halloc]; rfl, ?_⟩
  refine .of_blockPtr (hi.good hr) (fun _ => blockPtr_of_direct hlt) (fun j hj => ?_)
    fun hmapped => ?_
  · have hindirect := inode.inodeSinglyIndirectBlkPtr_setDirect b hlt
    rcases Nat.lt_or_ge j 12 with hj12 | hj12
    · rw [blockPtr_of_direct hj12, blockPtr_of_direct hj12, Inode.inodeDirectBlkPtr_set_of_ne hj]
    rcases Nat.lt_or_ge j (12 + fs.blockSize / 4) with hin | hout'
    · rw [blockPtr_of_indirect hj12 hin, blockPtr_of_indirect hj12 hin, hindirect]
      split
      · rfl
      · rename_i hne
        apply Mem.load_congr
        intro x _ hx
        exact allocBlock_blk hi hr (hout hne) halloc (by omega)
    · rw [blockPtr_of_large hout', blockPtr_of_large hout']
  · rw [blockPtr_of_direct hlt, h] at hmapped
    exact absurd rfl hmapped

/-- A word of an indirect block that is there. -/
theorem agree_of_indirect (hge : 12 ≤ i) (hlt : i < 12 + fs.blockSize / 4)
    (h : inode.inodeSinglyIndirectBlkPtr ≠ 0) :
    ∃ b inode' v', fs.getOrAllocBlockPtr inode i v = .ok (b, inode', v') ∧
      fs.LookupsAgree v v' inode inode' i b := by
  obtain ⟨b, v', hget, hwords, hsame, -⟩ := getOrAllocIndirect_spec hi hr inode
    (show i - 12 < fs.blockSize / 4 by omega)
  refine ⟨b, inode, v', ?_, ?_⟩
  · rw [getOrAllocBlockPtr, if_neg (by omega), if_neg (by omega), if_neg h, hget]
    rfl
  refine .of_blockPtr (hi.good hr) (fun _ => ?_) (fun j hj => ?_) fun hmapped => ?_
  · rw [blockPtr_of_indirect hge hlt, if_neg h, hwords _ (by omega), if_pos rfl]
  · rcases Nat.lt_or_ge j 12 with hj12 | hj12
    · rw [blockPtr_of_direct hj12, blockPtr_of_direct hj12]
    rcases Nat.lt_or_ge j (12 + fs.blockSize / 4) with hin | hout
    · rw [blockPtr_of_indirect hj12 hin, blockPtr_of_indirect hj12 hin, if_neg h, if_neg h,
        hwords _ (by omega), if_neg (by omega)]
    · rw [blockPtr_of_large hout, blockPtr_of_large hout]
  · rw [blockPtr_of_indirect hge hlt, if_neg h] at hmapped
    rw [hsame hmapped]
    exact ⟨rfl, rfl, rfl, rfl⟩

/-- No block is to be had: the word comes from block 0, and the inode has no pointer to it. -/
theorem agree_iff_without_block (hge : 12 ≤ i) (hlt : i < 12 + fs.blockSize / 4)
    (h : inode.inodeSinglyIndirectBlkPtr = 0) (halloc : fs.allocBlock 0 v = .ok (0, w))
    (hget : fs.getOrAllocIndirect (inode.setSinglyIndirectBlkPtr 0) (i - 12) w = .ok (b, v')) :
    fs.LookupsAgree v v' inode (inode.setSinglyIndirectBlkPtr 0) i b ↔
      fs.word v 0 (i - 12) = 0 := by
  have hgood := hi.good hr
  have hlast : i - 12 < fs.blockSize / 4 := by omega
  obtain ⟨⟨t, rfl⟩, hfails⟩ := allocBlock_zero hi hr halloc
  obtain ⟨hwords, hsame, hagain⟩ := getOrAllocIndirect_eq_ok hi.after hr hlast hget
  rw [Inode.inodeSinglyIndirectBlkPtr_setSingly, Nat.zero_mod] at hwords hsame hagain
  have hnone (j) (hj : 12 ≤ j) : v'.blockPtr fs (inode.setSinglyIndirectBlkPtr 0) j = 0 :=
    blockPtr_of_no_indirect Inode.inodeSinglyIndirectBlkPtr_setSingly hj
  constructor
  · intro hagree
    by_contra hword
    have hb : b = fs.word v 0 (i - 12) := by
      have hsame := hsame hword
      have hb := hwords _ hlast
      rw [if_pos rfl, hsame] at hb
      exact hb.symm
    have hfound := hagree.found (by rwa [hb])
    rw [hgood.getBlockPtr, hnone i hge] at hfound
    exact hword (by rw [← hb, ← hfound])
  · intro hword
    obtain ⟨w', hok⟩ := hagain hword
    obtain ⟨u, hzero⟩ := hfails (t + 1)
    rw [show (v.after t).after ((v.after t).transfers + 1) = v.after (t + 1) from rfl, hzero] at hok
    cases hok
    refine .of_blockPtr hgood (fun hne => absurd rfl hne) (fun j _ => ?_) fun hmapped => ?_
    · rcases Nat.lt_or_ge j 12 with hj | hj
      · exact blockPtr_setSingly_of_direct hj
      · rw [hnone j hj, blockPtr_of_no_indirect h hj]
    · exact absurd (blockPtr_of_no_indirect h hge) hmapped

/-- A new block: its other words are looked up as they are. -/
theorem agree_iff_with_block (hge : 12 ≤ i) (hlt : i < 12 + fs.blockSize / 4)
    (h : inode.inodeSinglyIndirectBlkPtr = 0) (hw : fs.Image w) (hq : q < 2 ^ 32) (hne : q ≠ 0)
    (hget : fs.getOrAllocIndirect (inode.setSinglyIndirectBlkPtr q) (i - 12) w = .ok (b, v')) :
    fs.LookupsAgree v v' inode (inode.setSinglyIndirectBlkPtr q) i b ↔
      ∀ k < fs.blockSize / 4, k ≠ i - 12 → fs.word w q k = 0 := by
  have hgood := hi.good hr
  have hlast : i - 12 < fs.blockSize / 4 := by omega
  obtain ⟨hwords, -, -⟩ := getOrAllocIndirect_eq_ok hw hr hlast hget
  rw [Inode.inodeSinglyIndirectBlkPtr_setSingly, Nat.mod_eq_of_lt hq] at hwords
  have hafter (j) (hj : 12 ≤ j) (hin : j < 12 + fs.blockSize / 4) :
      v'.blockPtr fs (inode.setSinglyIndirectBlkPtr q) j =
        if j - 12 = i - 12 then b else fs.word w q (j - 12) := by
    rw [blockPtr_of_indirect hj hin, Inode.inodeSinglyIndirectBlkPtr_setSingly,
      Nat.mod_eq_of_lt hq, if_neg hne, hwords _ (by omega)]
  constructor
  · intro hagree k hk hother
    have hothers := hagree.others (k + 12) (by omega)
    rwa [hgood.getBlockPtr, hgood.getBlockPtr, blockPtr_of_no_indirect h (by omega),
      hafter _ (by omega) (by omega), Nat.add_sub_cancel, if_neg hother] at hothers
  · intro hzero
    refine .of_blockPtr hgood (fun _ => ?_) (fun j hj => ?_) fun hmapped => ?_
    · rw [hafter i hge hlt, if_pos rfl]
    · rcases Nat.lt_or_ge j 12 with hj12 | hj12
      · exact blockPtr_setSingly_of_direct hj12
      rw [blockPtr_of_no_indirect h hj12]
      rcases Nat.lt_or_ge j (12 + fs.blockSize / 4) with hin | hout
      · rw [hafter j hj12 hin, if_neg (by omega)]
        exact hzero _ (by omega) (by omega)
      · exact blockPtr_of_large hout
    · exact absurd (blockPtr_of_no_indirect h hge) hmapped

/-- A new indirect block is read as it is. -/
theorem agree_iff_of_new_indirect (hge : 12 ≤ i) (hlt : i < 12 + fs.blockSize / 4)
    (h : inode.inodeSinglyIndirectBlkPtr = 0) :
    (∃ b inode' v', fs.getOrAllocBlockPtr inode i v = .ok (b, inode', v') ∧
      fs.LookupsAgree v v' inode inode' i b) ↔ fs.NoStaleWord v (i - 12) := by
  obtain ⟨q, w, halloc, hq, hw⟩ := allocBlock_returns hi hr 0
  obtain ⟨b, v', hget, -⟩ := getOrAllocIndirect_spec hw hr (inode.setSinglyIndirectBlkPtr q)
    (show i - 12 < fs.blockSize / 4 by omega)
  have hcode : fs.getOrAllocBlockPtr inode i v =
      .ok (b, inode.setSinglyIndirectBlkPtr q, v') := by
    rw [getOrAllocBlockPtr, if_neg (by omega), if_neg (by omega), if_pos h, halloc, ok_bind]
    simp only [hget, ok_bind]
    rfl
  have hstale : fs.NoStaleWord v (i - 12) ↔ if q = 0 then fs.word v 0 (i - 12) = 0
      else ∀ k < fs.blockSize / 4, k ≠ i - 12 → fs.word w q k = 0 := by
    refine ⟨fun hno => hno q w halloc, fun hno q' w' halloc' => ?_⟩
    rw [halloc] at halloc'
    cases halloc'
    exact hno
  have houtcome : (∃ b inode' v', fs.getOrAllocBlockPtr inode i v = .ok (b, inode', v') ∧
      fs.LookupsAgree v v' inode inode' i b) ↔
        fs.LookupsAgree v v' inode (inode.setSinglyIndirectBlkPtr q) i b := by
    rw [hcode]
    refine ⟨fun ⟨_, _, _, hok, hagree⟩ => ?_, fun hagree => ⟨_, _, _, rfl, hagree⟩⟩
    cases hok
    exact hagree
  rw [houtcome, hstale]
  rcases eq_or_ne q 0 with rfl | hne
  · rw [if_pos rfl]
    exact agree_iff_without_block hi hr hge hlt h halloc hget
  · rw [if_neg hne]
    exact agree_iff_with_block hi hr hge hlt h hw hq hne hget

end Branches

/-- The lookups agree, unless a new indirect block brings words of its own. -/
theorem block_lookups_agree (hi : fs.Image v) (hr : fs.Reliable)
    (hout : inode.inodeSinglyIndirectBlkPtr ≠ 0 → fs.Outside v inode.inodeSinglyIndirectBlkPtr)
    (hlt : i < 12 + fs.blockSize / 4) :
    (∃ b inode' v', fs.getOrAllocBlockPtr inode i v = .ok (b, inode', v') ∧
      fs.LookupsAgree v v' inode inode' i b) ↔
      (12 ≤ i → inode.inodeSinglyIndirectBlkPtr = 0 → fs.NoStaleWord v (i - 12)) := by
  rcases Nat.lt_or_ge i 12 with hdirect | hge
  · refine iff_of_true ?_ fun hge => absurd hge (by omega)
    rcases eq_or_ne (inode.inodeDirectBlkPtr i) 0 with hzero | hne
    · exact agree_of_new_direct hi hr hdirect hzero hout
    · exact agree_of_direct hi hr hdirect hne
  · rcases eq_or_ne inode.inodeSinglyIndirectBlkPtr 0 with hzero | hne
    · rw [agree_iff_of_new_indirect hi hr hge hlt hzero]
      exact ⟨fun hstale _ _ => hstale, fun hstale => hstale hge hzero⟩
    · exact iff_of_true (agree_of_indirect hi hr hge hlt hne) fun _ hzero => absurd hzero hne

/-! ## A free block with old words -/

/-- An inode without blocks. -/
def emptyInode : Inode := ⟨fun _ => 0, 11⟩

theorem block_lookups_agree_direct :
    ∃ b inode' v', tinyMount.getOrAllocBlockPtr emptyInode 0 countedVolume = .ok (b, inode', v') ∧
      tinyMount.LookupsAgree countedVolume v' emptyInode inode' 0 b :=
  (block_lookups_agree countedVolume_image (fun _ _ => rfl) (fun h => absurd rfl h)
    (by decide)).2 fun h => absurd h (by decide)

/-- `countedVolume` with two old words in the free block. -/
def staleVolume : Volume :=
  { countedVolume with
    disk := fun x => if x = 5120 ∨ x = 5124 then 7 else countedVolume.disk x }

theorem staleVolume_image : tinyMount.Image staleVolume := by
  apply SameMeta.image (v := countedVolume) _ countedVolume_image
  have hdisk (x) (hx : x < 5120) : staleVolume.disk x = countedVolume.disk x := by
    simp only [staleVolume]
    exact if_neg (by omega)
  refine ⟨rfl, rfl, fun r g hg x hx => ?_, fun x hx => hdisk (1024 + x) (by omega),
    fun x hx => hdisk (2048 + x) (by have hx : x < 32 := hx; omega)⟩
  have hx : x < 1024 := hx
  obtain rfl : g = 0 := Nat.lt_one_iff.1 hg
  rw [countedVolume_bitmapBlk]
  cases r with
  | block => exact hdisk (3072 + x) (by omega)
  | inode => exact hdisk (4096 + x) (by omega)

/-- Block 5 becomes the indirect block with its old words: the first is found for index 12,
and the second appears behind index 13. -/
theorem stale_word_found :
    tinyMount.Image staleVolume ∧
      ∃ inode' v', tinyMount.getOrAllocBlockPtr emptyInode 12 staleVolume = .ok (7, inode', v') ∧
        (tinyMount.getBlockPtr emptyInode 13 staleVolume).1 = 0 ∧
        (tinyMount.getBlockPtr inode' 13 v').1 = 7 := by
  have hrun : ((tinyMount.getOrAllocBlockPtr emptyInode 12 staleVolume).toOption.any fun p =>
      decide (p.1 = 7 ∧ (tinyMount.getBlockPtr p.2.1 13 p.2.2).1 = 7)) = true := by decide
  obtain ⟨⟨b, inode', v'⟩, hok, hp⟩ := toOption_any.1 hrun
  obtain ⟨hb, hnext⟩ := of_decide_eq_true hp
  obtain rfl : b = 7 := hb
  exact ⟨staleVolume_image, inode', v', hok, by decide, hnext⟩

end Mount

end Kaku

-- SUMMARY: Which blocks belong to whom on a consistent volume, and what the steps of the driver make of it.
import Kaku.Fs.BlockPtr
import Kaku.Fs.FreeBits
import Kaku.Fs.InodeRoundTrip
import Kaku.Fs.Listing

/-!
# Ownership of blocks

On a consistent volume every block of an inode is marked in a bitmap, belongs to that
inode alone, and shares no sector with the metadata. An allocation finds a block that
belongs to nobody, and a write to a block is seen by its owner only.
-/

namespace Kaku

/-! ## Geometry -/

/-- The fields of superblock and table that never change. -/
structure SameLayout (v v' : Volume) : Prop where
  inodesCount : v'.sbInodesCount = v.sbInodesCount
  blocksCount : v'.sbBlocksCount = v.sbBlocksCount
  blockNbOfSb : v'.sbBlockNbOfSb = v.sbBlockNbOfSb
  blocksInGroup : v'.sbNbBlocksInGroup = v.sbNbBlocksInGroup
  inodesInGroup : v'.sbNbInodesInGroup = v.sbNbInodesInGroup
  bitmapBlk : ∀ r g, v'.bitmapBlk r g = v.bitmapBlk r g
  inodeTableBlk : ∀ g, v'.inodeTableBlk g = v.inodeTableBlk g

namespace SameLayout

variable {v v' w : Volume}

theorem refl : SameLayout v v := ⟨rfl, rfl, rfl, rfl, rfl, fun _ _ => rfl, fun _ => rfl⟩

theorem trans (h : SameLayout v v') (h' : SameLayout v' w) : SameLayout v w where
  inodesCount := h'.inodesCount.trans h.inodesCount
  blocksCount := h'.blocksCount.trans h.blocksCount
  blockNbOfSb := h'.blockNbOfSb.trans h.blockNbOfSb
  blocksInGroup := h'.blocksInGroup.trans h.blocksInGroup
  inodesInGroup := h'.inodesInGroup.trans h.inodesInGroup
  bitmapBlk r g := (h'.bitmapBlk r g).trans (h.bitmapBlk r g)
  inodeTableBlk g := (h'.inodeTableBlk g).trans (h.inodeTableBlk g)

theorem of_eq (hsb : v'.sb = v.sb) (hbgdt : v'.bgdt = v.bgdt) : SameLayout v v' where
  inodesCount := by rw [Volume.sbInodesCount, hsb]; rfl
  blocksCount := by rw [Volume.sbBlocksCount, hsb]; rfl
  blockNbOfSb := by rw [Volume.sbBlockNbOfSb, hsb]; rfl
  blocksInGroup := by rw [Volume.sbNbBlocksInGroup, hsb]; rfl
  inodesInGroup := by rw [Volume.sbNbInodesInGroup, hsb]; rfl
  bitmapBlk r g := by rw [Volume.bitmapBlk, hbgdt]; rfl
  inodeTableBlk g := by rw [Volume.inodeTableBlk, hbgdt]; rfl

theorem standsFor (h : SameLayout v v') (r : Resource) (g i : Nat) :
    r.standsFor v' g i = r.standsFor v g i := by
  cases r with
  | block => rw [Resource.standsFor, Resource.standsFor, h.blockNbOfSb, h.blocksInGroup]
  | inode => rw [Resource.standsFor, Resource.standsFor, h.inodesInGroup]

end SameLayout

namespace Mount

variable {fs : Mount} {v v' w : Volume} {r : Resource} {g i b c k t : Nat}

theorem Taken.sameLayout (h : fs.Taken v r g i v') : SameLayout v v' where
  inodesCount := h.sb_load (by omega)
  blocksCount := h.sb_load (by omega)
  blockNbOfSb := h.sb_load (by omega)
  blocksInGroup := h.sb_load (by omega)
  inodesInGroup := h.sb_load (by omega)
  bitmapBlk := h.bitmapBlk
  inodeTableBlk grp := by
    rw [Volume.inodeTableBlk, Volume.inodeTableBlk, h.bgdt]
    apply Mem.load_store_of_disjoint
    cases r <;> simp only [Resource.countField] <;> omega

theorem SameMeta.sameLayout (h : fs.SameMeta v v') : SameLayout v v' := .of_eq h.sb h.bgdt

theorem InodeTables.congr (h : fs.InodeTables v) (hl : SameLayout v v') : fs.InodeTables v' := by
  have hblocks : fs.inodeTableBlocks v' = fs.inodeTableBlocks v := by
    rw [inodeTableBlocks, inodeTableBlocks, hl.inodesInGroup]
  refine ⟨h.good, ?_, h.slot, h.divides, fun g hg => ?_, fun g hg k hk hne => ?_, ?_⟩
  · rw [hl.blocksCount]
    exact h.volume
  · rw [hl.inodeTableBlk, hblocks, hl.blocksCount]
    exact h.inside g hg
  · rw [hl.inodeTableBlk, hl.inodeTableBlk, hblocks]
    exact h.disjoint g hg k hk hne
  · rw [hl.inodesCount, hl.inodesInGroup]
    exact h.count

/-! ## Blocks for data -/

/-- A block of an inode table. -/
def InTable (fs : Mount) (v : Volume) (b : Nat) : Prop :=
  ∃ g < fs.nbBlockGroups, v.inodeTableBlk g ≤ b ∧ b < v.inodeTableBlk g + fs.inodeTableBlocks v

/-- A block of the volume that holds no metadata. -/
structure Data (fs : Mount) (v : Volume) (b : Nat) : Prop where
  lt : b < v.sbBlocksCount
  outside : fs.Outside v b
  notTable : ¬ fs.InTable v b

/-- The bit of a block is set. -/
def Used (fs : Mount) (v : Volume) (b : Nat) : Prop :=
  ∃ g i, g < fs.nbBlockGroups ∧ i < 8 * fs.blockSize ∧ i < v.sbNbBlocksInGroup ∧
    b = Resource.standsFor .block v g i ∧ fs.bitOf v v .block g i = true

/-- The free blocks, in the order in which they are taken. -/
def freeBlks (fs : Mount) (v : Volume) : List Nat :=
  (fs.freeBits v .block).map fun p => Resource.standsFor .block v p.1 p.2

theorem Outside.congr (h : fs.Outside v b) (hl : SameLayout v v') : fs.Outside v' b := by
  refine ⟨fun r g hg => ?_, h.super, h.table⟩
  rw [hl.bitmapBlk]
  exact h.bitmaps r g hg

theorem inTable_congr (hl : SameLayout v v') : fs.InTable v' b ↔ fs.InTable v b := by
  simp only [InTable, hl.inodeTableBlk, inodeTableBlocks, hl.inodesInGroup]

theorem Data.congr (h : fs.Data v b) (hl : SameLayout v v') : fs.Data v' b := by
  refine ⟨?_, h.outside.congr hl, ?_⟩
  · rw [hl.blocksCount]
    exact h.lt
  · rw [inTable_congr hl]
    exact h.notTable

theorem Data.apart (h : fs.Data v b) (ht : fs.InodeTables v) (hc : fs.Data v c) (hne : b ≠ c) :
    fs.Apart b c := ht.good.sized.apart ht.volume h.lt hc.lt hne

theorem InTable.lt (h : fs.InTable v b) (ht : fs.InodeTables v) : b < v.sbBlocksCount := by
  obtain ⟨g, hg, -, hb⟩ := h
  have hin := ht.inside g hg
  omega

theorem Data.apart_table (h : fs.Data v b) (ht : fs.InodeTables v) (hc : fs.InTable v c) :
    fs.Apart b c := by
  apply ht.good.sized.apart ht.volume h.lt (hc.lt ht)
  rintro rfl
  exact h.notTable hc

/-! ## What a step leaves alone -/

/-- Inode tables, inode bitmaps and all blocks for data but some stay as they are. -/
structure Frame (fs : Mount) (v v' : Volume) (touched : Set Nat) : Prop where
  layout : SameLayout v v'
  tables : ∀ c, fs.InTable v c → ∀ x < fs.blockSize, v'.blk fs c x = v.blk fs c x
  inodeBits : ∀ g < fs.nbBlockGroups, ∀ j < 8 * fs.blockSize,
    fs.bitOf v' v' .inode g j = fs.bitOf v v .inode g j
  data : ∀ c, fs.Data v c → c ∉ touched → ∀ x < fs.blockSize, v'.blk fs c x = v.blk fs c x

namespace Frame

variable {s s' : Set Nat}

theorem trans (h : fs.Frame v v' s) (h' : fs.Frame v' w s') : fs.Frame v w (s ∪ s') where
  layout := h.layout.trans h'.layout
  tables c hc x hx := by
    rw [h'.tables c ((inTable_congr h.layout).2 hc) x hx, h.tables c hc x hx]
  inodeBits g hg j hj := (h'.inodeBits g hg j hj).trans (h.inodeBits g hg j hj)
  data c hc hout x hx := by
    rw [Set.mem_union, not_or] at hout
    rw [h'.data c (hc.congr h.layout) hout.2 x hx, h.data c hc hout.1 x hx]

theorem mono (h : fs.Frame v v' s) (hs : s ⊆ s') : fs.Frame v v' s' :=
  ⟨h.layout, h.tables, h.inodeBits, fun c hc hout => h.data c hc fun hin => hout (hs hin)⟩

theorem after : fs.Frame v (v.after t) ∅ :=
  ⟨.of_eq rfl rfl, fun _ _ _ _ => rfl, fun _ _ _ _ => rfl, fun _ _ _ _ _ => rfl⟩

end Frame

/-- The blocks outside of the other metadata are not changed by an allocation. -/
theorem Taken.frame (h : fs.Taken v .block g i v') (hl : fs.Layout v) (hg : g < fs.nbBlockGroups)
    (ht : ∀ c, fs.InTable v c → fs.Outside v c) : fs.Frame v v' ∅ where
  layout := h.sameLayout
  tables c hc x hx := h.blk_of_outside (ht c hc) hg hx
  inodeBits g' hg' j hj := by
    rw [h.bitOf_self .inode hl hg hg' hj]
    simp
  data c hc _ x hx := h.blk_of_outside hc.outside hg hx

/-- The volume after a block has been written. -/
structure Written (fs : Mount) (v : Volume) (b : Nat) (buf : Mem) (v' : Volume) : Prop where
  disk : v'.disk = v.disk.blit (fs.blkAddr b) fs.blockSize buf
  sb : v'.sb = v.sb
  bgdt : v'.bgdt = v.bgdt

namespace Written

variable {buf : Mem}

theorem sameLayout (h : fs.Written v b buf v') : SameLayout v v' := .of_eq h.sb h.bgdt

theorem sameMeta (h : fs.Written v b buf v') (hi : fs.Image v) (hb : fs.Outside v b) :
    fs.SameMeta v v' := by
  have hsize := hi.bgdtSize_eq
  have hfits := hi.tableFits
  have htable := hb.table
  have hsuper := hb.super
  rw [ceilDiv, addr32, hsize] at htable
  rw [ataSectorSize] at hfits htable
  refine ⟨h.sb, h.bgdt, fun r g hg x hx => ?_, fun x hx => ?_, fun x hx => ?_⟩
  · exact Volume.blk_of_apart h.disk (hb.bitmaps r g hg).symm hx
  · rw [h.disk, Mem.blit_of_not_mem (by omega)]
  · rw [h.disk, Mem.blit_of_not_mem (by omega)]

theorem frame (h : fs.Written v b buf v') (hi : fs.Image v) (ht : fs.InodeTables v)
    (hb : fs.Data v b) : fs.Frame v v' {b} where
  layout := h.sameLayout
  tables _ hc _ hx := Volume.blk_of_apart h.disk (hb.apart_table ht hc) hx
  inodeBits _ hg _ hj := (h.sameMeta hi hb.outside).bitOf hg hj
  data _ hc hne _ hx := Volume.blk_of_apart h.disk (hb.apart ht hc fun heq => hne heq.symm) hx

end Written

/-! ## Blocks of files -/

end Mount

/-- A block that an inode refers to: behind an index, or its indirect block. -/
def Volume.fileBlk (v : Volume) (fs : Mount) (inode : Inode) : Option Nat → Nat
  | none => inode.inodeSinglyIndirectBlkPtr
  | some i => v.blockPtr fs inode i

namespace Mount

/-- The blocks that an inode of a table refers to. The inodes of a table are those on the
drive, or also those that somebody holds. -/
def refBlk {ι : Type} (fs : Mount) (v : Volume) (tbl : ι → Option Inode) (k : ι) (s : Option Nat) :
    Nat :=
  match tbl k with
  | none => 0
  | some inode => v.fileBlk fs inode s

/-- Whose number stands at a place of a table. -/
def whose {ι : Type} (tbl : ι → Option Inode) (k : ι) : Option Nat := (tbl k).map Inode.inodeId

/-- Everything the driver relies on. The blocks that the inodes of the table refer to are
marked, and no block is referred to twice, but by inodes of one number in the same place. A
free block holds no metadata. -/
structure Owned {ι : Type} (fs : Mount) (v : Volume) (tbl : ι → Option Inode) : Prop where
  image : fs.Image v
  inStep : fs.InStep v
  tables : fs.InodeTables v
  tablesOutside : ∀ c, fs.InTable v c → fs.Outside v c
  free : ∀ b ∈ fs.freeBlks v, fs.Data v b
  data : ∀ k s, fs.refBlk v tbl k s ≠ 0 → fs.Data v (fs.refBlk v tbl k s)
  used : ∀ k s, fs.refBlk v tbl k s ≠ 0 → fs.Used v (fs.refBlk v tbl k s)
  once : ∀ k s k' s', fs.refBlk v tbl k s ≠ 0 → fs.refBlk v tbl k s = fs.refBlk v tbl k' s' →
    (whose tbl k, s) = (whose tbl k', s')

/-- A marked block that nobody refers to. -/
structure Fresh {ι : Type} (fs : Mount) (v : Volume) (tbl : ι → Option Inode) (b : Nat) : Prop where
  ne_zero : b ≠ 0
  data : fs.Data v b
  used : fs.Used v b
  unowned : ∀ k s, fs.refBlk v tbl k s ≠ b

variable {ι : Type} {fs : Mount} {v v' w : Volume} {r : Resource} {g i b c t : Nat} {k : ι}
  {tbl tbl' : ι → Option Inode} {inode : Inode} {s : Option Nat} {touched : Set Nat}
  {rest : List Nat} {buf : Mem}

theorem refBlk_some (h : tbl k = some inode) : fs.refBlk v tbl k s = v.fileBlk fs inode s := by
  rw [refBlk, h]

theorem refBlk_none (h : tbl k = none) : fs.refBlk v tbl k s = 0 := by rw [refBlk, h]

/-- What an inode refers to depends on its indirect block only. -/
theorem fileBlk_congr (h : inode.inodeSinglyIndirectBlkPtr ≠ 0 → ∀ x < fs.blockSize,
    v'.blk fs inode.inodeSinglyIndirectBlkPtr x = v.blk fs inode.inodeSinglyIndirectBlkPtr x) :
    v'.fileBlk fs inode s = v.fileBlk fs inode s := by
  cases s with
  | none => rfl
  | some i => exact Volume.blockPtr_congr fun _ hne => h hne

/-- The references of an inode whose indirect block is as it was. -/
theorem refBlk_congr (h : fs.refBlk v tbl k none ≠ 0 → ∀ x < fs.blockSize,
    v'.blk fs (fs.refBlk v tbl k none) x = v.blk fs (fs.refBlk v tbl k none) x) :
    fs.refBlk v' tbl k s = fs.refBlk v tbl k s := by
  cases hk : tbl k with
  | none => rw [refBlk_none hk, refBlk_none hk]
  | some inode =>
    rw [refBlk_some hk] at h
    rw [refBlk_some hk, refBlk_some hk]
    exact fileBlk_congr h

theorem SameMeta.used (h : fs.SameMeta v v') (hb : fs.Used v b) : fs.Used v' b := by
  obtain ⟨g, i, hg, hi, hlt, hstands, hset⟩ := hb
  refine ⟨g, i, hg, hi, ?_, ?_, ?_⟩
  · rwa [h.sameLayout.blocksInGroup]
  · rw [h.sameLayout.standsFor, hstands]
  · rw [h.bitOf hg hi, hset]

theorem SameMeta.freeBlks (h : fs.SameMeta v v') : fs.freeBlks v' = fs.freeBlks v := by
  rw [Mount.freeBlks, Mount.freeBlks, h.freeBits]
  exact List.map_congr_left fun p _ => h.sameLayout.standsFor .block p.1 p.2

namespace Owned

theorem good (h : fs.Owned v tbl) : fs.Good := h.tables.good

/-- A change that leaves all references as they are. -/
theorem same (h : fs.Owned v tbl) (hm : fs.SameMeta v v')
    (hwhose : ∀ k, whose tbl' k = whose tbl k)
    (hrefs : ∀ k s, fs.refBlk v' tbl' k s = fs.refBlk v tbl k s) : fs.Owned v' tbl' where
  image := hm.image h.image
  inStep := hm.inStep h.inStep
  tables := h.tables.congr hm.sameLayout
  tablesOutside c hc :=
    (h.tablesOutside c ((inTable_congr hm.sameLayout).1 hc)).congr hm.sameLayout
  free b hb := by
    rw [hm.freeBlks] at hb
    exact (h.free b hb).congr hm.sameLayout
  data k s hne := by
    rw [hrefs] at hne ⊢
    exact (h.data k s hne).congr hm.sameLayout
  used k s hne := by
    rw [hrefs] at hne ⊢
    exact hm.used (h.used k s hne)
  once k s k' s' hne heq := by
    rw [hrefs] at hne
    rw [hrefs, hrefs] at heq
    rw [hwhose, hwhose]
    exact h.once k s k' s' hne heq

/-- The inodes of one number get a reference to a block that belonged to nobody. -/
theorem set (h : fs.Owned v tbl) (hm : fs.SameMeta v v') (hb : fs.Fresh v tbl b)
    (number s : Option Nat) (hwhose : ∀ k, whose tbl' k = whose tbl k)
    (hrefs : ∀ k' s', fs.refBlk v' tbl' k' s' = fs.refBlk v tbl k' s' ∨
      fs.refBlk v' tbl' k' s' = b ∧ whose tbl k' = number ∧ s' = s) : fs.Owned v' tbl' where
  image := hm.image h.image
  inStep := hm.inStep h.inStep
  tables := h.tables.congr hm.sameLayout
  tablesOutside c hc :=
    (h.tablesOutside c ((inTable_congr hm.sameLayout).1 hc)).congr hm.sameLayout
  free c hc := by
    rw [hm.freeBlks] at hc
    exact (h.free c hc).congr hm.sameLayout
  data k' s' hne := by
    rcases hrefs k' s' with hold | ⟨hnew, -⟩
    · rw [hold] at hne ⊢
      exact (h.data k' s' hne).congr hm.sameLayout
    · rw [hnew]
      exact hb.data.congr hm.sameLayout
  used k' s' hne := by
    rcases hrefs k' s' with hold | ⟨hnew, -⟩
    · rw [hold] at hne ⊢
      exact hm.used (h.used k' s' hne)
    · rw [hnew]
      exact hm.used hb.used
  once k₁ s₁ k₂ s₂ hne heq := by
    rw [hwhose, hwhose]
    rcases hrefs k₁ s₁ with h₁ | ⟨h₁, hwho₁, rfl⟩ <;> rcases hrefs k₂ s₂ with h₂ | ⟨h₂, hwho₂, rfl⟩
    · rw [h₁] at hne
      rw [h₁, h₂] at heq
      exact h.once k₁ s₁ k₂ s₂ hne heq
    · exact absurd (h₁.symm.trans (heq.trans h₂)) (hb.unowned k₁ s₁)
    · exact absurd (h₂.symm.trans (heq.symm.trans h₁)) (hb.unowned k₂ s₂)
    · rw [hwho₁, hwho₂]

/-- Only the owner of an indirect block sees it change. -/
theorem refBlk_frame (h : fs.Owned v tbl) (hf : fs.Frame v v' touched)
    (hout : fs.refBlk v tbl k none ∉ touched) : fs.refBlk v' tbl k s = fs.refBlk v tbl k s :=
  refBlk_congr fun hne => hf.data _ (h.data k none hne) hout

/-- Writing a block that is nobody's indirect block. -/
theorem written (h : fs.Owned v tbl) (hw : fs.Written v b buf v') (hb : fs.Data v b)
    (hind : ∀ k, fs.refBlk v tbl k none ≠ b) : fs.Owned v' tbl :=
  h.same (hw.sameMeta h.image hb.outside) (fun _ => rfl) fun k _ =>
    h.refBlk_frame (hw.frame h.image h.tables hb) fun hin => hind k hin

end Owned

/-! ## Allocations -/

theorem eq_of_mul_add_eq {a b c d n : Nat} (h : a * n + b = c * n + d) (hb : b < n) (hd : d < n) :
    a = c ∧ b = d := by
  have hpos : 0 < n := by omega
  have hmod := congrArg (· % n) h
  simp only [Nat.mul_add_mod_self_right, Nat.mod_eq_of_lt hb, Nat.mod_eq_of_lt hd] at hmod
  subst hmod
  exact ⟨Nat.eq_of_mul_eq_mul_right hpos (Nat.add_right_cancel h), rfl⟩

theorem Taken.used (h : fs.Taken v r g i v') (hl : fs.Layout v) (hg : g < fs.nbBlockGroups)
    (hb : fs.Used v b) : fs.Used v' b := by
  obtain ⟨g', i', hg', hi', hlt, hstands, hset⟩ := hb
  refine ⟨g', i', hg', hi', ?_, ?_, ?_⟩
  · rwa [h.sameLayout.blocksInGroup]
  · rw [h.sameLayout.standsFor, hstands]
  · rw [h.bitOf_self .block hl hg hg' hi', hset, Bool.true_or]

/-- No reference is changed by an allocation. -/
theorem Owned.refBlk_taken (h : fs.Owned v tbl) (ht : fs.Taken v r g i v')
    (hg : g < fs.nbBlockGroups) : fs.refBlk v' tbl k s = fs.refBlk v tbl k s :=
  refBlk_congr fun hne _ hx => ht.blk_of_outside (h.data k none hne).outside hg hx

theorem Owned.taken (h : fs.Owned v tbl) (ht : fs.Taken v r g i v') (hg : g < fs.nbBlockGroups)
    (hi : i < 8 * fs.blockSize) (hclear : fs.bitOf v v r g i = false) : fs.Owned v' tbl where
  image := ht.image h.image hg
  inStep := ht.inStep h.image h.inStep hg hi hclear
  tables := h.tables.congr ht.sameLayout
  tablesOutside c hc :=
    (h.tablesOutside c ((inTable_congr ht.sameLayout).1 hc)).congr ht.sameLayout
  free b hb := by
    obtain ⟨⟨g', i'⟩, hmem, rfl⟩ := List.mem_map.1 hb
    obtain ⟨hg', hi', hclear'⟩ := mem_freeBits.1 hmem
    have hbefore := ht.clear_of_clear h.image.layout hg hg' hi' hclear'
    rw [ht.sameLayout.standsFor]
    apply Data.congr _ ht.sameLayout
    exact h.free _ (List.mem_map.2 ⟨(g', i'), mem_freeBits.2 ⟨hg', hi', hbefore⟩, rfl⟩)
  data k s hne := by
    rw [h.refBlk_taken ht hg] at hne ⊢
    exact (h.data k s hne).congr ht.sameLayout
  used k s hne := by
    rw [h.refBlk_taken ht hg] at hne ⊢
    exact ht.used h.image.layout hg (h.used k s hne)
  once k s k' s' hne heq := by
    rw [h.refBlk_taken ht hg] at hne
    rw [h.refBlk_taken ht hg, h.refBlk_taken ht hg] at heq
    exact h.once k s k' s' hne heq

/-- A marked block is not one of the free ones. -/
theorem Used.ne_standsFor (hb : fs.Used v b) (hi : fs.Image v) (hg : g < fs.nbBlockGroups)
    (hbit : i < 8 * fs.blockSize) (hclear : fs.bitOf v v .block g i = false) :
    b ≠ Resource.standsFor .block v g i := by
  obtain ⟨g', i', -, -, hlt', hstands, hset⟩ := hb
  obtain ⟨hlt, -⟩ := hi.blocksEnd g hg i hbit hclear
  rintro rfl
  rw [Resource.standsFor, Resource.standsFor, Nat.add_assoc, Nat.add_assoc] at hstands
  obtain ⟨rfl, rfl⟩ := eq_of_mul_add_eq (Nat.add_left_cancel hstands) hlt hlt'
  rw [hclear] at hset
  cases hset

/-- Where the first data block is block 0, an allocation takes the first free block. -/
theorem Owned.alloc (h : fs.Owned v tbl) (hfirst : v.sbBlockNbOfSb = 0)
    (hfree : fs.freeBlks v = b :: rest) :
    ∃ w, fs.allocBlock 0 v = .ok (b, w) ∧ fs.freeBlks w = rest ∧ fs.Owned w tbl ∧
      fs.Fresh w tbl b ∧ fs.Frame v w ∅ ∧ ∀ k s, fs.refBlk w tbl k s = fs.refBlk v tbl k s := by
  rcases alloc_freeBits h.image h.inStep h.good.reliable .block with
    ⟨hnone, -⟩ | ⟨g, i, l, w, hhead, halloc, htaken, hrest⟩
  · rw [freeBlks, hnone] at hfree
    cases hfree
  · rw [freeBlks, hhead, List.map_cons] at hfree
    obtain ⟨rfl, rfl⟩ := List.cons.inj hfree
    obtain ⟨hg, hi, hclear⟩ := mem_freeBits.1 (hhead ▸ List.mem_cons_self : (g, i) ∈ _)
    have hnumber : Resource.number .block v g i = Resource.standsFor .block v g i := by
      rw [h.image.number_eq hg hi hclear, Resource.standsFor, hfirst, Nat.zero_add]
    have hdata : fs.Data v (Resource.standsFor .block v g i) := by
      apply h.free
      rw [freeBlks, hhead]
      exact List.mem_cons_self
    have hrefs := fun k s => h.refBlk_taken (k := k) (s := s) htaken hg
    refine ⟨w, hnumber ▸ halloc, ?_, h.taken htaken hg hi hclear, ?_,
      htaken.frame h.image.layout hg h.tablesOutside, hrefs⟩
    · rw [freeBlks, hrest]
      exact List.map_congr_left fun p _ => htaken.sameLayout.standsFor .block p.1 p.2
    · refine ⟨?_, hdata.congr htaken.sameLayout, ?_, fun k s heq => ?_⟩
      · rw [← hnumber]
        exact h.image.number_ne_zero hg hi hclear
      · refine ⟨g, i, hg, hi, ?_, ?_, ?_⟩
        · rw [htaken.sameLayout.blocksInGroup]
          exact (h.image.blocksEnd g hg i hi hclear).1
        · rw [htaken.sameLayout.standsFor]
        · rw [htaken.bitOf_self .block h.image.layout hg hg hi, decide_eq_true rfl, Bool.or_true]
      · rw [hrefs] at heq
        have hne : fs.refBlk v tbl k s ≠ 0 := by
          rw [heq, ← hnumber]
          exact h.image.number_ne_zero hg hi hclear
        exact (h.used k s hne).ne_standsFor h.image hg hi hclear heq

theorem Owned.alloc_none (h : fs.Owned v tbl) (hfree : fs.freeBlks v = []) :
    ∃ t, fs.allocBlock 0 v = .ok (0, v.after t) := by
  rcases alloc_freeBits h.image h.inStep h.good.reliable .block with
    ⟨-, hnone⟩ | ⟨g, i, l, w, hhead, -⟩
  · exact hnone
  · rw [freeBlks, hhead] at hfree
    cases hfree

end Mount

end Kaku

-- SUMMARY: The free counters and the bitmaps: what a failing drive and what a run of allocations leaves of their agreement.
import Mathlib.Algebra.BigOperators.Group.Finset.Piecewise
import Mathlib.Algebra.Order.BigOperators.Group.Finset
import Kaku.Fs.OneBit

/-!
# Counters and bitmaps

The number of free blocks and inodes is kept in three places: as the clear bits of
the bitmaps, in the descriptor of each group, and in the superblock; and the
latter two in memory and on the drive.
-/

namespace Kaku

namespace Mount

/-- A volume that the allocators can work on. The table fits in 255 sectors, an inode
bitmap fits in its block, and bits past the end of a group are set. -/
structure Image (fs : Mount) (v : Volume) : Prop extends fs.Bitmaps v where
  small : fs.blockSize ≤ 65536
  groups : 0 < fs.nbBlockGroups
  tableFits : fs.nbBlockGroups * 32 ≤ 255 * ataSectorSize
  inodesOctets : 8 ∣ v.sbNbInodesInGroup
  inodesFit : v.sbNbInodesInGroup ≤ 8 * fs.blockSize
  inodesEnd : ∀ g < fs.nbBlockGroups, ∀ i < 8 * fs.blockSize, fs.bitOf v v .inode g i = false →
    i < v.sbNbInodesInGroup
  firstBit : fs.bitOf v v .block 0 0 = true

/-- The clear bits of a bitmap. -/
def freeIn (fs : Mount) (v : Volume) (r : Resource) (g : Nat) : Nat :=
  (v.blk fs (v.bitmapBlk r g)).clearCount (8 * fs.blockSize)

/-- The sectors of the superblock and of the table hold what is in memory. -/
structure OnDrive (fs : Mount) (v : Volume) : Prop where
  super : ∀ x < 84, v.disk (sectorAddr fs.sbLba + x) = v.sb x
  table : ∀ x < fs.bgdtSize, v.disk (sectorAddr fs.bgdtLba + x) = v.bgdt x

/-- The counters agree with the bitmaps and with one another. -/
structure InStep (fs : Mount) (v : Volume) : Prop extends fs.OnDrive v where
  counts : ∀ r, ∀ g < fs.nbBlockGroups, v.count r g = fs.freeIn v r g
  totals : ∀ r, v.total r = ∑ g ∈ Finset.range fs.nbBlockGroups, v.count r g

variable {fs : Mount} {v v' : Volume} {r r' : Resource} {g g' i j n t preferred : Nat}

namespace Image

theorem fits (h : fs.Image v) : fs.Fits := ⟨h.sized, h.small⟩

theorem scanned_le (h : fs.Image v) (r : Resource) : r.scanned fs v ≤ fs.blockSize := by
  cases r with
  | block => exact le_rfl
  | inode =>
    have hfit := h.inodesFit
    simp only [Resource.scanned]
    omega

/-- A clear bit is one that the scan reaches. -/
theorem lt_scanned (h : fs.Image v) (hg : g < fs.nbBlockGroups) (hi : i < 8 * fs.blockSize)
    (hclear : fs.bitOf v v r g i = false) : i < 8 * r.scanned fs v := by
  cases r with
  | block => exact hi
  | inode =>
    have hlt := h.inodesEnd g hg i hi hclear
    have hoctets := h.inodesOctets
    simp only [Resource.scanned]
    omega

theorem bgdtSize_eq (h : fs.Image v) : fs.bgdtSize = fs.nbBlockGroups * 32 := by
  have hfits := h.tableFits
  rw [bgdtSize, addr32]
  rw [ataSectorSize] at hfits
  omega

/-- Numbers of blocks and inodes have 32 bits, and determine the bit. -/
theorem number_eq (h : fs.Image v) (hg : g < fs.nbBlockGroups) (hi : i < 8 * fs.blockSize)
    (hclear : fs.bitOf v v r g i = false) :
    r.number v g i = match r with
      | .block => g * v.sbNbBlocksInGroup + i
      | .inode => g * v.sbNbInodesInGroup + i + 1 := by
  cases r with
  | block =>
    obtain ⟨-, hend⟩ := h.blocksEnd g hg i hi hclear
    have hcount : v.sbBlocksCount < 256 ^ 4 := Mem.load_lt
    rw [Resource.standsFor] at hend
    exact Nat.mod_eq_of_lt (by omega)
  | inode =>
    have hgroups := h.tableFits
    have hfit := h.inodesFit
    have hsmall := h.small
    have hmul : g * v.sbNbInodesInGroup ≤ 4080 * 524288 := by
      apply Nat.mul_le_mul
      · rw [ataSectorSize] at hgroups
        omega
      · omega
    exact Nat.mod_eq_of_lt (by omega)

theorem number_ne_zero (h : fs.Image v) (hg : g < fs.nbBlockGroups) (hi : i < 8 * fs.blockSize)
    (hclear : fs.bitOf v v r g i = false) : r.number v g i ≠ 0 := by
  rw [h.number_eq hg hi hclear]
  cases r with
  | block =>
    obtain ⟨hend, -⟩ := h.blocksEnd g hg i hi hclear
    intro hzero
    obtain ⟨hg0, rfl⟩ := Nat.add_eq_zero_iff.1 hzero
    rcases Nat.mul_eq_zero.1 hg0 with rfl | hnone
    · rw [h.firstBit] at hclear
      cases hclear
    · omega
  | inode => exact Nat.succ_ne_zero _

end Image

/-! ## What taking a bit preserves -/

namespace Taken

theorem bitOf_self (h : fs.Taken v r g i v') (r' : Resource) (hl : fs.Layout v)
    (hg : g < fs.nbBlockGroups) (hg' : g' < fs.nbBlockGroups) (hj : j < 8 * fs.blockSize) :
    fs.bitOf v' v' r' g' j = (fs.bitOf v v r' g' j || decide ((r', g', j) = (r, g, i))) :=
  h.bit r' hl hg hg' hj

/-- No bit is cleared. -/
theorem clear_of_clear (h : fs.Taken v r g i v') (hl : fs.Layout v) (hg : g < fs.nbBlockGroups)
    (hg' : g' < fs.nbBlockGroups) (hj : j < 8 * fs.blockSize)
    (hclear : fs.bitOf v' v' r' g' j = false) : fs.bitOf v v r' g' j = false := by
  rw [h.bitOf_self _ hl hg hg' hj, Bool.or_eq_false_iff] at hclear
  exact hclear.1

theorem image (h : fs.Taken v r g i v') (hi : fs.Image v) (hg : g < fs.nbBlockGroups) :
    fs.Image v' := by
  have hblocks : v'.sbNbBlocksInGroup = v.sbNbBlocksInGroup := h.sb_load (by omega)
  have hinodes : v'.sbNbInodesInGroup = v.sbNbInodesInGroup := h.sb_load (by omega)
  have hcount : v'.sbBlocksCount = v.sbBlocksCount := h.sb_load (by omega)
  have hfirst : v'.sbBlockNbOfSb = v.sbBlockNbOfSb := h.sb_load (by omega)
  refine ⟨⟨hi.sized, h.layout hi.layout, fun g' hg' j hj hclear => ?_⟩, hi.small, hi.groups,
    hi.tableFits, ?_, ?_, fun g' hg' j hj hclear => ?_, ?_⟩
  · have hend := hi.blocksEnd g' hg' j hj (h.clear_of_clear hi.layout hg hg' hj hclear)
    rwa [Resource.standsFor, hblocks, hcount, hfirst]
  · rw [hinodes]
    exact hi.inodesOctets
  · rw [hinodes]
    exact hi.inodesFit
  · rw [hinodes]
    exact hi.inodesEnd g' hg' j hj (h.clear_of_clear hi.layout hg hg' hj hclear)
  · rw [h.bitOf_self _ hi.layout hg hi.groups (Nat.mul_pos (by omega) hi.sized.pos), hi.firstBit,
      Bool.true_or]

theorem onDrive (h : fs.Taken v r g i v') (hi : fs.Image v) : fs.OnDrive v' := by
  refine ⟨h.super, h.table ?_⟩
  rw [hi.bgdtSize_eq]
  exact hi.tableFits

/-- A bit that was clear is one free thing less. -/
theorem freeIn_self (h : fs.Taken v r g i v') (hl : fs.Layout v) (hg : g < fs.nbBlockGroups)
    (hi : i < 8 * fs.blockSize) (hclear : fs.bitOf v v r g i = false) :
    fs.freeIn v' r g + 1 = fs.freeIn v r g := by
  apply Mem.clearCount_of_set hi hclear
  intro j hj
  have hbit := h.bitOf_self r hl hg hg hj
  simpa [bitOf] using hbit

theorem freeIn_of_ne (h : fs.Taken v r g i v') (hl : fs.Layout v) (hg : g < fs.nbBlockGroups)
    (hg' : g' < fs.nbBlockGroups) (hne : (r', g') ≠ (r, g)) :
    fs.freeIn v' r' g' = fs.freeIn v r' g' := by
  apply Mem.clearCount_congr
  intro j hj
  have hother : (r', g', j) ≠ (r, g, i) := by
    intro heq
    simp only [Prod.mk.injEq] at heq
    exact hne (Prod.ext heq.1 heq.2.1)
  have hbit := h.bitOf_self r' hl hg hg' hj
  rwa [decide_eq_false hother, Bool.or_false] at hbit

end Taken

theorem InStep.count_pos (hs : fs.InStep v) (hg : g < fs.nbBlockGroups)
    (hi : i < 8 * fs.blockSize) (hclear : fs.bitOf v v r g i = false) : 0 < v.count r g := by
  rw [hs.counts r g hg, Nat.pos_iff_ne_zero, freeIn, ne_eq, Mem.clearCount_eq_zero]
  intro hfull
  rw [bitOf, hfull i hi] at hclear
  cases hclear

theorem InStep.count_le_total (hs : fs.InStep v) (hg : g < fs.nbBlockGroups) :
    v.count r g ≤ v.total r := by
  rw [hs.totals r]
  exact Finset.single_le_sum (fun _ _ => Nat.zero_le _) (Finset.mem_range.2 hg)

theorem Taken.inStep (h : fs.Taken v r g i v') (hi : fs.Image v) (hs : fs.InStep v)
    (hg : g < fs.nbBlockGroups) (hbit : i < 8 * fs.blockSize)
    (hclear : fs.bitOf v v r g i = false) : fs.InStep v' := by
  have hpos := hs.count_pos hg hbit hclear
  have htotal := hs.count_le_total (r := r) hg
  refine ⟨h.onDrive hi, fun r' g' hg' => ?_, fun r' => ?_⟩
  · rcases eq_or_ne (r', g') (r, g) with hsame | hne
    · obtain ⟨rfl, rfl⟩ := Prod.mk.inj hsame
      have hfree := h.freeIn_self hi.layout hg hbit hclear
      have hcount := hs.counts r' g' hg'
      rw [h.count_self]
      omega
    · rw [h.count_of_ne hne, h.freeIn_of_ne hi.layout hg hg' hne]
      exact hs.counts r' g' hg'
  · rcases eq_or_ne r' r with rfl | hne
    · have hmem := Finset.mem_range.2 hg
      have hsum := Finset.add_sum_erase _ (fun g => v.count r' g) hmem
      have hsum' := Finset.add_sum_erase _ (fun g => v'.count r' g) hmem
      have hrest : ∑ g' ∈ (Finset.range fs.nbBlockGroups).erase g, v'.count r' g' =
          ∑ g' ∈ (Finset.range fs.nbBlockGroups).erase g, v.count r' g' := by
        apply Finset.sum_congr rfl
        intro g' hg'
        exact h.count_of_ne fun heq => (Finset.mem_erase.1 hg').1 (Prod.mk.inj heq).2
      have htot := hs.totals r'
      have hself := h.count_self
      rw [h.total_self (by omega), ← hsum', hrest]
      omega
    · rw [h.total_of_ne hne, hs.totals r']
      apply Finset.sum_congr rfl
      intro g' _
      exact (h.count_of_ne fun heq => hne (Prod.mk.inj heq).1).symm

/-! ## A drive that fails on bitmaps -/

/-- The counters of one group, and the total, have dropped by one. -/
structure Dropped (fs : Mount) (v v' : Volume) (r : Resource) (g : Nat) : Prop where
  count : v'.count r g + 1 = v.count r g
  counts : ∀ r' g', g' < fs.nbBlockGroups → (r', g') ≠ (r, g) → v'.count r' g' = v.count r' g'
  total : v'.total r + 1 = v.total r
  totals : ∀ r', r' ≠ r → v'.total r' = v.total r'

/-- Bitmaps and counters are what they were. -/
structure Unchanged (fs : Mount) (v v' : Volume) : Prop where
  bits : ∀ r g, g < fs.nbBlockGroups → ∀ j < 8 * fs.blockSize,
    fs.bitOf v v' r g j = fs.bitOf v v r g j
  counts : ∀ r g, g < fs.nbBlockGroups → v'.count r g = v.count r g
  totals : ∀ r, v'.total r = v.total r

/-- An allocation has happened, or nothing has. -/
def Atomic (fs : Mount) (v v' : Volume) (r : Resource) (n : Nat) : Prop :=
  fs.OnDrive v' ∧
    (n ≠ 0 ∧ (∃ g i, fs.OneBit v v' r g i ∧ n = r.standsFor v g i ∧ fs.Dropped v v' r g) ∨
      n = 0 ∧ fs.Unchanged v v')

theorem Taken.dropped (h : fs.Taken v r g i v') (hs : fs.InStep v) (hg : g < fs.nbBlockGroups)
    (hi : i < 8 * fs.blockSize) (hclear : fs.bitOf v v r g i = false) : fs.Dropped v v' r g := by
  have hpos := hs.count_pos hg hi hclear
  have htotal := hs.count_le_total (r := r) hg
  refine ⟨?_, fun r' g' _ hne => h.count_of_ne hne, ?_, fun r' hne => h.total_of_ne hne⟩
  · rw [h.count_self]
    omega
  · rw [h.total_self (by omega)]
    omega

/-- When a bit is taken, it stands for the number that is returned, unless the blocks of
the groups are not the first blocks. -/
theorem Taken.atomic_iff (h : fs.Taken v r g i v') (hi : fs.Image v) (hs : fs.InStep v)
    (hg : g < fs.nbBlockGroups) (hbit : i < 8 * fs.blockSize)
    (hclear : fs.bitOf v v r g i = false) :
    fs.Atomic v v' r (r.number v g i) ↔ (r = .block → v.sbBlockNbOfSb = 0) := by
  have hone := h.oneBit hi.layout hg hbit hclear
  have hnumber := hi.number_eq hg hbit hclear
  have hne := hi.number_ne_zero hg hbit hclear
  constructor
  · rintro ⟨-, ⟨-, g', i', hone', hstands, -⟩ | ⟨hzero, -⟩⟩
    · obtain ⟨-, rfl, rfl⟩ : r = r ∧ g = g' ∧ i = i' := by simpa using hone.unique hone'
      rintro rfl
      rw [hnumber, Resource.standsFor] at hstands
      simp only at hstands
      omega
    · exact absurd hzero hne
  · intro hfirst
    refine ⟨h.onDrive hi, .inl ⟨hne, g, i, hone, ?_, h.dropped hs hg hbit hclear⟩⟩
    rw [hnumber]
    cases r with
    | block => simp [Resource.standsFor, hfirst rfl]
    | inode => rfl

/-- An allocation on a drive that fails on bitmaps is atomic exactly if the bitmap that it
chooses can be written back, and, for a block, if the first data block is block 0. -/
theorem alloc_atomic (hi : fs.Image v) (hs : fs.InStep v) (hfail : fs.FailsOnBitmaps v) :
    (∃ n v', fs.alloc r preferred v = .ok (n, v') ∧ fs.Atomic v v' r n) ↔
      ∀ g i t, fs.choice r preferred v = some (g, i, t) →
        fs.timeout t (fs.blkToLba (v.bitmapBlk r g)) = none ∧
          (r = .block → v.sbBlockNbOfSb = 0) := by
  have hscan := hi.scanned_le r
  cases hchoice : fs.choice r preferred v with
  | none =>
    obtain ⟨t, halloc⟩ := alloc_of_none hi.fits hscan hchoice
    have hatomic : fs.Atomic v (v.after t) r 0 :=
      ⟨⟨hs.super, hs.table⟩, .inr ⟨rfl, fun _ _ _ _ _ => rfl, fun _ _ _ => rfl, fun _ => rfl⟩⟩
    exact iff_of_true ⟨0, v.after t, halloc, hatomic⟩ (by simp)
  | some c =>
    obtain ⟨g, i, t⟩ := c
    obtain ⟨hg, -, hbit, hclear⟩ := choice_spec hi.groups hscan hchoice
    cases hwrite : fs.timeout t (fs.blkToLba (v.bitmapBlk r g)) with
    | some k =>
      rw [alloc_of_timeout hi.fits hscan hchoice hwrite]
      refine iff_of_false (fun ⟨_, _, herr, _⟩ => nomatch herr) fun hall => ?_
      obtain ⟨hnone, -⟩ := hall g i t rfl
      rw [hwrite] at hnone
      cases hnone
    | none =>
      obtain ⟨v', halloc, htaken⟩ := alloc_of_write hi.fits hi.layout hfail hscan hchoice hwrite
        hi.groups
      have hiff := htaken.atomic_iff hi hs hg hbit hclear
      rw [halloc]
      constructor
      · rintro ⟨n, w, hok, hatomic⟩ g' i' t' heq
        cases hok
        cases heq
        exact ⟨hwrite, hiff.1 hatomic⟩
      · intro hall
        exact ⟨_, _, rfl, hiff.2 (hall g i t rfl).2⟩

/-! ## What is not metadata has no part in it -/

/-- Superblock, table and bitmaps are the same. -/
structure SameMeta (fs : Mount) (v v' : Volume) : Prop where
  sb : v'.sb = v.sb
  bgdt : v'.bgdt = v.bgdt
  bitmaps : ∀ r g, g < fs.nbBlockGroups → ∀ x < fs.blockSize,
    v'.blk fs (v.bitmapBlk r g) x = v.blk fs (v.bitmapBlk r g) x
  super : ∀ x < 84, v'.disk (sectorAddr fs.sbLba + x) = v.disk (sectorAddr fs.sbLba + x)
  table : ∀ x < fs.bgdtSize, v'.disk (sectorAddr fs.bgdtLba + x) = v.disk (sectorAddr fs.bgdtLba + x)

namespace SameMeta

theorem of_disk (hsb : v'.sb = v.sb) (hbgdt : v'.bgdt = v.bgdt) (hdisk : v'.disk = v.disk) :
    fs.SameMeta v v' := by
  refine ⟨hsb, hbgdt, fun r g _ x _ => ?_, fun x _ => ?_, fun x _ => ?_⟩
  · rw [Volume.blk, Volume.blk, hdisk]
  · rw [hdisk]
  · rw [hdisk]

theorem after : fs.SameMeta v (v.after t) := of_disk rfl rfl rfl

theorem bitmapBlk (h : fs.SameMeta v v') (r : Resource) (g : Nat) :
    v'.bitmapBlk r g = v.bitmapBlk r g := by
  rw [Volume.bitmapBlk, Volume.bitmapBlk, h.bgdt]

theorem bitOf (h : fs.SameMeta v v') (hg : g < fs.nbBlockGroups) (hj : j < 8 * fs.blockSize) :
    fs.bitOf v' v' r g j = fs.bitOf v v r g j := by
  rw [Mount.bitOf, h.bitmapBlk]
  exact Mem.bit_congr (h.bitmaps r g hg _ (by omega))

theorem image (h : fs.SameMeta v v') (hi : fs.Image v) : fs.Image v' := by
  have hsb (a n) : v'.sb.load a n = v.sb.load a n := by rw [h.sb]
  have hinodes : v'.sbNbInodesInGroup = v.sbNbInodesInGroup := hsb 40 4
  refine ⟨⟨hi.sized, hi.layout.of_bitmapBlk h.bitmapBlk, fun g hg i hbit hclear => ?_⟩, hi.small,
    hi.groups, hi.tableFits, ?_, ?_, fun g hg i hbit hclear => ?_, ?_⟩
  · rw [h.bitOf hg hbit] at hclear
    have hend := hi.blocksEnd g hg i hbit hclear
    simpa only [Resource.standsFor, Volume.sbBlockNbOfSb, Volume.sbNbBlocksInGroup,
      Volume.sbBlocksCount, hsb] using hend
  · rw [hinodes]
    exact hi.inodesOctets
  · rw [hinodes]
    exact hi.inodesFit
  · rw [h.bitOf hg hbit] at hclear
    rw [hinodes]
    exact hi.inodesEnd g hg i hbit hclear
  · rw [h.bitOf hi.groups (Nat.mul_pos (by omega) hi.sized.pos)]
    exact hi.firstBit

theorem inStep (h : fs.SameMeta v v') (hs : fs.InStep v) : fs.InStep v' := by
  have hcount (r g) : v'.count r g = v.count r g := by rw [Volume.count, Volume.count, h.bgdt]
  refine ⟨⟨fun x hx => ?_, fun x hx => ?_⟩, fun r g hg => ?_, fun r => ?_⟩
  · rw [h.super x hx, h.sb, hs.super x hx]
  · rw [h.table x hx, h.bgdt, hs.table x hx]
  · rw [hcount, hs.counts r g hg]
    exact Mem.clearCount_congr fun i hbit => (h.bitOf (r := r) hg hbit).symm
  · rw [Volume.total, h.sb]
    simp only [hcount]
    exact hs.totals r

end SameMeta

theorem Image.after (h : fs.Image v) : fs.Image (v.after t) := SameMeta.after.image h

theorem InStep.after (h : fs.InStep v) : fs.InStep (v.after t) := SameMeta.after.inStep h

/-! ## A volume whose counters are in step -/

/-- Which transfers fail has no part in what an image is. -/
def failing (fs : Mount) (timeout : Nat → Nat → Option Nat) : Mount :=
  { fs with timeout := timeout }

theorem Image.failing {timeout : Nat → Nat → Option Nat} (h : fs.Image v) :
    (fs.failing timeout).Image v :=
  ⟨⟨h.sized, ⟨h.layout.bitmaps, h.layout.super, h.layout.table, h.layout.superTable⟩,
    h.blocksEnd⟩, h.small, h.groups, h.tableFits, h.inodesOctets, h.inodesFit, h.inodesEnd,
    h.firstBit⟩

theorem InStep.failing {timeout : Nat → Nat → Option Nat} (h : fs.InStep v) :
    (fs.failing timeout).InStep v := ⟨⟨h.super, h.table⟩, h.counts, h.totals⟩

/-- One bit is clear. -/
def OneClear (fs : Mount) (v : Volume) (r : Resource) (g i : Nat) : Prop :=
  ∀ r' g' j, g' < fs.nbBlockGroups → j < 8 * fs.blockSize →
    (fs.bitOf v v r' g' j = false ↔ (r', g', j) = (r, g, i))

namespace OneClear

variable (h : fs.OneClear v r g i) (hg : g < fs.nbBlockGroups) (hi : i < 8 * fs.blockSize)
include h hg hi

theorem freeIn (hg' : g' < fs.nbBlockGroups) :
    fs.freeIn v r' g' = if (r', g') = (r, g) then 1 else 0 := by
  split
  · rename_i hsame
    obtain ⟨rfl, rfl⟩ := Prod.mk.inj hsame
    have hfull : Mem.clearCount (fun _ => 255) (8 * fs.blockSize) = 0 :=
      Mem.clearCount_eq_zero.2 fun j _ => Mem.bit_of_eq_255 rfl
    have hone : Mem.clearCount (fun _ => 255) (8 * fs.blockSize) + 1 = fs.freeIn v r' g' := by
      apply Mem.clearCount_of_set hi ((h r' g' i hg hi).2 rfl)
      intro j hj
      have hclear := h r' g' j hg hj
      simp only [Prod.mk.injEq, true_and, bitOf] at hclear
      rw [Mem.bit_of_eq_255 rfl]
      cases hbit : (v.blk fs (v.bitmapBlk r' g')).bit j with
      | true => rfl
      | false => rw [decide_eq_true (hclear.1 hbit), Bool.or_true]
    rw [← hone, hfull]
  · rename_i hne
    refine Mem.clearCount_eq_zero.2 fun j hj => ?_
    cases hbit : (v.blk fs (v.bitmapBlk r' g')).bit j with
    | true => rfl
    | false =>
      have hsame := (h r' g' j hg' hj).1 hbit
      simp only [Prod.mk.injEq] at hsame
      exact absurd (Prod.ext hsame.1 hsame.2.1) hne

theorem inStep (hdrive : fs.OnDrive v)
    (hcounts : ∀ r' g', g' < fs.nbBlockGroups →
      v.count r' g' = if (r', g') = (r, g) then 1 else 0)
    (htotals : ∀ r', v.total r' = if r' = r then 1 else 0) : fs.InStep v := by
  refine ⟨hdrive, fun r' g' hg' => ?_, fun r' => ?_⟩
  · rw [hcounts r' g' hg', h.freeIn hg hi hg']
  · have hsum : ∑ g' ∈ Finset.range fs.nbBlockGroups, v.count r' g' =
        ∑ g' ∈ Finset.range fs.nbBlockGroups, if g' = g then (if r' = r then 1 else 0) else 0 := by
      refine Finset.sum_congr rfl fun g' hg' => ?_
      rw [hcounts r' g' (Finset.mem_range.1 hg')]
      simp only [Prod.mk.injEq]
      grind
    rw [hsum, Finset.sum_ite_eq_of_mem' _ g _ (Finset.mem_range.2 hg), htotals]

end OneClear

def countedSb : Mem := (tinyVolume 0 0xDF).sb.store 12 4 1

/-- `tinyVolume` with the free block counted, and with superblock and table on the drive. -/
def countedVolume : Volume where
  disk x :=
    if x < 2048 then countedSb (x - 1024)
    else if x < 3072 then tinyTable (x - 2048)
    else (tinyVolume 0 0xDF).disk x
  sb := countedSb
  bgdt := tinyTable
  transfers := 0

theorem countedVolume_bitmapBlk : countedVolume.bitmapBlk r 0 = match r with
    | .block => 3
    | .inode => 4 := by
  cases r <;> decide

theorem countedVolume_blk {b x : Nat} (hb : b = 3 ∨ b = 4) :
    countedVolume.blk tinyMount b x = (tinyVolume 0 0xDF).blk tinyMount b x := by
  have hdisk (y) (hy : 3072 ≤ y) : countedVolume.disk y = (tinyVolume 0 0xDF).disk y := by
    simp only [countedVolume]
    rw [if_neg (by omega), if_neg (by omega)]
  rcases hb with rfl | rfl
  · exact hdisk (3072 + x) (by omega)
  · exact hdisk (4096 + x) (by omega)

/-- Bit 5 is the clear one on every volume with these bitmaps. -/
theorem tiny_clear (hwhere : ∀ r, v.bitmapBlk r 0 = match r with | .block => 3 | .inode => 4)
    (hblk : ∀ b x, b = 3 ∨ b = 4 → x < 1024 →
      v.blk tinyMount b x = (tinyVolume 0 0xDF).blk tinyMount b x) :
    tinyMount.OneClear v .block 0 5 := by
  intro r g j hg hj
  obtain rfl : g = 0 := Nat.lt_one_iff.1 hg
  have hbyte : j / 8 < 1024 := Nat.div_lt_of_lt_mul hj
  constructor
  · intro hclear
    rw [bitOf, hwhere] at hclear
    cases r with
    | block =>
      obtain rfl : j = 5 := by
        apply tinyVolume_clear 0 hj
        rw [← hclear]
        exact Mem.bit_congr (hblk 3 _ (.inl rfl) hbyte).symm
      rfl
    | inode =>
      have hset : (v.blk tinyMount 4).bit j = true := by
        apply Mem.bit_of_eq_255
        rw [hblk 4 _ (.inr rfl) hbyte]
        show (if 4096 + j / 8 = 3072 then 0xDF else
          if 3072 ≤ 4096 + j / 8 ∧ 4096 + j / 8 < 5120 then 255 else 0 : UInt8) = 255
        rw [if_neg (by omega), if_pos (by omega)]
      cases hset.symm.trans hclear
  · intro hsame
    cases hsame
    rw [bitOf, hwhere]
    exact (Mem.bit_congr (hblk 3 _ (.inl rfl) (by decide))).trans (by decide)

theorem countedVolume_clear : tinyMount.OneClear countedVolume .block 0 5 :=
  tiny_clear (fun _ => countedVolume_bitmapBlk) fun _ _ hb _ => countedVolume_blk hb

theorem countedVolume_image : tinyMount.Image countedVolume := by
  have hlayout : tinyMount.Layout countedVolume :=
    (tinyVolume_layout 0 0xDF).of_bitmapBlk fun _ _ => rfl
  refine ⟨⟨tinyMount_fits.sized, hlayout, fun g hg i hi hclear => ?_⟩, by decide, by decide,
    by decide, by decide, by decide, fun g hg i hi hclear => ?_,
    by decide⟩
  · obtain rfl : g = 0 := Nat.lt_one_iff.1 hg
    cases (countedVolume_clear _ _ _ hg hi).1 hclear
    decide
  · obtain rfl : g = 0 := Nat.lt_one_iff.1 hg
    cases (countedVolume_clear _ _ _ hg hi).1 hclear

theorem countedVolume_inStep : tinyMount.InStep countedVolume := by
  refine countedVolume_clear.inStep (by decide) (by decide) ⟨fun x hx => ?_, fun x hx => ?_⟩
    (fun r g hg => ?_) fun r => ?_
  · show countedVolume.disk (1024 + x) = _
    simp only [countedVolume]
    rw [if_pos (by omega), Nat.add_sub_cancel_left]
  · have hx : x < 32 := hx
    show countedVolume.disk (2048 + x) = _
    simp only [countedVolume]
    rw [if_neg (by omega), if_pos (by omega), Nat.add_sub_cancel_left]
  · obtain rfl : g = 0 := Nat.lt_one_iff.1 hg
    cases r <;> decide
  · cases r <;> decide

/-- The write of the block bitmap fails, which is the second transfer. -/
def secondFails (n lba : Nat) : Option Nat := if n = 1 ∧ lba = 6 then some 0 else none

theorem secondFails_failsOnBitmaps : (tinyMount.failing secondFails).FailsOnBitmaps countedVolume := by
  intro n lba k htimeout
  have heq : (if n = 1 ∧ lba = 6 then some 0 else none) = some k := htimeout
  split at heq
  · rename_i hlba
    cases heq
    obtain ⟨-, rfl⟩ := hlba
    exact ⟨rfl, .block, 0, by decide, by decide⟩
  · cases heq

/-- A drive that answers: the free block is allocated. -/
theorem alloc_atomic_counted : ∃ n v', tinyMount.alloc .block 0 countedVolume = .ok (n, v') ∧
    tinyMount.Atomic countedVolume v' .block n := by
  apply (alloc_atomic countedVolume_image countedVolume_inStep
    (Reliable.failsOnBitmaps fun _ _ => rfl)).2
  intro g i t _
  exact ⟨rfl, fun _ => by decide⟩

/-- The bitmap cannot be written: the scan goes on in the freed buffer. -/
theorem alloc_freed_bitmap :
    (tinyMount.failing secondFails).Image countedVolume ∧
      (tinyMount.failing secondFails).InStep countedVolume ∧
      (tinyMount.failing secondFails).FailsOnBitmaps countedVolume ∧
      ¬ ∃ n v', (tinyMount.failing secondFails).alloc .block 0 countedVolume = .ok (n, v') ∧
        (tinyMount.failing secondFails).Atomic countedVolume v' .block n := by
  refine ⟨countedVolume_image.failing, countedVolume_inStep.failing, secondFails_failsOnBitmaps, ?_⟩
  rintro ⟨n, v', halloc, -⟩
  have hchoice : (tinyMount.failing secondFails).choice .block 0 countedVolume = some (0, 5, 1) := by
    decide
  have hwild := alloc_of_timeout (k := 0) countedVolume_image.failing.fits le_rfl hchoice
    (by decide)
  rw [hwild] at halloc
  cases halloc

end Mount

end Kaku

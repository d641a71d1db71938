-- SUMMARY: Taking an inode on a consistent volume: a number that was not in use, for a file without blocks.
import Kaku.Fs.Create
import Kaku.Fs.Stored

/-!
# New inodes

`fs_ext2_alloc_inode` takes the first clear bit, and leaves the slot of the inode table as it
is. The inode of a new file has no blocks, whatever the slot holds.
-/

namespace Kaku.Mount

variable {fs : Mount} {v w : Volume} {inode : Inode} {k n size : Nat} {s : Option Nat}

/-! ## An inode without blocks -/

theorem load_newInode {a m : Nat} (h : 28 ≤ a) : (newInode n).raw.load a m = 0 := by
  refine Eq.trans (Mem.load_congr fun x hx _ => ?_) Mem.load_zero
  simp only [newInode]
  rw [Mem.store_of_not_mem (by omega), Mem.store_of_not_mem (by omega),
    Mem.store_of_not_mem (by omega)]

theorem fileBlk_newInode : v.fileBlk fs (newInode n) s = 0 := by
  have hsingle : (newInode n).inodeSinglyIndirectBlkPtr = 0 := load_newInode (by omega)
  cases s with
  | none => exact hsingle
  | some i =>
    rw [Volume.fileBlk, Volume.blockPtr]
    split_ifs
    · exact load_newInode (by omega)
    · rfl
    · rfl

/-- Somebody holds an inode without blocks. -/
theorem Owned.enter {ι : Type} [DecidableEq ι] {tbl : ι → Option Inode} {p : ι}
    (h : fs.Owned v tbl) (hnone : tbl p = none) (hempty : ∀ s, v.fileBlk fs inode s = 0) :
    fs.Owned v (Function.update tbl p (some inode)) := by
  have hrefs (p' s) : fs.refBlk v (Function.update tbl p (some inode)) p' s =
      fs.refBlk v tbl p' s := by
    rcases eq_or_ne p' p with rfl | hne
    · rw [refBlk_update_self, hempty, refBlk_none hnone]
    · exact refBlk_update_of_ne hne
  have hwhose (p' s) (hne : fs.refBlk v tbl p' s ≠ 0) :
      whose (Function.update tbl p (some inode)) p' = whose tbl p' := by
    refine whose_update_of_ne ?_
    rintro rfl
    exact hne (refBlk_none hnone)
  refine ⟨h.image, h.inStep, h.tables, h.tablesOutside, h.free, fun p' s hne => ?_,
    fun p' s hne => ?_, fun p₁ s₁ p₂ s₂ hne heq => ?_⟩
  · rw [hrefs] at hne ⊢
    exact h.data p' s hne
  · rw [hrefs] at hne ⊢
    exact h.used p' s hne
  · rw [hrefs] at hne
    rw [hrefs, hrefs] at heq
    rw [hwhose p₁ s₁ hne, hwhose p₂ s₂ (heq ▸ hne)]
    exact h.once p₁ s₁ p₂ s₂ hne heq

/-! ## Taking an inode -/

/-- The volume after number `n` has been taken. -/
structure NewInode (fs : Mount) (v : Volume) (n : Nat) (w : Volume) : Prop where
  alloc : fs.allocInode 0 v = .ok (n, w)
  fresh : ¬ fs.InUse v n
  inUse : ∀ k, fs.InUse w k ↔ fs.InUse v k ∨ k = n
  layout : SameLayout v w
  inodeAt : ∀ k, 1 ≤ k → k ≤ v.sbInodesCount → fs.inodeAt w k = fs.inodeAt v k
  blk : ∀ b, fs.Outside v b → ∀ x < fs.blockSize, w.blk fs b x = v.blk fs b x
  free : fs.freeBlks w = fs.freeBlks v
  owned : fs.Owned w (fs.diskTable v)

/-- The first clear bit stands for a number that is not in use. -/
theorem Consistent.take_inode (h : fs.Consistent v)
    (hcount : v.sbInodesCount = fs.nbBlockGroups * v.sbNbInodesInGroup)
    (hfree : fs.freeBits v .inode ≠ []) : ∃ n w, fs.NewInode v n w := by
  have himage := h.owned.image
  have htables := h.owned.tables
  rcases alloc_freeBits himage h.owned.inStep h.owned.good.reliable .inode with
    ⟨hnone, -⟩ | ⟨g, i, rest, w, hhead, halloc, htaken, -⟩
  · exact absurd hnone hfree
  obtain ⟨hg, hi, hclear⟩ := mem_freeBits.1 (hhead ▸ List.mem_cons_self : (g, i) ∈ _)
  have hin := himage.inodesEnd g hg i hi hclear
  have hnumber := himage.number_eq hg hi hclear
  simp only at hnumber
  have hlayout := htaken.sameLayout
  have hlast : g * v.sbNbInodesInGroup + i + 1 ≤ v.sbInodesCount := by
    have hgroups : (g + 1) * v.sbNbInodesInGroup ≤ fs.nbBlockGroups * v.sbNbInodesInGroup :=
      Nat.mul_le_mul_right _ hg
    rw [Nat.succ_mul] at hgroups
    omega
  have hhome : v.inodeGroup (g * v.sbNbInodesInGroup + i + 1) = g ∧
      v.inodeIndex (g * v.sbNbInodesInGroup + i + 1) = i := by
    obtain ⟨-, hindex, hsame, -⟩ := htables.home (by omega) hlast
    exact (eq_of_mul_add_eq (Nat.succ.inj hsame) hin hindex).imp Eq.symm Eq.symm
  have hbit (k : Nat) (hk : 1 ≤ k) (hkcount : k ≤ v.sbInodesCount) :
      fs.bitOf w w .inode (w.inodeGroup k) (w.inodeIndex k) =
        (fs.bitOf v v .inode (v.inodeGroup k) (v.inodeIndex k) ||
          decide (k = g * v.sbNbInodesInGroup + i + 1)) := by
    obtain ⟨hkg, hkindex, hsame, -⟩ := htables.home hk hkcount
    rw [hlayout.inodeGroup, hlayout.inodeIndex,
      htaken.bitOf_self .inode himage.layout hg hkg (hkindex.trans_le himage.inodesFit)]
    congr 1
    rw [decide_eq_decide, Prod.mk.injEq, Prod.mk.injEq]
    constructor
    · rintro ⟨-, hgroup, hindex⟩
      rw [hsame, hgroup, hindex]
    · rintro rfl
      exact ⟨rfl, hhome⟩
  refine ⟨g * v.sbNbInodesInGroup + i + 1, w, hnumber ▸ halloc, fun huse => ?_, fun k => ?_,
    hlayout, fun k hk hkcount => ?_, fun b hb x hx => htaken.blk_of_outside hb hg hx, ?_,
    h.owned.taken htaken hg hi hclear⟩
  · have hset := huse.2.2
    rw [hhome.1, hhome.2, hclear] at hset
    cases hset
  · rw [InUse, InUse, hlayout.inodesCount]
    constructor
    · rintro ⟨hk, hkcount, hset⟩
      rw [hbit k hk hkcount, Bool.or_eq_true, decide_eq_true_iff] at hset
      exact hset.imp_left fun hset => ⟨hk, hkcount, hset⟩
    · rintro (⟨hk, hkcount, hset⟩ | rfl)
      · refine ⟨hk, hkcount, ?_⟩
        rw [hbit k hk hkcount, hset, Bool.true_or]
      · refine ⟨by omega, hlast, ?_⟩
        rw [hbit _ (by omega) hlast, decide_eq_true rfl, Bool.or_true]
  · obtain ⟨htable, hfits⟩ := htables.slot_inTable hk hkcount
    apply inodeAt_congr
    intro x hx
    rw [hlayout.slot, slotAddr, Nat.add_assoc]
    exact htaken.blk_of_outside (h.owned.tablesOutside _ htable) hg (by omega)
  · have hsame : fs.freeBits w .block = fs.freeBits v .block := freeBits_congr fun g' hg' j hj => by
      rw [htaken.bitOf_self .block himage.layout hg hg' hj]
      simp
    rw [freeBlks, freeBlks, hsame]
    exact List.map_congr_left fun p _ => hlayout.standsFor .block p.1 p.2

/-- If all bits are set, the number is 0. -/
theorem Consistent.no_inode (h : fs.Consistent v) (hfree : fs.freeBits v .inode = []) :
    ∃ t, fs.allocInode 0 v = .ok (0, v.after t) := by
  rcases alloc_freeBits h.owned.image h.owned.inStep h.owned.good.reliable .inode with
    ⟨-, hnone⟩ | ⟨g, i, rest, w, hhead, -⟩
  · exact hnone
  · rw [hfree] at hhead
    cases hhead

namespace NewInode

variable (h : fs.NewInode v n w)
include h

theorem self : fs.InUse w n := (h.inUse n).2 (.inr rfl)

theorem of_ne (hk : fs.InUse w k) (hne : k ≠ n) : fs.InUse v k := ((h.inUse k).1 hk).resolve_right hne

theorem ne (hk : fs.InUse v k) : k ≠ n := fun heq => h.fresh (heq ▸ hk)

/-- The slot of the new inode apart, the table is what it was. -/
theorem diskTable_of_ne (hne : k ≠ n) : fs.diskTable w k = fs.diskTable v k := by
  have huse : fs.InUse w k ↔ fs.InUse v k := by
    rw [h.inUse, or_iff_left hne]
  rw [diskTable, diskTable]
  simp only [huse]
  rcases em (fs.InUse v k) with hin | hout
  · rw [h.inodeAt k hin.1 hin.2.1]
  · simp only [hout, false_and, if_false]

/-- The blocks of the others are what they were. -/
theorem sameContents (hv : fs.Consistent v) (hin : fs.diskTable v k = some inode) :
    fs.SameContents v w inode := by
  have hdata (s : Option Nat) (hne : v.fileBlk fs inode s ≠ 0) :
      fs.Data v (v.fileBlk fs inode s) := by
    have hdata := hv.owned.data k s
    rw [refBlk_some hin] at hdata
    exact hdata hne
  constructor
  · intro i
    have hsame : w.fileBlk fs inode (some i) = v.fileBlk fs inode (some i) :=
      fileBlk_congr fun hne => h.blk _ (hdata none hne).outside
    exact hsame
  · exact fun i hne => h.blk _ (hdata (some i) hne).outside

/-- Somebody holds the inode of the new file. -/
theorem consistentWith (hv : fs.Consistent v) : fs.ConsistentWith w (Kaku.newInode n) where
  inUse := h.self
  isFile := isFile_newInode
  owned := by
    have hnone : fs.diskTable v n = none := if_neg fun hin => h.fresh hin.1
    have howned : fs.Owned w (Function.update (fs.diskTable v) n (some (Kaku.newInode n))) :=
      h.owned.enter hnone fun s => fileBlk_newInode
    have hsame : Function.update (fs.diskTable w) n (some (Kaku.newInode n)) =
        Function.update (fs.diskTable v) n (some (Kaku.newInode n)) := by
      funext k
      rcases eq_or_ne k n with rfl | hne
      · rw [Function.update_self, Function.update_self]
      · rw [Function.update_of_ne hne, Function.update_of_ne hne, h.diskTable_of_ne hne]
    exact hsame.symm ▸ howned
  dirs k hne hin hdir i hi := by
    have hin' := h.of_ne hin hne
    rw [h.inodeAt k hin'.1 hin'.2.1] at hdir hi ⊢
    have hsome : fs.diskTable v k = some (fs.inodeAt v k) := if_pos ⟨hin', .inr hdir⟩
    rw [(h.sameContents hv hsome).ptrs]
    exact hv.dirs k hin' hdir i hi

end NewInode

/-- The blocks that a file of `m` blocks takes when it has none, with its indirect block. -/
def taken (m : Nat) : Nat := m + if 12 < m then 1 else 0

theorem missing_newInode (m : Nat) : fs.missing v (newInode n) 0 m = m := by
  rw [missing, List.countP_eq_length.2, List.length_range', Nat.sub_zero]
  intro j _
  exact decide_eq_true (fileBlk_newInode (s := some j))

theorem needed_newInode (m : Nat) : fs.needed v (newInode n) 0 m = taken m := by
  have hsingle : (newInode n).inodeSinglyIndirectBlkPtr = 0 := load_newInode (by omega)
  rw [needed, missing_newInode, taken]
  simp only [hsingle, and_true]

end Kaku.Mount

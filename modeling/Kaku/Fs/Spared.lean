-- SUMMARY: A write leaves the blocks alone that are free when it is over.
import Kaku.Fs.Stored

/-!
# Free blocks

No step of `fs_ext2_write_file` frees a block, and none writes to one that it has not taken.
On a drive whose free blocks hold zeros they hold zeros after every write, and so does each
block that becomes an indirect block.
-/

namespace Kaku.Mount

variable {ι : Type} [DecidableEq ι] {fs : Mount} {v v' w u : Volume} {tbl : ι → Option Inode}
  {inode inode' inode'' : Inode} {k : ι} {b i m n q size fuel t : Nat} {buf : Mem} {ok : Bool}
  {touched : Set Nat}

/-- The blocks that are free now were free before, with the same bytes. -/
structure Spared (fs : Mount) (v v' : Volume) : Prop where
  free : ∀ q ∈ fs.freeBlks v', q ∈ fs.freeBlks v
  bytes : ∀ q ∈ fs.freeBlks v', ∀ x < fs.blockSize, v'.blk fs q x = v.blk fs q x

/-- Every free block is full of zeros. -/
def CleanFree (fs : Mount) (v : Volume) : Prop :=
  ∀ q ∈ fs.freeBlks v, ∀ x < fs.blockSize, v.blk fs q x = 0

namespace Spared

theorem refl : fs.Spared v v := ⟨fun _ hq => hq, fun _ _ _ _ => rfl⟩

theorem after : fs.Spared v (v.after t) := ⟨fun _ hq => hq, fun _ _ _ _ => rfl⟩

theorem trans (h : fs.Spared v w) (h' : fs.Spared w u) : fs.Spared v u where
  free q hq := h.free q (h'.free q hq)
  bytes q hq x hx := (h'.bytes q hq x hx).trans (h.bytes q (h'.free q hq) x hx)

theorem of_frame (hf : fs.Frame v v' touched) (hdata : ∀ q ∈ fs.freeBlks v, fs.Data v q)
    (hfree : ∀ q ∈ fs.freeBlks v', q ∈ fs.freeBlks v)
    (hout : ∀ q ∈ fs.freeBlks v', q ∉ touched) : fs.Spared v v' where
  free := hfree
  bytes q hq x hx := hf.data q (hdata q (hfree q hq)) (hout q hq) x hx

theorem clean (h : fs.Spared v v') (hclean : fs.CleanFree v) : fs.CleanFree v' :=
  fun q hq x hx => (h.bytes q hq x hx).trans (hclean q (h.free q hq) x hx)

end Spared

theorem CleanFree.word (h : fs.CleanFree v) (hq : q ∈ fs.freeBlks v) {j : Nat}
    (hj : j < fs.blockSize / 4) : fs.word v q j = 0 := by
  refine Eq.trans (Mem.load_congr fun x hlo hhi => ?_) (Mem.load_zero (a := 4 * j) (n := 4))
  exact h q hq x (by omega)

omit [DecidableEq ι] in
/-- A block that is marked is not free. -/
theorem Owned.not_free (h : fs.Owned v tbl) (hused : fs.Used v b) : b ∉ fs.freeBlks v := by
  intro hfree
  obtain ⟨⟨g, j⟩, hmem, rfl⟩ := List.mem_map.1 hfree
  obtain ⟨hg, hj, hclear⟩ := mem_freeBits.1 hmem
  exact hused.ne_standsFor h.image hg hj hclear rfl

/-! ## Each step -/

omit [DecidableEq ι] in
/-- Taking a block. -/
theorem Owned.spared_alloc (h : fs.Owned v tbl) (hfirst : v.sbBlockNbOfSb = 0)
    (hrun : fs.allocBlock 0 v = .ok (b, w)) : fs.Spared v w ∧ fs.Owned w tbl := by
  rcases hfree : fs.freeBlks v with _ | ⟨q, rest⟩
  · obtain ⟨t, halloc⟩ := h.alloc_none hfree
    rw [halloc] at hrun
    cases hrun
    exact ⟨.after, h.same .after (fun _ => rfl) fun _ _ => rfl⟩
  · obtain ⟨w', halloc, hrest, how, -, hframe, -⟩ := h.alloc hfirst hfree
    rw [halloc] at hrun
    cases hrun
    refine ⟨.of_frame hframe h.free (fun q' hq' => ?_) fun _ _ => Set.notMem_empty _, how⟩
    rw [hrest] at hq'
    rw [hfree]
    exact List.mem_cons_of_mem _ hq'

omit [DecidableEq ι] in
/-- Writing a block that is marked. -/
theorem Owned.spared_written (h : fs.Owned v tbl) (hw : fs.Written v b buf v')
    (hdata : fs.Data v b) (hused : fs.Used v b) : fs.Spared v v' := by
  have hsame := (hw.sameMeta h.image hdata.outside).freeBlks
  refine .of_frame (hw.frame h.image h.tables hdata) h.free (fun q hq => ?_) fun q hq heq => ?_
  · rwa [hsame] at hq
  · rw [hsame, Set.mem_singleton_iff.1 heq] at hq
    exact h.not_free hused hq

/-- Looking a word of the indirect block up, and taking a block for it. -/
theorem Owned.spared_indirect (h : fs.Owned v (Function.update tbl k (some inode)))
    (hfirst : v.sbBlockNbOfSb = 0) (hsingle : inode.inodeSinglyIndirectBlkPtr ≠ 0)
    (hrun : fs.getOrAllocIndirect inode i v = .ok (b, v')) : fs.Spared v v' := by
  have hread : fs.Owned (v.after (v.transfers + 1)) (Function.update tbl k (some inode)) :=
    h.same .after (fun _ => rfl) fun _ _ => rfl
  rw [getOrAllocIndirect] at hrun
  simp only [h.good.readBlk] at hrun
  split at hrun
  · obtain ⟨⟨blk, w⟩, halloc, hrun⟩ := bind_eq_ok.1 hrun
    obtain ⟨hspared, how⟩ := hread.spared_alloc hfirst halloc
    obtain ⟨hdata, hused⟩ := how.fileBlk_data (s := none) hsingle
    simp only [h.good.writeBlk] at hrun
    cases hrun
    exact (Spared.after.trans hspared).trans (how.spared_written ⟨rfl, rfl, rfl⟩ hdata hused)
  · cases hrun
    exact .after

/-- The lookup that allocates. -/
theorem Owned.spared_lookup (h : fs.Owned v (Function.update tbl k (some inode)))
    (hs : fs.Supplied v inode i n) (hfirst : v.sbBlockNbOfSb = 0) (hi : i < n)
    (hrun : fs.getOrAllocBlockPtr inode i v = .ok (b, inode', v')) : fs.Spared v v' := by
  rw [getOrAllocBlockPtr] at hrun
  split at hrun
  · split at hrun
    · obtain ⟨⟨blk, w⟩, halloc, hrun⟩ := bind_eq_ok.1 hrun
      cases hrun
      exact (h.spared_alloc hfirst halloc).1
    · cases hrun
      exact .refl
  split at hrun
  · cases hrun
    exact .refl
  split at hrun
  · rename_i hge _ hsingle
    obtain ⟨q, w, rest, hfree, hnew⟩ := h.new_indirect hs hi (Nat.not_lt.1 hge) hsingle
    obtain ⟨⟨q', w'⟩, halloc, hrun⟩ := bind_eq_ok.1 hrun
    rw [hnew.alloc] at halloc
    cases halloc
    obtain ⟨⟨blk, u⟩, hget, hrun⟩ := bind_eq_ok.1 hrun
    cases hrun
    have hspared := (h.spared_alloc hfirst hnew.alloc).1
    refine hspared.trans (hnew.owned.spared_indirect ?_ ?_ hget)
    · rw [hnew.frame.layout.blockNbOfSb, hfirst]
    · rw [hnew.single]
      exact hnew.ne_zero
  · rename_i hsingle
    obtain ⟨⟨blk, u⟩, hget, hrun⟩ := bind_eq_ok.1 hrun
    cases hrun
    exact h.spared_indirect hfirst hsingle hget

/-- One turn of the loop. -/
theorem Owned.spared_blk (h : fs.Owned v (Function.update tbl k (some inode)))
    (hs : fs.Supplied v inode i n) (hfirst : v.sbBlockNbOfSb = 0) (hi : i < n)
    (hmax : i < fs.maxBlocks) (hrun : fs.writeFileBlk inode i buf m v = .ok (ok, inode', v')) :
    fs.Spared v v' := by
  have hg := h.good
  rw [writeFileBlk] at hrun
  obtain ⟨⟨blk, found, w⟩, hget, hrun⟩ := bind_eq_ok.1 hrun
  have hspared := h.spared_lookup hs hfirst hi hget
  simp only at hrun
  split at hrun
  · cases hrun
    exact hspared
  · rename_i hne
    rcases h.looks hs hi hmax with
      ⟨b, inode₁, w₁, hlook, hlooked⟩ | ⟨-, inode₁, w₁, hlook, -⟩
    · rw [hget] at hlook
      cases hlook
      have hfound : w.fileBlk fs found (some i) = blk := hlooked.found
      obtain ⟨hdata, hused⟩ := hlooked.owned.fileBlk_data (s := some i) (hfound.symm ▸ hne)
      rw [hfound] at hdata hused
      simp only [hg.readBlk, hg.writeBlk, Bool.not_true, Bool.false_eq_true, if_false] at hrun
      cases hrun
      exact hspared.trans (hlooked.owned.spared_written ⟨rfl, rfl, rfl⟩ hdata hused)
    · rw [hget] at hlook
      cases hlook
      exact absurd rfl hne

/-! ## The loop -/

theorem Progress.spared (h : fs.Progress v tbl k inode buf size i inode' u)
    (hs : fs.Supplied u inode' i (fs.blocksFor size)) (hcount : fs.Counted v u inode inode' 0 i i)
    (hfirst : v.sbBlockNbOfSb = 0) (hmax : i ≤ fs.maxBlocks)
    (hrun : fs.writeFileLoop buf size fuel i (min size (i * fs.blockSize)) inode' u =
      .ok (m, inode'', w)) : fs.Spared u w := by
  have hpos := h.owned.good.sized.pos
  induction fuel generalizing i inode' u with
  | zero => cases hrun
  | succ fuel ih =>
    rw [writeFileLoop] at hrun
    rcases Nat.lt_or_ge i (fs.blocksFor size) with hmore | hend
    · have hbytes : i * fs.blockSize < size := (lt_blocksFor hpos).1 hmore
      have hwritten : min size (i * fs.blockSize) = i * fs.blockSize := by omega
      have hlater : i * fs.blockSize + min (size - i * fs.blockSize) fs.blockSize =
          min size ((i + 1) * fs.blockSize) := by
        rw [Nat.succ_mul]
        omega
      rw [hwritten, if_pos hbytes] at hrun
      obtain ⟨⟨ok, inode₁, u₁⟩, hblk, hrun⟩ := bind_eq_ok.1 hrun
      rcases Nat.lt_or_ge i fs.maxBlocks with hin | hout
      · have hfirst' : u.sbBlockNbOfSb = 0 := by rw [h.frame.layout.blockNbOfSb, hfirst]
        have hspared := h.owned.spared_blk hs hfirst' hmore hin hblk
        rcases h.step hs hcount hmore hin with
          ⟨inode₂, u₂, hstep, hnext, hs₁, hcount₁⟩ | ⟨-, inode₂, u₂, hstep, -⟩
        · rw [hblk] at hstep
          cases hstep
          simp only [if_true, hlater] at hrun
          exact hspared.trans (ih hnext hs₁ hcount₁ hin hrun)
        · rw [hblk] at hstep
          cases hstep
          cases hrun
          exact hspared
      · -- behind the last index nothing is looked up
        obtain rfl : fs.maxBlocks = i := by omega
        have hget : fs.getOrAllocBlockPtr inode' fs.maxBlocks u = .ok (0, inode', u) := by
          rw [getOrAllocBlockPtr, maxBlocks, if_neg (by omega), if_pos (by omega)]
          rfl
        rw [writeFileBlk, hget, ok_bind] at hblk
        cases hblk
        cases hrun
        exact .refl
    · have hall : size ≤ i * fs.blockSize := by
        apply Nat.le_of_not_lt
        exact fun hlt => absurd ((lt_blocksFor hpos).2 hlt) (Nat.not_lt.2 hend)
      rw [if_neg (by omega)] at hrun
      cases hrun
      exact .refl

/-! ## The whole write -/

/-- The free blocks are what they were, and the inode that the caller holds is the one on the
drive. -/
theorem ConsistentWith.spared (h : fs.ConsistentWith v inode)
    (hs : fs.Supplied v inode 0 (fs.blocksFor size)) (hfirst : v.sbBlockNbOfSb = 0) {r : Int}
    (hrun : fs.writeFile inode buf size (v.after t) = .ok (r, inode', v')) :
    fs.Spared v v' ∧ inode'.inodeId = inode.inodeId ∧
      SameBytes inode' (fs.inodeAt v' inode.inodeId) := by
  have hstart := h.owned.start buf size t
  have hcount : fs.Counted v (v.after t) (inode.setInodeSizeLowBits size)
      (inode.setInodeSizeLowBits size) 0 0 0 := fun _ _ => rfl
  obtain ⟨e, inode₁, u, hloop, hp, -⟩ := hstart.loop hs.setSize.after hcount (Nat.zero_le _)
    (Nat.zero_le _) (show fs.maxBlocks < 0 + (fs.maxBlocks + 1) by omega)
  have hspared := hstart.spared hs.setSize.after hcount hfirst (Nat.zero_le _) hloop
  have hid : inode₁.inodeId = inode.inodeId := hp.inodeId
  have hu := (hp.frame.inUse (k := inode.inodeId) h.owned.tables h.owned.image).2 h.inUse
  rw [← hid] at hu
  obtain ⟨w, hwrite, hw⟩ := hp.owned.tables.writeInode hu.1 hu.2.1
  rw [Nat.zero_mul, Nat.min_zero] at hloop
  rw [writeFile, h.isFile, Bool.not_true, if_neg Bool.false_ne_true, hloop, ok_bind] at hrun
  simp only [hwrite, ok_bind] at hrun
  cases hrun
  have hkept : fs.Spared u v' := by
    have hmeta := hw.sameMeta hp.owned.tables hu.1 hu.2.1 hp.owned.image hp.owned.tablesOutside
    refine ⟨fun q hq => ?_, fun q hq x hx => ?_⟩
    · rwa [hmeta.freeBlks] at hq
    · rw [hmeta.freeBlks] at hq
      exact hw.data hp.owned.tables hu.1 hu.2.1 (hp.owned.free q hq) hx
  refine ⟨(Spared.after.trans hspared).trans hkept, hid, ?_⟩
  rw [← hid, hw.inodeAt_self]
  exact .blit inode' inode'.inodeId

end Kaku.Mount

-- SUMMARY: A file that is written with enough free blocks: the loop over its blocks.
import Kaku.Fs.DiskTable
import Kaku.Fs.ReadFile

/-!
# The loop of a write

Each turn of the loop of `fs_ext2_write_file` finds or takes one block and fills it from the
buffer. What belongs to other inodes stays as it is.
-/

namespace Kaku.Mount

/-- How many blocks so many bytes call for. -/
def blocksFor (fs : Mount) (size : Nat) : Nat := (size + fs.blockSize - 1) / fs.blockSize

/-- The file has been written up to block `i`. What belongs to inodes of other numbers is as it
was. -/
structure Progress {ι : Type} [DecidableEq ι] (fs : Mount) (v : Volume) (tbl : ι → Option Inode)
    (k : ι) (inode : Inode) (buf : Mem) (size i : Nat) (inode' : Inode) (v' : Volume) : Prop where
  owned : fs.Owned v' (Function.update tbl k (some inode'))
  frame : fs.Frame v v' Set.univ
  raw : ∀ x < 40, inode'.raw x = inode.raw x
  inodeId : inode'.inodeId = inode.inodeId
  others : ∀ k' ≠ k, whose tbl k' ≠ some inode.inodeId → ∀ s,
    fs.refBlk v' tbl k' s = fs.refBlk v tbl k' s
  kept : ∀ k' ≠ k, whose tbl k' ≠ some inode.inodeId → ∀ s, fs.refBlk v tbl k' s ≠ 0 →
    ∀ x < fs.blockSize, v'.blk fs (fs.refBlk v tbl k' s) x = v.blk fs (fs.refBlk v tbl k' s) x
  mapped : ∀ j < i, v'.blockPtr fs inode' j ≠ 0
  written : ∀ x < min size (i * fs.blockSize), v'.fileByte fs inode' x = buf x

variable {ι : Type} [DecidableEq ι] {fs : Mount} {v v' w : Volume} {tbl : ι → Option Inode}
  {inode inode' inode'' : Inode} {k k' : ι} {b c i j n q size fuel : Nat} {s t : Option Nat}
  {buf : Mem}

/-! ## Blocks apart from the one that is written -/

/-- Two references of one inode are to different blocks. -/
theorem Owned.fileBlk_ne (h : fs.Owned v (Function.update tbl k (some inode)))
    (hne : v.fileBlk fs inode s ≠ 0) (hst : s ≠ t) :
    v.fileBlk fs inode s ≠ v.fileBlk fs inode t := by
  intro heq
  have honce := h.once k s k t
  rw [refBlk_update_self, refBlk_update_self] at honce
  exact hst (Prod.mk.inj (honce hne heq)).2

theorem Owned.fileBlk_data (h : fs.Owned v (Function.update tbl k (some inode)))
    (hne : v.fileBlk fs inode s ≠ 0) :
    fs.Data v (v.fileBlk fs inode s) ∧ fs.Used v (v.fileBlk fs inode s) := by
  have hdata := h.data k s
  have hused := h.used k s
  rw [refBlk_update_self] at hdata hused
  exact ⟨hdata hne, hused hne⟩

/-- A step that touches a block of one inode leaves the blocks of the others alone. -/
theorem Owned.others (h : fs.Owned v (Function.update tbl k (some inode)))
    (h' : fs.Owned v' (Function.update tbl k (some inode')))
    (hf : fs.Frame v v' {v'.fileBlk fs inode' t}) (hk : k' ≠ k)
    (hwhose : whose tbl k' ≠ some inode'.inodeId) (s : Option Nat) :
    fs.refBlk v' tbl k' s = fs.refBlk v tbl k' s ∧
      (fs.refBlk v tbl k' s ≠ 0 → ∀ x < fs.blockSize,
        v'.blk fs (fs.refBlk v tbl k' s) x = v.blk fs (fs.refBlk v tbl k' s) x) := by
  have hapart (s : Option Nat) (hne : fs.refBlk v' tbl k' s ≠ 0) :
      fs.refBlk v' tbl k' s ≠ v'.fileBlk fs inode' t := by
    intro heq
    have honce := h'.once k' s k t
    rw [refBlk_update_of_ne hk, refBlk_update_self, whose_update_of_ne hk, whose_update_self] at honce
    exact hwhose (Prod.mk.inj (honce hne heq)).1
  have hdata (s : Option Nat) (hne : fs.refBlk v tbl k' s ≠ 0) : fs.Data v (fs.refBlk v tbl k' s) := by
    have hdata := h.data k' s
    rw [refBlk_update_of_ne hk] at hdata
    exact hdata hne
  -- where the indirect block is does not depend on the drive
  have hroot : fs.refBlk v' tbl k' none = fs.refBlk v tbl k' none := by
    rw [refBlk, refBlk]
    cases tbl k' <;> rfl
  have hrefs (s : Option Nat) : fs.refBlk v' tbl k' s = fs.refBlk v tbl k' s :=
    refBlk_congr fun hne => hf.data _ (hdata none hne) (hroot ▸ hapart none (hroot ▸ hne))
  exact ⟨hrefs s, fun hne => hf.data _ (hdata s hne) (hrefs s ▸ hapart s (hrefs s ▸ hne))⟩

omit [DecidableEq ι] in
/-- Writing a block in use takes no free block away. -/
theorem Supplied.written (hs : fs.Supplied v inode i n) (h : fs.Owned v tbl)
    (hw : fs.Written v b buf v') (hb : fs.Data v b) (hused : fs.Used v b)
    (hptrs : ∀ j, v'.blockPtr fs inode j = v.blockPtr fs inode j) : fs.Supplied v' inode i n := by
  have hmeta := hw.sameMeta h.image hb.outside
  have hmissing (a m : Nat) : fs.missing v' inode a m = fs.missing v inode a m :=
    missing_congr fun j _ => hptrs j
  refine ⟨?_, fun hn hnone q hq j hj => ?_, fun hn hnone => ?_⟩
  · rw [needed, hmissing, hmeta.sameLayout.blockNbOfSb]
    exact hs.first
  · rw [hmissing, hmeta.freeBlks] at hq
    have hfree := List.mem_of_getElem? hq
    obtain ⟨⟨g, m⟩, hmem, hstands⟩ := List.mem_map.1 hfree
    obtain ⟨hg, hm, hclear⟩ := mem_freeBits.1 hmem
    have hne : q ≠ b := fun heq =>
      hused.ne_standsFor h.image hg hm hclear (heq.symm.trans hstands.symm)
    rw [word_eq_of_frame (hw.frame h.image h.tables hb) (h.free q hfree) hne hj]
    exact hs.clean hn hnone q hq j hj
  · rw [hmissing, hmeta.freeBlks]
    exact hs.spare hn hnone

/-! ## One turn -/

theorem lt_blocksFor (hpos : 0 < fs.blockSize) : i < fs.blocksFor size ↔ i * fs.blockSize < size := by
  rw [blocksFor, Nat.lt_div_iff_mul_lt hpos]
  omega

/-- The block behind the next index gets its bytes of the buffer. -/
structure Filled {ι : Type} [DecidableEq ι] (fs : Mount) (v v' : Volume) (tbl : ι → Option Inode)
    (k : ι) (inode : Inode) (i n : Nat) (buf : Mem) : Prop where
  owned : fs.Owned v' (Function.update tbl k (some inode))
  supplied : fs.Supplied v' inode (i + 1) n
  ptrs : ∀ j, v'.blockPtr fs inode j = v.blockPtr fs inode j
  free : fs.freeBlks v' = fs.freeBlks v
  frame : fs.Frame v v' {v.blockPtr fs inode i}
  bytes : ∀ x < fs.blockSize, v'.blk fs (v.blockPtr fs inode i) x = buf x

/-- A block of the inode is written. -/
theorem Owned.fill (h : fs.Owned v (Function.update tbl k (some inode)))
    (hs : fs.Supplied v inode (i + 1) n) (hne : v.blockPtr fs inode i ≠ 0)
    (hw : fs.Written v (v.blockPtr fs inode i) buf v') : fs.Filled v v' tbl k inode i n buf := by
  obtain ⟨hdata, hused⟩ := h.fileBlk_data (s := some i) hne
  have hframe := hw.frame h.image h.tables hdata
  have hind (k' : ι) :
      fs.refBlk v (Function.update tbl k (some inode)) k' none ≠ v.blockPtr fs inode i := by
    intro heq
    have honce := h.once k (some i) k' none
    rw [refBlk_update_self] at honce
    cases (Prod.mk.inj (honce hne heq.symm)).2
  have hptrs (j : Nat) : v'.blockPtr fs inode j = v.blockPtr fs inode j := by
    have hsame := h.refBlk_frame (k := k) (s := some j) hframe (hind k)
    rwa [refBlk_update_self, refBlk_update_self] at hsame
  exact ⟨h.written hw hdata hind, hs.written h hw hdata hused hptrs, hptrs,
    (hw.sameMeta h.image hdata.outside).freeBlks, hframe, fun x hx => Volume.blk_of_written hw.disk hx⟩

/-- Looking a block up and filling it takes the file one block further. -/
theorem Progress.next {u u' : Volume} {new : Mem}
    (h : fs.Progress v tbl k inode buf size i inode' u) (hpos : 0 < fs.blockSize)
    (hl : fs.Looked u w tbl k inode' inode'' i b n)
    (hf : fs.Filled w u' tbl k inode'' i n new)
    (hnew : ∀ x < min (size - i * fs.blockSize) fs.blockSize,
      new x = buf (i * fs.blockSize + x)) :
    fs.Progress v tbl k inode buf size (i + 1) inode'' u' := by
  have hb : w.blockPtr fs inode'' i = b := hl.found
  have hid := hl.inodeId.trans h.inodeId
  have hlook := fun k' (hk : k' ≠ k) (hwho : whose tbl k' ≠ some inode.inodeId) s =>
    h.owned.others (t := none) hl.owned hl.frame hk (hid ▸ hwho) s
  have hframe : fs.Frame w u' {u'.fileBlk fs inode'' (some i)} :=
    hf.frame.mono (Set.singleton_subset_singleton.2 (hf.ptrs i).symm)
  have hfill := fun k' (hk : k' ≠ k) (hwho : whose tbl k' ≠ some inode.inodeId) s =>
    hl.owned.others hf.owned hframe hk (hid ▸ hwho) s
  have hptrs (j : Nat) (hj : j < i) : u'.blockPtr fs inode'' j = u.blockPtr fs inode' j :=
    (hf.ptrs j).trans (hl.others j (by omega))
  have hblks (j : Nat) (hj : j < i) (x : Nat) (hx : x < fs.blockSize) :
      u'.blk fs (u.blockPtr fs inode' j) x = u.blk fs (u.blockPtr fs inode' j) x := by
    have hmid : w.fileBlk fs inode'' (some j) = u.blockPtr fs inode' j := hl.others j (by omega)
    have hold : w.fileBlk fs inode'' (some j) ≠ 0 := by
      rw [hmid]
      exact h.mapped j hj
    have hsingle := hl.owned.fileBlk_ne (t := none) hold (by simp)
    have hother := hl.owned.fileBlk_ne (t := some i) hold fun heq => by
      have hji : j = i := Option.some.inj heq
      omega
    have hdata := (hl.owned.fileBlk_data hold).1
    rw [hmid] at hsingle hother hdata
    have hthere := (h.owned.fileBlk_data (s := some j) (h.mapped j hj)).1
    rw [hf.frame.data _ hdata hother x hx]
    exact hl.frame.data _ hthere hsingle x hx
  refine ⟨hf.owned, ?_, ?_, hid, ?_, ?_, ?_, ?_⟩
  · exact ((h.frame.trans hl.frame).trans hf.frame).mono (Set.subset_univ _)
  · exact fun x hx => (hl.raw x hx).trans (h.raw x hx)
  · intro k' hk hwho s
    rw [(hfill k' hk hwho s).1, (hlook k' hk hwho s).1, h.others k' hk hwho s]
  · intro k' hk hwho s hne x hx
    have hu := h.others k' hk hwho s
    have hw := (hlook k' hk hwho s).1.trans hu
    have hfilled := (hfill k' hk hwho s).2
    have hlooked := (hlook k' hk hwho s).2
    rw [hw] at hfilled
    rw [hu] at hlooked
    rw [hfilled hne x hx, hlooked hne x hx, h.kept k' hk hwho s hne x hx]
  · intro j hj
    rcases Nat.lt_or_ge j i with hlt | hge
    · rw [hptrs j hlt]
      exact h.mapped j hlt
    · obtain rfl : j = i := by omega
      rw [hf.ptrs, hb]
      exact hl.ne_zero
  · intro x hx
    have hmod := Nat.mod_lt x hpos
    rcases Nat.lt_or_ge x (i * fs.blockSize) with hlt | hge
    · -- a block that was written before
      have hdiv : x / fs.blockSize < i := by rwa [Nat.div_lt_iff_lt_mul hpos]
      rw [Volume.fileByte, hptrs _ hdiv, ← h.written x (by omega), Volume.fileByte]
      exact hblks _ hdiv _ hmod
    · have hdiv : x / fs.blockSize = i := by
        rw [Nat.succ_mul] at hx
        rw [Nat.div_eq_iff hpos]
        omega
      have hsplit := Nat.div_add_mod x fs.blockSize
      rw [hdiv, Nat.mul_comm] at hsplit
      rw [Volume.fileByte, hdiv, hf.ptrs, hf.bytes _ hmod, hnew _ (by omega), hsplit]

/-- A lookup that finds nothing leaves the file where it was. -/
theorem Progress.stop {u u' : Volume} (h : fs.Progress v tbl k inode buf size i inode' u)
    (hpos : 0 < fs.blockSize) (hs : fs.Stopped u u' tbl k inode' inode'') :
    fs.Progress v tbl k inode buf size i inode'' u' := by
  have hrefs (k') (hk : k' ≠ k) (s) : fs.refBlk u' tbl k' s = fs.refBlk u tbl k' s := by
    have hsame := h.owned.refBlk_frame (k := k') (s := s) hs.frame (Set.notMem_empty _)
    rwa [refBlk_update_of_ne hk, refBlk_update_of_ne hk] at hsame
  refine ⟨hs.owned, (h.frame.trans hs.frame).mono (Set.subset_univ _),
    fun x hx => (hs.raw x hx).trans (h.raw x hx), hs.inodeId.trans h.inodeId,
    fun k' hk hwho s => (hrefs k' hk s).trans (h.others k' hk hwho s),
    fun k' hk hwho s hne x hx => ?_, fun j hj => ?_, fun x hx => ?_⟩
  · have hdata := h.owned.data k' s
    rw [refBlk_update_of_ne hk, h.others k' hk hwho s] at hdata
    rw [hs.frame.data _ (hdata hne) (Set.notMem_empty _) x hx, h.kept k' hk hwho s hne x hx]
  · rw [hs.ptrs]
    exact h.mapped j hj
  · have hdiv : x / fs.blockSize < i := by
      rw [Nat.div_lt_iff_lt_mul hpos]
      omega
    have hdata := (h.owned.fileBlk_data (s := some (x / fs.blockSize)) (h.mapped _ hdiv)).1
    rw [← h.written x hx, Volume.fileByte, Volume.fileByte, hs.ptrs]
    exact hs.frame.data _ hdata (Set.notMem_empty _) _ (Nat.mod_lt x hpos)

/-! ## The loop -/

/-- One turn of the loop: it writes a block, or there is no block to be had. -/
theorem Progress.step {u : Volume} (h : fs.Progress v tbl k inode buf size i inode' u)
    (hs : fs.Supplied u inode' i n) (hcount : fs.Counted v u inode inode' 0 i i) (hi : i < n)
    (hmax : i < fs.maxBlocks) :
    (∃ inode'' u', fs.writeFileBlk inode' i (fun x => buf (i * fs.blockSize + x))
        (min (size - i * fs.blockSize) fs.blockSize) u = .ok (true, inode'', u') ∧
      fs.Progress v tbl k inode buf size (i + 1) inode'' u' ∧
      fs.Supplied u' inode'' (i + 1) n ∧ fs.Counted v u' inode inode'' 0 (i + 1) (i + 1)) ∨
    (fs.freeBlks v).length < fs.needed v inode 0 (i + 1) ∧
      ∃ inode'' u', fs.writeFileBlk inode' i (fun x => buf (i * fs.blockSize + x))
        (min (size - i * fs.blockSize) fs.blockSize) u = .ok (false, inode'', u') ∧
      fs.Progress v tbl k inode buf size i inode'' u' := by
  have hg := h.owned.good
  have hpos := hg.sized.pos
  rcases h.owned.looks hs hi hmax with
    ⟨b, inode'', w, hget, hlooked⟩ | ⟨hfew, inode'', u', hget, hstopped⟩
  · obtain rfl := hlooked.found
    -- the rest of the block is written back as it was read
    generalize hbuf : ((fs.stale w.transfers).blit 0 fs.blockSize
      (w.blk fs (w.blockPtr fs inode'' i))).blit 0 (min (size - i * fs.blockSize) fs.blockSize)
        (fun x => buf (i * fs.blockSize + x)) = new
    have hwritten : fs.Written w (w.blockPtr fs inode'' i) new { w with
        disk := w.disk.blit (fs.blkAddr (w.blockPtr fs inode'' i)) fs.blockSize new
        transfers := w.transfers + 2 } := ⟨rfl, rfl, rfl⟩
    have hfilled := hlooked.owned.fill hlooked.supplied hlooked.ne_zero hwritten
    refine .inl ⟨inode'', _, ?_, h.next hpos hlooked hfilled fun x hx => ?_, hfilled.supplied,
      fun m hm => ?_⟩
    · rw [writeFileBlk, hget, ok_bind]
      simp only [if_neg hlooked.ne_zero, hg.readBlk, hg.writeBlk, hbuf, Bool.not_true,
        Bool.false_eq_true, if_false]
      rfl
    · rw [← hbuf, Mem.blit_of_mem (Nat.zero_le x) (by omega), Nat.sub_zero]
    · have hbefore := hcount m (by omega)
      have hnow := hlooked.counted m (by omega)
      rw [hfilled.free, needed, missing_congr fun j _ => hfilled.ptrs j, ← needed]
      omega
  · refine .inr ⟨?_, inode'', u', ?_, h.stop hpos hstopped⟩
    · have hbefore := hcount (i + 1) (by omega)
      omega
    · rw [writeFileBlk, hget, ok_bind]
      rfl

/-- Where the loop ends: when all is written, behind the last index, or when the free blocks
have run out. -/
structure Ended (fs : Mount) (v : Volume) (inode : Inode) (size e : Nat) : Prop where
  le : e ≤ fs.blocksFor size
  why : e = fs.blocksFor size ∨ fs.maxBlocks = e ∨
    (fs.freeBlks v).length < fs.needed v inode 0 (e + 1)

theorem Progress.loop {u : Volume} (h : fs.Progress v tbl k inode buf size i inode' u)
    (hs : fs.Supplied u inode' i (fs.blocksFor size)) (hcount : fs.Counted v u inode inode' 0 i i)
    (hi : i ≤ fs.blocksFor size) (hmax : i ≤ fs.maxBlocks) (hfuel : fs.maxBlocks < i + fuel) :
    ∃ e inode'' u', fs.writeFileLoop buf size fuel i (min size (i * fs.blockSize)) inode' u =
        .ok (min size (e * fs.blockSize), inode'', u') ∧
      fs.Progress v tbl k inode buf size e inode'' u' ∧ fs.Ended v inode size e := by
  have hpos := h.owned.good.sized.pos
  induction fuel generalizing i inode' u with
  | zero => omega
  | succ fuel ih =>
    rw [writeFileLoop]
    rcases Nat.lt_or_ge i (fs.blocksFor size) with hmore | hend
    · have hbytes : i * fs.blockSize < size := (lt_blocksFor hpos).1 hmore
      have hwritten : min size (i * fs.blockSize) = i * fs.blockSize := by omega
      rcases Nat.lt_or_ge i fs.maxBlocks with hin | hout
      · rcases h.step hs hcount hmore hin with
          ⟨inode₁, u₁, hblk, hnext, hs₁, hcount₁⟩ | ⟨hfew, inode₁, u₁, hblk, hstop⟩
        · obtain ⟨e, inode₂, u₂, hrest, hdone⟩ := ih hnext hs₁ hcount₁ hmore hin (by omega)
          have hlater : i * fs.blockSize + min (size - i * fs.blockSize) fs.blockSize =
              min size ((i + 1) * fs.blockSize) := by
            rw [Nat.succ_mul]
            omega
          refine ⟨e, inode₂, u₂, ?_, hdone⟩
          rw [hwritten, if_pos hbytes]
          simp only [hblk, ok_bind, if_true, hlater]
          exact hrest
        · refine ⟨i, inode₁, u₁, ?_, hstop, hi, .inr (.inr hfew)⟩
          rw [hwritten, if_pos hbytes]
          simp only [hblk, ok_bind, Bool.false_eq_true, if_false]
          rfl
      · -- behind the last index there is no block
        obtain rfl : fs.maxBlocks = i := by omega
        refine ⟨fs.maxBlocks, inode', u, ?_, h, hi, .inr (.inl rfl)⟩
        have hget : fs.getOrAllocBlockPtr inode' fs.maxBlocks u = .ok (0, inode', u) := by
          rw [getOrAllocBlockPtr, maxBlocks, if_neg (by omega), if_pos (by omega)]
          rfl
        rw [hwritten, if_pos hbytes]
        simp only [writeFileBlk, hget, ok_bind, if_true]
        rfl
    · obtain rfl : i = fs.blocksFor size := by omega
      have hbytes : size ≤ fs.blocksFor size * fs.blockSize := by
        apply Nat.le_of_not_lt
        exact fun hlt => Nat.lt_irrefl _ ((lt_blocksFor hpos).2 hlt)
      have hall : min size (fs.blocksFor size * fs.blockSize) = size := by omega
      refine ⟨_, inode', u, ?_, h, Nat.le_refl _, .inl rfl⟩
      rw [hall, if_neg (Nat.lt_irrefl size)]
      rfl

end Kaku.Mount

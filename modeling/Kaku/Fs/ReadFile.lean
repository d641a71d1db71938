-- SUMMARY: What reading a file returns, for every size of the request and of the file.
import Kaku.Fs.WriteFile

/-!
# Reading a file

The loop of `fs_ext2_read_file_contents` is bounded by the blocks of the file and by
the request, but not by the size of the file: the last block is copied as far as the
request goes.
-/

namespace Kaku

/-- A byte of a file, as the drive has it. -/
def Volume.fileByte (v : Volume) (fs : Mount) (inode : Inode) (x : Nat) : UInt8 :=
  v.blk fs (v.blockPtr fs inode (x / fs.blockSize)) (x % fs.blockSize)

namespace Mount

/-- Every block that the size of the file calls for is there. -/
def Mapped (fs : Mount) (v : Volume) (inode : Inode) : Prop :=
  ∀ i, i * fs.blockSize < inode.inodeSizeLowBits → v.blockPtr fs inode i ≠ 0

/-- Reading gives the bytes of the file up to the end of the request or of the file, and
leaves the rest of the buffer as it is. -/
def ReadsFile (fs : Mount) (inode : Inode) (buf : Mem) (size : Nat) (v : Volume) : Prop :=
  ∃ out w, fs.readFileContents inode buf size v =
      (((min size inode.inodeSizeLowBits : Nat) : Int), out, w) ∧
    (∀ x < min size inode.inodeSizeLowBits, out x = v.fileByte fs inode x) ∧
    ∀ x, min size inode.inodeSizeLowBits ≤ x → out x = buf x

variable {fs : Mount} {v : Volume} {inode : Inode} {buf : Mem} {size i left : Nat}

/-! ## The loop -/

/-- The loop copies whole blocks, up to the end of the request. -/
theorem Good.readFileLoop_eq (hg : fs.Good)
    (hmapped : ∀ j, i ≤ j → j < i + left → v.blockPtr fs inode j ≠ 0) (size u : Nat) (buf : Mem) :
    ∃ out t, fs.readFileLoop inode size left i (min size (i * fs.blockSize)) buf (v.after u) =
        (min size ((i + left) * fs.blockSize), out, v.after t) ∧
      (∀ x, min size (i * fs.blockSize) ≤ x → x < min size ((i + left) * fs.blockSize) →
        out x = v.fileByte fs inode x) ∧
      ∀ x, x < min size (i * fs.blockSize) ∨ min size ((i + left) * fs.blockSize) ≤ x →
        out x = buf x := by
  have hpos := hg.sized.pos
  induction left generalizing i buf u with
  | zero =>
    refine ⟨buf, u, rfl, fun x hlo hhi => ?_, fun _ _ => rfl⟩
    rw [Nat.add_zero] at hhi
    omega
  | succ left ih =>
    rw [readFileLoop]
    have hend : i + (left + 1) = i + 1 + left := by omega
    have hnext : (i + 1) * fs.blockSize = i * fs.blockSize + fs.blockSize := Nat.succ_mul _ _
    have hlater : (i + 1) * fs.blockSize ≤ (i + 1 + left) * fs.blockSize :=
      Nat.mul_le_mul_right _ (by omega)
    rw [hend]
    by_cases hmore : min size (i * fs.blockSize) < size
    · have hwritten : min size (i * fs.blockSize) = i * fs.blockSize := by omega
      obtain ⟨t, hptr⟩ := hg.getBlockPtr_eq inode i (v.after u)
      have hne := hmapped i (Nat.le_refl i) (by omega)
      have hread : fs.readBlk (v.blockPtr fs inode i) (v.after t) = _ := hg.readBlk
      have hstep : i * fs.blockSize + min (size - i * fs.blockSize) fs.blockSize =
          min size ((i + 1) * fs.blockSize) := by omega
      obtain ⟨out, t', hrest, hnew, hkept⟩ := ih (i := i + 1)
        (fun j hlo hhi => hmapped j (by omega) (by omega)) (t + 1)
        (buf.blit (i * fs.blockSize) (min (size - i * fs.blockSize) fs.blockSize)
          ((fs.stale t).blit 0 fs.blockSize (v.blk fs (v.blockPtr fs inode i))))
      refine ⟨out, t', ?_, fun x hlo hhi => ?_, fun x hx => ?_⟩
      · simp only [hwritten, if_pos (show i * fs.blockSize < size by omega), hptr,
          Volume.after_blockPtr, Volume.after_after, if_neg hne, hread, hstep, Bool.not_true, Bool.false_eq_true, if_false, Volume.after_transfers,
          Volume.after_blk]
        exact hrest
      · rcases Nat.lt_or_ge x (min size ((i + 1) * fs.blockSize)) with hthis | hlater'
        · have hdiv : x / fs.blockSize = i := by
            rw [Nat.div_eq_iff hpos]
            omega
          have hmod : x % fs.blockSize = x - i * fs.blockSize := by
            have hsplit := Nat.div_add_mod x fs.blockSize
            rw [hdiv, Nat.mul_comm] at hsplit
            omega
          rw [hkept x (.inl hthis), Mem.blit_of_mem (by omega) (by omega),
            Mem.blit_of_mem (by omega) (by omega), Volume.fileByte, hdiv, hmod, Nat.sub_zero]
        · exact hnew x hlater' hhi
      · rw [hkept x (by omega), Mem.blit_of_not_mem (by omega)]
    · have hall : min size (i * fs.blockSize) = min size ((i + 1 + left) * fs.blockSize) := by omega
      refine ⟨buf, u, ?_, fun x hlo hhi => by omega, fun _ _ => rfl⟩
      rw [if_neg hmore, ← hall]

/-- What was copied before stays. -/
theorem readFileLoop_kept {written x : Nat} (hx : x < written) :
    (fs.readFileLoop inode size left i written buf v).2.1 x = buf x := by
  induction left generalizing i written buf v with
  | zero => rfl
  | succ left ih =>
    rw [readFileLoop]
    simp only
    split_ifs
    · rfl
    · rfl
    · rw [ih (by omega), Mem.blit_of_not_mem (by omega)]
    · rfl

/-! ## The blocks of a file -/

/-- A file whose blocks are mapped ends within the singly indirect range. -/
theorem Mapped.size_le (h : fs.Mapped v inode) :
    inode.inodeSizeLowBits ≤ (12 + fs.blockSize / 4) * fs.blockSize := by
  by_contra hlarge
  apply h (12 + fs.blockSize / 4) (by omega)
  exact blockPtr_of_large (Nat.le_refl _)

/-- The blocks of such a file are counted without an overflow. -/
theorem Mapped.nbBlocks (h : fs.Mapped v inode) (hg : fs.Good) :
    inode.inodeSizeLowBits ≤ fs.nbBlocks inode * fs.blockSize ∧
      fs.nbBlocks inode * fs.blockSize < inode.inodeSizeLowBits + fs.blockSize := by
  have hpos := hg.sized.pos
  have hsmall := hg.small
  have hrange : (12 + fs.blockSize / 4) * fs.blockSize ≤ (12 + 65536 / 4) * 65536 :=
    Nat.mul_le_mul (by omega) hsmall
  have hsize := h.size_le
  rw [Mount.nbBlocks, ceilDiv, addr32, Nat.mod_eq_of_lt (by omega)]
  have hdiv := Nat.div_add_mod (inode.inodeSizeLowBits + fs.blockSize - 1) fs.blockSize
  have hmod := Nat.mod_lt (inode.inodeSizeLowBits + fs.blockSize - 1) hpos
  rw [Nat.mul_comm] at hdiv
  omega

/-! ## Whole reads -/

/-- With blocks of up to 64 KiB a read goes to the end of the last block. -/
theorem Good.readsFile_iff (hg : fs.Good) (hfile : inode.isFile = true)
    (hmapped : fs.Mapped v inode) : fs.ReadsFile inode buf size v ↔
      min size (fs.nbBlocks inode * fs.blockSize) = min size inode.inodeSizeLowBits := by
  obtain ⟨hcover, hlast⟩ := hmapped.nbBlocks hg
  have hblocks : ∀ j, 0 ≤ j → j < 0 + fs.nbBlocks inode → v.blockPtr fs inode j ≠ 0 := by
    intro j _ hj
    apply hmapped
    have hbelow : (j + 1) * fs.blockSize ≤ fs.nbBlocks inode * fs.blockSize :=
      Nat.mul_le_mul_right _ (by omega)
    rw [Nat.succ_mul] at hbelow
    omega
  obtain ⟨out, t, hloop, hnew, hkept⟩ := hg.readFileLoop_eq hblocks size v.transfers buf
  simp only [Nat.zero_mul, Nat.min_zero, Nat.zero_add, Volume.after_self] at hloop hnew hkept
  have hread : fs.readFileContents inode buf size v =
      (((min size (fs.nbBlocks inode * fs.blockSize) : Nat) : Int), out, v.after t) := by
    rw [readFileContents, hfile, Bool.not_true, if_neg Bool.false_ne_true, hloop]
  rw [ReadsFile, hread]
  constructor
  · rintro ⟨out', w, heq, -⟩
    exact Int.ofNat.inj (Prod.mk.inj heq).1
  · intro hsame
    rw [hsame] at hnew hkept ⊢
    exact ⟨out, _, rfl, fun x hx => hnew x (Nat.zero_le x) hx, fun x hx => hkept x (.inr hx)⟩

/-- A block of more than 64 KiB is not transferred: what is read is what the heap held. -/
theorem readsFile_stale (fs : Mount) (hs : fs.Sized) (hr : fs.Reliable) (hlarge : 65536 < fs.blockSize)
    (hfile : inode.isFile = true) (hmapped : fs.Mapped v inode)
    (hread : fs.ReadsFile inode buf size v) (hpos : 0 < min size inode.inodeSizeLowBits) :
    v.fileByte fs inode 0 = fs.stale v.transfers 0 := by
  obtain ⟨out, w, hcontents, hbytes, -⟩ := hread
  have hfirst := hmapped 0 (by omega)
  have hdirect : v.blockPtr fs inode 0 = inode.inodeDirectBlkPtr 0 := blockPtr_of_direct (by decide)
  have hzero : fs.blockSize / ataSectorSize % 2 ^ 8 = 0 := by
    rcases hs.sectors with ⟨hsmall, -⟩ | ⟨-, hzero⟩
    · omega
    · exact hzero
  have hstale (b : Nat) : fs.readBlk b v = (true, fs.stale v.transfers, v.after (v.transfers + 1)) := by
    rw [readBlk, ataRead, moved, hr, hzero]
    have hkept : (fs.stale v.transfers).blit 0 (ataSectorSize * 0)
        (fun x => v.disk (sectorAddr (fs.blkToLba b) + x)) = fs.stale v.transfers := by
      funext x
      exact Mem.blit_of_not_mem (by omega)
    rw [hkept]
    rfl
  rw [readFileContents, hfile, Bool.not_true, if_neg Bool.false_ne_true] at hcontents
  cases hleft : fs.nbBlocks inode with
  | zero =>
    rw [hleft] at hcontents
    have hnone : ((0 : Nat) : Int) = _ := (Prod.mk.inj hcontents).1
    omega
  | succ left =>
    rw [hleft] at hcontents
    have hout : out = (fs.readFileLoop inode size (left + 1) 0 0 buf v).2.1 :=
      (Prod.mk.inj (Prod.mk.inj hcontents).2).1.symm
    rw [← hbytes 0 hpos, hout, readFileLoop, if_pos (by omega)]
    have hptr : fs.getBlockPtr inode 0 v = (inode.inodeDirectBlkPtr 0, v) := rfl
    simp only [hptr, if_neg (hdirect ▸ hfirst), hstale, Bool.not_true, Bool.false_eq_true, if_false]
    have hsome : 0 < 0 + min (size - 0) fs.blockSize := by
      have := hs.pos
      omega
    rw [readFileLoop_kept hsome, Mem.blit_of_mem (Nat.le_refl _) (by omega)]

/-- Nothing is read of an empty file, or if nothing is asked for. -/
theorem readsFile_of_empty (hs : fs.Sized) (hfile : inode.isFile = true)
    (hempty : min size inode.inodeSizeLowBits = 0) : fs.ReadsFile inode buf size v := by
  have hloop : fs.readFileLoop inode size (fs.nbBlocks inode) 0 0 buf v = (0, buf, v) := by
    rcases Nat.eq_zero_or_pos size with rfl | hsize
    · cases fs.nbBlocks inode <;> rfl
    · have hnone : fs.nbBlocks inode = 0 := by
        have hpos := hs.pos
        have hlt := hs.lt
        have hzero : inode.inodeSizeLowBits = 0 := by omega
        rw [Mount.nbBlocks, hzero, ceilDiv, addr32, Nat.mod_eq_of_lt (by omega)]
        exact Nat.div_eq_of_lt (by omega)
      rw [hnone]
      rfl
  refine ⟨buf, v, ?_, fun x hx => by omega, fun _ _ => rfl⟩
  rw [readFileContents, hfile, Bool.not_true, if_neg Bool.false_ne_true, hloop, hempty]

/-- The last block ends with the file, or lies behind the end of the request. -/
theorem Mapped.reads_to_end_iff (h : fs.Mapped v inode) (hg : fs.Good) :
    min size (fs.nbBlocks inode * fs.blockSize) = min size inode.inodeSizeLowBits ↔
      size ≤ inode.inodeSizeLowBits ∨ fs.blockSize ∣ inode.inodeSizeLowBits := by
  obtain ⟨hcover, hlast⟩ := h.nbBlocks hg
  constructor
  · intro hsame
    rcases Nat.lt_or_ge inode.inodeSizeLowBits size with hbeyond | hwithin
    · refine .inr ⟨fs.nbBlocks inode, ?_⟩
      rw [Nat.mul_comm]
      omega
    · exact .inl hwithin
  · rintro (hwithin | ⟨n, hn⟩)
    · omega
    · have hblocks : fs.nbBlocks inode = n := by
        rw [hn, Nat.mul_comm fs.blockSize] at hcover hlast
        have hle := Nat.le_of_mul_le_mul_right hcover hg.sized.pos
        rw [← Nat.succ_mul] at hlast
        have hlt := Nat.lt_of_mul_lt_mul_right hlast
        omega
      rw [hblocks, hn, Nat.mul_comm]

/-- Whatever the heap holds, reading a mapped file stops at its end and gives its bytes
exactly if nothing is asked for, the file is empty, or its blocks have up to 64 KiB and
either the request does not go beyond the file or the file ends where a block ends. -/
theorem read_file_iff (hs : fs.Sized) (hr : fs.Reliable) (hfile : inode.isFile = true)
    (hmapped : fs.Mapped v inode) :
    (∀ stale, { fs with stale := stale }.ReadsFile inode buf size v) ↔
      size = 0 ∨ inode.inodeSizeLowBits = 0 ∨ fs.blockSize ≤ 65536 ∧
        (size ≤ inode.inodeSizeLowBits ∨ fs.blockSize ∣ inode.inodeSizeLowBits) := by
  constructor
  · intro hreads
    rcases Nat.eq_zero_or_pos size with hzero | hsize
    · exact .inl hzero
    rcases Nat.eq_zero_or_pos inode.inodeSizeLowBits with hzero | hcontents
    · exact .inr (.inl hzero)
    rcases Nat.lt_or_ge 65536 fs.blockSize with hlarge | hsmall
    · -- the heap may hold another byte than the file
      have hsame := readsFile_stale { fs with stale := fun _ _ => v.fileByte fs inode 0 + 1 }
        hs hr hlarge hfile hmapped (hreads _) (by omega)
      have hother (b : UInt8) : b ≠ b + 1 := by grind
      exact absurd hsame (hother _)
    · have hg : fs.Good := ⟨hr, hs, hsmall⟩
      refine .inr (.inr ⟨hsmall, ?_⟩)
      exact (hmapped.reads_to_end_iff hg).1 ((hg.readsFile_iff hfile hmapped).1 (hreads fs.stale))
  · rintro (hzero | hzero | ⟨hsmall, hend⟩) stale
    · exact readsFile_of_empty hs hfile (by omega)
    · exact readsFile_of_empty hs hfile (by omega)
    · have hg : fs.Good := ⟨hr, hs, hsmall⟩
      have hg' : { fs with stale := stale }.Good := ⟨hr, hs, hsmall⟩
      exact (hg'.readsFile_iff hfile hmapped).2 ((hmapped.reads_to_end_iff hg).2 hend)

/-! ## A file of five bytes -/

/-- A file in block 5. -/
def shortInode : Inode where
  raw := ((Mem.store (fun _ => 0) 0 2 0x81A4).store 4 4 5).store 40 4 5
  inodeId := 11

/-- A drive with nothing on it. -/
def zeroVolume : Volume := recordVolume []

theorem shortInode_mapped : kibMount.Mapped zeroVolume shortInode := by
  intro i hi
  have hsize : shortInode.inodeSizeLowBits = 5 := by decide
  rw [hsize, show kibMount.blockSize = 1024 from rfl] at hi
  obtain rfl : i = 0 := by omega
  decide

/-- The first three bytes. -/
theorem read_file_three : shortInode.inodeSizeLowBits = 5 ∧
    ∀ stale, { kibMount with stale := stale }.ReadsFile shortInode (fun _ => 1) 3 zeroVolume := by
  have hsize : shortInode.inodeSizeLowBits = 5 := by decide
  have hfile : shortInode.isFile = true := by decide
  refine ⟨hsize, (read_file_iff kibMount_sized (fun _ _ => rfl) hfile shortInode_mapped).2 ?_⟩
  exact .inr (.inr ⟨by decide, .inl (by omega)⟩)

/-- Who asks for ten bytes gets ten bytes. -/
theorem read_beyond_end : kibMount.Good ∧ shortInode.isFile = true ∧
    kibMount.Mapped zeroVolume shortInode ∧
      ¬ kibMount.ReadsFile shortInode (fun _ => 1) 10 zeroVolume := by
  refine ⟨⟨fun _ _ => rfl, kibMount_sized, by decide⟩, by decide, shortInode_mapped, ?_⟩
  rintro ⟨out, w, hread, -⟩
  have hcount : (kibMount.readFileContents shortInode (fun _ => 1) 10 zeroVolume).1 = 5 := by
    have hsize : shortInode.inodeSizeLowBits = 5 := by decide
    rw [hread, hsize]
    rfl
  revert hcount
  decide

end Mount

end Kaku

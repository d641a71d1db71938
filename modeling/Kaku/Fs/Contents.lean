-- SUMMARY: What reading and listing return depends on the blocks of the inode, and on nothing else of the drive.
import Kaku.Fs.ReadFile

/-!
# The same contents

Two volumes on which an inode refers to the same blocks, with the same bytes, look the same
to the functions that read it.
-/

namespace Kaku

/-- A run that gives a result, whatever volume it leaves behind. -/
def Returns {α : Type} (x : K (α × Volume)) (a : α) : Prop := ∃ w, x = .ok (a, w)

namespace Mount

/-! ## Reading by number -/

/-- `fs_ext2_read_inode`, and then `fs_ext2_read_file_contents`. -/
def fileBack (fs : Mount) (k : Nat) (buf : Mem) (size : Nat) (v : Volume) :
    K ((Int × Mem) × Volume) := do
  let (inode, v) ← fs.readInode k v
  let (n, buf, v) := fs.readFileContents inode buf size v
  pure ((n, buf), v)

/-- `fs_ext2_read_inode`, and then `fs_ext2_list_dir`. -/
def dirBack (fs : Mount) (k : Nat) (v : Volume) : K (Option (List Entry) × Volume) := do
  let (inode, v) ← fs.readInode k v
  fs.listDir inode v

/-! ## The same blocks -/

structure SameContents (fs : Mount) (v v' : Volume) (inode : Inode) : Prop where
  ptrs : ∀ i, v'.blockPtr fs inode i = v.blockPtr fs inode i
  bytes : ∀ i, v.blockPtr fs inode i ≠ 0 → ∀ x < fs.blockSize,
    v'.blk fs (v.blockPtr fs inode i) x = v.blk fs (v.blockPtr fs inode i) x

variable {fs : Mount} {v v' w : Volume} {inode : Inode} {buf buf' : Mem} {a n i left size written : Nat}
  {fuel k t t' : Nat} {found : Option (List Entry)}

theorem SameContents.symm (h : fs.SameContents v v' inode) : fs.SameContents v' v inode where
  ptrs i := (h.ptrs i).symm
  bytes i hne x hx := by
    rw [h.ptrs] at hne ⊢
    exact (h.bytes i hne x hx).symm

theorem SameContents.trans (h : fs.SameContents v v' inode) (h' : fs.SameContents v' w inode) :
    fs.SameContents v w inode where
  ptrs i := (h'.ptrs i).trans (h.ptrs i)
  bytes i hne x hx := by
    have hsame := h'.bytes i
    rw [h.ptrs] at hsame
    rw [hsame hne x hx, h.bytes i hne x hx]

/-! ## Buffers with the same bytes -/

theorem peek_congr (h : ∀ x < fs.blockSize, buf' x = buf x) : fs.peek buf' a n = fs.peek buf a n := by
  rw [peek, peek]
  split
  · congr 1
    apply Mem.load_congr
    intro x _ hx
    exact h x (by omega)
  · rfl

theorem peekBytes_congr (h : ∀ x < fs.blockSize, buf' x = buf x) :
    fs.peekBytes buf' a n = fs.peekBytes buf a n := by
  rw [peekBytes, peekBytes]
  split
  · congr 1
    apply List.map_congr_left
    intro x hx
    rw [List.mem_range] at hx
    exact h (a + x) (by omega)
  · rfl

/-- The listing of a block sees the bytes of the block only. -/
theorem listBlk_congr (h : ∀ x < fs.blockSize, buf' x = buf x) :
    fs.listBlk buf' fuel a = fs.listBlk buf fuel a := by
  induction fuel generalizing a with
  | zero => rfl
  | succ fuel ih =>
    rw [listBlk, listBlk]
    simp only [peek_congr h, peekBytes_congr h, ih]

theorem readBlk_bytes {b x : Nat} (hx : x < fs.blockSize) :
    (fs.stale t).blit 0 fs.blockSize (v.blk fs b) x = v.blk fs b x := by
  rw [Mem.blit_of_mem (Nat.zero_le x) (by omega), Nat.sub_zero]

/-! ## Reading and listing -/

namespace SameContents

variable (h : fs.SameContents v v' inode) (hg : fs.Good)
include h hg

/-- The loop copies the same bytes on both volumes. -/
theorem readFileLoop (size left i written : Nat) (buf : Mem) (t t' : Nat) :
    ∃ m out u u', fs.readFileLoop inode size left i written buf (v.after t) = (m, out, v.after u) ∧
      fs.readFileLoop inode size left i written buf (v'.after t') = (m, out, v'.after u') := by
  induction left generalizing i written buf t t' with
  | zero => exact ⟨_, _, _, _, rfl, rfl⟩
  | succ left ih =>
    obtain ⟨u, hptr⟩ := hg.getBlockPtr_eq inode i (v.after t)
    obtain ⟨u', hptr'⟩ := hg.getBlockPtr_eq inode i (v'.after t')
    have hread : fs.readBlk (v.blockPtr fs inode i) (v.after u) = _ := hg.readBlk
    have hread' : fs.readBlk (v.blockPtr fs inode i) (v'.after u') = _ := hg.readBlk
    simp only [Mount.readFileLoop, hptr, hptr', Volume.after_blockPtr, Volume.after_after, h.ptrs,
      hread, hread', Bool.not_true, Bool.false_eq_true, if_false, Volume.after_transfers,
      Volume.after_blk]
    split_ifs with hmore hzero
    · exact ⟨_, _, _, _, rfl, rfl⟩
    · have hsame : buf.blit written (min (size - written) fs.blockSize)
          ((fs.stale u').blit 0 fs.blockSize (v'.blk fs (v.blockPtr fs inode i))) =
          buf.blit written (min (size - written) fs.blockSize)
            ((fs.stale u).blit 0 fs.blockSize (v.blk fs (v.blockPtr fs inode i))) := by
        apply Mem.blit_congr
        intro x hx
        rw [readBlk_bytes (by omega), readBlk_bytes (by omega), h.bytes i hzero x (by omega)]
      rw [hsame]
      exact ih _ _ _ (u + 1) (u' + 1)
    · exact ⟨_, _, _, _, rfl, rfl⟩

theorem readFileContents (t t' : Nat) :
    ∃ m out u u', fs.readFileContents inode buf size (v.after t) = (m, out, v.after u) ∧
      fs.readFileContents inode buf size (v'.after t') = (m, out, v'.after u') := by
  simp only [Mount.readFileContents]
  split
  · exact ⟨_, _, _, _, rfl, rfl⟩
  · obtain ⟨m, out, u, u', hread, hread'⟩ :=
      h.readFileLoop hg size (fs.nbBlocks inode) 0 0 buf t t'
    simp only [hread, hread']
    exact ⟨_, _, _, _, rfl, rfl⟩

theorem listBlks (hmapped : ∀ j, i ≤ j → j < i + left → v.blockPtr fs inode j ≠ 0) (t t' : Nat)
    (hlist : Returns (fs.listBlks inode left i (v.after t)) found) :
    Returns (fs.listBlks inode left i (v'.after t')) found := by
  induction left generalizing i found t t' with
  | zero =>
    obtain ⟨w, hlist⟩ := hlist
    cases hlist
    exact ⟨_, rfl⟩
  | succ left ih =>
    obtain ⟨u, hptr⟩ := hg.getBlockPtr_eq inode i (v.after t)
    obtain ⟨u', hptr'⟩ := hg.getBlockPtr_eq inode i (v'.after t')
    have hread : fs.readBlk (v.blockPtr fs inode i) (v.after u) = _ := hg.readBlk
    have hread' : fs.readBlk (v.blockPtr fs inode i) (v'.after u') = _ := hg.readBlk
    have hblk : fs.listBlk ((fs.stale u').blit 0 fs.blockSize (v'.blk fs (v.blockPtr fs inode i)))
        (fs.blockSize + 1) 0 =
        fs.listBlk ((fs.stale u).blit 0 fs.blockSize (v.blk fs (v.blockPtr fs inode i)))
          (fs.blockSize + 1) 0 := by
      apply listBlk_congr
      intro x hx
      rw [readBlk_bytes hx, readBlk_bytes hx,
        h.bytes i (hmapped i (Nat.le_refl i) (by omega)) x hx]
    simp only [Mount.listBlks, hptr, hptr', Volume.after_blockPtr, Volume.after_after, h.ptrs,
      hread, hread', Bool.not_true, Bool.false_eq_true, if_false, Volume.after_transfers,
      Volume.after_blk, hblk] at hlist ⊢
    obtain ⟨w, hlist⟩ := hlist
    obtain ⟨entries, hentries, hlist⟩ := bind_eq_ok.1 hlist
    obtain ⟨⟨rest, w'⟩, hrest, hlist⟩ := bind_eq_ok.1 hlist
    cases hlist
    obtain ⟨x, hrest'⟩ := ih (fun j hlo hhi => hmapped j (by omega) (by omega)) (u + 1) (u' + 1)
      ⟨_, hrest⟩
    refine ⟨x, ?_⟩
    rw [hentries, ok_bind, show ({ v'.after u' with transfers := u' + 1 } : Volume) =
      v'.after (u' + 1) from rfl, hrest', ok_bind]
    rfl

/-- A directory without holes. -/
theorem listDir (hmapped : ∀ j < fs.nbBlocks inode, v.blockPtr fs inode j ≠ 0) (t t' : Nat)
    (hlist : Returns (fs.listDir inode (v.after t)) found) :
    Returns (fs.listDir inode (v'.after t')) found := by
  rw [Mount.listDir] at hlist ⊢
  split at hlist
  · rename_i hdir
    obtain ⟨w, hlist⟩ := hlist
    cases hlist
    rw [if_pos hdir]
    exact ⟨_, rfl⟩
  · rename_i hdir
    rw [if_neg hdir]
    exact h.listBlks hg (fun j _ hj => hmapped j (by omega)) t t' hlist

end SameContents

end Mount

end Kaku

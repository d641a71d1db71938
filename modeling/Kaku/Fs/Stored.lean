-- SUMMARY: A write with enough free blocks stores the whole buffer, and changes that file and nothing else.
import Kaku.Fs.Contents
import Kaku.Fs.WriteRun

/-!
# A file that is stored

`fs_ext2_write_file` on a consistent image. The free blocks hold any bytes, with one
exception: the block that becomes the indirect block is used as it is.
-/

namespace Kaku.Mount

variable {fs : Mount} {v v' w : Volume} {inode inode' : Inode} {k k' n size t : Nat}
  {s : Option Nat} {buf : Mem}

/-! ## Inodes that differ in their size -/

theorem load_setSize {a m : Nat} (h : a + m ≤ 4 ∨ 8 ≤ a) :
    (inode.setInodeSizeLowBits size).raw.load a m = inode.raw.load a m :=
  Mem.load_store_of_disjoint (by omega)

theorem single_setSize : (inode.setInodeSizeLowBits size).inodeSinglyIndirectBlkPtr =
    inode.inodeSinglyIndirectBlkPtr := load_setSize (by omega)

theorem fileBlk_setSize :
    v.fileBlk fs (inode.setInodeSizeLowBits size) s = v.fileBlk fs inode s := by
  cases s with
  | none => exact single_setSize
  | some i =>
    rcases Nat.lt_or_ge i 12 with hi | hi
    · exact (blockPtr_of_direct hi).trans ((load_setSize (by omega)).trans (blockPtr_of_direct hi).symm)
    · exact blockPtr_of_single hi single_setSize

theorem missing_setSize {a m : Nat} : fs.missing v (inode.setInodeSizeLowBits size) a m =
    fs.missing v inode a m := missing_congr fun j _ => fileBlk_setSize (s := some j)

theorem needed_setSize {a m : Nat} : fs.needed v (inode.setInodeSizeLowBits size) a m =
    fs.needed v inode a m := by rw [needed, needed, missing_setSize, single_setSize]

theorem Supplied.setSize (h : fs.Supplied v inode 0 n) :
    fs.Supplied v (inode.setInodeSizeLowBits size) 0 n := by
  refine ⟨needed_setSize.symm ▸ h.first, fun hn hnone => ?_, fun hn hnone => ?_⟩
  · rw [missing_setSize]
    exact h.clean hn (single_setSize.symm.trans hnone)
  · rw [missing_setSize]
    exact h.spare hn (single_setSize.symm.trans hnone)

/-! ## The beginning of the loop -/

theorem Owned.start {ι : Type} [DecidableEq ι] {tbl : ι → Option Inode} {p : ι}
    (h : fs.Owned v (Function.update tbl p (some inode))) (buf : Mem) (size t : Nat) :
    fs.Progress v tbl p (inode.setInodeSizeLowBits size) buf size 0
      (inode.setInodeSizeLowBits size) (v.after t) where
  owned := by
    refine h.same .after (whose_update rfl) fun p' s => ?_
    rcases eq_or_ne p' p with rfl | hne
    · rw [refBlk_update_self, refBlk_update_self]
      exact fileBlk_setSize
    · rw [refBlk_update_of_ne hne, refBlk_update_of_ne hne]
      rfl
  frame := Frame.after.mono (Set.subset_univ _)
  raw _ _ := rfl
  inodeId := rfl
  others _ _ _ _ := rfl
  kept _ _ _ _ _ _ _ := rfl
  mapped j hj := absurd hj (Nat.not_lt_zero j)
  written x hx := by
    rw [Nat.zero_mul, Nat.min_zero] at hx
    exact absurd hx (Nat.not_lt_zero x)

/-- What the loop leaves of an inode, apart from its pointers. -/
theorem Progress.head {ι : Type} [DecidableEq ι] {tbl : ι → Option Inode} {p : ι} {e : Nat}
    {u : Volume} (hp : fs.Progress v tbl p (inode.setInodeSizeLowBits size) buf size e inode' u)
    (hsize : size < 2 ^ 32) : inode'.inodeTypeAndPermissions = inode.inodeTypeAndPermissions ∧
      inode'.inodeSizeLowBits = size := by
  have hread (a m : Nat) (hin : a + m ≤ 40) :
      inode'.raw.load a m = (inode.setInodeSizeLowBits size).raw.load a m :=
    Mem.load_congr fun x _ hx => hp.raw x (by omega)
  constructor
  · rw [Inode.inodeTypeAndPermissions, hread 0 2 (by omega), load_setSize (by omega)]
    rfl
  · rw [Inode.inodeSizeLowBits, hread 4 4 (by omega)]
    exact Mem.load_store_self.trans (Nat.mod_eq_of_lt hsize)

/-! ## The end of the write -/

/-- A consistent image on which somebody holds a file in place of the one on the drive. -/
structure ConsistentWith (fs : Mount) (v : Volume) (inode : Inode) : Prop where
  inUse : fs.InUse v inode.inodeId
  isFile : inode.isFile = true
  owned : fs.Owned v (Function.update (fs.diskTable v) inode.inodeId (some inode))
  dirs : ∀ k ≠ inode.inodeId, fs.InUse v k → (fs.inodeAt v k).isDir = true →
    ∀ i < fs.nbBlocks (fs.inodeAt v k), v.blockPtr fs (fs.inodeAt v k) i ≠ 0

theorem Consistent.with_file (h : fs.Consistent v) (huse : fs.InUse v k)
    (hfile : (fs.inodeAt v k).isFile = true) : fs.ConsistentWith v (fs.inodeAt v k) where
  inUse := huse
  isFile := hfile
  owned := by
    have htable : fs.diskTable v k = some (fs.inodeAt v k) := if_pos ⟨huse, .inl hfile⟩
    have hsame : Function.update (fs.diskTable v) k (some (fs.inodeAt v k)) = fs.diskTable v := by
      rw [← htable, Function.update_eq_self]
    exact hsame.symm ▸ h.owned
  dirs k' _ := h.dirs k'

/-- The volume on which file `k` has got `e` blocks of new contents. -/
structure Stored (fs : Mount) (v v' : Volume) (k : Nat) (buf : Mem) (size e : Nat) : Prop where
  consistent : fs.Consistent v'
  layout : SameLayout v v'
  inUse : ∀ k', fs.InUse v' k' ↔ fs.InUse v k'
  others : ∀ k' ≠ k, fs.InUse v k' → fs.inodeAt v' k' = fs.inodeAt v k'
  contents : ∀ k' ≠ k, ∀ inode, fs.diskTable v k' = some inode → fs.SameContents v v' inode
  isFile : (fs.inodeAt v' k).isFile = true
  recorded : (fs.inodeAt v' k).inodeSizeLowBits = size
  mapped : ∀ j < e, v'.blockPtr fs (fs.inodeAt v' k) j ≠ 0
  bytes : ∀ x < min size (e * fs.blockSize), v'.fileByte fs (fs.inodeAt v' k) x = buf x

theorem isDir_of_isFile (h : inode.isFile = true) : inode.isDir = false := by
  rw [Inode.isFile, beq_iff_eq] at h
  rw [Inode.isDir, h]
  rfl

/-- What belongs to others is the same when the loop is over and the inode has been written. -/
theorem Progress.contents {ι : Type} [DecidableEq ι] {tbl : ι → Option Inode} {p p' : ι}
    {inode₀ : Inode} {i : Nat} {u : Volume}
    (hp : fs.Progress v tbl p inode₀ buf size i inode' u) (hw : fs.SlotWritten u inode' v')
    (hid : 1 ≤ inode'.inodeId) (hcount : inode'.inodeId ≤ u.sbInodesCount) (hne : p' ≠ p)
    (hin : tbl p' = some inode) (hnumber : inode.inodeId ≠ inode₀.inodeId) :
    fs.SameContents v v' inode := by
  have hwhose : whose tbl p' ≠ some inode₀.inodeId := by
    rw [whose, hin]
    exact fun heq => hnumber (Option.some.inj heq)
  have hrefs (s : Option Nat) : u.fileBlk fs inode s = v.fileBlk fs inode s := by
    have hsame := hp.others p' hne hwhose s
    rwa [refBlk_some hin, refBlk_some hin] at hsame
  have hdata (s : Option Nat) (hs : u.fileBlk fs inode s ≠ 0) :
      fs.Data u (u.fileBlk fs inode s) := by
    have hdata := hp.owned.data p' s
    rw [refBlk_update_of_ne hne, refBlk_some hin] at hdata
    exact hdata hs
  have hblk (s : Option Nat) (hs : u.fileBlk fs inode s ≠ 0) (x : Nat) (hx : x < fs.blockSize) :
      v'.blk fs (u.fileBlk fs inode s) x = u.blk fs (u.fileBlk fs inode s) x :=
    hw.data hp.owned.tables hid hcount (hdata s hs) hx
  constructor
  · intro i
    have hafter : v'.fileBlk fs inode (some i) = u.fileBlk fs inode (some i) :=
      fileBlk_congr fun hs => hblk none hs
    exact hafter.trans (hrefs (some i))
  · intro i hs x hx
    have hkept := hp.kept p' hne hwhose (some i)
    have hsame := hblk (some i)
    rw [refBlk_some hin] at hkept
    rw [hrefs] at hsame
    exact (hsame hs x hx).trans (hkept hs x hx)

/-- The inode is written back when the loop has come to its end. -/
theorem Progress.close {u : Volume} {e : Nat} (hc : fs.ConsistentWith v inode)
    (hsize : size < 2 ^ 32)
    (hp : fs.Progress v (fs.diskTable v) inode.inodeId (inode.setInodeSizeLowBits size) buf size e
      inode' u)
    (hw : fs.SlotWritten u inode' v') : fs.Stored v v' inode.inodeId buf size e := by
  obtain ⟨htype, hrecorded⟩ := hp.head hsize
  have hid : inode'.inodeId = inode.inodeId := hp.inodeId
  have hpos := hc.owned.good.sized.pos
  have htables := hc.owned.tables
  have himage := hc.owned.image
  have hu : fs.InUse u inode'.inodeId := hid.symm ▸ (hp.frame.inUse htables himage).2 hc.inUse
  have hkind : inode'.isFile = true := by
    rw [Inode.isFile, htype]
    exact hc.isFile
  -- the table, and the blocks behind it
  have hbytes := SameBytes.blit inode' inode'.inodeId
  have hself := hw.inodeAt_self
  have htable := (hw.diskTable hp.owned.tables hp.owned.image hp.owned.tablesOutside hu
    (.inl hkind)).trans (by rw [hp.frame.diskTable htables himage])
  have howned := (hp.owned.slotWritten hw hu.1 hu.2.1).sameBytes hbytes rfl
  rw [← hid] at howned ⊢
  rw [← htable] at howned
  have hinUse (k' : Nat) : fs.InUse v' k' ↔ fs.InUse v k' :=
    (hw.inUse hp.owned.tables hu.1 hu.2.1 hp.owned.image hp.owned.tablesOutside).trans
      (hp.frame.inUse htables himage)
  have hothers (k' : Nat) (hne : k' ≠ inode'.inodeId) (hin : fs.InUse v k') :
      fs.inodeAt v' k' = fs.inodeAt v k' := by
    have hin' := (hp.frame.inUse htables himage).2 hin
    rw [hw.inodeAt_of_ne hp.owned.tables hu.1 hu.2.1 hin'.1 hin'.2.1 hne,
      hp.frame.inodeAt htables hin.1 hin.2.1]
  have hkept (b : Nat) (hb : fs.Data u b) (x : Nat) (hx : x < fs.blockSize) :
      v'.blk fs b x = u.blk fs b x := hw.data hp.owned.tables hu.1 hu.2.1 hb hx
  have hptrs (s : Option Nat) : v'.fileBlk fs (fs.inodeAt v' inode'.inodeId) s =
      u.fileBlk fs inode' s := by
    rw [hself, hbytes.fileBlk]
    exact fileBlk_congr fun hne => hkept _ (hp.owned.fileBlk_data (s := none) hne).1
  have hcontents (k' : Nat) (hne : k' ≠ inode'.inodeId) (inode₂ : Inode)
      (hin : fs.diskTable v k' = some inode₂) : fs.SameContents v v' inode₂ := by
    refine hp.contents hw hu.1 hu.2.1 (hid ▸ hne) hin ?_
    rw [diskTable_number hin]
    exact hid ▸ hne
  refine ⟨⟨howned, fun k' hin hdir i hi => ?_⟩, hp.frame.layout.trans hw.sameLayout, hinUse,
    hothers, hcontents, ?_, ?_, fun j hj => ?_, fun x hx => ?_⟩
  · rcases eq_or_ne k' inode'.inodeId with rfl | hne
    · rw [hself, hbytes.isDir, isDir_of_isFile hkind] at hdir
      cases hdir
    · have hin' := (hinUse k').1 hin
      rw [hothers k' hne hin'] at hdir hi ⊢
      have hsome : fs.diskTable v k' = some (fs.inodeAt v k') := if_pos ⟨hin', .inr hdir⟩
      rw [(hcontents k' hne _ hsome).ptrs]
      exact hc.dirs k' (hid ▸ hne) hin' hdir i hi
  · rw [hself, hbytes.isFile, hkind]
  · rw [hself, hbytes.size, hrecorded]
  · have hptr : v'.blockPtr fs (fs.inodeAt v' inode'.inodeId) j = u.blockPtr fs inode' j :=
      hptrs (some j)
    rw [hptr]
    exact hp.mapped j hj
  · have hdiv : x / fs.blockSize < e := by
      rw [Nat.div_lt_iff_lt_mul hpos]
      omega
    have hptr : v'.blockPtr fs (fs.inodeAt v' inode'.inodeId) (x / fs.blockSize) =
      u.blockPtr fs inode' (x / fs.blockSize) := hptrs (some (x / fs.blockSize))
    have hdata := (hp.owned.fileBlk_data (s := some (x / fs.blockSize)) (hp.mapped _ hdiv)).1
    rw [← hp.written x hx, Volume.fileByte, Volume.fileByte, hptr]
    exact hkept _ hdata _ (Nat.mod_lt x hpos)

/-! ## The whole write -/

/-- `fs_ext2_write_file` stores the buffer as far as there are blocks for it. -/
theorem ConsistentWith.store (h : fs.ConsistentWith v inode) (hsize : size < 2 ^ 32)
    (hs : fs.Supplied v inode 0 (fs.blocksFor size)) (buf : Mem) (t : Nat) :
    ∃ e inode' v', fs.writeFile inode buf size (v.after t) =
        .ok ((min size (e * fs.blockSize) : Nat), inode', v') ∧
      fs.Stored v v' inode.inodeId buf size e ∧ fs.Ended v inode size e := by
  have hstart := h.owned.start buf size t
  have hcount : fs.Counted v (v.after t) (inode.setInodeSizeLowBits size)
      (inode.setInodeSizeLowBits size) 0 0 0 := fun _ _ => rfl
  obtain ⟨e, inode', u, hloop, hp, hended⟩ := hstart.loop hs.setSize.after hcount (Nat.zero_le _)
    (Nat.zero_le _) (show fs.maxBlocks < 0 + (fs.maxBlocks + 1) by omega)
  have hid : inode'.inodeId = inode.inodeId := hp.inodeId
  have hu := (hp.frame.inUse (k := inode.inodeId) h.owned.tables h.owned.image).2 h.inUse
  rw [← hid] at hu
  obtain ⟨v', hwrite, hw⟩ := hp.owned.tables.writeInode hu.1 hu.2.1
  refine ⟨e, inode', v', ?_, hp.close h hsize hw, hended.le, ?_⟩
  · rw [Nat.zero_mul, Nat.min_zero] at hloop
    rw [writeFile, h.isFile, Bool.not_true, if_neg Bool.false_ne_true, hloop, ok_bind]
    simp only [hwrite, ok_bind]
    rfl
  · have hwhy := hended.why
    rwa [needed_setSize] at hwhy

/-- In range, and with enough free blocks, the loop gets to the end of the buffer. -/
theorem Ended.eq_blocksFor {e : Nat} (h : fs.Ended v inode size e) (hpos : 0 < fs.blockSize)
    (hsize : size ≤ fs.maxBlocks * fs.blockSize)
    (henough : fs.needed v inode 0 (fs.blocksFor size) ≤ (fs.freeBlks v).length) :
    e = fs.blocksFor size := by
  have hlast : fs.blocksFor size ≤ fs.maxBlocks := by
    apply Nat.le_of_not_lt
    intro hlt
    have hbytes := (lt_blocksFor hpos).1 hlt
    omega
  have hle := h.le
  rcases h.why with hend | hmax | hfew
  · exact hend
  · omega
  · apply Nat.le_antisymm hle
    apply Nat.le_of_not_lt
    intro hlt
    have hmono : fs.needed v inode 0 (e + 1) ≤ fs.needed v inode 0 (fs.blocksFor size) :=
      needed_mono hlt
    omega

theorem le_blocksFor_mul (hpos : 0 < fs.blockSize) : size ≤ fs.blocksFor size * fs.blockSize := by
  apply Nat.le_of_not_lt
  exact fun hlt => Nat.lt_irrefl _ ((lt_blocksFor hpos).2 hlt)

/-- With enough free blocks, there is one for the indirect block. -/
theorem spare_of_enough (henough : fs.needed v inode 0 n ≤ (fs.freeBlks v).length) (hn : 12 < n)
    (hnone : inode.inodeSinglyIndirectBlkPtr = 0) :
    (fs.freeBlks v).length ≠ fs.missing v inode 0 12 := by
  have hmono : fs.missing v inode 0 12 ≤ fs.missing v inode 0 n := missing_mono (Nat.le_of_lt hn)
  rw [needed, if_pos ⟨hn, hnone⟩] at henough
  omega

/-! ## Reading it back -/

/-- A file without holes is read up to its end. -/
theorem Good.readFileContents_eq (hg : fs.Good) (hfile : inode.isFile = true)
    (hrecorded : inode.inodeSizeLowBits = size)
    (hmapped : ∀ j < fs.blocksFor size, v.blockPtr fs inode j ≠ 0)
    (hbytes : ∀ x < size, v.fileByte fs inode x = buf x) (old : Mem) :
    ∃ out w, fs.readFileContents inode old size v = ((size : Int), out, w) ∧
      ∀ x < size, out x = buf x := by
  have hend : size ≤ inode.inodeSizeLowBits := hrecorded.symm.le
  have hno : fs.Mapped v inode := by
    intro i hi
    rw [hrecorded] at hi
    exact hmapped i ((lt_blocksFor hg.sized.pos).2 hi)
  have hreads : fs.ReadsFile inode old size v :=
    (hg.readsFile_iff hfile hno).2 ((hno.reads_to_end_iff hg).2 (.inl hend))
  obtain ⟨out, w, hcontents, hout, -⟩ := hreads
  rw [Nat.min_eq_left hend] at hcontents hout
  exact ⟨out, w, hcontents, fun x hx => (hout x hx).trans (hbytes x hx)⟩

/-- The file is read back as it was written. -/
theorem Stored.readsBack (h : fs.Stored v v' k buf size (fs.blocksFor size)) (huse : fs.InUse v k)
    (old : Mem) :
    ∃ out, Returns (fs.fileBack k old size v') ((size : Int), out) ∧ ∀ x < size, out x = buf x := by
  have huse' := (h.inUse k).2 huse
  have hg := h.consistent.owned.good
  obtain ⟨t, hread⟩ := h.consistent.owned.tables.readInode huse'.1 huse'.2.1
  have hall : min size (fs.blocksFor size * fs.blockSize) = size :=
    Nat.min_eq_left (le_blocksFor_mul hg.sized.pos)
  have hmapped : ∀ j < fs.blocksFor size, (v'.after t).blockPtr fs (fs.inodeAt v' k) j ≠ 0 := h.mapped
  obtain ⟨out, w, hcontents, hout⟩ := hg.readFileContents_eq h.isFile h.recorded hmapped
    (fun x hx => h.bytes x (hall.symm ▸ hx)) old
  refine ⟨out, ⟨w, ?_⟩, hout⟩
  rw [fileBack, hread, ok_bind]
  simp only [hcontents]
  rfl

section Others

variable (ht : fs.InodeTables v) (ht' : fs.InodeTables v') (hl : SameLayout v v') (hk : 1 ≤ k)
  (hcount : k ≤ v.sbInodesCount) (hsame : fs.inodeAt v' k = fs.inodeAt v k)
include ht ht' hl hk hcount hsame

/-- An inode whose blocks are the same is read as the same file. -/
theorem fileBack_congr
    (hcontents : (fs.inodeAt v k).isFile = true → fs.SameContents v v' (fs.inodeAt v k)) (old : Mem)
    (m : Nat) (r : Int × Mem) : Returns (fs.fileBack k old m v') r ↔ Returns (fs.fileBack k old m v) r := by
  obtain ⟨t, hread⟩ := ht.readInode hk hcount
  obtain ⟨t', hread'⟩ := ht'.readInode hk (hl.inodesCount ▸ hcount)
  rw [hsame] at hread'
  have hboth : ∃ n out u u',
      fs.readFileContents (fs.inodeAt v k) old m (v.after t) = (n, out, v.after u) ∧
      fs.readFileContents (fs.inodeAt v k) old m (v'.after t') = (n, out, v'.after u') := by
    rcases eq_or_ne (fs.inodeAt v k).isFile true with hfile | hfile
    · exact (hcontents hfile).readFileContents ht.good t t'
    · simp only [readFileContents, hfile, Bool.not_false, if_true]
      exact ⟨_, _, _, _, rfl, rfl⟩
  obtain ⟨n, out, u, u', hloop, hloop'⟩ := hboth
  have hback : fs.fileBack k old m v = .ok ((n, out), v.after u) := by
    rw [fileBack, hread, ok_bind]
    simp only [hloop]
    rfl
  have hback' : fs.fileBack k old m v' = .ok ((n, out), v'.after u') := by
    rw [fileBack, hread', ok_bind]
    simp only [hloop']
    rfl
  rw [Returns, Returns, hback, hback']
  simp

/-- A directory whose blocks are the same is listed as the same directory. -/
theorem dirBack_congr
    (hcontents : (fs.inodeAt v k).isDir = true → fs.SameContents v v' (fs.inodeAt v k) ∧
      ∀ i < fs.nbBlocks (fs.inodeAt v k), v.blockPtr fs (fs.inodeAt v k) i ≠ 0)
    (r : Option (List Entry)) : Returns (fs.dirBack k v') r ↔ Returns (fs.dirBack k v) r := by
  obtain ⟨t, hread⟩ := ht.readInode hk hcount
  obtain ⟨t', hread'⟩ := ht'.readInode hk (hl.inodesCount ▸ hcount)
  rw [hsame] at hread'
  rw [dirBack, dirBack, hread, hread', ok_bind, ok_bind]
  simp only
  rcases eq_or_ne (fs.inodeAt v k).isDir true with hdir | hdir
  · obtain ⟨hblocks, hmapped⟩ := hcontents hdir
    have hmapped' : ∀ i < fs.nbBlocks (fs.inodeAt v k), v'.blockPtr fs (fs.inodeAt v k) i ≠ 0 := by
      intro i hi
      rw [hblocks.ptrs]
      exact hmapped i hi
    exact ⟨hblocks.symm.listDir ht.good hmapped' t' t, hblocks.listDir ht.good hmapped t t'⟩
  · simp [listDir, hdir, Returns, pure, Except.pure]

end Others

/-! ## That file and nothing else -/

/-- The write returns its size, the file is read back as the buffer, and every other inode
is read and listed as before. -/
def WritesOnly (fs : Mount) (v w : Volume) (k : Nat) (inode : Inode) (buf : Mem) (size : Nat) :
    Prop :=
  ∃ inode' v', fs.writeFile inode buf size w = .ok (size, inode', v') ∧
    (∀ old, ∃ out, Returns (fs.fileBack k old size v') ((size : Int), out) ∧
      ∀ x < size, out x = buf x) ∧
    ∀ k' ≠ k, fs.InUse v k' →
      (∀ old m r, Returns (fs.fileBack k' old m v') r ↔ Returns (fs.fileBack k' old m v) r) ∧
      ∀ r, Returns (fs.dirBack k' v') r ↔ Returns (fs.dirBack k' v) r

theorem Stored.other (h : fs.Stored v v' k buf size n) (hc : fs.Consistent v) (hne : k' ≠ k)
    (huse : fs.InUse v k') :
    (∀ old m r, Returns (fs.fileBack k' old m v') r ↔ Returns (fs.fileBack k' old m v) r) ∧
      ∀ r, Returns (fs.dirBack k' v') r ↔ Returns (fs.dirBack k' v) r := by
  have htables := hc.owned.tables
  have htables' := h.consistent.owned.tables
  have hsame := h.others k' hne huse
  constructor
  · intro old m r
    refine fileBack_congr htables htables' h.layout huse.1 huse.2.1 hsame (fun hfile => ?_) old m r
    exact h.contents k' hne _ (if_pos ⟨huse, .inl hfile⟩)
  · intro r
    refine dirBack_congr htables htables' h.layout huse.1 huse.2.1 hsame (fun hdir => ?_) r
    exact ⟨h.contents k' hne _ (if_pos ⟨huse, .inr hdir⟩), hc.dirs k' huse hdir⟩

def fileSb (firstBlock : Nat) : Mem :=
  ((countedSb.store 0 4 8).store 20 4 firstBlock).store 40 4 8

def fileTable (firstBlock : Nat) : Mem := tinyTable.store 8 4 (6 - firstBlock)

/-- `countedVolume` with eight inodes. The third is an empty file. The table of inodes is the
block behind the free one, or the one before it. -/
def fileVolume (firstBlock : Nat) : Volume where
  disk x :=
    if x < 2048 then fileSb firstBlock (x - 1024)
    else if x < 3072 then fileTable firstBlock (x - 2048)
    else if x = (6 - firstBlock) * 1024 + 257 then 0x80
    else (tinyVolume 0 0xDF).disk x
  sb := fileSb firstBlock
  bgdt := fileTable firstBlock
  transfers := 0

variable {firstBlock : Nat}

theorem fileVolume_clear (hfirst : firstBlock < 2) :
    tinyMount.OneClear (fileVolume firstBlock) .block 0 5 := by
  refine tiny_clear (fun r => ?_) fun b x hb hx => ?_
  · interval_cases firstBlock <;> cases r <;> decide
  · have hdisk (y) (hy : 3072 ≤ y) (hlt : y < 5120) :
        (fileVolume firstBlock).disk y = (tinyVolume 0 0xDF).disk y := by
      simp only [fileVolume]
      rw [if_neg (by omega), if_neg (by omega), if_neg (by omega)]
    rcases hb with rfl | rfl
    · exact hdisk (3072 + x) (by omega) (by omega)
    · exact hdisk (4096 + x) (by omega) (by omega)

theorem fileVolume_image (hfirst : firstBlock < 2) : tinyMount.Image (fileVolume firstBlock) := by
  have hclear := fileVolume_clear hfirst
  have hlayout : tinyMount.Layout (fileVolume firstBlock) := by
    apply (tinyVolume_layout 0 0xDF).of_bitmapBlk
    intro r g
    cases r <;> exact Mem.load_store_of_disjoint (by simp only [Resource.bitmapField]; omega)
  refine ⟨⟨tinyMount_fits.sized, hlayout, fun g hg i hi hclr => ?_⟩, by decide, by decide,
    by decide, ?_, ?_, fun g hg i hi hclr => ?_, ?_⟩
  · obtain rfl : g = 0 := Nat.lt_one_iff.1 hg
    cases (hclear _ _ _ hg hi).1 hclr
    interval_cases firstBlock <;> decide
  · interval_cases firstBlock <;> decide
  · interval_cases firstBlock <;> decide
  · obtain rfl : g = 0 := Nat.lt_one_iff.1 hg
    cases (hclear _ _ _ hg hi).1 hclr
  · interval_cases firstBlock <;> decide

theorem fileVolume_inStep (hfirst : firstBlock < 2) :
    tinyMount.InStep (fileVolume firstBlock) := by
  refine (fileVolume_clear hfirst).inStep (by decide) (by decide) ⟨fun x hx => ?_, fun x hx => ?_⟩
    (fun r g hg => ?_) fun r => ?_
  · show (fileVolume firstBlock).disk (1024 + x) = _
    simp only [fileVolume]
    rw [if_pos (by omega), Nat.add_sub_cancel_left]
  · have hx : x < 32 := hx
    show (fileVolume firstBlock).disk (2048 + x) = _
    simp only [fileVolume]
    rw [if_neg (by omega), if_pos (by omega), Nat.add_sub_cancel_left]
  · obtain rfl : g = 0 := Nat.lt_one_iff.1 hg
    interval_cases firstBlock <;> cases r <;> decide
  · interval_cases firstBlock <;> cases r <;> decide

theorem fileVolume_tables (hfirst : firstBlock < 2) :
    tinyMount.InodeTables (fileVolume firstBlock) where
  good := ⟨fun _ _ => rfl, tinyMount_fits.sized, by decide⟩
  volume := by interval_cases firstBlock <;> decide
  slot := by decide
  divides := by decide
  inside := by interval_cases firstBlock <;> decide
  disjoint := by interval_cases firstBlock <;> decide
  count := by interval_cases firstBlock <;> decide

theorem fileVolume_inTable (hfirst : firstBlock < 2) {c : Nat}
    (hc : tinyMount.InTable (fileVolume firstBlock) c) : c = 6 - firstBlock := by
  obtain ⟨g, hg, hlo, hhi⟩ := hc
  obtain rfl : g = 0 := Nat.lt_one_iff.1 hg
  have hblks : (fileVolume firstBlock).inodeTableBlk 0 = 6 - firstBlock ∧
      tinyMount.inodeTableBlocks (fileVolume firstBlock) = 1 := by
    interval_cases firstBlock <;> decide
  omega

theorem fileVolume_outside {b : Nat} (hfirst : firstBlock < 2) (hb : b = 5 ∨ b = 6) :
    tinyMount.Outside (fileVolume firstBlock) b := by
  refine ⟨fun r g hg => ?_, ?_, ?_⟩
  · obtain rfl : g = 0 := Nat.lt_one_iff.1 hg
    rcases hb with rfl | rfl <;> interval_cases firstBlock <;> cases r <;> decide
  · rcases hb with rfl | rfl <;> decide
  · rcases hb with rfl | rfl <;> decide

theorem fileVolume_freeBlks (hfirst : firstBlock < 2) {b : Nat}
    (hb : b ∈ tinyMount.freeBlks (fileVolume firstBlock)) : b = firstBlock + 5 := by
  obtain ⟨⟨g, i⟩, hmem, rfl⟩ := List.mem_map.1 hb
  obtain ⟨hg, hi, hclear⟩ := mem_freeBits.1 hmem
  obtain rfl : g = 0 := Nat.lt_one_iff.1 hg
  cases (fileVolume_clear hfirst _ _ _ hg hi).1 hclear
  interval_cases firstBlock <;> decide

theorem fileVolume_enough (hfirst : firstBlock < 2) :
    0 < (tinyMount.freeBlks (fileVolume firstBlock)).length := by
  have hclear := (fileVolume_clear hfirst .block 0 5 (by decide) (by decide)).2 rfl
  have hmem : (0, 5) ∈ tinyMount.freeBits (fileVolume firstBlock) .block :=
    mem_freeBits.2 ⟨by decide, by decide, hclear⟩
  rw [freeBlks, List.length_map]
  exact List.length_pos_of_mem hmem

/-- Behind the mode of its third inode the table is empty. -/
theorem fileVolume_inodeAt (hfirst : firstBlock < 2) (hk : 1 ≤ k) (hcount : k ≤ 8) {a m : Nat}
    (ha : 2 ≤ a) : (tinyMount.inodeAt (fileVolume firstBlock) k).raw.load a m = 0 := by
  have haddr : tinyMount.slotAddr (tinyMount.groupSlot (fileVolume firstBlock)
      ((fileVolume firstBlock).inodeGroup k) ((fileVolume firstBlock).inodeIndex k)) =
      (6 - firstBlock) * 1024 + (k - 1) * 128 := by
    interval_cases firstBlock <;> interval_cases k <;> decide
  refine Eq.trans (Mem.load_congr fun x hx _ => ?_) Mem.load_zero
  rw [inodeAt, haddr]
  dsimp only
  rw [Mem.blit]
  split_ifs with hin
  · rw [inodeBytes] at hin
    simp only [fileVolume, tinyVolume, Nat.sub_zero]
    rw [if_neg (by omega), if_neg (by omega), if_neg (by omega), if_neg (by omega),
      if_neg (by omega)]
  · rfl

theorem fileVolume_consistent (hfirst : firstBlock < 2) :
    tinyMount.Consistent (fileVolume firstBlock) := by
  have hinodes : (fileVolume firstBlock).sbInodesCount = 8 := by
    interval_cases firstBlock <;> decide
  have hrefs (k s) : tinyMount.refBlk (fileVolume firstBlock)
      (tinyMount.diskTable (fileVolume firstBlock)) k s = 0 := by
    rw [refBlk, diskTable]
    split_ifs with huse
    · have hcount := huse.1.2.1
      rw [hinodes] at hcount
      have hsingle : (tinyMount.inodeAt (fileVolume firstBlock) k).inodeSinglyIndirectBlkPtr = 0 :=
        fileVolume_inodeAt hfirst huse.1.1 hcount (by omega)
      cases s with
      | none => exact hsingle
      | some i =>
        simp only [Volume.fileBlk, Volume.blockPtr, hsingle, if_true]
        split_ifs
        · exact fileVolume_inodeAt hfirst huse.1.1 hcount (by omega)
        · rfl
        · rfl
    · rfl
  refine ⟨⟨fileVolume_image hfirst, fileVolume_inStep hfirst, fileVolume_tables hfirst,
    fun c hc => ?_, fun b hb => ?_, fun k s hne => absurd (hrefs k s) hne,
    fun k s hne => absurd (hrefs k s) hne, fun k s _ _ hne => absurd (hrefs k s) hne⟩,
    fun k huse hdir => ?_⟩
  · obtain rfl := fileVolume_inTable hfirst hc
    exact fileVolume_outside hfirst (by omega)
  · obtain rfl := fileVolume_freeBlks hfirst hb
    refine ⟨?_, fileVolume_outside hfirst (by omega), fun hin => ?_⟩
    · interval_cases firstBlock <;> decide
    · have hwhere := fileVolume_inTable hfirst hin
      omega
  · obtain ⟨hk, hcount, -⟩ := huse
    rw [hinodes] at hcount
    have hnone : (tinyMount.inodeAt (fileVolume firstBlock) k).isDir = false := by
      interval_cases firstBlock <;> interval_cases k <;> decide
    rw [hnone] at hdir
    cases hdir

theorem fileVolume_needed (hfirst : firstBlock < 2) :
    tinyMount.needed (fileVolume firstBlock) (tinyMount.inodeAt (fileVolume firstBlock) 3) 0 1 = 1 := by
  interval_cases firstBlock <;> decide

end Kaku.Mount

-- SUMMARY: A drive in order: the contents of its files by number, and what a read and a write make of them.
import Kaku.Fs.Spared
import Kaku.Fs.Tree

/-!
# The contents of a drive

A drive is in order if it is consistent, its files have no holes, and its free blocks hold
zeros. It stays in order when a file is written, and of the contents of all files those of this
file are replaced.
-/

namespace Kaku.Mount

/-- Block 0 is the first data block, all files are mapped, and a free block is full of zeros. -/
structure InOrder (fs : Mount) (v : Volume) : Prop where
  consistent : fs.Consistent v
  tree : fs.Tree v
  first : v.sbBlockNbOfSb = 0
  clean : fs.CleanFree v
  whole : ∀ k, fs.InUse v k → (fs.inodeAt v k).isFile = true → fs.Mapped v (fs.inodeAt v k)

/-- The bytes of a file, up to the size that its inode has. -/
def fileBytes (fs : Mount) (v : Volume) (inode : Inode) : List UInt8 :=
  (List.range inode.inodeSizeLowBits).map (v.fileByte fs inode)

/-- What the files of the drive contain, by number. -/
def contents (fs : Mount) (v : Volume) (k : Nat) : Option (List UInt8) :=
  if fs.InUse v k ∧ (fs.inodeAt v k).isFile = true then some (fs.fileBytes v (fs.inodeAt v k))
  else none

/-- There are enough free blocks for `n` bytes in the file, which are not too many for any. -/
structure Room (fs : Mount) (v : Volume) (inode : Inode) (n : Nat) : Prop where
  inRange : n ≤ fs.maxBlocks * fs.blockSize
  enough : fs.needed v inode 0 (fs.blocksFor n) ≤ (fs.freeBlks v).length

instance (fs : Mount) (v : Volume) (inode : Inode) (n : Nat) : Decidable (fs.Room v inode n) :=
  decidable_of_iff (_ ∧ _) ⟨fun h => ⟨h.1, h.2⟩, fun h => ⟨h.inRange, h.enough⟩⟩

/-- The number of the inode that a path opens. -/
def opens (fs : Mount) (v : Volume) (path : List UInt8) : Option Nat :=
  if (fs.numbered v (fs.pathNumber v path)).inodeTypeAndPermissions = 0 then none
  else some (fs.pathNumber v path)

variable {fs : Mount} {v v' w : Volume} {inode inode' : Inode} {k k' n size t : Nat} {buf : Mem}
  {bytes : List UInt8} {names : List (List UInt8)} {path : List UInt8}

theorem length_fileBytes : (fs.fileBytes v inode).length = inode.inodeSizeLowBits := by
  simp [fileBytes]

theorem contents_of_file (huse : fs.InUse v k) (hfile : (fs.inodeAt v k).isFile = true) :
    fs.contents v k = some (fs.fileBytes v (fs.inodeAt v k)) := if_pos ⟨huse, hfile⟩

theorem contents_eq_some : fs.contents v k = some bytes ↔
    fs.InUse v k ∧ (fs.inodeAt v k).isFile = true ∧ fs.fileBytes v (fs.inodeAt v k) = bytes := by
  rw [contents]
  split_ifs with h
  · simp [h]
  · simp only [false_iff]
    exact fun hall => h ⟨hall.1, hall.2.1⟩

theorem contents_isSome : (fs.contents v k).isSome = true ↔
    fs.InUse v k ∧ (fs.inodeAt v k).isFile = true := by
  rw [contents]
  split_ifs with h <;> simp [h]

/-- Without holes, the bytes of a file are those of its blocks. -/
theorem fileBytes_congr (hm : fs.Mapped v inode) (hpos : 0 < fs.blockSize)
    (h : fs.SameContents v v' inode) : fs.fileBytes v' inode = fs.fileBytes v inode := by
  apply List.map_congr_left
  intro x hx
  have hmapped := hm (x / fs.blockSize) (by
    have hdiv := Nat.div_mul_le_self x fs.blockSize
    have hlt := List.mem_range.1 hx
    omega)
  rw [Volume.fileByte, Volume.fileByte, h.ptrs]
  exact h.bytes _ hmapped _ (Nat.mod_lt x hpos)

/-- The bytes that an inode has on the drive are enough. -/
theorem SameBytes.fileBytes (h : SameBytes inode inode') :
    fs.fileBytes v inode' = fs.fileBytes v inode := by
  rw [Mount.fileBytes, Mount.fileBytes, h.size]
  apply List.map_congr_left
  intro x _
  rw [Volume.fileByte, Volume.fileByte,
    show v.blockPtr fs inode' _ = v.blockPtr fs inode _ from h.fileBlk (s := some _)]

theorem SameBytes.symm (h : SameBytes inode inode') : SameBytes inode' inode :=
  fun x hx => (h x hx).symm

theorem SameBytes.needed (h : SameBytes inode inode') (a n : Nat) :
    fs.needed v inode' a n = fs.needed v inode a n := by
  rw [Mount.needed, Mount.needed, missing_congr fun j _ => h.fileBlk (s := some j), h.single]

/-- A walk that goes through the same directories leads to the same number. -/
theorem Tree.walk_congr (h : fs.Tree v)
    (hchild : ∀ k, fs.InUse v k → ∀ name, fs.child v' k name = fs.child v k name)
    (hk : fs.InUse v k) : fs.walk v' k names = fs.walk v k names := by
  induction names generalizing k with
  | nil => rfl
  | cons name names ih =>
    rw [walk, walk, hchild k hk name]
    split_ifs with hzero
    · rfl
    · exact ih (h.inUse_child hk hzero)

/-! ## Reading -/

theorem readFileLoop_after {left i written : Nat} :
    ∃ t, (fs.readFileLoop inode n left i written buf v).2.2 = v.after t := by
  induction left generalizing i written buf v with
  | zero => exact ⟨v.transfers, rfl⟩
  | succ left ih =>
    obtain ⟨t, hptr⟩ := fs.getBlockPtr_after inode i v
    have hread (b : Nat) (w : Volume) : (fs.readBlk b w).2.2 = w.after (w.transfers + 1) := rfl
    rw [readFileLoop]
    simp only [hread]
    split_ifs
    · exact ⟨t, hptr⟩
    · exact ⟨t + 1, by rw [hptr]; rfl⟩
    · rw [hptr]
      exact ih
    · exact ⟨v.transfers, rfl⟩

/-- Reading changes nothing on the drive. -/
theorem readFileContents_after (fs : Mount) (inode : Inode) (buf : Mem) (n : Nat) (v : Volume) :
    ∃ t, (fs.readFileContents inode buf n v).2.2 = v.after t := by
  rw [readFileContents]
  split_ifs
  · exact ⟨v.transfers, rfl⟩
  · exact readFileLoop_after

/-- A file without holes is read up to the end of the request, or of its last block. -/
theorem Mapped.readFileContents (h : fs.Mapped v inode) (hg : fs.Good) (hfile : inode.isFile = true)
    (n : Nat) (buf : Mem) :
    ∃ (m : Nat) (out : Mem) (t : Nat), fs.readFileContents inode buf n v = ((m : Int), out, v.after t) ∧
      min n inode.inodeSizeLowBits ≤ m ∧ m ≤ n ∧
      out.peek 0 (min n inode.inodeSizeLowBits) = (fs.fileBytes v inode).take n := by
  obtain ⟨hcover, hlast⟩ := h.nbBlocks hg
  have hblocks : ∀ j, 0 ≤ j → j < 0 + fs.nbBlocks inode → v.blockPtr fs inode j ≠ 0 := by
    intro j _ hj
    apply h
    have hbelow : (j + 1) * fs.blockSize ≤ fs.nbBlocks inode * fs.blockSize :=
      Nat.mul_le_mul_right _ (by omega)
    rw [Nat.succ_mul] at hbelow
    omega
  obtain ⟨out, t, hloop, hnew, -⟩ := hg.readFileLoop_eq hblocks n v.transfers buf
  simp only [Nat.zero_mul, Nat.min_zero, Nat.zero_add, Volume.after_self] at hloop hnew
  refine ⟨min n (fs.nbBlocks inode * fs.blockSize), out, t, ?_, by omega, by omega, ?_⟩
  · rw [Mount.readFileContents, hfile, Bool.not_true, if_neg Bool.false_ne_true, hloop]
  · rw [fileBytes, ← List.map_take, List.take_range, Mem.peek]
    apply List.map_congr_left
    intro x hx
    have hlt := List.mem_range.1 hx
    rw [Nat.zero_add]
    exact hnew x (Nat.zero_le x) (by omega)

/-! ## Writing -/

theorem InOrder.after (h : fs.InOrder v) (t : Nat) : fs.InOrder (v.after t) where
  consistent := h.consistent.after t
  tree :=
    { tables := h.tree.tables.congr (.of_eq rfl rfl)
      root := h.tree.root
      rootIsDir := h.tree.rootIsDir
      entries := fun k hk hdir => by
        obtain ⟨d, hlive⟩ := h.tree.entries k hk hdir
        exact ⟨⟨d.records, d.isDir, d.mapped, d.wellFormed⟩, hlive⟩ }
  first := h.first
  clean := h.clean
  whole := h.whole

theorem SameContents.after (t : Nat) : fs.SameContents v (v.after t) inode :=
  ⟨fun _ => rfl, fun _ _ _ _ => rfl⟩

/-- Paths lead where they led when the drive has only been read. -/
theorem Tree.pathNumber_after (h : fs.Tree v) (t : Nat) (path : List UInt8) :
    fs.pathNumber (v.after t) path = fs.pathNumber v path := by
  have hinode (k) : fs.inodeAt (v.after t) k = fs.inodeAt v k := rfl
  have hchild (k) (hk : fs.InUse v k) (name) : fs.child (v.after t) k name = fs.child v k name :=
    h.child_congr hk (hinode k) (fun _ => SameContents.after t) name
  have hwalk (names) : fs.walk (v.after t) 2 names = fs.walk v 2 names :=
    h.walk_congr hchild h.root
  rw [pathNumber, pathNumber, hwalk]

theorem Tree.opens_after (h : fs.Tree v) (t : Nat) (path : List UInt8) :
    fs.opens (v.after t) path = fs.opens v path := by
  rw [opens, opens, h.pathNumber_after]
  rfl

theorem isFile_type (h : inode.isFile = true) : inode.inodeTypeAndPermissions ≠ 0 := by
  intro hzero
  rw [Inode.isFile, hzero] at h
  cases h

/-- The records of directory `k`, in use or not. -/
def Shows (fs : Mount) (v : Volume) (k : Nat) (es : List (Nat × List UInt8)) : Prop :=
  fs.InUse v k ∧ ∃ d : Entries fs v (fs.inodeAt v k), d.listing = es

/-- A directory whose blocks are the same shows the same records. -/
theorem Shows.congr {es : List (Nat × List UInt8)} (h : fs.Shows v k es) (huse : fs.InUse v' k)
    (hinode : fs.inodeAt v' k = fs.inodeAt v k)
    (hsame : (fs.inodeAt v k).isDir = true → fs.SameContents v v' (fs.inodeAt v k)) :
    fs.Shows v' k es := by
  obtain ⟨-, d, rfl⟩ := h
  refine ⟨huse, ?_⟩
  rw [hinode]
  exact d.keep (hsame d.isDir)

/-- The drive after file `k` has been given new contents. -/
structure Overwritten (fs : Mount) (v v' : Volume) (k : Nat) (bytes : List UInt8) : Prop where
  inOrder : fs.InOrder v'
  layout : SameLayout v v'
  inUse : ∀ k', fs.InUse v' k' ↔ fs.InUse v k'
  others : ∀ k' ≠ k, fs.InUse v k' → fs.inodeAt v' k' = fs.inodeAt v k'
  contents : fs.contents v' = Function.update (fs.contents v) k (some bytes)
  pathNumber : ∀ path, fs.pathNumber v' path = fs.pathNumber v path
  shows : ∀ k' es, fs.Shows v k' es → fs.Shows v' k' es

theorem Overwritten.opens (h : fs.Overwritten v v' k bytes)
    (hfile : (fs.inodeAt v k).isFile = true) (path : List UInt8) :
    fs.opens v' path = fs.opens v path := by
  rw [Mount.opens, Mount.opens, h.pathNumber]
  rcases eq_or_ne (fs.pathNumber v path) 0 with hzero | hne
  · rw [hzero]
    rfl
  rw [numbered_of_ne hne, numbered_of_ne hne]
  rcases eq_or_ne (fs.pathNumber v path) k with heq | hother
  · have hcontents : fs.contents v' k = some bytes := by rw [h.contents, Function.update_self]
    rw [heq, if_neg (isFile_type hfile), if_neg (isFile_type (contents_eq_some.1 hcontents).2.1)]
  · have huse : fs.InUse v' (fs.pathNumber v path) := by
      rw [← h.pathNumber] at hne ⊢
      exact h.inOrder.tree.inUse_pathNumber hne
    rw [h.others _ hother ((h.inUse _).1 huse)]

section Stored

variable (h : fs.Stored v v' k buf size (fs.blocksFor size))
include h

/-- Directories stay as they are. -/
theorem Stored.dirs (huse : fs.InUse v k') (hne : k' ≠ k) (hdir : (fs.inodeAt v k').isDir = true) :
    fs.SameContents v v' (fs.inodeAt v k') := h.contents k' hne _ (if_pos ⟨huse, .inr hdir⟩)

theorem Stored.mapped_self (hpos : 0 < fs.blockSize) : fs.Mapped v' (fs.inodeAt v' k) := by
  intro i hi
  rw [h.recorded] at hi
  exact h.mapped i ((lt_blocksFor hpos).2 hi)

variable (hv : fs.InOrder v) (huse : fs.InUse v k) (hfile : (fs.inodeAt v k).isFile = true)
include hv hfile

theorem Stored.child (hk : fs.InUse v k') (name : List UInt8) :
    fs.child v' k' name = fs.child v k' name := by
  rcases eq_or_ne k' k with rfl | hne
  · rw [child_of_not_dir (isDir_of_isFile hfile), child_of_not_dir (isDir_of_isFile h.isFile)]
  · exact hv.tree.child_congr hk (h.others k' hne hk) (h.dirs hk hne) name

theorem Stored.tree : fs.Tree v' where
  tables := hv.tree.tables.congr h.layout
  root := (h.inUse 2).2 hv.tree.root
  rootIsDir := by
    have hrootdir := hv.tree.rootIsDir
    have hne : 2 ≠ k := by
      rintro rfl
      rw [isDir_of_isFile hfile] at hrootdir
      cases hrootdir
    rw [h.others 2 hne hv.tree.root, hv.tree.rootIsDir]
  entries k' hk hdir := by
    have hin := (h.inUse k').1 hk
    have hne : k' ≠ k := by
      rintro rfl
      rw [isDir_of_isFile h.isFile] at hdir
      cases hdir
    rw [h.others k' hne hin] at hdir ⊢
    obtain ⟨d, hlive⟩ := hv.tree.entries k' hin hdir
    obtain ⟨d', hlisting⟩ := d.keep (h.dirs hin hne hdir)
    refine ⟨d', fun e he hzero => ?_⟩
    rw [hlisting] at he
    rw [h.inUse]
    exact hlive e he hzero

include huse

theorem Stored.overwritten (hspared : fs.Spared v v') :
    fs.Overwritten v v' k (buf.peek 0 size) where
  inOrder :=
    { consistent := h.consistent
      tree := h.tree hv hfile
      first := by rw [h.layout.blockNbOfSb, hv.first]
      clean := hspared.clean hv.clean
      whole := fun k' hk hfile' => by
        rcases eq_or_ne k' k with rfl | hne
        · exact h.mapped_self hv.consistent.owned.good.sized.pos
        · have hin := (h.inUse k').1 hk
          rw [h.others k' hne hin] at hfile' ⊢
          have hsame := h.contents k' hne _ (if_pos ⟨hin, .inl hfile'⟩)
          intro i hi
          rw [hsame.ptrs]
          exact hv.whole k' hin hfile' i hi }
  layout := h.layout
  inUse := h.inUse
  others := h.others
  contents := by
    have hpos := hv.consistent.owned.good.sized.pos
    funext k'
    rcases eq_or_ne k' k with rfl | hne
    · rw [Function.update_self, contents_of_file ((h.inUse k').2 huse) h.isFile, fileBytes,
        h.recorded, Mem.peek]
      congr 1
      apply List.map_congr_left
      intro x hx
      rw [Nat.zero_add]
      refine h.bytes x ?_
      rw [Nat.min_eq_left (le_blocksFor_mul hpos)]
      exact List.mem_range.1 hx
    · rw [Function.update_of_ne hne, Mount.contents, Mount.contents]
      simp only [h.inUse]
      rcases em (fs.InUse v k') with hin | hout
      · rw [h.others k' hne hin]
        split_ifs with hboth
        · have hsame := h.contents k' hne _ (if_pos ⟨hin, .inl hboth.2⟩)
          rw [fileBytes_congr (hv.whole k' hin hboth.2) hpos hsame]
        · rfl
      · simp only [hout, false_and, if_false]
  pathNumber path := by
    have hwalk (names) : fs.walk v' 2 names = fs.walk v 2 names :=
      hv.tree.walk_congr (fun k' hk name => h.child hv hfile hk name) hv.tree.root
    rw [Mount.pathNumber, Mount.pathNumber, hwalk]
  shows k' es hes := by
    have hne : k' ≠ k := by
      rintro rfl
      obtain ⟨-, d, -⟩ := hes
      exact Bool.false_ne_true ((isDir_of_isFile hfile).symm.trans d.isDir)
    exact hes.congr ((h.inUse k').2 hes.1) (h.others k' hne hes.1) (h.dirs hes.1 hne)

end Stored

/-- The size of a file fits its field. -/
theorem Consistent.lt_of_inRange (h : fs.Consistent v) (hn : n ≤ fs.maxBlocks * fs.blockSize) :
    n < 2 ^ 32 := by
  have hsmall := h.owned.good.small
  have hlast : fs.maxBlocks * fs.blockSize ≤ (12 + 65536 / 4) * 65536 := by
    rw [maxBlocks]
    exact Nat.mul_le_mul (by omega) hsmall
  omega

/-- A write that has room replaces the contents of the file. The inode that the caller holds is
the one on the drive, before and after. -/
theorem InOrder.write (hv : fs.InOrder v) (huse : fs.InUse v inode.inodeId)
    (hbytes : SameBytes inode (fs.inodeAt v inode.inodeId)) (hfile : inode.isFile = true)
    (hroom : fs.Room v inode n) (buf : Mem) :
    ∃ inode' v', fs.writeFile inode buf n v = .ok ((n : Int), inode', v') ∧
      fs.Overwritten v v' inode.inodeId (buf.peek 0 n) ∧ inode'.inodeId = inode.inodeId ∧
      SameBytes inode' (fs.inodeAt v' inode.inodeId) := by
  have hpos := hv.consistent.owned.good.sized.pos
  have hrange := hroom.inRange
  have hbits := hv.consistent.lt_of_inRange hrange
  have hfile' : (fs.inodeAt v inode.inodeId).isFile = true := hbytes.isFile.trans hfile
  have hwith : fs.ConsistentWith v inode := by
    have hdrive := hv.consistent.with_file huse hfile'
    exact ⟨huse, hfile, hdrive.owned.sameBytes hbytes.symm rfl, hdrive.dirs⟩
  have hsupplied : fs.Supplied v inode 0 (fs.blocksFor n) :=
    ⟨.inr hv.first, fun _ _ q hq j hj => hv.clean.word (List.mem_of_getElem? hq) hj,
      spare_of_enough hroom.enough⟩
  obtain ⟨e, inode', v', hwrite, hstored, hended⟩ := hwith.store hbits hsupplied buf v.transfers
  rw [hended.eq_blocksFor hpos hrange hroom.enough] at hwrite hstored
  rw [Nat.min_eq_left (le_blocksFor_mul hpos)] at hwrite
  obtain ⟨hspared, hid, hsame⟩ := hwith.spared hsupplied hv.first hwrite
  rw [Volume.after_self] at hwrite
  exact ⟨inode', v', hwrite, hstored.overwritten hv huse hfile' hspared, hid, hsame⟩

end Kaku.Mount

-- SUMMARY: Creating a file, and what a creation that fails leaves behind.
import Kaku.Fs.Path
import Kaku.Fs.WriteFile

/-!
# Creating files

`fs_ext2_create_file` of `fs/src/ext2.c`. The inode is allocated and the contents
are written before the path is looked at.
-/

namespace Kaku

/-- The inode of a new file. -/
def newInode (inodeId : Nat) : Inode :=
  ⟨((Mem.store (fun _ => 0) 0 2 0x81A4).store 4 4 0).store 26 2 1, inodeId⟩

namespace Mount

/-- The path of the directory that the new name is linked into, from the names that come
before it. -/
def parentPath : List (List UInt8) → List UInt8
  | [] => [slash]
  | [] :: _ => [slash]
  | names => kstrjoin slash names

/-- The part of `fs_ext2_create_file` that links the name, which for an empty path is a null
pointer. -/
def linkName (fs : Mount) (parent : Inode) (inodeId : Nat) (filename : Option (List UInt8))
    (v : Volume) : K Volume :=
  match filename with
  | some filename => fs.linkEntry parent inodeId filename v
  | none =>
    let (lastBlk, v) := fs.getBlockPtr parent (sub32 (fs.nbBlocks parent) 1) v
    if lastBlk = 0 then pure v
    else
      let (ok, _, v) := fs.readBlk lastBlk v
      if !ok then pure v else .error .wild

def createFile (fs : Mount) (path : List UInt8) (buf : Mem) (size : Nat) (v : Volume) :
    K Volume := do
  let (inodeId, v) ← fs.allocInode 0 v
  let (_, _, v) ← fs.writeFile (newInode inodeId) buf size v
  let pathNames := kstrsplit path slash
  let filename := pathNames.getLast?
  let (parentInode, v) ← fs.resolvePath (parentPath pathNames.dropLast) v
  if !parentInode.isDir then pure v
  else fs.linkName parentInode inodeId filename v

/-! ## What a creation leaves behind -/

variable {fs : Mount} {v v' : Volume} {inode : Inode} {inodeId size : Nat} {buf : Mem}
  {filename : Option (List UInt8)} {path : List UInt8}

theorem isFile_newInode : (newInode inodeId).isFile = true := by
  have htype : (newInode inodeId).inodeTypeAndPermissions = 0x81A4 := by
    rw [Inode.inodeTypeAndPermissions, newInode, Mem.load_store_of_disjoint (by omega),
      Mem.load_store_of_disjoint (by omega), Mem.load_store_self]
    rfl
  rw [Inode.isFile, htype]
  rfl

theorem linkName_sb (h : fs.linkName inode inodeId filename v = .ok v') : v'.sb = v.sb := by
  obtain ⟨-, hsb, -⟩ := fs.getBlockPtr_frame inode (sub32 (fs.nbBlocks inode) 1) v
  have hread (b w) : (fs.readBlk b w).2.2.sb = w.sb := rfl
  cases filename with
  | none =>
    simp only [linkName] at h
    split at h
    · cases h
      exact hsb
    split at h
    · cases h
      rw [hread, hsb]
    · cases h
  | some filename =>
    simp only [linkName, linkEntry] at h
    split at h
    · cases h
      exact hsb
    split at h
    · cases h
      rw [hread, hsb]
    · obtain ⟨block, -, h⟩ := bind_eq_ok.1 h
      cases h
      rw [← hsb]
      rfl

theorem sub32_one_ne {a : Nat} (h : a < 2 ^ 32) : sub32 a 1 % 256 ^ 4 ≠ a := by
  rw [sub32]
  split <;> omega

/-- A creation that returns has taken an inode. -/
theorem createFile_total (hfew : fs.nbBlockGroups * v.sbNbInodesInGroup < 2 ^ 32)
    (h : fs.createFile path buf size v = .ok v') : v'.total .inode ≠ v.total .inode := by
  rw [createFile] at h
  obtain ⟨⟨inodeId, w⟩, halloc, h⟩ := bind_eq_ok.1 h
  obtain ⟨⟨result, inode, u⟩, hwrite, h⟩ := bind_eq_ok.1 h
  obtain ⟨⟨parent, x⟩, hresolve, h⟩ := bind_eq_ok.1 h
  rcases alloc_sb halloc with ⟨rfl, hsame⟩ | hstore
  · -- No inode was to be had: the file is written under number 0.
    refine absurd hwrite (writeFile_zero isFile_newInode rfl ?_)
    rwa [Volume.sbNbInodesInGroup, hsame]
  · have htaken : w.total .inode = sub32 (v.total .inode) 1 % 256 ^ 4 := by
      rw [Volume.total, hstore, Mem.load_store_self]
    have hwritten := (writeFile_kept hwrite).total
    obtain ⟨t, rfl⟩ := resolvePath_after hresolve
    have hlinked : v'.total .inode = u.total .inode := by
      simp only at h
      split at h
      · cases h
        rfl
      · rw [Volume.total, linkName_sb h]
        rfl
    rw [hlinked, hwritten, htaken]
    exact sub32_one_ne Mem.load_lt

/-- Wherever the creation of a file stops, its inode has been taken: it never leaves the
bitmaps and the counters as they were. -/
theorem create_file_never_clean (hfew : fs.nbBlockGroups * v.sbNbInodesInGroup < 2 ^ 32) :
    ¬ ∃ v', fs.createFile path buf size v = .ok v' ∧ fs.Unchanged v v' := by
  rintro ⟨v', hcreate, hsame⟩
  exact createFile_total hfew hcreate (hsame.totals .inode)

/-! ## A volume with a root directory -/

def rootSb : Mem :=
  ((((((Mem.store (fun _ => 0) 0 4 16).store 4 4 64).store 12 4 56).store 16 4 5).store 32 4
    8192).store 40 4 16)

def rootTable : Mem :=
  ((((Mem.store (fun _ => 0) 0 4 3).store 4 4 4).store 8 4 5).store 12 2 56).store 14 2 5

/-- Inode 2, the second of the table, is a directory. -/
def rootInodes : Mem :=
  ((Mem.store (fun _ => 0) 128 2 0x41ED).store 132 4 1024).store 168 4 7

/-- `.` and `..`. -/
def rootRecords : Mem :=
  (((((((Mem.store (fun _ => 0) 0 4 2).store 4 2 12).store 6 2 0x201).store 8 1 0x2E).store 12 4
    2).store 16 2 1012).store 18 2 0x202).store 20 2 0x2E2E

/-- 64 blocks of 1 KiB: the superblock in block 1, the table in block 2, the bitmaps in
blocks 3 and 4, 16 inodes in blocks 5 and 6, the root directory in block 7. The other
blocks are free, and the last five inodes. -/
def rootVolume : Volume where
  disk x :=
    if x < 2048 then rootSb (x - 1024)
    else if x < 3072 then rootTable (x - 2048)
    else if x < 5120 then
      if 3072 < x ∧ x < 3080 then 0 else if x = 4097 then 7 else 255
    else if x < 7168 then rootInodes (x - 5120)
    else if x < 8192 then rootRecords (x - 7168)
    else 0
  sb := rootSb
  bgdt := rootTable
  transfers := 0

theorem create_file_never_clean_root :
    ¬ ∃ v', tinyMount.createFile [0x66] (fun _ => 0) 0 rootVolume = .ok v' ∧
      tinyMount.Unchanged rootVolume v' :=
  create_file_never_clean (by decide)

/-- There is no directory `d`: nothing can be linked, and inode 12 stays marked. -/
theorem create_file_leaks :
    (tinyMount.resolvePath [0x64] rootVolume).toOption.map (fun p => p.1.isDir) = some false ∧
      ∃ v', tinyMount.createFile [0x64, slash, 0x66] (fun _ => 0) 0 rootVolume = .ok v' ∧
        tinyMount.bitOf rootVolume rootVolume .inode 0 11 = false ∧
        tinyMount.bitOf rootVolume v' .inode 0 11 = true := by
  have hrun : ((tinyMount.createFile [0x64, slash, 0x66] (fun _ => 0) 0 rootVolume).toOption.any
      fun v' => tinyMount.bitOf rootVolume v' .inode 0 11) = true := by decide
  obtain ⟨v', hok, hmarked⟩ := toOption_any.1 hrun
  exact ⟨by decide, v', hok, by decide, hmarked⟩

end Mount

end Kaku

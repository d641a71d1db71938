-- SUMMARY: A created file is found under its path exactly if its parent is the root directory.
import Kaku.Fs.Link
import Kaku.Fs.NewInode
import Kaku.Fs.Resolve

/-!
# A file that is created

`fs_ext2_create_file` on a consistent image. The contents are written to a new inode, and the
name is put behind the last record of the directory that the driver takes for the parent. That
is the root directory whenever the path starts with a slash.
-/

namespace Kaku

namespace Mount

variable {fs : Mount} {v v' w u : Volume} {dir inode inode' : Inode} {k n e size : Nat} {buf : Mem}
  {filename : List UInt8}

/-! ## The contents of the new file -/

/-- The volume on which a file with number `n` has been stored, before it has a name. -/
structure Nameless (fs : Mount) (v v' : Volume) (n : Nat) (buf : Mem) (size e : Nat) : Prop where
  consistent : fs.Consistent v'
  layout : SameLayout v v'
  fresh : ¬ fs.InUse v n
  inUse : ∀ k, fs.InUse v' k ↔ fs.InUse v k ∨ k = n
  others : ∀ k, fs.InUse v k → fs.inodeAt v' k = fs.inodeAt v k
  contents : ∀ k inode, fs.diskTable v k = some inode → fs.SameContents v v' inode
  isFile : (fs.inodeAt v' n).isFile = true
  recorded : (fs.inodeAt v' n).inodeSizeLowBits = size
  mapped : ∀ j < e, v'.blockPtr fs (fs.inodeAt v' n) j ≠ 0
  bytes : ∀ x < min size (e * fs.blockSize), v'.fileByte fs (fs.inodeAt v' n) x = buf x

theorem NewInode.nameless (hn : fs.NewInode v n w) (hv : fs.Consistent v)
    (h : fs.Stored w v' n buf size e) : fs.Nameless v v' n buf size e where
  consistent := h.consistent
  layout := hn.layout.trans h.layout
  fresh := hn.fresh
  inUse k := (h.inUse k).trans (hn.inUse k)
  others k hk := by
    rw [h.others k (hn.ne hk) ((hn.inUse k).2 (.inl hk)), hn.inodeAt k hk.1 hk.2.1]
  contents k inode hin := by
    have hne : k ≠ n := by
      rintro rfl
      rw [diskTable, if_neg fun huse => hn.fresh huse.1] at hin
      cases hin
    have hsame := hn.sameContents hv hin
    rw [← hn.diskTable_of_ne hne] at hin
    exact hsame.trans (h.contents k hne inode hin)
  isFile := h.isFile
  recorded := h.recorded
  mapped := h.mapped
  bytes := h.bytes

/-- The inode is taken, and the contents are written. -/
theorem Consistent.store_new (hv : fs.Consistent v)
    (hcount : v.sbInodesCount = fs.nbBlockGroups * v.sbNbInodesInGroup)
    (hfree : fs.freeBits v .inode ≠ []) (hsize : size < 2 ^ 32)
    (hfirst : taken (fs.blocksFor size) = 0 ∨ v.sbBlockNbOfSb = 0)
    (hclean : 12 < fs.blocksFor size → ∀ q ∈ (fs.freeBlks v)[12]?, ∀ j < fs.blockSize / 4,
      fs.word v q j = 0)
    (hspare : 12 < fs.blocksFor size → (fs.freeBlks v).length ≠ 12) (buf : Mem) :
    ∃ n w e inode' v', fs.allocInode 0 v = .ok (n, w) ∧
      fs.writeFile (newInode n) buf size w =
        .ok ((min size (e * fs.blockSize) : Nat), inode', v') ∧
      fs.Nameless v v' n buf size e ∧ fs.Ended w (newInode n) size e ∧
      fs.freeBlks w = fs.freeBlks v := by
  obtain ⟨n, w, hn⟩ := hv.take_inode hcount hfree
  have hsupplied : fs.Supplied w (newInode n) 0 (fs.blocksFor size) := by
    refine ⟨?_, fun hmany _ q hq j hj => ?_, fun hmany _ => ?_⟩
    · rw [needed_newInode, hn.layout.blockNbOfSb]
      exact hfirst
    · rw [missing_newInode, hn.free] at hq
      have hdata := hv.owned.free q (List.mem_of_getElem? hq)
      rw [word, Mem.load_congr fun x _ hx => hn.blk q hdata.outside x (by omega)]
      exact hclean hmany q hq j hj
    · rw [missing_newInode, hn.free]
      exact hspare hmany
  obtain ⟨e, inode', v', hwrite, hstored, hended⟩ :=
    (hn.consistentWith hv).store hsize hsupplied buf w.transfers
  exact ⟨n, w, e, inode', v', hn.alloc, hwrite, hn.nameless hv hstored, hended, hn.free⟩

namespace Nameless

variable (h : fs.Nameless v v' n buf size e)
include h

theorem ne (hk : fs.InUse v k) : k ≠ n := fun heq => h.fresh (heq ▸ hk)

theorem self : fs.InUse v' n := (h.inUse n).2 (.inr rfl)

theorem number_lt : n < 2 ^ 32 := Nat.lt_of_le_of_lt h.self.2.1 Mem.load_lt

/-- The directories are what they were. -/
theorem sameContents (hk : fs.InUse v k) (hdir : (fs.inodeAt v k).isDir = true) :
    fs.SameContents v v' (fs.inodeAt v k) := h.contents k _ (if_pos ⟨hk, .inr hdir⟩)

theorem tree (ht : fs.Tree v) : fs.Tree v' where
  tables := ht.tables.congr h.layout
  root := (h.inUse 2).2 (.inl ht.root)
  rootIsDir := by rw [h.others 2 ht.root, ht.rootIsDir]
  entries k hk hdir := by
    rcases (h.inUse k).1 hk with hin | rfl
    · rw [h.others k hin] at hdir ⊢
      obtain ⟨d, hlive⟩ := ht.entries k hin hdir
      obtain ⟨d', hlisting⟩ := d.keep (h.sameContents hin hdir)
      refine ⟨d', fun r hr hne => ?_⟩
      rw [hlisting] at hr
      exact (hlive r hr hne).imp_right fun huse => (h.inUse r.1).2 (.inl huse)
    · rw [isDir_of_isFile h.isFile] at hdir
      cases hdir

theorem kept (ht : fs.Tree v) : fs.Extends v v' where
  inUse k hk := (h.inUse k).2 (.inl hk)
  inodeAt := h.others
  child k hk name _ := ht.child_congr hk (h.others k hk) (h.sameContents hk) name

theorem after (t : Nat) : fs.Nameless v (v'.after t) n buf size e where
  consistent := h.consistent.after t
  layout := h.layout.trans (.of_eq rfl rfl)
  fresh := h.fresh
  inUse := h.inUse
  others := h.others
  contents k inode hin := ⟨(h.contents k inode hin).ptrs, (h.contents k inode hin).bytes⟩
  isFile := h.isFile
  recorded := h.recorded
  mapped := h.mapped
  bytes := h.bytes

end Nameless

/-! ## The path of the new file -/

/-- The absolute path that is made of names. -/
def absolutePath (names : List (List UInt8)) : List UInt8 := slash :: kstrjoin slash names

section Paths

variable {names : List (List UInt8)} {name : List UInt8}

theorem kstrsplit_absolutePath (hnames : ∀ name ∈ names, name ≠ [] ∧ slash ∉ name)
    (hne : names ≠ []) : kstrsplit (absolutePath names) slash = [] :: names := by
  have hsplit : kstrsplit (kstrjoin slash names ++ ending slash false) slash = names :=
    kstrsplit_kstrjoin hnames hne
  rw [ending, if_neg Bool.false_ne_true, List.append_nil] at hsplit
  rw [absolutePath, kstrsplit, kstrsplitFrom_delim, hsplit]

theorem pathNumber_absolutePath (hnames : ∀ name ∈ names, name ≠ [] ∧ slash ∉ name) :
    fs.pathNumber v (absolutePath names) = fs.walk v 2 names := by
  rcases eq_or_ne names [] with rfl | hne
  · exact if_pos rfl
  · have hpath : pathNames (absolutePath names) = names := by
      rw [pathNames, kstrsplit_absolutePath hnames hne, absolutePath, List.head?_cons, if_pos rfl]
      rfl
    have hroot : absolutePath names ≠ [slash] := by
      intro heq
      rw [heq] at hpath
      exact hne hpath.symm
    rw [pathNumber, if_neg hroot, hpath, if_neg hne]

theorem walk_concat (hne : fs.walk v k names ≠ 0) :
    fs.walk v k (names ++ [name]) = fs.child v (fs.walk v k names) name := by
  induction names generalizing k with
  | nil =>
    rw [List.nil_append, walk, walk, walk]
    split_ifs with hzero
    · exact hzero.symm
    · rfl
  | cons first names ih =>
    rw [walk] at hne
    rw [List.cons_append, walk, walk]
    split_ifs at hne ⊢ with hzero
    · exact absurd rfl hne
    · exact ih hne

end Paths

/-! ## The whole creation -/

/-- The path leads to a file with the contents, and every path that led to an inode still leads
to the same one. -/
def CreatesFile (fs : Mount) (v : Volume) (path : List UInt8) (buf : Mem) (size : Nat) : Prop :=
  ∃ v', fs.createFile path buf size v = .ok v' ∧
    (∃ inode w, fs.resolvePath path v' = .ok (inode, w) ∧ inode.isFile = true ∧
      inode.inodeSizeLowBits = size ∧ ∀ old, ∃ out u,
        fs.readFileContents inode old size w = ((size : Int), out, u) ∧ ∀ x < size, out x = buf x) ∧
    ∀ path' inode w, fs.resolvePath path' v = .ok (inode, w) → inode ≠ noInode →
      Returns (fs.resolvePath path' v') inode

variable {parents : List (List UInt8)} {name : List UInt8} {new : List (Nat × List UInt8)}

/-- Once the contents are stored, the name is linked into the root directory, whatever names
stand in front of it. -/
theorem Consistent.createFile_eq (h : fs.Consistent v) (ht : fs.Tree v)
    (hcount : v.sbInodesCount = fs.nbBlockGroups * v.sbNbInodesInGroup)
    (hfree : fs.freeBits v .inode ≠ [])
    (hsize : size ≤ (12 + fs.blockSize / 4) * fs.blockSize)
    (henough : taken (fs.blocksFor size) ≤ (fs.freeBlks v).length)
    (hfirst : taken (fs.blocksFor size) = 0 ∨ v.sbBlockNbOfSb = 0)
    (hclean : 12 < fs.blocksFor size → ∀ q ∈ (fs.freeBlks v)[12]?, ∀ j < fs.blockSize / 4,
      fs.word v q j = 0)
    (hnames : ∀ name' ∈ parents ++ [name], name' ≠ [] ∧ slash ∉ name') (buf : Mem) :
    ∃ n v₂, fs.Nameless v v₂ n buf size (fs.blocksFor size) ∧
      fs.createFile (absolutePath (parents ++ [name])) buf size v =
        fs.linkEntry (fs.inodeAt v 2) n name v₂ := by
  have hpos := h.owned.good.sized.pos
  have hsmall := h.owned.good.small
  have hbits : size < 2 ^ 32 := by
    have hrange : (12 + fs.blockSize / 4) * fs.blockSize ≤ (12 + 65536 / 4) * 65536 :=
      Nat.mul_le_mul (by omega) hsmall
    omega
  have hspare : 12 < fs.blocksFor size → (fs.freeBlks v).length ≠ 12 := by
    intro hmany
    rw [taken, if_pos hmany] at henough
    omega
  obtain ⟨n, w, e, inode', v₁, halloc, hwrite, hnameless, hended, hsame⟩ :=
    h.store_new hcount hfree hbits hfirst hclean hspare buf
  obtain rfl : e = fs.blocksFor size := by
    apply hended.eq_blocksFor hpos hsize
    rw [needed_newInode, hsame]
    exact henough
  -- the parent is what the path of one slash leads to
  have hroot : fs.pathNumber v₁ [slash] = 2 := if_pos rfl
  have hne : fs.pathNumber v₁ [slash] ≠ 0 := by
    rw [hroot]
    exact Nat.succ_ne_zero 1
  obtain ⟨t, hresolve⟩ := (hnameless.tree ht).resolvePath hne v₁.transfers
  rw [hroot, hnameless.others 2 ht.root, Volume.after_self] at hresolve
  have hsplit := kstrsplit_absolutePath hnames (by simp)
  have hlast : ([] :: (parents ++ [name])).getLast? = some name := by
    rw [← List.cons_append, List.getLast?_concat]
  have hparents : ([] :: (parents ++ [name])).dropLast = [] :: parents := by
    rw [← List.cons_append, List.dropLast_concat]
  refine ⟨n, v₁.after t, hnameless.after t, ?_⟩
  rw [createFile, halloc, ok_bind]
  simp only [hwrite, ok_bind, hsplit, hlast, hparents, parentPath, hresolve, ht.rootIsDir,
    Bool.not_true, Bool.false_eq_true, if_false, linkName]

theorem numbered_zero : fs.numbered v 0 = noInode := rfl

theorem isDir_noInode : noInode.isDir = false := rfl

theorem isFile_noInode : noInode.isFile = false := rfl

section AfterLink

variable (hn : fs.Nameless v w n buf size e) (hl : fs.Linked w v' new) (ht : fs.Tree v)
include hn hl ht

theorem Nameless.tree_linked (hnew : new = [] ∨ new = [(n, fitted name)]) (hname : 0 ∉ name) :
    fs.Tree v' := by
  apply hl.tree (hn.tree ht)
  intro r hr _
  rcases hnew with rfl | rfl
  · cases hr
  · obtain rfl := List.mem_singleton.1 hr
    exact ⟨fun hzero => hname (List.mem_of_mem_take hzero), hn.self⟩

theorem Nameless.kept_linked : fs.Extends v v' := (hn.kept ht).trans (hl.kept (hn.tree ht))

/-- The new path leads where the name leads from the parent. -/
theorem Nameless.pathNumber_linked (hnames : ∀ name' ∈ parents ++ [name], name' ≠ [] ∧ slash ∉ name')
    (hne : fs.walk v 2 parents ≠ 0) : fs.pathNumber v' (absolutePath (parents ++ [name])) =
      fs.child v' (fs.walk v 2 parents) name := by
  have hsame := (hn.kept_linked hl ht).walk ht ht.root hne
  rw [pathNumber_absolutePath hnames, walk_concat (hsame.symm ▸ hne), hsame]

/-- In the root directory the name is looked up behind the records that were there, and in the
other directories among those. -/
theorem Nameless.child_linked (hk : fs.InUse v k) (d : Entries fs v (fs.inodeAt v k)) :
    fs.child v' k name = firstNamed (d.listing ++ if k = 2 then new else []) name := by
  split_ifs with hroot
  · subst hroot
    obtain ⟨d', hlisting⟩ : ∃ d' : Entries fs w (fs.inodeAt w 2), d'.listing = d.listing := by
      rw [hn.others 2 hk]
      exact d.keep (hn.sameContents hk d.isDir)
    rw [hl.child_root (hn.tree ht) d', hlisting]
  · have hk' : fs.InUse w k := (hn.inUse k).2 (.inl hk)
    rw [hl.child_of_ne (hn.tree ht) hk' hroot, List.append_nil, ← child_eq ht.tables.good rfl d]
    exact ht.child_congr hk (hn.others k hk) (hn.sameContents hk) name

/-- The name is found behind the parent only if that is the root directory, if the name has been
copied as a whole, and if no record in front of the new one has it. -/
theorem Nameless.found_linked (hnew : new = [] ∨ new = [(n, fitted name)]) (hname : 0 ∉ name)
    (hk : fs.InUse v k) (d : Entries fs v (fs.inodeAt v k)) (hzero : firstNamed d.listing name = 0)
    (hfound : fs.child v' k name ≠ 0) :
    k = 2 ∧ name.length < 256 ∧ ∀ r ∈ d.listing, kstrcmp name r.2 ≠ 0 := by
  rw [hn.child_linked hl ht hk d] at hfound
  split_ifs at hfound with hroot
  · rcases hnew with rfl | rfl
    · rw [List.append_nil] at hfound
      exact absurd hzero hfound
    · obtain ⟨hnone, hequal⟩ := (firstNamed_concat_ne_zero hn.self.ne_zero hzero).1 hfound
      have hfitted : 0 ∉ fitted name := fun hmem => hname (List.mem_of_mem_take hmem)
      rw [kstrcmp_eq_zero hname hfitted] at hequal
      refine ⟨hroot, ?_, hnone⟩
      rw [hequal, length_fitted]
      exact Nat.mod_lt _ (by omega)
  · rw [List.append_nil] at hfound
    exact absurd hzero hfound

end AfterLink

/-- A file of a path whose parent is the root directory gets its name. -/
theorem Nameless.creates (hn : fs.Nameless v w n buf size (fs.blocksFor size)) (ht : fs.Tree v)
    (hrun : fs.createFile (absolutePath (parents ++ [name])) buf size v =
      fs.linkEntry (fs.inodeAt v 2) n name w)
    (hnames : ∀ name' ∈ parents ++ [name], name' ≠ [] ∧ slash ∉ name') (hname : 0 ∉ name)
    (hroot : fs.walk v 2 parents = 2) (d : Directory fs v (fs.inodeAt v 2))
    (hroom : d.Room name.length) (hlen : name.length < 256)
    (hnone : ∀ r ∈ d.listing, kstrcmp name r.2 ≠ 0) :
    fs.CreatesFile v (absolutePath (parents ++ [name])) buf size := by
  have hg := ht.tables.good
  have ht₂ := hn.tree ht
  obtain ⟨d₂, hroom₂⟩ : ∃ d₂ : Directory fs w (fs.inodeAt w 2), d₂.Room name.length := by
    rw [hn.others 2 ht.root]
    obtain ⟨d₂, -, hkeep⟩ := d.keep (hn.sameContents ht.root ht.rootIsDir)
    exact ⟨d₂, hkeep _ hroom⟩
  obtain ⟨v', hlink, hl⟩ :=
    hn.consistent.linkEntry_of_room ht₂.root d₂ ht₂.rootIsDir hn.number_lt hlen hroom₂
  rw [hn.others 2 ht.root, ← hrun] at hlink
  have ht' : fs.Tree v' := hn.tree_linked hl ht (.inr (by rw [fitted_of_lt hlen])) hname
  have hnumber : fs.pathNumber v' (absolutePath (parents ++ [name])) = n := by
    have hequal : kstrcmp name name = 0 := (kstrcmp_eq_zero hname hname).2 rfl
    have hne : fs.walk v 2 parents ≠ 0 := by
      rw [hroot]
      exact Nat.succ_ne_zero 1
    rw [hn.pathNumber_linked hl ht hnames hne, hroot,
      hn.child_linked hl ht ht.root (d.toEntries ht.rootIsDir), if_pos rfl,
      d.toEntries_listing, firstNamed_concat hnone, if_pos hequal]
  obtain ⟨t, hresolve⟩ := ht'.resolvePath (hnumber.symm ▸ hn.self.ne_zero) v'.transfers
  rw [hnumber, hl.inodeAt n hn.self, Volume.after_self] at hresolve
  -- the link has left the contents alone
  have hsame := hl.contents n (hn.ne ht.root).symm _ (if_pos ⟨hn.self, .inl hn.isFile⟩)
  have hall : min size (fs.blocksFor size * fs.blockSize) = size :=
    Nat.min_eq_left (le_blocksFor_mul hg.sized.pos)
  refine ⟨v', hlink, ⟨_, _, hresolve, hn.isFile, hn.recorded, fun old => ?_⟩,
    fun path' inode u hpath hne => ?_⟩
  · refine hg.readFileContents_eq hn.isFile hn.recorded (fun j hj => ?_) (fun x hx => ?_) old
    · rw [Volume.after_blockPtr, hsame.ptrs]
      exact hn.mapped j hj
    · have hdiv : x / fs.blockSize < fs.blocksFor size := by
        rw [Nat.div_lt_iff_lt_mul hg.sized.pos]
        omega
      rw [← hn.bytes x (hall.symm ▸ hx), Volume.fileByte, Volume.fileByte, Volume.after_blockPtr,
        Volume.after_blk, hsame.ptrs]
      exact hsame.bytes _ (hn.mapped _ hdiv) _ (Nat.mod_lt x hg.sized.pos)
  · exact (hn.kept_linked hl ht).resolvePath ht ht' hpath hne

def nestedSb : Mem := (((tinyVolume 1 0).sb.store 0 4 8).store 16 4 1).store 40 4 8

def nestedTable : Mem := ((tinyTable.store 8 4 5).store 12 2 0).store 14 2 1

/-- Inodes 2 and 3 are directories of one block. -/
def nestedInodes : Mem :=
  (((((Mem.store (fun _ => 0) 128 2 0x41ED).store 132 4 1024).store 168 4 6).store 256 2
    0x41ED).store 260 4 1024).store 296 4 7

/-- `.` and `..`, with the length of the second record. -/
def dotRecords (self size : Nat) : Mem :=
  (((((((Mem.store (fun _ => 0) 0 4 self).store 4 2 12).store 6 2 0x201).store 8 1 0x2E).store 12 4
    2).store 16 2 size).store 18 2 0x202).store 20 2 0x2E2E

/-- 64 blocks of 1 KiB, all of them taken, and eight inodes, of which the last is free. The root
directory is block 6, with a directory `d` in it, which is block 7. -/
def nestedVolume : Volume where
  disk x :=
    if x < 2048 then nestedSb (x - 1024)
    else if x < 3072 then nestedTable (x - 2048)
    else if x < 5120 then if x = 4096 then 0x7F else 255
    else if x < 6144 then nestedInodes (x - 5120)
    else if x < 7168 then
      ((((dotRecords 2 12).store 24 4 3).store 28 2 1000).store 30 2 0x201).store 32 1 0x64 (x - 6144)
    else if x < 8192 then dotRecords 3 1012 (x - 7168)
    else 0
  sb := nestedSb
  bgdt := nestedTable
  transfers := 0

theorem nestedVolume_clear : tinyMount.OneClear nestedVolume .inode 0 7 := by
  have hwhere : nestedVolume.bitmapBlk .block 0 = 3 ∧ nestedVolume.bitmapBlk .inode 0 = 4 := by
    decide
  intro r g j hg hj
  obtain rfl : g = 0 := Nat.lt_one_iff.1 hg
  have hbyte : j / 8 < 1024 := Nat.div_lt_of_lt_mul hj
  have hdisk (y) (hlo : 3072 ≤ y) (hhi : y < 5120) :
      nestedVolume.disk y = if y = 4096 then 0x7F else 255 := by
    simp only [nestedVolume]
    rw [if_neg (by omega), if_neg (by omega), if_pos hhi]
  have hset (b : Nat) (hb : b = 3 ∨ b = 4) (hne : ¬ (b = 4 ∧ j < 8)) :
      (nestedVolume.blk tinyMount b).bit j = true := by
    apply Mem.bit_of_eq_255
    have hlo : b * 1024 + j / 8 < 5120 ∧ 3072 ≤ b * 1024 + j / 8 ∧ b * 1024 + j / 8 ≠ 4096 := by
      omega
    have haddr : tinyMount.blkAddr b = b * 1024 := by
      rcases hb with rfl | rfl <;> decide
    rw [Volume.blk, haddr, hdisk _ hlo.2.1 hlo.1, if_neg hlo.2.2]
  rw [bitOf]
  cases r with
  | block =>
    rw [hwhere.1, hset 3 (.inl rfl) (by omega)]
    exact iff_of_false Bool.true_eq_false.mp (by simp)
  | inode =>
    rw [hwhere.2]
    rcases Nat.lt_or_ge j 8 with hlo | hhi
    · interval_cases j <;> decide
    · rw [hset 4 (.inr rfl) (by omega)]
      refine iff_of_false Bool.true_eq_false.mp fun heq => ?_
      cases heq
      omega

theorem nestedVolume_image : tinyMount.Image nestedVolume := by
  have hlayout : tinyMount.Layout nestedVolume := by
    apply (tinyVolume_layout 0 0xDF).of_bitmapBlk
    intro r g
    have hfield : r.bitmapField + 4 ≤ 8 := by cases r <;> decide
    refine (Mem.load_store_of_disjoint ?_).trans ((Mem.load_store_of_disjoint ?_).trans
      (Mem.load_store_of_disjoint ?_)) <;> omega
  refine ⟨⟨tinyMount_fits.sized, hlayout, fun g hg i hi hclr => ?_⟩, by decide, by decide,
    by decide, by decide, by decide, fun g hg i hi hclr => ?_, by decide⟩
  · obtain rfl : g = 0 := Nat.lt_one_iff.1 hg
    cases (nestedVolume_clear _ _ _ hg hi).1 hclr
  · obtain rfl : g = 0 := Nat.lt_one_iff.1 hg
    cases (nestedVolume_clear _ _ _ hg hi).1 hclr
    decide

theorem nestedVolume_inStep : tinyMount.InStep nestedVolume := by
  refine nestedVolume_clear.inStep (by decide) (by decide) ⟨fun x hx => ?_, fun x hx => ?_⟩
    (fun r g hg => ?_) fun r => ?_
  · show nestedVolume.disk (1024 + x) = _
    simp only [nestedVolume]
    rw [if_pos (by omega), Nat.add_sub_cancel_left]
  · have hx : x < 32 := hx
    show nestedVolume.disk (2048 + x) = _
    simp only [nestedVolume]
    rw [if_neg (by omega), if_pos (by omega), Nat.add_sub_cancel_left]
  · obtain rfl : g = 0 := Nat.lt_one_iff.1 hg
    cases r <;> decide
  · cases r <;> decide

theorem nestedVolume_tables : tinyMount.InodeTables nestedVolume where
  good := ⟨fun _ _ => rfl, tinyMount_fits.sized, by decide⟩
  volume := by decide
  slot := by decide
  divides := by decide
  inside := by decide
  disjoint := by decide
  count := by decide

/-- The root directory and `d` have one block each. -/
theorem nestedVolume_ptr (hk : k = 2 ∨ k = 3) :
    (tinyMount.inodeAt nestedVolume k).inodeSinglyIndirectBlkPtr = 0 ∧
      ∀ i, nestedVolume.blockPtr tinyMount (tinyMount.inodeAt nestedVolume k) i =
        if i = 0 then k + 4 else 0 := by
  have hsingle : (tinyMount.inodeAt nestedVolume k).inodeSinglyIndirectBlkPtr = 0 := by
    rcases hk with rfl | rfl <;> decide
  refine ⟨hsingle, fun i => ?_⟩
  rcases Nat.lt_or_ge i 12 with hlo | hhi
  · rcases hk with rfl | rfl <;> interval_cases i <;> decide
  · rw [blockPtr_of_no_indirect hsingle hhi, if_neg (by omega)]

theorem nestedVolume_diskTable (hne : ¬ (k = 2 ∨ k = 3)) :
    tinyMount.diskTable nestedVolume k = none := by
  refine if_neg fun huse => ?_
  obtain ⟨⟨hk, hcount, -⟩, hkind⟩ := huse
  have hcount : k ≤ 8 := hcount
  interval_cases k <;> first | omega | exact absurd hkind (by decide)

theorem nestedVolume_nbBlocks (hk : k = 2 ∨ k = 3) :
    tinyMount.nbBlocks (tinyMount.inodeAt nestedVolume k) = 1 := by
  rcases hk with rfl | rfl <;> decide

theorem nestedVolume_blockPtr (hk : k = 2 ∨ k = 3) {i : Nat}
    (hi : i < tinyMount.nbBlocks (tinyMount.inodeAt nestedVolume k)) :
    nestedVolume.blockPtr tinyMount (tinyMount.inodeAt nestedVolume k) i = k + 4 := by
  rw [nestedVolume_nbBlocks hk] at hi
  rw [(nestedVolume_ptr hk).2, if_pos (by omega)]

theorem nestedVolume_mapped (hk : k = 2 ∨ k = 3) (i : Nat)
    (hi : i < tinyMount.nbBlocks (tinyMount.inodeAt nestedVolume k)) :
    nestedVolume.blockPtr tinyMount (tinyMount.inodeAt nestedVolume k) i ≠ 0 := by
  rw [nestedVolume_blockPtr hk hi]
  exact Nat.succ_ne_zero _

theorem nestedVolume_wellFormed (hk : k = 2 ∨ k = 3) (i : Nat)
    (hi : i < tinyMount.nbBlocks (tinyMount.inodeAt nestedVolume k)) :
    WellFormedBlk tinyMount (nestedVolume.blk tinyMount
      (nestedVolume.blockPtr tinyMount (tinyMount.inodeAt nestedVolume k) i))
      (if k = 2 then [0, 12, 24] else [0, 12]) := by
  rw [nestedVolume_blockPtr hk hi]
  rcases hk with rfl | rfl <;> decide

theorem nestedVolume_one (hk : k = 2 ∨ k = 3) :
    0 < tinyMount.nbBlocks (tinyMount.inodeAt nestedVolume k) ∧
      (∀ i < tinyMount.nbBlocks (tinyMount.inodeAt nestedVolume k),
        ∀ j < tinyMount.nbBlocks (tinyMount.inodeAt nestedVolume k), i ≠ j →
          tinyMount.Apart (nestedVolume.blockPtr tinyMount (tinyMount.inodeAt nestedVolume k) i)
            (nestedVolume.blockPtr tinyMount (tinyMount.inodeAt nestedVolume k) j)) ∧
      (12 < tinyMount.nbBlocks (tinyMount.inodeAt nestedVolume k) →
        ∀ i < tinyMount.nbBlocks (tinyMount.inodeAt nestedVolume k),
          tinyMount.Apart (nestedVolume.blockPtr tinyMount (tinyMount.inodeAt nestedVolume k) i)
            (tinyMount.inodeAt nestedVolume k).inodeSinglyIndirectBlkPtr) := by
  rw [nestedVolume_nbBlocks hk]
  refine ⟨Nat.one_pos, fun i hi j hj hij => ?_, fun hmany => ?_⟩ <;> omega

def nestedDirectory (hk : k = 2 ∨ k = 3) :
    Directory tinyMount nestedVolume (tinyMount.inodeAt nestedVolume k) where
  records _ := if k = 2 then [0, 12, 24] else [0, 12]
  nonempty := (nestedVolume_one hk).1
  mapped := nestedVolume_mapped hk
  apart := (nestedVolume_one hk).2.1
  indirectApart := (nestedVolume_one hk).2.2
  wellFormed := nestedVolume_wellFormed hk

theorem nestedVolume_inTable {c : Nat} (hc : tinyMount.InTable nestedVolume c) : c = 5 := by
  obtain ⟨g, hg, hlo, hhi⟩ := hc
  obtain rfl : g = 0 := Nat.lt_one_iff.1 hg
  have hblks : nestedVolume.inodeTableBlk 0 = 5 ∧ tinyMount.inodeTableBlocks nestedVolume = 1 := by
    decide
  omega

theorem nestedVolume_outside {b : Nat} (hb : b = 5 ∨ b = 6 ∨ b = 7) :
    tinyMount.Outside nestedVolume b := by
  refine ⟨fun r g hg => ?_, ?_, ?_⟩
  · obtain rfl : g = 0 := Nat.lt_one_iff.1 hg
    rcases hb with rfl | rfl | rfl <;> cases r <;> decide
  · rcases hb with rfl | rfl | rfl <;> decide
  · rcases hb with rfl | rfl | rfl <;> decide

theorem nestedVolume_refs {s : Option Nat}
    (hne : tinyMount.refBlk nestedVolume (tinyMount.diskTable nestedVolume) k s ≠ 0) :
    (k = 2 ∨ k = 3) ∧ s = some 0 ∧
      tinyMount.refBlk nestedVolume (tinyMount.diskTable nestedVolume) k s = k + 4 := by
  rcases em (k = 2 ∨ k = 3) with hk | hk
  · have hsome : tinyMount.diskTable nestedVolume k = some (tinyMount.inodeAt nestedVolume k) := by
      refine if_pos ?_
      rcases hk with rfl | rfl <;> decide
    obtain ⟨hsingle, hptr⟩ := nestedVolume_ptr hk
    rw [refBlk_some hsome] at hne ⊢
    cases s with
    | none => exact absurd hsingle hne
    | some i =>
      rw [Volume.fileBlk, hptr] at hne ⊢
      split_ifs at hne ⊢ with hi
      · exact ⟨hk, congrArg some hi, rfl⟩
      · exact absurd rfl hne
  · exact absurd (refBlk_none (nestedVolume_diskTable hk)) hne

theorem nestedVolume_consistent : tinyMount.Consistent nestedVolume := by
  refine ⟨⟨nestedVolume_image, nestedVolume_inStep, nestedVolume_tables, fun c hc => ?_,
    fun b hb => ?_, fun k s hne => ?_, fun k s hne => ?_, fun k s k' s' hne heq => ?_⟩,
    fun k huse hdir => ?_⟩
  · exact nestedVolume_outside (.inl (nestedVolume_inTable hc))
  · obtain ⟨⟨g, i⟩, hmem, rfl⟩ := List.mem_map.1 hb
    obtain ⟨hg, hi, hclear⟩ := mem_freeBits.1 hmem
    cases (nestedVolume_clear _ _ _ hg hi).1 hclear
  · obtain ⟨hk, -, hblk⟩ := nestedVolume_refs hne
    rw [hblk]
    refine ⟨?_, nestedVolume_outside (by omega), fun hin => ?_⟩
    · rcases hk with rfl | rfl <;> decide
    · have hwhere := nestedVolume_inTable hin
      omega
  · obtain ⟨hk, -, hblk⟩ := nestedVolume_refs hne
    rw [hblk]
    refine ⟨0, k + 3, ?_⟩
    rcases hk with rfl | rfl <;> decide
  · obtain ⟨hk, rfl, hblk⟩ := nestedVolume_refs hne
    obtain ⟨hk', rfl, hblk'⟩ := nestedVolume_refs (heq ▸ hne)
    obtain rfl : k = k' := by omega
    rfl
  · rcases em (k = 2 ∨ k = 3) with hk | hk
    · exact (nestedDirectory hk).mapped
    · have hnone := nestedVolume_diskTable hk
      rw [diskTable, if_pos ⟨huse, .inr hdir⟩] at hnone
      cases hnone

theorem nestedVolume_tree : tinyMount.Tree nestedVolume where
  tables := nestedVolume_tables
  root := by decide
  rootIsDir := by decide
  entries k huse hdir := by
    rcases em (k = 2 ∨ k = 3) with hk | hk
    · refine ⟨(nestedDirectory hk).toEntries hdir, ?_⟩
      have hall : (nestedDirectory hk).listing.all
          (fun r => decide (r.1 ≠ 0 → 0 ∉ r.2 ∧ tinyMount.InUse nestedVolume r.1)) = true := by
        rcases hk with rfl | rfl <;> decide
      exact fun r hr => of_decide_eq_true (List.all_eq_true.1 hall r hr)
    · have hnone := nestedVolume_diskTable hk
      rw [diskTable, if_pos ⟨huse, .inr hdir⟩] at hnone
      cases hnone

theorem nestedVolume_free : tinyMount.freeBits nestedVolume .inode ≠ [] := by
  have hclear := (nestedVolume_clear .inode 0 7 (by decide) (by decide)).2 rfl
  exact List.ne_nil_of_mem (mem_freeBits.2 ⟨by decide, by decide, hclear⟩)

/-- The last record of either directory has room for a name of one byte. -/
theorem nestedDirectory_room (hk : k = 2 ∨ k = 3) : (nestedDirectory hk).Room 1 := by
  rcases hk with rfl | rfl <;> exact ⟨_, rfl, by decide⟩

theorem nestedDirectory_names (hk : k = 2 ∨ k = 3) :
    ∀ r ∈ (nestedDirectory hk).listing, r.1 ≠ 0 ∧ r.2 ≠ [0x66] := by
  have hall : (nestedDirectory hk).listing.all (fun r => decide (r.1 ≠ 0 ∧ r.2 ≠ [0x66])) = true := by
    rcases hk with rfl | rfl <;> decide
  exact fun r hr => of_decide_eq_true (List.all_eq_true.1 hall r hr)

end Mount

end Kaku

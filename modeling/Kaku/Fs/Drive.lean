-- SUMMARY: Creating and writing files over whole runs of the driver: what every path reads back.
import Kaku.Fs.Created
import Kaku.Fs.InOrder
import Kaku.Lib.Register

/-!
# Runs of the driver

`fs_ext2_create_file` for files of the root directory, and `fs_ext2_write_file` for files that a
path leads to, over and over. The drive stays in order, a path never leads elsewhere, and a file
contains what was last written to it or what it was created with.
-/

namespace Kaku.Mount

variable {fs : Mount} {v v' w u : Volume} {k n size e : Nat} {buf : Mem} {name : List UInt8}
  {path : List UInt8} {bytes : List UInt8} {new : List (Nat × List UInt8)}

/-! ## A name that is linked -/

/-- Only the last block of the root directory is written. -/
theorem Consistent.link_written (h : fs.Consistent v) (huse : fs.InUse v 2)
    (d : Directory fs v (fs.inodeAt v 2)) (hdir : (fs.inodeAt v 2).isDir = true)
    (hlink : fs.linkEntry (fs.inodeAt v 2) n name v = .ok v') :
    ∃ i buf, fs.refBlk v (fs.diskTable v) 2 (some i) ≠ 0 ∧
      fs.Written v (fs.refBlk v (fs.diskTable v) 2 (some i)) buf v' := by
  obtain ⟨old, -, next, hnext, hrun⟩ := d.linkEntry_eq h.owned.good n name
  rw [hlink] at hrun
  obtain ⟨buf, -, hv⟩ := bind_eq_ok.1 hrun.symm
  cases hv
  obtain ⟨hrewritten, hsb, hbgdt⟩ := hnext buf
  have htable : fs.diskTable v 2 = some (fs.inodeAt v 2) := if_pos ⟨huse, .inr hdir⟩
  refine ⟨fs.nbBlocks (fs.inodeAt v 2) - 1, buf, ?_⟩
  rw [refBlk_some htable]
  exact ⟨d.mapped _ (Nat.sub_lt d.nonempty Nat.one_pos), hrewritten, hsb, hbgdt⟩

/-- The bitmaps and the blocks of all files agree as before. -/
theorem Consistent.link (h : fs.Consistent v) (huse : fs.InUse v 2)
    (d : Directory fs v (fs.inodeAt v 2)) (hdir : (fs.inodeAt v 2).isDir = true)
    (hlink : fs.linkEntry (fs.inodeAt v 2) n name v = .ok v') :
    fs.Consistent v' ∧ fs.Spared v v' := by
  obtain ⟨i, buf, hne, hw⟩ := h.link_written huse d hdir hlink
  have hdata := h.owned.data 2 (some i) hne
  have hframe := hw.frame h.owned.image h.owned.tables hdata
  have hind (k : Nat) : fs.refBlk v (fs.diskTable v) k none ≠
      fs.refBlk v (fs.diskTable v) 2 (some i) := by
    intro heq
    cases (Prod.mk.inj (h.owned.once 2 (some i) k none hne heq.symm)).2
  have hptr (k : Nat) (s : Option Nat) :
      fs.refBlk v' (fs.diskTable v) k s = fs.refBlk v (fs.diskTable v) k s :=
    h.owned.refBlk_frame hframe fun hin => hind k (Set.mem_singleton_iff.1 hin)
  refine ⟨⟨?_, fun k hk hkdir j hj => ?_⟩, h.owned.spared_written hw hdata (h.owned.used 2 _ hne)⟩
  · rw [hframe.diskTable h.owned.tables h.owned.image]
    exact h.owned.written hw hdata hind
  · have hk' : fs.InUse v k := (hframe.inUse h.owned.tables h.owned.image).1 hk
    rw [hframe.inodeAt h.owned.tables hk'.1 hk'.2.1] at hkdir hj ⊢
    have htable : fs.diskTable v k = some (fs.inodeAt v k) := if_pos ⟨hk', .inr hkdir⟩
    have hsame := hptr k (some j)
    rw [refBlk_some htable, refBlk_some htable] at hsame
    show v'.fileBlk fs (fs.inodeAt v k) (some j) ≠ 0
    rw [hsame]
    exact h.dirs k hk' hkdir j hj

/-! ## A file that is added -/

/-- The name is new in the root directory, and its last block has room for the record. -/
def NewName (fs : Mount) (v : Volume) (name : List UInt8) : Prop :=
  name ≠ [] ∧ slash ∉ name ∧ 0 ∉ name ∧ name.length < 256 ∧
    ∃ d : Directory fs v (fs.inodeAt v 2), d.Room name.length ∧ ∀ r ∈ d.listing, kstrcmp name r.2 ≠ 0

/-- There are an inode and blocks for a new file of `n` bytes, which are not too many for any. -/
structure Space (fs : Mount) (v : Volume) (n : Nat) : Prop where
  inodes : fs.freeBits v .inode ≠ []
  inRange : n ≤ fs.maxBlocks * fs.blockSize
  enough : taken (fs.blocksFor n) ≤ (fs.freeBlks v).length

/-- The drive with one more file under a name of the root directory. -/
structure Added (fs : Mount) (v v' : Volume) (name : List UInt8) (n : Nat) (bytes : List UInt8) :
    Prop where
  inOrder : fs.InOrder v'
  layout : SameLayout v v'
  fresh : ¬ fs.InUse v n
  contents : fs.contents v' = Function.update (fs.contents v) n (some bytes)
  opensNew : fs.opens v' (absolutePath [name]) = some n
  opens : ∀ path k, fs.opens v path = some k → fs.opens v' path = some k
  shows : ∀ k es, fs.Shows v k es → fs.Shows v' k (es ++ if k = 2 then [(n, name)] else [])

/-- Taking an inode leaves the free blocks as they are. -/
theorem NewInode.spared (h : fs.NewInode v n w) (hv : fs.Consistent v) : fs.Spared v w where
  free _ hq := h.free ▸ hq
  bytes q hq x hx := h.blk q (hv.owned.free q (h.free ▸ hq)).outside x hx

/-- What `fs_ext2_create_file` has done before it looks for the parent. -/
theorem InOrder.store_new (hv : fs.InOrder v)
    (hcount : v.sbInodesCount = fs.nbBlockGroups * v.sbNbInodesInGroup) (hspace : fs.Space v size)
    (buf : Mem) :
    ∃ n w inode' v', fs.allocInode 0 v = .ok (n, w) ∧
      fs.writeFile (newInode n) buf size w = .ok ((size : Int), inode', v') ∧
      fs.Nameless v v' n buf size (fs.blocksFor size) ∧ fs.Spared v v' := by
  have hpos := hv.consistent.owned.good.sized.pos
  have hbits := hv.consistent.lt_of_inRange hspace.inRange
  obtain ⟨n, w, hn⟩ := hv.consistent.take_inode hcount hspace.inodes
  have hwith := hn.consistentWith hv.consistent
  have hspared := hn.spared hv.consistent
  have henough : fs.needed w (newInode n) 0 (fs.blocksFor size) ≤ (fs.freeBlks w).length := by
    rw [needed_newInode, hn.free]
    exact hspace.enough
  have hsupplied : fs.Supplied w (newInode n) 0 (fs.blocksFor size) :=
    ⟨.inr (by rw [hn.layout.blockNbOfSb, hv.first]), fun _ _ q hq j hj =>
      (hspared.clean hv.clean).word (List.mem_of_getElem? hq) hj, spare_of_enough henough⟩
  obtain ⟨e, inode', v', hwrite, hstored, hended⟩ := hwith.store hbits hsupplied buf w.transfers
  rw [hended.eq_blocksFor hpos hspace.inRange henough] at hwrite hstored
  rw [Nat.min_eq_left (le_blocksFor_mul hpos)] at hwrite
  have hfirst : w.sbBlockNbOfSb = 0 := by rw [hn.layout.blockNbOfSb, hv.first]
  obtain ⟨hkept, -⟩ := hwith.spared hsupplied hfirst hwrite
  rw [Volume.after_self] at hwrite
  exact ⟨n, w, inode', v', hn.alloc, hwrite, hn.nameless hv.consistent hstored,
    hspared.trans hkept⟩

/-- The new name goes to the root directory. -/
theorem InOrder.createFile_eq (hv : fs.InOrder v)
    (hcount : v.sbInodesCount = fs.nbBlockGroups * v.sbNbInodesInGroup) (hspace : fs.Space v size)
    (hname : name ≠ [] ∧ slash ∉ name) (buf : Mem) :
    ∃ n v₂, fs.Nameless v v₂ n buf size (fs.blocksFor size) ∧ fs.Spared v v₂ ∧
      fs.createFile (absolutePath [name]) buf size v = fs.linkEntry (fs.inodeAt v 2) n name v₂ := by
  obtain ⟨n, w, inode', v₁, halloc, hwrite, hnameless, hspared⟩ := hv.store_new hcount hspace buf
  have hroot : fs.pathNumber v₁ [slash] = 2 := if_pos rfl
  have hne : fs.pathNumber v₁ [slash] ≠ 0 := by
    rw [hroot]
    exact Nat.succ_ne_zero 1
  obtain ⟨t, hresolve⟩ := (hnameless.tree hv.tree).resolvePath hne v₁.transfers
  rw [hroot, hnameless.others 2 hv.tree.root, Volume.after_self] at hresolve
  have hsplit : kstrsplit (absolutePath [name]) slash = [[], name] :=
    kstrsplit_absolutePath (fun _ hmem => List.mem_singleton.1 hmem ▸ hname) (by simp)
  refine ⟨n, v₁.after t, hnameless.after t, hspared.trans .after, ?_⟩
  rw [createFile, halloc, ok_bind]
  simp only [hwrite, ok_bind, hsplit]
  rw [show parentPath ([[], name] : List (List UInt8)).dropLast = [slash] from rfl, hresolve]
  simp only [ok_bind, hv.tree.rootIsDir, Bool.not_true, Bool.false_eq_true, if_false]
  rfl

theorem opens_eq_some : fs.opens v path = some k ↔ fs.pathNumber v path = k ∧ k ≠ 0 ∧
    (fs.inodeAt v k).inodeTypeAndPermissions ≠ 0 := by
  rw [Mount.opens]
  constructor
  · intro h
    split_ifs at h with hnone
    cases h
    have hne : fs.pathNumber v path ≠ 0 := by
      intro hzero
      rw [hzero] at hnone
      exact hnone rfl
    rw [numbered_of_ne hne] at hnone
    exact ⟨rfl, hne, hnone⟩
  · rintro ⟨rfl, hne, hsome⟩
    rw [numbered_of_ne hne, if_neg hsome]

/-- Paths lead where they led, if directories have only grown. -/
theorem Extends.opens (h : fs.Extends v v') (ht : fs.Tree v) (hopen : fs.opens v path = some k) :
    fs.opens v' path = some k := by
  obtain ⟨rfl, hne, hsome⟩ := opens_eq_some.1 hopen
  rw [opens_eq_some, h.pathNumber ht hne, h.inodeAt _ (ht.inUse_pathNumber hne)]
  exact ⟨rfl, hne, hsome⟩

section Nameless

variable (hn : fs.Nameless v w n buf size (fs.blocksFor size)) (hv : fs.InOrder v)
include hn hv

/-- The new file has no holes, and the others are what they were. -/
theorem Nameless.inOrder (hspared : fs.Spared v w) : fs.InOrder w where
  consistent := hn.consistent
  tree := hn.tree hv.tree
  first := by rw [hn.layout.blockNbOfSb, hv.first]
  clean := hspared.clean hv.clean
  whole k hk hfile := by
    rcases (hn.inUse k).1 hk with hin | rfl
    · rw [hn.others k hin] at hfile ⊢
      intro i hi
      rw [(hn.contents k _ (if_pos ⟨hin, .inl hfile⟩)).ptrs]
      exact hv.whole k hin hfile i hi
    · intro i hi
      rw [hn.recorded] at hi
      exact hn.mapped i ((lt_blocksFor hv.consistent.owned.good.sized.pos).2 hi)

theorem Nameless.contents_new :
    fs.contents w = Function.update (fs.contents v) n (some (buf.peek 0 size)) := by
  have hpos := hv.consistent.owned.good.sized.pos
  funext k
  rcases eq_or_ne k n with rfl | hne
  · rw [Function.update_self, contents_of_file hn.self hn.isFile, fileBytes, hn.recorded, Mem.peek]
    congr 1
    apply List.map_congr_left
    intro x hx
    rw [Nat.zero_add]
    refine hn.bytes x ?_
    rw [Nat.min_eq_left (le_blocksFor_mul hpos)]
    exact List.mem_range.1 hx
  · have huse : fs.InUse w k ↔ fs.InUse v k := (hn.inUse k).trans (or_iff_left hne)
    rw [Function.update_of_ne hne, Mount.contents, Mount.contents]
    simp only [huse]
    rcases em (fs.InUse v k) with hin | hout
    · rw [hn.others k hin]
      split_ifs with hboth
      · rw [fileBytes_congr (hv.whole k hin hboth.2) hpos (hn.contents k _ (if_pos ⟨hin, .inl hboth.2⟩))]
      · rfl
    · simp only [hout, false_and, if_false]

end Nameless

/-- A name that is linked changes the contents of no file. -/
theorem InOrder.link (hv : fs.InOrder v) (d : Directory fs v (fs.inodeAt v 2))
    (hlink : fs.linkEntry (fs.inodeAt v 2) n name v = .ok v') (hl : fs.Linked v v' new)
    (ht : fs.Tree v') : fs.InOrder v' ∧ fs.contents v' = fs.contents v := by
  have hpos := hv.consistent.owned.good.sized.pos
  obtain ⟨hconsistent, hspared⟩ := hv.consistent.link hv.tree.root d hv.tree.rootIsDir hlink
  have hsame (k : Nat) (hk : fs.InUse v k) (hfile : (fs.inodeAt v k).isFile = true) :
      fs.SameContents v v' (fs.inodeAt v k) := by
    refine hl.contents k ?_ _ (if_pos ⟨hk, .inl hfile⟩)
    rintro rfl
    exact Bool.false_ne_true ((isDir_of_isFile hfile).symm.trans hv.tree.rootIsDir)
  refine ⟨⟨hconsistent, ht, by rw [hl.layout.blockNbOfSb, hv.first], hspared.clean hv.clean,
    fun k hk hfile => ?_⟩, ?_⟩
  · have hin := (hl.inUse k).1 hk
    rw [hl.inodeAt k hin] at hfile ⊢
    intro i hi
    rw [(hsame k hin hfile).ptrs]
    exact hv.whole k hin hfile i hi
  · funext k
    rw [Mount.contents, Mount.contents]
    simp only [hl.inUse]
    rcases em (fs.InUse v k) with hin | hout
    · rw [hl.inodeAt k hin]
      split_ifs with hboth
      · rw [fileBytes_congr (hv.whole k hin hboth.2) hpos (hsame k hin hboth.2)]
      · rfl
    · simp only [hout, false_and, if_false]

/-- The root directory shows the new record behind the others. -/
theorem Linked.shows {es : List (Nat × List UInt8)} (hl : fs.Linked v v' new) (h : fs.Shows v k es) :
    fs.Shows v' k (es ++ if k = 2 then new else []) := by
  split_ifs with hroot
  · subst hroot
    obtain ⟨huse, d, rfl⟩ := h
    refine ⟨(hl.inUse 2).2 huse, ?_⟩
    rw [hl.inodeAt 2 huse]
    exact hl.root d
  · rw [List.append_nil]
    exact h.congr ((hl.inUse k).2 h.1) (hl.inodeAt k h.1) fun hdir =>
      hl.contents k hroot _ (if_pos ⟨h.1, .inr hdir⟩)

/-- A file is created under a name that is new, where there is space for it. -/
theorem InOrder.create (hv : fs.InOrder v)
    (hcount : v.sbInodesCount = fs.nbBlockGroups * v.sbNbInodesInGroup) (hspace : fs.Space v size)
    (hname : fs.NewName v name) (buf : Mem) :
    ∃ n v', fs.createFile (absolutePath [name]) buf size v = .ok v' ∧
      fs.Added v v' name n (buf.peek 0 size) := by
  obtain ⟨hnonempty, hslash, hzero, hlen, d, hroom, hnone⟩ := hname
  obtain ⟨n, w, hn, hspared, hrun⟩ := hv.createFile_eq hcount hspace ⟨hnonempty, hslash⟩ buf
  have hw := hn.inOrder hv hspared
  obtain ⟨d₂, hroom₂⟩ : ∃ d₂ : Directory fs w (fs.inodeAt w 2), d₂.Room name.length := by
    rw [hn.others 2 hv.tree.root]
    obtain ⟨d₂, -, hkeep⟩ := d.keep (hn.sameContents hv.tree.root hv.tree.rootIsDir)
    exact ⟨d₂, hkeep _ hroom⟩
  obtain ⟨v', hlink, hl⟩ :=
    hw.consistent.linkEntry_of_room hw.tree.root d₂ hw.tree.rootIsDir hn.number_lt hlen hroom₂
  have ht' : fs.Tree v' :=
    hn.tree_linked hl hv.tree (.inr (by rw [fitted_of_lt hlen])) hzero
  obtain ⟨hv', hcontents⟩ := hw.link d₂ hlink hl ht'
  have hnumber : fs.pathNumber v' (absolutePath [name]) = n := by
    have hnames : ∀ name' ∈ [] ++ [name], name' ≠ [] ∧ slash ∉ name' := fun _ hmem =>
      List.mem_singleton.1 hmem ▸ ⟨hnonempty, hslash⟩
    have hequal : kstrcmp name name = 0 := (kstrcmp_eq_zero hzero hzero).2 rfl
    have hwalk : fs.walk v 2 [] = 2 := rfl
    have hfound := hn.pathNumber_linked hl hv.tree hnames (hwalk ▸ Nat.succ_ne_zero 1)
    rw [hwalk, hn.child_linked hl hv.tree hv.tree.root (d.toEntries hv.tree.rootIsDir), if_pos rfl,
      d.toEntries_listing, firstNamed_concat hnone, if_pos hequal] at hfound
    exact hfound
  refine ⟨n, v', ?_, hv', hn.layout.trans hl.layout, hn.fresh, ?_, ?_, fun path k hopen => ?_,
    fun k es hes => ?_⟩
  · rw [hrun, ← hn.others 2 hv.tree.root, hlink]
  · rw [hcontents, hn.contents_new hv]
  · rw [opens_eq_some, hl.inodeAt n hn.self]
    exact ⟨hnumber, hn.self.ne_zero, isFile_type hn.isFile⟩
  · exact (hn.kept_linked hl hv.tree).opens hv.tree hopen
  · exact hl.shows (hes.congr ((hn.inUse k).2 (.inl hes.1)) (hn.others k hes.1)
      (hn.sameContents hes.1))

/-! ## Calls of the driver -/

inductive DriveCall
  /-- `fs_ext2_create_file`, of a name in the root directory. -/
  | create (name : List UInt8) (buf : Mem) (size : Nat)
  /-- `fs_ext2_resolve_path`, and `fs_ext2_write_file` to what it leads to. -/
  | store (path : List UInt8) (buf : Mem) (size : Nat)

def driveStep (fs : Mount) (v : Volume) : DriveCall → K Volume
  | .create name buf size => fs.createFile (absolutePath [name]) buf size v
  | .store path buf size => do
    let (inode, v) ← fs.resolvePath path v
    let (_, _, v) ← fs.writeFile inode buf size v
    pure v

/-- A name is created once, and there is room for what is written. -/
def Permitted (fs : Mount) (v : Volume) : DriveCall → Prop
  | .create name _ size => fs.Space v size ∧ fs.NewName v name
  | .store path _ size => ∀ k, fs.opens v path = some k → (fs.inodeAt v k).isFile = true →
    fs.Room v (fs.inodeAt v k) size

/-- The number of the file that the call writes, and its new contents. -/
def stores (fs : Mount) (v : Volume) : DriveCall → Option (Nat × Option (List UInt8))
  | .create name buf size =>
    ((fs.createFile (absolutePath [name]) buf size v).toOption.bind fun v' =>
      fs.opens v' (absolutePath [name])).map fun k => (k, some (buf.peek 0 size))
  | .store path buf size => (fs.opens v path).bind fun k =>
    if (fs.contents v k).isSome then some (k, some (buf.peek 0 size)) else none

/-- The record that the call puts into the root directory, in the drive behind it. -/
def links (fs : Mount) (v : Volume) : DriveCall → List (Nat × List UInt8)
  | .create name _ _ => [((fs.opens v (absolutePath [name])).getD 0, name)]
  | .store .. => []

/-- The steps for which there is space. -/
def Drives (fs : Mount) : Volume → DriveCall → Volume → Prop :=
  Guarded (Permitted fs) (driveStep fs)

/-- A drive in order, on which all inodes belong to groups. -/
structure Formatted (fs : Mount) (v : Volume) : Prop where
  inOrder : fs.InOrder v
  count : v.sbInodesCount = fs.nbBlockGroups * v.sbNbInodesInGroup

/-- The drive after a call. -/
structure Served (fs : Mount) (v v' : Volume) (call : DriveCall) : Prop where
  formatted : fs.Formatted v'
  opens : ∀ path k, fs.opens v path = some k → fs.opens v' path = some k
  update : ∀ k b, fs.stores v call = some (k, b) →
    fs.contents v' = Function.update (fs.contents v) k b
  kept : fs.stores v call = none → fs.contents v' = fs.contents v
  shows : ∀ k es, fs.Shows v k es → fs.Shows v' k (es ++ if k = 2 then fs.links v' call else [])

variable {call : DriveCall} {es : List DriveCall} {inode : Inode}

/-- What is stored are bytes. -/
theorem stores_isSome {b : Option (List UInt8)} (h : fs.stores v call = some (k, b)) :
    b.isSome = true := by
  cases call with
  | create name buf size =>
    obtain ⟨k', -, heq⟩ := Option.map_eq_some_iff.1 h
    cases heq
    rfl
  | store path buf size =>
    obtain ⟨k', -, heq⟩ := Option.bind_eq_some_iff.1 h
    split_ifs at heq
    cases heq
    rfl

theorem Formatted.create (hv : fs.Formatted v) (hspace : fs.Space v size) (hname : fs.NewName v name)
    (hrun : fs.createFile (absolutePath [name]) buf size v = .ok v') :
    fs.Served v v' (.create name buf size) ∧
      ∃ k, fs.opens v' (absolutePath [name]) = some k ∧ (fs.contents v' k).isSome := by
  obtain ⟨n, w, hcreate, hadded⟩ := hv.inOrder.create hv.count hspace hname buf
  rw [hrun] at hcreate
  cases hcreate
  have hstores : fs.stores v (.create name buf size) = some (n, some (buf.peek 0 size)) := by
    rw [stores, hrun, Except.toOption, Option.bind_some, hadded.opensNew, Option.map_some]
  refine ⟨⟨⟨hadded.inOrder, ?_⟩, hadded.opens, fun k b heq => ?_, fun hnone => ?_, fun k es hes => ?_⟩,
    ?_⟩
  · rw [hadded.layout.inodesCount, hadded.layout.inodesInGroup, hv.count]
  · rw [hstores] at heq
    cases heq
    exact hadded.contents
  · rw [hstores] at hnone
    cases hnone
  · rw [links, hadded.opensNew]
    exact hadded.shows k es hes
  · exact ⟨n, hadded.opensNew, by rw [hadded.contents, Function.update_self]; rfl⟩

theorem stores_store (hinode : inode = fs.numbered v (fs.pathNumber v path))
    (huse : inode.isFile = true → fs.InUse v (fs.pathNumber v path)) :
    fs.stores v (.store path buf size) =
      if inode.isFile then some (fs.pathNumber v path, some (buf.peek 0 size)) else none := by
  rw [stores]
  rcases eq_or_ne (fs.pathNumber v path) 0 with hzero | hne
  · rw [hinode, hzero, numbered_zero, isFile_noInode, if_neg Bool.false_ne_true, Mount.opens, hzero]
    rfl
  rw [numbered_of_ne hne] at hinode
  subst hinode
  split_ifs with hfile
  · have hopens : fs.opens v path = some (fs.pathNumber v path) :=
      opens_eq_some.2 ⟨rfl, hne, isFile_type hfile⟩
    rw [hopens, Option.bind_some, if_pos (contents_isSome.2 ⟨huse hfile, hfile⟩)]
  · rw [Option.bind_eq_none_iff]
    intro k hopen
    obtain ⟨rfl, -⟩ := opens_eq_some.1 hopen
    exact if_neg fun hsome => hfile (contents_isSome.1 hsome).2

/-- A path that leads to a file is written, and any other is left alone. -/
theorem Formatted.store (hv : fs.Formatted v) (hroom : fs.Permitted v (.store path buf size))
    (hrun : fs.driveStep v (.store path buf size) = .ok v') :
    fs.Served v v' (.store path buf size) := by
  obtain ⟨⟨inode, w⟩, hresolve, hrun⟩ := bind_eq_ok.1 hrun
  obtain ⟨⟨r, inode', u⟩, hwrite, hrun⟩ := bind_eq_ok.1 hrun
  cases hrun
  obtain ⟨t, rfl⟩ := resolvePath_after hresolve
  have hinode := hv.inOrder.tree.of_resolvePath (t := v.transfers) hresolve
  have hne (hfile : inode.isFile = true) : fs.pathNumber v path ≠ 0 := by
    intro hzero
    rw [hinode, hzero, numbered_zero, isFile_noInode] at hfile
    cases hfile
  have hstores : fs.stores v (.store path buf size) =
      if inode.isFile then some (fs.pathNumber v path, some (buf.peek 0 size)) else none :=
    stores_store hinode fun hfile => hv.inOrder.tree.inUse_pathNumber (hne hfile)
  cases hfile : inode.isFile with
  | false =>
    rw [hfile, if_neg Bool.false_ne_true] at hstores
    rw [writeFile, hfile] at hwrite
    cases hwrite
    refine ⟨⟨hv.inOrder.after t, hv.count⟩, fun path k hopen => ?_, fun k b heq => ?_, fun _ => rfl,
      fun k es hes => ?_⟩
    · rw [hv.inOrder.tree.opens_after, hopen]
    · rw [hstores] at heq
      cases heq
    · rw [links, ite_self, List.append_nil]
      exact hes.congr hes.1 rfl fun _ => SameContents.after t
  | true =>
    replace hne := hne hfile
    rw [hfile, if_pos rfl] at hstores
    rw [numbered_of_ne hne] at hinode
    subst hinode
    have huse : fs.InUse (v.after t) (fs.inodeAt v (fs.pathNumber v path)).inodeId :=
      hv.inOrder.tree.inUse_pathNumber hne
    have hopens : fs.opens v path = some (fs.pathNumber v path) :=
      opens_eq_some.2 ⟨rfl, hne, isFile_type hfile⟩
    have hroom' : fs.Room (v.after t) (fs.inodeAt v (fs.pathNumber v path)) size :=
      ⟨(hroom _ hopens hfile).inRange, (hroom _ hopens hfile).enough⟩
    obtain ⟨inode₁, w, hrun, hover, -⟩ :=
      (hv.inOrder.after t).write huse (fun _ _ => rfl) hfile hroom' buf
    rw [hwrite] at hrun
    cases hrun
    refine ⟨⟨hover.inOrder, ?_⟩, fun path' k hopen => ?_, fun k b heq => ?_, fun hnone => ?_,
      fun k es hes => ?_⟩
    · rw [hover.layout.inodesCount, hover.layout.inodesInGroup]
      exact hv.count
    · rw [hover.opens hfile, hv.inOrder.tree.opens_after, hopen]
    · rw [hstores] at heq
      cases heq
      exact hover.contents
    · rw [hstores] at hnone
      cases hnone
    · rw [links, ite_self, List.append_nil]
      exact hover.shows k es (hes.congr hes.1 rfl fun _ => SameContents.after t)

theorem Formatted.step (hv : fs.Formatted v) (h : fs.Drives v call v') : fs.Served v v' call := by
  obtain ⟨hpermitted, hrun⟩ := h
  cases call with
  | create name buf size => exact (hv.create hpermitted.1 hpermitted.2 hrun).1
  | store path buf size => exact hv.store hpermitted hrun

/-- The contents of the files are registers of the driver. -/
theorem drive_register : IsRegister (fun v call v' => fs.Formatted v ∧ fs.Drives v call v')
    fs.contents fs.stores where
  written v call v' h k b hstores := by
    rw [(h.1.step h.2).update k b hstores, Function.update_self]
  kept v call v' h k hspared := by
    have hserved := h.1.step h.2
    cases hstores : fs.stores v call with
    | none => rw [hserved.kept hstores]
    | some w =>
      have hne : k ≠ w.1 := by
        rintro rfl
        exact hspared w.2 hstores
      rw [hserved.update w.1 w.2 hstores, Function.update_of_ne hne]

/-- What a path leads to is read up to the end of the request, or of its last block. -/
def ReadsBack (fs : Mount) (v : Volume) (path : List UInt8) (bytes : List UInt8) : Prop :=
  ∀ old n, ∃ (inode : Inode) (u u' : Volume) (m : Nat) (out : Mem),
    fs.resolvePath path v = .ok (inode, u) ∧
      fs.readFileContents inode old n u = ((m : Int), out, u') ∧
      min n bytes.length ≤ m ∧ m ≤ n ∧ out.peek 0 (min n bytes.length) = bytes.take n

theorem Formatted.readsBack (hv : fs.Formatted v) (hopen : fs.opens v path = some k)
    (hbytes : fs.contents v k = some bytes) : fs.ReadsBack v path bytes := by
  intro old n
  obtain ⟨rfl, hne, -⟩ := opens_eq_some.1 hopen
  obtain ⟨huse, hfile, rfl⟩ := contents_eq_some.1 hbytes
  obtain ⟨t, hresolve⟩ := hv.inOrder.tree.resolvePath hne v.transfers
  rw [Volume.after_self] at hresolve
  obtain ⟨m, out, t', hread, hlow, hhigh, hpeek⟩ := ((hv.inOrder.after t).whole _ huse
    hfile).readFileContents hv.inOrder.consistent.owned.good hfile n old
  rw [length_fileBytes]
  exact ⟨_, _, _, m, out, hresolve, hread, hlow, hhigh, hpeek⟩

/-- A file stays one. -/
theorem Served.keeps (h : fs.Served v v' call) (hfile : (fs.contents v k).isSome = true) :
    (fs.contents v' k).isSome = true := by
  cases hstores : fs.stores v call with
  | none => rwa [h.kept hstores]
  | some w =>
    rw [h.update w.1 w.2 hstores]
    rcases eq_or_ne k w.1 with rfl | hne
    · rw [Function.update_self]
      exact stores_isSome hstores
    · rwa [Function.update_of_ne hne]

def freshSb : Mem :=
  ((((tinyVolume 0 0).sb.store 0 4 8).store 12 4 8).store 16 4 6).store 40 4 8

def freshTable : Mem := ((tinyTable.store 8 4 5).store 12 2 8).store 14 2 6

/-- 64 blocks of 1 KiB and eight inodes. Blocks 8 to 15 are free, and the inodes from 3 on. The
root directory is block 6, with `.` and `..` in it. -/
def freshVolume : Volume where
  disk x :=
    if x < 2048 then freshSb (x - 1024)
    else if x < 3072 then freshTable (x - 2048)
    else if x < 5120 then if x = 3073 then 0 else if x = 4096 then 3 else 255
    else if x < 6144 then
      ((Mem.store (fun _ => 0) 128 2 0x41ED).store 132 4 1024).store 168 4 6 (x - 5120)
    else if x < 7168 then dotRecords 2 1012 (x - 6144)
    else 0
  sb := freshSb
  bgdt := freshTable
  transfers := 0

theorem freshVolume_bits {r : Resource} {j : Nat} (hj : j < 8192) :
    tinyMount.bitOf freshVolume freshVolume r 0 j = false ↔
      r = .block ∧ 8 ≤ j ∧ j < 16 ∨ r = .inode ∧ 2 ≤ j ∧ j < 8 := by
  rcases Nat.lt_or_ge j 16 with hlo | hhi
  · cases r <;> interval_cases j <;> decide
  · refine iff_of_false (fun hclear => ?_) (by omega)
    have hset : tinyMount.bitOf freshVolume freshVolume r 0 j = true := by
      apply Mem.bit_of_eq_255
      have haddr : tinyMount.blkAddr (freshVolume.bitmapBlk .block 0) = 3072 ∧
          tinyMount.blkAddr (freshVolume.bitmapBlk .inode 0) = 4096 := by decide
      have hbyte (x) (hx : x = 3072 + j / 8 ∨ x = 4096 + j / 8) : freshVolume.disk x = 255 := by
        simp only [freshVolume]
        rw [if_neg (by omega), if_neg (by omega), if_pos (by omega), if_neg (by omega),
          if_neg (by omega)]
      cases r with
      | block => exact hbyte _ (.inl (by rw [haddr.1]))
      | inode => exact hbyte _ (.inr (by rw [haddr.2]))
    rw [hset] at hclear
    cases hclear

theorem freshVolume_image : tinyMount.Image freshVolume := by
  have hlayout : tinyMount.Layout freshVolume := by
    apply (tinyVolume_layout 0 0).of_bitmapBlk
    intro r g
    have hfield : r.bitmapField + 4 ≤ 8 := by cases r <;> decide
    refine (Mem.load_store_of_disjoint ?_).trans ((Mem.load_store_of_disjoint ?_).trans
      (Mem.load_store_of_disjoint ?_)) <;> omega
  refine ⟨⟨tinyMount_fits.sized, hlayout, fun g hg i hi hclear => ?_⟩, by decide, by decide,
    by decide, by decide, by decide, fun g hg i hi hclear => ?_, by decide⟩
  · obtain rfl : g = 0 := Nat.lt_one_iff.1 hg
    obtain ⟨-, -, hlt⟩ | ⟨hno, -⟩ := (freshVolume_bits hi).1 hclear
    · interval_cases i <;> decide
    · cases hno
  · obtain rfl : g = 0 := Nat.lt_one_iff.1 hg
    obtain ⟨hno, -⟩ | ⟨-, -, hlt⟩ := (freshVolume_bits hi).1 hclear
    · cases hno
    · exact hlt

theorem freshVolume_counts (r : Resource) :
    freshVolume.count r 0 = tinyMount.freeIn freshVolume r 0 := by
  have hrest : tinyMount.freeIn freshVolume r 0 =
      (freshVolume.blk tinyMount (freshVolume.bitmapBlk r 0)).clearCount 16 := by
    refine Mem.clearCount_of_set_behind (by decide) fun j hlo hhi => ?_
    rw [← Bool.not_eq_false]
    intro hclear
    have := (freshVolume_bits hhi).1 hclear
    omega
  rw [hrest]
  cases r <;> decide

theorem freshVolume_inStep : tinyMount.InStep freshVolume where
  super x hx := by
    show freshVolume.disk (1024 + x) = _
    simp only [freshVolume]
    rw [if_pos (by omega), Nat.add_sub_cancel_left]
  table x hx := by
    have hx : x < 32 := hx
    show freshVolume.disk (2048 + x) = _
    simp only [freshVolume]
    rw [if_neg (by omega), if_pos (by omega), Nat.add_sub_cancel_left]
  counts r g hg := by
    obtain rfl : g = 0 := Nat.lt_one_iff.1 hg
    exact freshVolume_counts r
  totals r := by cases r <;> decide

theorem freshVolume_tables : tinyMount.InodeTables freshVolume where
  good := ⟨fun _ _ => rfl, tinyMount_fits.sized, by decide⟩
  volume := by decide
  slot := by decide
  divides := by decide
  inside := by decide
  disjoint := by decide
  count := by decide

/-- The root directory has one block. -/
theorem freshVolume_root : tinyMount.diskTable freshVolume 2 = some (tinyMount.inodeAt freshVolume 2) ∧
    (tinyMount.inodeAt freshVolume 2).inodeSinglyIndirectBlkPtr = 0 ∧
    tinyMount.nbBlocks (tinyMount.inodeAt freshVolume 2) = 1 ∧
    ∀ i, freshVolume.blockPtr tinyMount (tinyMount.inodeAt freshVolume 2) i = if i = 0 then 6 else 0 := by
  have hsingle : (tinyMount.inodeAt freshVolume 2).inodeSinglyIndirectBlkPtr = 0 := by decide
  refine ⟨if_pos (by decide), hsingle, by decide, fun i => ?_⟩
  rcases Nat.lt_or_ge i 12 with hlo | hhi
  · interval_cases i <;> decide
  · rw [blockPtr_of_no_indirect hsingle hhi, if_neg (by omega)]

theorem freshVolume_diskTable (hne : k ≠ 2) : tinyMount.diskTable freshVolume k = none := by
  refine if_neg fun huse => ?_
  obtain ⟨⟨hk, hcount, -⟩, hkind⟩ := huse
  have hcount : k ≤ 8 := hcount
  interval_cases k <;> first | omega | exact absurd hkind (by decide)

theorem freshVolume_inTable {c : Nat} (hc : tinyMount.InTable freshVolume c) : c = 5 := by
  obtain ⟨g, hg, hlo, hhi⟩ := hc
  obtain rfl : g = 0 := Nat.lt_one_iff.1 hg
  have hblks : freshVolume.inodeTableBlk 0 = 5 ∧ tinyMount.inodeTableBlocks freshVolume = 1 := by
    decide
  omega

theorem freshVolume_outside {b : Nat} (hlo : 5 ≤ b) (hhi : b < 16) :
    tinyMount.Outside freshVolume b := by
  refine ⟨fun r g hg => ?_, ?_, ?_⟩
  · obtain rfl : g = 0 := Nat.lt_one_iff.1 hg
    interval_cases b <;> cases r <;> decide
  · interval_cases b <;> decide
  · interval_cases b <;> decide

theorem freshVolume_refs {s : Option Nat}
    (hne : tinyMount.refBlk freshVolume (tinyMount.diskTable freshVolume) k s ≠ 0) :
    k = 2 ∧ s = some 0 ∧ tinyMount.refBlk freshVolume (tinyMount.diskTable freshVolume) k s = 6 := by
  rcases eq_or_ne k 2 with rfl | hk
  · obtain ⟨hsome, hsingle, -, hptr⟩ := freshVolume_root
    rw [refBlk_some hsome] at hne ⊢
    cases s with
    | none => exact absurd hsingle hne
    | some i =>
      rw [Volume.fileBlk, hptr] at hne ⊢
      split_ifs at hne ⊢ with hi
      · exact ⟨rfl, congrArg some hi, rfl⟩
      · exact absurd rfl hne
  · exact absurd (refBlk_none (freshVolume_diskTable hk)) hne

theorem freshVolume_freeBlks {b : Nat} (hb : b ∈ tinyMount.freeBlks freshVolume) : 8 ≤ b ∧ b < 16 := by
  obtain ⟨⟨g, i⟩, hmem, rfl⟩ := List.mem_map.1 hb
  obtain ⟨hg, hi, hclear⟩ := mem_freeBits.1 hmem
  obtain rfl : g = 0 := Nat.lt_one_iff.1 hg
  have hfirst : freshVolume.sbBlockNbOfSb = 0 := by decide
  obtain ⟨-, hlo, hhi⟩ | ⟨hno, -⟩ := (freshVolume_bits hi).1 hclear
  · simp only [Resource.standsFor, hfirst]
    omega
  · cases hno

theorem freshVolume_consistent : tinyMount.Consistent freshVolume := by
  refine ⟨⟨freshVolume_image, freshVolume_inStep, freshVolume_tables, fun c hc => ?_,
    fun b hb => ?_, fun k s hne => ?_, fun k s hne => ?_, fun k s k' s' hne heq => ?_⟩,
    fun k huse hdir i hi => ?_⟩
  · obtain rfl := freshVolume_inTable hc
    exact freshVolume_outside (by omega) (by omega)
  · obtain ⟨hlo, hhi⟩ := freshVolume_freeBlks hb
    refine ⟨?_, freshVolume_outside (by omega) hhi, fun hin => ?_⟩
    · have hcount : freshVolume.sbBlocksCount = 64 := by decide
      omega
    · have hwhere := freshVolume_inTable hin
      omega
  · obtain ⟨rfl, rfl, hblk⟩ := freshVolume_refs hne
    rw [hblk]
    refine ⟨by decide, freshVolume_outside (by omega) (by omega), fun hin => ?_⟩
    have hwhere := freshVolume_inTable hin
    omega
  · obtain ⟨rfl, rfl, hblk⟩ := freshVolume_refs hne
    rw [hblk]
    exact ⟨0, 6, by decide⟩
  · obtain ⟨rfl, rfl, hblk⟩ := freshVolume_refs hne
    obtain ⟨rfl, rfl, -⟩ := freshVolume_refs (heq ▸ hne)
    rfl
  · rcases eq_or_ne k 2 with rfl | hk
    · obtain ⟨-, -, hone, hptr⟩ := freshVolume_root
      rw [hone] at hi
      rw [hptr, if_pos (by omega)]
      decide
    · have hnone := freshVolume_diskTable hk
      rw [diskTable, if_pos ⟨huse, .inr hdir⟩] at hnone
      cases hnone

theorem freshVolume_nonempty : 0 < tinyMount.nbBlocks (tinyMount.inodeAt freshVolume 2) := by
  rw [freshVolume_root.2.2.1]
  exact Nat.one_pos

theorem freshVolume_mapped : ∀ i < tinyMount.nbBlocks (tinyMount.inodeAt freshVolume 2),
    freshVolume.blockPtr tinyMount (tinyMount.inodeAt freshVolume 2) i ≠ 0 :=
  freshVolume_consistent.dirs 2 (by decide) (by decide)

theorem freshVolume_apart : ∀ i < tinyMount.nbBlocks (tinyMount.inodeAt freshVolume 2),
    ∀ j < tinyMount.nbBlocks (tinyMount.inodeAt freshVolume 2), i ≠ j →
      tinyMount.Apart (freshVolume.blockPtr tinyMount (tinyMount.inodeAt freshVolume 2) i)
        (freshVolume.blockPtr tinyMount (tinyMount.inodeAt freshVolume 2) j) := by
  intro i hi j hj hij
  rw [freshVolume_root.2.2.1] at hi hj
  omega

theorem freshVolume_indirectApart : 12 < tinyMount.nbBlocks (tinyMount.inodeAt freshVolume 2) →
    ∀ i < tinyMount.nbBlocks (tinyMount.inodeAt freshVolume 2),
      tinyMount.Apart (freshVolume.blockPtr tinyMount (tinyMount.inodeAt freshVolume 2) i)
        (tinyMount.inodeAt freshVolume 2).inodeSinglyIndirectBlkPtr := by
  intro hmany
  rw [freshVolume_root.2.2.1] at hmany
  omega

/-- The root directory links itself twice. -/
theorem freshVolume_wellFormed : ∀ i < tinyMount.nbBlocks (tinyMount.inodeAt freshVolume 2),
    WellFormedBlk tinyMount (freshVolume.blk tinyMount
      (freshVolume.blockPtr tinyMount (tinyMount.inodeAt freshVolume 2) i)) [0, 12] := by
  intro i hi
  rw [freshVolume_root.2.2.1] at hi
  rw [freshVolume_root.2.2.2, if_pos (by omega)]
  decide

def freshDirectory : Directory tinyMount freshVolume (tinyMount.inodeAt freshVolume 2) where
  records _ := [0, 12]
  nonempty := freshVolume_nonempty
  mapped := freshVolume_mapped
  apart := freshVolume_apart
  indirectApart := freshVolume_indirectApart
  wellFormed := freshVolume_wellFormed

theorem freshVolume_tree : tinyMount.Tree freshVolume where
  tables := freshVolume_tables
  root := by decide
  rootIsDir := by decide
  entries k huse hdir := by
    rcases eq_or_ne k 2 with rfl | hk
    · refine ⟨freshDirectory.toEntries hdir, ?_⟩
      have hall : freshDirectory.listing.all
          (fun r => decide (r.1 ≠ 0 → 0 ∉ r.2 ∧ tinyMount.InUse freshVolume r.1)) = true := by decide
      exact fun r hr => of_decide_eq_true (List.all_eq_true.1 hall r hr)
    · have hnone := freshVolume_diskTable hk
      rw [diskTable, if_pos ⟨huse, .inr hdir⟩] at hnone
      cases hnone

theorem freshVolume_formatted : tinyMount.Formatted freshVolume where
  inOrder :=
    { consistent := freshVolume_consistent
      tree := freshVolume_tree
      first := by decide
      clean := fun q hq x hx => by
        obtain ⟨hlo, hhi⟩ := freshVolume_freeBlks hq
        have haddr : ∀ b < 16, tinyMount.blkAddr b = b * 1024 := by decide
        rw [Volume.blk, haddr q hhi]
        simp only [freshVolume]
        rw [if_neg (by omega), if_neg (by omega), if_neg (by omega), if_neg (by omega),
          if_neg (by omega)]
      whole := fun k huse hfile => by
        rcases eq_or_ne k 2 with rfl | hk
        · exact absurd hfile (by decide)
        · have hnone := freshVolume_diskTable hk
          rw [diskTable, if_pos ⟨huse, .inl hfile⟩] at hnone
          cases hnone }
  count := by decide

theorem freshVolume_space : tinyMount.Space freshVolume 5 := by
  have hfree {r : Resource} {j : Nat} (hj : j < 8192)
      (hbit : r = .block ∧ 8 ≤ j ∧ j < 16 ∨ r = .inode ∧ 2 ≤ j ∧ j < 8) :
      (0, j) ∈ tinyMount.freeBits freshVolume r :=
    mem_freeBits.2 ⟨by decide, hj, (freshVolume_bits hj).2 hbit⟩
  refine ⟨List.ne_nil_of_mem (hfree (j := 2) (by decide) (by decide)), by decide, ?_⟩
  rw [freeBlks, List.length_map, show taken (tinyMount.blocksFor 5) = 1 by decide]
  exact List.length_pos_of_mem (hfree (j := 8) (by decide) (by decide))

theorem freshVolume_newName : tinyMount.NewName freshVolume [0x66] := by
  refine ⟨by decide, by decide, by decide, by decide, freshDirectory, ⟨12, rfl, by decide⟩, ?_⟩
  have hall : freshDirectory.listing.all (fun r => decide (kstrcmp [0x66] r.2 ≠ 0)) = true := by
    decide
  exact fun r hr => of_decide_eq_true (List.all_eq_true.1 hall r hr)

end Kaku.Mount

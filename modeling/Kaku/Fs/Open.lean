-- SUMMARY: Opening a path: what is written to the node, and when the path stays within the name of the node.
import Kaku.Fs.Create
import Kaku.Fs.DiskTable
import Kaku.Fs.Resolve

/-!
# Opening a path

`vfs_open` of `fs/src/vfs.c` and `__ext2_open` of `fs/src/ext2_vfs.c`, with which `SYS_OPEN`,
`SYS_EXEC` and `SYS_READDIR` start. The path is copied to the 256 bytes that a node has for its
name, however long it is. The other fields lie behind the name.
-/

namespace Kaku

/-- `sizeof(node->name)`. -/
def nameBytes : Nat := 256

/-- The bytes that a node has in its block of the kernel heap. -/
def nodeBytes : Nat := 511

/-- `kstrcpy`, to the bytes from `i` on of an array of `room` bytes. -/
def kstrcpy (room : Nat) : (src : List UInt8) → (i : Nat) → Mem → K Mem
  | [], i, m => if i < room then .ok (m.store i 1 0) else .error .wild
  | c :: src, i, m =>
    if i < room then kstrcpy room src (i + 1) (m.store i 1 c.toNat) else .error .wild

/-- A `vfs_node`: its bytes, but for the pointer `fs_specific`, and the inode that it points to. -/
structure OpenNode where
  raw : Mem
  fsSpecific : Inode

namespace OpenNode

def size (node : OpenNode) : Nat := node.raw.load 256 4

def isDir (node : OpenNode) : Bool := node.raw 260 != 0

def vnodeId (node : OpenNode) : Nat := node.raw.load 268 4

/-- The node has this name and the fields of this inode. -/
structure Filled (node : OpenNode) (path : List UInt8) (inode : Inode) : Prop where
  name : node.raw.peek 0 (path.length + 1) = path ++ [0]
  size : node.size = inode.inodeSizeLowBits
  isDir : node.isDir = inode.isDir
  vnodeId : node.vnodeId = addr32 inode.inodeId
  fsSpecific : node.fsSpecific = inode

end OpenNode

/-- `__ext2_open`, where the copy of the path may go up to `room` bytes behind the start of the
node. `stale` is what `kmalloc` leaves in the node. -/
def Mount.ext2Open (room : Nat) (stale : Mem) (fs : Mount) (path : List UInt8) (v : Volume) :
    K (Option OpenNode × Volume) := do
  let (inode, v) ← fs.resolvePath path v
  if inode.inodeTypeAndPermissions = 0 then pure (none, v)
  else do
    let raw := stale.store 256 4 inode.inodeSizeLowBits
    let raw := raw.store 260 1 (if inode.isDir then 1 else 0)
    let raw ← kstrcpy room path 0 raw
    pure (some ⟨raw.store 268 4 inode.inodeId, inode⟩, v)

/-- `vfs_open`, which returns null where there is no driver. -/
def vfsOpen (room : Nat) (stale : Mem) (driver : Option Mount) (path : List UInt8) (v : Volume) :
    K (Option OpenNode × Volume) :=
  match driver with
  | none => .ok (none, v)
  | some fs => fs.ext2Open room stale path v

/-- Where the walk over the path returns, so does `vfs_open`, with null or with a node, and no
byte of the path was written behind the name of the node. -/
def OpensWithin (stale : Mem) (driver : Option Mount) (path : List UInt8) (v : Volume) : Prop :=
  ∀ fs ∈ driver, ∀ inode v', fs.resolvePath path v = .ok (inode, v') →
    ∃ r, vfsOpen nameBytes stale driver path v = .ok (r, v') ∧ ∀ node ∈ r, node.Filled path inode

variable {room i : Nat} {src path : List UInt8} {m stale : Mem} {fs : Mount} {v v' : Volume}
  {inode : Inode} {driver : Option Mount} {r : Option OpenNode} {node : OpenNode}

/-! ## The copy -/

/-- The whole string is copied, with its zero byte, if there is room for both. -/
theorem kstrcpy_eq : kstrcpy room src i m =
    if i + src.length < room then .ok (m.blit i (src.length + 1) fun k => (src ++ [0]).getD k 0)
    else .error .wild := by
  induction src generalizing i m with
  | nil =>
    rw [kstrcpy, List.length_nil, Nat.add_zero, Nat.zero_add, List.nil_append]
    split_ifs
    · congr 1
      funext x
      rw [Mem.blit, Mem.store]
      split_ifs with hx
      · obtain rfl : x = i := by omega
        rw [Nat.sub_self]
        rfl
      · rfl
    · rfl
  | cons c src ih =>
    have hrest : i + 1 + src.length < room ↔ i + (src.length + 1) < room := by omega
    rw [kstrcpy, ih, List.length_cons]
    simp only [hrest]
    by_cases hroom : i + (src.length + 1) < room
    · rw [if_pos (by omega), if_pos hroom, if_pos hroom, eq_comm, Mem.blit_succ]
      rfl
    · rw [if_neg hroom, if_neg hroom, ite_self]

/-! ## What is opened -/

/-- Nothing that the walk leads to is opened. -/
theorem Mount.ext2Open_none (h : fs.resolvePath path v = .ok (inode, v'))
    (hnone : inode.inodeTypeAndPermissions = 0) : fs.ext2Open room stale path v = .ok (none, v') := by
  rw [ext2Open, h, ok_bind]
  exact if_pos hnone

/-- The node that is opened, where there is room for the path. -/
def openedNode (stale : Mem) (path : List UInt8) (inode : Inode) : OpenNode where
  raw := (((stale.store 256 4 inode.inodeSizeLowBits).store 260 1 (if inode.isDir then 1 else 0)).blit
    0 (path.length + 1) fun k => (path ++ [0]).getD k 0).store 268 4 inode.inodeId
  fsSpecific := inode

theorem Mount.ext2Open_some (room : Nat) (stale : Mem) (h : fs.resolvePath path v = .ok (inode, v'))
    (hsome : inode.inodeTypeAndPermissions ≠ 0) : fs.ext2Open room stale path v =
      if path.length < room then .ok (some (openedNode stale path inode), v')
      else .error .wild := by
  rw [ext2Open, h, ok_bind]
  simp only [if_neg hsome]
  rw [kstrcpy_eq, Nat.zero_add]
  by_cases hroom : path.length < room
  · rw [if_pos hroom, if_pos hroom]
    rfl
  · rw [if_neg hroom, if_neg hroom]
    rfl

namespace openedNode

/-- A byte of the path, or its zero byte. -/
theorem raw_of_le {x : Nat} (hx : x ≤ path.length) (hfield : x < 268 ∨ 272 ≤ x) :
    (openedNode stale path inode).raw x = (path ++ [0]).getD x 0 := by
  simp only [openedNode]
  rw [Mem.store_of_not_mem (by omega), Mem.blit_of_mem (by omega) (by omega), Nat.sub_zero]

/-- Behind the path the fields are those of the inode. -/
theorem raw_of_lt {x : Nat} (hx : path.length < x) (hfield : x < 268) :
    (openedNode stale path inode).raw x = ((stale.store 256 4 inode.inodeSizeLowBits).store 260 1
      (if inode.isDir then 1 else 0)) x := by
  simp only [openedNode]
  rw [Mem.store_of_not_mem (by omega), Mem.blit_of_not_mem (by omega)]

theorem isDir_of_lt (hlen : path.length < 260) :
    (openedNode stale path inode).isDir = inode.isDir := by
  rw [OpenNode.isDir, raw_of_lt hlen (by omega), Mem.store, if_pos (by omega)]
  cases inode.isDir <;> rfl

/-- The zero byte of the path makes a directory something else. -/
theorem isDir_of_eq (hlen : path.length = 260) : (openedNode stale path inode).isDir = false := by
  rw [OpenNode.isDir, raw_of_le hlen.ge (by omega), List.getD_append_right _ _ _ _ hlen.le, hlen]
  rfl

/-- A byte of the path makes anything a directory. -/
theorem isDir_of_gt (hpath : 0 ∉ path) (hlen : 260 < path.length) :
    (openedNode stale path inode).isDir = true := by
  rw [OpenNode.isDir, raw_of_le hlen.le (by omega), List.getD_append _ _ _ _ hlen,
    List.getD_eq_getElem _ _ hlen, bne_iff_ne]
  intro hzero
  exact hpath (hzero ▸ List.getElem_mem hlen)

theorem filled (hlen : path.length < nameBytes) :
    (openedNode stale path inode).Filled path inode where
  name := by
    rw [nameBytes] at hlen
    rw [show path.length + 1 = (path ++ [0]).length by simp, Mem.peek_eq_iff]
    intro k hk
    rw [List.length_append, List.length_singleton] at hk
    rw [Nat.zero_add, raw_of_le (by omega) (by omega), List.getD_eq_getElem]
  size := by
    rw [nameBytes] at hlen
    have hsize : inode.inodeSizeLowBits < 2 ^ 32 := Mem.load_lt
    have hload : (stale.store 256 4 inode.inodeSizeLowBits).load 256 4 = inode.inodeSizeLowBits :=
      Mem.load_store_self.trans (Nat.mod_eq_of_lt hsize)
    refine (Mem.load_congr fun x hlo hhi => ?_).trans hload
    rw [raw_of_lt (by omega) (by omega), Mem.store_of_not_mem (by omega)]
  isDir := isDir_of_lt (by rw [nameBytes] at hlen; omega)
  vnodeId := Mem.load_store_self
  fsSpecific := rfl

end openedNode

/-! ## The name -/

theorem opens_within_of (h : ∀ fs ∈ driver, ∀ inode v', fs.resolvePath path v = .ok (inode, v') →
    inode.inodeTypeAndPermissions = 0 ∨ path.length < nameBytes) :
    OpensWithin stale driver path v := by
  rintro fs hfs inode v' hwalk
  obtain rfl := Option.mem_def.1 hfs
  by_cases hnone : inode.inodeTypeAndPermissions = 0
  · exact ⟨none, Mount.ext2Open_none hwalk hnone, by simp⟩
  · have hlen := (h fs rfl inode v' hwalk).resolve_left hnone
    refine ⟨some (openedNode stale path inode), ?_, fun node hnode => ?_⟩
    · exact (Mount.ext2Open_some nameBytes stale hwalk hnone).trans (if_pos hlen)
    · obtain rfl := Option.mem_some.1 hnode
      exact openedNode.filled hlen

/-- A longer path is copied past the end of the name. -/
theorem overruns_name (hwalk : fs.resolvePath path v = .ok (inode, v'))
    (hsome : inode.inodeTypeAndPermissions ≠ 0) (hlen : nameBytes ≤ path.length) :
    ¬ OpensWithin stale (some fs) path v := by
  intro hopens
  obtain ⟨r, hopen, -⟩ := hopens fs rfl inode v' hwalk
  have hwild := (Mount.ext2Open_some nameBytes stale hwalk hsome).trans
    (if_neg (by omega))
  cases hwild.symm.trans hopen

/-- Opening a path stays within the name of the node exactly if the path has at most 255 bytes,
or leads nowhere. -/
theorem opens_within_iff : OpensWithin stale driver path v ↔
    ∀ fs ∈ driver, ∀ inode v', fs.resolvePath path v = .ok (inode, v') →
      inode.inodeTypeAndPermissions = 0 ∨ path.length < nameBytes := by
  refine ⟨fun hopens fs hfs inode v' hwalk => ?_, opens_within_of⟩
  obtain rfl := Option.mem_def.1 hfs
  by_contra hneither
  rw [not_or, Nat.not_lt] at hneither
  exact overruns_name hwalk hneither.1 hneither.2 hopens

/-! ## Paths through `.` -/

/-- `/.`, over and over. -/
def dotted (n : Nat) : List UInt8 := (List.replicate n [slash, 0x2E]).flatten

theorem length_dotted (n : Nat) : (dotted n).length = 2 * n := by
  induction n with
  | zero => rfl
  | succ n ih =>
    rw [dotted, List.replicate_succ, List.flatten_cons, ← dotted, List.length_append, ih,
      List.length_cons, List.length_singleton]
    omega

theorem dotted_succ (n : Nat) :
    dotted (n + 1) = slash :: kstrjoin slash (List.replicate (n + 1) [0x2E]) := by
  induction n with
  | zero => rfl
  | succ n ih =>
    have hjoin : kstrjoin slash (List.replicate (n + 2) [0x2E]) =
        [0x2E] ++ slash :: kstrjoin slash (List.replicate (n + 1) [0x2E]) := rfl
    rw [hjoin, dotted, List.replicate_succ, List.flatten_cons, ← dotted, ih]
    rfl

theorem dotted_isPath (n : Nat) : IsPath (dotted (n + 1)) (List.replicate (n + 1) [0x2E]) := by
  rw [dotted_succ, ← List.append_nil (kstrjoin _ _)]
  refine @IsPath.names (List.replicate (n + 1) [0x2E]) true false (by simp) fun name hname => ?_
  obtain rfl := List.eq_of_mem_replicate hname
  decide

namespace Mount

/-- The root directory of the volume. -/
def rootInode : Inode := tinyMount.inodeAt rootVolume 2

theorem root_facts : tinyMount.nbBlocks rootInode = 1 ∧ rootInode.isDir = true ∧
    rootVolume.blockPtr tinyMount rootInode 0 = 7 := by decide

def rootEntries : Entries tinyMount rootVolume rootInode where
  records _ := [0, 12]
  isDir := root_facts.2.1
  mapped i hi := by
    rw [root_facts.1] at hi
    rw [Nat.lt_one_iff.1 hi, root_facts.2.2]
    decide
  wellFormed i hi := by
    rw [root_facts.1] at hi
    rw [Nat.lt_one_iff.1 hi, root_facts.2.2]
    decide

theorem tinyMount_good : tinyMount.Good :=
  ⟨fun _ _ => rfl, tinyMount_fits.sized, tinyMount_fits.small⟩

theorem readInode_root (t : Nat) : ∃ u,
    tinyMount.readInode 2 (rootVolume.after t) = .ok (rootInode, rootVolume.after u) := by
  have hslot : tinyMount.inodeSlot 2 (rootVolume.after t) = .ok (5, 128) := by
    show tinyMount.inodeSlot 2 rootVolume = _
    decide
  obtain ⟨w, hread⟩ := tinyMount_good.readInode_eq hslot (by decide)
  obtain ⟨u, rfl⟩ := readInode_after hread
  exact ⟨u, hread⟩

theorem findInDir_dot (t : Nat) : ∃ u,
    tinyMount.findInDir rootInode [0x2E] (rootVolume.after t) = .ok (2, rootVolume.after u) := by
  obtain ⟨u, hfind⟩ := rootEntries.findInDir tinyMount_good [0x2E] t
  refine ⟨u, hfind.trans ?_⟩
  rfl

/-- Each `.` leads to the root directory again. -/
theorem foldlM_dots (n t : Nat) : ∃ u, (List.replicate n [0x2E]).foldlM tinyMount.lookupStep
    (some (2, rootInode), rootVolume.after t) = .ok (some (2, rootInode), rootVolume.after u) := by
  induction n generalizing t with
  | zero => exact ⟨t, rfl⟩
  | succ n ih =>
    obtain ⟨u, hfind⟩ := findInDir_dot t
    obtain ⟨w, hread⟩ := readInode_root u
    obtain ⟨x, hrest⟩ := ih w
    refine ⟨x, ?_⟩
    rw [List.replicate_succ, List.foldlM_cons, lookupStep, hfind, ok_bind]
    simp only [OfNat.ofNat_ne_zero, if_false, hread]
    exact hrest

theorem resolvePath_dotted (n t : Nat) : ∃ u,
    tinyMount.resolvePath (dotted (n + 1)) (rootVolume.after t) =
      .ok (rootInode, rootVolume.after u) := by
  have hpath : IsPath (dotted (n + 1)) ([0x2E] :: List.replicate n [0x2E]) := dotted_isPath n
  obtain ⟨hne, hnames⟩ := kstrsplit_of_isPath hpath
  obtain ⟨u, hread⟩ := readInode_root t
  obtain ⟨w, hrest⟩ := foldlM_dots (n + 1) u
  rw [List.replicate_succ] at hrest
  refine ⟨w, ?_⟩
  rw [resolvePath_eq hne hnames, lookupAll, hread, ok_bind]
  simp only [hrest]
  rfl

end Mount

open Mount in
/-- The root directory by its own name, where nothing goes wrong. -/
theorem opens_within_root : OpensWithin (fun _ => 0) (some tinyMount) [slash] rootVolume :=
  opens_within_iff.2 fun _ _ _ _ _ => .inr (by decide)

open Mount in
/-- `/.`, 128 times over, is the root directory too, and its zero byte is written behind the
name. -/
theorem dotted_overruns :
    (dotted 128).length = 256 ∧ ¬ OpensWithin (fun _ => 0) (some tinyMount) (dotted 128) rootVolume := by
  obtain ⟨u, hwalk⟩ := resolvePath_dotted 127 rootVolume.transfers
  exact ⟨length_dotted 128, overruns_name hwalk (by decide) (length_dotted 128).ge⟩

end Kaku

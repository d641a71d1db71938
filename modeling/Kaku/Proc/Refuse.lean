-- SUMMARY: Which files `elf_load` refuses: what it has in its buffer, what it reads from there, and what it returns.
import Kaku.Fs.Open
import Kaku.Proc.Reap

/-!
# Refusing malformed executables

`elf_load` asks for a buffer of the size that `vfs_open` returns, and does not look at what
`vfs_read` returns. Behind the bytes that were read the buffer holds what the kernel heap had
there before.
-/

namespace Kaku

/-! ## The buffer -/

/-- `node->size`, behind the `kstrcpy` of the path to `node->name`, which is 256 bytes long and
lies in front of it. A node is in a block of the kernel heap that ends behind 511 bytes. -/
def nodeSize (path : List UInt8) (size : Nat) : K Nat :=
  if 511 < path.length + 1 then .error .wild
  else .ok (((Mem.store (fun _ => 0) 256 4 size).blit 0 (path.length + 1) fun k =>
    (path ++ [0]).getD k 0).load 256 4)

/-- What the file's buffer holds, and how many bytes `vfs_read` has put there. -/
structure FileBuf where
  inode : Inode
  filled : Nat
  elf : Mem

/-- The start of `elf_load`: nothing when `vfs_open` fails, and the buffer otherwise. The heap is
as it is when the buffer is taken. -/
def openElf (h : KHeap) (fs : Mount) (v : Volume) (path : List UInt8) : K (Option FileBuf) := do
  let (inode, v) ← fs.resolvePath path v
  if inode.inodeTypeAndPermissions = 0 then pure none
  else do
    let size ← nodeSize path inode.inodeSizeLowBits
    let (h, buf) ← h.kheapAlloc size
    let (filled, elf, _) := fs.readFileContents inode (fun k => h.mem (addr32 (buf + k))) size v
    pure (some ⟨inode, filled.toNat, elf⟩)

/-- `elf_load`, with what it returns. -/
def System.elfLoadPath (s : System) (h : KHeap) (fs : Mount) (v : Volume) (path : List UInt8) :
    K (Int × System) := do
  match ← openElf h fs v path with
  | none => pure (-1, s)
  | some file =>
    let (m, p) ← elfLoad (s.memFor s.pidCounter) s.pidCounter (some file.elf)
    match p with
    | none => pure (-1, { s with mem := m })
    | some p =>
      pure (p.procId,
        { s.update m p.procId (some p) with pidCounter := addr32 (s.pidCounter + 1) })

/-! ## The reads

Each is an offset in the buffer and a number of bytes, in the order of the code. Where the
machine halts on the way `elf_load` makes the first of them.
-/

/-- The fields that are read for the `j`-th page of a segment whose header is at `a`, and the
bytes of the page that are in the file. -/
def pageReads (a : Nat) (ph : ElfProgramHeader) (j : Nat) : List (Nat × Nat) :=
  (a + 8, 4) :: (a + 16, 4) ::
    if j * 4096 < ph.pFilesz then
      [(a + 4, 4), (addr32 (ph.pOffset + j * 4096), min (ph.pFilesz - j * 4096) 4096)]
    else []

def headerAddr (elf : Mem) (i : Nat) : Nat := addr32 (elf.load 28 4 + i * elf.load 42 2)

/-- What is read for the `i`-th program header. -/
def headerReads (elf : Mem) (i : Nat) : List (Nat × Nat) :=
  let a := headerAddr elf i
  let ph := elfProgramHeader elf i
  (44, 2) :: (28, 4) :: (42, 2) :: (a, 4) ::
    if ph.segtype = 1 then
      (a + 8, 4) :: (a + 20, 4) ::
        (List.range (addr32 (ph.pMemsz + 0xFFF) / 4096)).flatMap (pageReads a ph)
    else []

def elfReads (elf : Mem) : List (Nat × Nat) :=
  (0, 4) ::
    if elf.load 0 4 ≠ elfMagic then []
    else (24, 4) :: ((List.range (elf.load 44 2)).flatMap (headerReads elf) ++ [(44, 2)])

/-! ## What is claimed -/

/-- A regular file that was read completely, with the magic number, whose header, program headers
and segments to be loaded lie in the file. -/
structure FileBuf.WellFormed (b : FileBuf) : Prop where
  regular : b.inode.isFile = true
  complete : b.inode.inodeSizeLowBits ≤ b.filled
  magic : b.elf.load 0 4 = elfMagic
  header : 52 ≤ b.inode.inodeSizeLowBits
  table : ∀ i < b.elf.load 44 2,
    b.elf.load 28 4 + i * b.elf.load 42 2 + 32 ≤ b.inode.inodeSizeLowBits
  segments : ∀ ph ∈ loadHeaders b.elf, ph.pOffset + ph.pFilesz ≤ b.inode.inodeSizeLowBits

/-- All reads are of bytes that `vfs_read` has put there. -/
def FileBuf.Confined (b : FileBuf) : Prop := ∀ r ∈ elfReads b.elf, r.1 + r.2 ≤ b.filled

/-- `elf_load` returns -1, and the process table, the counter of the process numbers and the
bitmap of the frames are as they were. -/
def System.Refuses (s : System) (h : KHeap) (fs : Mount) (v : Volume) (path : List UInt8) : Prop :=
  ∃ s', s.elfLoadPath h fs v path = .ok (-1, s') ∧ s'.procs = s.procs ∧
    s'.pidCounter = s.pidCounter ∧ s'.mem.faBitmap = s.mem.faBitmap

/-- The reads are confined, and what is not well-formed is refused. -/
def System.LoadsSafely (s : System) (h : KHeap) (fs : Mount) (v : Volume) (path : List UInt8) :
    Prop :=
  (∀ b, openElf h fs v path = .ok (some b) → b.Confined) ∧
    ((∀ b, openElf h fs v path = .ok (some b) → ¬ b.WellFormed) → s.Refuses h fs v path)

variable {s s' : System} {h : KHeap} {fs : Mount} {v : Volume} {path : List UInt8} {b : FileBuf}
  {m m' : Memory} {elf elf' : Mem} {pid size i j a n limit : Nat} {ph : ElfProgramHeader} {r : Nat × Nat}

/-! ## The reads of a well-formed file -/

theorem mem_loadHeaders (hi : i < elf.load 44 2) (hload : (elfProgramHeader elf i).segtype = 1) :
    elfProgramHeader elf i ∈ loadHeaders elf := by
  unfold loadHeaders
  rw [List.mem_filter]
  exact ⟨List.mem_map_of_mem (List.mem_range.2 hi), decide_eq_true hload⟩

theorem pageReads_le (ha : a + 32 ≤ limit) (hlimit : limit < 2 ^ 32)
    (hph : ph.pOffset + ph.pFilesz ≤ limit) (hr : r ∈ pageReads a ph j) : r.1 + r.2 ≤ limit := by
  unfold pageReads at hr
  split at hr
  · have haddr : addr32 (ph.pOffset + j * 4096) = ph.pOffset + j * 4096 :=
      Nat.mod_eq_of_lt (by omega)
    simp only [List.mem_cons, List.not_mem_nil, or_false, haddr] at hr
    rcases hr with rfl | rfl | rfl | rfl <;> simp only <;> omega
  · simp only [List.mem_cons, List.not_mem_nil, or_false] at hr
    rcases hr with rfl | rfl <;> simp only <;> omega

theorem headerReads_le (hlimit : limit < 2 ^ 32) (hheader : 52 ≤ limit)
    (htable : elf.load 28 4 + i * elf.load 42 2 + 32 ≤ limit)
    (hph : (elfProgramHeader elf i).segtype = 1 →
      (elfProgramHeader elf i).pOffset + (elfProgramHeader elf i).pFilesz ≤ limit)
    (hr : r ∈ headerReads elf i) : r.1 + r.2 ≤ limit := by
  have haddr : headerAddr elf i = elf.load 28 4 + i * elf.load 42 2 :=
    Nat.mod_eq_of_lt (by omega)
  unfold headerReads at hr
  simp only [haddr] at hr
  split at hr
  · rename_i hload
    simp only [List.mem_cons, List.mem_flatMap] at hr
    rcases hr with rfl | rfl | rfl | rfl | rfl | rfl | ⟨j, -, hpage⟩
    all_goals try (simp only; omega)
    exact pageReads_le htable hlimit (hph hload) hpage
  · simp only [List.mem_cons, List.not_mem_nil, or_false] at hr
    rcases hr with rfl | rfl | rfl | rfl <;> simp only <;> omega

theorem FileBuf.WellFormed.confined (hb : b.WellFormed) : b.Confined := by
  have hlimit : b.inode.inodeSizeLowBits < 2 ^ 32 := Mem.load_lt
  have hheader := hb.header
  intro r hr
  refine le_trans ?_ hb.complete
  unfold elfReads at hr
  rw [if_neg (not_not_intro hb.magic)] at hr
  simp only [List.mem_cons, List.mem_append, List.mem_flatMap, List.not_mem_nil, or_false,
    List.mem_range] at hr
  rcases hr with rfl | rfl | ⟨i, hi, hread⟩ | rfl
  · exact le_trans (by decide) hheader
  · exact le_trans (by decide) hheader
  · exact headerReads_le hlimit hheader (hb.table i hi)
      (fun hload => hb.segments _ (mem_loadHeaders hi hload)) hread
  · exact le_trans (by decide) hheader

/-! ## Nothing else is read -/

/-- The bytes of a read are the same in both buffers. -/
def SameAt (elf elf' : Mem) (r : Nat × Nat) : Prop :=
  ∀ x, r.1 ≤ x → x < r.1 + r.2 → elf' x = elf x

theorem SameAt.load (h : SameAt elf elf' (a, n)) : elf'.load a n = elf.load a n := Mem.load_congr h

/-- The fields of a header that are read whatever its type, and those that are read for a segment
that is loaded. -/
structure SameHeader (elf elf' : Mem) (i : Nat) : Prop where
  segtype : (elfProgramHeader elf' i).segtype = (elfProgramHeader elf i).segtype
  vaddr : (elfProgramHeader elf i).segtype = 1 →
    (elfProgramHeader elf' i).pVaddr = (elfProgramHeader elf i).pVaddr
  memsz : (elfProgramHeader elf i).segtype = 1 →
    (elfProgramHeader elf' i).pMemsz = (elfProgramHeader elf i).pMemsz
  pages : (elfProgramHeader elf i).segtype = 1 →
    segmentPages elf' (elfProgramHeader elf' i) = segmentPages elf (elfProgramHeader elf i)

theorem segmentBytes_congr {ph' : ElfProgramHeader} (hfilesz : ph'.pFilesz = ph.pFilesz)
    (hoffset : j * 4096 < ph.pFilesz → ph'.pOffset = ph.pOffset)
    (hbytes : j * 4096 < ph.pFilesz → SameAt elf elf'
      (addr32 (ph.pOffset + j * 4096), min (ph.pFilesz - j * 4096) 4096)) :
    segmentBytes elf' ph' j = segmentBytes elf ph j := by
  unfold segmentBytes
  rw [hfilesz]
  funext k
  by_cases hk : k < min (ph.pFilesz - j * 4096) 4096
  · have hin : j * 4096 < ph.pFilesz := by omega
    rw [if_pos hk, if_pos hk, hoffset hin]
    exact hbytes hin _ (Nat.le_add_right _ _) (Nat.add_lt_add_left hk _)
  · rw [if_neg hk, if_neg hk]

theorem mem_pageReads (hmore : j * 4096 < ph.pFilesz) : (a + 4, 4) ∈ pageReads a ph j ∧
    (addr32 (ph.pOffset + j * 4096), min (ph.pFilesz - j * 4096) 4096) ∈ pageReads a ph j := by
  unfold pageReads
  rw [if_pos hmore]
  simp

theorem sameHeader (h : ∀ r ∈ headerReads elf i, SameAt elf elf' r) : SameHeader elf elf' i := by
  have hoff : elf'.load 28 4 = elf.load 28 4 := SameAt.load (h (28, 4) (by simp [headerReads]))
  have hsize : elf'.load 42 2 = elf.load 42 2 := SameAt.load (h (42, 2) (by simp [headerReads]))
  have haddr : headerAddr elf' i = headerAddr elf i := by
    unfold headerAddr
    rw [hoff, hsize]
  have hfield (k : Nat) (hk : (headerAddr elf i + k, 4) ∈ headerReads elf i) :
      elf'.load (headerAddr elf' i + k) 4 = elf.load (headerAddr elf i + k) 4 := by
    rw [haddr]
    exact SameAt.load (h _ hk)
  -- the rest is read for a header of type LOAD only
  have hin (hload : (elfProgramHeader elf i).segtype = 1) {r : Nat × Nat}
      (hr : r = (headerAddr elf i + 8, 4) ∨ r = (headerAddr elf i + 20, 4) ∨
        ∃ j < addr32 ((elfProgramHeader elf i).pMemsz + 0xFFF) / 4096,
          r ∈ pageReads (headerAddr elf i) (elfProgramHeader elf i) j) : r ∈ headerReads elf i := by
    unfold headerReads
    simp only [if_pos hload, List.mem_cons, List.mem_flatMap, List.mem_range]
    exact .inr (.inr (.inr (.inr hr)))
  have hvaddr (hload : (elfProgramHeader elf i).segtype = 1) :
      (elfProgramHeader elf' i).pVaddr = (elfProgramHeader elf i).pVaddr :=
    hfield 8 (hin hload (.inl rfl))
  have hmemsz (hload : (elfProgramHeader elf i).segtype = 1) :
      (elfProgramHeader elf' i).pMemsz = (elfProgramHeader elf i).pMemsz :=
    hfield 20 (hin hload (.inr (.inl rfl)))
  refine ⟨hfield 0 (by simp [headerReads]), hvaddr, hmemsz, fun hload => ?_⟩
  unfold segmentPages
  rw [hmemsz hload]
  refine List.map_congr_left fun j hj => ?_
  rw [List.mem_range] at hj
  have hpage {r : Nat × Nat} (hr : r ∈ pageReads (headerAddr elf i) (elfProgramHeader elf i) j) :
      r ∈ headerReads elf i := hin hload (.inr (.inr ⟨j, hj, hr⟩))
  rw [hvaddr hload, segmentBytes_congr (hfield 16 (hpage (by simp [pageReads])))
    (fun hmore => hfield 4 (hpage (mem_pageReads hmore).1))
    fun hmore => h _ (hpage (mem_pageReads hmore).2)]

/-- The headers of type `ELFPH_SEGTYPE_LOAD` among some of the table. -/
def headersAt (elf : Mem) (is : List Nat) : List ElfProgramHeader :=
  (is.map (elfProgramHeader elf)).filter fun ph => ph.segtype = 1

theorem headersAt_cons (elf : Mem) (i : Nat) (is : List Nat) : headersAt elf (i :: is) =
    if (elfProgramHeader elf i).segtype = 1 then elfProgramHeader elf i :: headersAt elf is
    else headersAt elf is := by
  unfold headersAt
  rw [List.map_cons, List.filter_cons]
  simp only [decide_eq_true_eq]

/-- Headers that are the same where they are read load the same pages. -/
theorem headersAt_congr {is : List Nat} (h : ∀ i ∈ is, SameHeader elf elf' i) (top : Nat) :
    (headersAt elf' is).flatMap (segmentPages elf') = (headersAt elf is).flatMap (segmentPages elf) ∧
      (headersAt elf' is).foldl (fun top ph => max top (addr32 (ph.pVaddr + ph.pMemsz))) top =
        (headersAt elf is).foldl (fun top ph => max top (addr32 (ph.pVaddr + ph.pMemsz))) top := by
  induction is generalizing top with
  | nil => exact ⟨rfl, rfl⟩
  | cons i is ih =>
    obtain ⟨hi, hrest⟩ := List.forall_mem_cons.1 h
    rw [headersAt_cons, headersAt_cons, hi.segtype]
    by_cases hload : (elfProgramHeader elf i).segtype = 1
    · rw [if_pos hload, if_pos hload, List.flatMap_cons, List.flatMap_cons, List.foldl_cons,
        List.foldl_cons, hi.pages hload, hi.vaddr hload, hi.memsz hload]
      exact ⟨congrArg _ (ih hrest top).1, (ih hrest _).2⟩
    · rw [if_neg hload, if_neg hload]
      exact ih hrest top

/-- `elf_load` depends on the buffer through its reads only. -/
theorem elfLoad_congr (h : ∀ r ∈ elfReads elf, SameAt elf elf' r) :
    elfLoad m pid (some elf') = (do
      let (m, p) ← elfLoad m pid (some elf)
      pure (m, p.map fun p => { p with elf := elf' })) := by
  have hmagic : elf'.load 0 4 = elf.load 0 4 := SameAt.load (h (0, 4) List.mem_cons_self)
  simp only [elfLoad, hmagic]
  by_cases hno : elf.load 0 4 ≠ elfMagic
  · rw [if_pos hno, if_pos hno]
    rfl
  · have hin {r : Nat × Nat} (hr : r = (24, 4) ∨
        (∃ i < elf.load 44 2, r ∈ headerReads elf i) ∨ r = (44, 2)) : SameAt elf elf' r := by
      refine h r ?_
      unfold elfReads
      rw [if_neg hno]
      simpa using .inr hr
    have hentry : elf'.load 24 4 = elf.load 24 4 := SameAt.load (hin (.inl rfl))
    have hcount : elf'.load 44 2 = elf.load 44 2 := SameAt.load (hin (.inr (.inr rfl)))
    -- the header first, as the number of program headers is read from it
    have hheaders : ∀ i ∈ List.range (elf.load 44 2), SameHeader elf elf' i := fun i hi =>
      sameHeader fun r hr => hin (.inr (.inl ⟨i, List.mem_range.1 hi, hr⟩))
    have hall (elf : Mem) : loadHeaders elf = headersAt elf (List.range (elf.load 44 2)) := rfl
    obtain ⟨hpages, hend⟩ := headersAt_congr hheaders 0
    have hpages' : imagePages elf' = imagePages elf := by
      unfold imagePages
      rw [hall, hall, hcount, hpages]
    have hend' : imageEnd elf' = imageEnd elf := by
      unfold imageEnd
      rw [hall, hall, hcount, hend]
    rw [if_neg hno, if_neg hno, hentry, hpages', hend']
    cases procCreate m pid (elf.load 24 4) with
    | error e => rfl
    | ok r =>
      simp only [ok_bind]
      cases r.1.mapPages r.2.procPd (imagePages elf) <;> rfl

/-! ## What is opened -/

/-- It is the size that `vfs_open` leaves in the node. -/
theorem nodeSize_openedNode (stale : Mem) (inode : Inode) (hpath : path.length < nodeBytes) :
    nodeSize path inode.inodeSizeLowBits = .ok (openedNode stale path inode).size := by
  rw [nodeBytes] at hpath
  rw [nodeSize, if_neg (by omega), OpenNode.size, Except.ok.injEq]
  refine Mem.load_congr fun x hlo hhi => ?_
  rcases Nat.lt_or_ge path.length x with hbehind | hin
  · rw [Mem.blit_of_not_mem (by omega), openedNode.raw_of_lt hbehind (by omega),
      Mem.store_of_not_mem (m := stale.store 256 4 inode.inodeSizeLowBits) (by omega), Mem.store,
      Mem.store, if_pos (by omega), if_pos (by omega)]
  · rw [Mem.blit_of_mem (by omega) (by omega), openedNode.raw_of_le hin (by omega), Nat.sub_zero]

/-- A path that fits into `node->name` leaves the size as it is. -/
theorem nodeSize_short (hpath : path.length < 256) (hsize : size < 2 ^ 32) :
    nodeSize path size = .ok size := by
  have hload : ((Mem.store (fun _ => 0) 256 4 size).blit 0 (path.length + 1) fun k =>
      (path ++ [0]).getD k 0).load 256 4 = (Mem.store (fun _ => 0) 256 4 size).load 256 4 :=
    Mem.load_congr fun x hlo _ => Mem.blit_of_not_mem (.inr (by omega))
  unfold nodeSize
  rw [if_neg (by omega), hload, Mem.load_store_self, Nat.mod_eq_of_lt (show size < 256 ^ 4 from hsize)]

/-- The state behind `elf_load` is that behind the step of the system for the buffer. -/
theorem System.elfLoadPath_step {result : Int} (hrun : s.elfLoadPath h fs v path = .ok (result, s')) :
    (openElf h fs v path = .ok none ∧ s' = s) ∨
      ∃ b, openElf h fs v path = .ok (some b) ∧ s.step (.exec (some b.elf)) = .ok s' := by
  unfold System.elfLoadPath at hrun
  obtain ⟨file, hopen, hrun⟩ := bind_eq_ok.1 hrun
  cases file with
  | none =>
    cases hrun
    exact .inl ⟨hopen, rfl⟩
  | some b =>
    refine .inr ⟨b, hopen, ?_⟩
    obtain ⟨⟨m, p⟩, hload, hrun⟩ := bind_eq_ok.1 hrun
    simp only [System.step, hload, ok_bind]
    cases p with
    | none =>
      cases hrun
      rfl
    | some p =>
      cases hrun
      rfl

/-! ## What is returned -/

/-- With another number at its start a file is refused. -/
theorem System.refuses_magic (hopen : openElf h fs v path = .ok (some b))
    (hmagic : b.elf.load 0 4 ≠ elfMagic) : s.Refuses h fs v path := by
  refine ⟨{ s with mem := s.memFor s.pidCounter }, ?_, rfl, rfl, rfl⟩
  unfold System.elfLoadPath elfLoad
  rw [hopen, ok_bind]
  simp only [if_pos hmagic]
  rfl

/-- With the magic number at its start a file is not refused. -/
theorem System.not_refuses (hopen : openElf h fs v path = .ok (some b))
    (hmagic : b.elf.load 0 4 = elfMagic) : ¬ s.Refuses h fs v path := by
  rintro ⟨s', hrun, -, hpid, -⟩
  unfold System.elfLoadPath at hrun
  rw [hopen, ok_bind] at hrun
  obtain ⟨⟨m, p⟩, hload, hrest⟩ := bind_eq_ok.1 hrun
  cases p with
  | none =>
    simp only [elfLoad] at hload
    rw [if_neg (not_not_intro hmagic)] at hload
    obtain ⟨r₁, -, hload⟩ := bind_eq_ok.1 hload
    obtain ⟨r₂, -, hload⟩ := bind_eq_ok.1 hload
    cases hload
  | some p =>
    -- the counter has moved on
    obtain ⟨-, rfl⟩ := Prod.mk.inj (pure_eq_ok.1 hrest)
    change addr32 (s.pidCounter + 1) = s.pidCounter at hpid
    unfold addr32 at hpid
    omega

/-- A kernel heap of 4 MiB, as `kheap_init` leaves it. -/
def firstHeap : KHeap := kheapInit 0x100000 ⟨0x100000, 0x1000000⟩ fun _ => 0

end Kaku

-- SUMMARY: Every descriptor of a file reads what was last written to it, through whatever descriptor.
import Kaku.Fs.Drive
import Kaku.Fs.FileSystem
import Kaku.Lib.Register

/-!
# Descriptors of one file

The kernel, its tables and the drive, over whole runs. The node of an entry holds the inode that
the drive holds, because a file has one entry only. So the contents of the files are registers
that `SYS_WRITE_FILE` writes and `SYS_READ_FILE` reads.
-/

namespace Kaku

namespace Mount

variable {fs : Mount} {v w : Volume} {inode : Inode} {node : VfsNode} {path : List UInt8}
  {stale : Mem} {found : Option OpenNode}

/-- The node of an entry, and the inode that it points to, are those of an inode of the drive. -/
structure Held (fs : Mount) (v : Volume) (node : VfsNode) (inode : Inode) : Prop where
  inUse : fs.InUse v inode.inodeId
  number : node.vnodeId.toNat = inode.inodeId
  bytes : SameBytes inode (fs.inodeAt v inode.inodeId)

theorem Held.after (h : fs.Held v node inode) (t : Nat) : fs.Held (v.after t) node inode :=
  ⟨h.inUse, h.number, h.bytes⟩

theorem Held.contents (h : fs.Held v node inode) :
    (fs.contents v inode.inodeId).isSome = inode.isFile := by
  rw [Mount.contents, h.bytes.isFile]
  cases hfile : inode.isFile with
  | true => rw [if_pos ⟨h.inUse, rfl⟩]; rfl
  | false => rw [if_neg fun hboth => Bool.false_ne_true hboth.2]; rfl

/-- `vfs_open` finds nothing, or the inode that the path leads to. -/
theorem InOrder.vfsOpen (h : fs.InOrder v)
    (hopen : vfsOpen nameBytes stale (some fs) path v = .ok (found, w)) :
    (∃ t, w = v.after t) ∧ (found = none ∧ fs.opens v path = none ∨
      ∃ node, found = some node ∧ fs.opens v path = some node.fsSpecific.inodeId ∧
        fs.Held v ⟨UInt32.ofNat node.vnodeId⟩ node.fsSpecific) := by
  have hrun : fs.ext2Open nameBytes stale path v = .ok (found, w) := hopen
  obtain ⟨⟨inode, u⟩, hresolve, -⟩ := bind_eq_ok.1 hrun
  obtain ⟨t, rfl⟩ := resolvePath_after hresolve
  have hinode := h.tree.of_resolvePath (t := v.transfers) hresolve
  by_cases hnone : inode.inodeTypeAndPermissions = 0
  · rw [ext2Open_none hresolve hnone] at hrun
    cases hrun
    exact ⟨⟨t, rfl⟩, .inl ⟨rfl, if_pos (hinode ▸ hnone)⟩⟩
  · have hnumber : fs.pathNumber v path ≠ 0 := by
      intro hzero
      rw [hinode, hzero] at hnone
      exact hnone rfl
    have hopens : fs.opens v path = some (fs.pathNumber v path) := if_neg (hinode ▸ hnone)
    rw [numbered_of_ne hnumber] at hinode
    have huse := h.tree.inUse_pathNumber hnumber
    rw [ext2Open_some nameBytes stale hresolve hnone] at hrun
    split_ifs at hrun with hlen
    cases hrun
    have hid : (openedNode stale path inode).vnodeId = addr32 inode.inodeId :=
      (openedNode.filled hlen).vnodeId
    have hlt : inode.inodeId < 2 ^ 32 := by
      rw [hinode]
      exact Nat.lt_of_le_of_lt huse.2.1 Mem.load_lt
    refine ⟨⟨t, rfl⟩, .inr ⟨_, rfl, ?_, ?_, ?_, ?_⟩⟩
    · rw [show (openedNode stale path inode).fsSpecific = inode from rfl, hinode]
      exact hopens
    · rw [show (openedNode stale path inode).fsSpecific = inode from rfl, hinode]
      exact huse
    · rw [hid, addr32, Nat.mod_eq_of_lt hlt]
      exact UInt32.toNat_ofNat_of_lt' hlt
    · rw [show (openedNode stale path inode).fsSpecific = inode from rfl, hinode]
      exact fun _ _ => rfl

/-- A path with a name in it, which is short enough for the node, is opened without a fault. -/
theorem InOrder.vfsOpen_ok (h : fs.InOrder v) (stale : Mem)
    (hpath : path = [slash] ∨ pathNames path ≠ []) (hlen : path.length < nameBytes) :
    ∃ found w, Kaku.vfsOpen nameBytes stale (some fs) path v = .ok (found, w) := by
  obtain ⟨inode, t, hresolve⟩ : ∃ inode t, fs.resolvePath path v = .ok (inode, v.after t) := by
    rcases eq_or_ne path [slash] with rfl | hne
    · have hroot : fs.pathNumber v [slash] ≠ 0 := by
        rw [pathNumber, if_pos rfl]
        exact Nat.succ_ne_zero 1
      exact ⟨_, h.tree.resolvePath hroot v.transfers⟩
    · exact ⟨_, h.tree.resolvePath_of_name hne (hpath.resolve_left hne) v.transfers⟩
  rw [Kaku.vfsOpen]
  by_cases hnone : inode.inodeTypeAndPermissions = 0
  · exact ⟨_, _, ext2Open_none hresolve hnone⟩
  · exact ⟨_, _, (ext2Open_some nameBytes stale hresolve hnone).trans (if_pos hlen)⟩

end Mount

namespace FileSystem

/-- The drive is in order, and every node belongs to it. -/
structure Sound (fs : Mount) (s : FileSystem) : Prop where
  kernel : s.files.kernel.Inv
  counted : ∃ lost, s.files.Accounted lost
  inOrder : fs.InOrder s.vol
  held : ∀ i node, fdNode s.files.fdTable i = some node → fs.Held s.vol node (s.inodes i)

/-- The number of the file that a descriptor with one of the flags names. -/
def names (s : FileSystem) (allowed : UInt8) (c : ProcPtr) (fd : UInt32) : Option Nat :=
  (accessed allowed (s.files.fds c) fd).map fun i => (s.inodes i).inodeId

/-- The file that the event writes, and its new contents. -/
def written (fs : Mount) (s : FileSystem) (e : Trap) : Option (Nat × Option (List UInt8)) :=
  match s.files.kernel.currentProc, e.event with
  | some c, .syscall regs _ =>
    if regs.eax = sysWriteFile then
      (s.names writeFlags c regs.ebx).bind fun k =>
        if (fs.contents s.vol k).isSome then some (k, some (e.buf.peek 0 regs.edx.toNat)) else none
    else none
  | _, _ => none

/-- There are enough free blocks for what the event writes. -/
def HasRoom (fs : Mount) (s : FileSystem) (e : Trap) : Prop :=
  ∀ k bytes, written fs s e = some (k, some bytes) →
    fs.Room s.vol (fs.inodeAt s.vol k) bytes.length

/-- `kernel_main`, on a drive with nothing open. -/
def boot (genkan : Image) (v : Volume) : K FileSystem := do
  let files ← Files.boot genkan
  pure { files := files, vol := v, inodes := fun _ => Mount.noInode }

variable {fs : Mount} {s s' s₁ : FileSystem} {c : ProcPtr} {regs : Registers} {env : SyscallEnv}
  {e : Trap} {event : FileEvent} {i k : Nat} {node : VfsNode} {allowed : UInt8} {buf out : Mem}
  {v : Volume} {bytes : List UInt8}

/-! ## What a call does on the drive -/

/-- The nodes belong to the drive when the call is over, too, the node that it enters among
them. -/
structure Driven (fs : Mount) (s s₁ : FileSystem) (c : ProcPtr) (regs : Registers) (e : Trap)
    (event : FileEvent) : Prop where
  files : s₁.files = s.files
  sameEvent : event.event = e.event
  inOrder : fs.InOrder s₁.vol
  opens : ∀ path, fs.opens s₁.vol path = fs.opens s.vol path
  held : ∀ i node, fdNode s.files.fdTable i = some node → fs.Held s₁.vol node (s₁.inodes i)
  entered : ∀ i node, regs.eax = sysOpen → event.opened = some node →
    enteredSlot s.files.fdTable (s.files.fds c) node regs.ecx.toUInt8 = some i →
    fs.Held s₁.vol node (s₁.inodes i)

/-- A drive that has only been read. -/
theorem Sound.driven_after (hs : s.Sound fs) (t : Nat) (hevent : event.event = e.event)
    (hopen : regs.eax ≠ sysOpen) :
    Driven fs s { s with vol := s.vol.after t } c regs e event where
  files := rfl
  sameEvent := hevent
  inOrder := hs.inOrder.after t
  opens := hs.inOrder.tree.opens_after t
  held i node hnode := (hs.held i node hnode).after t
  entered _ _ hnum := absurd hnum hopen

/-- What a path leads to is opened. -/
theorem Sound.openCall (hs : s.Sound fs) (h : s.openCall (some fs) c regs e = .ok (s₁, event)) :
    Driven fs s s₁ c regs e event ∧ ∃ t, s₁.vol = s.vol.after t := by
  rw [FileSystem.openCall] at h
  obtain ⟨⟨found, w⟩, hopen, h⟩ := bind_eq_ok.1 h
  obtain ⟨⟨t, rfl⟩, ⟨rfl, -⟩ | ⟨node, rfl, -, hheld⟩⟩ := hs.inOrder.vfsOpen hopen
  · cases h
    exact ⟨⟨rfl, rfl, hs.inOrder.after t, hs.inOrder.tree.opens_after t,
      fun i node hnode => (hs.held i node hnode).after t, fun i node _ hnone => by cases hnone⟩,
      t, rfl⟩
  · simp only [pure_eq_ok, Prod.mk.injEq] at h
    obtain ⟨rfl, rfl⟩ := h
    refine ⟨⟨rfl, rfl, hs.inOrder.after t, hs.inOrder.tree.opens_after t,
      fun i old hnode => ?_, fun i new _ hnew hentered => ?_⟩, t, rfl⟩
    · have hold := (hs.held i old hnode).after t
      dsimp only
      split
      · exact hold
      · rename_i j hentered
        have hij : i ≠ j := by
          rintro rfl
          rw [enteredSlot_free hentered] at hnode
          cases hnode
        rwa [Function.update_of_ne hij]
    · cases hnew
      simp only [hentered, Function.update_self]
      exact hheld.after t

/-- The entries of two files are different ones. -/
theorem Sound.number_ne (hs : s.Sound fs) {j : Nat} {node' : VfsNode}
    (hi : fdNode s.files.fdTable i = some node) (hj : fdNode s.files.fdTable j = some node')
    (hne : j ≠ i) : (s.inodes j).inodeId ≠ (s.inodes i).inodeId := by
  obtain ⟨lost, hcounted⟩ := hs.counted
  obtain ⟨e, he, rfl⟩ := Option.map_eq_some_iff.1 hi
  obtain ⟨e', he', rfl⟩ := Option.map_eq_some_iff.1 hj
  intro heq
  refine hne (hcounted.distinct j i e' e he' he (UInt32.toNat_inj.1 ?_))
  rw [(hs.held j _ hj).number, (hs.held i _ hi).number, heq]

/-- The inode behind an entry is replaced, and the drive gets the new contents. -/
theorem Sound.writeCall (hs : s.Sound fs) (hc : c ∈ s.files.kernel.procs)
    (hopen : regs.eax ≠ sysOpen)
    (hroom : ∀ i, accessed writeFlags (s.files.fds c) regs.ebx = some i →
      (s.inodes i).isFile = true → fs.Room s.vol (s.inodes i) regs.edx.toNat)
    (h : s.writeCall (some fs) c regs e = .ok (s₁, event)) : Driven fs s s₁ c regs e event ∧
      ((∃ i, accessed writeFlags (s.files.fds c) regs.ebx = some i ∧ (s.inodes i).isFile = true ∧
        fs.contents s₁.vol = Function.update (fs.contents s.vol) (s.inodes i).inodeId
          (some (e.buf.peek 0 regs.edx.toNat))) ∨
      (∀ i, accessed writeFlags (s.files.fds c) regs.ebx = some i → (s.inodes i).isFile = false) ∧
        fs.contents s₁.vol = fs.contents s.vol) := by
  rw [FileSystem.writeCall] at h
  cases haccessed : accessed writeFlags (s.files.fds c) regs.ebx with
  | none =>
    rw [haccessed] at h
    cases h
    exact ⟨hs.driven_after s.vol.transfers rfl hopen, .inr ⟨fun i hi => (by cases hi), rfl⟩⟩
  | some i =>
    rw [haccessed] at h
    obtain ⟨lost, hcounted⟩ := hs.counted
    obtain ⟨node, hnode⟩ := exists_of_accessed (hcounted.backed hc) haccessed
    have hheld := hs.held i node hnode
    obtain ⟨⟨n, inode, v⟩, hwrite, h⟩ := bind_eq_ok.1 h
    cases h
    have hwrite : fs.writeFile (s.inodes i) e.buf regs.edx.toNat s.vol = .ok (n, inode, v) := hwrite
    cases hfile : (s.inodes i).isFile with
    | false =>
      -- what is not a file is not written
      rw [Mount.writeFile, hfile] at hwrite
      cases hwrite
      simp only [Function.update_eq_self]
      refine ⟨hs.driven_after s.vol.transfers rfl hopen, .inr ⟨fun j hj => ?_, trivial⟩⟩
      cases hj
      exact hfile
    | true =>
      obtain ⟨inode', v', hrun, hover, hid, hbytes⟩ :=
        hs.inOrder.write hheld.inUse hheld.bytes hfile (hroom i haccessed hfile) e.buf
      rw [hwrite] at hrun
      cases hrun
      have hdrive := hheld.bytes.isFile.trans hfile
      refine ⟨⟨rfl, rfl, hover.inOrder, hover.opens hdrive, fun j old hj => ?_,
        fun j new hnum => absurd hnum hopen⟩, .inl ⟨i, rfl, hfile, hover.contents⟩⟩
      rcases eq_or_ne j i with rfl | hne
      · rw [hnode] at hj
        cases hj
        simp only [Function.update_self]
        refine ⟨?_, hheld.number.trans hid.symm, ?_⟩
        · rw [hid]
          exact (hover.inUse _).2 hheld.inUse
        · rw [hid]
          exact hbytes
      · have hold := hs.held j old hj
        have hother := hover.others _ (hs.number_ne hnode hj hne) hold.inUse
        simp only [Function.update_of_ne hne]
        refine ⟨(hover.inUse _).2 hold.inUse, hold.number, ?_⟩
        rw [hother]
        exact hold.bytes

/-! ## Whole steps -/

/-- The contents of the files after an event, by what it has written. -/
structure Wrote (fs : Mount) (s s' : FileSystem) (e : Trap) : Prop where
  update : ∀ k b, written fs s e = some (k, b) →
    fs.contents s'.vol = Function.update (fs.contents s.vol) k b
  kept : written fs s e = none → fs.contents s'.vol = fs.contents s.vol

section Call

variable (hcur : s.files.kernel.currentProc = some c) (hevent : e.event = .syscall regs env)
include hcur hevent

theorem written_of_ne (hnum : regs.eax ≠ sysWriteFile) : written fs s e = none := by
  rw [written, hcur, hevent]
  exact if_neg hnum

theorem written_write (hnum : regs.eax = sysWriteFile) : written fs s e =
    (accessed writeFlags (s.files.fds c) regs.ebx).bind fun i =>
      if (fs.contents s.vol (s.inodes i).inodeId).isSome then
        some ((s.inodes i).inodeId, some (e.buf.peek 0 regs.edx.toNat)) else none := by
  rw [written, hcur, hevent]
  simp only [if_pos hnum, names, Option.bind_map]
  rfl

theorem written_file (hs : s.Sound fs) (hc : c ∈ s.files.kernel.procs)
    (hnum : regs.eax = sysWriteFile)
    (haccessed : accessed writeFlags (s.files.fds c) regs.ebx = some i) : written fs s e =
      if (s.inodes i).isFile then
        some ((s.inodes i).inodeId, some (e.buf.peek 0 regs.edx.toNat)) else none := by
  obtain ⟨lost, hcounted⟩ := hs.counted
  obtain ⟨node, hnode⟩ := exists_of_accessed (hcounted.backed hc) haccessed
  rw [written_write hcur hevent hnum, haccessed, Option.bind_some, (hs.held i node hnode).contents]

/-- There is room behind the inode that the node holds. -/
theorem Sound.room (hs : s.Sound fs) (hc : c ∈ s.files.kernel.procs) (hnum : regs.eax = sysWriteFile)
    (hroom : s.HasRoom fs e) (haccessed : accessed writeFlags (s.files.fds c) regs.ebx = some i)
    (hfile : (s.inodes i).isFile = true) : fs.Room s.vol (s.inodes i) regs.edx.toNat := by
  obtain ⟨lost, hcounted⟩ := hs.counted
  obtain ⟨node, hnode⟩ := exists_of_accessed (hcounted.backed hc) haccessed
  have hheld := hs.held i node hnode
  obtain ⟨hrange, henough⟩ := hroom _ _
    ((written_file hcur hevent hs hc hnum haccessed).trans (if_pos hfile))
  rw [Mem.length_peek] at hrange henough
  exact ⟨hrange, by rwa [hheld.bytes.needed] at henough⟩

/-- What a call does on the drive, and to the contents of the files. -/
theorem Sound.drivePart (hs : s.Sound fs) (hroom : s.HasRoom fs e)
    (h : s.drivePart (some fs) c regs e = .ok (s₁, event, buf)) :
    Driven fs s s₁ c regs e event ∧ Wrote fs s s₁ e := by
  obtain ⟨p, hp, -⟩ := hs.kernel.wf.current hcur
  have hc : c ∈ s.files.kernel.procs := (hs.kernel.wf.shape.mem_procs c).2 ⟨p, hp⟩
  have hread (hnum : regs.eax ≠ sysWriteFile) (hsame : fs.contents s₁.vol = fs.contents s.vol) :
      Wrote fs s s₁ e := by
    refine ⟨fun k b hwritten => ?_, fun _ => hsame⟩
    rw [written_of_ne hcur hevent hnum] at hwritten
    cases hwritten
  rw [FileSystem.drivePart] at h
  split at h
  · rename_i hnum
    obtain ⟨⟨s₂, event₂⟩, hcall, h⟩ := bind_eq_ok.1 h
    cases h
    obtain ⟨hdriven, t, hvol⟩ := hs.openCall hcall
    refine ⟨hdriven, hread (by rw [hnum]; decide) ?_⟩
    rw [hvol]
    rfl
  split at h
  · rename_i hopen hnum
    rw [pure_eq_ok, FileSystem.readCall] at h
    have hnot : regs.eax ≠ sysWriteFile := by rw [hnum]; decide
    cases haccessed : accessed readFlags (s.files.fds c) regs.ebx with
    | none =>
      rw [haccessed] at h
      cases h
      exact ⟨hs.driven_after s.vol.transfers rfl hopen, hread hnot rfl⟩
    | some i =>
      rw [haccessed] at h
      obtain ⟨t, hafter⟩ := Mount.readFileContents_after fs (s.inodes i) e.buf regs.edx.toNat s.vol
      have hvol : s₁ = { s with vol := s.vol.after t } ∧ event.event = e.event := by
        rw [← hafter]
        cases h
        exact ⟨rfl, rfl⟩
      obtain ⟨rfl, hsame⟩ := hvol
      exact ⟨hs.driven_after t hsame hopen, hread hnot rfl⟩
  split at h
  · rename_i hopen _ hnum
    obtain ⟨⟨s₂, event₂⟩, hcall, h⟩ := bind_eq_ok.1 h
    cases h
    obtain ⟨hdriven, hwrote⟩ := hs.writeCall hc hopen
      (fun i => hs.room hcur hevent hc hnum hroom) hcall
    refine ⟨hdriven, ?_⟩
    rcases hwrote with ⟨i, haccessed, hfile, hsame⟩ | ⟨hnone, hsame⟩
    · have hwritten := written_file hcur hevent hs hc hnum haccessed
      rw [if_pos hfile] at hwritten
      refine ⟨fun k b heq => ?_, fun heq => ?_⟩
      · rw [hwritten] at heq
        cases heq
        exact hsame
      · rw [hwritten] at heq
        cases heq
    · refine ⟨fun k b heq => ?_, fun _ => hsame⟩
      cases haccessed : accessed writeFlags (s.files.fds c) regs.ebx with
      | none =>
        rw [written_write hcur hevent hnum, haccessed] at heq
        cases heq
      | some i =>
        rw [written_file hcur hevent hs hc hnum haccessed, hnone i haccessed] at heq
        cases heq
  · rename_i hopen _ hnum
    cases h
    exact ⟨hs.driven_after s.vol.transfers rfl hopen, hread hnum rfl⟩

end Call

/-- A step of the machine. -/
structure Stepped (fs : Mount) (s s' : FileSystem) (e : Trap) : Prop extends Wrote fs s s' e where
  sound : s'.Sound fs
  opens : ∀ path, fs.opens s'.vol path = fs.opens s.vol path

/-- An event that no process causes leaves the drive alone. -/
theorem Sound.step_quiet {files : Files} (hs : s.Sound fs)
    (hquiet : ∀ c regs env, s.files.kernel.currentProc = some c → e.event ≠ .syscall regs env)
    (h : s.files.step { event := e.event } = .ok files) :
    Stepped fs s { s with files := files } e := by
  obtain ⟨lost, hcounted⟩ := hs.counted
  obtain ⟨hkernel, hcounted'⟩ := Files.step_accounted hs.kernel hcounted h
  refine ⟨⟨fun k b hwritten => ?_, fun _ => rfl⟩,
    ⟨hkernel, ⟨_, hcounted'⟩, hs.inOrder, fun i node hnode => ?_⟩, fun _ => rfl⟩
  · rw [written] at hwritten
    split at hwritten
    · rename_i c regs env hcur hevent
      exact absurd hevent (hquiet c regs env hcur)
    · cases hwritten
  · rcases Files.step_nodes h hnode with hold | ⟨c, regs, env, hcur, hevent, -⟩
    · exact hs.held i node hold
    · exact absurd hevent (hquiet c regs env hcur)

/-- Everything stays in order, and the contents of the files are those that were written. -/
theorem Sound.step (hs : s.Sound fs) (hroom : s.HasRoom fs e)
    (h : s.step (some fs) e = .ok (s', out)) : Stepped fs s s' e := by
  rw [FileSystem.step] at h
  split at h
  · rename_i c regs env hcur hevent
    obtain ⟨⟨s₁, event, buf⟩, hdrive, h⟩ := bind_eq_ok.1 h
    obtain ⟨files, hfiles, h⟩ := bind_eq_ok.1 h
    cases h
    obtain ⟨hdriven, hwrote⟩ := hs.drivePart hcur hevent hroom hdrive
    obtain ⟨lost, hcounted⟩ := hs.counted
    rw [hdriven.files] at hfiles
    obtain ⟨hkernel, hcounted'⟩ := Files.step_accounted hs.kernel hcounted hfiles
    refine ⟨⟨hwrote.update, hwrote.kept⟩,
      ⟨hkernel, ⟨_, hcounted'⟩, hdriven.inOrder, fun i node hnode => ?_⟩, hdriven.opens⟩
    rcases Files.step_nodes hfiles hnode with hold | ⟨c', regs', env', hcur', hevent', hopen⟩
    · exact hdriven.held i node hold
    · rw [hcur] at hcur'
      rw [hdriven.sameEvent, hevent] at hevent'
      cases hcur'
      cases hevent'
      obtain ⟨hnum, hopened, hentered⟩ := hopen
      exact hdriven.entered i node hnum hopened hentered
  · rename_i hquiet
    obtain ⟨files, hfiles, h⟩ := bind_eq_ok.1 h
    cases h
    exact hs.step_quiet (fun c regs env hcur hevent => hquiet c regs env hcur hevent) hfiles

/-! ## Whole runs -/

/-- The steps whose writes have room. -/
def Goes (fs : Mount) : FileSystem → Trap → FileSystem → Prop := Guarded (HasRoom fs) (next (some fs))

/-- What the caller finds in EAX. -/
def returned (s : FileSystem) (c : ProcPtr) : Option UInt32 :=
  (s.files.kernel.heap c).map fun p => p.frame.eax

variable {genkan : Image} {s₀ : FileSystem} {es : List Trap}

theorem goes_iff : Goes fs s e s' ↔ s.HasRoom fs e ∧ ∃ out, s.step (some fs) e = .ok (s', out) := by
  rw [Goes, Guarded, next]
  cases s.step (some fs) e with
  | error f => simp
  | ok r => simp [Prod.ext_iff, and_comm]

/-- What is written to a file are bytes. -/
theorem written_isSome {b : Option (List UInt8)} (h : written fs s e = some (k, b)) :
    ∃ bytes, b = some bytes := by
  rw [written] at h
  split at h
  · split_ifs at h
    obtain ⟨k', -, h⟩ := Option.bind_eq_some_iff.1 h
    split_ifs at h
    cases h
    exact ⟨_, rfl⟩
  · cases h

/-- What has contents keeps some. -/
theorem Stepped.isSome (h : Stepped fs s s' e) (hfile : (fs.contents s.vol k).isSome) :
    (fs.contents s'.vol k).isSome := by
  cases hwritten : written fs s e with
  | none => rwa [h.kept hwritten]
  | some w =>
    rw [h.update w.1 w.2 hwritten]
    rcases eq_or_ne k w.1 with rfl | hne
    · obtain ⟨bytes, hbytes⟩ := written_isSome hwritten
      rw [Function.update_self, hbytes]
      rfl
    · rwa [Function.update_of_ne hne]

theorem ofInt_natCast (m : Nat) : UInt32.ofInt (m : Int) = UInt32.ofNat m := by
  apply UInt32.toNat_inj.1
  rw [UInt32.ofInt, UInt32.toNat_ofNat', UInt32.toNat_ofNat']
  omega

theorem Sound.boot (hboot : boot genkan v = .ok s₀) (hv : fs.InOrder v) :
    s₀.Sound fs ∧ s₀.vol = v := by
  obtain ⟨files, hfiles, h⟩ := bind_eq_ok.1 hboot
  cases h
  obtain ⟨hkernel, hexact⟩ := Files.boot_exact hfiles
  obtain ⟨k, -, hfiles⟩ := bind_eq_ok.1 hfiles
  cases hfiles
  exact ⟨⟨hkernel, ⟨0, Files.refExact_iff.1 hexact⟩, hv, fun i node hnode => by cases hnode⟩, rfl⟩

theorem Sound.goes (hs : s.Sound fs) (h : Goes fs s e s') : Stepped fs s s' e := by
  obtain ⟨hroom, out, hstep⟩ := goes_iff.1 h
  exact hs.step hroom hstep

theorem Sound.run_isSome (hs₀ : s₀.Sound fs) (hrun : Run (Goes fs) s₀ es s)
    (hfile : (fs.contents s₀.vol k).isSome) : (fs.contents s.vol k).isSome :=
  hrun.invariant_of (J := Sound fs) (I := fun s => (fs.contents s.vol k).isSome)
    (fun _ _ _ hstep hs => (hs.goes hstep).sound) (fun _ _ _ hstep hs => (hs.goes hstep).isSome)
    hs₀ hfile

/-- Everything stays in order, and paths lead where they led. -/
theorem run_sound (hboot : boot genkan v = .ok s₀) (hv : fs.InOrder v)
    (hrun : Run (Goes fs) s₀ es s) :
    s.Sound fs ∧ ∀ path, fs.opens s.vol path = fs.opens v path := by
  obtain ⟨hs₀, hvol⟩ := Sound.boot hboot hv
  refine hrun.invariant (I := fun s => s.Sound fs ∧ ∀ path, fs.opens s.vol path =
    fs.opens v path) (fun s e s' hstep hs => ?_) ⟨hs₀, fun path => hvol ▸ rfl⟩
  have hstepped := hs.1.goes hstep
  exact ⟨hstepped.sound, fun path => (hstepped.opens path).trans (hs.2 path)⟩

/-- The contents of the files are registers that the steps write. -/
theorem contents_register : IsRegister (fun s e s' => s.Sound fs ∧ Goes fs s e s')
    (fun s => fs.contents s.vol) (written fs) where
  written s e s' h k b hwritten := by
    rw [(h.1.goes h.2).update k b hwritten, Function.update_self]
  kept s e s' h k hspared := by
    have hstepped := h.1.goes h.2
    cases hwritten : written fs s e with
    | none => rw [hstepped.kept hwritten]
    | some w =>
      have hne : k ≠ w.1 := by
        rintro rfl
        exact hspared w.2 hwritten
      rw [hstepped.update w.1 w.2 hwritten, Function.update_of_ne hne]

/-- A file is read as it is on the drive. -/
theorem Sound.read (hs : s.Sound fs) (hcur : s.files.kernel.currentProc = some c)
    (hevent : e.event = .syscall regs env) (hnum : regs.eax = sysReadFile)
    (hnames : s.names readFlags c regs.ebx = some k) (hbytes : fs.contents s.vol k = some bytes) :
    ∃ s' out m, s.step (some fs) e = .ok (s', out) ∧ s'.returned c = some (UInt32.ofNat m) ∧
      min regs.edx.toNat bytes.length ≤ m ∧ m ≤ regs.edx.toNat ∧
      out.peek 0 (min regs.edx.toNat bytes.length) = bytes.take regs.edx.toNat := by
  obtain ⟨p, hp, -⟩ := hs.kernel.wf.current hcur
  have hc : c ∈ s.files.kernel.procs := (hs.kernel.wf.shape.mem_procs c).2 ⟨p, hp⟩
  obtain ⟨lost, hcounted⟩ := hs.counted
  obtain ⟨i, haccessed, rfl⟩ := Option.map_eq_some_iff.1 hnames
  obtain ⟨node, hnode⟩ := exists_of_accessed (hcounted.backed hc) haccessed
  have hheld := hs.held i node hnode
  obtain ⟨huse, hfile, rfl⟩ := Mount.contents_eq_some.1 hbytes
  have hfile' : (s.inodes i).isFile = true := hheld.bytes.isFile.symm.trans hfile
  have hmapped : fs.Mapped s.vol (s.inodes i) := by
    intro j hj
    rw [← hheld.bytes.size] at hj
    have hblk := hs.inOrder.whole _ huse hfile j hj
    rwa [show s.vol.blockPtr fs _ j = s.vol.blockPtr fs _ j from
      hheld.bytes.fileBlk (s := some j)] at hblk
  obtain ⟨m, out, t, hread, hlow, hhigh, hpeek⟩ := hmapped.readFileContents
    hs.inOrder.consistent.owned.good hfile' regs.edx.toNat e.buf
  rw [← @Mount.length_fileBytes fs s.vol, ← hheld.bytes.fileBytes] at hlow hpeek
  have hcall : s.readCall (some fs) c regs e = ({ s with vol := s.vol.after t },
      { event := e.event, moved := UInt32.ofNat m }, out) := by
    rw [readCall, haccessed]
    simp only [vfsRead, hread]
    rw [ofInt_natCast]
  obtain ⟨files, hfiles, heax⟩ := Files.step_access (e := { event := e.event, moved := UInt32.ofNat m })
    hs.kernel hcounted hcur hevent (.inl hnum) (Files.fileCall_readFile hnum) haccessed
  refine ⟨{ s with files := files, vol := s.vol.after t }, out, m, ?_, heax, hlow, hhigh, hpeek⟩
  have hdrive : s.drivePart (some fs) c regs e = .ok ({ s with vol := s.vol.after t },
      { event := e.event, moved := UInt32.ofNat m }, out) := by
    rw [FileSystem.drivePart, if_neg (by rw [hnum]; decide), if_pos hnum, hcall]
    rfl
  rw [hevent] at hdrive hfiles
  simp only [FileSystem.step, hcur, hevent, hdrive, ok_bind, hfiles]
  rfl

section Sample

open Mount

/-- `freshVolume` with a file `/f` of five bytes. -/
def sampleDrive : K Volume :=
  tinyMount.driveStep freshVolume (.create [0x66] (fun _ => 0x61) 5)

theorem sampleDrive_inOrder (h : sampleDrive = .ok v) : tinyMount.InOrder v :=
  (freshVolume_formatted.create freshVolume_space freshVolume_newName h).1.formatted.inOrder

def trapTick : Trap := { event := Kernel.tick }

/-- `SYS_OPEN` of `/f` for reading and writing. -/
def trapOpen : Trap :=
  { event := .syscall { eax := sysOpen, ecx := 4 } {}, path := [slash, 0x66] }

/-- `SYS_READ_FILE` or `SYS_WRITE_FILE` of `n` bytes with descriptor 3. -/
def trapMove (num n : UInt32) (byte : UInt8) : Trap :=
  { event := .syscall { eax := num, ebx := 3, edx := n } {}, buf := fun _ => byte }

theorem goes_of_spared (h : written fs s e = none) (hstep : s.step (some fs) e = .ok (s', out)) :
    Goes fs s e s' := by
  refine goes_iff.2 ⟨fun k bytes hwritten => ?_, out, hstep⟩
  rw [h] at hwritten
  cases hwritten

/-- The first process opens `/f` and writes two bytes to it. -/
theorem sample_run : ∃ v s₀ s₁ s₂ s, sampleDrive = .ok v ∧ boot Kernel.bareImage v = .ok s₀ ∧
    Run (Goes tinyMount) s₀ [trapTick] s₁ ∧ Run (Goes tinyMount) s₁ [trapOpen] s₂ ∧
    Run (Goes tinyMount) s₂ [trapMove sysWriteFile 2 0x62] s ∧
    (tinyMount.contents v 3).isSome ∧ tinyMount.opens v [slash, 0x66] = some 3 ∧
    s₁.files.kernel.currentProc = some 1 ∧ s₂.files.kernel.currentProc = some 1 ∧
    s₂.returned 1 = some 3 ∧ s.files.kernel.currentProc = some 1 ∧
    s.names readFlags 1 3 = some 3 := by
  have hexec : (sampleDrive.toOption.any fun v =>
      ((tinyMount.contents v 3).isSome && decide (tinyMount.opens v [slash, 0x66] = some 3)) &&
      (boot Kernel.bareImage v).toOption.any fun s₀ => decide (written tinyMount s₀ trapTick = none) &&
      (s₀.step (some tinyMount) trapTick).toOption.any fun r₁ =>
        decide (written tinyMount r₁.1 trapOpen = none ∧ r₁.1.files.kernel.currentProc = some 1) &&
      (r₁.1.step (some tinyMount) trapOpen).toOption.any fun r₂ =>
        decide (written tinyMount r₂.1 (trapMove sysWriteFile 2 0x62) = some (3, some [0x62, 0x62]) ∧
          tinyMount.needed r₂.1.vol (tinyMount.inodeAt r₂.1.vol 3) 0 1 = 0 ∧
          r₂.1.files.kernel.currentProc = some 1 ∧ r₂.1.returned 1 = some 3) &&
      (r₂.1.step (some tinyMount) (trapMove sysWriteFile 2 0x62)).toOption.any fun r =>
        decide (r.1.files.kernel.currentProc = some 1 ∧ r.1.names readFlags 1 3 = some 3)) = true := by
    decide
  obtain ⟨v, hv, hexec⟩ := toOption_any.1 hexec
  obtain ⟨hfound, hexec⟩ := Bool.and_eq_true_iff.1 hexec
  obtain ⟨hfile, hopens⟩ := Bool.and_eq_true_iff.1 hfound
  obtain ⟨s₀, hboot, hexec⟩ := toOption_any.1 hexec
  obtain ⟨htick, hexec⟩ := Bool.and_eq_true_iff.1 hexec
  obtain ⟨⟨s₁, out₁⟩, hstep₁, hexec⟩ := toOption_any.1 hexec
  obtain ⟨hopen, hexec⟩ := Bool.and_eq_true_iff.1 hexec
  obtain ⟨hopen, hcur₁⟩ := of_decide_eq_true hopen
  obtain ⟨⟨s₂, out₂⟩, hstep₂, hexec⟩ := toOption_any.1 hexec
  obtain ⟨hwrite, hexec⟩ := Bool.and_eq_true_iff.1 hexec
  obtain ⟨hwrite, hneeded, hcur₂, hreturned⟩ := of_decide_eq_true hwrite
  obtain ⟨⟨s, out⟩, hstep, hexec⟩ := toOption_any.1 hexec
  obtain ⟨hcur, hnames⟩ := of_decide_eq_true hexec
  have hroom : s₂.HasRoom tinyMount (trapMove sysWriteFile 2 0x62) := by
    intro k bytes hwritten
    rw [hwrite] at hwritten
    cases hwritten
    refine ⟨by decide, ?_⟩
    rw [show tinyMount.blocksFor [(0x62 : UInt8), 0x62].length = 1 by decide, hneeded]
    exact Nat.zero_le _
  exact ⟨v, s₀, s₁, s₂, s, hv, hboot, .single (goes_of_spared (of_decide_eq_true htick) hstep₁),
    .single (goes_of_spared hopen hstep₂), .single (goes_iff.2 ⟨hroom, out, hstep⟩), hfile,
    of_decide_eq_true hopens, hcur₁, hcur₂, hreturned, hcur, hnames⟩

end Sample

end FileSystem

end Kaku

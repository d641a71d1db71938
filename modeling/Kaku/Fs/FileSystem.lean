-- SUMMARY: The kernel with its open files on a drive: the calls on files, down to the blocks.
import Kaku.Fs.BadFd
import Kaku.Fs.Open
import Kaku.Fs.InOrder

/-!
# The open files of a drive

`SYS_OPEN`, `SYS_READ_FILE` and `SYS_WRITE_FILE` from the trap down to the drive, through
`fs/src/vfs.c` and `fs/src/ext2_vfs.c`. Each entry of the global table has a node, and the node
a copy of the inode that was read when the file was opened. All descriptors of the file share
this copy.
-/

namespace Kaku

/-! ## The calls of the driver -/

/-- `vfs_read`, with the inode of the node. -/
def vfsRead (driver : Option Mount) (inode : Inode) (buf : Mem) (size : Nat) (v : Volume) :
    Int × Mem × Volume :=
  match driver with
  | none => (-1, buf, v)
  | some fs => fs.readFileContents inode buf size v

/-- `vfs_write`, with the inode of the node. -/
def vfsWrite (driver : Option Mount) (inode : Inode) (buf : Mem) (size : Nat) (v : Volume) :
    K (Int × Inode × Volume) :=
  match driver with
  | none => pure (-1, inode, v)
  | some fs => fs.writeFile inode buf size v

/-- The entry of the global table that a call with one of these flags gets to. -/
def accessed (allowed : UInt8) (fds : Fds) (fd : UInt32) : Option Nat :=
  if h : fd.toNat < maxFds then
    match fds.get ⟨fd.toNat, h⟩ with
    | none => none
    | some pfe => if pfe.flags &&& allowed = 0 then none else some pfe.globalFd
  else none

/-- The entry that `proc_alloc_fd` makes for the node, if it makes one. -/
def enteredSlot (t : FdTable) (fds : Fds) (node : VfsNode) (flags : UInt8) : Option Nat :=
  if fds.firstFree.isSome ∧ fdFindByNode t node = none then some (fdNew t node flags).2 else none

def readFlags : UInt8 := fdFlagsRo ||| fdFlagsRw

def writeFlags : UInt8 := fdFlagsWo ||| fdFlagsRw

/-! ## The machine -/

structure FileSystem where
  files : Files
  vol : Volume
  /-- What `fs_specific` points to in the node of each entry of the global table. -/
  inodes : Nat → Inode

/-- An event, with what the memory of the caller holds where the registers point: the path of
`SYS_OPEN`, or the buffer of the other calls. `stale` is what `kmalloc` leaves in a node. -/
structure Trap where
  event : Event
  path : List UInt8 := []
  buf : Mem := fun _ => 0
  stale : Mem := fun _ => 0

namespace FileSystem

/-- `SYS_OPEN`. A file that has an entry keeps the node that it has. -/
def openCall (driver : Option Mount) (s : FileSystem) (c : ProcPtr) (regs : Registers) (e : Trap) :
    K (FileSystem × FileEvent) := do
  let (node, v) ← vfsOpen nameBytes e.stale driver e.path s.vol
  match node with
  | none => pure ({ s with vol := v }, { event := e.event })
  | some node =>
    let vnode : VfsNode := { vnodeId := UInt32.ofNat node.vnodeId }
    let inodes :=
      match enteredSlot s.files.fdTable (s.files.fds c) vnode regs.ecx.toUInt8 with
      | none => s.inodes
      | some i => Function.update s.inodes i node.fsSpecific
    pure ({ s with vol := v, inodes := inodes }, { event := e.event, opened := some vnode })

/-- `SYS_READ_FILE`, with what it leaves in the buffer. -/
def readCall (driver : Option Mount) (s : FileSystem) (c : ProcPtr) (regs : Registers) (e : Trap) :
    FileSystem × FileEvent × Mem :=
  match accessed readFlags (s.files.fds c) regs.ebx with
  | none => (s, { event := e.event }, e.buf)
  | some i =>
    let (n, buf, v) := vfsRead driver (s.inodes i) e.buf regs.edx.toNat s.vol
    ({ s with vol := v }, { event := e.event, moved := UInt32.ofInt n }, buf)

/-- `SYS_WRITE_FILE`. -/
def writeCall (driver : Option Mount) (s : FileSystem) (c : ProcPtr) (regs : Registers) (e : Trap) :
    K (FileSystem × FileEvent) :=
  match accessed writeFlags (s.files.fds c) regs.ebx with
  | none => pure (s, { event := e.event })
  | some i => do
    let (n, inode, v) ← vfsWrite driver (s.inodes i) e.buf regs.edx.toNat s.vol
    pure ({ s with vol := v, inodes := Function.update s.inodes i inode },
      { event := e.event, moved := UInt32.ofInt n })

/-- What a call does on the drive, and what is left for the tables and the kernel. -/
def drivePart (driver : Option Mount) (s : FileSystem) (c : ProcPtr) (regs : Registers) (e : Trap) :
    K (FileSystem × FileEvent × Mem) :=
  if regs.eax = sysOpen then do
    let (s, event) ← s.openCall driver c regs e
    pure (s, event, e.buf)
  else if regs.eax = sysReadFile then pure (s.readCall driver c regs e)
  else if regs.eax = sysWriteFile then do
    let (s, event) ← s.writeCall driver c regs e
    pure (s, event, e.buf)
  else pure (s, { event := e.event }, e.buf)

/-- The event, with what it leaves in the buffer of the caller. -/
def step (driver : Option Mount) (s : FileSystem) (e : Trap) : K (FileSystem × Mem) :=
  match s.files.kernel.currentProc, e.event with
  | some c, .syscall regs _ => do
    let (s, event, buf) ← s.drivePart driver c regs e
    let files ← s.files.step event
    pure ({ s with files := files }, buf)
  | _, _ => do
    let files ← s.files.step { event := e.event }
    pure ({ s with files := files }, e.buf)

/-- The state that an event leads to. -/
def next (driver : Option Mount) (s : FileSystem) (e : Trap) : K FileSystem := do
  let (s, _) ← s.step driver e
  pure s

end FileSystem

/-! ## The nodes of the table -/

/-- The node of an entry. -/
def fdNode (t : FdTable) (i : Nat) : Option VfsNode := (fdGet t i).map FdTableEntry.node

variable {t t' : FdTable} {fds fds' : Fds} {node n : VfsNode} {flags allowed : UInt8} {i j : Nat}
  {fd ret moved : UInt32}

theorem enteredSlot_free (h : enteredSlot t fds node flags = some i) : fdNode t i = none := by
  rw [enteredSlot] at h
  split_ifs at h
  cases h
  rw [fdNode, (fdNew_spec t node flags).1]
  rfl

theorem fdNode_ref (h : fdRef t j = .ok t') : fdNode t' i = fdNode t i := by
  obtain ⟨e, he, hget⟩ := fdRef_spec h
  rw [fdNode, fdNode, hget]
  split_ifs with hij
  · rw [hij, he]
    rfl
  · rfl

/-- `proc_alloc_fd` enters the node, or takes the entry that is there. -/
theorem procAllocFd_nodes (h : procAllocFd t fds node flags = .ok (t', fds', ret)) :
    fdNode t' i = if enteredSlot t fds node flags = some i then some node else fdNode t i := by
  rw [procAllocFd] at h
  cases hv : fds.firstFree with
  | none =>
    simp only [hv, pure_eq_ok, Prod.mk.injEq] at h
    rw [enteredSlot, hv, h.1]
    rfl
  | some v =>
    simp only [hv, bind_eq_ok, pure_eq_ok, Prod.mk.injEq] at h
    obtain ⟨t₂, href, rfl, -, -⟩ := h
    rw [fdNode_ref href, enteredSlot, hv]
    cases hfound : fdFindByNode t node with
    | some j => rfl
    | none =>
      have hget := (fdNew_spec t node flags).2 i
      simp only [Option.isSome_some, true_and, if_true, Option.some.injEq]
      rw [fdNode, hget]
      by_cases hij : i = (fdNew t node flags).2
      · rw [if_pos hij, if_pos hij.symm]
        rfl
      · rw [if_neg hij, if_neg (Ne.symm hij)]
        rfl

theorem procCloseFd_nodes (h : procCloseFd t fds fd = .ok (t', fds'))
    (hi : fdNode t' i = some node) : fdNode t i = some node := by
  simp only [procCloseFd, bind_eq_ok] at h
  obtain ⟨found, -, h⟩ := h
  cases found with
  | none => cases h
  | some pfe =>
    cases he : fdGet t pfe.globalFd with
    | none =>
      simp only [he, pure_eq_ok, Prod.mk.injEq] at h
      rwa [h.1]
    | some e =>
      simp only [he, pure_eq_ok, Prod.mk.injEq] at h
      obtain ⟨rfl, -⟩ := h
      rw [fdNode, fdRemove_spec he] at hi
      split_ifs at hi with hij hlast
      · cases hi
      · rw [fdNode, hij, he]
        exact hi
      · exact hi

/-- `proc_alloc_fd` leaves the descriptors that are open alone. -/
theorem procAllocFd_kept {v : Fin maxFds} {pfe : ProcFdEntry}
    (h : procAllocFd t fds node flags = .ok (t', fds', ret)) (hv : fds.get v = some pfe) :
    fds'.get v = some pfe := by
  rw [procAllocFd] at h
  cases hfree : fds.firstFree with
  | none =>
    simp only [hfree, pure_eq_ok, Prod.mk.injEq] at h
    exact h.2.1 ▸ hv
  | some w =>
    simp only [hfree, bind_eq_ok, pure_eq_ok, Prod.mk.injEq] at h
    obtain ⟨-, -, -, rfl, -⟩ := h
    have hne : w.val ≠ v.val := by
      intro heq
      rw [← Fin.ext heq, (Fds.firstFree_spec hfree).2] at hv
      cases hv
    exact (Vector.getElem_set_ne w.isLt v.isLt hne).trans hv

theorem fdNode_of_fdFindByNode (h : fdFindByNode t node = some j) : fdNode t j = some node := by
  obtain ⟨hlt, hfound, -⟩ := List.findIdx?_eq_some_iff_getElem.1 h
  obtain ⟨e, he, hid⟩ := (Option.any_eq_true _ _).1 hfound
  have hget : fdGet t j = some e := by rw [fdGet, List.getElem?_eq_getElem hlt, he]; rfl
  rw [fdNode, hget, Option.map_some]
  exact congrArg (fun id => some (VfsNode.mk id)) (beq_iff_eq.1 hid)

theorem fdNode_fdNew : fdNode (fdNew t node flags).1 (fdNew t node flags).2 = some node := by
  rw [fdNode, (fdNew_spec t node flags).2, if_pos rfl]
  rfl

theorem fdRef_ok (h : fdNode t j = some node) : ∃ t', fdRef t j = .ok t' ∧ fdNode t' j = some node := by
  obtain ⟨e, he, -⟩ := Option.map_eq_some_iff.1 h
  have href : fdRef t j = .ok (t.set j (some { e with refCount := e.refCount + 1 })) := by
    rw [fdRef, he]
    rfl
  exact ⟨_, href, (fdNode_ref href).trans h⟩

/-- `proc_alloc_fd` returns the first free descriptor, and the entry behind it is the node's. -/
theorem procAllocFd_opens {v : Fin maxFds} (hv : fds.firstFree = some v) :
    ∃ t' i, procAllocFd t fds node flags = .ok (t',
        fds.set v.val (some { globalFd := i, offset := 0, flags := flags }) v.isLt,
        UInt32.ofNat v.val) ∧ fdNode t' i = some node := by
  rw [procAllocFd]
  simp only [hv]
  cases hfound : fdFindByNode t node with
  | some j =>
    obtain ⟨t', href, hnode⟩ := fdRef_ok (fdNode_of_fdFindByNode hfound)
    refine ⟨t', j, ?_, hnode⟩
    simp only [href, ok_bind]
    rfl
  | none =>
    have hnew : fdNode (fdNew t node flags).1 (fdNew t node flags).2 = some node := fdNode_fdNew
    obtain ⟨t', href, hnode⟩ := fdRef_ok hnew
    refine ⟨t', _, ?_, hnode⟩
    simp only [href, ok_bind]
    rfl

/-- `proc_close_fd` closes one descriptor. -/
theorem procCloseFd_kept {v : Fin maxFds} {pfe : ProcFdEntry}
    (h : procCloseFd t fds fd = .ok (t', fds')) (hv : fds.get v = some pfe)
    (hne : fd.toNat ≠ v.val) : fds'.get v = some pfe := by
  simp only [procCloseFd, bind_eq_ok] at h
  obtain ⟨found, -, h⟩ := h
  cases found with
  | none => cases h
  | some pfe' =>
    cases he : fdGet t pfe'.globalFd with
    | none =>
      simp only [he, pure_eq_ok, Prod.mk.injEq] at h
      exact h.2 ▸ hv
    | some e =>
      simp only [he, pure_eq_ok, Prod.mk.injEq] at h
      obtain ⟨-, rfl⟩ := h
      exact (Vector.getElem_setIfInBounds_ne v.isLt hne).trans hv

/-- What a call moves is what the file system moves, if the descriptor has one of the flags. -/
theorem procFdAccess_eq {r : UInt32 × UInt32} (h : procFdAccess allowed t fds fd moved = .ok r) :
    r = (accessed allowed fds fd).elim (0, 2) fun _ => (moved, 0) := by
  simp only [procFdAccess, Fds.slot, bind_eq_ok] at h
  obtain ⟨found, hslot, h⟩ := h
  split at hslot
  · rename_i hlt
    rw [pure_eq_ok] at hslot
    rw [accessed, dif_pos hlt, hslot]
    cases found with
    | none => exact (pure_eq_ok.1 h).symm
    | some pfe =>
      simp only at h ⊢
      by_cases hflags : pfe.flags &&& allowed = 0
      · rw [if_pos hflags, pure_eq_ok] at h
        rw [if_pos hflags]
        exact h.symm
      · rw [if_neg hflags] at h
        rw [if_neg hflags]
        cases he : fdGet t pfe.globalFd with
        | none =>
          rw [he] at h
          cases h
        | some e =>
          rw [he] at h
          exact (pure_eq_ok.1 h).symm
  · cases hslot

/-- The entry that is accessed is there. -/
theorem exists_of_accessed (hfds : fds.Backed t) (h : accessed allowed fds fd = some i) :
    ∃ node, fdNode t i = some node := by
  rw [accessed] at h
  split_ifs at h with hlt
  cases hslot : fds.get ⟨fd.toNat, hlt⟩ with
  | none =>
    rw [hslot] at h
    cases h
  | some pfe =>
    rw [hslot] at h
    simp only at h
    split_ifs at h
    cases h
    obtain ⟨e, he⟩ := hfds _ _ hslot
    exact ⟨e.node, by rw [fdNode, he]; rfl⟩

/-- Of `SYS_OPEN` and the calls that move bytes the kernel only sees what they return. -/
theorem Kernel.syscallBody_quiet {k : Kernel} {c : ProcPtr} {p : Proc} {regs : Registers}
    {env : SyscallEnv} (h : regs.eax = sysOpen ∨ regs.eax = sysReadFile ∨ regs.eax = sysWriteFile)
    (hp : k.heap c = some p) (hret : env.ret = some ret) :
    k.syscallBody c regs.eax env = .ok (k.set c { p with frame := { p.frame with eax := ret } }) := by
  have hother : ∀ num ∈ [sysRead, sysExit, sysExec, sysKill, sysWaitpid, sysGetpid],
      regs.eax ≠ num := by
    rcases h with h | h | h <;> simp [h, sysOpen, sysReadFile, sysWriteFile, sysRead, sysExit,
      sysExec, sysKill, sysWaitpid, sysGetpid]
  simp only [List.mem_cons, List.not_mem_nil, or_false, forall_eq_or_imp, forall_eq] at hother
  obtain ⟨h₁, h₂, h₃, h₄, h₅, h₆⟩ := hother
  simp only [Kernel.syscallBody, h₁, h₂, h₃, h₄, h₅, h₆, if_false, hret]
  exact Kernel.setEax_ok hp ret

namespace Files

variable {s s' s₁ : Files} {c : ProcPtr} {regs : Registers} {env : SyscallEnv} {e : FileEvent}
  {event : Event} {eax : Option UInt32}

/-- A call enters the node that it has opened, and no other. -/
theorem fileCall_nodes (h : s.fileCall c regs env e = .ok (t, fds, eax))
    (hnode : fdNode t i = some node) : fdNode s.fdTable i = some node ∨
      regs.eax = sysOpen ∧ e.opened = some node ∧
        enteredSlot s.fdTable (s.fds c) node regs.ecx.toUInt8 = some i := by
  rw [fileCall] at h
  split at h
  · rename_i hopen
    unfold syscallOpen at h
    cases hopened : e.opened with
    | none =>
      simp only [hopened, pure_eq_ok, Prod.mk.injEq] at h
      exact .inl (h.1 ▸ hnode)
    | some file =>
      simp only [hopened, bind_eq_ok, pure_eq_ok, Prod.mk.injEq, Prod.exists] at h
      obtain ⟨t₁, fds₁, fd, halloc, rfl, -, -⟩ := h
      rw [procAllocFd_nodes halloc] at hnode
      split_ifs at hnode with hentered
      · cases hnode
        exact .inr ⟨hopen, rfl, hentered⟩
      · exact .inl hnode
  split at h
  · unfold syscallClose at h
    split at h
    · simp only [pure_eq_ok, Prod.mk.injEq] at h
      exact .inl (h.1 ▸ hnode)
    · simp only [bind_eq_ok, pure_eq_ok, Prod.mk.injEq, Prod.exists] at h
      obtain ⟨t₁, fds₁, hclose, rfl, -⟩ := h
      exact .inl (procCloseFd_nodes hclose hnode)
  split at h
  · simp only [syscallReadFile, bind_eq_ok, pure_eq_ok, Prod.mk.injEq] at h
    obtain ⟨-, -, rfl, -⟩ := h
    exact .inl hnode
  split at h
  · simp only [syscallWriteFile, bind_eq_ok, pure_eq_ok, Prod.mk.injEq] at h
    obtain ⟨-, -, rfl, -⟩ := h
    exact .inl hnode
  · simp only [pure_eq_ok, Prod.mk.injEq] at h
    exact .inl (h.1 ▸ hnode)

/-- The event opens the node, which gets the slot `i`. -/
def Enters (s : Files) (e : FileEvent) (node : VfsNode) (i : Nat) : Prop :=
  ∃ c regs env, s.kernel.currentProc = some c ∧ e.event = .syscall regs env ∧
    regs.eax = sysOpen ∧ e.opened = some node ∧
    enteredSlot s.fdTable (s.fds c) node regs.ecx.toUInt8 = some i

theorem step_nodes (h : s.step e = .ok s') (hnode : fdNode s'.fdTable i = some node) :
    fdNode s.fdTable i = some node ∨ s.Enters e node i := by
  simp only [step, bind_eq_ok, pure_eq_ok, Prod.exists] at h
  obtain ⟨s₁, event, hfile, k, -, rfl⟩ := h
  have hnode : fdNode s₁.fdTable i = some node := hnode
  rw [filePart] at hfile
  split at hfile
  · rename_i c regs env hcur hevent
    simp only [bind_eq_ok, pure_eq_ok, Prod.mk.injEq, Prod.exists] at hfile
    obtain ⟨t, fds, ret, hcall, rfl, -⟩ := hfile
    exact (fileCall_nodes hcall hnode).imp_right fun hopen =>
      ⟨c, regs, env, hcur, hevent, hopen⟩
  · simp only [pure_eq_ok, Prod.mk.injEq] at hfile
    obtain ⟨rfl, -⟩ := hfile
    exact .inl hnode

/-- What a call on files leaves in EAX, the caller finds there. -/
theorem step_call (hk : s.kernel.Inv) (hcur : s.kernel.currentProc = some c)
    (hevent : e.event = .syscall regs env)
    (hnum : regs.eax = sysOpen ∨ regs.eax = sysReadFile ∨ regs.eax = sysWriteFile)
    (hcall : s.fileCall c regs env e = .ok (t, fds, some ret)) :
    ∃ s', s.step e = .ok s' ∧ (s'.kernel.heap c).map (fun p => p.frame.eax) = some ret ∧
      s'.fdTable = t ∧
      ∀ a ∈ s.kernel.procs, s'.fds a = if a = c then fds else s.fds a := by
  obtain ⟨p, hp, hable⟩ := hk.wf.current hcur
  have hfile : s.filePart e =
      .ok (s.setFds t c fds, .syscall regs { env with ret := some ret }) := by
    simp only [filePart, hcur, hevent, hcall, ok_bind]
    rfl
  have hbody : (s.kernel.set c { p with frame := regs }).syscallBody c regs.eax
      { env with ret := some ret } =
        .ok (s.kernel.set c { p with frame := { regs with eax := ret } }) := by
    have hself : (s.kernel.set c { p with frame := regs }).heap c =
        some { p with frame := regs } := by simp
    rw [Kernel.syscallBody_quiet hnum hself rfl, Kernel.set_set]
  have hstep : s.kernel.step (.syscall regs { env with ret := some ret }) =
      .ok (s.kernel.set c { p with frame := { regs with eax := ret } }) := by
    have hcaller : (s.kernel.set c { p with frame := { regs with eax := ret } }).deref c =
        .ok { p with frame := { regs with eax := ret } } := by simp
    have hable' : ¬ (p.procState = .blocked ∨ p.procState = .zombie) := fun h =>
      h.elim hable.1 hable.2
    simp only [Kernel.step, Kernel.syscallHandler, hcur, pushFrame_eq hcur hp, ok_bind, hbody,
      hcaller, hable', if_false]
    rfl
  refine ⟨(s.setFds t c fds).turnover
    (s.kernel.set c { p with frame := { regs with eax := ret } }), ?_, ?_, rfl, fun a ha => ?_⟩
  · rw [step, hfile, ok_bind]
    dsimp only
    rw [show (s.setFds t c fds).kernel = s.kernel from rfl, hstep, ok_bind]
    rfl
  · simp [turnover]
  · exact turnover_fds (s := s.setFds t c fds) hk ha

/-- `SYS_OPEN` that finds no file, or no free descriptor. -/
theorem step_refused (hk : s.kernel.Inv) (hcur : s.kernel.currentProc = some c)
    (hevent : e.event = .syscall regs env) (hnum : regs.eax = sysOpen)
    (hnone : e.opened = none ∨ (s.fds c).firstFree = none) :
    ∃ s', s.step e = .ok s' ∧
      (s'.kernel.heap c).map (fun p => p.frame.eax) = some 0xFFFFFFFF ∧
      ∀ a ∈ s.kernel.procs, s'.fds a = s.fds a := by
  have hcall : s.fileCall c regs env e = .ok (s.fdTable, s.fds c, some 0xFFFFFFFF) := by
    rw [fileCall, if_pos hnum]
    cases hopened : e.opened with
    | none => rfl
    | some node =>
      rw [hopened] at hnone
      simp only [syscallOpen, procAllocFd, hnone.resolve_left (Option.some_ne_none node)]
      rfl
  obtain ⟨s', hstep, heax, -, hfds⟩ := step_call hk hcur hevent (.inl hnum) hcall
  refine ⟨s', hstep, heax, fun a ha => ?_⟩
  rw [hfds a ha]
  split_ifs with hac
  · rw [hac]
  · rfl

/-- `SYS_OPEN` that finds a file gives it the first free descriptor. -/
theorem step_granted {d : Fin maxFds} (hk : s.kernel.Inv) (hcur : s.kernel.currentProc = some c)
    (hevent : e.event = .syscall regs env) (hnum : regs.eax = sysOpen)
    (hopened : e.opened = some node) (hfree : (s.fds c).firstFree = some d) :
    ∃ s' i, s.step e = .ok s' ∧
      (s'.kernel.heap c).map (fun p => p.frame.eax) = some (UInt32.ofNat d.val) ∧
      fdNode s'.fdTable i = some node ∧
      ∀ a ∈ s.kernel.procs, s'.fds a = if a = c then (s.fds c).set d.val
        (some { globalFd := i, offset := 0, flags := regs.ecx.toUInt8 }) d.isLt else s.fds a := by
  obtain ⟨t, i, halloc, hnode⟩ :
      ∃ t i, procAllocFd s.fdTable (s.fds c) node regs.ecx.toUInt8 = .ok (t,
        (s.fds c).set d.val
          (some { globalFd := i, offset := 0, flags := regs.ecx.toUInt8 }) d.isLt,
        UInt32.ofNat d.val) ∧ fdNode t i = some node := procAllocFd_opens hfree
  have hcall : s.fileCall c regs env e = .ok (t, (s.fds c).set d.val
      (some { globalFd := i, offset := 0, flags := regs.ecx.toUInt8 }) d.isLt,
      some (UInt32.ofNat d.val)) := by
    rw [fileCall, if_pos hnum]
    simp only [syscallOpen, hopened, halloc, ok_bind]
    rfl
  obtain ⟨s', hstep, heax, rfl, hfds⟩ := step_call hk hcur hevent (.inl hnum) hcall
  exact ⟨s', i, hstep, heax, hnode, hfds⟩

/-- A call that gets to its file returns, with the count in EAX. -/
theorem step_access {lost : Nat → Nat} (hk : s.kernel.Inv) (hs : s.Accounted lost)
    (hcur : s.kernel.currentProc = some c) (hevent : e.event = .syscall regs env)
    (hnum : regs.eax = sysReadFile ∨ regs.eax = sysWriteFile)
    (hcall : s.fileCall c regs env e = do
      let (n, _) ← procFdAccess allowed s.fdTable (s.fds c) regs.ebx e.moved
      pure (s.fdTable, s.fds c, some n))
    (haccessed : accessed allowed (s.fds c) regs.ebx = some i) :
    ∃ s', s.step e = .ok s' ∧ (s'.kernel.heap c).map (fun p => p.frame.eax) = some e.moved := by
  obtain ⟨p, hp, -⟩ := hk.wf.current hcur
  have hc : c ∈ s.kernel.procs := (hk.wf.shape.mem_procs c).2 ⟨p, hp⟩
  have hlt : regs.ebx.toNat < maxFds := by
    by_contra hout
    rw [accessed, dif_neg hout] at haccessed
    cases haccessed
  obtain ⟨r, hr⟩ : ∃ r, procFdAccess allowed s.fdTable (s.fds c) regs.ebx e.moved = .ok r :=
    procFdAccess_ok (hs.backed hc) hlt
  obtain rfl : r = (e.moved, 0) := by
    rw [procFdAccess_eq hr, haccessed]
    rfl
  rw [hr, ok_bind] at hcall
  obtain ⟨s', hstep, heax, -⟩ := step_call hk hcur hevent (.inr hnum) hcall
  exact ⟨s', hstep, heax⟩

/-- A descriptor stays as it is until its process closes it. -/
theorem fileCall_fds {v : Fin maxFds} {pfe : ProcFdEntry}
    (h : s.fileCall c regs env e = .ok (t, fds, eax)) (hv : (s.fds c).get v = some pfe)
    (hopen : ¬ (regs.eax = sysClose ∧ regs.ebx.toNat = v.val)) : fds.get v = some pfe := by
  rw [fileCall] at h
  split at h
  · unfold syscallOpen at h
    cases hopened : e.opened with
    | none =>
      simp only [hopened, pure_eq_ok, Prod.mk.injEq] at h
      exact h.2.1 ▸ hv
    | some file =>
      simp only [hopened, bind_eq_ok, pure_eq_ok, Prod.mk.injEq, Prod.exists] at h
      obtain ⟨t₁, fds₁, fd, halloc, -, rfl, -⟩ := h
      exact procAllocFd_kept halloc hv
  split at h
  · rename_i hnum
    unfold syscallClose at h
    split at h
    · simp only [pure_eq_ok, Prod.mk.injEq] at h
      exact h.2.1 ▸ hv
    · simp only [bind_eq_ok, pure_eq_ok, Prod.mk.injEq, Prod.exists] at h
      obtain ⟨t₁, fds₁, hclose, -, rfl, -⟩ := h
      exact procCloseFd_kept hclose hv fun heq => hopen ⟨hnum, heq⟩
  split at h
  · simp only [syscallReadFile, bind_eq_ok, pure_eq_ok, Prod.mk.injEq] at h
    obtain ⟨-, -, -, rfl, -⟩ := h
    exact hv
  split at h
  · simp only [syscallWriteFile, bind_eq_ok, pure_eq_ok, Prod.mk.injEq] at h
    obtain ⟨-, -, -, rfl, -⟩ := h
    exact hv
  · simp only [pure_eq_ok, Prod.mk.injEq] at h
    exact h.2.1 ▸ hv

/-- The event closes the descriptor of the process. -/
def Closes (s : Files) (e : FileEvent) (a : ProcPtr) (v : Fin maxFds) : Prop :=
  ∃ regs env, s.kernel.currentProc = some a ∧ e.event = .syscall regs env ∧
    regs.eax = sysClose ∧ regs.ebx.toNat = v.val

theorem step_fds {a : ProcPtr} {v : Fin maxFds} {pfe : ProcFdEntry} (hk : s.kernel.Inv)
    (ha : a ∈ s.kernel.procs) (h : s.step e = .ok s') (hv : (s.fds a).get v = some pfe)
    (hopen : ¬ s.Closes e a v) : (s'.fds a).get v = some pfe := by
  simp only [step, bind_eq_ok, pure_eq_ok, Prod.exists] at h
  obtain ⟨s₁, event, hfile, k, -, rfl⟩ := h
  rw [filePart] at hfile
  split at hfile
  · rename_i c regs env hcur hevent
    simp only [bind_eq_ok, pure_eq_ok, Prod.mk.injEq, Prod.exists] at hfile
    obtain ⟨t, fds, ret, hcall, rfl, -⟩ := hfile
    rw [turnover_fds (s := s.setFds t c fds) hk ha]
    show (if a = c then fds else s.fds a).get v = _
    split_ifs with hac
    · subst hac
      exact fileCall_fds hcall hv fun hclose => hopen ⟨regs, env, hcur, hevent, hclose⟩
    · exact hv
  · simp only [pure_eq_ok, Prod.mk.injEq] at hfile
    obtain ⟨rfl, -⟩ := hfile
    rw [turnover_fds hk ha]
    exact hv

/-- Only the event that reaps a process ends it. -/
theorem step_procs {a : ProcPtr} {lost : Nat → Nat} (hk : s.kernel.Inv) (hs : s.Accounted lost)
    (h : s.step e = .ok s') (ha : a ∈ s.kernel.procs) (hlive : s.kernel.reaped e.event ≠ some a) :
    a ∈ s'.kernel.procs := by
  simp only [step, bind_eq_ok, pure_eq_ok, Prod.exists] at h
  obtain ⟨s₁, event, hfile, k, hstep, rfl⟩ := h
  obtain ⟨hkernel, hreaped, -, -⟩ := filePart_spec hk hs hfile
  rw [hkernel] at hstep
  show a ∈ k.procs
  rcases hk.procs hstep with ⟨b, hb, hperm⟩ | ⟨-, hperm | ⟨b, -, hperm⟩⟩
  · rw [hreaped] at hb
    have hne : a ≠ b := by
      rintro rfl
      exact hlive hb
    exact (List.mem_cons.1 (hperm.mem_iff.1 ha)).resolve_left hne
  · exact hperm.mem_iff.2 ha
  · exact hperm.mem_iff.2 (List.mem_cons_of_mem b ha)

end Files

end Kaku

-- SUMMARY: The memory of processes: creating, loading, growing, shrinking and destroying address spaces.
import Kaku.Mm.Paging
import Kaku.Mm.Heap

/-!
# Address spaces

The routines of `proc/src/proc.c`, `elf/src/elf.c` and `syscall/src/syscall.c`
that allocate, map, unmap and free frames. Of a `proc` object only the fields
they use are kept. Records and buffers that they put on the kernel heap are
values here.
-/

namespace Kaku

/-- `mmap_region`. -/
structure MmapRegion where
  base : Nat
  len : Nat
  deriving DecidableEq

/-- The fields of `proc` that describe its memory. -/
structure ProcMem where
  procId : Nat
  /-- The frame behind `proc_pd`. -/
  procPd : Nat
  /-- An address in the frame of the kernel stack. -/
  kernelStack : Nat
  programBreak : Nat := 0
  mmapNext : Nat := 0
  mmapRegions : List MmapRegion := []
  /-- The file the process was loaded from (a history variable). -/
  elf : Mem := fun _ => 0

/-! ## Pages -/

/-- A page to be mapped with a new frame, and what is copied into the frame. -/
structure NewPage where
  vaddr : Nat
  content : Option Mem := none

/-- The addresses of `pages` pages from an address on. -/
def pageRange (vaddr pages : Nat) : List Nat :=
  (List.range pages).map fun i => addr32 (vaddr + i * 4096)

/-- `(a + 0xFFF) & ~0xFFFu`. -/
def roundUp (a : Nat) : Nat := addr32 (a + 0xFFF) / 4096 * 4096

namespace Memory

/-- The body of the loops of `proc_create`, `elf_load`, `__syscall_sbrk` and `__syscall_mmap`. -/
def mapPage (m : Memory) (pd : Nat) (page : NewPage) : K Memory := do
  let (m, frame) ← m.faAlloc
  let m ← m.pagingMap pd frame page.vaddr procUserFlags
  match page.content with
  | none => pure m
  | some src =>
    let dst ← direct frame
    pure (m.fill dst 0 4096 src)

def mapPages (m : Memory) (pd : Nat) : List NewPage → K Memory
  | [] => pure m
  | page :: pages => do
    let m ← m.mapPage pd page
    m.mapPages pd pages

/-- The body of the loop of `__syscall_unmap_pages`. -/
def unmapPage (m : Memory) (pd addr : Nat) : K Memory := do
  let pde := m.entry pd (addr / 2 ^ 22)
  if present pde then
    let pt ← direct (frameOf pde)
    let pte := m.entry pt (addr / 2 ^ 12 % 1024)
    if present pte then
      let m ← m.faFree (frameOf pte)
      pure (m.setEntry pt (addr / 2 ^ 12 % 1024) 0)
    else pure m
  else pure m

/-- `__syscall_unmap_pages`, on the addresses of the pages. -/
def syscallUnmapPages (m : Memory) (pd : Nat) : List Nat → K Memory
  | [] => pure m
  | addr :: addrs => do
    let m ← m.unmapPage pd addr
    m.syscallUnmapPages pd addrs

end Memory

/-! ## `proc_create` -/

/-- `proc_registers_state` as `proc_create` fills it in, word by word. -/
def createContext (entry : Nat) : List Nat :=
  [0, 0, 0, 0, 0, 0, 0, 0, entry, 0x1B, 0x202, 0x8000000, 0x23]

/-- Words as the bytes that `kmemcpy` moves. -/
def wordsAsBytes (ws : List Nat) : Mem := fun k => UInt8.ofNat (ws.getD (k / 4) 0 / 256 ^ (k % 4))

/-- `PHYS_TO_VIRT(ks_phys) + 4096 - sizeof(proc_registers_state)`. -/
def kernelStackAddr (frame : Nat) : Nat :=
  addr32 (frame * 4096 + kernelVirtBaseAddr + 4096 + (2 ^ 32 - 52))

/-- The frame of `VIRT_TO_PHYS(p->kernel_stack + sizeof(proc_registers_state) - 4096)`. -/
def ProcMem.kernelStackFrame (p : ProcMem) : Nat :=
  addr32 (p.kernelStack + 52 + (2 ^ 32 - 4096) + (2 ^ 32 - kernelVirtBaseAddr)) / 4096

def userStackPages : List NewPage :=
  (List.range 4).map fun i => { vaddr := 0x8000000 - (i + 1) * 4096 }

/-- The object before any user page is mapped: page directory and kernel stack. -/
def procObject (m : Memory) (pidCounter entry : Nat) : K (Memory × ProcMem) := do
  let (m, pd) ← m.pagingCreatePd
  let (m, ksPhys) ← m.faAlloc
  let ks ← direct ksPhys
  let m := m.fill ks (4096 - 52) 52 (wordsAsBytes (createContext entry))
  pure (m, { procId := pidCounter, procPd := pd, kernelStack := kernelStackAddr ks })

def procCreate (m : Memory) (pidCounter entry : Nat) : K (Memory × ProcMem) := do
  if pidCounter = 0 then
    .error (.panic "tried to create a process before kernel idle process was created\n")
  let (m, p) ← procObject m pidCounter entry
  let m ← m.mapPages p.procPd userStackPages
  pure (m, p)

/-! ## `elf_load` -/

/-- The fields of `elf_program_header` that are read. -/
structure ElfProgramHeader where
  segtype : Nat
  pOffset : Nat
  pVaddr : Nat
  pFilesz : Nat
  pMemsz : Nat

def elfMagic : Nat := 0x464C457F

/-- The `i`-th entry of the program header table. The offset of the table, the
size of an entry and the number of entries are in the ELF header. -/
def elfProgramHeader (elf : Mem) (i : Nat) : ElfProgramHeader :=
  let a := addr32 (elf.load 28 4 + i * elf.load 42 2)
  { segtype := elf.load a 4
    pOffset := elf.load (a + 4) 4
    pVaddr := elf.load (a + 8) 4
    pFilesz := elf.load (a + 16) 4
    pMemsz := elf.load (a + 20) 4 }

/-- The headers of type `ELFPH_SEGTYPE_LOAD`, in the order of the table. -/
def loadHeaders (elf : Mem) : List ElfProgramHeader :=
  ((List.range (elf.load 44 2)).map (elfProgramHeader elf)).filter fun ph => ph.segtype = 1

/-- What is copied into the frame of a segment's `j`-th page: the file's bytes as
far as they go, and zeros. -/
def segmentBytes (elf : Mem) (ph : ElfProgramHeader) (j : Nat) : Mem :=
  let toCopy := min (ph.pFilesz - j * 4096) 4096
  fun k => if k < toCopy then elf (addr32 (ph.pOffset + j * 4096) + k) else 0

def segmentPages (elf : Mem) (ph : ElfProgramHeader) : List NewPage :=
  (List.range (addr32 (ph.pMemsz + 0xFFF) / 4096)).map fun j =>
    { vaddr := addr32 (ph.pVaddr + j * 4096), content := some (segmentBytes elf ph j) }

def imagePages (elf : Mem) : List NewPage := (loadHeaders elf).flatMap (segmentPages elf)

def imageEnd (elf : Mem) : Nat :=
  (loadHeaders elf).foldl (fun imageEnd ph => max imageEnd (addr32 (ph.pVaddr + ph.pMemsz))) 0

/-- The bytes from the file's buffer on, or nothing when `vfs_open` failed. -/
def elfLoad (m : Memory) (pidCounter : Nat) : Option Mem → K (Memory × Option ProcMem)
  | none => pure (m, none)
  | some elf =>
    if elf.load 0 4 ≠ elfMagic then pure (m, none)
    else do
      let (m, p) ← procCreate m pidCounter (elf.load 24 4)
      let m ← m.mapPages p.procPd (imagePages elf)
      pure (m, some { p with
        programBreak := roundUp (imageEnd elf)
        mmapNext := 0x7000000
        elf := elf })

/-! ## System calls

Each returns the value it leaves in EAX. -/

def newBreak (oldBreak increment : Nat) : Nat :=
  if 2 ^ 31 ≤ increment then
    let dec := 2 ^ 32 - increment
    if dec > oldBreak then 0 else oldBreak - dec
  else addr32 (oldBreak + increment)

/-- The pages by which a `SYS_SBRK` that grows the area grows it. -/
def sbrkPages (p : ProcMem) (increment : Nat) : List NewPage :=
  let oldPage := roundUp p.programBreak
  let newPage := roundUp (newBreak p.programBreak increment)
  (pageRange oldPage ((newPage - oldPage) / 4096)).map fun vaddr => { vaddr }

def syscallSbrk (m : Memory) (p : ProcMem) (increment : Nat) : K (Memory × ProcMem × Nat) := do
  let oldPage := roundUp p.programBreak
  let newPage := roundUp (newBreak p.programBreak increment)
  let m ←
    if newPage > oldPage then m.mapPages p.procPd (sbrkPages p increment)
    else m.syscallUnmapPages p.procPd (pageRange newPage ((oldPage - newPage) / 4096))
  pure (m, { p with programBreak := newBreak p.programBreak increment }, p.programBreak)

def mmapPageCount (size : Nat) : Nat := addr32 (size + 0xFFF) / 4096

def mmapPages (p : ProcMem) (size : Nat) : List NewPage :=
  (pageRange p.mmapNext (mmapPageCount size)).map fun vaddr => { vaddr }

def syscallMmap (m : Memory) (p : ProcMem) (size : Nat) : K (Memory × ProcMem × Nat) := do
  let m ← m.mapPages p.procPd (mmapPages p size)
  let len := addr32 (mmapPageCount size * 4096)
  pure (m, { p with
    mmapRegions := p.mmapRegions ++ [⟨p.mmapNext, len⟩]
    mmapNext := addr32 (p.mmapNext + len) }, p.mmapNext)

def syscallMunmap (m : Memory) (p : ProcMem) (addr : Nat) : K (Memory × ProcMem × Nat) :=
  match p.mmapRegions.find? fun r => r.base = addr with
  | none => pure (m, p, 0xFFFFFFFF)
  | some r => do
    let m ← m.syscallUnmapPages p.procPd (pageRange addr (r.len / 4096))
    pure (m, { p with mmapRegions := p.mmapRegions.eraseP fun r => r.base = addr }, 0)

/-! ## `proc_destroy` -/

namespace Memory

def freePages (m : Memory) (pt : Nat) : (ptIndex left : Nat) → K Memory
  | _, 0 => pure m
  | ptIndex, left + 1 => do
    let pte := m.entry pt ptIndex
    let m ← if present pte then m.faFree (frameOf pte) else pure m
    m.freePages pt (ptIndex + 1) left

def freeTables (m : Memory) (pd : Nat) : (pdIndex left : Nat) → K Memory
  | _, 0 => pure m
  | pdIndex, left + 1 => do
    let pde := m.entry pd pdIndex
    let m ←
      if present pde then do
        let pt ← direct (frameOf pde)
        let m ← m.freePages pt 0 1024
        m.faFree (frameOf pde)
      else pure m
    m.freeTables pd (pdIndex + 1) left

end Memory

def procDestroy (m : Memory) (p : ProcMem) : K Memory := do
  let m ← m.faFree p.kernelStackFrame
  let m ← m.freeTables p.procPd 0 768
  m.faFree p.procPd

/-! ## The system -/

/-- What happens to the memory of processes. -/
inductive SpaceEvent
  /-- `elf_load` of a file, by the kernel at boot or for `SYS_EXEC`. -/
  | exec (file : Option Mem)
  | sbrk (p increment : Nat)
  | mmap (p size : Nat)
  | munmap (p addr : Nat)
  /-- The process writes a byte. -/
  | store (p addr : Nat) (byte : UInt8)
  /-- The kernel runs on the process's kernel stack, and leaves any bytes there. -/
  | trap (p : Nat) (stack : Mem)
  /-- `proc_destroy`. -/
  | reap (p : Nat)

structure System where
  mem : Memory
  procs : Nat → Option ProcMem
  pidCounter : Nat

namespace System

def deref (s : System) (p : Nat) : K ProcMem :=
  match s.procs p with
  | some o => .ok o
  | none => .error .wild

@[simp] theorem deref_eq_ok {s : System} {p : Nat} {o : ProcMem} :
    s.deref p = .ok o ↔ s.procs p = some o := by
  unfold deref
  cases s.procs p <;> simp

/-- The memory as it is when the kernel starts to work for a process. -/
def memFor (s : System) (p : Nat) : Memory := { s.mem with client := p }

def update (s : System) (m : Memory) (p : Nat) (o : Option ProcMem) : System :=
  { s with mem := m, procs := Function.update s.procs p o }

end System

/-- The frame a user access to an address goes to. The kernel half of the address
space is mapped without the user flag. -/
def userFrame (m : Memory) (p : ProcMem) (addr : Nat) : Option Nat :=
  let pde := m.entry p.procPd (addr / 2 ^ 22)
  let pte := m.entry (frameOf pde) (addr / 2 ^ 12 % 1024)
  if addr < kernelVirtBaseAddr ∧ pde % 8 = 7 ∧ pte % 8 = 7 then some (frameOf pte) else none

def System.step (s : System) : SpaceEvent → K System
  | .exec file => do
    let (m, p) ← elfLoad (s.memFor s.pidCounter) s.pidCounter file
    match p with
    | none => pure { s with mem := m }
    | some p =>
      pure { s.update m p.procId (some p) with pidCounter := addr32 (s.pidCounter + 1) }
  | .sbrk p increment => do
    let o ← s.deref p
    let (m, o, _) ← syscallSbrk (s.memFor p) o increment
    pure (s.update m p (some o))
  | .mmap p size => do
    let o ← s.deref p
    let (m, o, _) ← syscallMmap (s.memFor p) o size
    pure (s.update m p (some o))
  | .munmap p addr => do
    let o ← s.deref p
    let (m, o, _) ← syscallMunmap (s.memFor p) o addr
    pure (s.update m p (some o))
  | .store p addr byte => do
    let o ← s.deref p
    match userFrame s.mem o addr with
    | none => .error (.panic "PAGE_FAULT")
    | some frame => pure { s with mem := s.mem.fill frame (addr % 4096) 1 fun _ => byte }
  | .trap p stack => do
    let o ← s.deref p
    pure { s with mem := s.mem.fill o.kernelStackFrame 0 4096 stack }
  | .reap p => do
    let o ← s.deref p
    let m ← procDestroy (s.memFor p) o
    pure (s.update m p none)

end Kaku

-- SUMMARY: The process table, the process objects it points to, and the other kernel variables that scheduling reads and writes.
import Mathlib.Data.UInt
import Kaku.Fault

/-!
# Processes and the kernel state around them

`proc` objects live on the kernel heap and are named by pointers; `procs` is the
scheduler's array of such pointers. A pointer is modelled by the pid of the
object it was allocated for. Pids are never handed out twice (`proc_create`
panics once its counter has wrapped), so a pointer kept after `proc_destroy`
stays recognisable as a dangling one instead of aliasing a younger process.
-/

namespace Kaku

/-! ## Process objects -/

/-- `proc_state`. `starting` is a process whose arguments are still in kernel
memory because the scheduler has not taken it yet. -/
inductive ProcState
  | running | ready | blocked | zombie | starting
  deriving DecidableEq, Repr

/-- `proc_registers_state`: the trap frame at the top of the kernel stack. -/
structure Registers where
  edi : UInt32 := 0
  esi : UInt32 := 0
  ebp : UInt32 := 0
  esp : UInt32 := 0
  ebx : UInt32 := 0
  edx : UInt32 := 0
  ecx : UInt32 := 0
  eax : UInt32 := 0
  eip : UInt32 := 0
  cs : UInt32 := 0
  eflags : UInt32 := 0
  userEsp : UInt32 := 0
  userSs : UInt32 := 0
  deriving DecidableEq

def kernelVirtBase : UInt32 := 0xC0000000
def procUserStackTopVaddr : UInt32 := 0x8000000

/-- The user half of an address space: which pages are mapped, and the bytes. -/
structure UserSpace where
  mapped : UInt32 → Bool
  byte : UInt32 → UInt8

namespace UserSpace

def store (u : UserSpace) (addr : UInt32) (b : UInt8) : UserSpace :=
  { u with byte := fun a => if a = addr then b else u.byte a }

/-- `kmemcpy` with a destination in the address space that is switched in. -/
def kmemcpy (u : UserSpace) (dst : UInt32) : List UInt8 → K UserSpace
  | [] => .ok u
  | b :: bs =>
    if kernelVirtBase ≤ dst then .error .wild
    else if u.mapped (dst >>> 12) then kmemcpy (u.store dst b) (dst + 1) bs
    else .error (.panic "PAGE_FAULT")

end UserSpace

/-- A word as the bytes `kmemcpy` moves for it. -/
def wordBytes (w : UInt32) : List UInt8 :=
  [w.toUInt8, (w >>> 8).toUInt8, (w >>> 16).toUInt8, (w >>> 24).toUInt8]

/-- `proc`. The saved trap frame stands for the memory behind `kernel_stack`:
`tss.esp0` is set to the end of that frame at every dispatch, so every entry
from user mode pushes its frame at the same place. -/
structure Proc where
  procId : UInt32
  frame : Registers
  space : UserSpace
  procState : ProcState
  stdinUserBuf : UInt32 := 0
  stdinUserBufSize : UInt32 := 0
  /-- Whether `stdin_kernel_buf` points at `__stdin_buf` or is null. -/
  stdinKernelBuf : Bool := false
  stdinKernelBufLen : Nat := 0
  argv : List (List UInt8) := []
  env : List (List UInt8) := []
  parentPid : UInt32
  exitCode : UInt32 := 0
  waitingFor : UInt32 := 0

/-- The states `pick_next_ready_proc` passes over. -/
def Proc.skipped (p : Proc) : Bool :=
  p.procState == .blocked || p.procState == .zombie

theorem Proc.skipped_iff {p : Proc} :
    p.skipped = true ↔ p.procState = .blocked ∨ p.procState = .zombie := by
  simp [Proc.skipped]

/-! ## Kernel state -/

abbrev ProcPtr := UInt32

/-- `stdin_waiting_proc`. -/
structure StdinWaitingProc where
  p : ProcPtr
  buf : UInt32
  bufSize : UInt32
  deriving DecidableEq

structure Kernel where
  procs : List ProcPtr
  heap : ProcPtr → Option Proc
  procsHead : Nat
  currentProc : Option ProcPtr
  pidCounter : UInt32
  stdinBuf : Nat → UInt8
  stdinBufLen : Nat
  waitingStdin : Option StdinWaitingProc
  /-- The process whose page directory is in CR3, `none` for the kernel's own. -/
  cr3 : Option ProcPtr
  /-- The process whose kernel stack the TSS points at. -/
  esp0 : Option ProcPtr
  /-- Every `proc_destroy` so far, in order. -/
  destroyed : List ProcPtr

/-- Which frame an interrupt stub pops: the one it pushed, that of a process, or
the idle process's. -/
inductive Resume
  | regs
  | proc (p : ProcPtr)
  | idle
  deriving DecidableEq, Repr

namespace Kernel

def deref (k : Kernel) (p : ProcPtr) : K Proc :=
  match k.heap p with
  | some o => .ok o
  | none => .error .wild

/-- Overwrite the object behind a pointer. -/
def set (k : Kernel) (p : ProcPtr) (o : Proc) : Kernel :=
  { k with heap := fun a => if a = p then some o else k.heap a }

@[simp] theorem deref_eq_ok {k : Kernel} {p : ProcPtr} {o : Proc} :
    k.deref p = .ok o ↔ k.heap p = some o := by
  unfold deref
  cases k.heap p <;> simp

section SetFields
variable (k : Kernel) (p : ProcPtr) (o : Proc)

@[simp] theorem set_procs : (k.set p o).procs = k.procs := rfl
@[simp] theorem set_procsHead : (k.set p o).procsHead = k.procsHead := rfl
@[simp] theorem set_currentProc : (k.set p o).currentProc = k.currentProc := rfl
@[simp] theorem set_pidCounter : (k.set p o).pidCounter = k.pidCounter := rfl
@[simp] theorem set_stdinBufLen : (k.set p o).stdinBufLen = k.stdinBufLen := rfl
@[simp] theorem set_waitingStdin : (k.set p o).waitingStdin = k.waitingStdin := rfl
@[simp] theorem set_destroyed : (k.set p o).destroyed = k.destroyed := rfl
@[simp] theorem set_heap (a : ProcPtr) :
    (k.set p o).heap a = if a = p then some o else k.heap a := rfl

end SetFields

end Kernel

end Kaku

-- SUMMARY: Keyboard input, process creation, the system calls and the page-fault handler: the events that move the process table.
import Kaku.Proc.Sched

/-!
# The events of the kernel

`tty/src/stdin.c` and `dev/src/kb.c` (the line buffer and the keyboard
interrupt), the part of `proc_create` and `elf_load` that touches the process
table, the system calls of `syscall/src/syscall.c`, and the page-fault handler of
`hw/src/idt.c`. Interrupt gates keep interrupts off while a handler runs, so one
event is one step.
-/

namespace Kaku

def stdinBufMax : Nat := 512

/-- `kb_map`, from scancode `0x00` to `0x53`; the rest of its 128 entries are 0. -/
def kbMapTable : List Char :=
  ['\x00', '\x00', '1', '2', '3', '4', '5', '6', '7', '8', '9', '0', '-', '=', '\x08', '\t',
   'q', 'w', 'e', 'r', 't', 'y', 'u', 'i', 'o', 'p', '[', ']', '\n', '\x00',
   'a', 's', 'd', 'f', 'g', 'h', 'j', 'k', 'l', ';', '\'', '`', '\x00', '\\',
   'z', 'x', 'c', 'v', 'b', 'n', 'm', ',', '.', '/', '\x00', '*', '\x00', ' ', '\x00',
   '\x00', '\x00', '\x00', '\x00', '\x00', '\x00', '\x00', '\x00', '\x00', '\x00', '\x00', '\x00',
   '7', '8', '9', '-', '4', '5', '6', '+', '1', '2', '3', '0', '.']

def kbMap (scancode : UInt8) : UInt8 :=
  (kbMapTable.getD scancode.toNat '\x00').toNat.toUInt8

namespace Kernel

/-! ## Standard input -/

def stdinWait (k : Kernel) (p : ProcPtr) (buf size : UInt32) : Kernel :=
  { k with waitingStdin := some { p := p, buf := buf, bufSize := size } }

def stdinPut (k : Kernel) (c : UInt8) : Kernel :=
  if stdinBufMax ≤ k.stdinBufLen + 1 then k
  else { k with
    stdinBuf := fun i => if i = k.stdinBufLen then c else k.stdinBuf i
    stdinBufLen := k.stdinBufLen + 1 }

def stdinPop (k : Kernel) : Kernel :=
  if k.stdinBufLen = 0 then k else { k with stdinBufLen := k.stdinBufLen - 1 }

def stdinFlush (k : Kernel) : K Kernel :=
  match k.waitingStdin with
  | none => pure k
  | some w => do
    let k ← k.schedulerWakeStdin w.p k.stdinBufLen
    pure { k with stdinBufLen := 0, waitingStdin := none }

def kbHandleInterrupt (k : Kernel) (scancode : UInt8) : K Kernel :=
  if 0x80 ≤ scancode then pure k
  else if scancode = 0x0E then pure k.stdinPop
  else if scancode = 0x1C then k.stdinFlush
  else if scancode = 0x00 then pure k
  else
    let c := kbMap scancode
    if c ≠ 0 then pure (k.stdinPut c) else pure k

end Kernel

/-! ## Creating processes -/

/-- What `elf_load` finds at the path it is given, and the argument and
environment strings it copies. -/
structure Image where
  entry : UInt32
  space : UserSpace
  argv : List (List UInt8)
  env : List (List UInt8)

namespace Kernel

/-- The parent of a process being created: whoever is executing, if anybody is. -/
def currentPid (k : Kernel) : K UInt32 :=
  match k.currentProc with
  | some c => do
    let p ← k.deref c
    pure p.procId
  | none => pure 0

/-- `proc_create`, short of its page directory and stacks. -/
def procCreate (k : Kernel) (entry : UInt32) (space : UserSpace) : K (Kernel × ProcPtr) := do
  if k.pidCounter = 0 then
    .error (.panic "tried to create a process before kernel idle process was created\n")
  else do
    let parentPid ← k.currentPid
    let p : Proc :=
      { procId := k.pidCounter
        frame :=
          { eip := entry, cs := 0x1B, eflags := 0x202
            userEsp := procUserStackTopVaddr, userSs := 0x23 }
        space := space
        procState := .ready
        parentPid := parentPid }
    pure ({ k with pidCounter := k.pidCounter + 1 }.set k.pidCounter p, k.pidCounter)

/-- `elf_load` returns the new pid, or -1. -/
def elfLoad (k : Kernel) (image : Option Image) : K (Kernel × UInt32) :=
  match image with
  | none => pure (k, 0xFFFFFFFF)
  | some img => do
    let (k, a) ← k.procCreate img.entry img.space
    let p ← k.deref a
    let k := k.set a { p with argv := img.argv, env := img.env, procState := .starting }
    pure ({ k with procs := k.procs ++ [a] }, p.procId)

/-! ## System calls

Each takes the calling process; its trap frame has been pushed already. -/

def setEax (k : Kernel) (a : ProcPtr) (v : UInt32) : K Kernel := do
  let p ← k.deref a
  pure (k.set a { p with frame := { p.frame with eax := v } })

def syscallRead (k : Kernel) (a : ProcPtr) : K Kernel := do
  let p ← k.deref a
  let buf := p.frame.ebx
  let size := p.frame.ecx
  let k := k.set a { p with procState := .blocked, stdinUserBuf := buf, stdinUserBufSize := size }
  pure (k.stdinWait a buf size)

def syscallExit (k : Kernel) (a : ProcPtr) : K Kernel := do
  let p ← k.deref a
  let k := k.set a { p with procState := .zombie, exitCode := p.frame.ebx }
  k.schedulerNotifyParent a

def syscallExec (k : Kernel) (a : ProcPtr) (image : Option Image) : K Kernel := do
  let (k, pid) ← k.elfLoad image
  k.setEax a pid

/-- The offset of `proc_state` in `proc`. -/
def procStateOffset : UInt32 := 0x44

/-- `__syscall_kill` does not check what `scheduler_get_proc` returned: for an
unknown pid the store goes to the caller's page 0. -/
def syscallKill (k : Kernel) (a : ProcPtr) : K Kernel := do
  let p ← k.deref a
  match ← k.schedulerGetProc p.frame.ebx with
  | some b => do
    let q ← k.deref b
    pure (k.set b { q with procState := .zombie })
  | none => do
    let u ← p.space.kmemcpy procStateOffset (wordBytes 3)
    pure (k.set a { p with space := u })

def syscallWaitpid (k : Kernel) (a : ProcPtr) : K Kernel := do
  let p ← k.deref a
  let childPid := p.frame.ebx
  match ← k.schedulerGetProc childPid with
  | none => k.setEax a 0xFFFFFFFF
  | some b => do
    let child ← k.deref b
    if child.parentPid ≠ p.procId then k.setEax a 0xFFFFFFFE
    else if child.procState = .zombie then do
      let (k, exitCode) ← k.schedulerReapChild childPid
      k.setEax a exitCode
    else pure (k.set a { p with procState := .blocked, waitingFor := childPid })

def syscallGetpid (k : Kernel) (a : ProcPtr) : K Kernel := do
  let p ← k.deref a
  k.setEax a p.procId

end Kernel

/-! ## Events -/

/-- What a system call gets from the rest of the kernel: the program behind
the path of `SYS_EXEC`, and the value the calls on files and memory leave in
EAX. -/
structure SyscallEnv where
  image : Option Image := none
  ret : Option UInt32 := none

/-- An interrupt. Entries from user mode carry the registers they interrupt. -/
inductive Event
  | syscall (regs : Registers) (env : SyscallEnv)
  | pageFault (regs : Registers)
  | key (scancode : UInt8)
  | timer (regs : Registers)

def sysRead : UInt32 := 0x2
def sysExit : UInt32 := 0x7
def sysExec : UInt32 := 0x8
def sysKill : UInt32 := 0x9
def sysWaitpid : UInt32 := 0xa
def sysGetpid : UInt32 := 0xf

namespace Event

/-- Whether the event is a `SYS_READ`. -/
def reads : Event → Bool
  | .syscall regs _ => regs.eax == sysRead
  | _ => false

/-- The pid a `SYS_KILL` names. -/
def kills : Event → Option UInt32
  | .syscall regs _ => if regs.eax = sysKill then some regs.ebx else none
  | _ => none

def exits : Event → Bool
  | .syscall regs _ => regs.eax == sysExit
  | _ => false

/-- `SYS_EXEC`, `SYS_EXIT`, `SYS_WAITPID` or a timer tick. -/
def waiting : Event → Bool
  | .syscall regs _ => regs.eax == sysExec || regs.eax == sysExit || regs.eax == sysWaitpid
  | .timer _ => true
  | _ => false

end Event

namespace Kernel

/-- Push the frame of an interrupt taken in user mode. -/
def pushFrame (k : Kernel) (regs : Registers) : K Kernel :=
  match k.currentProc with
  | none => pure k
  | some c => do
    let p ← k.deref c
    pure (k.set c { p with frame := regs })

/-- The `switch` of `syscall_handler`. -/
def syscallBody (k : Kernel) (c : ProcPtr) (num : UInt32) (env : SyscallEnv) : K Kernel :=
  if num = sysRead then k.syscallRead c
  else if num = sysExit then k.syscallExit c
  else if num = sysExec then k.syscallExec c env.image
  else if num = sysKill then k.syscallKill c
  else if num = sysWaitpid then k.syscallWaitpid c
  else if num = sysGetpid then k.syscallGetpid c
  else
    match env.ret with
    | some v => k.setEax c v
    | none => pure k

def syscallHandler (k : Kernel) (regs : Registers) (env : SyscallEnv) : K (Kernel × Resume) :=
  match k.currentProc with
  | none => .error (.panic "had a syscall when no process was running")
  | some c => do
    let k ← k.pushFrame regs
    let k ← k.syscallBody c regs.eax env
    let p ← k.deref c
    if p.procState = .blocked ∨ p.procState = .zombie then k.schedulerCore
    else pure (k, .regs)

/-- What `page_fault_handler` does to the faulting process before it hands over
to the scheduler. -/
def markFaulted (k : Kernel) (c : ProcPtr) : K Kernel := do
  let p ← k.deref c
  let k := k.set c { p with procState := .zombie, exitCode := 139 }
  k.schedulerNotifyParent c

def pageFaultHandler (k : Kernel) (regs : Registers) : K (Kernel × Resume) :=
  match k.currentProc with
  | none => .error (.panic "PAGE_FAULT")
  | some c => do
    let k ← k.pushFrame regs
    let k ← k.markFaulted c
    k.schedulerOnSegfault

def step (k : Kernel) : Event → K Kernel
  | .syscall regs env => do
    let (k, _) ← k.syscallHandler regs env
    pure k
  | .pageFault regs => do
    let (k, _) ← k.pageFaultHandler regs
    pure k
  | .key scancode => k.kbHandleInterrupt scancode
  | .timer regs => do
    let k ← k.pushFrame regs
    let (k, _) ← k.schedulerCore
    pure k

/-- After `__kernel_init`: only the idle process, pid 0, has been created. -/
def init : Kernel where
  procs := []
  heap := fun _ => none
  procsHead := 0
  currentProc := none
  pidCounter := 1
  stdinBuf := fun _ => 0
  stdinBufLen := 0
  waitingStdin := none
  cr3 := none
  esp0 := none
  destroyed := []

/-- `kernel_main` loads `/bin/genkan` and then lets the timer take over. -/
def boot (genkan : Image) : K Kernel := do
  let (k, _) ← init.elfLoad (some genkan)
  pure k

end Kernel

end Kaku

-- SUMMARY: The scheduler: picking the next process, dispatching it, waking, notifying and reaping.
import Kaku.Proc.State

/-!
# `proc/src/sched.c`

Both dispatch sequences of the scheduler are translated, the one timer ticks and
blocking system calls go through and the one a user page fault goes through.
-/

namespace Kaku

/-! ## First dispatch of a process: the argument block -/

/-- Copy NUL-terminated strings downwards from `addr`; also returns where each went. -/
def pushStrings (u : UserSpace) (addr : UInt32) :
    List (List UInt8) → K (UserSpace × UInt32 × List UInt32)
  | [] => .ok (u, addr, [])
  | s :: ss => do
    let addr := addr - (UInt32.ofNat s.length + 1)
    let u ← u.kmemcpy addr (s ++ [0])
    let (u, low, ptrs) ← pushStrings u addr ss
    pure (u, low, addr :: ptrs)

/-- Copy words downwards from `addr`, in the order given. -/
def pushWords (u : UserSpace) (addr : UInt32) : List UInt32 → K (UserSpace × UInt32)
  | [] => .ok (u, addr)
  | w :: ws => do
    let addr := addr - 4
    let u ← u.kmemcpy addr (wordBytes w)
    pushWords u addr ws

/-- The `STARTING` branch of `__scheduler_core`: strings, then the
null-terminated `envp` array, then the null-terminated `argv` array below it. -/
def layoutArgs (p : Proc) : K Proc := do
  let (u, addr, argvPtrs) ← pushStrings p.space procUserStackTopVaddr p.argv
  let (u, addr, envPtrs) ← pushStrings u addr p.env
  let (u, addr) ← pushWords u addr (0 :: envPtrs.reverse)
  let (u, addr) ← pushWords u addr (0 :: argvPtrs.reverse)
  pure { p with
    space := u
    frame := { p.frame with userEsp := addr }
    procState := .ready }

namespace Kernel

/-! ## Choosing a process -/

/-- `left` bounds the iterations still allowed: `procs->count - tried`. -/
def pickLoop (k : Kernel) : (left head : Nat) → K (Nat × Option ProcPtr)
  | 0, head => .ok (head, none)
  | left + 1, head =>
    let head := (head + 1) % k.procs.length
    match k.procs[head]? with
    | none => .error .wild
    | some a => do
      let next ← k.deref a
      if next.skipped then pickLoop k left head else pure (head, some a)

def pickNextReadyProc (k : Kernel) : K (Kernel × Option ProcPtr) := do
  let (head, next) ← k.pickLoop k.procs.length k.procsHead
  pure ({ k with procsHead := head }, next)

def schedulerGetProcFrom (k : Kernel) (pid : UInt32) : List ProcPtr → K (Option ProcPtr)
  | [] => .ok none
  | a :: as => do
    let p ← k.deref a
    if p.procId = pid then pure (some a) else schedulerGetProcFrom k pid as

def schedulerGetProc (k : Kernel) (pid : UInt32) : K (Option ProcPtr) :=
  k.schedulerGetProcFrom pid k.procs

/-! ## Dispatch -/

/-- `__sched_flush_proc_bufs`: hand a finished line over to the process that
waited for it. -/
def schedFlushProcBufs (k : Kernel) (a : ProcPtr) : K Kernel := do
  let p ← k.deref a
  if p.stdinKernelBuf then do
    let line := (List.range p.stdinKernelBufLen).map k.stdinBuf
    let u ← p.space.kmemcpy p.stdinUserBuf line
    let u ← u.kmemcpy (p.stdinUserBuf + UInt32.ofNat p.stdinKernelBufLen) [0]
    pure (k.set a { p with space := u, stdinKernelBuf := false, stdinKernelBufLen := 0 })
  else pure k

/-- `tss_set_kernel_stack` and `mm_paging_switch` for the process about to run. -/
def switchTo (k : Kernel) (a : ProcPtr) : Kernel :=
  { k with currentProc := some a, esp0 := some a, cr3 := some a }

def switchToIdle (k : Kernel) : Kernel :=
  { k with currentProc := none, cr3 := none }

/-- `__scheduler_core` forgets a process that died while it was running. -/
def dropZombieCurrent (k : Kernel) : K Kernel :=
  match k.currentProc with
  | none => pure k
  | some c => do
    let p ← k.deref c
    if p.procState = .zombie then
      pure { k with currentProc := none, procsHead := k.procsHead % k.procs.length }
    else pure k

def schedulerCore (k : Kernel) : K (Kernel × Resume) :=
  if k.procs.length = 0 then pure (k, .regs)
  else do
    let k ← k.dropZombieCurrent
    let (k, next) ← k.pickNextReadyProc
    match next with
    | none => pure (k.switchToIdle, .idle)
    | some a => do
      let k ← (k.switchTo a).schedFlushProcBufs a
      let p ← k.deref a
      if p.procState = .starting then do
        let p ← layoutArgs p
        pure (k.set a p, .proc a)
      else pure (k, .proc a)

/-! ## Blocking partners -/

def schedulerNotifyParent (k : Kernel) (child : ProcPtr) : K Kernel := do
  let c ← k.deref child
  if c.parentPid = 0 then pure k
  else do
    match ← k.schedulerGetProc c.parentPid with
    | none => pure k
    | some a => do
      let p ← k.deref a
      if p.procState = .blocked ∧ p.waitingFor = c.procId then
        pure (k.set a { p with procState := .ready, waitingFor := 0 })
      else pure k

/-- `scheduler_wake_stdin`. Its length parameter is a `uint8_t`. -/
def schedulerWakeStdin (k : Kernel) (a : ProcPtr) (stdinBufLen : Nat) : K Kernel := do
  let p ← k.deref a
  pure (k.set a { p with
    stdinKernelBuf := true
    stdinKernelBufLen := stdinBufLen % 256
    procState := .ready })

/-- `proc_destroy` as the scheduler sees it: the object is freed. -/
def procDestroy (k : Kernel) (a : ProcPtr) : Kernel :=
  { k with
    heap := fun b => if b = a then none else k.heap b
    destroyed := k.destroyed ++ [a] }

/-- `scheduler_reap_child` returns the exit code, or -1. -/
def schedulerReapChild (k : Kernel) (childPid : UInt32) : K (Kernel × UInt32) := do
  match ← k.schedulerGetProc childPid with
  | none => pure (k, 0xFFFFFFFF)
  | some a => do
    let child ← k.deref a
    if child.procState ≠ .zombie then pure (k, 0xFFFFFFFF)
    else pure (({ k with procs := k.procs.erase a }).procDestroy a, child.exitCode)

/-! ## Dispatch after a fault -/

def schedulerOnSegfault (k : Kernel) : K (Kernel × Resume) :=
  if k.procs.length = 0 then pure (k, .regs)
  else do
    let k ← match k.currentProc with
      | none => .error .wild
      | some c => k.schedulerNotifyParent c
    let k := { k with currentProc := none }
    if k.procs.length = 0 then
      .error (.panic "all userspace process died, should not happen - halting")
    else do
      let k := { k with procsHead := k.procsHead % k.procs.length }
      let (k, next) ← k.pickNextReadyProc
      match next with
      | none => pure (k.switchToIdle, .idle)
      | some a => pure (k.switchTo a, .proc a)

end Kernel

end Kaku

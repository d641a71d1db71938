-- SUMMARY: The five system calls that take a descriptor or a pid: for which values they index inside the descriptor table and use no null pointer.
import Kaku.Fs.Files

/-!
# Bad descriptors and pids

`SYS_CLOSE`, `SYS_READ_FILE` and `SYS_WRITE_FILE` take a descriptor, `SYS_KILL` and
`SYS_WAITPID` a pid, and each has guards of its own, or none. The strict body of
a call counts every index past `p->fds` and every use of a null pointer as a
fault.
-/

namespace Kaku

namespace Kernel

variable {k k' : Kernel} {a c : ProcPtr} {p : Proc}

/-- `__syscall_kill`, with the store through a null pointer a fault; `syscallKill`
follows that store to page 0. -/
def syscallKillStrict (k : Kernel) (a : ProcPtr) : K Kernel := do
  let p ← k.deref a
  match ← k.schedulerGetProc p.frame.ebx with
  | some b => do
    let q ← k.deref b
    pure (k.set b { q with procState := .zombie })
  | none => .error .wild

theorem syscallKill_of_strict (h : k.syscallKillStrict a = .ok k') : k.syscallKill a = .ok k' := by
  simp only [syscallKillStrict, bind_eq_ok] at h
  obtain ⟨p, hp, found, hfound, h⟩ := h
  cases found with
  | none => cases h
  | some b =>
    simp only [syscallKill, hp, hfound, ok_bind]
    exact h

theorem set_set (k : Kernel) (a : ProcPtr) (p o : Proc) : (k.set a p).set a o = k.set a o := by
  simp only [set, mk.injEq, and_true, true_and]
  funext b
  split <;> rfl

theorem setEax_ok (hp : k.heap c = some p) (v : UInt32) :
    k.setEax c v = .ok (k.set c { p with frame := { p.frame with eax := v } }) := by
  simp [setEax, deref_eq_ok.2 hp, pure, Except.pure]

/-- `__syscall_waitpid` checks what `scheduler_get_proc` returned: it always gets
to its end. -/
theorem syscallWaitpid_ok (hk : k.Shape) (hp : k.heap c = some p) (hable : p.life.Able) :
    ∃ k', k.syscallWaitpid c = .ok k' := by
  simp only [syscallWaitpid, deref_eq_ok.2 hp, ok_bind]
  cases hb : k.heap p.frame.ebx with
  | none =>
    simp only [schedulerGetProc_none hk hb, ok_bind]
    exact ⟨_, setEax_ok hp _⟩
  | some b =>
    simp only [schedulerGetProc_some hk hb, ok_bind, deref_eq_ok.2 hb]
    split
    · exact ⟨_, setEax_ok hp _⟩
    split
    · rename_i hz
      have hne : c ≠ p.frame.ebx := fun heq => by
        rw [← heq, hp, Option.some.injEq] at hb
        exact hable.2 (hb ▸ hz)
      have hreap : k.schedulerReapChild p.frame.ebx = .ok
          (({ k with procs := k.procs.erase p.frame.ebx }).procDestroy p.frame.ebx, b.exitCode) := by
        simp [schedulerReapChild, schedulerGetProc_some hk hb, deref_eq_ok.2 hb, hz, pure,
          Except.pure]
      rw [hreap, ok_bind]
      have hstays : (({ k with procs := k.procs.erase p.frame.ebx }).procDestroy
          p.frame.ebx).heap c = some p := by
        simp [procDestroy, hne, hp]
      exact ⟨_, setEax_ok hstays _⟩
    · exact ⟨_, rfl⟩

end Kernel

/-! ## The table operations on bad values -/

section Table

variable {t : FdTable} {fds : Fds} {fd moved : UInt32} {allowed : UInt8}

/-- The value names a descriptor that is open. -/
def Fds.Open (fds : Fds) (fd : UInt32) : Prop :=
  ∃ (h : fd.toNat < maxFds) (pfe : ProcFdEntry), fds.get ⟨fd.toNat, h⟩ = some pfe

/-- The descriptors name entries that are there. -/
def Fds.Backed (fds : Fds) (t : FdTable) : Prop :=
  ∀ v pfe, fds.get v = some pfe → ∃ entry, fdGet t pfe.globalFd = some entry

theorem procFdAccess_ok (hfds : fds.Backed t) (hfd : fd.toNat < maxFds) :
    ∃ r, procFdAccess allowed t fds fd moved = .ok r := by
  simp only [procFdAccess, Fds.slot, hfd, dite_true]
  cases hslot : fds.get ⟨fd.toNat, hfd⟩ with
  | none => exact ⟨(0, 2), rfl⟩
  | some pfe =>
    obtain ⟨entry, hentry⟩ := hfds _ pfe hslot
    simp only [pure_bind, hentry]
    split
    · exact ⟨(0, 2), rfl⟩
    · exact ⟨(moved, 0), rfl⟩

theorem procFdAccess_closed (hfd : fd.toNat < maxFds) (hopen : ¬ fds.Open fd) :
    procFdAccess allowed t fds fd moved = .ok (0, 2) := by
  have hslot : fds.get ⟨fd.toNat, hfd⟩ = none :=
    Option.eq_none_iff_forall_ne_some.2 fun pfe h => hopen ⟨hfd, pfe, h⟩
  simp only [procFdAccess, Fds.slot, hfd, dite_true, hslot]
  rfl

theorem procFdAccess_wild (hfd : ¬ fd.toNat < maxFds) :
    procFdAccess allowed t fds fd moved = .error .wild := by
  simp only [procFdAccess, Fds.slot, hfd, dite_false]
  rfl

theorem procCloseFd_ok (hfds : fds.Backed t) (hopen : fds.Open fd) :
    ∃ r, procCloseFd t fds fd = .ok r := by
  obtain ⟨hfd, pfe, hslot⟩ := hopen
  obtain ⟨entry, hentry⟩ := hfds _ pfe hslot
  simp only [procCloseFd, Fds.slot, hfd, dite_true, hslot, pure_bind, hentry]
  exact ⟨_, rfl⟩

theorem procCloseFd_wild (hopen : ¬ fds.Open fd) : procCloseFd t fds fd = .error .wild := by
  by_cases hfd : fd.toNat < maxFds
  · have hslot : fds.get ⟨fd.toNat, hfd⟩ = none :=
      Option.eq_none_iff_forall_ne_some.2 fun pfe h => hopen ⟨hfd, pfe, h⟩
    simp only [procCloseFd, Fds.slot, hfd, dite_true, hslot]
    rfl
  · simp only [procCloseFd, Fds.slot, hfd, dite_false]
    rfl

end Table

/-! ## The calls -/

namespace Files

/-- The calls to which a process passes a descriptor or a pid. -/
def TakesValue (num : UInt32) : Prop :=
  num = sysClose ∨ num = sysReadFile ∨ num = sysWriteFile ∨ num = sysKill ∨ num = sysWaitpid

/-- The body of a call. -/
def strictBody (s : Files) (c : ProcPtr) (regs : Registers) (env : SyscallEnv) (e : FileEvent) :
    K Kernel := do
  let (_, _, ret) ← s.fileCall c regs env e
  let k ← s.kernel.pushFrame regs
  if regs.eax = sysKill then k.syscallKillStrict c
  else k.syscallBody c regs.eax { env with ret := ret }

/-- The value in EBX names a process, or an open descriptor of the caller. -/
def Names (s : Files) (c : ProcPtr) (regs : Registers) : Prop :=
  if regs.eax = sysKill ∨ regs.eax = sysWaitpid then regs.ebx ∈ s.kernel.procs
  else (s.fds c).Open regs.ebx

/-- The descriptor tables and the states of all processes are what they were. -/
structure Unchanged (s s' : Files) : Prop where
  fdTable : s'.fdTable = s.fdTable
  fds : ∀ a ∈ s.kernel.procs, s'.fds a = s.fds a
  states : ∀ a, (s'.kernel.heap a).map Proc.procState = (s.kernel.heap a).map Proc.procState

/-- The call stays inside `p->fds` and off null pointers, and it returns with
everything unchanged if its value names nothing. -/
def Rejects (s : Files) (c : ProcPtr) (regs : Registers) (env : SyscallEnv) (e : FileEvent) :
    Prop :=
  s.strictBody c regs env e ≠ .error .wild ∧
    (¬ s.Names c regs → ∃ s', s.step e = .ok s' ∧ Unchanged s s')

/-- The values that the guards of each call are enough for. -/
def GuardsSuffice (s : Files) (c : ProcPtr) (regs : Registers) : Prop :=
  if regs.eax = sysClose then regs.ebx < 3 ∨ (s.fds c).Open regs.ebx
  else if regs.eax = sysKill then regs.ebx ∈ s.kernel.procs
  else if regs.eax = sysWaitpid then True
  else regs.ebx.toNat < maxFds

variable {s s' s₀ : Files} {c : ProcPtr} {regs : Registers} {env : SyscallEnv} {e : FileEvent}
  {p : Proc} {ret : Option UInt32} {k : Kernel} {lost : Nat → Nat} {t : FdTable} {fds : Fds}

theorem Accounted.backed (hs : s.Accounted lost) (hc : c ∈ s.kernel.procs) :
    (s.fds c).Backed s.fdTable :=
  fun v pfe hv => hs.named _ (Nat.add_pos_left (refs_pos.2 ⟨c, hc, v, pfe, hv, rfl⟩) _)

theorem pushFrame_eq (hcur : k.currentProc = some c) (hp : k.heap c = some p) :
    k.pushFrame regs = .ok (k.set c { p with frame := regs }) := by
  simp [Kernel.pushFrame, hcur, Kernel.deref_eq_ok.2 hp, pure, Except.pure]

/-- A call whose body only touches the caller's frame changes nothing else. -/
theorem step_quiet (hk : s.kernel.Inv) (hcur : s.kernel.currentProc = some c)
    (hp : s.kernel.heap c = some p) (hable : p.life.Able) (hevent : e.event = .syscall regs env)
    (hcall : s.fileCall c regs env e = .ok (s.fdTable, s.fds c, ret)) {frame : Registers}
    (hbody : (s.kernel.set c { p with frame := regs }).syscallBody c regs.eax
      { env with ret := ret } = .ok (s.kernel.set c { p with frame := frame })) :
    ∃ s', s.step e = .ok s' ∧ Unchanged s s' := by
  have hfile : s.filePart e =
      .ok (s.setFds s.fdTable c (s.fds c), .syscall regs { env with ret := ret }) := by
    simp only [filePart, hcur, hevent, hcall, ok_bind]
    rfl
  have hable' : ¬ (p.procState = .blocked ∨ p.procState = .zombie) := fun h =>
    h.elim hable.1 hable.2
  have hstep : s.kernel.step (.syscall regs { env with ret := ret }) =
      .ok (s.kernel.set c { p with frame := frame }) := by
    have hcaller : (s.kernel.set c { p with frame := frame }).deref c =
        .ok { p with frame := frame } := by simp
    simp only [Kernel.step, Kernel.syscallHandler, hcur, pushFrame_eq hcur hp, ok_bind, hbody,
      hcaller, hable', if_false]
    rfl
  refine ⟨(s.setFds s.fdTable c (s.fds c)).turnover (s.kernel.set c { p with frame := frame }),
    ?_, rfl, fun a ha => ?_, fun a => ?_⟩
  · rw [step, hfile, ok_bind]
    dsimp only
    rw [show (s.setFds s.fdTable c (s.fds c)).kernel = s.kernel from rfl, hstep, ok_bind]
    rfl
  · rw [turnover_fds (s := s.setFds s.fdTable c (s.fds c)) hk ha]
    simp only [setFds]
    split
    · rename_i hac
      rw [hac]
    · rfl
  · simp only [turnover, Kernel.set_heap]
    split
    · rename_i hac
      rw [hac, hp]
      rfl
    · rfl

/-! ## Each call by itself -/

theorem fileCall_close (h : regs.eax = sysClose) :
    s.fileCall c regs env e = syscallClose s.fdTable (s.fds c) regs := by
  simp [fileCall, h, sysClose, sysOpen]

theorem fileCall_readFile (h : regs.eax = sysReadFile) :
    s.fileCall c regs env e = syscallReadFile s.fdTable (s.fds c) regs e.moved := by
  simp [fileCall, h, sysClose, sysOpen, sysReadFile]

theorem fileCall_writeFile (h : regs.eax = sysWriteFile) :
    s.fileCall c regs env e = syscallWriteFile s.fdTable (s.fds c) regs e.moved := by
  simp [fileCall, h, sysClose, sysOpen, sysReadFile, sysWriteFile]

theorem fileCall_kill (h : regs.eax = sysKill) :
    s.fileCall c regs env e = .ok (s.fdTable, s.fds c, env.ret) := by
  simp [fileCall, h, sysKill, sysOpen, sysClose, sysReadFile, sysWriteFile, pure, Except.pure]

/-- The kernel's part of a call on files. -/
theorem syscallBody_file
    (h : regs.eax = sysClose ∨ regs.eax = sysReadFile ∨ regs.eax = sysWriteFile)
    (hp : k.heap c = some p) : k.syscallBody c regs.eax env =
      match env.ret with
      | some v => .ok (k.set c { p with frame := { p.frame with eax := v } })
      | none => .ok k := by
  have hother : ∀ num ∈ [sysRead, sysExit, sysExec, sysKill, sysWaitpid, sysGetpid],
      regs.eax ≠ num := by
    rcases h with h | h | h <;> simp [h, sysClose, sysReadFile, sysWriteFile, sysRead, sysExit,
      sysExec, sysKill, sysWaitpid, sysGetpid]
  simp only [List.mem_cons, List.not_mem_nil, or_false, forall_eq_or_imp, forall_eq] at hother
  obtain ⟨h₁, h₂, h₃, h₄, h₅, h₆⟩ := hother
  simp only [Kernel.syscallBody, h₁, h₂, h₃, h₄, h₅, h₆, if_false]
  cases env.ret with
  | none => rfl
  | some v => exact Kernel.setEax_ok hp v

/-- The strict body of a call on files gets past its tables or not at all. -/
theorem strictBody_file (hcur : s.kernel.currentProc = some c) (hp : s.kernel.heap c = some p)
    (h : regs.eax = sysClose ∨ regs.eax = sysReadFile ∨ regs.eax = sysWriteFile) :
    s.strictBody c regs env e ≠ .error .wild ↔ s.fileCall c regs env e ≠ .error .wild := by
  have hkill : regs.eax ≠ sysKill := by
    rcases h with h | h | h <;> rw [h] <;> decide
  unfold strictBody
  cases hcall : s.fileCall c regs env e with
  | error f => simp [error_bind]
  | ok r =>
    obtain ⟨t, fds, ret⟩ := r
    have hself : (s.kernel.set c { p with frame := regs }).heap c =
        some { p with frame := regs } := by simp
    simp only [ok_bind, pushFrame_eq hcur hp, hkill, if_false, syscallBody_file h hself]
    cases ret <;> simp

/-- A call on files that leaves the tables alone changes nothing. -/
theorem file_quiet (hk : s.kernel.Inv) (hcur : s.kernel.currentProc = some c)
    (hp : s.kernel.heap c = some p) (hable : p.life.Able) (hevent : e.event = .syscall regs env)
    (h : regs.eax = sysClose ∨ regs.eax = sysReadFile ∨ regs.eax = sysWriteFile)
    (hcall : s.fileCall c regs env e = .ok (s.fdTable, s.fds c, ret)) :
    ∃ s', s.step e = .ok s' ∧ Unchanged s s' := by
  have hself : (s.kernel.set c { p with frame := regs }).heap c =
      some { p with frame := regs } := by simp
  have hbody : (s.kernel.set c { p with frame := regs }).syscallBody c regs.eax
      { env with ret := ret } = _ := syscallBody_file h hself
  cases ret with
  | none => exact step_quiet hk hcur hp hable hevent hcall hbody
  | some v =>
    simp only [Kernel.set_set] at hbody
    exact step_quiet hk hcur hp hable hevent hcall hbody

/-- `SYS_READ_FILE` and `SYS_WRITE_FILE` rely on the index being in range. -/
theorem access_rejects {allowed : UInt8} (hk : s.kernel.Inv) (hs : s.Accounted lost)
    (hcur : s.kernel.currentProc = some c) (hp : s.kernel.heap c = some p)
    (hable : p.life.Able) (hevent : e.event = .syscall regs env)
    (hnum : regs.eax = sysReadFile ∨ regs.eax = sysWriteFile)
    (hcall : s.fileCall c regs env e = do
      let (n, _) ← procFdAccess allowed s.fdTable (s.fds c) regs.ebx e.moved
      pure (s.fdTable, s.fds c, some n)) :
    s.Rejects c regs env e ↔ regs.ebx.toNat < maxFds := by
  have hc : c ∈ s.kernel.procs := (hk.wf.shape.mem_procs c).2 ⟨p, hp⟩
  have hfile : regs.eax = sysClose ∨ regs.eax = sysReadFile ∨ regs.eax = sysWriteFile := .inr hnum
  rw [Rejects, strictBody_file hcur hp hfile]
  constructor
  · rintro ⟨hsafe, -⟩
    by_contra hout
    rw [hcall, procFdAccess_wild hout] at hsafe
    exact hsafe rfl
  · intro hin
    obtain ⟨r, hr⟩ : ∃ r, procFdAccess allowed s.fdTable (s.fds c) regs.ebx e.moved = .ok r :=
      procFdAccess_ok (hs.backed hc) hin
    refine ⟨?_, fun hnames => ?_⟩
    · rw [hcall, hr, ok_bind]
      simp [pure, Except.pure]
    · have hopen : ¬ (s.fds c).Open regs.ebx := by
        rcases hnum with h | h <;>
          simpa [Names, h, sysReadFile, sysWriteFile, sysKill, sysWaitpid] using hnames
      rw [procFdAccess_closed hin hopen] at hcall
      exact file_quiet hk hcur hp hable hevent hfile hcall

theorem close_rejects (hk : s.kernel.Inv) (hs : s.Accounted lost)
    (hcur : s.kernel.currentProc = some c) (hp : s.kernel.heap c = some p)
    (hable : p.life.Able) (hevent : e.event = .syscall regs env) (hnum : regs.eax = sysClose) :
    s.Rejects c regs env e ↔ regs.ebx < 3 ∨ (s.fds c).Open regs.ebx := by
  have hc : c ∈ s.kernel.procs := (hk.wf.shape.mem_procs c).2 ⟨p, hp⟩
  have hcall : s.fileCall c regs env e = syscallClose s.fdTable (s.fds c) regs :=
    fileCall_close hnum
  rw [Rejects, strictBody_file hcur hp (.inl hnum)]
  constructor
  · rintro ⟨hsafe, -⟩
    by_contra hbad
    obtain ⟨hhigh, hclosed⟩ := not_or.1 hbad
    rw [hcall, syscallClose, if_neg hhigh, procCloseFd_wild hclosed] at hsafe
    exact hsafe rfl
  · intro hgood
    have hnames : s.Names c regs ↔ (s.fds c).Open regs.ebx := by
      simp [Names, hnum, sysClose, sysKill, sysWaitpid]
    rw [hnames]
    by_cases hlow : regs.ebx < 3
    · rw [syscallClose, if_pos hlow] at hcall
      exact ⟨by simp [hcall, pure, Except.pure], fun _ =>
        file_quiet hk hcur hp hable hevent (.inl hnum) hcall⟩
    · have hopen := hgood.resolve_left hlow
      obtain ⟨r, hr⟩ := procCloseFd_ok (hs.backed hc) hopen
      refine ⟨?_, fun hno => absurd hopen hno⟩
      rw [hcall, syscallClose, if_neg hlow, hr, ok_bind]
      simp [pure, Except.pure]

theorem kill_rejects (hk : s.kernel.Inv) (hcur : s.kernel.currentProc = some c)
    (hp : s.kernel.heap c = some p) (hnum : regs.eax = sysKill) :
    s.Rejects c regs env e ↔ regs.ebx ∈ s.kernel.procs := by
  have hshape : (s.kernel.set c { p with frame := regs }).Shape := hk.wf.shape.set hp rfl
  have hself : (s.kernel.set c { p with frame := regs }).heap c =
      some { p with frame := regs } := by simp
  have hbody : s.strictBody c regs env e =
      (s.kernel.set c { p with frame := regs }).syscallKillStrict c := by
    simp only [strictBody, fileCall_kill hnum, ok_bind, pushFrame_eq hcur hp, hnum, if_true]
  have hmem := hshape.mem_procs regs.ebx
  rw [Kernel.set_procs] at hmem
  rw [Rejects, hbody, hmem, Kernel.syscallKillStrict, Kernel.deref_eq_ok.2 hself, ok_bind]
  cases hb : (s.kernel.set c { p with frame := regs }).heap regs.ebx with
  | none =>
    simp [Kernel.schedulerGetProc_none hshape hb]
  | some b =>
    have hnames : s.Names c regs := by
      rw [Names, if_pos (.inl hnum), hmem]
      exact ⟨b, hb⟩
    simp [Kernel.schedulerGetProc_some hshape hb, Kernel.deref_eq_ok.2 hb, hnames, pure, Except.pure]

theorem waitpid_rejects (hk : s.kernel.Inv) (hcur : s.kernel.currentProc = some c)
    (hp : s.kernel.heap c = some p) (hable : p.life.Able)
    (hevent : e.event = .syscall regs env) (hnum : regs.eax = sysWaitpid) :
    s.Rejects c regs env e := by
  have hshape : (s.kernel.set c { p with frame := regs }).Shape := hk.wf.shape.set hp rfl
  have hself : (s.kernel.set c { p with frame := regs }).heap c =
      some { p with frame := regs } := by simp
  have hcall : s.fileCall c regs env e = .ok (s.fdTable, s.fds c, env.ret) := fileCall_waitpid hnum
  have hbody : ∀ k : Kernel, k.syscallBody c regs.eax env = k.syscallWaitpid c := by
    intro k
    simp [Kernel.syscallBody, hnum, sysWaitpid, sysRead, sysExit, sysExec, sysKill]
  constructor
  · obtain ⟨k', hwait⟩ := Kernel.syscallWaitpid_ok hshape hself hable
    have hkill : regs.eax ≠ sysKill := by rw [hnum]; decide
    have hstrict : s.strictBody c regs env e = .ok k' := by
      simp only [strictBody, hcall, ok_bind, pushFrame_eq hcur hp, hkill, if_false, hbody, hwait]
    rw [hstrict]
    simp
  · intro hnames
    rw [Names, if_pos (.inr hnum), ← Kernel.set_procs (s.kernel) c { p with frame := regs },
      hshape.mem_procs, ← Option.isSome_iff_exists, Option.not_isSome_iff_eq_none] at hnames
    have hwait : (s.kernel.set c { p with frame := regs }).syscallWaitpid c = .ok
        (s.kernel.set c { p with frame := { regs with eax := 0xFFFFFFFF } }) := by
      simp only [Kernel.syscallWaitpid, Kernel.deref_eq_ok.2 hself, ok_bind,
        Kernel.schedulerGetProc_none hshape hnames, Kernel.setEax_ok hself, Kernel.set_set]
    exact step_quiet hk hcur hp hable hevent hcall ((hbody _).trans hwait)

/-! ## All reachable states -/

variable {genkan : Image} {es : List FileEvent}

/-- Whatever has been lost, the counts stay high enough. -/
theorem run_accounted (hboot : boot genkan = .ok s₀)
    (hrun : Run (Guarded (fun _ _ => True) step) s₀ es s) :
    s.kernel.Inv ∧ ∃ lost, s.Accounted lost := by
  obtain ⟨hk₀, hs₀⟩ := boot_exact hboot
  refine hrun.invariant (I := fun s => s.kernel.Inv ∧ ∃ lost, s.Accounted lost)
    (fun _ _ _ hst hs => ?_) ⟨hk₀, 0, refExact_iff.1 hs₀⟩
  obtain ⟨hk, lost, hlost⟩ := hs
  obtain ⟨hk', hlost'⟩ := step_accounted hk hlost hst.2
  exact ⟨hk', _, hlost'⟩

/-- In every reachable state, the calls that take a descriptor or a pid reject bad
values exactly where their guards, as far as they have any, suffice. -/
theorem bad_values_rejected (hboot : boot genkan = .ok s₀)
    (hrun : Run (Guarded (fun _ _ => True) step) s₀ es s)
    (hcur : s.kernel.currentProc = some c) (hevent : e.event = .syscall regs env)
    (hnum : TakesValue regs.eax) :
    s.Rejects c regs env e ↔ s.GuardsSuffice c regs := by
  obtain ⟨hk, lost, hs⟩ := run_accounted hboot hrun
  obtain ⟨p, hp, hable⟩ := hk.wf.current hcur
  rcases hnum with hnum | hnum | hnum | hnum | hnum
  · rw [close_rejects hk hs hcur hp hable hevent hnum, GuardsSuffice, if_pos hnum]
  · rw [access_rejects hk hs hcur hp hable hevent (.inl hnum) (fileCall_readFile hnum)]
    simp [GuardsSuffice, hnum, sysReadFile, sysClose, sysKill, sysWaitpid]
  · rw [access_rejects hk hs hcur hp hable hevent (.inr hnum) (fileCall_writeFile hnum)]
    simp [GuardsSuffice, hnum, sysWriteFile, sysClose, sysKill, sysWaitpid]
  · rw [kill_rejects hk hcur hp hnum]
    simp [GuardsSuffice, hnum, sysClose, sysKill]
  · have hguarded : s.GuardsSuffice c regs := by
      simp [GuardsSuffice, hnum, sysClose, sysKill, sysWaitpid]
    exact iff_of_true (waitpid_rejects hk hcur hp hable hevent hnum) hguarded

/-- The shell reads from descriptor 5, which it has not opened. -/
theorem bad_values_rejected_read :
    ∃ s₀ s, boot Kernel.bareImage = .ok s₀ ∧
      Run (Guarded (fun _ _ => True) step) s₀ [{ event := Kernel.tick }] s ∧
      (s.Rejects 1 { eax := sysReadFile, ebx := 5 } {} (trap sysReadFile 5) ↔
        s.GuardsSuffice 1 { eax := sysReadFile, ebx := 5 }) := by
  obtain ⟨s₀, hboot, hexec⟩ := toOption_any.1 (show (boot Kernel.bareImage).toOption.any
    (fun s => (execAll (fun _ _ => True) step s [{ event := Kernel.tick }]).any fun s =>
      decide (s.kernel.currentProc = some 1)) = true by decide)
  obtain ⟨s, hrun, hcur⟩ := exists_run_of_execAll hexec
  exact ⟨s₀, s, hboot, hrun,
    bad_values_rejected hboot hrun (of_decide_eq_true hcur) rfl (.inr (.inl rfl))⟩

/-- The shell closes descriptor 3 without having opened anything, or kills pid 99. -/
theorem bad_values_dereferenced :
    ∃ s₀ s, boot Kernel.bareImage = .ok s₀ ∧
      Run (Guarded (fun _ _ => True) step) s₀ [{ event := Kernel.tick }] s ∧
      s.kernel.currentProc = some 1 ∧
      ¬ s.Rejects 1 { eax := sysClose, ebx := 3 } {} (trap sysClose 3) ∧
      ¬ s.Rejects 1 { eax := sysKill, ebx := 99 } {} (trap sysKill 99) := by
  obtain ⟨s₀, hboot, hexec⟩ := toOption_any.1 (show (boot Kernel.bareImage).toOption.any
    (fun s => (execAll (fun _ _ => True) step s [{ event := Kernel.tick }]).any fun s =>
      decide (s.kernel.currentProc = some 1 ∧ s.kernel.procs = [1] ∧ s.fds 1 = .closed)) = true by
    decide)
  obtain ⟨s, hrun, hfacts⟩ := exists_run_of_execAll hexec
  obtain ⟨hcur, hprocs, hclosed⟩ := of_decide_eq_true hfacts
  obtain ⟨hk, lost, hs⟩ := run_accounted hboot hrun
  obtain ⟨p, hp, hable⟩ := hk.wf.current hcur
  refine ⟨s₀, s, hboot, hrun, hcur, ?_, ?_⟩
  · rw [close_rejects hk hs hcur hp hable rfl rfl]
    rintro (hlow | ⟨hfd, pfe, hopen⟩)
    · exact absurd hlow (by decide)
    · rw [hclosed] at hopen
      simp [Fds.closed, Vector.get] at hopen
  · rw [kill_rejects hk hcur hp rfl, hprocs]
    decide

end Files

end Kaku

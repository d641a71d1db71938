-- SUMMARY: Every step of the kernel is a step of the lifecycle machine.
import Kaku.Proc.Syscall
import Kaku.Proc.Life

/-!
# The kernel refines the lifecycle machine

`Kernel.table` forgets the run queue's order, the frames, the line buffer and
user memory. `Kernel.Shape` is what the forgotten parts have to satisfy for the
refinement: the run queue lists exactly the live processes, each once, and each
object carries the pid it is named by.
-/

namespace Kaku

def Proc.life (p : Proc) : Life where
  state := p.procState
  parent := p.parentPid
  exitCode := p.exitCode
  waitingFor := p.waitingFor
  eax := p.frame.eax

theorem Proc.able_iff {p : Proc} : p.life.Able ↔ p.skipped = false := by
  simp [Life.Able, Proc.life, Proc.skipped]

namespace Kernel

def table (k : Kernel) : Table where
  life := fun a => (k.heap a).map Proc.life
  current := k.currentProc
  waiting := k.waitingStdin.map StdinWaitingProc.p
  counter := k.pidCounter
  destroyed := k.destroyed

structure Shape (k : Kernel) : Prop where
  nodup : k.procs.Nodup
  mem_procs : ∀ a, a ∈ k.procs ↔ ∃ p, k.heap a = some p
  pid : ∀ a p, k.heap a = some p → p.procId = a

variable {k k' : Kernel} {a b c : ProcPtr} {p : Proc}

theorem table_life (h : k.heap a = some p) : k.table.life a = some p.life := by
  simp [table, h]

theorem table_life_iff {l : Life} : k.table.life a = some l ↔ ∃ p, k.heap a = some p ∧ p.life = l := by
  simp [table]

theorem table_life_none (h : k.heap a = none) : k.table.life a = none := by
  simp [table, h]

theorem table_set (k : Kernel) (a : ProcPtr) (p : Proc) :
    (k.set a p).table = k.table.upd a p.life := by
  simp only [table, Table.upd, set, Table.mk.injEq, and_self, and_true]
  funext b
  by_cases hb : b = a <;> simp [hb]

/-- Overwriting an object without touching its lifecycle. -/
theorem table_set_of_life {o : Proc} (h : k.heap a = some p) (ho : o.life = p.life) :
    (k.set a o).table = k.table := by
  rw [table_set]
  simp only [Table.upd, table, Table.mk.injEq, and_self, and_true]
  funext b
  by_cases hb : b = a
  · subst hb
    simp [h, ho]
  · simp [hb]

theorem Shape.set {o : Proc} (hk : k.Shape) (h : k.heap a = some p) (ho : o.procId = p.procId) :
    (k.set a o).Shape where
  nodup := hk.nodup
  mem_procs := by
    intro b
    rw [set_procs, hk.mem_procs, set_heap]
    by_cases hb : b = a
    · subst hb
      simp [h]
    · simp [hb]
  pid := by
    intro b q hq
    rw [set_heap] at hq
    by_cases hb : b = a
    · subst hb
      simp only [if_true, Option.some.injEq] at hq
      rw [← hq, ho, hk.pid _ _ h]
    · simp only [hb, if_false] at hq
      exact hk.pid _ _ hq

/-- A kernel with the same queue and objects. -/
theorem Shape.congr (hk : k.Shape) (hp : k'.procs = k.procs) (hh : k'.heap = k.heap) :
    k'.Shape where
  nodup := hp ▸ hk.nodup
  mem_procs := by rw [hp, hh]; exact hk.mem_procs
  pid := by rw [hh]; exact hk.pid

/-! ## Looking processes up -/

theorem schedulerGetProcFrom_eq (hk : k.Shape) (pid : UInt32) :
    ∀ l : List ProcPtr, (∀ a ∈ l, a ∈ k.procs) →
      k.schedulerGetProcFrom pid l = .ok (if pid ∈ l then some pid else none)
  | [], _ => by simp [schedulerGetProcFrom]
  | a :: as, hl => by
    obtain ⟨p, hp⟩ := (hk.mem_procs a).1 (hl a List.mem_cons_self)
    have hpid : p.procId = a := hk.pid a p hp
    have hd : k.deref a = .ok p := deref_eq_ok.2 hp
    simp only [schedulerGetProcFrom, hd, ok_bind, hpid]
    by_cases hap : a = pid
    · simp [hap, pure, Except.pure]
    · have ih := schedulerGetProcFrom_eq hk pid as fun b hb => hl b (List.mem_cons_of_mem _ hb)
      simp [hap, ih, Ne.symm hap]

/-- `scheduler_get_proc` finds exactly the live processes. -/
theorem schedulerGetProc_some (hk : k.Shape) (h : k.heap a = some p) :
    k.schedulerGetProc a = .ok (some a) := by
  have ha : a ∈ k.procs := (hk.mem_procs a).2 ⟨p, h⟩
  rw [schedulerGetProc, schedulerGetProcFrom_eq hk a k.procs fun _ hb => hb, if_pos ha]

theorem schedulerGetProc_none (hk : k.Shape) (h : k.heap a = none) :
    k.schedulerGetProc a = .ok none := by
  have ha : a ∉ k.procs := fun hmem => by
    obtain ⟨p, hp⟩ := (hk.mem_procs a).1 hmem
    simp [h] at hp
  rw [schedulerGetProc, schedulerGetProcFrom_eq hk a k.procs fun _ hb => hb, if_neg ha]

/-! ## Waking and dying -/

theorem schedulerNotifyParent_refines (hk : k.Shape) (h0 : k.heap 0 = none)
    (h : k.schedulerNotifyParent c = .ok k') :
    k'.table = k.table.notify c ∧ k'.Shape ∧ k'.procs = k.procs := by
  simp only [schedulerNotifyParent, bind_eq_ok, deref_eq_ok] at h
  obtain ⟨o, ho, h⟩ := h
  have hpar : o.life.parent = o.parentPid := rfl
  have hoc : o.procId = c := hk.pid _ _ ho
  split at h
  · rename_i hzero
    simp only [pure_eq_ok] at h
    subst h
    refine ⟨?_, hk, rfl⟩
    rw [Table.notify, table_life ho]
    simp only [hpar, hzero, table_life_none h0]
  · cases hq : k.heap o.parentPid with
    | none =>
      simp only [schedulerGetProc_none hk hq, ok_bind, pure_eq_ok] at h
      subst h
      refine ⟨?_, hk, rfl⟩
      rw [Table.notify, table_life ho]
      simp only [hpar, table_life_none hq]
    | some q =>
      simp only [schedulerGetProc_some hk hq, ok_bind, bind_eq_ok, deref_eq_ok, hq,
        Option.some.injEq, exists_eq_left'] at h
      have hlife : k.table.notify c =
          if q.procState = .blocked ∧ q.waitingFor = c then
            k.table.upd o.parentPid { q.life with state := .ready, waitingFor := 0 }
          else k.table := by
        rw [Table.notify, table_life ho]
        simp only [hpar, table_life hq]
        rfl
      rw [hlife]
      split at h
      · rename_i hcond
        simp only [pure_eq_ok] at h
        subst h
        rw [hoc] at hcond
        rw [if_pos hcond, table_set]
        exact ⟨rfl, hk.set hq rfl, rfl⟩
      · rename_i hcond
        simp only [pure_eq_ok] at h
        subst h
        rw [hoc] at hcond
        rw [if_neg hcond]
        exact ⟨rfl, hk, rfl⟩

/-! ## Dispatch -/

/-- `pick_next_ready_proc` returns a process that is neither blocked nor dead. -/
theorem pickLoop_able {left head : Nat} {r : Nat × Option ProcPtr}
    (h : k.pickLoop left head = .ok r) (hr : r.2 = some a) :
    ∃ p, k.heap a = some p ∧ p.life.Able := by
  induction left generalizing head with
  | zero =>
    simp only [pickLoop, Except.ok.injEq] at h
    subst h
    cases hr
  | succ left ih =>
    simp only [pickLoop] at h
    split at h
    · cases h
    · rename_i b hb
      simp only [bind_eq_ok, deref_eq_ok] at h
      obtain ⟨p, hp, h⟩ := h
      split at h
      · exact ih h
      · rename_i hskip
        simp only [pure_eq_ok] at h
        subst h
        simp only [Option.some.injEq] at hr
        subst hr
        exact ⟨p, hp, Proc.able_iff.2 (by simpa using hskip)⟩

theorem pickNextReadyProc_spec {next : Option ProcPtr} (h : k.pickNextReadyProc = .ok (k', next)) :
    (∃ head, k' = { k with procsHead := head }) ∧
      ∀ a, next = some a → ∃ p, k.heap a = some p ∧ p.life.Able := by
  simp only [pickNextReadyProc, bind_eq_ok, pure_eq_ok, Prod.mk.injEq] at h
  obtain ⟨⟨head, r⟩, hloop, hk', hr⟩ := h
  subst hk' hr
  exact ⟨⟨head, rfl⟩, fun a ha => pickLoop_able hloop ha⟩

/-- Handing a line over leaves every lifecycle alone. -/
theorem schedFlushProcBufs_refines (hk : k.Shape) (h : k.schedFlushProcBufs a = .ok k') :
    k'.table = k.table ∧ k'.Shape ∧ k'.procs = k.procs := by
  simp only [schedFlushProcBufs, bind_eq_ok, deref_eq_ok] at h
  obtain ⟨p, hp, h⟩ := h
  split at h
  · simp only [bind_eq_ok, pure_eq_ok] at h
    obtain ⟨u, -, v, -, rfl⟩ := h
    exact ⟨table_set_of_life hp rfl, hk.set hp rfl, rfl⟩
  · simp only [pure_eq_ok] at h
    subst h
    exact ⟨rfl, hk, rfl⟩

theorem layoutArgs_life {o : Proc} (h : layoutArgs p = .ok o) :
    o.life = { p.life with state := .ready } ∧ o.procId = p.procId := by
  simp only [layoutArgs, bind_eq_ok, pure_eq_ok] at h
  obtain ⟨_, -, _, -, _, -, _, -, rfl⟩ := h
  exact ⟨rfl, rfl⟩

theorem dropZombieCurrent_spec (h : k.dropZombieCurrent = .ok k') :
    ∃ cur head, k' = { k with currentProc := cur, procsHead := head } := by
  unfold dropZombieCurrent at h
  split at h
  · simp only [pure_eq_ok] at h
    exact ⟨_, _, h.symm⟩
  · simp only [bind_eq_ok] at h
    obtain ⟨p, -, h⟩ := h
    split at h <;> simp only [pure_eq_ok] at h <;> exact ⟨_, _, h.symm⟩

/-- `__scheduler_core` reschedules, unless there is no process at all. -/
theorem schedulerCore_refines {r : Resume} (hk : k.Shape) (h : k.schedulerCore = .ok (k', r)) :
    (Table.Resched k.table k'.table ∨ k.procs = [] ∧ k' = k) ∧ k'.Shape := by
  unfold schedulerCore at h
  split at h
  · rename_i hnil
    simp only [pure_eq_ok, Prod.mk.injEq] at h
    obtain ⟨rfl, -⟩ := h
    exact ⟨.inr ⟨List.eq_nil_of_length_eq_zero hnil, rfl⟩, hk⟩
  simp only [bind_eq_ok] at h
  obtain ⟨k₁, hdrop, ⟨k₂, next⟩, hpick, h⟩ := h
  obtain ⟨cur, head₁, rfl⟩ := dropZombieCurrent_spec hdrop
  obtain ⟨⟨head, rfl⟩, hnext⟩ := pickNextReadyProc_spec hpick
  cases next with
  | none =>
    simp only [pure_eq_ok, Prod.mk.injEq] at h
    obtain ⟨rfl, -⟩ := h
    exact ⟨.inl .none, hk.congr rfl rfl⟩
  | some a =>
    obtain ⟨p, hp, hable⟩ := hnext a rfl
    simp only [bind_eq_ok, deref_eq_ok] at h
    obtain ⟨k₃, hflush, q, hq, h⟩ := h
    obtain ⟨htab, hshape, -⟩ := schedFlushProcBufs_refines (by exact hk.congr rfl rfl) hflush
    have hqlife : k.table.life a = some q.life := by
      have : k₃.table.life a = some q.life := table_life hq
      rw [htab] at this
      exact this
    have hplife : k.table.life a = some p.life := table_life (k := k) hp
    have hqable : q.life.Able := by
      rw [hplife] at hqlife
      rw [← Option.some.inj hqlife]
      exact hable
    have htab' : k₃.table = { k.table with current := some a } := htab
    split at h
    · rename_i hstart
      simp only [bind_eq_ok, pure_eq_ok, Prod.mk.injEq] at h
      obtain ⟨o, ho, rfl, -⟩ := h
      obtain ⟨holife, hoid⟩ := layoutArgs_life ho
      refine ⟨.inl ?_, hshape.set hq hoid⟩
      have hstarted : o.life = q.life.started := by
        rw [holife, Life.started, if_pos (show q.life.state = .starting from hstart)]
      rw [table_set, htab', hstarted]
      exact .take hqlife hqable
    · simp only [pure_eq_ok, Prod.mk.injEq] at h
      obtain ⟨rfl, -⟩ := h
      refine ⟨.inl ?_, hshape⟩
      rw [htab']
      exact .takeRaw hqlife hqable

theorem schedulerOnSegfault_refines {r : Resume} (hk : k.Shape) (h0 : k.heap 0 = none)
    (hc : k.currentProc = some c) (hne : k.procs ≠ [])
    (h : k.schedulerOnSegfault = .ok (k', r)) :
    Table.Resched (k.table.notify c) k'.table ∧ k'.Shape := by
  unfold schedulerOnSegfault at h
  rw [if_neg (by simpa using hne)] at h
  simp only [hc, bind_eq_ok] at h
  obtain ⟨k₁, hnotify, h⟩ := h
  obtain ⟨htab, hshape, hprocs⟩ := schedulerNotifyParent_refines hk h0 hnotify
  rw [if_neg (by simpa [hprocs] using hne)] at h
  simp only [bind_eq_ok] at h
  obtain ⟨⟨k₂, next⟩, hpick, h⟩ := h
  obtain ⟨⟨head, rfl⟩, hnext⟩ := pickNextReadyProc_spec hpick
  rw [← htab]
  cases next with
  | none =>
    simp only [pure_eq_ok, Prod.mk.injEq] at h
    obtain ⟨rfl, -⟩ := h
    exact ⟨.none, hshape.congr rfl rfl⟩
  | some a =>
    obtain ⟨p, hp, hable⟩ := hnext a rfl
    simp only [pure_eq_ok, Prod.mk.injEq] at h
    obtain ⟨rfl, -⟩ := h
    exact ⟨.takeRaw (table_life hp) hable, hshape.congr rfl rfl⟩

/-! ## System calls -/

theorem setEax_refines {v : UInt32} (hk : k.Shape) (hp : k.heap c = some p)
    (h : k.setEax c v = .ok k') :
    k'.table = k.table.upd c { p.life with eax := v } ∧ k'.Shape := by
  simp only [setEax, bind_eq_ok, deref_eq_ok, pure_eq_ok] at h
  obtain ⟨q, hq, rfl⟩ := h
  rw [hp, Option.some.injEq] at hq
  subst hq
  exact ⟨table_set .., hk.set hp rfl⟩

theorem table_stdinWait {buf size : UInt32} :
    (k.stdinWait a buf size).table = { k.table with waiting := some a } := rfl

theorem Shape.stdinWait {buf size : UInt32} (hk : k.Shape) : (k.stdinWait a buf size).Shape :=
  hk.congr rfl rfl

theorem syscallRead_refines (hk : k.Shape) (hp : k.heap c = some p)
    (h : k.syscallRead c = .ok k') :
    Table.Body k.table c p.life .read k'.table ∧ k'.Shape := by
  simp only [syscallRead, bind_eq_ok, deref_eq_ok, pure_eq_ok] at h
  obtain ⟨q, hq, rfl⟩ := h
  rw [hp, Option.some.injEq] at hq
  subst hq
  constructor
  · rw [table_stdinWait, table_set]
    exact .read
  · apply Shape.stdinWait
    exact hk.set hp rfl

/-- Marking a process dead and notifying its parent, as `__syscall_exit` and the
page-fault handler do. -/
theorem die_refines {code : UInt32} (hk : k.Shape) (h0 : k.heap 0 = none)
    (hp : k.heap c = some p)
    (h : (k.set c { p with procState := .zombie, exitCode := code }).schedulerNotifyParent c =
      .ok k') :
    k'.table = k.table.die c code ∧ k'.Shape ∧ k'.procs = k.procs := by
  have hc0 : c ≠ 0 := fun heq => by simp [heq, h0] at hp
  have h0' : (k.set c { p with procState := .zombie, exitCode := code }).heap 0 = none := by
    simp [Ne.symm hc0, h0]
  have hshape := hk.set (o := { p with procState := .zombie, exitCode := code }) hp rfl
  obtain ⟨htab, hshape', hprocs⟩ := schedulerNotifyParent_refines hshape h0' h
  refine ⟨?_, hshape', hprocs⟩
  rw [htab, table_set, Table.die_eq (table_life hp)]
  rfl

theorem syscallExit_refines (hk : k.Shape) (h0 : k.heap 0 = none) (hp : k.heap c = some p)
    (h : k.syscallExit c = .ok k') :
    Table.Body k.table c p.life (.exit p.frame.ebx) k'.table ∧ k'.Shape := by
  simp only [syscallExit, bind_eq_ok, deref_eq_ok] at h
  obtain ⟨q, hq, h⟩ := h
  rw [hp, Option.some.injEq] at hq
  subst hq
  obtain ⟨htab, hshape, -⟩ := die_refines hk h0 hp h
  rw [htab]
  exact ⟨.exit _, hshape⟩

/-- `elf_load` adds one process, a child of the one in user mode. -/
theorem elfLoad_refines {img : Image} {pid : UInt32} (hk : k.Shape) (hs : k.table.Sound)
    (h : k.elfLoad (some img) = .ok (k', pid)) :
    k.pidCounter ≠ 0 ∧ pid = k.pidCounter ∧ k'.table = k.table.spawn ∧ k'.Shape ∧
      ∀ a, a ≠ k.pidCounter → k'.heap a = k.heap a := by
  simp only [elfLoad, procCreate, bind_eq_ok] at h
  obtain ⟨⟨k₁, a⟩, h₁, q, hq, h⟩ := h
  split at h₁
  · cases h₁
  rename_i hcnt
  simp only [bind_eq_ok, pure_eq_ok, Prod.mk.injEq] at h₁ h
  obtain ⟨ppid, hppid, rfl, rfl⟩ := h₁
  obtain ⟨rfl, rfl⟩ := h
  have hfree : k.heap k.pidCounter = none := by
    have := hs.counter hcnt
    simpa [table] using this
  have hparent : ppid = k.currentProc.getD 0 := by
    unfold currentPid at hppid
    cases hc : k.currentProc with
    | none =>
      rw [hc] at hppid
      exact (pure_eq_ok.1 hppid).symm
    | some c =>
      rw [hc] at hppid
      simp only [bind_eq_ok, deref_eq_ok, pure_eq_ok] at hppid
      obtain ⟨o, ho, rfl⟩ := hppid
      exact hk.pid _ _ ho
  simp only [deref_eq_ok, set_heap, if_true, Option.some.injEq] at hq
  subst hq
  refine ⟨hcnt, rfl, ?_, ⟨?_, ?_, ?_⟩, ?_⟩
  · simp only [table, Table.spawn, Table.upd, set, Table.mk.injEq, and_true]
    funext b
    by_cases hb : b = k.pidCounter
    · simp [hb, Proc.life, hparent]
    · simp [hb]
  · have hnot : k.pidCounter ∉ k.procs := fun hmem => by
      obtain ⟨o, ho⟩ := (hk.mem_procs _).1 hmem
      simp [hfree] at ho
    exact List.nodup_append.2 ⟨hk.nodup, List.nodup_singleton _, by
      intro x hx y hy heq
      simp only [List.mem_singleton] at hy
      exact hnot (hy ▸ heq ▸ hx)⟩
  · intro b
    simp only [set, List.mem_append, List.mem_singleton]
    by_cases hb : b = k.pidCounter
    · simp [hb]
    · simp [hb, hk.mem_procs b]
  · intro b o ho
    simp only [set] at ho
    by_cases hb : b = k.pidCounter
    · simp only [hb, if_true, Option.some.injEq] at ho
      rw [hb, ← ho]
    · simp only [hb, if_false] at ho
      exact hk.pid _ _ ho
  · intro b hb
    simp [set, hb]

theorem syscallExec_refines {img : Option Image} (hk : k.Shape) (hs : k.table.Sound)
    (hp : k.heap c = some p) (h : k.syscallExec c img = .ok k') :
    Table.Body k.table c p.life (.exec img.isSome) k'.table ∧ k'.Shape := by
  simp only [syscallExec, bind_eq_ok] at h
  obtain ⟨⟨k₁, pid⟩, hload, h⟩ := h
  cases img with
  | none =>
    simp only [elfLoad, pure_eq_ok, Prod.mk.injEq] at hload
    obtain ⟨rfl, rfl⟩ := hload
    obtain ⟨htab, hshape⟩ := setEax_refines hk hp h
    rw [htab]
    exact ⟨.execMissing, hshape⟩
  | some img =>
    obtain ⟨hcnt, rfl, htab₁, hshape₁, hheap⟩ := elfLoad_refines hk hs hload
    have hne : c ≠ k.pidCounter := fun heq => by
      have := hs.counter hcnt
      simp [table, ← heq, hp] at this
    obtain ⟨htab, hshape⟩ := setEax_refines hshape₁ ((hheap c hne).trans hp) h
    rw [htab, htab₁]
    exact ⟨.exec hcnt, hshape⟩

theorem syscallKill_refines (hk : k.Shape) (hp : k.heap c = some p)
    (h : k.syscallKill c = .ok k') :
    Table.Body k.table c p.life (.kill p.frame.ebx) k'.table ∧ k'.Shape := by
  simp only [syscallKill, bind_eq_ok, deref_eq_ok] at h
  obtain ⟨q, hq, h⟩ := h
  rw [hp, Option.some.injEq] at hq
  subst hq
  cases hb : k.heap p.frame.ebx with
  | none =>
    simp only [schedulerGetProc_none hk hb, Except.ok.injEq, exists_eq_left', bind_eq_ok,
      pure_eq_ok] at h
    obtain ⟨u, -, rfl⟩ := h
    have htab : (k.set c { p with space := u }).table = k.table := table_set_of_life hp rfl
    rw [htab]
    exact ⟨.killMissing (table_life_none hb), hk.set hp rfl⟩
  | some b =>
    simp only [schedulerGetProc_some hk hb, Except.ok.injEq, exists_eq_left', bind_eq_ok,
      deref_eq_ok, pure_eq_ok, hb, Option.some.injEq] at h
    subst h
    refine ⟨?_, hk.set hb rfl⟩
    rw [table_set]
    exact .kill (table_life hb)

theorem schedulerReapChild_refines {code : UInt32} {q : Proc} (hk : k.Shape)
    (hb : k.heap b = some q) (hz : q.procState = .zombie)
    (h : k.schedulerReapChild b = .ok (k', code)) :
    k'.table = k.table.reap b ∧ k'.Shape ∧ code = q.exitCode ∧
      ∀ a, a ≠ b → k'.heap a = k.heap a := by
  simp only [schedulerReapChild, schedulerGetProc_some hk hb, ok_bind, bind_eq_ok,
    deref_eq_ok, hb, Option.some.injEq, exists_eq_left', hz, ne_eq, not_true_eq_false, if_false,
    pure_eq_ok, Prod.mk.injEq] at h
  obtain ⟨rfl, rfl⟩ := h
  refine ⟨?_, ⟨?_, ?_, ?_⟩, rfl, ?_⟩
  · simp only [table, procDestroy, Table.reap, Table.mk.injEq, and_true]
    funext a
    by_cases ha : a = b <;> simp [ha]
  · exact hk.nodup.erase b
  · intro a
    simp only [procDestroy, hk.nodup.mem_erase_iff, hk.mem_procs]
    by_cases ha : a = b <;> simp [ha]
  · intro a o ho
    simp only [procDestroy] at ho
    by_cases ha : a = b
    · simp [ha] at ho
    · simp only [ha, if_false] at ho
      exact hk.pid _ _ ho
  · intro a ha
    simp [procDestroy, ha]

theorem syscallWaitpid_refines (hk : k.Shape) (hable : p.life.Able) (hp : k.heap c = some p)
    (h : k.syscallWaitpid c = .ok k') :
    Table.Body k.table c p.life (.waitpid p.frame.ebx) k'.table ∧ k'.Shape := by
  simp only [syscallWaitpid, bind_eq_ok, deref_eq_ok] at h
  obtain ⟨q, hq, h⟩ := h
  rw [hp, Option.some.injEq] at hq
  subst hq
  cases hb : k.heap p.frame.ebx with
  | none =>
    simp only [schedulerGetProc_none hk hb, Except.ok.injEq, exists_eq_left'] at h
    obtain ⟨htab, hshape⟩ := setEax_refines hk hp h
    rw [htab]
    exact ⟨.waitMissing (table_life_none hb), hshape⟩
  | some b =>
    simp only [schedulerGetProc_some hk hb, Except.ok.injEq, exists_eq_left', bind_eq_ok,
      deref_eq_ok, hb, Option.some.injEq] at h
    have hpid : p.procId = c := hk.pid _ _ hp
    split at h
    · rename_i hother
      obtain ⟨htab, hshape⟩ := setEax_refines hk hp h
      rw [htab]
      exact ⟨.waitOther (table_life hb) (hpid ▸ hother), hshape⟩
    rename_i hmine
    have hmine : b.life.parent = c := by rw [← hpid]; exact not_not.1 hmine
    split at h
    · rename_i hz
      simp only [bind_eq_ok] at h
      obtain ⟨⟨k₁, code⟩, hreap, h⟩ := h
      obtain ⟨htab₁, hshape₁, rfl, hheap⟩ := schedulerReapChild_refines hk hb hz hreap
      have hne : p.frame.ebx ≠ c := fun heq => by
        rw [heq, hp, Option.some.injEq] at hb
        exact hable.2 (hb ▸ hz)
      obtain ⟨htab, hshape⟩ := setEax_refines hshape₁ ((hheap c hne.symm).trans hp) h
      rw [htab, htab₁]
      exact ⟨.waitReap (table_life hb) hmine hz hne, hshape⟩
    · rename_i hz
      simp only [pure_eq_ok] at h
      subst h
      refine ⟨?_, hk.set hp rfl⟩
      rw [table_set]
      exact .waitBlock (table_life hb) hmine hz

/-! ## Events -/

end Kernel

/-- The call a trap frame asks for. -/
def Registers.call (regs : Registers) (env : SyscallEnv) : Table.Call :=
  if regs.eax = sysRead then .read
  else if regs.eax = sysExit then .exit regs.ebx
  else if regs.eax = sysExec then .exec env.image.isSome
  else if regs.eax = sysKill then .kill regs.ebx
  else if regs.eax = sysWaitpid then .waitpid regs.ebx
  else if regs.eax = sysGetpid then .getpid
  else .other env.ret

def Event.act : Event → Table.Act
  | .syscall regs env => .call regs.eax (regs.call env)
  | .pageFault regs => .fault regs.eax
  | .key scancode => if scancode = 0x1C then .enter else .key
  | .timer regs => .tick regs.eax

theorem Registers.call_eq_read {regs : Registers} {env : SyscallEnv} :
    regs.call env = .read ↔ regs.eax = sysRead := by
  unfold Registers.call
  split_ifs <;> simp_all

theorem Registers.call_eq_kill {regs : Registers} {env : SyscallEnv} {pid : UInt32} :
    regs.call env = .kill pid ↔ regs.eax = sysKill ∧ regs.ebx = pid := by
  unfold Registers.call
  split_ifs <;> simp_all [sysRead, sysExit, sysExec, sysKill]

theorem Registers.call_eq_exit {regs : Registers} {env : SyscallEnv} {code : UInt32} :
    regs.call env = .exit code ↔ regs.eax = sysExit ∧ regs.ebx = code := by
  unfold Registers.call
  split_ifs <;> simp_all [sysRead, sysExit]

theorem Registers.call_eq_waitpid {regs : Registers} {env : SyscallEnv} {pid : UInt32} :
    regs.call env = .waitpid pid ↔ regs.eax = sysWaitpid ∧ regs.ebx = pid := by
  unfold Registers.call
  split_ifs <;> simp_all [sysRead, sysExit, sysExec, sysKill, sysWaitpid]

theorem Event.act_eq_read {e : Event} : (∃ eax, e.act = .call eax .read) ↔ e.reads = true := by
  cases e with
  | syscall regs env => simp [act, reads, Registers.call_eq_read]
  | key scancode =>
    simp only [act, reads]
    split <;> simp
  | _ => simp [act, reads]

theorem Event.act_eq_kill {e : Event} {pid : UInt32} :
    (∃ eax, e.act = .call eax (.kill pid)) ↔ e.kills = some pid := by
  cases e with
  | syscall regs env => simp [act, kills, Registers.call_eq_kill]
  | key scancode =>
    simp only [act, kills]
    split <;> simp
  | _ => simp [act, kills]

namespace Kernel

variable {k k' : Kernel} {a b c : ProcPtr} {p : Proc}

structure Wf (k : Kernel) : Prop where
  shape : k.Shape
  sound : k.table.Sound
  running : k.table.Running

theorem Wf.heap_zero (hk : k.Wf) : k.heap 0 = none := by
  have := hk.sound.zero
  simpa [table] using this

theorem Wf.current (hk : k.Wf) (hc : k.currentProc = some c) :
    ∃ p, k.heap c = some p ∧ p.life.Able := by
  obtain ⟨l, hl, hable⟩ := hk.running c hc
  simp only [table, Option.map_eq_some_iff] at hl
  obtain ⟨p, hp, rfl⟩ := hl
  exact ⟨p, hp, hable⟩

theorem Wf.procs_ne_nil (hk : k.Wf) (hc : k.currentProc = some c) : k.procs ≠ [] := by
  obtain ⟨p, hp, -⟩ := hk.current hc
  exact List.ne_nil_of_mem ((hk.shape.mem_procs c).2 ⟨p, hp⟩)

theorem pushFrame_refines {regs : Registers} (hk : k.Shape) (hc : k.currentProc = some c)
    (hp : k.heap c = some p) (h : k.pushFrame regs = .ok k') :
    k' = k.set c { p with frame := regs } ∧ k'.Shape ∧
      k'.table = k.table.upd c { p.life with eax := regs.eax } := by
  simp only [pushFrame, hc, bind_eq_ok, deref_eq_ok, pure_eq_ok, hp, Option.some.injEq,
    exists_eq_left'] at h
  subst h
  exact ⟨rfl, hk.set hp rfl, table_set ..⟩

theorem syscallBody_refines {regs : Registers} {env : SyscallEnv} (hk : k.Shape)
    (hs : k.table.Sound) (hp : k.heap c = some p) (hable : p.life.Able) (hframe : p.frame = regs)
    (h : k.syscallBody c regs.eax env = .ok k') :
    Table.Body k.table c p.life (regs.call env) k'.table ∧ k'.Shape := by
  have h0 : k.heap 0 = none := by simpa [table] using hs.zero
  subst hframe
  unfold syscallBody at h
  unfold Registers.call
  by_cases h2 : p.frame.eax = sysRead
  · simp only [if_pos h2] at h ⊢
    exact syscallRead_refines hk hp h
  simp only [if_neg h2] at h ⊢
  by_cases h7 : p.frame.eax = sysExit
  · simp only [if_pos h7] at h ⊢
    exact syscallExit_refines hk h0 hp h
  simp only [if_neg h7] at h ⊢
  by_cases h8 : p.frame.eax = sysExec
  · simp only [if_pos h8] at h ⊢
    exact syscallExec_refines hk hs hp h
  simp only [if_neg h8] at h ⊢
  by_cases h9 : p.frame.eax = sysKill
  · simp only [if_pos h9] at h ⊢
    exact syscallKill_refines hk hp h
  simp only [if_neg h9] at h ⊢
  by_cases ha : p.frame.eax = sysWaitpid
  · simp only [if_pos ha] at h ⊢
    exact syscallWaitpid_refines hk hable hp h
  simp only [if_neg ha] at h ⊢
  by_cases hf : p.frame.eax = sysGetpid
  · simp only [if_pos hf] at h ⊢
    simp only [syscallGetpid, bind_eq_ok, deref_eq_ok, hp, Option.some.injEq, exists_eq_left'] at h
    obtain ⟨htab, hshape⟩ := setEax_refines hk hp h
    rw [htab, hk.pid _ _ hp]
    exact ⟨.getpid, hshape⟩
  simp only [if_neg hf] at h ⊢
  cases hret : env.ret with
  | none =>
    simp only [hret, pure_eq_ok] at h
    subst h
    exact ⟨.otherSilent, hk⟩
  | some v =>
    simp only [hret] at h
    obtain ⟨htab, hshape⟩ := setEax_refines hk hp h
    rw [htab]
    exact ⟨.other v, hshape⟩

theorem syscallHandler_refines {regs : Registers} {env : SyscallEnv} {r : Resume} (hk : k.Wf)
    (h : k.syscallHandler regs env = .ok (k', r)) :
    Table.Step k.table (.call regs.eax (regs.call env)) k'.table ∧ k'.Shape := by
  unfold syscallHandler at h
  split at h
  · cases h
  rename_i c hc
  simp only [bind_eq_ok, deref_eq_ok] at h
  obtain ⟨k₁, hpush, k₂, hbody, q, hq, h⟩ := h
  obtain ⟨p, hp, hable⟩ := hk.current hc
  obtain ⟨rfl, hshape₁, htab₁⟩ := pushFrame_refines hk.shape hc hp hpush
  have hsound₁ : (k.set c { p with frame := regs }).table.Sound :=
    htab₁ ▸ hk.sound.upd (table_life hp)
  obtain ⟨hb, hshape₂⟩ := syscallBody_refines (p := { p with frame := regs }) hshape₁ hsound₁
    (by simp) hable rfl hbody
  rw [htab₁] at hb
  have hb : Table.Body (k.table.upd c { p.life with eax := regs.eax }) c
      { p.life with eax := regs.eax } (regs.call env) k₂.table := hb
  split at h
  · rename_i hstop
    obtain ⟨hres, hshape⟩ := schedulerCore_refines hshape₂ h
    refine ⟨?_, hshape⟩
    rcases hres with hres | ⟨hnil, -⟩
    · refine .yield (c := c) hc (table_life hp) hb (table_life hq) ?_ hres
      rw [Proc.able_iff]
      simpa using Proc.skipped_iff.2 hstop
    · have hmem := (hshape₂.mem_procs c).2 ⟨q, hq⟩
      simp [hnil] at hmem
  · rename_i hgo
    simp only [pure_eq_ok, Prod.mk.injEq] at h
    obtain ⟨rfl, -⟩ := h
    refine ⟨.call (c := c) hc (table_life hp) hb (table_life hq) ?_, hshape₂⟩
    exact Proc.able_iff.2 (by simpa [Proc.skipped] using hgo)

theorem pageFaultHandler_refines {regs : Registers} {r : Resume} (hk : k.Wf)
    (h : k.pageFaultHandler regs = .ok (k', r)) :
    Table.Step k.table (.fault regs.eax) k'.table ∧ k'.Shape := by
  unfold pageFaultHandler at h
  split at h
  · cases h
  rename_i c hc
  simp only [bind_eq_ok] at h
  obtain ⟨k₁, hpush, k₂, hmark, h⟩ := h
  obtain ⟨p, hp, hable⟩ := hk.current hc
  obtain ⟨rfl, hshape₁, htab₁⟩ := pushFrame_refines hk.shape hc hp hpush
  have hc0 : c ≠ 0 := fun heq => by simp [heq, hk.heap_zero] at hp
  have h0₁ : (k.set c { p with frame := regs }).heap 0 = none := by
    simp [Ne.symm hc0, hk.heap_zero]
  simp only [markFaulted, bind_eq_ok, deref_eq_ok, set_heap, if_true, Option.some.injEq,
    exists_eq_left'] at hmark
  obtain ⟨htab₂, hshape₂, hprocs₂⟩ := die_refines (p := { p with frame := regs }) hshape₁ h0₁ (by simp) hmark
  have hcur₂ : k₂.currentProc = some c := by
    have : k₂.table.current = some c := by
      rw [htab₂, Table.die_current, htab₁]
      exact hc
    exact this
  have h0₂ : k₂.heap 0 = none := by
    have hs : k₂.table.Sound := by
      rw [htab₂, htab₁]
      exact (hk.sound.upd (table_life hp)).die
    simpa [table] using hs.zero
  have hne : k₂.procs ≠ [] := by
    rw [hprocs₂]
    exact hk.procs_ne_nil hc
  obtain ⟨hres, hshape⟩ := schedulerOnSegfault_refines hshape₂ h0₂ hcur₂ hne h
  rw [htab₂, htab₁] at hres
  exact ⟨.fault hc (table_life hp) hres, hshape⟩

theorem kbHandleInterrupt_refines {scancode : UInt8} (hk : k.Wf)
    (h : k.kbHandleInterrupt scancode = .ok k') :
    Table.Step k.table (Event.key scancode).act k'.table ∧ k'.Shape := by
  have hsame : ∀ k₁ : Kernel, k₁.table = k.table → k₁.procs = k.procs → k₁.heap = k.heap →
      scancode ≠ 0x1C → Table.Step k.table (Event.key scancode).act k₁.table ∧ k₁.Shape := by
    intro k₁ ht hp hh hne
    rw [Event.act, if_neg hne, ht]
    exact ⟨.key, hk.shape.congr hp hh⟩
  unfold kbHandleInterrupt at h
  by_cases hrel : 0x80 ≤ scancode
  · rw [if_pos hrel, pure_eq_ok] at h
    subst h
    exact hsame _ rfl rfl rfl fun heq => by simp [heq] at hrel
  rw [if_neg hrel] at h
  by_cases hpop : scancode = 0x0E
  · rw [if_pos hpop, pure_eq_ok] at h
    subst h
    refine hsame _ ?_ ?_ ?_ (by simp [hpop]) <;> unfold stdinPop <;> split <;> rfl
  rw [if_neg hpop] at h
  by_cases hflush : scancode = 0x1C
  · rw [if_pos hflush] at h
    rw [Event.act, if_pos hflush]
    unfold stdinFlush at h
    split at h
    · rename_i hw
      rw [pure_eq_ok] at h
      subst h
      exact ⟨.enterNone (by simp [table, hw]), hk.shape⟩
    · rename_i w hw
      simp only [schedulerWakeStdin, bind_eq_ok, deref_eq_ok, pure_eq_ok] at h
      obtain ⟨_, ⟨p, hp, rfl⟩, rfl⟩ := h
      refine ⟨?_, (hk.shape.set (o := { p with
        stdinKernelBuf := true, stdinKernelBufLen := k.stdinBufLen % 256, procState := .ready })
        hp rfl).congr rfl rfl⟩
      have htab := table_set k w.p { p with
        stdinKernelBuf := true, stdinKernelBufLen := k.stdinBufLen % 256, procState := .ready }
      have hstep := Table.Step.enter (T := k.table) (w := w.p) (by simp [table, hw])
        (table_life hp)
      have hgoal : ∀ k₁ : Kernel, ({ k₁ with stdinBufLen := 0, waitingStdin := none } : Kernel).table =
          { k₁.table with waiting := none } := fun _ => rfl
      rw [hgoal, htab]
      exact hstep
  rw [if_neg hflush] at h
  by_cases hnone : scancode = 0x00
  · rw [if_pos hnone, pure_eq_ok] at h
    subst h
    exact hsame _ rfl rfl rfl hflush
  rw [if_neg hnone] at h
  dsimp only at h
  split at h <;> rw [pure_eq_ok] at h <;> subst h
  · refine hsame _ ?_ ?_ ?_ hflush <;> unfold stdinPut <;> split <;> rfl
  · exact hsame _ rfl rfl rfl hflush

theorem timer_refines {regs : Registers} {r : Resume} {k₁ : Kernel} (hk : k.Wf)
    (hpush : k.pushFrame regs = .ok k₁) (h : k₁.schedulerCore = .ok (k', r)) :
    Table.Step k.table (.tick regs.eax) k'.table ∧ k'.Shape := by
  cases hc : k.currentProc with
  | none =>
    simp only [pushFrame, hc, pure_eq_ok] at hpush
    subst hpush
    obtain ⟨hres, hshape⟩ := schedulerCore_refines hk.shape h
    refine ⟨?_, hshape⟩
    rcases hres with hres | ⟨-, rfl⟩
    · exact .tickIdle hc hres
    · exact .tickEmpty hc
  | some c =>
    obtain ⟨p, hp, -⟩ := hk.current hc
    obtain ⟨rfl, hshape₁, htab₁⟩ := pushFrame_refines hk.shape hc hp hpush
    obtain ⟨hres, hshape⟩ := schedulerCore_refines hshape₁ h
    refine ⟨?_, hshape⟩
    rcases hres with hres | ⟨hnil, -⟩
    · rw [htab₁] at hres
      exact .tick hc (table_life hp) hres
    · exact absurd hnil (hk.procs_ne_nil hc)

/-- Every step of the kernel is a step of the lifecycle machine. -/
theorem step_refines {e : Event} (hk : k.Wf) (h : k.step e = .ok k') :
    Table.Step k.table e.act k'.table ∧ k'.Wf := by
  have hstep : Table.Step k.table e.act k'.table ∧ k'.Shape := by
    cases e with
    | syscall regs env =>
      simp only [step, bind_eq_ok, pure_eq_ok] at h
      obtain ⟨⟨k₁, r⟩, hrun, rfl⟩ := h
      exact syscallHandler_refines hk hrun
    | pageFault regs =>
      simp only [step, bind_eq_ok, pure_eq_ok] at h
      obtain ⟨⟨k₁, r⟩, hrun, rfl⟩ := h
      exact pageFaultHandler_refines hk hrun
    | key scancode => exact kbHandleInterrupt_refines hk h
    | timer regs =>
      simp only [step, bind_eq_ok, pure_eq_ok] at h
      obtain ⟨k₁, hpush, ⟨k₂, r⟩, hrun, rfl⟩ := h
      exact timer_refines hk hpush hrun
  exact ⟨hstep.1, hstep.2, hk.sound.step hstep.1, hk.running.step hstep.1⟩

/-! ## Boot -/

theorem boot_wf {genkan : Image} (h : boot genkan = .ok k) :
    k.Wf ∧ k.table = init.table.spawn := by
  simp only [boot, bind_eq_ok, pure_eq_ok] at h
  obtain ⟨⟨k₁, pid⟩, hload, rfl⟩ := h
  have hshape : init.Shape := ⟨List.nodup_nil, by simp [init], by simp [init]⟩
  have hsound : init.table.Sound := ⟨by simp [table, init], by simp [table, init], by
    simp [table, init]⟩
  obtain ⟨hcnt, -, htab, hshape₁, -⟩ :=
    elfLoad_refines hshape hsound hload
  refine ⟨⟨hshape₁, htab ▸ hsound.spawn hcnt, ?_⟩, htab⟩
  rw [htab]
  intro c hc
  simp [Table.spawn, table, init] at hc

end Kernel

end Kaku

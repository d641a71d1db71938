-- SUMMARY: The two dispatch paths of the scheduler agree exactly when the next process has no dispatch work pending.
import Kaku.Proc.Waiting

/-!
# The two dispatch paths

After a page fault `scheduler_on_segfault` picks the next process as
`__scheduler_core` does, but then returns to user mode at once: a line waiting
in `stdin_kernel_buf` is not copied, and a STARTING process gets no argument
block. The kernel states below are arbitrary, not only those reached from boot.
-/

namespace Kaku.Kernel

variable {k k₁ k' : Kernel} {a c : ProcPtr} {p : Proc} {r : Resume}

/-- Nothing is left to do for the process before it enters user mode. -/
def Settled (k : Kernel) (a : ProcPtr) : Prop :=
  ∃ p, k.heap a = some p ∧ p.procState ≠ .starting ∧ p.stdinKernelBuf = false

/-- The queue position both paths pick from once the running process is gone. -/
def wrapHead (k : Kernel) : Kernel :=
  { k with currentProc := none, procsHead := k.procsHead % k.procs.length }

/-! ## The second notification -/

/-- The look-up reads pids only. -/
theorem schedulerGetProcFrom_set {pid : UInt32} {o : Proc} (l : List ProcPtr)
    (hp : k.heap a = some p) (ho : o.procId = p.procId) :
    (k.set a o).schedulerGetProcFrom pid l = k.schedulerGetProcFrom pid l := by
  induction l with
  | nil => rfl
  | cons b l ih =>
    by_cases hb : b = a
    · subst hb
      have h₁ : (k.set b o).deref b = .ok o := by simp
      have h₂ : k.deref b = .ok p := by simpa using hp
      simp only [schedulerGetProcFrom, h₁, h₂, ok_bind, ho, ih]
    · have hd : (k.set a o).deref b = k.deref b := by simp [deref, hb]
      simp only [schedulerGetProcFrom, hd, ih]

/-- The parent object a notification changes, if it changes any. -/
theorem schedulerNotifyParent_cases (h : k.schedulerNotifyParent c = .ok k₁) :
    k₁ = k ∨ ∃ o a p, k.heap c = some o ∧ o.parentPid ≠ 0 ∧
      k.schedulerGetProc o.parentPid = .ok (some a) ∧ k.heap a = some p ∧
      p.procState = .blocked ∧ k₁ = k.set a { p with procState := .ready, waitingFor := 0 } := by
  simp only [schedulerNotifyParent, bind_eq_ok, deref_eq_ok] at h
  obtain ⟨o, ho, h⟩ := h
  split at h
  · exact .inl (pure_eq_ok.1 h).symm
  rename_i hpar
  simp only [bind_eq_ok] at h
  obtain ⟨found, hfound, h⟩ := h
  cases found with
  | none => exact .inl (pure_eq_ok.1 h).symm
  | some a =>
    simp only [bind_eq_ok, deref_eq_ok] at h
    obtain ⟨p, hp, h⟩ := h
    split at h
    · rename_i hcond
      exact .inr ⟨o, a, p, ho, hpar, hfound, hp, hcond.1, (pure_eq_ok.1 h).symm⟩
    · exact .inl (pure_eq_ok.1 h).symm

/-- A parent that has been notified is not waiting any more. -/
theorem schedulerNotifyParent_again (h : k.schedulerNotifyParent c = .ok k₁) :
    k₁.schedulerNotifyParent c = .ok k₁ := by
  rcases schedulerNotifyParent_cases h with rfl | ⟨o, a, p, ho, hpar, hfound, hp, -, rfl⟩
  · exact h
  -- The parent is READY now; the look-up still finds it, and passes it by.
  obtain ⟨o', ho', hpar'⟩ : ∃ o', (k.set a { p with procState := .ready, waitingFor := 0 }).heap c
      = some o' ∧ o'.parentPid = o.parentPid := by
    by_cases hca : c = a
    · subst hca
      rw [hp, Option.some.injEq] at ho
      exact ⟨{ p with procState := .ready, waitingFor := 0 }, by simp, by rw [← ho]⟩
    · exact ⟨o, by simpa [hca] using ho, rfl⟩
  have hget : (k.set a { p with procState := .ready, waitingFor := 0 }).schedulerGetProc
      o.parentPid = .ok (some a) := by
    rw [← hfound]
    exact schedulerGetProcFrom_set k.procs hp rfl
  have hparent : (k.set a { p with procState := .ready, waitingFor := 0 }).deref a =
      .ok { p with procState := .ready, waitingFor := 0 } := by simp
  simp only [schedulerNotifyParent, deref_eq_ok.2 ho', ok_bind, hpar', if_neg hpar, hget, hparent]
  rfl

/-- What `scheduler_on_segfault` finds: the faulted process is still the running
one, dead, and its parent has been notified. -/
theorem markFaulted_spec (h : k.markFaulted c = .ok k₁) :
    k₁.currentProc = k.currentProc ∧ k₁.schedulerNotifyParent c = .ok k₁ ∧
      ∃ q, k₁.heap c = some q ∧ q.procState = .zombie := by
  simp only [markFaulted, bind_eq_ok, deref_eq_ok] at h
  obtain ⟨p, -, h⟩ := h
  refine ⟨?_, schedulerNotifyParent_again h, ?_⟩
  · rcases schedulerNotifyParent_cases h with rfl | ⟨-, a, q, -, -, -, -, -, rfl⟩ <;> rfl
  · have hc : (k.set c { p with procState := .zombie, exitCode := 139 }).heap c =
        some { p with procState := .zombie, exitCode := 139 } := by simp
    rcases schedulerNotifyParent_cases h with rfl | ⟨-, a, q, -, -, -, hq, hblocked, rfl⟩
    · exact ⟨_, hc, rfl⟩
    · have hca : c ≠ a := by
        rintro rfl
        rw [hc, Option.some.injEq] at hq
        rw [← hq] at hblocked
        cases hblocked
      exact ⟨{ p with procState := .zombie, exitCode := 139 }, by simp [hca], rfl⟩

/-! ## Comparing the paths -/

/-- The process picked next has no dispatch work pending. -/
def NextSettled (k : Kernel) : Prop :=
  ∀ k' a, k.wrapHead.pickNextReadyProc = .ok (k', some a) → k.Settled a

/-- What `__scheduler_core` does with the process it has picked. -/
def enterUser (k : Kernel) (a : ProcPtr) : K (Kernel × Resume) := do
  let k ← (k.switchTo a).schedFlushProcBufs a
  let p ← k.deref a
  if p.procState = .starting then do
    let p ← layoutArgs p
    pure (k.set a p, .proc a)
  else pure (k, .proc a)

theorem enterUser_settled (h : k.enterUser a = .ok (k', r)) : r = .proc a ∧ k'.Settled a := by
  simp only [enterUser, schedFlushProcBufs, bind_eq_ok, deref_eq_ok] at h
  obtain ⟨k₂, ⟨p, hp, hflush⟩, q, hq, h⟩ := h
  have hbuf : q.stdinKernelBuf = false := by
    split at hflush
    · simp only [bind_eq_ok, pure_eq_ok] at hflush
      obtain ⟨u, -, v, -, rfl⟩ := hflush
      simp only [set_heap, if_true, Option.some.injEq] at hq
      rw [← hq]
    · rename_i hno
      simp only [pure_eq_ok] at hflush
      subst hflush
      rw [hp, Option.some.injEq] at hq
      simpa [← hq] using hno
  split at h
  · simp only [bind_eq_ok, pure_eq_ok, Prod.mk.injEq] at h
    obtain ⟨o, hlayout, rfl, rfl⟩ := h
    simp only [layoutArgs, bind_eq_ok, pure_eq_ok] at hlayout
    obtain ⟨_, -, _, -, _, -, ⟨u, addr⟩, -, rfl⟩ := hlayout
    exact ⟨rfl, { q with space := u, frame := { q.frame with userEsp := addr }, procState := .ready },
      by simp, by simp, hbuf⟩
  · rename_i hstate
    simp only [pure_eq_ok, Prod.mk.injEq] at h
    obtain ⟨rfl, rfl⟩ := h
    exact ⟨rfl, q, hq, hstate, hbuf⟩

theorem enterUser_of_settled (h : k.Settled a) :
    k.enterUser a = .ok (k.switchTo a, .proc a) := by
  obtain ⟨p, hp, hstate, hbuf⟩ := h
  have hd : (k.switchTo a).deref a = .ok p := deref_eq_ok.2 hp
  have hflush : (k.switchTo a).schedFlushProcBufs a = .ok (k.switchTo a) := by
    simp only [schedFlushProcBufs, hd, ok_bind, hbuf]
    rfl
  simp only [enterUser, hflush, ok_bind, hd, if_neg hstate]
  rfl

/-- `__scheduler_core`, once the zombie it was called on is dropped. -/
theorem schedulerCore_eq {q : Proc} (hne : k.procs.length ≠ 0) (hc : k.currentProc = some c)
    (hq : k.heap c = some q) (hz : q.procState = .zombie) :
    k.schedulerCore = (do
      let (k, next) ← k.wrapHead.pickNextReadyProc
      match next with
      | none => pure (k.switchToIdle, .idle)
      | some a => k.enterUser a) := by
  have hdrop : k.dropZombieCurrent = .ok k.wrapHead := by
    simp only [dropZombieCurrent, hc, deref_eq_ok.2 hq, ok_bind, hz, if_true]
    rfl
  rw [schedulerCore, if_neg hne, hdrop]
  rfl

/-- `scheduler_on_segfault`, once the parent has been notified. -/
theorem schedulerOnSegfault_eq (hne : k.procs.length ≠ 0) (hc : k.currentProc = some c)
    (hn : k.schedulerNotifyParent c = .ok k) :
    k.schedulerOnSegfault = (do
      let (k, next) ← k.wrapHead.pickNextReadyProc
      match next with
      | none => pure (k.switchToIdle, .idle)
      | some a => pure (k.switchTo a, .proc a)) := by
  simp only [schedulerOnSegfault, if_neg hne, hc, hn, ok_bind]
  rfl

theorem settled_of_picked (h : k.wrapHead.pickNextReadyProc = .ok (k', some a)) :
    k'.Settled a ↔ k.Settled a := by
  obtain ⟨⟨head, rfl⟩, -⟩ := pickNextReadyProc_spec h
  exact Iff.rfl

theorem nextSettled_of_empty (h : k.procs.length = 0) : k.NextSettled := by
  intro k' a hpick
  simp [pickNextReadyProc, wrapHead, h, pickLoop] at hpick

/-- Both paths put the same process into user mode; they leave it alike exactly
when it is not STARTING and no line waits for it. `__scheduler_core` always leaves
it so, `scheduler_on_segfault` only then. -/
theorem dispatch_agrees (hc : k.currentProc = some c) (hfault : k.markFaulted c = .ok k₁) :
    (k₁.schedulerOnSegfault = k₁.schedulerCore ↔ k₁.NextSettled) ∧
      ((∀ k' a, k₁.schedulerOnSegfault = .ok (k', .proc a) → k'.Settled a) ↔ k₁.NextSettled) ∧
      ∀ k' a, k₁.schedulerCore = .ok (k', .proc a) → k'.Settled a := by
  obtain ⟨hcur, hnotified, q, hq, hz⟩ := markFaulted_spec hfault
  rw [hc] at hcur
  by_cases hne : k₁.procs.length = 0
  · have hseg : k₁.schedulerOnSegfault = .ok (k₁, .regs) := by
      rw [schedulerOnSegfault, if_pos hne]
      rfl
    have hcore : k₁.schedulerCore = .ok (k₁, .regs) := by
      rw [schedulerCore, if_pos hne]
      rfl
    have hnext := nextSettled_of_empty hne
    exact ⟨by simp [hseg, hcore, hnext], by simp [hseg, hnext], by simp [hcore]⟩
  rw [schedulerOnSegfault_eq hne hcur hnotified, schedulerCore_eq hne hcur hq hz]
  cases hpick : k₁.wrapHead.pickNextReadyProc with
  | error f =>
    have hnext : k₁.NextSettled := by
      intro k' a h
      simp [hpick] at h
    exact ⟨by simp [bind, Except.bind, hnext], by simp [bind, Except.bind, hnext],
      by simp [bind, Except.bind]⟩
  | ok result =>
    obtain ⟨k₂, next⟩ := result
    cases next with
    | none =>
      have hnext : k₁.NextSettled := by
        intro k' a h
        simp [hpick] at h
      simp only [ok_bind]
      exact ⟨by simp [hnext], by simp [hnext, pure, Except.pure], by simp [pure, Except.pure]⟩
    | some a =>
      have hnext : k₁.NextSettled ↔ k₂.Settled a := by
        constructor
        · intro h
          exact (settled_of_picked hpick).2 (h k₂ a hpick)
        · intro h k' b hb
          rw [hpick, Except.ok.injEq, Prod.mk.injEq, Option.some.injEq] at hb
          obtain ⟨rfl, rfl⟩ := hb
          exact (settled_of_picked hpick).1 h
      simp only [ok_bind, hnext]
      refine ⟨⟨fun h => ?_, fun h => (enterUser_of_settled h).symm⟩, ⟨fun h => ?_, ?_⟩, ?_⟩
      · exact (enterUser_settled h.symm).2
      · exact h (k₂.switchTo a) a rfl
      · rintro h k' b hb
        simp only [pure_eq_ok, Prod.mk.injEq, Resume.proc.injEq] at hb
        obtain ⟨rfl, rfl⟩ := hb
        exact h
      · intro k' b hb
        obtain ⟨hba, hsettled⟩ := enterUser_settled hb
        rw [Resume.proc.injEq] at hba
        exact hba ▸ hsettled

/-- The child has run once and is READY when its parent faults. -/
theorem dispatch_agrees_ready :
    ∃ k₀ k k₁, boot bareImage = .ok k₀ ∧
      Run (Guarded (fun _ _ => True) step) k₀ [tick, trapExec, tick, tick] k ∧
      k.markFaulted 1 = .ok k₁ ∧ (∃ k', k₁.wrapHead.pickNextReadyProc = .ok (k', some 2)) ∧
      k₁.schedulerOnSegfault = k₁.schedulerCore := by
  obtain ⟨k₀, k, hboot, hrun, hp⟩ := exists_run_of_boot (fun _ _ => True)
    bareImage [tick, trapExec, tick, tick]
    (fun k => decide (k.currentProc = some 1) && (k.markFaulted 1).toOption.any fun k₁ =>
      k₁.wrapHead.pickNextReadyProc.toOption.any fun r => decide (r.2 = some 2) &&
        (k₁.heap 2).any fun p => p.procState != .starting && !p.stdinKernelBuf) (by decide)
  simp only [Bool.and_eq_true, decide_eq_true_eq, toOption_any] at hp
  obtain ⟨hcur, k₁, hfault, ⟨k', next⟩, hpick, hnext, hchild⟩ := hp
  simp only at hnext
  subst hnext
  obtain ⟨p, hp, hsettled⟩ := Option.any_eq_true _ _ |>.1 hchild
  simp only [Bool.and_eq_true, bne_iff_ne, Bool.not_eq_true'] at hsettled
  refine ⟨k₀, k, k₁, hboot, hrun, hfault, ⟨k', hpick⟩, (dispatch_agrees hcur hfault).1.2 ?_⟩
  intro k'' a hpick'
  rw [hpick, Except.ok.injEq, Prod.mk.injEq, Option.some.injEq] at hpick'
  exact hpick'.2 ▸ ⟨p, hp, hsettled.1, hsettled.2⟩

/-- The parent faults right after it has created a child: the child enters user
mode while it is still STARTING. -/
theorem dispatch_starting :
    ∃ k₀ k k₁ k', boot bareImage = .ok k₀ ∧
      Run (Guarded (fun _ _ => True) step) k₀ [tick, trapExec] k ∧
      k.currentProc = some 1 ∧ k.markFaulted 1 = .ok k₁ ∧
      k₁.schedulerOnSegfault = .ok (k', .proc 2) ∧
      (∃ p, k'.heap 2 = some p ∧ p.procState = .starting) ∧
      k₁.schedulerOnSegfault ≠ k₁.schedulerCore := by
  obtain ⟨k₀, k, hboot, hrun, hp⟩ := exists_run_of_boot (fun _ _ => True)
    bareImage [tick, trapExec]
    (fun k => decide (k.currentProc = some 1) && (k.markFaulted 1).toOption.any fun k₁ =>
      k₁.schedulerOnSegfault.toOption.any fun r => decide (r.2 = .proc 2) &&
        ((r.1.heap 2).any fun p => p.procState == .starting) &&
        k₁.schedulerCore.toOption.any fun r =>
          (r.1.heap 2).any fun p => p.procState == .ready) (by decide)
  simp only [Bool.and_eq_true, decide_eq_true_eq, toOption_any] at hp
  obtain ⟨hcur, k₁, hfault, ⟨k', r⟩, hseg, ⟨hr, hstarting⟩, ⟨kc, rc⟩, hcore, hready⟩ := hp
  simp only at hr hstarting hready
  subst hr
  obtain ⟨p, hp, hs⟩ := Option.any_eq_true _ _ |>.1 hstarting
  obtain ⟨q, hq, hs'⟩ := Option.any_eq_true _ _ |>.1 hready
  rw [beq_iff_eq] at hs hs'
  refine ⟨k₀, k, k₁, k', hboot, hrun, hcur, hfault, hseg, ⟨p, hp, hs⟩, fun hagree => ?_⟩
  rw [hseg, hcore, Except.ok.injEq, Prod.mk.injEq] at hagree
  rw [hagree.1, hq, Option.some.injEq] at hp
  rw [← hp, hs'] at hs
  cases hs

end Kaku.Kernel

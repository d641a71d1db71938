-- SUMMARY: From the keys of a line to the bytes its reader gets, in every run of the kernel.
import Kaku.Proc.Copy
import Kaku.Proc.Dispatch
import Kaku.Proc.Waiting

/-!
# The line a reader gets

Enter does not copy the line: it points the reader's `stdin_kernel_buf` at
`__stdin_buf`, and `__sched_flush_proc_bufs` copies when the reader is dispatched.
In between, the next line is edited in the same buffer, from its start. The length
travels through a `uint8_t` parameter on the way.

What a user has typed is not in the kernel's state. A history keeps the edited line
and, for each reader, the line of the Enter that woke it.
-/

namespace Kaku

/-- The character a key press adds to the line. -/
def kbChar (scancode : UInt8) : Option UInt8 :=
  if 0x80 ≤ scancode ∨ scancode = 0x0E ∨ scancode = 0x1C ∨ kbMap scancode = 0 then none
  else some (kbMap scancode)

/-- The bytes a process finds in its read buffer. -/
def Proc.received (p : Proc) (n : Nat) : List UInt8 :=
  (List.range n).map fun i => p.space.byte (p.stdinUserBuf + UInt32.ofNat i)

namespace Kernel

variable {k k' k₁ k₂ : Kernel} {a b c : ProcPtr} {p p' o : Proc} {e : Event}

/-- `kb_handle_interrupt` by what the key does. -/
theorem kbHandleInterrupt_eq {scancode : UInt8} :
    k.kbHandleInterrupt scancode =
      if scancode = 0x0E then .ok k.stdinPop
      else if scancode = 0x1C then k.stdinFlush
      else match kbChar scancode with
        | some c => .ok (k.stdinPut c)
        | none => .ok k := by
  rcases eq_or_ne scancode 0x0E with rfl | hpop
  · rfl
  rcases eq_or_ne scancode 0x1C with rfl | hflush
  · rfl
  rw [if_neg hpop, if_neg hflush, kbHandleInterrupt, kbChar, if_neg hpop, if_neg hflush]
  by_cases hrel : 0x80 ≤ scancode
  · simp [hrel, pure, Except.pure]
  rcases eq_or_ne scancode 0 with rfl | hzero
  · rfl
  by_cases hmap : kbMap scancode = 0 <;>
    simp [hrel, hzero, hmap, hpop, hflush, pure, Except.pure]

/-! ## What leaves the handed-over lines alone -/

/-- The same line handed over, and nobody goes back to STARTING. -/
structure SameLine (p p' : Proc) : Prop where
  buf : p'.stdinKernelBuf = p.stdinKernelBuf
  len : p'.stdinKernelBufLen = p.stdinKernelBufLen
  starting : p'.procState = .starting → p.procState = .starting

theorem SameLine.refl (p : Proc) : SameLine p p := ⟨rfl, rfl, id⟩

theorem SameLine.trans {q : Proc} (h : SameLine p q) (h' : SameLine q p') : SameLine p p' :=
  ⟨h'.buf.trans h.buf, h'.len.trans h.len, fun hs => h.starting (h'.starting hs)⟩

/-- The same buffer to read into. -/
structure SameRead (p p' : Proc) : Prop where
  userBuf : p'.stdinUserBuf = p.stdinUserBuf
  userBufSize : p'.stdinUserBufSize = p.stdinUserBufSize

theorem SameRead.refl (p : Proc) : SameRead p p := ⟨rfl, rfl⟩

theorem SameRead.trans {q : Proc} (h : SameRead p q) (h' : SameRead q p') : SameRead p p' :=
  ⟨h'.userBuf.trans h.userBuf, h'.userBufSize.trans h.userBufSize⟩

/-- The line buffer is as before, and so is every process that is left. -/
structure LinesKept (k k' : Kernel) : Prop where
  text : k'.stdinBuf = k.stdinBuf
  len : k'.stdinBufLen = k.stdinBufLen
  waiting : k'.waitingStdin = k.waitingStdin
  counter : k'.pidCounter = k.pidCounter
  proc : ∀ a p', k'.heap a = some p' → ∃ p, k.heap a = some p ∧ SameLine p p' ∧ SameRead p p'

namespace LinesKept

theorem of_heap (ht : k'.stdinBuf = k.stdinBuf) (hl : k'.stdinBufLen = k.stdinBufLen)
    (hw : k'.waitingStdin = k.waitingStdin) (hc : k'.pidCounter = k.pidCounter)
    (hh : k'.heap = k.heap) : LinesKept k k' := by
  refine ⟨ht, hl, hw, hc, fun a p' hp' => ⟨p', ?_, .refl p', .refl p'⟩⟩
  rw [← hh]
  exact hp'

theorem refl (k : Kernel) : LinesKept k k := .of_heap rfl rfl rfl rfl rfl

theorem trans (h : LinesKept k k₁) (h' : LinesKept k₁ k₂) : LinesKept k k₂ := by
  refine ⟨h'.text.trans h.text, h'.len.trans h.len, h'.waiting.trans h.waiting,
    h'.counter.trans h.counter, ?_⟩
  intro a p₂ hp₂
  obtain ⟨p₁, hp₁, hsame, hread⟩ := h'.proc a p₂ hp₂
  obtain ⟨p, hp, hsame', hread'⟩ := h.proc a p₁ hp₁
  exact ⟨p, hp, hsame'.trans hsame, hread'.trans hread⟩

theorem set (hp : k.heap a = some p) (ho : SameLine p o) (hr : SameRead p o) :
    LinesKept k (k.set a o) := by
  refine ⟨rfl, rfl, rfl, rfl, fun b q hq => ?_⟩
  rw [set_heap] at hq
  split at hq
  · rename_i hb
    rw [Option.some.injEq] at hq
    subst hb hq
    exact ⟨p, hp, ho, hr⟩
  · exact ⟨q, hq, .refl q, .refl q⟩

end LinesKept

theorem setEax_kept {v : UInt32} (h : k.setEax a v = .ok k') : LinesKept k k' := by
  simp only [setEax, bind_eq_ok, deref_eq_ok, pure_eq_ok] at h
  obtain ⟨p, hp, rfl⟩ := h
  exact .set hp ⟨rfl, rfl, id⟩ ⟨rfl, rfl⟩

theorem pushFrame_kept {regs : Registers} (h : k.pushFrame regs = .ok k') : LinesKept k k' := by
  unfold pushFrame at h
  split at h
  · rw [pure_eq_ok] at h
    exact h ▸ .refl k
  · simp only [bind_eq_ok, deref_eq_ok, pure_eq_ok] at h
    obtain ⟨p, hp, rfl⟩ := h
    exact .set hp ⟨rfl, rfl, id⟩ ⟨rfl, rfl⟩

theorem schedulerNotifyParent_kept (h : k.schedulerNotifyParent c = .ok k') : LinesKept k k' := by
  rcases schedulerNotifyParent_cases h with rfl | ⟨o, a, p, -, -, -, hp, -, rfl⟩
  · exact .refl _
  · exact .set hp ⟨rfl, rfl, fun hs => by cases hs⟩ ⟨rfl, rfl⟩

theorem die_kept {code : UInt32} (hp : k.heap c = some p)
    (h : (k.set c { p with procState := .zombie, exitCode := code }).schedulerNotifyParent c =
      .ok k') : LinesKept k k' := by
  have hset : LinesKept k (k.set c { p with procState := .zombie, exitCode := code }) :=
    .set hp ⟨rfl, rfl, fun hs => by cases hs⟩ ⟨rfl, rfl⟩
  exact hset.trans (schedulerNotifyParent_kept h)

theorem schedulerReapChild_kept {pid code : UInt32}
    (h : k.schedulerReapChild pid = .ok (k', code)) : LinesKept k k' := by
  simp only [schedulerReapChild, bind_eq_ok] at h
  obtain ⟨found, -, h⟩ := h
  cases found with
  | none =>
    simp only [pure_eq_ok, Prod.mk.injEq] at h
    exact h.1 ▸ .refl k
  | some b =>
    simp only [bind_eq_ok, deref_eq_ok] at h
    obtain ⟨child, -, h⟩ := h
    split at h
    · simp only [pure_eq_ok, Prod.mk.injEq] at h
      exact h.1 ▸ .refl k
    · simp only [pure_eq_ok, Prod.mk.injEq] at h
      obtain ⟨rfl, -⟩ := h
      refine ⟨rfl, rfl, rfl, rfl, fun a q hq => ?_⟩
      simp only [procDestroy] at hq
      split at hq
      · cases hq
      · exact ⟨q, hq, .refl q, .refl q⟩

theorem pickNextReadyProc_kept {next : Option ProcPtr}
    (h : k.pickNextReadyProc = .ok (k', next)) : LinesKept k k' := by
  obtain ⟨⟨head, rfl⟩, -⟩ := pickNextReadyProc_spec h
  exact .of_heap rfl rfl rfl rfl rfl

theorem schedulerOnSegfault_kept {r : Resume} (h : k.schedulerOnSegfault = .ok (k', r)) :
    LinesKept k k' := by
  unfold schedulerOnSegfault at h
  split at h
  · simp only [pure_eq_ok, Prod.mk.injEq] at h
    exact h.1 ▸ .refl k
  cases hc : k.currentProc with
  | none =>
    rw [hc] at h
    cases h
  | some c =>
  rw [hc] at h
  simp only [bind_eq_ok] at h
  obtain ⟨k₁, hnotify, h⟩ := h
  have hkept := schedulerNotifyParent_kept hnotify
  split at h
  · cases h
  simp only [bind_eq_ok] at h
  obtain ⟨⟨k₂, next⟩, hpick, h⟩ := h
  have hpicked := pickNextReadyProc_kept hpick
  have hcur : LinesKept k₁ k₂ :=
    ⟨hpicked.text, hpicked.len, hpicked.waiting, hpicked.counter, hpicked.proc⟩
  have hlast : LinesKept k₂ k' := by
    cases next <;> simp only [pure_eq_ok, Prod.mk.injEq] at h <;> obtain ⟨rfl, -⟩ := h <;>
      exact .of_heap rfl rfl rfl rfl rfl
  exact (hkept.trans hcur).trans hlast

/-! ## System calls -/

/-- What a process records of the `SYS_READ` that is made, if one is made, and by whom. -/
def Records (r : Option StdinWaitingProc) (a : ProcPtr) (p p' : Proc) : Prop :=
  if r.map StdinWaitingProc.p = some a then
    r = some ⟨a, p'.stdinUserBuf, p'.stdinUserBufSize⟩
  else SameRead p p'

/-- As `LinesKept`, with at most one new process, which is handed no line, and with the
`SYS_READ` that is made. -/
structure LinesCarried (k k' : Kernel) (r : Option StdinWaitingProc) : Prop where
  text : k'.stdinBuf = k.stdinBuf
  len : k'.stdinBufLen = k.stdinBufLen
  waiting : k'.waitingStdin = r.or k.waitingStdin
  proc : ∀ a p', k'.heap a = some p' →
    (∃ p, k.heap a = some p ∧ SameLine p p' ∧ Records r a p p') ∨
      k.pidCounter ≠ 0 ∧ a = k.pidCounter ∧ p'.stdinKernelBuf = false

/-- A process that is left has its buffer from the read that is made, or as before. -/
theorem Records.cases {r : Option StdinWaitingProc} (h : Records r a p p') :
    r = some ⟨a, p'.stdinUserBuf, p'.stdinUserBufSize⟩ ∨
      r.map StdinWaitingProc.p ≠ some a ∧ SameRead p p' := by
  unfold Records at h
  split at h
  · exact .inl h
  · rename_i hne
    exact .inr ⟨hne, h⟩

theorem Records.before {r : Option StdinWaitingProc} {q : Proc} (h : SameRead p q)
    (h' : Records r a q p') : Records r a p p' := by
  unfold Records at h' ⊢
  split
  · rename_i ha
    rwa [if_pos ha] at h'
  · rename_i ha
    rw [if_neg ha] at h'
    exact h.trans h'

theorem Records.after {r : Option StdinWaitingProc} {q : Proc} (h : Records r a p q)
    (h' : SameRead q p') : Records r a p p' := by
  unfold Records at h ⊢
  split
  · rename_i ha
    rw [if_pos ha] at h
    rw [h, h'.userBuf, h'.userBufSize]
  · rename_i ha
    rw [if_neg ha] at h
    exact h.trans h'

theorem LinesKept.carried (h : LinesKept k k') : LinesCarried k k' none := by
  refine ⟨h.text, h.len, h.waiting, fun a p' hp' => ?_⟩
  obtain ⟨p, hp, hsame, hread⟩ := h.proc a p' hp'
  exact .inl ⟨p, hp, hsame, hread⟩

theorem LinesKept.carry {r : Option StdinWaitingProc} (h : LinesKept k k₁)
    (h' : LinesCarried k₁ k₂ r) : LinesCarried k k₂ r := by
  refine ⟨h'.text.trans h.text, h'.len.trans h.len, by rw [h'.waiting, h.waiting],
    fun a p₂ hp₂ => ?_⟩
  rcases h'.proc a p₂ hp₂ with ⟨p₁, hp₁, hsame, hread⟩ | hnew
  · obtain ⟨p, hp, hsame', hread'⟩ := h.proc a p₁ hp₁
    exact .inl ⟨p, hp, hsame'.trans hsame, .before hread' hread⟩
  · rw [h.counter] at hnew
    exact .inr hnew

theorem LinesCarried.kept {r : Option StdinWaitingProc} (h : LinesCarried k k₁ r)
    (h' : LinesKept k₁ k₂) : LinesCarried k k₂ r := by
  refine ⟨h'.text.trans h.text, h'.len.trans h.len, h'.waiting.trans h.waiting, fun a p₂ hp₂ => ?_⟩
  obtain ⟨p₁, hp₁, hsame, hread⟩ := h'.proc a p₂ hp₂
  rcases h.proc a p₁ hp₁ with ⟨p, hp, hsame', hread'⟩ | ⟨hc, ha, hbuf⟩
  · exact .inl ⟨p, hp, hsame'.trans hsame, hread'.after hread⟩
  · exact .inr ⟨hc, ha, hsame.buf.trans hbuf⟩

/-- A process starts to read. -/
theorem syscallRead_carried (hp : k.heap c = some p) (h : k.syscallRead c = .ok k') :
    LinesCarried k k' (some ⟨c, p.frame.ebx, p.frame.ecx⟩) := by
  simp only [syscallRead, deref_eq_ok.2 hp, ok_bind, pure_eq_ok] at h
  subst h
  refine ⟨rfl, rfl, rfl, fun a q hq => .inl ?_⟩
  simp only [stdinWait, set_heap] at hq
  split at hq
  · rename_i ha
    obtain rfl := Option.some.inj hq
    subst ha
    exact ⟨p, hp, ⟨rfl, rfl, fun hs => by cases hs⟩, by simp [Records]⟩
  · rename_i ha
    exact ⟨q, hq, .refl q, by simpa [Records, Ne.symm ha] using SameRead.refl q⟩

theorem elfLoad_carried {image : Option Image} {pid : UInt32}
    (h : k.elfLoad image = .ok (k', pid)) : LinesCarried k k' none := by
  cases image with
  | none =>
    simp only [elfLoad, pure_eq_ok, Prod.mk.injEq] at h
    exact h.1 ▸ (LinesKept.refl k).carried
  | some img =>
    simp only [elfLoad, procCreate, bind_eq_ok] at h
    obtain ⟨⟨k₁, a⟩, hcreate, p, hp, h⟩ := h
    split at hcreate
    · cases hcreate
    rename_i hcnt
    simp only [bind_eq_ok, pure_eq_ok, Prod.mk.injEq] at hcreate h
    obtain ⟨ppid, -, rfl, rfl⟩ := hcreate
    obtain ⟨rfl, -⟩ := h
    simp only [deref_eq_ok, set_heap, if_true, Option.some.injEq] at hp
    refine ⟨rfl, rfl, rfl, fun b q hq => ?_⟩
    simp only [set_heap] at hq
    split at hq
    · rename_i hb
      rw [Option.some.injEq] at hq
      refine .inr ⟨hcnt, hb, ?_⟩
      rw [← hq, ← hp]
    · exact .inl ⟨q, hq, .refl q, SameRead.refl q⟩

/-- A killed process is not handed what it was due, nor anything else. -/
theorem syscallKill_kept (h : k.syscallKill c = .ok k') : LinesKept k k' := by
  simp only [syscallKill, bind_eq_ok, deref_eq_ok] at h
  obtain ⟨p, hp, found, -, h⟩ := h
  cases found with
  | some b =>
    simp only [bind_eq_ok, deref_eq_ok, pure_eq_ok] at h
    obtain ⟨q, hq, rfl⟩ := h
    exact .set hq ⟨rfl, rfl, fun hs => by cases hs⟩ ⟨rfl, rfl⟩
  | none =>
    simp only [bind_eq_ok, pure_eq_ok] at h
    obtain ⟨u, -, rfl⟩ := h
    exact .set hp ⟨rfl, rfl, id⟩ ⟨rfl, rfl⟩

theorem syscallWaitpid_kept (h : k.syscallWaitpid c = .ok k') : LinesKept k k' := by
  simp only [syscallWaitpid, bind_eq_ok, deref_eq_ok] at h
  obtain ⟨p, hp, found, -, h⟩ := h
  cases found with
  | none => exact setEax_kept h
  | some b =>
    simp only [bind_eq_ok, deref_eq_ok] at h
    obtain ⟨child, -, h⟩ := h
    split at h
    · exact setEax_kept h
    split at h
    · simp only [bind_eq_ok, Prod.exists] at h
      obtain ⟨k₁, code, hreap, h⟩ := h
      exact (schedulerReapChild_kept hreap).trans (setEax_kept h)
    · simp only [pure_eq_ok] at h
      subst h
      exact .set hp ⟨rfl, rfl, fun hs => by cases hs⟩ ⟨rfl, rfl⟩

theorem syscallBody_carried {num : UInt32} {env : SyscallEnv} (hp : k.heap c = some p)
    (h : k.syscallBody c num env = .ok k') :
    LinesCarried k k' (if num = sysRead then some ⟨c, p.frame.ebx, p.frame.ecx⟩ else none) := by
  -- only `SYS_READ` records a buffer, and only `SYS_EXEC` adds a process
  unfold syscallBody at h
  split at h
  · rename_i hnum
    rw [if_pos hnum]
    exact syscallRead_carried hp h
  rename_i hnum
  rw [if_neg hnum]
  split at h
  · simp only [syscallExit, bind_eq_ok, deref_eq_ok] at h
    obtain ⟨p, hp, h⟩ := h
    exact (die_kept hp h).carried
  split at h
  · simp only [syscallExec, bind_eq_ok, Prod.exists] at h
    obtain ⟨k₁, pid, hload, h⟩ := h
    exact (elfLoad_carried hload).kept (setEax_kept h)
  split at h
  · exact (syscallKill_kept h).carried
  split at h
  · exact (syscallWaitpid_kept h).carried
  split at h
  · simp only [syscallGetpid, bind_eq_ok, deref_eq_ok] at h
    obtain ⟨p, -, h⟩ := h
    exact (setEax_kept h).carried
  · split at h
    · exact (setEax_kept h).carried
    · rw [pure_eq_ok] at h
      exact h ▸ (LinesKept.refl k).carried

/-! ## The copy at dispatch -/

/-- The first bytes of `__stdin_buf`. -/
def lineText (k : Kernel) (n : Nat) : List UInt8 := (List.range n).map k.stdinBuf

/-- The line handed to a process has been copied to it, with its terminator. -/
structure Copied (k : Kernel) (p p' : Proc) : Prop where
  waiting : p.stdinKernelBuf = true
  done : p'.stdinKernelBuf = false
  awake : p'.skipped = false
  text : p.stdinKernelBufLen < 256 → p.procState ≠ .starting →
    p'.received (p.stdinKernelBufLen + 1) = k.lineText p.stdinKernelBufLen ++ [0]

theorem Copied.of_text (h : Copied k' p p') (htext : k'.stdinBuf = k.stdinBuf) : Copied k p p' :=
  { h with text := fun hlen hs => by rw [h.text hlen hs, lineText, htext, lineText] }

theorem schedFlushProcBufs_spec (h : k.schedFlushProcBufs a = .ok k') :
    k' = k ∨ ∃ p u, k.heap a = some p ∧ p.stdinKernelBuf = true ∧
      k' = k.set a { p with space := u, stdinKernelBuf := false, stdinKernelBufLen := 0 } ∧
      p.space.kmemcpy p.stdinUserBuf (k.lineText p.stdinKernelBufLen ++ [0]) = .ok u := by
  simp only [schedFlushProcBufs, bind_eq_ok, deref_eq_ok] at h
  obtain ⟨p, hp, h⟩ := h
  split at h
  · rename_i hbuf
    simp only [bind_eq_ok, pure_eq_ok] at h
    obtain ⟨v, hline, u, hzero, rfl⟩ := h
    refine .inr ⟨p, u, hp, hbuf, rfl, ?_⟩
    have hlen : ((List.range p.stdinKernelBufLen).map k.stdinBuf).length =
        p.stdinKernelBufLen := by simp
    rw [UserSpace.kmemcpy_append, lineText, hline, hlen]
    exact hzero
  · rw [pure_eq_ok] at h
    exact .inl h.symm

/-- The flush copies a line that is due, and leaves the states of the processes alone. -/
theorem schedFlushProcBufs_copies (h : k.schedFlushProcBufs b = .ok k')
    (hawake : ∀ p, k.heap b = some p → p.skipped = false) :
    k'.stdinBuf = k.stdinBuf ∧ k'.stdinBufLen = k.stdinBufLen ∧ k'.waitingStdin = k.waitingStdin ∧
      ∀ a p', k'.heap a = some p' → ∃ p, k.heap a = some p ∧
        (SameLine p p' ∨ Copied k p p' ∧ p'.procState = p.procState) ∧ SameRead p p' := by
  rcases schedFlushProcBufs_spec h with rfl | ⟨p, u, hp, hbuf, rfl, hcopy⟩
  · exact ⟨rfl, rfl, rfl, fun a p' hp' => ⟨p', hp', .inl (.refl p'), .refl p'⟩⟩
  refine ⟨rfl, rfl, rfl, fun a p' hp' => ?_⟩
  rw [set_heap] at hp'
  split at hp'
  · rename_i ha
    rw [Option.some.injEq] at hp'
    subst ha hp'
    refine ⟨p, hp, .inr ⟨⟨hbuf, rfl, hawake p hp, fun hlen _ => ?_⟩, rfl⟩, rfl, rfl⟩
    have hlength : (k.lineText p.stdinKernelBufLen ++ [0]).length = p.stdinKernelBufLen + 1 := by
      simp [lineText]
    have hread := UserSpace.kmemcpy_read hcopy (by omega)
    rw [hlength] at hread
    exact hread
  · exact ⟨p', hp', .inl (.refl p'), .refl p'⟩

/-- Everything the scheduler does to the lines is to copy that of the process it
takes. -/
theorem schedulerCore_copies {r : Resume} (h : k.schedulerCore = .ok (k', r)) :
    k'.stdinBuf = k.stdinBuf ∧ k'.stdinBufLen = k.stdinBufLen ∧ k'.waitingStdin = k.waitingStdin ∧
      ∀ a p', k'.heap a = some p' →
        ∃ p, k.heap a = some p ∧ (SameLine p p' ∨ Copied k p p') ∧ SameRead p p' := by
  unfold schedulerCore at h
  split at h
  · simp only [pure_eq_ok, Prod.mk.injEq] at h
    obtain ⟨rfl, -⟩ := h
    exact ⟨rfl, rfl, rfl, fun a p' hp' => ⟨p', hp', .inl (.refl p'), .refl p'⟩⟩
  simp only [bind_eq_ok] at h
  obtain ⟨k₁, hdrop, ⟨k₂, next⟩, hpick, h⟩ := h
  obtain ⟨cur, head₁, rfl⟩ := dropZombieCurrent_spec hdrop
  obtain ⟨⟨head, rfl⟩, -⟩ := pickNextReadyProc_spec hpick
  cases next with
  | none =>
    simp only [pure_eq_ok, Prod.mk.injEq] at h
    obtain ⟨rfl, -⟩ := h
    exact ⟨rfl, rfl, rfl, fun a p' hp' => ⟨p', hp', .inl (.refl p'), .refl p'⟩⟩
  | some t =>
    simp only [bind_eq_ok, deref_eq_ok] at h
    obtain ⟨k₃, hflush, q, hq, h⟩ := h
    obtain ⟨picked, hpicked, hable⟩ := (pickNextReadyProc_spec hpick).2 t rfl
    have hawake : ∀ p, k.heap t = some p → p.skipped = false := by
      intro p hp
      rw [hp, Option.some.injEq] at hpicked
      exact Proc.able_iff.1 (hpicked ▸ hable)
    -- The flush first; the start of a program comes after it.
    obtain ⟨htext, hlen, hwait, hproc⟩ :=
      schedFlushProcBufs_copies hflush fun p hp => hawake p hp
    split at h
    · rename_i hstart
      simp only [bind_eq_ok, pure_eq_ok, Prod.mk.injEq] at h
      obtain ⟨o, ho, rfl, -⟩ := h
      refine ⟨htext, hlen, hwait, fun a p' hp' => ?_⟩
      rw [set_heap] at hp'
      split at hp'
      · rename_i ha
        rw [Option.some.injEq] at hp'
        subst ha hp'
        obtain ⟨p, hp, hcase, hread⟩ := hproc _ q hq
        simp only [layoutArgs, bind_eq_ok, pure_eq_ok] at ho
        obtain ⟨_, -, _, -, _, -, _, -, rfl⟩ := ho
        refine ⟨p, hp, ?_, hread.userBuf, hread.userBufSize⟩
        rcases hcase with hsame | ⟨hcopied, hstate⟩
        · exact .inl ⟨hsame.buf, hsame.len, fun hs => by cases hs⟩
        · refine .inr ⟨hcopied.waiting, hcopied.done, rfl, fun _ hno => ?_⟩
          exact absurd (hstate ▸ hstart) hno
      · obtain ⟨p, hp, hcase, hread⟩ := hproc a p' hp'
        exact ⟨p, hp, hcase.imp_right fun hc => hc.1.of_text rfl, hread⟩
    · simp only [pure_eq_ok, Prod.mk.injEq] at h
      obtain ⟨rfl, -⟩ := h
      refine ⟨htext, hlen, hwait, fun a p' hp' => ?_⟩
      obtain ⟨p, hp, hcase, hread⟩ := hproc a p' hp'
      exact ⟨p, hp, hcase.imp_right fun hc => hc.1.of_text rfl, hread⟩

/-! ## One event -/

/-- What an event other than a key does to the lines: at most one of them is copied
to its reader. -/
structure LinesStep (k k' : Kernel) (r : Option StdinWaitingProc) : Prop where
  text : k'.stdinBuf = k.stdinBuf
  len : k'.stdinBufLen = k.stdinBufLen
  waiting : k'.waitingStdin = r.or k.waitingStdin
  proc : ∀ a p', k'.heap a = some p' →
    (∃ p, k.heap a = some p ∧ (SameLine p p' ∨ Copied k p p') ∧ Records r a p p') ∨
      k.pidCounter ≠ 0 ∧ a = k.pidCounter ∧ p'.stdinKernelBuf = false

theorem LinesCarried.step {r : Option StdinWaitingProc} (h : LinesCarried k k' r) :
    LinesStep k k' r := by
  refine ⟨h.text, h.len, h.waiting, fun a p' hp' => ?_⟩
  rcases h.proc a p' hp' with ⟨p, hp, hsame, hread⟩ | hnew
  · exact .inl ⟨p, hp, .inl hsame, hread⟩
  · exact .inr hnew

/-- The scheduler, after the handler proper. -/
theorem LinesCarried.schedule {r : Option StdinWaitingProc} {resume : Resume}
    (h : LinesCarried k k₁ r) (hcore : k₁.schedulerCore = .ok (k', resume)) : LinesStep k k' r := by
  obtain ⟨htext, hlen, hwait, hproc⟩ := schedulerCore_copies hcore
  refine ⟨htext.trans h.text, hlen.trans h.len, hwait.trans h.waiting, fun a p' hp' => ?_⟩
  obtain ⟨p₁, hp₁, hcase, hread⟩ := hproc a p' hp'
  rcases h.proc a p₁ hp₁ with ⟨p, hp, hsame, hread'⟩ | ⟨hc, ha, hbuf⟩
  · refine .inl ⟨p, hp, ?_, hread'.after hread⟩
    rcases hcase with hsame' | hcopied
    · exact .inl (hsame.trans hsame')
    · refine .inr ⟨hsame.buf ▸ hcopied.waiting, hcopied.done, hcopied.awake, fun hshort hno => ?_⟩
      have hbytes := hcopied.text (hsame.len.symm ▸ hshort) fun hs => hno (hsame.starting hs)
      rw [hsame.len] at hbytes
      simp only [lineText, h.text] at hbytes
      exact hbytes
  · refine .inr ⟨hc, ha, ?_⟩
    rcases hcase with hsame' | hcopied
    · exact hsame'.buf.trans hbuf
    · exact hcopied.done

/-- The `SYS_READ` that an event makes. -/
def madeRead (k : Kernel) : Event → Option StdinWaitingProc
  | .syscall regs _ =>
    if regs.eax = sysRead then k.currentProc.map fun c => ⟨c, regs.ebx, regs.ecx⟩ else none
  | _ => none

theorem step_lines (h : k.step e = .ok k') (hkey : ∀ scancode, e ≠ .key scancode) :
    LinesStep k k' (k.madeRead e) := by
  cases e with
  | key scancode => exact absurd rfl (hkey scancode)
  | syscall regs env =>
    simp only [step, bind_eq_ok, pure_eq_ok, Prod.exists] at h
    obtain ⟨k₁, r, hrun, rfl⟩ := h
    unfold syscallHandler at hrun
    split at hrun
    · cases hrun
    rename_i c hc
    simp only [bind_eq_ok, deref_eq_ok] at hrun
    obtain ⟨k₂, hpush, k₃, hbody, q, -, hrun⟩ := hrun
    obtain ⟨p, hp, hframe⟩ : ∃ p, k₂.heap c = some p ∧ p.frame = regs := by
      simp only [pushFrame, hc, bind_eq_ok, deref_eq_ok, pure_eq_ok] at hpush
      obtain ⟨p, -, hk₂⟩ := hpush
      exact ⟨{ p with frame := regs }, by simp [← hk₂], rfl⟩
    -- the read is recorded with the frame that was pushed just before
    have hcarried := (pushFrame_kept hpush).carry (syscallBody_carried hp hbody)
    rw [hframe] at hcarried
    have hmade : k.madeRead (.syscall regs env) =
        if regs.eax = sysRead then some ⟨c, regs.ebx, regs.ecx⟩ else none := by
      rw [madeRead, hc]
      rfl
    rw [hmade]
    split at hrun
    · exact hcarried.schedule hrun
    · simp only [pure_eq_ok, Prod.mk.injEq] at hrun
      obtain ⟨rfl, -⟩ := hrun
      exact hcarried.step
  | pageFault regs =>
    simp only [step, bind_eq_ok, pure_eq_ok, Prod.exists] at h
    obtain ⟨k₁, r, hrun, rfl⟩ := h
    unfold pageFaultHandler at hrun
    split at hrun
    · cases hrun
    simp only [bind_eq_ok] at hrun
    obtain ⟨k₂, hpush, k₃, hmark, hrun⟩ := hrun
    simp only [markFaulted, bind_eq_ok, deref_eq_ok] at hmark
    obtain ⟨p, hp, hmark⟩ := hmark
    have hkept := (pushFrame_kept hpush).trans (die_kept hp hmark)
    exact (hkept.trans (schedulerOnSegfault_kept hrun)).carried.step
  | timer regs =>
    simp only [step, bind_eq_ok, pure_eq_ok, Prod.exists] at h
    obtain ⟨k₁, hpush, k₂, r, hrun, rfl⟩ := h
    exact (pushFrame_kept hpush).carried.schedule hrun

/-- A key press wakes the registered reader, or no process. -/
theorem step_key_cases {scancode : UInt8} (h : k.step (.key scancode) = .ok k') :
    (k'.heap = k.heap ∧ k'.waitingStdin = k.waitingStdin ∧
      (scancode = 0x1C → k.waitingStdin = none)) ∨
    scancode = 0x1C ∧ ∃ w p, k.waitingStdin = some w ∧ k.heap w.p = some p ∧
      k' = { k.set w.p { p with
        stdinKernelBuf := true
        stdinKernelBufLen := k.stdinBufLen % 256
        procState := .ready } with stdinBufLen := 0, waitingStdin := none } := by
  rw [step, kbHandleInterrupt_eq] at h
  split at h
  · rename_i hpop
    refine .inl ?_
    rw [← Except.ok.inj h, stdinPop]
    split <;> exact ⟨rfl, rfl, fun henter => absurd (hpop.symm.trans henter) (by decide)⟩
  split at h
  · rename_i henter
    -- an Enter that finds no reader leaves the line where it is
    cases hw : k.waitingStdin with
    | none =>
      simp only [stdinFlush, hw, pure_eq_ok] at h
      subst h
      exact .inl ⟨rfl, hw, fun _ => rfl⟩
    | some w =>
      simp only [stdinFlush, hw, schedulerWakeStdin, bind_eq_ok, deref_eq_ok, pure_eq_ok] at h
      obtain ⟨-, ⟨q, hq, rfl⟩, rfl⟩ := h
      exact .inr ⟨henter, w, q, rfl, hq, rfl⟩
  rename_i henter
  refine .inl ?_
  split at h
  · rw [← Except.ok.inj h, stdinPut]
    split <;> exact ⟨rfl, rfl, fun hno => absurd hno henter⟩
  · rw [Except.ok.inj h]
    exact ⟨rfl, rfl, fun hno => absurd hno henter⟩

/-- A key press wakes at most one process, and hands it a line. -/
theorem step_key_heap {scancode : UInt8} (h : k.step (.key scancode) = .ok k')
    (hp' : k'.heap a = some p') :
    k.heap a = some p' ∨
      (∃ p, k.heap a = some p) ∧ p'.procState = .ready ∧ p'.stdinKernelBuf = true := by
  rcases step_key_cases h with ⟨hheap, -, -⟩ | ⟨-, w, q, -, hq, rfl⟩
  · rw [hheap] at hp'
    exact .inl hp'
  · simp only [set_heap] at hp'
    split at hp'
    · rename_i ha
      rw [Option.some.injEq] at hp'
      subst ha hp'
      exact .inr ⟨⟨q, hq⟩, rfl, rfl⟩
    · exact .inl hp'

end Kernel

/-! ## The typed line, beside the kernel -/

/-- The kernel, the line as the user sees it, and for each process the line that
was ended by the Enter that woke it last. -/
structure Typed where
  kernel : Kernel
  line : List UInt8
  handed : ProcPtr → Option (List UInt8)

namespace Typed

variable {genkan : Image} {k₀ : Kernel} {o o' : Typed} {es : List Event} {e : Event}
variable {a : ProcPtr} {scancode : UInt8}

def start (k : Kernel) : Typed := ⟨k, [], fun _ => none⟩

/-- The line takes 511 characters and drops the rest. An Enter nobody waits for
does not end it. -/
def lineAfter (o : Typed) : Event → List UInt8
  | .key scancode =>
    if scancode = 0x0E then o.line.dropLast
    else if scancode = 0x1C then if o.kernel.waitingStdin.isSome then [] else o.line
    else match kbChar scancode with
      | some c => if o.line.length < 511 then o.line ++ [c] else o.line
      | none => o.line
  | _ => o.line

def handedAfter (o : Typed) : Event → ProcPtr → Option (List UInt8)
  | .key scancode =>
    match o.kernel.waitingStdin with
    | some w => if scancode = 0x1C then Function.update o.handed w.p (some o.line) else o.handed
    | none => o.handed
  | _ => o.handed

def step (o : Typed) (e : Event) : K Typed := do
  let k ← o.kernel.step e
  pure { kernel := k, line := o.lineAfter e, handed := o.handedAfter e }

/-- A key that ends a line of more than 255 characters, or writes over a line that
its reader has not got yet, does not keep the lines. -/
def keepsLines (o : Typed) : Event → Bool
  | .key scancode =>
    if scancode = 0x1C then o.kernel.waitingStdin.isNone || decide (o.kernel.stdinBufLen < 256)
    else (kbChar scancode).all fun c =>
      decide (stdinBufMax ≤ o.kernel.stdinBufLen + 1) || o.kernel.procs.all fun a =>
        (o.kernel.heap a).all fun p => !p.stdinKernelBuf ||
          decide (p.stdinKernelBufLen ≤ o.kernel.stdinBufLen) ||
            o.kernel.stdinBuf o.kernel.stdinBufLen == c
  | _ => true

def KeepsLines (o : Typed) (e : Event) : Prop := o.keepsLines e = true

instance (o : Typed) (e : Event) : Decidable (KeepsLines o e) := by
  unfold KeepsLines
  infer_instance

/-- In a step that copies a handed-over line to its process, the process gets the
line as it was typed, and a terminator. -/
def Delivered (o o' : Typed) : Prop :=
  ∀ a p p', o.kernel.heap a = some p → p.stdinKernelBuf = true →
    o'.kernel.heap a = some p' → p'.stdinKernelBuf = false →
      ∃ line, o.handed a = some line ∧ p'.received (line.length + 1) = line ++ [0]

/-- What would be copied to the process now is not the line it is due. -/
def Spoiled (o : Typed) (a : ProcPtr) : Prop :=
  ∃ p line, o.kernel.heap a = some p ∧ p.stdinKernelBuf = true ∧ o.handed a = some line ∧
    o.kernel.lineText p.stdinKernelBufLen ≠ line

/-- The buffer holds the edited line, and the lines not copied yet. -/
structure Intact (o : Typed) : Prop where
  inv : o.kernel.Inv
  len : o.kernel.stdinBufLen = o.line.length
  room : o.line.length < 512
  text : o.kernel.lineText o.line.length = o.line
  due : ∀ a p, o.kernel.heap a = some p → p.stdinKernelBuf = true →
    p.procState ≠ .starting ∧ p.stdinKernelBufLen < 256 ∧
      o.handed a = some (o.kernel.lineText p.stdinKernelBufLen)

theorem step_eq_ok (h : o.step e = .ok o') :
    o.kernel.step e = .ok o'.kernel ∧ o'.line = o.lineAfter e ∧ o'.handed = o.handedAfter e := by
  simp only [step, bind_eq_ok, pure_eq_ok] at h
  obtain ⟨k, hk, rfl⟩ := h
  exact ⟨hk, rfl, rfl⟩

theorem Intact.congr (h : o.Intact) (hk : o'.kernel = o.kernel) (hl : o'.line = o.line)
    (hh : o'.handed = o.handed) : o'.Intact := by
  cases o
  cases o'
  simp only at hk hl hh
  subst hk hl hh
  exact h

theorem Intact.start (h : Kernel.boot genkan = .ok k₀) : (start k₀).Intact := by
  have hboot := h
  simp only [Kernel.boot, bind_eq_ok, pure_eq_ok, Prod.exists] at h
  obtain ⟨k, pid, hload, rfl⟩ := h
  have hcarried := Kernel.elfLoad_carried hload
  refine ⟨.boot hboot, hcarried.len, Nat.zero_lt_succ _, rfl, fun a p hp hbuf => ?_⟩
  rcases hcarried.proc a p hp with ⟨q, hq, -⟩ | ⟨-, -, hno⟩
  · cases hq
  · rw [hno] at hbuf
    cases hbuf

/-! ## Keys -/

theorem Intact.pop (h : o.Intact) (hstep : o.step (.key 0x0E) = .ok o') : o'.Intact := by
  obtain ⟨hk, hline, hhanded⟩ := step_eq_ok hstep
  have hinv := (h.inv.step hk).1
  have hk' : o'.kernel = o.kernel.stdinPop := by
    simp only [Kernel.step, Kernel.kbHandleInterrupt_eq, if_true, Except.ok.injEq] at hk
    exact hk.symm
  have hline' : o'.line = o.line.dropLast := by
    rw [hline]
    rfl
  have hsame : o'.handed = o.handed := by
    rw [hhanded, handedAfter]
    split <;> rfl
  have hbuf : o'.kernel.stdinBuf = o.kernel.stdinBuf ∧ o'.kernel.heap = o.kernel.heap := by
    rw [hk', Kernel.stdinPop]
    split <;> exact ⟨rfl, rfl⟩
  -- at length 0 the truncated subtraction does what the guard of `stdin_pop` does
  have hlen : o'.kernel.stdinBufLen = o.kernel.stdinBufLen - 1 := by
    rw [hk', Kernel.stdinPop]
    split
    · omega
    · rfl
  refine ⟨hinv, ?_, ?_, ?_, ?_⟩
  · rw [hlen, h.len, hline', List.length_dropLast]
  · rw [hline', List.length_dropLast]
    have := h.room
    omega
  · rw [hline', List.length_dropLast, Kernel.lineText, hbuf.1]
    conv_rhs => rw [← h.text]
    rw [Kernel.lineText, List.dropLast_eq_take, List.length_map, List.length_range,
      ← List.map_take, List.take_range, Nat.min_eq_left (Nat.sub_le _ 1)]
  · rw [hbuf.2, hsame]
    intro a p hp hdue
    have := h.due a p hp hdue
    rw [Kernel.lineText, hbuf.1]
    exact this

/-- What Enter does when a process is registered. -/
theorem step_enter {w : StdinWaitingProc} (hw : o.kernel.waitingStdin = some w)
    (hstep : o.step (.key 0x1C) = .ok o') :
    o'.line = [] ∧ o'.handed = Function.update o.handed w.p (some o.line) ∧
      ∃ p, o.kernel.heap w.p = some p ∧
        o'.kernel = { o.kernel.set w.p { p with
          stdinKernelBuf := true
          stdinKernelBufLen := o.kernel.stdinBufLen % 256
          procState := .ready } with stdinBufLen := 0, waitingStdin := none } := by
  obtain ⟨hk, hline, hhanded⟩ := step_eq_ok hstep
  have hflush : o.kernel.stdinFlush = .ok o'.kernel := by
    rw [Kernel.step, Kernel.kbHandleInterrupt_eq] at hk
    exact hk
  simp only [Kernel.stdinFlush, hw, Kernel.schedulerWakeStdin, bind_eq_ok, Kernel.deref_eq_ok,
    pure_eq_ok] at hflush
  obtain ⟨-, ⟨p, hp, rfl⟩, hk'⟩ := hflush
  refine ⟨?_, ?_, p, hp, hk'.symm⟩
  · rw [hline, lineAfter, hw]
    rfl
  · rw [hhanded, handedAfter, hw]
    rfl

theorem Intact.enter (h : o.Intact) (hC : KeepsLines o (.key 0x1C))
    (hstep : o.step (.key 0x1C) = .ok o') : o'.Intact := by
  obtain ⟨hk, hline, hhanded⟩ := step_eq_ok hstep
  have hinv := (h.inv.step hk).1
  cases hw : o.kernel.waitingStdin with
  | none =>
    have hk' : o'.kernel = o.kernel := by
      rw [Kernel.step, Kernel.kbHandleInterrupt_eq] at hk
      simp only [Kernel.stdinFlush, hw] at hk
      exact (pure_eq_ok.1 hk).symm
    have hline' : o'.line = o.line := by
      rw [hline, lineAfter, hw]
      rfl
    have hsame : o'.handed = o.handed := by
      rw [hhanded, handedAfter, hw]
    exact h.congr hk' hline' hsame
  | some w =>
    obtain ⟨hline', hhanded', p, hp, hk'⟩ := step_enter hw hstep
    -- short enough not to be cut by the `uint8_t`
    have hshort : o.kernel.stdinBufLen < 256 := by
      have hC : o.kernel.waitingStdin.isNone || decide (o.kernel.stdinBufLen < 256) := hC
      simpa [hw] using hC
    have hheap : ∀ a q, o'.kernel.heap a = some q → a ≠ w.p → o.kernel.heap a = some q := by
      intro a q hq hne
      rw [hk'] at hq
      simpa [hne] using hq
    have hself : ∀ q, o'.kernel.heap w.p = some q →
        q.procState = .ready ∧ q.stdinKernelBufLen = o.kernel.stdinBufLen % 256 := by
      intro q hq
      rw [hk'] at hq
      simp only [Kernel.set_heap, if_true, Option.some.injEq] at hq
      rw [← hq]
      exact ⟨rfl, rfl⟩
    have htext : ∀ n, o'.kernel.lineText n = o.kernel.lineText n := by
      intro n
      rw [hk']
      rfl
    refine ⟨hinv, ?_, ?_, ?_, ?_⟩
    · rw [hline', hk']
      rfl
    · rw [hline']
      exact Nat.zero_lt_succ _
    · rw [hline']
      rfl
    · intro a q hq hdue
      rcases eq_or_ne a w.p with rfl | hne
      · obtain ⟨hready, hlen⟩ := hself q hq
        rw [Nat.mod_eq_of_lt hshort] at hlen
        refine ⟨by simp [hready], by omega, ?_⟩
        rw [hhanded', Function.update_self, hlen, htext, h.len, h.text]
      · rw [hhanded', Function.update_of_ne hne, htext]
        exact h.due a q (hheap a q hq hne) hdue

/-- A longer line is handed over with its length cut to 8 bits. -/
theorem spoiled_enter (h : o.Intact) (hC : ¬ KeepsLines o (.key 0x1C))
    (hstep : o.step (.key 0x1C) = .ok o') : ∃ a, o'.Spoiled a := by
  have hC : ¬ (o.kernel.waitingStdin.isNone || decide (o.kernel.stdinBufLen < 256)) = true := hC
  cases hw : o.kernel.waitingStdin with
  | none => simp [hw] at hC
  | some w =>
    obtain ⟨-, hhanded', p, hp, hk'⟩ := step_enter hw hstep
    have hlong : 256 ≤ o.kernel.stdinBufLen := by simpa [hw] using hC
    refine ⟨w.p, { p with
      stdinKernelBuf := true
      stdinKernelBufLen := o.kernel.stdinBufLen % 256
      procState := .ready }, o.line, ?_, rfl, ?_, ?_⟩
    · rw [hk']
      simp
    · rw [hhanded', Function.update_self]
    · intro heq
      have hlen := congrArg List.length heq
      simp only [Kernel.lineText, List.length_map, List.length_range, ← h.len] at hlen
      have := Nat.mod_lt o.kernel.stdinBufLen (show 256 > 0 by decide)
      omega

/-! ## Characters -/

theorem kbChar_ne {c : UInt8} (hc : kbChar scancode = some c) :
    scancode ≠ 0x0E ∧ scancode ≠ 0x1C := by
  unfold kbChar at hc
  split at hc
  · cases hc
  · rename_i hno
    simp only [not_or] at hno
    exact ⟨hno.2.1, hno.2.2.1⟩

theorem step_char {c : UInt8} (hc : kbChar scancode = some c)
    (hstep : o.step (.key scancode) = .ok o') :
    o'.kernel = o.kernel.stdinPut c ∧ o'.handed = o.handed ∧
      o'.line = if o.line.length < 511 then o.line ++ [c] else o.line := by
  obtain ⟨hpop, henter⟩ := kbChar_ne hc
  obtain ⟨hk, hline, hhanded⟩ := step_eq_ok hstep
  refine ⟨?_, ?_, ?_⟩
  · rw [Kernel.step, Kernel.kbHandleInterrupt_eq, if_neg hpop, if_neg henter, hc] at hk
    exact (Except.ok.inj hk).symm
  · rw [hhanded, handedAfter]
    split
    · rw [if_neg henter]
    · rfl
  · rw [hline, lineAfter, if_neg hpop, if_neg henter, hc]

/-- The condition on a character that fits, over the whole heap. -/
theorem keepsLines_char {c : UInt8} (h : o.Intact) (hc : kbChar scancode = some c)
    (hroom : o.line.length < 511) :
    KeepsLines o (.key scancode) ↔ ∀ a p, o.kernel.heap a = some p → p.stdinKernelBuf = true →
      p.stdinKernelBufLen ≤ o.kernel.stdinBufLen ∨ o.kernel.stdinBuf o.kernel.stdinBufLen = c := by
  have hfits : ¬ stdinBufMax ≤ o.kernel.stdinBufLen + 1 := by
    rw [h.len, stdinBufMax]
    omega
  simp only [KeepsLines, keepsLines, if_neg (kbChar_ne hc).2, hc, Option.all_some, hfits,
    decide_false, Bool.false_or, List.all_eq_true, Option.all_eq_true, Bool.or_eq_true,
    Bool.not_eq_true', decide_eq_true_eq, beq_iff_eq]
  constructor
  · intro hall a p hp hdue
    have hmem := (h.inv.wf.shape.mem_procs a).2 ⟨p, hp⟩
    rcases hall a hmem p hp with (hno | hle) | heq
    · rw [hno] at hdue
      cases hdue
    · exact .inl hle
    · exact .inr heq
  · intro hall a _ p hp
    cases hdue : p.stdinKernelBuf with
    | false => exact .inl (.inl rfl)
    | true =>
      rcases hall a p hp hdue with hle | heq
      · exact .inl (.inr hle)
      · exact .inr heq

theorem Intact.put {c : UInt8} (h : o.Intact) (hc : kbChar scancode = some c)
    (hC : KeepsLines o (.key scancode)) (hstep : o.step (.key scancode) = .ok o') :
    o'.Intact := by
  have hinv := (h.inv.step (step_eq_ok hstep).1).1
  obtain ⟨hk', hhanded', hline'⟩ := step_char hc hstep
  by_cases hroom : o.line.length < 511
  · have hlines := (keepsLines_char h hc hroom).1 hC
    have hput : o'.kernel = { o.kernel with
        stdinBuf := fun i => if i = o.kernel.stdinBufLen then c else o.kernel.stdinBuf i
        stdinBufLen := o.kernel.stdinBufLen + 1 } := by
      rw [hk', Kernel.stdinPut, if_neg]
      rw [h.len, stdinBufMax]
      omega
    rw [if_pos hroom] at hline'
    refine ⟨hinv, ?_, ?_, ?_, ?_⟩
    · rw [hput, hline', List.length_append, ← h.len]
      rfl
    · rw [hline', List.length_append, List.length_singleton]
      omega
    · have hbuf : ∀ i, o'.kernel.stdinBuf i =
          if i = o.line.length then c else o.kernel.stdinBuf i := by
        intro i
        rw [hput, ← h.len]
      rw [hline', List.length_append, List.length_singleton, Kernel.lineText,
        List.range_succ, List.map_append, List.map_singleton, hbuf, if_pos rfl]
      congr 1
      conv_rhs => rw [← h.text]
      apply List.map_congr_left
      intro i hi
      rw [List.mem_range] at hi
      rw [hbuf, if_neg (by omega)]
    · intro a p hp hdue
      have hp : o.kernel.heap a = some p := by
        rw [hput] at hp
        exact hp
      obtain ⟨hstate, hshort, hhanded⟩ := h.due a p hp hdue
      refine ⟨hstate, hshort, ?_⟩
      rw [hhanded', hhanded, Option.some.injEq, hput]
      apply List.map_congr_left
      intro i hi
      rw [List.mem_range] at hi
      simp only
      split
      · -- The character lands on the handed-over line, and was there already.
        rename_i hi'
        rcases hlines a p hp hdue with hle | heq
        · omega
        · rw [hi', heq]
      · rfl
  · have hfull : o'.kernel = o.kernel := by
      rw [hk', Kernel.stdinPut, if_pos]
      rw [h.len, stdinBufMax]
      omega
    rw [if_neg hroom] at hline'
    exact h.congr hfull hline' hhanded'

/-- A character on top of a line that is still due changes it. -/
theorem spoiled_put {c : UInt8} (h : o.Intact) (hc : kbChar scancode = some c)
    (hC : ¬ KeepsLines o (.key scancode)) (hstep : o.step (.key scancode) = .ok o') :
    ∃ a, o'.Spoiled a := by
  obtain ⟨hk', hhanded', -⟩ := step_char hc hstep
  have hfits : ¬ stdinBufMax ≤ o.kernel.stdinBufLen + 1 := by
    intro hfull
    apply hC
    simp [KeepsLines, keepsLines, (kbChar_ne hc).2, hc, hfull]
  have hroom : o.line.length < 511 := by
    rw [h.len, stdinBufMax] at hfits
    omega
  rw [keepsLines_char h hc hroom] at hC
  simp only [not_forall, not_or, not_le] at hC
  obtain ⟨a, p, hp, hdue, hlt, hne⟩ := hC
  obtain ⟨-, -, hhanded⟩ := h.due a p hp hdue
  rw [Kernel.stdinPut, if_neg hfits] at hk'
  refine ⟨a, p, _, ?_, hdue, hhanded' ▸ hhanded, fun heq => hne ?_⟩
  · rw [hk']
    exact hp
  · have hat := congrArg (fun l : List UInt8 => l[o.kernel.stdinBufLen]?) heq
    simp only [Kernel.lineText, hk', List.getElem?_map, List.getElem?_range hlt,
      Option.map_some, if_true, Option.some.injEq] at hat
    exact hat.symm

/-! ## Other events -/

/-- Events other than keys keep every line, and copy the one that is due. -/
theorem Intact.event (h : o.Intact) (hkey : ∀ scancode, e ≠ .key scancode)
    (hstep : o.step e = .ok o') : o'.Intact ∧ Delivered o o' := by
  obtain ⟨hk, hline, hhanded⟩ := step_eq_ok hstep
  have hsame : o'.line = o.line ∧ o'.handed = o.handed := by
    cases e with
    | key scancode => exact absurd rfl (hkey scancode)
    | _ => exact ⟨hline, hhanded⟩
  obtain ⟨htext, hlen, -, hproc⟩ := Kernel.step_lines hk hkey
  have hlines : ∀ n, o'.kernel.lineText n = o.kernel.lineText n := by
    intro n
    rw [Kernel.lineText, htext]
    rfl
  -- a process that appears in the step was not there before it
  have hdead : o.kernel.pidCounter ≠ 0 → o.kernel.heap o.kernel.pidCounter = none := by
    intro hc
    have := h.inv.wf.sound.counter hc
    simpa [Kernel.table] using this
  refine ⟨⟨(h.inv.step hk).1, ?_, ?_, ?_, ?_⟩, ?_⟩
  · rw [hlen, hsame.1]
    exact h.len
  · rw [hsame.1]
    exact h.room
  · rw [hsame.1, hlines]
    exact h.text
  · intro a p' hp' hdue
    rcases hproc a p' hp' with ⟨p, hp, hkept | hcopied, -⟩ | ⟨-, -, hno⟩
    · obtain ⟨hstate, hshort, hwas⟩ := h.due a p hp (hkept.buf ▸ hdue)
      refine ⟨fun hs => hstate (hkept.starting hs), hkept.len ▸ hshort, ?_⟩
      rw [hsame.2, hlines, hkept.len]
      exact hwas
    · rw [hcopied.done] at hdue
      cases hdue
    · rw [hno] at hdue
      cases hdue
  · intro a p p' hp hdue hp' hdone
    rcases hproc a p' hp' with ⟨q, hq, hcase, -⟩ | ⟨hc, rfl, -⟩
    · rw [hp, Option.some.injEq] at hq
      subst hq
      obtain ⟨hstate, hshort, hwas⟩ := h.due a p hp hdue
      rcases hcase with hkept | hcopied
      · rw [← hkept.buf, hdone] at hdue
        cases hdue
      · refine ⟨_, hwas, ?_⟩
        rw [Kernel.lineText, List.length_map, List.length_range]
        exact hcopied.text hshort hstate
    · rw [hdead hc] at hp
      cases hp

/-- A key press copies nothing. -/
theorem delivered_key (hstep : o.step (.key scancode) = .ok o') : Delivered o o' := by
  intro a p p' hp hdue hp' hdone
  rcases Kernel.step_key_heap (step_eq_ok hstep).1 hp' with hsame | ⟨-, -, hbuf⟩
  · rw [hp, Option.some.injEq] at hsame
    rw [← hsame, hdue] at hdone
    cases hdone
  · rw [hbuf] at hdone
    cases hdone

/-! ## Runs -/

theorem Intact.step (h : o.Intact) (hC : KeepsLines o e) (hstep : o.step e = .ok o') :
    o'.Intact := by
  cases e with
  | key scancode =>
    rcases eq_or_ne scancode 0x0E with rfl | hpop
    · exact h.pop hstep
    rcases eq_or_ne scancode 0x1C with rfl | henter
    · exact h.enter hC hstep
    cases hc : kbChar scancode with
    | some c => exact h.put hc hC hstep
    | none =>
      obtain ⟨hk, hline, hhanded⟩ := step_eq_ok hstep
      rw [Kernel.step, Kernel.kbHandleInterrupt_eq, if_neg hpop, if_neg henter, hc] at hk
      rw [lineAfter, if_neg hpop, if_neg henter, hc] at hline
      refine h.congr (Except.ok.inj hk).symm hline ?_
      rw [hhanded, handedAfter]
      split
      · rw [if_neg henter]
      · rfl
  | _ => exact (h.event (fun _ => by simp) hstep).1

theorem Intact.run (h : o.Intact) (hrun : Run (Guarded KeepsLines Typed.step) o es o') : o'.Intact :=
  hrun.invariant (fun _ _ _ hst hs => hs.step hst.1 hst.2) h

/-- In every run from boot in which no Enter hands over more than 255 characters
and no character lands on a line that is still to be copied, whatever else happens,
each copy gives the reader the line as it stood at the Enter that woke it. A key
press outside the condition leaves a process that is due another line than the one
it would get. -/
theorem typed_line_intact (hboot : Kernel.boot genkan = .ok k₀)
    (hrun : Run (Guarded KeepsLines step) (start k₀) es o) (hstep : o.step e = .ok o') :
    Delivered o o' ∧ (¬ KeepsLines o e → ∃ a, o'.Spoiled a) := by
  have h := (Intact.start hboot).run hrun
  cases e with
  | key scancode =>
    refine ⟨delivered_key hstep, fun hC => ?_⟩
    rcases eq_or_ne scancode 0x1C with rfl | henter
    · exact spoiled_enter h hC hstep
    cases hc : kbChar scancode with
    | some c => exact spoiled_put h hc hC hstep
    | none => exact absurd (by simp [KeepsLines, keepsLines, henter, hc]) hC
  | _ => exact ⟨(h.event (fun _ => by simp) hstep).2, fun hC => absurd rfl hC⟩

open Kernel (bareImage tick)

/-- `SYS_READ` into 512 bytes at `0x2000`. -/
def readLine : Event := .syscall { eax := sysRead, ebx := 0x2000, ecx := 512 } {}

theorem typed_line_intact_echo :
    ∃ k₀ o o', Kernel.boot bareImage = .ok k₀ ∧
      Run (Guarded KeepsLines step) (start k₀)
        [tick, readLine, .key 0x1E, .key 0x30, .key 0x0E, .key 0x1C] o ∧
      o.step tick = .ok o' ∧ o.handed 1 = some [0x61] ∧ Delivered o o' := by
  obtain ⟨k₀, hboot, hexec⟩ := toOption_any.1 (show (Kernel.boot bareImage).toOption.any
    (fun k => (execAll KeepsLines step (start k)
      [tick, readLine, .key 0x1E, .key 0x30, .key 0x0E, .key 0x1C]).any fun o =>
        (o.step tick).toOption.any fun _ => decide (o.handed 1 = some [0x61])) = true by decide)
  obtain ⟨o, hrun, hlast⟩ := exists_run_of_execAll hexec
  obtain ⟨o', hstep, hhanded⟩ := toOption_any.1 hlast
  exact ⟨k₀, o, o', hboot, hrun, hstep, of_decide_eq_true hhanded,
    (typed_line_intact hboot hrun hstep).1⟩

/-- Keys, ticks and reads into buffers of 512 bytes or more. -/
def Reading (e : Event) : Bool :=
  match e with
  | .key _ | .timer _ => true
  | .syscall regs _ => regs.eax == sysRead && decide (512 ≤ regs.ecx)
  | .pageFault _ => false

/-- The line is "ab"; an x is typed after its Enter, before the tick. -/
theorem typed_line_overwritten :
    ∃ k₀ o o', Kernel.boot bareImage = .ok k₀ ∧
      Run (Guarded (fun _ e => Reading e = true) step) (start k₀)
        [tick, readLine, .key 0x1E, .key 0x30, .key 0x1C, .key 0x2D] o ∧
      o.step tick = .ok o' ∧ o.handed 1 = some [0x61, 0x62] ∧
      (o'.kernel.heap 1).map (fun p => p.received 3) = some [0x78, 0x62, 0] ∧
      ¬ Delivered o o' := by
  obtain ⟨k₀, hboot, hexec⟩ := toOption_any.1 (show (Kernel.boot bareImage).toOption.any
    (fun k => (execAll (fun _ e => Reading e = true) step (start k)
      [tick, readLine, .key 0x1E, .key 0x30, .key 0x1C, .key 0x2D]).any fun o =>
        (o.step tick).toOption.any fun o' => decide (o.handed 1 = some [0x61, 0x62] ∧
          (o.kernel.heap 1).any (fun p => p.stdinKernelBuf) = true ∧
          (o'.kernel.heap 1).any (fun p => !p.stdinKernelBuf) = true ∧
          (o'.kernel.heap 1).map (fun p => p.received 3) = some [0x78, 0x62, 0])) = true by
    decide)
  obtain ⟨o, hrun, hlast⟩ := exists_run_of_execAll hexec
  obtain ⟨o', hstep, hfacts⟩ := toOption_any.1 hlast
  obtain ⟨hhanded, hdue, hdone, hgot⟩ := of_decide_eq_true hfacts
  refine ⟨k₀, o, o', hboot, hrun, hstep, hhanded, hgot, fun hdelivered => ?_⟩
  obtain ⟨p, hp, hdue⟩ := (Option.any_eq_true ..).1 hdue
  obtain ⟨p', hp', hdone⟩ := (Option.any_eq_true ..).1 hdone
  obtain ⟨line, hline, hbytes⟩ := hdelivered 1 p p' hp hdue hp' (by simpa using hdone)
  rw [hhanded, Option.some.injEq] at hline
  rw [hp', Option.map_some, Option.some.injEq] at hgot
  subst hline
  rw [show ([0x61, 0x62] : List UInt8).length + 1 = 3 from rfl, hgot] at hbytes
  revert hbytes
  decide

end Typed

end Kaku

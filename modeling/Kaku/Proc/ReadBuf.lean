-- SUMMARY: What the kernel writes for a SYS_READ, and when it stays inside the buffer of the call.
import Kaku.Proc.Line
import Kaku.Proc.Zombie

/-!
# The buffer of a read

`SYS_READ` records the size of the buffer twice, in the process and in
`__waiting_stdin`, and nobody reads it again: Enter hands over as many characters as
have been typed (modulo 256), and the scheduler copies them all, with a NUL behind
them. The buffer and the size that each process has asked for last are kept in a
history beside the kernel.
-/

namespace Kaku

/-- The addresses that `__sched_flush_proc_bufs` writes for a process: those of the line
and of its NUL. -/
def Proc.flushWrites (p : Proc) : List UInt32 :=
  if p.stdinKernelBuf then
    (List.range (p.stdinKernelBufLen + 1)).map fun i => p.stdinUserBuf + UInt32.ofNat i
  else []

/-- The line and its NUL are not longer than the buffer, if that has any byte. -/
def Proc.LineFits (p : Proc) : Prop :=
  p.stdinUserBufSize = 0 ∨ p.stdinKernelBufLen < p.stdinUserBufSize.toNat

/-- An address inside a buffer. -/
def InBuffer (buf size w : UInt32) : Prop := ∃ i < size.toNat, w = buf + UInt32.ofNat i

theorem Proc.LineFits.inBuffer {p : Proc} (h : p.LineFits) (hsize : p.stdinUserBufSize ≠ 0) :
    ∀ w ∈ p.flushWrites, InBuffer p.stdinUserBuf p.stdinUserBufSize w := by
  intro w hw
  unfold Proc.flushWrites at hw
  split at hw
  · obtain ⟨i, hi, rfl⟩ := List.mem_map.1 hw
    have hlt := List.mem_range.1 hi
    have hlen := h.resolve_left hsize
    exact ⟨i, by omega, rfl⟩
  · cases hw

/-- A line that does not fit has a byte behind the buffer. -/
theorem Proc.not_lineFits {p : Proc} (h : ¬ p.LineFits) (hdue : p.stdinKernelBuf = true) :
    p.stdinUserBufSize ≠ 0 ∧
      ∃ w ∈ p.flushWrites, ¬ InBuffer p.stdinUserBuf p.stdinUserBufSize w := by
  rw [Proc.LineFits, not_or, not_lt] at h
  obtain ⟨hsize, hlen⟩ := h
  refine ⟨hsize, p.stdinUserBuf + UInt32.ofNat p.stdinUserBufSize.toNat, ?_, ?_⟩
  · rw [Proc.flushWrites, if_pos hdue]
    exact List.mem_map.2 ⟨_, List.mem_range.2 (by omega), rfl⟩
  · rintro ⟨i, hi, heq⟩
    have hlt := p.stdinUserBufSize.toNat_lt
    have hn : (p.stdinUserBuf + UInt32.ofNat p.stdinUserBufSize.toNat - p.stdinUserBuf).toNat =
        p.stdinUserBufSize.toNat := UserSpace.toNat_add_ofNat_sub hlt
    rw [heq, UserSpace.toNat_add_ofNat_sub (by omega)] at hn
    omega

namespace Table

/-- Not dispatched, and not woken by the death of a child either. -/
def Idle (l : Life) : Prop := ¬ l.Able ∧ l.waitingFor = 0

theorem lasting_idle : Lasting Idle where
  idle _ h := h.1
  killed _ h := ⟨fun hable => hable.2 rfl, h.2⟩
  unawaited _ h _ := h.2

end Table

/-! ## The history -/

structure Reading where
  kernel : Kernel
  /-- The buffer and the size of the last `SYS_READ` of each process. -/
  asked : ProcPtr → Option (UInt32 × UInt32)

namespace Reading

variable {o o' : Reading} {e : Event} {es : List Event} {a : ProcPtr} {p p' : Proc}
  {genkan : Image} {k₀ : Kernel}

def start (k : Kernel) : Reading := ⟨k, fun _ => none⟩

def step (o : Reading) (e : Event) : K Reading := do
  let k ← o.kernel.step e
  pure { kernel := k, asked := match o.kernel.madeRead e with
    | none => o.asked
    | some w => Function.update o.asked w.p (some (w.buf, w.bufSize)) }

/-- An Enter that wakes a reader hands over fewer characters than its buffer has bytes. -/
def readFits (o : Reading) : Event → Bool
  | .key scancode => scancode != 0x1C || o.kernel.waitingStdin.all fun w =>
      w.bufSize == 0 || decide (o.kernel.stdinBufLen % 256 < w.bufSize.toNat)
  | _ => true

def ReadFits (o : Reading) (e : Event) : Prop := o.readFits e = true

instance (o : Reading) (e : Event) : Decidable (ReadFits o e) := by
  unfold ReadFits
  infer_instance

/-- In a step that copies a line to its process, all that is written for the read lies
in the buffer of that read. -/
def Bounded (o o' : Reading) : Prop :=
  ∀ a p p', o.kernel.heap a = some p → p.stdinKernelBuf = true →
    o'.kernel.heap a = some p' → p'.stdinKernelBuf = false →
      ∃ buf size, o.asked a = some (buf, size) ∧
        (size ≠ 0 → ∀ w ∈ p.flushWrites, InBuffer buf size w)

/-- A process is due a line, and will be written beyond the buffer of its read. -/
def Overruns (o : Reading) (a : ProcPtr) : Prop :=
  ∃ p buf size, o.kernel.heap a = some p ∧ p.procState = .ready ∧ p.stdinKernelBuf = true ∧
    o.asked a = some (buf, size) ∧ size ≠ 0 ∧ ∃ w ∈ p.flushWrites, ¬ InBuffer buf size w

theorem step_eq_ok (h : o.step e = .ok o') : o.kernel.step e = .ok o'.kernel ∧
    o'.asked = match o.kernel.madeRead e with
      | none => o.asked
      | some w => Function.update o.asked w.p (some (w.buf, w.bufSize)) := by
  simp only [step, bind_eq_ok, pure_eq_ok] at h
  obtain ⟨k, hk, rfl⟩ := h
  exact ⟨hk, rfl⟩

/-- A process that made no read is asked for what it was. -/
theorem asked_other (hstep : o.step e = .ok o')
    (hne : (o.kernel.madeRead e).map StdinWaitingProc.p ≠ some a) : o'.asked a = o.asked a := by
  rw [(step_eq_ok hstep).2]
  cases hr : o.kernel.madeRead e with
  | none => rfl
  | some w =>
    rw [hr] at hne
    exact Function.update_of_ne (fun heq => hne (congrArg some heq.symm)) _ _

theorem asked_self {w : StdinWaitingProc} (hstep : o.step e = .ok o')
    (hr : o.kernel.madeRead e = some w) : o'.asked w.p = some (w.buf, w.bufSize) := by
  rw [(step_eq_ok hstep).2, hr]
  exact Function.update_self ..

theorem madeRead_current {w : StdinWaitingProc} (hr : o.kernel.madeRead e = some w) :
    o.kernel.currentProc = some w.p := by
  cases e with
  | syscall regs env =>
    simp only [Kernel.madeRead] at hr
    split at hr
    · obtain ⟨c, hc, rfl⟩ := Option.map_eq_some_iff.1 hr
      exact hc
    · cases hr
  | _ => cases hr

/-! ## The invariant -/

/-- What the kernel has recorded of a read is what was asked for, and a line that is due
fits unless its process waits for the next one. -/
structure Tracked (o : Reading) : Prop where
  inv : o.kernel.Inv
  reader : ∀ w, o.kernel.waitingStdin = some w → o.asked w.p = some (w.buf, w.bufSize) ∧
    ∀ p, o.kernel.heap w.p = some p → p.stdinUserBuf = w.buf ∧ p.stdinUserBufSize = w.bufSize
  asked : ∀ a p, o.kernel.heap a = some p → p.stdinKernelBuf = true →
    o.asked a = some (p.stdinUserBuf, p.stdinUserBufSize)
  due : ∀ a p, o.kernel.heap a = some p → p.stdinKernelBuf = true →
    p.LineFits ∨ o.kernel.table.Stays Table.Idle a

theorem Tracked.start (h : Kernel.boot genkan = .ok k₀) : (start k₀).Tracked := by
  have hinv := Kernel.Inv.boot h
  simp only [Kernel.boot, bind_eq_ok, pure_eq_ok, Prod.exists] at h
  obtain ⟨k₁, pid, hload, rfl⟩ := h
  have hcarried := Kernel.elfLoad_carried hload
  have hclean : ∀ a p, k₁.heap a = some p → p.stdinKernelBuf = false := by
    intro a p hp
    rcases hcarried.proc a p hp with ⟨q, hq, -⟩ | ⟨-, -, hno⟩
    · cases hq
    · exact hno
  refine ⟨hinv, ?_, ?_, ?_⟩
  · intro w hw
    have hnone : k₁.waitingStdin = none := hcarried.waiting
    rw [Reading.start, hnone] at hw
    cases hw
  · intro a p hp hdue
    rw [hclean a p hp] at hdue
    cases hdue
  · intro a p hp hdue
    rw [hclean a p hp] at hdue
    cases hdue

/-- The pid that is handed out next is not registered. -/
theorem Tracked.waiting_ne (h : o.Tracked) {w : StdinWaitingProc}
    (hw : o.kernel.waitingStdin = some w) (hc : o.kernel.pidCounter ≠ 0) :
    w.p ≠ o.kernel.pidCounter := by
  intro heq
  have hreg : o.kernel.table.waiting = some o.kernel.pidCounter := by
    rw [← heq, Kernel.table, hw]
    rfl
  rcases h.inv.wait.known _ hreg with ⟨l, hl⟩ | hd
  · have hnone : o.kernel.table.life o.kernel.pidCounter = none := h.inv.wf.sound.counter hc
    rw [hnone] at hl
    cases hl
  · rcases (h.inv.wf.sound.fresh _ (.inr hd)).2 with hlt | hzero
    · exact absurd hlt (UInt32.lt_irrefl _)
    · exact hc hzero

/-- The registered reader is not to be dispatched. -/
theorem Tracked.reader_idle (h : o.kernel.Inv) {w : StdinWaitingProc}
    (hw : o.kernel.waitingStdin = some w) (hp : o.kernel.heap w.p = some p) :
    o.kernel.table.Stays Table.Idle w.p := by
  have hreg : o.kernel.table.waiting = some w.p := by
    rw [Kernel.table, hw]
    rfl
  exact .inl ⟨p.life, Kernel.table_life hp, h.wait.reader w.p p.life hreg (Kernel.table_life hp)⟩

/-- Whoever is copied a line goes on, so it was not idle. -/
theorem not_idle_of_awake (hp : o.kernel.heap a = some p) (hawake : p.skipped = false)
    (hwf : o.kernel.Wf) : ¬ o.kernel.table.Stays Table.Idle a := by
  rintro (⟨l, hl, hidle⟩ | hd)
  · rw [Kernel.table_life hp, Option.some.injEq] at hl
    exact hidle.1 (hl ▸ Proc.able_iff.2 hawake)
  · have hgone : o.kernel.heap a = none := hwf.destroyed_heap hd
    rw [hp] at hgone
    cases hgone

/-- A process that is there does not have the pid that is handed out next. -/
theorem Tracked.ne_new (h : o.Tracked) (hc : o.kernel.pidCounter ≠ 0)
    (hp : o.kernel.heap a = some p) : a ≠ o.kernel.pidCounter := by
  have hnone : o.kernel.table.life o.kernel.pidCounter = none := h.inv.wf.sound.counter hc
  rintro rfl
  rw [Kernel.table_life hp] at hnone
  cases hnone

/-! ### Events other than keys -/

theorem Tracked.stays_event (h : o.Tracked) (hkey : ∀ scancode, e ≠ .key scancode)
    (hstep : o.step e = .ok o') (hidle : o.kernel.table.Stays Table.Idle a) :
    o'.kernel.table.Stays Table.Idle a := by
  refine hidle.step Table.lasting_idle h.inv.wf.sound h.inv.wf.running (fun henter => ?_)
    (h.inv.step (step_eq_ok hstep).1).2
  cases e with
  | key scancode => exact absurd rfl (hkey scancode)
  | _ => cases henter

/-- The registered reader is the one that has just asked, or the one from before. -/
theorem Tracked.reader_event {w : StdinWaitingProc} (h : o.Tracked)
    (hkey : ∀ scancode, e ≠ .key scancode) (hstep : o.step e = .ok o')
    (hw : o'.kernel.waitingStdin = some w) : o'.asked w.p = some (w.buf, w.bufSize) ∧
      ∀ p, o'.kernel.heap w.p = some p → p.stdinUserBuf = w.buf ∧ p.stdinUserBufSize = w.bufSize := by
  obtain ⟨-, -, hwait, hproc⟩ := Kernel.step_lines (step_eq_ok hstep).1 hkey
  rw [hwait] at hw
  cases hr : o.kernel.madeRead e with
  | some r =>
    rw [hr, Option.some_or, Option.some.injEq] at hw
    subst hw
    refine ⟨asked_self hstep hr, fun p' hp' => ?_⟩
    rcases hproc r.p p' hp' with ⟨p, -, -, hrec⟩ | ⟨hc, hnew, -⟩
    · rcases hrec.cases with hmade | ⟨hne, -⟩
      · rw [hr, Option.some.injEq] at hmade
        exact ⟨by rw [hmade], by rw [hmade]⟩
      · exact absurd (by rw [hr]; rfl) hne
    · -- the caller is there already
      obtain ⟨q, hq, -⟩ := h.inv.wf.current (madeRead_current hr)
      exact absurd hnew (h.ne_new hc hq)
  | none =>
    rw [hr, Option.none_or] at hw
    obtain ⟨hasked', hbufs⟩ := h.reader w hw
    refine ⟨?_, fun p' hp' => ?_⟩
    · rw [asked_other hstep (by rw [hr]; exact fun hno => by cases hno)]
      exact hasked'
    · rcases hproc w.p p' hp' with ⟨p, hp, -, hrec⟩ | ⟨hc, hnew, -⟩
      · rcases hrec.cases with hmade | ⟨-, hsame⟩
        · rw [hr] at hmade
          cases hmade
        · obtain ⟨hbuf, hsize⟩ := hbufs p hp
          exact ⟨hsame.userBuf.trans hbuf, hsame.userBufSize.trans hsize⟩
      · exact absurd hnew (h.waiting_ne hw hc)

theorem Tracked.asked_event (h : o.Tracked) (hkey : ∀ scancode, e ≠ .key scancode)
    (hstep : o.step e = .ok o') (hp' : o'.kernel.heap a = some p')
    (hdue : p'.stdinKernelBuf = true) :
    o'.asked a = some (p'.stdinUserBuf, p'.stdinUserBufSize) := by
  obtain ⟨-, -, -, hproc⟩ := Kernel.step_lines (step_eq_ok hstep).1 hkey
  rcases hproc a p' hp' with ⟨p, hp, hcase, hrec⟩ | ⟨-, -, hno⟩
  · rcases hrec.cases with hmade | ⟨hne, hsame⟩
    · exact asked_self hstep hmade
    · rcases hcase with hkept | hcopied
      · rw [asked_other hstep hne, h.asked a p hp (hkept.buf ▸ hdue), hsame.userBuf,
          hsame.userBufSize]
      · rw [hcopied.done] at hdue
        cases hdue
  · rw [hno] at hdue
    cases hdue

/-- A process that asks again while a line is due waits for the next one. -/
theorem Tracked.due_event (h : o.Tracked) (hkey : ∀ scancode, e ≠ .key scancode)
    (hstep : o.step e = .ok o') (hp' : o'.kernel.heap a = some p')
    (hdue : p'.stdinKernelBuf = true) :
    p'.LineFits ∨ o'.kernel.table.Stays Table.Idle a := by
  obtain ⟨-, -, hwait, hproc⟩ := Kernel.step_lines (step_eq_ok hstep).1 hkey
  rcases hproc a p' hp' with ⟨p, hp, hcase, hrec⟩ | ⟨-, -, hno⟩
  · rcases hcase with hkept | hcopied
    · rcases hrec.cases with hmade | ⟨-, hsame⟩
      · have hreg : o'.kernel.waitingStdin = some ⟨a, p'.stdinUserBuf, p'.stdinUserBufSize⟩ := by
          rw [hwait, hmade, Option.some_or]
        exact .inr (Tracked.reader_idle (h.inv.step (step_eq_ok hstep).1).1 hreg hp')
      · rcases h.due a p hp (hkept.buf ▸ hdue) with hfits | hidle
        · rw [Proc.LineFits, ← hsame.userBufSize, ← hkept.len] at hfits
          exact .inl hfits
        · exact .inr (h.stays_event hkey hstep hidle)
    · rw [hcopied.done] at hdue
      cases hdue
  · rw [hno] at hdue
    cases hdue

/-- Whoever is copied a line is not idle, so that the line fits. -/
theorem Tracked.bounded_event (h : o.Tracked) (hkey : ∀ scancode, e ≠ .key scancode)
    (hstep : o.step e = .ok o') : Bounded o o' := by
  obtain ⟨-, -, -, hproc⟩ := Kernel.step_lines (step_eq_ok hstep).1 hkey
  have hinv := (h.inv.step (step_eq_ok hstep).1).1
  intro a p p' hp hdue hp' hdone
  rcases hproc a p' hp' with ⟨q, hq, hcase, -⟩ | ⟨hc, hnew, -⟩
  · rw [hp, Option.some.injEq] at hq
    subst hq
    rcases hcase with hkept | hcopied
    · rw [← hkept.buf, hdone] at hdue
      cases hdue
    · refine ⟨_, _, h.asked a p hp hdue, fun hsize => ?_⟩
      refine Proc.LineFits.inBuffer ((h.due a p hp hdue).resolve_right fun hidle => ?_) hsize
      exact not_idle_of_awake hp' hcopied.awake hinv.wf (h.stays_event hkey hstep hidle)
  · exact absurd hnew (h.ne_new hc hp)

/-- What an event other than a key does to the reads. -/
theorem Tracked.event (h : o.Tracked) (hkey : ∀ scancode, e ≠ .key scancode)
    (hstep : o.step e = .ok o') : o'.Tracked ∧ Bounded o o' :=
  ⟨⟨(h.inv.step (step_eq_ok hstep).1).1, fun _ hw => h.reader_event hkey hstep hw,
    fun _ _ hp' hdue => h.asked_event hkey hstep hp' hdue,
    fun _ _ hp' hdue => h.due_event hkey hstep hp' hdue⟩, h.bounded_event hkey hstep⟩

/-! ### Keys -/

theorem asked_key {scancode : UInt8} (hstep : o.step (.key scancode) = .ok o') :
    o'.asked = o.asked := (step_eq_ok hstep).2

/-- What stays idle over a key press: all but the reader that it wakes. -/
theorem Tracked.stays_key {scancode : UInt8} (h : o.Tracked)
    (hstep : o.step (.key scancode) = .ok o')
    (hne : scancode = 0x1C → o.kernel.waitingStdin.map StdinWaitingProc.p ≠ some a)
    (hidle : o.kernel.table.Stays Table.Idle a) : o'.kernel.table.Stays Table.Idle a := by
  refine hidle.step Table.lasting_idle h.inv.wf.sound h.inv.wf.running (fun henter => ?_)
    (h.inv.step (step_eq_ok hstep).1).2
  refine hne ?_
  simp only [Event.act] at henter
  split at henter
  · assumption
  · cases henter

/-- What an Enter leaves that wakes a reader. -/
theorem step_enter {w : StdinWaitingProc} (hw : o.kernel.waitingStdin = some w)
    (hstep : o.step (.key 0x1C) = .ok o') : ∃ p, o.kernel.heap w.p = some p ∧
      o'.kernel = { o.kernel.set w.p { p with
        stdinKernelBuf := true
        stdinKernelBufLen := o.kernel.stdinBufLen % 256
        procState := .ready } with stdinBufLen := 0, waitingStdin := none } := by
  rcases Kernel.step_key_cases (step_eq_ok hstep).1 with ⟨-, -, hnone⟩ | ⟨-, w', p, hw', hp, hk'⟩
  · rw [hnone rfl] at hw
    cases hw
  · rw [hw, Option.some.injEq] at hw'
    subst hw'
    exact ⟨p, hp, hk'⟩

/-- A key press that wakes nobody changes no read. -/
theorem Tracked.key_same {scancode : UInt8} (h : o.Tracked)
    (hstep : o.step (.key scancode) = .ok o') (hheap : o'.kernel.heap = o.kernel.heap)
    (hwait : o'.kernel.waitingStdin = o.kernel.waitingStdin)
    (hnone : scancode = 0x1C → o.kernel.waitingStdin = none) : o'.Tracked := by
  have hasked := asked_key hstep
  refine ⟨(h.inv.step (step_eq_ok hstep).1).1, ?_, ?_, ?_⟩
  · rw [hasked, hwait, hheap]
    exact h.reader
  · rw [hasked, hheap]
    exact h.asked
  · intro a p hp hdue
    rw [hheap] at hp
    refine (h.due a p hp hdue).imp_right (h.stays_key hstep fun henter => ?_)
    rw [hnone henter]
    exact fun hno => by cases hno

/-- An Enter that wakes a reader whose buffer is large enough. -/
theorem Tracked.key_enter {w : StdinWaitingProc} (h : o.Tracked) (hC : ReadFits o (.key 0x1C))
    (hw : o.kernel.waitingStdin = some w) (hstep : o.step (.key 0x1C) = .ok o') : o'.Tracked := by
  have hinv := (h.inv.step (step_eq_ok hstep).1).1
  have hasked := asked_key hstep
  obtain ⟨q, hq, hk'⟩ := step_enter hw hstep
  obtain ⟨hread, hbufs⟩ := h.reader w hw
  obtain ⟨hbuf, hsize⟩ := hbufs q hq
  have hlen : w.bufSize = 0 ∨ o.kernel.stdinBufLen % 256 < w.bufSize.toNat := by
    simpa [ReadFits, readFits, hw] using hC
  -- only the reader that is woken changes
  have hself : ∀ p, o'.kernel.heap w.p = some p → p.stdinUserBuf = w.buf ∧
      p.stdinUserBufSize = w.bufSize ∧ p.stdinKernelBufLen = o.kernel.stdinBufLen % 256 := by
    intro p hp
    rw [hk'] at hp
    simp only [Kernel.set_heap, if_true, Option.some.injEq] at hp
    rw [← hp]
    exact ⟨hbuf, hsize, rfl⟩
  have hheap : ∀ a p, o'.kernel.heap a = some p → a ≠ w.p → o.kernel.heap a = some p := by
    intro a p hp hne
    rw [hk'] at hp
    simpa [hne] using hp
  refine ⟨hinv, ?_, ?_, ?_⟩
  · intro v hv
    rw [hk'] at hv
    cases hv
  · intro a p hp hdue
    rw [hasked]
    rcases eq_or_ne a w.p with rfl | hne
    · obtain ⟨hbuf', hsize', -⟩ := hself p hp
      rw [hread, hbuf', hsize']
    · exact h.asked a p (hheap a p hp hne) hdue
  · intro a p hp hdue
    rcases eq_or_ne a w.p with rfl | hne
    · obtain ⟨-, hsize', hlen'⟩ := hself p hp
      left
      rw [Proc.LineFits, hsize', hlen']
      exact hlen
    · refine (h.due a p (hheap a p hp hne) hdue).imp_right (h.stays_key hstep fun _ => ?_)
      rw [hw]
      exact fun heq => hne (Option.some.inj heq).symm

/-- An Enter outside the condition leaves a process that will be written too far. -/
theorem Tracked.overruns (h : o.Tracked) (hC : ¬ ReadFits o e) (hstep : o.step e = .ok o') :
    ∃ a, o'.Overruns a := by
  cases e with
  | key scancode =>
    simp only [ReadFits, readFits, Bool.or_eq_true, not_or, bne_iff_ne, ne_eq, not_not,
      Bool.not_eq_true] at hC
    obtain ⟨rfl, hC⟩ := hC
    cases hw : o.kernel.waitingStdin with
    | none => simp [hw] at hC
    | some w =>
      rw [hw, Option.all_some] at hC
      obtain ⟨q, hq, hk'⟩ := step_enter hw hstep
      obtain ⟨hread, hbufs⟩ := h.reader w hw
      obtain ⟨hbuf, hsize⟩ := hbufs q hq
      refine ⟨w.p, { q with
        stdinKernelBuf := true
        stdinKernelBufLen := o.kernel.stdinBufLen % 256
        procState := .ready }, w.buf, w.bufSize, ?_, rfl, rfl, ?_, ?_⟩
      · rw [hk']
        simp
      · rw [asked_key hstep]
        exact hread
      · -- the line and its zero byte do not fit, so one of the writes lies behind the buffer
        have hlong : ¬ Proc.LineFits { q with
            stdinKernelBuf := true
            stdinKernelBufLen := o.kernel.stdinBufLen % 256
            procState := .ready } := by
          rintro (hzero | hlt)
          · simp [hsize ▸ hzero] at hC
          · rw [hsize] at hlt
            simp [hlt] at hC
        rw [← hbuf, ← hsize]
        exact Proc.not_lineFits hlong rfl
  | _ => exact absurd rfl hC

/-- A key press copies nothing. -/
theorem bounded_key {scancode : UInt8} (hstep : o.step (.key scancode) = .ok o') :
    Bounded o o' := by
  intro a p p' hp hdue hp' hdone
  rcases Kernel.step_key_heap (step_eq_ok hstep).1 hp' with hsame | ⟨-, -, hbuf⟩
  · rw [hp, Option.some.injEq] at hsame
    rw [← hsame, hdue] at hdone
    cases hdone
  · rw [hbuf] at hdone
    cases hdone

theorem Tracked.step (h : o.Tracked) (hC : ReadFits o e) (hstep : o.step e = .ok o') :
    o'.Tracked := by
  cases e with
  | key scancode =>
    rcases Kernel.step_key_cases (step_eq_ok hstep).1 with ⟨hheap, hwait, hnone⟩ | ⟨rfl, w, -, hw, -, -⟩
    · exact h.key_same hstep hheap hwait hnone
    · exact h.key_enter hC hw hstep
  | _ => exact (h.event (fun _ => by simp) hstep).1

/-! ## Runs -/

/-- In every run from boot in which each Enter hands over fewer characters than the
buffer of the waiting read has bytes, whatever else happens, all that is written for a
read lies in its buffer. An Enter outside the condition leaves a process that is written
beyond the buffer of its read when it is dispatched. -/
theorem read_in_buffer (hboot : Kernel.boot genkan = .ok k₀)
    (hrun : Run (Guarded ReadFits step) (start k₀) es o) (hstep : o.step e = .ok o') :
    Bounded o o' ∧ (¬ ReadFits o e → ∃ a, o'.Overruns a) := by
  have h : o.Tracked := hrun.invariant (fun _ _ _ hst hs => hs.step hst.1 hst.2) (.start hboot)
  refine ⟨?_, fun hC => h.overruns hC hstep⟩
  cases e with
  | key scancode => exact bounded_key hstep
  | _ => exact (h.event (fun _ => by simp) hstep).2

open Kernel (bareImage tick)

/-- `SYS_READ` of a number of bytes at `0x2000`. -/
def readBytes (size : UInt32) : Event := .syscall { eax := sysRead, ebx := 0x2000, ecx := size } {}

theorem read_in_buffer_two :
    ∃ k₀ o o', Kernel.boot bareImage = .ok k₀ ∧
      Run (Guarded ReadFits step) (start k₀) [tick, readBytes 2, .key 0x1E, .key 0x1C] o ∧
      o.step tick = .ok o' ∧ o.asked 1 = some (0x2000, 2) ∧
      (o.kernel.heap 1).map Proc.flushWrites = some [0x2000, 0x2001] ∧ Bounded o o' := by
  obtain ⟨k₀, hboot, hexec⟩ := toOption_any.1 (show (Kernel.boot bareImage).toOption.any
    (fun k => (execAll ReadFits step (start k)
      [tick, readBytes 2, .key 0x1E, .key 0x1C]).any fun o =>
        (o.step tick).toOption.any fun _ => decide (o.asked 1 = some (0x2000, 2) ∧
          (o.kernel.heap 1).map Proc.flushWrites = some [0x2000, 0x2001])) = true by decide)
  obtain ⟨o, hrun, hlast⟩ := exists_run_of_execAll hexec
  obtain ⟨o', hstep, hfacts⟩ := toOption_any.1 hlast
  obtain ⟨hasked, hwrites⟩ := of_decide_eq_true hfacts
  exact ⟨k₀, o, o', hboot, hrun, hstep, hasked, hwrites, (read_in_buffer hboot hrun hstep).1⟩

/-- A read of one byte: the line "a" takes that byte, and the NUL goes behind the buffer. -/
theorem read_beyond_buffer :
    ∃ k₀ o o' p, Kernel.boot bareImage = .ok k₀ ∧
      Run (Guarded (fun _ _ => True) step) (start k₀) [tick, readBytes 1, .key 0x1E, .key 0x1C] o ∧
      o.step tick = .ok o' ∧ o.asked 1 = some (0x2000, 1) ∧ o.kernel.heap 1 = some p ∧
      p.flushWrites = [0x2000, 0x2001] ∧ ¬ InBuffer 0x2000 1 0x2001 ∧ ¬ Bounded o o' := by
  obtain ⟨k₀, hboot, hexec⟩ := toOption_any.1 (show (Kernel.boot bareImage).toOption.any
    (fun k => (execAll (fun _ _ => True) step (start k)
      [tick, readBytes 1, .key 0x1E, .key 0x1C]).any fun o =>
        (o.step tick).toOption.any fun o' => decide (o.asked 1 = some (0x2000, 1) ∧
          (o.kernel.heap 1).any (fun p => p.stdinKernelBuf &&
            p.flushWrites == [0x2000, 0x2001]) = true ∧
          (o'.kernel.heap 1).any (fun p => !p.stdinKernelBuf) = true)) = true by decide)
  obtain ⟨o, hrun, hlast⟩ := exists_run_of_execAll hexec
  obtain ⟨o', hstep, hfacts⟩ := toOption_any.1 hlast
  obtain ⟨hasked, hdue, hdone⟩ := of_decide_eq_true hfacts
  obtain ⟨p, hp, hdue⟩ := (Option.any_eq_true ..).1 hdue
  obtain ⟨p', hp', hdone⟩ := (Option.any_eq_true ..).1 hdone
  rw [Bool.and_eq_true, beq_iff_eq] at hdue
  have hout : ¬ InBuffer 0x2000 1 0x2001 := by
    rintro ⟨i, hi, heq⟩
    obtain rfl : i = 0 := Nat.lt_one_iff.1 hi
    revert heq
    decide
  refine ⟨k₀, o, o', p, hboot, hrun, hstep, hasked, hp, hdue.2, hout, fun hbounded => ?_⟩
  obtain ⟨buf, size, hbuf, hin⟩ := hbounded 1 p p' hp hdue.1 hp' (by simpa using hdone)
  rw [hasked, Option.some.injEq, Prod.mk.injEq] at hbuf
  obtain ⟨rfl, rfl⟩ := hbuf
  refine hout (hin (by decide) 0x2001 ?_)
  rw [hdue.2]
  exact List.mem_cons_of_mem _ List.mem_cons_self

end Reading

end Kaku

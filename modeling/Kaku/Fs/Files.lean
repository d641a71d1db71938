-- SUMMARY: The kernel with its open files: the system calls on files, and when the reference counts of the global file table are exact.
import Mathlib.Algebra.BigOperators.Group.List.Basic
import Kaku.Fs.Fd
import Kaku.Proc.Turnover

/-!
# Open files

The calls on files of `syscall/src/syscall.c`, run together with the rest of the
kernel: what they leave in EAX is handed to the kernel's own step. A descriptor
table is part of its `proc`, so it is cleared when the object is created and gone
when it is destroyed.
-/

namespace Kaku

def sysOpen : UInt32 := 0x3
def sysClose : UInt32 := 0x4
def sysReadFile : UInt32 := 0x5
def sysWriteFile : UInt32 := 0x6

/-! ## The calls

Each gets the caller's table and returns both tables and the value for EAX, if
it leaves one. -/

/-- `opened` is what `vfs_open` finds under the path. -/
def syscallOpen (t : FdTable) (fds : Fds) (regs : Registers) (opened : Option VfsNode) :
    K (FdTable × Fds × Option UInt32) :=
  match opened with
  | none => pure (t, fds, some 0xFFFFFFFF)
  | some file => do
    let (t, fds, fd) ← procAllocFd t fds file regs.ecx.toUInt8
    pure (t, fds, some fd)

def syscallClose (t : FdTable) (fds : Fds) (regs : Registers) :
    K (FdTable × Fds × Option UInt32) :=
  if regs.ebx < 3 then pure (t, fds, none)
  else do
    let (t, fds) ← procCloseFd t fds regs.ebx
    pure (t, fds, none)

def syscallReadFile (t : FdTable) (fds : Fds) (regs : Registers) (moved : UInt32) :
    K (FdTable × Fds × Option UInt32) := do
  let (n, _) ← procFdReadFile t fds regs.ebx moved
  pure (t, fds, some n)

def syscallWriteFile (t : FdTable) (fds : Fds) (regs : Registers) (moved : UInt32) :
    K (FdTable × Fds × Option UInt32) := do
  let (n, _) ← procFdWriteFile t fds regs.ebx moved
  pure (t, fds, some n)

/-! ## The machine -/

structure Files where
  kernel : Kernel
  fdTable : FdTable
  /-- `fds` of each process. -/
  fds : ProcPtr → Fds

/-- An event, with what the file system answers: the node `vfs_open` finds, and
what `vfs_read` or `vfs_write` returns. -/
structure FileEvent where
  event : Event
  opened : Option VfsNode := none
  moved : UInt32 := 0

namespace Files

/-- The `switch` of `syscall_handler`, as far as it concerns files. -/
def fileCall (s : Files) (c : ProcPtr) (regs : Registers) (env : SyscallEnv) (e : FileEvent) :
    K (FdTable × Fds × Option UInt32) :=
  if regs.eax = sysOpen then syscallOpen s.fdTable (s.fds c) regs e.opened
  else if regs.eax = sysClose then syscallClose s.fdTable (s.fds c) regs
  else if regs.eax = sysReadFile then syscallReadFile s.fdTable (s.fds c) regs e.moved
  else if regs.eax = sysWriteFile then syscallWriteFile s.fdTable (s.fds c) regs e.moved
  else pure (s.fdTable, s.fds c, env.ret)

def setFds (s : Files) (t : FdTable) (c : ProcPtr) (fds : Fds) : Files :=
  { s with fdTable := t, fds := fun a => if a = c then fds else s.fds a }

/-- What the event does to the open files, and what is left for the kernel. -/
def filePart (s : Files) (e : FileEvent) : K (Files × Event) :=
  match s.kernel.currentProc, e.event with
  | some c, .syscall regs env => do
    let (t, fds, ret) ← s.fileCall c regs env e
    pure (s.setFds t c fds, .syscall regs { env with ret := ret })
  | _, event => pure (s, event)

/-- The kernel moves on; the table of a process that was not there yet is clear. -/
def turnover (s : Files) (k : Kernel) : Files :=
  { s with
    kernel := k
    fds := fun a => if (s.kernel.heap a).isSome then s.fds a else .closed }

def step (s : Files) (e : FileEvent) : K Files := do
  let (s, event) ← s.filePart e
  let k ← s.kernel.step event
  pure (s.turnover k)

def boot (genkan : Image) : K Files := do
  let k ← Kernel.boot genkan
  pure { kernel := k, fdTable := [], fds := fun _ => .closed }

end Files

/-! ## References -/

/-- The descriptors of a process that name the slot `i` of the global table. -/
def Fds.refsTo (fds : Fds) (i : Nat) : Nat :=
  fds.countP fun d => d.any fun pfe => pfe.globalFd == i

namespace Files

/-- The descriptors, of all processes, that name the slot `i`. -/
def refs (s : Files) (i : Nat) : Nat :=
  (s.kernel.procs.map fun a => (s.fds a).refsTo i).sum

/-- Every entry of the global table is referred to, counts its references, and is
the only one for its file. -/
structure RefExact (s : Files) : Prop where
  present : ∀ i, (∃ e, fdGet s.fdTable i = some e) ↔
    ∃ a ∈ s.kernel.procs, ∃ v pfe, (s.fds a).get v = some pfe ∧ pfe.globalFd = i
  counted : ∀ i e, fdGet s.fdTable i = some e → e.refCount = s.refs i
  distinct : ∀ i j e e', fdGet s.fdTable i = some e → fdGet s.fdTable j = some e' →
    e.node.vnodeId = e'.node.vnodeId → i = j

/-- The event reaps only a process that has closed its descriptors. -/
def CleanReap (s : Files) (e : FileEvent) : Prop :=
  ∀ b, s.kernel.reaped e.event = some b → s.fds b = .closed

end Files

section References

variable {fds : Fds} {v : Fin maxFds} {pfe : ProcFdEntry} {i : Nat}

theorem Fds.refsTo_pos : 0 < fds.refsTo i ↔ ∃ v pfe, fds.get v = some pfe ∧ pfe.globalFd = i := by
  rw [refsTo, Vector.countP_pos_iff]
  constructor
  · rintro ⟨d, hd, hnames⟩
    obtain ⟨v, hv, hget⟩ := Vector.mem_iff_getElem.1 hd
    cases d with
    | none => cases hnames
    | some pfe => exact ⟨⟨v, hv⟩, pfe, hget, by simpa using hnames⟩
  · rintro ⟨v, pfe, hv, rfl⟩
    exact ⟨some pfe, hv ▸ Vector.getElem_mem v.isLt, by simp⟩

theorem Fds.refsTo_closed : Fds.closed.refsTo i = 0 := by
  simp [refsTo, closed, Vector.countP_replicate]

/-- Opening the slot `v`. -/
theorem Fds.refsTo_open (h : fds.get v = none) :
    Fds.refsTo (fds.set v.val (some pfe) v.isLt) i =
      fds.refsTo i + if pfe.globalFd = i then 1 else 0 := by
  have hold : fds[v.val] = none := h
  rw [refsTo, Vector.countP_set v.isLt, hold]
  simp [refsTo]

/-- Closing the slot `v`. -/
theorem Fds.refsTo_close (h : fds.get v = some pfe) :
    Fds.refsTo (fds.set v.val none v.isLt) i + (if pfe.globalFd = i then 1 else 0) =
      fds.refsTo i := by
  have hold : fds[v.val] = some pfe := h
  have hle : (if fds[v.val].any fun x => x.globalFd == i then 1 else 0) ≤
      fds.countP fun d => d.any fun x => x.globalFd == i := Vector.boole_getElem_le_countP v.isLt
  rw [refsTo, Vector.countP_set v.isLt]
  simp only [hold, Option.any_some, beq_iff_eq, Option.any_none, Bool.false_eq_true, if_false,
    add_zero] at hle ⊢
  exact Nat.sub_add_cancel hle

end References

namespace Files

variable {s s' s₁ : Files} {k : Kernel} {t : FdTable} {fds : Fds} {e : FileEvent}
  {event : Event} {a b c : ProcPtr} {i : Nat} {lost : Nat → Nat}

theorem refs_pos : 0 < s.refs i ↔
    ∃ a ∈ s.kernel.procs, ∃ v pfe, (s.fds a).get v = some pfe ∧ pfe.globalFd = i := by
  unfold refs
  induction s.kernel.procs with
  | nil => simp
  | cons a as ih =>
    rw [List.map_cons, List.sum_cons, Nat.add_pos_iff_pos_or_pos, ih, Fds.refsTo_pos]
    simp

/-- The counts are exact but for `lost` references that no process holds. -/
def Accounted (s : Files) (lost : Nat → Nat) : Prop :=
  s.fdTable.Exact fun i => s.refs i + lost i

theorem refExact_iff : s.RefExact ↔ s.Accounted 0 := by
  constructor
  · intro h
    exact ⟨⟨fun i hi => (h.present i).2 (refs_pos.1 hi), h.counted, h.distinct⟩,
      fun i e he => refs_pos.2 ((h.present i).1 ⟨e, he⟩)⟩
  · intro h
    exact ⟨fun i => (h.present i).trans refs_pos, h.counted, h.distinct⟩

/-! ## The file part of a step -/

/-- A new table for the process `c`. -/
theorem refs_setFds (hnodup : s.kernel.procs.Nodup) (hc : c ∈ s.kernel.procs) :
    (s.setFds t c fds).refs i + (s.fds c).refsTo i = s.refs i + fds.refsTo i := by
  unfold refs setFds
  dsimp only
  generalize s.kernel.procs = procs at hnodup hc ⊢
  induction procs with
  | nil => cases hc
  | cons a as ih =>
    obtain ⟨hout, hnodup⟩ := List.nodup_cons.1 hnodup
    simp only [List.map_cons, List.sum_cons]
    by_cases hac : a = c
    · subst hac
      have hrest : as.map (fun b => Fds.refsTo (if b = a then fds else s.fds b) i) =
          as.map fun b => (s.fds b).refsTo i := by
        apply List.map_congr_left
        intro b hb
        have hba : b ≠ a := fun hba => hout (hba ▸ hb)
        rw [if_neg hba]
      rw [if_pos rfl, hrest]
      omega
    · have hmem : c ∈ as := (List.mem_cons.1 hc).resolve_left (Ne.symm hac)
      have := ih hnodup hmem
      rw [if_neg hac]
      omega

theorem accounted_setFds {counts : Nat → Nat} (hnodup : s.kernel.procs.Nodup)
    (hc : c ∈ s.kernel.procs) (ht : t.Exact counts)
    (hcounts : ∀ i, counts i + (s.fds c).refsTo i = s.refs i + lost i + fds.refsTo i) :
    (s.setFds t c fds).Accounted lost := by
  have hsame : (fun i => (s.setFds t c fds).refs i + lost i) = counts := by
    funext i
    have hrefs : (s.setFds t c fds).refs i + (s.fds c).refsTo i = s.refs i + fds.refsTo i :=
      refs_setFds hnodup hc
    have := hcounts i
    omega
  rw [Accounted, hsame]
  exact ht

variable {regs : Registers} {env : SyscallEnv} {ret : Option UInt32}

/-- No call on files loses a reference. -/
theorem fileCall_accounted (hnodup : s.kernel.procs.Nodup) (hc : c ∈ s.kernel.procs)
    (hs : s.Accounted lost) (h : s.fileCall c regs env e = .ok (t, fds, ret)) :
    (s.setFds t c fds).Accounted lost := by
  have hkept : (s.setFds s.fdTable c (s.fds c)).Accounted lost :=
    accounted_setFds hnodup hc hs fun i => rfl
  unfold fileCall at h
  split at h
  · -- `SYS_OPEN`
    unfold syscallOpen at h
    split at h
    · simp only [pure_eq_ok, Prod.mk.injEq] at h
      obtain ⟨rfl, rfl, -⟩ := h
      exact hkept
    · simp only [bind_eq_ok, pure_eq_ok, Prod.mk.injEq, Prod.exists] at h
      obtain ⟨t', fds', fd, halloc, rfl, rfl, -⟩ := h
      rcases procAllocFd_spec hs halloc with ⟨rfl, rfl⟩ | ⟨v, pfe, -, hfree, rfl, ht⟩
      · exact hkept
      · refine accounted_setFds hnodup hc ht fun i => ?_
        rw [Fds.refsTo_open hfree, Function.update_apply]
        by_cases hi : i = pfe.globalFd
        · subst hi
          rw [if_pos rfl, if_pos rfl]
          omega
        · rw [if_neg hi, if_neg (Ne.symm hi)]
          rfl
  split at h
  · -- `SYS_CLOSE`
    unfold syscallClose at h
    split at h
    · simp only [pure_eq_ok, Prod.mk.injEq] at h
      obtain ⟨rfl, rfl, -⟩ := h
      exact hkept
    · simp only [bind_eq_ok, pure_eq_ok, Prod.mk.injEq, Prod.exists] at h
      obtain ⟨t', fds', hclose, rfl, rfl, -⟩ := h
      have hnamed : ∀ v pfe, (s.fds c).get v = some pfe →
          0 < s.refs pfe.globalFd + lost pfe.globalFd :=
        fun v pfe hv => Nat.add_pos_left (refs_pos.2 ⟨c, hc, v, pfe, hv, rfl⟩) _
      obtain ⟨v, pfe, -, hopen, rfl, ht⟩ := procCloseFd_spec hs hclose hnamed
      have hpos := hnamed v pfe hopen
      refine accounted_setFds hnodup hc ht fun i => ?_
      have hclosed := Fds.refsTo_close (i := i) hopen
      rw [Function.update_apply]
      by_cases hi : i = pfe.globalFd
      · subst hi
        rw [if_pos rfl] at hclosed ⊢
        omega
      · rw [if_neg hi]
        rw [if_neg (Ne.symm hi)] at hclosed
        omega
  split at h
  · simp only [syscallReadFile, bind_eq_ok, pure_eq_ok, Prod.mk.injEq] at h
    obtain ⟨-, -, rfl, rfl, -⟩ := h
    exact hkept
  split at h
  · simp only [syscallWriteFile, bind_eq_ok, pure_eq_ok, Prod.mk.injEq] at h
    obtain ⟨-, -, rfl, rfl, -⟩ := h
    exact hkept
  · simp only [pure_eq_ok, Prod.mk.injEq] at h
    obtain ⟨rfl, rfl, -⟩ := h
    exact hkept

/-- A `SYS_WAITPID` is none of the calls on files. -/
theorem fileCall_waitpid (h : regs.eax = sysWaitpid) :
    s.fileCall c regs env e = pure (s.fdTable, s.fds c, env.ret) := by
  simp [fileCall, h, sysWaitpid, sysOpen, sysClose, sysReadFile, sysWriteFile]

/-- What the file part of a step does to the rest. -/
theorem filePart_spec (hk : s.kernel.Inv) (hs : s.Accounted lost)
    (h : s.filePart e = .ok (s₁, event)) : s₁.kernel = s.kernel ∧
      s.kernel.reaped event = s.kernel.reaped e.event ∧ s₁.Accounted lost ∧
      ∀ b, s.kernel.reaped e.event = some b → s₁.fds = s.fds := by
  unfold filePart at h
  split at h
  · rename_i c regs env hcur hevent
    simp only [bind_eq_ok, pure_eq_ok, Prod.mk.injEq, Prod.exists] at h
    obtain ⟨t, fds, ret, hcall, rfl, rfl⟩ := h
    obtain ⟨p, hp, -⟩ := hk.wf.current hcur
    have hc : c ∈ s.kernel.procs := (hk.wf.shape.mem_procs c).2 ⟨p, hp⟩
    refine ⟨rfl, by rw [hevent]; rfl, fileCall_accounted hk.wf.shape.nodup hc hs hcall, fun b hb => ?_⟩
    rw [hevent] at hb
    obtain ⟨_, _, _, _, hsys, hnum, -⟩ := Kernel.reaped_eq_some.1 hb
    cases hsys
    rw [fileCall_waitpid hnum, pure_eq_ok, Prod.mk.injEq, Prod.mk.injEq] at hcall
    obtain ⟨-, rfl, -⟩ := hcall
    funext a
    simp only [setFds]
    split
    · rename_i hac
      rw [hac]
    · rfl
  · simp only [pure_eq_ok, Prod.mk.injEq] at h
    obtain ⟨rfl, rfl⟩ := h
    exact ⟨rfl, rfl, hs, fun _ _ => rfl⟩

/-! ## The kernel's part -/

theorem turnover_fds (hk : s.kernel.Inv) (ha : a ∈ s.kernel.procs) :
    (s.turnover k).fds a = s.fds a := by
  obtain ⟨p, hp⟩ := (hk.wf.shape.mem_procs a).1 ha
  simp [turnover, hp]

/-- The descriptors that the event takes away, if it reaps a process. -/
def reapedRefs (s : Files) (event : Event) (i : Nat) : Nat :=
  ((s.kernel.reaped event).map fun b => (s.fds b).refsTo i).getD 0

/-- A step of the kernel takes away the references of the process it reaps. -/
theorem turnover_refs (hk : s.kernel.Inv) (h : s.kernel.step event = .ok k) (i : Nat) :
    s.refs i = (s.turnover k).refs i + s.reapedRefs event i := by
  have hsum : ∀ procs : List ProcPtr, (∀ a ∈ procs, a ∈ s.kernel.procs) →
      (procs.map fun a => ((s.turnover k).fds a).refsTo i).sum =
        (procs.map fun a => (s.fds a).refsTo i).sum := by
    intro procs hprocs
    congr 1
    apply List.map_congr_left
    intro a ha
    rw [turnover_fds hk (hprocs a ha)]
  have hrefs : (s.turnover k).refs i =
      (k.procs.map fun a => ((s.turnover k).fds a).refsTo i).sum := rfl
  rw [hrefs, reapedRefs]
  rcases hk.procs h with ⟨b, hb, hperm⟩ | ⟨hnone, hperm | ⟨b, hfresh, hperm⟩⟩
  · rw [hb, hsum _ fun a ha => hperm.mem_iff.2 (List.mem_cons_of_mem b ha), refs,
      (hperm.map _).sum_eq]
    simp [Nat.add_comm]
  · rw [hnone, hsum _ fun a ha => hperm.mem_iff.1 ha, refs, (hperm.map _).sum_eq]
    rfl
  · have hclear : (s.turnover k).fds b = .closed := by simp [turnover, hfresh]
    rw [hnone, (hperm.map _).sum_eq, List.map_cons, List.sum_cons, hclear, Fds.refsTo_closed,
      hsum _ fun _ ha => ha]
    simp [refs]

/-! ## Whole runs -/

theorem Fds.exists_open (h : fds ≠ .closed) : ∃ v pfe, fds.get v = some pfe := by
  by_contra hnone
  push Not at hnone
  apply h
  apply Vector.ext
  intro i hi
  have hslot : fds[i] = none := Option.eq_none_iff_forall_ne_some.2 fun pfe => hnone ⟨i, hi⟩ pfe
  simp [hslot, Fds.closed]

/-- A step loses the references of the process it reaps, and no others. -/
theorem step_accounted (hk : s.kernel.Inv) (hs : s.Accounted lost) (h : s.step e = .ok s') :
    s'.kernel.Inv ∧ s'.Accounted fun i => lost i + s.reapedRefs e.event i := by
  simp only [step, bind_eq_ok, pure_eq_ok, Prod.exists] at h
  obtain ⟨s₁, event, hfile, k, hstep, rfl⟩ := h
  obtain ⟨hkernel, hreaped, hs₁, hfds⟩ := filePart_spec hk hs hfile
  have hk₁ : s₁.kernel.Inv := hkernel.symm ▸ hk
  refine ⟨(hk₁.step hstep).1, ?_⟩
  have hlost : ∀ i, s₁.reapedRefs event i = s.reapedRefs e.event i := by
    intro i
    rw [reapedRefs, reapedRefs, hkernel, hreaped]
    cases hb : s.kernel.reaped e.event with
    | none => rfl
    | some b => rw [hfds b hb]
  have hsame : (fun i => (s₁.turnover k).refs i + (lost i + s.reapedRefs e.event i)) =
      fun i => s₁.refs i + lost i := by
    funext i
    have hrefs := turnover_refs hk₁ hstep i
    rw [hlost] at hrefs
    omega
  rw [Accounted, hsame]
  exact hs₁

/-- One step keeps the counts exact exactly when it reaps no process that has a
descriptor open. -/
theorem step_exact (hk : s.kernel.Inv) (hs : s.RefExact) (h : s.step e = .ok s') :
    s'.kernel.Inv ∧ (s'.RefExact ↔ s.CleanReap e) := by
  obtain ⟨hk', hs'⟩ := step_accounted hk (refExact_iff.1 hs) h
  refine ⟨hk', ?_⟩
  constructor
  · intro hafter b hb
    by_contra hopen
    obtain ⟨v, pfe, hv⟩ := Fds.exists_open hopen
    have hlost : 0 < s.reapedRefs e.event pfe.globalFd := by
      rw [reapedRefs, hb]
      exact Fds.refsTo_pos.2 ⟨v, pfe, hv, rfl⟩
    -- The entry behind the open descriptor counts one reference too many.
    obtain ⟨entry, hentry⟩ := hs'.named pfe.globalFd
      (Nat.add_pos_right _ (Nat.add_pos_right _ hlost))
    have hcount := hs'.counted _ _ hentry
    have hafter := hafter.counted _ _ hentry
    simp only [Pi.zero_apply] at hcount
    omega
  · intro hclean
    have hnone : (fun i => (0 : Nat → Nat) i + s.reapedRefs e.event i) = 0 := by
      funext i
      rw [reapedRefs]
      cases hb : s.kernel.reaped e.event with
      | none => rfl
      | some b =>
        simp only [Option.map_some, Option.getD_some, hclean b hb, Fds.refsTo_closed]
        rfl
    rw [refExact_iff]
    exact hnone ▸ hs'

variable {genkan : Image} {s₀ : Files} {es : List FileEvent}

theorem boot_exact (h : boot genkan = .ok s₀) : s₀.kernel.Inv ∧ s₀.RefExact := by
  simp only [boot, bind_eq_ok, pure_eq_ok] at h
  obtain ⟨k, hboot, rfl⟩ := h
  refine ⟨Kernel.Inv.boot hboot, refExact_iff.2 ?_⟩
  have hnone : ∀ i, fdGet ([] : FdTable) i = none := fun i => rfl
  have hrefs : ∀ i, ({ kernel := k, fdTable := [], fds := fun _ => .closed } : Files).refs i = 0 := by
    intro i
    simp [refs, Fds.refsTo_closed]
  refine ⟨⟨fun i hi => ?_, ?_, ?_⟩, ?_⟩
  · rw [hrefs] at hi
    exact absurd hi (Nat.lt_irrefl 0)
  all_goals simp [hnone]

/-- The reference counts of the global table are exact in every run that reaps
only processes which have closed their descriptors, and the first other reap
makes them wrong. -/
theorem ref_counts_exact (hboot : boot genkan = .ok s₀)
    (hrun : Run (Guarded CleanReap step) s₀ es s) :
    s.RefExact ∧ ∀ e s', s.step e = .ok s' → (s'.RefExact ↔ s.CleanReap e) := by
  obtain ⟨hk₀, hs₀⟩ := boot_exact hboot
  obtain ⟨hk, hs⟩ : s.kernel.Inv ∧ s.RefExact :=
    hrun.invariant (I := fun s => s.kernel.Inv ∧ s.RefExact) (fun _ _ _ hst hs =>
      (step_exact hs.1 hs.2 hst.2).imp_right fun h => h.2 hst.1) ⟨hk₀, hs₀⟩
  exact ⟨hs, fun e s' h => (step_exact hk hs h).2⟩

instance (s : Files) (e : FileEvent) : Decidable (s.CleanReap e) :=
  decidable_of_iff ((s.kernel.reaped e.event).all (fun b => decide (s.fds b = .closed)) = true) (by
    unfold CleanReap
    cases s.kernel.reaped e.event <;> simp)

/-! ## Concrete runs -/

def trap (num arg : UInt32) : FileEvent := { event := Kernel.trap num arg }

/-- `SYS_OPEN` for reading of the file with the given id. -/
def trapOpen (id : UInt32) : FileEvent :=
  { event := .syscall { eax := sysOpen, ecx := 1 } {}, opened := some { vnodeId := id } }

/-- The child opens a file twice, closes both descriptors and exits; its parent reaps it. -/
theorem ref_counts_exact_closed :
    ∃ s₀ s, boot Kernel.bareImage = .ok s₀ ∧
      Run (Guarded CleanReap step) s₀ [{ event := Kernel.tick }, { event := Kernel.trapExec },
        { event := Kernel.tick }, trapOpen 7, trapOpen 7, trap sysClose 3, trap sysClose 4,
        trap sysExit 0, trap sysWaitpid 2] s ∧
      s.RefExact ∧ ∀ e s', s.step e = .ok s' → (s'.RefExact ↔ s.CleanReap e) := by
  obtain ⟨s₀, hboot, hexec⟩ := toOption_any.1 (show (boot Kernel.bareImage).toOption.any
    (fun s => (execAll CleanReap step s [{ event := Kernel.tick }, { event := Kernel.trapExec },
        { event := Kernel.tick }, trapOpen 7, trapOpen 7, trap sysClose 3, trap sysClose 4,
        trap sysExit 0, trap sysWaitpid 2]).any fun _ => true) = true by decide)
  obtain ⟨s, hrun, -⟩ := exists_run_of_execAll hexec
  exact ⟨s₀, s, hboot, hrun, ref_counts_exact hboot hrun⟩

/-- The child exits with the file open: after it has been reaped, the entry of
the file still counts a reference. -/
theorem reference_leaked :
    ∃ s₀ s, boot Kernel.bareImage = .ok s₀ ∧
      Run (Guarded (fun _ _ => True) step) s₀ [{ event := Kernel.tick },
        { event := Kernel.trapExec }, { event := Kernel.tick }, trapOpen 7, trap sysExit 0,
        trap sysWaitpid 2] s ∧
      s.kernel.procs = [1] ∧ s.fds 1 = .closed ∧
      (fdGet s.fdTable 0).map FdTableEntry.refCount = some 1 ∧ ¬ s.RefExact := by
  obtain ⟨s₀, hboot, hexec⟩ := toOption_any.1 (show (boot Kernel.bareImage).toOption.any
    (fun s => (execAll (fun _ _ => True) step s [{ event := Kernel.tick },
        { event := Kernel.trapExec }, { event := Kernel.tick }, trapOpen 7, trap sysExit 0,
        trap sysWaitpid 2]).any fun s => decide (s.kernel.procs = [1] ∧ s.fds 1 = .closed ∧
          (fdGet s.fdTable 0).map FdTableEntry.refCount = some 1)) = true by decide)
  obtain ⟨s, hrun, hfacts⟩ := exists_run_of_execAll hexec
  obtain ⟨hprocs, hclosed, hcount⟩ := of_decide_eq_true hfacts
  refine ⟨s₀, s, hboot, hrun, hprocs, hclosed, hcount, fun hexact => ?_⟩
  obtain ⟨e, he, -⟩ := Option.map_eq_some_iff.1 hcount
  obtain ⟨a, ha, v, pfe, hv, hnames⟩ := (hexact.present 0).1 ⟨e, he⟩
  rw [hprocs, List.mem_singleton] at ha
  have hrefs : 0 < (s.fds a).refsTo 0 := Fds.refsTo_pos.2 ⟨v, pfe, hv, hnames⟩
  rw [ha, hclosed, Fds.refsTo_closed] at hrefs
  exact absurd hrefs (Nat.lt_irrefl 0)

end Files

end Kaku

-- SUMMARY: From the strings in the memory of the caller of `exec` to the main function of the program it starts.
import Kaku.Proc.Args
import Kaku.Proc.RoundRobin

/-!
# Arguments across `SYS_EXEC`

`elf_load` counts the pointers of the two tables it is passed, and copies every string
to the kernel heap: the caller's address space is switched out before the new program
runs. The copies stay with the new process until the scheduler takes it for the first
time. Until then no other call of any process touches it, except to kill it.
-/

namespace Kaku

namespace UserSpace

/-! ## `elf/src/elf.c`: the strings -/

/-- A byte the kernel reads through a pointer of the program whose pages are switched in. -/
def fetch (u : UserSpace) (a : UInt32) : K UInt8 :=
  if kernelVirtBase ≤ a then .error .wild
  else if u.mapped (a >>> 12) then .ok (u.byte a)
  else .error (.panic "PAGE_FAULT")

def fetch32 (u : UserSpace) (a : UInt32) : K UInt32 := do
  let b₀ ← u.fetch a
  let b₁ ← u.fetch (a + 1)
  let b₂ ← u.fetch (a + 2)
  let b₃ ← u.fetch (a + 3)
  pure (UInt32.ofNat
    (b₀.toNat + 256 * b₁.toNat + 65536 * b₂.toNat + 16777216 * b₃.toNat))

/-- How far a pointer is from the kernel's half. -/
def distance (a : UInt32) : Nat := kernelVirtBase.toNat - a.toNat

/-- `kstrlen`. A string that does not end goes on into the kernel's half. -/
def kstrlen (u : UserSpace) : (left : Nat) → (str : UInt32) → K Nat
  | 0, _ => .error .wild
  | left + 1, str => do
    let c ← u.fetch str
    if c = 0 then pure 0
    else do
      let len ← kstrlen u left (str + 1)
      pure (len + 1)

/-- `kmemcpy` from the address space that is switched in to the kernel heap. -/
def kmemcpyIn (u : UserSpace) : (n : Nat) → (src : UInt32) → K (List UInt8)
  | 0, _ => .ok []
  | n + 1, src => do
    let b ← u.fetch src
    let bs ← kmemcpyIn u n (src + 1)
    pure (b :: bs)

/-- The loop that counts: `while(*argv) {argc++; argv++;}`. -/
def countArgs (u : UserSpace) : (left : Nat) → (argv : UInt32) → K Nat
  | 0, _ => .error .wild
  | left + 1, argv => do
    let arg ← u.fetch32 argv
    if arg = 0 then pure 0
    else do
      let argc ← countArgs u left (argv + 4)
      pure (argc + 1)

/-- The loop that copies. A copy has its terminator, and is a string up to that. -/
def copyArgs (u : UserSpace) : (argc : Nat) → (argvStart : UInt32) → K (List (List UInt8))
  | 0, _ => .ok []
  | argc + 1, argvStart => do
    let arg ← u.fetch32 argvStart
    let argLen ← u.kstrlen (distance arg) arg
    let copy ← u.kmemcpyIn (argLen + 1) arg
    let rest ← copyArgs u argc (argvStart + 4)
    pure (copy.takeWhile (· ≠ 0) :: rest)

/-- What `elf_load` does with `argv`, and with `envp`. -/
def copyStrings (u : UserSpace) (argv : UInt32) : K (List (List UInt8)) :=
  if argv ≠ 0 then do
    let argc ← u.countArgs (distance argv) argv
    u.copyArgs argc argv
  else pure []

/-- The program `elf_load` has loaded, with what it copies for it. -/
def elfLoadArgs (u : UserSpace) (regs : Registers) (entry : UInt32) (space : UserSpace) :
    K Image := do
  let argv ← u.copyStrings regs.ecx
  let env ← u.copyStrings regs.edx
  pure { entry := entry, space := space, argv := argv, env := env }

/-- What a program passes for these strings. -/
def Passes (u : UserSpace) (a : UInt32) (ss : List (List UInt8)) : Prop :=
  a = 0 ∧ ss = [] ∨ a ≠ 0 ∧ u.Strings a ss

variable {u : UserSpace} {a : UInt32} {b : UInt8} {bs s : List UInt8} {ws ptrs : List UInt32}
variable {ss : List (List UInt8)}

/-! ## Copying in -/

/-- The kernel can read what user mode can read. -/
theorem fetch_of_load (h : u.load a = some b) : u.fetch a = .ok b := by
  rw [load] at h
  split at h
  · rename_i hin
    rw [fetch, if_neg (UInt32.not_le.2 hin.1), if_pos hin.2, Option.some.inj h]
  · cases h

theorem fetch32_of_load32 {w : UInt32} (h : u.load32 a = some w) : u.fetch32 a = .ok w := by
  simp only [load32, Option.bind_eq_bind, Option.bind_eq_some_iff, Option.pure_def,
    Option.some.injEq] at h
  obtain ⟨b₀, h₀, b₁, h₁, b₂, h₂, b₃, h₃, rfl⟩ := h
  rw [fetch32, fetch_of_load h₀, ok_bind, fetch_of_load h₁, ok_bind, fetch_of_load h₂, ok_bind,
    fetch_of_load h₃, ok_bind]
  rfl

theorem Holds.cons (h : u.Holds a (b :: bs)) : u.load a = some b ∧ u.Holds (a + 1) bs := by
  have hfirst := h 0 b rfl
  have hzero : a + UInt32.ofNat 0 = a := add_zero a
  rw [hzero] at hfirst
  refine ⟨hfirst, ?_⟩
  rw [← List.singleton_append, holds_append] at h
  exact h.2

/-- Bytes in memory, by evaluation. -/
theorem holds_of_all (h : ((List.range bs.length).all fun i =>
    decide (u.load (a + UInt32.ofNat i) = bs[i]?)) = true) : u.Holds a bs := by
  intro i b hb
  have hi := (List.getElem?_eq_some_iff.1 hb).1
  rw [of_decide_eq_true (List.all_eq_true.1 h i (List.mem_range.2 hi)), hb]

/-- What user mode reads lies below the kernel's half. -/
theorem Holds.le_distance (h : u.Holds a bs) (hne : bs ≠ []) : bs.length ≤ distance a := by
  induction bs generalizing a with
  | nil => exact absurd rfl hne
  | cons b bs ih =>
    obtain ⟨hload, hrest⟩ := h.cons
    have hlow : a.toNat < kernelVirtBase.toNat := by
      rw [load] at hload
      split at hload
      · rename_i hin
        exact UInt32.lt_iff_toNat_lt.1 hin.1
      · cases hload
    have hbase : kernelVirtBase.toNat = 0xC0000000 := rfl
    rcases eq_or_ne bs [] with rfl | hbs
    · rw [distance, List.length_singleton]
      omega
    · have hlen := ih hrest hbs
      have hnext : (a + 1).toNat = a.toNat + 1 := toNat_add_ofNat (n := 1) (by omega)
      rw [distance, hnext] at hlen
      rw [distance, List.length_cons]
      omega

theorem kstrlen_spec {left : Nat} (h : u.Holds a (s ++ [0])) (hzero : 0 ∉ s)
    (hleft : s.length < left) : u.kstrlen left a = .ok s.length := by
  induction s generalizing a left with
  | nil =>
    obtain ⟨left, rfl⟩ := Nat.exists_eq_add_of_lt hleft
    obtain ⟨hload, -⟩ := Holds.cons h
    rw [List.length_nil, Nat.zero_add, kstrlen, fetch_of_load hload]
    rfl
  | cons c s ih =>
    obtain ⟨left, rfl⟩ := Nat.exists_eq_add_of_lt hleft
    rw [List.cons_append] at h
    obtain ⟨hload, hrest⟩ := h.cons
    have hc : c ≠ 0 := fun hc => hzero (hc ▸ List.mem_cons_self)
    have hlen := ih hrest (fun hmem => hzero (List.mem_cons_of_mem _ hmem))
      (Nat.lt_of_lt_of_le (Nat.lt_succ_self _) (Nat.le_add_right (s.length + 1) left))
    rw [List.length_cons, kstrlen, fetch_of_load hload, ok_bind, if_neg hc, hlen]
    rfl

theorem kmemcpyIn_spec (h : u.Holds a bs) : u.kmemcpyIn bs.length a = .ok bs := by
  induction bs generalizing a with
  | nil => rfl
  | cons b bs ih =>
    obtain ⟨hload, hrest⟩ := h.cons
    rw [List.length_cons, kmemcpyIn, fetch_of_load hload, ok_bind, ih hrest]
    rfl

theorem Holds.word (h : u.Holds a (((w : UInt32) :: ws).flatMap wordBytes)) :
    u.fetch32 a = .ok w ∧ u.Holds (a + 4) (ws.flatMap wordBytes) := by
  rw [List.flatMap_cons, holds_append] at h
  exact ⟨fetch32_of_load32 (load32_of_holds h.1), h.2⟩

theorem countArgs_spec {left : Nat} (h : u.Holds a ((ptrs ++ [0]).flatMap wordBytes))
    (hne : ∀ ptr ∈ ptrs, ptr ≠ 0) (hleft : ptrs.length < left) :
    u.countArgs left a = .ok ptrs.length := by
  induction ptrs generalizing a left with
  | nil =>
    obtain ⟨left, rfl⟩ := Nat.exists_eq_add_of_lt hleft
    obtain ⟨hword, -⟩ := Holds.word h
    rw [List.length_nil, Nat.zero_add, countArgs, hword]
    rfl
  | cons ptr ptrs ih =>
    obtain ⟨left, rfl⟩ := Nat.exists_eq_add_of_lt hleft
    rw [List.cons_append] at h
    obtain ⟨hword, hrest⟩ := h.word
    have hcount := ih hrest (fun p hp => hne p (List.mem_cons_of_mem _ hp))
      (Nat.lt_of_lt_of_le (Nat.lt_succ_self _) (Nat.le_add_right (ptrs.length + 1) left))
    rw [List.length_cons, countArgs, hword, ok_bind, if_neg (hne ptr List.mem_cons_self), hcount]
    rfl

theorem copyArgs_spec (h : u.Holds a ((ptrs ++ [0]).flatMap wordBytes))
    (hss : List.Forall₂ u.CString ptrs ss) : u.copyArgs ptrs.length a = .ok ss := by
  induction hss generalizing a with
  | nil => rfl
  | @cons ptr s ptrs ss hs _ ih =>
    rw [List.cons_append] at h
    obtain ⟨hword, hrest⟩ := h.word
    have hlen := hs.text.le_distance (by simp)
    rw [List.length_append, List.length_singleton] at hlen
    have hcopy := kmemcpyIn_spec hs.text
    rw [List.length_append, List.length_singleton] at hcopy
    have hall : ∀ c ∈ s, decide (c ≠ 0) = true := by
      intro c hc
      rw [decide_eq_true_eq]
      rintro rfl
      exact hs.nul_free hc
    have htake : (s ++ [0]).takeWhile (fun c : UInt8 => decide (c ≠ 0)) = s := by
      rw [List.takeWhile_append_of_pos hall]
      simp
    rw [List.length_cons, copyArgs, hword, ok_bind, kstrlen_spec hs.text hs.nul_free hlen, ok_bind,
      hcopy, ok_bind, ih hrest, ok_bind, htake]
    rfl

theorem Passes.nul_free (h : u.Passes a ss) : ∀ s ∈ ss, 0 ∉ s := by
  rcases h with ⟨-, rfl⟩ | ⟨-, ptrs, -, hss⟩
  · exact fun s hs => absurd hs (List.not_mem_nil)
  · intro s hs
    obtain ⟨i, hi, rfl⟩ := List.getElem_of_mem hs
    exact (hss.get (hss.length_eq ▸ hi) hi).nul_free

/-- The kernel has the strings that are in the caller's memory. -/
theorem copyStrings_spec (h : u.Passes a ss) : u.copyStrings a = .ok ss := by
  rcases h with ⟨rfl, rfl⟩ | ⟨hne, ptrs, hptrs, hss⟩
  · rfl
  have hlen := hptrs.le_distance (by simp [wordBytes])
  rw [length_words, List.length_append, List.length_singleton] at hlen
  have hnull : ∀ ptr ∈ ptrs, ptr ≠ 0 := by
    intro ptr hptr
    obtain ⟨i, hi, rfl⟩ := List.getElem_of_mem hptr
    exact (hss.get hi (hss.length_eq ▸ hi)).nonnull
  rw [copyStrings, if_pos hne, countArgs_spec hptrs hnull (by omega), ok_bind]
  exact copyArgs_spec hptrs hss

end UserSpace

namespace Table

variable {T T' T₁ : Table} {a c : UInt32} {l : Life} {f : Call} {x : Act}

theorem Body.counter (h : Body T c l f T₁) :
    T₁.counter = T.counter ∨ T.counter ≠ 0 ∧ T₁.counter = T.counter + 1 := by
  cases h with
  | exec hcnt => exact .inr ⟨hcnt, rfl⟩
  | exit code => exact .inl die_counter
  | _ => exact .inl rfl

theorem Resched.counter (h : Resched T T') : T'.counter = T.counter := by
  cases h <;> rfl

theorem Step.counter (h : Step T x T') :
    T'.counter = T.counter ∨ T.counter ≠ 0 ∧ T'.counter = T.counter + 1 := by
  cases h with
  | call _ _ hb _ _ => exact hb.counter
  | yield _ _ hb _ _ hr => exact hr.counter ▸ hb.counter
  | fault _ _ hr => exact .inl (hr.counter.trans (by simp))
  | tickIdle _ hr => exact .inl hr.counter
  | tick _ _ hr => exact .inl hr.counter
  | _ => exact .inl rfl

/-- The pid has been handed out. -/
def Old (T : Table) (a : UInt32) : Prop := a ≠ 0 ∧ (a < T.counter ∨ T.counter = 0)

theorem Old.ne_counter (h : T.Old a) : a ≠ T.counter := by
  rintro rfl
  exact h.2.elim (UInt32.lt_irrefl _) h.1

theorem Old.step (h : T.Old a) (hs : Step T x T') : T'.Old a := by
  rcases hs.counter with heq | ⟨hne, heq⟩
  · rwa [Old, heq]
  · refine ⟨h.1, ?_⟩
    have hlt := UInt32.lt_iff_toNat_lt.1 (h.2.resolve_right hne)
    have hbound := T.counter.toNat_lt
    rw [heq]
    rcases Nat.lt_or_ge (T.counter.toNat + 1) (2 ^ 32) with hroom | hwrap
    · left
      rw [UInt32.lt_iff_toNat_lt, UInt32.toNat_add, UInt32.toNat_one]
      omega
    · right
      rw [← UInt32.toNat_inj, UInt32.toNat_add, UInt32.toNat_one, UInt32.toNat_zero]
      omega

end Table

/-- A process that has not been started yet, or has been killed. -/
def Proc.Dormant (p : Proc) : Prop := p.procState = .starting ∨ p.procState = .zombie

namespace Kernel

variable {k k' k₁ k₂ : Kernel} {a b c : ProcPtr} {p q o : Proc} {e : Event} {es : List Event}

/-! ## A process that waits to be started -/

/-- All that can happen to the process while it is dormant is that it is killed, or reaped. -/
def Undisturbed (k k' : Kernel) (a : ProcPtr) : Prop :=
  ∀ q, k'.heap a = some q → ∃ p, k.heap a = some p ∧ (p.Dormant → q = p ∨ q.procState = .zombie)

namespace Undisturbed

theorem of_heap (h : k'.heap a = k.heap a) : Undisturbed k k' a :=
  fun q hq => ⟨q, h ▸ hq, fun _ => .inl rfl⟩

theorem refl (k : Kernel) (a : ProcPtr) : Undisturbed k k a := .of_heap rfl

theorem trans (h : Undisturbed k k₁ a) (h' : Undisturbed k₁ k₂ a) : Undisturbed k k₂ a := by
  intro q₂ hq₂
  obtain ⟨q₁, hq₁, hcase'⟩ := h' q₂ hq₂
  obtain ⟨q, hq, hcase⟩ := h q₁ hq₁
  refine ⟨q, hq, fun hdormant => ?_⟩
  rcases hcase hdormant with rfl | hzombie
  · exact hcase' hdormant
  · rcases hcase' (.inr hzombie) with rfl | hzombie'
    · exact .inr hzombie
    · exact .inr hzombie'

theorem set_other (hne : a ≠ b) : Undisturbed k (k.set b o) a :=
  .of_heap (by rw [set_heap, if_neg hne])

theorem set (hp : k.heap b = some p) (hb : p.Dormant → o.procState = .zombie) :
    Undisturbed k (k.set b o) a := by
  intro q hq
  rw [set_heap] at hq
  split at hq
  · rename_i hab
    obtain rfl := Option.some.inj hq
    exact ⟨p, hab ▸ hp, fun hdormant => .inr (hb hdormant)⟩
  · exact ⟨q, hq, fun _ => .inl rfl⟩

end Undisturbed

theorem setEax_undisturbed {v : UInt32} (h : k.setEax c v = .ok k') (hne : a ≠ c) :
    Undisturbed k k' a := by
  simp only [setEax, bind_eq_ok, deref_eq_ok, pure_eq_ok] at h
  obtain ⟨p, -, rfl⟩ := h
  exact .set_other hne

theorem pushFrame_undisturbed {regs : Registers} (h : k.pushFrame regs = .ok k')
    (hcur : k.currentProc ≠ some a) : Undisturbed k k' a := by
  unfold pushFrame at h
  split at h
  · rw [pure_eq_ok] at h
    exact h ▸ .refl k a
  · rename_i c hc
    simp only [bind_eq_ok, deref_eq_ok, pure_eq_ok] at h
    obtain ⟨p, -, rfl⟩ := h
    exact .set_other fun hac => hcur (hac ▸ hc)

/-- A notification wakes a blocked process. -/
theorem schedulerNotifyParent_undisturbed (h : k.schedulerNotifyParent c = .ok k') :
    Undisturbed k k' a := by
  rcases schedulerNotifyParent_cases h with rfl | ⟨o, b, p, -, -, -, hp, hblocked, rfl⟩
  · exact .refl _ a
  · refine .set hp fun hdormant => ?_
    rcases hdormant with hstate | hstate <;> rw [hblocked] at hstate <;> cases hstate

theorem schedulerReapChild_undisturbed {pid code : UInt32}
    (h : k.schedulerReapChild pid = .ok (k', code)) : Undisturbed k k' a := by
  simp only [schedulerReapChild, bind_eq_ok] at h
  obtain ⟨found, -, h⟩ := h
  cases found with
  | none =>
    simp only [pure_eq_ok, Prod.mk.injEq] at h
    exact h.1 ▸ .refl k a
  | some b =>
    simp only [bind_eq_ok, deref_eq_ok] at h
    obtain ⟨child, -, h⟩ := h
    split at h
    · simp only [pure_eq_ok, Prod.mk.injEq] at h
      exact h.1 ▸ .refl k a
    · simp only [pure_eq_ok, Prod.mk.injEq] at h
      obtain ⟨rfl, -⟩ := h
      intro q hq
      simp only [procDestroy] at hq
      split at hq
      · cases hq
      · exact ⟨q, hq, fun _ => .inl rfl⟩

theorem elfLoad_undisturbed {image : Option Image} {pid : UInt32}
    (h : k.elfLoad image = .ok (k', pid)) (hne : a ≠ k.pidCounter) : Undisturbed k k' a := by
  cases image with
  | none =>
    simp only [elfLoad, pure_eq_ok, Prod.mk.injEq] at h
    exact h.1 ▸ .refl k a
  | some img =>
    simp only [elfLoad, procCreate, bind_eq_ok] at h
    obtain ⟨⟨k₁, b⟩, hcreate, p, -, h⟩ := h
    split at hcreate
    · cases hcreate
    simp only [bind_eq_ok, pure_eq_ok, Prod.mk.injEq] at hcreate h
    obtain ⟨ppid, -, rfl, rfl⟩ := hcreate
    obtain ⟨rfl, -⟩ := h
    exact .of_heap (by simp only [set_heap, if_neg hne])

theorem syscallKill_undisturbed (h : k.syscallKill c = .ok k') (hne : a ≠ c) :
    Undisturbed k k' a := by
  simp only [syscallKill, bind_eq_ok, deref_eq_ok] at h
  obtain ⟨p, -, found, -, h⟩ := h
  cases found with
  | some b =>
    simp only [bind_eq_ok, deref_eq_ok, pure_eq_ok] at h
    obtain ⟨q, hq, rfl⟩ := h
    exact .set hq fun _ => rfl
  | none =>
    simp only [bind_eq_ok, pure_eq_ok] at h
    obtain ⟨u, -, rfl⟩ := h
    exact .set_other hne

theorem syscallWaitpid_undisturbed (h : k.syscallWaitpid c = .ok k') (hne : a ≠ c) :
    Undisturbed k k' a := by
  simp only [syscallWaitpid, bind_eq_ok, deref_eq_ok] at h
  obtain ⟨p, -, found, -, h⟩ := h
  cases found with
  | none => exact setEax_undisturbed h hne
  | some b =>
    simp only [bind_eq_ok, deref_eq_ok] at h
    obtain ⟨child, -, h⟩ := h
    split at h
    · exact setEax_undisturbed h hne
    split at h
    · simp only [bind_eq_ok, Prod.exists] at h
      obtain ⟨k₁, code, hreap, h⟩ := h
      exact (schedulerReapChild_undisturbed hreap).trans (setEax_undisturbed h hne)
    · simp only [pure_eq_ok] at h
      subst h
      exact .set_other hne

/-- A call of another process. -/
theorem syscallBody_undisturbed {num : UInt32} {env : SyscallEnv}
    (h : k.syscallBody c num env = .ok k') (hne : a ≠ c) (hold : a ≠ k.pidCounter) :
    Undisturbed k k' a := by
  unfold syscallBody at h
  split at h
  · simp only [syscallRead, bind_eq_ok, pure_eq_ok] at h
    obtain ⟨p, -, rfl⟩ := h
    exact .set_other hne
  split at h
  · simp only [syscallExit, bind_eq_ok] at h
    obtain ⟨p, -, h⟩ := h
    exact (Undisturbed.set_other hne).trans (schedulerNotifyParent_undisturbed h)
  split at h
  · simp only [syscallExec, bind_eq_ok, Prod.exists] at h
    obtain ⟨k₁, pid, hload, h⟩ := h
    exact (elfLoad_undisturbed hload hold).trans (setEax_undisturbed h hne)
  split at h
  · exact syscallKill_undisturbed h hne
  split at h
  · exact syscallWaitpid_undisturbed h hne
  split at h
  · simp only [syscallGetpid, bind_eq_ok] at h
    obtain ⟨p, -, h⟩ := h
    exact setEax_undisturbed h hne
  · split at h
    · exact setEax_undisturbed h hne
    · rw [pure_eq_ok] at h
      exact h ▸ .refl k a

/-- A fault hands over to the scheduler, which copies no arguments. -/
theorem schedulerOnSegfault_undisturbed {r : Resume}
    (h : k.schedulerOnSegfault = .ok (k', r)) : Undisturbed k k' a := by
  unfold schedulerOnSegfault at h
  split at h
  · simp only [pure_eq_ok, Prod.mk.injEq] at h
    exact h.1 ▸ .refl k a
  cases hc : k.currentProc with
  | none =>
    rw [hc] at h
    cases h
  | some c =>
  rw [hc] at h
  simp only [bind_eq_ok] at h
  obtain ⟨k₁, hnotify, h⟩ := h
  split at h
  · cases h
  simp only [bind_eq_ok] at h
  obtain ⟨⟨k₂, next⟩, hpick, h⟩ := h
  obtain ⟨⟨head, rfl⟩, -⟩ := pickNextReadyProc_spec hpick
  apply (schedulerNotifyParent_undisturbed hnotify).trans
  cases next with
  | none =>
    simp only [pure_eq_ok, Prod.mk.injEq] at h
    obtain ⟨rfl, -⟩ := h
    exact .of_heap rfl
  | some b =>
    simp only [pure_eq_ok, Prod.mk.injEq] at h
    obtain ⟨rfl, -⟩ := h
    exact .of_heap rfl

/-- The scheduler starts the process, or leaves it. -/
theorem schedulerCore_dormant {r : Resume} (h : k.schedulerCore = .ok (k', r))
    (hclean : k.StartsClean) :
    Undisturbed k k' a ∧ (k'.currentProc = k.currentProc ∨ k'.currentProc ≠ some a) ∨
      k'.currentProc = some a ∧ ∃ p, k.heap a = some p ∧ p.procState ≠ .zombie ∧
        (p.procState = .starting → ∃ q, layoutArgs p = .ok q ∧ k'.heap a = some q) := by
  unfold schedulerCore at h
  split at h
  · simp only [pure_eq_ok, Prod.mk.injEq] at h
    obtain ⟨rfl, -⟩ := h
    exact .inl ⟨.refl k a, .inl rfl⟩
  simp only [bind_eq_ok] at h
  obtain ⟨k₁, hdrop, ⟨k₂, next⟩, hpick, h⟩ := h
  obtain ⟨cur, head₁, rfl⟩ := dropZombieCurrent_spec hdrop
  obtain ⟨⟨head, rfl⟩, hnext⟩ := pickNextReadyProc_spec hpick
  cases next with
  | none =>
    simp only [pure_eq_ok, Prod.mk.injEq] at h
    obtain ⟨rfl, -⟩ := h
    exact .inl ⟨.of_heap rfl, .inr (Option.some_ne_none a).symm⟩
  | some t =>
    obtain ⟨p, hp, hable⟩ := hnext t rfl
    simp only [bind_eq_ok, deref_eq_ok] at h
    obtain ⟨k₃, hflush, q, hq, h⟩ := h
    have hflushed : k₃.currentProc = some t ∧ ∀ b, b ≠ t → k₃.heap b = k.heap b := by
      rcases schedFlushProcBufs_spec hflush with rfl | ⟨p', u, -, -, rfl, -⟩
      · exact ⟨rfl, fun _ _ => rfl⟩
      · exact ⟨rfl, fun b hb => by rw [set_heap, if_neg hb]; rfl⟩
    have htaken : k'.currentProc = some t ∧ ∀ b, b ≠ t → k'.heap b = k.heap b := by
      split at h
      · simp only [bind_eq_ok, pure_eq_ok, Prod.mk.injEq] at h
        obtain ⟨o, -, rfl, -⟩ := h
        exact ⟨hflushed.1, fun b hb => by rw [set_heap, if_neg hb, hflushed.2 b hb]⟩
      · simp only [pure_eq_ok, Prod.mk.injEq] at h
        obtain ⟨rfl, -⟩ := h
        exact hflushed
    rcases eq_or_ne a t with rfl | hne
    · refine .inr ⟨htaken.1, p, hp, hable.2, fun hstart => ?_⟩
      -- no line is due to it, so the flush leaves it as it was created
      obtain rfl : q = p := by
        rcases schedFlushProcBufs_spec hflush with rfl | ⟨p', u, hp', hbuf, -, -⟩
        · exact Option.some.inj (hq.symm.trans hp)
        · obtain rfl := Option.some.inj (hp'.symm.trans hp)
          rw [hclean a p' hp hstart] at hbuf
          cases hbuf
      rw [if_pos hstart] at h
      simp only [bind_eq_ok, pure_eq_ok, Prod.mk.injEq] at h
      obtain ⟨o, ho, rfl, -⟩ := h
      exact ⟨o, ho, by rw [set_heap, if_pos rfl]⟩
    · refine .inl ⟨.of_heap (htaken.2 a hne), .inr fun hcur => hne ?_⟩
      exact (Option.some.inj (htaken.1.symm.trans hcur)).symm

theorem StartsClean.carried {r : Option StdinWaitingProc} (h : k.StartsClean)
    (hc : LinesCarried k k' r) : k'.StartsClean := by
  intro b q hq hs
  rcases hc.proc b q hq with ⟨p, hp, hsame, -⟩ | ⟨-, -, hno⟩
  · exact hsame.buf.trans (h b p hp (hsame.starting hs))
  · exact hno

/-- What one event does to a dormant process that is not running: the scheduler takes
it, or it is left in peace. -/
theorem step_dormant (h : k.step e = .ok k') (hclean : k.StartsClean)
    (hidle : k.currentProc ≠ some a) (hold : a ≠ k.pidCounter)
    (hunread : k.waitingStdin.map StdinWaitingProc.p ≠ some a) :
    Undisturbed k k' a ∧ (k'.currentProc ≠ some a ∨ ∃ regs, e = .pageFault regs) ∨
      k'.currentProc = some a ∧ ∃ p, k.heap a = some p ∧ p.procState ≠ .zombie ∧
        (p.procState = .starting → ∃ q, layoutArgs p = .ok q ∧ k'.heap a = some q) := by
  -- what the scheduler takes, after a handler that left it in peace
  have hschedule {k₁ : Kernel} {r : Option StdinWaitingProc} {resume : Resume}
      (hkept : Undisturbed k k₁ a) (hlines : LinesCarried k k₁ r)
      (hcur : k₁.currentProc = k.currentProc) (hcore : k₁.schedulerCore = .ok (k', resume)) :
      Undisturbed k k' a ∧ (k'.currentProc ≠ some a ∨ ∃ regs, e = .pageFault regs) ∨
        k'.currentProc = some a ∧ ∃ p, k.heap a = some p ∧ p.procState ≠ .zombie ∧
          (p.procState = .starting → ∃ q, layoutArgs p = .ok q ∧ k'.heap a = some q) := by
    rcases schedulerCore_dormant (a := a) hcore (hclean.carried hlines) with
      ⟨hkept', hcur'⟩ | ⟨hcur', p, hp, halive, hlayout⟩
    · refine .inl ⟨hkept.trans hkept', .inl ?_⟩
      rcases hcur' with hcur' | hcur'
      · rwa [hcur', hcur]
      · exact hcur'
    · obtain ⟨q, hq, hcase⟩ := hkept p hp
      have hsame (hdormant : q.Dormant) : p = q := (hcase hdormant).resolve_right halive
      refine .inr ⟨hcur', q, hq, fun hzombie => ?_, fun hstart => ?_⟩
      · rw [hsame (.inr hzombie)] at halive
        exact halive hzombie
      · obtain rfl := hsame (.inl hstart)
        exact hlayout hstart
  cases e with
  | key scancode =>
    refine .inl ⟨?_, .inl ?_⟩
    · rcases step_key_cases h with ⟨hheap, -, -⟩ | ⟨-, w, p, hw, -, rfl⟩
      · exact .of_heap (by rw [hheap])
      · refine .of_heap ?_
        have hne : a ≠ w.p := fun haw => hunread (by rw [hw, haw]; rfl)
        simp only [set_heap, if_neg hne]
    · rwa [(kbHandleInterrupt_queue h).current]
  | syscall regs env =>
    simp only [step, bind_eq_ok, pure_eq_ok, Prod.exists] at h
    obtain ⟨k₁, r, hrun, rfl⟩ := h
    unfold syscallHandler at hrun
    split at hrun
    · cases hrun
    rename_i c hc
    simp only [bind_eq_ok, deref_eq_ok] at hrun
    obtain ⟨k₂, hpush, k₃, hbody, q, -, hrun⟩ := hrun
    have hpushed := pushFrame_kept hpush
    obtain ⟨p, hp⟩ : ∃ p, k₂.heap c = some p := by
      simp only [pushFrame, hc, bind_eq_ok, deref_eq_ok, pure_eq_ok] at hpush
      obtain ⟨p, -, rfl⟩ := hpush
      exact ⟨{ p with frame := regs }, by simp⟩
    have hne : a ≠ c := fun hac => hidle (hac ▸ hc)
    have hkept := (pushFrame_undisturbed hpush hidle).trans
      (syscallBody_undisturbed hbody hne (hpushed.counter.symm ▸ hold))
    have hcur : k₃.currentProc = k.currentProc :=
      (syscallBody_queue hbody).current.trans (pushFrame_queue hpush).current
    split at hrun
    · exact hschedule hkept (hpushed.carry (syscallBody_carried hp hbody)) hcur hrun
    · simp only [pure_eq_ok, Prod.mk.injEq] at hrun
      obtain ⟨rfl, -⟩ := hrun
      exact .inl ⟨hkept, .inl (hcur ▸ hidle)⟩
  | pageFault regs =>
    simp only [step, bind_eq_ok, pure_eq_ok, Prod.exists] at h
    obtain ⟨k₁, r, hrun, rfl⟩ := h
    unfold pageFaultHandler at hrun
    split at hrun
    · cases hrun
    rename_i c hc
    simp only [bind_eq_ok] at hrun
    obtain ⟨k₂, hpush, k₃, hmark, hrun⟩ := hrun
    simp only [markFaulted, bind_eq_ok] at hmark
    obtain ⟨p, -, hmark⟩ := hmark
    have hne : a ≠ c := fun hac => hidle (hac ▸ hc)
    have hmarked := (Undisturbed.set_other hne).trans (schedulerNotifyParent_undisturbed hmark)
    exact .inl ⟨((pushFrame_undisturbed hpush hidle).trans hmarked).trans
      (schedulerOnSegfault_undisturbed hrun), .inr ⟨regs, rfl⟩⟩
  | timer regs =>
    simp only [step, bind_eq_ok, pure_eq_ok, Prod.exists] at h
    obtain ⟨k₁, hpush, k₂, r, hrun, rfl⟩ := h
    exact hschedule (pushFrame_undisturbed hpush hidle) (pushFrame_kept hpush).carried
      (pushFrame_queue hpush).current hrun

/-- The process that `elf_load` leaves for the scheduler. -/
structure Loaded (img : Image) (o : Proc) : Prop where
  starting : o.procState = .starting
  argv : o.argv = img.argv
  env : o.env = img.env
  space : o.space = img.space
  entry : o.frame.eip = img.entry

theorem elfLoad_loaded {img : Image} {pid : UInt32} (h : k.elfLoad (some img) = .ok (k', pid)) :
    pid = k.pidCounter ∧ k.pidCounter ≠ 0 ∧ k'.currentProc = k.currentProc ∧
      (∀ b, b ≠ k.pidCounter → k'.heap b = k.heap b) ∧
      ∃ o, k'.heap k.pidCounter = some o ∧ Loaded img o := by
  simp only [elfLoad, procCreate, bind_eq_ok] at h
  obtain ⟨⟨k₁, b⟩, hcreate, p, hp, h⟩ := h
  split at hcreate
  · cases hcreate
  rename_i hcnt
  simp only [bind_eq_ok, pure_eq_ok, Prod.mk.injEq] at hcreate h
  obtain ⟨ppid, -, rfl, rfl⟩ := hcreate
  obtain ⟨rfl, rfl⟩ := h
  simp only [deref_eq_ok, set_heap, if_true, Option.some.injEq] at hp
  subst hp
  refine ⟨rfl, hcnt, rfl, fun b hb => by simp only [set_heap, if_neg hb], ?_⟩
  simp only [set_heap, if_true]
  exact ⟨_, rfl, rfl, rfl, rfl, rfl, rfl⟩

/-- `SYS_EXEC` returns the pid of a process that waits to be started. -/
theorem exec_loaded {regs : Registers} {img : Image} (hk : k.Inv) (hcur : k.currentProc = some c)
    (hnum : regs.eax = sysExec) (h : k.step (.syscall regs { image := some img }) = .ok k') :
    k'.currentProc = some c ∧ (k'.heap c).map (fun p => p.frame.eax) = some k.pidCounter ∧
      c ≠ k.pidCounter ∧ ∃ o, k'.heap k.pidCounter = some o ∧ Loaded img o := by
  obtain ⟨p, hp, hable⟩ := hk.wf.current hcur
  simp only [step, bind_eq_ok, pure_eq_ok, Prod.exists] at h
  obtain ⟨k₁, r, hrun, rfl⟩ := h
  rw [syscallHandler] at hrun
  simp only [hcur, bind_eq_ok, deref_eq_ok] at hrun
  obtain ⟨k₂, hpush, k₄, hbody, q, hq, hrun⟩ := hrun
  obtain ⟨rfl, -⟩ := pushFrame_refines hk.wf.shape hcur hp hpush
  rw [hnum, show (k.set c { p with frame := regs }).syscallBody c sysExec { image := some img } =
    (k.set c { p with frame := regs }).syscallExec c (some img) from rfl] at hbody
  obtain ⟨⟨k₃, pid⟩, hload, heax⟩ := bind_eq_ok.1 hbody
  obtain ⟨rfl, hcnt, hcur₃, hothers, o, ho, hloaded⟩ := elfLoad_loaded hload
  have hne : c ≠ k.pidCounter := by
    intro heq
    have hfresh := hk.wf.sound.counter hcnt
    rw [show k.table.counter = c from heq.symm, table_life hp] at hfresh
    cases hfresh
  simp only [setEax, bind_eq_ok, deref_eq_ok, pure_eq_ok] at heax
  obtain ⟨p₃, hp₃, rfl⟩ := heax
  obtain rfl : p₃ = { p with frame := regs } := by
    rw [hothers c hne, set_heap, if_pos rfl] at hp₃
    exact (Option.some.inj hp₃).symm
  obtain rfl : q = { p with frame := { regs with eax := k.pidCounter } } := by
    rw [set_heap, if_pos rfl] at hq
    exact (Option.some.inj hq).symm
  have hable' : ¬ (p.procState = .blocked ∨ p.procState = .zombie) := fun hor =>
    hor.elim hable.1 hable.2
  rw [if_neg hable', pure_eq_ok, Prod.mk.injEq] at hrun
  obtain ⟨rfl, -⟩ := hrun
  refine ⟨hcur₃.trans hcur, by rw [set_heap, if_pos rfl]; rfl, hne, o, ?_, hloaded⟩
  rw [set_heap, if_neg (Ne.symm hne)]
  exact ho

/-! ## From `exec` to `main` -/

theorem layoutArgs_eip (h : layoutArgs p = .ok q) : q.frame.eip = p.frame.eip := by
  simp only [layoutArgs, bind_eq_ok, pure_eq_ok] at h
  obtain ⟨_, -, _, -, _, -, _, -, rfl⟩ := h
  rfl

/-- A process that has been laid out gets to its main function. -/
theorem layoutArgs_main {argv env : List (List UInt8)} {environ ret : UInt32} {fuel : Nat}
    (h : layoutArgs p = .ok q) (hstack : p.space.StackMapped) (hdata : p.space.DataAt environ)
    (hargv : p.argv = argv) (henv : p.env = env) (hzeroArgv : ∀ s ∈ argv, 0 ∉ s)
    (hzeroEnv : ∀ s ∈ env, 0 ∉ s) (hfits : argsSize argv env + 12 ≤ 16384)
    (hfuel : argv.length < fuel) :
    ∃ v esp, start fuel q.space q.frame.userEsp environ ret = some (v, esp) ∧
      MainGets v esp environ argv env := by
  subst hargv henv
  obtain ⟨q', hlayout, hagree, hesp, hblock⟩ :=
    UserSpace.layoutArgs_spec hstack (by omega) hzeroArgv hzeroEnv
  obtain rfl := Except.ok.inj (hlayout.symm.trans h)
  have hcount : 4 * (p.argv.length + 1) ≤ argsSize p.argv p.env := by
    rw [argsSize]
    omega
  exact UserSpace.start_spec (hstack.agree hagree) (by omega) (by omega) (by omega) hblock
    (hdata.agree hagree) hfuel

/-- The process that was created as `o` has not been in user mode yet. -/
structure Unstarted (k : Kernel) (a : ProcPtr) (o : Proc) : Prop where
  inv : k.Inv
  clean : k.StartsClean
  old : k.table.Old a
  idle : k.currentProc ≠ some a
  unread : k.waitingStdin.map StdinWaitingProc.p ≠ some a
  proc : ∀ q, k.heap a = some q → q = o ∨ q.procState = .zombie

/-- A step that does not put the process into user mode. -/
def Waits (a : ProcPtr) (k : Kernel) (e : Event) (k' : Kernel) : Prop :=
  k.step e = .ok k' ∧ k'.currentProc ≠ some a

/-- Only the running process registers to read. -/
theorem step_unread (h : k.step e = .ok k') (hidle : k.currentProc ≠ some a)
    (hunread : k.waitingStdin.map StdinWaitingProc.p ≠ some a) :
    k'.waitingStdin.map StdinWaitingProc.p ≠ some a := by
  by_cases hkey : ∃ scancode, e = .key scancode
  · obtain ⟨scancode, rfl⟩ := hkey
    rcases step_key_cases h with ⟨-, hw, -⟩ | ⟨-, w, p, -, -, rfl⟩
    · rwa [hw]
    · exact nofun
  · rw [(step_lines h (not_exists.1 hkey)).waiting]
    cases hmade : k.madeRead e with
    | none => exact hunread
    | some w =>
      cases e with
      | syscall regs env =>
        simp only [madeRead] at hmade
        split at hmade
        · obtain ⟨c, hc, rfl⟩ := Option.map_eq_some_iff.1 hmade
          exact fun hac => hidle (hc.trans hac)
        · cases hmade
      | _ => cases hmade

theorem Unstarted.step (h : k.Unstarted a o) (ho : o.Dormant) (hstep : Waits a k e k') :
    k'.Unstarted a o := by
  obtain ⟨hinv, htab⟩ := h.inv.step hstep.1
  refine ⟨hinv, h.clean.step hstep.1, h.old.step htab, hstep.2,
    step_unread hstep.1 h.idle h.unread, fun q hq => ?_⟩
  rcases step_dormant hstep.1 h.clean h.idle h.old.ne_counter h.unread with
    ⟨hkept, -⟩ | ⟨hcur, -⟩
  · obtain ⟨p, hp, hcase⟩ := hkept q hq
    rcases h.proc p hp with rfl | hzombie
    · exact hcase ho
    · rcases hcase (.inr hzombie) with rfl | hzombie'
      · exact .inr hzombie
      · exact .inr hzombie'
  · exact absurd hcur hstep.2

theorem Unstarted.run (h : k.Unstarted a o) (ho : o.Dormant) (hrun : Run (Waits a) k es k') :
    k'.Unstarted a o :=
  hrun.invariant (I := fun s => s.Unstarted a o) (fun _ _ _ hst hs => hs.step ho hst) h

/-- The step that puts it into user mode lays out its arguments. -/
theorem Unstarted.first (h : k.Unstarted a o) (ho : o.procState = .starting)
    (hstep : k.step e = .ok k') (hruns : k'.currentProc = some a)
    (hfault : ∀ regs, e ≠ .pageFault regs) : ∃ q, layoutArgs o = .ok q ∧ k'.heap a = some q := by
  rcases step_dormant hstep h.clean h.idle h.old.ne_counter h.unread with
    ⟨-, hno | ⟨regs, hregs⟩⟩ | ⟨-, p, hp, halive, hlayout⟩
  · exact absurd hruns hno
  · exact absurd hregs (hfault regs)
  · obtain rfl := (h.proc p hp).resolve_right halive
    exact hlayout ho

theorem Unstarted.of_exec {regs : Registers} {img : Image} (hk : k.Inv) (hclean : k.StartsClean)
    (hcur : k.currentProc = some c) (hnum : regs.eax = sysExec)
    (h : k.step (.syscall regs { image := some img }) = .ok k') :
    (k'.heap c).map (fun p => p.frame.eax) = some k.pidCounter ∧
      ∃ o, Loaded img o ∧ k'.Unstarted k.pidCounter o := by
  obtain ⟨hcur', heax, hne, o, ho, hloaded⟩ := exec_loaded hk hcur hnum h
  obtain ⟨hinv, -⟩ := hk.step h
  have hother : some c ≠ some k.pidCounter := fun heq => hne (Option.some.inj heq)
  have hunread : k.waitingStdin.map StdinWaitingProc.p ≠ some k.pidCounter := by
    intro hw
    have hold := hk.wf.sound.fresh _ (hk.wait.known _ hw)
    exact Table.Old.ne_counter hold rfl
  refine ⟨heax, o, hloaded, hinv, hclean.step h, hinv.wf.sound.fresh _ (.inl ⟨_, table_life ho⟩),
    hcur' ▸ hother, step_unread h (hcur ▸ hother) hunread, fun q hq => ?_⟩
  exact .inl (Option.some.inj (hq.symm.trans ho))

/-- A table with the one string `ls`, followed by the string. -/
def tableOfLs : UserSpace where
  mapped := fun page => page == 0x400
  byte := fun a =>
    (wordBytes 0x400008 ++ wordBytes 0 ++ [0x6C, 0x73, 0]).getD (a - 0x400000).toNat 0

theorem tableOfLs_passes : tableOfLs.Passes 0x400000 [[0x6C, 0x73]] := by
  refine .inr ⟨by decide, [0x400008], UserSpace.holds_of_all (by decide), ?_⟩
  exact .cons ⟨by decide, by decide, UserSpace.holds_of_all (by decide)⟩ .nil

/-- The program at `0x401000`, which has been passed `ls`. -/
def lsImage : Image := argsImage [[0x6C, 0x73]] []

def execLs : Registers := { eax := sysExec, ecx := 0x400000 }

end Kernel

end Kaku

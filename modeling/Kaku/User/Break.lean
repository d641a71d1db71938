-- SUMMARY: The user allocator on the break and the mapped areas of its process: what each call asks the kernel for, and runs.
import Kaku.User.MallocRun
import Kaku.Proc.Space
import Kaku.Lib.Run

/-!
# The user allocator on the kernel

A call of the allocator asks the kernel for memory at most once. `SYS_SBRK` answers with
the old break and `SYS_MMAP` with `mmap_next`, so that what a call returns depends on all
calls before it.
-/

namespace Kaku

/-- What a call of the allocator asks the kernel for. -/
inductive Ask
  | sbrk (increment : Nat)
  | mmap (size : Nat)
  deriving DecidableEq

def Ask.answer (os : Os) : Ask → Nat
  | sbrk increment => os.sbrk increment
  | mmap size => os.mmap size

namespace UHeap

/-! ## What is asked for -/

def smallAsk (ci : Nat) (h : UHeap) : Option Ask :=
  if h.memFreeLists ci = 0 then some (.sbrk (addr32 (memBlockSizeForClass ci * 8))) else none

def largeAsk (total : Nat) (h : UHeap) : Option Ask :=
  match takeLarge total (2 ^ 32 + 1) none h.memLargeFree h with
  | .ok none => some (.sbrk total)
  | _ => none

def mallocAsk (size : Nat) (h : UHeap) : Option Ask :=
  let size := if size = 0 then 1 else size
  let total := addr32 (size + memHeader)
  if memMmapThreshold ≤ total then some (.mmap total)
  else
    match memClassIndex total with
    | some ci => h.smallAsk ci
    | none => h.largeAsk total

def Call.ask (h : UHeap) : Call → Option Ask
  | malloc size => h.mallocAsk size
  | calloc count size => h.mallocAsk (addr32 (count * size))
  | realloc ptr size =>
    if ptr = 0 then h.mallocAsk size
    else if size = 0 then none
    else if size ≤ sub32 (h.size (sub32 ptr memHeader)) memHeader then none
    else h.mallocAsk size
  | free _ => none
  | write _ _ _ => none

variable {os os' : Os} {h h' : UHeap} {p n size total ci : Nat} {c : Call} {e : Extent}

theorem memSbrk_congr (hsbrk : os.sbrk n = os'.sbrk n) : h.memSbrk os n = h.memSbrk os' n := by
  unfold memSbrk
  rw [hsbrk]

theorem memMmapCall_congr (hmmap : os.mmap n = os'.mmap n) :
    h.memMmapCall os n = h.memMmapCall os' n := by
  unfold memMmapCall
  rw [hmmap]

theorem memAllocSmall_congr (hask : ∀ a, h.smallAsk ci = some a → a.answer os = a.answer os') :
    h.memAllocSmall os ci = h.memAllocSmall os' ci := by
  unfold memAllocSmall
  by_cases hempty : h.memFreeLists ci = 0
  · have hextend : h.memArenaExtendSmall os ci = h.memArenaExtendSmall os' ci := by
      have hsbrk := memSbrk_congr (h := h) (hask _ (if_pos hempty))
      simp only [memArenaExtendSmall, hsbrk]
    simp only [if_pos hempty, hextend]
  · simp only [if_neg hempty]

theorem memAllocLarge_congr (hask : ∀ a, h.largeAsk total = some a → a.answer os = a.answer os') :
    h.memAllocLarge os total = h.memAllocLarge os' total := by
  unfold memAllocLarge
  unfold largeAsk at hask
  generalize takeLarge total (2 ^ 32 + 1) none h.memLargeFree h = r at hask
  rcases r with _ | _ | found
  · rfl
  · simp only [bind, Except.bind]
    rw [memSbrk_congr (hask _ rfl)]
  · rfl

theorem malloc_congr (hask : ∀ a, h.mallocAsk size = some a → a.answer os = a.answer os') :
    h.malloc os size = h.malloc os' size := by
  unfold malloc
  unfold mallocAsk at hask
  simp only at hask ⊢
  by_cases hmapped : memMmapThreshold ≤ addr32 ((if size = 0 then 1 else size) + memHeader)
  · simp only [if_pos hmapped] at hask ⊢
    rw [memMmapCall_congr (hask _ rfl)]
  · simp only [if_neg hmapped] at hask ⊢
    cases hindex : memClassIndex (addr32 ((if size = 0 then 1 else size) + memHeader)) with
    | some ci =>
      rw [hindex] at hask
      simp only [memAllocSmall_congr hask]
    | none =>
      rw [hindex] at hask
      exact memAllocLarge_congr hask

/-- No other answer of the kernel makes a difference to a call. -/
theorem exec_congr (hask : ∀ a, c.ask h = some a → a.answer os = a.answer os')
    (hunmapped : os.unmapped = os'.unmapped) : c.exec os h = c.exec os' h := by
  have hfree (ptr : Nat) (h : UHeap) : h.free os ptr = h.free os' ptr := by
    unfold free memMunmap
    rw [hunmapped]
  cases c with
  | malloc size => exact malloc_congr hask
  | calloc count size =>
    have hmalloc := malloc_congr hask
    simp only [Call.exec, calloc, hmalloc]
  | realloc ptr size =>
    unfold Call.ask at hask
    unfold Call.exec realloc
    simp only [hfree]
    by_cases hptr : ptr = 0
    · simp only [if_pos hptr] at hask ⊢
      exact malloc_congr hask
    · by_cases hzero : size = 0
      · simp only [if_neg hptr, if_pos hzero]
      · by_cases hroom : size ≤ sub32 (h.size (sub32 ptr memHeader)) memHeader
        · simp only [if_neg hptr, if_neg hzero, if_pos hroom]
        · simp only [if_neg hptr, if_neg hzero, if_neg hroom] at hask ⊢
          rw [malloc_congr hask]
  | free ptr => exact congrArg (fun h => Except.ok (0, h)) (hfree ptr h)
  | write ptr off bytes => rfl

/-! ## The memory that a call gets -/

theorem owned_carve {base bs left i : Nat} : (carve ci base bs left i h).owned = h.owned := by
  induction left generalizing i h with
  | zero => rfl
  | succ left ih =>
    unfold carve
    simp only [ih]
    rfl

theorem owned_takeLarge {fuel b : Nat} {prev : Option Nat} {found : Nat × UHeap}
    (hrun : takeLarge total fuel prev b h = .ok (some found)) : found.2.owned = h.owned := by
  induction fuel generalizing prev b with
  | zero => cases hrun
  | succ fuel ih =>
    unfold takeLarge at hrun
    split at hrun
    · cases hrun
    · split at hrun
      · cases hrun
        cases prev <;> rfl
      · exact ih hrun

/-- The memory of the heap grows by what is asked for, if it grows. -/
def Gets (os : Os) (a : Option Ask) (h h' : UHeap) : Prop :=
  ∀ e ∈ h'.owned, e ∈ h.owned ∨ ∃ a' ∈ a, e.base = a'.answer os

theorem Gets.of_eq {a : Option Ask} (howned : h'.owned = h.owned) : Gets os a h h' := by
  intro e he
  rw [howned] at he
  exact .inl he

theorem memAllocSmall_gets (hrun : h.memAllocSmall os ci = (p, h')) :
    Gets os (h.smallAsk ci) h h' := by
  unfold smallAsk
  unfold memAllocSmall at hrun
  have howned : h'.owned =
      (if h.memFreeLists ci = 0 then h.memArenaExtendSmall os ci else h).owned := by
    simp only at hrun
    generalize (if h.memFreeLists ci = 0 then h.memArenaExtendSmall os ci else h) = h₁ at hrun ⊢
    split at hrun
    · cases hrun
      rfl
    · cases hrun
      rfl
  intro e he
  rw [howned] at he
  split at he
  · rename_i hempty
    rw [if_pos hempty]
    simp only [memArenaExtendSmall, memSbrk] at he
    split at he
    · exact .inl he
    · rw [owned_carve] at he
      rcases List.mem_cons.1 he with rfl | he
      · exact .inr ⟨_, rfl, rfl⟩
      · exact .inl he
  · exact .inl he

theorem memAllocLarge_gets (hrun : h.memAllocLarge os total = .ok (p, h')) :
    Gets os (h.largeAsk total) h h' := by
  unfold memAllocLarge at hrun
  unfold largeAsk
  cases htake : takeLarge total (2 ^ 32 + 1) none h.memLargeFree h with
  | error fault =>
    rw [htake] at hrun
    cases hrun
  | ok r =>
    rw [htake] at hrun
    cases r with
    | some found =>
      cases hrun
      exact .of_eq (owned_takeLarge htake)
    | none =>
      simp only [bind, Except.bind, memSbrk] at hrun
      split at hrun
      · cases hrun
        exact .of_eq rfl
      · cases hrun
        intro e he
        rcases List.mem_cons.1 he with rfl | he
        · exact .inr ⟨_, rfl, rfl⟩
        · exact .inl he

theorem malloc_gets (hrun : h.malloc os size = .ok (p, h')) :
    Gets os (h.mallocAsk size) h h' := by
  unfold malloc at hrun
  unfold mallocAsk
  simp only at hrun ⊢
  generalize addr32 ((if size = 0 then 1 else size) + memHeader) = total at hrun
  by_cases hmapped : memMmapThreshold ≤ total
  · simp only [if_pos hmapped, memMmapCall] at hrun ⊢
    split at hrun
    · cases hrun
      exact .of_eq rfl
    · cases hrun
      intro e he
      rcases List.mem_cons.1 he with rfl | he
      · exact .inr ⟨_, rfl, rfl⟩
      · exact .inl he
  · simp only [if_neg hmapped] at hrun ⊢
    cases hindex : memClassIndex total with
    | some ci =>
      rw [hindex] at hrun
      exact memAllocSmall_gets (Except.ok.inj hrun)
    | none =>
      rw [hindex] at hrun
      exact memAllocLarge_gets hrun

theorem owned_free {ptr : Nat} : (h.free os ptr).owned = h.owned := by
  unfold free
  simp only
  split
  · rfl
  · split
    · rfl
    · split <;> rfl

theorem exec_gets (hrun : c.exec os h = .ok (p, h')) : Gets os (c.ask h) h h' := by
  cases c with
  | malloc size => exact malloc_gets hrun
  | calloc count size =>
    obtain ⟨h₁, hmalloc, hrest⟩ := calloc_eq_ok hrun
    have hgets := malloc_gets hmalloc
    rcases hrest with ⟨-, rfl⟩ | ⟨-, rfl⟩
    · exact hgets
    · exact hgets
  | realloc ptr size =>
    cases realloc_eq_ok hrun with
    | fresh hptr hmalloc =>
      simp only [Call.ask, if_pos hptr]
      exact malloc_gets hmalloc
    | freed hptr hsize => exact .of_eq owned_free
    | kept hptr hsize hroom => exact .of_eq rfl
    | failed hptr hsize hroom hmalloc =>
      simp only [Call.ask, if_neg hptr, if_neg hsize, if_neg hroom]
      exact malloc_gets hmalloc
    | moved hptr hsize hroom hmalloc hp =>
      simp only [Call.ask, if_neg hptr, if_neg hsize, if_neg hroom]
      intro e he
      rw [owned_free] at he
      exact malloc_gets hmalloc e he
  | free ptr =>
    cases hrun
    exact .of_eq owned_free
  | write ptr off bytes =>
    cases hrun
    exact .of_eq rfl

/-! ## The size of what is asked for -/

/-- How many bytes a call is to provide, without any limit. -/
def Call.need : Call → Nat
  | malloc size => size
  | calloc count size => count * size
  | realloc _ size => size
  | free _ => 0
  | write _ _ _ => 0

theorem ask_eq {a : Ask} (hask : c.ask h = some a) :
    ∃ size ≤ c.need, h.mallocAsk size = some a := by
  cases c with
  | malloc size => exact ⟨size, le_rfl, hask⟩
  | calloc count size => exact ⟨_, Nat.mod_le _ _, hask⟩
  | realloc ptr size =>
    refine ⟨size, le_rfl, ?_⟩
    simp only [Call.ask] at hask
    split at hask
    · exact hask
    · split at hask
      · cases hask
      · split at hask
        · cases hask
        · exact hask
  | free ptr => cases hask
  | write ptr off bytes => cases hask

theorem mallocAsk_mmap (hask : h.mallocAsk size = some (.mmap n)) :
    n = addr32 (max size 1 + memHeader) := by
  have hrequest : (if size = 0 then 1 else size) = max size 1 := by
    split <;> omega
  unfold mallocAsk smallAsk largeAsk at hask
  rw [hrequest] at hask
  simp only at hask
  repeat' split at hask
  all_goals cases hask
  rfl

/-- The break moves by no more than a chunk of the largest class. -/
theorem mallocAsk_sbrk (hask : h.mallocAsk size = some (.sbrk n)) : n ≤ memMmapThreshold := by
  unfold mallocAsk at hask
  simp only at hask
  generalize addr32 ((if size = 0 then 1 else size) + memHeader) = total at hask
  split at hask
  · cases hask
  · rename_i hsmall
    split at hask
    · rename_i ci hindex
      unfold smallAsk at hask
      split at hask
      · cases hask
        have hk := (le_of_memClassIndex hindex).1
        have hpow : 2 ^ ci ≤ 2 ^ 9 :=
          Nat.pow_le_pow_right (by decide) (by rw [memNumClasses] at hk; omega)
        rw [blockSize_eq hk, addr32, memAlign, memMmapThreshold]
        exact (Nat.mod_le _ _).trans (by omega)
      · cases hask
    · unfold largeAsk at hask
      split at hask
      · cases hask
        exact (Nat.lt_of_not_le hsmall).le
      · cases hask

/-- A call that returns an allocation makes it as large as it says. -/
theorem effect_live (live : List Alloc) (hrun : c.exec os h = .ok (p, h'))
    (hp : p ≠ 0) :
    ∃ a ∈ c.effect p h'.mem live, a.ptr = p ∧ a.bytes.length = c.need := by
  cases c with
  | malloc size =>
    refine ⟨⟨p, h'.mem.peek p size⟩, ?_, rfl, Mem.length_peek⟩
    simp only [Call.effect, give, if_neg hp]
    exact List.mem_cons_self
  | calloc count size =>
    refine ⟨⟨p, List.replicate (count * size) 0⟩, ?_, rfl, List.length_replicate⟩
    simp only [Call.effect, give, if_neg hp]
    exact List.mem_cons_self
  | realloc ptr size =>
    -- `realloc` to size 0 frees and returns no pointer
    have hcase : ¬ (ptr ≠ 0 ∧ size = 0) := by
      rintro ⟨hptr, rfl⟩
      simp only [Call.exec, realloc, if_neg hptr, if_true] at hrun
      cases hrun
      exact hp rfl
    simp only [Call.effect, if_neg hcase, if_neg hp]
    refine ⟨_, List.mem_cons_self, rfl, ?_⟩
    have hkept : ((contents ptr live).take size).length ≤ size := List.length_take_le size _
    rw [List.length_append, Mem.length_peek]
    exact Nat.add_sub_cancel' hkept
  | free ptr =>
    cases hrun
    exact absurd rfl hp
  | write ptr off bytes =>
    cases hrun
    exact absurd rfl hp

/-- Only live pointers are passed, and the program writes to what it has allocated. -/
def Call.Known (live : List Alloc) : Call → Prop
  | malloc _ => True
  | calloc _ _ => True
  | realloc ptr _ => ptr = 0 ∨ ∃ a ∈ live, a.ptr = ptr
  | free ptr => ptr = 0 ∨ ∃ a ∈ live, a.ptr = ptr
  | write ptr off bytes => ∃ a ∈ live, a.ptr = ptr ∧ off + bytes.length ≤ a.bytes.length

theorem Call.Known.allowed {live : List Alloc} (hknown : c.Known live) (hfits : Fits c.need) :
    c.Allowed live := by
  cases c with
  | malloc size => exact hfits
  | calloc count size => exact hfits
  | realloc ptr size => exact ⟨hknown, hfits⟩
  | free ptr => exact hknown
  | write ptr off bytes => exact hknown

theorem FreshAt.mono {owned : List Extent} {a k : Nat} (hfresh : FreshAt owned a n) (hk : k ≤ n) :
    FreshAt owned a k where
  pos := hfresh.pos
  fits := by
    have hfits := hfresh.fits
    omega
  fresh := by
    intro e he x hx
    refine hfresh.fresh e he x ⟨hx.1, ?_⟩
    have hin := hx.2
    simp only [Extent.Has] at hin ⊢
    omega

/-- The largest request for which neither the header nor the rounding to pages wraps around. -/
def largestNeed : Nat := 0xFFFFEFF0

end UHeap

/-! ## Programs -/

open UHeap in
/-- A program, with what the kernel keeps of it. -/
structure Program where
  heap : UHeap
  live : List Alloc
  programBreak : Nat
  mmapNext : Nat

namespace Program

open UHeap

variable {s s' : Program} {c : UHeap.Call} {a : Ask} {m m' : Memory} {proc proc' : ProcMem}
  {p n r : Nat} {unmapped : Mem}

def os (s : Program) (unmapped : Mem) : Os where
  sbrk := fun _ => s.programBreak
  mmap := fun _ => s.mmapNext
  unmapped := unmapped

/-- What the kernel keeps after its answer. -/
def answered (s : Program) : Option Ask → Program
  | none => s
  | some (.sbrk increment) => { s with programBreak := newBreak s.programBreak increment }
  | some (.mmap size) =>
    { s with mmapNext := addr32 (s.mmapNext + addr32 (mmapPageCount size * 4096)) }

/-- The kernel has the program as this process. -/
def Of (s : Program) (proc : ProcMem) : Prop :=
  s.programBreak = proc.programBreak ∧ s.mmapNext = proc.mmapNext

theorem Of.sbrk (hof : s.Of proc) (hcall : syscallSbrk m proc n = .ok (m', proc', r)) :
    r = (Ask.sbrk n).answer (s.os unmapped) ∧ (s.answered (some (.sbrk n))).Of proc' := by
  have hanswer : proc.programBreak = (Ask.sbrk n).answer (s.os unmapped) := hof.1.symm
  have hafter : (s.answered (some (.sbrk n))).Of
      { proc with programBreak := newBreak proc.programBreak n } :=
    ⟨congrArg (newBreak · n) hof.1, hof.2⟩
  simp only [syscallSbrk] at hcall
  split at hcall
  all_goals
    obtain ⟨m₁, -, hcall⟩ := bind_eq_ok.1 hcall
    cases hcall
    exact ⟨hanswer, hafter⟩

theorem Of.mmap (hof : s.Of proc) (hcall : syscallMmap m proc n = .ok (m', proc', r)) :
    r = (Ask.mmap n).answer (s.os unmapped) ∧ (s.answered (some (.mmap n))).Of proc' := by
  simp only [syscallMmap, bind_eq_ok, pure_eq_ok] at hcall
  obtain ⟨m₁, -, hcall⟩ := hcall
  cases hcall
  refine ⟨hof.2.symm, hof.1, ?_⟩
  simp only [answered, hof.2]

def exec (unmapped : Mem) (s : Program) (c : UHeap.Call) : K (Nat × Program) := do
  let (p, h) ← c.exec (s.os unmapped) s.heap
  pure (p, { s.answered (c.ask s.heap) with heap := h, live := c.effect p h.mem s.live })

/-! ## Sound runs -/

/-- The memory with which the kernel answers is not in use, and does not wrap around. Where
`SYS_MMAP` maps no page this is said of the page at which it answers. -/
def Fresh (s : Program) : Ask → Prop
  | .sbrk increment => FreshAt s.heap.owned s.programBreak increment
  | .mmap size => FreshAt s.heap.owned s.mmapNext (max 4096 (mmapPageCount size * 4096))

/-- A call that a program may make, and that the kernel can serve. -/
structure Sound (s : Program) (c : UHeap.Call) : Prop where
  known : c.Known s.live
  need : c.need ≤ largestNeed
  fresh : ∀ a ∈ c.ask s.heap, s.Fresh a

/-- A sound call, and what the program is afterwards. -/
def Step (s : Program) (c : UHeap.Call) (s' : Program) : Prop :=
  s.Sound c ∧ ∃ unmapped p, s.exec unmapped c = .ok (p, s')

/-- A program before its first call. -/
structure Start (s : Program) : Prop where
  heap : s.heap.Initial
  live : s.live = []
  programBreak : s.programBreak % 4096 = 0
  mmapNext : s.mmapNext % 4096 = 0

/-! ## The invariant -/

structure Inv (s : Program) : Prop where
  heap : s.heap.Inv s.live
  low : ∀ e ∈ s.heap.owned, 4096 ≤ e.base
  programBreak : s.programBreak = 0 ∨ 4096 ≤ s.programBreak
  mmapNext : s.mmapNext % 4096 = 0

theorem Start.inv (hstart : s.Start) : s.Inv where
  heap := by
    rw [hstart.live]
    exact inv_initial hstart.heap
  low := by
    rw [hstart.heap.owned]
    simp
  programBreak := by
    have haligned := hstart.programBreak
    omega
  mmapNext := hstart.mmapNext

/-- The kernel that gives this one answer and no other. -/
def only (s : Program) (a : Option Ask) (unmapped : Mem) : Os where
  sbrk := fun n => if a = some (.sbrk n) then s.programBreak else sbrkFailed
  mmap := fun n => if a = some (.mmap n) then s.mmapNext else 0
  unmapped := unmapped

theorem exec_only : c.exec (s.os unmapped) s.heap =
    c.exec (s.only (c.ask s.heap) unmapped) s.heap := by
  refine exec_congr (fun a hask => ?_) rfl
  cases a with
  | sbrk n => exact (if_pos hask).symm
  | mmap n => exact (if_pos hask).symm

/-- Up to the largest request the rounding to pages does not wrap around. -/
theorem le_pages {size : Nat} (hsize : size ≤ largestNeed + memHeader) :
    size ≤ mmapPageCount size * 4096 ∧ mmapPageCount size * 4096 < 2 ^ 32 := by
  rw [largestNeed, memHeader] at hsize
  unfold mmapPageCount addr32
  omega

theorem only_fresh {o : Option Ask} (hfresh : ∀ a ∈ o, s.Fresh a)
    (hmmap : ∀ n, o = some (.mmap n) → n ≤ largestNeed + memHeader) (unmapped : Mem) :
    FreshAnswers (s.only o unmapped) s.heap.owned where
  sbrk := by
    intro n
    simp only [only]
    split
    · rename_i hask
      exact .inr (hfresh _ hask)
    · exact .inl rfl
  mmap := by
    intro n
    simp only [only]
    split
    · rename_i hask
      exact .inr ((hfresh _ hask).mono ((le_pages (hmmap n hask)).1.trans (Nat.le_max_right _ _)))
    · exact .inl rfl

theorem Sound.answers (hsound : s.Sound c) (unmapped : Mem) :
    FreshAnswers (s.only (c.ask s.heap) unmapped) s.heap.owned := by
  refine only_fresh hsound.fresh (fun n hask => ?_) unmapped
  obtain ⟨size, hsize, hmalloc⟩ := ask_eq hask
  have hneed := hsound.need
  rw [mallocAsk_mmap hmalloc]
  refine (Nat.mod_le _ _).trans ?_
  rw [largestNeed] at hneed ⊢
  omega

theorem Sound.allowed (hsound : s.Sound c) : c.Allowed s.live := by
  have hneed := hsound.need
  rw [largestNeed] at hneed
  refine hsound.known.allowed ?_
  rw [Fits, memHeader]
  omega

theorem mmapNext_answered (hnext : s.mmapNext % 4096 = 0) (o : Option Ask) :
    (s.answered o).mmapNext % 4096 = 0 := by
  rcases o with _ | n | n
  · exact hnext
  · exact hnext
  · simp only [answered, addr32]
    omega

theorem Inv.answer (hs : s.Inv) (hfresh : s.Fresh a) : 4096 ≤ a.answer (s.os unmapped) := by
  cases a with
  | sbrk n =>
    have hpos := hfresh.pos
    have hbreak := hs.programBreak
    simp only [Ask.answer, os]
    omega
  | mmap n =>
    have hpos := hfresh.pos
    have hnext := hs.mmapNext
    simp only [Ask.answer, os]
    omega

theorem Sound.step (hs : s.Inv) (hsound : s.Sound c) (hrun : s.exec unmapped c = .ok (p, s')) :
    s'.Inv := by
  obtain ⟨⟨q, h⟩, hexec, hrest⟩ := bind_eq_ok.1 hrun
  cases hrest
  have hgets := exec_gets hexec
  rw [exec_only] at hexec
  obtain ⟨q', h', hexec', hheap⟩ := hs.heap.step (hsound.answers unmapped) c hsound.allowed
  rw [hexec] at hexec'
  cases hexec'
  refine ⟨hheap, fun e he => ?_, ?_, mmapNext_answered hs.mmapNext _⟩
  · rcases hgets e he with hold | ⟨a, ha, hbase⟩
    · exact hs.low e hold
    · rw [hbase]
      exact hs.answer (hsound.fresh a ha)
  · cases hask : c.ask s.heap with
    | none => exact hs.programBreak
    | some a =>
      cases a with
      | mmap n => exact hs.programBreak
      | sbrk n =>
        obtain ⟨size, -, hmalloc⟩ := ask_eq hask
        have hn := mallocAsk_sbrk hmalloc
        have hfresh : FreshAt s.heap.owned s.programBreak n := hsound.fresh _ hask
        have hfits := hfresh.fits
        have hpos := hfresh.pos
        have hbreak := hs.programBreak
        rw [memMmapThreshold] at hn
        have hmoved : newBreak s.programBreak n = addr32 (s.programBreak + n) := if_neg (by omega)
        simp only [answered, hmoved, addr32]
        omega

theorem Inv.run {cs : List UHeap.Call} (hrun : Kaku.Run Step s cs s') (hs : s.Inv) : s'.Inv :=
  hrun.invariant (fun _ _ _ ⟨hsound, _, _, hexec⟩ hs => hsound.step hs hexec) hs

/-- A program whose break is at 32 KiB, before its first call. -/
def fresh : Program where
  heap := emptyHeap
  live := []
  programBreak := 0x8000
  mmapNext := 0x7000000

theorem fresh_start : fresh.Start := ⟨⟨fun _ _ => rfl, rfl, rfl⟩, rfl, rfl, rfl⟩

end Program

end Kaku

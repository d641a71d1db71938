-- SUMMARY: The allocator of user programs: size classes, the list of large blocks, and blocks that are mapped one by one.
import Kaku.Fault
import Kaku.Lib.Bytes
import Kaku.Lib.Tiling
import Kaku.Mm.Heap

/-!
# The user allocator

`user_fs/lib/mem.h`. Every block starts with a `mem_block` of 16 bytes. Memory
comes from the kernel, by `SYS_SBRK` and by `SYS_MMAP`.
-/

namespace Kaku

def memAlign : Nat := 16
def memMmapThreshold : Nat := 64 * 1024
def memNumClasses : Nat := 10
def memFree : Nat := 0x1
def memUsed : Nat := 0x2
def memMmap : Nat := 0x4

/-- `sizeof(mem_block)`. -/
def memHeader : Nat := 16

/-- What `SYS_SBRK` answers when it fails. -/
def sbrkFailed : Nat := 0xFFFFFFFF

/-- The answers of the kernel: the base of the memory that it hands out, by size, and what
can be read where memory has been unmapped. -/
structure Os where
  sbrk : Nat → Nat
  mmap : Nat → Nat
  unmapped : Mem

/-- The memory of the program, and the variables of the allocator. `owned` is all the
memory that the kernel has handed out. -/
structure UHeap where
  mem : Mem
  memFreeLists : Nat → Nat
  memLargeFree : Nat
  owned : List Extent

namespace UHeap

/-! ## Blocks -/

def size (h : UHeap) (b : Nat) : Nat := h.mem.load b 4
def flags (h : UHeap) (b : Nat) : Nat := h.mem.load (b + 4) 4
def next (h : UHeap) (b : Nat) : Nat := h.mem.load (b + 8) 4

def setSize (h : UHeap) (b n : Nat) : UHeap := { h with mem := h.mem.store b 4 n }
def setFlags (h : UHeap) (b n : Nat) : UHeap := { h with mem := h.mem.store (b + 4) 4 n }
def setNext (h : UHeap) (b n : Nat) : UHeap := { h with mem := h.mem.store (b + 8) 4 n }

def setFreeList (h : UHeap) (ci b : Nat) : UHeap :=
  { h with memFreeLists := fun i => if i = ci then b else h.memFreeLists i }

/-! ## System calls -/

def memSbrk (os : Os) (increment : Nat) (h : UHeap) : Nat × UHeap :=
  let base := os.sbrk increment
  (base, if base = sbrkFailed then h else { h with owned := ⟨base, increment⟩ :: h.owned })

def memMmapCall (os : Os) (size : Nat) (h : UHeap) : Nat × UHeap :=
  let base := os.mmap size
  (base, if base = 0 then h else { h with owned := ⟨base, size⟩ :: h.owned })

def memMunmap (os : Os) (addr size : Nat) (h : UHeap) : UHeap :=
  { h with mem := h.mem.blit addr size fun k => os.unmapped (addr + k) }

/-! ## Helpers -/

def memBlockSizeForClass (ci : Nat) : Nat := addr32 (memAlign <<< ci)

/-- The loop of `mem_class_index` from class `i` on. -/
def memClassIndexFrom (size : Nat) : (left i bs : Nat) → Option Nat
  | 0, _, _ => none
  | left + 1, i, bs => if size ≤ bs then some i else memClassIndexFrom size left (i + 1) (addr32 (bs <<< 1))

def memClassIndex (size : Nat) : Option Nat := memClassIndexFrom size memNumClasses 0 memAlign

/-- The loop that puts the blocks of a fresh chunk on the list. -/
def carve (ci base bs : Nat) : (left i : Nat) → UHeap → UHeap
  | 0, _, h => h
  | left + 1, i, h =>
    let b := addr32 (base + i * bs)
    let h := (h.setSize b bs).setFlags b memFree
    let h := (h.setNext b (h.memFreeLists ci)).setFreeList ci b
    carve ci base bs left (i + 1) h

def memArenaExtendSmall (os : Os) (ci : Nat) (h : UHeap) : UHeap :=
  let bs := memBlockSizeForClass ci
  let (base, h) := h.memSbrk os (addr32 (bs * 8))
  if base = sbrkFailed then h else carve ci base bs 8 0 h

/-- Takes the first block of a class, which may have to be filled first. The result is 0
when there is none. -/
def memAllocSmall (os : Os) (ci : Nat) (h : UHeap) : Nat × UHeap :=
  let h := if h.memFreeLists ci = 0 then h.memArenaExtendSmall os ci else h
  let b := h.memFreeLists ci
  if b = 0 then (0, h)
  else (addr32 (b + memHeader), (h.setFreeList ci (h.next b)).setFlags b memUsed)

/-- The walk over the large blocks, with the block whose `next` the source points into; there
is none while it points to `mem_large_free`. As the blocks have addresses of their own, the
fuel runs out only where the list is a circle. -/
def takeLarge (total : Nat) :
    (fuel : Nat) → (prev : Option Nat) → Nat → UHeap → K (Option (Nat × UHeap))
  | 0, _, _, _ => .error .hang
  | fuel + 1, prev, b, h =>
    if b = 0 then .ok none
    else if total ≤ h.size b then
      let h' := match prev with
        | none => { h with memLargeFree := h.next b }
        | some p => h.setNext p (h.next b)
      .ok (some (addr32 (b + memHeader), h'.setFlags b memUsed))
    else takeLarge total fuel (some b) (h.next b) h

def memAllocLarge (os : Os) (total : Nat) (h : UHeap) : K (Nat × UHeap) := do
  match ← takeLarge total (2 ^ 32 + 1) none h.memLargeFree h with
  | some found => pure found
  | none =>
    let (base, h) := h.memSbrk os total
    if base = sbrkFailed then pure (0, h)
    else pure (addr32 (base + memHeader), (h.setSize base total).setFlags base memUsed)

/-! ## The calls of the program -/

def malloc (os : Os) (size : Nat) (h : UHeap) : K (Nat × UHeap) :=
  let size := if size = 0 then 1 else size
  let total := addr32 (size + memHeader)
  if memMmapThreshold ≤ total then
    let (base, h) := h.memMmapCall os total
    if base = 0 then pure (0, h)
    else pure (addr32 (base + memHeader), (h.setSize base total).setFlags base memMmap)
  else
    match memClassIndex total with
    | some ci => pure (h.memAllocSmall os ci)
    | none => h.memAllocLarge os total

def free (os : Os) (ptr : Nat) (h : UHeap) : UHeap :=
  if ptr = 0 then h
  else
    let b := sub32 ptr memHeader
    if h.flags b &&& memMmap ≠ 0 then h.memMunmap os b (h.size b)
    else
      let h := h.setFlags b memFree
      match memClassIndex (h.size b) with
      | some ci => (h.setNext b (h.memFreeLists ci)).setFreeList ci b
      | none => { h.setNext b h.memLargeFree with memLargeFree := b }

def calloc (os : Os) (count size : Nat) (h : UHeap) : K (Nat × UHeap) := do
  let bytes := addr32 (count * size)
  let (p, h) ← h.malloc os bytes
  if p = 0 then pure (0, h)
  else pure (p, { h with mem := h.mem.blit p bytes fun _ => 0 })

/-- The bytes are copied one after the other, from the first one on. -/
def copyBytes (dst src : Nat) : Nat → Mem → Mem
  | 0, m => m
  | n + 1, m =>
    let m := copyBytes dst src n m
    m.store (dst + n) 1 (m (src + n)).toNat

def realloc (os : Os) (ptr size : Nat) (h : UHeap) : K (Nat × UHeap) :=
  if ptr = 0 then h.malloc os size
  else if size = 0 then pure (0, h.free os ptr)
  else
    let oldUsable := sub32 (h.size (sub32 ptr memHeader)) memHeader
    if size ≤ oldUsable then pure (ptr, h)
    else do
      let (np, h) ← h.malloc os size
      if np = 0 then pure (0, h)
      else pure (np, ({ h with mem := copyBytes np ptr oldUsable h.mem }).free os ptr)

/-! ## The ways through a call -/

variable {os : Os} {h h' : UHeap} {ptr count size p : Nat}

theorem calloc_eq_ok (hrun : h.calloc os count size = .ok (p, h')) :
    ∃ h₁, h.malloc os (addr32 (count * size)) = .ok (p, h₁) ∧
      (p = 0 ∧ h' = h₁ ∨
        p ≠ 0 ∧ h' = { h₁ with mem := h₁.mem.blit p (addr32 (count * size)) fun _ => 0 }) := by
  unfold calloc at hrun
  obtain ⟨⟨q, h₁⟩, hmalloc, hrest⟩ := bind_eq_ok.1 hrun
  simp only at hrest
  split at hrest
  · rename_i hq
    cases hrest
    exact ⟨h', hq ▸ hmalloc, .inl ⟨rfl, rfl⟩⟩
  · rename_i hq
    cases hrest
    exact ⟨h₁, hmalloc, .inr ⟨hq, rfl⟩⟩

/-- What `realloc` returns and leaves: one constructor for each way through it. -/
inductive Reallocs (os : Os) (h : UHeap) (ptr size : Nat) : Nat → UHeap → Prop
  | fresh {p : Nat} {h' : UHeap} (hptr : ptr = 0) (hmalloc : h.malloc os size = .ok (p, h')) :
      Reallocs os h ptr size p h'
  | freed (hptr : ptr ≠ 0) (hsize : size = 0) : Reallocs os h ptr size 0 (h.free os ptr)
  | kept (hptr : ptr ≠ 0) (hsize : size ≠ 0)
      (hroom : size ≤ sub32 (h.size (sub32 ptr memHeader)) memHeader) :
      Reallocs os h ptr size ptr h
  | failed {h' : UHeap} (hptr : ptr ≠ 0) (hsize : size ≠ 0)
      (hroom : ¬ size ≤ sub32 (h.size (sub32 ptr memHeader)) memHeader)
      (hmalloc : h.malloc os size = .ok (0, h')) : Reallocs os h ptr size 0 h'
  | moved {p : Nat} {h₁ : UHeap} (hptr : ptr ≠ 0) (hsize : size ≠ 0)
      (hroom : ¬ size ≤ sub32 (h.size (sub32 ptr memHeader)) memHeader)
      (hmalloc : h.malloc os size = .ok (p, h₁)) (hp : p ≠ 0) :
      Reallocs os h ptr size p (UHeap.free os ptr { h₁ with
        mem := copyBytes p ptr (sub32 (h.size (sub32 ptr memHeader)) memHeader) h₁.mem })

theorem realloc_eq_ok (hrun : h.realloc os ptr size = .ok (p, h')) :
    Reallocs os h ptr size p h' := by
  unfold realloc at hrun
  by_cases hptr : ptr = 0
  · rw [if_pos hptr] at hrun
    exact .fresh hptr hrun
  by_cases hsize : size = 0
  · rw [if_neg hptr, if_pos hsize] at hrun
    cases hrun
    exact .freed hptr hsize
  rw [if_neg hptr, if_neg hsize] at hrun
  by_cases hroom : size ≤ sub32 (h.size (sub32 ptr memHeader)) memHeader
  · simp only [if_pos hroom] at hrun
    cases hrun
    exact .kept hptr hsize hroom
  · simp only [if_neg hroom] at hrun
    obtain ⟨⟨q, h₁⟩, hmalloc, hrest⟩ := bind_eq_ok.1 hrun
    simp only at hrest
    split at hrest
    · rename_i hq
      cases hrest
      exact .failed hptr hsize hroom (hq ▸ hmalloc)
    · rename_i hq
      cases hrest
      exact .moved hptr hsize hroom hmalloc hq

end UHeap

end Kaku

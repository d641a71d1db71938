-- SUMMARY: The kernel heap: a buddy allocator whose free lists are threaded through the free blocks.
import Kaku.Fault
import Kaku.Lib.Bytes

/-!
# `mm/src/heap.c`

`kernel_heap` is a static object. The free lists it heads and the order byte in
front of each allocation are in the heap's own memory, so memory is modelled byte
by byte. Addresses are 32 bits wide.
-/

namespace Kaku

def allocMinBytesBlock : Nat := 16
def allocOrders : Nat := 19
def kernelVirtBaseAddr : Nat := 0xC0000000
def mib : Nat := 1024 * 1024

def addr32 (a : Nat) : Nat := a % 2 ^ 32

/-- Subtraction on 32-bit operands. -/
def sub32 (a b : Nat) : Nat := if b ≤ a then a - b else a + 2 ^ 32 - b

theorem sub32_of_le {a b : Nat} (h : b ≤ a) : sub32 a b = a - b := if_pos h

/-- The fields of `mmap_entry` that are read here, both 64 bits wide. -/
structure MmapEntry where
  baseAddr : Nat
  regionLen : Nat

/-- `k_heap`, and the memory it manages. -/
structure KHeap where
  freeBlocks : Nat → Nat
  heapStart : Nat
  heapSize : Nat
  mem : Mem

namespace KHeap

/-- `((free_block*)b)->next`. -/
def next (h : KHeap) (b : Nat) : Nat := h.mem.load b 4

def setNext (h : KHeap) (b v : Nat) : KHeap := { h with mem := h.mem.store b 4 v }

def setHead (h : KHeap) (order v : Nat) : KHeap :=
  { h with freeBlocks := fun i => if i = order then v else h.freeBlocks i }

end KHeap

def kheapInit (kernelPhysEnd : Nat) (usableEntry : MmapEntry) (mem : Mem) : KHeap :=
  let heapStartVirt := addr32 (kernelPhysEnd + kernelVirtBaseAddr)
  let top := (usableEntry.baseAddr + usableEntry.regionLen + (2 ^ 64 - kernelPhysEnd)) % 2 ^ 64
  { freeBlocks := fun i => if i = allocOrders - 1 then heapStartVirt else 0
    heapStart := heapStartVirt
    heapSize := addr32 (min top (4 * mib))
    mem := mem.store heapStartVirt 4 0 }

/-! ## Sizes and orders -/

/-- From 2 GiB on the doubled size overflows to 0 and the loop never ends. It
runs at most 28 times otherwise. -/
def orderLoop (size : Nat) : (fuel evaluatedOrderBytes order : Nat) → K Nat
  | 0, _, _ => .error .hang
  | fuel + 1, evaluatedOrderBytes, order =>
    if max size evaluatedOrderBytes = size then
      orderLoop size fuel (addr32 (evaluatedOrderBytes <<< 1)) ((order + 1) % 256)
    else .ok order

def orderForSize (size : Nat) : K Nat := orderLoop size 29 allocMinBytesBlock 0

def sizeForOrder (order : Nat) : Nat := addr32 (allocMinBytesBlock <<< order)

namespace KHeap

/-! ## Allocation -/

/-- Halve a block `n` times, each time giving the upper half to its free list. -/
def splitDown (h : KHeap) (ptr order : Nat) : (n : Nat) → KHeap
  | 0 => h
  | n + 1 =>
    let half := sizeForOrder (order + n)
    let buddy := addr32 (ptr + half)
    let h := h.setNext buddy (h.freeBlocks (order + n))
    splitDown (h.setHead (order + n) buddy) ptr order n

def kheapAlloc (h : KHeap) (size : Nat) : K (KHeap × Nat) := do
  let order ← orderForSize size
  match (List.range' order (allocOrders - order)).find? fun i => h.freeBlocks i != 0 with
  | none => .error (.panic "HEAP_OUT_OF_MEMORY: kernel heap is out of memory, cannot allocate!")
  | some firstAvailableOrder =>
    let ptr := h.freeBlocks firstAvailableOrder
    let h := h.setHead firstAvailableOrder (h.next ptr)
    let h := h.splitDown ptr order (firstAvailableOrder - order)
    pure ({ h with mem := h.mem.store ptr 1 order }, addr32 (ptr + 1))

/-! ## Freeing -/

/-- What `previous_block` points at: the head of the list or a block's `next`. -/
inductive Link
  | head
  | next (block : Nat)
  deriving DecidableEq, Repr

/-- Search a free list for a block, and return the link that points at it. -/
def findLink (h : KHeap) (target : Nat) : (fuel : Nat) → Link → (current : Nat) → K (Option Link)
  | 0, _, _ => .error .hang
  | fuel + 1, previous, current =>
    if current = 0 then .ok none
    else if current = target then .ok (some previous)
    else findLink h target fuel (.next current) (h.next current)

/-- `*previous_block = current_block->next`. -/
def setLink (h : KHeap) (order : Nat) (link : Link) (v : Nat) : KHeap :=
  match link with
  | .head => h.setHead order v
  | .next b => h.setNext b v

/-- More steps than there are addresses in the heap. -/
def walkFuel : Nat := 4 * mib + 1

/-- The loop of `kheap_free`; `left` is `ALLOC_ORDERS - 1 - current_order`. -/
def mergeUp (h : KHeap) : (left currentOrder currentAddr : Nat) → K (KHeap × Nat × Nat)
  | 0, currentOrder, currentAddr => .ok (h, currentOrder, currentAddr)
  | left + 1, currentOrder, currentAddr => do
    let offsetFromStart := addr32 (currentAddr + (2 ^ 32 - h.heapStart))
    let buddyOffset := offsetFromStart ^^^ sizeForOrder currentOrder
    let buddyAddr := addr32 (h.heapStart + buddyOffset)
    match ← h.findLink buddyAddr walkFuel .head (h.freeBlocks currentOrder) with
    | some link =>
      let h := h.setLink currentOrder link (h.next buddyAddr)
      mergeUp h left (currentOrder + 1) (if buddyAddr < currentAddr then buddyAddr else currentAddr)
    | none => .ok (h, currentOrder, currentAddr)

def kheapFree (h : KHeap) (ptr : Nat) : K KHeap :=
  if ptr = 0 then .ok h
  else do
    let order := (h.mem (ptr - 1)).toNat
    let (h, order, addr) ← h.mergeUp (allocOrders - 1 - order) order (ptr - 1)
    if allocOrders ≤ order then .error .wild
    else pure ((h.setNext addr (h.freeBlocks order)).setHead order addr)

end KHeap

end Kaku

-- SUMMARY: The heap is as little fragmented as its live blocks allow.
import Kaku.Lib.Dyadic
import Kaku.Mm.HeapRun

/-!
# Fragmentation

Free blocks are merged with their buddies as far as that goes, so every aligned
range without a live block in it lies inside one free block. An allocation can
run out of memory only when no such range is left.
-/

namespace Kaku

namespace KHeap

variable {h : KHeap} {free : Nat → List Nat} {rest : List Block} {start o off : Nat}

/-- The free blocks as dyadic cells of offsets. -/
def Cells (start : Nat) (free : Nat → List Nat) (j q : Nat) : Prop :=
  ∃ o < allocOrders, j = o + 4 ∧ ∃ a ∈ free o, a - start = 2 ^ j * q

/-- The halves of a cell are buddies. -/
theorem Coalesced.cells (hc : Coalesced start free) : Dyadic.Coalesced (Cells start free) 22 := by
  rintro j hj q ⟨⟨o, ho, rfl, a, ha, hqa⟩, ⟨p, hp, hop, b, hb, hqb⟩⟩
  obtain rfl : o = p := by omega
  refine hc o (by rw [allocOrders]; omega) a ha b hb ?_
  rw [Buddies, hqa, hqb, sizeForOrder_eq ho, ← blockLen_eq, xor_blockLen, if_pos (by omega),
    Nat.mul_succ]

/-- An aligned range that no block off the lists overlaps is inside a free block. -/
theorem Shape.free_around (hs : h.Shape free rest) (hc : Coalesced h.heapStart free)
    (ho : o < allocOrders) (haligned : blockLen o ∣ off) (hin : off + blockLen o ≤ heapLen)
    (hclear : ∀ b ∈ rest, (⟨h.heapStart + off, blockLen o⟩ : Extent).Disjoint b.extent) :
    ∃ p < allocOrders, o ≤ p ∧ ∃ a ∈ free p,
      a ≤ h.heapStart + off ∧ h.heapStart + off + blockLen o ≤ a + blockLen p := by
  obtain ⟨r, hr⟩ := haligned
  have hcover : ∀ x, x / 2 ^ (o + 4) = r →
      ∃ j q, Cells h.heapStart free j q ∧ x / 2 ^ j = q := by
    intro x hx
    have hlo : off ≤ x := by
      rw [hr, blockLen_eq, ← hx]
      exact Nat.mul_div_le x _
    have hhi : x < off + blockLen o := by
      rw [hr, blockLen_eq, ← hx, ← Nat.mul_succ]
      exact Nat.lt_mul_div_succ x (Nat.two_pow_pos _)
    -- The block around the point is on a list, because no other meets the range.
    obtain ⟨e, he, hpoint⟩ := hs.tiles.total (x := h.heapStart + x) (by omega) (by omega)
    obtain ⟨b, hb, rfl⟩ := List.mem_map.1 he
    have hfree : b ∉ rest := by
      intro hrest
      apply hclear b hrest (h.heapStart + x)
      refine ⟨?_, hpoint⟩
      simp only [Extent.Has]
      omega
    have hlist := (List.mem_append.1 hb).resolve_right hfree
    obtain ⟨p, hp, hfreeList⟩ := List.mem_flatMap.1 hlist
    obtain ⟨a, ha, rfl⟩ := List.mem_map.1 hfreeList
    obtain ⟨q, hq⟩ := hs.aligned _ hb
    have hbase := (hs.bounds hb).1
    simp only [Extent.Has, Block.extent] at hq hbase hpoint
    rw [blockLen_eq] at hq
    refine ⟨p + 4, q, ⟨p, List.mem_range.1 hp, rfl, a, ha, hq⟩, ?_⟩
    rw [blockLen_eq] at hpoint
    rw [Nat.div_eq_iff (Nat.two_pow_pos _), Nat.mul_comm q]
    omega
  have htop : o + 4 ≤ 22 := by
    rw [allocOrders] at ho
    omega
  obtain ⟨j, q, hle, ⟨p, hp, rfl, a, ha, haq⟩, hq⟩ := hc.cells.covered htop hcover
  obtain ⟨hlo, hhi⟩ := Dyadic.within hle hq
  have hbase := (hs.bounds (mem_blocks_free hp ha)).1
  simp only at hbase
  rw [← haq, ← blockLen_eq, ← hr] at hlo hhi
  rw [← blockLen_eq] at hhi
  exact ⟨p, hp, by omega, a, ha, by omega, by omega⟩

/-- Without live blocks all memory is one free block. -/
theorem Shape.free_all (hs : h.Shape free []) (hc : Coalesced h.heapStart free) :
    free (allocOrders - 1) = [h.heapStart] ∧ ∀ i < allocOrders - 1, free i = [] := by
  have hlen : blockLen (allocOrders - 1) = heapLen := rfl
  have hlast : allocOrders - 1 < allocOrders := by decide
  obtain ⟨p, hp, hle, a, ha, hlo, hhi⟩ := hs.free_around hc hlast (Nat.dvd_zero _)
    (by omega) (by simp)
  obtain rfl : p = allocOrders - 1 := by omega
  have hbase := (hs.bounds (mem_blocks_free hp ha)).1
  simp only at hbase
  obtain rfl : a = h.heapStart := by omega
  -- No other block fits beside it.
  have honly : ∀ i < allocOrders, ∀ b ∈ free i, b = h.heapStart ∧ i = allocOrders - 1 := by
    intro i hi b hb
    by_contra hne
    have hd := hs.free_free hp ha hi hb fun heq => hne (by
      obtain ⟨hbase, horder⟩ := Block.mk.inj heq
      exact ⟨hbase.symm, horder.symm⟩)
    have hbounds := hs.bounds (mem_blocks_free hi hb)
    have hpos := blockLen_ge i
    simp only at hbounds
    apply hd b
    simp only [Extent.Has, Block.extent]
    omega
  constructor
  · refine List.perm_singleton.1 ((List.perm_ext_iff_of_nodup (hs.nodup hp) (by simp)).2 fun b => ?_)
    rw [List.mem_singleton]
    refine ⟨fun hb => (honly _ hp b hb).1, ?_⟩
    rintro rfl
    exact ha
  · intro i hi
    rw [List.eq_nil_iff_forall_not_mem]
    intro b hb
    have hsame := (honly i (by omega) b hb).2
    omega

end KHeap

/-! ## Runs -/

namespace HeapUse

variable {s : HeapUse} {es : List HeapEvent} {free : Nat → List Nat} {size k off : Nat}

/-- An allocation that runs out of memory has found no list with a block. -/
theorem lists_empty (hk : orderForSize size = .ok k) (hpanic : s.step (.alloc size) =
    .error (.panic "HEAP_OUT_OF_MEMORY: kernel heap is out of memory, cannot allocate!")) :
    ∀ i, k ≤ i → i < allocOrders → s.heap.freeBlocks i = 0 := by
  intro i hlo hhi
  simp only [HeapUse.step, KHeap.kheapAlloc, hk, ok_bind] at hpanic
  cases hfind : (List.range' k (allocOrders - k)).find? fun i => s.heap.freeBlocks i != 0 with
  | none =>
    have hzero := List.find?_eq_none.1 hfind i (List.mem_range'_1.2 ⟨hlo, by omega⟩)
    simpa using hzero
  | some first =>
    rw [hfind] at hpanic
    cases hpanic

/-- When an allocation runs out of memory, every aligned range of the size it needs
overlaps a live block. -/
theorem Inv.no_room (hs : s.Inv free) (hc : KHeap.Coalesced s.heap.heapStart free)
    (hk : orderForSize size = .ok k) (ho : k < allocOrders) (hpanic : s.step (.alloc size) =
      .error (.panic "HEAP_OUT_OF_MEMORY: kernel heap is out of memory, cannot allocate!"))
    (haligned : blockLen k ∣ off) (hin : off + blockLen k ≤ heapLen) :
    ∃ a ∈ s.live,
      ¬ (⟨s.heap.heapStart + off, blockLen k⟩ : Extent).Disjoint (s.block a).extent := by
  by_contra hclear
  push Not at hclear
  obtain ⟨p, hp, hle, a, ha, -, -⟩ := hs.shape.free_around hc ho haligned hin (by
    intro b hb
    obtain ⟨a, ha, rfl⟩ := List.mem_map.1 hb
    exact hclear a ha)
  have hchain := hs.shape.chain p hp
  rw [lists_empty hk hpanic p hle hp] at hchain
  rw [hchain.nil_of_zero] at ha
  cases ha

theorem run_coalesced {kernelPhysEnd : Nat} {usableEntry : MmapEntry} {mem : Mem}
    (hroom : kernelPhysEnd + kernelVirtBaseAddr + heapLen ≤ 2 ^ 32)
    (hrun : Run (Guarded Allowed HeapUse.step) ⟨kheapInit kernelPhysEnd usableEntry mem, []⟩ es s) :
    ∃ free, s.Inv free ∧ KHeap.Coalesced s.heap.heapStart free := by
  refine hrun.invariant
    (I := fun s => ∃ free, s.Inv free ∧ KHeap.Coalesced s.heap.heapStart free) ?_ ?_
  · rintro t e u ⟨hC, hstep⟩ ⟨free, ht, hc⟩
    obtain ⟨free', hu, hstart, hcoalesced⟩ := ht.step hC hstep
    rw [← hstart] at hcoalesced hc
    exact ⟨free', hu, hcoalesced hc⟩
  · obtain ⟨hs, hstart⟩ := @Inv.init kernelPhysEnd usableEntry mem hroom
    refine ⟨_, hs, fun o ho a ha => ?_⟩
    -- At first only the last list has a block.
    have hchain := hs.shape.chain o (by omega)
    have hzero : (kheapInit kernelPhysEnd usableEntry mem).freeBlocks o = 0 := by
      simp only [kheapInit]
      rw [if_neg (by omega)]
    rw [hzero] at hchain
    rw [hchain.nil_of_zero] at ha
    cases ha

/-- After `kheap_init` and any allocations, frees of live pointers and writes to live
memory, no two buddies below the last order are both free. An allocation runs out of
memory only when every aligned range of the size it needs overlaps a live block, and
without live blocks the free lists are one block again. -/
theorem heap_coalesced {kernelPhysEnd : Nat} {usableEntry : MmapEntry} {mem : Mem}
    (hroom : kernelPhysEnd + kernelVirtBaseAddr + heapLen ≤ 2 ^ 32)
    (hrun : Run (Guarded Allowed HeapUse.step) ⟨kheapInit kernelPhysEnd usableEntry mem, []⟩ es s) :
    (∃ free, s.Partition free ∧ ∀ o < allocOrders - 1, ∀ a ∈ free o, ∀ b ∈ free o,
      b - s.heap.heapStart ≠ (a - s.heap.heapStart) ^^^ sizeForOrder o) ∧
      (∀ size k, orderForSize size = .ok k → k < allocOrders → s.step (.alloc size) =
        .error (.panic "HEAP_OUT_OF_MEMORY: kernel heap is out of memory, cannot allocate!") →
        ∀ off, blockLen k ∣ off → off + blockLen k ≤ heapLen → ∃ a ∈ s.live,
          ¬ (⟨s.heap.heapStart + off, blockLen k⟩ : Extent).Disjoint (s.block a).extent) ∧
      (s.live = [] → s.heap.freeBlocks (allocOrders - 1) = s.heap.heapStart ∧
        s.heap.next s.heap.heapStart = 0 ∧ ∀ i < allocOrders - 1, s.heap.freeBlocks i = 0) := by
  obtain ⟨free, hs, hc⟩ := run_coalesced hroom hrun
  refine ⟨⟨free, hs.partition, fun o ho a ha b hb => hc o (by omega) a ha b hb⟩,
    fun size k hk ho hpanic off => hs.no_room hc hk ho hpanic, fun hlive => ?_⟩
  have hshape := hs.shape
  rw [hlive] at hshape
  obtain ⟨hlast, hrest⟩ := hshape.free_all hc
  have hchain := hs.shape.chain (allocOrders - 1) (by decide)
  rw [hlast] at hchain
  obtain ⟨hhead, -, htail⟩ := hchain.head_cons
  refine ⟨hhead, ?_, fun i hi => ?_⟩
  · by_contra hne
    obtain ⟨l, hl⟩ := htail.ne_nil hne
    cases hl
  · have hchaini := hs.shape.chain i (by omega)
    rw [hrest i hi] at hchaini
    by_contra hne
    obtain ⟨l, hl⟩ := hchaini.ne_nil hne
    cases hl

/-- Three allocations, freed again in another order. -/
theorem heap_coalesced_freed :
    ∃ s, Run (Guarded Allowed HeapUse.step)
        ⟨kheapInit 0x33f30 ⟨0x100000, 0x7ee0000⟩ fun _ => 0xAA, []⟩
        [.alloc 20, .alloc 100, .alloc 5, .free 0xC0033fb1, .free 0xC0033f31, .free 0xC0033f51] s ∧
      s.heap.freeBlocks (allocOrders - 1) = s.heap.heapStart ∧
      ∀ i < allocOrders - 1, s.heap.freeBlocks i = 0 := by
  have hexec : (execAll Allowed HeapUse.step
      ⟨kheapInit 0x33f30 ⟨0x100000, 0x7ee0000⟩ fun _ => 0xAA, []⟩
      [.alloc 20, .alloc 100, .alloc 5, .free 0xC0033fb1, .free 0xC0033f31, .free 0xC0033f51]).any
        (fun s => s.live.isEmpty) = true := by
    decide
  obtain ⟨s, hrun, hp⟩ := exists_run_of_execAll hexec
  obtain ⟨hlast, -, hrest⟩ := (heap_coalesced (by decide) hrun).2.2 (List.isEmpty_iff.1 hp)
  exact ⟨s, hrun, hlast, hrest⟩

end HeapUse

end Kaku

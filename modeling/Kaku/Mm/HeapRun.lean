-- SUMMARY: Every run of allocations, frees and client writes keeps the heap partitioned.
import Kaku.Lib.Run
import Kaku.Mm.HeapInv

/-!
# Runs of the heap

The heap's clients hold the pointers they were given and write to the bytes they
asked for. Between calls the blocks on no free list are exactly theirs.
-/

namespace Kaku

/-- A pointer that was handed out and not freed, with the size asked for. -/
structure Allocation where
  ptr : Nat
  size : Nat
  deriving DecidableEq

/-- The heap together with its clients. -/
structure HeapUse where
  heap : KHeap
  live : List Allocation

inductive HeapEvent
  | alloc (size : Nat)
  | free (ptr : Nat)
  /-- A client stores a byte. -/
  | write (addr : Nat) (byte : UInt8)

namespace HeapUse

def step (s : HeapUse) : HeapEvent → K HeapUse
  | .alloc size => do
    let (heap, ptr) ← s.heap.kheapAlloc size
    pure { heap := heap, live := ⟨ptr, size⟩ :: s.live }
  | .free ptr => do
    let heap ← s.heap.kheapFree ptr
    pure { heap := heap, live := s.live.eraseP fun a => a.ptr = ptr }
  | .write addr byte =>
    pure { s with heap := { s.heap with mem := s.heap.mem.store addr 1 byte.toNat } }

/-- Sizes are 32-bit values, only live pointers are freed, and clients write to
their own allocations or outside the heap. -/
def Allowed (s : HeapUse) : HeapEvent → Prop
  | .alloc size => size < 2 ^ 32
  | .free ptr => ∃ a ∈ s.live, a.ptr = ptr
  | .write addr _ => (∃ a ∈ s.live, a.ptr ≤ addr ∧ addr < a.ptr + a.size) ∨
      addr < s.heap.heapStart ∨ s.heap.heapStart + heapLen ≤ addr

instance (s : HeapUse) (e : HeapEvent) : Decidable (Allowed s e) := by
  cases e <;> unfold Allowed <;> infer_instance

/-- The block of a live allocation, as its header byte gives it. -/
def block (s : HeapUse) (a : Allocation) : Block := ⟨a.ptr - 1, (s.heap.mem (a.ptr - 1)).toNat⟩

/-- The free lists, given by the nodes on them, and the blocks of the live
allocations partition the heap. -/
structure Partition (s : HeapUse) (free : Nat → List Nat) : Prop where
  lists : ∀ o < allocOrders, Chain s.heap.next (s.heap.freeBlocks o) (free o)
  nodup : ∀ o < allocOrders, (free o).Nodup
  disjoint : ((blocks free (s.live.map s.block)).map Block.extent).Pairwise Extent.Disjoint
  total : ∀ x, s.heap.heapStart ≤ x → x < s.heap.heapStart + heapLen →
    ∃ b ∈ blocks free (s.live.map s.block), b.extent.Has x
  inside : ∀ b ∈ blocks free (s.live.map s.block),
    s.heap.heapStart ≤ b.base ∧ b.base + blockLen b.order ≤ s.heap.heapStart + heapLen
  aligned : ∀ b ∈ blocks free (s.live.map s.block), blockLen b.order ∣ b.base - s.heap.heapStart
  fits : ∀ a ∈ s.live, (s.block a).base ≤ a.ptr ∧
    a.ptr + a.size ≤ (s.block a).base + blockLen (s.block a).order

/-- The invariant of every run. -/
structure Inv (s : HeapUse) (free : Nat → List Nat) : Prop where
  shape : s.heap.Shape free (s.live.map s.block)
  fits : ∀ a ∈ s.live, 0 < a.ptr ∧ a.size < blockLen (s.block a).order

variable {s s' : HeapUse} {e : HeapEvent} {es : List HeapEvent} {free : Nat → List Nat}

theorem Inv.partition (hs : s.Inv free) : s.Partition free where
  lists := hs.shape.chain
  nodup := fun _ ho => hs.shape.nodup ho
  disjoint := hs.shape.tiles.pairwise
  total := by
    intro x hlo hhi
    obtain ⟨e, he, hx⟩ := hs.shape.tiles.total hlo hhi
    obtain ⟨b, hb, rfl⟩ := List.mem_map.1 he
    exact ⟨b, hb, hx⟩
  inside := fun _ hb => hs.shape.bounds hb
  aligned := hs.shape.aligned
  fits := by
    intro a ha
    obtain ⟨hpos, hsize⟩ := hs.fits a ha
    simp only [block] at hsize ⊢
    omega

/-- The blocks of allocations whose memory is kept are the same afterwards. -/
theorem map_block_eq {t : HeapUse} {live : List Allocation}
    (hkeeps : KHeap.Keeps s.heap.mem t.heap.mem (live.map s.block)) :
    live.map t.block = live.map s.block := by
  apply List.map_congr_left
  intro a ha
  have hsame := hkeeps (s.block a) (List.mem_map.2 ⟨a, ha, rfl⟩) (a.ptr - 1) (by
    have hlen := blockLen_ge (s.block a).order
    simp only [Extent.Has, Block.extent, block] at hlen ⊢
    omega)
  rw [block, block, hsame]

/-- An allocation takes the block that the lists give. -/
theorem Inv.alloc {size : Nat} (hs : s.Inv free) (hsize : size < 2 ^ 32)
    (h : s.step (.alloc size) = .ok s') :
    ∃ free' ptr o, s'.Inv free' ∧ s'.live = ⟨ptr, size⟩ :: s.live ∧
      s'.live.map s'.block = ⟨ptr - 1, o⟩ :: s.live.map s.block ∧
      (size < blockLen o ∧ ∀ j < o, blockLen j ≤ size) ∧
      Buddy.takeBlock blockLen allocOrders free o = some (free', ptr - 1) ∧
      s'.heap.heapStart = s.heap.heapStart ∧
      KHeap.Keeps s.heap.mem s'.heap.mem (s.live.map s.block) ∧
      (KHeap.Coalesced s.heap.heapStart free → KHeap.Coalesced s.heap.heapStart free') := by
  simp only [step, bind_eq_ok, pure_eq_ok] at h
  obtain ⟨⟨heap, ptr⟩, halloc, rfl⟩ := h
  obtain ⟨free', o, hshape, hheader, hpos, hfits, htake, hstart, hkeeps, hcoalesced⟩ :=
    KHeap.kheapAlloc_spec hs.shape hsize halloc
  have hsame := map_block_eq (t := ⟨heap, ⟨ptr, size⟩ :: s.live⟩) hkeeps
  have hnew : (⟨heap, ⟨ptr, size⟩ :: s.live⟩ : HeapUse).block ⟨ptr, size⟩ = ⟨ptr - 1, o⟩ := by
    rw [block, hheader]
  have hblocks : (⟨ptr, size⟩ :: s.live).map (⟨heap, ⟨ptr, size⟩ :: s.live⟩ : HeapUse).block =
      ⟨ptr - 1, o⟩ :: s.live.map s.block := by
    rw [List.map_cons, hnew, hsame]
  refine ⟨free', ptr, o, ⟨?_, fun a ha => ?_⟩, rfl, hblocks, hfits, htake, hstart, hkeeps,
    hcoalesced⟩
  · rw [hblocks]
    exact hshape
  · rcases List.mem_cons.1 ha with rfl | ha
    · rw [hnew]
      exact ⟨hpos, hfits.1⟩
    · have hblock := List.map_inj_left.1 hsame a ha
      rw [hblock]
      exact hs.fits a ha

/-- Freeing a live pointer always returns, and puts its block back into the lists. -/
theorem Inv.release {ptr : Nat} (hs : s.Inv free) (hlive : ∃ a ∈ s.live, a.ptr = ptr) :
    ∃ s' d l₁ l₂, s.live = l₁ ++ d :: l₂ ∧ d.ptr = ptr ∧ (∀ c ∈ l₁, c.ptr ≠ ptr) ∧
      s'.live = l₁ ++ l₂ ∧ s.step (.free ptr) = .ok s' ∧
      s'.Inv (Buddy.putBlock blockLen allocOrders s.heap.heapStart free (s.block d).order
        (s.block d).base) ∧
      s'.live.map s'.block = (l₁ ++ l₂).map s.block ∧
      s'.heap.heapStart = s.heap.heapStart ∧
      KHeap.Keeps s.heap.mem s'.heap.mem ((l₁ ++ l₂).map s.block) ∧
      (KHeap.Coalesced s.heap.heapStart free → KHeap.Coalesced s.heap.heapStart
        (Buddy.putBlock blockLen allocOrders s.heap.heapStart free (s.block d).order
          (s.block d).base)) := by
  obtain ⟨a, ha, hptr⟩ := hlive
  obtain ⟨d, l₁, l₂, hbefore, hd, hsplit, herase⟩ :=
    List.exists_of_eraseP ha (p := fun a => decide (a.ptr = ptr)) (decide_eq_true hptr)
  obtain rfl : d.ptr = ptr := of_decide_eq_true hd
  have hperm : (s.live.map s.block).Perm (s.block d :: (l₁ ++ l₂).map s.block) := by
    rw [hsplit, ← List.map_cons]
    exact List.perm_middle.map _
  obtain ⟨heap, hrun, hshape, hstart, hkeeps, hcoalesced⟩ :=
    KHeap.kheapFree_spec (hs.shape.perm hperm)
  have hsame := map_block_eq (t := ⟨heap, l₁ ++ l₂⟩) hkeeps
  refine ⟨⟨heap, l₁ ++ l₂⟩, d, l₁, l₂, hsplit, rfl, fun c hc => ?_, rfl, ?_,
    ⟨?_, fun b hb => ?_⟩, hsame, hstart, hkeeps, hcoalesced⟩
  · simpa using hbefore c hc
  · simp only [step, hrun, ok_bind, herase]
    rfl
  · rw [hsame]
    exact hshape
  · rw [List.map_inj_left.1 hsame b hb]
    apply hs.fits
    rw [hsplit]
    simp only [List.mem_append, List.mem_cons] at hb ⊢
    tauto

/-- The bytes that are the clients': those of live allocations and those outside the heap. -/
def Client (s : HeapUse) (x : Nat) : Prop :=
  (∃ a ∈ s.live, a.ptr ≤ x ∧ x < a.ptr + a.size) ∨
    x < s.heap.heapStart ∨ s.heap.heapStart + heapLen ≤ x

/-- What is changed in the clients' bytes changes neither a header nor a free list. -/
theorem Inv.setMem {m : Mem} (hs : s.Inv free) (hm : ∀ x, ¬ s.Client x → m x = s.heap.mem x) :
    Inv { s with heap := { s.heap with mem := m } } free ∧
      s.live.map (block { s with heap := { s.heap with mem := m } }) = s.live.map s.block := by
  have hfree : ∀ o < allocOrders, ∀ a ∈ free o, ∀ x, a ≤ x → x < a + 4 → ¬ s.Client x := by
    rintro o ho a ha x hlo hhi hC
    have hlen := blockLen_ge o
    rcases hC with ⟨c, hc, hclo, hchi⟩ | hout
    · have hd := hs.shape.free_rest ho ha (List.mem_map_of_mem (f := s.block) hc)
      obtain ⟨hcpos, hcsize⟩ := hs.fits c hc
      apply hd x
      simp only [Extent.Has, Block.extent, block] at hcsize ⊢
      omega
    · obtain ⟨hlo', hhi'⟩ := hs.shape.bounds (mem_blocks_free ho ha)
      simp only at hlo' hhi'
      omega
  have hheader : ∀ d ∈ s.live, ¬ s.Client (d.ptr - 1) := by
    rintro d hd hC
    have hdlen := blockLen_ge (s.block d).order
    rcases hC with ⟨c, hc, hclo, hchi⟩ | hout
    · obtain ⟨hcpos, hcsize⟩ := hs.fits c hc
      obtain ⟨hdpos, -⟩ := hs.fits d hd
      have hne : s.block c ≠ s.block d := by
        intro hsame
        have hbase := congrArg Block.base hsame
        simp only [block] at hbase
        omega
      have hsymm : Std.Symm fun b c : Block => b.extent.Disjoint c.extent :=
        ⟨fun _ _ hbc => hbc.symm⟩
      have happart := (List.pairwise_append.1 hs.shape.pairwise).2.1.forall
        (List.mem_map_of_mem (f := s.block) hc) (List.mem_map_of_mem (f := s.block) hd) hne
      apply happart (d.ptr - 1)
      simp only [Extent.Has, Block.extent, block] at hcsize hdlen ⊢
      omega
    · obtain ⟨hlo', hhi'⟩ :=
        hs.shape.bounds (mem_blocks_rest (List.mem_map_of_mem (f := s.block) hd))
      simp only [block] at hlo' hhi' hdlen
      omega
  have hblock : ∀ d ∈ s.live,
      block { s with heap := { s.heap with mem := m } } d = s.block d := by
    intro d hd
    simp only [block, hm _ (hheader d hd)]
  refine ⟨⟨?_, fun d hd => ?_⟩, List.map_congr_left hblock⟩
  · rw [List.map_congr_left hblock]
    exact hs.shape.frame fun o ho a ha x hlo hhi => hm x (hfree o ho a ha x hlo hhi)
  · rw [hblock d hd]
    exact hs.fits d hd

/-- A client's store changes neither a header nor a free list. -/
theorem Inv.write {addr : Nat} {byte : UInt8} (hs : s.Inv free) (hC : Allowed s (.write addr byte))
    (h : s.step (.write addr byte) = .ok s') :
    s'.Inv free ∧ s'.live.map s'.block = s.live.map s.block ∧
      s'.heap.heapStart = s.heap.heapStart := by
  simp only [step, pure_eq_ok] at h
  subst h
  obtain ⟨hinv, hblocks⟩ := hs.setMem (m := s.heap.mem.store addr 1 byte.toNat) fun x hx =>
    Mem.store_of_not_mem (by
      by_contra hat
      obtain rfl : x = addr := by omega
      exact hx hC)
  exact ⟨hinv, hblocks, rfl⟩

theorem Inv.step (hs : s.Inv free) (hC : Allowed s e) (h : s.step e = .ok s') :
    ∃ free', s'.Inv free' ∧ s'.heap.heapStart = s.heap.heapStart ∧
      (KHeap.Coalesced s.heap.heapStart free → KHeap.Coalesced s.heap.heapStart free') := by
  cases e with
  | alloc size =>
    obtain ⟨free', _, _, hinv, -, -, -, -, hstart, -, hcoalesced⟩ := hs.alloc hC h
    exact ⟨free', hinv, hstart, hcoalesced⟩
  | free ptr =>
    obtain ⟨s'', _, _, _, -, -, -, -, hrun, hinv, -, hstart, -, hcoalesced⟩ := hs.release hC
    rw [h, Except.ok.injEq] at hrun
    subst hrun
    exact ⟨_, hinv, hstart, hcoalesced⟩
  | write addr byte =>
    obtain ⟨hinv, -, hstart⟩ := hs.write hC h
    exact ⟨free, hinv, hstart, id⟩

/-- Only exhaustion stops an allocation of less than 2 GiB. -/
theorem alloc_returns {size : Nat} (hsize : size < 2 ^ 31) :
    (∃ s', s.step (.alloc size) = .ok s') ∨ s.step (.alloc size) =
      .error (.panic "HEAP_OUT_OF_MEMORY: kernel heap is out of memory, cannot allocate!") := by
  obtain ⟨o, ho, -⟩ := (KHeap.orderForSize_spec (by omega)).1 hsize
  simp only [HeapUse.step, KHeap.kheapAlloc, ho, ok_bind]
  cases (List.range' o (allocOrders - o)).find? fun i => s.heap.freeBlocks i != 0 with
  | none => exact .inr rfl
  | some first => exact .inl ⟨_, rfl⟩

/-- Right after `kheap_init` the heap is one free block. -/
theorem Inv.init {kernelPhysEnd : Nat} {usableEntry : MmapEntry} {mem : Mem}
    (hroom : kernelPhysEnd + kernelVirtBaseAddr + heapLen ≤ 2 ^ 32) :
    (⟨kheapInit kernelPhysEnd usableEntry mem, []⟩ : HeapUse).Inv
        (fun o => if o = allocOrders - 1 then [kernelPhysEnd + kernelVirtBaseAddr] else []) ∧
      (kheapInit kernelPhysEnd usableEntry mem).heapStart = kernelPhysEnd + kernelVirtBaseAddr := by
  have hstart : addr32 (kernelPhysEnd + kernelVirtBaseAddr) = kernelPhysEnd + kernelVirtBaseAddr := by
    rw [addr32]
    apply Nat.mod_eq_of_lt
    have hpos : 0 < heapLen := by decide
    omega
  have hbase : 0 < kernelPhysEnd + kernelVirtBaseAddr := Nat.add_pos_right _ (by decide)
  obtain ⟨base, hb⟩ : ∃ base, base = kernelPhysEnd + kernelVirtBaseAddr := ⟨_, rfl⟩
  rw [← hb] at hroom hstart hbase
  rw [← hb]
  have hblocks : blocks (fun o => if o = allocOrders - 1 then [base] else []) [] =
      [⟨base, 18⟩] := rfl
  refine ⟨⟨⟨?_, ?_, ?_, ?_, ?_⟩, by simp⟩, ?_⟩
  · simp only [kheapInit, ← hb, hstart]
    exact ⟨hbase, hroom⟩
  · intro o ho
    by_cases hlast : o = 18
    · simp only [kheapInit, ← hb, hstart, hlast, allocOrders, if_true]
      refine .cons (by omega) ?_
      have hnull : (mem.store base 4 0).load base 4 = 0 := by
        rw [Mem.load_store_self, Nat.zero_mod]
      simp only [KHeap.next, hnull]
      exact .nil
    · change Chain _ (if o = 18 then _ else 0) (if o = 18 then [base] else [])
      rw [if_neg hlast, if_neg hlast]
      exact .nil
  · simp only [List.map_nil, hblocks, List.mem_singleton]
    rintro b rfl
    change 18 < allocOrders
    decide
  · simp only [List.map_nil, hblocks, List.mem_singleton]
    rintro b rfl
    simp [kheapInit, ← hb, hstart]
  · simp only [List.map_nil, hblocks, List.map_cons, Block.extent, kheapInit, ← hb, hstart]
    have hsingle := Tiles.single (Nat.le_add_right base heapLen)
    rw [Nat.add_sub_cancel_left] at hsingle
    exact hsingle
  · simp only [kheapInit, ← hb, hstart]

theorem run_inv {kernelPhysEnd : Nat} {usableEntry : MmapEntry} {mem : Mem}
    (hroom : kernelPhysEnd + kernelVirtBaseAddr + heapLen ≤ 2 ^ 32)
    (hrun : Run (Guarded Allowed HeapUse.step) ⟨kheapInit kernelPhysEnd usableEntry mem, []⟩ es s) :
    ∃ free, s.Inv free ∧ s.heap.heapStart = kernelPhysEnd + kernelVirtBaseAddr := by
  refine hrun.invariant
    (I := fun s => ∃ free, s.Inv free ∧ s.heap.heapStart = kernelPhysEnd + kernelVirtBaseAddr)
    ?_ ⟨_, Inv.init hroom⟩
  rintro t e u ⟨hC, hstep⟩ ⟨free, ht, hstart⟩
  obtain ⟨free', hu, hsame, -⟩ := ht.step hC hstep
  exact ⟨free', hu, hsame.trans hstart⟩

/-- After `kheap_init` and any allocations, frees of live pointers and writes to
live memory, the free lists and the live blocks partition the heap, a live pointer
can be freed, and an allocation returns unless no block is large enough. -/
theorem heap_partitioned {kernelPhysEnd : Nat} {usableEntry : MmapEntry} {mem : Mem}
    (hroom : kernelPhysEnd + kernelVirtBaseAddr + heapLen ≤ 2 ^ 32)
    (hrun : Run (Guarded Allowed HeapUse.step) ⟨kheapInit kernelPhysEnd usableEntry mem, []⟩ es s) :
    s.heap.heapStart = kernelPhysEnd + kernelVirtBaseAddr ∧ (∃ free, s.Partition free) ∧
      (∀ a ∈ s.live, ∃ s', s.step (.free a.ptr) = .ok s') ∧
      ∀ size < 2 ^ 31, (∃ s', s.step (.alloc size) = .ok s') ∨ s.step (.alloc size) =
        .error (.panic "HEAP_OUT_OF_MEMORY: kernel heap is out of memory, cannot allocate!") := by
  obtain ⟨free, hs, hstart⟩ := run_inv hroom hrun
  refine ⟨hstart, ⟨free, hs.partition⟩, fun a ha => ?_, fun size hsize => alloc_returns hsize⟩
  obtain ⟨s', _, _, _, -, -, -, -, hfree, -⟩ := hs.release ⟨a, ha, rfl⟩
  exact ⟨s', hfree⟩

/-- Two allocations, of which the first is freed again. -/
theorem heap_partitioned_freed :
    ∃ s, Run (Guarded Allowed HeapUse.step)
        ⟨kheapInit 0x33f30 ⟨0x100000, 0x7ee0000⟩ fun _ => 0xAA, []⟩
        [.alloc 20, .alloc 100, .write 0xC0033f40 7, .free 0xC0033f31] s ∧
      s.live = [⟨0xC0033fb1, 100⟩] ∧ ∃ free, s.Partition free := by
  have hexec : (execAll Allowed HeapUse.step
      ⟨kheapInit 0x33f30 ⟨0x100000, 0x7ee0000⟩ fun _ => 0xAA, []⟩
      [.alloc 20, .alloc 100, .write 0xC0033f40 7, .free 0xC0033f31]).any
        (fun s => decide (s.live = [⟨0xC0033fb1, 100⟩])) = true := by
    decide
  obtain ⟨s, hrun, hp⟩ := exists_run_of_execAll hexec
  exact ⟨s, hrun, of_decide_eq_true hp, (heap_partitioned (by decide) hrun).2.1⟩

end HeapUse

end Kaku

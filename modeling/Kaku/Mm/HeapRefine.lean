-- SUMMARY: The heap implements the buddy allocator on lists, and which requests it answers.
import Kaku.Mm.HeapRun

/-!
# The heap and the buddy allocator

`Buddy` keeps its lists and its handed-out blocks apart from the memory they
describe. The heap keeps both inside that memory: the lists are threaded through
the free blocks, the order of a live block is the byte in front of its data.
-/

namespace Kaku

/-- `kheap_init`: all memory is one block. -/
def Buddy.init (start : Nat) : Buddy where
  start := start
  free := fun o => if o = allocOrders - 1 then [start] else []
  live := []

/-- A client's writes are nothing to the allocator, and the pointer it hands out is
one past the start of the block. -/
def Buddy.step (b : Buddy) : HeapEvent → Option Buddy
  | .alloc size => b.alloc blockLen allocOrders size
  | .free ptr => b.release blockLen allocOrders (ptr - 1)
  | .write _ _ => some b

namespace HeapUse

/-- Following the pointers from the heads gives the allocator's lists, and the
header bytes of the live allocations give the orders it chose for them. -/
structure Implements (s : HeapUse) (b : Buddy) : Prop where
  start : s.heap.heapStart = b.start
  lists : ∀ o < allocOrders, Chain s.heap.next (s.heap.freeBlocks o) (b.free o)
  live : s.live.map s.block = b.live

variable {s s' : HeapUse} {b : Buddy} {e : HeapEvent} {es : List HeapEvent}
variable {free : Nat → List Nat}

theorem Inv.implements (hs : s.Inv free) (hstart : s.heap.heapStart = b.start)
    (hfree : b.free = free) (hlive : s.live.map s.block = b.live) : s.Implements b where
  start := hstart
  lists := hfree ▸ hs.shape.chain
  live := hlive

/-- What is kept of the blocks of live allocations is kept of their bytes. -/
theorem Inv.data_kept {live : List Allocation} {m : Mem} (hs : s.Inv free) (hsub : live ⊆ s.live)
    (hkeeps : KHeap.Keeps s.heap.mem m (live.map s.block)) :
    ∀ a ∈ live, ∀ x, a.ptr ≤ x → x < a.ptr + a.size → m x = s.heap.mem x := by
  intro a ha x hlo hhi
  obtain ⟨hpos, hsize⟩ := hs.fits a (hsub ha)
  refine hkeeps _ (List.mem_map_of_mem ha) x ?_
  simp only [Extent.Has, Block.extent, block] at hsize ⊢
  omega

/-! ## Steps -/

theorem Implements.alloc {size : Nat} (hb : s.Implements b) (hs : s.Inv b.free)
    (hsize : size < 2 ^ 32) (h : s.step (.alloc size) = .ok s') :
    ∃ b', b.step (.alloc size) = some b' ∧ s'.Inv b'.free ∧ s'.Implements b' ∧
      ∀ a ∈ s.live, ∀ x, a.ptr ≤ x → x < a.ptr + a.size → s'.heap.mem x = s.heap.mem x := by
  obtain ⟨free', ptr, o, hinv, -, hblocks, hfits, htake, hstart, hkeeps, -⟩ := hs.alloc hsize h
  have ho : o < allocOrders := by
    apply hinv.shape.order ⟨ptr - 1, o⟩
    rw [hblocks]
    exact mem_blocks_rest List.mem_cons_self
  have horder : Buddy.orderFor blockLen allocOrders size = some o :=
    Buddy.orderFor_eq_some.2 ⟨ho, hfits⟩
  refine ⟨{ b with free := free', live := ⟨ptr - 1, o⟩ :: b.live }, ?_, hinv,
    hinv.implements (hstart.trans hb.start) rfl (hb.live ▸ hblocks),
    hs.data_kept (List.Subset.refl _) hkeeps⟩
  simp only [Buddy.step, Buddy.alloc, horder, htake, Option.bind_eq_bind, Option.bind_some]

theorem Implements.release {ptr : Nat} (hb : s.Implements b) (hs : s.Inv b.free)
    (hlive : ∃ a ∈ s.live, a.ptr = ptr) (h : s.step (.free ptr) = .ok s') :
    ∃ b', b.step (.free ptr) = some b' ∧ s'.Inv b'.free ∧ s'.Implements b' ∧
      ∀ a ∈ s.live, a.ptr ≠ ptr → ∀ x, a.ptr ≤ x → x < a.ptr + a.size →
        s'.heap.mem x = s.heap.mem x := by
  obtain ⟨t, d, l₁, l₂, hsplit, rfl, hbefore, -, hrun, hinv, hblocks, hstart, hkeeps, -⟩ :=
    hs.release hlive
  rw [h, Except.ok.injEq] at hrun
  subst hrun
  have hother : ∀ c ∈ l₁.map s.block, ¬ decide (c.base = d.ptr - 1) = true := by
    intro c hc heq
    obtain ⟨a, ha, rfl⟩ := List.mem_map.1 hc
    have hapos := (hs.fits a (by simp [hsplit, ha])).1
    have hdpos := (hs.fits d (by simp [hsplit])).1
    have hsame := of_decide_eq_true heq
    simp only [block] at hsame
    exact hbefore a ha (by omega)
  have hlist : b.live = l₁.map s.block ++ s.block d :: l₂.map s.block := by
    rw [← hb.live, hsplit, List.map_append, List.map_cons]
  have hself : decide ((s.block d).base = d.ptr - 1) = true := decide_eq_true rfl
  have hfind : (b.live.find? fun c => decide (c.base = d.ptr - 1)) = some (s.block d) := by
    rw [hlist, List.find?_append, List.find?_eq_none.2 hother,
      List.find?_cons_of_pos (p := fun c : Block => decide (c.base = d.ptr - 1)) hself]
    rfl
  have herase : (b.live.eraseP fun c => decide (c.base = d.ptr - 1)) = (l₁ ++ l₂).map s.block := by
    rw [hlist, List.eraseP_append_right _ hother,
      List.eraseP_cons_of_pos (p := fun c : Block => decide (c.base = d.ptr - 1)) hself, List.map_append]
  refine ⟨{ b with
    free := Buddy.putBlock blockLen allocOrders b.start b.free (s.block d).order (s.block d).base
    live := (l₁ ++ l₂).map s.block }, ?_, hb.start ▸ hinv,
    hinv.implements (hstart.trans hb.start) (by rw [hb.start]) hblocks, fun a ha hne => ?_⟩
  · simp only [Buddy.step, Buddy.release, hfind, herase, Option.bind_eq_bind, Option.bind_some]
  · have hkept : l₁ ++ l₂ ⊆ s.live := by
      intro c hc
      rw [hsplit]
      simp only [List.mem_append, List.mem_cons] at hc ⊢
      tauto
    have ha' : a ∈ l₁ ++ l₂ := by
      rw [hsplit] at ha
      simp only [List.mem_append, List.mem_cons] at ha ⊢
      rcases ha with ha | rfl | ha
      · exact .inl ha
      · exact absurd rfl hne
      · exact .inr ha
    exact hs.data_kept hkept hkeeps a ha'

theorem Implements.write {addr : Nat} {byte : UInt8} (hb : s.Implements b) (hs : s.Inv b.free)
    (hC : Allowed s (.write addr byte)) (h : s.step (.write addr byte) = .ok s') :
    s'.Inv b.free ∧ s'.Implements b := by
  obtain ⟨hinv, hblocks, hstart⟩ := hs.write hC h
  exact ⟨hinv, hinv.implements (hstart.trans hb.start) rfl (hblocks.trans hb.live)⟩

theorem Implements.step (hb : s.Implements b) (hs : s.Inv b.free) (hC : Allowed s e)
    (h : s.step e = .ok s') : ∃ b', b.step e = some b' ∧ s'.Inv b'.free ∧ s'.Implements b' := by
  cases e with
  | alloc size =>
    obtain ⟨b', hstep, hinv, hb', -⟩ := hb.alloc hs hC h
    exact ⟨b', hstep, hinv, hb'⟩
  | free ptr =>
    obtain ⟨b', hstep, hinv, hb', -⟩ := hb.release hs hC h
    exact ⟨b', hstep, hinv, hb'⟩
  | write addr byte => exact ⟨b, rfl, hb.write hs hC h⟩

/-! ## Runs -/

theorem run_implements {kernelPhysEnd : Nat} {usableEntry : MmapEntry} {mem : Mem}
    (hroom : kernelPhysEnd + kernelVirtBaseAddr + heapLen ≤ 2 ^ 32)
    (hrun : Run (Guarded Allowed HeapUse.step) ⟨kheapInit kernelPhysEnd usableEntry mem, []⟩ es s) :
    ∃ b, Run (fun b e b' => Buddy.step b e = some b')
        (Buddy.init (kernelPhysEnd + kernelVirtBaseAddr)) es b ∧ s.Inv b.free ∧ s.Implements b := by
  induction hrun with
  | refl =>
    obtain ⟨hinv, hstart⟩ := @Inv.init kernelPhysEnd usableEntry mem hroom
    exact ⟨_, .refl _, hinv, hinv.implements hstart rfl rfl⟩
  | snoc _ hstep ih =>
    obtain ⟨b, hbrun, hinv, hb⟩ := ih
    obtain ⟨b', hbstep, hinv', hb'⟩ := hb.step hinv hstep.1 hstep.2
    exact ⟨b', .snoc hbrun hbstep, hinv', hb'⟩

/-- After any run, following the stored pointers from the 19 heads gives the lists of
the buddy allocator after the same requests, each header byte is the order it chose, and
neither call changes a byte of an allocation that stays live. -/
theorem heap_implements_buddy {kernelPhysEnd : Nat} {usableEntry : MmapEntry} {mem : Mem}
    (hroom : kernelPhysEnd + kernelVirtBaseAddr + heapLen ≤ 2 ^ 32)
    (hrun : Run (Guarded Allowed HeapUse.step) ⟨kheapInit kernelPhysEnd usableEntry mem, []⟩ es s) :
    (∃ b, Run (fun b e b' => Buddy.step b e = some b')
        (Buddy.init (kernelPhysEnd + kernelVirtBaseAddr)) es b ∧ s.Implements b) ∧
      (∀ size s', size < 2 ^ 32 → s.step (.alloc size) = .ok s' →
        ∀ a ∈ s.live, ∀ x, a.ptr ≤ x → x < a.ptr + a.size → s'.heap.mem x = s.heap.mem x) ∧
      ∀ c ∈ s.live, ∀ s', s.step (.free c.ptr) = .ok s' → ∀ a ∈ s.live, a.ptr ≠ c.ptr →
        ∀ x, a.ptr ≤ x → x < a.ptr + a.size → s'.heap.mem x = s.heap.mem x := by
  obtain ⟨b, hbrun, hinv, hb⟩ := run_implements hroom hrun
  refine ⟨⟨b, hbrun, hb⟩, fun size s' hsize hstep => ?_, fun c hc s' hstep => ?_⟩
  · obtain ⟨b', -, -, -, hkept⟩ := hb.alloc hinv hsize hstep
    exact hkept
  · obtain ⟨b', -, -, -, hkept⟩ := hb.release hinv ⟨c, hc, rfl⟩ hstep
    exact hkept

/-- Two allocations, a write to the second and a free of the first. -/
theorem heap_implements_buddy_freed :
    ∃ s, Run (Guarded Allowed HeapUse.step)
        ⟨kheapInit 0x33f30 ⟨0x100000, 0x7ee0000⟩ fun _ => 0xAA, []⟩
        [.alloc 20, .alloc 100, .write 0xC0033fb1 7, .free 0xC0033f31] s ∧
      s.live = [⟨0xC0033fb1, 100⟩] ∧
      ∃ b, Run (fun b e b' => Buddy.step b e = some b') (Buddy.init 0xC0033f30)
        [.alloc 20, .alloc 100, .write 0xC0033fb1 7, .free 0xC0033f31] b ∧ s.Implements b := by
  have hexec : (execAll Allowed HeapUse.step
      ⟨kheapInit 0x33f30 ⟨0x100000, 0x7ee0000⟩ fun _ => 0xAA, []⟩
      [.alloc 20, .alloc 100, .write 0xC0033fb1 7, .free 0xC0033f31]).any
        (fun s => decide (s.live = [⟨0xC0033fb1, 100⟩])) = true := by
    decide
  obtain ⟨s, hrun, hp⟩ := exists_run_of_execAll hexec
  exact ⟨s, hrun, of_decide_eq_true hp, (heap_implements_buddy (by decide) hrun).1⟩

/-! ## Requests -/

/-- The request got a block of the least order with room for it, or the panic. -/
def Answered (s : HeapUse) (size : Nat) : Prop :=
  (∃ s' ptr k, s.step (.alloc size) = .ok s' ∧ s'.live = ⟨ptr, size⟩ :: s.live ∧
    s'.block ⟨ptr, size⟩ = ⟨ptr - 1, k⟩ ∧ size < blockLen k ∧ (∀ j < k, blockLen j ≤ size) ∧
    ∃ free, s'.Partition free) ∨
  s.step (.alloc size) =
    .error (.panic "HEAP_OUT_OF_MEMORY: kernel heap is out of memory, cannot allocate!")

/-- A request of any reachable heap is answered exactly when it is for less than 2 GiB.
From there on the loop for the order does not end. -/
theorem heap_answers {kernelPhysEnd : Nat} {usableEntry : MmapEntry} {mem : Mem}
    (hroom : kernelPhysEnd + kernelVirtBaseAddr + heapLen ≤ 2 ^ 32)
    (hrun : Run (Guarded Allowed HeapUse.step) ⟨kheapInit kernelPhysEnd usableEntry mem, []⟩ es s) :
    ∀ size < 2 ^ 32, (s.Answered size ↔ size < 2 ^ 31) ∧
      ((∃ k, orderForSize size = .ok k) ↔ size < 2 ^ 31) := by
  intro size hsize
  obtain ⟨hreturns, hhangs⟩ := KHeap.orderForSize_spec hsize
  rcases Nat.lt_or_ge size (2 ^ 31) with hsmall | hhuge
  · simp only [hsmall, iff_true]
    refine ⟨?_, (hreturns hsmall).imp fun k hk => hk.1⟩
    rcases alloc_returns (s := s) hsmall with ⟨s', hstep⟩ | hpanic
    · left
      obtain ⟨free, hs, -⟩ := run_inv hroom hrun
      obtain ⟨free', ptr, k, hinv, hlive, hblocks, ⟨hfits, hleast⟩, -⟩ := hs.alloc hsize hstep
      rw [hlive, List.map_cons, List.cons.injEq] at hblocks
      exact ⟨s', ptr, k, hstep, hlive, hblocks.1, hfits, hleast, free', hinv.partition⟩
    · exact .inr hpanic
  · have hlarge : ¬ size < 2 ^ 31 := by omega
    have hstep : s.step (.alloc size) = .error .hang := by
      simp only [HeapUse.step, KHeap.kheapAlloc, hhangs hhuge]
      rfl
    simp only [hlarge, iff_false, Answered, hstep, hhangs hhuge]
    simp

/-- A first allocation, and a request after it. -/
theorem heap_answers_first :
    ∃ s, Run (Guarded Allowed HeapUse.step)
        ⟨kheapInit 0x33f30 ⟨0x100000, 0x7ee0000⟩ fun _ => 0xAA, []⟩ [.alloc 20] s ∧
      s.Answered 100 ∧ ¬ s.Answered 0x80000000 := by
  have hexec : (execAll Allowed HeapUse.step
      ⟨kheapInit 0x33f30 ⟨0x100000, 0x7ee0000⟩ fun _ => 0xAA, []⟩ [.alloc 20]).any
        (fun _ => true) = true := by
    decide
  obtain ⟨s, hrun, -⟩ := exists_run_of_execAll hexec
  have hanswers := heap_answers (by decide) hrun
  refine ⟨s, hrun, ((hanswers 100 (by decide)).1).2 (by decide), fun hanswered => ?_⟩
  exact absurd (((hanswers 0x80000000 (by decide)).1).1 hanswered) (by decide)

/-- A request for 2 GiB right after `kheap_init` is not answered. -/
theorem heap_hangs : ¬ HeapUse.Answered
    ⟨kheapInit 0x33f30 ⟨0x100000, 0x7ee0000⟩ fun _ => 0xAA, []⟩ 0x80000000 ∧
    orderForSize 0x80000000 = .error .hang := by
  have hhangs : orderForSize 0x80000000 = .error .hang :=
    (KHeap.orderForSize_spec (by decide)).2 (Nat.le_refl _)
  refine ⟨?_, hhangs⟩
  simp [Answered, HeapUse.step, KHeap.kheapAlloc, hhangs]

end HeapUse

end Kaku

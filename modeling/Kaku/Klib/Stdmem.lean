-- SUMMARY: `kmalloc`, `kfree`, `krealloc` and `kmemcpy` over the heap, with every access inside of an allocation.
import Kaku.Lib.Outcome
import Kaku.Mm.HeapRun

/-!
# Memory from the heap

`lib/src/stdmem.h`. A pointer is the address of an allocation and an offset, and an access has to
be inside of that allocation, whatever is behind it. `Owns` says what is in an allocation; an
operation changes what is in one of them, and keeps what is in the others.
-/

namespace Kaku

namespace HeapUse

/-! ## Accesses -/

/-- The bytes are in the live allocation at `p`. -/
def Within (s : HeapUse) (p off n : Nat) : Prop := ∃ a ∈ s.live, a.ptr = p ∧ off + n ≤ a.size

instance {s : HeapUse} {p off n : Nat} : Decidable (s.Within p off n) := by
  unfold Within
  infer_instance

def setMem (s : HeapUse) (m : Mem) : HeapUse := { s with heap := { s.heap with mem := m } }

def load (p off n : Nat) (s : HeapUse) : K Nat :=
  if s.Within p off n then .ok (s.heap.mem.load (p + off) n) else .error .wild

def store (p off n v : Nat) (s : HeapUse) : K HeapUse :=
  if s.Within p off n then .ok (s.setMem (s.heap.mem.store (p + off) n v)) else .error .wild

/-! ## `stdmem.h` -/

/-- `kmalloc`, if the client uses `least` bytes of the block even where it asks for fewer. -/
def kmallocLeast (least size : Nat) (s : HeapUse) : K (Nat × HeapUse) := do
  let (heap, ptr) ← s.heap.kheapAlloc size
  pure (ptr, { heap := heap, live := ⟨ptr, max size least⟩ :: s.live })

/-- `kmalloc`, if the client uses what it asks for. -/
def kmalloc (size : Nat) (s : HeapUse) : K (Nat × HeapUse) := kmallocLeast 0 size s

def kfree (ptr : Nat) (s : HeapUse) : K HeapUse :=
  if ptr = 0 ∨ ∃ a ∈ s.live, a.ptr = ptr then s.step (.free ptr) else .error .wild

/-- `n` bytes, from one allocation to another. -/
def kmemcpy (dst : Nat) : (dstOff src srcOff n : Nat) → HeapUse → K HeapUse
  | _, _, _, 0, s => .ok s
  | dstOff, src, srcOff, n + 1, s => do
    let byte ← s.load src srcOff 1
    let s ← s.store dst dstOff 1 byte
    kmemcpy dst (dstOff + 1) src (srcOff + 1) n s

def krealloc (ptr oldSize newSize : Nat) (s : HeapUse) : K (Nat × HeapUse) := do
  let (newPtr, s) ← s.kmalloc newSize
  let s ← s.kmemcpy newPtr 0 ptr 0 oldSize
  let s ← s.kfree ptr
  pure (newPtr, s)

/-! ## Allocations -/

/-- The lists and the allocations partition the heap. -/
def Sound (s : HeapUse) : Prop := ∃ free, s.Inv free

/-- The live allocation at `p` has these `n` bytes. -/
structure Owns (s : HeapUse) (p n : Nat) (c : Mem) : Prop where
  live : ⟨p, n⟩ ∈ s.live
  bytes : ∀ i < n, s.heap.mem (p + i) = c i

/-- What is in allocations other than `p` is kept. -/
def Keeps (s s' : HeapUse) (p : Nat) : Prop :=
  ∀ q n c, q ≠ p → s.Owns q n c → s'.Owns q n c

/-- No allocation is at `p`. -/
def Fresh (s : HeapUse) (p : Nat) : Prop := ∀ a ∈ s.live, a.ptr ≠ p

/-- What stops `kmalloc` of less than 2 GiB. -/
def OutOfMemory (e : Fault) : Prop :=
  e = .panic "HEAP_OUT_OF_MEMORY: kernel heap is out of memory, cannot allocate!"

/-- What stops `kmalloc` of up to `size` bytes. -/
def Stops (size : Nat) (e : Fault) : Prop := OutOfMemory e ∨ 2 ^ 31 ≤ size ∧ e = .hang

variable {s s' s'' : HeapUse} {free : Nat → List Nat} {a b : Allocation} {c c' : Mem}
variable {p q n k v off size least : Nat}

theorem Keeps.refl : s.Keeps s p := fun _ _ _ _ h => h

theorem Keeps.trans (h : s.Keeps s' p) (h' : s'.Keeps s'' p) : s.Keeps s'' p :=
  fun q n c hne hq => h' q n c hne (h q n c hne hq)

theorem Owns.congr (h : s.Owns p n c) (hc : ∀ i < n, c i = c' i) : s.Owns p n c' :=
  ⟨h.live, fun i hi => (h.bytes i hi).trans (hc i hi)⟩

/-- The allocation has some bytes. -/
theorem owns_of_live (h : ⟨p, n⟩ ∈ s.live) : ∃ c, s.Owns p n c :=
  ⟨fun i => s.heap.mem (p + i), h, fun _ _ => rfl⟩

theorem Owns.within (h : s.Owns p n c) (hk : off + k ≤ n) : s.Within p off k := ⟨_, h.live, rfl, hk⟩

/-- Of two allocations one is behind the other. -/
theorem Inv.pairwise (hs : s.Inv free) :
    s.live.Pairwise fun a b => a.ptr + a.size < b.ptr ∨ b.ptr + b.size < a.ptr := by
  have hblocks := (List.pairwise_append.1 hs.shape.pairwise).2.1
  rw [List.pairwise_map] at hblocks
  refine hblocks.imp_of_mem fun {a b} ha hb hdisj => ?_
  obtain ⟨hapos, hasize⟩ := hs.fits a ha
  obtain ⟨hbpos, hbsize⟩ := hs.fits b hb
  by_contra hmeet
  apply hdisj (max a.ptr b.ptr - 1)
  all_goals
    simp only [Extent.Has, Block.extent, block] at hasize hbsize ⊢
    omega

/-- An allocation is found by its address. -/
theorem Inv.eq_of_ptr (hs : s.Inv free) (ha : a ∈ s.live) (hb : b ∈ s.live)
    (hptr : a.ptr = b.ptr) : a = b := by
  by_contra hne
  have hsymm : Std.Symm fun a b : Allocation =>
      a.ptr + a.size < b.ptr ∨ b.ptr + b.size < a.ptr := ⟨fun _ _ h => h.symm⟩
  have hapart := hs.pairwise.forall ha hb hne
  omega

theorem Inv.apart (hs : s.Inv free) (ha : a ∈ s.live) (hb : b ∈ s.live) (hne : a.ptr ≠ b.ptr) :
    a.ptr + a.size < b.ptr ∨ b.ptr + b.size < a.ptr := by
  have hsymm : Std.Symm fun a b : Allocation =>
      a.ptr + a.size < b.ptr ∨ b.ptr + b.size < a.ptr := ⟨fun _ _ h => h.symm⟩
  exact hs.pairwise.forall ha hb fun heq => hne (congrArg Allocation.ptr heq)

/-! ## Loads and stores -/

theorem Mem.load_store_word {m : Mem} {a : Nat} (hv : v < 2 ^ 32) :
    (m.store a 4 v).load a 4 = v := by
  rw [Mem.load_store_self]
  exact Nat.mod_eq_of_lt hv

theorem load_spec (h : s.Owns p n c) (hk : off + k ≤ n) : s.load p off k = .ok (c.load off k) := by
  rw [load, if_pos (h.within hk)]
  congr 1
  apply Mem.load_eq_of_bytes
  intro i hi
  rw [Nat.add_assoc]
  exact h.bytes _ (by omega)

theorem store_spec (off k v : Nat) (hs : s.Sound) (h : s.Owns p n c) (hk : off + k ≤ n) :
    ∃ s', s.store p off k v = .ok s' ∧ s'.Sound ∧ s'.Owns p n (c.store off k v) ∧ s.Keeps s' p := by
  obtain ⟨free, hinv⟩ := hs
  have hclient : ∀ x, ¬ s.Client x → s.heap.mem.store (p + off) k v x = s.heap.mem x := by
    intro x hx
    apply Mem.store_of_not_mem
    by_contra hin
    exact hx (.inl ⟨_, h.live, by simp only; omega⟩)
  refine ⟨_, if_pos (h.within hk), ⟨free, (hinv.setMem hclient).1⟩, ⟨h.live, fun i hi => ?_⟩,
    fun q m d hne hq => ⟨hq.live, fun i hi => ?_⟩⟩
  · have hoff : p + i - (p + off) = i - off := by omega
    change s.heap.mem.store (p + off) k v (p + i) = c.store off k v i
    unfold Mem.store
    rw [hoff, h.bytes i hi]
    refine if_congr ?_ rfl rfl
    omega
  · have hapart := hinv.apart h.live hq.live (Ne.symm hne)
    simp only at hapart
    rw [← hq.bytes i hi]
    exact Mem.store_of_not_mem (by omega)

/-! ## Allocating and freeing -/

/-- The client of an allocation may use all of the smallest block. -/
theorem Inv.grow {heap : KHeap} {live : List Allocation} (hleast : least < 16)
    (h : Inv ⟨heap, ⟨p, size⟩ :: live⟩ free) :
    Inv ⟨heap, ⟨p, max size least⟩ :: live⟩ free := by
  refine ⟨h.shape, fun a ha => ?_⟩
  rcases List.mem_cons.1 ha with rfl | ha
  · obtain ⟨hpos, hsize⟩ := h.fits ⟨p, size⟩ List.mem_cons_self
    have hlen := blockLen_ge (block ⟨heap, ⟨p, size⟩ :: live⟩ ⟨p, size⟩).order
    exact ⟨hpos, max_lt hsize (hleast.trans_le hlen)⟩
  · exact h.fits a (List.mem_cons_of_mem _ ha)

/-- An address of the heap has 32 bits. -/
theorem Inv.ptr_lt (hs : s.Inv free) (ha : a ∈ s.live) : a.ptr < 2 ^ 32 := by
  obtain ⟨-, hhi⟩ := hs.shape.bounds (mem_blocks_rest (List.mem_map_of_mem (f := s.block) ha))
  obtain ⟨-, htop⟩ := hs.shape.room
  obtain ⟨hpos, -⟩ := hs.fits a ha
  have hlen := blockLen_ge (s.block a).order
  simp only [block] at hhi hlen
  omega

/-- An allocation is smaller than the heap. -/
theorem Owns.lt_heapLen (hs : s.Sound) (h : s.Owns p n c) : n < heapLen := by
  obtain ⟨free, hinv⟩ := hs
  obtain ⟨-, hsize⟩ := hinv.fits _ h.live
  have horder := hinv.shape.order _ (mem_blocks_rest (List.mem_map_of_mem h.live))
  have hlen : blockLen (s.block ⟨p, n⟩).order ≤ blockLen (allocOrders - 1) :=
    blockLen_mono (Nat.le_sub_one_of_lt horder)
  exact hsize.trans_le hlen

theorem Stops.mono {size' : Nat} {e : Fault} (h : Stops size e) (hle : size ≤ size') :
    Stops size' e := h.imp_right fun hhang => ⟨hhang.1.trans hle, hhang.2⟩

/-- `kmalloc` is the step of the heap, up to the size that is kept for the client. -/
theorem kmallocLeast_cases (s : HeapUse) (least : Nat) (hsize : size < 2 ^ 32) :
    (∃ heap ptr, s.step (.alloc size) = .ok ⟨heap, ⟨ptr, size⟩ :: s.live⟩ ∧
      kmallocLeast least size s = .ok (ptr, ⟨heap, ⟨ptr, max size least⟩ :: s.live⟩)) ∨
      ∃ e, kmallocLeast least size s = .error e ∧ Stops size e := by
  rw [kmallocLeast, HeapUse.step]
  cases halloc : s.heap.kheapAlloc size with
  | ok r => exact .inl ⟨r.1, r.2, rfl, rfl⟩
  | error e =>
    refine .inr ⟨e, rfl, ?_⟩
    rcases Nat.lt_or_ge size (2 ^ 31) with hsmall | hhuge
    · rcases alloc_returns (s := s) hsmall with ⟨s', hstep⟩ | hstep
      · rw [HeapUse.step, halloc] at hstep
        cases hstep
      · rw [HeapUse.step, halloc] at hstep
        cases hstep
        exact .inl rfl
    · rw [KHeap.kheapAlloc, (KHeap.orderForSize_spec hsize).2 hhuge] at halloc
      cases halloc
      exact .inr ⟨hhuge, rfl⟩

/-- `kmalloc` returns a new allocation, unless it is stopped. -/
theorem kmallocLeast_spec (least : Nat) (hs : s.Sound) (hsize : size < 2 ^ 32) (hleast : least < 16) :
    Meets (Stops size) (fun r => r.2.Sound ∧ s.Fresh r.1 ∧ r.1 < 2 ^ 32 ∧
      (∃ c, r.2.Owns r.1 (max size least) c) ∧ s.Keeps r.2 r.1) (kmallocLeast least size s) := by
  obtain ⟨free, hinv⟩ := hs
  rcases kmallocLeast_cases s least hsize with
    ⟨heap, ptr, hstep, hkmalloc⟩ | ⟨e, hkmalloc, hstops⟩
  · obtain ⟨free', ptr', o, hinv', hlive, -, -, -, -, hkeeps, -⟩ := hinv.alloc hsize hstep
    obtain rfl : ptr = ptr' := by simpa using hlive
    have hgrown := hinv'.grow hleast
    have hnew : (⟨ptr, max size least⟩ : Allocation) ∈ ⟨ptr, max size least⟩ :: s.live :=
      List.mem_cons_self
    rw [hkmalloc]
    refine ⟨⟨free', hgrown⟩, fun a ha heq => ?_, hgrown.ptr_lt hnew, owns_of_live hnew,
      fun q n c _ hq => ⟨List.mem_cons_of_mem _ hq.live, fun i hi => ?_⟩⟩
    · have hapart := (List.pairwise_cons.1 hgrown.pairwise).1 a ha
      simp only at hapart
      omega
    · obtain ⟨hpos, hfits⟩ := hinv.fits _ hq.live
      rw [← hq.bytes i hi]
      refine hkeeps _ (List.mem_map_of_mem hq.live) _ ?_
      simp only [Extent.Has, Block.extent, block] at hfits ⊢
      omega
  · rw [hkmalloc]
    exact hstops

theorem kmalloc_stops (hs : s.Sound) (hsize : size < 2 ^ 32) :
    Meets (Stops size) (fun r => r.2.Sound ∧ s.Fresh r.1 ∧ r.1 < 2 ^ 32 ∧
      (∃ c, r.2.Owns r.1 size c) ∧ s.Keeps r.2 r.1) (kmalloc size s) := by
  have hspec := kmallocLeast_spec 0 hs hsize (by decide)
  rwa [Nat.max_zero] at hspec

/-- Of less than 2 GiB, only an exhausted heap stops `kmalloc`. -/
theorem kmalloc_spec (hs : s.Sound) (hsize : size < 2 ^ 31) :
    Meets OutOfMemory (fun r => r.2.Sound ∧ s.Fresh r.1 ∧ r.1 < 2 ^ 32 ∧
      (∃ c, r.2.Owns r.1 size c) ∧ s.Keeps r.2 r.1) (kmalloc size s) :=
  (kmalloc_stops hs (by omega)).mono_error fun _ hstops =>
    hstops.resolve_right fun hhang => absurd hhang.1 (Nat.not_le_of_lt hsize)

theorem kfree_spec (hs : s.Sound) (h : s.Owns p n c) :
    ∃ s', s.kfree p = .ok s' ∧ s'.Sound ∧ s.Keeps s' p := by
  obtain ⟨free, hinv⟩ := hs
  have hlive : ∃ a ∈ s.live, a.ptr = p := ⟨_, h.live, rfl⟩
  obtain ⟨s', d, l₁, l₂, hsplit, rfl, -, hlive', hstep, hinv', -, -, hkeeps, -⟩ :=
    hinv.release hlive
  refine ⟨s', (if_pos (.inr hlive)).trans hstep, ⟨_, hinv'⟩, fun q m d' hne hq => ?_⟩
  have hmem : (⟨q, m⟩ : Allocation) ∈ l₁ ++ l₂ := by
    have hq' := hq.live
    rw [hsplit, List.mem_append, List.mem_cons] at hq'
    rcases hq' with hq' | rfl | hq'
    · exact List.mem_append_left _ hq'
    · exact absurd rfl hne
    · exact List.mem_append_right _ hq'
  refine ⟨hlive' ▸ hmem, fun i hi => ?_⟩
  obtain ⟨hpos, hfits⟩ := hinv.fits _ hq.live
  rw [← hq.bytes i hi]
  refine hkeeps _ (List.mem_map_of_mem hmem) _ ?_
  simp only [Extent.Has, Block.extent, block] at hfits ⊢
  omega

/-! ## Copying -/

/-- Between two allocations the bytes are copied as they are. -/
theorem kmemcpy_spec (dstOff srcOff len : Nat) (hs : s.Sound) (hdst : s.Owns p n c)
    (hsrc : s.Owns q k c') (hne : q ≠ p) (hd : dstOff + len ≤ n) (hsr : srcOff + len ≤ k) :
    ∃ s', s.kmemcpy p dstOff q srcOff len = .ok s' ∧ s'.Sound ∧
      s'.Owns p n (c.blit dstOff len fun i => c' (srcOff + i)) ∧ s.Keeps s' p := by
  induction len generalizing s c dstOff srcOff with
  | zero =>
    refine ⟨s, rfl, hs, hdst.congr fun i _ => ?_, .refl⟩
    rw [Mem.blit_of_not_mem (by omega)]
  | succ len ih =>
    rw [kmemcpy, load_spec hsrc (by omega), ok_bind]
    obtain ⟨s₁, hstore, hs₁, hdst₁, hkeeps₁⟩ :=
      store_spec dstOff 1 (c'.load srcOff 1) hs hdst (by omega)
    obtain ⟨s', hcopy, hs', hdst', hkeeps'⟩ := ih (dstOff + 1) (srcOff + 1) hs₁ hdst₁
      (hkeeps₁ q k c' hne hsrc) (by omega) (by omega)
    refine ⟨s', by rw [hstore, ok_bind, hcopy], hs', ?_, hkeeps₁.trans hkeeps'⟩
    have hsame : (c.store dstOff 1 (c'.load srcOff 1)).blit (dstOff + 1) len
        (fun i => c' (srcOff + 1 + i)) = c.blit dstOff (len + 1) fun i => c' (srcOff + i) := by
      have hrest : (fun i => c' (srcOff + 1 + i)) = fun i => c' (srcOff + (i + 1)) := by
        funext i
        rw [Nat.add_assoc, Nat.add_comm 1]
      rw [Mem.blit_succ, Mem.load_one, hrest]
      rfl
    rwa [hsame] at hdst'

/-- `krealloc` to at least the old size: the bytes are in the new allocation. -/
theorem krealloc_spec {oldSize newSize : Nat} (hs : s.Sound) (h : s.Owns p oldSize c)
    (hle : oldSize ≤ newSize) (hsize : newSize < 2 ^ 31) :
    Meets OutOfMemory (fun r => r.2.Sound ∧ s.Fresh r.1 ∧ r.1 < 2 ^ 32 ∧
      (∃ c', r.2.Owns r.1 newSize c' ∧ ∀ i < oldSize, c' i = c i) ∧
      ∀ q n c, q ≠ p → s.Owns q n c → r.2.Owns q n c) (s.krealloc p oldSize newSize) := by
  rw [krealloc]
  refine (kmalloc_spec hs hsize).bind ?_
  rintro ⟨newPtr, s₁⟩ ⟨hs₁, hfresh, hlt, ⟨c₁, hnew⟩, hkeeps₁⟩
  have hne : p ≠ newPtr := hfresh _ h.live
  have hold := hkeeps₁ p oldSize c hne h
  obtain ⟨s₂, hcopy, hs₂, hnew₂, hkeeps₂⟩ := 
    kmemcpy_spec 0 0 oldSize hs₁ hnew hold hne (by omega) (by omega)
  obtain ⟨s₃, hfree, hs₃, hkeeps₃⟩ := kfree_spec hs₂ (hkeeps₂ p oldSize c hne hold)
  refine .step hcopy (.step hfree ⟨hs₃, hfresh, hlt, ⟨_, hkeeps₃ _ _ _ hne.symm hnew₂, ?_⟩, ?_⟩)
  · intro i hi
    rw [Mem.blit_of_mem (Nat.zero_le _) (by omega), Nat.zero_add, Nat.sub_zero]
  · intro q n d hq hown
    have hqnew := hfresh _ hown.live
    exact hkeeps₃ q n d hq (hkeeps₂ q n d hqnew (hkeeps₁ q n d hqnew hown))

end HeapUse

end Kaku

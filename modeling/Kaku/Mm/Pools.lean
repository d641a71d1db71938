-- SUMMARY: The kernel heap and the frames of the frame allocator, cut out of the BIOS memory map.
import Kaku.Lib.Bitmap
import Kaku.Mm.HeapInv

/-!
# Memory pools

`kheap_init` takes the 4 MiB behind the kernel for the heap, and `fa_init` hands
the frames behind the heap to the frame allocator. The two compute the border
between them on their own, and only the frames are bounded by the entry of the
memory map that is said to be usable.
-/

namespace Kaku

/-! ## The memory map -/

/-- `mmap_entry`. -/
structure BiosEntry extends MmapEntry where
  regionType : Nat

def mmapRegtypeUsable : Nat := 1

def BiosEntry.usable (e : BiosEntry) : Bool :=
  decide (e.regionType = mmapRegtypeUsable ∧ 0x100000 ≤ e.baseAddr)

/-- The first usable entry at or above 1 MiB, or an entry of zeros. -/
def mmapGetUsableEntry (entries : List BiosEntry) : BiosEntry :=
  (entries.find? BiosEntry.usable).getD { baseAddr := 0, regionLen := 0, regionType := 0 }

/-! ## `fa_init` -/

/-- `base_addr + region_len`, cut to 32 bits. -/
def MmapEntry.endAddr (e : MmapEntry) : Nat := addr32 (e.baseAddr + e.regionLen)

/-- `__fa_init_alloc_bitmap`: the size of the bitmap. The first entry is read before
they are counted. -/
def faInitAllocBitmap (entries : List BiosEntry) : Nat :=
  let first := (entries.map fun e => e.endAddr).headD 0
  let maxEndAddr := entries.foldl (fun maxEndAddr e => max e.endAddr maxEndAddr) first
  maxEndAddr / 4096 / 8

/-- The bitmap that `fa_init` sets up in the memory it has been given, and its size. -/
def faInit (kernelPhysEnd heapSize : Nat) (entries : List BiosEntry) (mem : Mem) : Mem × Nat :=
  let faBitmapSize := faInitAllocBitmap entries
  let faBitmap := mem.blit 0 faBitmapSize fun _ => 0xFF
  let frameIndexStart := addr32 (kernelPhysEnd + heapSize) / 4096
  let frameIndexEnd := (mmapGetUsableEntry entries).endAddr / 4096
  ((List.range' frameIndexStart (frameIndexEnd - frameIndexStart)).foldl Mem.clearBit faBitmap,
    faBitmapSize)

/-- `kheap_init` and then `fa_init`. -/
def initPools (kernelPhysEnd : Nat) (entries : List BiosEntry) (heapMem mem : Mem) :
    KHeap × Mem × Nat :=
  let heap := kheapInit kernelPhysEnd (mmapGetUsableEntry entries).toMmapEntry heapMem
  (heap, faInit kernelPhysEnd heap.heapSize entries mem)

/-! ## Which frames are free -/

variable {entries : List BiosEntry} {mem heapMem : Mem} {kernelPhysEnd heapSize f : Nat} {l : List Nat}

theorem bit_foldl_clearBit {m : Mem} :
    (l.foldl Mem.clearBit m).bit f = (m.bit f && !decide (f ∈ l)) := by
  induction l generalizing m with
  | nil => simp
  | cons i l ih =>
    rw [List.foldl_cons, ih, Mem.bit_clearBit, Bool.and_assoc]
    congr 1
    rcases eq_or_ne i f with rfl | hne
    · simp
    · simp [hne, hne.symm]

/-- All bits of the bitmap are set but those of the frames from the end of the heap
to the end of the usable entry. -/
theorem faInit_clear (hf : f < 8 * (faInit kernelPhysEnd heapSize entries mem).2) :
    (faInit kernelPhysEnd heapSize entries mem).1.bit f = false ↔
      addr32 (kernelPhysEnd + heapSize) / 4096 ≤ f ∧
        f < (mmapGetUsableEntry entries).endAddr / 4096 := by
  have hset : (mem.blit 0 (faInitAllocBitmap entries) fun _ => 0xFF).bit f = true := by
    have hbyte : (mem.blit 0 (faInitAllocBitmap entries) fun _ => 0xFF) (f / 8) = 0xFF :=
      Mem.blit_of_mem (Nat.zero_le _) (by
        simp only [faInit] at hf
        omega)
    rw [Mem.bit, hbyte, show (0xFF : UInt8).toNat = 2 ^ 8 - 1 from rfl, Nat.testBit_two_pow_sub_one]
    exact decide_eq_true (by omega)
  simp only [faInit]
  rw [bit_foldl_clearBit, hset, Bool.true_and, Bool.not_eq_false', decide_eq_true_eq,
    List.mem_range'_1]
  omega

/-! ## The pools -/

/-- Where the kernel is loaded. -/
def kernelLoadBase : Nat := 0x10000

/-- The heap and the free frames are in the usable entry, and no free frame shares
a byte with the heap or with the kernel. -/
structure PoolsSound (kernelPhysEnd : Nat) (entry : BiosEntry) (fa : Mem × Nat) : Prop where
  heap : entry.baseAddr ≤ kernelPhysEnd ∧
    kernelPhysEnd + heapLen ≤ entry.baseAddr + entry.regionLen
  frames : ∀ f < 8 * fa.2, fa.1.bit f = false →
    entry.baseAddr ≤ f * 4096 ∧ (f + 1) * 4096 ≤ entry.baseAddr + entry.regionLen
  apart : ∀ f < 8 * fa.2, fa.1.bit f = false → ∀ x, f * 4096 ≤ x → x < (f + 1) * 4096 →
    ¬ (kernelPhysEnd ≤ x ∧ x < kernelPhysEnd + heapLen) ∧
      ¬ (kernelLoadBase ≤ x ∧ x < kernelPhysEnd)

theorem usable_base (h : ∃ e ∈ entries, e.usable = true) :
    0x100000 ≤ (mmapGetUsableEntry entries).baseAddr := by
  obtain ⟨e, he, husable⟩ := h
  cases hfind : entries.find? BiosEntry.usable with
  | none => exact absurd husable (by simpa using List.find?_eq_none.1 hfind e he)
  | some x =>
    have hx := List.find?_some hfind
    rw [BiosEntry.usable, decide_eq_true_eq] at hx
    rw [mmapGetUsableEntry, hfind, Option.getD_some]
    exact hx.2

/-- The free frames start behind the heap, or there are none. -/
theorem pools_sound_iff_start (h : ∃ e ∈ entries, e.usable = true) :
    PoolsSound kernelPhysEnd (mmapGetUsableEntry entries)
        (faInit kernelPhysEnd heapSize entries mem) ↔
      ((mmapGetUsableEntry entries).baseAddr ≤ kernelPhysEnd ∧ kernelPhysEnd + heapLen ≤
        (mmapGetUsableEntry entries).baseAddr + (mmapGetUsableEntry entries).regionLen) ∧
      (kernelPhysEnd + heapLen ≤ addr32 (kernelPhysEnd + heapSize) / 4096 * 4096 ∨
        min ((mmapGetUsableEntry entries).endAddr / 4096) (8 * faInitAllocBitmap entries) ≤
          addr32 (kernelPhysEnd + heapSize) / 4096) := by
  have hbase := usable_base h
  have hlen : heapLen = 4194304 := rfl
  have hend : (mmapGetUsableEntry entries).endAddr ≤
      (mmapGetUsableEntry entries).baseAddr + (mmapGetUsableEntry entries).regionLen :=
    Nat.mod_le _ _
  have hsize : (faInit kernelPhysEnd heapSize entries mem).2 = faInitAllocBitmap entries := rfl
  constructor
  · intro hs
    refine ⟨hs.heap, ?_⟩
    by_contra hno
    push Not at hno
    obtain ⟨hlow, hsome⟩ := hno
    -- The first free frame is not behind the heap.
    have hin : addr32 (kernelPhysEnd + heapSize) / 4096 <
        8 * (faInit kernelPhysEnd heapSize entries mem).2 := by
      rw [hsize]
      omega
    have hclear := (faInit_clear hin).2 ⟨le_rfl, by omega⟩
    have hframe := hs.frames _ hin hclear
    obtain ⟨hheap, hkernel⟩ := hs.apart _ hin hclear
      (addr32 (kernelPhysEnd + heapSize) / 4096 * 4096) le_rfl (by omega)
    rw [kernelLoadBase] at hkernel
    omega
  · rintro ⟨hheap, hcase⟩
    have hbehind : ∀ f < 8 * (faInit kernelPhysEnd heapSize entries mem).2,
        (faInit kernelPhysEnd heapSize entries mem).1.bit f = false →
        kernelPhysEnd + heapLen ≤ f * 4096 ∧
          (f + 1) * 4096 ≤ (mmapGetUsableEntry entries).endAddr := by
      intro f hf hclear
      obtain ⟨hlo, hhi⟩ := (faInit_clear hf).1 hclear
      rw [hsize] at hf
      omega
    refine ⟨hheap, fun f hf hclear => ?_, fun f hf hclear x hlo hhi => ?_⟩
    · have hframe := hbehind f hf hclear
      omega
    · have hframe := hbehind f hf hclear
      rw [kernelLoadBase]
      omega

/-- The pools are sound exactly when the usable entry has the 4 MiB behind the kernel
and the end of the kernel is page-aligned, or no frame is left behind the heap. -/
theorem pools_sound_iff (h : ∃ e ∈ entries, e.usable = true) (hend : kernelPhysEnd < 2 ^ 32) :
    PoolsSound kernelPhysEnd (mmapGetUsableEntry entries)
        (initPools kernelPhysEnd entries heapMem mem).2 ↔
      ((mmapGetUsableEntry entries).baseAddr ≤ kernelPhysEnd ∧ kernelPhysEnd + heapLen ≤
        (mmapGetUsableEntry entries).baseAddr + (mmapGetUsableEntry entries).regionLen) ∧
      (4096 ∣ kernelPhysEnd ∧ kernelPhysEnd + heapLen < 2 ^ 32 ∧
          heapLen ≤ ((mmapGetUsableEntry entries).baseAddr +
            (mmapGetUsableEntry entries).regionLen + (2 ^ 64 - kernelPhysEnd)) % 2 ^ 64 ∨
        min ((mmapGetUsableEntry entries).endAddr / 4096) (8 * faInitAllocBitmap entries) ≤
          addr32 (kernelPhysEnd + min (((mmapGetUsableEntry entries).baseAddr +
            (mmapGetUsableEntry entries).regionLen + (2 ^ 64 - kernelPhysEnd)) % 2 ^ 64)
              heapLen) / 4096) := by
  obtain ⟨top, htop⟩ : ∃ top, top = ((mmapGetUsableEntry entries).baseAddr +
      (mmapGetUsableEntry entries).regionLen + (2 ^ 64 - kernelPhysEnd)) % 2 ^ 64 := ⟨_, rfl⟩
  have hlen : heapLen = 4194304 := rfl
  have hheapSize : (initPools kernelPhysEnd entries heapMem mem).1.heapSize = min top heapLen := by
    have hsmall : min top heapLen < 2 ^ 32 := by omega
    have hsize : (initPools kernelPhysEnd entries heapMem mem).1.heapSize =
        addr32 (min top heapLen) := by rw [htop]; rfl
    rw [hsize, addr32, Nat.mod_eq_of_lt hsmall]
  have hpools : (initPools kernelPhysEnd entries heapMem mem).2 =
      faInit kernelPhysEnd (min top heapLen) entries mem := by
    rw [← hheapSize]
    rfl
  rw [hpools, pools_sound_iff_start h, ← htop]
  apply and_congr_right
  intro hin
  apply or_congr_left
  simp only [addr32]
  omega

/-- The memory map of a machine with 128 MiB. -/
def sampleMap : List BiosEntry :=
  [⟨⟨0, 0x9fc00⟩, 1⟩, ⟨⟨0x9fc00, 0x60400⟩, 2⟩, ⟨⟨0x100000, 0x7ee0000⟩, 1⟩]

/-- A kernel that ends on a page border inside the usable entry. -/
theorem pools_sound_aligned : PoolsSound 0x110000 (mmapGetUsableEntry sampleMap)
    (initPools 0x110000 sampleMap (fun _ => 0) fun _ => 0).2 := by
  have hentry : ∃ e ∈ sampleMap, e.usable = true :=
    ⟨⟨⟨0x100000, 0x7ee0000⟩, 1⟩, by simp [sampleMap], by decide⟩
  apply (pools_sound_iff hentry (by decide)).2
  exact ⟨by decide, .inl ⟨by decide, by decide, by decide⟩⟩

/-- The kernel is loaded below 1 MiB, so the heap starts there as well, and runs
through the addresses below the usable entry. -/
theorem heap_outside_usable : ¬ PoolsSound 0x33f30 (mmapGetUsableEntry sampleMap)
    (initPools 0x33f30 sampleMap (fun _ => 0) fun _ => 0).2 := by
  intro hs
  exact absurd hs.heap.1 (by decide)

end Kaku

-- SUMMARY: Starting the memory management: the memory map of the BIOS, the bitmap of the frames, and the direct map.
import Kaku.Mm.Pools
import Kaku.Mm.Translate

/-!
# Starting the memory management

`mm_init` fills the bitmap of the frame allocator from the memory map of the BIOS, and
then the page directory of the kernel. `vesa_init` adds the framebuffer to it. While
the directory is filled, only what `kernel_entry` has mapped can be reached.
-/

namespace Kaku

/-! ## Page directories -/

/-- The first 12 MiB, which `kernel_entry` maps. -/
def bootLimit : Nat := 0xC00

/-- All frames that have an address in the kernel half. -/
def directLimit : Nat := 0x40000

def pagingPdEntryFlagsKernelOnly : Nat := 0x3

def vesaVirtBase : Nat := 0xE0000000
def vesaWidth : Nat := 1024
def vesaHeight : Nat := 768
def vesaColorChannels : Nat := 4

/-- Access to a frame through the direct map, where it reaches up to `limit`. -/
def directBelow (limit frame : Nat) : K Nat :=
  if frame < limit then .ok frame else .error .wild

namespace Memory

/-- `fa_init`, behind the heap that `kheap_init` has set up. -/
def faInit (m : Memory) (kernelPhysEnd : Nat) (entries : List BiosEntry) : Memory :=
  let heap := kheapInit kernelPhysEnd (mmapGetUsableEntry entries).toMmapEntry fun _ => 0
  let (faBitmap, faBitmapSize) := Kaku.faInit kernelPhysEnd heap.heapSize entries m.faBitmap
  { m with
    faBitmap := faBitmap
    faBitmapSize := faBitmapSize }

/-- The first half of `paging_map`: a page table for the entry. -/
def tableFor (m : Memory) (pd pdIndex flags : Nat) : K Memory :=
  if m.entry pd pdIndex = 0 then do
    let (m, pt) ← m.faAlloc
    pure (m.setEntry pd pdIndex (pageEntry pt flags))
  else pure m

/-- `paging_map` for a physical address that need not be aligned. -/
def pagingMapAt (limit : Nat) (m : Memory) (pd paddr vaddr flags : Nat) : K Memory := do
  let pdIndex := vaddr / 2 ^ 22
  let m ← m.tableFor pd pdIndex flags
  let ptIndex := vaddr / 2 ^ 12 % 1024
  let pt ← directBelow limit (frameOf (m.entry pd pdIndex))
  pure (m.setEntry pt ptIndex (paddr ||| flags))

/-- The loop of `paging_kernel_init` from frame `i` on. -/
def mapDirect : (left i : Nat) → Memory → K Memory
  | 0, _, m => .ok m
  | left + 1, i, m => do
    let m ← m.pagingMapAt bootLimit m.kernelPd (i * 4096) (addr32 (i * 4096 + kernelVirtBaseAddr))
      pagingPdEntryFlagsKernelOnly
    mapDirect left (i + 1) m

def pagingKernelInit (m : Memory) (usable : MmapEntry) : K Memory := do
  let (m, pdPhys) ← m.faAlloc
  let kernelPd ← directBelow bootLimit pdPhys
  let m := { m.fill kernelPd 0 4096 fun _ => 0 with kernelPd := kernelPd }
  mapDirect (addr32 (usable.endAddr + 0xfff) / 4096) 0 m

/-- The loop of `vesa_init` from page `k` on. -/
def mapFramebuffer (fbPhys : Nat) : (left k : Nat) → Memory → K Memory
  | 0, _, m => .ok m
  | left + 1, k, m => do
    let m ← m.pagingMapAt directLimit m.kernelPd (addr32 (fbPhys + k * 4096))
      (vesaVirtBase + k * 4096) pagingPdEntryFlagsKernelOnly
    mapFramebuffer fbPhys left (k + 1) m

/-- The address of the framebuffer is the one that the boot sector got from the BIOS. -/
def vesaInit (m : Memory) (fbPhys : Nat) : K Memory :=
  mapFramebuffer fbPhys (vesaWidth * vesaHeight * vesaColorChannels / 4096) 0 m

def mmInit (m : Memory) (kernelPhysEnd : Nat) (entries : List BiosEntry) : K Memory :=
  (m.faInit kernelPhysEnd entries).pagingKernelInit (mmapGetUsableEntry entries).toMmapEntry

/-- For aligned addresses this is `paging_map` as processes use it. -/
theorem pagingMapAt_eq (m : Memory) (pd frame vaddr flags : Nat) :
    pagingMapAt directLimit m pd (frame * 4096) vaddr flags = m.pagingMap pd frame vaddr flags := by
  rw [pagingMapAt, tableFor, pagingMap]
  split
  · cases m.faAlloc <;> rfl
  · rfl

variable {m m' : Memory} {t x lo hi : Nat} {entries : List BiosEntry}

/-! ## The frames that are free -/

/-- The frames of the bitmap from `lo` up to `hi` are free, and no others. -/
def FreeFrom (m : Memory) (lo hi : Nat) : Prop :=
  ∀ x < 8 * m.faBitmapSize, m.used x = false ↔ lo ≤ x ∧ x < hi

/-- `fa_alloc` takes the first of them. -/
theorem FreeFrom.next (hfree : m.FreeFrom lo hi) (hnext : m.nextFrame = some t) :
    t = lo ∧ lo < hi ∧ lo < 8 * m.faBitmapSize := by
  obtain ⟨-, hlt, hclear, hbelow⟩ := Mem.firstClear_eq_some hnext
  rw [Nat.zero_add] at hlt
  obtain ⟨hlo, hhi⟩ := (hfree t hlt).1 hclear
  rcases Nat.eq_or_lt_of_le hlo with rfl | hgt
  · exact ⟨rfl, hhi, hlt⟩
  · have hset := hbelow lo (Nat.zero_le _) hgt
    have hclear' := (hfree lo (by omega)).2 ⟨le_rfl, by omega⟩
    rw [used, hset] at hclear'
    cases hclear'

theorem FreeFrom.take (hfree : m.FreeFrom lo hi) (hsize : m'.faBitmapSize = m.faBitmapSize)
    (hused : ∀ x, m'.used x = true ↔ m.used x = true ∨ x = lo) : m'.FreeFrom (lo + 1) hi := by
  intro x hx
  rw [hsize] at hx
  rw [← Bool.not_eq_true, hused x, not_or, Bool.not_eq_true, hfree x hx]
  omega

/-- Where the frames of the allocator begin, and where they end. -/
def firstFrame (kernelPhysEnd : Nat) (entries : List BiosEntry) : Nat :=
  addr32 (kernelPhysEnd +
    (kheapInit kernelPhysEnd (mmapGetUsableEntry entries).toMmapEntry fun _ => 0).heapSize) / 4096

def lastFrame (entries : List BiosEntry) : Nat := (mmapGetUsableEntry entries).endAddr / 4096

/-- `fa_init` frees the frames from behind the heap up to the end of memory. -/
theorem faInit_freeFrom {kernelPhysEnd : Nat} :
    (m.faInit kernelPhysEnd entries).FreeFrom (firstFrame kernelPhysEnd entries)
      (lastFrame entries) := fun _ hx => faInit_clear hx

end Memory

/-! ## The end of memory -/

section MaxEnd

variable {entries : List BiosEntry} {e : BiosEntry} {init : Nat}

theorem endAddr_lt (e : MmapEntry) : e.endAddr < 2 ^ 32 := Nat.mod_lt _ (by decide)

theorem foldl_max_lt (hinit : init < 2 ^ 32) :
    entries.foldl (fun m e => max e.endAddr m) init < 2 ^ 32 := by
  induction entries generalizing init with
  | nil => exact hinit
  | cons e entries ih => exact ih (max_lt (endAddr_lt _) hinit)

theorem le_foldl_max (entries : List BiosEntry) (init : Nat) :
    init ≤ entries.foldl (fun m e => max e.endAddr m) init ∧
      ∀ e ∈ entries, e.endAddr ≤ entries.foldl (fun m e => max e.endAddr m) init := by
  induction entries generalizing init with
  | nil => exact ⟨le_rfl, by simp⟩
  | cons e entries ih =>
    obtain ⟨hstart, hrest⟩ := ih (max e.endAddr init)
    refine ⟨(le_max_right _ _).trans hstart, fun f hf => ?_⟩
    rcases List.mem_cons.1 hf with rfl | hf
    · exact (le_max_left _ _).trans hstart
    · exact hrest f hf

theorem foldl_max_mem (entries : List BiosEntry) (init : Nat) :
    entries.foldl (fun m e => max e.endAddr m) init = init ∨
      ∃ e ∈ entries, entries.foldl (fun m e => max e.endAddr m) init = e.endAddr := by
  induction entries generalizing init with
  | nil => exact .inl rfl
  | cons e entries ih =>
    rw [List.foldl_cons]
    rcases ih (max e.endAddr init) with hstart | ⟨f, hf, heq⟩
    · rcases max_choice e.endAddr init with hnew | hold
      · exact .inr ⟨e, List.mem_cons_self, hstart.trans hnew⟩
      · exact .inl (hstart.trans hold)
    · exact .inr ⟨f, List.mem_cons_of_mem e hf, heq⟩

theorem faInitAllocBitmap_le (entries : List BiosEntry) : faInitAllocBitmap entries ≤ 2 ^ 17 := by
  have hlt : entries.foldl (fun m e => max e.endAddr m)
      ((entries.map fun e => e.endAddr).headD 0) < 2 ^ 32 := by
    apply foldl_max_lt
    cases entries with
    | nil => decide
    | cons e entries => exact endAddr_lt _
  rw [faInitAllocBitmap]
  omega

/-- The end of usable memory is among the ends that are compared. -/
theorem lastFrame_div_le (entries : List BiosEntry) :
    Memory.lastFrame entries / 8 ≤ faInitAllocBitmap entries := by
  have hle : (mmapGetUsableEntry entries).endAddr ≤ entries.foldl (fun m e => max e.endAddr m)
      ((entries.map fun e => e.endAddr).headD 0) := by
    rw [mmapGetUsableEntry]
    cases hfind : entries.find? BiosEntry.usable with
    | some e => exact (le_foldl_max _ _).2 e (List.mem_of_find?_eq_some hfind)
    | none => exact Nat.zero_le _
  rw [Memory.lastFrame, faInitAllocBitmap]
  omega

end MaxEnd

namespace Memory

variable {m : Memory} {kernelPhysEnd : Nat} {entries : List BiosEntry}

theorem faInit_addressable : (m.faInit kernelPhysEnd entries).Addressable :=
  faInitAllocBitmap_le entries

end Memory

end Kaku

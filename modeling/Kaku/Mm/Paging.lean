-- SUMMARY: Page directories and page tables: mapping and unmapping pages, and creating directories.
import Kaku.Mm.Frame

/-!
# `mm/src/paging.c`

Page directories and page tables fill one frame each and are named by it. The
kernel reaches them, and all other frames, through the direct map that
`paging_kernel_init` sets up.
-/

namespace Kaku

def procUserFlags : Nat := 0x7

/-- The first page of the kernel half of the address space. -/
def kernelPage : Nat := 0xC0000

/-- `PHYS_TO_VIRT`: the sum is a kernel address for the frames of the first GiB,
and wraps into user addresses for all others. -/
def direct (frame : Nat) : K Nat :=
  if frame < 0x40000 then .ok frame else .error .wild

/-- `e & 0x1`. -/
def present (e : Nat) : Bool := decide (e % 2 = 1)

/-- The frame at `e & 0xFFFFF000`. -/
def frameOf (e : Nat) : Nat := e / 4096

def pageEntry (frame flags : Nat) : Nat := frame * 4096 ||| flags

namespace Memory

/-- `entries[i]` of the page directory or page table in a frame. -/
def entry (m : Memory) (frame i : Nat) : Nat := m.phys.load (frame * 4096 + 4 * i) 4

def setEntry (m : Memory) (frame i v : Nat) : Memory :=
  { m with phys := m.phys.store (frame * 4096 + 4 * i) 4 v }

/-- Overwrite `n` bytes of a frame from offset `off` on. -/
def fill (m : Memory) (frame off n : Nat) (src : Mem) : Memory :=
  { m with phys := m.phys.blit (frame * 4096 + off) n src }

/-- A page table that is missing is allocated, but not cleared. -/
def pagingMap (m : Memory) (pd frame vaddr flags : Nat) : K Memory := do
  let pdIndex := vaddr / 2 ^ 22
  let m ←
    if m.entry pd pdIndex = 0 then do
      let (m, pt) ← m.faAlloc
      pure (m.setEntry pd pdIndex (pageEntry pt flags))
    else pure m
  let ptIndex := vaddr / 2 ^ 12 % 1024
  let pt ← direct (frameOf (m.entry pd pdIndex))
  pure (m.setEntry pt ptIndex (pageEntry frame flags))

def pagingCreatePd (m : Memory) : K (Memory × Nat) := do
  let (m, pd) ← m.faAlloc
  let pd ← direct pd
  let m := m.fill pd 0 (768 * 4) fun _ => 0
  pure (m.fill pd (768 * 4) (256 * 4) fun k => m.phys (m.kernelPd * 4096 + 768 * 4 + k), pd)

/-! ## Entries -/

/-- Two memories have the same bytes in a frame. -/
def Same (m m' : Memory) (frame : Nat) : Prop :=
  ∀ k < 4096, m'.phys (frame * 4096 + k) = m.phys (frame * 4096 + k)

variable {m m' m'' : Memory} {frame g i j n off v : Nat} {src : Mem}

theorem Same.refl : m.Same m frame := fun _ _ => rfl

theorem Same.trans (h : m.Same m' frame) (h' : m'.Same m'' frame) : m.Same m'' frame :=
  fun k hk => (h' k hk).trans (h k hk)

theorem Same.entry (h : m.Same m' frame) (hi : i < 1024) : m'.entry frame i = m.entry frame i := by
  apply Mem.load_congr
  intro x hlo hhi
  have hbyte := h (x - frame * 4096) (by omega)
  rwa [show frame * 4096 + (x - frame * 4096) = x by omega] at hbyte

theorem same_of_phys (h : m'.phys = m.phys) (g : Nat) : m.Same m' g :=
  fun k _ => by rw [h]

theorem entry_of_phys (h : m'.phys = m.phys) (frame i : Nat) : m'.entry frame i = m.entry frame i := by
  rw [entry, entry, h]

theorem same_setEntry (hi : i < 1024) (hne : g ≠ frame) : m.Same (m.setEntry frame i v) g := by
  intro k hk
  exact Mem.store_of_not_mem (by omega)

theorem same_fill (hn : off + n ≤ 4096) (hne : g ≠ frame) : m.Same (m.fill frame off n src) g := by
  intro k hk
  exact Mem.blit_of_not_mem (by omega)

theorem direct_eq_ok (h : Kaku.direct frame = .ok g) : g = frame ∧ frame < 0x40000 := by
  unfold Kaku.direct at h
  split at h
  · rename_i hlt
    exact ⟨(Except.ok.inj h).symm, hlt⟩
  · cases h

theorem entry_setEntry_self : (m.setEntry frame i v).entry frame i = v % 2 ^ 32 :=
  Mem.load_store_self

theorem entry_setEntry_of_ne (h : i ≠ j) :
    (m.setEntry frame i v).entry frame j = m.entry frame j :=
  Mem.load_store_of_disjoint (by omega)

/-- What a `fill` put into the frame is read back entry by entry. -/
theorem entry_fill (hlo : off ≤ 4 * i) (hhi : 4 * i + 4 ≤ off + n) :
    (m.fill frame off n src).entry frame i = src.load (4 * i - off) 4 := by
  apply Mem.load_eq_of_bytes
  intro k hk
  have hbyte : (m.fill frame off n src).phys (frame * 4096 + 4 * i + k) =
      src (frame * 4096 + 4 * i + k - (frame * 4096 + off)) :=
    Mem.blit_of_mem (by omega) (by omega)
  rw [hbyte]
  congr 1
  omega

theorem entry_fill_of_disjoint (h : 4 * i + 4 ≤ off ∨ off + n ≤ 4 * i) :
    (m.fill frame off n src).entry frame i = m.entry frame i := by
  apply Mem.load_congr
  intro x hlo hhi
  exact Mem.blit_of_not_mem (by omega)

end Memory

section Entries

variable {frame flags : Nat}

theorem pageEntry_eq (h : flags < 4096) : pageEntry frame flags = frame * 4096 + flags := by
  have hshift := Nat.shiftLeft_add_eq_or_of_lt (i := 12) (b := flags) h frame
  rw [Nat.shiftLeft_eq] at hshift
  exact hshift.symm

@[simp] theorem frameOf_pageEntry (h : flags < 4096) : frameOf (pageEntry frame flags) = frame := by
  rw [pageEntry_eq h, frameOf]
  omega

theorem present_pageEntry (h : flags < 4096) :
    present (pageEntry frame flags) = decide (flags % 2 = 1) := by
  rw [pageEntry_eq h, present, show (frame * 4096 + flags) % 2 = flags % 2 by omega]

/-- An entry for a frame below 4 GiB fits its 32 bits. -/
theorem pageEntry_lt (h : flags < 4096) (hframe : frame < 2 ^ 20) :
    pageEntry frame flags % 2 ^ 32 = pageEntry frame flags := by
  rw [pageEntry_eq h]
  apply Nat.mod_eq_of_lt
  omega

end Entries

end Kaku

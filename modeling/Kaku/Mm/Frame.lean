-- SUMMARY: Physical memory and the frame allocator.
import Mathlib.Data.List.Nodup
import Kaku.Fault
import Kaku.Lib.Bitmap

/-!
# `mm/src/frame.c`

Page-aligned physical addresses are named by the number of their frame, so
`fa_alloc` returns `frame_index` here where the source returns
`frame_index * 4096`. The calls of the allocator are recorded, each under the
process it was made for.
-/

namespace Kaku

/-- A call of `fa_alloc`, with the frame it returned, or of `fa_free`. -/
inductive FrameCall
  | alloc (frame : Nat)
  | free (frame : Nat)
  deriving DecidableEq

def FrameCall.frame : FrameCall → Nat
  | alloc frame => frame
  | free frame => frame

/-- Physical memory, and the variables of the routines that manage it. -/
structure Memory where
  faBitmap : Mem
  faBitmapSize : Nat
  phys : Mem
  /-- The frame behind `kernel_pd`. -/
  kernelPd : Nat
  /-- The process the kernel is working for (a history variable). -/
  client : Nat
  /-- Every call of the allocator so far, the latest first (a history variable). -/
  calls : List (Nat × FrameCall)

namespace Memory

/-- Whether a frame's bit is set. -/
def used (m : Memory) (frame : Nat) : Bool := m.faBitmap.bit frame

def faAlloc (m : Memory) : K (Memory × Nat) :=
  match m.faBitmap.firstClear 0 m.faBitmapSize with
  | some frame =>
    .ok ({ m with
      faBitmap := m.faBitmap.setBit frame
      calls := (m.client, .alloc frame) :: m.calls }, frame)
  | none => .error (.panic "could not allocate for frame allocator: no free frame available!")

/-- Nothing checks that the bit is one of the bitmap's. -/
def faFree (m : Memory) (frame : Nat) : K Memory :=
  if frame / 8 < m.faBitmapSize then
    .ok { m with
      faBitmap := m.faBitmap.clearBit frame
      calls := (m.client, .free frame) :: m.calls }
  else .error .wild

/-- `fa_free` for each frame of a list, in order. -/
def freeAll (m : Memory) : List Nat → K Memory
  | [] => .ok m
  | frame :: frames => do
    let m ← m.faFree frame
    m.freeAll frames

end Memory

/-- The frames allocated for a process and not yet freed, by the record of calls. -/
def owned : List (Nat × FrameCall) → Nat → List Nat
  | [], _ => []
  | (q, .alloc frame) :: calls, p => if q = p then frame :: owned calls p else owned calls p
  | (q, .free frame) :: calls, p => if q = p then (owned calls p).erase frame else owned calls p

namespace Memory

variable {m m' : Memory} {frame g : Nat} {frames : List Nat}

/-! ## Allocating -/

theorem faAlloc_eq_ok (h : m.faAlloc = .ok (m', frame)) :
    m' = { m with
      faBitmap := m.faBitmap.setBit frame
      calls := (m.client, .alloc frame) :: m.calls } ∧
      frame < 8 * m.faBitmapSize ∧ m.used frame = false := by
  unfold faAlloc at h
  split at h
  · rename_i f hscan
    cases h
    obtain ⟨-, hlt, hclear, -⟩ := Mem.firstClear_eq_some hscan
    exact ⟨rfl, by omega, hclear⟩
  · cases h

/-- The frame `fa_alloc` would return, if there is one. -/
def nextFrame (m : Memory) : Option Nat := m.faBitmap.firstClear 0 m.faBitmapSize

theorem nextFrame_of_faAlloc (h : m.faAlloc = .ok (m', frame)) : m.nextFrame = some frame := by
  unfold faAlloc at h
  split at h
  · rename_i f hscan
    cases h
    exact hscan
  · cases h

/-- Physical addresses have 32 bits. -/
def Addressable (m : Memory) : Prop := m.faBitmapSize ≤ 2 ^ 17

/-- A new frame: nothing but its bit changes. -/
theorem faAlloc_spec (hm : m.Addressable) (h : m.faAlloc = .ok (m', frame)) :
    m.used frame = false ∧ frame < 2 ^ 20 ∧ m'.phys = m.phys ∧ m'.Addressable ∧
      ∀ x, m'.used x = true ↔ m.used x = true ∨ x = frame := by
  obtain ⟨rfl, hlt, hfree⟩ := faAlloc_eq_ok h
  refine ⟨hfree, ?_, rfl, hm, fun x => ?_⟩
  · have := hm
    rw [Addressable] at this
    omega
  · simp only [used, Mem.bit_setBit, Bool.or_eq_true, decide_eq_true_eq]
    exact or_congr_right eq_comm

/-! ## Freeing -/

theorem faFree_eq_ok : m.faFree frame = .ok m' ↔
    frame / 8 < m.faBitmapSize ∧
      { m with
        faBitmap := m.faBitmap.clearBit frame
        calls := (m.client, .free frame) :: m.calls } = m' := by
  unfold faFree
  split
  · rename_i hin
    simp [hin]
  · rename_i hout
    simp [hout]

/-- The frames of a list, as `fa_free` records them. -/
def freed (p : Nat) (frames : List Nat) : List (Nat × FrameCall) :=
  (frames.map fun frame => (p, FrameCall.free frame)).reverse

@[simp] theorem mem_freed {p : Nat} : (p, .free frame) ∈ freed p frames ↔ frame ∈ frames := by
  simp [freed]

/-- Freeing frames of the bitmap always succeeds, and clears their bits and no others. -/
theorem freeAll_spec (h : ∀ frame ∈ frames, frame < 8 * m.faBitmapSize) :
    ∃ bitmap, m.freeAll frames =
      .ok { m with faBitmap := bitmap, calls := freed m.client frames ++ m.calls } ∧
      ∀ g, bitmap.bit g = (m.used g && !decide (g ∈ frames)) := by
  induction frames generalizing m with
  | nil => exact ⟨m.faBitmap, rfl, fun g => by simp [used]⟩
  | cons frame frames ih =>
    have hin : frame / 8 < m.faBitmapSize := by
      have hlt := h frame List.mem_cons_self
      omega
    obtain ⟨bitmap, hrun, hbits⟩ := ih
      (m := { m with
        faBitmap := m.faBitmap.clearBit frame
        calls := (m.client, .free frame) :: m.calls })
      (fun g hg => h g (List.mem_cons_of_mem _ hg))
    refine ⟨bitmap, ?_, fun g => ?_⟩
    · simp only [freeAll, faFree, if_pos hin, ok_bind, hrun, freed, List.map_cons,
        List.reverse_cons, List.append_assoc, List.singleton_append]
    · rw [hbits g, used, used, Mem.bit_clearBit, Bool.and_assoc]
      congr 1
      rcases eq_or_ne frame g with rfl | hne
      · simp
      · simp [hne, hne.symm]

end Memory

/-! ## The record of calls -/

variable {calls : List (Nat × FrameCall)} {p q : Nat} {frames : List Nat}

theorem owned_cons_of_ne {c : FrameCall} (h : q ≠ p) : owned ((q, c) :: calls) p = owned calls p := by
  cases c with
  | alloc frame => rw [owned, if_neg h]
  | free frame => rw [owned, if_neg h]

theorem owned_freed_of_ne (h : q ≠ p) :
    owned (Memory.freed q frames ++ calls) p = owned calls p := by
  induction frames generalizing calls with
  | nil => rfl
  | cons frame frames ih =>
    simp only [Memory.freed, List.map_cons, List.reverse_cons, List.append_assoc,
      List.singleton_append] at ih ⊢
    rw [ih, owned_cons_of_ne h]

theorem owned_freed : owned (Memory.freed p frames ++ calls) p = (owned calls p).diff frames := by
  induction frames generalizing calls with
  | nil => rfl
  | cons frame frames ih =>
    simp only [Memory.freed, List.map_cons, List.reverse_cons, List.append_assoc,
      List.singleton_append] at ih ⊢
    rw [ih, owned, if_pos rfl, List.diff_cons]

end Kaku

-- SUMMARY: Runs of the frame allocator: no frame is lost or handed out twice, and which accesses stay inside the bitmap.
import Kaku.Lib.Run
import Kaku.Mm.Boot

/-!
# Runs of the frame allocator

The callers of `fa_alloc` give back frames with `fa_free`. A frame is live from the
call that returned it to the call that frees it.
-/

namespace Kaku

/-- The frame allocator with its callers. -/
structure FrameUse where
  memory : Memory
  live : List Nat
  /-- All frames that `fa_alloc` has returned. -/
  returned : List Nat

inductive FrameEvent
  | alloc
  | free (frame : Nat)

namespace FrameUse

def step (s : FrameUse) : FrameEvent → K FrameUse
  | .alloc => do
    let (memory, frame) ← s.memory.faAlloc
    pure ⟨memory, frame :: s.live, frame :: s.returned⟩
  | .free frame => do
    let memory ← s.memory.faFree frame
    pure ⟨memory, s.live.erase frame, s.returned⟩

/-- Only live frames are freed. -/
def Allowed (s : FrameUse) : FrameEvent → Prop
  | .alloc => True
  | .free frame => frame ∈ s.live

instance (s : FrameUse) (e : FrameEvent) : Decidable (Allowed s e) := by
  cases e <;> unfold Allowed <;> infer_instance

/-- Every frame is free, live, or reserved from the start, and only one of them. -/
structure Inv (m : Memory) (s : FrameUse) : Prop where
  size : s.memory.faBitmapSize = m.faBitmapSize
  nodup : s.live.Nodup
  live : ∀ frame ∈ s.live, frame < 8 * m.faBitmapSize ∧ m.used frame = false
  free : ∀ frame, s.memory.used frame = false ↔ m.used frame = false ∧ frame ∉ s.live

variable {m : Memory} {s s' : FrameUse} {e : FrameEvent} {es : List FrameEvent} {frame : Nat}

/-! ## One call -/

/-- A frame that is returned was free, and is the first that was. -/
theorem Inv.alloc (hs : s.Inv m) (h : s.step .alloc = .ok s') :
    s'.Inv m ∧ ∃ frame, s'.live = frame :: s.live ∧ s.memory.used frame = false ∧
      frame < 8 * m.faBitmapSize ∧ ∀ g < frame, s.memory.used g = true := by
  simp only [step, bind_eq_ok, pure_eq_ok] at h
  obtain ⟨⟨memory, frame⟩, halloc, rfl⟩ := h
  obtain ⟨rfl, hlt, hclear⟩ := Memory.faAlloc_eq_ok halloc
  obtain ⟨-, -, -, hbelow⟩ := Mem.firstClear_eq_some (Memory.nextFrame_of_faAlloc halloc)
  obtain ⟨hfree, hnot⟩ := (hs.free frame).1 hclear
  rw [hs.size] at hlt
  refine ⟨⟨hs.size, List.nodup_cons.2 ⟨hnot, hs.nodup⟩, ?_, fun g => ?_⟩,
    frame, rfl, hclear, hlt, fun g hg => hbelow g (Nat.zero_le _) hg⟩
  · intro g hg
    rcases List.mem_cons.1 hg with rfl | hg
    · exact ⟨hlt, hfree⟩
    · exact hs.live g hg
  · have hold := hs.free g
    simp only [Memory.used] at hold ⊢
    rw [Mem.bit_setBit, Bool.or_eq_false_iff, hold, List.mem_cons, not_or, decide_eq_false_iff_not,
      and_assoc]
    refine and_congr_right fun _ => ?_
    rw [and_comm]
    exact and_congr_left fun _ => not_congr eq_comm

/-- Without a frame to return, all frames that were free at the start are live. -/
theorem Inv.panics (hs : s.Inv m) {msg : Fault} (h : s.step .alloc = .error msg) :
    ∀ frame < 8 * m.faBitmapSize, m.used frame = false → frame ∈ s.live := by
  intro frame hlt hfree
  by_contra hnot
  have hclear := (hs.free frame).2 ⟨hfree, hnot⟩
  rw [← hs.size] at hlt
  obtain ⟨t, ht⟩ := Mem.exists_firstClear (i := 0) (n := s.memory.faBitmapSize) (Nat.zero_le _)
    (by omega) hclear
  rw [step, Memory.faAlloc, ht] at h
  cases h

theorem Inv.release (hs : s.Inv m) (hlive : frame ∈ s.live) :
    ∃ s', s.step (.free frame) = .ok s' ∧ s'.Inv m := by
  obtain ⟨hlt, hfree⟩ := hs.live frame hlive
  have hbyte : frame / 8 < s.memory.faBitmapSize := by
    rw [hs.size]
    omega
  obtain ⟨memory, hrun, hbitmap, hsize⟩ : ∃ memory, s.memory.faFree frame = .ok memory ∧
      memory.faBitmap = s.memory.faBitmap.clearBit frame ∧
        memory.faBitmapSize = s.memory.faBitmapSize := ⟨_, if_pos hbyte, rfl, rfl⟩
  refine ⟨⟨memory, s.live.erase frame, s.returned⟩, by rw [step, hrun]; rfl,
    ⟨hsize.trans hs.size, hs.nodup.erase frame, ?_, ?_⟩⟩
  · exact fun g hg => hs.live g (List.mem_of_mem_erase hg)
  · intro g
    have hold := hs.free g
    simp only [Memory.used] at hold hfree ⊢
    rw [hbitmap, Mem.bit_clearBit, hs.nodup.mem_erase_iff]
    rcases eq_or_ne frame g with rfl | hne
    · simpa using hfree
    · simp [hne, hne.symm, hold]

theorem Inv.step (hs : s.Inv m) (hC : Allowed s e) (h : s.step e = .ok s') : s'.Inv m := by
  cases e with
  | alloc => exact (hs.alloc h).1
  | free frame =>
    obtain ⟨t, hrun, ht⟩ := hs.release hC
    rw [h, Except.ok.injEq] at hrun
    subst hrun
    exact ht

/-! ## Runs -/

/-- The frames that are free and those that are live make up the frames that were free at
the start, without overlap. `fa_alloc` returns the first free frame, and there is one
unless all are live. -/
theorem frames_conserved (hm : m.Addressable)
    (hrun : Run (Guarded Allowed FrameUse.step) ⟨m, [], []⟩ es s) :
    s.live.Nodup ∧ (∀ frame ∈ s.live, s.memory.used frame = true) ∧
      (∀ frame < 8 * m.faBitmapSize,
        m.used frame = false ↔ s.memory.used frame = false ∨ frame ∈ s.live) ∧
      (∀ s', s.step .alloc = .ok s' → ∃ frame, s'.live = frame :: s.live ∧ frame ∉ s.live ∧
        m.used frame = false ∧ frame < 2 ^ 20 ∧ s.memory.used frame = false ∧
        ∀ g < frame, s.memory.used g = true) ∧
      ((∃ s', s.step .alloc = .ok s') ∨
        s.step .alloc = .error (.panic
          "could not allocate for frame allocator: no free frame available!") ∧
        ∀ frame < 8 * m.faBitmapSize, m.used frame = false → frame ∈ s.live) ∧
      ∀ frame ∈ s.live, ∃ s', s.step (.free frame) = .ok s' := by
  have hinv : s.Inv m := by
    refine hrun.invariant (fun t e u h ht => ht.step h.1 h.2) ⟨rfl, .nil, by simp, by simp⟩
  refine ⟨hinv.nodup, fun frame hlive => ?_, fun frame hlt => ?_, fun s' h => ?_, ?_,
    fun frame hlive => ?_⟩
  · by_contra hclear
    rw [Bool.not_eq_true] at hclear
    exact ((hinv.free frame).1 hclear).2 hlive
  · rw [hinv.free frame]
    constructor
    · intro hfree
      rcases Classical.em (frame ∈ s.live) with hlive | hnot
      · exact .inr hlive
      · exact .inl ⟨hfree, hnot⟩
    · rintro (⟨hfree, -⟩ | hlive)
      · exact hfree
      · exact (hinv.live frame hlive).2
  · obtain ⟨-, frame, hlist, hclear, hlt, hbelow⟩ := hinv.alloc h
    obtain ⟨hfree, hnot⟩ := (hinv.free frame).1 hclear
    have hsize : m.faBitmapSize ≤ 2 ^ 17 := hm
    exact ⟨frame, hlist, hnot, hfree, by omega, hclear, hbelow⟩
  · cases halloc : s.step .alloc with
    | ok s' => exact .inl ⟨s', rfl⟩
    | error msg =>
      have hall := hinv.panics halloc
      rw [step, Memory.faAlloc] at halloc
      split at halloc
      · cases halloc
      · cases halloc
        exact .inr ⟨rfl, hall⟩
  · obtain ⟨s', hs', -⟩ := hinv.release hlive
    exact ⟨s', hs'⟩

/-- Eight frames, of which the first two and the last two are reserved. -/
def eightFrames : Memory where
  faBitmap i := if i = 0 then 0xC3 else 255
  faBitmapSize := 1
  phys := fun _ => 0
  kernelPd := 0
  client := 0
  calls := []

/-- A frame that is freed is the next one to be returned. -/
theorem frames_conserved_reused :
    ∃ s, Run (Guarded Allowed FrameUse.step) ⟨eightFrames, [], []⟩
        [.alloc, .alloc, .free 2, .alloc] s ∧ s.live = [2, 3] ∧ s.live.Nodup := by
  have hexec : (execAll Allowed FrameUse.step ⟨eightFrames, [], []⟩
      [.alloc, .alloc, .free 2, .alloc]).any (fun s => decide (s.live = [2, 3])) = true := by
    decide
  obtain ⟨s, hrun, hp⟩ := exists_run_of_execAll hexec
  exact ⟨s, hrun, of_decide_eq_true hp, (frames_conserved (m := eightFrames)
    (show 1 ≤ 2 ^ 17 by decide) hrun).1⟩

end FrameUse

/-! ## Accesses of the bitmap -/

/-- The second loop of `fa_init`, where each access is checked against the size. -/
def clearChecked (faBitmapSize : Nat) : List Nat → Mem → K Mem
  | [], faBitmap => .ok faBitmap
  | i :: frames, faBitmap =>
    if i / 8 < faBitmapSize then clearChecked faBitmapSize frames (faBitmap.clearBit i)
    else .error .wild

/-- `fa_init`, where an access behind the bitmap is an error. -/
def faInitChecked (kernelPhysEnd heapSize : Nat) (entries : List BiosEntry) (mem : Mem) :
    K (Mem × Nat) := do
  let faBitmapSize := faInitAllocBitmap entries
  let faBitmap := mem.blit 0 faBitmapSize fun _ => 0xFF
  let frameIndexStart := addr32 (kernelPhysEnd + heapSize) / 4096
  let frameIndexEnd := (mmapGetUsableEntry entries).endAddr / 4096
  let faBitmap ← clearChecked faBitmapSize
    (List.range' frameIndexStart (frameIndexEnd - frameIndexStart)) faBitmap
  pure (faBitmap, faBitmapSize)

namespace Memory

def faInitChecked (m : Memory) (kernelPhysEnd : Nat) (entries : List BiosEntry) : K Memory := do
  let heap := kheapInit kernelPhysEnd (mmapGetUsableEntry entries).toMmapEntry fun _ => 0
  let (faBitmap, faBitmapSize) ←
    Kaku.faInitChecked kernelPhysEnd heap.heapSize entries m.faBitmap
  pure { m with
    faBitmap := faBitmap
    faBitmapSize := faBitmapSize }

/-- `fa_alloc`, where an access behind the bitmap is an error. The scan itself ends with the
bitmap. -/
def faAllocChecked (m : Memory) : K (Memory × Nat) := do
  let (m', frame) ← m.faAlloc
  if frame / 8 < m.faBitmapSize then pure (m', frame) else .error .wild

end Memory

namespace FrameUse

/-- Frames that `fa_alloc` has returned may be freed at any time. -/
def Returned (s : FrameUse) : FrameEvent → Prop
  | .alloc => True
  | .free frame => frame ∈ s.returned

end FrameUse

variable {l : List Nat} {size : Nat} {bitmap mem : Mem} {kernelPhysEnd heapSize : Nat}
  {entries : List BiosEntry}

theorem clearChecked_eq_ok {bitmap' : Mem} : clearChecked size l bitmap = .ok bitmap' ↔
    (∀ i ∈ l, i / 8 < size) ∧ l.foldl Mem.clearBit bitmap = bitmap' := by
  induction l generalizing bitmap with
  | nil => simp [clearChecked]
  | cons i l ih =>
    rw [clearChecked, List.foldl_cons, List.forall_mem_cons]
    split
    · rename_i hin
      rw [ih]
      simp [hin]
    · rename_i hout
      simp [hout]

/-- `fa_init` stays inside if the last frame that it frees has its bit in the bitmap. -/
theorem faInitChecked_eq_ok {r : Mem × Nat} :
    faInitChecked kernelPhysEnd heapSize entries mem = .ok r ↔
      ((mmapGetUsableEntry entries).endAddr / 4096 ≤ addr32 (kernelPhysEnd + heapSize) / 4096 ∨
        (mmapGetUsableEntry entries).endAddr / 4096 ≤ 8 * faInitAllocBitmap entries) ∧
        faInit kernelPhysEnd heapSize entries mem = r := by
  simp only [faInitChecked, faInit, bind_eq_ok, pure_eq_ok, clearChecked_eq_ok, List.mem_range'_1]
  generalize addr32 (kernelPhysEnd + heapSize) / 4096 = first
  generalize (mmapGetUsableEntry entries).endAddr / 4096 = last
  constructor
  · rintro ⟨bitmap, ⟨hin, rfl⟩, rfl⟩
    refine ⟨?_, rfl⟩
    have hlast := hin (last - 1)
    omega
  · rintro ⟨hin, rfl⟩
    exact ⟨_, ⟨fun i hi => by omega, rfl⟩, rfl⟩

/-- The bitmap has bits for as many frames as the highest region reaches, in whole bytes. -/
theorem le_faInitAllocBitmap {n : Nat} (hn : 0 < n) : n ≤ 8 * faInitAllocBitmap entries ↔
    ∃ e ∈ entries, n ≤ 8 * (e.endAddr / 32768) := by
  rw [faInitAllocBitmap]
  constructor
  · intro hle
    rcases foldl_max_mem entries ((entries.map fun e => e.endAddr).headD 0) with hfirst | ⟨e, he, heq⟩
    · cases entries with
      | nil =>
        simp at hle
        omega
      | cons e entries =>
        rw [hfirst, List.map_cons, List.headD_cons] at hle
        exact ⟨e, List.mem_cons_self, by omega⟩
    · rw [heq] at hle
      exact ⟨e, he, by omega⟩
  · rintro ⟨e, he, hle⟩
    have hmax := (le_foldl_max entries ((entries.map fun e => e.endAddr).headD 0)).2 e he
    omega

namespace Memory

variable {m m' : Memory}

theorem faInitChecked_returns : (∃ m', m.faInitChecked kernelPhysEnd entries = .ok m') ↔
    lastFrame entries ≤ firstFrame kernelPhysEnd entries ∨
      lastFrame entries ≤ 8 * faInitAllocBitmap entries := by
  simp only [faInitChecked, bind_eq_ok, faInitChecked_eq_ok, pure_eq_ok]
  constructor
  · rintro ⟨m', r, ⟨hin, -⟩, -⟩
    exact hin
  · intro hin
    exact ⟨_, _, ⟨hin, rfl⟩, rfl⟩

theorem faAllocChecked_ne_wild : m.faAllocChecked ≠ .error .wild := by
  rw [faAllocChecked]
  cases halloc : m.faAlloc with
  | error e =>
    rw [faAlloc] at halloc
    split at halloc
    · cases halloc
    · cases halloc
      exact fun h => by cases h
  | ok r =>
    obtain ⟨m', frame⟩ := r
    obtain ⟨-, hlt, -⟩ := faAlloc_eq_ok halloc
    rw [ok_bind]
    simp only
    rw [if_pos (by omega)]
    exact fun h => by cases h

end Memory

namespace FrameUse

variable {m : Memory} {s s' : FrameUse} {e : FrameEvent} {es : List FrameEvent}

/-- Frames that have been returned have their bits in the bitmap. -/
def Covered (m : Memory) (s : FrameUse) : Prop :=
  s.memory.faBitmapSize = m.faBitmapSize ∧ ∀ frame ∈ s.returned, frame / 8 < m.faBitmapSize

theorem Covered.step (hs : s.Covered m) (h : s.step e = .ok s') : s'.Covered m := by
  obtain ⟨hsize, hall⟩ := hs
  cases e with
  | alloc =>
    simp only [FrameUse.step, bind_eq_ok, pure_eq_ok] at h
    obtain ⟨⟨memory, frame⟩, halloc, rfl⟩ := h
    obtain ⟨rfl, hlt, -⟩ := Memory.faAlloc_eq_ok halloc
    refine ⟨hsize, fun g hg => ?_⟩
    rcases List.mem_cons.1 hg with rfl | hg
    · omega
    · exact hall g hg
  | free frame =>
    simp only [FrameUse.step, bind_eq_ok, pure_eq_ok] at h
    obtain ⟨memory, hfree, rfl⟩ := h
    obtain ⟨-, rfl⟩ := Memory.faFree_eq_ok.1 hfree
    exact ⟨hsize, hall⟩

end FrameUse

/-- `fa_init`, and `fa_alloc` and `fa_free` ever after, stay inside the bitmap exactly where
`fa_init` frees nothing or where some region reaches up to the eighth frame of the byte
that has the last frame. -/
theorem frame_bitmap_covers (m : Memory) (kernelPhysEnd : Nat) (entries : List BiosEntry) :
    ((∃ m', m.faInitChecked kernelPhysEnd entries = .ok m') ∧
      ∀ es s, Run (Guarded FrameUse.Returned FrameUse.step)
        ⟨m.faInit kernelPhysEnd entries, [], []⟩ es s →
        s.memory.faAllocChecked ≠ .error .wild ∧
          ∀ frame ∈ s.returned, s.memory.faFree frame ≠ .error .wild) ↔
      Memory.lastFrame entries ≤ Memory.firstFrame kernelPhysEnd entries ∨
        ∃ e ∈ entries, Memory.lastFrame entries ≤ 8 * (e.endAddr / 32768) := by
  have hruns (es : List FrameEvent) (s : FrameUse) (hrun : Run (Guarded FrameUse.Returned
      FrameUse.step) ⟨m.faInit kernelPhysEnd entries, [], []⟩ es s) :
      s.memory.faAllocChecked ≠ .error .wild ∧
        ∀ frame ∈ s.returned, s.memory.faFree frame ≠ .error .wild := by
    have hcovered : s.Covered (m.faInit kernelPhysEnd entries) :=
      hrun.invariant (fun t e u h ht => ht.step h.2) ⟨rfl, by simp⟩
    refine ⟨Memory.faAllocChecked_ne_wild, fun frame hframe => ?_⟩
    have hin := hcovered.2 frame hframe
    rw [← hcovered.1] at hin
    rw [Memory.faFree, if_pos hin]
    exact fun h => by cases h
  rw [and_iff_left hruns, Memory.faInitChecked_returns]
  rcases Nat.eq_zero_or_pos (Memory.lastFrame entries) with hzero | hpos
  · simp [hzero]
  · rw [le_faInitAllocBitmap hpos]

/-- The usable region ends in the middle of a byte of the bitmap, and no region ends behind
it. -/
theorem frame_bitmap_overrun :
    ¬ ∃ m', FrameUse.eightFrames.faInitChecked 0x33f30 [⟨⟨0x100000, 0x7ee1000⟩, 1⟩] = .ok m' := by
  rw [Memory.faInitChecked_returns]
  decide

end Kaku

-- SUMMARY: How many bytes an allocation of a user program really has, and for which requests they suffice.
import Kaku.User.Break

/-!
# The size of user allocations

The header of a block tells `free` and `realloc` how large the block is. A block of its own
has no more memory than `SYS_MMAP` has mapped for it. A request is met where neither the
header of 16 bytes nor the rounding to pages takes its size over 2^32.
-/

namespace Kaku

namespace UHeap

variable {os : Os} {h h' : UHeap} {p b n size ptr x : Nat} {c : Call} {live : List Alloc}

/-- How many bytes there are from a pointer on: what the header says, and for a block of
its own no more than the region that `SYS_MMAP` has made. -/
def usable (h : UHeap) (p : Nat) : Nat :=
  let b := sub32 p memHeader
  let room :=
    if h.flags b &&& memMmap ≠ 0 then min (h.size b) (addr32 (mmapPageCount (h.size b) * 4096))
    else h.size b
  room - memHeader

theorem usable_lt : h.usable p < 2 ^ 32 := by
  have hsize : h.size (sub32 p memHeader) < 2 ^ 32 := size_lt
  simp only [usable]
  split <;> omega

/-- Only the header of a block counts. -/
theorem usable_congr (hp : p = b + memHeader)
    (hsame : ∀ x, b ≤ x → x < b + memHeader → h'.mem x = h.mem x) : h'.usable p = h.usable p := by
  have hblock : sub32 p memHeader = b := by
    rw [hp, sub32_of_le (Nat.le_add_left _ _), Nat.add_sub_cancel]
  rw [memHeader] at hsame
  have hsize : h'.size b = h.size b :=
    Mem.load_congr fun x hlo hhi => hsame x hlo (by omega)
  have hflags : h'.flags b = h.flags b :=
    Mem.load_congr fun x hlo hhi => hsame x (by omega) (by omega)
  simp only [usable, hblock, hsize, hflags]

theorem usable_used (hflags : h.flags b = memUsed) : h.usable (b + memHeader) = h.size b - memHeader := by
  have hbit : ¬ h.flags b &&& memMmap ≠ 0 := by
    rw [hflags]
    decide
  simp only [usable, sub32_of_le (Nat.le_add_left _ _), Nat.add_sub_cancel, if_neg hbit]

theorem usable_mapped (hflags : h.flags b = memMmap) : h.usable (b + memHeader) =
    min (h.size b) (addr32 (mmapPageCount (h.size b) * 4096)) - memHeader := by
  have hbit : h.flags b &&& memMmap ≠ 0 := by
    rw [hflags]
    decide
  simp only [usable, sub32_of_le (Nat.le_add_left _ _), Nat.add_sub_cancel, if_pos hbit]

/-- The arguments of a call are 32 bits wide. -/
def Call.Words : Call → Prop
  | malloc size => size < 2 ^ 32
  | calloc count size => count < 2 ^ 32 ∧ size < 2 ^ 32
  | realloc _ size => size < 2 ^ 32
  | free _ => True
  | write _ _ _ => True

/-! ## Writes that leave a header alone -/

/-- Giving back a block changes nothing outside it. -/
theorem free_outside (hptr : ptr = b + memHeader)
    (hx : x < b ∨ memHeader ≤ h.size b ∧ b + h.size b ≤ x) : (h.free os ptr).mem x = h.mem x := by
  have hblock : sub32 ptr memHeader = b := by
    rw [hptr, sub32_of_le (Nat.le_add_left _ _), Nat.add_sub_cancel]
  have hne : ptr ≠ 0 := by
    rw [hptr, memHeader]
    omega
  have hflags : (h.setFlags b memFree).mem x = h.mem x := by
    rw [memHeader] at hx
    exact Mem.store_of_not_mem (by omega)
  have hnext (n : Nat) : ((h.setFlags b memFree).setNext b n).mem x = h.mem x := by
    rw [memHeader] at hx
    rw [← hflags]
    exact Mem.store_of_not_mem (by omega)
  unfold free
  simp only [if_neg hne, hblock]
  split
  · have hout : x < b ∨ b + h.size b ≤ x := by omega
    change (h.mem.blit b (h.size b) fun k => os.unmapped (b + k)) x = h.mem x
    exact Mem.blit_of_not_mem hout
  · split
    · exact hnext _
    · exact hnext _

end UHeap

namespace Program

open UHeap

variable {s s' : Program} {c : UHeap.Call} {a : Alloc} {h' : UHeap} {p size : Nat} {unmapped : Mem}

/-- A live allocation does not start in the first page, nor wrap around. -/
theorem Inv.bounds (hs : s.Inv) (ha : a ∈ s.live) :
    4096 ≤ a.block ∧ a.block + s.heap.size a.block ≤ 2 ^ 32 ∧ a.ptr = a.block + memHeader := by
  have hmem : a.block ∈ s.live.map Alloc.block := List.mem_map_of_mem ha
  obtain ⟨e, he, hlo, hhi⟩ := hs.heap.spread.inside _ hmem
  have hlow := hs.low e he
  have hroom := hs.heap.spread.room e he
  have hheader := (hs.heap.2 a ha).header
  refine ⟨by omega, by omega, ?_⟩
  rw [Alloc.block]
  omega

/-- A live allocation has the bytes that it was made for. -/
theorem Inv.usable (hs : s.Inv) (ha : a ∈ s.live) : a.bytes.length ≤ s.heap.usable a.ptr := by
  obtain ⟨hlow, hhigh, hptr⟩ := hs.bounds ha
  have hlive := hs.heap.2 a ha
  have hfits := hlive.fits
  rw [hptr]
  rcases hlive.usable with hmapped | ⟨hused, -⟩
  · rw [usable_mapped hmapped]
    have hsize : s.heap.size a.block ≤ largestNeed + memHeader := by
      rw [largestNeed, memHeader]
      omega
    have hpages := le_pages hsize
    have haddr : addr32 (mmapPageCount (s.heap.size a.block) * 4096) =
        mmapPageCount (s.heap.size a.block) * 4096 := Nat.mod_eq_of_lt hpages.2
    rw [haddr, Nat.min_eq_left hpages.1]
    omega
  · rw [usable_used hused]
    omega

/-- A sound call provides what it is to provide. -/
theorem Sound.provides (hs : s.Inv) (hsound : s.Sound c)
    (hrun : s.exec unmapped c = .ok (p, s')) (hp : p ≠ 0) : c.need ≤ s'.heap.usable p := by
  have hs' := hsound.step hs hrun
  obtain ⟨⟨q, h⟩, hexec, hrest⟩ := bind_eq_ok.1 hrun
  cases hrest
  obtain ⟨a, ha, rfl, hlen⟩ := effect_live s.live hexec hp
  rw [← hlen]
  exact hs'.usable ha

/-! ## Requests that are too large -/

/-- A block without any usable byte, apart from the blocks in use. -/
structure Hollow (s : Program) (h' : UHeap) (p b : Nat) : Prop where
  ptr : p = b + memHeader
  usable : h'.usable p = 0
  keeps : UHeap.Keeps s.heap h' (s.live.map Alloc.block)
  apart : ∀ d ∈ s.live.map Alloc.block, d + s.heap.size d ≤ b ∨ b + memHeader ≤ d

/-- No page is mapped for a request whose rounding wraps around. -/
theorem unmapped_hollow (hs : s.Inv) (hfresh : ∀ a ∈ s.heap.mallocAsk size, s.Fresh a)
    (hlarge : largestNeed < size) (hsize : size + memHeader < 2 ^ 32)
    (hrun : s.heap.malloc (s.os unmapped) size = .ok (p, h')) (hp : p ≠ 0) :
    ∃ b, Hollow s h' p b := by
  have hsize' := hsize
  rw [largestNeed] at hlarge
  rw [memHeader] at hsize
  have hrequest : (if size = 0 then 1 else size) = size := if_neg (by omega)
  have htotal : addr32 (size + memHeader) = size + memHeader := Nat.mod_eq_of_lt hsize'
  have hmapped : memMmapThreshold ≤ size + memHeader := by
    rw [memMmapThreshold]
    omega
  -- the sum with 0xFFF wraps around, and no page is left of it
  have hpages : mmapPageCount (size + memHeader) = 0 := by
    simp only [mmapPageCount, addr32, memHeader]
    omega
  have hask : s.heap.mallocAsk size = some (.mmap (size + memHeader)) := by
    unfold mallocAsk
    simp only [hrequest, htotal, if_pos hmapped]
  have hpage : FreshAt s.heap.owned s.mmapNext 4096 := (hfresh _ hask).mono (Nat.le_max_left _ _)
  have hfits := hpage.fits
  have hne : s.mmapNext ≠ 0 := hpage.pos.ne'
  unfold malloc at hrun
  simp only [hrequest, htotal, if_pos hmapped, memMmapCall, os, if_neg hne] at hrun
  cases hrun
  have hptr : addr32 (s.mmapNext + memHeader) = s.mmapNext + memHeader := by
    rw [memHeader]
    exact Nat.mod_eq_of_lt (by omega)
  have hapart : ∀ d ∈ s.live.map Alloc.block,
      d + s.heap.size d ≤ s.mmapNext ∨ s.mmapNext + 4096 ≤ d := by
    intro d hd
    obtain ⟨e, he, hlo, hhi⟩ := hs.heap.spread.inside d hd
    have hheader := hs.heap.spread.header d hd
    rw [memHeader] at hheader
    have hout := (hpage.fresh e he).apart (by omega) (Nat.succ_pos 4095)
    simp only at hout
    omega
  refine ⟨s.mmapNext, hptr, ?_, fun d hd x hx => ?_, fun d hd => ?_⟩
  · rw [hptr, usable_mapped (flags_setFlags_self (by decide)), size_setFlags (.inl rfl),
      size_setSize_self hsize', hpages]
    rfl
  · have hd' := hapart d hd
    simp only [Extent.Has, extent] at hx
    refine (Mem.store_of_not_mem ?_).trans (Mem.store_of_not_mem ?_) <;> omega
  · have hd' := hapart d hd
    rw [memHeader]
    omega

/-- A request that wraps around with its header gets a block of the smallest class. -/
theorem wrapped_hollow (hs : s.Inv) (hfresh : ∀ a ∈ s.heap.mallocAsk size, s.Fresh a)
    (hlarge : 2 ^ 32 ≤ size + memHeader) (hsize : size < 2 ^ 32)
    (hrun : s.heap.malloc (s.os unmapped) size = .ok (p, h')) (hp : p ≠ 0) :
    ∃ b, Hollow s h' p b := by
  rw [memHeader] at hlarge
  have hrequest : (if size = 0 then 1 else size) = size := if_neg (by omega)
  have htotal : addr32 (size + memHeader) ≤ memAlign := by
    rw [addr32, memHeader, memAlign]
    omega
  have hmapped : ¬ memMmapThreshold ≤ addr32 (size + memHeader) := by
    rw [memMmapThreshold]
    rw [memAlign] at htotal
    omega
  -- the sum with the header is at most 15, which is class 0
  have hindex : memClassIndex (addr32 (size + memHeader)) = some 0 := if_pos htotal
  have hask : s.heap.mallocAsk size = s.heap.smallAsk 0 := by
    unfold mallocAsk
    simp only [hrequest, if_neg hmapped, hindex]
  have honly : s.heap.malloc (s.os unmapped) size =
      s.heap.malloc (s.only (s.heap.mallocAsk size) unmapped) size :=
    exec_only (c := .malloc size)
  have hos : FreshAnswers (s.only (s.heap.mallocAsk size) unmapped) s.heap.owned := by
    refine only_fresh hfresh (fun n hmmap => ?_) unmapped
    rw [mallocAsk_mmap hmmap, Nat.max_eq_left (by omega)]
    exact htotal.trans (by decide)
  obtain ⟨⟨bins, hshape⟩, -⟩ := hs.heap
  have hblock := memAllocSmall_block hshape hos (.trivial bins) (.trivial _)
    (show 0 < memNumClasses by decide)
  rw [honly] at hrun
  unfold malloc at hrun
  simp only [hrequest, if_neg hmapped, hindex] at hrun
  have hrun' := Except.ok.inj hrun
  rw [hrun'] at hblock
  rcases hblock with ⟨hnull, -⟩ | ⟨b, hb, -, ⟨bins', hs', -⟩, hsize', hflags, hkeeps⟩
  · exact absurd hnull hp
  · simp only at hb hs' hsize' hflags hkeeps
    have hbounds := hs'.spread.bounds (Shape.mem_used List.mem_cons_self)
    have hptr : p = b + memHeader := by
      rw [hb, addr32, memHeader]
      rw [hb, addr32, memHeader] at hp
      rw [hsize', memAlign] at hbounds
      omega
    refine ⟨b, hptr, ?_, hkeeps, fun d hd => ?_⟩
    · rw [hptr, usable_used hflags, hsize']
      rfl
    · have hsame := hkeeps.size hshape.spread_used hd
      have hne : b ≠ d := by
        rintro rfl
        exact (List.nodup_cons.1 hs'.spread_used.nodup).1 hd
      have hout := hs'.spread_used.apart List.mem_cons_self (List.mem_cons_of_mem b hd) hne
      rw [hsame, hsize', memAlign] at hout
      rw [memHeader]
      omega

theorem malloc_hollow (hs : s.Inv) (hfresh : ∀ a ∈ s.heap.mallocAsk size, s.Fresh a)
    (hlarge : largestNeed < size) (hsize : size < 2 ^ 32)
    (hrun : s.heap.malloc (s.os unmapped) size = .ok (p, h')) (hp : p ≠ 0) :
    ∃ b, Hollow s h' p b := by
  rcases Nat.lt_or_ge (size + memHeader) (2 ^ 32) with hfits | hwraps
  · exact unmapped_hollow hs hfresh hlarge hfits hrun hp
  · exact wrapped_hollow hs hfresh hwraps hsize hrun hp

/-- What leaves the header of the block alone leaves it without usable bytes. -/
theorem Hollow.keep {h'' : UHeap} {b : Nat} (hhollow : Hollow s h' p b)
    (hsame : ∀ x, b ≤ x → x < b + memHeader → h''.mem x = h'.mem x) : h''.usable p = 0 :=
  (usable_congr hhollow.ptr hsame).trans hhollow.usable

theorem malloc_short (hs : s.Inv) (hfresh : ∀ a ∈ s.heap.mallocAsk size, s.Fresh a)
    (hlarge : largestNeed < size) (hsize : size < 2 ^ 32)
    (hrun : s.heap.malloc (s.os unmapped) size = .ok (p, h')) (hp : p ≠ 0) :
    h'.usable p < size := by
  obtain ⟨b, hhollow⟩ := malloc_hollow hs hfresh hlarge hsize hrun hp
  rw [hhollow.usable]
  omega

theorem calloc_short {count : Nat} (hs : s.Inv)
    (hfresh : ∀ a ∈ s.heap.mallocAsk (addr32 (count * size)), s.Fresh a)
    (hlarge : largestNeed < count * size)
    (hrun : s.heap.calloc (s.os unmapped) count size = .ok (p, h')) (hp : p ≠ 0) :
    h'.usable p < count * size := by
  rcases Nat.lt_or_ge (count * size) (2 ^ 32) with hword | hwraps
  · have hbytes : addr32 (count * size) = count * size := Nat.mod_eq_of_lt hword
    rw [hbytes] at hfresh
    obtain ⟨h₁, hmalloc, hrest⟩ := calloc_eq_ok hrun
    rw [hbytes] at hmalloc hrest
    rcases hrest with ⟨hnull, -⟩ | ⟨-, rfl⟩
    · exact absurd hnull hp
    · obtain ⟨b, hhollow⟩ := malloc_hollow hs hfresh hlarge hword hmalloc hp
      -- the zeros are behind the header
      have hptr := hhollow.ptr
      have hkeep : UHeap.usable { h₁ with mem := h₁.mem.blit p (count * size) fun _ => 0 } p = 0 :=
        hhollow.keep fun x _ hhi => by
          change (h₁.mem.blit p (count * size) fun _ => 0) x = h₁.mem x
          exact Mem.blit_of_not_mem (.inl (by omega))
      rw [hkeep]
      omega
  · have hlt : h'.usable p < 2 ^ 32 := usable_lt
    omega

/-- Neither the copied bytes nor the block that is given back touch the header. -/
theorem realloc_short {ptr : Nat} (hs : s.Inv) (hknown : (UHeap.Call.realloc ptr size).Known s.live)
    (hfresh : ∀ a ∈ (UHeap.Call.realloc ptr size).ask s.heap, s.Fresh a)
    (hlarge : largestNeed < size) (hsize : size < 2 ^ 32)
    (hrun : s.heap.realloc (s.os unmapped) ptr size = .ok (p, h')) (hp : p ≠ 0) :
    h'.usable p < size := by
  cases realloc_eq_ok hrun with
  | fresh hnull hmalloc =>
    simp only [UHeap.Call.ask, if_pos hnull] at hfresh
    exact malloc_short hs hfresh hlarge hsize hmalloc hp
  | freed hne hzero => exact absurd rfl hp
  | kept hne hpos hroom =>
    obtain ⟨a, ha, rfl⟩ := hknown.resolve_left hne
    obtain ⟨hlow, hhigh, hptr⟩ := hs.bounds ha
    -- no live block is as large as the request, so this way is not taken
    have hfits := (hs.heap.2 a ha).fits
    rw [hptr, sub32_of_le (Nat.le_add_left _ _), Nat.add_sub_cancel, sub32_of_le (by omega)] at hroom
    rw [largestNeed] at hlarge
    rw [memHeader] at hroom
    omega
  | failed hne hpos hroom hmalloc => exact absurd rfl hp
  | @moved p h₁ hne hpos hroom hmalloc hp' =>
    simp only [UHeap.Call.ask, if_neg hne, if_neg hpos, if_neg hroom] at hfresh
    obtain ⟨a, ha, rfl⟩ := hknown.resolve_left hne
    obtain ⟨-, -, hptr⟩ := hs.bounds ha
    have hmem : a.block ∈ s.live.map Alloc.block := List.mem_map_of_mem ha
    have hheader := hs.heap.spread.header _ hmem
    obtain ⟨b, hhollow⟩ := malloc_hollow hs hfresh hlarge hsize hmalloc hp
    have hbptr := hhollow.ptr
    have hold := hhollow.keeps.size hs.heap.spread hmem
    generalize sub32 (s.heap.size (sub32 a.ptr memHeader)) memHeader = n
    have hbelow : ∀ x < p, copyBytes p a.ptr n h₁.mem x = h₁.mem x :=
      fun x hx => copyBytes_outside (.inl hx)
    generalize copyBytes p a.ptr n h₁.mem = m at hbelow
    rw [hhollow.keep fun x hlo hhi => ?_]
    · omega
    · refine (free_outside hptr ?_).trans (hbelow x (by omega))
      rcases hhollow.apart _ hmem with hbefore | hbehind
      · -- the old block lies before the new one, and so does its header
        right
        have hkept : ({ h₁ with mem := m } : UHeap).size a.block = s.heap.size a.block := by
          rw [← hold]
          rw [memHeader] at hheader
          exact Mem.load_congr fun y _ hy => hbelow y (by omega)
        rw [hkept]
        omega
      · left
        omega

/-! ## Which requests are met -/

/-- In every program that has made sound calls, and for every call with 32-bit arguments that
returns an allocation: the allocation is as large as the call says if and only if no more
than `largestNeed` bytes are called for. -/
theorem large_enough_iff {s₀ : Program} {cs : List UHeap.Call} (hstart : s₀.Start)
    (hsteps : Kaku.Run Step s₀ cs s) (hwords : c.Words) (hknown : c.Known s.live)
    (hfresh : ∀ a ∈ c.ask s.heap, s.Fresh a) (hrun : s.exec unmapped c = .ok (p, s'))
    (hp : p ≠ 0) : c.need ≤ s'.heap.usable p ↔ c.need ≤ largestNeed := by
  have hs : s.Inv := hstart.inv.run hsteps
  refine ⟨fun hprovides => ?_, fun hneed => Sound.provides hs ⟨hknown, hneed, hfresh⟩ hrun hp⟩
  obtain ⟨⟨q, h⟩, hexec, hrest⟩ := bind_eq_ok.1 hrun
  cases hrest
  by_contra hlarge
  have hlarge' := Nat.lt_of_not_le hlarge
  refine absurd hprovides (Nat.not_le_of_lt ?_)
  cases c with
  | malloc size => exact malloc_short hs hfresh hlarge' hwords hexec hp
  | calloc count size => exact calloc_short hs hfresh hlarge' hexec hp
  | realloc ptr size => exact realloc_short hs hknown hfresh hlarge' hwords hexec hp
  | free ptr =>
    cases hexec
    exact absurd rfl hp
  | write ptr off bytes =>
    cases hexec
    exact absurd rfl hp

theorem large_enough_iff_malloc :
    ∃ s, fresh.exec (fun _ => 0) (.malloc 3) = .ok (0x80F0, s) ∧
      (3 ≤ s.heap.usable 0x80F0 ↔ 3 ≤ largestNeed) := by
  refine ⟨_, rfl, ?_⟩
  refine large_enough_iff (c := .malloc 3) fresh_start (.refl fresh) (show 3 < 2 ^ 32 by decide) True.intro
    (fun a ha => ?_) rfl (by decide)
  cases ha
  exact ⟨by decide, by decide, by simp [fresh, emptyHeap]⟩

/-- For 2^32 - 16 bytes there is a block of 16 bytes, which is all header. -/
theorem wrapped_malloc :
    ∃ s, fresh.exec (fun _ => 0) (.malloc 0xFFFFFFF0) = .ok (0x8080, s) ∧
      ¬ 0xFFFFFFF0 ≤ s.heap.usable 0x8080 := by
  refine ⟨_, rfl, ?_⟩
  decide

end Program

end Kaku

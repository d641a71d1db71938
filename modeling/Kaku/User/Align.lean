-- SUMMARY: The alignment of user allocations over whole runs, and the requests that break it.
import Kaku.User.Break

/-!
# The alignment of user allocations

A block is aligned where the memory it was made of is: a chunk of small blocks starts at the
break, a large block at the break, and a block of its own at `mmap_next`. The break itself
stays aligned as long as it moves by multiples of the alignment.
-/

namespace Kaku

namespace UHeap

variable {P : Nat → Prop} {os : Os} {h h' : UHeap} {used used' : List Nat} {live : List Alloc}
  {a : Alloc} {b n p ptr off size total : Nat} {bytes : List UInt8} {m : Mem}

/-! ## Blocks with a property -/

/-- All blocks, those on the lists and those in use, have a property. -/
def Level (P : Nat → Prop) (h : UHeap) (used : List Nat) : Prop :=
  (∃ bins, h.Shape bins used ∧ Lists P bins) ∧ ∀ b ∈ used, P b

theorem Level.perm (hlevel : h.Level P used) (hp : used.Perm used') : h.Level P used' := by
  obtain ⟨⟨bins, hs, hP⟩, hused⟩ := hlevel
  exact ⟨⟨bins, hs.perm hp, hP⟩, fun b hb => hused b (hp.mem_iff.2 hb)⟩

/-- A fresh allocation joins the blocks in use. -/
theorem Level.give (hlevel : h.Level P (live.map Alloc.block))
    (hdeals : h.Deals P (live.map Alloc.block) total (p, h')) (bytes : List UInt8) :
    h'.Level P ((give p bytes live).map Alloc.block) := by
  rcases hdeals with ⟨hnull, hs, -⟩ | ⟨b, hb, hPb, hs, -⟩
  · rw [UHeap.give, if_pos hnull]
    exact ⟨hs, hlevel.2⟩
  · simp only at hb hs
    have hp : p ≠ 0 := by
      rw [hb, memHeader]
      omega
    have hblock : (⟨p, bytes⟩ : Alloc).block = b := by
      simp only [Alloc.block, hb, Nat.add_sub_cancel]
    rw [UHeap.give, if_neg hp, List.map_cons, hblock]
    exact ⟨hs, List.forall_mem_cons.2 ⟨hPb, hlevel.2⟩⟩

theorem Level.free (os : Os) (hlevel : h.Level P ((a :: live).map Alloc.block)) (ha : h.Live a) :
    (h.free os a.ptr).Level P (live.map Alloc.block) := by
  obtain ⟨⟨bins, hs, hP⟩, hused⟩ := hlevel
  rw [List.map_cons] at hs hused
  have hptr : a.ptr = a.block + memHeader := by
    rw [Alloc.block, Nat.sub_add_cancel ha.header]
  rw [hptr]
  exact ⟨(free_spec os hs hP (hused _ List.mem_cons_self) ha.usable).1,
    fun b hb => hused b (List.mem_cons_of_mem _ hb)⟩

/-! ## Calls -/

variable {c : Call}

theorem malloc_level (hlevel : h.Level P (live.map Alloc.block)) (hos : FreshAnswers os h.owned) (hplaces : Places P os) (hsize : Fits size)
    (hrun : h.malloc os size = .ok (p, h')) :
    h.Deals P (live.map Alloc.block) (max size 1 + memHeader) (p, h') := by
  obtain ⟨⟨bins, hs, hP⟩, -⟩ := hlevel
  obtain ⟨r, hrun', hdeals⟩ := malloc_spec hs hos hP hplaces hsize
  rw [hrun] at hrun'
  cases hrun'
  exact hdeals

theorem calloc_level {count : Nat} (hinv : h.Inv live) (hlevel : h.Level P (live.map Alloc.block))
    (hos : FreshAnswers os h.owned) (hplaces : Places P os) (hsize : Fits (count * size))
    (hrun : h.calloc os count size = .ok (p, h')) :
    h'.Level P ((give p (List.replicate (count * size) 0) live).map Alloc.block) := by
  have hbytes : addr32 (count * size) = count * size := by
    rw [Fits] at hsize
    exact Nat.mod_eq_of_lt (by omega)
  obtain ⟨h₁, hmalloc, hrest⟩ := calloc_eq_ok hrun
  rw [hbytes] at hmalloc hrest
  have hdeals := malloc_level hlevel hos hplaces hsize hmalloc
  rcases hrest with ⟨-, rfl⟩ | ⟨hp, rfl⟩
  · exact hlevel.give hdeals _
  · have hfilled := hdeals.fill hinv.spread hp (m := h₁.mem.blit p (count * size) fun _ => 0)
      fun x hx => Mem.blit_of_not_mem (by omega)
    exact hlevel.give hfilled _

theorem free_level (hinv : h.Inv live) (hlevel : h.Level P (live.map Alloc.block))
    (hptr : ptr = 0 ∨ ∃ a ∈ live, a.ptr = ptr) :
    (h.free os ptr).Level P ((drop ptr live).map Alloc.block) := by
  rcases hptr with rfl | hptr
  · rw [hinv.drop_null, UHeap.free, if_pos rfl]
    exact hlevel
  · obtain ⟨a, rfl, -, hperm⟩ := find_live hptr
    exact (hlevel.perm (hperm.map Alloc.block)).free os
      (hinv.2 a (hperm.mem_iff.2 List.mem_cons_self))

/-- The blocks in use after a reallocation that returns a pointer. -/
theorem realloc_blocks (hcase : ¬ (ptr ≠ 0 ∧ size = 0)) (hp : p ≠ 0) :
    ((Call.realloc ptr size).effect p m live).map Alloc.block =
      (p - memHeader) :: (drop ptr live).map Alloc.block := by
  simp only [Call.effect, if_neg hcase, if_neg hp, List.map_cons, Alloc.block]

/-- A reallocation that returns no pointer, and frees none, leaves the blocks in use. -/
theorem realloc_failed (hcase : ¬ (ptr ≠ 0 ∧ size = 0)) :
    (Call.realloc ptr size).effect 0 m live = live := by
  simp only [Call.effect, if_neg hcase, if_true]

/-- The old allocation is freed once its bytes are in the new one. -/
theorem moved_level {h₁ : UHeap} (hinv : h.Inv (a :: live))
    (hlevel : h.Level P ((a :: live).map Alloc.block))
    (hdeals : h.Deals P ((a :: live).map Alloc.block) (total + memHeader) (p, h₁)) (hp : p ≠ 0)
    (hroom : n ≤ total) :
    (({ h₁ with mem := copyBytes p a.ptr n h₁.mem }).free os a.ptr).Level P
      ((p - memHeader) :: live.map Alloc.block) := by
  have hfilled := hdeals.fill hinv.spread hp (m := copyBytes p a.ptr n h₁.mem) fun x hx =>
    copyBytes_outside (by omega)
  have hjoined := hinv.give [] hfilled.grants (Nat.zero_le _) fun _ => rfl
  have hgiven := hlevel.give hfilled []
  rw [UHeap.give, if_neg hp] at hjoined hgiven
  have hswap := List.Perm.swap a ⟨p, []⟩ live
  exact (hgiven.perm (hswap.map Alloc.block)).free os
    (hjoined.2 a (List.mem_cons_of_mem _ List.mem_cons_self))

theorem realloc_level (hinv : h.Inv live) (hlevel : h.Level P (live.map Alloc.block))
    (hos : FreshAnswers os h.owned) (hplaces : Places P os)
    (hptr : ptr = 0 ∨ ∃ a ∈ live, a.ptr = ptr) (hsize : Fits size)
    (hrun : h.realloc os ptr size = .ok (p, h')) :
    h'.Level P (((Call.realloc ptr size).effect p h'.mem live).map Alloc.block) := by
  cases realloc_eq_ok hrun with
  | fresh hnull hmalloc =>
    subst hnull
    have hcase : ¬ (0 ≠ 0 ∧ size = 0) := fun hno => hno.1 rfl
    have hgiven := hlevel.give (malloc_level hlevel hos hplaces hsize hmalloc) []
    rcases eq_or_ne p 0 with rfl | hp
    · rw [UHeap.give, if_pos rfl] at hgiven
      rw [realloc_failed hcase]
      exact hgiven
    · rw [realloc_blocks hcase hp, hinv.drop_null]
      rw [UHeap.give, if_neg hp, List.map_cons] at hgiven
      exact hgiven
  | freed hne hzero =>
    simp only [Call.effect, if_pos (And.intro hne hzero)]
    exact free_level hinv hlevel hptr
  | kept hne hpos hroom =>
    obtain ⟨a, rfl, -, hperm⟩ := find_live (hptr.resolve_left hne)
    rw [realloc_blocks (fun hno => hpos hno.2) hne]
    exact hlevel.perm (hperm.map Alloc.block)
  | failed hne hpos hroom hmalloc =>
    have hgiven := hlevel.give (malloc_level hlevel hos hplaces hsize hmalloc) []
    rw [UHeap.give, if_pos rfl] at hgiven
    rw [realloc_failed fun hno => hpos hno.2]
    exact hgiven
  | @moved p h₁ hne hpos hroom hmalloc hp =>
    -- for as long as the bytes are copied both blocks are in use
    obtain ⟨a, rfl, -, hperm⟩ := find_live (hptr.resolve_left hne)
    have hinv' := hinv.perm hperm
    have hlevel' := hlevel.perm (hperm.map Alloc.block)
    have hdeals := malloc_level hlevel' hos hplaces hsize hmalloc
    rw [realloc_blocks (fun hno => hpos hno.2) hp]
    exact moved_level hinv' hlevel' hdeals hp (by omega)

theorem write_level (hinv : h.Inv live) (hlevel : h.Level P (live.map Alloc.block))
    (hptr : ∃ a ∈ live, a.ptr = ptr ∧ off + bytes.length ≤ a.bytes.length) :
    ({ h with mem := h.mem.blit (ptr + off) bytes.length fun k => bytes.getD k 0 }).Level P
      (((Call.write ptr off bytes).effect n m live).map Alloc.block) := by
  obtain ⟨a, ha, rfl, hoff⟩ := hptr
  have hlive := hinv.2 a ha
  have hheader := hlive.header
  have hfits := hlive.fits
  have hbase : a.ptr = a.block + memHeader := by rw [Alloc.block, Nat.sub_add_cancel hheader]
  -- a write changes bytes of a block, not where it is
  have hblocks : ((Call.write a.ptr off bytes).effect n m live).map Alloc.block =
      live.map Alloc.block := by
    simp only [Call.effect, List.map_map]
    apply List.map_congr_left
    intro c _
    simp only [Function.comp]
    split <;> rfl
  rw [hblocks]
  obtain ⟨l₁, l₂, hl⟩ := List.append_of_mem (List.mem_map_of_mem (f := Alloc.block) ha)
  have hperm : (live.map Alloc.block).Perm (a.block :: (l₁ ++ l₂)) := by
    rw [hl]
    exact List.perm_middle
  obtain ⟨⟨bins, hs, hP⟩, hused⟩ := hlevel.perm hperm
  obtain ⟨hs', -⟩ := hs.fill
    (m := h.mem.blit (a.ptr + off) bytes.length fun k => bytes.getD k 0) fun x hx =>
      Mem.blit_of_not_mem (by omega)
  have hlevel' : UHeap.Level P
      { h with mem := h.mem.blit (a.ptr + off) bytes.length fun k => bytes.getD k 0 }
      (a.block :: (l₁ ++ l₂)) := ⟨⟨bins, hs', hP⟩, hused⟩
  exact hlevel'.perm hperm.symm

/-- Every allowed call keeps a property that the memory from the kernel has. -/
theorem exec_level (hinv : h.Inv live) (hlevel : h.Level P (live.map Alloc.block))
    (hos : FreshAnswers os h.owned) (hplaces : Places P os) (hallowed : c.Allowed live)
    (hrun : c.exec os h = .ok (p, h')) :
    h'.Level P ((c.effect p h'.mem live).map Alloc.block) := by
  cases c with
  | malloc size => exact hlevel.give (malloc_level hlevel hos hplaces hallowed hrun) _
  | calloc count size => exact calloc_level hinv hlevel hos hplaces hallowed hrun
  | realloc ptr size => exact realloc_level hinv hlevel hos hplaces hallowed.1 hallowed.2 hrun
  | free ptr =>
    cases hrun
    exact free_level hinv hlevel hallowed
  | write ptr off bytes =>
    cases hrun
    exact write_level hinv hlevel hallowed

end UHeap

namespace Program

open UHeap

variable {s s' s₀ : Program} {c : UHeap.Call} {cs : List UHeap.Call} {p n : Nat} {unmapped : Mem}

/-! ## Runs that keep the break aligned -/

/-- If the call moves the break it moves it by a multiple of the alignment. -/
def Level (s : Program) (c : UHeap.Call) : Prop := ∀ n, c.ask s.heap = some (.sbrk n) → memAlign ∣ n

/-- A sound call that keeps the break aligned. -/
def LevelStep (s : Program) (c : UHeap.Call) (s' : Program) : Prop := s.Level c ∧ s.Step c s'

structure Aligned (s : Program) : Prop where
  heap : s.heap.Level (memAlign ∣ ·) (s.live.map Alloc.block)
  programBreak : memAlign ∣ s.programBreak

theorem Start.aligned (hstart : s.Start) : s.Aligned where
  heap := by
    obtain ⟨⟨bins, hs⟩, -⟩ := hstart.inv.heap
    refine ⟨⟨bins, hs, fun k hk b hb => ?_⟩, by simp [hstart.live]⟩
    -- before the first call every list is empty
    have hhead : s.heap.head k = 0 := by
      rw [head]
      split
      · rename_i hsmall
        exact hstart.heap.small k hsmall
      · exact hstart.heap.large
    have hchain := hs.chain k hk
    rw [hhead] at hchain
    rw [hchain.nil_of_zero] at hb
    cases hb
  programBreak := by
    have hbreak := hstart.programBreak
    rw [memAlign]
    omega

theorem Aligned.places (hs : s.Inv) (haligned : s.Aligned) (o : Option Ask) (unmapped : Mem) :
    Places (memAlign ∣ ·) (s.only o unmapped) where
  sbrk := by
    intro n hne j
    simp only [only] at hne ⊢
    split at hne
    · rename_i hask
      rw [if_pos hask]
      exact Nat.dvd_add haligned.programBreak (Nat.dvd_mul_left _ _)
    · exact absurd rfl hne
  mmap := by
    intro n hne
    simp only [only] at hne ⊢
    split at hne
    · rename_i hask
      have hnext := hs.mmapNext
      rw [if_pos hask, memAlign]
      omega
    · exact absurd rfl hne

theorem Aligned.step (hs : s.Inv) (haligned : s.Aligned) (hsound : s.Sound c) (hlevel : s.Level c)
    (hrun : s.exec unmapped c = .ok (p, s')) : s'.Aligned := by
  obtain ⟨⟨q, h⟩, hexec, hrest⟩ := bind_eq_ok.1 hrun
  cases hrest
  rw [exec_only] at hexec
  refine ⟨exec_level hs.heap haligned.heap (hsound.answers unmapped) (haligned.places hs _ unmapped)
    hsound.allowed hexec, ?_⟩
  have hbreak := haligned.programBreak
  cases hask : c.ask s.heap with
  | none => exact hbreak
  | some a =>
    cases a with
    | mmap n => exact hbreak
    | sbrk n =>
      obtain ⟨size, -, hmalloc⟩ := ask_eq hask
      have hn := mallocAsk_sbrk hmalloc
      have hmultiple := hlevel n hask
      rw [memMmapThreshold] at hn
      have hmoved : newBreak s.programBreak n = addr32 (s.programBreak + n) := if_neg (by omega)
      rw [memAlign] at hbreak hmultiple
      simp only [answered, hmoved, addr32, memAlign]
      omega

theorem Aligned.run (hrun : Kaku.Run LevelStep s cs s') (hs : s.Inv) (haligned : s.Aligned) :
    s'.Inv ∧ s'.Aligned :=
  hrun.invariant (I := fun s => s.Inv ∧ s.Aligned)
    (fun _ _ _ ⟨hlevel, hsound, _, _, hexec⟩ ⟨hs, haligned⟩ =>
      ⟨hsound.step hs hexec, haligned.step hs hsound hlevel hexec⟩) ⟨hs, haligned⟩

/-- In every run from a break that is a multiple of 4096, in which each call that moves the
break moves it by a multiple of the alignment, every pointer that is returned is aligned. -/
theorem returns_aligned (hstart : s₀.Start) (hsteps : Kaku.Run LevelStep s₀ cs s)
    (hsound : s.Sound c) (hlevel : s.Level c) (hrun : s.exec unmapped c = .ok (p, s')) :
    memAlign ∣ p := by
  obtain ⟨hs, haligned⟩ := Aligned.run hsteps hstart.inv hstart.aligned
  rcases eq_or_ne p 0 with rfl | hp
  · exact Nat.dvd_zero memAlign
  · have hs' := hsound.step hs hrun
    have haligned' := haligned.step hs hsound hlevel hrun
    obtain ⟨⟨q, h⟩, hexec, hrest⟩ := bind_eq_ok.1 hrun
    cases hrest
    obtain ⟨a, ha, rfl, -⟩ := effect_live s.live hexec hp
    have hblock : memAlign ∣ a.block := haligned'.heap.2 _ (List.mem_map_of_mem ha)
    have hheader := (hs'.heap.2 a ha).header
    rw [Alloc.block, memHeader, memAlign] at hblock
    rw [memHeader] at hheader
    rw [memAlign]
    omega

theorem returns_aligned_three :
    ∃ s, fresh.exec (fun _ => 0) (.malloc 3) = .ok (0x80F0, s) ∧ memAlign ∣ 0x80F0 := by
  obtain ⟨s, hrun⟩ : ∃ s, fresh.exec (fun _ => 0) (.malloc 3) = .ok (0x80F0, s) := ⟨_, rfl⟩
  have hfresh : ∀ a ∈ (UHeap.Call.malloc 3).ask fresh.heap, fresh.Fresh a := by
    intro a ha
    cases ha
    exact ⟨by decide, by decide, by simp [fresh, emptyHeap]⟩
  have hlevel : fresh.Level (.malloc 3) := by
    intro n hn
    cases hn
    decide
  have hsound : fresh.Sound (.malloc 3) := ⟨True.intro, by decide, hfresh⟩
  exact ⟨s, hrun, returns_aligned fresh_start (.refl fresh) hsound hlevel hrun⟩

/-- A large block of 8193 bytes moves the break off the alignment, and the next one is there. -/
theorem second_large_misaligned :
    fresh.Start ∧ ∃ s s', fresh.exec (fun _ => 0) (.malloc 8177) = .ok (0x8010, s) ∧
      s.exec (fun _ => 0) (.malloc 8177) = .ok (0xA011, s') ∧ ¬ memAlign ∣ 0xA011 :=
  ⟨fresh_start, _, _, rfl, rfl, by decide⟩

end Program

end Kaku

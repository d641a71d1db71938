-- SUMMARY: Which free frames the kernel reaches at their direct-map addresses after the memory management has started.
import Kaku.Mm.Boot

/-!
# The direct map

The loop of `paging_kernel_init` gives every frame below the end of memory its address.
Three MiB of these addresses are the window of the framebuffer, which `vesa_init` maps
over them.
-/

namespace Kaku

namespace Memory

variable {m m' m₁ : Memory} {pd paddr vaddr flags limit left t i k q x lo hi fbPhys : Nat}

/-! ## One page -/

/-- An entry for an address that need not be aligned. -/
theorem or_eq_pageEntry : paddr ||| flags = pageEntry (paddr / 4096) (paddr % 4096 ||| flags) := by
  have hparts : pageEntry (paddr / 4096) (paddr % 4096) = _ :=
    pageEntry_eq (Nat.mod_lt paddr (by decide))
  rw [pageEntry] at hparts ⊢
  rw [← Nat.or_assoc, hparts, Nat.div_add_mod']

theorem or_flags_lt (paddr : Nat) (hflags : flags < 4096) : paddr % 4096 ||| flags < 4096 :=
  Nat.or_lt_two_pow (n := 12) (Nat.mod_lt _ (by decide)) hflags

theorem or_flags_odd (hpresent : flags % 2 = 1) : (paddr % 4096 ||| flags) % 2 = 1 := by
  have hbit : (paddr % 4096 ||| flags).testBit 0 = true := by
    rw [Nat.testBit_or, Nat.testBit_zero, Nat.testBit_zero, hpresent]
    simp
  rw [Nat.testBit_zero] at hbit
  exact of_decide_eq_true hbit

/-- What mapping a page does to the page directory and to the bitmap. -/
structure Maps (limit : Nat) (m m' : Memory) (pd paddr vaddr : Nat) : Prop where
  directory : m'.PageDirectory pd
  size : m'.faBitmapSize = m.faBitmapSize
  kernelPd : m'.kernelPd = m.kernelPd
  page : ∃ flags, m'.translate pd (vaddr / 4096) = some (paddr / 4096, flags)
  others : ∀ q < 2 ^ 20, q ≠ vaddr / 4096 → ∀ r, m.translate pd q = some r →
    m'.translate pd q = some r
  entries : ∀ k < 1024, m'.entry pd k = 0 ↔ k ≠ vaddr / 2 ^ 22 ∧ m.entry pd k = 0
  tables : ∀ k < 1024, m.entry pd k ≠ 0 → m'.entry pd k = m.entry pd k
  reach : frameOf (m'.entry pd (vaddr / 2 ^ 22)) < limit
  used : if m.entry pd (vaddr / 2 ^ 22) = 0 then
      ∃ t < limit, m.nextFrame = some t ∧ ∀ x, m'.used x = true ↔ m.used x = true ∨ x = t
    else ∀ x, m'.used x = m.used x

/-- Writing an entry of a table changes neither the directory nor the bitmap. -/
theorem PageDirectory.setEntry {v : Nat} (hd : m.PageDirectory pd) (hne : t ≠ pd) (hk : k < 1024) :
    (m.setEntry t k v).PageDirectory pd := by
  have hsame (j) (hj : j < 1024) : (m.setEntry t k v).entry pd j = m.entry pd j :=
    (same_setEntry hk hne.symm).entry hj
  refine ⟨fun i hi => ?_, fun i hi hset => ?_, fun i hi j hj hset hset' heq => ?_, hd.used,
    fun i hi hset => ?_⟩
  · rw [hsame i hi]
    exact hd.entries i hi
  · rw [hsame i hi] at hset ⊢
    exact hd.tableNe i hi hset
  · rw [hsame i hi] at hset heq
    rw [hsame j hj] at hset' heq
    exact hd.tables i hi j hj hset hset' heq
  · rw [hsame i hi] at hset ⊢
    exact hd.tableUsed i hi hset

theorem directBelow_eq_ok (h : directBelow limit t = .ok k) : k = t ∧ t < limit := by
  unfold directBelow at h
  split at h
  · rename_i hlt
    exact ⟨(Except.ok.inj h).symm, hlt⟩
  · cases h

/-- The second half of `paging_map`, where the directory has a table for the page. -/
theorem PageDirectory.maps_setEntry (hd : m.PageDirectory pd) (hvaddr : vaddr < 2 ^ 32)
    (hset : present (m.entry pd (vaddr / 2 ^ 22)) = true) (hpaddr : paddr < 2 ^ 32)
    (hflags : flags < 4096) (hpresent : flags % 2 = 1)
    (hlimit : frameOf (m.entry pd (vaddr / 2 ^ 22)) < limit) :
    Maps limit m (m.setEntry (frameOf (m.entry pd (vaddr / 2 ^ 22))) (vaddr / 2 ^ 12 % 1024)
      (paddr ||| flags)) pd paddr vaddr := by
  have hi : vaddr / 2 ^ 22 < 1024 := by omega
  have hj : vaddr / 2 ^ 12 % 1024 < 1024 := Nat.mod_lt _ (by decide)
  have hne := hd.tableNe _ hi hset
  obtain ⟨hpage, hothers⟩ := hd.onlyMaps_setEntry hvaddr hset (show paddr / 4096 < 2 ^ 20 by omega)
    (or_flags_lt paddr hflags) (or_flags_odd hpresent)
  have hnonzero : m.entry pd (vaddr / 2 ^ 22) ≠ 0 := by
    intro hzero
    rw [hzero] at hset
    cases hset
  rw [← or_eq_pageEntry] at hpage hothers
  have hsame := fun k hk => (same_setEntry (v := paddr ||| flags) (m := m) hj hne.symm).entry (i := k) hk
  refine ⟨hd.setEntry hne hj, rfl, rfl, ⟨_, hpage⟩, fun q hq hne' r hr => ?_, fun k hk => ?_,
    fun k hk _ => hsame k hk, (hsame _ hi).symm ▸ hlimit, ?_⟩
  · rw [hothers q hq hne']
    exact hr
  · rw [hsame k hk]
    exact ⟨fun hzero => ⟨fun heq => hnonzero (heq ▸ hzero), hzero⟩, And.right⟩
  · rw [if_neg hnonzero]
    exact fun _ => rfl

/-- `paging_map`, where it returns. -/
theorem PageDirectory.maps (hd : m.PageDirectory pd) (hm : m.Addressable)
    (hvaddr : vaddr < 2 ^ 32) (hpaddr : paddr < 2 ^ 32) (hflags : flags < 4096)
    (hpresent : flags % 2 = 1) (h : pagingMapAt limit m pd paddr vaddr flags = .ok m') :
    Maps limit m m' pd paddr vaddr := by
  have hi : vaddr / 2 ^ 22 < 1024 := by omega
  simp only [pagingMapAt, tableFor, bind_eq_ok, pure_eq_ok] at h
  obtain ⟨m₂, htable, pt, hdirect, rfl⟩ := h
  obtain ⟨rfl, hlimit⟩ := directBelow_eq_ok hdirect
  split at htable
  · rename_i hclear
    simp only [bind_eq_ok, pure_eq_ok, Prod.exists] at htable
    obtain ⟨m₁, t, halloc, rfl⟩ := htable
    obtain ⟨hfree, ht, hphys, -, hused⟩ := faAlloc_spec hm halloc
    obtain ⟨hd₂, hentry⟩ := hd.insert hi hclear hphys hused hfree ht hflags hpresent
    have hne : t ≠ pd := by
      rintro rfl
      rw [hd.used] at hfree
      cases hfree
    have hset : present (pageEntry t flags) = true := by
      rw [present_pageEntry hflags]
      exact decide_eq_true hpresent
    have hmaps : Maps limit _ _ pd paddr vaddr :=
      hd₂.maps_setEntry hvaddr (by rw [hentry]; exact hset) hpaddr hflags hpresent hlimit
    obtain ⟨rfl, -, -⟩ := faAlloc_eq_ok halloc
    refine ⟨hmaps.directory, hmaps.size, hmaps.kernelPd, hmaps.page, fun q hq hqne r hr => ?_,
      fun k hk => ?_, fun k hk hkset => ?_, hmaps.reach, ?_⟩
    · -- the new table adds translations where there were none
      refine hmaps.others q hq hqne r ?_
      rw [hd.translate_insert hi hphys hne ht hflags hpresent hq]
      split
      · rename_i hsame
        rw [translate_of_clear (by rw [hsame]; exact hclear)] at hr
        cases hr
      · exact hr
    · rw [hmaps.entries k hk]
      refine and_congr_right fun hki => ?_
      rw [entry_setEntry_of_ne hki.symm, entry_of_phys hphys]
    · have hki : k ≠ vaddr / 2 ^ 22 := by
        rintro rfl
        exact hkset hclear
      rw [hmaps.tables k hk, entry_setEntry_of_ne hki.symm, entry_of_phys hphys]
      rw [entry_setEntry_of_ne hki.symm, entry_of_phys hphys]
      exact hkset
    · rw [if_pos hclear]
      rw [hentry, frameOf_pageEntry hflags] at hlimit
      exact ⟨t, hlimit, nextFrame_of_faAlloc halloc, hused⟩
  · rename_i hset
    cases htable
    have hpde := (hd.entries _ hi).resolve_left hset
    exact hd.maps_setEntry hvaddr hpde hpaddr hflags hpresent hlimit

theorem faAlloc_size (h : m.faAlloc = .ok (m', t)) : m'.faBitmapSize = m.faBitmapSize := by
  rw [(faAlloc_eq_ok h).1]

theorem faAlloc_of_next (h : m.nextFrame = some t) : ∃ m', m.faAlloc = .ok (m', t) := by
  rw [nextFrame] at h
  rw [faAlloc, h]
  exact ⟨_, rfl⟩

theorem directBelow_of_lt (h : t < limit) : directBelow limit t = .ok t := if_pos h

/-- `paging_map` returns if the frame that it needs is there and can be reached. -/
theorem exists_pagingMapAt
    (hnew : m.entry pd (vaddr / 2 ^ 22) = 0 → ∃ t < limit, m.nextFrame = some t ∧ t < 2 ^ 20)
    (hold : m.entry pd (vaddr / 2 ^ 22) ≠ 0 → frameOf (m.entry pd (vaddr / 2 ^ 22)) < limit)
    (hflags : flags < 4096) : ∃ m', pagingMapAt limit m pd paddr vaddr flags = .ok m' := by
  rw [pagingMapAt, tableFor]
  split
  · rename_i hclear
    obtain ⟨t, hlimit, hnext, ht⟩ := hnew hclear
    obtain ⟨m₁, halloc⟩ := faAlloc_of_next hnext
    simp only [halloc, ok_bind, pure_bind, entry_setEntry_self, pageEntry_lt hflags ht,
      frameOf_pageEntry hflags, directBelow_of_lt hlimit]
    exact ⟨_, rfl⟩
  · rename_i hset
    simp only [pure_bind, directBelow_of_lt (hold hset), ok_bind]
    exact ⟨_, rfl⟩

/-! ## The loop of `paging_kernel_init` -/

/-- The page of the address that a frame has in the direct map. -/
def directPage (frame : Nat) : Nat := addr32 (frame * 4096 + kernelVirtBaseAddr) / 4096

/-- The page tables that the first `n` frames take. -/
def tablesFor (n : Nat) : Nat := (n + 1023) / 1024

/-- The direct map up to frame `n`. The frames from `lo` up to `hi` are left. -/
structure Direct (m : Memory) (n lo hi : Nat) : Prop where
  directory : m.PageDirectory m.kernelPd
  addressable : m.Addressable
  free : m.FreeFrom lo hi
  low : lo ≤ bootLimit
  mapped : ∀ f < n, ∃ flags, m.translate m.kernelPd (directPage f) = some (f, flags)
  /-- Entry 768 is the first, and after the last one the entries start again. -/
  entries : ∀ k < 1024, m.entry m.kernelPd k = 0 ↔ tablesFor n ≤ (k + 256) % 1024
  reach : ∀ k < 1024, m.entry m.kernelPd k ≠ 0 → frameOf (m.entry m.kernelPd k) < bootLimit

theorem directPage_eq (frame : Nat) : directPage frame = (frame + 0xC0000) % 2 ^ 20 := by
  rw [directPage, addr32, kernelVirtBaseAddr]
  omega

/-- A page that needs a table takes the first of the frames that are left. -/
theorem Maps.free (hmaps : Maps limit m m' pd paddr vaddr) (hfree : m.FreeFrom lo hi) :
    if m.entry pd (vaddr / 2 ^ 22) = 0 then lo < limit ∧ m'.FreeFrom (lo + 1) hi
    else m'.FreeFrom lo hi := by
  have hused := hmaps.used
  split_ifs at hused ⊢
  · obtain ⟨t, ht, hnext, hused⟩ := hused
    obtain ⟨rfl, -, -⟩ := hfree.next hnext
    exact ⟨ht, hfree.take hmaps.size hused⟩
  · intro x hx
    rw [hmaps.size] at hx
    rw [hused, hfree x hx]

/-- One turn of the loop. -/
theorem Direct.step (hs : m.Direct i lo hi) (hi' : i < 2 ^ 20)
    (h : m.pagingMapAt bootLimit m.kernelPd (i * 4096) (addr32 (i * 4096 + kernelVirtBaseAddr))
      pagingPdEntryFlagsKernelOnly = .ok m') :
    m'.kernelPd = m.kernelPd ∧ m'.faBitmapSize = m.faBitmapSize ∧
      m'.Direct (i + 1) (lo + (tablesFor (i + 1) - tablesFor i)) hi := by
  have hpage : addr32 (i * 4096 + kernelVirtBaseAddr) / 4096 = directPage i := rfl
  have hvaddr : addr32 (i * 4096 + kernelVirtBaseAddr) < 2 ^ 32 := Nat.mod_lt _ (by decide)
  have hmaps := hs.directory.maps hs.addressable hvaddr (by omega) (by decide) (by decide) h
  have hindex : addr32 (i * 4096 + kernelVirtBaseAddr) / 2 ^ 22 = (i / 1024 + 768) % 1024 := by
    rw [addr32, kernelVirtBaseAddr]
    omega
  have hfirst := hs.entries ((i / 1024 + 768) % 1024) (by omega)
  have htables : tablesFor (i + 1) = i / 1024 + 1 := by
    rw [tablesFor]
    omega
  have htables' : tablesFor i = i / 1024 ∨ tablesFor i = i / 1024 + 1 := by
    rw [tablesFor]
    omega
  have hfree : lo + (tablesFor (i + 1) - tablesFor i) ≤ bootLimit ∧
      m'.FreeFrom (lo + (tablesFor (i + 1) - tablesFor i)) hi := by
    have hfree := hmaps.free hs.free
    have hlow := hs.low
    rw [hindex] at hfree
    split_ifs at hfree with hclear
    · rw [show tablesFor (i + 1) - tablesFor i = 1 by omega]
      exact ⟨hfree.1, hfree.2⟩
    · rw [show tablesFor (i + 1) - tablesFor i = 0 by omega]
      exact ⟨hlow, hfree⟩
  refine ⟨hmaps.kernelPd, hmaps.size, ?_⟩
  constructor
  · exact hmaps.kernelPd ▸ hmaps.directory
  · rw [Addressable, hmaps.size]
    exact hs.addressable
  · exact hfree.2
  · exact hfree.1
  · intro f hf
    rw [hmaps.kernelPd]
    rcases Nat.lt_succ_iff_lt_or_eq.1 hf with hf | rfl
    · obtain ⟨flags, hflags⟩ := hs.mapped f hf
      refine ⟨flags, hmaps.others _ ?_ ?_ _ hflags⟩
      · rw [directPage_eq]
        omega
      · rw [hpage, directPage_eq, directPage_eq]
        omega
    · obtain ⟨flags, hflags⟩ := hmaps.page
      rw [Nat.mul_div_cancel _ (by decide)] at hflags
      exact ⟨flags, hflags⟩
  · intro k hk
    rw [hmaps.kernelPd, hmaps.entries k hk, hs.entries k hk, hindex]
    omega
  · intro k hk hset
    rw [hmaps.kernelPd] at hset ⊢
    rcases eq_or_ne k (addr32 (i * 4096 + kernelVirtBaseAddr) / 2 ^ 22) with hsame | hne
    · rw [hsame]
      exact hmaps.reach
    · have hset' : m.entry m.kernelPd k ≠ 0 := by
        rw [ne_eq, hmaps.entries k hk] at hset
        exact fun hzero => hset ⟨hne, hzero⟩
      rw [hmaps.tables k hk hset']
      exact hs.reach k hk hset'

/-- Where frames are left, the first of them is the next. -/
theorem FreeFrom.exists_next (hfree : m.FreeFrom lo hi) (hlo : lo < hi)
    (hsize : lo < 8 * m.faBitmapSize) : m.nextFrame = some lo := by
  have hclear := (hfree lo hsize).2 ⟨le_rfl, hlo⟩
  obtain ⟨t, hnext⟩ : ∃ t, m.nextFrame = some t :=
    Mem.exists_firstClear (Nat.zero_le _) (by omega) hclear
  obtain ⟨rfl, -, -⟩ := hfree.next hnext
  exact hnext

/-- The loop returns if the frames that are left below 12 MiB are enough. -/
theorem Direct.exists_mapDirect (hs : m.Direct i lo hi) (hleft : i + left ≤ 2 ^ 20)
    (hroom : lo + (tablesFor (i + left) - tablesFor i) ≤ min bootLimit (min hi (8 * m.faBitmapSize))) :
    ∃ m', m.mapDirect left i = .ok m' := by
  induction left generalizing m i lo with
  | zero => exact ⟨m, rfl⟩
  | succ left ih =>
    have htables : tablesFor i ≤ tablesFor (i + 1) ∧
        tablesFor (i + 1) ≤ tablesFor (i + 1 + left) := by
      simp only [tablesFor]
      omega
    have hindex : addr32 (i * 4096 + kernelVirtBaseAddr) / 2 ^ 22 = (i / 1024 + 768) % 1024 := by
      rw [addr32, kernelVirtBaseAddr]
      omega
    rw [show i + (left + 1) = i + 1 + left by omega] at hroom
    obtain ⟨m₁, hstep⟩ : ∃ m₁, m.pagingMapAt bootLimit m.kernelPd (i * 4096)
        (addr32 (i * 4096 + kernelVirtBaseAddr)) pagingPdEntryFlagsKernelOnly = .ok m₁ := by
      apply exists_pagingMapAt _ _ (by decide)
      · rw [hindex, hs.entries _ (by omega)]
        intro hclear
        have hnew : tablesFor i < tablesFor (i + 1) := by
          simp only [tablesFor] at hclear ⊢
          omega
        refine ⟨lo, by omega, hs.free.exists_next (by omega) (by omega), ?_⟩
        have := hs.addressable
        rw [Addressable] at this
        omega
      · rw [hindex]
        exact hs.reach _ (by omega)
    obtain ⟨-, hsize, hs₁⟩ := hs.step (by omega) hstep
    obtain ⟨m', hrest⟩ := ih hs₁ (by omega) (by omega)
    refine ⟨m', ?_⟩
    rw [Memory.mapDirect, hstep, ok_bind]
    exact hrest

/-- The whole loop. -/
theorem Direct.mapDirect (hs : m.Direct i lo hi) (hleft : i + left ≤ 2 ^ 20)
    (h : m.mapDirect left i = .ok m') :
    m'.kernelPd = m.kernelPd ∧ m'.faBitmapSize = m.faBitmapSize ∧
      m'.Direct (i + left) (lo + (tablesFor (i + left) - tablesFor i)) hi := by
  induction left generalizing m i lo with
  | zero =>
    cases h
    rw [Nat.add_zero, Nat.sub_self]
    exact ⟨rfl, rfl, hs⟩
  | succ left ih =>
    simp only [Memory.mapDirect, bind_eq_ok] at h
    obtain ⟨m₁, hstep, hrest⟩ := h
    obtain ⟨hpd, hsize, hs₁⟩ := hs.step (by omega) hstep
    obtain ⟨hpd', hsize', hs'⟩ := ih hs₁ (by omega) hrest
    have htables : lo + (tablesFor (i + 1) - tablesFor i) +
        (tablesFor (i + 1 + left) - tablesFor (i + 1)) =
        lo + (tablesFor (i + (left + 1)) - tablesFor i) := by
      simp only [tablesFor]
      omega
    rw [htables, Nat.add_right_comm i 1 left] at hs'
    exact ⟨hpd'.trans hpd, hsize'.trans hsize, hs'⟩

/-- An empty directory in the first frame that was free. -/
theorem FreeFrom.direct (hfree : m.FreeFrom lo hi) (hm : m.Addressable)
    (halloc : m.faAlloc = .ok (m₁, pd)) (hlimit : pd < bootLimit) :
    pd = lo ∧ Direct { m₁.fill pd 0 4096 fun _ => 0 with kernelPd := pd } 0 (lo + 1) hi := by
  obtain ⟨rfl, -, -⟩ := hfree.next (nextFrame_of_faAlloc halloc)
  obtain ⟨hclear, -, -, hm₁, hused⟩ := faAlloc_spec hm halloc
  have hsize : m₁.faBitmapSize = m.faBitmapSize := faAlloc_size halloc
  have hzero (k) (hk : k < 1024) :
      Memory.entry { m₁.fill pd 0 4096 fun _ => 0 with kernelPd := pd } pd k = 0 := by
    have hfill : (m₁.fill pd 0 4096 fun _ => 0).entry pd k = _ := entry_fill (by omega) (by omega)
    exact hfill.trans (by simp [Mem.load])
  have habsent (k) (hk : k < 1024) :
      ¬ present (Memory.entry { m₁.fill pd 0 4096 fun _ => 0 with kernelPd := pd } pd k) := by
    rw [hzero k hk]
    decide
  refine ⟨rfl, ?_⟩
  constructor
  · constructor
    · exact fun k hk => .inl (hzero k hk)
    · exact fun k hk hset => absurd hset (habsent k hk)
    · exact fun k hk _ _ hset => absurd hset (habsent k hk)
    · exact (hused pd).2 (.inr rfl)
    · exact fun k hk hset => absurd hset (habsent k hk)
  · exact hm₁
  · exact hfree.take hsize hused
  · exact hlimit
  · intro f hf
    omega
  · intro k hk
    simp only [hzero k hk, true_iff]
    exact Nat.zero_le _
  · intro k hk hset
    exact absurd (hzero k hk) hset

/-! ## The loop of `vesa_init` -/

/-- The pages of the framebuffer, which have one entry of the directory. -/
def vesaPages : Nat := 768

/-- The direct map up to frame `n`, with the framebuffer in the first `k` pages of its
window. -/
structure Window (m : Memory) (fbPhys n k lo hi : Nat) : Prop where
  directory : m.PageDirectory m.kernelPd
  addressable : m.Addressable
  free : m.FreeFrom lo hi
  low : lo ≤ bootLimit ∨ lo = bootLimit + 1 ∧ m.entry m.kernelPd 0x380 ≠ 0
  table : 0 < k → m.entry m.kernelPd 0x380 ≠ 0
  reach : m.entry m.kernelPd 0x380 ≠ 0 → frameOf (m.entry m.kernelPd 0x380) < directLimit
  framebuffer : ∀ j < k, ∃ flags,
    m.translate m.kernelPd (0xE0000 + j) = some (addr32 (fbPhys + j * 4096) / 4096, flags)
  kept : ∀ f < n, directPage f < 0xE0000 ∨ 0xE0000 + k ≤ directPage f →
    ∃ flags, m.translate m.kernelPd (directPage f) = some (f, flags)
  entries : ∀ j < 1024, j ≠ 0x380 → (m.entry m.kernelPd j = 0 ↔ tablesFor n ≤ (j + 256) % 1024)

theorem Direct.window {n : Nat} (fbPhys : Nat) (hs : m.Direct n lo hi) : m.Window fbPhys n 0 lo hi where
  directory := hs.directory
  addressable := hs.addressable
  free := hs.free
  low := .inl hs.low
  table hpos := absurd hpos (Nat.lt_irrefl 0)
  reach hset := (hs.reach _ (by decide) hset).trans (by decide)
  framebuffer j hj := absurd hj (Nat.not_lt_zero j)
  kept f hf _ := hs.mapped f hf
  entries j hj _ := hs.entries j hj

theorem Window.low_le {n : Nat} (hs : m.Window fbPhys n k lo hi) : lo ≤ bootLimit + 1 := by
  have hlow := hs.low
  omega

/-- One turn of the loop. -/
theorem Window.step {n : Nat} (hs : m.Window fbPhys n k lo hi) (hk : k < vesaPages)
    (h : m.pagingMapAt directLimit m.kernelPd (addr32 (fbPhys + k * 4096))
      (vesaVirtBase + k * 4096) pagingPdEntryFlagsKernelOnly = .ok m') :
    m'.faBitmapSize = m.faBitmapSize ∧ ∃ lo', m'.Window fbPhys n (k + 1) lo' hi := by
  rw [vesaPages] at hk
  have hvaddr : vesaVirtBase + k * 4096 < 2 ^ 32 := by
    rw [vesaVirtBase]
    omega
  have hpaddr : addr32 (fbPhys + k * 4096) < 2 ^ 32 := Nat.mod_lt _ (by decide)
  have hmaps := hs.directory.maps hs.addressable hvaddr hpaddr (by decide) (by decide) h
  have hindex : (vesaVirtBase + k * 4096) / 2 ^ 22 = 0x380 := by
    rw [vesaVirtBase]
    omega
  have hpage : (vesaVirtBase + k * 4096) / 4096 = 0xE0000 + k := by
    rw [vesaVirtBase]
    omega
  obtain ⟨lo', hlow, hfree⟩ : ∃ lo' ≤ bootLimit + 1, m'.FreeFrom lo' hi := by
    have hfree := hmaps.free hs.free
    rw [hindex] at hfree
    have hlow := hs.low
    split_ifs at hfree with hclear
    · exact ⟨lo + 1, by omega, hfree.2⟩
    · exact ⟨lo, by omega, hfree⟩
  obtain ⟨hdirectory, hsize, hpd, hnew, hothers, hentries, -, hreach, -⟩ := hmaps
  rw [hindex] at hentries hreach
  rw [hpage] at hnew hothers
  have hset : m'.entry m.kernelPd 0x380 ≠ 0 := by
    rw [ne_eq, hentries _ (by decide)]
    exact fun hclear => hclear.1 rfl
  refine ⟨hsize, lo', ?_⟩
  constructor
  · exact hpd ▸ hdirectory
  · rw [Addressable, hsize]
    exact hs.addressable
  · exact hfree
  · rw [hpd]
    omega
  · exact fun _ => hpd ▸ hset
  · exact fun _ => hpd ▸ hreach
  · intro j hj
    rw [hpd]
    rcases Nat.lt_succ_iff_lt_or_eq.1 hj with hj | rfl
    · obtain ⟨flags, hflags⟩ := hs.framebuffer j hj
      exact ⟨flags, hothers _ (by omega) (by omega) _ hflags⟩
    · exact hnew
  · intro f hf hout
    rw [hpd]
    obtain ⟨flags, hflags⟩ := hs.kept f hf (by omega)
    refine ⟨flags, hothers _ ?_ (by omega) _ hflags⟩
    rw [directPage_eq]
    omega
  · intro j hj hne
    rw [hpd, hentries j hj, hs.entries j hj hne]
    exact and_iff_right hne

/-- The whole loop. -/
theorem Window.mapFramebuffer {n : Nat} (hs : m.Window fbPhys n k lo hi)
    (hleft : k + left ≤ vesaPages) (h : m.mapFramebuffer fbPhys left k = .ok m') :
    m'.faBitmapSize = m.faBitmapSize ∧ ∃ lo', m'.Window fbPhys n (k + left) lo' hi := by
  induction left generalizing m k lo with
  | zero =>
    cases h
    exact ⟨rfl, lo, hs⟩
  | succ left ih =>
    simp only [Memory.mapFramebuffer, bind_eq_ok] at h
    obtain ⟨m₁, hstep, hrest⟩ := h
    obtain ⟨hsize, lo₁, hs₁⟩ := hs.step (by omega) hstep
    obtain ⟨hsize', lo', hs'⟩ := ih hs₁ (by omega) hrest
    rw [Nat.add_right_comm k 1 left] at hs'
    exact ⟨hsize'.trans hsize, lo', hs'⟩

/-- The loop returns if there is a table for the window, or a frame for it. -/
theorem Window.exists_mapFramebuffer {n : Nat} (hs : m.Window fbPhys n k lo hi)
    (hleft : k + left ≤ vesaPages)
    (hroom : m.entry m.kernelPd 0x380 ≠ 0 ∨ lo < min hi (8 * m.faBitmapSize)) :
    ∃ m', m.mapFramebuffer fbPhys left k = .ok m' := by
  induction left generalizing m k lo with
  | zero => exact ⟨m, rfl⟩
  | succ left ih =>
    have hindex : (vesaVirtBase + k * 4096) / 2 ^ 22 = 0x380 := by
      rw [vesaPages] at hleft
      rw [vesaVirtBase]
      omega
    obtain ⟨m₁, hstep⟩ : ∃ m₁, m.pagingMapAt directLimit m.kernelPd (addr32 (fbPhys + k * 4096))
        (vesaVirtBase + k * 4096) pagingPdEntryFlagsKernelOnly = .ok m₁ := by
      apply exists_pagingMapAt _ _ (by decide)
      · rw [hindex]
        intro hclear
        have hlo := hroom.resolve_left (not_not_intro hclear)
        have hlow : lo < directLimit := Nat.lt_of_le_of_lt hs.low_le (by decide)
        refine ⟨lo, hlow, hs.free.exists_next (by omega) (by omega), hlow.trans (by decide)⟩
      · rw [hindex]
        exact hs.reach
    obtain ⟨-, lo₁, hs₁⟩ := hs.step (by omega) hstep
    obtain ⟨m', hrest⟩ := ih hs₁ (by omega) (.inl (hs₁.table (Nat.succ_pos k)))
    refine ⟨m', ?_⟩
    rw [Memory.mapFramebuffer, hstep, ok_bind]
    exact hrest

/-! ## After both loops -/

/-- Every frame that is free has its address in the direct map translated to it. -/
def DirectMapped (m : Memory) : Prop :=
  ∀ f < 8 * m.faBitmapSize, m.used f = false →
    ∃ flags, m.translate m.kernelPd (directPage f) = some (f, flags)

/-- No free frame has its address in the window, or the framebuffer lies at the frames of
the window. -/
theorem Window.directMapped {n : Nat} (hs : m.Window fbPhys n vesaPages lo hi) (hhi : hi < 2 ^ 20)
    (hn : hi ≤ n)
    (hwindow : addr32 fbPhys / 4096 = 0x20000 ∨ min hi (8 * m.faBitmapSize) ≤ 0x20000) :
    m.DirectMapped := by
  intro f hf hfree
  obtain ⟨-, hlt⟩ := (hs.free f hf).1 hfree
  have hpage := directPage_eq f
  by_cases hin : 0x20000 ≤ f ∧ f < 0x20000 + vesaPages
  · have hfb := hwindow.resolve_right (by omega)
    rw [vesaPages] at hin
    obtain ⟨flags, hflags⟩ := hs.framebuffer (f - 0x20000) (by rw [vesaPages]; omega)
    have hframe : addr32 (fbPhys + (f - 0x20000) * 4096) / 4096 = f := by
      rw [addr32] at hfb ⊢
      omega
    rw [hframe] at hflags
    rw [show directPage f = 0xE0000 + (f - 0x20000) by omega]
    exact ⟨flags, hflags⟩
  · apply hs.kept f (by omega)
    rw [vesaPages] at hin ⊢
    omega

/-- The first frame of the window keeps its address only if the framebuffer begins there. -/
theorem Window.framebuffer_eq {n : Nat} (hs : m.Window fbPhys n vesaPages lo hi)
    (hdirect : m.DirectMapped) (hmin : 0x20000 < min hi (8 * m.faBitmapSize)) :
    addr32 fbPhys / 4096 = 0x20000 := by
  have hlow : lo ≤ 0x20000 := hs.low_le.trans (by decide)
  have hfree := (hs.free 0x20000 (by omega)).2 ⟨hlow, by omega⟩
  obtain ⟨flags, hflags⟩ := hdirect _ (by omega) hfree
  obtain ⟨flags', hflags'⟩ := hs.framebuffer 0 (by decide)
  rw [show directPage 0x20000 = 0xE0000 + 0 from rfl, hflags', Nat.zero_mul, Nat.add_zero] at hflags
  exact (Prod.mk.inj (Option.some.inj hflags)).1

/-- Where the loop of `paging_kernel_init` does nothing, the last frame has no address. -/
theorem Window.not_directMapped (hs : m.Window fbPhys 0 vesaPages lo hi) (hhi : hi < 2 ^ 20)
    (hmin : 0xFFFF8 ≤ min hi (8 * m.faBitmapSize)) : ¬ m.DirectMapped := by
  intro hdirect
  have hlow : lo ≤ 0xFFFF7 := hs.low_le.trans (by decide)
  have hfree := (hs.free 0xFFFF7 (by omega)).2 ⟨hlow, by omega⟩
  obtain ⟨flags, hflags⟩ := hdirect _ (by omega) hfree
  have hclear := (hs.entries (directPage 0xFFFF7 / 1024) (by decide) (by decide)).2 (Nat.zero_le _)
  rw [translate_of_clear hclear] at hflags
  cases hflags

/-! ## The whole start -/

/-- The frames that `paging_kernel_init` gives an address. -/
def directFrames (entries : List BiosEntry) : Nat :=
  addr32 ((mmapGetUsableEntry entries).endAddr + 0xfff) / 4096

/-- `paging_kernel_init` behind `fa_init`, and then `vesa_init`. -/
def start (m : Memory) (kernelPhysEnd : Nat) (entries : List BiosEntry) (fbPhys : Nat) :
    K Memory := do
  let m ← m.mmInit kernelPhysEnd entries
  m.vesaInit fbPhys

variable {kernelPhysEnd : Nat} {entries : List BiosEntry}

theorem directFrames_lt (entries : List BiosEntry) : directFrames entries < 2 ^ 20 := by
  rw [directFrames, addr32]
  omega

theorem lastFrame_lt (entries : List BiosEntry) : lastFrame entries < 2 ^ 20 := by
  have hlt := endAddr_lt (mmapGetUsableEntry entries).toMmapEntry
  rw [lastFrame]
  omega

/-- What the start leaves, where it returns. -/
theorem start_window (h : m.start kernelPhysEnd entries fbPhys = .ok m') :
    m'.faBitmapSize = faInitAllocBitmap entries ∧
      ∃ lo, m'.Window fbPhys (directFrames entries) vesaPages lo (lastFrame entries) := by
  simp only [start, mmInit, pagingKernelInit, bind_eq_ok, Prod.exists] at h
  obtain ⟨m₁, ⟨m₂, pd, halloc, kernelPd, hreach, hloop⟩, hvesa⟩ := h
  obtain ⟨rfl, hlimit⟩ := directBelow_eq_ok hreach
  obtain ⟨-, hstart⟩ := faInit_freeFrom.direct faInit_addressable halloc hlimit
  have hframes : 0 + directFrames entries ≤ 2 ^ 20 := by
    have := directFrames_lt entries
    omega
  obtain ⟨-, hsize, hdirect⟩ := hstart.mapDirect hframes hloop
  obtain ⟨hsize', lo, hwindow⟩ := (hdirect.window fbPhys).mapFramebuffer (by decide) hvesa
  rw [Nat.zero_add] at hwindow
  refine ⟨?_, lo, hwindow⟩
  rw [hsize', hsize]
  exact faAlloc_size halloc

/-- The start returns if there is room for the page tables below 12 MiB. -/
theorem exists_start
    (hroom : firstFrame kernelPhysEnd entries + 1 + tablesFor (directFrames entries) <
      min bootLimit (min (lastFrame entries) (8 * faInitAllocBitmap entries))) :
    ∃ m', m.start kernelPhysEnd entries fbPhys = .ok m' := by
  have hframes : 0 + directFrames entries ≤ 2 ^ 20 := by
    have := directFrames_lt entries
    omega
  have hfree : (m.faInit kernelPhysEnd entries).FreeFrom _ _ := faInit_freeFrom
  have hsize : (m.faInit kernelPhysEnd entries).faBitmapSize = faInitAllocBitmap entries := rfl
  obtain ⟨m₁, halloc⟩ := faAlloc_of_next (hfree.exists_next (by omega) (by rw [hsize]; omega))
  have hlimit : firstFrame kernelPhysEnd entries < bootLimit := by omega
  obtain ⟨-, hstart⟩ := hfree.direct faInit_addressable halloc hlimit
  have hsize₁ : m₁.faBitmapSize = faInitAllocBitmap entries := faAlloc_size halloc
  obtain ⟨m₂, hloop⟩ := hstart.exists_mapDirect hframes (by
    rw [Nat.zero_add]
    exact hsize₁.symm ▸ Nat.le_trans (Nat.add_le_add_left (Nat.sub_le _ _) _) hroom.le)
  obtain ⟨-, hsize₂, hdirect⟩ := hstart.mapDirect hframes hloop
  rw [Nat.zero_add] at hdirect
  have hleft : firstFrame kernelPhysEnd entries + 1 + (tablesFor (directFrames entries) - tablesFor 0) <
      min (lastFrame entries) (8 * m₂.faBitmapSize) := by
    have hsame : m₂.faBitmapSize = faInitAllocBitmap entries := hsize₂.trans hsize₁
    rw [hsame]
    omega
  have hinit : m.mmInit kernelPhysEnd entries = .ok m₂ := by
    simp only [mmInit, pagingKernelInit, halloc, ok_bind, directBelow_of_lt hlimit]
    exact hloop
  have hpages : 0 + vesaWidth * vesaHeight * vesaColorChannels / 4096 ≤ vesaPages := by decide
  obtain ⟨m', hvesa⟩ := (hdirect.window fbPhys).exists_mapFramebuffer hpages (.inr hleft)
  refine ⟨m', ?_⟩
  rw [start, hinit, ok_bind]
  exact hvesa

/-- After a start that returns, every free frame has its address in the direct map exactly
if the end of memory is not rounded up beyond 4 GiB, and either no frame from 512 MiB on
is free or the framebuffer begins at 512 MiB. -/
theorem direct_mapped_iff (h : m.start kernelPhysEnd entries fbPhys = .ok m') :
    m'.DirectMapped ↔ (mmapGetUsableEntry entries).endAddr + 0xfff < 2 ^ 32 ∧
      (addr32 fbPhys / 4096 = 0x20000 ∨
        min (lastFrame entries) (8 * faInitAllocBitmap entries) ≤ 0x20000) := by
  obtain ⟨hsize, lo, hwindow⟩ := start_window h
  have hlast := lastFrame_lt entries
  have hbitmap := lastFrame_div_le entries
  rw [← hsize] at hbitmap ⊢
  constructor
  · intro hdirect
    constructor
    · by_contra hwraps
      have hlt := endAddr_lt (mmapGetUsableEntry entries).toMmapEntry
      have hnone : directFrames entries = 0 := by
        rw [directFrames, addr32]
        omega
      rw [hnone] at hwindow
      refine hwindow.not_directMapped hlast ?_ hdirect
      rw [lastFrame] at hbitmap ⊢
      omega
    · by_contra hcovered
      rw [not_or] at hcovered
      exact hcovered.1 (hwindow.framebuffer_eq hdirect (by omega))
  · rintro ⟨hfits, hcovered⟩
    apply hwindow.directMapped hlast _ hcovered
    rw [lastFrame, directFrames, addr32]
    omega

/-! ## Two memory maps -/

/-- Before the start. -/
def bareMemory : Memory where
  faBitmap := fun _ => 0
  faBitmapSize := 0
  phys := fun _ => 0
  kernelPd := 0
  client := 0
  calls := []

/-- Low memory, and memory from 1 MiB up to an end. -/
def ramUpTo (endAddr : Nat) : List BiosEntry :=
  [{ baseAddr := 0, regionLen := 0x9FC00, regionType := mmapRegtypeUsable },
    { baseAddr := 0x100000, regionLen := endAddr - 0x100000, regionType := mmapRegtypeUsable }]

/-- With 256 MiB every frame that is free has its address. -/
theorem small_direct_mapped : ∃ m', bareMemory.start 0x60000 (ramUpTo 0x10000000) 0xFD000000 =
    .ok m' ∧ m'.DirectMapped := by
  obtain ⟨m', hstart⟩ : ∃ m', bareMemory.start 0x60000 (ramUpTo 0x10000000) 0xFD000000 = .ok m' :=
    exists_start (by decide)
  exact ⟨m', hstart, (direct_mapped_iff hstart).2 (by decide)⟩

/-- With 1 GiB, and a framebuffer at `0xFD000000`, the start returns and frame `0x20000`
is free without its address. -/
theorem gib_not_direct_mapped : ∃ m', bareMemory.start 0x60000 (ramUpTo 0x40000000) 0xFD000000 =
    .ok m' ∧ ¬ m'.DirectMapped := by
  obtain ⟨m', hstart⟩ : ∃ m', bareMemory.start 0x60000 (ramUpTo 0x40000000) 0xFD000000 = .ok m' :=
    exists_start (by decide)
  obtain ⟨hsize, lo, hwindow⟩ := start_window hstart
  refine ⟨m', hstart, fun hdirect => ?_⟩
  have hframe := hwindow.framebuffer_eq hdirect (by rw [hsize]; decide)
  exact absurd hframe (by decide)

end Memory

end Kaku

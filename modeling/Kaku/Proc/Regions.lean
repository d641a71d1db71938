-- SUMMARY: The areas of a user address space, when they stay apart, and what is mapped in them.
import Kaku.Proc.SpaceRun

/-!
# The areas of a user address space

The program image, the area below the break, the regions of `SYS_MMAP` and the
user stack each grow on their own, and no routine compares one with another. When
every call stays clear of the other areas they never meet, exactly their pages are
mapped, and the pages of the image and of the stack keep their frames.
-/

namespace Kaku

/-! ## Areas -/

inductive Area
  | image
  | brk
  /-- The live region at an index of `mmap_regions`. -/
  | region (i : Nat)
  | stack
  deriving DecidableEq

/-- The break that `elf_load` sets. -/
def initialBreak (elf : Mem) : Nat := roundUp (imageEnd elf)

def imageHas (elf : Mem) (v : Nat) : Bool := (imagePages elf).any fun page => page.vaddr / 4096 == v

/-- The four pages below `PROC_USER_STACK_TOP_VADDR`. -/
def stackHas (v : Nat) : Bool := decide (0x7FFC ≤ v ∧ v < 0x8000)

def MmapRegion.has (r : MmapRegion) (v : Nat) : Bool :=
  decide (r.base ≤ v * 4096 ∧ v * 4096 < r.base + r.len)

namespace ProcMem

def brkHas (o : ProcMem) (v : Nat) : Bool :=
  decide (initialBreak o.elf ≤ v * 4096 ∧ v * 4096 < o.programBreak)

/-- Whether an area has a page. -/
def has (o : ProcMem) (v : Nat) : Area → Bool
  | .image => imageHas o.elf v
  | .brk => o.brkHas v
  | .region i => o.mmapRegions[i]?.any fun r => r.has v
  | .stack => stackHas v

/-- Whether a live region has a page. -/
def mmapHas (o : ProcMem) (v : Nat) : Bool := o.mmapRegions.any fun r => r.has v

end ProcMem

/-- The frame a page of the user half is mapped to. -/
def Memory.lookup (m : Memory) (o : ProcMem) (v : Nat) : Option Nat :=
  m.slot o (.page (v / 1024) (v % 1024))

/-! ## Staying clear -/

/-- An image below its break and clear of the stack. -/
def imageFits (elf : Mem) : Bool :=
  (imagePages elf).all fun page =>
    decide (page.vaddr < initialBreak elf) && !stackHas (page.vaddr / 4096)

/-- A break that does not fall below the initial one, nor wrap around when it is
rounded up, and by which the area grows clear of the stack and the live regions. -/
def ProcMem.sbrkFits (o : ProcMem) (increment : Nat) : Bool :=
  let new := newBreak o.programBreak increment
  decide (initialBreak o.elf ≤ roundUp new) && decide (new ≤ roundUp new) &&
    (sbrkPages o increment).all fun page =>
      !stackHas (page.vaddr / 4096) && !o.mmapHas (page.vaddr / 4096)

/-- A new region clear of the image, of the area below the break and of the stack. -/
def ProcMem.mmapFits (o : ProcMem) (size : Nat) : Bool :=
  (mmapPages o size).all fun page =>
    !imageHas o.elf (page.vaddr / 4096) && !o.brkHas (page.vaddr / 4096) &&
      !stackHas (page.vaddr / 4096)

namespace System

def Fits (s : System) (e : SpaceEvent) : Bool :=
  s.Maps Memory.cleanAt e &&
    match e with
    | .exec (some elf) => elf.load 0 4 != elfMagic || imageFits elf
    | .sbrk p increment => (s.procs p).all fun o => o.sbrkFits increment
    | .mmap p size => (s.procs p).all fun o => o.mmapFits size
    | _ => true

/-- Steps that stay clear of the other areas. -/
abbrev FitSteps : System → SpaceEvent → System → Prop :=
  Guarded (fun s e => s.Fits e = true) System.step

end System

/-! ## What is mapped -/

namespace Memory

variable {m m' : Memory} {live : Nat → Option ProcMem} {p o : ProcMem} {q q' i j f v a : Nat}
  {pages : List NewPage} {addrs : List Nat}

theorem holding_lookup (hp : live q = some p) :
    m.holding live (q, .page (v / 1024) (v % 1024)) = m.lookup p v :=
  holding_of_live hp

/-- Mapping a page changes what that page is mapped to and no other. -/
theorem MapEffect.other_page (h : MapEffect m live q i j f m') {k : Nat × Slot}
    (hk : k ≠ (q, .page i j)) (ht : ∀ t, k.2 ≠ .table t) :
    m'.holding live k = m.holding live k := by
  have htable : ∀ t, k ≠ (q, .table t) := by
    rintro t rfl
    exact ht t rfl
  cases h with
  | page hf huse hhold hcalls => rw [hhold, Function.update_of_ne hk]
  | table g hf hg hne huse hnone hhold hcalls =>
    rw [hhold, Function.update_of_ne hk, Function.update_of_ne (htable i)]

theorem UnmapEffect.other_page (h : UnmapEffect m live q i j m') {k : Nat × Slot}
    (hk : k ≠ (q, .page i j)) : m'.holding live k = m.holding live k := by
  cases h with
  | absent hnone hm' => rw [hm']
  | page f hf huse hhold hcalls hclient => rw [hhold, Function.update_of_ne hk]

theorem UnmapEffect.unmapped (h : UnmapEffect m live q i j m') :
    m'.holding live (q, .page i j) = none := by
  cases h with
  | absent hnone hm' => rw [hm', hnone]
  | page f hf huse hhold hcalls hclient => rw [hhold, Function.update_self]

/-- The slot of the page at an address. -/
theorem page_slot : Slot.page (a / 2 ^ 22) (a / 2 ^ 12 % 1024) =
    .page (a / 4096 / 1024) (a / 4096 % 1024) := by
  congr 1
  omega

theorem page_slot_ne (h : a / 4096 ≠ v) : Slot.page (v / 1024) (v % 1024) ≠
    .page (a / 2 ^ 22) (a / 2 ^ 12 % 1024) := by
  rw [page_slot]
  intro heq
  obtain ⟨hdiv, hmod⟩ := Slot.page.inj heq
  omega

namespace Separate

/-- After mapping a list of pages, these are mapped and all others are as before. -/
theorem lookup_mapPages (h : m.Separate live) (hp : live q = some p)
    (hall : m.mapsOnly cleanAt p.procPd pages = true) (hrun : m.mapPages p.procPd pages = .ok m') :
    (∀ q' o v, live q' = some o → (q' = q → ∀ page ∈ pages, page.vaddr / 4096 ≠ v) →
      m'.lookup o v = m.lookup o v) ∧
    ∀ page ∈ pages, m'.lookup p (page.vaddr / 4096) ≠ none := by
  induction pages generalizing m with
  | nil =>
    obtain rfl : m = m' := by simpa [Memory.mapPages] using hrun
    exact ⟨fun _ _ _ _ _ => rfl, fun page hpage => absurd hpage List.not_mem_nil⟩
  | cons page pages ih =>
    simp only [Memory.mapPages, bind_eq_ok] at hrun
    obtain ⟨m₁, hmap, hrest⟩ := hrun
    simp only [mapsOnly_iff, allPages, hmap, Bool.and_eq_true] at hall
    obtain ⟨hv, hfirst, hlater⟩ := hall
    obtain ⟨hs₁, f, heffect⟩ := h.mapEffect hp (hv page List.mem_cons_self) hfirst hmap
    have hall₁ := mapsOnly_iff.2 ⟨fun page' hpage => hv page' (List.mem_cons_of_mem _ hpage), hlater⟩
    obtain ⟨hothers, hmapped⟩ := ih hs₁ hall₁ hrest
    have hfirstMapped : m₁.lookup p (page.vaddr / 4096) ≠ none := by
      rw [← holding_lookup hp, ← page_slot, heffect.holds]
      simp
    refine ⟨fun q' o v ho hout => ?_, fun page' hpage => ?_⟩
    · rw [hothers q' o v ho fun hq page' hpage => hout hq page' (List.mem_cons_of_mem _ hpage),
        ← holding_lookup ho, ← holding_lookup ho]
      apply heffect.other_page _ (by simp)
      intro hk
      obtain ⟨hq, hslot⟩ := Prod.mk.inj hk
      exact page_slot_ne (hout hq page List.mem_cons_self) hslot
    · rcases List.mem_cons.1 hpage with rfl | hpage
      · by_cases hagain : ∀ page'' ∈ pages, page''.vaddr / 4096 ≠ page'.vaddr / 4096
        · rw [hothers q p _ hp fun _ => hagain]
          exact hfirstMapped
        · simp only [not_forall, not_not] at hagain
          obtain ⟨page'', hmem, hsame⟩ := hagain
          rw [← hsame]
          exact hmapped page'' hmem
      · exact hmapped page' hpage

/-- After unmapping a list of pages, these are not mapped and all others are as before. -/
theorem lookup_unmapPages (h : m.Separate live) (hp : live q = some p)
    (hv : ∀ a ∈ addrs, a < kernelVirtBaseAddr)
    (hrun : m.syscallUnmapPages p.procPd addrs = .ok m') :
    (∀ q' o v, live q' = some o → (q' = q → ∀ a ∈ addrs, a / 4096 ≠ v) →
      m'.lookup o v = m.lookup o v) ∧
    ∀ a ∈ addrs, m'.lookup p (a / 4096) = none := by
  induction addrs generalizing m with
  | nil =>
    obtain rfl : m = m' := by simpa [Memory.syscallUnmapPages] using hrun
    exact ⟨fun _ _ _ _ _ => rfl, fun a ha => absurd ha List.not_mem_nil⟩
  | cons a addrs ih =>
    obtain ⟨m₁, hfirst, hs₁, heffect⟩ := h.unmapEffect hp (hv a List.mem_cons_self)
    rw [syscallUnmapPages, hfirst, ok_bind] at hrun
    obtain ⟨hothers, hunmapped⟩ := ih hs₁ (fun b hb => hv b (List.mem_cons_of_mem _ hb)) hrun
    have hfirstGone : m₁.lookup p (a / 4096) = none := by
      rw [← holding_lookup hp, ← page_slot, heffect.unmapped]
    refine ⟨fun q' o v ho hout => ?_, fun b hb => ?_⟩
    · rw [hothers q' o v ho fun hq b hb => hout hq b (List.mem_cons_of_mem _ hb),
        ← holding_lookup ho, ← holding_lookup ho]
      apply heffect.other_page
      intro hk
      obtain ⟨hq, hslot⟩ := Prod.mk.inj hk
      exact page_slot_ne (hout hq a List.mem_cons_self) hslot
    · rcases List.mem_cons.1 hb with rfl | hb
      · by_cases hagain : ∀ c ∈ addrs, c / 4096 ≠ b / 4096
        · rw [hothers q p _ hp fun _ => hagain]
          exact hfirstGone
        · simp only [not_forall, not_not] at hagain
          obtain ⟨c, hmem, hsame⟩ := hagain
          rw [← hsame]
          exact hunmapped c hmem
      · exact hunmapped b hb

/-- Unmapping a list of pages frees the frames that they have, and no others. -/
theorem inUse_unmapPages (h : m.Separate live) (hp : live q = some p)
    (hv : ∀ a ∈ addrs, a < kernelVirtBaseAddr)
    (hrun : m.syscallUnmapPages p.procPd addrs = .ok m') (f : Nat) :
    m'.InUse f ↔ m.InUse f ∧ ∀ a ∈ addrs, m.lookup p (a / 4096) ≠ some f := by
  induction addrs generalizing m with
  | nil =>
    obtain rfl : m = m' := by simpa [Memory.syscallUnmapPages] using hrun
    simp
  | cons a addrs ih =>
    obtain ⟨m₁, hfirst, hs₁, heffect⟩ := h.unmapEffect hp (hv a List.mem_cons_self)
    rw [syscallUnmapPages, hfirst, ok_bind] at hrun
    have hrest := ih hs₁ (fun b hb => hv b (List.mem_cons_of_mem _ hb)) hrun
    have hgone : m₁.lookup p (a / 4096) = none := by
      rw [← holding_lookup hp, ← page_slot, heffect.unmapped]
    have hother (v : Nat) (hne : a / 4096 ≠ v) : m₁.lookup p v = m.lookup p v := by
      rw [← holding_lookup hp, ← holding_lookup hp]
      apply heffect.other_page
      intro hk
      exact page_slot_ne hne (Prod.mk.inj hk).2
    have huse : m₁.InUse f ↔ m.InUse f ∧ m.lookup p (a / 4096) ≠ some f := by
      rw [← holding_lookup hp, ← page_slot]
      cases heffect with
      | absent hnone hm' =>
        rw [hnone, hm']
        exact (and_iff_left (by simp)).symm
      | page g hg huse hhold hcalls hclient =>
        rw [huse, hg, Ne, Ne, Option.some.injEq, eq_comm]
    rw [hrest, huse, List.forall_mem_cons, and_assoc]
    refine and_congr_right fun _ => and_congr_right fun hfirstNe => ?_
    refine forall₂_congr fun b _ => ?_
    rcases eq_or_ne (a / 4096) (b / 4096) with heq | hne
    · rw [← heq, hgone]
      simpa using hfirstNe
    · rw [hother _ hne]

end Separate

end Memory

/-! ## Ranges of pages -/

section Ranges

variable {lo n v a : Nat}

theorem roundUp_lt_iff (h : a ≤ roundUp a) (ha : a < 2 ^ 32) : v * 4096 < a ↔ v * 4096 < roundUp a := by
  simp only [roundUp, addr32] at h ⊢
  omega

theorem roundUp_roundUp : roundUp (roundUp a) = roundUp a := by
  simp only [roundUp, addr32]
  omega

theorem roundUp_lt (a : Nat) : roundUp a < 2 ^ 32 := by
  simp only [roundUp, addr32]
  omega

theorem newBreak_lt {oldBreak increment : Nat} (h : oldBreak < 2 ^ 32) :
    newBreak oldBreak increment < 2 ^ 32 := by
  simp only [newBreak, addr32]
  split
  · split <;> omega
  · omega

/-- A range that does not wrap around has the pages between its ends. -/
theorem mem_pageRange (hlo : lo % 4096 = 0) (hfit : lo + n * 4096 ≤ 2 ^ 32) :
    (∃ a ∈ pageRange lo n, a / 4096 = v) ↔ lo ≤ v * 4096 ∧ v * 4096 < lo + n * 4096 := by
  simp only [pageRange, List.mem_map, List.mem_range, addr32]
  constructor
  · rintro ⟨a, ⟨i, hi, rfl⟩, rfl⟩
    omega
  · rintro ⟨hle, hlt⟩
    refine ⟨v * 4096, ⟨v - lo / 4096, ?_, ?_⟩, ?_⟩ <;> omega

/-- A range in the user half does not wrap around. -/
theorem pageRange_fits (hlo : lo % 4096 = 0) (hle : lo ≤ kernelVirtBaseAddr)
    (h : ∀ a ∈ pageRange lo n, a < kernelVirtBaseAddr) : lo + n * 4096 ≤ kernelVirtBaseAddr := by
  by_contra hover
  rw [kernelVirtBaseAddr] at *
  have hmem : 0xC0000000 ∈ pageRange lo n := by
    refine List.mem_map.2 ⟨(0xC0000000 - lo) / 4096, List.mem_range.2 ?_, ?_⟩
    · omega
    · rw [addr32]
      omega
  have hlt := h _ hmem
  omega

end Ranges

/-! ## Regions -/

/-- The other processes have mapped what they had. -/
def OthersKeep (m m' : Memory) (live : Nat → Option ProcMem) (q : Nat) : Prop :=
  ∀ q' x v, live q' = some x → q' ≠ q → m'.lookup x v = m.lookup x v

theorem lookup_sameFrames {m : Memory} {o o' : ProcMem} (h : Memory.SameFrames o o') (v : Nat) :
    m.lookup o' v = m.lookup o v := by
  rw [Memory.lookup, Memory.lookup, Memory.slot_sameFrames h]

/-- A region of whole pages in the user half. -/
structure MmapRegion.Fits (r : MmapRegion) : Prop where
  base : r.base % 4096 = 0
  len : r.len % 4096 = 0
  user : r.base + r.len ≤ kernelVirtBaseAddr

namespace MmapRegion.Fits

variable {r : MmapRegion} {v : Nat}

theorem mem_range (h : r.Fits) :
    (∃ a ∈ pageRange r.base (r.len / 4096), a / 4096 = v) ↔ r.has v = true := by
  have hbase := h.base
  have hlen := h.len
  have huser := h.user
  rw [kernelVirtBaseAddr] at huser
  rw [mem_pageRange hbase (by omega), MmapRegion.has, decide_eq_true_eq]
  omega

theorem range_user (h : r.Fits) : ∀ a ∈ pageRange r.base (r.len / 4096), a < kernelVirtBaseAddr := by
  intro a ha
  have hlen := h.len
  have huser := h.user
  obtain ⟨i, hi, rfl⟩ := List.mem_map.1 ha
  have hlt := List.mem_range.1 hi
  rw [kernelVirtBaseAddr] at huser ⊢
  rw [addr32]
  omega

end MmapRegion.Fits

section Calls

variable {m m' : Memory} {live : Nat → Option ProcMem} {o o' : ProcMem} {q size eax : Nat}
  {r : MmapRegion} {l₁ l₂ : List MmapRegion}

/-- The region that `SYS_MMAP` adds. -/
def ProcMem.newRegion (o : ProcMem) (size : Nat) : MmapRegion :=
  ⟨o.mmapNext, mmapPageCount size * 4096⟩

/-- `SYS_MMAP` adds a region of fresh pages at the cursor, and moves the cursor behind it. -/
theorem syscallMmap_spec (h : m.Separate live) (hp : live q = some o)
    (hnext : o.mmapNext % 4096 = 0) (hle : o.mmapNext ≤ kernelVirtBaseAddr)
    (hmaps : m.mapsOnly Memory.cleanAt o.procPd (mmapPages o size) = true)
    (hrun : syscallMmap m o size = .ok (m', o', eax)) :
    eax = o.mmapNext ∧ (o.newRegion size).Fits ∧
      o' = { o with
        mmapRegions := o.mmapRegions ++ [o.newRegion size]
        mmapNext := o.mmapNext + (o.newRegion size).len } ∧
      (∀ v, (∃ page ∈ mmapPages o size, page.vaddr / 4096 = v) ↔
        (o.newRegion size).has v = true) ∧
      (∀ v, (o.newRegion size).has v = true → m'.lookup o' v ≠ none) ∧
      (∀ v, (o.newRegion size).has v = false → m'.lookup o' v = m.lookup o v) ∧
      OthersKeep m m' live q := by
  obtain ⟨hmap, heax, ho'⟩ := syscallMmap_ok hrun
  obtain ⟨hothers, hmapped⟩ := h.lookup_mapPages hp hmaps hmap
  have hin : ∀ a ∈ pageRange o.mmapNext (mmapPageCount size), a < kernelVirtBaseAddr := by
    intro a ha
    apply (Memory.mapsOnly_iff.1 hmaps).1 { vaddr := a }
    exact List.mem_map.2 ⟨a, ha, rfl⟩
  have hfit := pageRange_fits hnext hle hin
  have hfits : (o.newRegion size).Fits := ⟨hnext, by simp [ProcMem.newRegion], hfit⟩
  have hlen : addr32 (mmapPageCount size * 4096) = mmapPageCount size * 4096 := by
    rw [kernelVirtBaseAddr] at hfit
    exact Nat.mod_eq_of_lt (by omega)
  have hsum : addr32 (o.mmapNext + mmapPageCount size * 4096) =
      o.mmapNext + mmapPageCount size * 4096 := by
    rw [kernelVirtBaseAddr] at hfit
    exact Nat.mod_eq_of_lt (by omega)
  rw [hlen, hsum] at ho'
  have hsame : Memory.SameFrames o o' := ⟨by rw [ho'], by rw [ho']⟩
  -- the end of the region does not wrap around, so its pages are those of the list
  have hpages (v : Nat) : (∃ page ∈ mmapPages o size, page.vaddr / 4096 = v) ↔
      (o.newRegion size).has v = true := by
    rw [← hfits.mem_range, ProcMem.newRegion, Nat.mul_div_cancel _ (by decide)]
    simp only [mmapPages, List.mem_map, exists_exists_and_eq_and]
  refine ⟨heax, hfits, ho', hpages, fun v hv => ?_, fun v hv => ?_,
    fun q' x v hx hq => hothers q' x v hx fun heq => absurd heq hq⟩
  · obtain ⟨page, hpage, rfl⟩ := (hpages v).2 hv
    rw [lookup_sameFrames hsame]
    exact hmapped page hpage
  · rw [lookup_sameFrames hsame]
    refine hothers q o v hp fun _ page hpage heq => ?_
    rw [(hpages v).1 ⟨page, hpage, heq⟩] at hv
    cases hv

/-- What taking a region away does to memory: its pages are no longer mapped, and exactly
their frames are free again. -/
structure Unmaps (m m' : Memory) (live : Nat → Option ProcMem) (q : Nat) (o : ProcMem)
    (r : MmapRegion) : Prop where
  gone : ∀ v, r.has v = true → m'.lookup o v = none
  kept : ∀ q' x v, live q' = some x → (q' = q → r.has v = false) → m'.lookup x v = m.lookup x v
  frames : ∀ f, m'.InUse f ↔ m.InUse f ∧ ∀ v, r.has v = true → m.lookup o v ≠ some f

/-- `SYS_MUNMAP` of the base of a region. -/
theorem syscallMunmap_spec (h : m.Separate live) (hp : live q = some o)
    (hsplit : o.mmapRegions = l₁ ++ r :: l₂) (hfirst : ∀ r' ∈ l₁, r'.base ≠ r.base)
    (hfits : r.Fits) :
    ∃ m', syscallMunmap m o r.base = .ok (m', { o with mmapRegions := l₁ ++ l₂ }, 0) ∧
      Unmaps m m' live q o r := by
  have hfind : (o.mmapRegions.find? fun r' => r'.base = r.base) = some r :=
    List.find?_eq_some_iff_append.2 ⟨by simp, l₁, l₂, hsplit, by simpa using hfirst⟩
  -- the first record with the base is the one that is taken out
  have herase : (o.mmapRegions.eraseP fun r' => r'.base = r.base) = l₁ ++ l₂ := by
    rw [hsplit, List.eraseP_append_right _ fun a ha => by simpa using hfirst a ha]
    simp
  obtain ⟨m', hrun, -, -⟩ := h.unmapPages (P := fun _ => True) (fun _ _ _ _ _ _ _ => trivial) hp
    hfits.range_user trivial
  obtain ⟨hothers, hunmapped⟩ := h.lookup_unmapPages hp hfits.range_user hrun
  refine ⟨m', ?_, fun v hv => ?_, fun q' x v hx hout => ?_, fun f => ?_⟩
  · simp only [syscallMunmap, hfind, hrun, herase, ok_bind]
    rfl
  · obtain ⟨a, ha, rfl⟩ := hfits.mem_range.2 hv
    exact hunmapped a ha
  · refine hothers q' x v hx fun hq a ha heq => ?_
    have hhas := hfits.mem_range.1 ⟨a, ha, heq⟩
    rw [hout hq] at hhas
    cases hhas
  · rw [h.inUse_unmapPages hp hfits.range_user hrun]
    refine and_congr_right fun _ => ?_
    constructor
    · intro hall v hv
      obtain ⟨a, ha, rfl⟩ := hfits.mem_range.2 hv
      exact hall a ha
    · exact fun hall a ha => hall _ (hfits.mem_range.1 ⟨a, ha, rfl⟩)

end Calls

/-! ## The layout of a process -/

/-- The areas are apart, and exactly their pages are mapped. -/
structure Layout (m : Memory) (o : ProcMem) : Prop where
  image : ∀ v, imageHas o.elf v = true →
    v * 4096 < initialBreak o.elf ∧ stackHas v = false ∧ v < kernelPage
  programBreak : o.programBreak < 2 ^ 32 ∧ o.programBreak ≤ roundUp o.programBreak ∧
    initialBreak o.elf ≤ roundUp o.programBreak
  brk : ∀ v, o.brkHas v = true → stackHas v = false
  mmapNext : o.mmapNext % 4096 = 0 ∧ o.mmapNext ≤ kernelVirtBaseAddr
  regions : ∀ r ∈ o.mmapRegions,
    r.base % 4096 = 0 ∧ r.len % 4096 = 0 ∧ r.base + r.len ≤ o.mmapNext
  ordered : o.mmapRegions.Pairwise fun r r' => r.base + r.len ≤ r'.base
  mmap : ∀ v, o.mmapHas v = true →
    imageHas o.elf v = false ∧ o.brkHas v = false ∧ stackHas v = false
  mapped : ∀ v < kernelPage, m.lookup o v ≠ none ↔
    imageHas o.elf v = true ∨ stackHas v = true ∨ o.brkHas v = true ∨ o.mmapHas v = true

/-- The pages of the image and of the stack keep their frames. -/
structure Keeps (m m' : Memory) (o o' : ProcMem) : Prop where
  elf : o'.elf = o.elf
  lookup : ∀ v, imageHas o.elf v = true ∨ stackHas v = true → m'.lookup o' v = m.lookup o v

namespace Layout

variable {m m' : Memory} {live : Nat → Option ProcMem} {o o' : ProcMem} {q increment size addr eax : Nat}

theorem mmapHas_of_region {i v : Nat} (h : o.has v (.region i) = true) : o.mmapHas v = true := by
  simp only [ProcMem.has, Option.any_eq_true] at h
  obtain ⟨r, hr, hv⟩ := h
  rw [ProcMem.mmapHas, List.any_eq_true]
  exact ⟨r, List.mem_of_getElem? hr, hv⟩

theorem not_brkHas_of_image (h : Layout m o) {v : Nat} (hv : imageHas o.elf v = true) :
    o.brkHas v = false := by
  have hlt := (h.image v hv).1
  rw [ProcMem.brkHas, decide_eq_false_iff_not]
  omega

theorem not_mmapHas_of_brk (h : Layout m o) {v : Nat} (hv : o.brkHas v = true) :
    o.mmapHas v = false := by
  rw [Bool.eq_false_iff]
  intro hmmap
  rw [(h.mmap v hmmap).2.1] at hv
  cases hv

/-- Regions at different indices have no page in common. -/
theorem regions_apart (h : Layout m o) {i j v : Nat} (hij : i < j)
    (hi : o.has v (.region i) = true) (hj : o.has v (.region j) = true) : False := by
  simp only [ProcMem.has, Option.any_eq_true, MmapRegion.has, decide_eq_true_eq] at hi hj
  obtain ⟨r, hr, hlo, hhi⟩ := hi
  obtain ⟨r', hr', hlo', hhi'⟩ := hj
  obtain ⟨hi, rfl⟩ := List.getElem?_eq_some_iff.1 hr
  obtain ⟨hj, rfl⟩ := List.getElem?_eq_some_iff.1 hr'
  have hle := List.pairwise_iff_getElem.1 h.ordered i j hi hj hij
  omega

/-- The other regions have no page of a region. -/
theorem only_region (h : Layout m o) {r : MmapRegion} {l₁ l₂ : List MmapRegion} {v : Nat}
    (hsplit : o.mmapRegions = l₁ ++ r :: l₂) (hv : r.has v = true) :
    (l₁ ++ l₂).any (fun r' => r'.has v) = false := by
  have hordered := h.ordered
  rw [hsplit, List.pairwise_append, List.pairwise_cons] at hordered
  obtain ⟨-, ⟨hafter, -⟩, hcross⟩ := hordered
  rw [Bool.eq_false_iff]
  intro hany
  obtain ⟨r', hr', hv'⟩ := List.any_eq_true.1 hany
  simp only [MmapRegion.has, decide_eq_true_eq] at hv hv'
  rcases List.mem_append.1 hr' with hr₁ | hr₂
  · have hle := hcross r' hr₁ r List.mem_cons_self
    omega
  · have hle := hafter r' hr₂
    omega

/-- No page is in two areas. -/
theorem apart (h : Layout m o) {a b : Area} {v : Nat} (hab : a ≠ b) (ha : o.has v a = true) :
    o.has v b = false := by
  rw [Bool.eq_false_iff]
  intro hb
  have hmmap := h.mmap v
  have hbrk := h.brk v
  -- regions have a page in common with nothing, by `mmap`, and with each other by their order
  cases a with
  | image =>
    have hstack := (h.image v ha).2.1
    have hnot := h.not_brkHas_of_image ha
    cases b with
    | image => exact hab rfl
    | brk => simp_all [ProcMem.has]
    | region i => simp_all [ProcMem.has, hmmap (mmapHas_of_region hb)]
    | stack => simp_all [ProcMem.has]
  | brk =>
    cases b with
    | image => simp_all [ProcMem.has, h.not_brkHas_of_image hb]
    | brk => exact hab rfl
    | region i => simp_all [ProcMem.has, hmmap (mmapHas_of_region hb)]
    | stack => simp_all [ProcMem.has]
  | region i =>
    have hnone := hmmap (mmapHas_of_region ha)
    cases b with
    | image => simp_all [ProcMem.has]
    | brk => simp_all [ProcMem.has]
    | region j =>
      rcases Nat.lt_or_gt_of_ne fun hij => hab (congrArg Area.region hij) with hlt | hgt
      · exact h.regions_apart hlt ha hb
      · exact h.regions_apart hgt hb ha
    | stack => simp_all [ProcMem.has]
  | stack =>
    cases b with
    | image => simp_all [ProcMem.has, h.image v hb]
    | brk => simp_all [ProcMem.has]
    | region i => simp_all [ProcMem.has, hmmap (mmapHas_of_region hb)]
    | stack => exact hab rfl

theorem congr (h : Layout m o) (hsame : ∀ v, m'.lookup o v = m.lookup o v) : Layout m' o :=
  { h with mapped := fun v hv => by rw [hsame, h.mapped v hv] }

/-! ### The system calls -/

/-- The pages by which the area below the break grows. -/
theorem mem_sbrkPages {v : Nat} : (∃ page ∈ sbrkPages o increment, page.vaddr / 4096 = v) ↔
    roundUp o.programBreak ≤ v * 4096 ∧
      v * 4096 < roundUp (newBreak o.programBreak increment) := by
  have hold := roundUp_mod o.programBreak
  have hnew := roundUp_mod (newBreak o.programBreak increment)
  have hlt := roundUp_lt (newBreak o.programBreak increment)
  have hltOld := roundUp_lt o.programBreak
  have hrange := mem_pageRange (v := v) (n := (roundUp (newBreak o.programBreak increment) -
    roundUp o.programBreak) / 4096) hold (by omega)
  rw [sbrkPages]
  simp only [List.mem_map, exists_exists_and_eq_and]
  rw [hrange]
  omega

/-- The area below the break in terms of the rounded break. -/
theorem brkHas_iff (h : o.programBreak ≤ roundUp o.programBreak) (hlt : o.programBreak < 2 ^ 32)
    {v : Nat} : o.brkHas v = true ↔
      initialBreak o.elf ≤ v * 4096 ∧ v * 4096 < roundUp o.programBreak := by
  rw [ProcMem.brkHas, decide_eq_true_eq, roundUp_lt_iff h hlt]

/-- Growing the area below the break maps the pages between the two breaks. -/
theorem sbrk_grow (h : m.Separate live) (hp : live q = some o)
    (hmaps : m.mapsOnly Memory.cleanAt o.procPd (sbrkPages o increment) = true)
    (hrun : m.mapPages o.procPd (sbrkPages o increment) = .ok m') (v : Nat) :
    (¬ (roundUp o.programBreak ≤ v * 4096 ∧
        v * 4096 < roundUp (newBreak o.programBreak increment)) →
      m'.lookup o v = m.lookup o v) ∧
    (roundUp o.programBreak ≤ v * 4096 ∧
        v * 4096 < roundUp (newBreak o.programBreak increment) → m'.lookup o v ≠ none) := by
  obtain ⟨hothers, hmapped⟩ := h.lookup_mapPages hp hmaps hrun
  rw [← mem_sbrkPages]
  refine ⟨fun hout => hothers q o v hp fun _ page hpage hv => hout ⟨page, hpage, hv⟩, ?_⟩
  rintro ⟨page, hpage, rfl⟩
  exact hmapped page hpage

/-- Shrinking it unmaps the pages between the two breaks. -/
theorem sbrk_shrink (h : m.Separate live) (hp : live q = some o)
    (hle : roundUp (newBreak o.programBreak increment) ≤ roundUp o.programBreak)
    (hkernel : roundUp o.programBreak ≤ roundUp (newBreak o.programBreak increment) ∨
      roundUp o.programBreak ≤ kernelVirtBaseAddr)
    (hrun : m.syscallUnmapPages o.procPd (pageRange (roundUp (newBreak o.programBreak increment))
      ((roundUp o.programBreak - roundUp (newBreak o.programBreak increment)) / 4096)) = .ok m')
    (v : Nat) :
    (¬ (roundUp (newBreak o.programBreak increment) ≤ v * 4096 ∧
        v * 4096 < roundUp o.programBreak) → m'.lookup o v = m.lookup o v) ∧
    (roundUp (newBreak o.programBreak increment) ≤ v * 4096 ∧
        v * 4096 < roundUp o.programBreak → m'.lookup o v = none) := by
  have hold := roundUp_mod o.programBreak
  have hnew := roundUp_mod (newBreak o.programBreak increment)
  have hlt := roundUp_lt o.programBreak
  obtain ⟨hothers, hunmapped⟩ := h.lookup_unmapPages hp (sbrk_shrink_user hle hkernel) hrun
  have hrange := mem_pageRange (v := v) (n := (roundUp o.programBreak -
    roundUp (newBreak o.programBreak increment)) / 4096) hnew (by omega)
  have hpages : (∃ a ∈ pageRange (roundUp (newBreak o.programBreak increment))
      ((roundUp o.programBreak - roundUp (newBreak o.programBreak increment)) / 4096),
      a / 4096 = v) ↔ roundUp (newBreak o.programBreak increment) ≤ v * 4096 ∧
        v * 4096 < roundUp o.programBreak := by
    rw [hrange]
    omega
  rw [← hpages]
  refine ⟨fun hout => hothers q o v hp fun _ a ha hav => hout ⟨a, ha, hav⟩, ?_⟩
  rintro ⟨a, ha, rfl⟩
  exact hunmapped a ha

/-- What a break that rounds up to `top` has mapped, and what it has left alone. -/
structure BreakAt (m m' : Memory) (live : Nat → Option ProcMem) (q : Nat) (o : ProcMem)
    (top : Nat) : Prop where
  keeps : ∀ v, imageHas o.elf v = true ∨ stackHas v = true → m'.lookup o v = m.lookup o v
  mapped : ∀ v < kernelPage, m'.lookup o v ≠ none ↔ imageHas o.elf v = true ∨ stackHas v = true ∨
    (initialBreak o.elf ≤ v * 4096 ∧ v * 4096 < top) ∨ o.mmapHas v = true
  others : OthersKeep m m' live q

theorem breakAt_grow (h : m.Separate live) (hp : live q = some o) (hl : Layout m o)
    (hmaps : m.mapsOnly Memory.cleanAt o.procPd (sbrkPages o increment) = true)
    (hle : roundUp o.programBreak ≤ roundUp (newBreak o.programBreak increment))
    (hclear : ∀ page ∈ sbrkPages o increment, stackHas (page.vaddr / 4096) = false)
    (hrun : m.mapPages o.procPd (sbrkPages o increment) = .ok m') :
    BreakAt m m' live q o (roundUp (newBreak o.programBreak increment)) := by
  have hgrow := sbrk_grow h hp hmaps hrun
  have hinit := hl.programBreak.2.2
  have hlookup := (h.lookup_mapPages hp hmaps hrun).1
  refine ⟨fun v hv => (hgrow v).1 fun hin => ?_, fun v hkernelPage => ?_,
    fun q' x v hx hq => hlookup q' x v hx fun heq => absurd heq hq⟩
  · rcases hv with himg | hstack
    · have hbelow := (hl.image v himg).1
      omega
    · obtain ⟨page, hpage, rfl⟩ := mem_sbrkPages.2 hin
      rw [hclear page hpage] at hstack
      cases hstack
  · have hold := hl.mapped v hkernelPage
    rw [brkHas_iff hl.programBreak.2.1 hl.programBreak.1] at hold
    -- outside of the new pages the two breaks say the same
    by_cases hin : roundUp o.programBreak ≤ v * 4096 ∧
        v * 4096 < roundUp (newBreak o.programBreak increment)
    · exact iff_of_true ((hgrow v).2 hin) (.inr (.inr (.inl ⟨by omega, hin.2⟩)))
    · have hsame : (initialBreak o.elf ≤ v * 4096 ∧ v * 4096 < roundUp o.programBreak) ↔
          (initialBreak o.elf ≤ v * 4096 ∧
            v * 4096 < roundUp (newBreak o.programBreak increment)) := by omega
      rw [(hgrow v).1 hin, hold, hsame]

theorem breakAt_shrink (h : m.Separate live) (hp : live q = some o) (hl : Layout m o)
    (hinitial : initialBreak o.elf ≤ roundUp (newBreak o.programBreak increment))
    (hle : roundUp (newBreak o.programBreak increment) ≤ roundUp o.programBreak)
    (hkernel : roundUp o.programBreak ≤ roundUp (newBreak o.programBreak increment) ∨
      roundUp o.programBreak ≤ kernelVirtBaseAddr)
    (hrun : m.syscallUnmapPages o.procPd (pageRange (roundUp (newBreak o.programBreak increment))
      ((roundUp o.programBreak - roundUp (newBreak o.programBreak increment)) / 4096)) = .ok m') :
    BreakAt m m' live q o (roundUp (newBreak o.programBreak increment)) := by
  have hshrink := sbrk_shrink h hp hle hkernel hrun
  have hlookup := (h.lookup_unmapPages hp (sbrk_shrink_user hle hkernel) hrun).1
  have hbrk : ∀ v, o.brkHas v = true ↔ _ :=
    fun v => brkHas_iff hl.programBreak.2.1 hl.programBreak.1
  -- The pages that are given up were below the break, so neither image nor stack has them.
  have hgone : ∀ v, roundUp (newBreak o.programBreak increment) ≤ v * 4096 ∧
      v * 4096 < roundUp o.programBreak → o.brkHas v = true := by
    intro v hv
    rw [hbrk]
    omega
  refine ⟨fun v hv => (hshrink v).1 fun hin => ?_, fun v hkernelPage => ?_,
    fun q' x v hx hq => hlookup q' x v hx fun heq => absurd heq hq⟩
  · rcases hv with himg | hstack
    · have hbelow := (hl.image v himg).1
      omega
    · rw [hl.brk v (hgone v hin)] at hstack
      cases hstack
  · have hold := hl.mapped v hkernelPage
    by_cases hin : roundUp (newBreak o.programBreak increment) ≤ v * 4096 ∧
        v * 4096 < roundUp o.programBreak
    · have hbrkOld := hgone v hin
      have himg : imageHas o.elf v = false := by
        rw [Bool.eq_false_iff]
        intro himg
        rw [hl.not_brkHas_of_image himg] at hbrkOld
        cases hbrkOld
      have hout : ¬ (initialBreak o.elf ≤ v * 4096 ∧
          v * 4096 < roundUp (newBreak o.programBreak increment)) := by omega
      simp [(hshrink v).2 hin, hout, himg, hl.not_mmapHas_of_brk hbrkOld, hl.brk v hbrkOld]
    · have hsame : (initialBreak o.elf ≤ v * 4096 ∧ v * 4096 < roundUp o.programBreak) ↔
          (initialBreak o.elf ≤ v * 4096 ∧
            v * 4096 < roundUp (newBreak o.programBreak increment)) := by omega
      rw [(hshrink v).1 hin, hold, hbrk, hsame]

theorem syscallSbrk (h : m.Separate live) (hp : live q = some o) (hl : Layout m o)
    (hfits : o.sbrkFits increment = true)
    (hmaps : m.mapsOnly Memory.cleanAt o.procPd (sbrkPages o increment) = true)
    (hkernel : roundUp o.programBreak ≤ roundUp (newBreak o.programBreak increment) ∨
      roundUp o.programBreak ≤ kernelVirtBaseAddr)
    (hrun : Kaku.syscallSbrk m o increment = .ok (m', o', eax)) :
    Layout m' o' ∧ Keeps m m' o o' ∧ OthersKeep m m' live q := by
  obtain ⟨ho', hcase⟩ := syscallSbrk_ok hrun
  have hsame : Memory.SameFrames o o' := ⟨by rw [ho'], by rw [ho']⟩
  have helf : o'.elf = o.elf := by rw [ho']
  have hmmapHas : ∀ v, o'.mmapHas v = o.mmapHas v := fun v => by rw [ho']; rfl
  have hbreak : o'.programBreak = newBreak o.programBreak increment := by rw [ho']
  have hlt' : o'.programBreak < 2 ^ 32 := hbreak ▸ newBreak_lt hl.programBreak.1
  simp only [ProcMem.sbrkFits, Bool.and_eq_true, decide_eq_true_eq, List.all_eq_true,
    Bool.not_eq_true'] at hfits
  obtain ⟨⟨hinitial, hround⟩, hclear⟩ := hfits
  have hmoved : BreakAt m m' live q o (roundUp o'.programBreak) := by
    rw [hbreak]
    rcases hcase with ⟨hlt, hmap⟩ | ⟨hle, hunmap⟩
    · exact breakAt_grow h hp hl hmaps (by omega) (fun page hpage => (hclear page hpage).1) hmap
    · exact breakAt_shrink h hp hl hinitial hle hkernel hunmap
  rw [← hbreak] at hinitial hround
  have hbrk' : ∀ v, o'.brkHas v = true ↔ _ := fun v => brkHas_iff hround hlt'
  rw [helf] at hbrk'
  -- A page below the new break was below the old one, or is one of those that were checked.
  have hclear' : ∀ v, o'.brkHas v = true → stackHas v = false ∧ o.mmapHas v = false := by
    intro v hv
    by_cases hold : o.brkHas v = true
    · exact ⟨hl.brk v hold, hl.not_mmapHas_of_brk hold⟩
    · rw [brkHas_iff hl.programBreak.2.1 hl.programBreak.1] at hold
      rw [hbrk', hbreak] at hv
      have hbetween : roundUp o.programBreak ≤ v * 4096 ∧
          v * 4096 < roundUp (newBreak o.programBreak increment) := by omega
      obtain ⟨page, hpage, rfl⟩ := mem_sbrkPages.2 hbetween
      exact hclear page hpage
  refine ⟨⟨?_, ⟨hlt', hround, ?_⟩, fun v hv => (hclear' v hv).1, ?_, ?_, ?_, ?_, ?_⟩,
    ⟨helf, ?_⟩, hmoved.others⟩
  · rw [helf]
    exact hl.image
  · rw [helf]
    exact hinitial
  · rw [ho']
    exact hl.mmapNext
  · rw [ho']
    exact hl.regions
  · rw [ho']
    exact hl.ordered
  · intro v hv
    rw [hmmapHas] at hv
    obtain ⟨himg, -, hstack⟩ := hl.mmap v hv
    refine ⟨by rw [helf]; exact himg, ?_, hstack⟩
    rw [Bool.eq_false_iff]
    intro hbrkNew
    rw [(hclear' v hbrkNew).2] at hv
    cases hv
  · intro v hv
    rw [lookup_sameFrames hsame, hmoved.mapped v hv, helf, hmmapHas, hbrk']
  · intro v hv
    rw [lookup_sameFrames hsame]
    exact hmoved.keeps v hv

/-- A region without a page of the image or of the stack leaves the pages of both alone. -/
theorem not_has_of_clear {r : MmapRegion} {v : Nat}
    (hclear : r.has v = true →
      imageHas o.elf v = false ∧ o.brkHas v = false ∧ stackHas v = false)
    (hv : imageHas o.elf v = true ∨ stackHas v = true) : r.has v = false := by
  rw [Bool.eq_false_iff]
  intro hin
  obtain ⟨himg, -, hstack⟩ := hclear hin
  rcases hv with hv | hv
  · rw [himg] at hv
    cases hv
  · rw [hstack] at hv
    cases hv

theorem syscallMmap (h : m.Separate live) (hp : live q = some o) (hl : Layout m o)
    (hfits : o.mmapFits size = true)
    (hmaps : m.mapsOnly Memory.cleanAt o.procPd (mmapPages o size) = true)
    (hrun : Kaku.syscallMmap m o size = .ok (m', o', eax)) :
    Layout m' o' ∧ Keeps m m' o o' ∧ OthersKeep m m' live q := by
  obtain ⟨-, hnew, ho', hpages, hmapped, hkeep, hothers⟩ :=
    syscallMmap_spec h hp hl.mmapNext.1 hl.mmapNext.2 hmaps hrun
  obtain ⟨r, hr⟩ : ∃ r, r = o.newRegion size := ⟨_, rfl⟩
  rw [← hr] at hnew ho' hpages hmapped hkeep
  have hbase : r.base = o.mmapNext := by rw [hr, ProcMem.newRegion]
  have helf : o'.elf = o.elf := by rw [ho']
  have hbrkHas : ∀ v, o'.brkHas v = o.brkHas v := fun v => by rw [ho']; rfl
  have hregions : o'.mmapRegions = o.mmapRegions ++ [r] := by rw [ho']
  have hnext : o'.mmapNext = r.base + r.len := by rw [ho', hbase]
  have hmmapHas : ∀ v, o'.mmapHas v = (o.mmapHas v || r.has v) := by
    intro v
    simp [ProcMem.mmapHas, hregions]
  have hclear : ∀ v, r.has v = true →
      imageHas o.elf v = false ∧ o.brkHas v = false ∧ stackHas v = false := by
    intro v hv
    obtain ⟨page, hpage, rfl⟩ := (hpages v).2 hv
    simp only [ProcMem.mmapFits, List.all_eq_true, Bool.and_eq_true, Bool.not_eq_true'] at hfits
    obtain ⟨⟨himg, hbrk⟩, hstack⟩ := hfits page hpage
    exact ⟨himg, hbrk, hstack⟩
  -- only the regions, the cursor and what is mapped change
  refine ⟨⟨?_, ?_, ?_, ⟨?_, ?_⟩, ?_, ?_, ?_, ?_⟩,
    ⟨helf, fun v hv => hkeep v (not_has_of_clear (hclear v) hv)⟩, hothers⟩
  · rw [helf]
    exact hl.image
  · rw [ho']
    exact hl.programBreak
  · intro v hv
    rw [hbrkHas] at hv
    exact hl.brk v hv
  · have hmod := hnew.base
    have hlen := hnew.len
    rw [hnext]
    omega
  · rw [hnext]
    exact hnew.user
  · intro r' hr'
    rw [hregions] at hr'
    rw [hnext]
    rcases List.mem_append.1 hr' with hold | hlast
    · obtain ⟨hmod, hmodLen, hend⟩ := hl.regions r' hold
      exact ⟨hmod, hmodLen, by omega⟩
    · obtain rfl := List.mem_singleton.1 hlast
      exact ⟨hnew.base, hnew.len, le_rfl⟩
  · rw [hregions, List.pairwise_append]
    refine ⟨hl.ordered, List.pairwise_singleton _ _, fun r' hr' r'' hr'' => ?_⟩
    obtain rfl := List.mem_singleton.1 hr''
    rw [hbase]
    exact (hl.regions r' hr').2.2
  · intro v hv
    rw [hmmapHas, Bool.or_eq_true] at hv
    rw [helf, hbrkHas]
    exact hv.elim (hl.mmap v) (hclear v)
  · intro v hv
    rw [helf, hbrkHas, hmmapHas, Bool.or_eq_true]
    by_cases hin : r.has v = true
    · exact iff_of_true (hmapped v hin) (.inr (.inr (.inr (.inr hin))))
    · rw [hkeep v (by simpa using hin), hl.mapped v hv]
      simp [hin]

theorem syscallMunmap (h : m.Separate live) (hp : live q = some o) (hl : Layout m o)
    (hrun : Kaku.syscallMunmap m o addr = .ok (m', o', eax)) :
    Layout m' o' ∧ Keeps m m' o o' ∧ OthersKeep m m' live q := by
  rcases syscallMunmap_ok hrun with ⟨-, rfl, rfl, -⟩ | ⟨r, hfind, -, -, -⟩
  · exact ⟨hl, ⟨rfl, fun v hv => rfl⟩, fun q' x v hx hq => rfl⟩
  obtain ⟨hbaseEq, l₁, l₂, hsplit, hbefore⟩ := List.find?_eq_some_iff_append.1 hfind
  obtain rfl : r.base = addr := of_decide_eq_true hbaseEq
  have hmem : r ∈ o.mmapRegions := by
    rw [hsplit]
    simp
  obtain ⟨hbase, hlen, hend⟩ := hl.regions r hmem
  obtain ⟨m₁, hrun', hunmaps⟩ := syscallMunmap_spec h hp hsplit
    (fun r' hr' => by simpa using hbefore r' hr') ⟨hbase, hlen, hend.trans hl.mmapNext.2⟩
  rw [hrun, Except.ok.injEq, Prod.mk.injEq, Prod.mk.injEq] at hrun'
  obtain ⟨rfl, ho', -⟩ := hrun'
  have hsame : Memory.SameFrames o o' := ⟨by rw [ho'], by rw [ho']⟩
  have helf : o'.elf = o.elf := by rw [ho']
  have hbrkHas : ∀ v, o'.brkHas v = o.brkHas v := fun v => by rw [ho']; rfl
  have hrest : o'.mmapRegions = l₁ ++ l₂ := by rw [ho']
  have hmmapHas : ∀ v, o.mmapHas v = (o'.mmapHas v || r.has v) := by
    intro v
    simp only [ProcMem.mmapHas, hsplit, hrest, List.any_append, List.any_cons]
    cases r.has v <;> simp
  have hgone : ∀ v, r.has v = true → o'.mmapHas v = false := by
    intro v hv
    rw [ProcMem.mmapHas, hrest]
    exact hl.only_region hsplit hv
  have hkeep : ∀ v, r.has v = false → m'.lookup o' v = m.lookup o v := by
    intro v hv
    rw [lookup_sameFrames hsame]
    exact hunmaps.kept q o v hp fun _ => hv
  have hsub : ∀ r' ∈ o'.mmapRegions, r' ∈ o.mmapRegions := by
    intro r' hr'
    rw [hrest] at hr'
    rw [hsplit]
    simp only [List.mem_append, List.mem_cons] at hr' ⊢
    tauto
  have hclear : ∀ v, r.has v = true →
      imageHas o.elf v = false ∧ o.brkHas v = false ∧ stackHas v = false := by
    intro v hv
    apply hl.mmap v
    rw [hmmapHas, hv, Bool.or_true]
  -- with one region less everything else is as it was
  refine ⟨⟨?_, ?_, ?_, ?_, ?_, ?_, ?_, ?_⟩,
    ⟨helf, fun v hv => hkeep v (not_has_of_clear (hclear v) hv)⟩,
    fun q' x v hx hq => hunmaps.kept q' x v hx fun heq => absurd heq hq⟩
  · rw [helf]
    exact hl.image
  · rw [ho']
    exact hl.programBreak
  · intro v hv
    rw [hbrkHas] at hv
    exact hl.brk v hv
  · rw [ho']
    exact hl.mmapNext
  · intro r' hr'
    rw [ho']
    exact hl.regions r' (hsub r' hr')
  · rw [hrest]
    have hordered := hl.ordered
    rw [hsplit] at hordered
    exact hordered.sublist ((List.sublist_cons_self r l₂).append_left l₁)
  · intro v hv
    rw [helf, hbrkHas]
    apply hl.mmap v
    rw [hmmapHas, hv, Bool.true_or]
  · intro v hv
    rw [helf, hbrkHas]
    by_cases hr : r.has v = true
    · obtain ⟨himg, hbrk, hstack⟩ := hclear _ hr
      rw [lookup_sameFrames hsame, hunmaps.gone v hr]
      simp [himg, hbrk, hstack, hgone _ hr]
    · have hfalse : r.has v = false := by simpa using hr
      rw [hkeep v hfalse, hl.mapped v hv, hmmapHas, hfalse, Bool.or_false]

/-! ### Loading -/

theorem mem_userStackPages {v : Nat} :
    (∃ page ∈ userStackPages, page.vaddr / 4096 = v) ↔ stackHas v = true := by
  simp only [userStackPages, List.mem_map, List.mem_range, exists_exists_and_eq_and, stackHas,
    decide_eq_true_eq]
  constructor
  · rintro ⟨i, hi, rfl⟩
    omega
  · rintro ⟨hlo, hhi⟩
    exact ⟨0x7FFF - v, by omega, by omega⟩

/-- A new process has the pages of its image and of its stack. -/
theorem elfLoad {elf : Mem} (h : m.Separate live) (hp : live q = some o)
    (hempty : ∀ v, m.lookup o v = none) (hfits : imageFits elf = true)
    (hmaps : m.mapsOnly Memory.cleanAt o.procPd (loadPages elf) = true)
    (hregions : o.mmapRegions = []) (hrun : m.mapPages o.procPd (loadPages elf) = .ok m')
    (ho' : o' = { o with
      programBreak := roundUp (imageEnd elf)
      mmapNext := 0x7000000
      elf := elf }) : Layout m' o' := by
  obtain ⟨hothers, hmapped⟩ := h.lookup_mapPages hp hmaps hrun
  have hsame : Memory.SameFrames o o' := ⟨by rw [ho'], by rw [ho']⟩
  have helf : o'.elf = elf := by rw [ho']
  have hbreak : o'.programBreak = initialBreak elf := by rw [ho']; rfl
  have hnone : o'.mmapRegions = [] := by rw [ho', ← hregions]
  have hmmap : ∀ v, o'.mmapHas v = false := fun v => by simp [ProcMem.mmapHas, hnone]
  have hbrk : ∀ v, o'.brkHas v = false := by
    intro v
    rw [ProcMem.brkHas, helf, hbreak, decide_eq_false_iff_not]
    omega
  -- the pages of the stack and of the segments are mapped, and nothing else
  have hpages : ∀ v, (∃ page ∈ loadPages elf, page.vaddr / 4096 = v) ↔
      stackHas v = true ∨ imageHas elf v = true := by
    intro v
    rw [← mem_userStackPages, imageHas, List.any_eq_true, loadPages]
    simp only [List.mem_append, or_and_right, exists_or, beq_iff_eq]
  simp only [imageFits, List.all_eq_true, Bool.and_eq_true, decide_eq_true_eq,
    Bool.not_eq_true'] at hfits
  refine ⟨?_, ⟨?_, ?_, ?_⟩, ?_, ?_, ?_, ?_, ?_, ?_⟩
  · intro v hv
    rw [helf] at hv ⊢
    rw [imageHas, List.any_eq_true] at hv
    obtain ⟨page, hpage, hpv⟩ := hv
    obtain rfl := beq_iff_eq.1 hpv
    obtain ⟨hbelow, hstack⟩ := hfits page hpage
    have hkernel := (Memory.mapsOnly_iff.1 hmaps).1 page (List.mem_append_right _ hpage)
    rw [kernelVirtBaseAddr] at hkernel
    refine ⟨by omega, hstack, ?_⟩
    rw [kernelPage]
    omega
  · rw [hbreak]
    exact roundUp_lt _
  · rw [hbreak, initialBreak, roundUp_roundUp]
  · rw [hbreak, helf, initialBreak, roundUp_roundUp]
  · intro v hv
    rw [hbrk] at hv
    cases hv
  · have hnext : o'.mmapNext = 0x7000000 := by rw [ho']
    rw [hnext, kernelVirtBaseAddr]
    decide
  · intro r hr
    rw [hnone] at hr
    cases hr
  · rw [hnone]
    exact .nil
  · intro v hv
    rw [hmmap] at hv
    cases hv
  · intro v hv
    rw [helf, hbrk, hmmap, lookup_sameFrames hsame]
    by_cases hpage : ∃ page ∈ loadPages elf, page.vaddr / 4096 = v
    · have harea := (hpages v).1 hpage
      obtain ⟨page, hmem, rfl⟩ := hpage
      exact iff_of_true (hmapped page hmem) (by tauto)
    · have hout : m'.lookup o v = m.lookup o v :=
        hothers q o v hp fun _ page hmem heq => hpage ⟨page, hmem, heq⟩
      rw [hpages] at hpage
      rw [hout, hempty v]
      simp only [ne_eq, not_true_eq_false, Bool.false_eq_true, or_false, false_iff]
      tauto

end Layout

/-! ## Runs -/

namespace System

variable {s s' : System} {e : SpaceEvent} {p q : Nat} {o o' : ProcMem}

/-- Nothing about memory, for the invariants that need no more than `Sound`. -/
theorem trivial_kept (C : Memory → Nat → Nat → Bool) : Kept C fun _ _ => True :=
  ⟨fun _ _ _ _ _ _ => trivial, fun _ _ _ _ => trivial, fun _ _ _ _ _ => trivial,
    fun _ _ _ _ _ => trivial, fun _ _ _ _ => trivial⟩

theorem Sound.maps (h : s.Sound) (hmaps : s.Maps Memory.cleanAt e = true) (hstep : s.step e = .ok s') :
    s'.Sound :=
  (h.step (trivial_kept _) (fun _ _ _ hC => hC) hmaps hstep trivial).1

/-- Every process has its areas apart, and exactly their pages mapped. -/
def Laid (s : System) : Prop := ∀ {p o}, s.procs p = some o → Layout s.mem o

/-- What a step does to the processes that exist before and after it. -/
def Advances (s s' : System) : Prop :=
  s'.Laid ∧ ∀ {p o o'}, s.procs p = some o → s'.procs p = some o' → Keeps s.mem s'.mem o o'

theorem lookup_of_holding {m : Memory} {live : Nat → Option ProcMem} {v : Nat}
    (hhold : m.holding live (q, .page (v / 1024) (v % 1024)) =
      s.mem.holding s.procs (q, .page (v / 1024) (v % 1024)))
    (ho : s.procs q = some o) (ho' : live q = some o) : m.lookup o v = s.mem.lookup o v := by
  rw [← Memory.holding_lookup ho', hhold, Memory.holding_lookup ho]

/-- Nothing changes for a process that keeps its object and what it has mapped. -/
theorem keeps_of_lookup {m : Memory} (hlookup : ∀ v, m.lookup o v = s.mem.lookup o v) :
    Keeps s.mem m o o := ⟨rfl, fun v _ => hlookup v⟩

/-- A step that changes nothing of what is mapped. -/
theorem advances_same {m : Memory} (hl : s.Laid)
    (hhold : m.holding s.procs = s.mem.holding s.procs) : Advances s { s with mem := m } := by
  have hlookup : ∀ {q o}, s.procs q = some o → ∀ v, m.lookup o v = s.mem.lookup o v :=
    fun ho v => lookup_of_holding (congrFun hhold _) ho ho
  refine ⟨fun ho => (hl ho).congr (hlookup ho), fun {q o o'} ho ho' => ?_⟩
  obtain rfl : o = o' := Option.some.inj (ho.symm.trans ho')
  exact keeps_of_lookup (hlookup ho)

/-- A step that changes one process. -/
theorem advances_update {m : Memory} (hl : s.Laid) (hp : s.procs p = some o)
    (hlayout : Layout m o') (hkeeps : Keeps s.mem m o o') (hothers : OthersKeep s.mem m s.procs p) :
    Advances s (s.update m p (some o')) := by
  refine ⟨fun {q x} hx => ?_, fun {q x x'} hx hx' => ?_⟩
  · simp only [update] at hx ⊢
    rcases eq_or_ne q p with rfl | hq
    · rw [Function.update_self] at hx
      rwa [← Option.some.inj hx]
    · rw [Function.update_of_ne hq] at hx
      exact (hl hx).congr fun v => hothers q x v hx hq
  · simp only [update] at hx' ⊢
    rcases eq_or_ne q p with rfl | hq
    · rw [Function.update_self] at hx'
      rw [← Option.some.inj hx', ← Option.some.inj (hp.symm.trans hx)]
      exact hkeeps
    · rw [Function.update_of_ne hq] at hx'
      obtain rfl : x = x' := Option.some.inj (hx.symm.trans hx')
      exact keeps_of_lookup fun v => hothers q x v hx hq

/-- What a step that loads a file does to the process that it creates, and to the others. -/
theorem exec_others {elf : Mem} {m : Memory} {x : ProcMem} (h : s.Sound)
    (hmaps : s.Maps Memory.cleanAt (.exec (some elf)) = true)
    (hload : elfLoad (s.memFor s.pidCounter) s.pidCounter (some elf) = .ok (m, some x)) :
    x.procId = s.pidCounter ∧ s.procs s.pidCounter = none ∧ x.mmapRegions = [] ∧
      OthersKeep s.mem m s.procs s.pidCounter := by
  obtain ⟨hpid, hmagic, m₁, o, hobject, hpages, hx⟩ := elfLoad_some hload
  simp only [Maps, hmagic, bne_self_eq_false, Bool.false_or, hobject] at hmaps
  have hdead := h.pids hpid s.pidCounter le_rfl
  obtain ⟨hs₁, hcreate, hprocId⟩ := (h.memFor s.pidCounter).createEffect hdead hobject
  refine ⟨by rw [hx, ← hprocId], hdead, by rw [hx]; exact hcreate.regions, fun q y v hy hq => ?_⟩
  have ho : Function.update s.procs s.pidCounter (some o) s.pidCounter = some o :=
    Function.update_self ..
  have hy' : Function.update s.procs s.pidCounter (some o) q = some y := by
    rw [Function.update_of_ne hq, hy]
  have hsamePages : m₁.holding (Function.update s.procs s.pidCounter (some o))
      (q, .page (v / 1024) (v % 1024)) = s.mem.holding s.procs (q, .page (v / 1024) (v % 1024)) := by
    rw [hcreate.hold, Function.update_of_ne (by simp), Function.update_of_ne (by simp)]
    rfl
  rw [(hs₁.lookup_mapPages ho hmaps hpages).1 q y v hy' fun heq => absurd heq hq]
  exact lookup_of_holding hsamePages hy hy'

theorem advances_exec {elf : Mem} {m : Memory} {p : ProcMem} (h : s.Sound) (hl : s.Laid)
    (hfits : s.Fits (.exec (some elf)) = true)
    (hload : elfLoad (s.memFor s.pidCounter) s.pidCounter (some elf) = .ok (m, some p)) :
    Advances s { s.update m p.procId (some p) with pidCounter := addr32 (s.pidCounter + 1) } := by
  simp only [Fits, Bool.and_eq_true] at hfits
  obtain ⟨hid, hdead, -, hothers⟩ := exec_others h hfits.1 hload
  obtain ⟨-, hmagic, m₁, o, hobject, hpages, hp⟩ := elfLoad_some hload
  simp only [Maps, hmagic, bne_self_eq_false, Bool.false_or, hobject] at hfits
  obtain ⟨hs₁, hcreate, -⟩ := (h.memFor s.pidCounter).createEffect hdead hobject
  have ho : Function.update s.procs s.pidCounter (some o) s.pidCounter = some o :=
    Function.update_self ..
  -- a new directory has nothing in its user half, so the load maps all that the process has
  have hempty : ∀ v, m₁.lookup o v = none := by
    intro v
    rw [← Memory.holding_lookup ho, hcreate.hold, Function.update_of_ne (by simp),
      Function.update_of_ne (by simp), Memory.holding_of_dead hdead]
  have hlayout := Layout.elfLoad hs₁ ho hempty hfits.2 hfits.1 hcreate.regions hpages hp
  refine ⟨fun {q x} hx => ?_, fun {q x x'} hx hx' => ?_⟩
  · simp only [update, hid] at hx ⊢
    rcases eq_or_ne q s.pidCounter with rfl | hq
    · rw [Function.update_self] at hx
      rwa [← Option.some.inj hx]
    · rw [Function.update_of_ne hq] at hx
      exact (hl hx).congr fun v => hothers q x v hx hq
  · simp only [update, hid] at hx' ⊢
    have hq : q ≠ s.pidCounter := by
      rintro rfl
      rw [hdead] at hx
      cases hx
    rw [Function.update_of_ne hq] at hx'
    obtain rfl : x = x' := Option.some.inj (hx.symm.trans hx')
    exact keeps_of_lookup fun v => hothers q x v hx hq

/-- The others have mapped what they had when a process is gone. -/
theorem reap_others {m : Memory} (h : s.Sound) (hp : s.procs p = some o)
    (hrun : procDestroy (s.memFor p) o = .ok m) : OthersKeep s.mem m s.procs p := by
  have hs := h.memFor p
  rw [hs.procDestroy_eq hp] at hrun
  obtain ⟨-, -, hhold, -⟩ := hs.destroy hp hrun
  intro q x v hx hq
  have hx' : Function.update s.procs p none q = some x := by rw [Function.update_of_ne hq, hx]
  apply lookup_of_holding _ hx hx'
  simp only [hhold, if_neg hq]
  rfl

theorem advances_reap {m : Memory} (h : s.Sound) (hl : s.Laid) (hp : s.procs p = some o)
    (hrun : procDestroy (s.memFor p) o = .ok m) : Advances s (s.update m p none) := by
  have hothers := reap_others h hp hrun
  refine ⟨fun {q x} hx => ?_, fun {q x x'} hx hx' => ?_⟩
  · simp only [update] at hx ⊢
    rcases eq_or_ne q p with rfl | hq
    · rw [Function.update_self] at hx
      cases hx
    · rw [Function.update_of_ne hq] at hx
      exact (hl hx).congr fun v => hothers q x v hx hq
  · simp only [update] at hx' ⊢
    rcases eq_or_ne q p with rfl | hq
    · rw [Function.update_self] at hx'
      cases hx'
    · rw [Function.update_of_ne hq] at hx'
      obtain rfl : x = x' := Option.some.inj (hx.symm.trans hx')
      exact keeps_of_lookup fun v => hothers q x v hx hq

/-- What a write to a frame that is neither a directory nor a table does to the slots. -/
theorem holding_fill {slot : Slot} {f j n : Nat} (h : s.Sound)
    (hheld : s.mem.holding s.procs (p, slot) = some f)
    (hslot : slot ≠ .directory ∧ ∀ i, slot ≠ .table i) (src : Mem) (hn : j + n ≤ 4096) :
    (s.mem.fill f j n src).holding s.procs = s.mem.holding s.procs :=
  (h.separate.fill_held hheld hslot src hn).1

/-- Every step that stays clear keeps the areas apart, and every process its image and its stack. -/
theorem advances_step (h : s.Sound) (hl : s.Laid) (hfits : s.Fits e = true)
    (hstep : s.step e = .ok s') : Advances s s' := by
  cases step_effect hstep with
  | refused file => exact advances_same hl rfl
  | loaded hload => exact advances_exec h hl hfits hload
  | @sbrk p increment eax m o o' hp hrun =>
    simp only [Fits, Maps, hp, Option.all_some, Bool.and_eq_true, Bool.or_eq_true,
      decide_eq_true_eq] at hfits
    obtain ⟨⟨hmaps, hkernel⟩, hclear⟩ := hfits
    obtain ⟨hlayout, hkeeps, hothers⟩ :=
      Layout.syscallSbrk (h.memFor p) hp ((hl hp).congr fun v => rfl) hclear hmaps hkernel hrun
    exact advances_update hl hp hlayout ⟨hkeeps.elf, hkeeps.lookup⟩ hothers
  | @mmap p size eax m o o' hp hrun =>
    simp only [Fits, Maps, hp, Option.all_some, Bool.and_eq_true] at hfits
    obtain ⟨hlayout, hkeeps, hothers⟩ :=
      Layout.syscallMmap (h.memFor p) hp ((hl hp).congr fun v => rfl) hfits.2 hfits.1 hrun
    exact advances_update hl hp hlayout ⟨hkeeps.elf, hkeeps.lookup⟩ hothers
  | @munmap p addr eax m o o' hp hrun =>
    obtain ⟨hlayout, hkeeps, hothers⟩ :=
      Layout.syscallMunmap (h.memFor p) hp ((hl hp).congr fun v => rfl) hrun
    exact advances_update hl hp hlayout ⟨hkeeps.elf, hkeeps.lookup⟩ hothers
  | store hp hframe =>
    exact advances_same hl (holding_fill h (userFrame_held hp hframe) (by simp) _ (by omega))
  | trap hp stack =>
    exact advances_same hl (holding_fill h (kernelStack_held hp) (by simp) stack (by omega))
  | reap hp hrun => exact advances_reap h hl hp hrun

end System

end Kaku

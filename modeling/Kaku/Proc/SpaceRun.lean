-- SUMMARY: Runs of the memory system: when mapping is clean, and what every clean run keeps.
import Kaku.Lib.Run
import Kaku.Proc.Slots

/-!
# Runs of the memory system

`paging_map` neither clears a page table that it allocates nor looks at the entry
that it overwrites, and nothing keeps an address out of the kernel half. A run
is clean when no mapping of it lies in the kernel half or sets up a table that
has stale entries. In a clean run the processes hold their frames exclusively.
-/

namespace Kaku

namespace Memory

/-- A condition on each page of a list, in the memory in which the page is mapped. -/
def allPages (C : Memory → Nat → Nat → Bool) (m : Memory) (pd : Nat) : List NewPage → Bool
  | [] => true
  | page :: pages =>
    C m pd page.vaddr &&
      match m.mapPage pd page with
      | .ok m' => m'.allPages C pd pages
      | .error _ => true

/-- Pages of the user half, each of which meets the condition when it is mapped. -/
def mapsOnly (C : Memory → Nat → Nat → Bool) (m : Memory) (pd : Nat) (pages : List NewPage) : Bool :=
  (pages.all fun page => decide (page.vaddr < kernelVirtBaseAddr)) && m.allPages C pd pages

variable {m m' : Memory} {live : Nat → Option ProcMem} {p p' : ProcMem} {q : Nat}
  {C D : Memory → Nat → Nat → Bool} {pages pages' : List NewPage} {addrs : List Nat}
  {P : Memory → Prop}

theorem mapsOnly_iff {pd : Nat} : m.mapsOnly C pd pages = true ↔
    (∀ page ∈ pages, page.vaddr < kernelVirtBaseAddr) ∧ m.allPages C pd pages = true := by
  simp [mapsOnly]

/-! ## Lists of pages -/

theorem mapPage_client {page : NewPage} {pd : Nat} (h : m.mapPage pd page = .ok m') :
    m'.client = m.client := by
  simp only [mapPage, bind_eq_ok, Prod.exists] at h
  obtain ⟨m₁, f, ha, m₂, hpaging, hcontent⟩ := h
  have h₁ : m₁.client = m.client := by
    obtain ⟨rfl, -, -⟩ := faAlloc_eq_ok ha
    rfl
  have h₂ : m₂.client = m₁.client := by
    simp only [pagingMap] at hpaging
    split at hpaging
    · simp only [bind_eq_ok, Prod.exists, pure_eq_ok, exists_eq_left'] at hpaging
      obtain ⟨m₃, g, hg, pt, -, rfl⟩ := hpaging
      obtain ⟨rfl, -, -⟩ := faAlloc_eq_ok hg
      rfl
    · simp only [bind_eq_ok, pure_eq_ok, exists_eq_left'] at hpaging
      obtain ⟨pt, -, rfl⟩ := hpaging
      rfl
  have h' : m'.client = m₂.client := by
    split at hcontent
    · simp only [pure_eq_ok] at hcontent
      rw [hcontent]
    · simp only [bind_eq_ok, pure_eq_ok] at hcontent
      obtain ⟨dst, -, rfl⟩ := hcontent
      rfl
  rw [h', h₂, h₁]

theorem mapPages_append {pd : Nat} : m.mapPages pd (pages ++ pages') =
    m.mapPages pd pages >>= fun m' => m'.mapPages pd pages' := by
  induction pages generalizing m with
  | nil => rfl
  | cons page pages ih =>
    simp only [List.cons_append, mapPages]
    cases m.mapPage pd page with
    | error e => rfl
    | ok m₁ => exact ih

namespace Separate

/-- What mapping one page preserves, mapping a list of pages preserves. -/
theorem mapPages (hC : ∀ m pd v, C m pd v = true → m.cleanAt pd v = true)
    (hstep : ∀ m m' v f, m.Separate live → m'.client = m.client → C m p.procPd v = true →
      MapEffect m live q (v / 2 ^ 22) (v / 2 ^ 12 % 1024) f m' → P m → P m')
    (h : m.Separate live) (hp : live q = some p) (hall : m.mapsOnly C p.procPd pages = true)
    (hrun : m.mapPages p.procPd pages = .ok m') (hP : P m) : m'.Separate live ∧ P m' := by
  induction pages generalizing m with
  | nil =>
    obtain rfl : m = m' := by simpa [Memory.mapPages] using hrun
    exact ⟨h, hP⟩
  | cons page pages ih =>
    simp only [Memory.mapPages, bind_eq_ok] at hrun
    obtain ⟨m₁, hmap, hrest⟩ := hrun
    simp only [mapsOnly_iff, allPages, hmap, Bool.and_eq_true] at hall
    obtain ⟨hv, hfirst, hlater⟩ := hall
    obtain ⟨hs₁, f, heffect⟩ :=
      h.mapEffect hp (hv page List.mem_cons_self) (hC _ _ _ hfirst) hmap
    have hP₁ := hstep _ _ _ f h (mapPage_client hmap) hfirst heffect hP
    have hall₁ := mapsOnly_iff.2 ⟨fun page' hpage => hv page' (List.mem_cons_of_mem _ hpage), hlater⟩
    exact ih hs₁ hall₁ hrest hP₁

/-- Unmapping pages of the user half always succeeds, and preserves what unmapping
one page preserves. -/
theorem unmapPages
    (hstep : ∀ m m' v, m.Separate live → m'.client = m.client →
      UnmapEffect m live q (v / 2 ^ 22) (v / 2 ^ 12 % 1024) m' → P m → P m')
    (h : m.Separate live) (hp : live q = some p) (hv : ∀ a ∈ addrs, a < kernelVirtBaseAddr)
    (hP : P m) :
    ∃ m', m.syscallUnmapPages p.procPd addrs = .ok m' ∧ m'.Separate live ∧ P m' := by
  induction addrs generalizing m with
  | nil => exact ⟨m, rfl, h, hP⟩
  | cons a addrs ih =>
    obtain ⟨m₁, hrun, hs₁, heffect⟩ := h.unmapEffect hp (hv a List.mem_cons_self)
    obtain ⟨m', hrest, hs', hP'⟩ := ih hs₁ (fun b hb => hv b (List.mem_cons_of_mem _ hb))
      (hstep _ _ _ h heffect.client heffect hP)
    refine ⟨m', ?_, hs', hP'⟩
    rw [syscallUnmapPages, hrun, ok_bind, hrest]

end Separate

/-! ## Changing the object -/

/-- The fields that the slots of a process depend on. -/
def SameFrames (p p' : ProcMem) : Prop :=
  p'.procPd = p.procPd ∧ p'.kernelStack = p.kernelStack

theorem slot_sameFrames (h : SameFrames p p') : m.slot p' = m.slot p := by
  funext s
  have hks : p'.kernelStackFrame = p.kernelStackFrame := by
    rw [ProcMem.kernelStackFrame, ProcMem.kernelStackFrame, h.2]
  cases s with
  | kernelStack => rw [slot, slot, hks]
  | directory => rw [slot, slot, h.1]
  | table i => rw [slot, slot, h.1]
  | page i j => rw [slot, slot, h.1]

theorem holding_update (hp : live q = some p) (hsame : SameFrames p p') :
    m.holding (Function.update live q (some p')) = m.holding live := by
  funext ⟨q', s⟩
  rcases eq_or_ne q' q with rfl | hq
  · rw [holding_of_live (Function.update_self ..), holding_of_live hp, slot_sameFrames hsame]
  · rw [holding, holding, Function.update_of_ne hq]

namespace Separate

theorem update (h : m.Separate live) (hp : live q = some p) (hsame : SameFrames p p') :
    m.Separate (Function.update live q (some p')) := by
  refine ⟨h.window, ?_, ?_⟩
  · intro q' o i ho hi
    rcases eq_or_ne q' q with rfl | hq
    · rw [Function.update_self] at ho
      obtain rfl : p' = o := Option.some.inj ho
      rw [hsame.1]
      exact h.entries hp hi
    · rw [Function.update_of_ne hq] at ho
      exact h.entries ho hi
  · rw [holding_update hp hsame]
    exact h.exclusive

theorem memFor (h : m.Separate live) : { m with client := q }.Separate live :=
  ⟨h.window, h.entries, h.exclusive⟩

end Separate

end Memory

/-! ## Loading -/

section Loading

variable {m m' : Memory} {elf : Mem} {p p' : ProcMem} {pid : Nat}

/-- The pages that loading a file maps, in order. -/
def loadPages (elf : Mem) : List NewPage := userStackPages ++ imagePages elf

theorem elfLoad_none (h : elfLoad m pid (some elf) = .ok (m', none)) : m' = m := by
  simp only [elfLoad] at h
  split at h
  · simp only [pure_eq_ok, Prod.mk.injEq] at h
    exact h.1.symm
  · simp only [bind_eq_ok, pure_eq_ok, Prod.mk.injEq, reduceCtorEq, and_false, exists_false] at h

/-- Loading creates the object, maps its pages and sets its break. -/
theorem elfLoad_some (h : elfLoad m pid (some elf) = .ok (m', some p)) :
    pid ≠ 0 ∧ elf.load 0 4 = elfMagic ∧ ∃ m₁ o, procObject m pid (elf.load 24 4) = .ok (m₁, o) ∧
      m₁.mapPages o.procPd (loadPages elf) = .ok m' ∧
      p = { o with
        programBreak := roundUp (imageEnd elf)
        mmapNext := 0x7000000
        elf := elf } := by
  simp only [elfLoad] at h
  split at h
  · simp only [pure_eq_ok, Prod.mk.injEq, reduceCtorEq, and_false] at h
  · rename_i hmagic
    simp only [procCreate] at h
    split at h
    · simp only [error_bind, reduceCtorEq] at h
    · rename_i hpid
      simp only [bind_eq_ok, Prod.exists, pure_eq_ok, Prod.mk.injEq, Option.some.injEq] at h
      obtain ⟨m₂, o, ⟨m₁, o', hobject, m₃, hstack, rfl, rfl⟩, m₄, himage, rfl, rfl⟩ := h
      refine ⟨hpid, not_not.1 hmagic, m₁, o', hobject, ?_, rfl⟩
      rw [loadPages, Memory.mapPages_append, hstack, ok_bind, himage]

end Loading

/-! ## System calls -/

section Syscalls

variable {m m' : Memory} {p p' : ProcMem} {eax increment size addr : Nat}

theorem syscallSbrk_ok (h : syscallSbrk m p increment = .ok (m', p', eax)) :
    p' = { p with programBreak := newBreak p.programBreak increment } ∧
      (roundUp p.programBreak < roundUp (newBreak p.programBreak increment) ∧
          m.mapPages p.procPd (sbrkPages p increment) = .ok m' ∨
        roundUp (newBreak p.programBreak increment) ≤ roundUp p.programBreak ∧
          m.syscallUnmapPages p.procPd (pageRange (roundUp (newBreak p.programBreak increment))
            ((roundUp p.programBreak - roundUp (newBreak p.programBreak increment)) / 4096)) =
              .ok m') := by
  simp only [syscallSbrk] at h
  split at h
  · rename_i hgrow
    simp only [bind_eq_ok, pure_eq_ok, Prod.mk.injEq] at h
    obtain ⟨m₁, hrun, rfl, rfl, -⟩ := h
    exact ⟨rfl, .inl ⟨hgrow, hrun⟩⟩
  · rename_i hshrink
    simp only [bind_eq_ok, pure_eq_ok, Prod.mk.injEq] at h
    obtain ⟨m₁, hrun, rfl, rfl, -⟩ := h
    exact ⟨rfl, .inr ⟨by omega, hrun⟩⟩

theorem syscallMmap_ok (h : syscallMmap m p size = .ok (m', p', eax)) :
    m.mapPages p.procPd (mmapPages p size) = .ok m' ∧ eax = p.mmapNext ∧
      p' = { p with
        mmapRegions := p.mmapRegions ++ [⟨p.mmapNext, addr32 (mmapPageCount size * 4096)⟩]
        mmapNext := addr32 (p.mmapNext + addr32 (mmapPageCount size * 4096)) } := by
  simp only [syscallMmap, bind_eq_ok, pure_eq_ok, Prod.mk.injEq] at h
  obtain ⟨m₁, hrun, rfl, rfl, rfl⟩ := h
  exact ⟨hrun, rfl, rfl⟩

/-- The length of a new region is not truncated. -/
theorem mmap_len : addr32 (mmapPageCount size * 4096) / 4096 = mmapPageCount size := by
  simp only [mmapPageCount, addr32]
  omega

theorem syscallMunmap_ok (h : syscallMunmap m p addr = .ok (m', p', eax)) :
    (p.mmapRegions.find? fun r => r.base = addr) = none ∧ m' = m ∧ p' = p ∧ eax = 0xFFFFFFFF ∨
      ∃ r, (p.mmapRegions.find? fun r => r.base = addr) = some r ∧ eax = 0 ∧
        m.syscallUnmapPages p.procPd (pageRange addr (r.len / 4096)) = .ok m' ∧
        p' = { p with mmapRegions := p.mmapRegions.eraseP fun r => r.base = addr } := by
  simp only [syscallMunmap] at h
  split at h
  · rename_i hfind
    simp only [pure_eq_ok, Prod.mk.injEq] at h
    obtain ⟨rfl, rfl, rfl⟩ := h
    exact .inl ⟨hfind, rfl, rfl, rfl⟩
  · rename_i r hfind
    simp only [bind_eq_ok, pure_eq_ok, Prod.mk.injEq] at h
    obtain ⟨m₁, hrun, rfl, rfl, rfl⟩ := h
    exact .inr ⟨r, hfind, rfl, hrun, rfl⟩

/-- The pages that a smaller break gives up lie below the old one. -/
theorem pageRange_lt {lo hi a : Nat} (hlo : lo % 4096 = 0) (hhi : hi % 4096 = 0)
    (h : a ∈ pageRange lo ((hi - lo) / 4096)) : a < hi := by
  obtain ⟨i, hi, rfl⟩ := List.mem_map.1 h
  have hlt := List.mem_range.1 hi
  have hle := Nat.mod_le (lo + i * 4096) (2 ^ 32)
  simp only [addr32]
  omega

theorem roundUp_mod (a : Nat) : roundUp a % 4096 = 0 := by
  rw [roundUp]
  omega

/-- What a smaller break gives up is in the user half. -/
theorem sbrk_shrink_user
    (hle : roundUp (newBreak p.programBreak increment) ≤ roundUp p.programBreak)
    (hkernel : roundUp p.programBreak ≤ roundUp (newBreak p.programBreak increment) ∨
      roundUp p.programBreak ≤ kernelVirtBaseAddr) :
    ∀ a ∈ pageRange (roundUp (newBreak p.programBreak increment))
      ((roundUp p.programBreak - roundUp (newBreak p.programBreak increment)) / 4096),
      a < kernelVirtBaseAddr := by
  intro a ha
  have hbelow := pageRange_lt (roundUp_mod _) (roundUp_mod _) ha
  rcases hkernel with hge | hkernel
  · rw [Nat.le_antisymm hge hle, Nat.sub_self] at ha
    cases ha
  · omega

end Syscalls

/-! ## Steps -/

namespace System

/-- What a step does: one constructor for each way through it. -/
inductive Effect (s : System) : SpaceEvent → System → Prop
  | refused (file : Option Mem) : Effect s (.exec file) { s with mem := s.memFor s.pidCounter }
  | loaded {elf : Mem} {m : Memory} {o : ProcMem}
      (hload : elfLoad (s.memFor s.pidCounter) s.pidCounter (some elf) = .ok (m, some o)) :
      Effect s (.exec (some elf))
        { s.update m o.procId (some o) with pidCounter := addr32 (s.pidCounter + 1) }
  | sbrk {p increment eax : Nat} {m : Memory} {o o' : ProcMem} (hp : s.procs p = some o)
      (hrun : syscallSbrk (s.memFor p) o increment = .ok (m, o', eax)) :
      Effect s (.sbrk p increment) (s.update m p (some o'))
  | mmap {p size eax : Nat} {m : Memory} {o o' : ProcMem} (hp : s.procs p = some o)
      (hrun : syscallMmap (s.memFor p) o size = .ok (m, o', eax)) :
      Effect s (.mmap p size) (s.update m p (some o'))
  | munmap {p addr eax : Nat} {m : Memory} {o o' : ProcMem} (hp : s.procs p = some o)
      (hrun : syscallMunmap (s.memFor p) o addr = .ok (m, o', eax)) :
      Effect s (.munmap p addr) (s.update m p (some o'))
  | store {p addr frame : Nat} {byte : UInt8} {o : ProcMem} (hp : s.procs p = some o)
      (hframe : userFrame s.mem o addr = some frame) :
      Effect s (.store p addr byte) { s with mem := s.mem.fill frame (addr % 4096) 1 fun _ => byte }
  | trap {p : Nat} {o : ProcMem} (hp : s.procs p = some o) (stack : Mem) :
      Effect s (.trap p stack) { s with mem := s.mem.fill o.kernelStackFrame 0 4096 stack }
  | reap {p : Nat} {m : Memory} {o : ProcMem} (hp : s.procs p = some o)
      (hrun : procDestroy (s.memFor p) o = .ok m) : Effect s (.reap p) (s.update m p none)

theorem step_effect {s s' : System} {e : SpaceEvent} (hstep : s.step e = .ok s') :
    s.Effect e s' := by
  cases e with
  | exec file =>
    simp only [step, bind_eq_ok, Prod.exists] at hstep
    obtain ⟨m, loaded, hload, hresult⟩ := hstep
    cases file with
    | none =>
      simp only [elfLoad, pure_eq_ok, Prod.mk.injEq] at hload
      obtain ⟨rfl, rfl⟩ := hload
      obtain rfl := pure_eq_ok.1 hresult
      exact .refused none
    | some elf =>
      cases loaded with
      | none =>
        obtain rfl := elfLoad_none hload
        obtain rfl := pure_eq_ok.1 hresult
        exact .refused (some elf)
      | some o =>
        obtain rfl := pure_eq_ok.1 hresult
        exact .loaded hload
  | sbrk p increment =>
    simp only [step, bind_eq_ok, deref_eq_ok, Prod.exists, pure_eq_ok] at hstep
    obtain ⟨o, hp, m, o', eax, hrun, rfl⟩ := hstep
    exact .sbrk hp hrun
  | mmap p size =>
    simp only [step, bind_eq_ok, deref_eq_ok, Prod.exists, pure_eq_ok] at hstep
    obtain ⟨o, hp, m, o', eax, hrun, rfl⟩ := hstep
    exact .mmap hp hrun
  | munmap p addr =>
    simp only [step, bind_eq_ok, deref_eq_ok, Prod.exists, pure_eq_ok] at hstep
    obtain ⟨o, hp, m, o', eax, hrun, rfl⟩ := hstep
    exact .munmap hp hrun
  | store p addr byte =>
    simp only [step, bind_eq_ok, deref_eq_ok] at hstep
    obtain ⟨o, hp, hstep⟩ := hstep
    split at hstep
    · cases hstep
    · rename_i frame hframe
      obtain rfl := pure_eq_ok.1 hstep
      exact .store hp hframe
  | trap p stack =>
    simp only [step, bind_eq_ok, deref_eq_ok, pure_eq_ok] at hstep
    obtain ⟨o, hp, rfl⟩ := hstep
    exact .trap hp stack
  | reap p =>
    simp only [step, bind_eq_ok, deref_eq_ok, pure_eq_ok] at hstep
    obtain ⟨o, hp, m, hrun, rfl⟩ := hstep
    exact .reap hp hrun

/-- The pages that a step maps are pages of the user half, and each meets the
condition; and what `SYS_SBRK` unmaps is in the user half. -/
def Maps (C : Memory → Nat → Nat → Bool) (s : System) : SpaceEvent → Bool
  | .exec (some elf) =>
    elf.load 0 4 != elfMagic ||
      match procObject (s.memFor s.pidCounter) s.pidCounter (elf.load 24 4) with
      | .ok (m, p) => m.mapsOnly C p.procPd (loadPages elf)
      | .error _ => true
  | .sbrk p increment =>
    (s.procs p).all fun o =>
      (s.memFor p).mapsOnly C o.procPd (sbrkPages o increment) &&
        (decide (roundUp o.programBreak ≤ roundUp (newBreak o.programBreak increment)) ||
          decide (roundUp o.programBreak ≤ kernelVirtBaseAddr))
  | .mmap p size => (s.procs p).all fun o => (s.memFor p).mapsOnly C o.procPd (mmapPages o size)
  | _ => true

/-- Steps whose mappings meet the condition. -/
abbrev Steps (C : Memory → Nat → Nat → Bool) : System → SpaceEvent → System → Prop :=
  Guarded (fun s e => s.Maps C e = true) System.step

/-- What holds in every state of a run whose steps map cleanly. -/
structure Sound (s : System) : Prop where
  separate : s.mem.Separate s.procs
  pidCounter : s.pidCounter < 2 ^ 32
  pids : s.pidCounter ≠ 0 → ∀ p, s.pidCounter ≤ p → s.procs p = none
  regions : ∀ {p o r}, s.procs p = some o → r ∈ o.mmapRegions →
    ∀ a ∈ pageRange r.base (r.len / 4096), a < kernelVirtBaseAddr

/-- A property of memory that none of the ways in which a step changes it breaks. -/
structure Kept (C : Memory → Nat → Nat → Bool) (P : Memory → (Nat → Option ProcMem) → Prop) :
    Prop where
  map : ∀ {m m' live q p v f}, m.Separate live → m.client = q → live q = some p →
    C m p.procPd v = true → Memory.MapEffect m live q (v / 2 ^ 22) (v / 2 ^ 12 % 1024) f m' →
    P m live → P m' live
  unmap : ∀ {m m' live q v}, m.Separate live → m.client = q →
    Memory.UnmapEffect m live q (v / 2 ^ 22) (v / 2 ^ 12 % 1024) m' → P m live → P m' live
  create : ∀ {m m' live q p}, m.Separate live → m.client = q → live q = none →
    Memory.CreateEffect m live q p m' → P m live → P m' (Function.update live q (some p))
  destroy : ∀ {m m' live q p}, m.Separate live → m.client = q → live q = some p →
    m.freeAll (m.framesOf p) = .ok m' → P m live → P m' (Function.update live q none)
  same : ∀ {m m' live live'}, m'.holding live' = m.holding live → (∀ x, m'.InUse x ↔ m.InUse x) →
    m'.calls = m.calls → P m live → P m' live'

variable {C : Memory → Nat → Nat → Bool} {P : Memory → (Nat → Option ProcMem) → Prop}
  {s s' : System} {e : SpaceEvent}

theorem Kept.mapPages {m m' : Memory} {live : Nat → Option ProcMem} {q : Nat} {p : ProcMem}
    {pages : List NewPage} (hP : Kept C P) (hC : ∀ m pd v, C m pd v = true → m.cleanAt pd v = true)
    (hs : m.Separate live) (hclient : m.client = q) (hp : live q = some p)
    (hall : m.mapsOnly C p.procPd pages = true) (hrun : m.mapPages p.procPd pages = .ok m')
    (hPm : P m live) : m'.Separate live ∧ P m' live := by
  obtain ⟨hs', -, hP'⟩ := hs.mapPages (P := fun m => m.client = q ∧ P m live) hC
    (fun m m' v f hs hsame hCv heffect hPm =>
      ⟨hsame.trans hPm.1, hP.map hs hPm.1 hp hCv heffect hPm.2⟩) hp hall hrun ⟨hclient, hPm⟩
  exact ⟨hs', hP'⟩

theorem Kept.unmapPages {m : Memory} {live : Nat → Option ProcMem} {q : Nat} {p : ProcMem}
    {addrs : List Nat} (hP : Kept C P) (hs : m.Separate live) (hclient : m.client = q)
    (hp : live q = some p) (hv : ∀ a ∈ addrs, a < kernelVirtBaseAddr) (hPm : P m live) :
    ∃ m', m.syscallUnmapPages p.procPd addrs = .ok m' ∧ m'.Separate live ∧ P m' live := by
  obtain ⟨m', hrun, hs', -, hP'⟩ := hs.unmapPages (P := fun m => m.client = q ∧ P m live)
    (fun m m' v hs hsame heffect hPm =>
      ⟨hsame.trans hPm.1, hP.unmap hs hPm.1 heffect hPm.2⟩) hp hv ⟨hclient, hPm⟩
  exact ⟨m', hrun, hs', hP'⟩

/-- The frame that a user access reaches is the one of a page. -/
theorem userFrame_held {m : Memory} {live : Nat → Option ProcMem} {p : Nat} {o : ProcMem}
    {addr frame : Nat} (hp : live p = some o) (h : userFrame m o addr = some frame) :
    m.holding live (p, .page (addr / 2 ^ 22) (addr / 2 ^ 12 % 1024)) = some frame := by
  simp only [userFrame] at h
  split at h
  · rename_i hflags
    obtain ⟨haddr, hpde, hpte⟩ := hflags
    have hi : addr / 2 ^ 22 < 768 := by
      rw [kernelVirtBaseAddr] at haddr
      omega
    have htable : m.ref 768 o.procPd (addr / 2 ^ 22) =
        some (frameOf (m.entry o.procPd (addr / 2 ^ 22))) := by
      rw [Memory.ref_of_entry hi rfl, if_pos]
      simp only [present, decide_eq_true_eq]
      omega
    rw [Memory.holding_of_live hp, Memory.slot, htable, Option.bind_some,
      Memory.ref_of_entry (by omega) rfl, if_pos, ← Option.some.inj h]
    simp only [present, decide_eq_true_eq]
    omega
  · cases h

theorem kernelStack_held {p : Nat} {o : ProcMem} (hp : s.procs p = some o) :
    s.mem.holding s.procs (p, .kernelStack) = some o.kernelStackFrame := by
  rw [Memory.holding_of_live hp, Memory.slot]

namespace Sound

variable {p eax : Nat} {o o' : ProcMem} {m : Memory}

theorem memFor (h : s.Sound) (p : Nat) : (s.memFor p).Separate s.procs := h.separate.memFor

theorem pid_lt (h : s.Sound) (hp : s.procs p = some o) (hne : s.pidCounter ≠ 0) :
    p < s.pidCounter := by
  by_contra hge
  rw [h.pids hne p (by omega)] at hp
  cases hp

/-- A system call changed the memory and the object of its process. -/
theorem update (h : s.Sound) (hp : s.procs p = some o) (hsame : Memory.SameFrames o o')
    (hs : m.Separate s.procs) (hregions : ∀ r ∈ o'.mmapRegions,
      ∀ a ∈ pageRange r.base (r.len / 4096), a < kernelVirtBaseAddr) :
    (s.update m p (some o')).Sound where
  separate := hs.update hp hsame
  pidCounter := h.pidCounter
  pids := by
    intro hne q hq
    have hlt := h.pid_lt hp hne
    have hqp : q ≠ p := by
      rintro rfl
      exact absurd hq (by simpa [System.update] using hlt)
    simp only [System.update, Function.update_of_ne hqp]
    exact h.pids hne q hq
  regions := by
    intro q x r hx hr
    simp only [System.update] at hx
    rcases eq_or_ne q p with rfl | hqp
    · rw [Function.update_self] at hx
      obtain rfl : o' = x := Option.some.inj hx
      exact hregions r hr
    · rw [Function.update_of_ne hqp] at hx
      exact h.regions hx hr

theorem exec {elf : Mem} {x : ProcMem} (h : s.Sound) (hP : Kept C P)
    (hC : ∀ m pd v, C m pd v = true → m.cleanAt pd v = true)
    (hmaps : s.Maps C (.exec (some elf)) = true)
    (hload : elfLoad (s.memFor s.pidCounter) s.pidCounter (some elf) = .ok (m, some x))
    (hPs : P s.mem s.procs) :
    System.Sound { s.update m x.procId (some x) with pidCounter := addr32 (s.pidCounter + 1) } ∧
      P m (Function.update s.procs x.procId (some x)) := by
  obtain ⟨hpid, hmagic, m₁, o, hobject, hpages, rfl⟩ := elfLoad_some hload
  simp only [Maps, hmagic, bne_self_eq_false, Bool.false_or, hobject] at hmaps
  have hdead := h.pids hpid s.pidCounter le_rfl
  obtain ⟨hs₁, hcreate, hprocId⟩ := (h.memFor s.pidCounter).createEffect hdead hobject
  have hP₀ : P (s.memFor s.pidCounter) s.procs :=
    hP.same (m := s.mem) rfl (fun _ => Iff.rfl) rfl hPs
  -- the object first, then its pages, and last the fields that no slot depends on
  have hP₁ := hP.create (h.memFor _) rfl hdead hcreate hP₀
  have ho : Function.update s.procs s.pidCounter (some o) s.pidCounter = some o :=
    Function.update_self ..
  obtain ⟨hs₂, hP₂⟩ := hP.mapPages hC hs₁ hcreate.client ho hmaps hpages hP₁
  obtain ⟨p, hp⟩ : ∃ p : ProcMem, p = { o with
    programBreak := roundUp (imageEnd elf)
    mmapNext := 0x7000000
    elf := elf } := ⟨_, rfl⟩
  have hsame : Memory.SameFrames o p := ⟨by rw [hp], by rw [hp]⟩
  have hregions : p.mmapRegions = [] := by
    rw [hp]
    exact hcreate.regions
  rw [← hp]
  have hlive : Function.update (Function.update s.procs s.pidCounter (some o)) s.pidCounter
      (some p) = Function.update s.procs s.pidCounter (some p) := Function.update_idem ..
  have hs₃ := hs₂.update ho hsame
  have hP₃ := hP.same (Memory.holding_update ho hsame) (fun _ => Iff.rfl) rfl hP₂
  rw [hlive] at hs₃ hP₃
  have hid : p.procId = s.pidCounter := by rw [hp, ← hprocId]
  refine ⟨⟨?_, ?_, ?_, ?_⟩, ?_⟩
  · simpa only [System.update, hid] using hs₃
  · exact Nat.mod_lt _ (by decide)
  · intro hne q hq
    have hcounter := h.pidCounter
    simp only [addr32] at hne hq
    have hq' : s.pidCounter + 1 ≤ q := by omega
    have hqp : q ≠ p.procId := by omega
    simp only [System.update, Function.update_of_ne hqp]
    exact h.pids hpid q (by omega)
  · intro q x r hx hr
    simp only [System.update] at hx
    rcases eq_or_ne q p.procId with rfl | hqp
    · rw [Function.update_self] at hx
      obtain rfl : p = x := Option.some.inj hx
      rw [hregions] at hr
      cases hr
    · rw [Function.update_of_ne hqp] at hx
      exact h.regions hx hr
  · simpa only [System.update, hid] using hP₃

theorem sbrk {increment : Nat} (h : s.Sound) (hP : Kept C P)
    (hC : ∀ m pd v, C m pd v = true → m.cleanAt pd v = true)
    (hmaps : s.Maps C (.sbrk p increment) = true) (hp : s.procs p = some o)
    (hrun : syscallSbrk (s.memFor p) o increment = .ok (m, o', eax)) (hPs : P s.mem s.procs) :
    (s.update m p (some o')).Sound ∧ P m (Function.update s.procs p (some o')) := by
  have hP₀ : P (s.memFor p) s.procs := hP.same (m := s.mem) rfl (fun _ => Iff.rfl) rfl hPs
  simp only [Maps, hp, Option.all_some, Bool.and_eq_true, Bool.or_eq_true, decide_eq_true_eq]
    at hmaps
  obtain ⟨ho', hcase⟩ := syscallSbrk_ok hrun
  have hsame : Memory.SameFrames o o' := ⟨by rw [ho'], by rw [ho']⟩
  have hregions : ∀ r ∈ o'.mmapRegions,
      ∀ a ∈ pageRange r.base (r.len / 4096), a < kernelVirtBaseAddr := by
    rw [ho']
    exact fun r hr => h.regions hp hr
  obtain ⟨hs', hP'⟩ : m.Separate s.procs ∧ P m s.procs := by
    rcases hcase with ⟨-, hmap⟩ | ⟨hle, hunmap⟩
    · exact hP.mapPages hC (h.memFor p) rfl hp hmaps.1 hmap hP₀
    · have hv := sbrk_shrink_user hle hmaps.2
      obtain ⟨m', hrun', hs', hP'⟩ := hP.unmapPages (h.memFor p) rfl hp hv hP₀
      rw [hunmap] at hrun'
      obtain rfl := Except.ok.inj hrun'
      exact ⟨hs', hP'⟩
  exact ⟨h.update hp hsame hs' hregions,
    hP.same (Memory.holding_update hp hsame) (fun _ => Iff.rfl) rfl hP'⟩

theorem mmap {size : Nat} (h : s.Sound) (hP : Kept C P)
    (hC : ∀ m pd v, C m pd v = true → m.cleanAt pd v = true)
    (hmaps : s.Maps C (.mmap p size) = true) (hp : s.procs p = some o)
    (hrun : syscallMmap (s.memFor p) o size = .ok (m, o', eax)) (hPs : P s.mem s.procs) :
    (s.update m p (some o')).Sound ∧ P m (Function.update s.procs p (some o')) := by
  have hP₀ : P (s.memFor p) s.procs := hP.same (m := s.mem) rfl (fun _ => Iff.rfl) rfl hPs
  simp only [Maps, hp, Option.all_some] at hmaps
  obtain ⟨hmap, -, ho'⟩ := syscallMmap_ok hrun
  have hsame : Memory.SameFrames o o' := ⟨by rw [ho'], by rw [ho']⟩
  have hregions : ∀ r ∈ o'.mmapRegions,
      ∀ a ∈ pageRange r.base (r.len / 4096), a < kernelVirtBaseAddr := by
    intro r hr a ha
    rw [ho'] at hr
    rcases List.mem_append.1 hr with hr | hr
    · exact h.regions hp hr a ha
    · obtain rfl := List.mem_singleton.1 hr
      rw [mmap_len] at ha
      apply (Memory.mapsOnly_iff.1 hmaps).1 { vaddr := a }
      exact List.mem_map.2 ⟨a, ha, rfl⟩
  obtain ⟨hs', hP'⟩ := hP.mapPages hC (h.memFor p) rfl hp hmaps hmap hP₀
  exact ⟨h.update hp hsame hs' hregions,
    hP.same (Memory.holding_update hp hsame) (fun _ => Iff.rfl) rfl hP'⟩

theorem munmap {addr : Nat} (h : s.Sound) (hP : Kept C P) (hp : s.procs p = some o)
    (hrun : syscallMunmap (s.memFor p) o addr = .ok (m, o', eax)) (hPs : P s.mem s.procs) :
    (s.update m p (some o')).Sound ∧ P m (Function.update s.procs p (some o')) := by
  have hP₀ : P (s.memFor p) s.procs := hP.same (m := s.mem) rfl (fun _ => Iff.rfl) rfl hPs
  have hcase := syscallMunmap_ok hrun
  have hsame : Memory.SameFrames o o' := by
    rcases hcase with ⟨-, -, ho', -⟩ | ⟨r, -, -, -, ho'⟩
    · exact ⟨by rw [ho'], by rw [ho']⟩
    · exact ⟨by rw [ho'], by rw [ho']⟩
  have hregions : ∀ r ∈ o'.mmapRegions,
      ∀ a ∈ pageRange r.base (r.len / 4096), a < kernelVirtBaseAddr := by
    intro r hr
    apply h.regions hp
    rcases hcase with ⟨-, -, ho', -⟩ | ⟨r', -, -, -, ho'⟩
    · rwa [ho'] at hr
    · rw [ho'] at hr
      exact List.mem_of_mem_eraseP hr
  -- for an address that is no base nothing is unmapped
  obtain ⟨hs', hP'⟩ : m.Separate s.procs ∧ P m s.procs := by
    rcases hcase with ⟨-, hm, -, -⟩ | ⟨r, hfind, -, hunmap, -⟩
    · rw [hm]
      exact ⟨h.memFor p, hP₀⟩
    · have hbase : r.base = addr := by simpa using List.find?_some hfind
      have hv := h.regions hp (List.mem_of_find?_eq_some hfind)
      rw [hbase] at hv
      obtain ⟨m', hrun', hs', hP'⟩ := hP.unmapPages (h.memFor p) rfl hp hv hP₀
      rw [hunmap] at hrun'
      obtain rfl := Except.ok.inj hrun'
      exact ⟨hs', hP'⟩
  exact ⟨h.update hp hsame hs' hregions,
    hP.same (Memory.holding_update hp hsame) (fun _ => Iff.rfl) rfl hP'⟩

/-- A write to a frame that is neither a directory nor a table. -/
theorem fill {slot : Slot} {f j n : Nat} (h : s.Sound) (hP : Kept C P)
    (hheld : s.mem.holding s.procs (p, slot) = some f)
    (hslot : slot ≠ .directory ∧ ∀ i, slot ≠ .table i) (src : Mem) (hn : j + n ≤ 4096)
    (hPs : P s.mem s.procs) :
    System.Sound { s with mem := s.mem.fill f j n src } ∧ P (s.mem.fill f j n src) s.procs := by
  obtain ⟨hhold, hs'⟩ := h.separate.fill_held hheld hslot src hn
  exact ⟨⟨hs', h.pidCounter, h.pids, h.regions⟩, hP.same hhold (fun _ => Iff.rfl) rfl hPs⟩

theorem reap (h : s.Sound) (hP : Kept C P) (hp : s.procs p = some o)
    (hrun : procDestroy (s.memFor p) o = .ok m) (hPs : P s.mem s.procs) :
    (s.update m p none).Sound ∧ P m (Function.update s.procs p none) := by
  have hP₀ : P (s.memFor p) s.procs := hP.same (m := s.mem) rfl (fun _ => Iff.rfl) rfl hPs
  have hs := h.memFor p
  rw [hs.procDestroy_eq hp] at hrun
  have hP' := hP.destroy hs rfl hp hrun hP₀
  refine ⟨⟨(hs.destroy hp hrun).1, h.pidCounter, ?_, ?_⟩, hP'⟩
  · intro hne q hq
    simp only [System.update]
    rcases eq_or_ne q p with rfl | hqp
    · rw [Function.update_self]
    · rw [Function.update_of_ne hqp]
      exact h.pids hne q hq
  · intro q x r hx hr
    simp only [System.update] at hx
    rcases eq_or_ne q p with rfl | hqp
    · rw [Function.update_self] at hx
      cases hx
    · rw [Function.update_of_ne hqp] at hx
      exact h.regions hx hr

/-- What every effect of a step keeps, every clean step keeps. -/
theorem step (h : s.Sound) (hP : Kept C P) (hC : ∀ m pd v, C m pd v = true → m.cleanAt pd v = true)
    (hmaps : s.Maps C e = true) (hstep : s.step e = .ok s') (hPs : P s.mem s.procs) :
    s'.Sound ∧ P s'.mem s'.procs := by
  cases step_effect hstep with
  | refused file =>
    exact ⟨⟨h.memFor _, h.pidCounter, h.pids, h.regions⟩,
      hP.same (m := s.mem) rfl (fun _ => Iff.rfl) rfl hPs⟩
  | loaded hload => exact h.exec hP hC hmaps hload hPs
  | sbrk hp hrun => exact h.sbrk hP hC hmaps hp hrun hPs
  | mmap hp hrun => exact h.mmap hP hC hmaps hp hrun hPs
  | munmap hp hrun => exact h.munmap hP hp hrun hPs
  | store hp hframe => exact h.fill hP (userFrame_held hp hframe) (by simp) _ (by omega) hPs
  | trap hp stack => exact h.fill hP (kernelStack_held hp) (by simp) stack (by omega) hPs
  | reap hp hrun => exact h.reap hP hp hrun hPs

/-- What every effect of a step keeps, every run of clean steps keeps. -/
theorem run {t : System} {es : List SpaceEvent} (hP : Kept C P)
    (hC : ∀ m pd v, C m pd v = true → m.cleanAt pd v = true) (hrun : Run (Steps C) s es t)
    (h : s.Sound) (hPs : P s.mem s.procs) : t.Sound ∧ P t.mem t.procs := by
  refine hrun.invariant (I := fun s => s.Sound ∧ P s.mem s.procs) ?_ ⟨h, hPs⟩
  rintro s e s' ⟨hmaps, hstep⟩ ⟨hs, hPs⟩
  exact hs.step hP hC hmaps hstep hPs

end Sound

/-- The kernel has started, and no process has been created yet. -/
structure Booted (s : System) : Prop where
  procs : ∀ p, s.procs p = none
  pidCounter : s.pidCounter = 1
  /-- The direct map reaches all frames. -/
  window : s.mem.faBitmapSize ≤ 0x8000
  calls : s.mem.calls = []

theorem Booted.holding (h : s.Booted) (k : Nat × Slot) : s.mem.holding s.procs k = none :=
  Memory.holding_of_dead (h.procs k.1)

theorem Booted.sound (h : s.Booted) : s.Sound where
  separate := by
    refine ⟨h.window, ?_, ?_, ?_⟩
    · intro q p i hp hi
      rw [h.procs] at hp
      cases hp
    · intro k r hk
      rw [h.holding] at hk
      cases hk
    · intro k l r hk hl
      rw [h.holding] at hk
      cases hk
  pidCounter := by
    rw [h.pidCounter]
    decide
  pids := fun _ p _ => h.procs p
  regions := by
    intro p o r hp
    rw [h.procs] at hp
    cases hp

end System

end Kaku

-- SUMMARY: The regions of SYS_MMAP: what a call maps, SYS_MUNMAP of the same region takes away, and nothing else.
import Kaku.Proc.Reap
import Kaku.Proc.Regions

/-!
# Mapping and unmapping regions

A region is known to the kernel by its base alone. `mmap_regions` is searched from the
front and the cursor never goes back, so bases are distinct as long as the cursor moves
at each call. It does not move for a size that is rounded to no page at all: for 0, and
for the sizes above `0xFFFFF000`, where the rounding wraps around.
-/

namespace Kaku

/-! ## Staying clear of the regions -/

namespace ProcMem

/-- The pages between the old and the new break. -/
def sbrkRange (o : ProcMem) (increment : Nat) : List Nat :=
  let oldPage := roundUp o.programBreak
  let newPage := roundUp (newBreak o.programBreak increment)
  pageRange oldPage ((newPage - oldPage) / 4096) ++ pageRange newPage ((oldPage - newPage) / 4096)

/-- The break moves over no page of a live region. -/
def sbrkSpares (o : ProcMem) (increment : Nat) : Bool :=
  (o.sbrkRange increment).all fun a => !o.mmapHas (a / 4096)

/-- The rounding does not wrap around, and no live region is empty. -/
def mmapMoves (o : ProcMem) (size : Nat) : Bool :=
  decide (size ≤ 0xFFFFF000) && o.mmapRegions.all fun r => decide (0 < r.len)

end ProcMem

namespace System

def SparesRegions (s : System) (e : SpaceEvent) : Bool :=
  s.Maps Memory.cleanAt e &&
    match e with
    | .sbrk p increment => (s.procs p).all fun o => o.sbrkSpares increment
    | .mmap p size => (s.procs p).all fun o => o.mmapMoves size
    | _ => true

/-- Steps that stay clear of the live regions. -/
abbrev SparingSteps : System → SpaceEvent → System → Prop :=
  Guarded (fun s e => s.SparesRegions e = true) System.step

end System

/-! ## What a step does to a process -/

namespace System

variable {s s' : System} {e : SpaceEvent} {p q : Nat} {o o' x : ProcMem} {increment size addr : Nat}

/-- A process that is there before and after a step is left alone, or has made a call. -/
inductive Stepped (s s' : System) (e : SpaceEvent) (q : Nat) (x x' : ProcMem) : Prop
  | kept (hx : x' = x) (hlookup : ∀ v, s'.mem.lookup x v = s.mem.lookup x v)
  | sbrk (increment eax : Nat) (he : e = .sbrk q increment)
      (hrun : syscallSbrk (s.memFor q) x increment = .ok (s'.mem, x', eax))
  | mmap (size eax : Nat) (he : e = .mmap q size)
      (hrun : syscallMmap (s.memFor q) x size = .ok (s'.mem, x', eax))
  | munmap (addr eax : Nat) (he : e = .munmap q addr)
      (hrun : syscallMunmap (s.memFor q) x addr = .ok (s'.mem, x', eax))

theorem othersKeep_mapPages {m m' : Memory} {live : Nat → Option ProcMem} {pages : List NewPage}
    (h : m.Separate live) (hp : live q = some x)
    (hmaps : m.mapsOnly Memory.cleanAt x.procPd pages = true)
    (hrun : m.mapPages x.procPd pages = .ok m') : OthersKeep m m' live q :=
  fun q' y v hy hq => (h.lookup_mapPages hp hmaps hrun).1 q' y v hy fun heq => absurd heq hq

theorem othersKeep_unmapPages {m m' : Memory} {live : Nat → Option ProcMem} {addrs : List Nat}
    (h : m.Separate live) (hp : live q = some x) (hv : ∀ a ∈ addrs, a < kernelVirtBaseAddr)
    (hrun : m.syscallUnmapPages x.procPd addrs = .ok m') : OthersKeep m m' live q :=
  fun q' y v hy hq => (h.lookup_unmapPages hp hv hrun).1 q' y v hy fun heq => absurd heq hq

/-- What `SYS_SBRK` gives up is in the user half. -/
theorem sbrk_user (hmaps : s.Maps Memory.cleanAt (.sbrk q increment) = true)
    (hx : s.procs q = some x)
    (hle : roundUp (newBreak x.programBreak increment) ≤ roundUp x.programBreak) :
    ∀ a ∈ pageRange (roundUp (newBreak x.programBreak increment))
      ((roundUp x.programBreak - roundUp (newBreak x.programBreak increment)) / 4096),
      a < kernelVirtBaseAddr := by
  simp only [Maps, hx, Option.all_some, Bool.and_eq_true, Bool.or_eq_true, decide_eq_true_eq] at hmaps
  exact sbrk_shrink_user hle hmaps.2

/-- The other processes have mapped what they had, whatever call a process makes. -/
theorem othersKeep_call {m : Memory} {eax : Nat} (h : s.Sound) (hx : s.procs q = some x)
    (hmaps : s.Maps Memory.cleanAt e = true)
    (hcall : (∃ increment, e = .sbrk q increment ∧
        syscallSbrk (s.memFor q) x increment = .ok (m, o', eax)) ∨
      (∃ size, e = .mmap q size ∧ syscallMmap (s.memFor q) x size = .ok (m, o', eax)) ∨
      ∃ addr, e = .munmap q addr ∧ syscallMunmap (s.memFor q) x addr = .ok (m, o', eax)) :
    OthersKeep s.mem m s.procs q := by
  rcases hcall with ⟨increment, rfl, hrun⟩ | ⟨size, rfl, hrun⟩ | ⟨addr, rfl, hrun⟩
  · obtain ⟨-, ⟨-, hmap⟩ | ⟨hle, hunmap⟩⟩ := syscallSbrk_ok hrun
    · simp only [Maps, hx, Option.all_some, Bool.and_eq_true] at hmaps
      have hothers := othersKeep_mapPages (h.memFor q) hx hmaps.1 hmap
      exact hothers
    · have hothers := othersKeep_unmapPages (h.memFor q) hx (sbrk_user hmaps hx hle) hunmap
      exact hothers
  · obtain ⟨hmap, -, -⟩ := syscallMmap_ok hrun
    simp only [Maps, hx, Option.all_some] at hmaps
    have hothers := othersKeep_mapPages (h.memFor q) hx hmaps hmap
    exact hothers
  · rcases syscallMunmap_ok hrun with ⟨-, rfl, -, -⟩ | ⟨r, hfind, -, hunmap, -⟩
    · exact fun q' y v hy hq => rfl
    · have hbase : r.base = addr := by simpa using List.find?_some hfind
      have hv := h.regions hx (List.mem_of_find?_eq_some hfind)
      rw [hbase] at hv
      have hothers := othersKeep_unmapPages (h.memFor q) hx hv hunmap
      exact hothers

/-- Everything that a step does to a process. -/
theorem stepped (h : s.Sound) (hmaps : s.Maps Memory.cleanAt e = true) (hstep : s.step e = .ok s')
    {x' : ProcMem} (hx : s.procs q = some x) (hx' : s'.procs q = some x') :
    Stepped s s' e q x x' := by
  -- A step that changes one process leaves the others alone.
  have hupdate {m : Memory} {p : Nat} {o : Option ProcMem} (hothers : OthersKeep s.mem m s.procs p)
      (hq : q ≠ p) (hx' : (s.update m p o).procs q = some x') :
      Stepped s (s.update m p o) e q x x' := by
    simp only [update, Function.update_of_ne hq] at hx'
    obtain rfl : x = x' := Option.some.inj (hx.symm.trans hx')
    exact .kept rfl fun v => hothers q x v hx hq
  have hsame {m : Memory} (hhold : m.holding s.procs = s.mem.holding s.procs)
      (hx' : s.procs q = some x') : Stepped s { s with mem := m } e q x x' := by
    obtain rfl : x = x' := Option.some.inj (hx.symm.trans hx')
    exact .kept rfl fun _ => lookup_of_holding (congrFun hhold _) hx hx
  cases step_effect hstep with
  | refused file => exact hsame (m := s.memFor s.pidCounter) rfl hx'
  | loaded hload =>
    obtain ⟨hid, hdead, -, hothers⟩ := exec_others h hmaps hload
    have hq : q ≠ s.pidCounter := by
      rintro rfl
      rw [hdead] at hx
      cases hx
    simp only [update, hid, Function.update_of_ne hq] at hx'
    obtain rfl : x = x' := Option.some.inj (hx.symm.trans hx')
    exact .kept rfl fun v => hothers q x v hx hq
  | @sbrk p increment eax m o o' hp hrun =>
    rcases eq_or_ne q p with rfl | hq
    · simp only [update, Function.update_self] at hx'
      rw [← Option.some.inj hx', Option.some.inj (hx.symm.trans hp)]
      exact .sbrk increment eax rfl hrun
    · exact hupdate (othersKeep_call h hp hmaps (.inl ⟨increment, rfl, hrun⟩)) hq hx'
  | @mmap p size eax m o o' hp hrun =>
    rcases eq_or_ne q p with rfl | hq
    · simp only [update, Function.update_self] at hx'
      rw [← Option.some.inj hx', Option.some.inj (hx.symm.trans hp)]
      exact .mmap size eax rfl hrun
    · exact hupdate (othersKeep_call h hp hmaps (.inr (.inl ⟨size, rfl, hrun⟩))) hq hx'
  | @munmap p addr eax m o o' hp hrun =>
    rcases eq_or_ne q p with rfl | hq
    · simp only [update, Function.update_self] at hx'
      rw [← Option.some.inj hx', Option.some.inj (hx.symm.trans hp)]
      exact .munmap addr eax rfl hrun
    · exact hupdate (othersKeep_call h hp hmaps (.inr (.inr ⟨addr, rfl, hrun⟩))) hq hx'
  | store hp hframe =>
    exact hsame (holding_fill h (userFrame_held hp hframe) (by simp) _ (by omega)) hx'
  | trap hp stack =>
    exact hsame (holding_fill h (kernelStack_held hp) (by simp) stack (by omega)) hx'
  | @reap p m o hp hrun =>
    rcases eq_or_ne q p with rfl | hq
    · simp only [update, Function.update_self, reduceCtorEq] at hx'
    · exact hupdate (reap_others h hp hrun) hq hx'

/-- A process starts without regions. -/
theorem stepped_new (h : s.Sound) (hmaps : s.Maps Memory.cleanAt e = true)
    (hstep : s.step e = .ok s') (hx : s.procs q = none) (hx' : s'.procs q = some x) :
    x.mmapRegions = [] ∧ x.mmapNext = 0x7000000 := by
  -- no step but a load adds a process
  have hupdate {m : Memory} {p : Nat} {o : ProcMem} {o' : Option ProcMem} (hp : s.procs p = some o)
      (hx' : (s.update m p o').procs q = some x) : False := by
    have hq : q ≠ p := by
      rintro rfl
      rw [hp] at hx
      cases hx
    simp only [update, Function.update_of_ne hq, hx, reduceCtorEq] at hx'
  have hsame (hx' : s.procs q = some x) : False := by
    rw [hx] at hx'
    cases hx'
  cases step_effect hstep with
  | refused file => exact (hsame hx').elim
  | @loaded elf m o hload =>
    obtain ⟨hid, -, hregions, -⟩ := exec_others h hmaps hload
    obtain ⟨-, -, m₁, o', -, -, ho⟩ := elfLoad_some hload
    simp only [update, hid] at hx'
    rcases eq_or_ne q s.pidCounter with rfl | hq
    · rw [Function.update_self] at hx'
      rw [← Option.some.inj hx']
      exact ⟨hregions, by rw [ho]⟩
    · rw [Function.update_of_ne hq, hx] at hx'
      cases hx'
  | sbrk hp hrun | mmap hp hrun | munmap hp hrun | reap hp hrun => exact (hupdate hp hx').elim
  | store hp hframe => exact (hsame hx').elim
  | trap hp stack => exact (hsame hx').elim

end System

/-! ## The live regions -/

/-- The live regions of a process: in the order of their bases, below the cursor, and mapped. -/
structure RegionsMapped (m : Memory) (o : ProcMem) : Prop where
  mmapNext : o.mmapNext % 4096 = 0 ∧ o.mmapNext ≤ kernelVirtBaseAddr
  regions : ∀ r ∈ o.mmapRegions, r.Fits ∧ r.base + r.len ≤ o.mmapNext
  ordered : o.mmapRegions.Pairwise fun r r' => r.base < r'.base ∧ r.base + r.len ≤ r'.base
  mapped : ∀ r ∈ o.mmapRegions, ∀ v, r.has v = true → m.lookup o v ≠ none

/-- The regions that stay live keep their frames. -/
def RegionsKept (m m' : Memory) (o o' : ProcMem) : Prop :=
  ∀ r ∈ o.mmapRegions, r ∈ o'.mmapRegions → ∀ v, r.has v = true → m'.lookup o' v = m.lookup o v

namespace RegionsMapped

variable {m m' : Memory} {live : Nat → Option ProcMem} {o o' : ProcMem}
  {q size increment addr eax v : Nat} {r : MmapRegion} {l₁ l₂ : List MmapRegion}

theorem of_mmapRegions_nil (hregions : o.mmapRegions = []) (hnext : o.mmapNext = 0x7000000) :
    RegionsMapped m o := by
  refine ⟨?_, ?_, ?_, ?_⟩
  · rw [hnext, kernelVirtBaseAddr]
    decide
  · intro r hr
    rw [hregions] at hr
    cases hr
  · rw [hregions]
    exact .nil
  · intro r hr
    rw [hregions] at hr
    cases hr

theorem mmapHas (hr : r ∈ o.mmapRegions) (hv : r.has v = true) : o.mmapHas v = true :=
  List.any_eq_true.2 ⟨r, hr, hv⟩

/-- A step that moves neither the regions nor what they are mapped to. -/
theorem congr (h : RegionsMapped m o) (hregions : o'.mmapRegions = o.mmapRegions)
    (hnext : o'.mmapNext = o.mmapNext)
    (hlookup : ∀ v, o.mmapHas v = true → m'.lookup o' v = m.lookup o v) :
    RegionsMapped m' o' ∧ RegionsKept m m' o o' := by
  refine ⟨⟨?_, ?_, ?_, ?_⟩, fun r hr _ v hv => hlookup v (mmapHas hr hv)⟩
  · rw [hnext]
    exact h.mmapNext
  · rw [hregions, hnext]
    exact h.regions
  · rw [hregions]
    exact h.ordered
  · rw [hregions]
    intro r hr v hv
    rw [hlookup v (mmapHas hr hv)]
    exact h.mapped r hr v hv

/-- The pages that `SYS_SBRK` maps or unmaps are those between the two breaks. -/
theorem syscallSbrk (hs : m.Separate live) (hp : live q = some o) (h : RegionsMapped m o)
    (hspares : o.sbrkSpares increment = true)
    (hmaps : m.mapsOnly Memory.cleanAt o.procPd (sbrkPages o increment) = true)
    (hkernel : roundUp o.programBreak ≤ roundUp (newBreak o.programBreak increment) ∨
      roundUp o.programBreak ≤ kernelVirtBaseAddr)
    (hrun : Kaku.syscallSbrk m o increment = .ok (m', o', eax)) :
    RegionsMapped m' o' ∧ RegionsKept m m' o o' := by
  obtain ⟨ho', hcase⟩ := syscallSbrk_ok hrun
  have hsame : Memory.SameFrames o o' := ⟨by rw [ho'], by rw [ho']⟩
  have hout : ∀ v, o.mmapHas v = true → ∀ a ∈ o.sbrkRange increment, a / 4096 ≠ v := by
    rintro _ hv a ha rfl
    have hclear := List.all_eq_true.1 hspares a ha
    rw [hv] at hclear
    cases hclear
  refine h.congr (by rw [ho']) (by rw [ho']) fun v hv => ?_
  rw [lookup_sameFrames hsame]
  rcases hcase with ⟨-, hmap⟩ | ⟨hle, hunmap⟩
  · refine (hs.lookup_mapPages hp hmaps hmap).1 q o v hp fun _ page hpage => ?_
    obtain ⟨a, ha, rfl⟩ := List.mem_map.1 hpage
    exact hout v hv a (List.mem_append_left _ ha)
  · have huser := sbrk_shrink_user hle hkernel
    refine (hs.lookup_unmapPages hp huser hunmap).1 q o v hp fun _ a ha => ?_
    exact hout v hv a (List.mem_append_right _ ha)

/-- A new region lies behind the live ones, and its base is new when none of these is empty. -/
theorem syscallMmap (hs : m.Separate live) (hp : live q = some o) (h : RegionsMapped m o)
    (hmoves : o.mmapMoves size = true)
    (hmaps : m.mapsOnly Memory.cleanAt o.procPd (mmapPages o size) = true)
    (hrun : Kaku.syscallMmap m o size = .ok (m', o', eax)) :
    RegionsMapped m' o' ∧ RegionsKept m m' o o' := by
  obtain ⟨hnext, hle⟩ := h.mmapNext
  obtain ⟨-, hfits, ho', -, hnew, hkept, -⟩ := syscallMmap_spec hs hp hnext hle hmaps hrun
  have hregions : o'.mmapRegions = o.mmapRegions ++ [o.newRegion size] := by rw [ho']
  have hcursor : o'.mmapNext = o.mmapNext + (o.newRegion size).len := by rw [ho']
  have hbase : (o.newRegion size).base = o.mmapNext := rfl
  have hlen := hfits.len
  have huser := hfits.user
  simp only [ProcMem.mmapMoves, Bool.and_eq_true, List.all_eq_true, decide_eq_true_eq] at hmoves
  -- The pages of a live region end before the cursor, where the new region starts.
  have hold : ∀ r ∈ o.mmapRegions, ∀ v, r.has v = true → m'.lookup o' v = m.lookup o v := by
    intro r hr v hv
    apply hkept
    have hend := (h.regions r hr).2
    simp only [MmapRegion.has, decide_eq_true_eq] at hv
    rw [MmapRegion.has, decide_eq_false_iff_not]
    omega
  refine ⟨⟨?_, ?_, ?_, ?_⟩, fun r hr _ => hold r hr⟩
  · rw [hcursor]
    omega
  · rw [hregions, hcursor]
    intro r hr
    rcases List.mem_append.1 hr with hr | hr
    · obtain ⟨hfitsR, hend⟩ := h.regions r hr
      exact ⟨hfitsR, by omega⟩
    · obtain rfl := List.mem_singleton.1 hr
      exact ⟨hfits, le_rfl⟩
  · rw [hregions, List.pairwise_append]
    refine ⟨h.ordered, List.pairwise_singleton _ _, fun r hr r' hr' => ?_⟩
    obtain rfl := List.mem_singleton.1 hr'
    have hend := (h.regions r hr).2
    have hpos := hmoves.2 r hr
    rw [hbase]
    exact ⟨by omega, hend⟩
  · rw [hregions]
    intro r hr v hv
    rcases List.mem_append.1 hr with hr | hr
    · rw [hold r hr v hv]
      exact h.mapped r hr v hv
    · obtain rfl := List.mem_singleton.1 hr
      exact hnew v hv

/-- A live region splits the others into those before and those behind it. -/
theorem split (h : RegionsMapped m o) (hr : r ∈ o.mmapRegions) :
    ∃ l₁ l₂, o.mmapRegions = l₁ ++ r :: l₂ ∧ (∀ r' ∈ l₁, r'.base ≠ r.base) ∧
      (∀ r' ∈ l₁ ++ l₂, ∀ v, r'.has v = true → r.has v = false) ∧
      o.mmapRegions.erase r = l₁ ++ l₂ := by
  obtain ⟨l₁, l₂, hsplit⟩ := List.append_of_mem hr
  have hordered := h.ordered
  rw [hsplit, List.pairwise_append, List.pairwise_cons] at hordered
  obtain ⟨-, ⟨hbehind, -⟩, hbefore⟩ := hordered
  have hbefore' := fun r' hr' => hbefore r' hr' r List.mem_cons_self
  refine ⟨l₁, l₂, hsplit, fun r' hr' => (hbefore' r' hr').1.ne, fun r' hr' v hv => ?_, ?_⟩
  · simp only [MmapRegion.has, decide_eq_true_eq] at hv
    rw [MmapRegion.has, decide_eq_false_iff_not]
    rcases List.mem_append.1 hr' with hr' | hr'
    · have hend := (hbefore' r' hr').2
      omega
    · have hend := (hbehind r' hr').2
      omega
  · have hnot : r ∉ l₁ := fun hmem => (hbefore' r hmem).1.ne rfl
    rw [hsplit, List.erase_append_right _ hnot, List.erase_cons_head]

/-- Taking one region away leaves the others as they are. -/
theorem munmap (h : RegionsMapped m o) (hr : r ∈ o.mmapRegions) (hp : live q = some o)
    (hunmaps : Unmaps m m' live q o r)
    (ho' : o' = { o with mmapRegions := o.mmapRegions.erase r }) :
    RegionsMapped m' o' ∧ RegionsKept m m' o o' := by
  obtain ⟨l₁, l₂, hsplit, -, hapart, herase⟩ := h.split hr
  have hsame : Memory.SameFrames o o' := ⟨by rw [ho'], by rw [ho']⟩
  have hregions : o'.mmapRegions = o.mmapRegions.erase r := by rw [ho']
  have hnext : o'.mmapNext = o.mmapNext := by rw [ho']
  -- only pages of `r` go, and no other region has one of these
  have hkept : ∀ r' ∈ o'.mmapRegions, ∀ v, r'.has v = true → m'.lookup o' v = m.lookup o v := by
    intro r' hr' v hv
    rw [lookup_sameFrames hsame]
    refine hunmaps.kept q o v hp fun _ => ?_
    rw [hregions, herase] at hr'
    exact hapart r' hr' v hv
  have hsub : ∀ r' ∈ o'.mmapRegions, r' ∈ o.mmapRegions := by
    intro r' hr'
    rw [hregions] at hr'
    exact List.mem_of_mem_erase hr'
  refine ⟨⟨?_, ?_, ?_, ?_⟩, fun r' _ hr' => hkept r' hr'⟩
  · rw [hnext]
    exact h.mmapNext
  · rw [hnext]
    exact fun r' hr' => h.regions r' (hsub r' hr')
  · rw [hregions]
    exact h.ordered.sublist List.erase_sublist
  · intro r' hr' v hv
    rw [hkept r' hr' v hv]
    exact h.mapped r' (hsub r' hr') v hv

/-- `SYS_MUNMAP` of a live region. -/
theorem munmap_live (hs : m.Separate live) (hp : live q = some o) (h : RegionsMapped m o)
    (hr : r ∈ o.mmapRegions) :
    ∃ m', Kaku.syscallMunmap m o r.base =
        .ok (m', { o with mmapRegions := o.mmapRegions.erase r }, 0) ∧
      Unmaps m m' live q o r := by
  obtain ⟨l₁, l₂, hsplit, hfirst, -, herase⟩ := h.split hr
  rw [herase]
  exact syscallMunmap_spec hs hp hsplit hfirst (h.regions r hr).1

/-- `SYS_MUNMAP` of any other address. -/
theorem munmap_other (haddr : ∀ r ∈ o.mmapRegions, r.base ≠ addr) :
    Kaku.syscallMunmap m o addr = .ok (m, o, 0xFFFFFFFF) := by
  have hfind : (o.mmapRegions.find? fun r => r.base = addr) = none :=
    List.find?_eq_none.2 fun r hr => by simpa using haddr r hr
  unfold Kaku.syscallMunmap
  rw [hfind]
  rfl

theorem syscallMunmap (hs : m.Separate live) (hp : live q = some o) (h : RegionsMapped m o)
    (hrun : Kaku.syscallMunmap m o addr = .ok (m', o', eax)) :
    RegionsMapped m' o' ∧ RegionsKept m m' o o' := by
  by_cases hlive : ∃ r ∈ o.mmapRegions, r.base = addr
  · obtain ⟨r, hr, rfl⟩ := hlive
    obtain ⟨m₁, hrun₁, hunmaps⟩ := h.munmap_live hs hp hr
    obtain ⟨rfl, rfl, -⟩ : m₁ = m' ∧ _ = o' ∧ 0 = eax := by simpa [hrun₁] using hrun
    exact h.munmap hr hp hunmaps rfl
  · push Not at hlive
    rw [munmap_other hlive] at hrun
    obtain ⟨rfl, rfl, -⟩ : m = m' ∧ o = o' ∧ _ = eax := by simpa using hrun
    exact h.congr rfl rfl fun _ _ => rfl

end RegionsMapped

/-! ## Runs -/

namespace System

variable {s s' s₀ : System} {e : SpaceEvent} {es : List SpaceEvent} {p : Nat} {o o' : ProcMem}

theorem SparesRegions.maps (h : s.SparesRegions e = true) : s.Maps Memory.cleanAt e = true := by
  unfold SparesRegions at h
  exact (Bool.and_eq_true_iff.1 h).1

/-- A step that stays clear of the regions keeps them in order. -/
theorem regionsMapped_step (h : s.Sound) (hr : RegionsMapped s.mem o) (ho : s.procs p = some o)
    (hspares : s.SparesRegions e = true) (hstep : s.step e = .ok s') (ho' : s'.procs p = some o') :
    RegionsMapped s'.mem o' ∧ RegionsKept s.mem s'.mem o o' := by
  have hmaps := SparesRegions.maps hspares
  have hr' : RegionsMapped (s.memFor p) o := ⟨hr.mmapNext, hr.regions, hr.ordered, hr.mapped⟩
  cases stepped h hmaps hstep ho ho' with
  | kept hx hlookup =>
    subst hx
    exact hr.congr rfl rfl fun v _ => hlookup v
  | sbrk increment eax he hrun =>
    subst he
    simp only [SparesRegions, Maps, ho, Option.all_some, Bool.and_eq_true, Bool.or_eq_true,
      decide_eq_true_eq] at hspares
    obtain ⟨⟨hpages, hkernel⟩, hspares⟩ := hspares
    exact RegionsMapped.syscallSbrk (m := s.memFor p) (h.memFor p) ho hr' hspares hpages
      hkernel hrun
  | mmap size eax he hrun =>
    subst he
    simp only [SparesRegions, Maps, ho, Option.all_some, Bool.and_eq_true] at hspares
    exact RegionsMapped.syscallMmap (m := s.memFor p) (h.memFor p) ho hr' hspares.2 hspares.1 hrun
  | munmap addr eax he hrun =>
    exact RegionsMapped.syscallMunmap (m := s.memFor p) (h.memFor p) ho hr' hrun

/-- In runs that stay clear of the regions, every process has its regions in order. -/
theorem regionsMapped_run (hboot : s₀.Booted) (hrun : Run SparingSteps s₀ es s) :
    s.Sound ∧ ∀ {p o}, s.procs p = some o → RegionsMapped s.mem o := by
  refine hrun.invariant (I := fun s => s.Sound ∧ ∀ {p o}, s.procs p = some o →
    RegionsMapped s.mem o) ?_ ⟨hboot.sound, fun {p o} ho => ?_⟩
  · rintro s e s' ⟨hspares, hstep⟩ ⟨hs, hregions⟩
    have hmaps := SparesRegions.maps hspares
    refine ⟨hs.maps hmaps hstep, fun {p o'} ho' => ?_⟩
    cases ho : s.procs p with
    | none =>
      obtain ⟨hnil, hnext⟩ := stepped_new hs hmaps hstep ho ho'
      exact .of_mmapRegions_nil hnil hnext
    | some o => exact (regionsMapped_step hs (hregions ho) ho hspares hstep ho').1
  · rw [hboot.procs] at ho
    cases ho

/-- What `SYS_MMAP` and `SYS_MUNMAP` do in a state. -/
structure MunmapUndoes (s : System) (p : Nat) (o : ProcMem) : Prop where
  distinct : (o.mmapRegions.map MmapRegion.base).Nodup
  mapped : ∀ r ∈ o.mmapRegions, ∀ v, r.has v = true → s.mem.lookup o v ≠ none
  mmap : ∀ {size m' o' b}, s.SparesRegions (.mmap p size) = true →
    syscallMmap (s.memFor p) o size = .ok (m', o', b) →
      ∃ r, o'.mmapRegions = o.mmapRegions ++ [r] ∧ r.base = b ∧ size ≤ r.len ∧
        (o'.mmapRegions.map MmapRegion.base).Nodup ∧
        ∀ k < size, m'.lookup o' ((b + k) / 4096) ≠ none
  munmap : ∀ r ∈ o.mmapRegions, ∃ m', syscallMunmap (s.memFor p) o r.base =
      .ok (m', { o with mmapRegions := o.mmapRegions.erase r }, 0) ∧
    Unmaps (s.memFor p) m' s.procs p o r
  other : ∀ addr, (∀ r ∈ o.mmapRegions, r.base ≠ addr) →
    syscallMunmap (s.memFor p) o addr = .ok (s.memFor p, o, 0xFFFFFFFF)
  kept : ∀ {e s' o'}, s.SparesRegions e = true → s.step e = .ok s' → s'.procs p = some o' →
    RegionsKept s.mem s'.mem o o'

end System

/-- Regions in order have distinct bases. -/
theorem RegionsMapped.nodup {m : Memory} {o : ProcMem} (h : RegionsMapped m o) :
    (o.mmapRegions.map MmapRegion.base).Nodup :=
  List.pairwise_map.2 (h.ordered.imp fun hlt => hlt.1.ne)

namespace System

variable {s s' s₀ : System} {es : List SpaceEvent} {p : Nat} {o : ProcMem}

/-- The pages of a new region hold every byte that was asked for. -/
theorem mmap_bytes {m' : Memory} {o' : ProcMem} {size b : Nat} (h : s.Sound)
    (hr : RegionsMapped s.mem o) (ho : s.procs p = some o)
    (hspares : s.SparesRegions (.mmap p size) = true)
    (hrun : syscallMmap (s.memFor p) o size = .ok (m', o', b)) :
    o.mmapNext = b ∧ o'.mmapRegions = o.mmapRegions ++ [o.newRegion size] ∧
      size ≤ (o.newRegion size).len ∧ ∀ k < size, m'.lookup o' ((b + k) / 4096) ≠ none := by
  obtain ⟨hnext, hle⟩ := hr.mmapNext
  simp only [SparesRegions, Maps, ho, Option.all_some, Bool.and_eq_true, ProcMem.mmapMoves,
    decide_eq_true_eq] at hspares
  obtain ⟨hmaps, hsize, -⟩ := hspares
  obtain ⟨hb, -, ho', -, hnew, -, -⟩ := syscallMmap_spec (h.memFor p) ho hnext hle hmaps hrun
  have hbase : (o.newRegion size).base = o.mmapNext := rfl
  have hlen : size ≤ (o.newRegion size).len := by
    have hcount : mmapPageCount size * 4096 = (o.newRegion size).len := rfl
    rw [mmapPageCount, addr32] at hcount
    omega
  refine ⟨hb.symm, by rw [ho'], hlen, fun k hk => hnew _ ?_⟩
  rw [MmapRegion.has, decide_eq_true_eq, hbase, hb]
  have hfull : (o.newRegion size).len % 4096 = 0 := by simp [ProcMem.newRegion]
  omega

end System

end Kaku

-- SUMMARY: In runs that stay clear, the areas of an address space never meet and keep their frames.
import Kaku.Proc.Reap
import Kaku.Proc.Regions

/-!
# Areas that never meet

The run lemmas over `Layout`. A process that is loaded and then left to its calls
keeps its areas apart, its image and stack in place, and never has a page mapped
twice, as long as every call of every process stays clear.
-/

namespace Kaku

/-! ## Mapping pages that are not mapped -/

namespace Memory

variable {m m' : Memory} {live : Nat → Option ProcMem} {p : ProcMem} {q v : Nat}
  {pages : List NewPage}

theorem Separate.unmappedAt_of_lookup (h : m.Separate live) (hp : live q = some p)
    (hv : v < kernelVirtBaseAddr) (hnone : m.lookup p (v / 4096) = none) :
    m.unmappedAt p.procPd v = true := by
  have hi : v / 2 ^ 22 < 768 := by
    rw [kernelVirtBaseAddr] at hv
    omega
  have hslot : m.slot p (.page (v / 2 ^ 22) (v / 2 ^ 12 % 1024)) = none := by
    rw [page_slot]
    exact hnone
  rw [unmappedAt, Bool.or_eq_true, beq_iff_eq]
  rcases h.entries hp hi with hzero | hpresent
  · exact .inl hzero
  · right
    rw [slot, ref_of_entry hi rfl, if_pos hpresent, Option.bind_some, ref] at hslot
    split at hslot
    · cases hslot
    · rename_i habsent
      rw [Bool.not_eq_true', Bool.eq_false_iff]
      exact fun hp => habsent ⟨Nat.mod_lt _ (by decide), hp⟩

/-- Different pages that are not mapped are not mapped either when their turn comes. -/
theorem Separate.allPages_unmapped (h : m.Separate live) (hp : live q = some p)
    (hall : m.mapsOnly cleanAt p.procPd pages = true)
    (hnodup : (pages.map fun page => page.vaddr / 4096).Nodup)
    (hnone : ∀ page ∈ pages, m.lookup p (page.vaddr / 4096) = none) :
    m.allPages unmappedAt p.procPd pages = true := by
  induction pages generalizing m with
  | nil => rfl
  | cons page pages ih =>
    rw [List.map_cons, List.nodup_cons] at hnodup
    obtain ⟨hv, hclean⟩ := mapsOnly_iff.1 hall
    rw [allPages, Bool.and_eq_true] at hclean ⊢
    refine ⟨h.unmappedAt_of_lookup hp (hv page List.mem_cons_self) (hnone page List.mem_cons_self), ?_⟩
    cases hmap : m.mapPage p.procPd page with
    | error e => rfl
    | ok m₁ =>
      have hrest := hclean.2
      rw [hmap] at hrest
      have hone : m.mapPages p.procPd [page] = .ok m₁ := by
        rw [Memory.mapPages, hmap, ok_bind]
        rfl
      have honly : m.mapsOnly cleanAt p.procPd [page] = true := by
        refine mapsOnly_iff.2 ⟨fun page' hpage => ?_, ?_⟩
        · obtain rfl := List.mem_singleton.1 hpage
          exact hv page' List.mem_cons_self
        · rw [allPages, hclean.1, hmap]
          rfl
      obtain ⟨hs₁, f, heffect⟩ := h.mapEffect hp (hv page List.mem_cons_self) hclean.1 hmap
      refine ih hs₁ (mapsOnly_iff.2 ⟨fun page' hpage => hv page' (List.mem_cons_of_mem _ hpage), hrest⟩)
        hnodup.2 fun page' hpage => ?_
      rw [← hnone page' (List.mem_cons_of_mem _ hpage)]
      apply (h.lookup_mapPages hp honly hone).1 q p _ hp
      intro _ page'' hpage'' heq
      obtain rfl := List.mem_singleton.1 hpage''
      exact hnodup.1 (heq ▸ List.mem_map_of_mem hpage)

end Memory

/-! ## The pages that a call maps -/

/-- The pages that a call of a process maps. -/
def SpaceEvent.newPages (o : ProcMem) (p : Nat) : SpaceEvent → List NewPage
  | .sbrk q increment => if q = p then sbrkPages o increment else []
  | .mmap q size => if q = p then mmapPages o size else []
  | _ => []

/-- The pages of a range that does not wrap around are different. -/
theorem pageRange_nodup {lo n : Nat} (hlo : lo % 4096 = 0) (hfit : lo + n * 4096 ≤ 2 ^ 32) :
    ((pageRange lo n).map fun a => a / 4096).Nodup := by
  rw [pageRange, List.map_map]
  refine List.Nodup.map_on ?_ List.nodup_range
  intro i hi j hj heq
  have hin := List.mem_range.1 hi
  have hjn := List.mem_range.1 hj
  simp only [Function.comp_apply, addr32] at heq
  omega

namespace Layout

variable {m : Memory} {o : ProcMem} {increment size : Nat}

theorem sbrkPages_nodup : ((sbrkPages o increment).map fun page => page.vaddr / 4096).Nodup := by
  have hold := roundUp_mod o.programBreak
  have hlt := roundUp_lt (newBreak o.programBreak increment)
  have hltOld := roundUp_lt o.programBreak
  have hnodup := pageRange_nodup (n := (roundUp (newBreak o.programBreak increment) -
    roundUp o.programBreak) / 4096) hold (by omega)
  rw [sbrkPages, List.map_map]
  exact hnodup

/-- A break that stays clear grows by pages that are not mapped. -/
theorem sbrkPages_unmapped (hl : Layout m o) (hfits : o.sbrkFits increment = true)
    {page : NewPage} (hpage : page ∈ sbrkPages o increment) (hv : page.vaddr < kernelVirtBaseAddr) :
    m.lookup o (page.vaddr / 4096) = none := by
  simp only [ProcMem.sbrkFits, Bool.and_eq_true, decide_eq_true_eq, List.all_eq_true,
    Bool.not_eq_true'] at hfits
  obtain ⟨hstack, hmmap⟩ := hfits.2 page hpage
  obtain ⟨hlo, -⟩ := mem_sbrkPages.1 ⟨page, hpage, rfl⟩
  have hpageLt : page.vaddr / 4096 < kernelPage := by
    rw [kernelVirtBaseAddr] at hv
    rw [kernelPage]
    omega
  have hbrk : ¬ o.brkHas (page.vaddr / 4096) = true := by
    rw [brkHas_iff hl.programBreak.2.1 hl.programBreak.1]
    omega
  have himage : ¬ imageHas o.elf (page.vaddr / 4096) = true := by
    intro himage
    have hbelow := (hl.image _ himage).1
    have hinitial := hl.programBreak.2.2
    omega
  rw [← not_ne_iff, hl.mapped _ hpageLt, hstack, hmmap]
  simp [hbrk, himage]

theorem mmapPages_nodup (hl : Layout m o)
    (hv : ∀ page ∈ mmapPages o size, page.vaddr < kernelVirtBaseAddr) :
    ((mmapPages o size).map fun page => page.vaddr / 4096).Nodup := by
  obtain ⟨hbase, hle⟩ := hl.mmapNext
  have hfit := pageRange_fits hbase hle fun a ha => hv { vaddr := a } (List.mem_map.2 ⟨a, ha, rfl⟩)
  have hnodup := pageRange_nodup (n := mmapPageCount size) hbase (by
    rw [kernelVirtBaseAddr] at hfit
    omega)
  rw [mmapPages, List.map_map]
  exact hnodup

/-- A region that stays clear is made of pages that are not mapped. -/
theorem mmapPages_unmapped (hl : Layout m o) (hfits : o.mmapFits size = true)
    (hv : ∀ page ∈ mmapPages o size, page.vaddr < kernelVirtBaseAddr)
    {page : NewPage} (hpage : page ∈ mmapPages o size) :
    m.lookup o (page.vaddr / 4096) = none := by
  obtain ⟨hbase, hle⟩ := hl.mmapNext
  have hfit := pageRange_fits hbase hle fun a ha => hv { vaddr := a } (List.mem_map.2 ⟨a, ha, rfl⟩)
  simp only [ProcMem.mmapFits, List.all_eq_true, Bool.and_eq_true, Bool.not_eq_true'] at hfits
  obtain ⟨⟨himage, hbrk⟩, hstack⟩ := hfits page hpage
  have hpageLt : page.vaddr / 4096 < kernelPage := by
    have hlt := hv page hpage
    rw [kernelVirtBaseAddr] at hlt
    rw [kernelPage]
    omega
  have hstart : o.mmapNext ≤ page.vaddr / 4096 * 4096 := by
    have hrange := mem_pageRange (v := page.vaddr / 4096) (n := mmapPageCount size) hbase (by
      rw [kernelVirtBaseAddr] at hfit
      omega)
    refine (hrange.1 ?_).1
    obtain ⟨a, ha, rfl⟩ := List.mem_map.1 hpage
    exact ⟨a, ha, rfl⟩
  -- All live regions end below the cursor.
  have hmmap : ¬ o.mmapHas (page.vaddr / 4096) = true := by
    rw [ProcMem.mmapHas, List.any_eq_true]
    rintro ⟨r, hr, hin⟩
    have hend := (hl.regions r hr).2.2
    simp only [MmapRegion.has, decide_eq_true_eq] at hin
    omega
  rw [← not_ne_iff, hl.mapped _ hpageLt, himage, hbrk, hstack]
  simp [hmmap]

end Layout

/-! ## Runs -/

namespace System

variable {s s' s₀ s₁ s₂ : System} {e : SpaceEvent} {es es₁ : List SpaceEvent} {p : Nat}
  {o o₂ : ProcMem} {elf : Mem}

/-- A step creates at most the process that `pid_counter` announces. -/
theorem step_pids (h : s.Sound) (hstep : s.step e = .ok s') :
    s'.pidCounter = s.pidCounter ∧ (∀ q, s.procs q = none → s'.procs q = none) ∨
      s.pidCounter ≠ 0 ∧ s'.pidCounter = addr32 (s.pidCounter + 1) ∧
        ∀ q, q ≠ s.pidCounter → s'.procs q = s.procs q := by
  have hupdate {m : Memory} {p : Nat} {o : ProcMem} (x : Option ProcMem)
      (hp : s.procs p = some o) : (s.update m p x).pidCounter = s.pidCounter ∧
        ∀ q, s.procs q = none → (s.update m p x).procs q = none := by
    refine ⟨rfl, fun q hq => ?_⟩
    have hne : q ≠ p := by
      rintro rfl
      rw [hp] at hq
      cases hq
    simp only [update, Function.update_of_ne hne, hq]
  cases step_effect hstep with
  | refused file => exact .inl ⟨rfl, fun q hq => hq⟩
  | @loaded elf m p hload =>
    obtain ⟨hpid, -, m₁, o, hobject, -, hp⟩ := elfLoad_some hload
    have hdead := h.pids hpid s.pidCounter le_rfl
    obtain ⟨-, -, hprocId⟩ := (h.memFor s.pidCounter).createEffect hdead hobject
    have hid : p.procId = s.pidCounter := by rw [hp, ← hprocId]
    refine .inr ⟨hpid, rfl, fun q hq => ?_⟩
    simp only [update, hid, Function.update_of_ne hq]
  | sbrk hp hrun | mmap hp hrun | munmap hp hrun | reap hp hrun => exact .inl (hupdate _ hp)
  | store hp hframe => exact .inl ⟨rfl, fun q hq => hq⟩
  | trap hp stack => exact .inl ⟨rfl, fun q hq => hq⟩

theorem Sound.fits (h : s.Sound) (hfits : s.Fits e = true) (hstep : s.step e = .ok s') :
    s'.Sound := by
  simp only [Fits, Bool.and_eq_true] at hfits
  exact h.maps hfits.1 hstep

theorem laid_run (hrun : Run FitSteps s es s') (h : s.Sound) (hl : s.Laid) :
    s'.Sound ∧ s'.Laid := by
  refine hrun.invariant (I := fun s => s.Sound ∧ s.Laid) ?_ ⟨h, @hl⟩
  rintro s e s' ⟨hfits, hstep⟩ ⟨hs, hl⟩
  exact ⟨hs.fits hfits hstep, (advances_step hs hl hfits hstep).1⟩

theorem Booted.laid (h : s.Booted) : s.Laid := by
  intro p o hp
  rw [h.procs] at hp
  cases hp

theorem Keeps.trans {m m' m'' : Memory} {o o' o'' : ProcMem} (h : Keeps m m' o o')
    (h' : Keeps m' m'' o' o'') : Keeps m m'' o o'' where
  elf := h'.elf.trans h.elf
  lookup := by
    intro v hv
    rw [h'.lookup v (by rwa [h.elf]), h.lookup v hv]

/-- A process that exists keeps its image and its stack, and once it is gone it
does not come back. -/
theorem keeps_run (hrun : Run FitSteps s₂ es s) (h : s₂.Sound) (hl : s₂.Laid)
    (ho₂ : s₂.procs p = some o₂) (ho : s.procs p = some o) : Keeps s₂.mem s.mem o₂ o := by
  have hinv : s.Sound ∧ s.Laid ∧ (s.pidCounter = 0 ∨ p < s.pidCounter) ∧
      ∀ o, s.procs p = some o → Keeps s₂.mem s.mem o₂ o := by
    refine hrun.invariant (I := fun s => s.Sound ∧ s.Laid ∧ (s.pidCounter = 0 ∨ p < s.pidCounter) ∧
      ∀ o, s.procs p = some o → Keeps s₂.mem s.mem o₂ o) ?_ ⟨h, @hl, ?_, fun o ho => ?_⟩
    · rintro s e s' ⟨hfits, hstep⟩ ⟨hs, hl, hpid, hkeeps⟩
      obtain ⟨hl', hadvance⟩ := advances_step hs hl hfits hstep
      have hcounter := hs.pidCounter
      refine ⟨hs.fits hfits hstep, @hl', ?_, fun o' ho' => ?_⟩
      · rcases step_pids hs hstep with ⟨hsame, -⟩ | ⟨hne, hnext, -⟩
        · rwa [hsame]
        · rw [hnext, addr32]
          omega
      · have hlive : ∃ o, s.procs p = some o := by
          rw [← Option.ne_none_iff_exists']
          intro hnone
          rcases step_pids hs hstep with ⟨-, hdead⟩ | ⟨hne, -, hother⟩
          · rw [hdead p hnone] at ho'
            cases ho'
          · rw [hother p (by omega), hnone] at ho'
            cases ho'
        obtain ⟨o, ho⟩ := hlive
        exact Keeps.trans (hkeeps o ho) (hadvance ho ho')
    · rcases Nat.eq_zero_or_pos s₂.pidCounter with hzero | hpos
      · exact .inl hzero
      · exact .inr (h.pid_lt ho₂ (by omega))
    · obtain rfl : o₂ = o := Option.some.inj (ho₂.symm.trans ho)
      exact ⟨rfl, fun v hv => rfl⟩
  exact hinv.2.2.2 o ho

/-- The process that a step creates runs the file that the step loads. -/
theorem exec_elf (hstep : s.step (.exec (some elf)) = .ok s')
    (hnew : s.procs p = none) (ho : s'.procs p = some o) : o.elf = elf := by
  cases step_effect hstep with
  | refused =>
    rw [hnew] at ho
    cases ho
  | @loaded _ m x hload =>
    obtain ⟨-, -, m₁, o', -, -, hx⟩ := elfLoad_some hload
    simp only [update] at ho
    rcases eq_or_ne p x.procId with rfl | hne
    · rw [Function.update_self] at ho
      rw [← Option.some.inj ho, hx]
    · rw [Function.update_of_ne hne, hnew] at ho
      cases ho

/-- A call that stays clear maps no page that is mapped. -/
theorem newPages_unmapped (h : s.Sound) (hl : s.Laid) (ho : s.procs p = some o)
    (hfits : s.Fits e = true) : (s.memFor p).allPages Memory.unmappedAt o.procPd (e.newPages o p) := by
  have hlayout : Layout (s.memFor p) o := (hl ho).congr fun v => rfl
  cases e with
  | sbrk q increment =>
    rcases eq_or_ne q p with rfl | hq
    · simp only [Fits, Maps, ho, Option.all_some, Bool.and_eq_true] at hfits
      obtain ⟨⟨hmaps, -⟩, hclear⟩ := hfits
      rw [SpaceEvent.newPages, if_pos rfl]
      apply (h.memFor q).allPages_unmapped ho hmaps Layout.sbrkPages_nodup
      exact fun page hpage => hlayout.sbrkPages_unmapped hclear hpage
        ((Memory.mapsOnly_iff.1 hmaps).1 page hpage)
    · rw [SpaceEvent.newPages, if_neg hq]
      rfl
  | mmap q size =>
    rcases eq_or_ne q p with rfl | hq
    · simp only [Fits, Maps, ho, Option.all_some, Bool.and_eq_true] at hfits
      obtain ⟨hmaps, hclear⟩ := hfits
      have hv := (Memory.mapsOnly_iff.1 hmaps).1
      rw [SpaceEvent.newPages, if_pos rfl]
      apply (h.memFor q).allPages_unmapped ho hmaps (hlayout.mmapPages_nodup hv)
      exact fun page hpage => hlayout.mmapPages_unmapped hclear hv hpage
    · rw [SpaceEvent.newPages, if_neg hq]
      rfl
  | exec file => rfl
  | munmap q addr => rfl
  | store q addr byte => rfl
  | trap q stack => rfl
  | reap q => rfl

end System

end Kaku

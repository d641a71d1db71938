-- SUMMARY: The kernel half of every address space stays what kernel initialisation made it.
import Kaku.Proc.Apart

/-!
# The kernel half

All page directories share the page tables of the kernel half by pointer, so one
wrong entry is wrong for every process. The routines write to frames that were
free, to frames that the slots of a process hold, and to the directory entry of
the address they map. As long as that address is in the user half, none of these
is a part of the kernel's directory, of its tables or of the upper entries of
another directory.
-/

namespace Kaku

namespace Memory

/-! ## The kernel's frames -/

/-- The kernel's page directory, and the tables behind the upper quarter of it. -/
def KernelFrame (m : Memory) (g : Nat) : Prop :=
  g = m.kernelPd ∨
    ∃ i, 768 ≤ i ∧ i < 1024 ∧ present (m.entry m.kernelPd i) = true ∧
      g = frameOf (m.entry m.kernelPd i)

/-- What `paging_kernel_init` and `vesa_init` leave behind: frames that `fa_alloc`
handed out, and entries without the user flag. -/
structure KernelMapped (m : Memory) : Prop where
  frames : ∀ {g}, m.KernelFrame g → m.InUse g
  flags : ∀ {i}, 768 ≤ i → i < 1024 → m.entry m.kernelPd i / 4 % 2 = 0

/-- Whether a page is accessible in user mode through a directory. -/
def userAccess (m : Memory) (pd v : Nat) : Bool :=
  let pde := m.entry pd (v / 1024)
  let pte := m.entry (frameOf pde) (v % 1024)
  present pde && decide (pde / 4 % 2 = 1) && present pte && decide (pte / 4 % 2 = 1)

/-- The kernel half of the first memory is the kernel half of the second one. -/
structure KernelKept (m₀ m : Memory) (live : Nat → Option ProcMem) : Prop where
  kernelPd : m.kernelPd = m₀.kernelPd
  loose : ∀ {g}, m₀.KernelFrame g → m.Loose live g
  same : ∀ {g}, m₀.KernelFrame g → m₀.Same m g
  upper : ∀ {q p i}, live q = some p → 768 ≤ i → i < 1024 →
    m.entry p.procPd i = m₀.entry m₀.kernelPd i

/-! ## What the routines leave alone -/

/-- A byte of a frame that no slot holds, or of the upper quarter of a directory. -/
def Fixed (m : Memory) (live : Nat → Option ProcMem) (a : Nat) : Prop :=
  m.Loose live (a / 4096) ∨ ∃ q p, live q = some p ∧ a / 4096 = p.procPd ∧ 768 * 4 ≤ a % 4096

variable {m m' m₀ m₁ m₂ : Memory} {live : Nat → Option ProcMem} {p p' : ProcMem}
  {q i j f g v a n : Nat} {s : Slot} {pages : List NewPage} {addrs : List Nat} {src : Mem}

theorem phys_setEntry (hi : i < 1024) (h : a / 4096 = f → a % 4096 / 4 ≠ i) :
    (m.setEntry f i v).phys a = m.phys a := by
  apply Mem.store_of_not_mem
  rcases eq_or_ne (a / 4096) f with heq | hne
  · have hoff := h heq
    omega
  · omega

theorem phys_fill (hn : j + n ≤ 4096) (h : a / 4096 ≠ f) : (m.fill f j n src).phys a = m.phys a := by
  apply Mem.blit_of_not_mem
  omega

namespace Fixed

theorem inUse (h : m.Fixed live a) (hs : m.Separate live) : m.InUse (a / 4096) := by
  rcases h with hloose | ⟨q, p, hp, hpd, -⟩
  · exact hloose.1
  · rw [hpd]
    exact hs.inUse (s := .directory) hp rfl

/-- It is in no frame that was free. -/
theorem ne_of_free (h : m.Fixed live a) (hs : m.Separate live) (hf : ¬ m.InUse f) :
    a / 4096 ≠ f := by
  rintro rfl
  exact hf (h.inUse hs)

/-- It is in no frame that a slot other than a directory holds. -/
theorem ne_of_held (h : m.Fixed live a) (hs : m.Separate live)
    (hf : m.holding live (q, s) = some f) (hd : s ≠ .directory) : a / 4096 ≠ f := by
  rintro rfl
  rcases h with hloose | ⟨q', p', hp', hpd, -⟩
  · exact hloose.2 _ hf
  · have hdir : m.holding live (q', .directory) = some (a / 4096) := by
      rw [holding_of_live hp', hpd]
      rfl
    exact hd (Prod.mk.inj (hs.exclusive.inj hf hdir)).2

/-- It is not the entry of a user address in a directory. -/
theorem ne_of_entry (h : m.Fixed live a) (hp : live q = some p) (hi : i < 768)
    (hpd : a / 4096 = p.procPd) : a % 4096 / 4 ≠ i := by
  rcases h with hloose | ⟨-, -, -, -, hupper⟩
  · have hdir : m.holding live (q, .directory) = some (a / 4096) := by
      rw [holding_of_live hp, hpd]
      rfl
    exact absurd hdir (hloose.2 _)
  · omega

end Fixed

/-! ### Each routine -/

theorem Separate.mapPage_fixed {page : NewPage} (h : m.Separate live) (hp : live q = some p)
    (hv : page.vaddr < kernelVirtBaseAddr) (hmap : m.mapPage p.procPd page = .ok m')
    (ha : m.Fixed live a) : m'.phys a = m.phys a ∧ m'.kernelPd = m.kernelPd := by
  have hi : page.vaddr / 2 ^ 22 < 768 := by
    rw [kernelVirtBaseAddr] at hv
    omega
  have hj : page.vaddr / 2 ^ 12 % 1024 < 1024 := by omega
  simp only [mapPage, bind_eq_ok, Prod.exists] at hmap
  obtain ⟨m₁, f, hf, m₂, hpaging, hcontent⟩ := hmap
  obtain ⟨hfree, huse₁⟩ := faAlloc_inUse hf
  obtain ⟨hm₁, -, -⟩ := faAlloc_eq_ok hf
  obtain ⟨hs₁, -, -⟩ := h.alloc hf
  have hentry : ∀ x k, m₁.entry x k = m.entry x k := fun x k => by rw [hm₁]; rfl
  have hphys₁ : m₁.phys = m.phys := by rw [hm₁]
  have hpd₁ : m₁.kernelPd = m.kernelPd := by rw [hm₁]
  -- The table is new, or it is one of the process's.
  have hphys₂ : m₂.phys a = m.phys a ∧ m₂.kernelPd = m.kernelPd := by
    rcases h.entries hp hi with hzero | hpresent
    · simp only [pagingMap, if_pos ((hentry _ _).trans hzero), bind_eq_ok, Prod.exists,
        pure_eq_ok, exists_eq_left'] at hpaging
      obtain ⟨m₃, g, hg, pt, hpt, rfl⟩ := hpaging
      obtain ⟨hfreeg, -⟩ := faAlloc_inUse hg
      obtain ⟨hs₃, hg₃, -⟩ := hs₁.alloc hg
      obtain ⟨hm₃, -, -⟩ := faAlloc_eq_ok hg
      rw [hs₃.entry_link hg₃.1, frameOf_pageEntry procUserFlags_lt, hs₃.direct hg₃.1] at hpt
      obtain rfl : g = pt := Except.ok.inj hpt
      have hne : a / 4096 ≠ g := ha.ne_of_free h fun hin => hfreeg ((huse₁ g).2 (.inl hin))
      constructor
      · rw [phys_setEntry hj fun heq => absurd heq hne,
          phys_setEntry (by omega) (ha.ne_of_entry hp hi), hm₃, hm₁]
      · rw [← hpd₁, setEntry, setEntry, hm₃]
    · have hnonzero : m₁.entry p.procPd (page.vaddr / 2 ^ 22) ≠ 0 := by
        rw [hentry]
        intro hzero
        rw [hzero] at hpresent
        cases hpresent
      simp only [pagingMap, if_neg hnonzero, bind_eq_ok, pure_eq_ok, exists_eq_left'] at hpaging
      simp only [hentry] at hpaging
      obtain ⟨pt, hpt, rfl⟩ := hpaging
      have href : m.ref 768 p.procPd (page.vaddr / 2 ^ 22) =
          some (frameOf (m.entry p.procPd (page.vaddr / 2 ^ 22))) := by
        rw [ref_of_entry hi rfl, if_pos hpresent]
      have hheld : m.holding live (q, .table (page.vaddr / 2 ^ 22)) =
          some (frameOf (m.entry p.procPd (page.vaddr / 2 ^ 22))) := by
        rw [holding_of_live hp, slot, href]
      rw [h.direct (h.inUse (s := .table _) hp href)] at hpt
      rw [Except.ok.inj hpt] at hheld
      constructor
      · rw [phys_setEntry hj fun heq => absurd heq (ha.ne_of_held h hheld (by simp)), hphys₁]
      · rw [← hpd₁, setEntry]
  split at hcontent
  · simp only [pure_eq_ok] at hcontent
    rwa [← hcontent]
  · simp only [bind_eq_ok, pure_eq_ok] at hcontent
    obtain ⟨dst, hdst, rfl⟩ := hcontent
    obtain ⟨rfl, -⟩ := direct_eq_ok hdst
    rw [phys_fill (by omega) (ha.ne_of_free h hfree)]
    exact hphys₂

theorem Separate.unmapPage_fixed {addr : Nat} (h : m.Separate live) (hp : live q = some p)
    (hv : addr < kernelVirtBaseAddr) (hunmap : m.unmapPage p.procPd addr = .ok m')
    (ha : m.Fixed live a) : m'.phys a = m.phys a ∧ m'.kernelPd = m.kernelPd := by
  have hi : addr / 2 ^ 22 < 768 := by
    rw [kernelVirtBaseAddr] at hv
    omega
  simp only [unmapPage] at hunmap
  split at hunmap
  · rename_i hpde
    simp only [bind_eq_ok] at hunmap
    obtain ⟨pt, hpt, hunmap⟩ := hunmap
    obtain ⟨rfl, -⟩ := direct_eq_ok hpt
    split at hunmap
    · simp only [bind_eq_ok, pure_eq_ok] at hunmap
      obtain ⟨m₁, hfree, rfl⟩ := hunmap
      obtain ⟨-, rfl⟩ := faFree_eq_ok.1 hfree
      have hheld : m.holding live (q, .table (addr / 2 ^ 22)) =
          some (frameOf (m.entry p.procPd (addr / 2 ^ 22))) := by
        rw [holding_of_live hp, slot, ref_of_entry hi rfl, if_pos hpde]
      refine ⟨?_, rfl⟩
      rw [phys_setEntry (by omega) fun heq => absurd heq (ha.ne_of_held h hheld (by simp))]
    · simp only [pure_eq_ok] at hunmap
      rw [← hunmap]
      exact ⟨rfl, rfl⟩
  · simp only [pure_eq_ok] at hunmap
    rw [← hunmap]
    exact ⟨rfl, rfl⟩

/-- The upper entries of a new directory are the kernel's. -/
theorem Separate.pagingCreatePd_upper (h : m.Separate live) (hpd : m.InUse m.kernelPd)
    (hrun : m.pagingCreatePd = .ok (m', f)) :
    (∀ i, 768 ≤ i → i < 1024 → m'.entry f i = m.entry m.kernelPd i) ∧
      (∀ a, m.Fixed live a → m'.phys a = m.phys a) ∧ m'.kernelPd = m.kernelPd := by
  simp only [Memory.pagingCreatePd, bind_eq_ok, Prod.exists, pure_eq_ok, Prod.mk.injEq] at hrun
  obtain ⟨m₁, f', ha, pd, hdirect, hm', rfl⟩ := hrun
  obtain ⟨rfl, -⟩ := direct_eq_ok hdirect
  obtain ⟨hfree, -⟩ := faAlloc_inUse ha
  obtain ⟨hm₁, -, -⟩ := faAlloc_eq_ok ha
  have hphys : m₁.phys = m.phys := by rw [hm₁]
  have hkpd : m₁.kernelPd = m.kernelPd := by rw [hm₁]
  have hne : m.kernelPd ≠ pd := by
    rintro heq
    rw [heq] at hpd
    exact hfree hpd
  refine ⟨fun i hlo hhi => ?_, fun a hfixed => ?_, ?_⟩
  · rw [← hm', entry_fill (by omega) (by omega), entry]
    apply Mem.load_eq_of_bytes
    intro k hk
    have hbyte : (m₁.fill pd 0 (768 * 4) fun _ => 0).phys (m.kernelPd * 4096 + 4 * i + k) =
        m₁.phys (m.kernelPd * 4096 + 4 * i + k) := phys_fill (by omega) (by omega)
    rw [hphys] at hbyte
    rw [← hbyte]
    simp only [fill, hkpd]
    congr 1
    omega
  · have hout := hfixed.ne_of_free h hfree
    rw [← hm', phys_fill (by omega) hout, phys_fill (by omega) hout, hphys]
  · rw [← hm', ← hkpd, fill, fill]

theorem Separate.procObject_fixed {pidCounter entry : Nat} (h : m.Separate live)
    (hpd : m.InUse m.kernelPd) (hrun : procObject m pidCounter entry = .ok (m', p)) :
    (∀ i, 768 ≤ i → i < 1024 → m'.entry p.procPd i = m.entry m.kernelPd i) ∧
      (∀ a, m.Fixed live a → m'.phys a = m.phys a) ∧ m'.kernelPd = m.kernelPd := by
  simp only [procObject, bind_eq_ok, Prod.exists, pure_eq_ok, Prod.mk.injEq] at hrun
  obtain ⟨m₁, pd, hcreate, m₂, ks, ha, ks', hdirect, hm', rfl⟩ := hrun
  obtain ⟨rfl, -⟩ := direct_eq_ok hdirect
  obtain ⟨hupper, hfixed, hkpd⟩ := h.pagingCreatePd_upper hpd hcreate
  obtain ⟨hs₁, -, hpd₁, -, -, huse₁, -, -⟩ := h.pagingCreatePd hcreate
  obtain ⟨hfree, -⟩ := faAlloc_inUse ha
  obtain ⟨hm₂, -, -⟩ := faAlloc_eq_ok ha
  have hphys : m₂.phys = m₁.phys := by rw [hm₂]
  have hne : pd ≠ ks' := by
    rintro rfl
    exact hfree hpd₁.1
  refine ⟨fun i hlo hhi => ?_, fun a hin => ?_, ?_⟩
  · rw [← hm', (same_fill (by omega) hne).entry (by omega), Memory.entry, hphys]
    exact hupper i hlo hhi
  · have hout : a / 4096 ≠ ks' := by
      rintro rfl
      exact hfree ((huse₁ _).2 (.inl (hin.inUse h)))
    rw [← hm', phys_fill (by omega) hout, hphys, hfixed a hin]
  · rw [← hm', fill, hm₂, hkpd]

/-! ### Frames that no slot holds -/

theorem MapEffect.loose (h : MapEffect m live q i j f m') (hg : m.Loose live g) :
    m'.Loose live g := by
  obtain ⟨hin, hfree⟩ := hg
  cases h with
  | page hf huse hhold hcalls =>
    refine ⟨(huse g).2 (.inl hin), fun k hk => ?_⟩
    rw [hhold] at hk
    rcases eq_or_ne k (q, .page i j) with rfl | hne
    · rw [Function.update_self] at hk
      exact hf (Option.some.inj hk ▸ hin)
    · rw [Function.update_of_ne hne] at hk
      exact hfree k hk
  | table t hf ht hne huse hnone hhold hcalls =>
    refine ⟨(huse g).2 (.inl (.inl hin)), fun k hk => ?_⟩
    rw [hhold] at hk
    rcases eq_or_ne k (q, .page i j) with rfl | hpage
    · rw [Function.update_self] at hk
      exact hf (Option.some.inj hk ▸ hin)
    · rw [Function.update_of_ne hpage] at hk
      rcases eq_or_ne k (q, .table i) with rfl | htable
      · rw [Function.update_self] at hk
        exact ht (Option.some.inj hk ▸ hin)
      · rw [Function.update_of_ne htable] at hk
        exact hfree k hk

theorem UnmapEffect.loose (h : UnmapEffect m live q i j m') (hg : m.Loose live g) :
    m'.Loose live g := by
  cases h with
  | absent hnone hm' => rwa [hm']
  | page f hf huse hhold hcalls hclient =>
    obtain ⟨hin, hfree⟩ := hg
    refine ⟨(huse g).2 ⟨hin, ?_⟩, fun k hk => ?_⟩
    · rintro rfl
      exact hfree _ hf
    · rw [hhold] at hk
      rcases eq_or_ne k (q, .page i j) with rfl | hne
      · rw [Function.update_self] at hk
        cases hk
      · rw [Function.update_of_ne hne] at hk
        exact hfree k hk

/-- What a new process holds was free. -/
theorem CreateEffect.loose (h : CreateEffect m live q p m') (hg : m.Loose live g) :
    m'.Loose (Function.update live q (some p)) g := by
  obtain ⟨hin, hfree⟩ := hg
  refine ⟨(h.use g).2 (.inl (.inl hin)), fun k hk => ?_⟩
  rw [h.hold] at hk
  rcases eq_or_ne k (q, .kernelStack) with rfl | hks
  · rw [Function.update_self] at hk
    exact h.ks (Option.some.inj hk ▸ hin)
  · rw [Function.update_of_ne hks] at hk
    rcases eq_or_ne k (q, .directory) with rfl | hpd
    · rw [Function.update_self] at hk
      exact h.pd (Option.some.inj hk ▸ hin)
    · rw [Function.update_of_ne hpd] at hk
      exact hfree k hk

theorem freeAll_kernelPd {l : List Nat} (h : m.freeAll l = .ok m') : m'.kernelPd = m.kernelPd := by
  induction l generalizing m with
  | nil => rw [← Except.ok.inj h]
  | cons f l ih =>
    simp only [freeAll, bind_eq_ok] at h
    obtain ⟨m₁, hfree, hrest⟩ := h
    obtain ⟨-, rfl⟩ := faFree_eq_ok.1 hfree
    rw [ih hrest]

/-! ## The invariant -/

namespace KernelKept

/-- A step that changes nothing fixed, and takes no frame that no slot holds. -/
theorem of_fixed (h : KernelKept m₀ m live)
    (hfixed : ∀ a, m.Fixed live a → m'.phys a = m.phys a ∧ m'.kernelPd = m.kernelPd)
    (hloose : ∀ {g}, m.Loose live g → m'.Loose live g) : KernelKept m₀ m' live where
  kernelPd := by
    have hpd : m.Fixed live (m₀.kernelPd * 4096) := by
      left
      rw [Nat.mul_div_cancel _ (by decide)]
      exact h.loose (.inl rfl)
    rw [(hfixed _ hpd).2, h.kernelPd]
  loose := fun hg => hloose (h.loose hg)
  same := by
    intro g hg k hk
    have hin : m.Fixed live (g * 4096 + k) := by
      left
      rw [show (g * 4096 + k) / 4096 = g by omega]
      exact h.loose hg
    rw [(hfixed _ hin).1, h.same hg k hk]
  upper := by
    intro q p i hp hlo hhi
    rw [← h.upper hp hlo hhi]
    apply Mem.load_congr
    intro x hxlo hxhi
    exact (hfixed x (.inr ⟨q, p, hp, by omega, by omega⟩)).1

theorem mapPages (h : KernelKept m₀ m live) (hs : m.Separate live) (hp : live q = some p)
    (hall : m.mapsOnly cleanAt p.procPd pages = true)
    (hrun : m.mapPages p.procPd pages = .ok m') : KernelKept m₀ m' live := by
  induction pages generalizing m with
  | nil =>
    obtain rfl : m = m' := by simpa [Memory.mapPages] using hrun
    exact h
  | cons page pages ih =>
    simp only [Memory.mapPages, bind_eq_ok] at hrun
    obtain ⟨m₁, hmap, hrest⟩ := hrun
    simp only [mapsOnly_iff, allPages, hmap, Bool.and_eq_true] at hall
    obtain ⟨hv, hclean, hlater⟩ := hall
    obtain ⟨hs₁, f, heffect⟩ := hs.mapEffect hp (hv page List.mem_cons_self) hclean hmap
    refine ih (h.of_fixed (fun a => hs.mapPage_fixed hp (hv page List.mem_cons_self) hmap)
      heffect.loose) hs₁ (mapsOnly_iff.2 ⟨fun page' hpage => ?_, hlater⟩) hrest
    exact hv page' (List.mem_cons_of_mem _ hpage)

theorem unmapPages (h : KernelKept m₀ m live) (hs : m.Separate live) (hp : live q = some p)
    (hv : ∀ a ∈ addrs, a < kernelVirtBaseAddr)
    (hrun : m.syscallUnmapPages p.procPd addrs = .ok m') : KernelKept m₀ m' live := by
  induction addrs generalizing m with
  | nil =>
    obtain rfl : m = m' := by simpa [Memory.syscallUnmapPages] using hrun
    exact h
  | cons a addrs ih =>
    obtain ⟨m₁, hfirst, hs₁, heffect⟩ := hs.unmapEffect hp (hv a List.mem_cons_self)
    rw [syscallUnmapPages, hfirst, ok_bind] at hrun
    exact ih (h.of_fixed (fun b => hs.unmapPage_fixed hp (hv a List.mem_cons_self) hfirst)
      heffect.loose) hs₁ (fun b hb => hv b (List.mem_cons_of_mem _ hb)) hrun

/-- A new process gets the kernel's upper entries. -/
theorem create {pidCounter entry : Nat} (h : KernelKept m₀ m live) (hs : m.Separate live)
    (hq : live q = none) (hrun : procObject m pidCounter entry = .ok (m', p)) :
    KernelKept m₀ m' (Function.update live q (some p)) := by
  have hpd : m.InUse m.kernelPd := by
    rw [h.kernelPd]
    exact (h.loose (.inl rfl)).1
  obtain ⟨hupper, hfixed, hkpd⟩ := hs.procObject_fixed hpd hrun
  obtain ⟨-, heffect, -⟩ := hs.createEffect hq hrun
  have hfixed' : ∀ {g a}, m.Loose live g → a / 4096 = g → m'.phys a = m.phys a := by
    rintro g a hg rfl
    exact hfixed a (.inl hg)
  refine ⟨hkpd.trans h.kernelPd, fun hg => heffect.loose (h.loose hg), ?_, ?_⟩
  · intro g hg k hk
    rw [hfixed' (h.loose hg) (by omega), h.same hg k hk]
  · intro q' p' i hp' hlo hhi
    rcases eq_or_ne q' q with rfl | hne
    · rw [Function.update_self] at hp'
      obtain rfl : p = p' := Option.some.inj hp'
      rw [hupper i hlo hhi, h.kernelPd]
      exact (h.same (.inl rfl)).entry hhi
    · rw [Function.update_of_ne hne] at hp'
      rw [← h.upper hp' hlo hhi]
      apply Mem.load_congr
      intro x hxlo hxhi
      exact hfixed x (.inr ⟨q', p', hp', by omega, by omega⟩)

/-- A write to a frame that is neither a directory nor a table. -/
theorem fill (h : KernelKept m₀ m live) (hs : m.Separate live) (hf : m.holding live (q, s) = some f)
    (hslot : s ≠ .directory ∧ ∀ i, s ≠ .table i) (hn : j + n ≤ 4096) :
    KernelKept m₀ (m.fill f j n src) live := by
  obtain ⟨hhold, -⟩ := hs.fill_held hf hslot src hn
  refine h.of_fixed (fun a ha => ⟨?_, rfl⟩) fun hg => ⟨hg.1, fun k => ?_⟩
  · exact phys_fill hn (ha.ne_of_held hs hf hslot.1)
  · rw [hhold]
    exact hg.2 k

theorem update (h : KernelKept m₀ m live) (hp : live q = some p) (hsame : SameFrames p p') :
    KernelKept m₀ m (Function.update live q (some p')) := by
  refine ⟨h.kernelPd, fun hg => ⟨(h.loose hg).1, fun k => ?_⟩, h.same, ?_⟩
  · rw [holding_update hp hsame]
    exact (h.loose hg).2 k
  · intro q' x i hx hlo hhi
    rcases eq_or_ne q' q with rfl | hne
    · rw [Function.update_self] at hx
      rw [← Option.some.inj hx, hsame.1]
      exact h.upper hp hlo hhi
    · rw [Function.update_of_ne hne] at hx
      exact h.upper hx hlo hhi

/-- The frames of a process go, the memory stays. -/
theorem destroy (h : KernelKept m₀ m live) (hs : m.Separate live) (hp : live q = some p)
    (hrun : m.freeAll (m.framesOf p) = .ok m') :
    KernelKept m₀ m' (Function.update live q none) := by
  obtain ⟨-, huse, hhold, -⟩ := hs.destroy hp hrun
  have hphys := freeAll_phys hrun
  refine ⟨(freeAll_kernelPd hrun).trans h.kernelPd, fun {g} hg => ⟨(huse g).2 ⟨?_, ?_⟩, ?_⟩, ?_, ?_⟩
  · exact (h.loose hg).1
  · rw [mem_framesOf]
    rintro ⟨s, hslot⟩
    exact (h.loose hg).2 (q, s) (by rw [holding_of_live hp, hslot])
  · intro k
    simp only [hhold]
    split
    · simp
    · exact (h.loose hg).2 k
  · intro g hg k hk
    rw [hphys]
    exact h.same hg k hk
  · intro q' x i hx hlo hhi
    rw [entry, hphys, ← entry]
    rcases eq_or_ne q' q with rfl | hne
    · rw [Function.update_self] at hx
      cases hx
    · rw [Function.update_of_ne hne] at hx
      exact h.upper hx hlo hhi

end KernelKept

end Memory

/-! ## Runs -/

namespace System

variable {s s' s₀ : System} {e : SpaceEvent} {es : List SpaceEvent} {p q v : Nat} {o : ProcMem}
  {m₀ : Memory}

theorem kernelKept_exec {elf : Mem} {m : Memory} {p : ProcMem} (h : s.Sound)
    (hk : Memory.KernelKept m₀ (s.memFor s.pidCounter) s.procs)
    (hmaps : s.Maps Memory.cleanAt (.exec (some elf)) = true)
    (hload : elfLoad (s.memFor s.pidCounter) s.pidCounter (some elf) = .ok (m, some p)) :
    Memory.KernelKept m₀ m (Function.update s.procs p.procId (some p)) := by
  obtain ⟨hpid, hmagic, m₁, o, hobject, hpages, hp⟩ := elfLoad_some hload
  simp only [Maps, hmagic, bne_self_eq_false, Bool.false_or, hobject] at hmaps
  have hdead := h.pids hpid s.pidCounter le_rfl
  obtain ⟨hs₁, hcreate, hprocId⟩ := (h.memFor s.pidCounter).createEffect hdead hobject
  have ho : Function.update s.procs s.pidCounter (some o) s.pidCounter = some o :=
    Function.update_self ..
  have hsame : Memory.SameFrames o p := ⟨by rw [hp], by rw [hp]⟩
  have hk₂ := ((hk.create (h.memFor _) hdead hobject).mapPages hs₁ ho hmaps hpages).update
    ho hsame
  have hid : p.procId = s.pidCounter := by rw [hp, ← hprocId]
  rw [Function.update_idem] at hk₂
  rwa [hid]

/-- Every step that maps cleanly leaves the kernel half alone. -/
theorem kernelKept_step (h : s.Sound) (hk : Memory.KernelKept m₀ s.mem s.procs)
    (hmaps : s.Maps Memory.cleanAt e = true) (hstep : s.step e = .ok s') :
    Memory.KernelKept m₀ s'.mem s'.procs := by
  have hk₀ : ∀ q, Memory.KernelKept m₀ (s.memFor q) s.procs :=
    fun q => ⟨hk.kernelPd, hk.loose, hk.same, hk.upper⟩
  cases step_effect hstep with
  | refused file => exact hk₀ _
  | loaded hload => exact kernelKept_exec h (hk₀ _) hmaps hload
  | @sbrk p increment eax m o o' hp hrun =>
    simp only [Maps, hp, Option.all_some, Bool.and_eq_true, Bool.or_eq_true, decide_eq_true_eq]
      at hmaps
    obtain ⟨ho', hcase⟩ := syscallSbrk_ok hrun
    refine Memory.KernelKept.update ?_ hp ⟨by rw [ho'], by rw [ho']⟩
    rcases hcase with ⟨-, hmap⟩ | ⟨hle, hunmap⟩
    · exact (hk₀ p).mapPages (h.memFor p) hp hmaps.1 hmap
    · exact (hk₀ p).unmapPages (h.memFor p) hp (sbrk_shrink_user hle hmaps.2) hunmap
  | @mmap p size eax m o o' hp hrun =>
    simp only [Maps, hp, Option.all_some] at hmaps
    obtain ⟨hmap, -, ho'⟩ := syscallMmap_ok hrun
    exact ((hk₀ p).mapPages (h.memFor p) hp hmaps hmap).update hp ⟨by rw [ho'], by rw [ho']⟩
  | @munmap p addr eax m o o' hp hrun =>
    rcases syscallMunmap_ok hrun with ⟨-, rfl, rfl, -⟩ | ⟨r, hfind, -, hunmap, ho'⟩
    · exact (hk₀ p).update hp ⟨rfl, rfl⟩
    · have hbase : r.base = addr := by simpa using List.find?_some hfind
      have hv := h.regions hp (List.mem_of_find?_eq_some hfind)
      rw [hbase] at hv
      exact ((hk₀ p).unmapPages (h.memFor p) hp hv hunmap).update hp ⟨by rw [ho'], by rw [ho']⟩
  | store hp hframe => exact hk.fill h.separate (userFrame_held hp hframe) (by simp) (by omega)
  | trap hp stack => exact hk.fill h.separate (kernelStack_held hp) (by simp) (by omega)
  | @reap p m o hp hrun =>
    have hs := h.memFor p
    rw [hs.procDestroy_eq hp] at hrun
    exact (hk₀ p).destroy hs hp hrun

theorem Booted.kernelKept (h : s.Booted) (hm : s.mem.KernelMapped) :
    Memory.KernelKept s.mem s.mem s.procs where
  kernelPd := rfl
  loose := fun hg => ⟨hm.frames hg, fun k => by simp [h.holding]⟩
  same := fun _ => Memory.Same.refl
  upper := by
    intro q p i hp
    rw [h.procs] at hp
    cases hp

/-- The kernel's directory in frame 1, with one table, in frame 2, that maps the first 4 MiB. -/
def kernelPhys : Mem := fun a =>
  let word :=
    if a / 4096 = 1 ∧ a % 4096 / 4 = 768 then pageEntry 2 3
    else if a / 4096 = 2 then pageEntry (a % 4096 / 4) 3
    else 0
  UInt8.ofNat (word / 256 ^ (a % 4))

def mappedSystem : System where
  mem := { (bootedSystem kernelPhys).mem with kernelPd := 1 }
  procs := fun _ => none
  pidCounter := 1

theorem mappedSystem_booted : mappedSystem.Booted where
  procs := fun _ => rfl
  pidCounter := rfl
  window := Nat.le_of_ble_eq_true rfl
  calls := rfl

theorem mappedSystem_entry {i : Nat} (hlo : 768 ≤ i) (hhi : i < 1024) :
    mappedSystem.mem.entry mappedSystem.mem.kernelPd i = if i = 768 then pageEntry 2 3 else 0 := by
  have hall : (List.range 1024).all (fun i => decide (i < 768) ||
      mappedSystem.mem.entry 1 i == if i = 768 then pageEntry 2 3 else 0) = true := by
    decide +kernel
  have hone := List.all_eq_true.1 hall i (List.mem_range.2 hhi)
  rw [Bool.or_eq_true, decide_eq_true_eq, beq_iff_eq] at hone
  exact hone.resolve_left (by omega)

theorem mappedSystem_mapped : mappedSystem.mem.KernelMapped where
  frames := by
    rintro g (rfl | ⟨i, hlo, hhi, hpresent, rfl⟩)
    · exact ⟨Nat.le_of_ble_eq_true rfl, rfl⟩
    · rw [mappedSystem_entry hlo hhi] at hpresent ⊢
      split at hpresent
      · rename_i hi
        rw [if_pos hi]
        exact ⟨Nat.le_of_ble_eq_true rfl, rfl⟩
      · cases hpresent
  flags := by
    intro i hlo hhi
    rw [mappedSystem_entry hlo hhi]
    split
    · decide
    · rfl

/-- A file whose page is to be loaded over the kernel's. -/
def kernelPageElf : Mem := onePageElf.store 60 4 0xC0010000

end System

end Kaku

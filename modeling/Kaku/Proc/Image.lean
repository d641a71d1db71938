-- SUMMARY: The memory image the ELF loader builds, byte by byte, and for which files it is the one the file describes.
import Mathlib.Data.List.Induction
import Mathlib.Data.List.Pairwise
import Kaku.Proc.Reap

/-!
# The loaded image

What `elf_load` leaves behind the addresses of a new process. Each page is mapped
to a frame that was free, and filled from the file; a page that two segments
share is mapped twice, and the second frame replaces the first. The proof follows
the page tables of the new directory alone: it does not depend on what the other
processes or the free frames hold.
-/

namespace Kaku

def NewPage.number (page : NewPage) : Nat := page.vaddr / 4096

namespace Memory

variable {m m₁ m₂ m' : Memory} {pd t f g i j k n v frame : Nat} {page : NewPage} {src : Mem}

/-! ## Mapping one page -/

/-- The table for a page: the one its directory entry refers to, or a new one. -/
inductive TableFor (m : Memory) (pd i t : Nat) : Prop
  | old (hentry : m.entry pd i = pageEntry t procUserFlags) (hused : m.used t = true)
  | new (hentry : m.entry pd i = 0) (hfree : m.used t = false)

/-- What mapping a page writes: the entry of the page in the table `t` and, if `t`
is new, the entry of `t` in the directory. -/
structure EntryWrites (m : Memory) (pd v t f : Nat) (m' : Memory) : Prop where
  addressable : m'.Addressable
  table : m.TableFor pd (v / 2 ^ 22) t
  tableNe : t ≠ pd
  tableLt : t < 0x40000
  used : ∀ x, m'.used x = true ↔ m.used x = true ∨ x = t
  directory : ∀ k < 1024, m'.entry pd k =
    if k = v / 2 ^ 22 then pageEntry t procUserFlags else m.entry pd k
  entries : ∀ k < 1024, m'.entry t k =
    if k = v / 2 ^ 12 % 1024 then pageEntry f procUserFlags else m.entry t k
  frames : ∀ g, g ≠ pd → g ≠ t → m.Same m' g

theorem pageEntry_inj (h : pageEntry f procUserFlags = pageEntry g procUserFlags) : f = g := by
  rw [pageEntry_eq procUserFlags_lt, pageEntry_eq procUserFlags_lt] at h
  omega

theorem pageEntry_ne_zero : pageEntry f procUserFlags ≠ 0 := by
  rw [pageEntry_eq procUserFlags_lt]
  exact Nat.ne_of_gt (Nat.add_pos_right _ (by decide))

theorem pageEntry_mod (hf : f < 2 ^ 20) :
    pageEntry f procUserFlags % 2 ^ 32 = pageEntry f procUserFlags := by
  rw [pageEntry_eq procUserFlags_lt]
  apply Nat.mod_eq_of_lt
  have hflags : procUserFlags = 7 := rfl
  omega

theorem entry_setEntry (hf : f < 2 ^ 20) (k : Nat) :
    (m.setEntry frame j (pageEntry f procUserFlags)).entry frame k =
      if k = j then pageEntry f procUserFlags else m.entry frame k := by
  split
  · rename_i hk
    subst hk
    rw [entry_setEntry_self, pageEntry_mod hf]
  · rename_i hk
    exact entry_setEntry_of_ne (Ne.symm hk)

theorem pagingMap_writes (hm : m.Addressable) (hpd : m.used pd = true) (hf : f < 2 ^ 20)
    (hv : v < kernelVirtBaseAddr)
    (hdir : m.entry pd (v / 2 ^ 22) = 0 ∨ ∃ t, m.entry pd (v / 2 ^ 22) = pageEntry t procUserFlags ∧
      m.used t = true ∧ t ≠ pd)
    (h : m.pagingMap pd f v procUserFlags = .ok m') : ∃ t, m.EntryWrites pd v t f m' := by
  have hi : v / 2 ^ 22 < 1024 := by
    rw [kernelVirtBaseAddr] at hv
    omega
  have hj : v / 2 ^ 12 % 1024 < 1024 := Nat.mod_lt _ (by decide)
  rcases hdir with hzero | ⟨t, hentry, htused, hne⟩
  · simp only [pagingMap, if_pos hzero, bind_eq_ok, Prod.exists, pure_eq_ok,
      exists_eq_left'] at h
    obtain ⟨m₂, t, halloc, pt, hdirect, rfl⟩ := h
    obtain ⟨hfree, ht, hphys, hm₂, hused⟩ := faAlloc_spec hm halloc
    have hne : t ≠ pd := by
      rintro rfl
      rw [hpd] at hfree
      cases hfree
    rw [entry_setEntry ht, if_pos rfl, frameOf_pageEntry procUserFlags_lt] at hdirect
    obtain ⟨rfl, hlt⟩ := direct_eq_ok hdirect
    refine ⟨pt, hm₂, .new hzero hfree, hne, hlt, hused, ?_, ?_, ?_⟩
    · intro k hk
      rw [(same_setEntry hj hne.symm).entry hk, entry_setEntry ht, entry_of_phys hphys]
    · intro k hk
      rw [entry_setEntry hf, (same_setEntry hi hne).entry hk, entry_of_phys hphys]
    · intro g hg hgt
      exact ((same_of_phys hphys g).trans (same_setEntry hi hg)).trans (same_setEntry hj hgt)
  · have hset : m.entry pd (v / 2 ^ 22) ≠ 0 := by
      rw [hentry]
      exact pageEntry_ne_zero
    simp only [pagingMap, if_neg hset, bind_eq_ok, pure_eq_ok, exists_eq_left'] at h
    obtain ⟨pt, hdirect, rfl⟩ := h
    rw [hentry, frameOf_pageEntry procUserFlags_lt] at hdirect
    obtain ⟨rfl, hlt⟩ := direct_eq_ok hdirect
    refine ⟨pt, hm, .old hentry htused, hne, hlt, ?_, ?_, ?_, ?_⟩
    · intro x
      refine ⟨.inl, fun hx => ?_⟩
      rcases hx with hx | rfl
      · exact hx
      · exact htused
    · intro k hk
      rw [(same_setEntry hj hne.symm).entry hk]
      split
      · rename_i hk'
        rw [hk', hentry]
      · rfl
    · intro k hk
      exact entry_setEntry hf k
    · intro g hg hgt
      exact same_setEntry hj hgt

/-- What mapping a page with a new frame `f` writes: the entries, and the frame. -/
structure PageWrites (m : Memory) (pd : Nat) (page : NewPage) (t f : Nat) (m' : Memory) : Prop where
  addressable : m'.Addressable
  fresh : m.used f = false
  table : m.TableFor pd (page.vaddr / 2 ^ 22) t
  tableNe : t ≠ pd
  tableLt : t < 0x40000
  ne : f ≠ t
  used : ∀ x, m'.used x = true ↔ m.used x = true ∨ x = f ∨ x = t
  directory : ∀ k < 1024, m'.entry pd k =
    if k = page.vaddr / 2 ^ 22 then pageEntry t procUserFlags else m.entry pd k
  entries : ∀ k < 1024, m'.entry t k =
    if k = page.vaddr / 2 ^ 12 % 1024 then pageEntry f procUserFlags else m.entry t k
  frames : ∀ g, g ≠ pd → g ≠ t → g ≠ f → m.Same m' g
  filled : ∀ src, page.content = some src → ∀ k < 4096, m'.phys (f * 4096 + k) = src k

theorem mapPage_writes (hm : m.Addressable) (hpd : m.used pd = true)
    (hv : page.vaddr < kernelVirtBaseAddr)
    (hdir : m.entry pd (page.vaddr / 2 ^ 22) = 0 ∨
      ∃ t, m.entry pd (page.vaddr / 2 ^ 22) = pageEntry t procUserFlags ∧ m.used t = true ∧ t ≠ pd)
    (h : m.mapPage pd page = .ok m') : ∃ t f, m.PageWrites pd page t f m' := by
  simp only [mapPage, bind_eq_ok, Prod.exists] at h
  obtain ⟨m₁, f, halloc, m₂, hmap, hcontent⟩ := h
  obtain ⟨hfresh, hf, hphys, hm₁, hused₁⟩ := faAlloc_spec hm halloc
  have hdir₁ : m₁.entry pd (page.vaddr / 2 ^ 22) = 0 ∨ ∃ t,
      m₁.entry pd (page.vaddr / 2 ^ 22) = pageEntry t procUserFlags ∧ m₁.used t = true ∧ t ≠ pd := by
    rw [entry_of_phys hphys]
    exact hdir.imp_right fun ⟨t, hentry, ht, hne⟩ => ⟨t, hentry, (hused₁ t).2 (.inl ht), hne⟩
  obtain ⟨t, hw⟩ := pagingMap_writes hm₁ ((hused₁ pd).2 (.inl hpd)) hf hv hdir₁ hmap
  have hfpd : f ≠ pd := by
    rintro rfl
    rw [hpd] at hfresh
    cases hfresh
  have htable : m.TableFor pd (page.vaddr / 2 ^ 22) t ∧ f ≠ t := by
    cases hw.table with
    | old hentry ht =>
      rw [entry_of_phys hphys] at hentry
      rcases hdir with hzero | ⟨t', hentry', ht', -⟩
      · rw [hzero] at hentry
        exact absurd hentry.symm pageEntry_ne_zero
      · rw [hentry'] at hentry
        obtain rfl := pageEntry_inj hentry
        refine ⟨.old hentry' ht', ?_⟩
        rintro rfl
        rw [ht'] at hfresh
        cases hfresh
    | new hentry ht =>
      rw [entry_of_phys hphys] at hentry
      have hnot : ¬ (m.used t = true ∨ t = f) := by
        rw [← hused₁, ht]
        exact Bool.false_ne_true
      rw [not_or, Bool.not_eq_true] at hnot
      exact ⟨.new hentry hnot.1, Ne.symm hnot.2⟩
  have hsame₁ : ∀ g, g ≠ pd → g ≠ t → m.Same m₂ g := fun g hg hgt =>
    (same_of_phys hphys g).trans (hw.frames g hg hgt)
  have hused₂ : ∀ x, m₂.used x = true ↔ m.used x = true ∨ x = f ∨ x = t := by
    intro x
    rw [hw.used, hused₁, or_assoc]
  cases hc : page.content with
  | none =>
    rw [hc] at hcontent
    obtain rfl : m₂ = m' := by simpa using hcontent
    refine ⟨t, f, hw.addressable, hfresh, htable.1, hw.tableNe, hw.tableLt, htable.2, hused₂, ?_, ?_,
      fun g hg hgt _ => hsame₁ g hg hgt, fun src hsrc => ?_⟩
    · intro k hk
      rw [hw.directory k hk, entry_of_phys hphys]
    · intro k hk
      rw [hw.entries k hk, entry_of_phys hphys]
    · rw [hc] at hsrc
      cases hsrc
  | some src =>
    rw [hc] at hcontent
    simp only [bind_eq_ok, pure_eq_ok] at hcontent
    obtain ⟨dst, hdst, rfl⟩ := hcontent
    obtain ⟨rfl, -⟩ := direct_eq_ok hdst
    have hkept : ∀ g, g ≠ dst → m₂.Same (m₂.fill dst 0 4096 src) g := fun g hg =>
      same_fill (by omega) hg
    refine ⟨t, dst, hw.addressable, hfresh, htable.1, hw.tableNe, hw.tableLt, htable.2, hused₂, ?_, ?_,
      fun g hg hgt hgf => (hsame₁ g hg hgt).trans (hkept g hgf), fun src' hsrc k hk => ?_⟩
    · intro k hk
      rw [(hkept pd hfpd.symm).entry hk, hw.directory k hk, entry_of_phys hphys]
    · intro k hk
      rw [(hkept t htable.2.symm).entry hk, hw.entries k hk, entry_of_phys hphys]
    · obtain rfl : src = src' := Option.some.inj (hc.symm.trans hsrc)
      have hbyte : (m₂.fill dst 0 4096 src).phys (dst * 4096 + k) =
          src (dst * 4096 + k - (dst * 4096 + 0)) := Mem.blit_of_mem (by omega) (by omega)
      rw [hbyte]
      congr 1
      omega

/-! ## Mapping a list of pages -/

/-- Free frames hold zeros. -/
def Blank (m : Memory) : Prop := ∀ g, m.used g = false → ∀ k < 4096, m.phys (g * 4096 + k) = 0

/-- The directory `pd` after some pages have been mapped in it: `T` are the tables
it refers to and `P` the frames and contents of the pages. In blank memory, no
table refers to a page that is not in `seen`. -/
structure Laid (blank : Prop) (m : Memory) (pd : Nat) (T : Nat → Option Nat)
    (P : Nat → Option (Nat × Mem)) (seen : List Nat) : Prop where
  addressable : m.Addressable
  directory : m.used pd = true
  tables : ∀ i t, T i = some t →
    i < 768 ∧ m.entry pd i = pageEntry t procUserFlags ∧ m.used t = true ∧ t ≠ pd
  absent : ∀ i < 768, T i = none → m.entry pd i = 0
  inj : ∀ i i' t, T i = some t → T i' = some t → i = i'
  linked : ∀ n f c, P n = some (f, c) →
    ∃ t, T (n / 1024) = some t ∧ m.entry t (n % 1024) = pageEntry f procUserFlags
  frames : ∀ n f c, P n = some (f, c) → m.used f = true ∧ f ≠ pd ∧ (∀ i, T i ≠ some f) ∧
    ∀ k < 4096, m.phys (f * 4096 + k) = c k
  free : blank → m.Blank
  unseen : blank → ∀ n, n ∉ seen → ∀ t, T (n / 1024) = some t → m.entry t (n % 1024) = 0

variable {blank : Prop} {T : Nat → Option Nat} {P : Nat → Option (Nat × Mem)} {seen : List Nat}
  {pages : List NewPage}

/-- The table a page goes into is the one that is there, or one for a new index. -/
theorem Laid.table (h : Laid blank m pd T P seen) (hi : i < 768) (ht : m.TableFor pd i t) :
    T i = some t ∨ T i = none ∧ m.used t = false := by
  cases hT : T i with
  | some t' =>
    obtain ⟨-, hentry, hused, -⟩ := h.tables i t' hT
    cases ht with
    | old hold _ =>
      left
      rw [hentry] at hold
      rw [pageEntry_inj hold]
    | new hzero _ =>
      rw [hzero] at hentry
      exact absurd hentry.symm pageEntry_ne_zero
  | none =>
    cases ht with
    | old hold _ =>
      rw [h.absent i hi hT] at hold
      exact absurd hold.symm pageEntry_ne_zero
    | new _ hfree => exact .inr ⟨rfl, hfree⟩

theorem Blank.entry (h : m.Blank) (hg : m.used g = false) (hk : k < 1024) : m.entry g k = 0 := by
  have hzero : m.entry g k = Mem.load (fun _ => 0) 0 4 := by
    apply Mem.load_eq_of_bytes
    intro x hx
    rw [Nat.add_assoc]
    exact h g hg (4 * k + x) (by omega)
  exact hzero

theorem Laid.writes (h : Laid blank m pd T P seen) (hv : page.vaddr < kernelVirtBaseAddr)
    (hmap : m.mapPage pd page = .ok m') : ∃ t f, m.PageWrites pd page t f m' := by
  have hi : page.vaddr / 2 ^ 22 < 768 := by
    rw [kernelVirtBaseAddr] at hv
    omega
  refine mapPage_writes h.addressable h.directory hv ?_ hmap
  cases hT : T (page.vaddr / 2 ^ 22) with
  | none => exact .inl (h.absent _ hi hT)
  | some t => exact .inr ⟨t, (h.tables _ t hT).2⟩

/-- The writes of mapping page `n`, seen from what was there before: what is in use stays clear
of the new frame `f`, and of the table `t` unless it is the page's own. -/
structure Adds (m : Memory) (pd : Nat) (T : Nat → Option Nat) (P : Nat → Option (Nat × Mem))
    (n t f : Nat) (m' : Memory) : Prop where
  index : n / 1024 < 768
  table : T (n / 1024) = some t ∨ T (n / 1024) = none ∧ m.used t = false
  directory : ∀ k < 1024, m'.entry pd k =
    if k = n / 1024 then pageEntry t procUserFlags else m.entry pd k
  entries : ∀ k < 1024, m'.entry t k =
    if k = n % 1024 then pageEntry f procUserFlags else m.entry t k
  fresh : ∀ g, m.used g = true → g ≠ f
  other : ∀ i t', T i = some t' → i ≠ n / 1024 → t' ≠ t
  held : ∀ n' f' c, P n' = some (f', c) → f' ≠ t
  kept : ∀ i t', T i = some t' → i ≠ n / 1024 → m.Same m' t'

theorem Laid.adds (h : Laid blank m pd T P seen) (hv : page.vaddr < kernelVirtBaseAddr)
    (w : m.PageWrites pd page t f m') : Adds m pd T P page.number t f m' := by
  have hindex : page.vaddr / 2 ^ 22 = page.number / 1024 := by
    rw [NewPage.number]
    omega
  have hi : page.number / 1024 < 768 := by
    rw [← hindex]
    rw [kernelVirtBaseAddr] at hv
    omega
  have hdir := w.directory
  have htable := h.table (hindex ▸ hi) w.table
  rw [hindex] at hdir htable
  have hfresh : ∀ g, m.used g = true → g ≠ f := by
    rintro g hg rfl
    rw [w.fresh] at hg
    cases hg
  have hother : ∀ i t', T i = some t' → i ≠ page.number / 1024 → t' ≠ t := by
    rintro i t' ht hne rfl
    rcases htable with hT | ⟨-, hfree⟩
    · exact hne (h.inj _ _ _ ht hT)
    · rw [(h.tables i t' ht).2.2.1] at hfree
      cases hfree
  refine ⟨hi, htable, hdir, w.entries, hfresh, hother, ?_, fun i t' ht hne => ?_⟩
  · rintro n' f' c hP rfl
    obtain ⟨hused, -, hnot, -⟩ := h.frames n' f' c hP
    rcases htable with hT | ⟨-, hfree⟩
    · exact hnot _ hT
    · rw [hused] at hfree
      cases hfree
  · obtain ⟨-, -, hused, hnpd⟩ := h.tables i t' ht
    exact w.frames t' hnpd (hother i t' ht hne) (hfresh t' hused)

theorem Laid.tables_adds (h : Laid blank m pd T P seen) (w : m.PageWrites pd page t f m')
    (ha : Adds m pd T P page.number t f m') {i t' : Nat}
    (ht : Function.update T (page.number / 1024) (some t) i = some t') :
    i < 768 ∧ m'.entry pd i = pageEntry t' procUserFlags ∧ m'.used t' = true ∧ t' ≠ pd := by
  by_cases hne : i = page.number / 1024
  · subst hne
    rw [Function.update_self, Option.some.injEq] at ht
    subst ht
    refine ⟨ha.index, ?_, (w.used _).2 (.inr (.inr rfl)), w.tableNe⟩
    rw [ha.directory _ (ha.index.trans (by decide)), if_pos rfl]
  · rw [Function.update_of_ne hne] at ht
    obtain ⟨hlt, hentry, hused, hnpd⟩ := h.tables i t' ht
    refine ⟨hlt, ?_, (w.used t').2 (.inl hused), hnpd⟩
    rw [ha.directory _ (hlt.trans (by decide)), if_neg hne, hentry]

theorem Laid.inj_adds (h : Laid blank m pd T P seen) (ha : Adds m pd T P n t f m') {i i' t' : Nat}
    (ht : Function.update T (n / 1024) (some t) i = some t')
    (ht' : Function.update T (n / 1024) (some t) i' = some t') : i = i' := by
  by_cases hne : i = n / 1024 <;> by_cases hne' : i' = n / 1024
  · rw [hne, hne']
  · rw [hne, Function.update_self, Option.some.injEq] at ht
    rw [Function.update_of_ne hne'] at ht'
    exact absurd ht.symm (ha.other i' t' ht' hne')
  · rw [hne', Function.update_self, Option.some.injEq] at ht'
    rw [Function.update_of_ne hne] at ht
    exact absurd ht'.symm (ha.other i t' ht hne)
  · rw [Function.update_of_ne hne] at ht
    rw [Function.update_of_ne hne'] at ht'
    exact h.inj i i' t' ht ht'

theorem Laid.linked_adds (h : Laid blank m pd T P seen) (ha : Adds m pd T P n t f m')
    {content : Option Mem} {n' f' : Nat} {c : Mem}
    (hP : Function.update P n (content.map fun c => (f, c)) n' = some (f', c)) :
    ∃ t', Function.update T (n / 1024) (some t) (n' / 1024) = some t' ∧
      m'.entry t' (n' % 1024) = pageEntry f' procUserFlags := by
  by_cases hn : n' = n
  · subst hn
    rw [Function.update_self, Option.map_eq_some_iff] at hP
    obtain ⟨c', -, hpair⟩ := hP
    obtain ⟨rfl, rfl⟩ := Prod.mk.inj hpair
    refine ⟨t, Function.update_self .., ?_⟩
    rw [ha.entries _ (Nat.mod_lt _ (by decide)), if_pos rfl]
  · rw [Function.update_of_ne hn] at hP
    obtain ⟨t', ht, hentry⟩ := h.linked n' f' c hP
    by_cases hne : n' / 1024 = n / 1024
    · -- Another page of the same table.
      have htt : t' = t := by
        rcases ha.table with hT | ⟨hT, -⟩
        · rw [hne, hT, Option.some.injEq] at ht
          exact ht.symm
        · rw [hne, hT] at ht
          cases ht
      subst htt
      refine ⟨t', by rw [hne, Function.update_self], ?_⟩
      rw [ha.entries _ (Nat.mod_lt _ (by decide)), if_neg (by omega), hentry]
    · refine ⟨t', by rw [Function.update_of_ne hne, ht], ?_⟩
      rw [(ha.kept _ t' ht hne).entry (Nat.mod_lt _ (by decide)), hentry]

theorem Laid.frames_adds (h : Laid blank m pd T P seen) (w : m.PageWrites pd page t f m')
    (ha : Adds m pd T P page.number t f m') {n' f' : Nat} {c : Mem}
    (hP : Function.update P page.number (page.content.map fun c => (f, c)) n' = some (f', c)) :
    m'.used f' = true ∧ f' ≠ pd ∧
      (∀ i, Function.update T (page.number / 1024) (some t) i ≠ some f') ∧
      ∀ k < 4096, m'.phys (f' * 4096 + k) = c k := by
  by_cases hn : n' = page.number
  · subst hn
    rw [Function.update_self, Option.map_eq_some_iff] at hP
    obtain ⟨c', hc', hpair⟩ := hP
    obtain ⟨rfl, rfl⟩ := Prod.mk.inj hpair
    refine ⟨(w.used _).2 (.inr (.inl rfl)), (ha.fresh pd h.directory).symm, fun i hT => ?_,
      w.filled c' hc'⟩
    by_cases hne : i = page.number / 1024
    · rw [hne, Function.update_self, Option.some.injEq] at hT
      exact w.ne hT.symm
    · rw [Function.update_of_ne hne] at hT
      exact ha.fresh _ (h.tables i _ hT).2.2.1 rfl
  · rw [Function.update_of_ne hn] at hP
    obtain ⟨hused, hnpd, hnot, hbytes⟩ := h.frames n' f' c hP
    have hsame := w.frames f' hnpd (ha.held n' f' c hP) (ha.fresh f' hused)
    refine ⟨(w.used f').2 (.inl hused), hnpd, fun i hT => ?_, fun k hk => ?_⟩
    · by_cases hne : i = page.number / 1024
      · rw [hne, Function.update_self, Option.some.injEq] at hT
        exact ha.held n' f' c hP hT.symm
      · rw [Function.update_of_ne hne] at hT
        exact hnot i hT
    · rw [hsame k hk, hbytes k hk]

theorem Laid.free_adds (h : Laid blank m pd T P seen) (w : m.PageWrites pd page t f m')
    (hblank : blank) : m'.Blank := by
  intro g hg k hk
  have hnot : ¬ (m.used g = true ∨ g = f ∨ g = t) := by
    rw [← w.used, hg]
    exact Bool.false_ne_true
  simp only [not_or, Bool.not_eq_true] at hnot
  obtain ⟨hfree, hgf, hgt⟩ := hnot
  have hgpd : g ≠ pd := by
    rintro rfl
    rw [h.directory] at hfree
    cases hfree
  rw [w.frames g hgpd hgt hgf k hk, h.free hblank g hfree k hk]

theorem Laid.unseen_adds (h : Laid blank m pd T P seen) (ha : Adds m pd T P n t f m')
    (hblank : blank) {n' t' : Nat} (hn : n' ∉ n :: seen)
    (ht : Function.update T (n / 1024) (some t) (n' / 1024) = some t') :
    m'.entry t' (n' % 1024) = 0 := by
  obtain ⟨hnew, hseen⟩ := not_or.1 (List.mem_cons.not.1 hn)
  by_cases hne : n' / 1024 = n / 1024
  · rw [hne, Function.update_self, Option.some.injEq] at ht
    subst ht
    rw [ha.entries _ (Nat.mod_lt _ (by decide)), if_neg (by omega)]
    rcases ha.table with hT | ⟨-, hfree⟩
    · exact h.unseen hblank n' hseen t (by rw [hne, hT])
    · exact (h.free hblank).entry hfree (Nat.mod_lt _ (by decide))
  · rw [Function.update_of_ne hne] at ht
    rw [(ha.kept _ t' ht hne).entry (Nat.mod_lt _ (by decide)), h.unseen hblank n' hseen t' ht]

/-- Mapping one more page. -/
theorem Laid.mapPage (h : Laid blank m pd T P seen) (hv : page.vaddr < kernelVirtBaseAddr)
    (hmap : m.mapPage pd page = .ok m') : ∃ t f,
      Laid blank m' pd (Function.update T (page.number / 1024) (some t))
        (Function.update P page.number (page.content.map fun c => (f, c)))
        (page.number :: seen) := by
  obtain ⟨t, f, w⟩ := h.writes hv hmap
  have ha := h.adds hv w
  refine ⟨t, f, ?_⟩
  constructor
  case addressable => exact w.addressable
  case directory => exact (w.used pd).2 (.inl h.directory)
  case tables => exact fun i t' ht => h.tables_adds w ha ht
  case absent =>
    intro i hlt hT
    by_cases hne : i = page.number / 1024
    · rw [hne, Function.update_self] at hT
      cases hT
    · rw [Function.update_of_ne hne] at hT
      rw [ha.directory _ (hlt.trans (by decide)), if_neg hne, h.absent i hlt hT]
  case inj => exact fun i i' t' ht ht' => h.inj_adds ha ht ht'
  case linked => exact fun n' f' c hP => h.linked_adds ha hP
  case frames => exact fun n' f' c hP => h.frames_adds w ha hP
  case free => exact fun hblank => h.free_adds w hblank
  case unseen => exact fun hblank n' hn t' ht => h.unseen_adds ha hblank hn ht

/-- The page of a list that was mapped last at a page number. -/
def lastPage (pages : List NewPage) (n : Nat) : Option NewPage :=
  pages.reverse.find? fun page => page.number == n

theorem lastPage_append {before after : List NewPage} :
    lastPage (before ++ after) n = (lastPage after n).or (lastPage before n) := by
  rw [lastPage, List.reverse_append, List.find?_append]
  rfl

theorem lastPage_singleton : lastPage [page] n = if n = page.number then some page else none := by
  rw [lastPage, List.reverse_singleton, List.find?_singleton]
  by_cases hn : n = page.number
  · simp [hn]
  · rw [if_neg hn, if_neg (by simpa using Ne.symm hn)]

theorem lastPage_eq_none : lastPage pages n = none ↔ ∀ page ∈ pages, page.number ≠ n := by
  simp [lastPage]

/-- Pages at consecutive page numbers. -/
theorem lastPage_range {g : Nat → NewPage} {base count : Nat}
    (hg : ∀ j < count, (g j).number = base + j) : lastPage ((List.range count).map g) n =
      if base ≤ n ∧ n < base + count then some (g (n - base)) else none := by
  induction count with
  | zero => simp [lastPage]
  | succ count ih =>
    rw [List.range_succ, List.map_append, List.map_singleton, lastPage_append, lastPage_singleton,
      hg count (Nat.lt_succ_self _), ih fun j hj => hg j (by omega)]
    by_cases hn : n = base + count
    · subst hn
      simp
    · rw [if_neg hn, Option.none_or]
      congr 1
      simp only [eq_iff_iff]
      omega

/-- Mapping pages in a directory whose user half was empty. -/
theorem Laid.mapPages (h : Laid blank m pd (fun _ => none) (fun _ => none) [])
    (hv : ∀ page ∈ pages, page.vaddr < kernelVirtBaseAddr)
    (hmap : m.mapPages pd pages = .ok m') : ∃ T P seen, Laid blank m' pd T P seen ∧
      (∀ n, (P n).map Prod.snd = (lastPage pages n).bind NewPage.content) ∧
      ∀ n, n ∈ seen ↔ ∃ page ∈ pages, page.number = n := by
  induction pages using List.reverseRecOn generalizing m' with
  | nil =>
    simp only [Memory.mapPages, pure_eq_ok] at hmap
    subst hmap
    exact ⟨_, _, _, h, fun _ => rfl, by simp⟩
  | append_singleton pages page ih =>
    simp only [mapPages_append, Memory.mapPages, bind_eq_ok, pure_eq_ok, exists_eq_right] at hmap
    obtain ⟨m₁, hpages, hpage⟩ := hmap
    obtain ⟨T, P, seen, h₁, hcontent, hseen⟩ := ih (fun q hq => hv q (by simp [hq])) hpages
    obtain ⟨t, f, h₂⟩ := h₁.mapPage (hv page (by simp)) hpage
    refine ⟨_, _, _, h₂, fun n => ?_, fun n => ?_⟩
    · rw [lastPage_append, lastPage_singleton, Function.update_apply]
      split
      · cases hc : page.content <;> simp [hc]
      · rw [Option.none_or]
        exact hcontent n
    · rw [List.mem_cons, hseen]
      simp only [List.mem_append, List.mem_singleton]
      constructor
      · rintro (rfl | ⟨q, hq, rfl⟩)
        · exact ⟨page, .inr rfl, rfl⟩
        · exact ⟨q, .inl hq, rfl⟩
      · rintro ⟨q, hq | rfl, rfl⟩
        · exact .inr ⟨q, hq, rfl⟩
        · exact .inl rfl

end Memory

/-! ## A new directory -/

section Creating

variable {m m' : Memory} {p : ProcMem} {pid entry f : Nat}

theorem pagingCreatePd_laid (hm : m.Addressable) (h : m.pagingCreatePd = .ok (m', f)) :
    Memory.Laid m.Blank m' f (fun _ => none) (fun _ => none) [] := by
  simp only [Memory.pagingCreatePd, bind_eq_ok, Prod.exists, pure_eq_ok, Prod.mk.injEq] at h
  obtain ⟨m₁, f', halloc, pd, hdirect, hm', rfl⟩ := h
  obtain ⟨rfl, -⟩ := Memory.direct_eq_ok hdirect
  obtain ⟨hfree, -, hphys, hm₁, hused⟩ := Memory.faAlloc_spec hm halloc
  have hused' : ∀ x, m'.used x = true ↔ m.used x = true ∨ x = pd := by
    intro x
    rw [← hm']
    exact hused x
  constructor
  case addressable =>
    rw [← hm']
    exact hm₁
  case directory => exact (hused' pd).2 (.inr rfl)
  case absent =>
    intro i hi _
    rw [← hm', Memory.entry_fill_of_disjoint (by omega), Memory.entry_fill (by omega) (by omega)]
    exact Mem.load_zero
  case free =>
    intro hblank g hg k hk
    have hnot : ¬ (m.used g = true ∨ g = pd) := by
      rw [← hused', hg]
      exact Bool.false_ne_true
    simp only [not_or, Bool.not_eq_true] at hnot
    have hsame : m.Same m' g := by
      rw [← hm']
      exact ((Memory.same_of_phys hphys g).trans (Memory.same_fill (by omega) hnot.2)).trans
        (Memory.same_fill (by omega) hnot.2)
    rw [hsame k hk, hblank g hnot.1 k hk]
  all_goals simp

theorem procObject_laid (hm : m.Addressable) (h : procObject m pid entry = .ok (m', p)) :
    Memory.Laid m.Blank m' p.procPd (fun _ => none) (fun _ => none) [] := by
  simp only [procObject, bind_eq_ok, Prod.exists, pure_eq_ok, Prod.mk.injEq] at h
  obtain ⟨m₁, pd, hpd, m₂, ks, halloc, ks', hdirect, hm', rfl⟩ := h
  obtain ⟨rfl, -⟩ := Memory.direct_eq_ok hdirect
  have hlaid := pagingCreatePd_laid hm hpd
  obtain ⟨hfree, -, hphys, hm₂, hused⟩ := Memory.faAlloc_spec hlaid.addressable halloc
  have hne : pd ≠ ks' := by
    rintro rfl
    rw [hlaid.directory] at hfree
    cases hfree
  have hsame : ∀ g, g ≠ ks' → m₁.Same m' g := by
    intro g hg
    rw [← hm']
    exact (Memory.same_of_phys hphys g).trans (Memory.same_fill (by omega) hg)
  have hused' : ∀ x, m'.used x = true ↔ m₁.used x = true ∨ x = ks' := by
    intro x
    rw [← hm']
    exact hused x
  constructor
  case addressable =>
    rw [← hm']
    exact hm₂
  case directory => exact (hused' pd).2 (.inl hlaid.directory)
  case absent =>
    intro i hi hT
    rw [(hsame pd hne).entry (by omega)]
    exact hlaid.absent i hi hT
  case free =>
    intro hblank g hg k hk
    have hnot : ¬ (m₁.used g = true ∨ g = ks') := by
      rw [← hused', hg]
      exact Bool.false_ne_true
    simp only [not_or, Bool.not_eq_true] at hnot
    rw [hsame g hnot.2 k hk, hlaid.free hblank g hnot.1 k hk]
  all_goals simp

end Creating

/-! ## Reading through the page tables -/

/-- The byte a user access to an address reads. -/
def userByte (m : Memory) (p : ProcMem) (addr : Nat) : Option UInt8 :=
  (userFrame m p addr).map fun frame => m.phys (frame * 4096 + addr % 4096)

section Reading

variable {blank : Prop} {m : Memory} {p : ProcMem} {T : Nat → Option Nat}
  {P : Nat → Option (Nat × Mem)} {seen : List Nat} {addr f : Nat} {c : Mem}

theorem pageEntry_user : pageEntry f procUserFlags % 8 = 7 := by
  rw [pageEntry_eq Memory.procUserFlags_lt]
  have hflags : procUserFlags = 7 := rfl
  omega

theorem userByte_page (h : Memory.Laid blank m p.procPd T P seen) (haddr : addr < kernelVirtBaseAddr)
    (hP : P (addr / 4096) = some (f, c)) : userByte m p addr = some (c (addr % 4096)) := by
  obtain ⟨t, ht, hpte⟩ := h.linked _ f c hP
  obtain ⟨-, -, -, hbytes⟩ := h.frames _ f c hP
  obtain ⟨-, hpde, -⟩ := h.tables _ t ht
  have hindex : addr / 2 ^ 22 = addr / 4096 / 1024 := by omega
  have hslot : addr / 2 ^ 12 % 1024 = addr / 4096 % 1024 := rfl
  rw [userByte, userFrame, hindex, hslot, hpde, frameOf_pageEntry Memory.procUserFlags_lt, hpte,
    frameOf_pageEntry Memory.procUserFlags_lt, if_pos ⟨haddr, pageEntry_user, pageEntry_user⟩,
    Option.map_some, hbytes _ (Nat.mod_lt _ (by decide))]

theorem userByte_unseen (h : Memory.Laid blank m p.procPd T P seen) (hblank : blank)
    (haddr : addr < kernelVirtBaseAddr) (hn : addr / 4096 ∉ seen) : userByte m p addr = none := by
  have hindex : addr / 2 ^ 22 = addr / 4096 / 1024 := by omega
  have hslot : addr / 2 ^ 12 % 1024 = addr / 4096 % 1024 := rfl
  have hlt : addr / 4096 / 1024 < 768 := by
    rw [kernelVirtBaseAddr] at haddr
    omega
  rw [userByte, userFrame, hindex, hslot]
  cases hT : T (addr / 4096 / 1024) with
  | none =>
    rw [h.absent _ hlt hT, if_neg fun hcond => absurd hcond.2.1 (by decide)]
    rfl
  | some t =>
    obtain ⟨-, hpde, -⟩ := h.tables _ t hT
    rw [hpde, frameOf_pageEntry Memory.procUserFlags_lt, h.unseen hblank _ hn t hT,
      if_neg fun hcond => absurd hcond.2.2 (by decide)]
    rfl

end Reading

/-! ## Segments -/

namespace ElfProgramHeader

variable {ph : ElfProgramHeader} {elf : Mem} {n k v size : Nat}

/-- The pages that are mapped for the segment. -/
def pages (ph : ElfProgramHeader) : Nat := addr32 (ph.pMemsz + 0xFFF) / 4096

/-- Whether the segment has a page mapped at a page number. -/
def covers (ph : ElfProgramHeader) (n : Nat) : Bool :=
  decide (ph.pVaddr / 4096 ≤ n ∧ n < ph.pVaddr / 4096 + ph.pages)

/-- The segment's bytes: those of the file, then zeros. -/
def byteAt (ph : ElfProgramHeader) (elf : Mem) (k : Nat) : UInt8 :=
  if k < ph.pFilesz then elf (ph.pOffset + k) else 0

/-- No address belongs to both segments. -/
def Apart (ph ph' : ElfProgramHeader) : Prop :=
  ∀ v, ¬ ((ph.pVaddr ≤ v ∧ v < ph.pVaddr + ph.pMemsz) ∧
    ph'.pVaddr ≤ v ∧ v < ph'.pVaddr + ph'.pMemsz)

instance : Std.Symm Apart := ⟨fun _ _ h v hv => h v ⟨hv.2, hv.1⟩⟩

end ElfProgramHeader

/-- A file whose segments lie in it and below the user stack, apart from one another. -/
structure Loadable (elf : Mem) (fileSize : Nat) : Prop where
  fileSize_lt : fileSize < 2 ^ 32
  below : ∀ ph ∈ loadHeaders elf, ph.pVaddr + ph.pMemsz ≤ 0x8000000 - 16384
  inFile : ∀ ph ∈ loadHeaders elf, ph.pOffset + ph.pFilesz ≤ fileSize
  filesz_le : ∀ ph ∈ loadHeaders elf, ph.pFilesz ≤ ph.pMemsz
  disjoint : (loadHeaders elf).Pairwise ElfProgramHeader.Apart

section Segments

variable {elf : Mem} {fileSize n v : Nat} {ph : ElfProgramHeader} {headers : List ElfProgramHeader}

/-- The `j`-th page of a segment. -/
def segmentPage (elf : Mem) (ph : ElfProgramHeader) (j : Nat) : NewPage :=
  { vaddr := addr32 (ph.pVaddr + j * 4096), content := some (segmentBytes elf ph j) }

/-- A page number is covered, if at all, by the page at its distance from the first. -/
theorem lastPage_segment (hbelow : ph.pVaddr + ph.pMemsz ≤ 0x8000000 - 16384) :
    Memory.lastPage (segmentPages elf ph) n =
      if ph.covers n then some (segmentPage elf ph (n - ph.pVaddr / 4096)) else none := by
  have hpages : addr32 (ph.pMemsz + 0xFFF) = ph.pMemsz + 0xFFF := by
    rw [addr32]
    omega
  have hnumber : ∀ j < ph.pages, (segmentPage elf ph j).number = ph.pVaddr / 4096 + j := by
    intro j hj
    rw [ElfProgramHeader.pages, hpages] at hj
    simp only [NewPage.number, segmentPage, addr32]
    omega
  refine (Memory.lastPage_range hnumber).trans ?_
  simp only [ElfProgramHeader.covers, decide_eq_true_eq]

/-- The last segment to cover a page number has the last page there. -/
theorem lastPage_segments
    (hbelow : ∀ ph ∈ headers, ph.pVaddr + ph.pMemsz ≤ 0x8000000 - 16384) :
    Memory.lastPage (headers.flatMap (segmentPages elf)) n =
      (headers.reverse.find? fun ph => ph.covers n).map fun ph =>
        segmentPage elf ph (n - ph.pVaddr / 4096) := by
  induction headers using List.reverseRecOn with
  | nil => rfl
  | append_singleton headers ph ih =>
    rw [List.flatMap_append, List.flatMap_singleton, Memory.lastPage_append,
      lastPage_segment (hbelow ph (by simp)), List.reverse_append, List.reverse_singleton,
      List.singleton_append, List.find?_cons]
    cases ph.covers n with
    | true => rfl
    | false =>
      simp only [Bool.false_eq_true, if_false, Option.none_or]
      exact ih fun q hq => hbelow q (by simp [hq])

theorem segmentBytes_eq (hsize : ph.pOffset + ph.pFilesz < 2 ^ 32) (hv : ph.pVaddr / 4096 ≤ v / 4096) :
    segmentBytes elf ph (v / 4096 - ph.pVaddr / 4096) (v % 4096) =
      ph.byteAt elf (v - ph.pVaddr / 4096 * 4096) := by
  have hat : (v / 4096 - ph.pVaddr / 4096) * 4096 + v % 4096 = v - ph.pVaddr / 4096 * 4096 := by
    omega
  simp only [segmentBytes, ElfProgramHeader.byteAt, ← hat]
  generalize v / 4096 - ph.pVaddr / 4096 = j
  have hk : v % 4096 < 4096 := Nat.mod_lt _ (by decide)
  by_cases hin : j * 4096 + v % 4096 < ph.pFilesz
  · rw [if_pos (by omega), if_pos hin, addr32, Nat.mod_eq_of_lt (by omega), Nat.add_assoc]
  · rw [if_neg (by omega), if_neg hin]

end Segments

/-! ## The image -/

/-- The last segment of the table to cover a page number. -/
def lastSegment (elf : Mem) (n : Nat) : Option ElfProgramHeader :=
  (loadHeaders elf).reverse.find? fun ph => ph.covers n

/-- The image that the file describes, at the addresses of the new process. -/
def ImageLoaded (m : Memory) (p : ProcMem) (elf : Mem) : Prop :=
  ∀ ph ∈ loadHeaders elf, ∀ k < ph.pMemsz,
    userByte m p (ph.pVaddr + k) = some (ph.byteAt elf k)

/-- No segment with bytes in it begins inside a page. -/
def PageAligned (elf : Mem) : Prop :=
  ∀ ph ∈ loadHeaders elf, 0 < ph.pMemsz → ph.pVaddr % 4096 = 0

/-- Every byte of a segment also lies, in the last segment to cover its page, at its
distance from the start of that segment's first page. -/
def Coincides (elf : Mem) : Prop :=
  ∀ ph ∈ loadHeaders elf, ∀ k < ph.pMemsz, ∃ last,
    lastSegment elf ((ph.pVaddr + k) / 4096) = some last ∧
      last.byteAt elf (ph.pVaddr + k - last.pVaddr / 4096 * 4096) = ph.byteAt elf k

section Image

variable {m m' : Memory} {p : ProcMem} {pid fileSize n v : Nat} {elf : Mem} {ph : ElfProgramHeader}

theorem lastSegment_some (h : lastSegment elf n = some ph) :
    ph ∈ loadHeaders elf ∧ ph.covers n = true := by
  rw [lastSegment] at h
  exact ⟨List.mem_reverse.1 (List.mem_of_find?_eq_some h),
    List.find?_some (p := fun ph : ElfProgramHeader => ph.covers n) h⟩

theorem lastSegment_none (h : lastSegment elf n = none) (hph : ph ∈ loadHeaders elf) :
    ph.covers n ≠ true := by
  rw [lastSegment, List.find?_eq_none] at h
  exact h ph (List.mem_reverse.2 hph)

theorem vaddr_lt_of_mem {page : NewPage} (hfile : Loadable elf fileSize)
    (hpage : page ∈ loadPages elf) : page.vaddr < kernelVirtBaseAddr := by
  rw [loadPages, List.mem_append] at hpage
  rw [kernelVirtBaseAddr]
  rcases hpage with hstack | himage
  · simp only [userStackPages, List.mem_map] at hstack
    obtain ⟨i, -, rfl⟩ := hstack
    dsimp only
    omega
  · simp only [imagePages, segmentPages, List.mem_flatMap, List.mem_map, List.mem_range] at himage
    obtain ⟨ph, hph, j, hj, rfl⟩ := himage
    have hbelow := hfile.below ph hph
    simp only [addr32] at hj ⊢
    omega

/-- The byte behind an address below the stack is the one of the last segment to
cover the page. Without such a segment, and without stale page tables, there is none. -/
theorem loaded_byte (hm : m.Addressable) (hfile : Loadable elf fileSize)
    (hload : elfLoad m pid (some elf) = .ok (m', some p)) (hv : v < 0x8000000 - 16384) :
    (∀ last, lastSegment elf (v / 4096) = some last →
      userByte m' p v = some (last.byteAt elf (v - last.pVaddr / 4096 * 4096))) ∧
    (lastSegment elf (v / 4096) = none → m.Blank → userByte m' p v = none) := by
  obtain ⟨-, -, m₁, o, hobject, hmap, hp⟩ := elfLoad_some hload
  obtain ⟨T, P, seen, hlaid, hcontent, hseen⟩ := (procObject_laid hm hobject).mapPages
    (fun page hpage => vaddr_lt_of_mem hfile hpage) hmap
  have hpd : o.procPd = p.procPd := by rw [hp]
  rw [hpd] at hlaid
  have haddr : v < kernelVirtBaseAddr := by
    rw [kernelVirtBaseAddr]
    omega
  -- The pages of the stack are elsewhere.
  have hstack : Memory.lastPage userStackPages (v / 4096) = none := by
    rw [Memory.lastPage_eq_none]
    intro page hpage
    simp only [userStackPages, List.mem_map, List.mem_range] at hpage
    obtain ⟨i, hi, rfl⟩ := hpage
    simp only [NewPage.number]
    omega
  have hlast : Memory.lastPage (loadPages elf) (v / 4096) =
      (lastSegment elf (v / 4096)).map fun ph =>
        segmentPage elf ph (v / 4096 - ph.pVaddr / 4096) := by
    rw [loadPages, Memory.lastPage_append, hstack, Option.or_none]
    exact lastPage_segments hfile.below
  constructor
  · intro last hsegment
    obtain ⟨hmem, hcovers⟩ := lastSegment_some hsegment
    rw [ElfProgramHeader.covers, decide_eq_true_eq] at hcovers
    have hP := hcontent (v / 4096)
    rw [hlast, hsegment, Option.map_some, Option.bind_some, segmentPage,
      Option.map_eq_some_iff] at hP
    obtain ⟨⟨f, c⟩, hpair, rfl⟩ := hP
    have hsize := hfile.inFile last hmem
    have hlt := hfile.fileSize_lt
    rw [userByte_page hlaid haddr hpair, ← segmentBytes_eq (by omega) hcovers.1]
  · intro hnone hblank
    rw [hnone, Option.map_none, Memory.lastPage_eq_none] at hlast
    refine userByte_unseen hlaid hblank haddr fun hin => ?_
    obtain ⟨page, hpage, hnumber⟩ := (hseen _).1 hin
    exact hlast page hpage hnumber

theorem imageLoaded_of_coincides (hm : m.Addressable) (hfile : Loadable elf fileSize)
    (hload : elfLoad m pid (some elf) = .ok (m', some p)) (h : Coincides elf) :
    ImageLoaded m' p elf := by
  intro ph hph k hk
  have hbelow := hfile.below ph hph
  obtain ⟨last, hlast, hbyte⟩ := h ph hph k hk
  rw [(loaded_byte hm hfile hload (by omega)).1 last hlast, hbyte]

theorem coincides_of_imageLoaded (hm : m.Addressable) (hblank : m.Blank)
    (hfile : Loadable elf fileSize) (hload : elfLoad m pid (some elf) = .ok (m', some p))
    (h : ImageLoaded m' p elf) : Coincides elf := by
  intro ph hph k hk
  have hbelow := hfile.below ph hph
  obtain ⟨hsome, hnone⟩ := loaded_byte hm hfile hload (v := ph.pVaddr + k) (by omega)
  have hbyte := h ph hph k hk
  cases hlast : lastSegment elf ((ph.pVaddr + k) / 4096) with
  | none =>
    rw [hnone hlast hblank] at hbyte
    cases hbyte
  | some last =>
    rw [hsome last hlast, Option.some.injEq] at hbyte
    exact ⟨last, rfl, hbyte⟩

/-- Segments that begin at page boundaries share no page. -/
theorem coincides_of_pageAligned (hfile : Loadable elf fileSize) (h : PageAligned elf) :
    Coincides elf := by
  intro ph hph k hk
  have hbelow := hfile.below ph hph
  have haligned := h ph hph (by omega)
  have hcovers : ph.covers ((ph.pVaddr + k) / 4096) = true := by
    rw [ElfProgramHeader.covers, decide_eq_true_eq, ElfProgramHeader.pages, addr32]
    omega
  -- Any segment that covers the page has a byte in it, at its start.
  have honly : ∀ q ∈ loadHeaders elf, q.covers ((ph.pVaddr + k) / 4096) = true → q = ph := by
    intro q hq hqcovers
    have hqbelow := hfile.below q hq
    rw [ElfProgramHeader.covers, decide_eq_true_eq, ElfProgramHeader.pages, addr32] at hqcovers
    have hqaligned := h q hq (by omega)
    by_contra hne
    apply hfile.disjoint.forall hq hph hne ((ph.pVaddr + k) / 4096 * 4096)
    omega
  cases hlast : lastSegment elf ((ph.pVaddr + k) / 4096) with
  | none => exact absurd hcovers (lastSegment_none hlast hph)
  | some last =>
    obtain ⟨hmem, hlastCovers⟩ := lastSegment_some hlast
    obtain rfl : last = ph := honly last hmem hlastCovers
    refine ⟨last, rfl, ?_⟩
    rw [show last.pVaddr + k - last.pVaddr / 4096 * 4096 = k by omega]

end Image

/-! ## Sample files -/

deriving instance DecidableEq for ElfProgramHeader

theorem loadable_of_single {elf : Mem} {fileSize : Nat} {ph : ElfProgramHeader}
    (hheaders : loadHeaders elf = [ph]) (hsize : fileSize < 2 ^ 32)
    (hbelow : ph.pVaddr + ph.pMemsz ≤ 0x8000000 - 16384)
    (hin : ph.pOffset + ph.pFilesz ≤ fileSize) (hle : ph.pFilesz ≤ ph.pMemsz) :
    Loadable elf fileSize := by
  refine ⟨hsize, ?_, ?_, ?_, ?_⟩ <;> simp [hheaders, hbelow, hin, hle]

/-- Four bytes of the file, to be loaded four bytes into a page. -/
def skewedElf : Mem := ((System.onePageElf.store 60 4 0x7C00004).store 68 4 4).store 72 4 4

end Kaku

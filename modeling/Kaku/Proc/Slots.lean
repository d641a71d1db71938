-- SUMMARY: Which frames the memory of each process refers to, and how mapping and unmapping a page change that.
import Kaku.Lib.Holding
import Kaku.Proc.Space

/-!
# The frames of a process

A process refers to frames from four kinds of slots: its kernel stack, its page
directory, the lower 768 entries of the directory, and the entries of the page
tables behind those. `proc_destroy` frees what these slots hold. The slots of all
processes together hold frames exclusively as long as no routine makes two slots
hold one frame.
-/

namespace Kaku

inductive Slot
  | kernelStack
  | directory
  | table (i : Nat)
  | page (i j : Nat)
  deriving DecidableEq

namespace Memory

/-- The frame that one of the first `n` entries of a directory or table refers to. -/
def ref (m : Memory) (n frame i : Nat) : Option Nat :=
  if i < n ∧ present (m.entry frame i) = true then some (frameOf (m.entry frame i)) else none

/-- The frame that a slot of a process holds. -/
def slot (m : Memory) (p : ProcMem) : Slot → Option Nat
  | .kernelStack => some p.kernelStackFrame
  | .directory => some p.procPd
  | .table i => m.ref 768 p.procPd i
  | .page i j => (m.ref 768 p.procPd i).bind fun pt => m.ref 1024 pt j

/-- What the slots of all processes hold. -/
def holding (m : Memory) (live : Nat → Option ProcMem) (k : Nat × Slot) : Option Nat :=
  (live k.1).bind fun p => m.slot p k.2

/-- A frame of the bitmap whose bit is set. -/
def InUse (m : Memory) (frame : Nat) : Prop := frame < 8 * m.faBitmapSize ∧ m.used frame = true

/-- Frames are held exclusively, and no directory entry is half set up. -/
structure Separate (m : Memory) (live : Nat → Option ProcMem) : Prop where
  window : m.faBitmapSize ≤ 0x8000
  entries : ∀ {q p i}, live q = some p → i < 768 →
    m.entry p.procPd i = 0 ∨ present (m.entry p.procPd i) = true
  exclusive : Exclusive (m.holding live) m.InUse

variable {m m' m'' : Memory} {live : Nat → Option ProcMem} {p : ProcMem} {n i j q f g v pt frame : Nat}
  {s : Slot}

theorem ref_eq_some (h : m.ref n frame i = some f) :
    i < n ∧ present (m.entry frame i) = true ∧ frameOf (m.entry frame i) = f := by
  unfold ref at h
  split at h
  · rename_i hin
    exact ⟨hin.1, hin.2, Option.some.inj h⟩
  · cases h

theorem ref_of_entry (hi : i < n) (hentry : m.entry frame i = v) :
    m.ref n frame i = if present v = true then some (frameOf v) else none := by
  simp [ref, hi, hentry]

theorem ref_congr (h : m'.entry frame i = m.entry frame i) : m'.ref n frame i = m.ref n frame i := by
  rw [ref, ref, h]

theorem Same.ref (h : m.Same m' frame) (hn : n ≤ 1024) : m'.ref n frame i = m.ref n frame i := by
  by_cases hi : i < n
  · exact ref_congr (h.entry (by omega))
  · simp [Memory.ref, hi]

theorem holding_of_live (hp : live q = some p) : m.holding live (q, s) = m.slot p s := by
  simp [holding, hp]

theorem holding_of_dead (hp : live q = none) : m.holding live (q, s) = none := by
  simp [holding, hp]

namespace Separate

theorem inUse (h : m.Separate live) (hp : live q = some p) (hf : m.slot p s = some f) :
    m.InUse f := by
  apply h.exclusive.used (k := (q, s))
  rw [holding_of_live hp, hf]

/-- Frames in use are reached through the direct map. -/
theorem direct (h : m.Separate live) (hf : m.InUse f) : direct f = .ok f := by
  have hwindow := h.window
  have hlt := hf.1
  rw [Kaku.direct, if_pos (by omega)]

theorem slot_inj (h : m.Separate live) {q' : Nat} {p' : ProcMem} {s' : Slot}
    (hp : live q = some p) (hp' : live q' = some p')
    (hf : m.slot p s = some f) (hf' : m.slot p' s' = some f) : q = q' ∧ s = s' := by
  have hk := h.exclusive.inj (k := (q, s)) (l := (q', s')) (r := f)
    (by rw [holding_of_live hp, hf]) (by rw [holding_of_live hp', hf'])
  exact Prod.mk.inj hk

/-- A change within one table leaves the directories alone. -/
theorem same_directory (h : m.Separate live) (hp : live q = some p)
    (hpt : m.ref 768 p.procPd i = some pt) (hsame : ∀ g, m.InUse g → g ≠ pt → m.Same m' g)
    {q' : Nat} {p' : ProcMem} (hp' : live q' = some p') : m.Same m' p'.procPd := by
  have hslot : m.slot p (.table i) = some pt := hpt
  have hd : m.slot p' .directory = some p'.procPd := rfl
  apply hsame _ (h.inUse hp' hd)
  intro heq
  have hclash := h.slot_inj hp' hp hd (heq ▸ hslot)
  cases hclash.2

/-- One table entry of one process is overwritten, and no other frame in use changes. -/
theorem holding_setPage (h : m.Separate live) (hp : live q = some p)
    (hpt : m.ref 768 p.procPd i = some pt) (hj : j < 1024)
    (hsame : ∀ g, m.InUse g → g ≠ pt → m.Same m' g)
    (hentry : m'.entry pt j = v)
    (hrest : ∀ k < 1024, k ≠ j → m'.entry pt k = m.entry pt k) :
    m'.holding live = Function.update (m.holding live) (q, .page i j)
      (if present v = true then some (frameOf v) else none) := by
  funext ⟨q', s⟩
  have hslot : m.slot p (.table i) = some pt := hpt
  cases hp' : live q' with
  | none =>
    rw [holding_of_dead hp', Function.update_of_ne, holding_of_dead hp']
    intro hk
    rw [(Prod.mk.inj hk).1, hp] at hp'
    cases hp'
  | some p' =>
    have hdir : ∀ k, m'.ref 768 p'.procPd k = m.ref 768 p'.procPd k :=
      fun k => (h.same_directory hp hpt hsame hp').ref (by omega)
    rw [holding_of_live hp']
    cases s with
    | kernelStack => rw [Function.update_of_ne (by simp), holding_of_live hp']; rfl
    | directory => rw [Function.update_of_ne (by simp), holding_of_live hp']; rfl
    | table k =>
      rw [Function.update_of_ne (by simp), holding_of_live hp']
      exact hdir k
    | page k l =>
      have hread : m'.slot p' (.page k l) = (m.ref 768 p'.procPd k).bind fun t => m'.ref 1024 t l := by
        rw [slot, hdir]
      rw [hread]
      by_cases hk : (q', Slot.page k l) = (q, Slot.page i j)
      · simp only [Prod.mk.injEq, Slot.page.injEq] at hk
        obtain ⟨rfl, rfl, rfl⟩ := hk
        obtain rfl : p' = p := by simpa [hp'] using hp
        rw [Function.update_self, hpt, Option.bind_some, ref_of_entry hj hentry]
      · rw [Function.update_of_ne hk, holding_of_live hp', slot]
        cases ht : m.ref 768 p'.procPd k with
        | none => rfl
        | some t =>
          rw [Option.bind_some, Option.bind_some]
          have hts : m.slot p' (.table k) = some t := ht
          rcases eq_or_ne t pt with rfl | hne
          · obtain ⟨rfl, hsk⟩ := h.slot_inj hp' hp hts hslot
            cases hsk
            obtain rfl : p' = p := by simpa [hp'] using hp
            by_cases hl : l < 1024
            · apply ref_congr
              apply hrest l hl
              rintro rfl
              exact hk rfl
            · simp [ref, hl]
          · exact (hsame t (h.inUse hp' hts) hne).ref le_rfl

/-- A change within one directory and a frame that no slot holds leaves the other
directories alone. -/
theorem same_other_directory (h : m.Separate live) (hp : live q = some p)
    (hpt : ∀ k, m.holding live k ≠ some pt)
    (hsame : ∀ g, m.InUse g → g ≠ p.procPd → g ≠ pt → m.Same m' g)
    (q' : Nat) (p' : ProcMem) (hp' : live q' = some p') (hq : q' ≠ q) : m.Same m' p'.procPd := by
  have hd : m.slot p' .directory = some p'.procPd := rfl
  apply hsame _ (h.inUse hp' hd)
  · intro heq
    exact hq (h.slot_inj hp' hp hd (heq ▸ rfl : m.slot p .directory = some p'.procPd)).1
  · rintro rfl
    exact hpt (q', .directory) (by rw [holding_of_live hp', hd])

/-- A directory entry that was free gets a new table, with one entry in it. -/
theorem holding_setTable (h : m.Separate live) (hp : live q = some p) (hi : i < 768)
    (hj : j < 1024) (hnew : m.entry p.procPd i = 0) (hpt : ∀ k, m.holding live k ≠ some pt)
    (hsame : ∀ g, m.InUse g → g ≠ p.procPd → g ≠ pt → m.Same m' g)
    (hpde : m'.entry p.procPd i = pageEntry pt procUserFlags)
    (hrestPd : ∀ k < 768, k ≠ i → m'.entry p.procPd k = m.entry p.procPd k)
    (hpte : m'.entry pt j = pageEntry f procUserFlags)
    (hclean : ∀ k < 1024, k ≠ j → present (m'.entry pt k) = false) :
    m'.holding live = Function.update (Function.update (m.holding live) (q, .table i) (some pt))
      (q, .page i j) (some f) := by
  funext ⟨q', s⟩
  have hothers := h.same_other_directory hp hpt hsame
  have hflags : procUserFlags < 4096 := by decide
  have hpresent : ∀ e, present (pageEntry e procUserFlags) = true := by
    intro e
    rw [present_pageEntry hflags]
    rfl
  have href : m'.ref 768 p.procPd i = some pt := by
    rw [ref_of_entry hi hpde, if_pos (hpresent pt), frameOf_pageEntry hflags]
  cases hp' : live q' with
  | none =>
    have hq : q' ≠ q := by
      rintro rfl
      rw [hp] at hp'
      cases hp'
    rw [holding_of_dead hp', Function.update_of_ne (by simp [hq]), Function.update_of_ne (by simp [hq]),
      holding_of_dead hp']
  | some p' =>
    -- Apart from the entry itself, directories and the tables behind them are as before.
    have hdir : ∀ k, (q', k) ≠ (q, i) → m'.ref 768 p'.procPd k = m.ref 768 p'.procPd k := by
      intro k hk
      rcases eq_or_ne q' q with rfl | hq
      · obtain rfl : p' = p := by simpa [hp'] using hp
        by_cases hk768 : k < 768
        · apply ref_congr
          apply hrestPd k hk768
          rintro rfl
          exact hk rfl
        · simp [ref, hk768]
      · exact (hothers _ _ hp' hq).ref (by omega)
    have htable : ∀ k t l, m.ref 768 p'.procPd k = some t → m'.ref 1024 t l = m.ref 1024 t l := by
      intro k t l ht
      have hts : m.slot p' (.table k) = some t := ht
      apply Same.ref _ le_rfl
      apply hsame _ (h.inUse hp' hts)
      · intro heq
        have hclash := h.slot_inj hp' hp hts (heq ▸ rfl : m.slot p .directory = some t)
        cases hclash.2
      · rintro rfl
        exact hpt (q', .table k) (by rw [holding_of_live hp', hts])
    rw [holding_of_live hp']
    cases s with
    | kernelStack =>
      rw [Function.update_of_ne (by simp), Function.update_of_ne (by simp), holding_of_live hp']; rfl
    | directory =>
      rw [Function.update_of_ne (by simp), Function.update_of_ne (by simp), holding_of_live hp']; rfl
    | table k =>
      rw [Function.update_of_ne (by simp)]
      by_cases hk : (q', k) = (q, i)
      · obtain ⟨rfl, rfl⟩ := Prod.mk.inj hk
        obtain rfl : p' = p := by simpa [hp'] using hp
        rw [Function.update_self]
        exact href
      · rw [Function.update_of_ne (by simpa using hk), holding_of_live hp']
        exact hdir k hk
    | page k l =>
      by_cases hk : (q', k) = (q, i)
      · obtain ⟨rfl, rfl⟩ := Prod.mk.inj hk
        obtain rfl : p' = p := by simpa [hp'] using hp
        have hbefore : m.holding live (q', .page k l) = none := by
          rw [holding_of_live hp', slot, ref_of_entry hi hnew]
          rfl
        rw [slot, href, Option.bind_some]
        by_cases hl : l = j
        · subst hl
          rw [Function.update_self, ref_of_entry hj hpte, if_pos (hpresent f),
            frameOf_pageEntry hflags]
        · rw [Function.update_of_ne (by simp [hl]), Function.update_of_ne (by simp), hbefore]
          by_cases hl1024 : l < 1024
          · rw [ref_of_entry hl1024 rfl, hclean l hl1024 hl]
            rfl
          · simp [ref, hl1024]
      · rw [Function.update_of_ne (by simp_all), Function.update_of_ne (by simp),
          holding_of_live hp', slot, slot, hdir k hk]
        cases ht : m.ref 768 p'.procPd k with
        | none => rfl
        | some t =>
          rw [Option.bind_some, Option.bind_some]
          exact htable k t l ht

end Separate

/-! ## Mapping a page -/

theorem faAlloc_inUse (h : m.faAlloc = .ok (m', f)) :
    ¬ m.InUse f ∧ ∀ x, m'.InUse x ↔ m.InUse x ∨ x = f := by
  obtain ⟨rfl, hlt, hfree⟩ := faAlloc_eq_ok h
  refine ⟨fun hin => by simp [hin.2] at hfree, fun x => ?_⟩
  simp only [InUse, used, Mem.bit_setBit, Bool.or_eq_true, decide_eq_true_eq]
  constructor
  · rintro ⟨hx, hbit | rfl⟩
    · exact .inl ⟨hx, hbit⟩
    · exact .inr rfl
  · rintro (⟨hx, hbit⟩ | rfl)
    · exact ⟨hx, .inl hbit⟩
    · exact ⟨hlt, .inr rfl⟩

/-- What mapping a page of process `q` amounts to: a frame that was not in use is
taken for the page, and a second one for the table when there was none. -/
inductive MapEffect (m : Memory) (live : Nat → Option ProcMem) (q i j f : Nat) (m' : Memory) : Prop
  | page (hf : ¬ m.InUse f) (huse : ∀ x, m'.InUse x ↔ m.InUse x ∨ x = f)
      (hhold : m'.holding live = Function.update (m.holding live) (q, .page i j) (some f))
      (hcalls : m'.calls = (m.client, .alloc f) :: m.calls)
  | table (g : Nat) (hf : ¬ m.InUse f) (hg : ¬ m.InUse g) (hne : g ≠ f)
      (huse : ∀ x, m'.InUse x ↔ (m.InUse x ∨ x = f) ∨ x = g)
      (hnone : m.holding live (q, .table i) = none)
      (hhold : m'.holding live = Function.update
        (Function.update (m.holding live) (q, .table i) (some g)) (q, .page i j) (some f))
      (hcalls : m'.calls = (m.client, .alloc g) :: (m.client, .alloc f) :: m.calls)

namespace MapEffect

theorem holds (h : MapEffect m live q i j f m') : m'.holding live (q, .page i j) = some f := by
  cases h with
  | page hf huse hhold hcalls => rw [hhold, Function.update_self]
  | table g hf hg hne huse hnone hhold hcalls => rw [hhold, Function.update_self]

theorem congr (h : MapEffect m live q i j f m') (hhold : m''.holding live = m'.holding live)
    (huse : ∀ x, m''.InUse x ↔ m'.InUse x) (hcalls : m''.calls = m'.calls) :
    MapEffect m live q i j f m'' := by
  cases h with
  | page hf huse' hhold' hcalls' =>
    exact .page hf (fun x => (huse x).trans (huse' x)) (hhold.trans hhold') (hcalls.trans hcalls')
  | table g hf hg hne huse' hnone hhold' hcalls' =>
    exact .table g hf hg hne (fun x => (huse x).trans (huse' x)) hnone (hhold.trans hhold')
      (hcalls.trans hcalls')

end MapEffect

/-- Whether a table that mapping the page would set up has no stale entry. The
frame for the page is allocated first, the one for the table second. -/
def cleanAt (m : Memory) (pd vaddr : Nat) : Bool :=
  m.entry pd (vaddr / 2 ^ 22) != 0 ||
    (m.faAlloc.toOption.bind fun r => r.1.nextFrame).all fun pt =>
      (List.range 1024).all fun k => k == vaddr / 2 ^ 12 % 1024 || !present (m.entry pt k)

theorem cleanAt_spec {m₁ m₂ : Memory} {vaddr : Nat} (hclean : m.cleanAt frame vaddr = true)
    (hzero : m.entry frame (vaddr / 2 ^ 22) = 0) (hf : m.faAlloc = .ok (m₁, f))
    (hg : m₁.faAlloc = .ok (m₂, g)) :
    ∀ k < 1024, k ≠ vaddr / 2 ^ 12 % 1024 → present (m.entry g k) = false := by
  intro k hk hne
  simp only [cleanAt, hf, nextFrame_of_faAlloc hg, Except.toOption, Option.bind_some,
    Option.all_some, hzero, bne_self_eq_false, Bool.false_or, List.all_eq_true] at hclean
  have hword := hclean k (List.mem_range.2 hk)
  rcases Bool.or_eq_true _ _ ▸ hword with heq | hclear
  · exact absurd (beq_iff_eq.1 heq) hne
  · simpa using hclear

theorem procUserFlags_lt : procUserFlags < 4096 := by decide

theorem present_user (e : Nat) : present (pageEntry e procUserFlags) = true := by
  rw [present_pageEntry procUserFlags_lt]
  rfl

/-- The contents of a frame that no directory or table is in make no difference. -/
theorem Separate.holding_fill (h : m.Separate live) (src : Mem) (hn : j + n ≤ 4096)
    (hdir : ∀ q p, live q = some p → p.procPd ≠ f)
    (htable : ∀ q p i, live q = some p → m.slot p (.table i) ≠ some f) :
    (m.fill f j n src).holding live = m.holding live ∧ (m.fill f j n src).Separate live := by
  have hentry : ∀ {q p i}, live q = some p → i < 1024 →
      (m.fill f j n src).entry p.procPd i = m.entry p.procPd i :=
    fun hp hi => (same_fill hn (hdir _ _ hp)).entry hi
  have hhold : (m.fill f j n src).holding live = m.holding live := by
    funext ⟨q, s⟩
    cases hp : live q with
    | none => rw [holding_of_dead hp, holding_of_dead hp]
    | some p =>
      have href : ∀ i, (m.fill f j n src).ref 768 p.procPd i = m.ref 768 p.procPd i :=
        fun i => (same_fill hn (hdir _ _ hp)).ref (by omega)
      rw [holding_of_live hp, holding_of_live hp]
      cases s with
      | kernelStack => rfl
      | directory => rfl
      | table i => exact href i
      | page i l =>
        rw [slot, slot, href]
        cases ht : m.ref 768 p.procPd i with
        | none => rfl
        | some t =>
          rw [Option.bind_some, Option.bind_some]
          apply (same_fill hn _).ref le_rfl
          rintro rfl
          exact htable _ _ _ hp ht
  refine ⟨hhold, h.window, ?_, ?_⟩
  · intro q p i hp hi
    rw [hentry hp (by omega)]
    exact h.entries hp hi
  · rw [hhold]
    exact h.exclusive


/-- A frame that was allocated and that no slot holds yet. -/
def Loose (m : Memory) (live : Nat → Option ProcMem) (f : Nat) : Prop :=
  m.InUse f ∧ ∀ k, m.holding live k ≠ some f

namespace Separate

theorem not_held (h : m.Separate live) (hf : ¬ m.InUse f) (k : Nat × Slot) :
    m.holding live k ≠ some f :=
  fun hk => hf (h.exclusive.used hk)

theorem alloc {m₁ : Memory} (h : m.Separate live) (ha : m.faAlloc = .ok (m₁, f)) :
    m₁.Separate live ∧ m₁.Loose live f ∧ ∀ g, m.Loose live g → m₁.Loose live g ∧ g ≠ f := by
  obtain ⟨hfree, huse⟩ := faAlloc_inUse ha
  obtain ⟨rfl, -, -⟩ := faAlloc_eq_ok ha
  refine ⟨⟨h.window, h.entries, h.exclusive.mono fun hx => (huse _).2 (.inl hx)⟩,
    ⟨(huse f).2 (.inr rfl), h.not_held hfree⟩, fun g hg => ⟨⟨(huse g).2 (.inl hg.1), hg.2⟩, ?_⟩⟩
  rintro rfl
  exact hfree hg.1

/-- Frames in use are small enough for the entries that refer to them. -/
theorem entry_link (h : m.Separate live) (hf : m.InUse f) :
    (m.setEntry frame i (pageEntry f procUserFlags)).entry frame i =
      pageEntry f procUserFlags := by
  have hwindow := h.window
  have hlt := hf.1
  rw [entry_setEntry_self, pageEntry_lt procUserFlags_lt (by omega)]

theorem link (h : m.Separate live) (hp : live q = some p) (hpt : m.ref 768 p.procPd i = some pt)
    (hj : j < 1024) (hf : m.Loose live f) :
    (m.setEntry pt j (pageEntry f procUserFlags)).holding live =
        Function.update (m.holding live) (q, .page i j) (some f) ∧
      (m.setEntry pt j (pageEntry f procUserFlags)).Separate live := by
  have hsame : ∀ g, m.InUse g → g ≠ pt →
      m.Same (m.setEntry pt j (pageEntry f procUserFlags)) g :=
    fun g _ hne => same_setEntry hj hne
  have hhold := h.holding_setPage hp hpt hj hsame (h.entry_link hf.1)
    fun k _ hne => entry_setEntry_of_ne hne.symm
  rw [if_pos (present_user f), frameOf_pageEntry procUserFlags_lt] at hhold
  refine ⟨hhold, h.window, ?_, ?_⟩
  · intro q' p' k hp' hk
    rw [(h.same_directory hp hpt hsame hp').entry (by omega)]
    exact h.entries hp' hk
  · rw [hhold]
    exact h.exclusive.take hf.2 hf.1

theorem linkTable (h : m.Separate live) (hp : live q = some p) (hi : i < 768) (hj : j < 1024)
    (hnew : m.entry p.procPd i = 0) (hf : m.Loose live f) (hg : m.Loose live g) (hne : g ≠ f)
    (hclean : ∀ k < 1024, k ≠ j → present (m.entry g k) = false)
    (hm' : m' = (m.setEntry p.procPd i (pageEntry g procUserFlags)).setEntry g j
      (pageEntry f procUserFlags)) :
    m'.holding live = Function.update (Function.update (m.holding live) (q, .table i) (some g))
        (q, .page i j) (some f) ∧ m'.Separate live := by
  have hd : m.slot p .directory = some p.procPd := rfl
  have hgd : p.procPd ≠ g := by
    rintro rfl
    exact hg.2 (q, .directory) (by rw [holding_of_live hp, hd])
  obtain ⟨m₁, hm₁⟩ : ∃ m₁, m₁ = m.setEntry p.procPd i (pageEntry g procUserFlags) := ⟨_, rfl⟩
  rw [← hm₁] at hm'
  have hsame : ∀ x, m.InUse x → x ≠ p.procPd → x ≠ g → m.Same m' x := by
    intro x _ hxd hxg
    rw [hm', hm₁]
    exact (same_setEntry (by omega) hxd).trans (same_setEntry hj hxg)
  have hpdSame : m₁.Same m' p.procPd := by
    rw [hm']
    exact same_setEntry hj hgd
  have hpde : m'.entry p.procPd i = pageEntry g procUserFlags := by
    rw [hpdSame.entry (by omega), hm₁]
    exact h.entry_link hg.1
  have hrest : ∀ k < 768, k ≠ i → m'.entry p.procPd k = m.entry p.procPd k := by
    intro k hk hki
    rw [hpdSame.entry (by omega), hm₁]
    exact entry_setEntry_of_ne hki.symm
  have hpte : m'.entry g j = pageEntry f procUserFlags := by
    have hwindow := h.window
    have hlt := hf.1.1
    rw [hm', entry_setEntry_self, pageEntry_lt procUserFlags_lt (by omega)]
  have hcleared : ∀ k < 1024, k ≠ j → present (m'.entry g k) = false := by
    intro k hk hkj
    rw [hm', entry_setEntry_of_ne hkj.symm, hm₁, (same_setEntry (by omega) hgd.symm).entry hk]
    exact hclean k hk hkj
  have hhold := h.holding_setTable hp hi hj hnew hg.2 hsame hpde hrest hpte hcleared
  have huse : ∀ {x}, m'.InUse x ↔ m.InUse x := by
    intro x
    rw [hm', hm₁]
    rfl
  refine ⟨hhold, ?_, ?_, ?_⟩
  · rw [hm', hm₁]
    exact h.window
  · intro q' p' k hp' hk
    rcases eq_or_ne q' q with rfl | hq
    · obtain rfl : p' = p := by simpa [hp'] using hp
      rcases eq_or_ne k i with rfl | hki
      · rw [hpde]
        exact .inr (present_user g)
      · rw [hrest k hk hki]
        exact h.entries hp' hk
    · rw [(h.same_other_directory hp hg.2 hsame q' p' hp' hq).entry (by omega)]
      exact h.entries hp' hk
  · rw [hhold]
    have htable := (h.exclusive.take (k := (q, Slot.table i)) hg.2 hg.1).mono huse.2
    apply htable.take _ (huse.2 hf.1)
    intro k hk
    by_cases hkt : k = (q, Slot.table i)
    · rw [hkt, Function.update_self] at hk
      exact hne (Option.some.inj hk)
    · rw [Function.update_of_ne hkt] at hk
      exact hf.2 k hk

/-- Writing to a frame that is neither a directory nor a table. -/
theorem fill_held (h : m.Separate live) (hhold : m.holding live (q, s) = some f)
    (hs : s ≠ .directory ∧ ∀ i, s ≠ .table i) (src : Mem) (hn : j + n ≤ 4096) :
    (m.fill f j n src).holding live = m.holding live ∧ (m.fill f j n src).Separate live := by
  apply h.holding_fill src hn
  · intro q' p' hp' heq
    have hd : m.holding live (q', .directory) = some f := by
      rw [holding_of_live hp', ← heq]
      rfl
    exact hs.1 (Prod.mk.inj (h.exclusive.inj hhold hd)).2
  · intro q' p' k hp' ht
    rw [← holding_of_live hp'] at ht
    exact hs.2 k (Prod.mk.inj (h.exclusive.inj hhold ht)).2

/-- The page goes into a table that exists. -/
theorem pageEffect {m₁ : Memory} (h : m.Separate live) (hp : live q = some p)
    (hpt : m.ref 768 p.procPd i = some pt) (hj : j < 1024) (ha : m.faAlloc = .ok (m₁, f))
    (hm' : m' = m₁.setEntry pt j (pageEntry f procUserFlags)) :
    m'.Separate live ∧ MapEffect m live q i j f m' := by
  obtain ⟨hs₁, hf₁, -⟩ := h.alloc ha
  obtain ⟨hfree, huse⟩ := faAlloc_inUse ha
  obtain ⟨hm₁, -, -⟩ := faAlloc_eq_ok ha
  have hpt₁ : m₁.ref 768 p.procPd i = some pt := by
    rw [← hpt, hm₁]
    rfl
  obtain ⟨hhold, hs'⟩ := hs₁.link hp hpt₁ hj hf₁
  rw [← hm'] at hhold hs'
  refine ⟨hs', .page hfree (fun x => ?_) ?_ ?_⟩
  · rw [← huse x, hm']
    rfl
  · rw [hhold, hm₁]
    rfl
  · rw [hm', hm₁]
    rfl

/-- The page goes into a table that is set up for it. -/
theorem tableEffect {m₁ m₂ : Memory} (h : m.Separate live) (hp : live q = some p) (hi : i < 768)
    (hj : j < 1024) (hzero : m.entry p.procPd i = 0) (hf : m.faAlloc = .ok (m₁, f))
    (hg : m₁.faAlloc = .ok (m₂, g))
    (hclean : ∀ k < 1024, k ≠ j → present (m.entry g k) = false)
    (hm' : m' = (m₂.setEntry p.procPd i (pageEntry g procUserFlags)).setEntry g j
      (pageEntry f procUserFlags)) :
    m'.Separate live ∧ MapEffect m live q i j f m' := by
  obtain ⟨hs₁, hf₁, -⟩ := h.alloc hf
  obtain ⟨hs₂, hg₂, hothers⟩ := hs₁.alloc hg
  obtain ⟨hf₂, hne⟩ := hothers f hf₁
  obtain ⟨hfree, huse₁⟩ := faAlloc_inUse hf
  obtain ⟨hfree₂, huse₂⟩ := faAlloc_inUse hg
  obtain ⟨hm₁, -, -⟩ := faAlloc_eq_ok hf
  obtain ⟨hm₂, -, -⟩ := faAlloc_eq_ok hg
  have hphys : m₂.phys = m.phys := by rw [hm₂, hm₁]
  have hentry : ∀ x k, m₂.entry x k = m.entry x k := by
    intro x k
    rw [entry, entry, hphys]
  obtain ⟨hhold, hs'⟩ := hs₂.linkTable hp hi hj ((hentry _ _).trans hzero) hf₂ hg₂ hne.symm
    (fun k hk hkj => by rw [hentry]; exact hclean k hk hkj) hm'
  have hsame : m₂.holding live = m.holding live := by rw [hm₂, hm₁]; rfl
  rw [hsame] at hhold
  refine ⟨hs', .table g hfree (fun hin => hfree₂ ((huse₁ g).2 (.inl hin))) hne.symm
    (fun x => ?_) ?_ hhold ?_⟩
  · rw [← huse₁ x, ← huse₂ x, hm']
    rfl
  · rw [holding_of_live hp, slot, ref_of_entry hi hzero]
    rfl
  · rw [hm', hm₂, hm₁]
    rfl

theorem pagingMap_effect {m₁ : Memory} {vaddr : Nat} (h : m.Separate live) (hp : live q = some p)
    (hv : vaddr < kernelVirtBaseAddr) (hclean : m.cleanAt p.procPd vaddr = true)
    (ha : m.faAlloc = .ok (m₁, f))
    (hmap : m₁.pagingMap p.procPd f vaddr procUserFlags = .ok m') :
    m'.Separate live ∧ MapEffect m live q (vaddr / 2 ^ 22) (vaddr / 2 ^ 12 % 1024) f m' := by
  have hi : vaddr / 2 ^ 22 < 768 := by
    rw [kernelVirtBaseAddr] at hv
    omega
  have hj : vaddr / 2 ^ 12 % 1024 < 1024 := by omega
  obtain ⟨hs₁, hf₁, -⟩ := h.alloc ha
  have hentry : ∀ x k, m₁.entry x k = m.entry x k := by
    obtain ⟨hm₁, -, -⟩ := faAlloc_eq_ok ha
    intro x k
    rw [hm₁]
    rfl
  rcases h.entries hp hi with hzero | hpresent
  · simp only [pagingMap, if_pos ((hentry _ _).trans hzero), bind_eq_ok, Prod.exists,
      pure_eq_ok, exists_eq_left'] at hmap
    obtain ⟨m₂, g, hg, pt, hpt, hm'⟩ := hmap
    obtain ⟨hs₂, hg₂, -⟩ := hs₁.alloc hg
    have hpde : (m₂.setEntry p.procPd (vaddr / 2 ^ 22) (pageEntry g procUserFlags)).entry p.procPd
        (vaddr / 2 ^ 22) = pageEntry g procUserFlags := hs₂.entry_link hg₂.1
    rw [hpde, frameOf_pageEntry procUserFlags_lt, hs₂.direct hg₂.1] at hpt
    obtain rfl : g = pt := Except.ok.inj hpt
    exact h.tableEffect hp hi hj hzero ha hg (cleanAt_spec hclean hzero ha hg) hm'.symm
  · have hne : m₁.entry p.procPd (vaddr / 2 ^ 22) ≠ 0 := by
      rw [hentry]
      intro hzero
      rw [hzero] at hpresent
      cases hpresent
    simp only [pagingMap, if_neg hne, bind_eq_ok, pure_eq_ok, exists_eq_left'] at hmap
    simp only [hentry] at hmap
    obtain ⟨pt, hpt, hm'⟩ := hmap
    have href : m.ref 768 p.procPd (vaddr / 2 ^ 22) =
        some (frameOf (m.entry p.procPd (vaddr / 2 ^ 22))) := by
      rw [ref_of_entry hi rfl, if_pos hpresent]
    rw [h.direct (h.inUse (s := .table _) hp href)] at hpt
    rw [Except.ok.inj hpt] at href
    exact h.pageEffect hp href hj ha hm'.symm

theorem mapEffect {page : NewPage} (h : m.Separate live) (hp : live q = some p)
    (hv : page.vaddr < kernelVirtBaseAddr) (hclean : m.cleanAt p.procPd page.vaddr = true)
    (hmap : m.mapPage p.procPd page = .ok m') :
    m'.Separate live ∧
      ∃ f, MapEffect m live q (page.vaddr / 2 ^ 22) (page.vaddr / 2 ^ 12 % 1024) f m' := by
  simp only [Memory.mapPage, bind_eq_ok, Prod.exists] at hmap
  obtain ⟨m₁, f, ha, m₂, hpaging, hcontent⟩ := hmap
  obtain ⟨hs₂, heffect⟩ := h.pagingMap_effect hp hv hclean ha hpaging
  cases hc : page.content with
  | none =>
    rw [hc] at hcontent
    obtain rfl : m₂ = m' := by simpa using hcontent
    exact ⟨hs₂, f, heffect⟩
  | some src =>
    rw [hc] at hcontent
    simp only [bind_eq_ok, pure_eq_ok] at hcontent
    obtain ⟨dst, hdst, rfl⟩ := hcontent
    have hheld := heffect.holds
    rw [hs₂.direct (hs₂.exclusive.used hheld)] at hdst
    obtain rfl : f = dst := Except.ok.inj hdst
    obtain ⟨hhold, hs'⟩ := hs₂.fill_held hheld (by simp) src (j := 0) (n := 4096) (by omega)
    exact ⟨hs', f, heffect.congr hhold (fun x => Iff.rfl) rfl⟩

end Separate

/-! ## Unmapping a page -/

/-- What unmapping a page of process `q` amounts to: the frame it has, if any, goes out of use. -/
inductive UnmapEffect (m : Memory) (live : Nat → Option ProcMem) (q i j : Nat) (m' : Memory) : Prop
  | absent (hnone : m.holding live (q, .page i j) = none) (hm' : m' = m)
  | page (f : Nat) (hf : m.holding live (q, .page i j) = some f)
      (huse : ∀ x, m'.InUse x ↔ m.InUse x ∧ x ≠ f)
      (hhold : m'.holding live = Function.update (m.holding live) (q, .page i j) none)
      (hcalls : m'.calls = (m.client, .free f) :: m.calls) (hclient : m'.client = m.client)

theorem UnmapEffect.client (h : UnmapEffect m live q i j m') : m'.client = m.client := by
  cases h with
  | absent hnone hm' => rw [hm']
  | page f hf huse hhold hcalls hclient => exact hclient

theorem faFree_inUse (h : m.faFree f = .ok m') : ∀ x, m'.InUse x ↔ m.InUse x ∧ x ≠ f := by
  obtain ⟨hin, rfl⟩ := faFree_eq_ok.1 h
  intro x
  simp only [InUse, used, Mem.bit_clearBit, Bool.and_eq_true, Bool.not_eq_true',
    decide_eq_false_iff_not]
  tauto

namespace Separate

theorem unlink {m₁ : Memory} (h : m.Separate live) (hp : live q = some p)
    (hpt : m.ref 768 p.procPd i = some pt) (hpte : m.ref 1024 pt j = some f)
    (hfree : m.faFree f = .ok m₁) (hm' : m' = m₁.setEntry pt j 0) :
    m'.Separate live ∧ UnmapEffect m live q i j m' := by
  have hj : j < 1024 := (ref_eq_some hpte).1
  have hf : m.holding live (q, .page i j) = some f := by
    rw [holding_of_live hp, slot, hpt, Option.bind_some, hpte]
  have huse : ∀ x, m'.InUse x ↔ m.InUse x ∧ x ≠ f := by
    intro x
    rw [hm', ← faFree_inUse hfree x]
    rfl
  obtain ⟨-, hm₁⟩ := faFree_eq_ok.1 hfree
  have hsame : ∀ g, m.InUse g → g ≠ pt → m.Same m' g := by
    intro g _ hne
    rw [hm', ← hm₁]
    exact same_setEntry hj hne
  have hzero : m'.entry pt j = 0 := by
    rw [hm', entry_setEntry_self]
    rfl
  have hrest : ∀ k < 1024, k ≠ j → m'.entry pt k = m.entry pt k := by
    intro k _ hne
    rw [hm', ← hm₁]
    exact entry_setEntry_of_ne hne.symm
  have hhold := h.holding_setPage hp hpt hj hsame hzero hrest
  rw [if_neg (by decide)] at hhold
  refine ⟨⟨?_, ?_, ?_⟩, .page f hf huse hhold ?_ ?_⟩
  · rw [hm', ← hm₁]
    exact h.window
  · intro q' p' k hp' hk
    rw [(h.same_directory hp hpt hsame hp').entry (by omega)]
    exact h.entries hp' hk
  · rw [hhold]
    exact h.exclusive.drop hf fun hx hne => (huse _).2 ⟨hx, hne⟩
  · rw [hm', ← hm₁]
    rfl
  · rw [hm', ← hm₁]
    rfl

/-- Unmapping a page of the user half always succeeds. -/
theorem unmapEffect {addr : Nat} (h : m.Separate live) (hp : live q = some p)
    (hv : addr < kernelVirtBaseAddr) :
    ∃ m', m.unmapPage p.procPd addr = .ok m' ∧ m'.Separate live ∧
      UnmapEffect m live q (addr / 2 ^ 22) (addr / 2 ^ 12 % 1024) m' := by
  have hi : addr / 2 ^ 22 < 768 := by
    rw [kernelVirtBaseAddr] at hv
    omega
  have hj : addr / 2 ^ 12 % 1024 < 1024 := by omega
  have href : m.ref 768 p.procPd (addr / 2 ^ 22) =
      if present (m.entry p.procPd (addr / 2 ^ 22)) = true then
        some (frameOf (m.entry p.procPd (addr / 2 ^ 22))) else none := ref_of_entry hi rfl
  have hheld : m.holding live (q, .page (addr / 2 ^ 22) (addr / 2 ^ 12 % 1024)) =
      (m.ref 768 p.procPd (addr / 2 ^ 22)).bind fun pt => m.ref 1024 pt (addr / 2 ^ 12 % 1024) :=
    holding_of_live hp
  simp only [unmapPage]
  by_cases hpde : present (m.entry p.procPd (addr / 2 ^ 22)) = true
  · rw [if_pos hpde] at href
    obtain ⟨pt, hpt⟩ : ∃ pt, pt = frameOf (m.entry p.procPd (addr / 2 ^ 22)) := ⟨_, rfl⟩
    rw [← hpt] at href
    rw [href, Option.bind_some, ref_of_entry hj rfl] at hheld
    rw [if_pos hpde, ← hpt, h.direct (h.inUse (s := .table _) hp href), ok_bind]
    by_cases hpte : present (m.entry pt (addr / 2 ^ 12 % 1024)) = true
    · have hpage := ref_of_entry (v := m.entry pt (addr / 2 ^ 12 % 1024)) hj rfl
      rw [if_pos hpte] at hpage hheld
      have hin := h.exclusive.used hheld
      obtain ⟨m₁, hfree⟩ : ∃ m₁, m.faFree (frameOf (m.entry pt (addr / 2 ^ 12 % 1024))) = .ok m₁ :=
        ⟨_, faFree_eq_ok.2 ⟨by have := hin.1; omega, rfl⟩⟩
      rw [if_pos hpte, hfree]
      exact ⟨_, rfl, h.unlink hp href hpage hfree rfl⟩
    · rw [if_neg hpte] at hheld
      rw [if_neg hpte]
      exact ⟨m, rfl, h, .absent hheld rfl⟩
  · rw [if_neg hpde] at href
    rw [href, Option.bind_none] at hheld
    rw [if_neg hpde]
    exact ⟨m, rfl, h, .absent hheld rfl⟩

end Separate

/-! ## Creating a process -/

namespace Separate

/-- A process whose directory has an empty user half takes a frame for it and one
for its kernel stack. -/
theorem adopt (h : m.Separate live) (hq : live q = none) (hpd : m.Loose live p.procPd)
    (hks : m.Loose live p.kernelStackFrame) (hne : p.procPd ≠ p.kernelStackFrame)
    (hzero : ∀ i < 768, m.entry p.procPd i = 0) :
    m.holding (Function.update live q (some p)) =
        Function.update (Function.update (m.holding live) (q, .directory) (some p.procPd))
          (q, .kernelStack) (some p.kernelStackFrame) ∧
      m.Separate (Function.update live q (some p)) := by
  have hempty : ∀ n ≤ 768, ∀ i, m.ref n p.procPd i = none := by
    intro n hn i
    by_cases hi : i < n
    · rw [ref_of_entry hi (hzero i (by omega))]
      rfl
    · simp [ref, hi]
  have hhold : m.holding (Function.update live q (some p)) =
      Function.update (Function.update (m.holding live) (q, .directory) (some p.procPd))
        (q, .kernelStack) (some p.kernelStackFrame) := by
    funext ⟨q', s⟩
    rcases eq_or_ne q' q with rfl | hq'
    · rw [holding_of_live (Function.update_self ..)]
      cases s with
      | kernelStack => rw [Function.update_self]; rfl
      | directory => rw [Function.update_of_ne (by simp), Function.update_self]; rfl
      | table i =>
        rw [Function.update_of_ne (by simp), Function.update_of_ne (by simp), holding_of_dead hq]
        exact hempty 768 le_rfl i
      | page i j =>
        rw [Function.update_of_ne (by simp), Function.update_of_ne (by simp), holding_of_dead hq,
          slot, hempty 768 le_rfl i]
        rfl
    · rw [Function.update_of_ne (by simp [hq']), Function.update_of_ne (by simp [hq']), holding,
        holding, Function.update_of_ne hq']
  refine ⟨hhold, h.window, ?_, ?_⟩
  · intro q' p' i hp' hi
    rcases eq_or_ne q' q with rfl | hq'
    · rw [Function.update_self] at hp'
      obtain rfl : p = p' := Option.some.inj hp'
      exact .inl (hzero i hi)
    · rw [Function.update_of_ne hq'] at hp'
      exact h.entries hp' hi
  · rw [hhold]
    apply (h.exclusive.take hpd.2 hpd.1).take _ hks.1
    intro k hk
    by_cases hkd : k = (q, Slot.directory)
    · rw [hkd, Function.update_self] at hk
      exact hne (Option.some.inj hk)
    · rw [Function.update_of_ne hkd] at hk
      exact hks.2 k hk

/-- Writing to a frame that no slot holds. -/
theorem fill_loose (h : m.Separate live) (hf : m.Loose live f) (src : Mem) (hn : j + n ≤ 4096) :
    (m.fill f j n src).holding live = m.holding live ∧ (m.fill f j n src).Separate live := by
  apply h.holding_fill src hn
  · intro q' p' hp' heq
    apply hf.2 (q', .directory)
    rw [holding_of_live hp', ← heq]
    rfl
  · intro q' p' k hp' ht
    apply hf.2 (q', .table k)
    rw [holding_of_live hp', ht]

end Separate

theorem kernelStackFrame_kernelStackAddr (hf : f < 0x40000) (hp : p.kernelStack = kernelStackAddr f) :
    p.kernelStackFrame = f := by
  rw [ProcMem.kernelStackFrame, hp, kernelStackAddr, addr32, addr32, kernelVirtBaseAddr]
  omega

/-- What creating process `q` amounts to before any page is mapped. -/
structure CreateEffect (m : Memory) (live : Nat → Option ProcMem) (q : Nat) (p : ProcMem)
    (m' : Memory) : Prop where
  pd : ¬ m.InUse p.procPd
  ks : ¬ m.InUse p.kernelStackFrame
  ne : p.procPd ≠ p.kernelStackFrame
  use : ∀ x, m'.InUse x ↔ (m.InUse x ∨ x = p.procPd) ∨ x = p.kernelStackFrame
  hold : m'.holding (Function.update live q (some p)) =
    Function.update (Function.update (m.holding live) (q, .directory) (some p.procPd))
      (q, .kernelStack) (some p.kernelStackFrame)
  calls : m'.calls =
    (m.client, .alloc p.kernelStackFrame) :: (m.client, .alloc p.procPd) :: m.calls
  client : m'.client = m.client
  regions : p.mmapRegions = []

/-- A new directory is not in use yet, and the user half of it is empty. -/
theorem Separate.pagingCreatePd (h : m.Separate live) (hrun : m.pagingCreatePd = .ok (m', f)) :
    m'.Separate live ∧ m'.holding live = m.holding live ∧ m'.Loose live f ∧
      (∀ i < 768, m'.entry f i = 0) ∧ ¬ m.InUse f ∧ (∀ x, m'.InUse x ↔ m.InUse x ∨ x = f) ∧
      m'.calls = (m.client, .alloc f) :: m.calls ∧ m'.client = m.client := by
  simp only [Memory.pagingCreatePd, bind_eq_ok, Prod.exists, pure_eq_ok, Prod.mk.injEq] at hrun
  obtain ⟨m₁, f', ha, pd, hdirect, hm', rfl⟩ := hrun
  obtain ⟨rfl, -⟩ := direct_eq_ok hdirect
  obtain ⟨hs₁, hf₁, -⟩ := h.alloc ha
  obtain ⟨hfree, huse⟩ := faAlloc_inUse ha
  obtain ⟨hm₁, -, -⟩ := faAlloc_eq_ok ha
  obtain ⟨m₂, hm₂⟩ : ∃ m₂, m₂ = m₁.fill pd 0 (768 * 4) fun _ => 0 := ⟨_, rfl⟩
  obtain ⟨hhold₂, hs₂⟩ := hs₁.fill_loose hf₁ (fun _ => 0) (j := 0) (n := 768 * 4) (by omega)
  rw [← hm₂] at hhold₂ hs₂ hm'
  have hf₂ : m₂.Loose live pd := by
    refine ⟨hm₂ ▸ hf₁.1, fun k => ?_⟩
    rw [hhold₂]
    exact hf₁.2 k
  obtain ⟨hhold₃, hs₃⟩ := hs₂.fill_loose hf₂ (fun k => m₂.phys (m₂.kernelPd * 4096 + 768 * 4 + k))
    (j := 768 * 4) (n := 256 * 4) (by omega)
  rw [hm'] at hhold₃ hs₃
  have huse' : ∀ x, m'.InUse x ↔ m₁.InUse x := by
    intro x
    rw [← hm', hm₂]
    rfl
  have hholding : m'.holding live = m.holding live := by
    rw [hhold₃, hhold₂, hm₁]
    rfl
  refine ⟨hs₃, hholding, ⟨(huse' _).2 hf₁.1, fun k => ?_⟩, fun i hi => ?_, hfree,
    fun x => (huse' x).trans (huse x), ?_, ?_⟩
  · rw [hholding]
    exact h.not_held hfree k
  · rw [← hm', entry_fill_of_disjoint (by omega), hm₂, entry_fill (by omega) (by omega)]
    exact Mem.load_zero
  · rw [← hm', hm₂, hm₁]
    rfl
  · rw [← hm', hm₂, hm₁]
    rfl

theorem Separate.createEffect {pidCounter entry : Nat} (h : m.Separate live) (hq : live q = none)
    (hrun : procObject m pidCounter entry = .ok (m', p)) :
    m'.Separate (Function.update live q (some p)) ∧ CreateEffect m live q p m' ∧
      p.procId = pidCounter := by
  simp only [procObject, bind_eq_ok, Prod.exists, pure_eq_ok, Prod.mk.injEq] at hrun
  obtain ⟨m₁, pd, hpd, m₂, ks, ha, ks', hdirect, hm', rfl⟩ := hrun
  obtain ⟨rfl, hks⟩ := direct_eq_ok hdirect
  obtain ⟨hs₁, hhold₁, hpd₁, hzero, hfree₁, huse₁, hcalls₁, hclient₁⟩ := h.pagingCreatePd hpd
  obtain ⟨hs₂, hks₂, hothers⟩ := hs₁.alloc ha
  obtain ⟨hpd₂, hne⟩ := hothers pd hpd₁
  obtain ⟨hfree₂, huse₂⟩ := faAlloc_inUse ha
  obtain ⟨hm₂, -, -⟩ := faAlloc_eq_ok ha
  obtain ⟨hhold₃, hs₃⟩ := hs₂.fill_loose hks₂ (wordsAsBytes (createContext entry))
    (j := 4096 - 52) (n := 52) (by omega)
  rw [hm'] at hhold₃ hs₃
  have huse' : ∀ x, m'.InUse x ↔ m₂.InUse x := by
    intro x
    rw [← hm']
    rfl
  have hholding : m'.holding live = m.holding live := by
    rw [hhold₃, hm₂, ← hhold₁]
    rfl
  obtain ⟨p, hp⟩ : ∃ p : ProcMem, p =
      { procId := pidCounter, procPd := pd, kernelStack := kernelStackAddr ks' } := ⟨_, rfl⟩
  have hframe : p.kernelStackFrame = ks' :=
    kernelStackFrame_kernelStackAddr hks (by rw [hp])
  have hdir : p.procPd = pd := by rw [hp]
  have hlive : ∀ g, m₂.Loose live g → m'.Loose live g := by
    intro g hg
    refine ⟨(huse' g).2 hg.1, fun k => ?_⟩
    rw [hhold₃]
    exact hg.2 k
  have hempty : ∀ i < 768, m'.entry p.procPd i = 0 := by
    intro i hi
    rw [hdir, ← hm', (same_fill (by omega) hne).entry (by omega), hm₂]
    exact hzero i hi
  obtain ⟨hhold, hs⟩ := hs₃.adopt (p := p) hq (hdir ▸ hlive _ hpd₂) (hframe ▸ hlive _ hks₂)
    (by rw [hdir, hframe]; exact hne) hempty
  rw [← hp]
  refine ⟨hs, ⟨?_, ?_, ?_, ?_, ?_, ?_, ?_, by rw [hp]⟩, by rw [hp]⟩
  · rw [hdir]
    exact hfree₁
  · rw [hframe]
    exact fun hin => hfree₂ ((huse₁ _).2 (.inl hin))
  · rw [hdir, hframe]
    exact hne
  · intro x
    rw [huse' x, huse₂ x, huse₁ x, hdir, hframe]
  · rw [hhold, hholding]
  · have hcalls₂ : m₂.calls = (m₁.client, .alloc ks') :: m₁.calls := by rw [hm₂]
    rw [hclient₁, hcalls₁] at hcalls₂
    rw [hdir, hframe, ← hm']
    exact hcalls₂
  · rw [← hm', hm₂]
    exact hclient₁

/-! ## Destroying a process -/

theorem freeAll_append {l₁ l₂ : List Nat} :
    m.freeAll (l₁ ++ l₂) = m.freeAll l₁ >>= fun m' => m'.freeAll l₂ := by
  induction l₁ generalizing m with
  | nil => rfl
  | cons f l ih =>
    simp only [List.cons_append, freeAll]
    cases m.faFree f with
    | error e => rfl
    | ok m₁ => exact ih

theorem freeAll_singleton : m.freeAll [f] = m.faFree f := by
  rw [freeAll]
  cases m.faFree f with
  | error e => rfl
  | ok m₁ => rfl

/-- Freeing frames changes no entry. -/
theorem freeAll_phys {l : List Nat} (h : m.freeAll l = .ok m') : m'.phys = m.phys := by
  induction l generalizing m with
  | nil => rw [← Except.ok.inj h]
  | cons f l ih =>
    simp only [freeAll, bind_eq_ok] at h
    obtain ⟨m₁, hfree, hrest⟩ := h
    obtain ⟨-, rfl⟩ := faFree_eq_ok.1 hfree
    have hphys := ih hrest
    exact hphys

theorem ref_of_phys (h : m'.phys = m.phys) : m'.ref n frame i = m.ref n frame i := by
  apply ref_congr
  rw [entry, entry, h]

theorem slot_of_phys (h : m'.phys = m.phys) : m'.slot p = m.slot p := by
  funext s
  cases s with
  | kernelStack => rfl
  | directory => rfl
  | table i => exact ref_of_phys h
  | page i j =>
    rw [slot, slot, ref_of_phys h]
    congr 1
    funext pt
    exact ref_of_phys h

/-- The slots of a process in the order in which `proc_destroy` looks at them. -/
def tableSlots (i : Nat) : List Slot := (List.range 1024).map (Slot.page i) ++ [.table i]

def slots : List Slot :=
  .kernelStack :: ((List.range 768).flatMap tableSlots ++ [.directory])

/-- The frames of a process in that order. -/
def framesOf (m : Memory) (p : ProcMem) : List Nat := slots.filterMap (m.slot p)

theorem freePages_eq {left : Nat} (h : j + left ≤ 1024) :
    m.freePages pt j left = m.freeAll ((List.range' j left).filterMap (m.ref 1024 pt)) := by
  induction left generalizing m j with
  | zero => rfl
  | succ left ih =>
    have href : m.ref 1024 pt j = if present (m.entry pt j) = true then
        some (frameOf (m.entry pt j)) else none := ref_of_entry (by omega) rfl
    rw [freePages, List.range'_succ, List.filterMap_cons, href]
    by_cases hpte : present (m.entry pt j) = true
    · simp only [hpte, if_true]
      rw [freeAll]
      cases hfree : m.faFree (frameOf (m.entry pt j)) with
      | error e => rfl
      | ok m₁ =>
        have hphys : m₁.phys = m.phys := freeAll_phys (by rw [freeAll_singleton, hfree])
        rw [ok_bind, ok_bind, ih (by omega)]
        congr 2
        funext k
        exact ref_of_phys hphys
    · simp only [hpte]
      exact ih (by omega)

theorem tableSlots_some (h : m.ref 768 p.procPd i = some pt) :
    (tableSlots i).filterMap (m.slot p) =
      (List.range' 0 1024).filterMap (m.ref 1024 pt) ++ [pt] := by
  have hpages : m.slot p ∘ Slot.page i = m.ref 1024 pt := by
    funext j
    simp [slot, h]
  have htable : m.slot p (.table i) = some pt := h
  rw [tableSlots, List.filterMap_append, List.filterMap_map, hpages, List.range_eq_range',
    List.filterMap_cons, htable, List.filterMap_nil]

theorem tableSlots_none (h : m.ref 768 p.procPd i = none) :
    (tableSlots i).filterMap (m.slot p) = [] := by
  rw [List.filterMap_eq_nil_iff]
  intro s hs
  rcases List.mem_append.1 hs with hpage | htable
  · obtain ⟨j, -, rfl⟩ := List.mem_map.1 hpage
    simp [slot, h]
  · obtain rfl := List.mem_singleton.1 htable
    exact h

/-- One directory entry's part of the work. -/
theorem freeTables_succ {left : Nat} (hi : i < 768)
    (hdirect : ∀ pt, m.ref 768 p.procPd i = some pt → Kaku.direct pt = .ok pt) :
    m.freeTables p.procPd i (left + 1) = (m.freeAll ((tableSlots i).filterMap (m.slot p)) >>=
      fun m' => m'.freeTables p.procPd (i + 1) left) := by
  rw [freeTables]
  by_cases hpde : present (m.entry p.procPd i) = true
  · have href : m.ref 768 p.procPd i = some (frameOf (m.entry p.procPd i)) := by
      rw [ref_of_entry hi rfl, if_pos hpde]
    have hpages : m.freePages (frameOf (m.entry p.procPd i)) 0 1024 = m.freeAll
        ((List.range' 0 1024).filterMap (m.ref 1024 (frameOf (m.entry p.procPd i)))) :=
      freePages_eq (Nat.le_of_eq (Nat.zero_add 1024))
    simp only [hpde, if_true, hdirect _ href, ok_bind, tableSlots_some href, freeAll_append,
      freeAll_singleton, hpages, bind_assoc]
  · have href : m.ref 768 p.procPd i = none := by
      rw [ref_of_entry hi rfl, if_neg hpde]
    rw [tableSlots_none href]
    simp only [hpde]
    rfl

theorem freeTables_eq {left : Nat} (h : i + left ≤ 768)
    (hdirect : ∀ i pt, m.ref 768 p.procPd i = some pt → Kaku.direct pt = .ok pt) :
    m.freeTables p.procPd i left =
      m.freeAll (((List.range' i left).flatMap tableSlots).filterMap (m.slot p)) := by
  induction left generalizing m i with
  | zero => rfl
  | succ left ih =>
    rw [freeTables_succ (by omega) (hdirect i), List.range'_succ, List.flatMap_cons,
      List.filterMap_append, freeAll_append]
    cases hfree : m.freeAll ((tableSlots i).filterMap (m.slot p)) with
    | error e => rfl
    | ok m₁ =>
      have hphys := freeAll_phys hfree
      have hslot : m₁.slot p = m.slot p := slot_of_phys hphys
      have hdirect₁ : ∀ i pt, m₁.ref 768 p.procPd i = some pt → Kaku.direct pt = .ok pt := by
        intro i pt hpt
        rw [ref_of_phys hphys] at hpt
        exact hdirect i pt hpt
      rw [ok_bind, ok_bind, ih (by omega) hdirect₁, hslot]

theorem mem_slots (h : m.slot p s = some f) : s ∈ slots := by
  rw [slots, List.mem_cons, List.mem_append, List.mem_flatMap]
  cases s with
  | kernelStack => exact .inl rfl
  | directory => exact .inr (.inr (List.mem_singleton.2 rfl))
  | table i =>
    refine .inr (.inl ⟨i, List.mem_range.2 (ref_eq_some h).1, ?_⟩)
    rw [tableSlots]
    simp
  | page i j =>
    obtain ⟨pt, hpt, hpage⟩ := Option.bind_eq_some_iff.1 h
    refine .inr (.inl ⟨i, List.mem_range.2 (ref_eq_some hpt).1, ?_⟩)
    rw [tableSlots]
    simp [(ref_eq_some hpage).1]

theorem nodup_slots : slots.Nodup := by
  have htable : ∀ i, (tableSlots i).Nodup := by
    intro i
    rw [tableSlots, List.nodup_append]
    refine ⟨List.nodup_range.map fun a b hab => (Slot.page.inj hab).2, List.nodup_singleton _, ?_⟩
    simp
  rw [slots, List.nodup_cons, List.nodup_append, List.nodup_flatMap]
  refine ⟨?_, ⟨fun i _ => htable i, ?_⟩, List.nodup_singleton _, ?_⟩
  · simp [tableSlots]
  · apply List.nodup_range.imp
    intro i k hik s hs hs'
    simp only [tableSlots, List.mem_append, List.mem_map, List.mem_range, List.mem_singleton]
      at hs hs'
    rcases hs with ⟨j, -, rfl⟩ | rfl <;> simp_all
  · simp only [List.mem_flatMap, List.mem_range, tableSlots, List.mem_append, List.mem_map,
      List.mem_singleton]
    rintro s ⟨i, -, ⟨j, -, rfl⟩ | rfl⟩ s' rfl <;> simp

theorem mem_framesOf : f ∈ m.framesOf p ↔ ∃ s, m.slot p s = some f := by
  rw [framesOf, List.mem_filterMap]
  constructor
  · rintro ⟨s, -, hs⟩
    exact ⟨s, hs⟩
  · rintro ⟨s, hs⟩
    exact ⟨s, mem_slots hs, hs⟩

/-- `proc_destroy` frees what the slots of the process hold, provided that it can
reach all tables. -/
theorem procDestroy_eq
    (hdirect : ∀ i pt, m.ref 768 p.procPd i = some pt → Kaku.direct pt = .ok pt) :
    procDestroy m p = m.freeAll (m.framesOf p) := by
  have hframes : m.framesOf p = p.kernelStackFrame ::
      (((List.range' 0 768).flatMap tableSlots).filterMap (m.slot p) ++ [p.procPd]) := by
    have hks : m.slot p .kernelStack = some p.kernelStackFrame := rfl
    have hpd : m.slot p .directory = some p.procPd := rfl
    rw [framesOf, slots, List.filterMap_cons_some hks, List.filterMap_append,
      List.filterMap_cons_some hpd, List.filterMap_nil, List.range_eq_range']
  rw [procDestroy, hframes, freeAll]
  cases hfree : m.faFree p.kernelStackFrame with
  | error e => rw [error_bind, error_bind]
  | ok m₁ =>
    have hphys : m₁.phys = m.phys := freeAll_phys (by rw [freeAll_singleton, hfree])
    have hdirect₁ : ∀ i pt, m₁.ref 768 p.procPd i = some pt → Kaku.direct pt = .ok pt := by
      intro i pt hpt
      rw [ref_of_phys hphys] at hpt
      exact hdirect i pt hpt
    rw [ok_bind, ok_bind, freeTables_eq (by omega) hdirect₁, slot_of_phys hphys, freeAll_append]
    simp only [freeAll_singleton]

/-- It got through only if it could reach all tables. -/
theorem freeTables_direct {left k : Nat} (h : m.freeTables frame i left = .ok m') (hlo : i ≤ k)
    (hhi : k < i + left) (hpt : m.ref 768 frame k = some pt) : Kaku.direct pt = .ok pt := by
  induction left generalizing m i with
  | zero => omega
  | succ left ih =>
    obtain ⟨-, hpresent, hframe⟩ := ref_eq_some hpt
    rw [freeTables] at h
    by_cases hpde : present (m.entry frame i) = true
    · simp only [hpde, if_true, bind_eq_ok] at h
      obtain ⟨pt', hdirect, m₁, hpages, m₂, hfree, hrest⟩ := h
      rcases Nat.eq_or_lt_of_le hlo with rfl | hlt
      · obtain ⟨rfl, -⟩ := direct_eq_ok hdirect
        rwa [hframe] at hdirect
      · rw [freePages_eq (by omega)] at hpages
        have hphys₂ : m₂.phys = m₁.phys := freeAll_phys (by rw [freeAll_singleton, hfree])
        have hphys : m₂.phys = m.phys := hphys₂.trans (freeAll_phys hpages)
        exact ih hrest (by omega) (by omega) (by rw [ref_of_phys hphys, hpt])
    · simp only [hpde] at h
      rcases Nat.eq_or_lt_of_le hlo with rfl | hlt
      · exact absurd hpresent hpde
      · exact ih h (by omega) (by omega) hpt

/-- Whatever is in the tables, each frame that a slot holds is freed. -/
theorem freeAll_of_procDestroy (h : procDestroy m p = .ok m') :
    m.freeAll (m.framesOf p) = .ok m' := by
  rw [← procDestroy_eq, h]
  intro i pt hpt
  simp only [procDestroy, bind_eq_ok] at h
  obtain ⟨m₁, hfree, m₂, htables, -⟩ := h
  have hphys : m₁.phys = m.phys := freeAll_phys (by rw [freeAll_singleton, hfree])
  rw [← ref_of_phys hphys] at hpt
  exact freeTables_direct htables (Nat.zero_le i)
    (by rw [Nat.zero_add]; exact (ref_eq_some hpt).1) hpt

theorem freeAll_calls {l : List Nat} (h : m.freeAll l = .ok m') :
    m'.calls = freed m.client l ++ m.calls := by
  induction l generalizing m with
  | nil => rw [← Except.ok.inj h]; rfl
  | cons f l ih =>
    simp only [freeAll, bind_eq_ok] at h
    obtain ⟨m₁, hfree, hrest⟩ := h
    obtain ⟨-, rfl⟩ := faFree_eq_ok.1 hfree
    rw [ih hrest]
    simp [freed]

namespace Separate

theorem nodup_framesOf (h : m.Separate live) (hp : live q = some p) : (m.framesOf p).Nodup := by
  apply nodup_slots.filterMap
  intro s s' f hs hs'
  exact (h.slot_inj hp hp hs hs').2

theorem procDestroy_eq (h : m.Separate live) (hp : live q = some p) :
    procDestroy m p = m.freeAll (m.framesOf p) :=
  Memory.procDestroy_eq fun i _ hpt => h.direct (h.inUse (s := .table i) hp hpt)

theorem holding_dead : m.holding (Function.update live q none) =
    fun k => if k.1 = q then none else m.holding live k := by
  funext ⟨q', s⟩
  rcases eq_or_ne q' q with rfl | hq
  · rw [holding_of_dead (Function.update_self ..), if_pos rfl]
  · rw [holding, holding, Function.update_of_ne hq, if_neg hq]

/-- Destroying a process leaves the frames of the others alone. -/
theorem destroy (h : m.Separate live) (hp : live q = some p)
    (hrun : m.freeAll (m.framesOf p) = .ok m') :
    m'.Separate (Function.update live q none) ∧
      (∀ x, m'.InUse x ↔ m.InUse x ∧ x ∉ m.framesOf p) ∧
      m'.holding (Function.update live q none) =
        (fun k => if k.1 = q then none else m.holding live k) ∧
      m'.calls = freed m.client (m.framesOf p) ++ m.calls := by
  have hin : ∀ f ∈ m.framesOf p, f < 8 * m.faBitmapSize := by
    intro f hf
    obtain ⟨s, hs⟩ := mem_framesOf.1 hf
    exact (h.inUse hp hs).1
  obtain ⟨bitmap, hfree, hbits⟩ := freeAll_spec hin
  rw [hfree] at hrun
  have hm' := Except.ok.inj hrun
  have huse : ∀ x, m'.InUse x ↔ m.InUse x ∧ x ∉ m.framesOf p := by
    intro x
    rw [← hm']
    simp only [InUse, used, hbits, Bool.and_eq_true, Bool.not_eq_true', decide_eq_false_iff_not]
    tauto
  have hhold : m'.holding (Function.update live q none) =
      fun k => if k.1 = q then none else m.holding live k := by
    rw [holding_dead, ← hm']
    rfl
  refine ⟨⟨?_, ?_, ?_, ?_⟩, huse, hhold, ?_⟩
  · rw [← hm']
    exact h.window
  · intro q' p' i hp' hi
    rw [← hm']
    rcases eq_or_ne q' q with rfl | hq
    · rw [Function.update_self] at hp'
      cases hp'
    · rw [Function.update_of_ne hq] at hp'
      exact h.entries hp' hi
  · intro k r hk
    rw [hhold] at hk
    simp only at hk
    split at hk
    · cases hk
    · rename_i hq
      refine (huse r).2 ⟨h.exclusive.used hk, fun hr => ?_⟩
      obtain ⟨s, hs⟩ := mem_framesOf.1 hr
      have hheld : m.holding live (q, s) = some r := by rw [holding_of_live hp, hs]
      exact hq (congrArg Prod.fst (h.exclusive.inj hk hheld))
  · intro k l r hk hl
    rw [hhold] at hk hl
    simp only at hk hl
    split at hk
    · cases hk
    · split at hl
      · cases hl
      · exact h.exclusive.inj hk hl
  · rw [← hm']

end Separate

end Memory

end Kaku

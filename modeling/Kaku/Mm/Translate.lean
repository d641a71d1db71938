-- SUMMARY: The translation a page directory gives to each page, and when mapping one page changes that page only.
import Kaku.Mm.Paging

/-!
# Translation

The processor finds the mapping of a page through its directory entry and the
entry of its page table. A page table that `paging_map` takes from the frame
allocator keeps its old bytes, and the processor reads those as mappings too.
-/

namespace Kaku

namespace Memory

/-- The frame and the flags in an entry of a page table. -/
def translateIn (m : Memory) (pt j : Nat) : Option (Nat × Nat) :=
  if present (m.entry pt j) then some (frameOf (m.entry pt j), m.entry pt j % 4096) else none

/-- The frame and the flags that a page directory gives to a page. -/
def translate (m : Memory) (pd page : Nat) : Option (Nat × Nat) :=
  if present (m.entry pd (page / 1024)) then
    m.translateIn (frameOf (m.entry pd (page / 1024))) (page % 1024)
  else none

/-- A page directory: each entry is clear or refers to a page table of its own, and
the frames of the directory and its tables are in use. -/
structure PageDirectory (m : Memory) (pd : Nat) : Prop where
  entries : ∀ i < 1024, m.entry pd i = 0 ∨ present (m.entry pd i) = true
  tableNe : ∀ i < 1024, present (m.entry pd i) = true → frameOf (m.entry pd i) ≠ pd
  tables : ∀ i < 1024, ∀ k < 1024, present (m.entry pd i) = true → present (m.entry pd k) = true →
    frameOf (m.entry pd i) = frameOf (m.entry pd k) → i = k
  used : m.used pd = true
  tableUsed : ∀ i < 1024, present (m.entry pd i) = true → m.used (frameOf (m.entry pd i)) = true

/-- One page is translated to this frame with these flags, and every other page as
it was. -/
def OnlyMaps (m m' : Memory) (pd page frame flags : Nat) : Prop :=
  m'.translate pd page = some (frame, flags) ∧
    ∀ q < 2 ^ 20, q ≠ page → m'.translate pd q = m.translate pd q

/-- There is a table for the page, or the frame that will become its table holds no
stale entry that the processor would take for a mapping. The kernel can reach
either of them. -/
def TableReady (m : Memory) (pd vaddr : Nat) : Prop :=
  if m.entry pd (vaddr / 2 ^ 22) = 0 then
    ∃ t ∈ m.nextFrame, t < 0x40000 ∧
      ∀ k < 1024, k ≠ vaddr / 2 ^ 12 % 1024 → present (m.entry t k) = false
  else frameOf (m.entry pd (vaddr / 2 ^ 22)) < 0x40000

variable {m m' m₁ : Memory} {pd t i j k q page frame flags vaddr : Nat}

theorem translateIn_congr (h : m'.entry t j = m.entry t j) : m'.translateIn t j = m.translateIn t j := by
  rw [translateIn, translateIn, h]

/-- An entry that was written is read as it was written. -/
theorem translateIn_setEntry (hframe : frame < 2 ^ 20) (hflags : flags < 4096)
    (hpresent : flags % 2 = 1) :
    (m.setEntry t j (pageEntry frame flags)).translateIn t j = some (frame, flags) := by
  have hentry : (m.setEntry t j (pageEntry frame flags)).entry t j = pageEntry frame flags := by
    rw [entry_setEntry_self, pageEntry_lt (by omega) hframe]
  have hset : present (pageEntry frame flags) = true := by
    rw [present_pageEntry (by omega)]
    exact decide_eq_true hpresent
  rw [translateIn, hentry, if_pos hset, frameOf_pageEntry (by omega), pageEntry_eq (by omega)]
  congr 2
  omega

theorem translate_of_table (hset : present (m.entry pd (page / 1024)) = true)
    (htable : frameOf (m.entry pd (page / 1024)) = t) :
    m.translate pd page = m.translateIn t (page % 1024) := by
  rw [translate, if_pos hset, htable]

theorem translate_of_clear (hclear : m.entry pd (page / 1024) = 0) : m.translate pd page = none := by
  rw [translate, hclear]
  rfl

/-- A page keeps its translation if its directory entry and its table entry do. -/
theorem translate_congr (hdir : m'.entry pd (page / 1024) = m.entry pd (page / 1024))
    (htable : present (m.entry pd (page / 1024)) = true →
      m'.entry (frameOf (m.entry pd (page / 1024))) (page % 1024) =
        m.entry (frameOf (m.entry pd (page / 1024))) (page % 1024)) :
    m'.translate pd page = m.translate pd page := by
  rw [translate, translate, hdir]
  split
  · rename_i hset
    exact translateIn_congr (htable hset)
  · rfl

/-! ## Mapping a page -/

/-- Writing an entry of a page table changes one translation, if no other directory
entry refers to that table. -/
theorem PageDirectory.onlyMaps_setEntry (hd : m.PageDirectory pd) (hvaddr : vaddr < 2 ^ 32)
    (hset : present (m.entry pd (vaddr / 2 ^ 22)) = true) (hframe : frame < 2 ^ 20)
    (hflags : flags < 4096) (hpresent : flags % 2 = 1) :
    m.OnlyMaps (m.setEntry (frameOf (m.entry pd (vaddr / 2 ^ 22))) (vaddr / 2 ^ 12 % 1024)
      (pageEntry frame flags)) pd (vaddr / 4096) frame flags := by
  have hi : vaddr / 2 ^ 22 < 1024 := by omega
  have hj : vaddr / 2 ^ 12 % 1024 < 1024 := Nat.mod_lt _ (by decide)
  have hne := hd.tableNe _ hi hset
  generalize htable : frameOf (m.entry pd (vaddr / 2 ^ 22)) = t at hne ⊢
  have hdir (k) (hk : k < 1024) : (m.setEntry t (vaddr / 2 ^ 12 % 1024)
      (pageEntry frame flags)).entry pd k = m.entry pd k := (same_setEntry hj hne.symm).entry hk
  refine ⟨?_, fun q hq hqne => ?_⟩
  · have hindex : vaddr / 4096 / 1024 = vaddr / 2 ^ 22 := by omega
    rw [translate_of_table (t := t), show vaddr / 4096 % 1024 = vaddr / 2 ^ 12 % 1024 by omega]
    · exact translateIn_setEntry hframe hflags hpresent
    · rw [hdir _ (by omega), hindex]
      exact hset
    · rw [hdir _ (by omega), hindex]
      exact htable
  · apply translate_congr (hdir _ (by omega))
    intro hq'
    rcases eq_or_ne (q / 1024) (vaddr / 2 ^ 22) with hsame | hother
    · -- another entry of the same table
      rw [hsame, htable]
      exact entry_setEntry_of_ne (by omega)
    · -- another table
      have hother' : frameOf (m.entry pd (q / 1024)) ≠ t := by
        rw [← htable]
        intro heq
        exact hother (hd.tables _ (by omega) _ hi hq' hset heq)
      exact (same_setEntry hj hother').entry (Nat.mod_lt _ (by decide))

/-- A directory with a new table in a clear entry. -/
theorem PageDirectory.insert (hd : m.PageDirectory pd) (hi : i < 1024)
    (hclear : m.entry pd i = 0) (hphys : m₁.phys = m.phys)
    (hused : ∀ x, m₁.used x = true ↔ m.used x = true ∨ x = t) (hfree : m.used t = false)
    (ht : t < 2 ^ 20) (hflags : flags < 4096) (hpresent : flags % 2 = 1) :
    (m₁.setEntry pd i (pageEntry t flags)).PageDirectory pd ∧
      (m₁.setEntry pd i (pageEntry t flags)).entry pd i = pageEntry t flags := by
  have hself : (m₁.setEntry pd i (pageEntry t flags)).entry pd i = pageEntry t flags := by
    rw [entry_setEntry_self, pageEntry_lt (by omega) ht]
  have hother (k) (hk : k ≠ i) : (m₁.setEntry pd i (pageEntry t flags)).entry pd k =
      m.entry pd k := by
    rw [entry_setEntry_of_ne hk.symm, entry_of_phys hphys]
  have hset : present (pageEntry t flags) = true := by
    rw [present_pageEntry (by omega)]
    exact decide_eq_true hpresent
  have hfresh (g) (hg : m.used g = true) : g ≠ t := by
    rintro rfl
    rw [hfree] at hg
    cases hg
  refine ⟨⟨fun k hk => ?_, fun k hk hk' => ?_, fun k hk l hl hk' hl' heq => ?_, ?_,
    fun k hk hk' => ?_⟩, hself⟩
  · rcases eq_or_ne k i with rfl | hne
    · rw [hself]
      exact .inr hset
    · rw [hother k hne]
      exact hd.entries k hk
  · rcases eq_or_ne k i with rfl | hne
    · rw [hself, frameOf_pageEntry (by omega)]
      exact (hfresh pd hd.used).symm
    · rw [hother k hne] at hk' ⊢
      exact hd.tableNe k hk hk'
  · rcases eq_or_ne k i with rfl | hne <;> rcases eq_or_ne l k with rfl | hne'
    · rfl
    · rw [hself, frameOf_pageEntry (by omega), hother l hne'] at heq
      rw [hother l hne'] at hl'
      exact absurd heq.symm (hfresh _ (hd.tableUsed l hl hl'))
    · rfl
    · rw [hother k hne] at heq hk'
      rcases eq_or_ne l i with rfl | hli
      · rw [hself, frameOf_pageEntry (by omega)] at heq
        exact absurd heq (hfresh _ (hd.tableUsed k hk hk'))
      · rw [hother l hli] at heq hl'
        exact hd.tables k hk l hl hk' hl' heq
  · exact (hused pd).2 (.inl hd.used)
  · rcases eq_or_ne k i with rfl | hne
    · rw [hself, frameOf_pageEntry (by omega)]
      exact (hused t).2 (.inr rfl)
    · rw [hother k hne] at hk' ⊢
      exact (hused _).2 (.inl (hd.tableUsed k hk hk'))

theorem translateIn_eq_none : m.translateIn t j = none ↔ present (m.entry t j) = false := by
  rw [translateIn]
  split <;> simp_all

/-- Entering a new table into a clear directory entry adds the translations of the
stale bytes in the table, and no others. -/
theorem PageDirectory.translate_insert (hd : m.PageDirectory pd) (hi : i < 1024)
    (hphys : m₁.phys = m.phys) (hne : t ≠ pd) (ht : t < 2 ^ 20)
    (hflags : flags < 4096) (hpresent : flags % 2 = 1) (hq : q < 2 ^ 20) :
    (m₁.setEntry pd i (pageEntry t flags)).translate pd q =
      if q / 1024 = i then m.translateIn t (q % 1024) else m.translate pd q := by
  have hother (g k : Nat) (hg : g ≠ pd) (hk : k < 1024) :
      (m₁.setEntry pd i (pageEntry t flags)).entry g k = m.entry g k := by
    rw [(same_setEntry hi hg).entry hk, entry_of_phys hphys]
  split
  · rename_i hsame
    have hself : (m₁.setEntry pd i (pageEntry t flags)).entry pd (q / 1024) =
        pageEntry t flags := by
      rw [hsame, entry_setEntry_self, pageEntry_lt (by omega) ht]
    rw [translate_of_table (t := t)]
    · exact translateIn_congr (hother t _ hne (Nat.mod_lt _ (by decide)))
    · rw [hself, present_pageEntry (by omega)]
      exact decide_eq_true hpresent
    · rw [hself, frameOf_pageEntry (by omega)]
  · rename_i hdiff
    apply translate_congr
    · rw [entry_setEntry_of_ne (Ne.symm hdiff), entry_of_phys hphys]
    · intro hset
      exact hother _ _ (hd.tableNe _ (by omega) hset) (Nat.mod_lt _ (by decide))

theorem pagingMap_of_set (hset : m.entry pd (vaddr / 2 ^ 22) ≠ 0) :
    m.pagingMap pd frame vaddr flags = (direct (frameOf (m.entry pd (vaddr / 2 ^ 22))) >>= fun pt =>
      .ok (m.setEntry pt (vaddr / 2 ^ 12 % 1024) (pageEntry frame flags))) := by
  rw [pagingMap, if_neg hset]
  rfl

theorem pagingMap_of_clear (hclear : m.entry pd (vaddr / 2 ^ 22) = 0)
    (halloc : m.faAlloc = .ok (m₁, t))
    (hentry : (m₁.setEntry pd (vaddr / 2 ^ 22) (pageEntry t flags)).entry pd (vaddr / 2 ^ 22) =
      pageEntry t flags) (hflags : flags < 4096) :
    m.pagingMap pd frame vaddr flags = (direct t >>= fun pt =>
      .ok ((m₁.setEntry pd (vaddr / 2 ^ 22) (pageEntry t flags)).setEntry pt
        (vaddr / 2 ^ 12 % 1024) (pageEntry frame flags))) := by
  rw [pagingMap, if_pos hclear, halloc]
  show (direct (frameOf ((m₁.setEntry pd (vaddr / 2 ^ 22) (pageEntry t flags)).entry pd
    (vaddr / 2 ^ 22))) >>= _) = _
  rw [hentry, frameOf_pageEntry hflags]
  rfl

/-- The case of `paging_map` without a table: what the new table holds decides. -/
theorem PageDirectory.onlyMaps_insert (hd : m.PageDirectory pd) (hm : m.Addressable)
    (hvaddr : vaddr < 2 ^ 32) (hclear : m.entry pd (vaddr / 2 ^ 22) = 0)
    (halloc : m.faAlloc = .ok (m₁, t)) (hframe : frame < 2 ^ 20) (hflags : flags < 4096)
    (hpresent : flags % 2 = 1) :
    m.OnlyMaps ((m₁.setEntry pd (vaddr / 2 ^ 22) (pageEntry t flags)).setEntry t
      (vaddr / 2 ^ 12 % 1024) (pageEntry frame flags)) pd (vaddr / 4096) frame flags ↔
      ∀ k < 1024, k ≠ vaddr / 2 ^ 12 % 1024 → present (m.entry t k) = false := by
  obtain ⟨hfree, ht, hphys, -, hused⟩ := faAlloc_spec hm halloc
  have hi : vaddr / 2 ^ 22 < 1024 := by omega
  have hne : t ≠ pd := by
    rintro rfl
    rw [hd.used] at hfree
    cases hfree
  obtain ⟨hd₂, hentry⟩ := hd.insert hi hclear hphys hused hfree ht hflags hpresent
  have hset : present (pageEntry t flags) = true := by
    rw [present_pageEntry (by omega)]
    exact decide_eq_true hpresent
  have hone := hd₂.onlyMaps_setEntry hvaddr (by rw [hentry]; exact hset) hframe hflags hpresent
  rw [hentry, frameOf_pageEntry (by omega)] at hone
  have hinsert (q) (hq : q < 2 ^ 20) :=
    hd.translate_insert hi hphys hne ht hflags hpresent hq
  constructor
  · rintro ⟨-, hsame⟩ k hk hkj
    have hq : vaddr / 2 ^ 22 * 1024 + k < 2 ^ 20 := by omega
    have hqi : (vaddr / 2 ^ 22 * 1024 + k) / 1024 = vaddr / 2 ^ 22 := by omega
    have hqk : (vaddr / 2 ^ 22 * 1024 + k) % 1024 = k := by omega
    have hbefore : m.translate pd (vaddr / 2 ^ 22 * 1024 + k) = none :=
      translate_of_clear (by rw [hqi]; exact hclear)
    have hafter := hsame _ hq (by omega)
    rw [hone.2 _ hq (by omega), hinsert _ hq, if_pos hqi, hqk, hbefore] at hafter
    exact translateIn_eq_none.1 hafter
  · intro hstale
    refine ⟨hone.1, fun q hq hqne => ?_⟩
    rw [hone.2 q hq hqne, hinsert q hq]
    split
    · rename_i hqi
      rw [translate_of_clear (by rw [hqi]; exact hclear), translateIn_eq_none]
      exact hstale _ (Nat.mod_lt _ (by decide)) (by omega)
    · rfl

/-- Eight frames, of which the first two are in use, and the second is a directory
without entries. -/
def emptyDirectory (phys : Mem) : Memory where
  faBitmap i := if i = 0 then 3 else 255
  faBitmapSize := 1
  phys := phys
  kernelPd := 1
  client := 0
  calls := []

theorem emptyDirectory_pageDirectory {phys : Mem} (h : ∀ x < 8192, phys x = 0) :
    (emptyDirectory phys).PageDirectory 1 := by
  have hclear (i) (hi : i < 1024) : (emptyDirectory phys).entry 1 i = 0 := by
    have hload : Mem.load (fun _ => 0) (1 * 4096 + 4 * i) 4 = 0 := by simp [Mem.load]
    rw [entry, ← hload]
    apply Mem.load_congr
    intro x _ hhi
    exact h x (by omega)
  have hnot (i) (hi : i < 1024) : present ((emptyDirectory phys).entry 1 i) ≠ true := by
    rw [hclear i hi]
    decide
  have hused : Mem.bit (fun i => if i = 0 then 3 else 255) 1 = true := by decide
  exact ⟨fun i hi => .inl (hclear i hi), fun i hi hset => absurd hset (hnot i hi),
    fun i hi _ _ hset => absurd hset (hnot i hi), hused,
    fun i hi hset => absurd hset (hnot i hi)⟩

end Memory

end Kaku

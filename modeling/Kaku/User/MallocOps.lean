-- SUMMARY: What each call of the user allocator does to the blocks.
import Kaku.User.MallocInv

/-!
# The calls of the user allocator

Each call keeps the shape of the heap, and what it does not work on stays as it is.
An allocation that succeeds adds one block to those that are on no list.
-/

namespace Kaku

namespace UHeap

variable {os : Os} {h h' : UHeap} {bins : Nat → List Nat} {used l₁ l₂ : List Nat}
  {b c n k a p x ci total size left i : Nat} {P : Nat → Prop}

/-! ## Size classes -/

theorem blockSize_eq (hk : k < memNumClasses) : memBlockSizeForClass k = memAlign * 2 ^ k := by
  have hpow : 2 ^ k ≤ 2 ^ 9 := Nat.pow_le_pow_right (by decide) (by rw [memNumClasses] at hk; omega)
  rw [memBlockSizeForClass, addr32, Nat.shiftLeft_eq, memAlign]
  exact Nat.mod_eq_of_lt (by omega)

/-- The first class from `i` on whose blocks are large enough, if there is one. -/
def FirstClass (size i : Nat) : Option Nat → Prop
  | some k => i ≤ k ∧ k < memNumClasses ∧ size ≤ memAlign * 2 ^ k ∧
      ∀ j, i ≤ j → j < k → memAlign * 2 ^ j < size
  | none => ∀ j, i ≤ j → j < memNumClasses → memAlign * 2 ^ j < size

theorem FirstClass.succ {r : Option Nat} (hr : FirstClass size (i + 1) r)
    (hi : memAlign * 2 ^ i < size) : FirstClass size i r := by
  have hbelow (j : Nat) (hij : i ≤ j) (hj : i + 1 ≤ j → memAlign * 2 ^ j < size) :
      memAlign * 2 ^ j < size := by
    rcases Nat.eq_or_lt_of_le hij with rfl | hlt
    · exact hi
    · exact hj hlt
  cases r with
  | none => exact fun j hij hj => hbelow j hij fun hlt => hr j hlt hj
  | some k =>
    obtain ⟨hik, hk, hfits, hleast⟩ := hr
    exact ⟨by omega, hk, hfits, fun j hij hj => hbelow j hij fun hlt => hleast j hlt hj⟩

theorem memClassIndexFrom_spec (hi : i + left = memNumClasses) :
    FirstClass size i (memClassIndexFrom size left i (memAlign * 2 ^ i)) := by
  induction left generalizing i with
  | zero =>
    intro j hij hj
    omega
  | succ left ih =>
    rw [memClassIndexFrom]
    split
    · rename_i hfits
      exact ⟨le_rfl, by omega, hfits, fun j hij hj => by omega⟩
    · rename_i hsmall
      have hdouble : addr32 ((memAlign * 2 ^ i) <<< 1) = memAlign * 2 ^ (i + 1) := by
        have hpow : 2 ^ i ≤ 2 ^ 9 :=
          Nat.pow_le_pow_right (by decide) (by rw [memNumClasses] at hi; omega)
        rw [addr32, Nat.shiftLeft_eq, pow_succ, memAlign]
        omega
      rw [hdouble]
      exact (ih (by omega)).succ (by omega)

theorem memClassIndex_spec (size : Nat) : FirstClass size 0 (memClassIndex size) :=
  memClassIndexFrom_spec (show 0 + memNumClasses = memNumClasses from Nat.zero_add _)

theorem le_of_memClassIndex (hk : memClassIndex size = some k) :
    k < memNumClasses ∧ size ≤ memAlign * 2 ^ k := by
  have hspec := memClassIndex_spec size
  rw [hk] at hspec
  exact ⟨hspec.2.1, hspec.2.2.1⟩

theorem lt_of_memClassIndex (hk : memClassIndex size = none) : memAlign * 2 ^ 9 < size := by
  have hspec := memClassIndex_spec size
  rw [hk] at hspec
  exact hspec 9 (Nat.zero_le 9) (by decide)

/-- The list on which a block of this size belongs. -/
def listOf (size : Nat) : Nat := (memClassIndex size).getD memNumClasses

/-- A block goes back to the list that has blocks of its size. -/
theorem listOf_eq (hsized : Sized k size) (hk : k < numLists) : listOf size = k := by
  rw [numLists] at hk
  rw [Sized] at hsized
  have hspec := memClassIndex_spec size
  rw [listOf]
  cases hindex : memClassIndex size with
  | none =>
    rw [hindex] at hspec
    split at hsized
    · rename_i hsmall
      have hlt := hspec k (Nat.zero_le k) hsmall
      omega
    · rw [Option.getD_none]
      omega
  | some c =>
    rw [hindex] at hspec
    obtain ⟨-, hc, hfits, hleast⟩ := hspec
    rw [Option.getD_some]
    split at hsized
    · rename_i hsmall
      rcases Nat.lt_trichotomy c k with hlt | heq | hgt
      · have hpow : 2 ^ c < 2 ^ k := Nat.pow_lt_pow_right (by decide) hlt
        rw [hsized, memAlign] at hfits
        omega
      · exact heq
      · have hlt := hleast k (Nat.zero_le k) hgt
        omega
    · have hpow : 2 ^ c ≤ 2 ^ 9 :=
        Nat.pow_le_pow_right (by decide) (by rw [memNumClasses] at hc; omega)
      rw [memAlign] at hfits hsized
      omega

/-! ## Giving blocks back -/

theorem setHead_small (hk : k < memNumClasses) : h.setHead k b = h.setFreeList k b := if_pos hk

theorem head_small (hk : k < memNumClasses) : h.head k = h.memFreeLists k := if_pos hk

/-- A change of the header of a block stays in the block. -/
theorem setFlags_mem (hheader : memHeader ≤ h.size b) (hx : ¬ (h.extent b).Has x) :
    (h.setFlags b n).mem x = h.mem x := by
  simp only [Extent.Has, extent] at hx
  rw [memHeader] at hheader
  exact Mem.store_of_not_mem (by omega)

theorem setNext_mem (hheader : memHeader ≤ h.size b) (hx : ¬ (h.extent b).Has x) :
    (h.setNext b n).mem x = h.mem x := by
  simp only [Extent.Has, extent] at hx
  rw [memHeader] at hheader
  exact Mem.store_of_not_mem (by omega)

theorem used_ne (hs : h.Shape bins (b :: used)) : ∀ c ∈ used, c ∈ b :: used ∧ c ≠ b := by
  intro c hc
  refine ⟨List.mem_cons_of_mem b hc, ?_⟩
  rintro rfl
  exact (List.nodup_cons.1 hs.spread_used.nodup).1 hc

theorem nodes_ne (hs : h.Shape bins (b :: used)) :
    ∀ c ∈ nodes bins used, c ∈ nodes bins (b :: used) ∧ c ≠ b := by
  intro c hc
  refine ⟨Shape.nodes_cons.mem_iff.2 (List.mem_cons_of_mem b hc), ?_⟩
  rintro rfl
  exact (List.nodup_cons.1 (Shape.nodes_cons.nodup_iff.1 hs.spread.nodup)).1 hc

theorem bin_ne_used (hs : h.Shape bins used) (hk : k < numLists) (hb : b ∈ bins k)
    (hc : c ∈ used) : c ≠ b := by
  rintro rfl
  refine List.disjoint_left.1 (List.disjoint_of_nodup_append hs.spread.nodup) ?_ hc
  exact List.mem_flatMap.2 ⟨k, List.mem_range.2 hk, hb⟩

/-- A change within a block of a list keeps the blocks that are on none. -/
theorem Shape.keeps_used (hs : h.Shape bins used) (hk : k < numLists) (hb : b ∈ bins k)
    (hsame : ∀ x, ¬ (h.extent b).Has x → h'.mem x = h.mem x) : Keeps h h' used :=
  Keeps.of_block hs.spread (mem_bin hk hb) (fun _ hc => ⟨mem_used hc, bin_ne_used hs hk hb hc⟩) hsame

/-- A block that is on no list becomes free. -/
theorem Shape.release (hs : h.Shape bins (b :: used)) (hk : k < numLists)
    (hsized : Sized k (h.size b)) :
    let bins' := Function.update bins k (b :: bins k)
    (((h.setFlags b memFree).setNext b (h.head k)).setHead k b).Shape bins' used ∧
      Keeps h (((h.setFlags b memFree).setNext b (h.head k)).setHead k b) used ∧
      ∀ a n, h.Spare (nodes bins (b :: used)) a n →
        (((h.setFlags b memFree).setNext b (h.head k)).setHead k b).Spare (nodes bins' used) a n := by
  intro bins'
  have hmem : b ∈ nodes bins (b :: used) := mem_used List.mem_cons_self
  have hheader := hs.spread.header b hmem
  have hflags : (h.setFlags b memFree).Shape bins (b :: used) := hs.setFlags hmem
  have hself : (h.setFlags b memFree).size b = h.size b := size_setFlags (.inl rfl)
  have hkeeps : Keeps h (h.setFlags b memFree) used :=
    Keeps.of_block hs.spread_used List.mem_cons_self (used_ne hs) fun _ => setFlags_mem hheader
  have hpushed := hflags.push hk (by rwa [hself])
  refine ⟨hpushed, hkeeps.trans (hs.drop.spread_used) ?_, fun a n hspare => ?_⟩
  · refine Keeps.of_block hflags.spread_used List.mem_cons_self (used_ne hs) fun x hx => ?_
    rw [mem_setHead]
    exact setNext_mem (by rwa [hself]) hx
  · refine hspare.congr owned_setHead fun c hc => ?_
    have hold := (Shape.nodes_put hk).mem_iff.2 hc
    rw [size_setHead, size_setNext (hflags.spread.separate hmem hold),
      size_setFlags (hs.spread.separate hmem hold)]
    exact ⟨hold, rfl⟩

/-! ## Small blocks -/

theorem carve_spec (hs : h.Shape bins used) (hk : ci < memNumClasses) (hP : Lists P bins)
    (hnew : ∀ j, P (a + j * memBlockSizeForClass ci))
    (hspare : h.Spare (nodes bins used) (a + i * memBlockSizeForClass ci)
      (left * memBlockSizeForClass ci)) :
    ∃ bins', (carve ci a (memBlockSizeForClass ci) left i h).Shape bins' used ∧ Lists P bins' ∧
      Keeps h (carve ci a (memBlockSizeForClass ci) left i h) used := by
  induction left generalizing bins i h with
  | zero => exact ⟨bins, hs, hP, Keeps.refl h used⟩
  | succ left ih =>
    have hlists : ci < numLists := by
      rw [numLists]
      omega
    have hbs := blockSize_eq hk
    have hpow : 0 < 2 ^ ci := Nat.two_pow_pos ci
    have hheader : memHeader ≤ memBlockSizeForClass ci := by
      rw [hbs, memHeader, memAlign]
      omega
    -- what is left of the chunk is owned, so that no address wraps around
    have haddr : addr32 (a + i * memBlockSizeForClass ci) = a + i * memBlockSizeForClass ci := by
      obtain ⟨e, he, -, hhi⟩ := hspare.owned
      have hroom := hs.spread.room e he
      rw [memHeader] at hheader
      rw [Nat.succ_mul] at hhi
      exact Nat.mod_eq_of_lt (by omega)
    obtain ⟨hgrown, hkeeps, hself, hrest⟩ := hs.grow hspare hheader (by rw [Nat.succ_mul]; omega)
    obtain ⟨hfreed, hkeeps', hspare'⟩ := hgrown.release hlists (by
      rw [hself, Sized, if_pos hk, hbs])
    have hP' : Lists P (Function.update bins ci (_ :: bins ci)) :=
      hP.update (List.forall_mem_cons.2 ⟨hnew i, hP ci hlists⟩)
    have hnext := hspare' _ _ hrest
    rw [setHead_small hk, head_small hk] at hfreed hkeeps' hnext
    rw [Nat.succ_mul, Nat.add_sub_cancel, Nat.add_assoc, ← Nat.succ_mul] at hnext
    obtain ⟨bins'', hdone, hP'', hkeeps''⟩ := ih hfreed hP' hnext
    rw [carve, haddr]
    refine ⟨bins'', hdone, hP'', ?_⟩
    have hused : Keeps h (h.setSize (a + i * memBlockSizeForClass ci) (memBlockSizeForClass ci)) used :=
      hkeeps.mono fun c hc => Shape.mem_used hc
    exact (hused.trans hs.spread_used hkeeps').trans hs.spread_used hkeeps''

/-! ## Allocation -/

/-- The kernel hands out memory that it has not handed out before, or none. -/
structure FreshAnswers (os : Os) (owned : List Extent) : Prop where
  sbrk : ∀ n, os.sbrk n = sbrkFailed ∨ FreshAt owned (os.sbrk n) n
  mmap : ∀ n, os.mmap n = 0 ∨ FreshAt owned (os.mmap n) n

/-- From its header `free` finds out where the block belongs. -/
def Usable (h : UHeap) (b : Nat) : Prop :=
  h.flags b = memMmap ∨ h.flags b = memUsed ∧ ∃ k < numLists, Sized k (h.size b)

/-- An allocation fails, or it yields a block of at least this size. The blocks in use stay
as they are. -/
def Grants (h : UHeap) (used : List Nat) (total : Nat) (r : Nat × UHeap) : Prop :=
  (r.1 = 0 ∧ (∃ bins, r.2.Shape bins used) ∧ Keeps h r.2 used) ∨
    ∃ b, r.1 = b + memHeader ∧ (∃ bins, r.2.Shape bins (b :: used)) ∧ total ≤ r.2.size b ∧
      r.2.Usable b ∧ Keeps h r.2 used

/-- `Grants`, where the block and all blocks on the lists have a property. -/
def Deals (P : Nat → Prop) (h : UHeap) (used : List Nat) (total : Nat) (r : Nat × UHeap) : Prop :=
  (r.1 = 0 ∧ (∃ bins, r.2.Shape bins used ∧ Lists P bins) ∧ Keeps h r.2 used) ∨
    ∃ b, r.1 = b + memHeader ∧ P b ∧ (∃ bins, r.2.Shape bins (b :: used) ∧ Lists P bins) ∧
      total ≤ r.2.size b ∧ r.2.Usable b ∧ Keeps h r.2 used

theorem Deals.grants {r : Nat × UHeap} (hdeals : h.Deals P used total r) :
    h.Grants used total r := by
  rcases hdeals with ⟨hnull, ⟨bins, hs, -⟩, hkeeps⟩ | ⟨b, hb, -, ⟨bins, hs, -⟩, hfits⟩
  · exact .inl ⟨hnull, ⟨bins, hs⟩, hkeeps⟩
  · exact .inr ⟨b, hb, ⟨bins, hs⟩, hfits⟩

/-- The memory that the kernel hands out has the property at every multiple of the alignment. -/
structure Places (P : Nat → Prop) (os : Os) : Prop where
  sbrk : ∀ n, os.sbrk n ≠ sbrkFailed → ∀ j, P (os.sbrk n + j * memAlign)
  mmap : ∀ n, os.mmap n ≠ 0 → P (os.mmap n)

theorem Places.trivial (os : Os) : Places (fun _ => True) os :=
  ⟨fun _ _ _ => True.intro, fun _ _ => True.intro⟩

theorem Deals.failed (hs : h.Shape bins used) (hP : Lists P bins) : h.Deals P used total (0, h) :=
  .inl ⟨rfl, ⟨bins, hs, hP⟩, Keeps.refl h used⟩

/-- Marking a block that is on no list. -/
theorem Shape.mark (hs : h'.Shape bins (b :: used)) (hkeeps : Keeps h h' used)
    (hused : h.Spread used) (hn : n < 2 ^ 32) :
    (h'.setFlags b n).Shape bins (b :: used) ∧ (h'.setFlags b n).size b = h'.size b ∧
      (h'.setFlags b n).flags b = n ∧ Keeps h (h'.setFlags b n) used := by
  have hmem : b ∈ nodes bins (b :: used) := Shape.mem_used List.mem_cons_self
  have hheader := hs.spread.header b hmem
  refine ⟨hs.setFlags hmem, size_setFlags (.inl rfl), flags_setFlags_self hn, hkeeps.trans hused ?_⟩
  exact Keeps.of_block hs.spread_used List.mem_cons_self (used_ne hs) fun _ => setFlags_mem hheader

/-- A block that is taken from a list, or made, is marked as used. -/
theorem Deals.mark (hs : h'.Shape bins (b :: used)) (hP : Lists P bins) (hb : P b)
    (hkeeps : Keeps h h' used) (hused : h.Spread used) (hsize : total ≤ h'.size b)
    (htotal : memHeader < total)
    (hn : n = memMmap ∨ n = memUsed ∧ ∃ k < numLists, Sized k (h'.size b)) :
    h.Deals P used total (addr32 (b + memHeader), h'.setFlags b n) := by
  have hbounds := hs.spread.bounds (Shape.mem_used List.mem_cons_self)
  have hlt : n < 2 ^ 32 := by
    rcases hn with rfl | ⟨rfl, -⟩ <;> decide
  obtain ⟨hmarked, hself, hflags, hkeeps'⟩ := hs.mark hkeeps hused hlt
  refine .inr ⟨b, Nat.mod_eq_of_lt (by omega), hb, ⟨bins, hmarked, hP⟩, ?_, ?_, hkeeps'⟩
  · rwa [hself]
  · rwa [Usable, hself, hflags]

theorem memArenaExtendSmall_spec (hs : h.Shape bins used) (hos : FreshAnswers os h.owned)
    (hP : Lists P bins) (hplaces : Places P os) (hk : ci < memNumClasses) :
    (∃ bins', (h.memArenaExtendSmall os ci).Shape bins' used ∧ Lists P bins') ∧
      Keeps h (h.memArenaExtendSmall os ci) used := by
  have hbs := blockSize_eq hk
  have hpow : 2 ^ ci ≤ 2 ^ 9 :=
    Nat.pow_le_pow_right (by decide) (by rw [memNumClasses] at hk; omega)
  have hpos : 0 < 2 ^ ci := Nat.two_pow_pos ci
  rw [memAlign] at hbs
  have hchunk : addr32 (memBlockSizeForClass ci * 8) = 8 * memBlockSizeForClass ci := by
    rw [Nat.mul_comm]
    exact Nat.mod_eq_of_lt (by omega)
  rw [memArenaExtendSmall, memSbrk, hchunk]
  rcases hos.sbrk (8 * memBlockSizeForClass ci) with hfail | hfresh
  · simp only [hfail, if_true]
    exact ⟨⟨bins, hs, hP⟩, Keeps.refl h used⟩
  · have hne : os.sbrk (8 * memBlockSizeForClass ci) ≠ sbrkFailed := by
      have hfits := hfresh.fits
      rw [sbrkFailed]
      omega
    simp only [if_neg hne]
    obtain ⟨hs', hspare⟩ := hs.obtain hfresh (by omega)
    have hstart : ({ h with owned := ⟨os.sbrk (8 * memBlockSizeForClass ci),
          8 * memBlockSizeForClass ci⟩ :: h.owned } : UHeap).Spare (nodes bins used)
        (os.sbrk (8 * memBlockSizeForClass ci) + 0 * memBlockSizeForClass ci)
        (8 * memBlockSizeForClass ci) := by
      rw [Nat.zero_mul, Nat.add_zero]
      exact hspare
    have hnew (j : Nat) : P (os.sbrk (8 * memBlockSizeForClass ci) + j * memBlockSizeForClass ci) := by
      have hat := hplaces.sbrk _ hne (j * 2 ^ ci)
      rwa [Nat.mul_assoc, Nat.mul_comm (2 ^ ci), ← blockSize_eq hk] at hat
    obtain ⟨bins', hdone, hP', hkeeps⟩ := carve_spec hs' hk hP hnew hstart
    exact ⟨⟨bins', hdone, hP'⟩, hkeeps⟩

/-- The block that is handed out has the size of its class. -/
theorem memAllocSmall_block (hs : h.Shape bins used) (hos : FreshAnswers os h.owned)
    (hP : Lists P bins) (hplaces : Places P os) (hk : ci < memNumClasses) :
    let r := h.memAllocSmall os ci
    (r.1 = 0 ∧ (∃ bins', r.2.Shape bins' used ∧ Lists P bins') ∧ Keeps h r.2 used) ∨
      ∃ b, r.1 = addr32 (b + memHeader) ∧ P b ∧
        (∃ bins', r.2.Shape bins' (b :: used) ∧ Lists P bins') ∧
        r.2.size b = memAlign * 2 ^ ci ∧ r.2.flags b = memUsed ∧ Keeps h r.2 used := by
  have hlists : ci < numLists := by
    rw [numLists]
    omega
  unfold memAllocSmall
  -- the list is filled first where it is empty
  obtain ⟨h₁, hh₁, ⟨bins₁, hs₁, hP₁⟩, hkeeps⟩ : ∃ h₁,
      h₁ = (if h.memFreeLists ci = 0 then h.memArenaExtendSmall os ci else h) ∧
        (∃ bins₁, h₁.Shape bins₁ used ∧ Lists P bins₁) ∧ Keeps h h₁ used := by
    refine ⟨_, rfl, ?_⟩
    split
    · exact memArenaExtendSmall_spec hs hos hP hplaces hk
    · exact ⟨⟨bins, hs, hP⟩, Keeps.refl h used⟩
  simp only [← hh₁]
  split
  · exact .inl ⟨rfl, ⟨bins₁, hs₁, hP₁⟩, hkeeps⟩
  · rename_i hne
    have hchain := hs₁.chain ci hlists
    rw [head_small hk] at hchain
    obtain ⟨l, hl⟩ := hchain.ne_nil hne
    have hhead : h₁.memFreeLists ci ∈ bins₁ ci := by
      rw [hl]
      exact List.mem_cons_self
    have hsized := hs₁.sized ci hlists _ hhead
    rw [Sized, if_pos hk] at hsized
    have hP' : Lists P (Function.update bins₁ ci l) := hP₁.update fun c hc =>
      hP₁ ci hlists c (by rw [hl]; exact List.mem_cons_of_mem _ hc)
    have htaken := hs₁.pop hlists hl
    rw [setHead_small hk] at htaken
    obtain ⟨hmarked, hself, hflags, hkeeps'⟩ :=
      htaken.mark hkeeps hs.spread_used (show memUsed < 2 ^ 32 by decide)
    exact .inr ⟨_, rfl, hP₁ ci hlists _ hhead, ⟨_, hmarked, hP'⟩, hself.trans hsized, hflags, hkeeps'⟩

theorem memAllocSmall_spec (hs : h.Shape bins used) (hos : FreshAnswers os h.owned)
    (hP : Lists P bins) (hplaces : Places P os) (hk : ci < memNumClasses)
    (hfits : total ≤ memAlign * 2 ^ ci) (htotal : memHeader < total) :
    h.Deals P used total (h.memAllocSmall os ci) := by
  have hlists : ci < numLists := by
    rw [numLists]
    omega
  rcases memAllocSmall_block hs hos hP hplaces hk with
    hnull | ⟨b, hb, hPb, ⟨bins', hs', hP'⟩, hsize, hflags, hkeeps⟩
  · exact .inl hnull
  · have hbounds := hs'.spread.bounds (Shape.mem_used List.mem_cons_self)
    have hsized : Sized ci ((h.memAllocSmall os ci).2.size b) := by
      rw [Sized, if_pos hk]
      exact hsize
    refine .inr ⟨b, hb.trans (Nat.mod_eq_of_lt (by omega)), hPb, ⟨bins', hs', hP'⟩, ?_,
      .inr ⟨hflags, ci, hlists, hsized⟩, hkeeps⟩
    rwa [hsize]

/-! ### Large blocks -/

theorem fuel_suffices (hs : h.Shape bins used) (hk : k < numLists) :
    (bins k).length < 2 ^ 32 + 1 := by
  have hsub : bins k ⊆ List.range (2 ^ 32) := by
    intro c hc
    have hbounds := hs.spread.bounds (Shape.mem_bin hk hc)
    have hheader := hs.spread.header c (Shape.mem_bin hk hc)
    rw [memHeader] at hheader
    exact List.mem_range.2 (by omega)
  have hle := (List.subperm_of_subset (hs.bin_nodup hk) hsub).length_le
  rw [List.length_range] at hle
  omega

/-- What the walk over the large blocks leads to, when it ends. -/
theorem takeLarge_spec {fuel : Nat} {prev : Option Nat} (hs : h.Shape bins used)
    (hP : Lists P bins) (htotal : memHeader < total) (hl : bins memNumClasses = l₁ ++ l₂)
    (hprev : prev = l₁.getLast?) (hchain : Chain h.next b l₂) (hfuel : l₂.length < fuel) :
    ∃ r, takeLarge total fuel prev b h = .ok r ∧ ∀ found ∈ r, h.Deals P used total found := by
  have hlists : memNumClasses < numLists := by decide
  induction l₂ generalizing fuel prev b l₁ with
  | nil =>
    obtain ⟨fuel, rfl⟩ : ∃ n, fuel = n + 1 := ⟨fuel - 1, by omega⟩
    cases hchain
    exact ⟨none, by unfold takeLarge; exact if_pos rfl, by simp⟩
  | cons c l₂ ih =>
    obtain ⟨fuel, rfl⟩ : ∃ n, fuel = n + 1 := ⟨fuel - 1, by omega⟩
    obtain ⟨rfl, hne, hrest⟩ := hchain.head_cons
    unfold takeLarge
    rw [if_neg hne]
    split
    · rename_i hfits
      refine ⟨_, rfl, fun found hfound => ?_⟩
      cases hfound
      have hb : b ∈ bins memNumClasses := by
        rw [hl]
        simp
      have hsized : Sized memNumClasses (h.size b) := hs.sized _ hlists b hb
      have hrestP : ∀ c ∈ l₁ ++ l₂, P c := by
        intro c hc
        refine hP _ hlists c ?_
        rw [hl]
        simp only [List.mem_append, List.mem_cons] at hc ⊢
        tauto
      have hmark : memUsed = memMmap ∨ memUsed = memUsed ∧ ∃ k < numLists, Sized k (h.size b) :=
        .inr ⟨rfl, _, hlists, hsized⟩
      -- the head of the list, or the block behind the last one that was passed
      rcases List.eq_nil_or_concat l₁ with rfl | ⟨l₀, p, rfl⟩
      · subst hprev
        exact .mark (hs.pop hlists hl) (hP.update hrestP) (hP _ hlists b hb) (Keeps.refl h used)
          hs.spread_used hfits htotal hmark
      · rw [List.concat_eq_append] at hl hprev
        rw [List.getLast?_append, List.getLast?_singleton] at hprev
        subst hprev
        have hl' : bins memNumClasses = l₀ ++ p :: b :: l₂ := by
          rw [hl, List.append_assoc]
          rfl
        have hp : p ∈ bins memNumClasses := by
          rw [hl']
          simp
        rw [List.concat_eq_append, List.append_assoc] at hrestP
        have hself : (h.setNext p (h.next b)).size b = h.size b :=
          size_setNext (hs.spread.separate (Shape.mem_bin hlists hp) (Shape.mem_bin hlists hb))
        have hkeeps : Keeps h (h.setNext p (h.next b)) used :=
          hs.keeps_used hlists hp fun _ =>
            setNext_mem (hs.spread.header p (Shape.mem_bin hlists hp))
        rw [← hself] at hfits hmark
        exact .mark (hs.unlink hlists hl') (hP.update hrestP) (hP _ hlists b hb) hkeeps
          hs.spread_used hfits htotal hmark
    · have hpassed : bins memNumClasses = (l₁ ++ [b]) ++ l₂ := by
        rw [hl, List.append_assoc]
        rfl
      rw [List.length_cons] at hfuel
      exact ih hpassed (by simp) hrest (by omega)

/-- Memory from the kernel that becomes one block. -/
theorem Deals.make (hs : h.Shape bins used) (hP : Lists P bins) (hPa : P a) (hfresh : FreshAt h.owned a total)
    (htotal : memHeader < total)
    (hn : n = memMmap ∨ n = memUsed ∧ ∃ k < numLists, Sized k total) :
    h.Deals P used total (addr32 (a + memHeader),
      (({ h with owned := ⟨a, total⟩ :: h.owned } : UHeap).setSize a total).setFlags a n) := by
  obtain ⟨hs', hspare⟩ := hs.obtain hfresh (by omega)
  obtain ⟨hgrown, hkeeps, hself, -⟩ := hs'.grow hspare htotal.le le_rfl
  have hkeeps' : Keeps h (({ h with owned := ⟨a, total⟩ :: h.owned } : UHeap).setSize a total) used :=
    hkeeps.mono fun c hc => Shape.mem_used hc
  refine .mark hgrown hP hPa hkeeps' hs.spread_used hself.ge htotal ?_
  rwa [hself]

theorem memAllocLarge_spec (hs : h.Shape bins used) (hos : FreshAnswers os h.owned)
    (hP : Lists P bins) (hplaces : Places P os) (htotal : memAlign * 2 ^ 9 < total) :
    ∃ r, h.memAllocLarge os total = .ok r ∧ h.Deals P used total r := by
  have hlists : memNumClasses < numLists := by decide
  have hheader : memHeader < total := by
    rw [memAlign] at htotal
    rw [memHeader]
    omega
  have hstart : bins memNumClasses = [] ++ bins memNumClasses := (List.nil_append _).symm
  obtain ⟨r, hr, hfound⟩ := takeLarge_spec hs hP hheader hstart rfl (hs.chain _ hlists)
    (fuel_suffices hs hlists)
  rw [memAllocLarge]
  have hhead : h.head memNumClasses = h.memLargeFree := if_neg (lt_irrefl _)
  rw [hhead, List.getLast?_nil] at hr
  rw [hr]
  cases r with
  | some found => exact ⟨found, rfl, hfound found rfl⟩
  | none =>
    -- nothing on the list is large enough
    rcases hos.sbrk total with hfail | hfresh
    · refine ⟨(0, h), ?_, .failed hs hP⟩
      simp [memSbrk, hfail, bind, Except.bind]
    · have hne : os.sbrk total ≠ sbrkFailed := by
        have hfits := hfresh.fits
        rw [sbrkFailed]
        rw [memHeader] at hheader
        omega
      have hsized : Sized memNumClasses total := by
        rw [Sized, if_neg (lt_irrefl _)]
        exact htotal
      have hbase : P (os.sbrk total) := by
        have hat := hplaces.sbrk total hne 0
        rwa [Nat.zero_mul, Nat.add_zero] at hat
      refine ⟨_, ?_, .make hs hP hbase hfresh hheader (.inr ⟨rfl, _, hlists, hsized⟩)⟩
      simp [memSbrk, hne, bind, Except.bind]

/-! ## The calls of the program -/

theorem malloc_spec (hs : h.Shape bins used) (hos : FreshAnswers os h.owned)
    (hP : Lists P bins) (hplaces : Places P os) (hsize : size + memHeader < 2 ^ 32) :
    ∃ r, h.malloc os size = .ok r ∧ h.Deals P used (max size 1 + memHeader) r := by
  have hrequest : (if size = 0 then 1 else size) = max size 1 := by
    split <;> omega
  have htotal : addr32 (max size 1 + memHeader) = max size 1 + memHeader := by
    rw [memHeader] at hsize ⊢
    exact Nat.mod_eq_of_lt (by omega)
  have hheader : memHeader < max size 1 + memHeader := by omega
  rw [malloc, hrequest, htotal]
  generalize max size 1 + memHeader = total at hheader
  split
  · rw [memMmapCall]
    rcases hos.mmap total with hfail | hfresh
    · simp only [hfail, if_true]
      exact ⟨_, rfl, .failed hs hP⟩
    · have hne : os.mmap total ≠ 0 := hfresh.pos.ne'
      simp only [if_neg hne]
      exact ⟨_, rfl, .make hs hP (hplaces.mmap total hne) hfresh hheader (.inl rfl)⟩
  · cases hindex : memClassIndex total with
    | some k =>
      obtain ⟨hk, hfits⟩ := le_of_memClassIndex hindex
      exact ⟨_, rfl, memAllocSmall_spec hs hos hP hplaces hk hfits hheader⟩
    | none => exact memAllocLarge_spec hs hos hP hplaces (lt_of_memClassIndex hindex)

/-- A block that is given back. What is in use stays as it is. -/
theorem free_spec (os : Os) (hs : h.Shape bins (b :: used)) (hP : Lists P bins) (hPb : P b)
    (husable : h.Usable b) :
    (∃ bins', (h.free os (b + memHeader)).Shape bins' used ∧ Lists P bins') ∧
      Keeps h (h.free os (b + memHeader)) used := by
  have hmem : b ∈ nodes bins (b :: used) := Shape.mem_used List.mem_cons_self
  have hblock : sub32 (b + memHeader) memHeader = b := by
    rw [sub32_of_le (Nat.le_add_left _ _), Nat.add_sub_cancel]
  have hne : b + memHeader ≠ 0 := by
    rw [memHeader]
    omega
  rw [free, if_neg hne, hblock]
  -- a block of its own goes back to the kernel, any other one to its list
  rcases husable with hmapped | ⟨hflags, k, hk, hsized⟩
  · have hbit : h.flags b &&& memMmap ≠ 0 := by
      rw [hmapped]
      decide
    rw [if_pos hbit, memMunmap]
    have hkeeps : Keeps h { h with
        mem := h.mem.blit b (h.size b) fun k => os.unmapped (b + k) } (nodes bins used) := by
      refine Keeps.of_block hs.spread hmem (nodes_ne hs) fun x hx => ?_
      simp only [Extent.Has, extent] at hx
      have hout : x < b ∨ b + h.size b ≤ x := by omega
      change (h.mem.blit b (h.size b) fun k => os.unmapped (b + k)) x = h.mem x
      exact Mem.blit_of_not_mem hout
    exact ⟨⟨bins, hs.drop.of_keeps hkeeps (fun _ _ => rfl) rfl, hP⟩, hkeeps.mono fun _ => Shape.mem_used⟩
  · have hbit : ¬ h.flags b &&& memMmap ≠ 0 := by
      rw [hflags]
      decide
    have hself : (h.setFlags b memFree).size b = h.size b := size_setFlags (.inl rfl)
    have hlist := listOf_eq hsized hk
    obtain ⟨hfreed, hkeeps, -⟩ := hs.release hk hsized
    have hP' : Lists P (Function.update bins k (b :: bins k)) :=
      hP.update (List.forall_mem_cons.2 ⟨hPb, hP k hk⟩)
    rw [if_neg hbit]
    simp only [hself]
    rw [listOf] at hlist
    cases hindex : memClassIndex (h.size b) with
    | some c =>
      rw [hindex, Option.getD_some] at hlist
      have hsmall := (le_of_memClassIndex hindex).1
      subst hlist
      rw [setHead_small hsmall, head_small hsmall] at hfreed hkeeps
      exact ⟨⟨_, hfreed, hP'⟩, hkeeps⟩
    | none =>
      rw [hindex, Option.getD_none] at hlist
      subst hlist
      exact ⟨⟨_, hfreed, hP'⟩, hkeeps⟩

/-! ## Contents -/

/-- A copy between two ranges that do not overlap. -/
theorem copyBytes_eq {m : Mem} {dst src : Nat} (hapart : src + n ≤ dst ∨ dst + n ≤ src) :
    copyBytes dst src n m = m.blit dst n fun k => m (src + k) := by
  induction n with
  | zero =>
    funext x
    rw [copyBytes, Mem.blit_of_not_mem (by omega)]
  | succ n ih =>
    funext x
    rw [copyBytes, ih (by omega), Mem.blit_of_not_mem (show src + n < dst ∨ dst + n ≤ src + n by omega)]
    rcases Nat.lt_trichotomy x (dst + n) with hlt | rfl | hgt
    · rw [Mem.store_of_not_mem (by omega)]
      simp only [Mem.blit, hlt, Nat.lt_succ_of_lt hlt, ← Nat.add_assoc]
    · rw [Mem.blit_of_mem (by omega) (by omega), Mem.store, if_pos (by omega)]
      simp
    · rw [Mem.store_of_not_mem (by omega), Mem.blit_of_not_mem (by omega),
        Mem.blit_of_not_mem (by omega)]

theorem copyBytes_outside {m : Mem} {dst src : Nat} (hx : x < dst ∨ dst + n ≤ x) :
    copyBytes dst src n m x = m x := by
  induction n with
  | zero => rfl
  | succ n ih =>
    unfold copyBytes
    rw [Mem.store_of_not_mem (by omega), ih (by omega)]

/-- The bytes behind the header of a block are of no concern to the allocator. -/
theorem Shape.fill {m : Mem} (hs : h.Shape bins (b :: used))
    (hsame : ∀ x, x < b + memHeader ∨ b + h.size b ≤ x → m x = h.mem x) :
    ({ h with mem := m } : UHeap).Shape bins (b :: used) ∧ Keeps h { h with mem := m } used ∧
      ({ h with mem := m } : UHeap).size b = h.size b ∧
        ({ h with mem := m } : UHeap).flags b = h.flags b := by
  have hmem : b ∈ nodes bins (b :: used) := mem_used List.mem_cons_self
  have hword (n : Nat) (hn : n + 4 ≤ memHeader) : m.load (b + n) 4 = h.mem.load (b + n) 4 :=
    Mem.load_congr fun x _ hhi => hsame x (.inl (by omega))
  have hsize : ({ h with mem := m } : UHeap).size b = h.size b := hword 0 (by decide)
  have hkeeps : Keeps h { h with mem := m } (nodes bins used) := by
    refine Keeps.of_block hs.spread hmem (nodes_ne hs) fun x hx => ?_
    simp only [Extent.Has, extent] at hx
    exact hsame x (by omega)
  refine ⟨⟨?_, ?_, ?_⟩, hkeeps.mono fun c hc => mem_used hc, hsize, hword 4 (by decide)⟩
  · exact (hs.drop.of_keeps hkeeps (fun _ _ => rfl) rfl).chain
  · exact (hs.drop.of_keeps hkeeps (fun _ _ => rfl) rfl).sized
  · refine hs.spread.congr (fun c hc => ?_) rfl
    rcases List.mem_cons.1 (nodes_cons.mem_iff.1 hc) with rfl | hc
    · exact hsize
    · exact hkeeps.size hs.drop.spread hc

/-- Filling a fresh allocation behind its header. -/
theorem Deals.fill {m : Mem} (hdeals : h.Deals P used (n + memHeader) (p, h'))
    (hused : h.Spread used) (hp : p ≠ 0) (hsame : ∀ x, x < p ∨ p + n ≤ x → m x = h'.mem x) :
    h.Deals P used (n + memHeader) (p, { h' with mem := m }) := by
  rcases hdeals with ⟨hnull, -⟩ | ⟨b, hb, hPb, ⟨bins, hs, hP⟩, hfits, husable, hkeeps⟩
  · exact absurd hnull hp
  · simp only at hb hs hfits husable hkeeps
    have hbounds := hs.spread.bounds (Shape.mem_used List.mem_cons_self)
    obtain ⟨hs', hkeeps', hsize, hflags⟩ := hs.fill (m := m) fun x hx => hsame x (by omega)
    refine .inr ⟨b, hb, hPb, ⟨bins, hs', hP⟩, hfits.trans hsize.ge, ?_, ?_⟩
    · rwa [Usable, hsize, hflags]
    · exact hkeeps.trans hused hkeeps'

theorem Grants.deals {r : Nat × UHeap} (hgrants : h.Grants used total r) :
    h.Deals (fun _ => True) used total r := by
  rcases hgrants with ⟨hnull, ⟨bins, hs⟩, hkeeps⟩ | ⟨b, hb, ⟨bins, hs⟩, hfits⟩
  · exact .inl ⟨hnull, ⟨bins, hs, .trivial bins⟩, hkeeps⟩
  · exact .inr ⟨b, hb, True.intro, ⟨bins, hs, .trivial bins⟩, hfits⟩

theorem Grants.fill {m : Mem} (hgrants : h.Grants used (n + memHeader) (p, h'))
    (hused : h.Spread used) (hp : p ≠ 0) (hsame : ∀ x, x < p ∨ p + n ≤ x → m x = h'.mem x) :
    h.Grants used (n + memHeader) (p, { h' with mem := m }) :=
  (hgrants.deals.fill hused hp hsame).grants

end UHeap

end Kaku

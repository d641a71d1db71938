-- SUMMARY: The allocating lookup on a volume of owned blocks, as long as the free blocks last.
import Mathlib.Logic.Function.Basic
import Kaku.Fs.Owned
import Kaku.Fs.WriteFile

/-!
# Supplying a file with blocks

The lookup that allocates gives a file the blocks that it misses, one after the other.
How many it takes is known in advance, and which one becomes the indirect block.
-/

namespace Kaku.Mount

variable {ι : Type} [DecidableEq ι] {fs : Mount} {v v' w : Volume} {tbl : ι → Option Inode}
  {inode inode' : Inode} {k : ι} {a b i j m n q t : Nat} {rest : List Nat} {s : Option Nat}

/-! ## What a file misses -/

/-- How many of the indices from `a` up to `n` have no block. -/
def missing (fs : Mount) (v : Volume) (inode : Inode) (a n : Nat) : Nat :=
  (List.range' a (n - a)).countP fun j => v.blockPtr fs inode j = 0

/-- The blocks that are taken when the indices from `a` up to `n` get theirs. -/
def needed (fs : Mount) (v : Volume) (inode : Inode) (a n : Nat) : Nat :=
  fs.missing v inode a n + if 12 < n ∧ inode.inodeSinglyIndirectBlkPtr = 0 then 1 else 0

/-- If a block is taken, the first data block is block 0. If one is taken for the indirect
block, there is one, and it holds zeros. -/
structure Supplied (fs : Mount) (v : Volume) (inode : Inode) (a n : Nat) : Prop where
  first : fs.needed v inode a n = 0 ∨ v.sbBlockNbOfSb = 0
  clean : 12 < n → inode.inodeSinglyIndirectBlkPtr = 0 →
    ∀ q ∈ (fs.freeBlks v)[fs.missing v inode a 12]?, ∀ j < fs.blockSize / 4, fs.word v q j = 0
  spare : 12 < n → inode.inodeSinglyIndirectBlkPtr = 0 →
    (fs.freeBlks v).length ≠ fs.missing v inode a 12

/-- Every block that is taken is one that was missing. -/
def Counted (fs : Mount) (v v' : Volume) (inode inode' : Inode) (a a' i : Nat) : Prop :=
  ∀ m, i < m → (fs.freeBlks v).length + fs.needed v' inode' a' m =
    (fs.freeBlks v').length + fs.needed v inode a m

theorem missing_succ (h : a < n) : fs.missing v inode a n =
    (if v.blockPtr fs inode a = 0 then 1 else 0) + fs.missing v inode (a + 1) n := by
  rw [missing, missing, show n - a = n - (a + 1) + 1 by omega, List.range'_succ, List.countP_cons,
    Nat.add_comm]
  simp

theorem missing_of_le (h : n ≤ a) : fs.missing v inode a n = 0 := by
  rw [missing, Nat.sub_eq_zero_of_le h]
  rfl

theorem missing_congr (h : ∀ j, a ≤ j → v'.blockPtr fs inode' j = v.blockPtr fs inode j) :
    fs.missing v' inode' a n = fs.missing v inode a n := by
  apply List.countP_congr
  intro j hj
  rw [h j (List.mem_range'_1.1 hj).1]

theorem missing_mono {n' : Nat} (h : n ≤ n') : fs.missing v inode a n ≤ fs.missing v inode a n' := by
  have hsub : (List.range' a (n - a)).Sublist (List.range' a (n' - a)) := by
    obtain ⟨l, hl⟩ : ∃ l, n' - a = n - a + l := ⟨n' - a - (n - a), by omega⟩
    rw [hl, ← List.range'_append_1]
    exact List.sublist_append_left _ _
  exact hsub.countP_le

theorem needed_mono {n' : Nat} (h : n ≤ n') : fs.needed v inode a n ≤ fs.needed v inode a n' := by
  have hcount : fs.missing v inode a n ≤ fs.missing v inode a n' := missing_mono h
  rw [needed, needed]
  split_ifs <;> omega

/-- What the allocating lookup leaves when it has found block `b` for index `i`. -/
structure Looked (fs : Mount) (v v' : Volume) (tbl : ι → Option Inode) (k : ι)
    (inode inode' : Inode) (i b n : Nat) : Prop where
  owned : fs.Owned v' (Function.update tbl k (some inode'))
  ne_zero : b ≠ 0
  found : v'.blockPtr fs inode' i = b
  others : ∀ j ≠ i, v'.blockPtr fs inode' j = v.blockPtr fs inode j
  raw : ∀ x < 40, inode'.raw x = inode.raw x
  inodeId : inode'.inodeId = inode.inodeId
  frame : fs.Frame v v' {inode'.inodeSinglyIndirectBlkPtr}
  supplied : fs.Supplied v' inode' (i + 1) n
  counted : fs.Counted v v' inode inode' i (i + 1) i

/-- What it leaves when there is no block to be had. -/
structure Stopped (fs : Mount) (v v' : Volume) (tbl : ι → Option Inode) (k : ι)
    (inode inode' : Inode) : Prop where
  owned : fs.Owned v' (Function.update tbl k (some inode'))
  ptrs : ∀ j, v'.blockPtr fs inode' j = v.blockPtr fs inode j
  raw : ∀ x < 40, inode'.raw x = inode.raw x
  inodeId : inode'.inodeId = inode.inodeId
  frame : fs.Frame v v' ∅

/-! ## References of one inode of the table -/

theorem refBlk_update_self :
    fs.refBlk v (Function.update tbl k (some inode)) k s = v.fileBlk fs inode s :=
  refBlk_some (Function.update_self ..)

theorem refBlk_update_of_ne {k' : ι} (h : k' ≠ k) :
    fs.refBlk v (Function.update tbl k (some inode)) k' s = fs.refBlk v tbl k' s := by
  rw [refBlk, refBlk, Function.update_of_ne h]

theorem whose_update_self : whose (Function.update tbl k (some inode)) k = some inode.inodeId := by
  rw [whose, Function.update_self]
  rfl

theorem whose_update_of_ne {k' : ι} (h : k' ≠ k) :
    whose (Function.update tbl k (some inode)) k' = whose tbl k' := by
  rw [whose, whose, Function.update_of_ne h]

/-- An inode that keeps its number. -/
theorem whose_update (h : inode'.inodeId = inode.inodeId) (k' : ι) :
    whose (Function.update tbl k (some inode')) k' =
      whose (Function.update tbl k (some inode)) k' := by
  rcases eq_or_ne k' k with rfl | hne
  · rw [whose_update_self, whose_update_self, h]
  · rw [whose_update_of_ne hne, whose_update_of_ne hne]

/-- A file gets a block that belonged to nobody. Whoever holds an inode of the same number may
see it, too. -/
theorem Owned.point (h : fs.Owned v (Function.update tbl k (some inode))) (hm : fs.SameMeta v v')
    (hb : fs.Fresh v (Function.update tbl k (some inode)) b) (s : Option Nat)
    (hid : inode'.inodeId = inode.inodeId)
    (hself : ∀ s', v'.fileBlk fs inode' s' = if s' = s then b else v.fileBlk fs inode s')
    (hothers : ∀ k' ≠ k, ∀ s', fs.refBlk v' tbl k' s' = fs.refBlk v tbl k' s' ∨
      fs.refBlk v' tbl k' s' = b ∧ whose tbl k' = some inode.inodeId ∧ s' = s) :
    fs.Owned v' (Function.update tbl k (some inode')) := by
  refine h.set hm hb (some inode.inodeId) s (whose_update hid) fun k' s' => ?_
  rcases eq_or_ne k' k with rfl | hne
  · rw [refBlk_update_self, refBlk_update_self, whose_update_self, hself]
    split_ifs with hs
    · exact .inr ⟨rfl, rfl, hs⟩
    · exact .inl rfl
  · rw [refBlk_update_of_ne hne, refBlk_update_of_ne hne, whose_update_of_ne hne]
    exact hothers k' hne s'

/-- Behind the direct blocks only the pointer to the indirect block matters. -/
theorem blockPtr_of_single (hj : 12 ≤ j)
    (h : inode'.inodeSinglyIndirectBlkPtr = inode.inodeSinglyIndirectBlkPtr) :
    v.blockPtr fs inode' j = v.blockPtr fs inode j := by
  simp only [Volume.blockPtr, if_neg (Nat.not_lt.2 hj), h]

/-! ## The cases of the lookup -/

theorem freeBlks_cons (h : 0 < (fs.freeBlks v).length) : ∃ b rest, fs.freeBlks v = b :: rest :=
  List.exists_cons_of_length_pos h

theorem word_eq_of_frame {touched : Set Nat} (hf : fs.Frame v v' touched) (hb : fs.Data v b)
    (hout : b ∉ touched) (hj : j < fs.blockSize / 4) : fs.word v' b j = fs.word v b j := by
  apply Mem.load_congr
  intro x hlo hhi
  exact hf.data b hb hout x (by omega)

/-- A block that is there. -/
theorem needed_of_present (hi : i < m) (hne : v.blockPtr fs inode i ≠ 0) :
    fs.needed v inode (i + 1) m = fs.needed v inode i m := by
  rw [needed, needed, missing_succ hi, if_neg hne, Nat.zero_add]

theorem Supplied.of_present (hs : fs.Supplied v inode i n) (hi : i < n)
    (hne : v.blockPtr fs inode i ≠ 0) : fs.Supplied v inode (i + 1) n := by
  have hmissing : fs.missing v inode (i + 1) 12 = fs.missing v inode i 12 := by
    rcases Nat.lt_or_ge i 12 with hdirect | hge
    · rw [missing_succ hdirect, if_neg hne, Nat.zero_add]
    · rw [missing_of_le hge, missing_of_le (Nat.le_succ_of_le hge)]
  refine ⟨?_, ?_, ?_⟩
  · rw [needed_of_present hi hne]
    exact hs.first
  · rw [hmissing]
    exact hs.clean
  · rw [hmissing]
    exact hs.spare

theorem Supplied.after (hs : fs.Supplied v inode a n) : fs.Supplied (v.after t) inode a n :=
  ⟨hs.first, hs.clean, hs.spare⟩

/-- The lookup of a block that is there changes nothing. -/
theorem Looked.of_present (h : fs.Owned v (Function.update tbl k (some inode)))
    (hs : fs.Supplied v inode i n) (hi : i < n) (hne : v.blockPtr fs inode i ≠ 0) (t : Nat) :
    fs.Looked v (v.after t) tbl k inode inode i (v.blockPtr fs inode i) n where
  owned := h.same .after (fun _ => rfl) fun _ _ => rfl
  ne_zero := hne
  found := rfl
  others _ _ := rfl
  raw _ _ := rfl
  inodeId := rfl
  frame := Frame.after.mono (Set.empty_subset _)
  supplied := (hs.of_present hi hne).after
  counted m hm := by
    have hsame : fs.needed (v.after t) inode (i + 1) m = fs.needed v inode (i + 1) m := rfl
    rw [hsame, needed_of_present hm hne]
    rfl

/-- A block that has been taken for index `i` is not missing any more. -/
theorem needed_of_taken (hi : i < m) (hzero : v.blockPtr fs inode i = 0)
    (hothers : ∀ j ≠ i, v'.blockPtr fs inode' j = v.blockPtr fs inode j)
    (hsingle : inode'.inodeSinglyIndirectBlkPtr = inode.inodeSinglyIndirectBlkPtr) :
    fs.needed v' inode' (i + 1) m + 1 = fs.needed v inode i m := by
  have hafter : fs.missing v' inode' (i + 1) m = fs.missing v inode (i + 1) m :=
    missing_congr fun j hj => hothers j (by omega)
  rw [needed, needed, hafter, hsingle, missing_succ hi, if_pos hzero]
  omega

theorem Counted.of_taken (hzero : v.blockPtr fs inode i = 0) (hfree : fs.freeBlks v = b :: rest)
    (hrest : fs.freeBlks v' = rest)
    (hothers : ∀ j ≠ i, v'.blockPtr fs inode' j = v.blockPtr fs inode j)
    (hsingle : inode'.inodeSinglyIndirectBlkPtr = inode.inodeSinglyIndirectBlkPtr) :
    fs.Counted v v' inode inode' i (i + 1) i := by
  intro m hm
  have hneeded := needed_of_taken hm hzero hothers hsingle
  rw [hfree, hrest, List.length_cons]
  omega

/-- The list of free blocks after one has been taken for index `i`. -/
theorem Supplied.of_taken (hs : fs.Supplied v inode i n) (hi : i < n)
    (hzero : v.blockPtr fs inode i = 0) (hfree : fs.freeBlks v = b :: rest)
    (hrest : fs.freeBlks v' = rest) (hlayout : SameLayout v v')
    (hothers : ∀ j ≠ i, v'.blockPtr fs inode' j = v.blockPtr fs inode j)
    (hsingle : inode'.inodeSinglyIndirectBlkPtr = inode.inodeSinglyIndirectBlkPtr)
    (hwords : inode.inodeSinglyIndirectBlkPtr = 0 → i < 12 ∧
      ∀ q ∈ rest, ∀ j < fs.blockSize / 4, fs.word v' q j = fs.word v q j) :
    fs.Supplied v' inode' (i + 1) n := by
  have hneeded := needed_of_taken hi hzero hothers hsingle
  have hmissing (hdirect : i < 12) : fs.missing v inode i 12 =
      fs.missing v' inode' (i + 1) 12 + 1 := by
    rw [missing_succ hdirect, if_pos hzero, Nat.add_comm,
      missing_congr fun j hj => (hothers j (by omega)).symm]
  refine ⟨?_, fun hn hnone q hq => ?_, fun hn hnone => ?_⟩
  · rw [hlayout.blockNbOfSb]
    exact .inr (hs.first.resolve_left (by omega))
  · rw [hsingle] at hnone
    rw [hrest] at hq
    obtain ⟨hdirect, hsame⟩ := hwords hnone
    have hmem : q ∈ (fs.freeBlks v)[fs.missing v inode i 12]? := by
      rw [hfree, hmissing hdirect]
      exact hq
    intro j hj
    rw [hsame q (List.mem_of_getElem? hq) j hj]
    exact hs.clean hn hnone q hmem j hj
  · rw [hsingle] at hnone
    have hspare := hs.spare hn hnone
    rw [hfree, hmissing (hwords hnone).1, List.length_cons] at hspare
    rw [hrest]
    omega

/-- A missing block behind a direct index. -/
theorem Owned.look_direct (h : fs.Owned v (Function.update tbl k (some inode)))
    (hs : fs.Supplied v inode i n) (hi : i < n) (hdirect : i < 12)
    (hzero : inode.inodeDirectBlkPtr i = 0) (hfree : fs.freeBlks v = b :: rest) :
    ∃ b inode' v', fs.getOrAllocBlockPtr inode i v = .ok (b, inode', v') ∧
      fs.Looked v v' tbl k inode inode' i b n := by
  have hptr : v.blockPtr fs inode i = 0 := by rw [blockPtr_of_direct hdirect, hzero]
  have hcount : 0 < fs.needed v inode i n := by
    rw [needed, missing_succ hi, if_pos hptr]
    omega
  have hfirst := hs.first.resolve_left (by omega)
  obtain ⟨w, halloc, hrest, how, hfresh, hframe, hrefs⟩ := h.alloc hfirst hfree
  have hlt : b < 2 ^ 32 := hfresh.data.lt.trans Mem.load_lt
  have hself : (inode.setDirectBlkPtr i b).inodeDirectBlkPtr i = b := by
    rw [Inode.inodeDirectBlkPtr_set_self, Nat.mod_eq_of_lt hlt]
  have hsingle := inode.inodeSinglyIndirectBlkPtr_setDirect b hdirect
  have hothers : ∀ j ≠ i, w.blockPtr fs (inode.setDirectBlkPtr i b) j = v.blockPtr fs inode j := by
    intro j hj
    have hold : w.blockPtr fs inode j = v.blockPtr fs inode j := by
      have hsame := hrefs k (some j)
      rwa [refBlk_update_self, refBlk_update_self] at hsame
    rw [← hold]
    rcases Nat.lt_or_ge j 12 with hj12 | hj12
    · rw [blockPtr_of_direct hj12, blockPtr_of_direct hj12, Inode.inodeDirectBlkPtr_set_of_ne hj]
    · exact blockPtr_of_single hj12 hsingle
  have hfound : w.blockPtr fs (inode.setDirectBlkPtr i b) i = b := by
    rw [blockPtr_of_direct hdirect, hself]
  refine ⟨b, inode.setDirectBlkPtr i b, w, ?_, ?_, hfresh.ne_zero, hfound, hothers, ?_, rfl,
    hframe.mono (Set.empty_subset _), ?_, .of_taken hptr hfree hrest hothers hsingle⟩
  · rw [getOrAllocBlockPtr, if_pos hdirect, if_pos hzero, halloc, ok_bind]
    simp only [hself]
    rfl
  · refine how.point (.of_disk rfl rfl rfl) hfresh (some i) rfl (fun s' => ?_)
      fun _ _ _ => .inl rfl
    cases s' with
    | none => exact hsingle
    | some j =>
      rcases eq_or_ne j i with rfl | hj
      · rw [if_pos rfl]
        exact hfound
      · have hsame := hrefs k (some j)
        rw [refBlk_update_self, refBlk_update_self] at hsame
        rw [if_neg fun heq => hj (Option.some.inj heq), hsame]
        exact hothers j hj
  · intro x hx
    exact Mem.store_of_not_mem (by omega)
  · refine hs.of_taken hi hptr hfree hrest hframe.layout hothers hsingle fun _ => ⟨hdirect, ?_⟩
    intro q hq j hj
    have hq' : fs.Data v q := h.free q (hfree ▸ List.mem_cons_of_mem b hq)
    exact word_eq_of_frame hframe hq' (Set.notMem_empty q) hj

/-- The words of the block that is written back when one word has been set. -/
theorem load_store_blit {old src : Mem} {x : Nat} (hj : j < m / 4)
    (hx : x < 256 ^ 4) : ((old.blit 0 m src).store (4 * i) 4 x).load (4 * j) 4 =
      if j = i then x else src.load (4 * j) 4 := by
  split
  · rename_i heq
    rw [heq, Mem.load_store_self, Nat.mod_eq_of_lt hx]
  · rename_i hne
    rw [Mem.load_store_of_disjoint (by omega)]
    apply Mem.load_congr
    intro y _ hy
    rw [Mem.blit_of_mem (by omega) (by omega), Nat.sub_zero]

/-- A missing word: the indirect block is written back with a new block behind it. -/
theorem getOrAllocIndirect_of_missing (hg : fs.Good) (hin : i < fs.blockSize / 4)
    (hword : fs.word v inode.inodeSinglyIndirectBlkPtr i = 0) (hb : b < 256 ^ 4)
    (halloc : fs.allocBlock 0 (v.after (v.transfers + 1)) = .ok (b, w)) :
    ∃ buf v', fs.getOrAllocIndirect inode i v = .ok (b, v') ∧
      fs.Written w inode.inodeSinglyIndirectBlkPtr buf v' ∧
      ∀ j < fs.blockSize / 4, buf.load (4 * j) 4 =
        if j = i then b else fs.word v inode.inodeSinglyIndirectBlkPtr j := by
  have hold : ((fs.stale v.transfers).blit 0 fs.blockSize
      (v.blk fs inode.inodeSinglyIndirectBlkPtr)).load (4 * i) 4 = 0 := by
    refine (Mem.load_congr fun x _ hx => ?_).trans hword
    rw [Mem.blit_of_mem (by omega) (by omega), Nat.sub_zero]
  generalize hbuf : ((fs.stale v.transfers).blit 0 fs.blockSize
    (v.blk fs inode.inodeSinglyIndirectBlkPtr)).store (4 * i) 4 b = buf
  have hwords (j) (hj : j < fs.blockSize / 4) : buf.load (4 * j) 4 =
      if j = i then b else fs.word v inode.inodeSinglyIndirectBlkPtr j := by
    rw [← hbuf]
    exact load_store_blit hj hb
  refine ⟨buf, { w with
    disk := w.disk.blit (fs.blkAddr inode.inodeSinglyIndirectBlkPtr) fs.blockSize buf
    transfers := w.transfers + 1 }, ?_, ⟨rfl, rfl, rfl⟩, hwords⟩
  simp only [getOrAllocIndirect, hg.readBlk, hold, if_true]
  rw [show ({ v with transfers := v.transfers + 1 } : Volume) = v.after (v.transfers + 1) from rfl,
    halloc, ok_bind]
  simp only [hbuf, hg.writeBlk, hwords i hin, if_true]
  rfl

/-- An inode whose indirect block has got a new word. -/
theorem fileBlk_of_word {buf : Mem} (hsingle : inode.inodeSinglyIndirectBlkPtr = q) (hq : q ≠ 0)
    (hge : 12 ≤ i) (hin : i - 12 < fs.blockSize / 4) (hwritten : fs.Written w q buf v')
    (hwords : ∀ j < fs.blockSize / 4, buf.load (4 * j) 4 =
      if j = i - 12 then b else fs.word v q j) :
    v'.fileBlk fs inode s = if s = some i then b else v.fileBlk fs inode s := by
  cases s with
  | none => rfl
  | some j =>
    simp only [Option.some.injEq, Volume.fileBlk]
    rcases Nat.lt_or_ge j 12 with hj12 | hj12
    · rw [if_neg (by omega), blockPtr_of_direct hj12, blockPtr_of_direct hj12]
    rcases Nat.lt_or_ge j (12 + fs.blockSize / 4) with hjin | hout
    · have hfound : fs.word v' q (j - 12) = buf.load (4 * (j - 12)) 4 := by
        apply Mem.load_congr
        intro x _ hx
        exact Volume.blk_of_written hwritten.disk (by omega)
      rw [blockPtr_of_indirect hj12 hjin, blockPtr_of_indirect hj12 hjin, hsingle, if_neg hq,
        if_neg hq, hfound, hwords _ (by omega)]
      simp only [show j - 12 = i - 12 ↔ j = i by omega]
    · rw [if_neg (by omega), blockPtr_of_large hout, blockPtr_of_large hout]

/-- A missing word of the indirect block. -/
theorem Owned.look_word (h : fs.Owned v (Function.update tbl k (some inode)))
    (hs : fs.Supplied v inode i n) (hi : i < n) (hge : 12 ≤ i) (hlt : i < fs.maxBlocks)
    (hsingle : inode.inodeSinglyIndirectBlkPtr ≠ 0) (hzero : v.blockPtr fs inode i = 0)
    (hfree : fs.freeBlks v = b :: rest) :
    ∃ b v', fs.getOrAllocIndirect inode (i - 12) v = .ok (b, v') ∧
      fs.Looked v v' tbl k inode inode i b n := by
  have hcount : 0 < fs.needed v inode i n := by
    rw [needed, missing_succ hi, if_pos hzero]
    omega
  rw [maxBlocks] at hlt
  have hin : i - 12 < fs.blockSize / 4 := by omega
  have hword : fs.word v inode.inodeSinglyIndirectBlkPtr (i - 12) = 0 := by
    rwa [blockPtr_of_indirect hge hlt, if_neg hsingle] at hzero
  have hfirst := hs.first.resolve_left (by omega)
  have hread : fs.Owned (v.after (v.transfers + 1)) (Function.update tbl k (some inode)) :=
    h.same .after (fun _ => rfl) fun _ _ => rfl
  obtain ⟨w, halloc, hrest, how, hfresh, hafter, hrefs⟩ := hread.alloc hfirst hfree
  have hclock : fs.Frame v (v.after (v.transfers + 1)) ∅ := .after
  have hframe : fs.Frame v w ∅ := (hclock.trans hafter).mono (by simp)
  have hb : b < 256 ^ 4 := hfresh.data.lt.trans Mem.load_lt
  obtain ⟨buf, v', hget, hwritten, hwords⟩ :=
    getOrAllocIndirect_of_missing h.good hin hword hb halloc
  have hroot : fs.refBlk w (Function.update tbl k (some inode)) k none =
      inode.inodeSinglyIndirectBlkPtr := refBlk_update_self
  have hdata : fs.Data w inode.inodeSinglyIndirectBlkPtr := by
    have hdata := how.data k none
    rw [hroot] at hdata
    exact hdata hsingle
  have hmeta := hwritten.sameMeta how.image hdata.outside
  have hframe' := hwritten.frame how.image how.tables hdata
  have hself (s : Option Nat) : w.fileBlk fs inode s = v.fileBlk fs inode s := by
    have hsame := hrefs k s
    rwa [refBlk_update_self, refBlk_update_self] at hsame
  have hnow (s : Option Nat) := fileBlk_of_word (s := s) rfl hsingle hge hin hwritten hwords
  have hothers : ∀ j ≠ i, v'.blockPtr fs inode j = v.blockPtr fs inode j := by
    intro j hj
    have hsame := hnow (some j)
    rwa [if_neg fun heq => hj (Option.some.inj heq)] at hsame
  refine ⟨b, v', hget, ?_, hfresh.ne_zero, ?_, hothers, fun _ _ => rfl, rfl, ?_, ?_, ?_⟩
  · refine how.point hmeta hfresh (some i) rfl (fun s => ?_) fun k' hk' s => ?_
    · rw [hnow, hself]
    · have hsame := hrefs k' s
      rw [refBlk_update_of_ne hk', refBlk_update_of_ne hk'] at hsame
      rw [hsame]
      rcases eq_or_ne (fs.refBlk w tbl k' none) inode.inodeSinglyIndirectBlkPtr with hshared | hne
      · -- somebody holds an inode with the same indirect block, which has the same number
        have hboth := how.once k none k' none (hroot ▸ hsingle)
          (by rw [hroot, refBlk_update_of_ne hk', hshared])
        rw [whose_update_self, whose_update_of_ne hk'] at hboth
        cases htbl : tbl k' with
        | none => exact absurd (hshared.symm.trans (refBlk_none htbl)) hsingle
        | some inode₂ =>
          rw [refBlk_some htbl] at hshared
          rw [refBlk_some htbl, refBlk_some htbl,
            fileBlk_of_word hshared hsingle hge hin hwritten hwords]
          split_ifs with hs
          · exact .inr ⟨rfl, (Prod.mk.inj hboth).1.symm, hs⟩
          · exact .inl rfl
      · have hkept := how.refBlk_frame (k := k') (s := s) hframe' fun hin => by
          rw [refBlk_update_of_ne hk'] at hin
          exact hne hin
        rw [refBlk_update_of_ne hk', refBlk_update_of_ne hk'] at hkept
        exact .inl (hkept.trans hsame)
  · have hsame := hnow (some i)
    rwa [if_pos rfl] at hsame
  · exact (hframe.trans hframe').mono (by simp)
  · refine hs.of_taken hi hzero hfree ?_ (hframe.layout.trans hframe'.layout) hothers rfl
      fun hnone => absurd hnone hsingle
    rw [hmeta.freeBlks, hrest]
  · exact .of_taken hzero hfree (by rw [hmeta.freeBlks, hrest]) hothers rfl

/-- A new indirect block full of zeros. -/
structure NewIndirect (fs : Mount) (v w : Volume) (tbl : ι → Option Inode) (k : ι) (inode : Inode)
    (q : Nat) (rest : List Nat) : Prop where
  alloc : fs.allocBlock 0 v = .ok (q, w)
  single : (inode.setSinglyIndirectBlkPtr q).inodeSinglyIndirectBlkPtr = q
  ne_zero : q ≠ 0
  owned : fs.Owned w (Function.update tbl k (some (inode.setSinglyIndirectBlkPtr q)))
  ptrs : ∀ j, w.blockPtr fs (inode.setSinglyIndirectBlkPtr q) j = v.blockPtr fs inode j
  frame : fs.Frame v w ∅
  free : fs.freeBlks w = rest

theorem Owned.new_indirect (h : fs.Owned v (Function.update tbl k (some inode)))
    (hs : fs.Supplied v inode i n) (hi : i < n) (hge : 12 ≤ i)
    (hsingle : inode.inodeSinglyIndirectBlkPtr = 0) :
    ∃ q w rest, fs.freeBlks v = q :: rest ∧ fs.NewIndirect v w tbl k inode q rest := by
  have hcount : 0 < fs.needed v inode i n := by
    rw [needed, if_pos ⟨by omega, hsingle⟩]
    omega
  have hfirst := hs.first.resolve_left (by omega)
  have hspare := hs.spare (by omega) hsingle
  rw [missing_of_le hge] at hspare
  obtain ⟨q, rest, hfree⟩ := freeBlks_cons (Nat.pos_of_ne_zero hspare)
  obtain ⟨w, halloc, hrest, how, hfresh, hframe, hrefs⟩ := h.alloc hfirst hfree
  have hq : q < 2 ^ 32 := hfresh.data.lt.trans Mem.load_lt
  have hclean (j) (hj : j < fs.blockSize / 4) : fs.word w q j = 0 := by
    have hdata : fs.Data v q := h.free q (hfree ▸ List.mem_cons_self)
    rw [word_eq_of_frame hframe hdata (Set.notMem_empty q) hj]
    refine hs.clean (by omega) hsingle q ?_ j hj
    rw [missing_of_le hge, hfree]
    rfl
  have hnew : (inode.setSinglyIndirectBlkPtr q).inodeSinglyIndirectBlkPtr = q := by
    rw [Inode.inodeSinglyIndirectBlkPtr_setSingly, Nat.mod_eq_of_lt hq]
  have hold (s : Option Nat) : w.fileBlk fs inode s = v.fileBlk fs inode s := by
    have hsame := hrefs k s
    rwa [refBlk_update_self, refBlk_update_self] at hsame
  have hptrs (j : Nat) : w.blockPtr fs (inode.setSinglyIndirectBlkPtr q) j =
      w.blockPtr fs inode j := by
    rcases Nat.lt_or_ge j 12 with hj12 | hj12
    · rw [blockPtr_of_direct hj12, blockPtr_of_direct hj12, Inode.inodeDirectBlkPtr_setSingly hj12]
    rcases Nat.lt_or_ge j (12 + fs.blockSize / 4) with hin | hout
    · rw [blockPtr_of_indirect hj12 hin, blockPtr_of_indirect hj12 hin, hnew,
        if_neg hfresh.ne_zero, if_pos hsingle, hclean _ (by omega)]
    · rw [blockPtr_of_large hout, blockPtr_of_large hout]
  refine ⟨q, w, rest, hfree, halloc, hnew, hfresh.ne_zero, ?_,
    fun j => (hptrs j).trans (hold (some j)), hframe, hrest⟩
  refine how.point (.of_disk rfl rfl rfl) hfresh none rfl (fun s => ?_) fun _ _ _ => .inl rfl
  cases s with
  | none => exact hnew
  | some j => exact hptrs j

namespace NewIndirect

variable (h : fs.NewIndirect v w tbl k inode q rest)
include h

theorem supplied (hs : fs.Supplied v inode i n) (hi : i < n) (hge : 12 ≤ i)
    (hsingle : inode.inodeSinglyIndirectBlkPtr = 0) :
    fs.Supplied w (inode.setSinglyIndirectBlkPtr q) i n := by
  have hnot : (inode.setSinglyIndirectBlkPtr q).inodeSinglyIndirectBlkPtr ≠ 0 := by
    rw [h.single]
    exact h.ne_zero
  have hneeded : fs.needed v inode i n ≠ 0 := by
    rw [needed, if_pos ⟨by omega, hsingle⟩]
    omega
  refine ⟨?_, fun _ hnone => absurd hnone hnot, fun _ hnone => absurd hnone hnot⟩
  rw [h.frame.layout.blockNbOfSb]
  exact .inr (hs.first.resolve_left hneeded)

theorem counted (hge : 12 ≤ i) (hsingle : inode.inodeSinglyIndirectBlkPtr = 0)
    (hfree : fs.freeBlks v = q :: rest) :
    fs.Counted v w inode (inode.setSinglyIndirectBlkPtr q) i i i := by
  intro m hm
  have hmissing : fs.missing w (inode.setSinglyIndirectBlkPtr q) i m = fs.missing v inode i m :=
    missing_congr fun j _ => h.ptrs j
  rw [needed, needed, hmissing, h.single, if_neg fun hnone => h.ne_zero hnone.2,
    if_pos ⟨by omega, hsingle⟩, hfree, h.free, List.length_cons]
  omega

/-- What is found behind the new indirect block. -/
theorem looked (hl : fs.Looked w v' tbl k (inode.setSinglyIndirectBlkPtr q) inode' i b n)
    (hcount : fs.Counted v w inode (inode.setSinglyIndirectBlkPtr q) i i i) :
    fs.Looked v v' tbl k inode inode' i b n where
  owned := hl.owned
  ne_zero := hl.ne_zero
  found := hl.found
  others j hj := (hl.others j hj).trans (h.ptrs j)
  raw x hx := (hl.raw x hx).trans (Mem.store_of_not_mem (by omega))
  inodeId := hl.inodeId
  frame := (h.frame.trans hl.frame).mono (by simp)
  supplied := hl.supplied
  counted m hm := by
    have hfirst := hcount m hm
    have hsecond := hl.counted m hm
    omega

end NewIndirect

/-! ## No free block -/

/-- The indirect block is written back as it was read. -/
theorem getOrAllocIndirect_of_none (hg : fs.Good)
    (hin : i < fs.blockSize / 4) (hword : fs.word v inode.inodeSinglyIndirectBlkPtr i = 0)
    (halloc : fs.allocBlock 0 (v.after (v.transfers + 1)) = .ok (0, v.after t)) :
    fs.getOrAllocIndirect inode i v = .ok (0, v.after (t + 1)) := by
  have hold : ((fs.stale v.transfers).blit 0 fs.blockSize
      (v.blk fs inode.inodeSinglyIndirectBlkPtr)).load (4 * i) 4 = 0 := by
    refine (Mem.load_congr fun x _ hx => ?_).trans hword
    rw [Mem.blit_of_mem (by omega) (by omega), Nat.sub_zero]
  have hstore : ((fs.stale v.transfers).blit 0 fs.blockSize
      (v.blk fs inode.inodeSinglyIndirectBlkPtr)).store (4 * i) 4 0 =
      (fs.stale v.transfers).blit 0 fs.blockSize (v.blk fs inode.inodeSinglyIndirectBlkPtr) := by
    have hsame := Mem.store_load_self (m := (fs.stale v.transfers).blit 0 fs.blockSize
      (v.blk fs inode.inodeSinglyIndirectBlkPtr)) (a := 4 * i) (n := 4)
    rwa [hold] at hsame
  have hdisk : v.disk.blit (fs.blkAddr inode.inodeSinglyIndirectBlkPtr) fs.blockSize
      ((fs.stale v.transfers).blit 0 fs.blockSize (v.blk fs inode.inodeSinglyIndirectBlkPtr)) =
      v.disk := by
    funext x
    rw [Mem.blit]
    split_ifs with hx
    · rw [Mem.blit_of_mem (by omega) (by omega), Volume.blk, Nat.sub_zero, Nat.add_sub_cancel' hx.1]
    · rfl
  simp only [getOrAllocIndirect, hg.readBlk, hold, if_true]
  rw [show ({ v with transfers := v.transfers + 1 } : Volume) = v.after (v.transfers + 1) from rfl,
    halloc, ok_bind]
  simp only [hstore, hg.writeBlk, Volume.after_disk, hdisk, hold]
  rfl

theorem Stopped.after (h : fs.Owned v (Function.update tbl k (some inode))) :
    fs.Stopped v (v.after t) tbl k inode inode where
  owned := h.same .after (fun _ => rfl) fun _ _ => rfl
  ptrs _ := rfl
  raw _ _ := rfl
  inodeId := rfl
  frame := .after

theorem Owned.stop_word (h : fs.Owned v (Function.update tbl k (some inode))) (hge : 12 ≤ i)
    (hlt : i < fs.maxBlocks) (hsingle : inode.inodeSinglyIndirectBlkPtr ≠ 0)
    (hzero : v.blockPtr fs inode i = 0) (hfree : fs.freeBlks v = []) :
    ∃ t, fs.getOrAllocIndirect inode (i - 12) v = .ok (0, v.after t) := by
  rw [maxBlocks] at hlt
  rw [blockPtr_of_indirect hge hlt, if_neg hsingle] at hzero
  have hread : fs.Owned (v.after (v.transfers + 1)) (Function.update tbl k (some inode)) :=
    h.same .after (fun _ => rfl) fun _ _ => rfl
  obtain ⟨t, halloc⟩ := hread.alloc_none hfree
  exact ⟨t + 1, getOrAllocIndirect_of_none h.good (by omega) hzero halloc⟩

/-! ## The lookup -/

/-- What a lookup comes to: a block, or none if there are not enough. -/
def Looks (fs : Mount) (v : Volume) (tbl : ι → Option Inode) (k : ι) (inode : Inode) (i n : Nat) :
    Prop :=
  (∃ b inode' v', fs.getOrAllocBlockPtr inode i v = .ok (b, inode', v') ∧
      fs.Looked v v' tbl k inode inode' i b n) ∨
    (fs.freeBlks v).length < fs.needed v inode i (i + 1) ∧
      ∃ inode' v', fs.getOrAllocBlockPtr inode i v = .ok (0, inode', v') ∧
        fs.Stopped v v' tbl k inode inode'

theorem Owned.looks_direct (h : fs.Owned v (Function.update tbl k (some inode)))
    (hs : fs.Supplied v inode i n) (hi : i < n) (hdirect : i < 12) :
    fs.Looks v tbl k inode i n := by
  have hptr : v.blockPtr fs inode i = inode.inodeDirectBlkPtr i := blockPtr_of_direct hdirect
  rcases eq_or_ne (inode.inodeDirectBlkPtr i) 0 with hzero | hne
  · rcases hfree : fs.freeBlks v with _ | ⟨b, rest⟩
    · refine .inr ⟨?_, inode, ?_⟩
      · rw [hfree, needed, missing_succ (Nat.lt_succ_self i), if_pos (hptr.trans hzero)]
        exact Nat.lt_of_lt_of_le Nat.one_pos (by omega)
      · obtain ⟨t, halloc⟩ := h.alloc_none hfree
        refine ⟨v.after t, ?_, .after h⟩
        have hsame : inode.setDirectBlkPtr i 0 = inode := by
          have hraw := Mem.store_load_self (m := inode.raw) (a := 40 + 4 * i) (n := 4)
          rw [show inode.raw.load (40 + 4 * i) 4 = 0 from hzero] at hraw
          rw [Inode.setDirectBlkPtr, hraw]
        rw [Mount.getOrAllocBlockPtr, if_pos hdirect, if_pos hzero, halloc, ok_bind]
        simp only [hsame, hzero]
        rfl
    · exact .inl (h.look_direct hs hi hdirect hzero hfree)
  · have hlooked := Looked.of_present h hs hi (hptr ▸ hne) v.transfers
    rw [hptr] at hlooked
    refine .inl ⟨_, inode, v, ?_, hlooked⟩
    rw [Mount.getOrAllocBlockPtr, if_pos hdirect, if_neg hne]
    rfl

section Indirect

variable (h : fs.Owned v (Function.update tbl k (some inode))) (hs : fs.Supplied v inode i n)
  (hi : i < n) (hge : 12 ≤ i) (hlt : i < fs.maxBlocks)
include h hs hi hge hlt

theorem Owned.looks_new_indirect (hsingle : inode.inodeSinglyIndirectBlkPtr = 0) :
    fs.Looks v tbl k inode i n := by
  have hin : ¬ fs.blockSize / 4 ≤ i - 12 := by
    rw [maxBlocks] at hlt
    omega
  have hzero : v.blockPtr fs inode i = 0 := by rw [blockPtr_of_indirect hge hlt, if_pos hsingle]
  obtain ⟨q, w, rest, hfree, hnew⟩ := h.new_indirect hs hi hge hsingle
  have hsingle' : (inode.setSinglyIndirectBlkPtr q).inodeSinglyIndirectBlkPtr ≠ 0 := by
    rw [hnew.single]
    exact hnew.ne_zero
  have hzero' := (hnew.ptrs i).trans hzero
  rcases hrest : rest with _ | ⟨b, rest'⟩
  · -- the last free block has become the indirect block
    obtain ⟨t, hget⟩ := hnew.owned.stop_word hge hlt hsingle' hzero' (hnew.free.trans hrest)
    refine .inr ⟨?_, inode.setSinglyIndirectBlkPtr q, w.after t, ?_, ?_⟩
    · rw [hfree, hrest, needed, missing_succ (Nat.lt_succ_self i), if_pos hzero,
        if_pos ⟨by omega, hsingle⟩]
      simp only [List.length_singleton]
      omega
    · rw [Mount.getOrAllocBlockPtr, if_neg (by omega), if_neg hin, if_pos hsingle, hnew.alloc,
        ok_bind]
      simp only [hget]
      rfl
    · have hstopped := Stopped.after (t := t) hnew.owned
      exact ⟨hstopped.owned, hnew.ptrs, fun x hx => Mem.store_of_not_mem (by omega), rfl,
        (hnew.frame.trans hstopped.frame).mono (by simp)⟩
  · obtain ⟨b', v', hget, hlooked⟩ := hnew.owned.look_word (hnew.supplied hs hi hge hsingle) hi hge hlt
      hsingle' hzero' (hnew.free.trans hrest)
    refine .inl ⟨b', inode.setSinglyIndirectBlkPtr q, v', ?_,
      hnew.looked hlooked (hnew.counted hge hsingle hfree)⟩
    rw [Mount.getOrAllocBlockPtr, if_neg (by omega), if_neg hin, if_pos hsingle, hnew.alloc, ok_bind]
    simp only [hget]
    rfl

theorem Owned.looks_indirect (hsingle : inode.inodeSinglyIndirectBlkPtr ≠ 0) :
    fs.Looks v tbl k inode i n := by
  have hin : ¬ fs.blockSize / 4 ≤ i - 12 := by
    rw [maxBlocks] at hlt
    omega
  have hword : v.blockPtr fs inode i = fs.word v inode.inodeSinglyIndirectBlkPtr (i - 12) := by
    rw [blockPtr_of_indirect hge hlt, if_neg hsingle]
  have hlookup (r : Nat × Volume) (hget : fs.getOrAllocIndirect inode (i - 12) v = .ok r) :
      fs.getOrAllocBlockPtr inode i v = .ok (r.1, inode, r.2) := by
    rw [Mount.getOrAllocBlockPtr, if_neg (by omega), if_neg hin, if_neg hsingle, hget]
    rfl
  rcases eq_or_ne (v.blockPtr fs inode i) 0 with hzero | hne
  · rcases hfree : fs.freeBlks v with _ | ⟨b, rest⟩
    · obtain ⟨t, hget⟩ := h.stop_word hge hlt hsingle hzero hfree
      refine .inr ⟨?_, inode, v.after t, hlookup _ hget, .after h⟩
      rw [hfree, needed, missing_succ (Nat.lt_succ_self i), if_pos hzero]
      exact Nat.lt_of_lt_of_le Nat.one_pos (by omega)
    · obtain ⟨b', v', hget, hlooked⟩ := h.look_word hs hi hge hlt hsingle hzero hfree
      exact .inl ⟨b', inode, v', hlookup _ hget, hlooked⟩
  · obtain ⟨b, v', hget, hwords, hsame, -⟩ := getOrAllocIndirect_spec h.image h.good.reliable inode
      (show i - 12 < fs.blockSize / 4 by omega)
    obtain rfl := hsame (hword ▸ hne)
    have hb : v.blockPtr fs inode i = b := by
      have hfound := hwords (i - 12) (by omega)
      rw [if_pos rfl] at hfound
      exact hword.trans hfound
    have hlooked := Looked.of_present h hs hi hne (v.transfers + 1)
    rw [hb] at hlooked
    exact .inl ⟨b, inode, _, hlookup _ hget, hlooked⟩

end Indirect

/-- The lookup finds a block for every index of a file, as long as there are free blocks. -/
theorem Owned.looks (h : fs.Owned v (Function.update tbl k (some inode)))
    (hs : fs.Supplied v inode i n) (hi : i < n) (hlt : i < fs.maxBlocks) :
    fs.Looks v tbl k inode i n := by
  rcases Nat.lt_or_ge i 12 with hdirect | hge
  · exact h.looks_direct hs hi hdirect
  rcases eq_or_ne inode.inodeSinglyIndirectBlkPtr 0 with hsingle | hsingle
  · exact h.looks_new_indirect hs hi hge hlt hsingle
  · exact h.looks_indirect hs hi hge hlt hsingle

end Kaku.Mount

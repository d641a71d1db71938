-- SUMMARY: The free lists of the heap and the blocks on none of them tile the heap's range, through every move of an allocation or a free.
import Kaku.Lib.Buddy
import Kaku.Lib.Chain
import Kaku.Lib.Tiling
import Kaku.Mm.Heap
import Mathlib.Data.List.Pairwise
import Mathlib.Data.Nat.Bitwise

/-!
# The heap is tiled

`KHeap.Shape` describes the heap while a call works on it: the free lists, and
the blocks that are on none of them, which are the live ones and those the call
is moving. Each move keeps the tiling; allocation and freeing are sequences of
moves.
-/

namespace Kaku

def blockLen (order : Nat) : Nat := allocMinBytesBlock <<< order

def heapLen : Nat := 4 * mib

theorem blockLen_eq (o : Nat) : blockLen o = 2 ^ (o + 4) := by
  rw [blockLen, allocMinBytesBlock, Nat.shiftLeft_eq, Nat.pow_add, Nat.mul_comm]

theorem blockLen_succ (o : Nat) : blockLen (o + 1) = blockLen o + blockLen o := by
  rw [blockLen_eq, blockLen_eq, show o + 1 + 4 = o + 4 + 1 by omega, Nat.pow_succ]
  omega

theorem blockLen_ge (o : Nat) : 16 ≤ blockLen o := by
  rw [blockLen_eq, Nat.pow_add]
  have hpos : 0 < 2 ^ o := Nat.two_pow_pos o
  omega

theorem blockLen_mono {o p : Nat} (h : o ≤ p) : blockLen o ≤ blockLen p := by
  rw [blockLen_eq, blockLen_eq]
  exact Nat.pow_le_pow_right (by omega) (by omega)

theorem sizeForOrder_eq {o : Nat} (h : o < allocOrders) : sizeForOrder o = blockLen o := by
  have hle : blockLen o ≤ blockLen 18 := by
    apply blockLen_mono
    simp only [allocOrders] at h
    omega
  have htop : blockLen 18 = 4194304 := rfl
  rw [sizeForOrder, addr32, ← blockLen, Nat.mod_eq_of_lt]
  omega

/-- The buddy of a block: the neighbour it shares a block of twice the size with. -/
theorem xor_blockLen {o q : Nat} :
    (blockLen o * q) ^^^ blockLen o =
      if q % 2 = 0 then blockLen o * q + blockLen o else blockLen o * q - blockLen o := by
  have hxor : (blockLen o * q) ^^^ blockLen o = blockLen o * (q ^^^ 1) := by
    have hdist := Nat.shiftLeft_xor_distrib (a := q) (b := 1) (i := o + 4)
    rw [Nat.shiftLeft_eq, Nat.shiftLeft_eq, Nat.shiftLeft_eq, Nat.one_mul, ← blockLen_eq] at hdist
    rw [Nat.mul_comm _ q, ← hdist, Nat.mul_comm]
  rw [hxor]
  by_cases heven : q % 2 = 0
  · rw [if_pos heven, Nat.xor_one_of_even (Nat.even_iff.2 heven), Nat.mul_succ]
  · rw [if_neg heven, Nat.xor_one_of_odd (Nat.odd_iff.2 (by omega)), Nat.mul_sub_one]

/-! ## Blocks -/

def Block.extent (b : Block) : Extent := ⟨b.base, blockLen b.order⟩

def freeList (free : Nat → List Nat) (o : Nat) : List Block := (free o).map fun a => ⟨a, o⟩

/-- All blocks: those on the free lists, and the rest. -/
def blocks (free : Nat → List Nat) (rest : List Block) : List Block :=
  (List.range allocOrders).flatMap (freeList free) ++ rest

section Blocks

variable {free : Nat → List Nat} {rest : List Block} {b : Block} {a o : Nat} {l : List Nat}

theorem mem_blocks_free (ho : o < allocOrders) (ha : a ∈ free o) : ⟨a, o⟩ ∈ blocks free rest := by
  refine List.mem_append_left _ (List.mem_flatMap.2 ⟨o, List.mem_range.2 ho, ?_⟩)
  exact List.mem_map.2 ⟨a, ha, rfl⟩

theorem mem_blocks_rest (hb : b ∈ rest) : b ∈ blocks free rest := List.mem_append_right _ hb

theorem blocks_cons : (blocks free (b :: rest)).Perm (b :: blocks free rest) := List.perm_middle

/-- Taking an address off a free list leaves its block with the rest. -/
theorem blocks_take (ho : o < allocOrders) (hl : (free o).Perm (a :: l)) :
    (blocks free rest).Perm (blocks (updFree free o l) (⟨a, o⟩ :: rest)) := by
  have hfree : ((List.range allocOrders).flatMap (freeList free)).Perm
      (⟨a, o⟩ :: (List.range allocOrders).flatMap (freeList (updFree free o l))) := by
    apply flatMap_update_perm ho
    · have hmap := hl.map fun x => (⟨x, o⟩ : Block)
      simpa [freeList, updFree] using hmap
    · intro j hj
      simp [freeList, updFree, hj]
  refine (hfree.append_right rest).trans ?_
  exact blocks_cons.symm

end Blocks

/-! ## The shape of the heap -/

namespace KHeap

structure Shape (h : KHeap) (free : Nat → List Nat) (rest : List Block) : Prop where
  room : 0 < h.heapStart ∧ h.heapStart + heapLen ≤ 2 ^ 32
  chain : ∀ o < allocOrders, Chain h.next (h.freeBlocks o) (free o)
  order : ∀ b ∈ blocks free rest, b.order < allocOrders
  aligned : ∀ b ∈ blocks free rest, blockLen b.order ∣ b.base - h.heapStart
  tiles : Tiles h.heapStart (h.heapStart + heapLen) ((blocks free rest).map Block.extent)

/-- The bytes of these blocks are the same in both memories. -/
def Keeps (m m' : Mem) (bs : List Block) : Prop :=
  ∀ b ∈ bs, ∀ x, b.extent.Has x → m' x = m x

theorem Keeps.trans {m₁ m₂ m₃ : Mem} {bs : List Block} (h : Keeps m₁ m₂ bs) (h' : Keeps m₂ m₃ bs) :
    Keeps m₁ m₃ bs := fun b hb x hx => (h' b hb x hx).trans (h b hb x hx)

theorem Keeps.refl (m : Mem) (bs : List Block) : Keeps m m bs := fun _ _ _ _ => rfl

variable {h h' : KHeap} {free free' : Nat → List Nat} {rest rest' : List Block} {b c : Block}
variable {a o p t v : Nat} {l l₁ l₂ : List Nat} {m : Mem}

namespace Shape

/-- Moving blocks between the lists and the rest keeps the tiling. -/
theorem move (hs : h.Shape free rest) (hstart : h'.heapStart = h.heapStart)
    (hperm : (blocks free rest).Perm (blocks free' rest'))
    (hchain : ∀ o < allocOrders, Chain h'.next (h'.freeBlocks o) (free' o)) :
    h'.Shape free' rest' where
  room := hstart ▸ hs.room
  chain := hchain
  order := fun b hb => hs.order b (hperm.mem_iff.2 hb)
  aligned := fun b hb => hstart ▸ hs.aligned b (hperm.mem_iff.2 hb)
  tiles := hstart ▸ hs.tiles.perm (hperm.map _)

theorem perm (hs : h.Shape free rest) (hp : rest.Perm rest') : h.Shape free rest' :=
  hs.move rfl (hp.append_left _) hs.chain

theorem bounds (hs : h.Shape free rest) (hb : b ∈ blocks free rest) :
    h.heapStart ≤ b.base ∧ b.base + blockLen b.order ≤ h.heapStart + heapLen := by
  have hlen := blockLen_ge b.order
  exact hs.tiles.bounds (List.mem_map.2 ⟨b, hb, rfl⟩) (by simp only [Block.extent]; omega)

theorem pairwise (hs : h.Shape free rest) :
    (blocks free rest).Pairwise fun b c => b.extent.Disjoint c.extent :=
  List.pairwise_map.1 hs.tiles.pairwise

/-- A block on a free list is disjoint from one that is on none. -/
theorem free_rest (hs : h.Shape free rest) (ho : o < allocOrders) (ha : a ∈ free o)
    (hc : c ∈ rest) : (⟨a, o⟩ : Block).extent.Disjoint c.extent := by
  refine (List.pairwise_append.1 hs.pairwise).2.2 _ ?_ c hc
  exact List.mem_flatMap.2 ⟨o, List.mem_range.2 ho, List.mem_map.2 ⟨a, ha, rfl⟩⟩

theorem nodup (hs : h.Shape free rest) (ho : o < allocOrders) : (free o).Nodup := by
  have hblocks : (blocks free rest).Nodup := by
    refine hs.pairwise.imp ?_
    rintro b c hbc rfl
    have hlen := blockLen_ge b.order
    apply hbc b.base
    simp only [Extent.Has, Block.extent]
    omega
  have hlists := (List.nodup_flatMap.1 (List.nodup_append.1 hblocks).1).1 o (List.mem_range.2 ho)
  exact hlists.of_map _

/-- Two blocks on free lists are the same or disjoint. -/
theorem free_free (hs : h.Shape free rest) {o' a' : Nat} (ho : o < allocOrders) (ha : a ∈ free o)
    (ho' : o' < allocOrders) (ha' : a' ∈ free o') (hne : (⟨a, o⟩ : Block) ≠ ⟨a', o'⟩) :
    (⟨a, o⟩ : Block).extent.Disjoint (⟨a', o'⟩ : Block).extent := by
  have hsymm : Std.Symm fun b c : Block => b.extent.Disjoint c.extent :=
    ⟨fun _ _ hbc => hbc.symm⟩
  exact hs.pairwise.forall (mem_blocks_free ho ha) (mem_blocks_free ho' ha') hne

end Shape

/-! ## Words of free blocks -/

theorem next_setHead : (h.setHead o v).next = h.next := rfl

theorem next_lt : h.next a < 2 ^ 32 := Mem.load_lt

theorem next_setNext_self (hv : v < 2 ^ 32) : (h.setNext a v).next a = v := by
  have hload : (h.setNext a v).next a = v % 256 ^ 4 := Mem.load_store_self
  rw [hload, Nat.mod_eq_of_lt (by omega)]

theorem next_setNext_of_disjoint {o' c : Nat}
    (hd : (⟨a, o⟩ : Block).extent.Disjoint (⟨c, o'⟩ : Block).extent) :
    (h.setNext a v).next c = h.next c := by
  have hlen := blockLen_ge o
  have hlen' := blockLen_ge o'
  apply Mem.load_store_of_disjoint
  rcases hd.apart (by simp only [Block.extent]; omega) (by simp only [Block.extent]; omega) with
    hle | hle
  · right
    simp only [Block.extent] at hle
    omega
  · left
    simp only [Block.extent] at hle
    omega

theorem keeps_setNext (hd : ∀ c ∈ rest, (⟨a, o⟩ : Block).extent.Disjoint c.extent) :
    Keeps h.mem (h.setNext a v).mem rest := by
  intro c hc x hx
  apply Mem.store_of_not_mem
  by_contra hno
  have hlen := blockLen_ge o
  refine hd c hc x ⟨?_, hx⟩
  simp only [Extent.Has, Block.extent]
  omega

theorem Shape.head_lt (hs : h.Shape free rest) (ho : o < allocOrders) :
    h.freeBlocks o < 2 ^ 32 := by
  by_cases hzero : h.freeBlocks o = 0
  · omega
  · obtain ⟨l, hl⟩ := (hs.chain o ho).ne_nil hzero
    have hmem : h.freeBlocks o ∈ free o := hl ▸ List.mem_cons_self
    have hlen := blockLen_ge o
    have hbounds := (hs.bounds (mem_blocks_free ho hmem)).2
    have hroom := hs.room.2
    simp only at hbounds
    omega

/-! ## The moves -/

namespace Shape

/-- Taking the first block off a list. -/
theorem pop (hs : h.Shape free rest) (ho : o < allocOrders) (hl : free o = a :: l) :
    (h.setHead o (h.next a)).Shape (updFree free o l) (⟨a, o⟩ :: rest) := by
  refine hs.move rfl (blocks_take ho (by rw [hl])) fun i hi => ?_
  rw [next_setHead]
  by_cases hio : i = o
  · subst hio
    have hchain := hs.chain i hi
    rw [hl] at hchain
    simpa [setHead, updFree] using hchain.head_cons.2.2
  · simpa [setHead, updFree, hio] using hs.chain i hi

/-- Putting a block in front of a list. -/
theorem push (hs : h.Shape free (⟨a, o⟩ :: rest)) :
    ((h.setNext a (h.freeBlocks o)).setHead o a).Shape (updFree free o (a :: free o)) rest ∧
      Keeps h.mem (h.setNext a (h.freeBlocks o)).mem rest := by
  have hmem : ⟨a, o⟩ ∈ blocks free (⟨a, o⟩ :: rest) := mem_blocks_rest List.mem_cons_self
  have ho : o < allocOrders := hs.order _ hmem
  have hsame : ∀ i < allocOrders, ∀ c ∈ free i,
      (h.setNext a (h.freeBlocks o)).next c = h.next c := by
    intro i hi c hc
    exact next_setNext_of_disjoint (hs.free_rest hi hc List.mem_cons_self).symm
  constructor
  · refine hs.move rfl ?_ fun i hi => ?_
    · have htake : (blocks (updFree free o (a :: free o)) rest).Perm
          (blocks (updFree (updFree free o (a :: free o)) o (free o)) (⟨a, o⟩ :: rest)) :=
        blocks_take ho (by simp [updFree])
      have hback : updFree (updFree free o (a :: free o)) o (free o) = free := by
        funext j
        by_cases hj : j = o <;> simp [updFree, hj]
      rw [hback] at htake
      exact htake.symm
    · rw [next_setHead]
      have hchain := (hs.chain i hi).congr (hsame i hi)
      by_cases hio : i = o
      · subst hio
        have hroom := hs.room.1
        have hbase := (hs.bounds hmem).1
        simp only at hbase
        simp only [setHead, updFree, if_true]
        refine .cons (by omega) ?_
        rw [next_setNext_self (hs.head_lt ho)]
        exact hchain
      · simpa [setHead, setNext, updFree, hio] using hchain
  · intro c hc
    have hrest : ∀ d ∈ rest, (⟨a, o⟩ : Block).extent.Disjoint d.extent := by
      intro d hd
      have hcons := (List.pairwise_append.1 hs.pairwise).2.1
      exact (List.pairwise_cons.1 hcons).1 d hd
    exact keeps_setNext hrest c hc

/-- Halving a block that is on no list. -/
theorem split (hs : h.Shape free (⟨a, o + 1⟩ :: rest)) :
    h.Shape free (⟨a + blockLen o, o⟩ :: ⟨a, o⟩ :: rest) := by
  have hmem : ⟨a, o + 1⟩ ∈ blocks free (⟨a, o + 1⟩ :: rest) := mem_blocks_rest List.mem_cons_self
  have horder := hs.order _ hmem
  have haligned := hs.aligned _ hmem
  have hbase := (hs.bounds hmem).1
  simp only at horder haligned hbase
  have hhalf : blockLen o ∣ a - h.heapStart := by
    refine Nat.dvd_trans ?_ haligned
    rw [blockLen_succ]
    exact Nat.dvd_add (Nat.dvd_refl _) (Nat.dvd_refl _)
  have hblocks : (blocks free (⟨a + blockLen o, o⟩ :: ⟨a, o⟩ :: rest)).Perm
      (⟨a, o⟩ :: ⟨a + blockLen o, o⟩ :: blocks free rest) :=
    (blocks_cons.trans (blocks_cons.cons _)).trans (List.Perm.swap ..)
  have hold : ∀ b ∈ blocks free rest, b ∈ blocks free (⟨a, o + 1⟩ :: rest) :=
    fun b hb => blocks_cons.mem_iff.2 (List.mem_cons_of_mem _ hb)
  refine ⟨hs.room, hs.chain, fun b hb => ?_, fun b hb => ?_, ?_⟩
  · rcases List.mem_cons.1 (hblocks.mem_iff.1 hb) with rfl | hb
    · exact Nat.lt_of_succ_lt horder
    rcases List.mem_cons.1 hb with rfl | hb
    · exact Nat.lt_of_succ_lt horder
    · exact hs.order b (hold b hb)
  · rcases List.mem_cons.1 (hblocks.mem_iff.1 hb) with rfl | hb
    · exact hhalf
    rcases List.mem_cons.1 hb with rfl | hb
    · simp only
      rw [show a + blockLen o - h.heapStart = a - h.heapStart + blockLen o by omega]
      exact Nat.dvd_add hhalf (Nat.dvd_refl _)
    · exact hs.aligned b (hold b hb)
  · have htiles := hs.tiles.perm (blocks_cons.map Block.extent)
    simp only [List.map_cons, Block.extent, blockLen_succ] at htiles
    exact htiles.split.perm (hblocks.symm.map Block.extent)

/-- Joining two neighbours that are on no list. -/
theorem merge (hs : h.Shape free (⟨a, o⟩ :: ⟨a + blockLen o, o⟩ :: rest))
    (ho : o + 1 < allocOrders) (haligned : blockLen (o + 1) ∣ a - h.heapStart) :
    h.Shape free (⟨a, o + 1⟩ :: rest) := by
  have hblocks : (blocks free (⟨a, o⟩ :: ⟨a + blockLen o, o⟩ :: rest)).Perm
      (⟨a, o⟩ :: ⟨a + blockLen o, o⟩ :: blocks free rest) := blocks_cons.trans (blocks_cons.cons _)
  have hold : ∀ b ∈ blocks free rest, b ∈ blocks free (⟨a, o⟩ :: ⟨a + blockLen o, o⟩ :: rest) :=
    fun b hb => hblocks.mem_iff.2 (List.mem_cons_of_mem _ (List.mem_cons_of_mem _ hb))
  refine ⟨hs.room, hs.chain, fun b hb => ?_, fun b hb => ?_, ?_⟩
  · rcases List.mem_cons.1 (blocks_cons.mem_iff.1 hb) with rfl | hb
    · exact ho
    · exact hs.order b (hold b hb)
  · rcases List.mem_cons.1 (blocks_cons.mem_iff.1 hb) with rfl | hb
    · exact haligned
    · exact hs.aligned b (hold b hb)
  · have htiles := hs.tiles.perm (hblocks.map Block.extent)
    simp only [List.map_cons, Block.extent] at htiles
    have hmerged := htiles.merge
    rw [← blockLen_succ] at hmerged
    exact hmerged.perm ((blocks_cons (b := ⟨a, o + 1⟩)).symm.map Block.extent)

/-- Writes that touch no word of a free list. -/
theorem frame (hs : h.Shape free rest)
    (hsame : ∀ o < allocOrders, ∀ a ∈ free o, ∀ x, a ≤ x → x < a + 4 → m x = h.mem x) :
    ({ h with mem := m } : KHeap).Shape free rest := by
  refine hs.move rfl (.refl _) fun o ho => ?_
  refine (hs.chain o ho).congr fun a ha => ?_
  exact Mem.load_congr fun x hlo hhi => hsame o ho a ha x hlo hhi

end Shape

/-! ## Searching a free list -/

/-- The link that points at the node after a prefix of the list. -/
def lastLink (previous : Link) : List Nat → Link
  | [] => previous
  | a :: l => lastLink (.next a) l

theorem lastLink_concat {previous : Link} : lastLink previous (l ++ [p]) = .next p := by
  induction l generalizing previous with
  | nil => rfl
  | cons a l ih => exact ih

theorem findLink_spec {fuel current : Nat} (previous : Link) (hc : Chain h.next current l)
    (hfuel : l.length < fuel) :
    (t ∉ l ∧ h.findLink t fuel previous current = .ok none) ∨
      ∃ l₁ l₂, l = l₁ ++ t :: l₂ ∧ t ∉ l₁ ∧
        h.findLink t fuel previous current = .ok (some (lastLink previous l₁)) := by
  induction l generalizing fuel current previous with
  | nil =>
    cases hc
    left
    cases fuel with
    | zero => simp at hfuel
    | succ fuel => simp [findLink]
  | cons a l ih =>
    obtain ⟨rfl, ha, hrest⟩ := hc.head_cons
    cases fuel with
    | zero => simp at hfuel
    | succ fuel =>
      rw [findLink, if_neg ha]
      by_cases hat : current = t
      · right
        exact ⟨[], l, by simp [hat], by simp, by rw [if_pos hat]; rfl⟩
      rw [if_neg hat]
      rcases ih (.next current) hrest (by simpa using hfuel) with
        ⟨hnot, hfind⟩ | ⟨l₁, l₂, rfl, hnot, hfind⟩
      · left
        exact ⟨by simp [hnot, Ne.symm hat], hfind⟩
      · right
        exact ⟨current :: l₁, l₂, rfl, by simp [hnot, Ne.symm hat], hfind⟩

/-- A list without repetitions in a range is no longer than the range. -/
theorem length_le_of_range {s n : Nat} (hnd : l.Nodup) (hl : ∀ a ∈ l, s ≤ a ∧ a < s + n) :
    l.length ≤ n := by
  have hsub : l ⊆ List.range' s n := by
    intro a ha
    exact List.mem_range'_1.2 (hl a ha)
  have hle := List.Nodup.length_le_of_subset hnd hsub
  rwa [List.length_range'] at hle

theorem Shape.length_lt (hs : h.Shape free rest) (ho : o < allocOrders) :
    (free o).length < walkFuel := by
  refine Nat.lt_succ_of_le (length_le_of_range (s := h.heapStart) (hs.nodup ho) ?_)
  intro a ha
  have hbounds := hs.bounds (mem_blocks_free ho ha)
  have hlen := blockLen_ge o
  simp only [heapLen] at hbounds
  omega

/-- Unlinking a block that the search has found. -/
theorem Shape.unlink (hs : h.Shape free rest) (ho : o < allocOrders) (hl : free o = l₁ ++ t :: l₂) :
    (h.setLink o (lastLink .head l₁) (h.next t)).Shape (updFree free o (l₁ ++ l₂))
        (⟨t, o⟩ :: rest) ∧
      Keeps h.mem (h.setLink o (lastLink .head l₁) (h.next t)).mem rest := by
  rcases List.eq_nil_or_concat l₁ with rfl | ⟨l₀, p, rfl⟩
  · exact ⟨hs.pop ho hl, Keeps.refl _ _⟩
  have hlast : lastLink .head (l₀.concat p) = .next p := by
    rw [List.concat_eq_append, lastLink_concat]
  have hl' : free o = l₀ ++ p :: t :: l₂ := by
    rw [hl, List.concat_eq_append, List.append_assoc]
    rfl
  have hp : p ∈ free o := by simp [hl']
  have hother : ∀ i < allocOrders, ∀ c ∈ free i, (⟨p, o⟩ : Block) ≠ ⟨c, i⟩ →
      (h.setNext p (h.next t)).next c = h.next c := by
    intro i hi c hc hne
    exact next_setNext_of_disjoint (hs.free_free ho hp hi hc hne)
  rw [hlast]
  constructor
  · refine hs.move rfl (blocks_take ho ?_) fun i hi => ?_
    · rw [hl]
      exact List.perm_middle
    · by_cases hio : i = o
      · subst hio
        have hchain := hs.chain i hi
        rw [hl'] at hchain
        have hnd := hs.nodup hi
        rw [hl'] at hnd
        have hlist : updFree free i (l₀.concat p ++ l₂) i = l₀ ++ p :: l₂ := by
          simp [updFree]
        rw [hlist]
        refine hchain.unlink hnd (next_setNext_self next_lt) fun c hc hcp => ?_
        refine hother i hi c ?_ fun heq => hcp (congrArg Block.base heq).symm
        rwa [hl']
      · have hchain := hs.chain i hi
        have hlist : updFree free o (l₀.concat p ++ l₂) i = free i := by simp [updFree, hio]
        rw [hlist]
        refine hchain.congr fun c hc => hother i hi c hc ?_
        intro heq
        exact hio (congrArg Block.order heq).symm
  · exact keeps_setNext fun c hc => hs.free_rest ho hp hc

/-! ## Buddies -/

/-- The addresses of two blocks of one order are a pair, as `kheap_free` pairs them. -/
def Buddies (start o a b : Nat) : Prop := b - start = (a - start) ^^^ sizeForOrder o

theorem Buddies.symm {start b : Nat} (hb : Buddies start o a b) : Buddies start o b a := by
  rw [Buddies, hb, Nat.xor_assoc, Nat.xor_self, Nat.xor_zero]

/-- No block is its own buddy. -/
theorem Buddies.ne {start b : Nat} (hb : Buddies start o a b) (ho : o < allocOrders) : a ≠ b := by
  rintro rfl
  have hsize : sizeForOrder o = 0 := by
    rw [Buddies] at hb
    have hself := congrArg (fun x => (a - start) ^^^ x) hb
    simp only [Nat.xor_self, ← Nat.xor_assoc, Nat.zero_xor] at hself
    exact hself.symm
  have hlen := blockLen_ge o
  rw [sizeForOrder_eq ho] at hsize
  omega

/-- No two buddies of an order below the last are both on its list. -/
def Coalesced (start : Nat) (free : Nat → List Nat) : Prop :=
  ∀ o, o + 1 < allocOrders → ∀ a ∈ free o, ∀ b ∈ free o, ¬ Buddies start o a b

namespace Coalesced

variable {start : Nat}

/-- Lists that lose blocks, or that have one block only. -/
theorem of_lists (hc : Coalesced start free)
    (hlists : ∀ i, free' i ⊆ free i ∨ ∃ b, free' i = [b]) : Coalesced start free' := by
  intro o ho a ha b hb hbuddy
  rcases hlists o with hsub | ⟨c, hone⟩
  · exact hc o ho a (hsub ha) b (hsub hb) hbuddy
  · rw [hone, List.mem_singleton] at ha hb
    exact hbuddy.ne (by omega) (ha.trans hb.symm)

theorem mono (hc : Coalesced start free) (hsub : ∀ i, free' i ⊆ free i) : Coalesced start free' :=
  hc.of_lists fun i => .inl (hsub i)

/-- A list gets a block whose buddy is not on it. -/
theorem push (hc : Coalesced start free)
    (hb : o + 1 < allocOrders → ∀ b ∈ free o, ¬ Buddies start o a b) :
    Coalesced start (updFree free o (a :: free o)) := by
  intro i hi x hx y hy hbuddy
  by_cases hio : i = o
  · subst hio
    simp only [updFree, if_true, List.mem_cons] at hx hy
    rcases hx with rfl | hx
    · rcases hy with rfl | hy
      · exact hbuddy.ne (by omega) rfl
      · exact hb hi y hy hbuddy
    · rcases hy with rfl | hy
      · exact hb hi x hx hbuddy.symm
      · exact hc i hi x hx y hy hbuddy
  · simp only [updFree, if_neg hio] at hx hy
    exact hc i hi x hx y hy hbuddy

end Coalesced

/-- `kheap_free` computes the address of the buddy. -/
theorem Shape.buddy_addr (hs : h.Shape free (⟨a, o⟩ :: rest)) (ho : o < allocOrders)
    (hc : t ∈ free o) (hb : Buddies h.heapStart o a t) :
    addr32 (h.heapStart + (addr32 (a + (2 ^ 32 - h.heapStart)) ^^^ sizeForOrder o)) = t := by
  obtain ⟨hbase, htop⟩ := hs.bounds (b := ⟨a, o⟩) (mem_blocks_rest List.mem_cons_self)
  obtain ⟨hbaset, htopt⟩ := hs.bounds (mem_blocks_free ho hc)
  obtain ⟨hpos, hroom⟩ := hs.room
  simp only at hbase htop hbaset htopt
  have hlen := blockLen_ge o
  have hoffset : addr32 (a + (2 ^ 32 - h.heapStart)) = a - h.heapStart := by
    rw [addr32]
    omega
  rw [hoffset, ← hb, addr32]
  omega

/-! ## Merging upwards -/

/-- The address `kheap_free` computes for the buddy, and which half it is. -/
theorem buddy_cases (hs : h.Shape free (⟨a, o⟩ :: rest)) (ho : o + 1 < allocOrders)
    (ht : t = addr32 (h.heapStart +
      (addr32 (a + (2 ^ 32 - h.heapStart)) ^^^ sizeForOrder o)))
    (hlo : h.heapStart ≤ t) :
    t = a + blockLen o ∧ blockLen (o + 1) ∣ a - h.heapStart ∨
      a = t + blockLen o ∧ blockLen (o + 1) ∣ t - h.heapStart := by
  have hmem : ⟨a, o⟩ ∈ blocks free (⟨a, o⟩ :: rest) := mem_blocks_rest List.mem_cons_self
  obtain ⟨hbase, htop⟩ := hs.bounds hmem
  obtain ⟨q, hq⟩ := hs.aligned _ hmem
  obtain ⟨hpos, hroom⟩ := hs.room
  simp only at hbase htop hq
  have hlen := blockLen_ge o
  have hoffset : addr32 (a + (2 ^ 32 - h.heapStart)) = blockLen o * q := by
    rw [addr32]
    omega
  rw [hoffset, sizeForOrder_eq (by omega), xor_blockLen] at ht
  have hpair : ∀ k, k % 2 = 0 → blockLen (o + 1) ∣ blockLen o * k := by
    intro k hk
    refine ⟨k / 2, ?_⟩
    rw [blockLen_succ, ← Nat.two_mul, Nat.mul_comm 2, Nat.mul_assoc,
      show 2 * (k / 2) = k by omega]
  by_cases heven : q % 2 = 0
  · left
    rw [if_pos heven, addr32] at ht
    refine ⟨by omega, ?_⟩
    rw [hq]
    exact hpair q heven
  · right
    rw [if_neg heven, addr32] at ht
    have hprev : blockLen o * q = blockLen o * (q - 1) + blockLen o := by
      rw [← Nat.mul_succ, show (q - 1).succ = q by omega]
    refine ⟨by omega, ?_⟩
    have hoff : t - h.heapStart = blockLen o * (q - 1) := by omega
    rw [hoff]
    exact hpair (q - 1) (by omega)

/-- The address `kheap_free` computes is that of the buddy. -/
theorem Shape.buddyOf_eq (hs : h.Shape free (⟨a, o⟩ :: rest)) (ho : o + 1 < allocOrders) :
    addr32 (h.heapStart + (addr32 (a + (2 ^ 32 - h.heapStart)) ^^^ sizeForOrder o)) =
      Buddy.buddyOf blockLen h.heapStart o a := by
  obtain ⟨hbase, htop⟩ := hs.bounds (b := ⟨a, o⟩) (mem_blocks_rest List.mem_cons_self)
  obtain ⟨hpos, hroom⟩ := hs.room
  have hlen := blockLen_ge o
  have hheap : heapLen = 2 ^ 22 := rfl
  simp only at hbase htop
  have hoffset : addr32 (a + (2 ^ 32 - h.heapStart)) = a - h.heapStart := by
    rw [addr32]
    omega
  have hhalf : blockLen o < 2 ^ 22 := by
    rw [blockLen_eq]
    rw [allocOrders] at ho
    exact Nat.pow_lt_pow_right (by omega) (by omega)
  have hin : (a - h.heapStart) ^^^ blockLen o < 2 ^ 22 := Nat.xor_lt_two_pow (by omega) hhalf
  rw [hoffset, sizeForOrder_eq (by omega), Buddy.buddyOf, addr32, Nat.mod_eq_of_lt (by omega)]

/-- Merging takes blocks off the lists until the buddy of the merged block is on
none of them, ends with that block on no list, and leaves the live blocks as they were. -/
theorem mergeUp_spec {left : Nat} (hs : h.Shape free (⟨a, o⟩ :: rest))
    (hleft : o + left + 1 = allocOrders) :
    ∃ h' o' a' free', h.mergeUp left o a = .ok (h', o', a') ∧
      Buddy.mergeLists blockLen h.heapStart left free o a = (free', o', a') ∧
      h'.Shape free' (⟨a', o'⟩ :: rest) ∧ h'.heapStart = h.heapStart ∧ Keeps h.mem h'.mem rest ∧
      (o' + 1 < allocOrders → ∀ b ∈ free' o', ¬ Buddies h.heapStart o' a' b) := by
  induction left generalizing h free o a with
  | zero =>
    exact ⟨h, o, a, free, rfl, rfl, hs, rfl, Keeps.refl _ _, fun hlast => by omega⟩
  | succ left ih =>
    have ho : o < allocOrders := by omega
    obtain ⟨t, ht⟩ : ∃ t, t = addr32 (h.heapStart +
      (addr32 (a + (2 ^ 32 - h.heapStart)) ^^^ sizeForOrder o)) := ⟨_, rfl⟩
    have hbuddyOf : Buddy.buddyOf blockLen h.heapStart o a = t := by
      rw [ht, hs.buddyOf_eq (by omega)]
    simp only [mergeUp, ← ht, Buddy.mergeLists, hbuddyOf]
    rcases findLink_spec (t := t) .head (hs.chain o ho) (hs.length_lt ho) with
      ⟨hnot, hfind⟩ | ⟨l₁, l₂, hl, hfirst, hfind⟩
    · rw [hfind, if_neg hnot]
      refine ⟨h, o, a, free, rfl, rfl, hs, rfl, Keeps.refl _ _, fun _ b hb hbuddy => hnot ?_⟩
      rw [ht, hs.buddy_addr ho hb hbuddy]
      exact hb
    have hmem : t ∈ free o := by simp [hl]
    have herase : (free o).erase t = l₁ ++ l₂ := by
      rw [hl, List.erase_append_right _ hfirst, List.erase_cons_head]
    rw [hfind, if_pos hmem, herase]
    simp only [ok_bind]
    have hlo := (hs.bounds (mem_blocks_free ho hmem)).1
    obtain ⟨hunlinked, hkeeps⟩ := hs.unlink ho hl
    have hstart : (h.setLink o (lastLink .head l₁) (h.next t)).heapStart = h.heapStart := by
      cases lastLink .head l₁ <;> rfl
    have hlen := blockLen_ge o
    have hlower : (if t < a then t else a) = min a t := by
      split_ifs <;> omega
    have hmerged : (h.setLink o (lastLink .head l₁) (h.next t)).Shape (updFree free o (l₁ ++ l₂))
        (⟨min a t, o + 1⟩ :: rest) := by
      rw [← hlower]
      rcases buddy_cases hs (by omega) ht hlo with ⟨hta, hdvd⟩ | ⟨hta, hdvd⟩
      · rw [if_neg (by omega)]
        rw [hta] at hunlinked ⊢
        refine (hunlinked.perm (List.Perm.swap ..)).merge (by omega) ?_
        rwa [← hta, hstart]
      · rw [if_pos (by omega)]
        rw [hta] at hunlinked
        refine hunlinked.merge (by omega) ?_
        rwa [hstart]
    obtain ⟨h', o', a', free', hrun, hlists, hshape, hstart', hkeeps', hbuddy⟩ :=
      ih hmerged (by omega)
    rw [hstart] at hbuddy hlists
    rw [hlower]
    refine ⟨h', o', a', free', hrun, hlists, hshape, hstart'.trans hstart, ?_, hbuddy⟩
    have hkeepsRest : Keeps h.mem (h.setLink o (lastLink .head l₁) (h.next t)).mem rest :=
      fun c hc => hkeeps c (List.mem_cons_of_mem _ hc)
    exact hkeepsRest.trans hkeeps'

/-- Freeing a live block: it goes back on a list, and no other live block changes. -/
theorem kheapFree_spec {ptr : Nat}
    (hs : h.Shape free (⟨ptr - 1, (h.mem (ptr - 1)).toNat⟩ :: rest)) :
    ∃ h', h.kheapFree ptr = .ok h' ∧
      h'.Shape (Buddy.putBlock blockLen allocOrders h.heapStart free (h.mem (ptr - 1)).toNat
        (ptr - 1)) rest ∧ h'.heapStart = h.heapStart ∧ Keeps h.mem h'.mem rest ∧
      (Coalesced h.heapStart free → Coalesced h.heapStart
        (Buddy.putBlock blockLen allocOrders h.heapStart free (h.mem (ptr - 1)).toNat
          (ptr - 1))) := by
  have hmem : ⟨ptr - 1, (h.mem (ptr - 1)).toNat⟩ ∈
      blocks free (⟨ptr - 1, (h.mem (ptr - 1)).toNat⟩ :: rest) :=
    mem_blocks_rest List.mem_cons_self
  have horder := hs.order _ hmem
  have hbase := (hs.bounds hmem).1
  have hpos := hs.room.1
  simp only at horder hbase
  have hleft : (h.mem (ptr - 1)).toNat + (allocOrders - 1 - (h.mem (ptr - 1)).toNat) + 1 =
      allocOrders := by omega
  obtain ⟨h', o', a', free', hrun, hlists, hshape, hstart, hkeeps, hbuddy⟩ :=
    mergeUp_spec hs hleft
  have ho' : o' < allocOrders := hshape.order _ (mem_blocks_rest List.mem_cons_self)
  have hsub : ∀ i, free' i ⊆ free i := by
    intro i
    have hmerge := Buddy.mergeLists_subset blockLen h.heapStart
      (allocOrders - 1 - (h.mem (ptr - 1)).toNat) free (h.mem (ptr - 1)).toNat (ptr - 1) i
    rwa [hlists] at hmerge
  obtain ⟨hpushed, hkeeps'⟩ := hshape.push
  simp only [Buddy.putBlock, hlists]
  refine ⟨_, ?_, hpushed, hstart, hkeeps.trans hkeeps', fun hc => (hc.mono hsub).push hbuddy⟩
  rw [kheapFree, if_neg (by omega)]
  simp only [hrun, ok_bind]
  rw [if_neg (by omega)]
  rfl

/-! ## Allocating -/

/-- Splitting gives the upper halves back and keeps the lower one out. -/
theorem splitDown_spec {n : Nat} (hs : h.Shape free (⟨a, o + n⟩ :: rest)) :
    (h.splitDown a o n).Shape (Buddy.splitLists blockLen free a o n) (⟨a, o⟩ :: rest) ∧
      (h.splitDown a o n).heapStart = h.heapStart ∧
      Keeps h.mem (h.splitDown a o n).mem rest := by
  induction n generalizing h free with
  | zero => exact ⟨hs, rfl, Keeps.refl _ _⟩
  | succ n ih =>
    have hmem : ⟨a, o + (n + 1)⟩ ∈ blocks free (⟨a, o + (n + 1)⟩ :: rest) :=
      mem_blocks_rest List.mem_cons_self
    have horder := hs.order _ hmem
    obtain ⟨-, htop⟩ := hs.bounds hmem
    have hroom := hs.room.2
    simp only at horder htop
    have hlen := blockLen_succ (o + n)
    have hlow := blockLen_ge (o + n)
    have hbuddy : addr32 (a + sizeForOrder (o + n)) = a + blockLen (o + n) := by
      rw [sizeForOrder_eq (by omega), addr32]
      rw [show o + (n + 1) = o + n + 1 by omega] at htop
      omega
    have hsplit : h.Shape free (⟨a + blockLen (o + n), o + n⟩ :: ⟨a, o + n⟩ :: rest) := hs.split
    obtain ⟨hpushed, hkeeps⟩ := hsplit.push
    obtain ⟨hshape, hstart, hkeeps'⟩ := ih hpushed
    simp only [splitDown, hbuddy, Buddy.splitLists]
    refine ⟨hshape, hstart, ?_⟩
    have hkeepsRest : Keeps h.mem
        (h.setNext (a + blockLen (o + n)) (h.freeBlocks (o + n))).mem rest :=
      fun c hc => hkeeps c (List.mem_cons_of_mem _ hc)
    exact hkeepsRest.trans hkeeps'

theorem orderLoop_spec {size fuel e o : Nat} (he : e = 2 ^ (o + 4)) (ho : o ≤ 27)
    (hfuel : o + fuel = 29) (hsize : size < 2 ^ 32) :
    (size < 2 ^ 31 → ∃ r, orderLoop size fuel e o = .ok r ∧ size < blockLen r ∧
      ∀ j < r, o ≤ j → blockLen j ≤ size) ∧
      (2 ^ 31 ≤ size → orderLoop size fuel e o = .error .hang) := by
  induction fuel generalizing e o with
  | zero => omega
  | succ fuel ih =>
    rw [orderLoop]
    by_cases hge : max size e = size
    · rw [if_pos hge]
      have hle : e ≤ size := by omega
      by_cases hlast : o = 27
      · -- The doubled size is 0, and 0 never exceeds the size asked for.
        have hhuge : 2 ^ 31 ≤ size := by
          rw [he, hlast] at hle
          exact hle
        have hover : addr32 (e <<< 1) = 0 := by
          rw [he, hlast]
          rfl
        have hf : fuel = 1 := by omega
        rw [hover, hf]
        have hmax : max size 0 = size := by omega
        simp only [orderLoop, hmax, if_true]
        exact ⟨fun hsmall => by omega, fun _ => trivial⟩
      · have hdouble : addr32 (e <<< 1) = 2 ^ (o + 1 + 4) := by
          have hpow : 2 ^ (o + 1 + 4) < 2 ^ 32 := Nat.pow_lt_pow_right (by omega) (by omega)
          rw [he, addr32, Nat.shiftLeft_eq, ← Nat.pow_add, show o + 4 + 1 = o + 1 + 4 by omega,
            Nat.mod_eq_of_lt hpow]
        rw [Nat.mod_eq_of_lt (by omega)]
        obtain ⟨hreturns, hhangs⟩ := ih hdouble (by omega) (by omega)
        refine ⟨fun hsmall => ?_, hhangs⟩
        obtain ⟨r, hrun, hfits, hleast⟩ := hreturns hsmall
        refine ⟨r, hrun, hfits, fun j hj hoj => ?_⟩
        rcases Nat.eq_or_lt_of_le hoj with rfl | hlt
        · rwa [blockLen_eq, ← he]
        · exact hleast j hj hlt
    · rw [if_neg hge]
      have hlt : size < e := by omega
      constructor
      · intro _
        refine ⟨o, rfl, ?_, fun j hj hoj => by omega⟩
        rwa [blockLen_eq, ← he]
      · intro hhuge
        have hpow : 2 ^ (o + 4) ≤ 2 ^ 31 := Nat.pow_le_pow_right (by omega) (by omega)
        omega

/-- The order is the least one with room, and from 2 GiB on none is found. -/
theorem orderForSize_spec {size : Nat} (hsize : size < 2 ^ 32) :
    (size < 2 ^ 31 → ∃ r, orderForSize size = .ok r ∧ size < blockLen r ∧
      ∀ j < r, blockLen j ≤ size) ∧
      (2 ^ 31 ≤ size → orderForSize size = .error .hang) := by
  obtain ⟨hreturns, hhangs⟩ := orderLoop_spec (o := 0)
    (show allocMinBytesBlock = 2 ^ (0 + 4) from rfl) (by omega) (show 0 + 29 = 29 from rfl) hsize
  refine ⟨fun hsmall => ?_, hhangs⟩
  obtain ⟨r, hrun, hfits, hleast⟩ := hreturns hsmall
  exact ⟨r, hrun, hfits, fun j hj => hleast j hj (Nat.zero_le j)⟩

theorem orderForSize_eq_ok {size : Nat} (hsize : size < 2 ^ 32) (ho : orderForSize size = .ok o) :
    size < blockLen o ∧ ∀ j < o, blockLen j ≤ size := by
  obtain ⟨hreturns, hhangs⟩ := orderForSize_spec hsize
  rcases Nat.lt_or_ge size (2 ^ 31) with hsmall | hhuge
  · obtain ⟨r, hrun, hspec⟩ := hreturns hsmall
    rw [ho, Except.ok.injEq] at hrun
    rwa [hrun]
  · rw [hhangs hhuge] at ho
    cases ho

/-- The heads say which free lists have a block. -/
theorem Shape.find_list (hs : h.Shape free rest) :
    ((List.range' o (allocOrders - o)).find? fun i => !(free i).isEmpty) =
      (List.range' o (allocOrders - o)).find? fun i => h.freeBlocks i != 0 := by
  rw [← List.head?_filter, ← List.head?_filter]
  apply congrArg List.head?
  apply List.filter_congr
  intro i hi
  have hrange := List.mem_range'_1.1 hi
  have hchain := hs.chain i (by omega)
  cases hl : free i with
  | nil =>
    rw [hl] at hchain
    have hhead : h.freeBlocks i = 0 := by
      by_contra hne
      obtain ⟨l', hl'⟩ := hchain.ne_nil hne
      cases hl'
    simp [hhead]
  | cons a l =>
    rw [hl] at hchain
    obtain ⟨hhead, hne, -⟩ := hchain.head_cons
    simp [hhead, hne]

/-- A list that gets an upper half was empty, so the half has no buddy there. -/
theorem Shape.coalesced_take (hs : h.Shape free rest) {first : Nat} (hl : free first = a :: l)
    (hempty : ∀ i < first, o ≤ i → h.freeBlocks i = 0) (hlt : first < allocOrders)
    (hc : Coalesced h.heapStart free) :
    Coalesced h.heapStart
      (Buddy.splitLists blockLen (updFree free first l) p o (first - o)) := by
  apply hc.of_lists
  intro i
  rcases Buddy.splitLists_cases blockLen (updFree free first l) p o (first - o) i with
    hsame | ⟨hlo, hhi, b', hone⟩
  · left
    rw [hsame]
    rcases eq_or_ne i first with rfl | hi
    · rw [updFree, if_pos rfl, hl]
      exact List.subset_cons_self _ _
    · rw [updFree, if_neg hi]
      exact List.Subset.refl _
  · right
    have hnil : free i = [] := by
      have hchain := hs.chain i (by omega)
      rw [hempty i (by omega) hlo] at hchain
      exact hchain.nil_of_zero
    exact ⟨b', by rw [hone]; simp [updFree, hnil, show i ≠ first by omega]⟩

/-- The order goes into the first byte of a block that is out of the lists. -/
theorem Shape.header (hs : h.Shape free (⟨a, o⟩ :: rest)) (ho : o < allocOrders) :
    Shape { h with mem := h.mem.store a 1 o } free (⟨a, o⟩ :: rest) ∧
      (h.mem.store a 1 o a).toNat = o ∧ Keeps h.mem (h.mem.store a 1 o) rest := by
  have hlen := blockLen_ge o
  have hheader : ∀ c, (⟨a, o⟩ : Block).extent.Disjoint c → ∀ x, c.Has x →
      h.mem.store a 1 o x = h.mem x := by
    intro c hd x hx
    apply Mem.store_of_not_mem
    by_contra hno
    refine hd x ⟨?_, hx⟩
    simp only [Extent.Has, Block.extent]
    omega
  refine ⟨hs.frame fun i hi c hc x hlo hhi => ?_, ?_, fun c hc x hx => ?_⟩
  · refine hheader _ (hs.free_rest hi hc List.mem_cons_self).symm x ?_
    have hlen' := blockLen_ge i
    simp only [Extent.Has, Block.extent]
    omega
  · simp only [allocOrders] at ho
    have hself : h.mem.store a 1 o a = UInt8.ofNat o := by simp [Mem.store]
    rw [hself, UInt8.toNat_ofNat_of_lt' (Nat.lt_of_lt_of_le ho (by decide))]
  · have hd := (List.pairwise_cons.1 (List.pairwise_append.1 hs.pairwise).2.1).1 c hc
    exact hheader _ hd x hx

/-- What a successful allocation does: a block large enough leaves the lists, its
order is in its first byte, and no live block changes. -/
theorem kheapAlloc_spec {size ptr : Nat} (hs : h.Shape free rest) (hsize : size < 2 ^ 32)
    (halloc : h.kheapAlloc size = .ok (h', ptr)) :
    ∃ free' o, h'.Shape free' (⟨ptr - 1, o⟩ :: rest) ∧ (h'.mem (ptr - 1)).toNat = o ∧
      0 < ptr ∧ (size < blockLen o ∧ ∀ j < o, blockLen j ≤ size) ∧
      Buddy.takeBlock blockLen allocOrders free o = some (free', ptr - 1) ∧
      h'.heapStart = h.heapStart ∧ Keeps h.mem h'.mem rest ∧
      (Coalesced h.heapStart free → Coalesced h.heapStart free') := by
  simp only [kheapAlloc, bind_eq_ok] at halloc
  obtain ⟨o, horder, halloc⟩ := halloc
  have hfits := orderForSize_eq_ok hsize horder
  split at halloc
  · cases halloc
  rename_i first hfirst
  simp only [pure_eq_ok, Prod.mk.injEq] at halloc
  obtain ⟨rfl, rfl⟩ := halloc
  have hrange := List.mem_range'_1.1 (List.mem_of_find?_eq_some hfirst)
  have hne : h.freeBlocks first ≠ 0 := by
    have hp := List.find?_some hfirst
    simpa using hp
  have hlt : first < allocOrders := by omega
  obtain ⟨l, hl⟩ := (hs.chain first hlt).ne_nil hne
  have hpopped := hs.pop hlt hl
  have hle : first = o + (first - o) := by omega
  rw [hle] at hpopped
  obtain ⟨hshape, hstart, hkeeps⟩ := splitDown_spec hpopped
  rw [← hle] at hshape hstart hkeeps
  have htake : Buddy.takeBlock blockLen allocOrders free o =
      some (Buddy.splitLists blockLen (updFree free first l) (h.freeBlocks first) o (first - o),
        h.freeBlocks first) := by
    rw [Buddy.takeBlock, hs.find_list, hfirst]
    simp only [hl]
  have hempty : ∀ i < first, o ≤ i → h.freeBlocks i = 0 := by
    intro i hi hoi
    have hbefore := (List.find?_range'_eq_some.1 hfirst).2.2 i hoi hi
    simpa using hbefore
  have hcoalesced := hs.coalesced_take (p := h.freeBlocks first) hl hempty hlt
  generalize (h.setHead first (h.next (h.freeBlocks first))).splitDown
    (h.freeBlocks first) o (first - o) = k at *
  generalize h.freeBlocks first = b at *
  obtain ⟨hbase, htop⟩ := hshape.bounds (mem_blocks_rest List.mem_cons_self)
  obtain ⟨hpos, hroom⟩ := hshape.room
  simp only at hbase htop
  have hlen := blockLen_ge o
  have hptr : addr32 (b + 1) = b + 1 := by
    rw [addr32]
    omega
  obtain ⟨hheader, horder', hrest⟩ := hshape.header (by omega)
  rw [hptr, Nat.add_sub_cancel]
  exact ⟨_, o, hheader, horder', by omega, hfits, htake, hstart, hkeeps.trans hrest, hcoalesced⟩

end KHeap

end Kaku

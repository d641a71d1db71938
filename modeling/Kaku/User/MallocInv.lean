-- SUMMARY: The blocks of the user allocator: disjoint, inside the memory of the kernel, and on the lists of their sizes.
import Mathlib.Data.List.Pairwise
import Kaku.Lib.Chain
import Kaku.User.Malloc
import Mathlib.Logic.Function.Basic

/-!
# The blocks of the user allocator

`UHeap.Shape` describes the heap while a call works on it: the lists, and the blocks
that are on none of them. Calls are sequences of moves, each of which keeps the shape:
a block is put on a list or taken off one, and a block is made of fresh memory.
-/

namespace Kaku

namespace UHeap

/-! ## Headers -/

/-- Two headers are the same or do not overlap. -/
def Separate (b c : Nat) : Prop := b = c ∨ b + memHeader ≤ c ∨ c + memHeader ≤ b

variable {h : UHeap} {b c n k a p x : Nat}

theorem size_setFlags (hbc : Separate b c) : (h.setFlags b n).size c = h.size c := by
  rw [Separate, memHeader] at hbc
  exact Mem.load_store_of_disjoint (by omega)

theorem next_setFlags (hbc : Separate b c) : (h.setFlags b n).next c = h.next c := by
  rw [Separate, memHeader] at hbc
  exact Mem.load_store_of_disjoint (by omega)

theorem size_setNext (hbc : Separate b c) : (h.setNext b n).size c = h.size c := by
  rw [Separate, memHeader] at hbc
  exact Mem.load_store_of_disjoint (by omega)

theorem next_setNext_of_ne (hbc : Separate b c) (hne : c ≠ b) :
    (h.setNext b n).next c = h.next c := by
  rw [Separate, memHeader] at hbc
  exact Mem.load_store_of_disjoint (by omega)

theorem next_setNext_self (hn : n < 2 ^ 32) : (h.setNext b n).next b = n := by
  rw [next, setNext, Mem.load_store_self, Nat.mod_eq_of_lt (show n < 256 ^ 4 from hn)]

theorem flags_setFlags_self (hn : n < 2 ^ 32) : (h.setFlags b n).flags b = n := by
  rw [flags, setFlags, Mem.load_store_self, Nat.mod_eq_of_lt (show n < 256 ^ 4 from hn)]

theorem size_setSize_self (hn : n < 2 ^ 32) : (h.setSize b n).size b = n := by
  rw [size, setSize, Mem.load_store_self, Nat.mod_eq_of_lt (show n < 256 ^ 4 from hn)]

theorem size_lt : h.size b < 2 ^ 32 := Mem.load_lt

theorem next_lt : h.next b < 2 ^ 32 := Mem.load_lt

/-! ## Lists -/

/-- The list of a class, and behind the classes the list of the large blocks. -/
def head (h : UHeap) (k : Nat) : Nat :=
  if k < memNumClasses then h.memFreeLists k else h.memLargeFree

def setHead (h : UHeap) (k b : Nat) : UHeap :=
  if k < memNumClasses then h.setFreeList k b else { h with memLargeFree := b }

/-- How many lists there are. -/
def numLists : Nat := memNumClasses + 1

/-- The sizes of the blocks on a list. -/
def Sized (k n : Nat) : Prop :=
  if k < memNumClasses then n = memAlign * 2 ^ k else memAlign * 2 ^ 9 < n

@[simp] theorem mem_setHead : (h.setHead k b).mem = h.mem := by
  rw [setHead]
  split <;> rfl

@[simp] theorem owned_setHead : (h.setHead k b).owned = h.owned := by
  rw [setHead]
  split <;> rfl

@[simp] theorem size_setHead : (h.setHead k b).size c = h.size c := by rw [size, mem_setHead, size]

@[simp] theorem next_setHead : (h.setHead k b).next c = h.next c := by rw [next, mem_setHead, next]

@[simp] theorem flags_setHead : (h.setHead k b).flags c = h.flags c := by
  rw [flags, mem_setHead, flags]

theorem head_setHead_self : (h.setHead k b).head k = b := by
  rw [setHead]
  split
  · rename_i hk
    simp [head, hk, setFreeList]
  · rename_i hk
    simp [head, hk]

theorem head_setHead_of_ne {j : Nat} (hj : j < numLists) (hk : k < numLists) (hne : j ≠ k) :
    (h.setHead k b).head j = h.head j := by
  rw [numLists, memNumClasses] at hj hk
  rw [setHead]
  split
  · simp [head, setFreeList, hne]
  · rename_i hlarge
    rw [memNumClasses] at hlarge
    have hsmall : j < memNumClasses := by
      rw [memNumClasses]
      omega
    simp [head, hsmall]

/-! ## Shapes -/

def extent (h : UHeap) (b : Nat) : Extent := ⟨b, h.size b⟩

/-- The blocks on the lists, and the others. -/
def nodes (bins : Nat → List Nat) (used : List Nat) : List Nat :=
  (List.range numLists).flatMap bins ++ used

/-- All blocks on the lists have this property. -/
def Lists (P : Nat → Prop) (bins : Nat → List Nat) : Prop := ∀ k < numLists, ∀ b ∈ bins k, P b

/-- The blocks lie in memory of the kernel and do not overlap. -/
structure Spread (h : UHeap) (ns : List Nat) : Prop where
  disjoint : ns.Pairwise fun b c => (h.extent b).Disjoint (h.extent c)
  header : ∀ b ∈ ns, memHeader ≤ h.size b
  inside : ∀ b ∈ ns, ∃ e ∈ h.owned, e.base ≤ b ∧ b + h.size b ≤ e.base + e.len
  room : ∀ e ∈ h.owned, 0 < e.base ∧ e.base + e.len ≤ 2 ^ 32

/-- The lists hold blocks of their sizes. -/
structure Shape (h : UHeap) (bins : Nat → List Nat) (used : List Nat) : Prop where
  chain : ∀ k < numLists, Chain h.next (h.head k) (bins k)
  sized : ∀ k < numLists, ∀ b ∈ bins k, Sized k (h.size b)
  spread : h.Spread (nodes bins used)

/-- Memory of the kernel that no block has. -/
structure Spare (h : UHeap) (ns : List Nat) (a n : Nat) : Prop where
  owned : ∃ e ∈ h.owned, e.base ≤ a ∧ a + n ≤ e.base + e.len
  apart : ∀ b ∈ ns, a + n ≤ b ∨ b + h.size b ≤ a

/-- The kernel has not handed this memory out before. -/
structure FreshAt (owned : List Extent) (a n : Nat) : Prop where
  pos : 0 < a
  fits : a + n ≤ 2 ^ 32
  fresh : ∀ e ∈ owned, e.Disjoint ⟨a, n⟩

/-- The bytes of these blocks are the same. -/
def Keeps (h h' : UHeap) (ns : List Nat) : Prop :=
  ∀ b ∈ ns, ∀ x, (h.extent b).Has x → h'.mem x = h.mem x

variable {h' : UHeap} {ns ms used : List Nat} {bins : Nat → List Nat} {l l₁ l₂ : List Nat}

theorem Lists.update {P : Nat → Prop} (hP : Lists P bins) (hl : ∀ b ∈ l, P b) :
    Lists P (Function.update bins k l) := by
  intro j hj b hb
  rcases eq_or_ne j k with rfl | hne
  · rw [Function.update_self] at hb
    exact hl b hb
  · rw [Function.update_of_ne hne] at hb
    exact hP j hj b hb

theorem Lists.trivial (bins : Nat → List Nat) : Lists (fun _ => True) bins :=
  fun _ _ _ _ => True.intro

namespace Spread

theorem perm (hs : h.Spread ns) (hp : ns.Perm ms) : h.Spread ms where
  disjoint := (hp.pairwise_iff fun hbc => hbc.symm).1 hs.disjoint
  header := fun b hb => hs.header b (hp.mem_iff.2 hb)
  inside := fun b hb => hs.inside b (hp.mem_iff.2 hb)
  room := hs.room

theorem sub (hs : h.Spread ns) (hsub : ms.Sublist ns) : h.Spread ms where
  disjoint := hs.disjoint.sublist hsub
  header := fun b hb => hs.header b (hsub.subset hb)
  inside := fun b hb => hs.inside b (hsub.subset hb)
  room := hs.room

theorem congr (hs : h.Spread ns) (hsize : ∀ b ∈ ns, h'.size b = h.size b)
    (howned : h'.owned = h.owned) : h'.Spread ns where
  disjoint := by
    refine hs.disjoint.imp_of_mem fun hb hc hbc => ?_
    rw [extent, extent, hsize _ hb, hsize _ hc]
    exact hbc
  header := fun b hb => by rw [hsize b hb]; exact hs.header b hb
  inside := fun b hb => by rw [hsize b hb, howned]; exact hs.inside b hb
  room := by rw [howned]; exact hs.room

theorem bounds (hs : h.Spread ns) (hb : b ∈ ns) : 0 < b ∧ b + h.size b ≤ 2 ^ 32 := by
  obtain ⟨e, he, hlo, hhi⟩ := hs.inside b hb
  have hroom := hs.room e he
  omega

theorem apart (hs : h.Spread ns) (hb : b ∈ ns) (hc : c ∈ ns) (hne : b ≠ c) :
    b + h.size b ≤ c ∨ c + h.size c ≤ b := by
  have hsymm : Std.Symm fun b c => (h.extent b).Disjoint (h.extent c) :=
    ⟨fun _ _ hbc => hbc.symm⟩
  have hdisjoint := hs.disjoint.forall hb hc hne
  have hb' := hs.header b hb
  have hc' := hs.header c hc
  rw [memHeader] at hb' hc'
  exact hdisjoint.apart (show 0 < h.size b by omega) (show 0 < h.size c by omega)

theorem separate (hs : h.Spread ns) (hb : b ∈ ns) (hc : c ∈ ns) : Separate b c := by
  rcases eq_or_ne b c with rfl | hne
  · exact .inl rfl
  · have hapart := hs.apart hb hc hne
    have hb' := hs.header b hb
    have hc' := hs.header c hc
    exact .inr (by omega)

theorem nodup (hs : h.Spread ns) : ns.Nodup := by
  refine hs.disjoint.imp_of_mem fun {b c} hb _ hbc => ?_
  rintro rfl
  have hheader := hs.header b hb
  rw [memHeader] at hheader
  apply hbc b
  simp only [Extent.Has, extent]
  omega

end Spread

namespace Keeps

theorem refl (h : UHeap) (ns : List Nat) : Keeps h h ns := fun _ _ _ _ => rfl

theorem mono (hk : Keeps h h' ns) (hsub : ∀ b ∈ ms, b ∈ ns) : Keeps h h' ms :=
  fun b hb => hk b (hsub b hb)

/-- What is kept of a block includes its header. -/
theorem word (hk : Keeps h h' ns) (hs : h.Spread ns) (hb : b ∈ ns) (hn : n + 4 ≤ memHeader) :
    h'.mem.load (b + n) 4 = h.mem.load (b + n) 4 := by
  have hheader := hs.header b hb
  apply Mem.load_congr
  intro x hlo hhi
  refine hk b hb x ?_
  simp only [Extent.Has, extent]
  omega

theorem size (hk : Keeps h h' ns) (hs : h.Spread ns) (hb : b ∈ ns) : h'.size b = h.size b :=
  hk.word (n := 0) hs hb (by decide)

theorem flags (hk : Keeps h h' ns) (hs : h.Spread ns) (hb : b ∈ ns) : h'.flags b = h.flags b :=
  hk.word hs hb (by decide)

theorem next (hk : Keeps h h' ns) (hs : h.Spread ns) (hb : b ∈ ns) : h'.next b = h.next b :=
  hk.word hs hb (by decide)

theorem trans {h'' : UHeap} (hk : Keeps h h' ns) (hs : h.Spread ns) (hk' : Keeps h' h'' ns) :
    Keeps h h'' ns := by
  intro b hb x hx
  rw [← hk b hb x hx]
  refine hk' b hb x ?_
  rwa [extent, hk.size hs hb]

/-- A change within one block keeps the others. -/
theorem of_block (hs : h.Spread ns) (ha : a ∈ ns) (hms : ∀ b ∈ ms, b ∈ ns ∧ b ≠ a)
    (hsame : ∀ x, ¬ (h.extent a).Has x → h'.mem x = h.mem x) : Keeps h h' ms := by
  intro b hb x hx
  obtain ⟨hbns, hne⟩ := hms b hb
  have hapart := hs.apart hbns ha hne
  refine hsame x fun hax => ?_
  simp only [Extent.Has, extent] at hx hax
  omega

end Keeps

theorem Spare.congr (hspare : h.Spare ns a n) (howned : h'.owned = h.owned)
    (hsize : ∀ b ∈ ms, b ∈ ns ∧ h'.size b = h.size b) : h'.Spare ms a n where
  owned := by
    rw [howned]
    exact hspare.owned
  apart := by
    intro b hb
    rw [(hsize b hb).2]
    exact hspare.apart b (hsize b hb).1

/-! ## Moves -/

namespace Shape

/-- Taking a block off one list or putting it on one changes no other list. -/
theorem move (hs : h.Shape bins used) {bins' : Nat → List Nat} {used' : List Nat}
    (hk : k < numLists) (hperm : (nodes bins used).Perm (nodes bins' used'))
    (hsize : ∀ c ∈ nodes bins used, h'.size c = h.size c) (howned : h'.owned = h.owned)
    (hother : ∀ j < numLists, j ≠ k → bins' j = bins j ∧ h'.head j = h.head j ∧
      ∀ c ∈ bins j, h'.next c = h.next c)
    (hchain : Chain h'.next (h'.head k) (bins' k))
    (hsized : ∀ b ∈ bins' k, Sized k (h.size b)) : h'.Shape bins' used' := by
  have hspread := (hs.spread.congr hsize howned).perm hperm
  refine ⟨fun j hj => ?_, fun j hj b hb => ?_, hspread⟩
  · rcases eq_or_ne j k with rfl | hne
    · exact hchain
    · obtain ⟨hbins, hhead, hnext⟩ := hother j hj hne
      rw [hbins, hhead]
      exact (hs.chain j hj).congr hnext
  · have hmem : b ∈ nodes bins used := by
      refine hperm.mem_iff.2 (List.mem_append_left _ (List.mem_flatMap.2 ⟨j, ?_, hb⟩))
      exact List.mem_range.2 hj
    rw [hsize b hmem]
    rcases eq_or_ne j k with rfl | hne
    · exact hsized b hb
    · rw [(hother j hj hne).1] at hb
      exact hs.sized j hj b hb

theorem mem_bin (hk : k < numLists) (hb : b ∈ bins k) : b ∈ nodes bins used :=
  List.mem_append_left _ (List.mem_flatMap.2 ⟨k, List.mem_range.2 hk, hb⟩)

theorem mem_used (hb : b ∈ used) : b ∈ nodes bins used := List.mem_append_right _ hb

theorem nodes_cons : (nodes bins (b :: used)).Perm (b :: nodes bins used) := List.perm_middle

/-- A block that leaves a list is with the others. -/
theorem nodes_take (hk : k < numLists) (hl : (bins k).Perm (b :: l)) :
    (nodes bins used).Perm (nodes (Function.update bins k l) (b :: used)) := by
  have hbins : ((List.range numLists).flatMap bins).Perm
      (b :: (List.range numLists).flatMap (Function.update bins k l)) := by
    refine flatMap_update_perm hk ?_ fun j hj => (Function.update_of_ne hj _ _).symm
    rwa [Function.update_self]
  exact (hbins.append_right used).trans nodes_cons.symm

/-- A block that is put on a list is no longer with the others. -/
theorem nodes_put (hk : k < numLists) :
    (nodes bins (b :: used)).Perm (nodes (Function.update bins k (b :: bins k)) used) := by
  have hlist : (Function.update bins k (b :: bins k) k).Perm (b :: bins k) := by
    rw [Function.update_self]
  have htake : (nodes (Function.update bins k (b :: bins k)) used).Perm _ := nodes_take hk hlist
  rw [Function.update_idem, Function.update_eq_self] at htake
  exact htake.symm

theorem head_lt (hs : h.Shape bins used) (hk : k < numLists) : h.head k < 2 ^ 32 := by
  have hchain := hs.chain k hk
  rcases Nat.eq_zero_or_pos (h.head k) with hzero | hpos
  · omega
  · obtain ⟨l, hl⟩ := hchain.ne_nil (by omega)
    have hmem : h.head k ∈ nodes bins used := mem_bin hk (by rw [hl]; exact List.mem_cons_self)
    have hbounds := hs.spread.bounds hmem
    have hheader := hs.spread.header _ hmem
    rw [memHeader] at hheader
    omega

theorem bin_nodup (hs : h.Shape bins used) (hk : k < numLists) : (bins k).Nodup :=
  (List.nodup_flatMap.1 (List.nodup_append.1 hs.spread.nodup).1).1 k (List.mem_range.2 hk)

/-- No block is on two lists. -/
theorem lists_disjoint (hs : h.Shape bins used) {j : Nat} (hj : j < numLists) (hk : k < numLists)
    (hne : j ≠ k) : (bins j).Disjoint (bins k) := by
  have hpairs := (List.nodup_flatMap.1 (List.nodup_append.1 hs.spread.nodup).1).2
  have hsymm : Std.Symm (Function.onFun List.Disjoint bins) :=
    ⟨fun _ _ hd _ hb ha => hd ha hb⟩
  exact hpairs.forall (List.mem_range.2 hj) (List.mem_range.2 hk) hne

theorem setFlags (hs : h.Shape bins used) (hb : b ∈ nodes bins used) :
    (h.setFlags b n).Shape bins used where
  chain := fun k hk =>
    (hs.chain k hk).congr fun _ hc => next_setFlags (hs.spread.separate hb (mem_bin hk hc))
  sized := by
    intro k hk c hc
    rw [size_setFlags (hs.spread.separate hb (mem_bin hk hc))]
    exact hs.sized k hk c hc
  spread := hs.spread.congr (fun _ hc => size_setFlags (hs.spread.separate hb hc)) rfl

/-- Putting a block on a list. -/
theorem push (hs : h.Shape bins (b :: used)) (hk : k < numLists) (hsized : Sized k (h.size b)) :
    ((h.setNext b (h.head k)).setHead k b).Shape (Function.update bins k (b :: bins k)) used := by
  have hmem : b ∈ nodes bins (b :: used) := mem_used List.mem_cons_self
  have hnodup := nodes_cons.nodup_iff.1 hs.spread.nodup
  have hout (j) (hj : j < numLists) (c) (hc : c ∈ bins j) : c ≠ b := by
    rintro rfl
    exact (List.nodup_cons.1 hnodup).1 (mem_bin hj hc)
  have hnext (j) (hj : j < numLists) (c) (hc : c ∈ bins j) :
      ((h.setNext b (h.head k)).setHead k b).next c = h.next c := by
    rw [next_setHead]
    exact next_setNext_of_ne (hs.spread.separate hmem (mem_bin hj hc)) (hout j hj c hc)
  refine hs.move hk (nodes_put hk) (fun c hc => ?_) owned_setHead
    (fun j hj hne => ⟨?_, ?_, hnext j hj⟩) ?_ ?_
  · rw [size_setHead]
    exact size_setNext (hs.spread.separate hmem hc)
  · exact Function.update_of_ne hne _ _
  · rw [head_setHead_of_ne hj hk hne]
    rfl
  · rw [head_setHead_self, Function.update_self]
    refine .cons (hs.spread.bounds hmem).1.ne' ?_
    rw [next_setHead, next_setNext_self (hs.head_lt hk)]
    exact (hs.chain k hk).congr (hnext k hk)
  · intro c hc
    rw [Function.update_self] at hc
    rcases List.mem_cons.1 hc with rfl | hc
    · exact hsized
    · exact hs.sized k hk c hc

/-- Taking the first block off a list. -/
theorem pop (hs : h.Shape bins used) (hk : k < numLists) (hl : bins k = b :: l) :
    (h.setHead k (h.next b)).Shape (Function.update bins k l) (b :: used) := by
  have hchain := hs.chain k hk
  rw [hl] at hchain
  refine hs.move hk (nodes_take hk (by rw [hl])) (fun c _ => size_setHead) owned_setHead
    (fun j hj hne => ⟨?_, ?_, fun c _ => next_setHead⟩) ?_ fun c hc => ?_
  · exact Function.update_of_ne hne _ _
  · exact head_setHead_of_ne hj hk hne
  · rw [head_setHead_self, Function.update_self]
    exact hchain.head_cons.2.2.congr fun c _ => next_setHead
  · rw [Function.update_self] at hc
    exact hs.sized k hk c (by rw [hl]; exact List.mem_cons_of_mem b hc)

/-- Taking a block from behind another one off a list. -/
theorem unlink (hs : h.Shape bins used) (hk : k < numLists) (hl : bins k = l₁ ++ p :: b :: l₂) :
    (h.setNext p (h.next b)).Shape (Function.update bins k (l₁ ++ p :: l₂)) (b :: used) := by
  have hp : p ∈ bins k := by rw [hl]; simp
  have hmem : p ∈ nodes bins used := mem_bin hk hp
  have hnodup := hs.bin_nodup hk
  have hnext (j) (hj : j < numLists) (c) (hc : c ∈ bins j) (hne : c ≠ p) :
      (h.setNext p (h.next b)).next c = h.next c :=
    next_setNext_of_ne (hs.spread.separate hmem (mem_bin hj hc)) hne
  have hchain := hs.chain k hk
  refine hs.move hk (nodes_take hk ?_) (fun c hc => size_setNext (hs.spread.separate hmem hc)) rfl
    (fun j hj hne => ⟨?_, rfl, fun c hc => hnext j hj c hc ?_⟩) ?_ fun c hc => ?_
  · rw [hl]
    exact (List.Perm.append_left _ (List.Perm.swap ..)).trans List.perm_middle
  · exact Function.update_of_ne hne _ _
  · -- the block whose `next` changes is on the list `k` alone
    rintro rfl
    exact List.disjoint_left.1 (hs.lists_disjoint hj hk hne) hc hp
  · rw [Function.update_self]
    rw [hl] at hchain hnodup
    refine hchain.unlink hnodup (next_setNext_self next_lt) fun c hc hne => ?_
    rw [← hl] at hc
    exact hnext k hk c hc hne
  · rw [Function.update_self] at hc
    exact hs.sized k hk c (by rw [hl]; simp at hc ⊢; tauto)

/-- What a call does to other memory leaves the blocks as they are. -/
theorem of_keeps (hs : h.Shape bins used) (hkeeps : Keeps h h' (nodes bins used))
    (hhead : ∀ k < numLists, h'.head k = h.head k) (howned : h'.owned = h.owned) :
    h'.Shape bins used where
  chain := by
    intro k hk
    rw [hhead k hk]
    exact (hs.chain k hk).congr fun c hc => hkeeps.next hs.spread (mem_bin hk hc)
  sized := by
    intro k hk c hc
    rw [hkeeps.size hs.spread (mem_bin hk hc)]
    exact hs.sized k hk c hc
  spread := hs.spread.congr (fun c hc => hkeeps.size hs.spread hc) howned

/-- A block may be forgotten. -/
theorem drop (hs : h.Shape bins (b :: used)) : h.Shape bins used where
  chain := hs.chain
  sized := hs.sized
  spread := hs.spread.sub ((List.sublist_cons_self b used).append_left _)

theorem perm {used' : List Nat} (hs : h.Shape bins used) (hp : used.Perm used') :
    h.Shape bins used' where
  chain := hs.chain
  sized := hs.sized
  spread := hs.spread.perm (hp.append_left _)

theorem spread_used (hs : h.Shape bins used) : h.Spread used :=
  hs.spread.sub (List.sublist_append_right _ _)

/-! ## Fresh memory -/

/-- Memory from the kernel belongs to no block. -/
theorem obtain (hs : h.Shape bins used) (hfresh : FreshAt h.owned a n) (hn : 0 < n) :
    ({ h with owned := ⟨a, n⟩ :: h.owned } : UHeap).Shape bins used ∧
      ({ h with owned := ⟨a, n⟩ :: h.owned } : UHeap).Spare (nodes bins used) a n := by
  have hspread : ({ h with owned := ⟨a, n⟩ :: h.owned } : UHeap).Spread (nodes bins used) := by
    refine ⟨hs.spread.disjoint, hs.spread.header, fun c hc => ?_, fun e he => ?_⟩
    · obtain ⟨e, he, hin⟩ := hs.spread.inside c hc
      exact ⟨e, List.mem_cons_of_mem _ he, hin⟩
    · rcases List.mem_cons.1 he with rfl | he
      · exact ⟨hfresh.pos, hfresh.fits⟩
      · exact hs.spread.room e he
  refine ⟨⟨hs.chain, hs.sized, hspread⟩, ⟨_, List.mem_cons_self, le_rfl, le_rfl⟩, fun c hc => ?_⟩
  obtain ⟨e, he, hlo, hhi⟩ := hs.spread.inside c hc
  have hheader := hs.spread.header c hc
  rw [memHeader] at hheader
  have hapart := (hfresh.fresh e he).apart (by omega) hn
  change a + n ≤ c ∨ c + h.size c ≤ a
  simp only at hapart
  omega

/-- Making a block at the start of memory that no block has. -/
theorem grow (hs : h.Shape bins used) (hspare : h.Spare (nodes bins used) a n)
    (hheader : memHeader ≤ k) (hkn : k ≤ n) :
    (h.setSize a k).Shape bins (a :: used) ∧ Keeps h (h.setSize a k) (nodes bins used) ∧
      (h.setSize a k).size a = k ∧
        (h.setSize a k).Spare (nodes bins (a :: used)) (a + k) (n - k) := by
  obtain ⟨e, he, hlo, hhi⟩ := hspare.owned
  have hroom := hs.spread.room e he
  rw [memHeader] at hheader
  have hkeeps : Keeps h (h.setSize a k) (nodes bins used) := by
    intro c hc x hx
    have hapart := hspare.apart c hc
    simp only [Extent.Has, extent] at hx
    exact Mem.store_of_not_mem (by omega)
  have hself : (h.setSize a k).size a = k := size_setSize_self (by omega)
  have hold := hs.of_keeps hkeeps (fun _ _ => rfl) rfl
  have hapart (c) (hc : c ∈ nodes bins used) : a + n ≤ c ∨ c + (h.setSize a k).size c ≤ a := by
    rw [hkeeps.size hs.spread hc]
    exact hspare.apart c hc
  have hspread : (h.setSize a k).Spread (a :: nodes bins used) := by
    refine ⟨List.pairwise_cons.2 ⟨fun c hc x hx => ?_, hold.spread.disjoint⟩,
      List.forall_mem_cons.2 ⟨?_, hold.spread.header⟩,
      List.forall_mem_cons.2 ⟨⟨e, he, hlo, ?_⟩, hold.spread.inside⟩, hold.spread.room⟩
    · have hac := hapart c hc
      simp only [Extent.Has, extent, hself] at hx
      omega
    · rw [hself, memHeader]
      exact hheader
    · rw [hself]
      omega
  refine ⟨⟨hold.chain, hold.sized, hspread.perm nodes_cons.symm⟩, hkeeps, hself,
    ⟨e, he, by omega, by omega⟩, fun c hc => ?_⟩
  rcases List.mem_cons.1 (nodes_cons.mem_iff.1 hc) with rfl | hc
  · rw [hself]
    omega
  · have hac := hapart c hc
    omega

end Shape

end UHeap

end Kaku

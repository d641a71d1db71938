-- SUMMARY: Runs of a program that allocates: the live allocations keep their bytes and never overlap.
import Kaku.User.MallocOps
import Mathlib.Data.List.Infix

/-!
# Runs of the user allocator

The abstract heap is the list of the live allocations, each with its bytes. A call of
the allocator changes it as the standard library has it. The heap in memory follows it:
it holds the bytes of all live allocations, without overlaps.
-/

namespace Kaku

namespace UHeap

/-! ## The abstract heap -/

structure Alloc where
  ptr : Nat
  bytes : List UInt8

def Alloc.range (a : Alloc) : Extent := ⟨a.ptr, a.bytes.length⟩

/-- Where the header of an allocation is. -/
def Alloc.block (a : Alloc) : Nat := a.ptr - memHeader

/-- The allocation with some of its bytes replaced. -/
def Alloc.patch (a : Alloc) (off : Nat) (bytes : List UInt8) : Alloc :=
  { a with bytes := a.bytes.take off ++ bytes ++ a.bytes.drop (off + bytes.length) }

def give (p : Nat) (bytes : List UInt8) (live : List Alloc) : List Alloc :=
  if p = 0 then live else ⟨p, bytes⟩ :: live

def drop (ptr : Nat) (live : List Alloc) : List Alloc := live.eraseP fun a => a.ptr = ptr

def contents (ptr : Nat) (live : List Alloc) : List UInt8 :=
  ((live.find? fun a => a.ptr = ptr).map Alloc.bytes).getD []

/-- What a program does with its heap: the calls of the allocator, and writing to what it
has allocated. -/
inductive Call
  | malloc (size : Nat)
  | calloc (count size : Nat)
  | realloc (ptr size : Nat)
  | free (ptr : Nat)
  | write (ptr off : Nat) (bytes : List UInt8)

def Fits (size : Nat) : Prop := size + memHeader < 2 ^ 32

/-- Only live pointers are passed, and sizes fit, as all those below 2^31 do. -/
def Call.Allowed (live : List Alloc) : Call → Prop
  | malloc size => Fits size
  | calloc count size => Fits (count * size)
  | realloc ptr size => (ptr = 0 ∨ ∃ a ∈ live, a.ptr = ptr) ∧ Fits size
  | free ptr => ptr = 0 ∨ ∃ a ∈ live, a.ptr = ptr
  | write ptr off bytes => ∃ a ∈ live, a.ptr = ptr ∧ off + bytes.length ≤ a.bytes.length

/-- The abstract heap after a call that returned `p`. The bytes that the call leaves open
are those in memory. -/
def Call.effect (p : Nat) (m : Mem) (live : List Alloc) : Call → List Alloc
  | malloc size => give p (m.peek p size) live
  | calloc count size => give p (List.replicate (count * size) 0) live
  | realloc ptr size =>
    if ptr ≠ 0 ∧ size = 0 then drop ptr live
    else if p = 0 then live
    else
      let kept := (contents ptr live).take size
      ⟨p, kept ++ m.peek (p + kept.length) (size - kept.length)⟩ :: drop ptr live
  | free ptr => drop ptr live
  | write ptr off bytes => live.map fun a => if a.ptr = ptr then a.patch off bytes else a

/-! ## Runs -/

def Call.exec (os : Os) (h : UHeap) : Call → K (Nat × UHeap)
  | malloc size => h.malloc os size
  | calloc count size => h.calloc os count size
  | realloc ptr size => h.realloc os ptr size
  | free ptr => .ok (0, h.free os ptr)
  | write ptr off bytes =>
    .ok (0, { h with mem := h.mem.blit (ptr + off) bytes.length fun k => bytes.getD k 0 })

/-- The variables of the allocator when the program starts. -/
structure Initial (h : UHeap) : Prop where
  small : ∀ ci < memNumClasses, h.memFreeLists ci = 0
  large : h.memLargeFree = 0
  owned : h.owned = []

/-- The heaps that a program gets to, with the abstract heaps. -/
inductive Run : UHeap → List Alloc → Prop
  | start {h : UHeap} : h.Initial → Run h []
  | call {h h' : UHeap} {live : List Alloc} {c : Call} {os : Os} {p : Nat} :
      Run h live → c.Allowed live → FreshAnswers os h.owned → c.exec os h = .ok (p, h') →
      Run h' (c.effect p h'.mem live)

/-- Memory holds the abstract heap. -/
structure Refines (h : UHeap) (live : List Alloc) : Prop where
  bytes : ∀ a ∈ live, h.mem.peek a.ptr a.bytes.length = a.bytes
  ranges : live.Pairwise fun a c => a.range.Disjoint c.range
  headers : ∀ a ∈ live, ∀ c ∈ live, a.range.Disjoint ⟨c.block, memHeader⟩
  lists : ∀ k < numLists, ∃ l, Chain h.next (h.head k) l ∧
    ∀ b ∈ l, ∀ a ∈ live, a.range.Disjoint (h.extent b)

/-! ## The invariant -/

/-- An allocation is in a block of its own that `free` knows how to handle. -/
structure Live (h : UHeap) (a : Alloc) : Prop where
  header : memHeader ≤ a.ptr
  fits : a.bytes.length + memHeader ≤ h.size a.block
  usable : h.Usable a.block
  bytes : h.mem.peek a.ptr a.bytes.length = a.bytes

def Inv (h : UHeap) (live : List Alloc) : Prop :=
  (∃ bins, h.Shape bins (live.map Alloc.block)) ∧ ∀ a ∈ live, h.Live a

variable {os : Os} {h h' : UHeap} {live live' : List Alloc} {a : Alloc} {used : List Nat}
  {b n p ptr off size : Nat} {bytes : List UInt8}

theorem Live.keep (hlive : h.Live a) (hs : h.Spread used) (ha : a.block ∈ used)
    (hkeeps : Keeps h h' used) : h'.Live a where
  header := hlive.header
  fits := by
    rw [hkeeps.size hs ha]
    exact hlive.fits
  usable := by
    rw [Usable, hkeeps.size hs ha, hkeeps.flags hs ha]
    exact hlive.usable
  bytes := by
    have hheader := hlive.header
    have hfits := hlive.fits
    refine (Mem.peek_congr fun k hk => ?_).trans hlive.bytes
    refine hkeeps _ ha _ ?_
    simp only [Extent.Has, extent, Alloc.block] at hfits ⊢
    omega

theorem Inv.spread (hinv : h.Inv live) : h.Spread (live.map Alloc.block) := by
  obtain ⟨⟨bins, hs⟩, -⟩ := hinv
  exact hs.spread_used

theorem Inv.perm (hinv : h.Inv live) (hp : live.Perm live') : h.Inv live' := by
  obtain ⟨⟨bins, hs⟩, hlive⟩ := hinv
  exact ⟨⟨bins, hs.perm (hp.map Alloc.block)⟩, fun a ha => hlive a (hp.mem_iff.2 ha)⟩

/-- What a call leaves alone stays live. -/
theorem Inv.keep (hinv : h.Inv live) {bins : Nat → List Nat}
    (hs : h'.Shape bins (live.map Alloc.block)) (hkeeps : Keeps h h' (live.map Alloc.block)) :
    h'.Inv live :=
  ⟨⟨bins, hs⟩, fun a ha => (hinv.2 a ha).keep hinv.spread (List.mem_map_of_mem ha) hkeeps⟩

theorem refines_of_inv (hinv : h.Inv live) : h.Refines live := by
  obtain ⟨⟨bins, hs⟩, hlive⟩ := hinv
  have hpairs := List.pairwise_map.1 hs.spread_used.disjoint
  have hrange {a : Alloc} (ha : a ∈ live) (x : Nat) (hx : a.range.Has x) :
      a.block + memHeader ≤ x ∧ x < a.block + h.size a.block := by
    have hheader := (hlive a ha).header
    have hfits := (hlive a ha).fits
    simp only [Extent.Has, Alloc.range, Alloc.block] at hx hfits ⊢
    omega
  have hapart {a c : Alloc} (ha : a ∈ live) (hc : c ∈ live) (hne : a.block ≠ c.block) :=
    hs.spread_used.apart (List.mem_map_of_mem ha) (List.mem_map_of_mem hc) hne
  refine ⟨fun a ha => (hlive a ha).bytes, ?_, fun a ha c hc x hx => ?_, fun k hk => ?_⟩
  · refine hpairs.imp_of_mem fun {a c} ha hc hac x hx => hac x ?_
    have hxa := hrange ha x hx.1
    have hxc := hrange hc x hx.2
    simp only [Extent.Has, extent]
    omega
  · have hxa := hrange ha x hx.1
    have hheader := hs.spread_used.header _ (List.mem_map_of_mem hc)
    have hxc := hx.2
    simp only [Extent.Has] at hxc
    rcases eq_or_ne a.block c.block with heq | hne
    · omega
    · have hac := hapart ha hc hne
      omega
  · refine ⟨bins k, hs.chain k hk, fun b hb a ha x hx => ?_⟩
    have hxa := hrange ha x hx.1
    have hxb := hx.2
    simp only [Extent.Has, extent] at hxb
    have hbmem : b ∈ nodes bins (live.map Alloc.block) := Shape.mem_bin hk hb
    have hamem : a.block ∈ nodes bins (live.map Alloc.block) :=
      Shape.mem_used (List.mem_map_of_mem ha)
    have hne := bin_ne_used hs hk hb (List.mem_map_of_mem ha)
    have hac := hs.spread.apart hbmem hamem hne.symm
    omega

theorem inv_initial (hinit : h.Initial) : h.Inv [] := by
  have hnodes : nodes (fun _ => []) [] = [] := by
    rw [nodes, List.append_nil, List.flatMap_eq_nil_iff]
    intro k _
    rfl
  have hspread : h.Spread (nodes (fun _ => []) []) := by
    rw [hnodes]
    refine ⟨.nil, by simp, by simp, ?_⟩
    rw [hinit.owned]
    simp
  refine ⟨⟨fun _ => [], ⟨fun k hk => ?_, by simp, hspread⟩⟩, by simp⟩
  have hhead : h.head k = 0 := by
    rw [head]
    split
    · rename_i hsmall
      exact hinit.small k hsmall
    · exact hinit.large
  rw [hhead]
  exact .nil

/-! ## Calls -/

/-- A successful allocation joins the live ones. -/
theorem Inv.give (hinv : h.Inv live) (bytes : List UInt8)
    (hgrants : h.Grants (live.map Alloc.block) (n + memHeader) (p, h')) (hlen : bytes.length ≤ n)
    (hbytes : p ≠ 0 → h'.mem.peek p bytes.length = bytes) : h'.Inv (give p bytes live) := by
  rcases hgrants with ⟨hnull, ⟨bins, hs⟩, hkeeps⟩ | ⟨b, hb, ⟨bins, hs⟩, hfits, husable, hkeeps⟩
  · rw [UHeap.give, if_pos hnull]
    exact hinv.keep hs hkeeps
  · simp only at hb hs hfits husable hkeeps
    have hp : p ≠ 0 := by
      rw [memHeader] at hb
      omega
    have hblock : (⟨p, bytes⟩ : Alloc).block = b := by
      simp only [Alloc.block]
      omega
    rw [UHeap.give, if_neg hp]
    refine ⟨⟨bins, ?_⟩, List.forall_mem_cons.2 ⟨⟨?_, ?_, ?_, hbytes hp⟩, fun a ha => ?_⟩⟩
    · rwa [List.map_cons, hblock]
    · simp only
      omega
    · rw [hblock]
      simp only
      omega
    · rwa [hblock]
    · exact (hinv.2 a ha).keep hinv.spread (List.mem_map_of_mem ha) hkeeps

theorem malloc_grants (hinv : h.Inv live) (hos : FreshAnswers os h.owned) (hsize : Fits size) :
    ∃ p h', h.malloc os size = .ok (p, h') ∧
      h.Grants (live.map Alloc.block) (max size 1 + memHeader) (p, h') := by
  obtain ⟨⟨bins, hs⟩, -⟩ := hinv
  obtain ⟨⟨p, h'⟩, hrun, hdeals⟩ := malloc_spec hs hos (.trivial bins) (.trivial os) hsize
  exact ⟨p, h', hrun, hdeals.grants⟩

theorem malloc_step (hinv : h.Inv live) (hos : FreshAnswers os h.owned) (hsize : Fits size) :
    ∃ p h', h.malloc os size = .ok (p, h') ∧ h'.Inv (UHeap.give p (h'.mem.peek p size) live) := by
  obtain ⟨p, h', hrun, hgrants⟩ := malloc_grants hinv hos hsize
  refine ⟨p, h', hrun, hinv.give _ hgrants ?_ fun _ => ?_⟩
  · rw [Mem.length_peek]
    exact Nat.le_max_left size 1
  · rw [Mem.length_peek]

theorem peek_zero {m : Mem} : (m.blit p n fun _ => 0).peek p n = List.replicate n 0 := by
  have hbytes : (m.blit p n fun _ => 0).peek p (List.replicate n (0 : UInt8)).length =
      List.replicate n 0 := by
    refine (Mem.peek_eq_iff _).2 fun k hk => ?_
    rw [List.length_replicate] at hk
    rw [Mem.blit_of_mem (by omega) (by omega), List.getElem_replicate]
  rwa [List.length_replicate] at hbytes

theorem calloc_step {count : Nat} (hinv : h.Inv live) (hos : FreshAnswers os h.owned)
    (hsize : Fits (count * size)) :
    ∃ p h', h.calloc os count size = .ok (p, h') ∧
      h'.Inv (UHeap.give p (List.replicate (count * size) 0) live) := by
  obtain ⟨p, h', hrun, hgrants⟩ := malloc_grants hinv hos hsize
  have hbytes : addr32 (count * size) = count * size := by
    rw [Fits] at hsize
    exact Nat.mod_eq_of_lt (by omega)
  rw [calloc, hbytes, hrun]
  generalize count * size = n at hgrants
  rcases eq_or_ne p 0 with rfl | hp
  · refine ⟨0, h', rfl, ?_⟩
    have hnone := hinv.give [] hgrants (Nat.zero_le _) fun hne => absurd rfl hne
    rwa [UHeap.give, if_pos rfl] at hnone ⊢
  · refine ⟨p, { h' with mem := h'.mem.blit p n fun _ => 0 }, ?_, ?_⟩
    · simp [bind, Except.bind, hp]
    · have hfilled := hgrants.fill hinv.spread hp (m := h'.mem.blit p n fun _ => 0) fun x hx =>
        Mem.blit_of_not_mem (by omega)
      refine hinv.give _ hfilled ?_ fun _ => ?_
      · rw [List.length_replicate]
        exact Nat.le_max_left n 1
      · rw [List.length_replicate]
        exact peek_zero

/-- The allocation at a live pointer. -/
theorem find_live (hptr : ∃ a ∈ live, a.ptr = ptr) :
    ∃ a, a.ptr = ptr ∧ contents ptr live = a.bytes ∧ live.Perm (a :: drop ptr live) := by
  induction live with
  | nil => simp at hptr
  | cons c live ih =>
    by_cases hc : c.ptr = ptr
    · refine ⟨c, hc, ?_, ?_⟩
      · simp [contents, hc]
      · simp [drop, hc]
    · obtain ⟨a, ha, hbytes, hperm⟩ := ih (by simpa [hc] using hptr)
      refine ⟨a, ha, ?_, ?_⟩
      · simpa [contents, hc] using hbytes
      · have hdrop : drop ptr (c :: live) = c :: drop ptr live := by simp [drop, hc]
        rw [hdrop]
        exact (hperm.cons c).trans (List.Perm.swap a c _)

theorem Inv.ptr_pos (hinv : h.Inv live) (ha : a ∈ live) : a.ptr ≠ 0 := by
  have hheader := (hinv.2 a ha).header
  rw [memHeader] at hheader
  omega

theorem Inv.drop_null (hinv : h.Inv live) : drop 0 live = live := by
  refine List.eraseP_of_forall_not fun a ha => ?_
  have hpos := hinv.ptr_pos ha
  simpa using hpos

/-- An allocation is given back. -/
theorem Inv.free (os : Os) (hinv : h.Inv (a :: live)) : (h.free os a.ptr).Inv live := by
  obtain ⟨⟨bins, hs⟩, hlive⟩ := hinv
  rw [List.map_cons] at hs
  have ha := hlive a List.mem_cons_self
  have hptr : a.ptr = a.block + memHeader := by
    rw [Alloc.block, Nat.sub_add_cancel ha.header]
  obtain ⟨⟨bins', hs', -⟩, hkeeps⟩ := free_spec os hs (.trivial bins) True.intro ha.usable
  rw [hptr]
  have hrest : h.Inv live := ⟨⟨bins, hs.drop⟩, fun c hc => hlive c (List.mem_cons_of_mem a hc)⟩
  exact hrest.keep hs' hkeeps

theorem free_step (hinv : h.Inv live) (hptr : ptr = 0 ∨ ∃ a ∈ live, a.ptr = ptr) :
    (h.free os ptr).Inv (drop ptr live) := by
  rcases hptr with rfl | hptr
  · rw [hinv.drop_null, UHeap.free, if_pos rfl]
    exact hinv
  · obtain ⟨a, rfl, -, hperm⟩ := find_live hptr
    exact (hinv.perm hperm).free os

/-! ### Reallocation -/

/-- A live allocation may get any size that its block has. -/
theorem Inv.resize (hinv : h.Inv (a :: live)) (hfits : size + memHeader ≤ h.size a.block) :
    h.Inv (⟨a.ptr, h.mem.peek a.ptr size⟩ :: live) := by
  obtain ⟨hshape, hlive⟩ := hinv
  have ha := hlive a List.mem_cons_self
  refine ⟨hshape, List.forall_mem_cons.2 ⟨⟨ha.header, ?_, ha.usable, ?_⟩, fun c hc =>
    hlive c (List.mem_cons_of_mem a hc)⟩⟩
  · rw [Mem.length_peek]
    exact hfits
  · rw [Mem.length_peek]

/-- What `realloc` keeps is in memory at the old place. -/
theorem peek_kept {m : Mem} (hbytes : m.peek ptr bytes.length = bytes) :
    m.peek ptr (bytes.take size).length = bytes.take size := by
  have htake := congrArg (List.take size) hbytes
  rwa [Mem.peek_take, ← List.length_take] at htake

/-- The block of a fresh allocation does not overlap one in use. -/
theorem copy_apart (hinv : h.Inv (a :: live))
    (hgrants : h.Grants ((a :: live).map Alloc.block) (n + memHeader) (p, h')) (hp : p ≠ 0)
    (hn : h.size a.block ≤ n + memHeader) :
    a.ptr + (h.size a.block - memHeader) ≤ p ∨ p + (h.size a.block - memHeader) ≤ a.ptr := by
  have hheader := (hinv.2 a List.mem_cons_self).header
  have hptr : a.ptr = a.block + memHeader := by
    rw [Alloc.block, Nat.sub_add_cancel hheader]
  rcases hgrants with ⟨hnull, -⟩ | ⟨b, hb, ⟨bins, hs⟩, hfits, -, hkeeps⟩
  · exact absurd hnull hp
  · simp only at hb hs hfits hkeeps
    rw [List.map_cons] at hs hkeeps
    have hsize : h'.size a.block = h.size a.block := by
      refine hkeeps.size ?_ List.mem_cons_self
      have hspread := hinv.spread
      rwa [List.map_cons] at hspread
    have hnodup := (List.nodup_cons.1 hs.spread_used.nodup).1
    have hne : b ≠ a.block := fun heq => hnodup (by rw [heq]; exact List.mem_cons_self)
    have hab := hs.spread_used.apart List.mem_cons_self
      (List.mem_cons_of_mem b List.mem_cons_self) hne
    omega

/-- The bytes that a copy reads are those of the old allocation. -/
theorem copied_bytes (p size : Nat) (hinv : h.Inv (a :: live))
    (hkeeps : Keeps h h' ((a :: live).map Alloc.block)) :
    ((h'.mem.blit p (h.size a.block - memHeader) fun k => h'.mem (a.ptr + k)).peek p
      (a.bytes.take size).length) = a.bytes.take size := by
  have ha := hinv.2 a List.mem_cons_self
  have hheader := ha.header
  have hfits := ha.fits
  refine (Mem.peek_congr fun k hk => ?_).trans (peek_kept ha.bytes)
  have hlen : k < a.bytes.length := hk.trans_le (List.length_take_le' size a.bytes)
  rw [Mem.blit_of_mem (by omega) (by omega), Nat.add_sub_cancel_left]
  refine hkeeps a.block (by simp) _ ?_
  simp only [Extent.Has, extent, Alloc.block] at hfits ⊢
  omega

/-- Growing: a new block, the old bytes, and the old block is given back. -/
theorem Inv.grown (os : Os) (size : Nat) (hinv : h.Inv (a :: live))
    (hsize : h.size a.block < size + memHeader)
    (hgrants : h.Grants ((a :: live).map Alloc.block) (max size 1 + memHeader) (p, h'))
    (hp : p ≠ 0) :
    let h₃ := ({ h' with mem := copyBytes p a.ptr (h.size a.block - memHeader) h'.mem }).free os a.ptr
    h₃.Inv (⟨p, h₃.mem.peek p size⟩ :: live) ∧
      h₃.mem.peek p (a.bytes.take size).length = a.bytes.take size := by
  intro h₃
  have hcopy := copyBytes_eq (m := h'.mem) (copy_apart hinv hgrants hp (by omega))
  have hkeeps : Keeps h h' ((a :: live).map Alloc.block) := by
    rcases hgrants with ⟨-, -, hkeeps⟩ | ⟨b, -, -, -, -, hkeeps⟩
    · exact hkeeps
    · exact hkeeps
  have hkept := copied_bytes p size hinv hkeeps
  rw [← hcopy] at hkept
  generalize hm : copyBytes p a.ptr (h.size a.block - memHeader) h'.mem = m at hcopy hkept
  have hfilled := hgrants.fill hinv.spread hp (m := m) fun x hx => by
    rw [hcopy]
    exact Mem.blit_of_not_mem (by omega)
  have hjoined := hinv.give (m.peek p size) hfilled (by rw [Mem.length_peek]; omega) fun _ => by
    rw [Mem.length_peek]
  rw [UHeap.give, if_neg hp] at hjoined
  have hfreed : h₃.Inv (⟨p, m.peek p size⟩ :: live) := by
    have hfree := (hjoined.perm (List.Perm.swap a _ live)).free os
    rwa [← hm] at hfree ⊢
  have hnew : h₃.mem.peek p size = m.peek p size := by
    have hbytes := (hfreed.2 _ List.mem_cons_self).bytes
    rwa [Mem.length_peek] at hbytes
  refine ⟨by rwa [hnew], ?_⟩
  rw [List.length_take, Nat.min_comm, ← Mem.peek_take, hnew, Mem.peek_take, Nat.min_comm,
    ← List.length_take]
  exact hkept

/-- The effect of a reallocation, where memory has the bytes that are kept. -/
theorem realloc_effect {m : Mem} (hcase : ¬ (ptr ≠ 0 ∧ size = 0)) (hp : p ≠ 0)
    (hkept : m.peek p ((contents ptr live).take size).length = (contents ptr live).take size) :
    (Call.realloc ptr size).effect p m live = ⟨p, m.peek p size⟩ :: drop ptr live := by
  have hlen : ((contents ptr live).take size).length ≤ size := List.length_take_le size _
  simp only [Call.effect, if_neg hcase, if_neg hp, Mem.append_peek hkept hlen]

theorem realloc_step (hinv : h.Inv live) (hos : FreshAnswers os h.owned)
    (hptr : ptr = 0 ∨ ∃ a ∈ live, a.ptr = ptr) (hsize : Fits size) :
    ∃ p h', h.realloc os ptr size = .ok (p, h') ∧
      h'.Inv ((Call.realloc ptr size).effect p h'.mem live) := by
  have hnull {ptr : Nat} {m : Mem} (hcase : ¬ (ptr ≠ 0 ∧ size = 0)) :
      (Call.realloc ptr size).effect 0 m live = live := by
    simp only [Call.effect, if_neg hcase, if_true]
  rcases hptr with rfl | hptr
  · obtain ⟨p, h', hrun, hinv'⟩ := malloc_step hinv hos hsize
    have hcase : ¬ (0 ≠ 0 ∧ size = 0) := by simp
    refine ⟨p, h', by rw [realloc, if_pos rfl, hrun], ?_⟩
    rcases eq_or_ne p 0 with rfl | hp
    · rw [UHeap.give, if_pos rfl] at hinv'
      rwa [hnull hcase]
    · have hnone : contents 0 live = [] := by
        rw [contents, List.find?_eq_none.2 fun a ha => ?_]
        · rfl
        · simpa using hinv.ptr_pos ha
      rw [UHeap.give, if_neg hp] at hinv'
      rw [realloc_effect hcase hp (by simp [hnone, Mem.peek]), hinv.drop_null]
      exact hinv'
  · obtain ⟨a, rfl, hbytes, hperm⟩ := find_live hptr
    have hpos : a.ptr ≠ 0 := hinv.ptr_pos (hperm.mem_iff.2 List.mem_cons_self)
    have hinv' := hinv.perm hperm
    have ha := hinv'.2 a List.mem_cons_self
    have hblock : sub32 a.ptr memHeader = a.block := sub32_of_le ha.header
    have hroom := ha.fits
    rw [realloc, if_neg hpos, hblock, sub32_of_le (by omega)]
    rcases Nat.eq_zero_or_pos size with rfl | hnonzero
    · refine ⟨0, h.free os a.ptr, rfl, ?_⟩
      have heffect : (Call.realloc a.ptr 0).effect 0 (h.free os a.ptr).mem live = drop a.ptr live :=
        if_pos ⟨hpos, rfl⟩
      rw [heffect]
      exact free_step hinv (.inr hptr)
    · have hcase : ¬ (a.ptr ≠ 0 ∧ size = 0) := by omega
      rw [if_neg hnonzero.ne']
      simp only
      split
      · -- the block is large enough
        refine ⟨a.ptr, h, rfl, ?_⟩
        rw [realloc_effect hcase hpos (by rw [hbytes]; exact peek_kept ha.bytes)]
        exact hinv'.resize (by omega)
      · obtain ⟨p, h', hrun, hgrants⟩ := malloc_grants hinv' hos hsize
        rw [hrun]
        -- without memory the old block stays as it is
        rcases eq_or_ne p 0 with rfl | hp
        · refine ⟨0, h', rfl, ?_⟩
          have hfailed := hinv'.give [] hgrants (Nat.zero_le _) fun hne => absurd rfl hne
          rw [UHeap.give, if_pos rfl] at hfailed
          rw [hnull hcase]
          exact hfailed.perm hperm.symm
        · obtain ⟨hgrown, hkept⟩ := hinv'.grown os size (by omega) hgrants hp
          refine ⟨p, _, if_neg hp, ?_⟩
          rw [realloc_effect hcase hp (by rw [hbytes]; exact hkept)]
          exact hgrown

/-! ### Writing to an allocation -/

theorem Inv.ptr_inj (hinv : h.Inv live) {c : Alloc} (ha : a ∈ live) (hc : c ∈ live)
    (heq : a.ptr = c.ptr) : a = c := by
  refine List.inj_on_of_nodup_map hinv.spread.nodup ha hc ?_
  rw [Alloc.block, Alloc.block, heq]

theorem length_patch (hoff : off + bytes.length ≤ a.bytes.length) :
    (a.patch off bytes).bytes.length = a.bytes.length := by
  simp only [Alloc.patch, List.length_append, List.length_take, List.length_drop]
  omega

theorem peek_patch {m : Mem} (hbytes : m.peek a.ptr a.bytes.length = a.bytes)
    (hoff : off + bytes.length ≤ a.bytes.length) :
    (m.blit (a.ptr + off) bytes.length fun k => bytes.getD k 0).peek a.ptr
      (a.patch off bytes).bytes.length = (a.patch off bytes).bytes := by
  have hold := (Mem.peek_eq_iff _).1 hbytes
  refine (Mem.peek_eq_iff _).2 fun k hk => ?_
  have hlen : k < a.bytes.length := by rwa [length_patch hoff] at hk
  have htake : (a.bytes.take off).length = off := List.length_take_of_le (by omega)
  simp only [Alloc.patch, List.append_assoc]
  rcases Nat.lt_or_ge k off with hbefore | hfrom
  · rw [Mem.blit_of_not_mem (by omega), List.getElem_append_left (by omega), List.getElem_take]
    exact hold k hlen
  · rw [List.getElem_append_right (by omega)]
    simp only [htake]
    rcases Nat.lt_or_ge k (off + bytes.length) with hin | hbehind
    · rw [Mem.blit_of_mem (by omega) (by omega), List.getElem_append_left (by omega)]
      have hindex : a.ptr + k - (a.ptr + off) = k - off := by omega
      rw [hindex, List.getD_eq_getElem?_getD, List.getElem?_eq_getElem (by omega), Option.getD_some]
    · rw [Mem.blit_of_not_mem (by omega), List.getElem_append_right (by omega), List.getElem_drop]
      have hindex : off + bytes.length + (k - off - bytes.length) = k := by omega
      simp only [hindex]
      exact hold k hlen

/-- The bytes of a live allocation may be overwritten. -/
theorem Inv.overwrite {m : Mem} (bytes : List UInt8) (hinv : h.Inv (a :: live))
    (hsame : ∀ x, x < a.ptr ∨ a.ptr + a.bytes.length ≤ x → m x = h.mem x)
    (hlen : bytes.length = a.bytes.length) (hbytes : m.peek a.ptr bytes.length = bytes) :
    ({ h with mem := m } : UHeap).Inv (⟨a.ptr, bytes⟩ :: live) := by
  obtain ⟨⟨bins, hs⟩, hlive⟩ := hinv
  rw [List.map_cons] at hs
  have ha := hlive a List.mem_cons_self
  have hheader := ha.header
  have hfits := ha.fits
  have hbase : a.ptr = a.block + memHeader := by rw [Alloc.block, Nat.sub_add_cancel hheader]
  obtain ⟨hs', hkeeps, hsize, hflags⟩ := hs.fill (m := m) fun x hx => hsame x (by omega)
  refine ⟨⟨bins, hs'⟩, List.forall_mem_cons.2 ⟨⟨hheader, ?_, ?_, hbytes⟩, fun c hc =>
    (hlive c (List.mem_cons_of_mem a hc)).keep hs.drop.spread_used (List.mem_map_of_mem hc) hkeeps⟩⟩
  · simp only [hlen]
    exact hfits.trans hsize.ge
  · have husable := ha.usable
    rwa [Usable, ← hsize, ← hflags] at husable

/-- Of two live allocations only one is at a pointer. -/
theorem Inv.ptr_ne (hinv : h.Inv (a :: live)) : ∀ c ∈ live, c.ptr ≠ a.ptr := by
  intro c hc heq
  have hnodup := hinv.spread.nodup
  rw [List.map_cons, List.nodup_cons] at hnodup
  refine hnodup.1 (List.mem_map.2 ⟨c, hc, ?_⟩)
  rw [Alloc.block, Alloc.block, heq]

theorem write_step {m : Mem} (hinv : h.Inv live)
    (hptr : ∃ a ∈ live, a.ptr = ptr ∧ off + bytes.length ≤ a.bytes.length) :
    ({ h with mem := h.mem.blit (ptr + off) bytes.length fun k => bytes.getD k 0 }).Inv
      ((Call.write ptr off bytes).effect n m live) := by
  obtain ⟨a, ha, rfl, hoff⟩ := hptr
  obtain ⟨a', heq, -, hperm⟩ := find_live ⟨a, ha, rfl⟩
  obtain rfl : a = a' := hinv.ptr_inj ha (hperm.mem_iff.2 List.mem_cons_self) heq.symm
  have hinv' := hinv.perm hperm
  have hwritten := hinv'.overwrite (a.patch off bytes).bytes
    (fun x hx => Mem.blit_of_not_mem (by omega)) (length_patch hoff)
    (peek_patch (hinv'.2 a List.mem_cons_self).bytes hoff)
  have hothers : ((drop a.ptr live).map fun c => if c.ptr = a.ptr then c.patch off bytes else c) =
      drop a.ptr live := by
    refine (List.map_congr_left fun c hc => ?_).trans (List.map_id _)
    exact if_neg (hinv'.ptr_ne c hc)
  have heffect := hperm.map fun c => if c.ptr = a.ptr then c.patch off bytes else c
  rw [List.map_cons, hothers, if_pos rfl] at heffect
  exact hwritten.perm heffect.symm

/-! ## Runs keep the invariant -/

/-- Every allowed call returns, and keeps the invariant. -/
theorem Inv.step (hinv : h.Inv live) (hos : FreshAnswers os h.owned) (c : Call)
    (hallowed : c.Allowed live) :
    ∃ p h', c.exec os h = .ok (p, h') ∧ h'.Inv (c.effect p h'.mem live) := by
  cases c with
  | malloc size => exact malloc_step hinv hos hallowed
  | calloc count size => exact calloc_step hinv hos hallowed
  | realloc ptr size => exact realloc_step hinv hos hallowed.1 hallowed.2
  | free ptr => exact ⟨0, h.free os ptr, rfl, free_step hinv hallowed⟩
  | write ptr off bytes => exact ⟨0, _, rfl, write_step hinv hallowed⟩

theorem Run.inv (hrun : Run h live) : h.Inv live := by
  induction hrun with
  | start hinit => exact inv_initial hinit
  | call _ hallowed hos hexec ih =>
    obtain ⟨p, h', hexec', hinv⟩ := ih.step hos _ hallowed
    rw [hexec] at hexec'
    cases hexec'
    exact hinv

/-- In every run memory holds the abstract heap, and every allowed call returns with a heap
that holds the next one. -/
theorem user_heap_refines (hrun : Run h live) :
    h.Refines live ∧ ∀ (c : Call) (os : Os), c.Allowed live → FreshAnswers os h.owned →
      ∃ p h', c.exec os h = .ok (p, h') ∧ h'.Refines (c.effect p h'.mem live) := by
  refine ⟨refines_of_inv hrun.inv, fun c os hallowed hos => ?_⟩
  obtain ⟨p, h', hexec, hinv⟩ := hrun.inv.step hos c hallowed
  exact ⟨p, h', hexec, refines_of_inv hinv⟩

/-- A kernel that has one page left, at 32 KiB. -/
def onePageOs : Os where
  sbrk := fun n => if n ≤ 4096 then 0x8000 else sbrkFailed
  mmap := fun _ => 0
  unmapped := fun _ => 0

def emptyHeap : UHeap where
  mem := fun _ => 0
  memFreeLists := fun _ => 0
  memLargeFree := 0
  owned := []

theorem onePageOs_fresh : FreshAnswers onePageOs [] where
  sbrk := by
    intro n
    simp only [onePageOs]
    split
    · exact .inr ⟨by decide, by omega, by simp⟩
    · exact .inl rfl
  mmap := fun _ => .inl rfl

/-- The last of the eight blocks of a fresh chunk is handed out first. -/
theorem user_heap_refines_malloc :
    ∃ h, emptyHeap.malloc onePageOs 3 = .ok (0x80F0, h) ∧
      h.Refines [⟨0x80F0, h.mem.peek 0x80F0 3⟩] := by
  have hstart : Run emptyHeap [] := .start ⟨fun _ _ => rfl, rfl, rfl⟩
  refine ⟨_, rfl, ?_⟩
  exact (user_heap_refines (.call hstart (c := .malloc 3)
    (show 3 + memHeader < 2 ^ 32 by decide) onePageOs_fresh rfl)).1

end UHeap

end Kaku

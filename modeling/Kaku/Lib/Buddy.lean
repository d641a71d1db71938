-- SUMMARY: The buddy allocator as operations on lists of addresses, one list for each order.
import Mathlib.Data.List.Basic

/-!
# Buddy allocation

A range of addresses is divided into blocks, and a block of order `o` has
`len o` bytes. For each order there is a list of the free blocks of that order. An
allocation halves the first block of the lowest list that has one, a release joins a
block with its buddy for as long as the buddy is free. Nothing is said here about
where the lists are kept.
-/

namespace Kaku

structure Block where
  base : Nat
  order : Nat

def updFree (free : Nat → List Nat) (o : Nat) (l : List Nat) : Nat → List Nat :=
  fun i => if i = o then l else free i

/-- The free lists, and the blocks that are handed out. -/
structure Buddy where
  start : Nat
  free : Nat → List Nat
  live : List Block

namespace Buddy

variable (len : Nat → Nat) (orders : Nat)

/-! ## Lists -/

/-- Halve a block `n` times, each time giving the upper half to its list. -/
def splitLists (free : Nat → List Nat) (base order : Nat) : (n : Nat) → Nat → List Nat
  | 0 => free
  | n + 1 =>
    splitLists
      (updFree free (order + n) ((base + len (order + n)) :: free (order + n))) base order n

/-- Take a block of the given order out of the lists. -/
def takeBlock (free : Nat → List Nat) (order : Nat) : Option ((Nat → List Nat) × Nat) :=
  match (List.range' order (orders - order)).find? fun i => !(free i).isEmpty with
  | none => none
  | some first =>
    match free first with
    | [] => none
    | base :: l => some (splitLists len (updFree free first l) base order (first - order), base)

/-- The block with which a block shares one of the next order. -/
def buddyOf (start order base : Nat) : Nat := start + ((base - start) ^^^ len order)

/-- Join a block with its buddy as long as that is free, at most `left` times. -/
def mergeLists (start : Nat) :
    (left : Nat) → (Nat → List Nat) → (order base : Nat) → (Nat → List Nat) × Nat × Nat
  | 0, free, order, base => (free, order, base)
  | left + 1, free, order, base =>
    let buddy := buddyOf len start order base
    if buddy ∈ free order then
      mergeLists start left (updFree free order ((free order).erase buddy)) (order + 1)
        (min base buddy)
    else (free, order, base)

/-- Put a block back into the lists. -/
def putBlock (start : Nat) (free : Nat → List Nat) (order base : Nat) : Nat → List Nat :=
  let (free, order, base) := mergeLists len start (orders - 1 - order) free order base
  updFree free order (base :: free order)

/-! ## The allocator -/

/-- The least order whose blocks have room for `size` bytes and one more. -/
def orderFor (size : Nat) : Option Nat := (List.range orders).find? fun k => size < len k

def alloc (b : Buddy) (size : Nat) : Option Buddy := do
  let order ← orderFor len orders size
  let (free, base) ← takeBlock len orders b.free order
  some { b with free := free, live := ⟨base, order⟩ :: b.live }

def release (b : Buddy) (base : Nat) : Option Buddy := do
  let block ← b.live.find? fun c => c.base = base
  some { b with
    free := putBlock len orders b.start b.free block.order block.base
    live := b.live.eraseP fun c => c.base = base }

/-! ## What the operations do to the lists -/

variable {len orders} {free : Nat → List Nat} {base order size k n i : Nat}

theorem splitLists_cases (len : Nat → Nat) (free : Nat → List Nat) (base order n i : Nat) :
    splitLists len free base order n i = free i ∨
      order ≤ i ∧ i < order + n ∧ ∃ a, splitLists len free base order n i = a :: free i := by
  induction n generalizing free with
  | zero => exact .inl rfl
  | succ n ih =>
    rw [splitLists]
    rcases ih (updFree free (order + n) ((base + len (order + n)) :: free (order + n))) with
      hsame | ⟨hle, hlt, a, hone⟩
    · rcases eq_or_ne i (order + n) with rfl | hi
      · right
        rw [hsame, updFree, if_pos rfl]
        exact ⟨by omega, by omega, _, rfl⟩
      · left
        rw [hsame, updFree, if_neg hi]
    · right
      rw [hone, updFree, if_neg (by omega)]
      exact ⟨hle, by omega, a, rfl⟩

/-- Merging takes blocks out of the lists and adds none. -/
theorem mergeLists_subset (len : Nat → Nat) (start left : Nat) (free : Nat → List Nat)
    (order base i : Nat) : (mergeLists len start left free order base).1 i ⊆ free i := by
  induction left generalizing free order base with
  | zero => exact List.Subset.refl _
  | succ left ih =>
    rw [mergeLists]
    split_ifs with hfree
    · apply List.Subset.trans (ih _ _ _)
      rw [updFree]
      split_ifs with hi
      · rw [hi]
        exact List.erase_subset
      · exact List.Subset.refl _
    · exact List.Subset.refl _

theorem orderFor_eq_some : orderFor len orders size = some k ↔
    k < orders ∧ size < len k ∧ ∀ j < k, len j ≤ size := by
  rw [orderFor, List.range_eq_range', List.find?_range'_eq_some]
  simp only [List.mem_range'_1, decide_eq_true_eq, Bool.not_eq_true', decide_eq_false_iff_not,
    Nat.not_lt]
  constructor
  · rintro ⟨hlt, ⟨-, hk⟩, hleast⟩
    exact ⟨by omega, hlt, fun j hj => hleast j (by omega) hj⟩
  · rintro ⟨hk, hlt, hleast⟩
    exact ⟨hlt, by omega, fun j _ hj => hleast j hj⟩

end Buddy

end Kaku

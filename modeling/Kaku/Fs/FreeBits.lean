-- SUMMARY: The clear bits of the bitmaps as a list, from which each allocation takes the head.
import Mathlib.Data.List.Nodup
import Mathlib.Data.List.ProdSigma
import Kaku.Fs.AllocRun

/-!
# The list of clear bits

From group 0 on, an allocation takes the first clear bit of the first group that has
one. So the clear bits, in the order of their groups, are a list that loses its head.
-/

namespace Kaku.Mount

/-- The clear bits in the bitmaps of `left` groups from `grp` on. -/
def freeBitsFrom (fs : Mount) (v : Volume) (r : Resource) (grp left : Nat) : List (Nat × Nat) :=
  (List.range' grp left ×ˢ List.range (8 * fs.blockSize)).filter fun b =>
     !fs.bitOf v v r b.1 b.2

def freeBits (fs : Mount) (v : Volume) (r : Resource) : List (Nat × Nat) :=
  fs.freeBitsFrom v r 0 fs.nbBlockGroups

variable {fs : Mount} {v v' : Volume} {r : Resource} {g i grp left t u : Nat}
  {rest : List (Nat × Nat)}

theorem mem_freeBits : (g, i) ∈ fs.freeBits v r ↔
    g < fs.nbBlockGroups ∧ i < 8 * fs.blockSize ∧ fs.bitOf v v r g i = false := by
  simp [freeBits, freeBitsFrom, List.mem_filter, List.mem_range'_1, and_assoc]

theorem nodup_freeBits : (fs.freeBits v r).Nodup :=
  (List.Nodup.product List.nodup_range' List.nodup_range).filter _

theorem freeBits_congr (h : ∀ g < fs.nbBlockGroups, ∀ i < 8 * fs.blockSize,
    fs.bitOf v' v' r g i = fs.bitOf v v r g i) : fs.freeBits v' r = fs.freeBits v r := by
  apply List.filter_congr
  rintro ⟨g, i⟩ hmem
  obtain ⟨hg, hi⟩ := List.mem_product.1 hmem
  rw [h g (by simpa using hg) i (List.mem_range.1 hi)]

/-- The list without the bit that has been taken. -/
theorem Taken.freeBits (h : fs.Taken v r g i v') (hl : fs.Layout v) (hg : g < fs.nbBlockGroups)
    (hhead : fs.freeBits v r = (g, i) :: rest) : fs.freeBits v' r = rest := by
  have hfilter : fs.freeBits v' r = (fs.freeBits v r).filter fun b => b ≠ (g, i) := by
    rw [Mount.freeBits, Mount.freeBits, freeBitsFrom, freeBitsFrom, List.filter_filter]
    apply List.filter_congr
    rintro ⟨g', j⟩ hmem
    obtain ⟨hg', hj⟩ := List.mem_product.1 hmem
    rw [h.bitOf_self r hl hg (by simpa using hg') (List.mem_range.1 hj)]
    simp [Bool.and_comm]
  have hnodup : ((g, i) :: rest).Nodup := hhead ▸ nodup_freeBits
  have hrest : ∀ b ∈ rest, b ≠ (g, i) := by
    rintro b hb rfl
    exact (List.nodup_cons.1 hnodup).1 hb
  rw [hfilter, hhead, List.filter_cons_of_neg (by simp), List.filter_eq_self]
  intro b hb
  exact decide_eq_true (hrest b hb)

theorem SameMeta.freeBits (h : fs.SameMeta v v') : fs.freeBits v' r = fs.freeBits v r :=
  freeBits_congr fun _ hg _ hi => h.bitOf hg hi

/-! ## The order of the search -/

theorem freeBitsFrom_succ : fs.freeBitsFrom v r grp (left + 1) =
    ((List.range (8 * fs.blockSize)).filter fun i => !fs.bitOf v v r grp i).map (Prod.mk grp) ++
      fs.freeBitsFrom v r (grp + 1) left := by
  rw [freeBitsFrom, List.range'_succ, List.product_cons, List.filter_append, List.filter_map]
  rfl

/-- A group of which all bits are set adds nothing. -/
theorem freeBitsFrom_of_full (h : ∀ i < 8 * fs.blockSize, fs.bitOf v v r grp i = true) :
    fs.freeBitsFrom v r grp (left + 1) = fs.freeBitsFrom v r (grp + 1) left := by
  have hnone : ((List.range (8 * fs.blockSize)).filter fun i => !fs.bitOf v v r grp i) = [] := by
    rw [List.filter_eq_nil_iff]
    intro i hi
    rw [h i (List.mem_range.1 hi)]
    decide
  rw [freeBitsFrom_succ, hnone, List.map_nil, List.nil_append]

/-- The first clear bit of a group comes first. -/
theorem freeBitsFrom_of_first (left : Nat) (hi : i < 8 * fs.blockSize) (hclear : fs.bitOf v v r grp i = false)
    (hbelow : ∀ j < i, fs.bitOf v v r grp j = true) :
    ∃ rest, fs.freeBitsFrom v r grp (left + 1) = (grp, i) :: rest := by
  have hhead : ((List.range (8 * fs.blockSize)).filter fun i => !fs.bitOf v v r grp i).head? =
      some i := by
    rw [List.head?_filter, List.find?_range_eq_some]
    refine ⟨by rw [hclear]; rfl, List.mem_range.2 hi, fun j hj => ?_⟩
    rw [hbelow j hj]
    rfl
  obtain ⟨l, hl⟩ := List.head?_eq_some_iff.1 hhead
  rw [freeBitsFrom_succ, hl, List.map_cons, List.cons_append]
  exact ⟨_, rfl⟩

section Search

variable (hi : fs.Image v) (hs : fs.InStep v) (hr : fs.Reliable)
include hi hs hr

/-- The search comes to the first of the clear bits in the groups it has before it. -/
theorem target_freeBits (hlast : grp + left = fs.nbBlockGroups) :
    (fs.target r 0 v left grp t = none → fs.freeBitsFrom v r grp left = []) ∧
      ∀ g i u, fs.target r 0 v left grp t = some (g, i, u) →
        ∃ rest, fs.freeBitsFrom v r grp left = (g, i) :: rest := by
  induction left generalizing grp t with
  | zero => exact ⟨fun _ => rfl, fun g i u h => by cases h⟩
  | succ left ih =>
    have hgroups := hi.tableFits
    have hgrp : addr32 (0 + grp) % fs.nbBlockGroups = grp := by
      rw [ataSectorSize] at hgroups
      rw [Nat.zero_add, addr32, Nat.mod_eq_of_lt (by omega), Nat.mod_eq_of_lt (by omega)]
    have hg : grp < fs.nbBlockGroups := by omega
    simp only [target, hgrp, hr t, Option.isSome_none, Bool.false_eq_true, if_false]
    split
    · rename_i hcount
      have hfull : ∀ i < 8 * fs.blockSize, fs.bitOf v v r grp i = true := by
        rw [hs.counts r grp hg] at hcount
        exact Mem.clearCount_eq_zero.1 hcount
      rw [freeBitsFrom_of_full hfull]
      exact ih (by omega)
    · cases hscan : (v.blk fs (v.bitmapBlk r grp)).firstClear 0 (r.scanned fs v) with
      | none =>
        have hfull : ∀ i < 8 * fs.blockSize, fs.bitOf v v r grp i = true := by
          intro i hbit
          by_contra hclear
          rw [Bool.not_eq_true] at hclear
          have hset := Mem.firstClear_eq_none hscan (Nat.zero_le i)
            (by rw [Nat.zero_add]; exact hi.lt_scanned hg hbit hclear)
          rw [bitOf, hset] at hclear
          cases hclear
        rw [freeBitsFrom_of_full hfull]
        exact ih (by omega)
      | some b =>
        obtain ⟨-, hlt, hclear, hbelow⟩ := Mem.firstClear_eq_some hscan
        have hscanned := hi.scanned_le r
        have hfirst := freeBitsFrom_of_first left (by omega) hclear
          fun j hj => hbelow j (Nat.zero_le _) hj
        refine ⟨fun h => (by cases h), fun g i u h => ?_⟩
        cases h
        exact hfirst

/-- An allocation takes the head of the list, and returns 0 when the list is empty. -/
theorem alloc_freeBits (r : Resource) :
    (fs.freeBits v r = [] ∧ ∃ t, fs.alloc r 0 v = .ok (0, v.after t)) ∨
      ∃ g i rest w, fs.freeBits v r = (g, i) :: rest ∧ fs.alloc r 0 v = .ok (r.number v g i, w) ∧
        fs.Taken v r g i w ∧ fs.freeBits w r = rest := by
  obtain ⟨hnone, hsome⟩ := target_freeBits (r := r) (t := v.transfers) hi hs hr (Nat.zero_add _)
  cases hchoice : fs.choice r 0 v with
  | none =>
    obtain ⟨t, halloc⟩ := alloc_of_none hi.fits (hi.scanned_le r) hchoice
    exact .inl ⟨hnone hchoice, t, halloc⟩
  | some c =>
    obtain ⟨g, i, t⟩ := c
    obtain ⟨hg, -, -, -⟩ := choice_spec hi.groups (hi.scanned_le r) hchoice
    obtain ⟨w, halloc, htaken⟩ := alloc_of_write hi.fits hi.layout hr.failsOnBitmaps
      (hi.scanned_le r) hchoice (hr _ _) hi.groups
    obtain ⟨rest, hhead⟩ := hsome g i t hchoice
    exact .inr ⟨g, i, rest, w, hhead, halloc, htaken, htaken.freeBits hi.layout hg hhead⟩

end Search

end Kaku.Mount

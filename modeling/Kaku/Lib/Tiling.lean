-- SUMMARY: Extents that tile an address range, by counting how often each address is covered.
import Mathlib.Data.List.Nodup
import Mathlib.Data.List.Perm.Basic

/-!
# Tilings

A list of extents tiles a range when every address of the range lies in exactly
one of them and no other address lies in any. Counting makes the notion
indifferent to the order of the list, and turns splitting and merging into
identities between counts.
-/

namespace Kaku

structure Extent where
  base : Nat
  len : Nat
  deriving DecidableEq

namespace Extent

def Has (e : Extent) (x : Nat) : Prop := e.base ≤ x ∧ x < e.base + e.len

instance (e : Extent) (x : Nat) : Decidable (e.Has x) := inferInstanceAs (Decidable (_ ∧ _))

def Disjoint (e f : Extent) : Prop := ∀ x, ¬ (e.Has x ∧ f.Has x)

variable {e f : Extent}

theorem Disjoint.symm (h : e.Disjoint f) : f.Disjoint e := fun x hx => h x ⟨hx.2, hx.1⟩

theorem Disjoint.apart (h : e.Disjoint f) (he : 0 < e.len) (hf : 0 < f.len) :
    e.base + e.len ≤ f.base ∨ f.base + f.len ≤ e.base := by
  by_contra hno
  apply h (max e.base f.base)
  simp only [Has]
  omega

end Extent

/-- How many of the extents contain the address. -/
def cover (es : List Extent) (x : Nat) : Nat := es.countP fun e => decide (e.Has x)

def Tiles (lo hi : Nat) (es : List Extent) : Prop :=
  ∀ x, cover es x = if lo ≤ x ∧ x < hi then 1 else 0

variable {es fs : List Extent} {e f : Extent} {lo hi b n k x : Nat}

theorem cover_cons : cover (e :: es) x = cover es x + if e.Has x then 1 else 0 := by
  simp [cover, List.countP_cons]

theorem cover_perm (h : es.Perm fs) : cover es x = cover fs x := h.countP_eq _

/-- An extent covers what its two halves cover. -/
theorem cover_split :
    cover (⟨b, n⟩ :: ⟨b + n, k⟩ :: es) x = cover (⟨b, n + k⟩ :: es) x := by
  have hhalves : (⟨b, n + k⟩ : Extent).Has x ↔
      (⟨b, n⟩ : Extent).Has x ∨ (⟨b + n, k⟩ : Extent).Has x := by
    simp only [Extent.Has]
    omega
  have hapart : ¬ ((⟨b, n⟩ : Extent).Has x ∧ (⟨b + n, k⟩ : Extent).Has x) := by
    simp only [Extent.Has]
    omega
  simp only [cover_cons, hhalves]
  by_cases h₁ : (⟨b, n⟩ : Extent).Has x <;> by_cases h₂ : (⟨b + n, k⟩ : Extent).Has x <;>
    simp_all

namespace Tiles

theorem perm (h : Tiles lo hi es) (hp : es.Perm fs) : Tiles lo hi fs := by
  intro x
  rw [← cover_perm hp]
  exact h x

theorem single (h : lo ≤ hi) : Tiles lo hi [⟨lo, hi - lo⟩] := by
  intro x
  have hrange : (⟨lo, hi - lo⟩ : Extent).Has x ↔ lo ≤ x ∧ x < hi := by
    simp only [Extent.Has]
    omega
  have hnil : cover [] x = 0 := rfl
  simp only [cover_cons, hrange, hnil, Nat.zero_add]

theorem split (h : Tiles lo hi (⟨b, n + k⟩ :: es)) : Tiles lo hi (⟨b, n⟩ :: ⟨b + n, k⟩ :: es) := by
  intro x
  rw [cover_split]
  exact h x

theorem merge (h : Tiles lo hi (⟨b, n⟩ :: ⟨b + n, k⟩ :: es)) : Tiles lo hi (⟨b, n + k⟩ :: es) := by
  intro x
  rw [← cover_split]
  exact h x

theorem pairwise (h : Tiles lo hi es) : es.Pairwise Extent.Disjoint := by
  have hone : ∀ x, cover es x ≤ 1 := by
    intro x
    rw [h x]
    split_ifs <;> omega
  clear h
  induction es with
  | nil => exact .nil
  | cons e es ih =>
    refine .cons ?_ (ih fun x => ?_)
    · rintro f hf x ⟨he, hfx⟩
      have hpos : 0 < cover es x := List.countP_pos_iff.2 ⟨f, hf, decide_eq_true hfx⟩
      have hle := hone x
      rw [cover_cons, if_pos he] at hle
      omega
    · have hle := hone x
      rw [cover_cons] at hle
      omega

theorem within (h : Tiles lo hi es) (he : e ∈ es) (hx : e.Has x) : lo ≤ x ∧ x < hi := by
  have hpos : 0 < cover es x := List.countP_pos_iff.2 ⟨e, he, decide_eq_true hx⟩
  rw [h x] at hpos
  by_contra hno
  rw [if_neg hno] at hpos
  omega

theorem bounds (h : Tiles lo hi es) (he : e ∈ es) (hlen : 0 < e.len) :
    lo ≤ e.base ∧ e.base + e.len ≤ hi := by
  have hfirst := h.within he (x := e.base) (by simp [Extent.Has]; omega)
  have hlast := h.within he (x := e.base + e.len - 1) (by simp [Extent.Has]; omega)
  omega

theorem total (h : Tiles lo hi es) (hlo : lo ≤ x) (hhi : x < hi) : ∃ e ∈ es, e.Has x := by
  have hone : 0 < cover es x := by
    rw [h x, if_pos ⟨hlo, hhi⟩]
    omega
  obtain ⟨e, he, hx⟩ := List.countP_pos_iff.1 hone
  exact ⟨e, he, of_decide_eq_true hx⟩

end Tiles

/-! ## Families of lists -/

/-- Adding an element to one list of a family adds it to their concatenation. -/
theorem flatMap_update_perm {α : Type*} {f g : Nat → List α} {n i : Nat} {a : α} (hi : i < n)
    (hat : (g i).Perm (a :: f i)) (hother : ∀ j, j ≠ i → g j = f j) :
    ((List.range n).flatMap g).Perm (a :: (List.range n).flatMap f) := by
  induction n with
  | zero => omega
  | succ n ih =>
    simp only [List.range_succ, List.flatMap_append, List.flatMap_singleton]
    by_cases hin : i = n
    · subst hin
      have hbefore : (List.range i).flatMap g = (List.range i).flatMap f := by
        apply List.flatMap_congr
        intro j hj
        exact hother j (by have := List.mem_range.1 hj; omega)
      rw [hbefore]
      exact (hat.append_left _).trans List.perm_middle
    · rw [hother n fun heq => hin heq.symm]
      exact (ih (by omega)).append_right _

end Kaku

-- SUMMARY: Dyadic cells, and why a fully coalesced family of them has no hidden room.
import Mathlib.Data.Nat.Basic
import Mathlib.Tactic.Ring

/-!
# Dyadic cells

The cell of order `o` and index `q` has the points `x` with `x / 2 ^ o = q`. Two
cells are nested or apart. A family is coalesced when it never has both halves of
a cell: every cell that such a family covers point by point is inside one cell of
the family.
-/

namespace Kaku.Dyadic

variable {F : Nat → Nat → Prop} {top j o q r x : Nat}

/-- No cell of order at most `top` has both of its halves in the family. -/
def Coalesced (F : Nat → Nat → Prop) (top : Nat) : Prop :=
  ∀ o < top, ∀ q, ¬ (F o (2 * q) ∧ F o (2 * q + 1))

/-- A cell is inside the cell of a higher order that its index points to. -/
theorem within (h : j ≤ o) (hq : r / 2 ^ (o - j) = q) :
    2 ^ o * q ≤ 2 ^ j * r ∧ 2 ^ j * r + 2 ^ j ≤ 2 ^ o * q + 2 ^ o := by
  have hsplit : 2 ^ o = 2 ^ j * 2 ^ (o - j) := by rw [← Nat.pow_add, Nat.add_sub_cancel' h]
  have hlo : 2 ^ (o - j) * q ≤ r := by
    rw [← hq]
    exact Nat.mul_div_le r _
  have hhi : r + 1 ≤ 2 ^ (o - j) * (q + 1) := by
    rw [← hq]
    exact Nat.lt_mul_div_succ r (Nat.two_pow_pos _)
  rw [hsplit]
  constructor
  · rw [Nat.mul_assoc]
    exact Nat.mul_le_mul_left _ hlo
  · calc 2 ^ j * r + 2 ^ j = 2 ^ j * (r + 1) := by ring
      _ ≤ 2 ^ j * (2 ^ (o - j) * (q + 1)) := Nat.mul_le_mul_left _ hhi
      _ = 2 ^ j * 2 ^ (o - j) * q + 2 ^ j * 2 ^ (o - j) := by ring

/-- Either half of a cell has points of the cell only. -/
theorem half_point {b : Nat} (hb : b < 2) (h : x / 2 ^ j = 2 * r + b) : x / 2 ^ (j + 1) = r := by
  rw [Nat.pow_succ, ← Nat.div_div_eq_div_mul, h]
  omega

/-- A cell whose points are all in cells of a coalesced family is inside one of them. -/
theorem Coalesced.covered (hF : Coalesced F top) (hj : j ≤ top)
    (hcover : ∀ x, x / 2 ^ j = r → ∃ o q, F o q ∧ x / 2 ^ o = q) :
    ∃ o q, j ≤ o ∧ F o q ∧ r / 2 ^ (o - j) = q := by
  induction j generalizing r with
  | zero =>
    obtain ⟨o, q, hq, hx⟩ := hcover r (by simp)
    exact ⟨o, q, Nat.zero_le o, hq, by simpa using hx⟩
  | succ j ih =>
    -- Each half is inside a cell of the family.
    have hhalf : ∀ b < 2, ∃ o q, j ≤ o ∧ F o q ∧ (2 * r + b) / 2 ^ (o - j) = q :=
      fun b hb => ih (by omega) fun x hx => hcover x (half_point hb hx)
    have hup : ∀ b < 2, ∀ o, j < o → (2 * r + b) / 2 ^ (o - j) = r / 2 ^ (o - (j + 1)) := by
      intro b hb o ho
      rw [show o - j = o - (j + 1) + 1 by omega, Nat.pow_succ', ← Nat.div_div_eq_div_mul,
        show (2 * r + b) / 2 = r by omega]
    obtain ⟨o₀, q₀, hle₀, hF₀, hq₀⟩ := hhalf 0 (by decide)
    obtain ⟨o₁, q₁, hle₁, hF₁, hq₁⟩ := hhalf 1 (by decide)
    rcases Nat.eq_or_lt_of_le hle₀ with rfl | hlt₀
    · rcases Nat.eq_or_lt_of_le hle₁ with rfl | hlt₁
      · -- Both halves are in the family themselves.
        rw [Nat.sub_self, Nat.pow_zero, Nat.div_one] at hq₀ hq₁
        subst hq₀ hq₁
        exact absurd ⟨hF₀, hF₁⟩ (hF j (by omega) r)
      · exact ⟨o₁, q₁, hlt₁, hF₁, by rw [← hup 1 (by decide) o₁ hlt₁, hq₁]⟩
    · exact ⟨o₀, q₀, hlt₀, hF₀, by rw [← hup 0 (by decide) o₀ hlt₀, hq₀]⟩

end Kaku.Dyadic

-- SUMMARY: What a computation that can fail comes to: a property of its result, or of its failure.
import Kaku.Lib.Except

/-!
# Outcomes

`Meets E P x` holds if the computation `x` returns something that satisfies `P`, or fails with
something that satisfies `E`. A sequence of computations is followed one at a time.
-/

namespace Kaku

variable {φ α β : Type} {E E' : φ → Prop} {P : α → Prop} {Q : β → Prop}

/-- What is returned satisfies `P`, and a failure satisfies `E`. -/
def Meets (E : φ → Prop) (P : α → Prop) : Except φ α → Prop
  | .ok a => P a
  | .error e => E e

namespace Meets

variable {x : Except φ α} {f : α → Except φ β}

theorem bind (hx : Meets E P x) (hf : ∀ a, P a → Meets E Q (f a)) : Meets E Q (x >>= f) := by
  cases x with
  | ok a => exact hf a hx
  | error e => exact hx

theorem mono {P' : α → Prop} (hx : Meets E P x) (hP : ∀ a, P a → P' a) : Meets E P' x := by
  cases x with
  | ok a => exact hP a hx
  | error e => exact hx

theorem mono_error (hx : Meets E P x) (hE : ∀ e, E e → E' e) : Meets E' P x := by
  cases x with
  | ok a => exact hx
  | error e => exact hE e hx

/-- A step that returns. -/
theorem step {a : α} (hx : x = .ok a) (hf : Meets E Q (f a)) : Meets E Q (x >>= f) := by
  rw [hx]
  exact hf

/-- What a computation returned, if it did. -/
theorem of_ok {a : α} (hx : Meets E P x) (h : x = .ok a) : P a := by
  rw [h] at hx
  exact hx

theorem cases (hx : Meets E P x) : (∃ a, x = .ok a ∧ P a) ∨ ∃ e, x = .error e ∧ E e := by
  cases x with
  | ok a => exact .inl ⟨a, rfl, hx⟩
  | error e => exact .inr ⟨e, rfl, hx⟩

end Meets

end Kaku

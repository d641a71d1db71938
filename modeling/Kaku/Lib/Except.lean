-- SUMMARY: Inversion of the error monad, used to take the kernel's step functions apart.
import Mathlib.Logic.Basic

/-!
# The error monad

Kernel code that can halt the machine is written in `Except`. A fact about such
a computation is derived from its successful outcome, so the one lemma needed is
inversion: a sequence succeeded exactly when both its halves did.
-/

namespace Kaku

variable {φ α β : Type}

@[simp] theorem bind_eq_ok {x : Except φ α} {f : α → Except φ β} {r : β} :
    (x >>= f) = .ok r ↔ ∃ a, x = .ok a ∧ f a = .ok r := by
  cases x with
  | error e => simp [bind, Except.bind]
  | ok a => simp [bind, Except.bind]

@[simp] theorem pure_eq_ok {a b : α} : (pure a : Except φ α) = .ok b ↔ a = b := by
  simp [pure, Except.pure]

@[simp] theorem ok_bind (a : α) (f : α → Except φ β) : (Except.ok a >>= f) = f a := rfl

@[simp] theorem error_bind (e : φ) (f : α → Except φ β) : (Except.error e >>= f) = .error e := rfl

/-- A decidable property of the outcome, by evaluation. -/
theorem toOption_any {x : Except φ α} {p : α → Bool} :
    x.toOption.any p = true ↔ ∃ a, x = .ok a ∧ p a = true := by
  cases x with
  | error e => simp [Except.toOption]
  | ok a => simp [Except.toOption]

end Kaku

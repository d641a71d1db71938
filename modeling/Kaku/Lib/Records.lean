-- SUMMARY: Records of varying length laid end to end, and the offsets at which they start.
import Mathlib.Data.List.Basic

/-!
# Records laid end to end

Each record tells its own length, so that only a walk from the first one finds
the others. `len o` is the length read at offset `o`.
-/

namespace Kaku

/-- The records from offset `a` to offset `b` start at exactly these offsets. -/
inductive Strides (len : Nat → Nat) : Nat → Nat → List Nat → Prop
  | nil {b : Nat} : Strides len b b []
  | cons {a b : Nat} {os : List Nat} :
      0 < len a → Strides len (a + len a) b os → Strides len a b (a :: os)

namespace Strides

variable {len len' : Nat → Nat} {a b c o : Nat} {os ps : List Nat}

theorem nil_iff : Strides len a b [] ↔ a = b := by
  constructor
  · intro h
    cases h
    rfl
  · rintro rfl
    exact .nil

theorem cons_iff :
    Strides len a b (o :: os) ↔ o = a ∧ 0 < len a ∧ Strides len (a + len a) b os := by
  constructor
  · intro h
    cases h with
    | cons hpos htail => exact ⟨rfl, hpos, htail⟩
  · rintro ⟨rfl, hpos, htail⟩
    exact .cons hpos htail

/-- The walk can be checked. -/
instance decidable (len : Nat → Nat) (a b : Nat) : (os : List Nat) → Decidable (Strides len a b os)
  | [] => decidable_of_iff (a = b) nil_iff.symm
  | o :: os =>
    have : Decidable (Strides len (a + len a) b os) := decidable len (a + len a) b os
    decidable_of_iff (o = a ∧ 0 < len a ∧ Strides len (a + len a) b os) cons_iff.symm

theorem le (h : Strides len a b os) : a ≤ b := by
  induction h with
  | nil => exact Nat.le_refl _
  | cons _ _ ih => omega

/-- A record lies between the two ends. -/
theorem mem (h : Strides len a b os) (ho : o ∈ os) : a ≤ o ∧ 0 < len o ∧ o + len o ≤ b := by
  induction h with
  | nil => cases ho
  | cons hpos htail ih =>
    rcases List.mem_cons.1 ho with rfl | ho
    · exact ⟨Nat.le_refl _, hpos, htail.le⟩
    · obtain ⟨hlo, hlen, hhi⟩ := ih ho
      exact ⟨by omega, hlen, hhi⟩

theorem unique (h : Strides len a b os) (h' : Strides len a b ps) : os = ps := by
  induction h generalizing ps with
  | nil =>
    cases h' with
    | nil => rfl
    | cons hpos htail =>
      have := htail.le
      omega
  | cons hpos htail ih =>
    cases h' with
    | nil =>
      have := htail.le
      omega
    | cons _ htail' => rw [ih htail']

theorem congr (h : Strides len a b os) (hsame : ∀ o ∈ os, len' o = len o) :
    Strides len' a b os := by
  induction h with
  | nil => exact .nil
  | @cons a b os hpos _ ih =>
    have hhead : len' a = len a := hsame a List.mem_cons_self
    refine .cons (by rwa [hhead]) ?_
    rw [hhead]
    exact ih fun o ho => hsame o (List.mem_cons_of_mem a ho)

theorem append (h : Strides len a b os) (h' : Strides len b c ps) :
    Strides len a c (os ++ ps) := by
  induction h with
  | nil => exact h'
  | cons hpos _ ih => exact .cons hpos (ih h')

/-- The last record ends where the walk ends, and the others end where it starts. -/
theorem of_concat (h : Strides len a b (os ++ [o])) :
    Strides len a o os ∧ 0 < len o ∧ o + len o = b := by
  induction os generalizing a with
  | nil =>
    cases h with
    | cons hpos htail =>
      cases htail with
      | nil => exact ⟨.nil, hpos, rfl⟩
  | cons p os ih =>
    cases h with
    | cons hpos htail =>
      obtain ⟨hinit, hlast⟩ := ih htail
      exact ⟨.cons hpos hinit, hlast⟩

theorem length_le (h : Strides len a b os) : os.length + a ≤ b := by
  induction h with
  | nil => simp
  | cons _ _ ih =>
    rw [List.length_cons]
    omega

theorem ne_nil (h : Strides len a b os) (hab : a < b) : os ≠ [] := by
  rintro rfl
  cases h
  exact Nat.lt_irrefl _ hab

end Strides

/-! ## Walks over anything -/

/-- The offsets that a walk from `a` comes to, if it goes on as long as it is below `e`.
Nothing is known of the records. -/
inductive Reached (len : Nat → Nat) (e : Nat) : Nat → Nat → Prop
  | refl {a : Nat} : Reached len e a a
  | step {a o : Nat} : a < e → Reached len e (a + len a) o → Reached len e a o

end Kaku

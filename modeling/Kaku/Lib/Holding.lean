-- SUMMARY: Exclusive ownership: resources held in slots, each in one slot at most, and a list that enumerates them.
import Mathlib.Data.List.Nodup
import Mathlib.Logic.Function.Basic

/-!
# Exclusive ownership

Slots hold resources. Ownership is exclusive when no resource is held in two
slots and every held one is in use. Taking a fresh resource into a slot, whatever
the slot held before, and dropping what a slot holds both keep ownership
exclusive; a ledger that lists the held resources follows along as long as no
slot is overwritten while it holds something.
-/

namespace Kaku

variable {κ ρ : Type*}

structure Exclusive (hold : κ → Option ρ) (used : ρ → Prop) : Prop where
  used : ∀ {k r}, hold k = some r → used r
  inj : ∀ {k l r}, hold k = some r → hold l = some r → k = l

/-- The list has every resource that some slot holds, once. -/
structure Enumerates (l : List ρ) (hold : κ → Option ρ) : Prop where
  nodup : l.Nodup
  mem_iff : ∀ r, r ∈ l ↔ ∃ k, hold k = some r

variable {hold : κ → Option ρ} {used used' : ρ → Prop} {k : κ} {r : ρ} {l l' : List ρ}

namespace Exclusive

theorem mono (h : Exclusive hold used) (hused : ∀ {x}, used x → used' x) :
    Exclusive hold used' where
  used := fun hk => hused (h.used hk)
  inj := h.inj

variable [DecidableEq κ]

/-- A slot takes a resource that no slot holds. -/
theorem take (h : Exclusive hold used) (hr : ∀ a, hold a ≠ some r) (hin : used r) :
    Exclusive (Function.update hold k (some r)) used where
  used := by
    intro a x ha
    by_cases hk : a = k
    · subst hk
      obtain rfl : r = x := by simpa using ha
      exact hin
    · rw [Function.update_of_ne hk] at ha
      exact h.used ha
  inj := by
    intro a b x ha hb
    by_cases hak : a = k
    · by_cases hbk : b = k
      · rw [hak, hbk]
      · subst hak
        obtain rfl : r = x := by simpa using ha
        rw [Function.update_of_ne hbk] at hb
        exact absurd hb (hr b)
    · rw [Function.update_of_ne hak] at ha
      by_cases hbk : b = k
      · subst hbk
        obtain rfl : r = x := by simpa using hb
        exact absurd ha (hr a)
      · rw [Function.update_of_ne hbk] at hb
        exact h.inj ha hb

/-- A slot drops what it holds, and that goes out of use. -/
theorem drop (h : Exclusive hold used) (hk : hold k = some r)
    (hused : ∀ {x}, used x → x ≠ r → used' x) :
    Exclusive (Function.update hold k none) used' where
  used := by
    intro a x ha
    by_cases hak : a = k
    · simp [hak] at ha
    · rw [Function.update_of_ne hak] at ha
      apply hused (h.used ha)
      rintro rfl
      exact hak (h.inj ha hk)
  inj := by
    intro a b x ha hb
    by_cases hak : a = k
    · simp [hak] at ha
    · by_cases hbk : b = k
      · simp [hbk] at hb
      · rw [Function.update_of_ne hak] at ha
        rw [Function.update_of_ne hbk] at hb
        exact h.inj ha hb

end Exclusive

namespace Enumerates

/-- Two enumerations of the same slots list the same resources. -/
theorem perm (h : Enumerates l hold) (h' : Enumerates l' hold) : l.Perm l' := by
  rw [List.perm_ext_iff_of_nodup h.nodup h'.nodup]
  intro r
  rw [h.mem_iff, h'.mem_iff]

variable [DecidableEq κ]

theorem take (h : Enumerates l hold) (hk : hold k = none) (hr : r ∉ l) :
    Enumerates (r :: l) (Function.update hold k (some r)) where
  nodup := List.nodup_cons.2 ⟨hr, h.nodup⟩
  mem_iff := by
    intro x
    rw [List.mem_cons, h.mem_iff]
    constructor
    · rintro (rfl | ⟨a, ha⟩)
      · exact ⟨k, by simp⟩
      · refine ⟨a, ?_⟩
        rw [Function.update_of_ne, ha]
        rintro rfl
        rw [hk] at ha
        cases ha
    · rintro ⟨a, ha⟩
      by_cases hak : a = k
      · left
        simpa [hak, eq_comm] using ha
      · right
        rw [Function.update_of_ne hak] at ha
        exact ⟨a, ha⟩

theorem drop [DecidableEq ρ] (h : Enumerates l hold) (hk : hold k = some r)
    (hinj : ∀ a, hold a = some r → a = k) :
    Enumerates (l.erase r) (Function.update hold k none) where
  nodup := h.nodup.erase r
  mem_iff := by
    intro x
    rw [h.nodup.mem_erase_iff, h.mem_iff]
    constructor
    · rintro ⟨hne, a, ha⟩
      refine ⟨a, ?_⟩
      rw [Function.update_of_ne, ha]
      rintro rfl
      rw [hk] at ha
      exact hne (Option.some.inj ha).symm
    · rintro ⟨a, ha⟩
      by_cases hak : a = k
      · simp [hak] at ha
      · rw [Function.update_of_ne hak] at ha
        refine ⟨?_, a, ha⟩
        rintro rfl
        exact hak (hinj a ha)

end Enumerates

end Kaku

-- SUMMARY: Null-terminated linked lists in memory: the nodes on them, pushing and unlinking.
import Mathlib.Data.List.Nodup

/-!
# Linked lists in memory

`next` gives the successor stored in a node, with 0 for the end of a list. A
finite list of nodes witnesses that following `next` from a head ends.
-/

namespace Kaku

/-- Following `next` from the head visits these nodes, and then ends. -/
inductive Chain (next : Nat → Nat) : Nat → List Nat → Prop
  | nil : Chain next 0 []
  | cons {a : Nat} {l : List Nat} : a ≠ 0 → Chain next (next a) l → Chain next a (a :: l)

namespace Chain

variable {next next' : Nat → Nat} {head a t p : Nat} {l l₁ l₂ : List Nat}

theorem congr (hsame : ∀ a ∈ l, next' a = next a) (h : Chain next head l) :
    Chain next' head l := by
  induction h with
  | nil => exact .nil
  | @cons a l ha _ ih =>
    refine .cons ha ?_
    rw [hsame a List.mem_cons_self]
    exact ih fun b hb => hsame b (List.mem_cons_of_mem a hb)

theorem head_cons (h : Chain next head (a :: l)) : head = a ∧ a ≠ 0 ∧ Chain next (next a) l := by
  cases h with
  | cons ha hl => exact ⟨rfl, ha, hl⟩

theorem nil_of_zero (h : Chain next 0 l) : l = [] := by
  cases h with
  | nil => rfl
  | cons ha _ => exact absurd rfl ha

theorem ne_nil (h : Chain next head l) (hhead : head ≠ 0) : ∃ l', l = head :: l' := by
  cases h with
  | nil => exact absurd rfl hhead
  | @cons _ l' _ _ => exact ⟨l', rfl⟩

/-- Splicing out the node after `p`. -/
theorem unlink (h : Chain next head (l₁ ++ p :: t :: l₂)) (hnd : (l₁ ++ p :: t :: l₂).Nodup)
    (hp : next' p = next t) (hsame : ∀ a ∈ l₁ ++ p :: t :: l₂, a ≠ p → next' a = next a) :
    Chain next' head (l₁ ++ p :: l₂) := by
  induction l₁ generalizing head with
  | nil =>
    obtain ⟨rfl, hp0, hrest⟩ := h.head_cons
    obtain ⟨-, -, htail⟩ := hrest.head_cons
    refine .cons hp0 ?_
    rw [hp]
    apply htail.congr
    intro a ha
    apply hsame a (by simp [ha])
    rintro rfl
    simp only [List.nil_append, List.nodup_cons, List.mem_cons, not_or] at hnd
    exact hnd.1.2 ha
  | cons b l₁ ih =>
    obtain ⟨rfl, hb0, hrest⟩ := h.head_cons
    rw [List.cons_append, List.nodup_cons] at hnd
    refine .cons hb0 ?_
    rw [hsame head (by simp) fun heq => hnd.1 (by simp [heq])]
    exact ih hrest hnd.2 fun a ha => hsame a (List.mem_cons_of_mem head ha)

end Chain

end Kaku

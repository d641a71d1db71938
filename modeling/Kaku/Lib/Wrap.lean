-- SUMMARY: Wrapping items into lines of limited width: each goes on the line that has been begun as long as it fits there.
import Mathlib.Algebra.GroupWithZero.Nat
import Mathlib.Algebra.Order.BigOperators.Group.List
import Mathlib.Data.List.Basic

/-!
# Wrapping

Items have widths, and there is one column between two items of a line. Filling line after line
loses no item and keeps their order, no line is wider than the limit unless a single item is, and
no arrangement of the items into lines that fit has fewer lines.
-/

namespace Kaku

variable {α : Type*} {width : α → Nat} {limit : Nat} {x : α} {xs line before behind : List α}
  {lines : List (List α)}

/-- The columns that a line takes: the widths of its items, and the gaps between them. -/
def lineWidth (width : α → Nat) (line : List α) : Nat := (line.map width).sum + (line.length - 1)

/-- The lines from the one that has been begun on. -/
def wrapFrom (width : α → Nat) (limit : Nat) : (line xs : List α) → List (List α)
  | line, [] => [line]
  | line, x :: xs =>
    if lineWidth width (line ++ [x]) ≤ limit then wrapFrom width limit (line ++ [x]) xs
    else line :: wrapFrom width limit [x] xs

def wrap (width : α → Nat) (limit : Nat) (xs : List α) : List (List α) := wrapFrom width limit [] xs

/-- The lines have the items in their order, fit unless a single item does not, and no lines that
fit are fewer. -/
structure Wrapped (width : α → Nat) (limit : Nat) (xs : List α) (lines : List (List α)) : Prop where
  order : lines.flatten = xs
  fits : ∀ l ∈ lines, lineWidth width l ≤ limit ∨ ∃ y, l = [y]
  fewest : ∀ others : List (List α), others ≠ [] → others.flatten = xs →
    (∀ l ∈ others, lineWidth width l ≤ limit) → lines.length ≤ others.length

/-! ## Widths -/

theorem lineWidth_concat (hne : line ≠ []) :
    lineWidth width (line ++ [x]) = lineWidth width line + 1 + width x := by
  have hpos := List.length_pos_of_ne_nil hne
  simp only [lineWidth, List.map_append, List.sum_append, List.map_singleton, List.sum_singleton,
    List.length_append, List.length_singleton]
  omega

theorem lineWidth_singleton : lineWidth width [x] = width x := by
  simp [lineWidth]

theorem lineWidth_append_le :
    lineWidth width before ≤ lineWidth width (before ++ behind) ∧
      lineWidth width behind ≤ lineWidth width (before ++ behind) := by
  simp only [lineWidth, List.map_append, List.sum_append, List.length_append]
  omega

/-! ## What the lines are -/

/-- Every item is on a line, in the order they came. -/
theorem flatten_wrapFrom : (wrapFrom width limit line xs).flatten = line ++ xs := by
  fun_induction wrapFrom width limit line xs with
  | case1 line => simp
  | case2 line x xs hfits ih => rw [ih, List.append_assoc, List.singleton_append]
  | case3 line x xs hfull ih => rw [List.flatten_cons, ih, List.singleton_append]

/-- A line fits, unless a single item does not. -/
theorem wrapFrom_fits (hline : lineWidth width line ≤ limit ∨ ∃ y, line = [y]) :
    ∀ l ∈ wrapFrom width limit line xs, lineWidth width l ≤ limit ∨ ∃ y, l = [y] := by
  fun_induction wrapFrom width limit line xs with
  | case1 line => simpa using hline
  | case2 line x xs hfits ih => exact ih (.inl hfits)
  | case3 line x xs hfull ih => exact List.forall_mem_cons.2 ⟨hline, ih (.inr ⟨x, rfl⟩)⟩

/-! ## No fewer lines -/

/-- An arrangement that starts with `before` on the line that has been begun. -/
theorem length_wrapFrom_le (hfirst : lineWidth width (line ++ before) ≤ limit)
    (hlines : ∀ l ∈ lines, lineWidth width l ≤ limit) (hxs : xs = before ++ lines.flatten) :
    (wrapFrom width limit line xs).length ≤ 1 + lines.length := by
  induction xs generalizing line before lines with
  | nil => exact Nat.le_add_right 1 _
  | cons x xs ih =>
    rw [wrapFrom]
    cases before with
    | cons y before =>
      obtain ⟨rfl, htail⟩ := List.cons.inj (hxs.trans List.cons_append)
      rw [← List.singleton_append, ← List.append_assoc] at hfirst
      rw [if_pos (lineWidth_append_le.1.trans hfirst)]
      exact ih hfirst hlines htail
    | nil =>
      -- the arrangement has gone on to the next line, which starts with `x`
      obtain ⟨empties, behind, rest, rfl, -, hxs⟩ := List.flatten_eq_cons_iff.1 hxs.symm
      obtain ⟨-, hnext, hrest⟩ := List.forall_mem_append.1 hlines |>.imp_right List.forall_mem_cons.1
      split_ifs with hfits
      · have hlength := ih (by rwa [List.append_nil])
          (List.forall_mem_cons.2 ⟨(lineWidth_append_le.2 : _ ≤ lineWidth width ([x] ++ behind)).trans hnext, hrest⟩) hxs
        simp only [List.length_cons, List.length_append] at hlength ⊢
        omega
      · have hlength := ih (show lineWidth width ([x] ++ behind) ≤ limit from hnext) hrest hxs
        simp only [List.length_cons, List.length_append] at hlength ⊢
        omega

/-- Filling line after line wraps the items. -/
theorem wrap_wrapped (width : α → Nat) (limit : Nat) (xs : List α) :
    Wrapped width limit xs (wrap width limit xs) where
  order := flatten_wrapFrom
  fits := wrapFrom_fits (.inl (Nat.zero_le limit))
  fewest others hne horder hfits := by
    obtain ⟨first, rest, rfl⟩ := List.exists_cons_of_ne_nil hne
    obtain ⟨hfirst, hrest⟩ := List.forall_mem_cons.1 hfits
    rw [List.length_cons, Nat.add_comm]
    exact length_wrapFrom_le hfirst hrest (horder.symm.trans List.flatten_cons)

end Kaku
